import PrivatePaas.Registry.Rewriting
import PrivatePaas.Results.Sample

/-!
# What many rewritings come to

Behind calls of `UpdateLbConfig` that do not overlap, each fragment holds what was
written to it last, or what it held before, and the configuration lists just these.
-/

namespace PrivatePaas
set_option autoImplicit false
open Files Text Effects Go Network Prog PrivatePaas.Parser

variable {Y : Yaml} {G : GoIpam} {cs ds : List ServiceEnvoyConfig} {c d : ServiceEnvoyConfig} {t t' t'' : Tree}

/-- The configuration that was written last to this file. -/
def lastFor (cs : List ServiceEnvoyConfig) (q : Path) : Option ServiceEnvoyConfig :=
  cs.reverse.find? fun c => serviceConfPath c.upstreamName = q

/-- What the fragment of this name says when the calls are over. -/
def settled (Y : Yaml) (t : Tree) (cs : List ServiceEnvoyConfig) (n : String) : Option ServiceEnvoyConfig :=
  (lastFor cs (envoyConfDir ++ [n])).or ((t.content (envoyConfDir ++ [n])).bind Y.unmarshalConfig)

/-- Calls that return, one after another; in between nobody touches the fragments. -/
inductive Updates (Y : Yaml) (G : GoIpam) : List ServiceEnvoyConfig → Tree → Tree → Prop where
  | none (t : Tree) : Updates Y G [] t t
  | call {cs : List ServiceEnvoyConfig} {c : ServiceEnvoyConfig} {t t' : Tree} {l : Local} {w : World}
      {f : Nat → Choice} (before : Updates Y G cs t t')
      (untouched : ∀ q, IsFragment q → w.fs.content q = t'.content q)
      (direct : IsFragment (serviceConfPath c.upstreamName)) (running : Running l w)
      (smooth : ∀ k, Smooth (f k))
      (returns : ((Host Y G).exec f l w (updateLbConfig Y c)).result = some ()) :
      Updates Y G (cs ++ [c]) t ((Host Y G).exec f l w (updateLbConfig Y c)).world.fs

theorem lastFor_concat (cs : List ServiceEnvoyConfig) (c : ServiceEnvoyConfig) (q : Path) :
    lastFor (cs ++ [c]) q = if serviceConfPath c.upstreamName = q then some c else lastFor cs q := by
  unfold lastFor
  rw [List.reverse_concat, List.find?_cons]
  split <;> simp_all

/-- One call from any tree. -/
theorem rewritten_of_exec {l : Local} {w : World} {f : Nat → Choice} (running : Running l w)
    (smooth : ∀ k, Smooth (f k)) (returns : ((Host Y G).exec f l w (updateLbConfig Y c)).result = some ()) :
    Rewritten Y c w.fs ((Host Y G).exec f l w (updateLbConfig Y c)).world.fs :=
  (System.wp_iff_exec (Y := Host Y G) (C := Smooth) ({} : Choice) rfl).mp (wp_updateLbConfig running) f
    smooth returns

/-- A fragment holds what was written to it last. -/
theorem Updates.content (h : Updates Y G cs t t') {q : Path} (hq : IsFragment q) :
    t'.content q = ((lastFor cs q).map Y.marshalConfig).or (t.content q) := by
  induction h with
  | none t => rfl
  | @call cs c t t' l w f before untouched direct running smooth returns ih =>
    have hr := @rewritten_of_exec Y G c l w f running smooth returns
    rw [lastFor_concat]
    by_cases hp : serviceConfPath c.upstreamName = q
    · subst hp
      rw [if_pos rfl, hr.stored direct.ne_config]
      rfl
    · rw [if_neg hp, hr.others q hq.yamlFile (Ne.symm hp) hq.ne_config, untouched q hq]
      exact ih

/-- The configuration is rendered from the fragments. -/
theorem Updates.text (h : Updates Y G cs t t') (hcs : cs ≠ []) : t'.content envoyConfig = some (rendering Y t') := by
  cases h with
  | none t => exact absurd rfl hcs
  | call before untouched direct running smooth returns => exact (rewritten_of_exec running smooth returns).text

theorem Updates.settled (hY : Y.Lawful) (h : Updates Y G cs t t') {n : String} (hn : ".yaml".toList <:+ n.toList) :
    (t'.content (envoyConfDir ++ [n])).bind Y.unmarshalConfig = settled Y t cs n := by
  rw [h.content ⟨n, rfl, hn⟩, PrivatePaas.settled]
  cases lastFor cs (envoyConfDir ++ [n]) with
  | none => rfl
  | some c => exact hY.config c

/-- The fragments, in the order of their names, are what the calls have settled. -/
theorem Updates.fragments (hY : Y.Lawful) (h : Updates Y G cs t t') : ∃ names : List String,
    names.Pairwise (· < ·) ∧
    (∀ n, n ∈ names ↔ ".yaml".toList <:+ n.toList ∧ (PrivatePaas.settled Y t cs n).isSome) ∧
    fragments Y t' = names.filterMap (PrivatePaas.settled Y t cs) := by
  have hread : ∀ n ∈ t'.files envoyConfDir ".yaml",
      (t'.content (envoyConfDir ++ [n])).bind Y.unmarshalConfig = PrivatePaas.settled Y t cs n :=
    fun n hn => h.settled hY (Tree.mem_files.mp hn).1
  have hsorted : (t'.files envoyConfDir ".yaml").Pairwise (· < ·) :=
    (Tree.pairwise_files.and Tree.nodup_files).imp fun hle => lt_of_le_of_ne hle.1 hle.2
  refine ⟨(t'.files envoyConfDir ".yaml").filter fun n => (PrivatePaas.settled Y t cs n).isSome,
    hsorted.filter _, fun n => ?_, ?_⟩
  · rw [List.mem_filter, Tree.mem_files]
    refine ⟨fun hn => ⟨hn.1.1, hn.2⟩, fun hn => ⟨⟨hn.1, ?_⟩, hn.2⟩⟩
    have hs := hn.2
    rw [← h.settled hY hn.1] at hs
    cases hc : t'.content (envoyConfDir ++ [n]) with
    | none =>
      rw [hc] at hs
      cases hs
    | some _ => rfl
  · unfold PrivatePaas.fragments
    rw [List.filterMap_congr hread, List.filterMap_filter]
    refine List.filterMap_congr fun n _ => ?_
    cases PrivatePaas.settled Y t cs n <;> rfl

/-- Calls that agree on what was written last end alike. -/
theorem Updates.unique (h : Updates Y G cs t t') (h' : Updates Y G ds t t'') (hcs : cs ≠ []) (hds : ds ≠ [])
    (hlast : ∀ q, IsFragment q → lastFor ds q = lastFor cs q) :
    (∀ q, IsFragment q → t''.content q = t'.content q) ∧ t''.content envoyConfig = t'.content envoyConfig := by
  have hsame : ∀ q, IsFragment q → t''.content q = t'.content q := by
    intro q hq
    rw [h.content hq, h'.content hq, hlast q hq]
  refine ⟨hsame, ?_⟩
  rw [h.text hcs, h'.text hds, rendering, rendering, fragments_congr hsame]

/-- Behind the calls the configuration lists, in the order of the file names, what was last
written to each fragment, or what a well-formed one held before; the order of the calls
does not matter beyond that, and a call that is repeated changes nothing. -/
theorem updates_settle (hY : Y.Lawful) (h : Updates Y G (cs ++ [c]) t t') :
    (∃ names : List String, names.Pairwise (· < ·) ∧
      (∀ n, n ∈ names ↔ ".yaml".toList <:+ n.toList ∧ (settled Y t (cs ++ [c]) n).isSome) ∧
      t'.content envoyConfig =
        some (envoyTmpl ((names.filterMap (settled Y t (cs ++ [c]))).map toEnvoyService))) ∧
    (∀ q, IsFragment q → t'.content q = ((lastFor (cs ++ [c]) q).map Y.marshalConfig).or (t.content q)) ∧
    (∀ ds d t'', Updates Y G (ds ++ [d]) t t'' →
      (∀ q, IsFragment q → lastFor (ds ++ [d]) q = lastFor (cs ++ [c]) q) →
      (∀ q, IsFragment q → t''.content q = t'.content q) ∧ t''.content envoyConfig = t'.content envoyConfig) ∧
    ∀ t'', Updates Y G [c] t' t'' →
      (∀ q, IsFragment q → t''.content q = t'.content q) ∧ t''.content envoyConfig = t'.content envoyConfig := by
  have hne : ∀ (ds : List ServiceEnvoyConfig) (d : ServiceEnvoyConfig), ds ++ [d] ≠ [] := by simp
  refine ⟨?_, fun q hq => h.content hq, fun ds d t'' h' hlast => h.unique h' (hne _ _) (hne _ _) hlast,
    fun t'' h' => ?_⟩
  · obtain ⟨names, hsorted, hnames, hfragments⟩ := h.fragments hY
    refine ⟨names, hsorted, hnames, ?_⟩
    rw [h.text (hne _ _), rendering, hfragments]
  · have hsame : ∀ q, IsFragment q → t''.content q = t'.content q := by
      intro q hq
      rw [h'.content hq, ← List.nil_append [c], lastFor_concat]
      split
      · rename_i hp
        rw [h.content hq, lastFor_concat, if_pos hp]
        rfl
      · rfl
    refine ⟨hsame, ?_⟩
    rw [h.text (hne _ _), h'.text (by simp), rendering, rendering, fragments_congr hsame]

section Sample

/-- The sample host with these files. -/
def wiredOn (t : Tree) : World := { Sample.wired with fs := t }

theorem caller_running (t : Tree) : Running Sample.caller (wiredOn t) :=
  ⟨⟨5, 5, .cli, 1, "", false⟩, List.mem_cons_self, rfl⟩

/-- What the outside decides in the samples. -/
def plainly : Nat → Choice := fun _ => { pid := 101 }

/-- A call from the sample process. -/
def updateOn (t : Tree) (c : ServiceEnvoyConfig) : (Host Sample.yaml lowestFree).Outcome Unit :=
  (Host Sample.yaml lowestFree).exec plainly Sample.caller (wiredOn t) (updateLbConfig Sample.yaml c)

theorem Updates.then (h : Updates Sample.yaml lowestFree cs t t') (hd : IsFragment (serviceConfPath c.upstreamName))
    (hr : (updateOn t' c).result = some ()) :
    Updates Sample.yaml lowestFree (cs ++ [c]) t (World.fs (updateOn t' c).world) :=
  .call h (fun _ _ => rfl) hd (caller_running t') (fun _ => rfl) hr

theorem twice_settled : ∃ t' : Tree,
    Updates Sample.yaml lowestFree [Sample.shop.service.lbConfig, Sample.blog.service.lbConfig] Sample.tree t' ∧
    t'.content (serviceConfPath "shop") = some (Sample.yaml.marshalConfig Sample.shop.service.lbConfig) := by
  have hshop : IsFragment (serviceConfPath "shop") := ⟨"shop.yaml", by decide, by decide⟩
  have hblog : IsFragment (serviceConfPath "blog") := ⟨"blog.yaml", by decide, by decide⟩
  have h₁ := (Updates.none (Y := Sample.yaml) (G := lowestFree) Sample.tree).then
    (c := Sample.shop.service.lbConfig) hshop (by decide +kernel)
  have h₂ := h₁.then (c := Sample.blog.service.lbConfig) hblog (by decide +kernel)
  exact ⟨_, h₂, (updates_settle Sample.yaml_lawful h₂).2.1 _ hshop⟩

end Sample
end PrivatePaas
