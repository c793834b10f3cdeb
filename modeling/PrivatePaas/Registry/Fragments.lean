import PrivatePaas.Host.Content
import PrivatePaas.Registry.Frame

/-!
# The fragments

What stands in a fragment was written there for the upstream that its name belongs to,
as long as no write of a fragment stops in the middle. Two fragments therefore never
have the same upstream.
-/

namespace PrivatePaas
set_option autoImplicit false
open Files Text Effects Network PrivatePaas.Parser

variable {Y : Yaml} {G : GoIpam} {ι : Type}

/-- A file that `UpdateLbConfig` finds when it lists the fragments. -/
def IsFragment (q : Path) : Prop := ∃ n, q = envoyConfDir ++ [n] ∧ ".yaml".toList <:+ n.toList

/-- Every fragment holds a configuration whose upstream has this fragment. -/
def InPlace (Y : Yaml) (t : Tree) : Prop :=
  ∀ q data, IsFragment q → t.content q = some data →
    ∃ c, data = Y.marshalConfig c ∧ serviceConfPath c.upstreamName = q

/-- The configurations in the fragments, in the order in which they are listed. -/
def fragments (Y : Yaml) (t : Tree) : List ServiceEnvoyConfig :=
  (t.files envoyConfDir ".yaml").filterMap fun n =>
    (t.content (envoyConfDir ++ [n])).bind Y.unmarshalConfig

/-- The Envoy configuration of the fragments. -/
def rendering (Y : Yaml) (t : Tree) : String := envoyTmpl ((fragments Y t).map toEnvoyService)

/-- Two fragments in place have different upstreams. -/
theorem nodup_upstreams {t : Tree} (hY : Y.Lawful) (h : InPlace Y t) :
    ((fragments Y t).map ServiceEnvoyConfig.upstreamName).Nodup := by
  have read : ∀ n ∈ t.files envoyConfDir ".yaml", ∀ c,
      (t.content (envoyConfDir ++ [n])).bind Y.unmarshalConfig = some c →
      serviceConfPath c.upstreamName = envoyConfDir ++ [n] := by
    intro n hn c hc
    obtain ⟨data, hdata, hc⟩ := Option.bind_eq_some_iff.mp hc
    obtain ⟨c', rfl, hpath⟩ := h _ data ⟨n, rfl, (Tree.mem_files.mp hn).1⟩ hdata
    rw [hY.config] at hc
    obtain rfl := Option.some.inj hc
    exact hpath
  unfold fragments
  rw [List.nodup_iff_pairwise_ne, List.pairwise_map, List.pairwise_filterMap]
  refine Tree.nodup_files.imp_of_mem fun hn hn' hne c hc c' hc' heq => hne ?_
  have hpath := read _ hn c hc
  rw [heq, read _ hn' c' hc'] at hpath
  simpa using hpath.symm

section Files
variable {c : Choice} {cwd : Path} {t : Tree}

theorem proper_clean (p : Path) : ∀ n ∈ clean p, Proper n := by
  have h : ∀ q : Path, (∀ n ∈ q, Proper n) → ∀ n ∈ p.foldl (fun q c =>
      if c = "" ∨ c = "." then q else if c = ".." then q.dropLast else q ++ [c]) q, Proper n := by
    induction p with
    | nil => exact fun q hq => hq
    | cons c p ih =>
      intro q hq
      refine ih _ fun n hn => ?_
      dsimp only at hn
      split at hn
      · exact hq n hn
      split at hn
      · exact hq n (List.mem_of_mem_dropLast hn)
      · rename_i h1 h2
        rcases List.mem_append.mp hn with hn | hn
        · exact hq n hn
        · obtain rfl := List.mem_singleton.mp hn
          exact ⟨fun h => h1 (.inl h), fun h => h1 (.inr h), h2⟩
  exact h [] nofun

theorem proper_serviceConfPath (upstream : String) : ∀ n ∈ serviceConfPath upstream, Proper n := proper_clean _

theorem eq_of_walk_root {p q : Path} (hp : ∀ n ∈ p, Proper n) (hw : t.walk [] p = .ok q) : q = p := by
  have h := Tree.eq_of_walk hp hw
  rwa [List.nil_append] at h

/-- A path of proper names is the only place where storing at it can change something. -/
theorem store_content_of_ne {p q : Path} {f : Option String → String} (hp : ∀ n ∈ p, Proper n) (hq : q ≠ p) :
    (FsOp.store t p f).2.content q = t.content q := by
  unfold FsOp.store
  cases h : t.update p f with
  | none => rfl
  | some t' =>
    obtain ⟨q', hw, _, _, hc, _⟩ := Tree.update_spec h
    obtain rfl := eq_of_walk_root hp hw
    exact (hc q).trans (if_neg hq)

theorem IsFragment.ne_config {q : Path} (h : IsFragment q) : q ≠ envoyConfig := by
  obtain ⟨n, rfl, _⟩ := h
  intro he
  have := congrArg List.length he
  simp [envoyConfDir, envoyConfig] at this

/-- An operation that writes neither to a fragment nor to a path that could be one. -/
def FsOp.OffFragments (o : FsOp) : Prop :=
  ∀ p, o.Writes p → (∃ n, Named p n ∧ ¬ ".yaml".toList <:+ n.toList) ∨ p = envoyConfig

theorem Harmless.notYaml {p : Path} (h : Harmless p) : ∃ n, Named p n ∧ ¬ ".yaml".toList <:+ n.toList := by
  obtain ⟨d, n, rfl, hn, _, hy⟩ := h
  exact ⟨n, .concat hn, hy⟩

/-- Of the operations that the rewriting allows, one writes a fragment. -/
theorem offFragments_of_ok {s : LbState} {o : FsOp} (h : (lb Y).ok s (.fs o)) :
    o.OffFragments ∨ ∃ c, o = .writeFile (serviceConfPath c.upstreamName) (Y.marshalConfig c) := by
  have hconfig : ∀ {o : FsOp} {p : Path}, (∀ q, o.Writes q → q = p) → p = envoyConfig → o.OffFragments :=
    fun hw hp q hq => .inr ((hw q hq).trans hp)
  have hharmless : ∀ {o : FsOp} {p : Path}, (∀ q, o.Writes q → q = p) → Harmless p → o.OffFragments :=
    fun hw hp q hq => .inl (hw q hq ▸ hp.notYaml)
  cases o with
  | writeFile p data =>
    rcases h with ⟨_, c, rfl, rfl⟩ | ⟨_, hp | rfl | ⟨hp, _⟩⟩
    · exact .inr ⟨c, rfl⟩
    · exact .inl (hharmless (fun q hq => hq) hp)
    · refine .inl fun q hq => .inl ⟨"envoy-paas.pid", ?_, by decide⟩
      obtain rfl : q = envoyPidFile := hq
      exact .concat (d := ["run"]) (by decide)
    · exact .inl (hconfig (fun q hq => hq) hp)
  | create p => exact .inl (hconfig (fun q hq => hq) h.1)
  | write p text => exact .inl (hconfig (fun q hq => hq) h.1)
  | openAppend p => exact .inl (hharmless (fun q hq => hq) h)
  | append p data => exact .inl (hharmless (fun q hq => hq) h)
  | initdb bin dir =>
    left
    intro q hq
    exact .inl (FsOp.named_of_initdb hq (by decide))
  | _ => exact .inl fun q hq => absurd hq id

/-- Such an operation leaves a yaml file other than the configuration as it is, or removes it. -/
theorem offFragments_yaml {o : FsOp} (h : o.OffFragments) {q : Path} (hq : YamlFile q) (hne : q ≠ envoyConfig) :
    (o.perform c cwd t).2.content q = t.content q ∨
      ∃ p, o = .remove p ∧ (o.perform c cwd t).2.content q = none := by
  obtain ⟨d, m, rfl, hm, hy⟩ := hq
  have hconfig : ∀ f, (FsOp.store t envoyConfig f).2.content (d ++ [m]) = t.content (d ++ [m]) := fun f =>
    store_content_of_ne (by decide) hne
  by_cases hw : ∀ p, o.Writes p → ∃ n, Named p n ∧ m ≠ n
  · exact FsOp.perform_content o (.concat hm) hw
  · have hwrites : o.Writes envoyConfig := by
      by_contra hno
      refine hw fun p hp => ?_
      rcases h p hp with ⟨n, hn, hyn⟩ | rfl
      · refine ⟨n, hn, ?_⟩
        rintro rfl
        exact hyn hy
      · exact absurd hp hno
    left
    cases o with
    | writeFile p data => obtain rfl : envoyConfig = p := hwrites; exact hconfig _
    | create p => obtain rfl : envoyConfig = p := hwrites; exact hconfig _
    | write p data =>
      obtain rfl : envoyConfig = p := hwrites
      simp only [FsOp.perform]
      split
      · rfl
      · exact hconfig _
    | openAppend p => obtain rfl : envoyConfig = p := hwrites; exact hconfig _
    | append p data => obtain rfl : envoyConfig = p := hwrites; exact hconfig _
    | initdb bin dir =>
      rcases hwrites with he | he
      · exact absurd he.symm (clean_ne_concat (d := ["run"]) (n := "envoy-paas.yaml") (by decide) (by decide))
      · exact absurd he.symm (clean_ne_concat (d := ["run"]) (n := "envoy-paas.yaml") (by decide) (by decide))
    | _ => exact absurd hwrites id

theorem offFragments_content {o : FsOp} (h : o.OffFragments) {q : Path} (hq : IsFragment q)
    (hp : ∀ n ∈ q, Proper n) : (o.perform c cwd t).2.content q = t.content q ∨
      (o.perform c cwd t).2.content q = none := by
  obtain ⟨m, rfl, hm⟩ := hq
  rcases @offFragments_yaml c cwd t o h _ ⟨envoyConfDir, m, rfl, hp m (by simp), hm⟩
    (IsFragment.ne_config ⟨m, rfl, hm⟩) with hc | ⟨_, _, hc⟩
  · exact .inl hc
  · exact .inr hc

theorem proper_of_content {q : Path} {data : String} (h : t.content q = some data) : ∀ n ∈ q, Proper n :=
  (t.fits q (Tree.mem_of_content h)).proper

theorem inPlace_off {o : FsOp} (h : InPlace Y t) (ho : o.OffFragments) :
    InPlace Y (o.perform c cwd t).2 := by
  intro q data hq hc
  rcases @offFragments_content c cwd t o ho q hq (proper_of_content hc) with hs | hs
  · exact h q data hq (hs ▸ hc)
  · rw [hs] at hc
    cases hc

theorem inPlace_write (h : InPlace Y t) (s : ServiceEnvoyConfig) :
    InPlace Y ((FsOp.writeFile (serviceConfPath s.upstreamName) (Y.marshalConfig s)).perform c cwd t).2 := by
  intro q data hq hc
  by_cases hqp : q = serviceConfPath s.upstreamName
  · simp only [FsOp.perform, FsOp.store] at hc
    cases hu : t.update (serviceConfPath s.upstreamName) fun _ => Y.marshalConfig s with
    | none =>
      rw [hu] at hc
      exact h q data hq hc
    | some t' =>
      rw [hu] at hc
      obtain ⟨q', hw, _, _, hcontent, _⟩ := Tree.update_spec hu
      obtain rfl := eq_of_walk_root (proper_serviceConfPath _) hw
      rw [show t'.content q = _ from hcontent q, if_pos hqp] at hc
      exact ⟨s, (Option.some.inj hc).symm, hqp.symm⟩
  · have hs : ((FsOp.writeFile (serviceConfPath s.upstreamName) (Y.marshalConfig s)).perform c cwd t).2.content q =
        t.content q := store_content_of_ne (proper_serviceConfPath _) hqp
    exact h q data hq (hs ▸ hc)

end Files
section Runs
variable [DecidableEq ι]

/-- No write of a fragment stops in the middle. -/
def Whole (m : Machine (Host Y G) ι) (e : Event (Host Y G) ι) : Prop :=
  ∀ i c loc upstream data k, m.Performs e i c loc (.fs (.writeFile (serviceConfPath upstream) data)) k →
    ∀ n, Choice.fault c = some (n + 1) → cutAt n data = data

omit [DecidableEq ι] in
theorem Faultless.whole {m : Machine (Host Y G) ι} {e : Event (Host Y G) ι} (h : Faultless e) : Whole m e := by
  intro i c loc upstream data k hp n hn
  rw [h.fault hp] at hn
  cases hn

/-- What is left of an operation off the fragments is one, too. -/
theorem FsOp.OffFragments.remnant {o o' : FsOp} {n : Nat} (h : o.OffFragments)
    (hr : Op.remnant n (.fs o) = some (.fs o')) : o'.OffFragments := by
  cases o <;> cases hr <;> exact h

theorem inPlace_perform {c : Choice} {l : Local} {w : World} {o : Op} (h : InPlace Y w.fs)
    (hok : (lb Y).ok l.lb o)
    (hwhole : ∀ upstream data, o = .fs (.writeFile (serviceConfPath upstream) data) →
      ∀ n, c.fault = some (n + 1) → cutAt n data = data) :
    InPlace Y (perform Y G c l w o).2.2.fs := by
  by_cases ho : o.IsFs
  · cases o with
    | fs o =>
      have hsafe := offFragments_of_ok hok
      have hfs : (perform Y G c l w (.fs o)).2.2.fs = (attempt G c l w (.fs o)).2.2.fs := rfl
      have hdone : InPlace Y (o.perform c w.cwd w.fs).2 := by
        rcases hsafe with hoff | ⟨s, rfl⟩
        · exact inPlace_off h hoff
        · exact inPlace_write h s
      rw [hfs]
      cases hf : c.fault with
      | none =>
        rw [attempt_ok hf]
        exact hdone
      | some n =>
        cases n with
        | zero =>
          rw [attempt_zero hf]
          exact h
        | succ n =>
          rw [attempt_succ hf]
          cases hr : Op.remnant n (.fs o) with
          | none => exact h
          | some o' =>
            obtain ⟨o'', rfl⟩ : ∃ o'', o' = .fs o'' := by
              cases o <;> cases hr <;> exact ⟨_, rfl⟩
            rcases hsafe with hoff | ⟨s, rfl⟩
            · exact inPlace_off h (hoff.remnant hr)
            · cases hr
              rw [hwhole _ _ rfl n hf]
              exact hdone
    | _ => exact absurd ho id
  · rw [perform_fs ho]
    exact h

/-- The fragments are in place, and every invocation keeps to the rewriting. -/
structure Shelved (m : Machine (Host Y G) ι) : Prop where
  lb : (lbWatch Y G).Holds m
  inPlace : InPlace Y (World.fs m.world)

theorem Shelved.step {m : Machine (Host Y G) ι} {e : Event (Host Y G) ι} (h : Shelved m) (hw : Whole m e) :
    Shelved (m.apply e) := by
  refine ⟨h.lb.apply e, ?_⟩
  apply Machine.apply_elim (P := fun m' => InPlace Y (World.fs m'.world)) m e
  case stay => exact h.inPlace
  case launched =>
    intro i x loc p w _ _ he
    rw [(enter_stores he).fs]
    exact h.inPlace
  case dead => exact fun i j _ _ => h.inPlace
  case ended => exact fun i j _ _ => h.inPlace
  case acted =>
    intro i c loc o k hp
    refine inPlace_perform h.inPlace (h.lb.ok hp) fun upstream data ho n hn => ?_
    subst ho
    exact hw i c loc upstream data k hp n hn
  case disturbed =>
    intro d _
    exact Eq.subst (motive := InPlace Y) (disturb_stores d).fs.symm h.inPlace

/-- In every run whose writes of fragments are whole, the fragments are in place. -/
theorem inPlace_run {m : Machine (Host Y G) ι} {es : List (Event (Host Y G) ι)} (hm : m.Idle)
    (h : InPlace Y (World.fs m.world)) (hes : m.Along Whole es) : InPlace Y (World.fs (m.run es).world) :=
  have hrun : Shelved (m.run es) :=
    Machine.run_of_step (fun _ _ => Shelved.step) ⟨(lbWatch Y G).holds_of_idle hm, h⟩ hes
  hrun.inPlace

end Runs
end PrivatePaas
