import PrivatePaas.Codec
import PrivatePaas.Host.Routes
import PrivatePaas.Registry.Fragments
import PrivatePaas.Results.Sample

/-!
# Routing by port and domain

One listener is rendered for every fragment, whatever its port. Two services behind one
port therefore bind it twice.
-/

namespace PrivatePaas
set_option autoImplicit false
open Text Blocks PrivatePaas.Parser

section Rendering
variable {cs : List ServiceEnvoyConfig} {doc : Node}

theorem itoa_inj {m n : Int} (h : itoa m = itoa n) : m = n := by
  have hm := Codec.readInt_itoa m
  rw [h, Codec.readInt_itoa] at hm
  exact (Option.some.inj hm).symm

/-- What one side of a pairing has for each element of the other. -/
theorem map_of_forall₂ {α β γ : Type} {R : α → β → Prop} {f : α → γ} {g : β → γ} {as : List α} {bs : List β}
    (h : List.Forall₂ R as bs) (hfg : ∀ a b, R a b → g b = f a) : bs.map g = as.map f := by
  induction h with
  | nil => rfl
  | cons hab _ ih => rw [List.map_cons, List.map_cons, hfg _ _ hab, ih]

theorem exists_of_forall₂ {α β : Type} {R : α → β → Prop} {as : List α} {bs : List β}
    (h : List.Forall₂ R as bs) : (∀ a ∈ as, ∃ b ∈ bs, R a b) ∧ ∀ b ∈ bs, ∃ a ∈ as, R a b := by
  induction h with
  | nil => exact ⟨nofun, nofun⟩
  | cons hab _ ih => simp_all

/-- Among elements with different names one is found by its name. -/
theorem filter_name_eq {α β : Type} [DecidableEq β] {f : α → β} {l : List α} {a : α} (hl : (l.map f).Nodup)
    (ha : a ∈ l) : l.filter (fun x => f x = f a) = [a] := by
  induction l with
  | nil => cases ha
  | cons x l ih =>
    obtain ⟨hx, hl⟩ := List.nodup_cons.mp hl
    rcases List.mem_cons.mp ha with rfl | ha
    · have hnil : l.filter (fun x => f x = f a) = [] := by
        refine List.filter_eq_nil_iff.mpr fun y hy => ?_
        have hne : f y ≠ f a := fun heq => hx (heq ▸ List.mem_map_of_mem hy)
        simpa using hne
      simp [hnil]
    · have hne : f x ≠ f a := fun heq => hx (heq ▸ List.mem_map_of_mem ha)
      rw [List.filter_cons_of_neg (by simpa using hne), ih hl ha]

theorem oneLine_of_routed (h : doc.Over fun c => isBreak c = false) (hr : ∀ c ∈ cs, Serves doc c) :
    ∀ s ∈ cs.map toEnvoyService, OneLine s := by
  intro s hs
  obtain ⟨c, hc, rfl⟩ := List.mem_map.mp hs
  obtain ⟨l, hl, _, v, hv, _, k, hk, hends⟩ := hr c hc
  have hkmem := List.mem_filter.mp (hk ▸ List.mem_singleton_self k)
  have hvmem := List.mem_filter.mp (hv ▸ List.mem_singleton_self v)
  have hkover : k.Over _ := h.itemsAt k hkmem.1
  refine ⟨?_, ?_, ?_⟩
  · have hname := hkover.textAt (of_decide_eq_true hkmem.2)
    rw [String.toList_append] at hname
    exact oneLine_iff.mpr fun x hx => hname x (List.mem_append_right _ hx)
  · obtain ⟨f, hf, hvf⟩ := List.mem_flatMap.mp hvmem.1
    obtain ⟨g, hg, hvg⟩ := List.mem_flatMap.mp hvf
    have hvover := (((h.itemsAt l hl).itemsAt f hf).itemsAt g hg).itemsAt v hvg
    obtain ⟨d, hd, htext⟩ := List.mem_filterMap.mp (of_decide_eq_true hvmem.2)
    exact oneLine_iff.mpr ((hvover.itemsAt d hd).text htext)
  · intro e he
    obtain ⟨srv, hsrv, rfl⟩ := List.mem_map.mp he
    have hpair : (some (parseServer srv).address, some (itoa (parseServer srv).port)) ∈ endpoints k := by
      rw [hends]
      exact List.mem_map.mpr ⟨srv, hsrv, rfl⟩
    obtain ⟨f, hf, hp⟩ := List.mem_flatMap.mp hpair
    obtain ⟨x, hx, heq⟩ := List.mem_map.mp hp
    have haddress : x.textAt _ = some (parseServer srv).address := (Prod.mk.inj heq).1
    exact oneLine_iff.mpr (((hkover.itemsAt f hf).itemsAt x hx).textAt haddress)

theorem inline?_cluster {upstream : String} (h : PlainTail upstream.toList) :
    inline? ("cluster_".toList ++ upstream.toList) = some (.scalar ("cluster_" ++ upstream)) :=
  (inline?_cluster_iff upstream).mpr h

/-- A cluster that is found under its name has a name that can stand there. -/
theorem plainTail_of_serves {ss : List EnvoyService} (h : (envoyForest ss).value = some doc)
    {c : ServiceEnvoyConfig} (hc : Serves doc c) : PlainTail c.upstreamName.toList := by
  obtain ⟨_, _, _, _, _, _, k, hk, _⟩ := hc
  obtain ⟨hkmem, hname⟩ := List.mem_filter.mp (hk ▸ List.mem_singleton_self k)
  obtain ⟨s, _, hs⟩ := (exists_of_forall₂ (view_document h).2).2 k hkmem
  have hname := of_decide_eq_true hname
  rw [(view_cluster hs).1] at hname
  obtain ⟨x, hx, htext⟩ := Option.bind_eq_some_iff.mp hname
  obtain rfl := text?_eq_some.mp htext
  have hstart : plainStart ("cluster_".toList ++ s.upstreamName.toList) = true := rfl
  rw [inline?_eq_plain? hstart] at hx
  have htext := inline?_text.mpr (plainText_of_plain? hx)
  rw [String.toList_append] at htext
  exact (inline?_cluster_iff _).mp htext

/-- A domain that is routed can stand between quotes. -/
theorem quoted_of_serves {ss : List EnvoyService} (h : (envoyForest ss).value = some doc)
    {c : ServiceEnvoyConfig} (hc : Serves doc c) : c.domain.toList.all isQuoted = true := by
  obtain ⟨l, hl, _, v, hv, _⟩ := hc
  obtain ⟨hvmem, hdomain⟩ := List.mem_filter.mp (hv ▸ List.mem_singleton_self v)
  obtain ⟨s, _, hs⟩ := (exists_of_forall₂ (view_document h).1).2 l hl
  obtain ⟨_, v', hv', hat, _⟩ := view_listener hs
  rw [hv'] at hvmem
  obtain rfl := List.mem_singleton.mp hvmem
  obtain ⟨d, hd, htext⟩ := List.mem_filterMap.mp (of_decide_eq_true hdomain)
  unfold Node.itemsAt at hd
  rw [hat] at hd
  cases hx : inline? (domainsText s.domain) with
  | none =>
    rw [hx] at hd
    cases hd
  | some x =>
    rw [hx] at hd
    exact quoted_inline? hx d hd _ htext

/-- What a fragment must have to be served, seen from its own listener and cluster. -/
theorem safe_of_serves {ss : List EnvoyService} (h : (envoyForest ss).value = some doc)
    {c : ServiceEnvoyConfig} (hmem : toEnvoyService c ∈ ss) (hc : Serves doc c) : Safe (toEnvoyService c) := by
  have htail := plainTail_of_serves h hc
  refine ⟨htail, quoted_of_serves h hc, ?_⟩
  obtain ⟨_, _, _, _, _, _, k, hk, hends⟩ := hc
  obtain ⟨k', hk', hown⟩ := (exists_of_forall₂ (view_document h).2).1 _ hmem
  obtain ⟨hname, hends'⟩ := view_cluster hown
  have hname : clusterName k' = some ("cluster_" ++ c.upstreamName) :=
    hname.trans (by rw [toEnvoyService, inline?_cluster htail]; rfl)
  have hmem' : k' ∈ [k] := hk ▸ List.mem_filter.mpr ⟨hk', decide_eq_true hname⟩
  obtain rfl := List.mem_singleton.mp hmem'
  rw [hends] at hends'
  intro e he
  have hends' : c.servers.map _ = (c.servers.map parseServer).map _ := hends'
  rw [List.map_map, List.map_inj_left] at hends'
  obtain ⟨srv, hsrv, rfl⟩ := List.mem_map.mp he
  obtain ⟨haddress, _⟩ := Prod.mk.inj (hends' srv hsrv)
  obtain ⟨x, hx, htext⟩ := Option.bind_eq_some_iff.mp haddress.symm
  obtain rfl := text?_eq_some.mp htext
  exact inline?_text.mp hx

/-- What a fragment with fields that can stand where they are put is given. -/
theorem own_listener {ss : List EnvoyService} (h : (envoyForest ss).value = some doc)
    {c : ServiceEnvoyConfig} (hmem : toEnvoyService c ∈ ss) (hsafe : Safe (toEnvoyService c)) :
    ∃ l ∈ listeners doc, port l = some (itoa c.listenPort) ∧
      ∃ v, (virtualHosts l).filter (fun h => c.domain ∈ domains h) = [v] ∧
        routes v = [some ("cluster_" ++ c.upstreamName)] := by
  obtain ⟨l, hl, hown⟩ := (exists_of_forall₂ (view_document h).1).1 _ hmem
  obtain ⟨hport, v, hv, hat, hroutes⟩ := view_listener hown
  have hdomains : domains v = [c.domain, c.domain ++ ":*"] := by
    unfold domains Node.itemsAt
    rw [hat, (inline?_domains _).mpr hsafe.domain]
    rfl
  have hread := inline?_cluster hsafe.upstream
  refine ⟨l, hl, hport, v, ?_, ?_⟩
  · rw [hv]
    exact List.filter_eq_self.mpr fun x hx => by
      obtain rfl := List.mem_singleton.mp hx
      simp [hdomains]
  · rw [hroutes, hread]
    rfl

/-- A rendering routes every fragment exactly if their ports and their names are pairwise
different and all their fields can stand where they are put. -/
theorem routed_iff (cs : List ServiceEnvoyConfig) :
    (∃ doc, Blocks.read (envoyTmpl (cs.map toEnvoyService)) = some doc ∧ Routed doc cs) ↔
      (cs.map ServiceEnvoyConfig.listenPort).Nodup ∧ (cs.map ServiceEnvoyConfig.upstreamName).Nodup ∧
        ∀ c ∈ cs, Safe (toEnvoyService c) := by
  have ports : ∀ {doc}, (envoyForest (cs.map toEnvoyService)).value = some doc →
      (listeners doc).map port = (cs.map ServiceEnvoyConfig.listenPort).map fun p => some (itoa p) := by
    intro doc h
    rw [map_of_forall₂ (view_document h).1 fun s l hl => (view_listener hl).1, List.map_map, List.map_map]
    rfl
  have names : ∀ {doc}, (envoyForest (cs.map toEnvoyService)).value = some doc →
      (∀ c ∈ cs, Safe (toEnvoyService c)) → (clusters doc).map clusterName =
        (cs.map ServiceEnvoyConfig.upstreamName).map fun u => some ("cluster_" ++ u) := by
    intro doc h hsafe
    rw [map_of_forall₂ (view_document h).2 fun s k hk => (view_cluster hk).1, List.map_map, List.map_map]
    refine List.map_inj_left.mpr fun c hc => ?_
    have hread := inline?_cluster (hsafe c hc).upstream
    simp only [Function.comp_def, hread]
    rfl
  constructor
  · intro h
    obtain ⟨doc, hread, hrouted⟩ := h
    rw [read_envoyTmpl (oneLine_of_routed (over_read hread) hrouted.served)] at hread
    have hsafe : ∀ c ∈ cs, Safe (toEnvoyService c) := fun c hc =>
      safe_of_serves hread (List.mem_map_of_mem hc) (hrouted.served c hc)
    refine ⟨?_, ?_, hsafe⟩
    · have hbound := hrouted.bound
      rw [ports hread] at hbound
      exact hbound.of_map _
    · have hnodup : ((clusters doc).map clusterName).Nodup := by
        rw [List.nodup_iff_count_le_one]
        intro x
        by_cases hx : x ∈ (clusters doc).map clusterName
        · rw [names hread hsafe, List.map_map] at hx
          obtain ⟨c, hc, rfl⟩ := List.mem_map.mp hx
          obtain ⟨_, _, _, _, _, _, k, hk, _⟩ := hrouted.served c hc
          rw [List.count_eq_countP, List.countP_map, List.countP_eq_length_filter]
          have hlen := congrArg List.length hk
          simp only [List.length_singleton] at hlen
          refine Nat.le_of_eq (Eq.trans ?_ hlen)
          exact congrArg List.length (List.filter_congr fun x _ => beq_eq_decide ..)
        · rw [List.count_eq_zero_of_not_mem hx]
          omega
      rw [names hread hsafe] at hnodup
      exact hnodup.of_map _
  · intro h
    obtain ⟨hports, hnames, hsafe⟩ := h
    have hsafe' : ∀ s ∈ cs.map toEnvoyService, Safe s := by
      intro s hs
      obtain ⟨c, hc, rfl⟩ := List.mem_map.mp hs
      exact hsafe c hc
    have hvalue := (value_envoy (cs.map toEnvoyService)).mpr hsafe'
    refine ⟨_, (read_envoyTmpl fun s hs => (hsafe' s hs).oneLine).trans hvalue, ?_, fun c hc => ?_⟩
    · rw [ports hvalue]
      exact hports.map fun p q hpq => itoa_inj (Option.some.inj hpq)
    · obtain ⟨l, hl, hport, v, hv, hroutes⟩ := own_listener hvalue (List.mem_map_of_mem hc) (hsafe c hc)
      obtain ⟨k, hk, hown⟩ := (exists_of_forall₂ (view_document hvalue).2).1 _ (List.mem_map_of_mem hc)
      obtain ⟨hname, hends⟩ := view_cluster hown
      have hname : clusterName k = some ("cluster_" ++ c.upstreamName) :=
        hname.trans (by rw [inline?_cluster (hsafe c hc).upstream]; rfl)
      have hnodup : ((clusters (document (cs.map toEnvoyService))).map clusterName).Nodup := by
        rw [names hvalue hsafe]
        exact hnames.map fun u v huv => by simpa using huv
      refine ⟨l, hl, hport, v, hv, hroutes, k, ?_, ?_⟩
      · rw [← hname]
        exact filter_name_eq hnodup hk
      · rw [hends]
        change (c.servers.map parseServer).map _ = _
        rw [List.map_map]
        refine List.map_inj_left.mpr fun srv hsrv => ?_
        have haddress := (hsafe c hc).address _ (List.mem_map_of_mem hsrv)
        simp only [Function.comp_def, inline?_text.mpr haddress]
        rfl

end Rendering

open Effects

/-- The configuration that is rendered from the fragments of a tree routes them all. -/
def Unambiguous (Y : Yaml) (t : Files.Tree) : Prop :=
  ∃ doc, Blocks.read (rendering Y t) = some doc ∧ Routed doc (fragments Y t)

namespace Sample

/-- Two services that differ in port, and two that share one. -/
def apart : List ServiceEnvoyConfig :=
  [⟨"shop", ["10.0.0.2:8888"], 8082, "shop.local"⟩, ⟨"blog", ["10.0.0.3:8888"], 8083, "blog.local"⟩]

def onePort : List ServiceEnvoyConfig :=
  [⟨"shop", ["10.0.0.2:8888"], 8082, "shop.local"⟩, ⟨"blog", ["10.0.0.3:8888"], 8082, "blog.local"⟩]

/-- The load balancer is updated for one after the other. -/
def updates (cs : List ServiceEnvoyConfig) : List (SampleEvent Unit) :=
  cs.flatMap fun c => .launch () ⟨.updateLb c, 100, 0⟩ :: steps () 60 101

theorem start_inPlace : InPlace yaml (World.fs (start (ι := Unit)).world) := by
  intro q data hq hc
  obtain ⟨n, rfl, _⟩ := hq
  have hnone : ∀ p ∈ tree.nodes.keys, p.dropLast ≠ envoyConfDir := by decide +kernel
  exact absurd (List.dropLast_concat ..) (hnone _ (AList.mem_keys.mp (Files.Tree.mem_of_content hc)))

end Sample
open Sample

end PrivatePaas
