import PrivatePaas.Host.Links
import PrivatePaas.Registry.Frame

/-!
# What agrees in every state

The links are as the kernel keeps them, a namespace is that of a process that is there,
and a label is the number of an invocation that has begun.
-/

namespace PrivatePaas
set_option autoImplicit false
open Effects

namespace Procs
variable {t : Procs} {n : Nat}

theorem not_free {q : Proc} (h : q ∈ t) (hn : q.pid = n) : ¬ t.Free n := fun hf => hf q h hn

theorem exists_of_not_free (h : ¬ t.Free n) : ∃ q ∈ t, q.pid = n := by
  unfold Free at h
  push Not at h
  exact h

theorem not_free_add {q : Proc} {h : t.Free q.pid} : ¬ (t.add q h).Free n ↔ q.pid = n ∨ ¬ t.Free n := by
  constructor
  · intro hf
    obtain ⟨p, hp, hpid⟩ := exists_of_not_free hf
    rcases mem_add.mp hp with rfl | hp
    · exact .inl hpid
    · exact .inr (not_free hp hpid)
  · intro hf
    rcases hf with hq | hf
    · exact not_free (mem_add.mpr (.inl rfl)) hq
    · obtain ⟨p, hp, hpid⟩ := exists_of_not_free hf
      exact not_free (mem_add.mpr (.inr hp)) hpid

theorem not_free_term {f : Proc → Bool} (h : ¬ t.Free n) : ¬ (t.term f).Free n := by
  obtain ⟨p, hp, hpid⟩ := exists_of_not_free h
  obtain ⟨b, hb⟩ := mem_term (f := f) hp
  exact not_free hb hpid

end Procs

namespace Net
variable {t : Procs} {n : Net} {k : Link}

theorem mem_sweep : k ∈ (n.sweep t).links ↔ k ∈ n.links ∧ ¬ (k.ns ≠ 0 ∧ t.Free k.ns) ∧
    (k.pair = 0 ∨ k.pair ∉ (n.links.filter fun l => l.ns ≠ 0 ∧ t.Free l.ns).map Link.pair) := by
  simp only [sweep, List.mem_filter, decide_eq_true_eq]

theorem Sound.sweep (h : n.Sound) : (n.sweep t).Sound := by
  constructor
  · exact fun l hl => h.bound l (mem_sweep.mp hl).1
  · intro p hp
    exact (List.filter_sublist.countP_le).trans (h.ends p hp)
  · exact fun l hl => h.bridge l (mem_sweep.mp hl).1
  · exact fun l hl => h.named l (mem_sweep.mp hl).1

theorem Sound.addNamespace (h : n.Sound) (pid : Nat) : (n.addNamespace pid).Sound :=
  h.addBridge rfl (show validName (bytes "lo") = true by decide)

theorem place_spec {pid ns : Nat} (h : place t pid = some ns) : ns = 0 ∨ ¬ t.Free ns := by
  unfold place at h
  split at h
  · exact .inl (Option.some.inj h).symm
  · obtain ⟨q, hq, hns⟩ := Option.map_eq_some_iff.mp h
    split at hns
    · exact .inr (Procs.not_free (List.mem_of_find?_eq_some hq) hns)
    · exact .inl hns.symm

theorem spaces_modify {ns : Nat} {name : IfName} {f : Link → Link} {P : Nat → Prop}
    (h : ∀ l ∈ n.links, P l.ns) (hf : ∀ l, (f l).ns = l.ns ∨ P (f l).ns) :
    ∀ l ∈ (n.modify ns name f).links, P l.ns := by
  intro l hl
  obtain ⟨l', hl', rfl⟩ := mem_modify.mp hl
  split
  · rcases hf l' with he | he
    · rw [he]
      exact h l' hl'
    · exact he
  · exact h l' hl'

/-- A link is in the host's namespace or in that of a process. -/
theorem spaces_perform (h : ∀ l ∈ n.links, l.ns ≠ 0 → ¬ t.Free l.ns) (o : NetOp) :
    ∀ l ∈ (Net.perform t n o).2.links, l.ns ≠ 0 → ¬ t.Free l.ns := by
  have same : ∀ {ns : Nat} {name : IfName} {f : Link → Link}, (∀ l, (f l).ns = l.ns) →
      ∀ l ∈ (n.modify ns name f).links, l.ns ≠ 0 → ¬ t.Free l.ns := fun hf =>
    spaces_modify (P := fun s => s ≠ 0 → ¬ t.Free s) h fun l => .inl (hf l)
  cases o with
  | linkByName ns name => exact h
  | enterNs pid => exact h
  | linkDel name =>
    simp only [Net.perform]
    split
    · exact h
    · exact fun l hl => h l (mem_delete.mp hl).1
  | linkAddBridge name =>
    rcases addBridge_cases t n name with hp | ⟨c, _, hp⟩
    · rw [hp]
      exact h
    · rw [hp]
      intro l hl hns
      rcases List.mem_append.mp hl with hl | hl
      · exact h l hl hns
      · obtain rfl := List.mem_singleton.mp hl
        exact absurd rfl hns
  | linkAddVeth name peer =>
    rcases addVeth_cases t n name peer with hp | ⟨a, b, _, _, hp⟩
    · rw [hp]
      exact h
    · rw [hp]
      intro l hl hns
      rcases mem_plugged.mp hl with hl | rfl | rfl
      · exact h l hl hns
      · exact absurd rfl hns
      · exact absurd rfl hns
  | linkSetUp pid name =>
    simp only [Net.perform]
    split
    · exact h
    · split
      · exact same fun _ => rfl
      · exact h
  | addrAdd pid name cidr =>
    simp only [Net.perform]
    split
    · exact h
    · split
      · exact h
      · split
        · exact h
        · exact same fun _ => rfl
  | linkSetMaster name =>
    simp only [Net.perform]
    split
    · exact same fun _ => rfl
    · exact h
  | linkSetNs name pid =>
    simp only [Net.perform]
    split
    · exact h
    · rename_i ns hns
      split
      · refine spaces_modify (P := fun s => s ≠ 0 → ¬ t.Free s) h fun l => .inr fun h0 => ?_
        exact (place_spec hns).resolve_left h0
      · exact h
  | iptablesAppend pid r =>
    simp only [Net.perform]
    split <;> exact h

end Net

/-- The links are sound, each namespace belongs to a process that is there, and the labels
of records and workloads are numbers of invocations that have begun. -/
structure World.Coherent (w : World) : Prop where
  sound : w.net.Sound
  spaces : ∀ k ∈ w.net.links, k.ns ≠ 0 → ¬ w.procs.Free k.ns
  authors : ∀ key e, w.kv key = some e → e.author < w.nextId
  owners : ∀ q ∈ w.procs, q.role = .workload → q.owner < w.nextId

section Steps
variable {Y : Yaml} {G : GoIpam} {c : Choice} {l : Local} {w : World} {o : Op}

theorem coherent_blank (t : Files.Tree) (cwd : Files.Path) : (World.blank t cwd).Coherent where
  sound := Net.sound_blank
  spaces := nofun
  authors := nofun
  owners := by
    intro q hq hr
    obtain rfl := List.mem_singleton.mp hq
    cases hr

/-- Taking processes away takes their namespaces away. -/
theorem World.Coherent.keep (h : w.Coherent) (f : Proc → Bool) :
    (w.withProcs (w.procs.keep f)).Coherent where
  sound := h.sound.sweep
  spaces _ hk hns := fun hf => (Net.mem_sweep.mp hk).2.1 ⟨hns, hf⟩
  authors := h.authors
  owners q hq hr := h.owners q (Procs.mem_keep.mp hq).1 hr

theorem World.Coherent.start (h : w.Coherent) (hl : l.id < w.nextId) (cmd : Command) :
    (w.start l c cmd).2.Coherent := by
  unfold World.start
  split
  · rename_i hx
    refine ⟨h.sound.addNamespace _, ?_, h.authors, ?_⟩
    · intro k hk hns
      refine (Procs.not_free_add (h := hx.1)).mpr ?_
      rcases List.mem_append.mp hk with hk | hk
      · exact .inr (h.spaces k hk hns)
      · obtain rfl := List.mem_singleton.mp hk
        exact .inl rfl
    · intro q hq hr
      rcases (Procs.mem_add (h := hx.1)).mp hq with rfl | hq
      · exact hl
      · exact h.owners q hq hr
  · exact h

theorem World.Coherent.act (h : w.Coherent) (hl : l.id < w.nextId) :
    (PrivatePaas.act G c l w o).2.2.Coherent := by
  cases o with
  | fs o => exact ⟨h.sound, h.spaces, h.authors, h.owners⟩
  | probe o => exact h
  | ipam st o => cases st <;> exact ⟨h.sound, h.spaces, h.authors, h.owners⟩
  | net o => exact ⟨h.sound.perform o, Net.spaces_perform h.spaces o, h.authors, h.owners⟩
  | kv o =>
    refine ⟨h.sound, h.spaces, fun key e he => ?_, h.owners⟩
    cases o with
    | get k => exact h.authors key e he
    | set k text =>
      have he : Function.update w.kv k (some ⟨text, l.id⟩) key = some e := he
      by_cases hk : key = k
      · rw [hk, Function.update_self] at he
        obtain rfl := Option.some.inj he
        exact hl
      · rw [Function.update_of_ne hk] at he
        exact h.authors key e he
    | del k =>
      have he : Function.update w.kv k none key = some e := he
      by_cases hk : key = k
      · rw [hk, Function.update_self] at he
        cases he
      · rw [Function.update_of_ne hk] at he
        exact h.authors key e he
  | proc o =>
    cases o with
    | start cmd => exact h.start hl cmd
    | kill n sg =>
      cases sg with
      | sigkill => exact h.keep _
      | sigterm =>
        refine ⟨h.sound, fun k hk hns => Procs.not_free_term (h.spaces k hk hns), h.authors, ?_⟩
        intro q hq hr
        obtain ⟨p, hp, he⟩ := Procs.exists_of_mem_term hq
        rw [he] at hr ⊢
        exact h.owners p hp hr
    | _ => exact h

theorem World.Coherent.perform (h : w.Coherent) (hl : l.id < w.nextId) :
    (PrivatePaas.perform Y G c l w o).2.2.Coherent := by
  have hw : (attempt G c l w o).2.2.Coherent :=
    attempt_elim (P := fun x => x.2.2.Coherent) (h.act hl) h fun _ _ _ => h.act hl
  exact ⟨hw.sound, hw.spaces, hw.authors, hw.owners⟩

theorem perform_nextId : (perform Y G c l w o).2.2.nextId = w.nextId :=
  attempt_elim (P := fun x => x.2.2.nextId = w.nextId) act_rest.2.2 rfl fun _ _ _ => act_rest.2.2

theorem World.Coherent.add (h : w.Coherent) {q : Proc} (hf : w.procs.Free q.pid) (hq : q.role ≠ .workload)
    {n : Nat} (hn : w.nextId ≤ n) : World.Coherent { w with procs := w.procs.add q hf, nextId := n } where
  sound := h.sound
  spaces k hk hns := (Procs.not_free_add (h := hf)).mpr (.inr (h.spaces k hk hns))
  authors key e he := (h.authors key e he).trans_le hn
  owners p hp hr := by
    rcases (Procs.mem_add (h := hf)).mp hp with rfl | hp
    · exact absurd hr hq
    · exact (h.owners p hp hr).trans_le hn

theorem World.Coherent.enter (h : w.Coherent) {x : Launch} {w' : World} {p : Go Unit}
    (he : PrivatePaas.enter Y x w = some (l, p, w')) : w'.Coherent ∧ l.id = w.nextId ∧ w'.nextId = w.nextId + 1 := by
  unfold PrivatePaas.enter at he
  split at he
  · rename_i hf
    injection he with he
    injection he with hl he
    injection he with _ he
    subst hl he
    exact ⟨h.add (q := x.process w.nextId) hf.1 (by simp [Launch.process]) (Nat.le_succ _), rfl, rfl⟩
  · cases he

theorem World.Coherent.disturb (h : w.Coherent) (d : Env) : (PrivatePaas.disturb d w).Coherent := by
  cases d with
  | exit pid => exact h.keep _
  | spawn pid pgid =>
    unfold PrivatePaas.disturb
    dsimp only
    split
    · rename_i hf
      exact h.add (q := stranger pid pgid) hf (by simp [stranger]) le_rfl
    · exact h

theorem disturb_nextId (d : Env) : (disturb d w).nextId = w.nextId := by
  cases d with
  | exit pid => rfl
  | spawn pid pgid =>
    unfold disturb
    dsimp only
    split <;> rfl

end Steps

section Runs
variable {Y : Yaml} {G : GoIpam} {ι : Type} [DecidableEq ι]

/-- A coherent world, and invocations that have begun. -/
structure Coherent (m : Machine (Host Y G) ι) : Prop where
  world : World.Coherent m.world
  jobs : ∀ i j, m.jobs i = some j → Local.id j.loc < World.nextId m.world

theorem Coherent.put {m : Machine (Host Y G) ι} (h : Coherent m) {w : (Host Y G).World} {i : ι}
    {j : Option (Job (Host Y G))} (hw : World.Coherent w) (hn : World.nextId m.world ≤ World.nextId w)
    (hj : ∀ j', j = some j' → Local.id j'.loc < World.nextId w) :
    Coherent (⟨w, Function.update m.jobs i j⟩ : Machine (Host Y G) ι) := by
  refine ⟨hw, fun k j' hk => ?_⟩
  by_cases hki : k = i
  · subst k
    exact hj j' (by simpa using hk)
  · exact (h.jobs k j' (by simpa [Function.update_of_ne hki] using hk)).trans_le hn

theorem Coherent.step {m : Machine (Host Y G) ι} (h : Coherent m) (e : Event (Host Y G) ι) :
    Coherent (m.apply e) := by
  apply Machine.apply_elim (P := Coherent) m e
  case stay => exact h
  case launched =>
    intro i x loc p w _ _ he
    change PrivatePaas.enter Y x m.world = some (loc, p, w) at he
    obtain ⟨hw, hid, hn⟩ := h.world.enter he
    have hle : World.nextId m.world ≤ World.nextId w := hn ▸ Nat.le_succ _
    have hlt : Local.id loc < World.nextId w := by omega
    refine h.put hw hle fun j hj => ?_
    obtain rfl := Option.some.inj hj
    exact hlt
  case dead =>
    intro i j _ _
    refine h.put h.world le_rfl fun j' hj => ?_
    cases hj
  case ended =>
    intro i j _ _
    refine h.put (h.world.keep _) le_rfl fun j' hj => ?_
    cases hj
  case acted =>
    intro i c loc o k hp
    have hl : Local.id loc < World.nextId m.world := h.jobs i _ hp.2.1
    have hn : World.nextId ((Host Y G).perform c loc m.world o).2.2 = World.nextId m.world :=
      @perform_nextId Y G c loc m.world o
    refine h.put (h.world.perform hl) hn.ge fun j hj => ?_
    obtain rfl := Option.some.inj hj
    change Local.id loc < _
    rw [hn]
    exact hl
  case disturbed =>
    intro d _
    exact ⟨h.world.disturb d, fun i j hj => (h.jobs i j hj).trans_eq (disturb_nextId d).symm⟩

/-- Every state that a run from a coherent one comes to is coherent. -/
theorem coherent_run {m : Machine (Host Y G) ι} (hm : m.Idle) (hw : World.Coherent m.world)
    (es : List (Event (Host Y G) ι)) : Coherent (m.run es) := by
  have h : Coherent m := ⟨hw, fun i j hj => absurd ((hm i).symm.trans hj) nofun⟩
  clear hm hw
  induction es generalizing m with
  | nil => exact h
  | cons e es ih => exact ih (h.step e)

end Runs
end PrivatePaas
