import PrivatePaas.Registry.Rules

/-!
# A create up to its record

`Poised` is how a create stands before it has started its process, `Born` how it stands
from then on. Nothing in between writes a record, and the new process has a namespace in
which there is only what the create puts there.
-/

namespace PrivatePaas
set_option autoImplicit false
open Files Text Effects Go Network Prog PrivatePaas.Parser

variable {Y : Yaml} {G : GoIpam} {α β : Type}
variable {C : (Host Y G).Choice → Prop} {l : Local} {w : World} {me : Nat} {p : Proc}

namespace Net
variable {t : Procs} {n : Net}

/-- There is the bridge. -/
def HasBridge (n : Net) : Prop := ∃ k ∈ n.links, k.ns = 0 ∧ k.name = br0 ∧ k.pair = 0

theorem HasBridge.modify (h : n.HasBridge) {ns : Nat} {name : IfName} {f : Link → Link}
    (hf : (∀ k, (f k).ns = k.ns ∧ (f k).name = k.name ∧ (f k).pair = k.pair) ∨ name ≠ br0) :
    (n.modify ns name f).HasBridge := by
  obtain ⟨k, hk, hns, hname, hp⟩ := h
  refine ⟨_, mem_modify.mpr ⟨k, hk, rfl⟩, ?_⟩
  split
  · rename_i hm
    rcases hf with hf | hne
    · obtain ⟨h1, h2, h3⟩ := hf k
      exact ⟨h1.trans hns, h2.trans hname, h3.trans hp⟩
    · exact absurd (hm.2.symm.trans hname) hne
  · exact ⟨hns, hname, hp⟩

theorem HasBridge.perform (h : n.HasBridge) {o : NetOp} (ho : o.SparesBridge) :
    (Net.perform t n o).2.HasBridge := by
  have append : ∀ ks m, HasBridge { n with links := n.links ++ ks, pairs := m } := by
    intro ks m
    obtain ⟨k, hk, hk'⟩ := h
    exact ⟨k, List.mem_append_left _ hk, hk'⟩
  cases o with
  | linkByName ns name => exact h
  | enterNs pid => exact h
  | linkDel name =>
    simp only [Net.perform]
    split
    · exact h
    · rename_i k' hk'
      obtain ⟨k, hk, hns, hname, hp⟩ := h
      refine ⟨k, mem_delete.mpr ⟨hk, fun hm => ho ?_, ?_⟩, hns, hname, hp⟩
      · exact ((find_spec hk').2.2.symm.trans hm.2.symm).trans hname
      · by_cases h0 : k'.pair = 0
        · exact .inl h0
        · exact .inr fun hkk => h0 (hkk.symm.trans hp)
  | linkAddBridge name =>
    rcases addBridge_cases t n name with hp | ⟨c, _, hp⟩
    · rw [hp]
      exact h
    · rw [hp]
      exact append _ _
  | linkAddVeth name peer =>
    rcases addVeth_cases t n name peer with hp | ⟨a, b, _, _, hp⟩
    · rw [hp]
      exact h
    · rw [hp]
      exact append _ _
  | linkSetUp pid name =>
    simp only [Net.perform]
    split
    · exact h
    · split
      · exact h.modify (.inl fun _ => ⟨rfl, rfl, rfl⟩)
      · exact h
  | addrAdd pid name cidr =>
    simp only [Net.perform]
    split
    · exact h
    · split
      · exact h
      · split
        · exact h
        · exact h.modify (.inl fun _ => ⟨rfl, rfl, rfl⟩)
  | linkSetMaster name =>
    simp only [Net.perform]
    split
    · exact h.modify (.inl fun _ => ⟨rfl, rfl, rfl⟩)
    · exact h
  | linkSetNs name pid =>
    simp only [Net.perform]
    split
    · exact h
    · split
      · exact h.modify (.inr ho)
      · exact h
  | iptablesAppend pid r =>
    simp only [Net.perform]
    split <;> exact h

end Net

namespace Net
variable {t : Procs} {n : Net}

theorem hasBridge_of_find (h : n.Sound) {k : Link} (hf : n.find 0 br0 = some k) (hb : k.bridge = true) :
    n.HasBridge := by
  obtain ⟨hk, hns, hname⟩ := find_spec hf
  exact ⟨k, hk, hns, hname, h.bridge k hk hb⟩

/-- Nothing has come into a namespace but the host's. -/
def Within (n n' : Net) : Prop := ∀ k ∈ n'.links, k.ns ≠ 0 → k ∈ n.links

theorem within_modify (n : Net) (name : IfName) {f : Link → Link} (hf : ∀ k, (f k).ns = k.ns) :
    n.Within (n.modify 0 name f) := by
  intro k hk hns
  obtain ⟨k', hk', rfl⟩ := mem_modify.mp hk
  split
  · rename_i hm
    rw [if_pos hm, hf k'] at hns
    exact absurd hm.1 hns
  · exact hk'

theorem Within.trans {n₁ n₂ n₃ : Net} (h : n₁.Within n₂) (h' : n₂.Within n₃) : n₁.Within n₃ :=
  fun k hk hns => h k (h' k hk hns) hns

theorem within_addBridge (n : Net) (name : IfName) : n.Within (perform t n (.linkAddBridge name)).2 := by
  intro k hk hns
  rcases addBridge_cases t n name with hp | ⟨c, _, hp⟩
  · rwa [hp] at hk
  · rw [hp] at hk
    rcases List.mem_append.mp hk with hk | hk
    · exact hk
    · obtain rfl := List.mem_singleton.mp hk
      exact absurd rfl hns

theorem within_setUp (n : Net) (name : IfName) : n.Within (perform t n (.linkSetUp 0 name)).2 := by
  simp only [perform, place_zero]
  split
  · exact within_modify n name fun _ => rfl
  · exact fun k hk _ => hk

theorem within_addrAdd (n : Net) (name : IfName) (cidr : String) :
    n.Within (perform t n (.addrAdd 0 name cidr)).2 := by
  simp only [perform, place_zero]
  split
  · exact fun k hk _ => hk
  · split
    · exact fun k hk _ => hk
    · exact within_modify n name fun _ => rfl

/-- The bridge is there when `CreateBridge` returns. -/
theorem exec_createBridge (h : n.Sound) : ((exec t n createBridge).1 = some () →
      (exec t n createBridge).2.HasBridge) ∧ (exec t n createBridge).2.Sound ∧
    n.Within (exec t n createBridge).2 := by
  have look : ∀ n : Net, n.Sound → (perform t n (.linkByName 0 br0)).1 = some true → n.HasBridge := by
    intro n hn hr
    obtain ⟨l, hl, hb⟩ := Option.map_eq_some_iff.mp hr
    exact hasBridge_of_find hn hl hb
  unfold createBridge
  simp only [Go.linkByName, Go.linkAddBridge, Go.linkSetUp, Go.addrAdd, call_bind, ret_bind, exec_net]
  by_cases hfirst : (perform t n (.linkByName 0 br0)).1 = some true
  · rw [if_pos hfirst]
    exact ⟨fun _ => look n h hfirst, h, fun k hk _ => hk⟩
  rw [if_neg hfirst]
  simp only [exec_net]
  have hs₁ := h.perform (t := t) (.linkAddBridge br0)
  have hw₁ := within_addBridge (t := t) n br0
  have hs₂ := hs₁.perform (t := t) (.linkSetUp 0 br0)
  have hw₂ := hw₁.trans (within_setUp (t := t) _ br0)
  have hs₃ := hs₂.perform (t := t) (.addrAdd 0 br0 "10.0.0.254/24")
  have hw₃ := hw₂.trans (within_addrAdd (t := t) _ br0 "10.0.0.254/24")
  split
  · rename_i hlast
    exact ⟨fun _ => look _ hs₃ hlast, hs₃, hw₃⟩
  · exact ⟨nofun, hs₃, hw₃⟩

end Net

/-- No record is of this invocation. -/
def World.Unwritten (w : World) (me : Nat) : Prop := ∀ key e, w.kv key = some e → e.author ≠ me

/-- An invocation that has not started a process and not written a record. -/
structure Poised (me : Nat) (l : Local) (w : World) : Prop where
  self : l.id = me
  running : Running l w
  unwritten : w.Unwritten me
  childless : ∀ q ∈ w.procs, q.role = .workload → q.owner ≠ me
  sound : w.net.Sound
  spaces : ∀ k ∈ w.net.links, k.ns ≠ 0 → ¬ w.procs.Free k.ns

/-- An invocation that has started the process `p`. -/
structure Parent (me : Nat) (p : Proc) (l : Local) (w : World) : Prop where
  self : l.id = me
  running : Running l w
  unwritten : w.Unwritten me
  mem : p ∈ w.procs
  role : p.role = .workload
  owner : p.owner = me
  only : ∀ q ∈ w.procs, q.role = .workload → q.owner = me → q = p
  pid : 1 < p.pid

/-- Its process runs in a namespace with a loopback link and nothing else. -/
structure Born (me : Nat) (p : Proc) (l : Local) (w : World) : Prop extends Parent me p l w where
  sound : w.net.Sound
  lone : ∀ k ∈ w.net.links, k.ns = p.pid → k.name = bytes "lo" ∧ k.pair = 0

theorem Poised.undisturbed {l' : Local} {w' : World} (h : Poised me l w) (hu : Undisturbed l w l' w') :
    Poised me l' w' := by
  refine ⟨hu.same.id.trans h.self, h.running.of_procs hu.same hu.procs, ?_, ?_, ?_, ?_⟩
  · unfold World.Unwritten
    rw [hu.kv]
    exact h.unwritten
  · rw [hu.procs]
    exact h.childless
  · rw [hu.net]
    exact h.sound
  · rw [hu.net, hu.procs]
    exact h.spaces

theorem Parent.undisturbed {l' : Local} {w' : World} (h : Parent me p l w) (hu : Undisturbed l w l' w') :
    Parent me p l' w' := by
  refine ⟨hu.same.id.trans h.self, h.running.of_procs hu.same hu.procs, ?_, ?_, h.role, h.owner, ?_, h.pid⟩
  · unfold World.Unwritten
    rw [hu.kv]
    exact h.unwritten
  · rw [hu.procs]
    exact h.mem
  · rw [hu.procs]
    exact h.only

theorem Born.undisturbed {l' : Local} {w' : World} (h : Born me p l w) (hu : Undisturbed l w l' w') :
    Born me p l' w' := by
  refine ⟨h.toParent.undisturbed hu, ?_, ?_⟩
  · rw [hu.net]
    exact h.sound
  · rw [hu.net]
    exact h.lone

/-- A start adds a process with a namespace of its own. -/
theorem start_some {c : Choice} {cmd : Command} {pid : Nat} (h : (w.start l c cmd).1 = some pid) :
    ∃ hf : w.procs.Free pid, 1 < pid ∧ (w.start l c cmd).2 =
      { w with procs := w.procs.add (l.started cmd pid) hf, net := w.net.addNamespace pid } := by
  unfold World.start at h ⊢
  split at h
  · rename_i hx
    obtain rfl := Option.some.inj h
    exact ⟨hx.1, hx.2.1, by rw [dif_pos hx]⟩
  · cases h

theorem start_none {c : Choice} {cmd : Command} (h : (w.start l c cmd).1 = none) :
    (w.start l c cmd).2 = w := by
  unfold World.start at h ⊢
  split at h
  · cases h
  · rename_i hx
    rw [dif_neg hx]

theorem Running.add {q : Proc} (h : Running l w) (hf : w.procs.Free q.pid) {w' : World}
    (hw : w'.procs = w.procs.add q hf) : Running l w' := by
  obtain ⟨p, hp, hown⟩ := h
  exact ⟨p, hw ▸ Procs.mem_add.mpr (.inr hp), hown⟩

theorem Running.term {f : Proc → Bool} (h : Running l w) {w' : World} (hw : w'.procs = w.procs.term f) :
    Running l w' := by
  obtain ⟨p, hp, hown⟩ := h
  obtain ⟨b, hb⟩ := Procs.mem_term (f := f) hp
  exact ⟨{ p with termed := b }, hw ▸ hb, hown⟩

/-- It is there behind whatever is no SIGKILL. -/
theorem running_perform {c : Choice} {o : Op} (h : Running l w) (ho : ∀ n, o ≠ .proc (.kill n .sigkill)) :
    Running (perform Y G c l w o).2.1 (perform Y G c l w o).2.2 := by
  have hsame : l.Same (perform Y G c l w o).2.1 := same_perform
  rcases @perform_procs_cases Y G c l w o with he | ⟨cmd, hfree, _, he⟩ | ⟨n, hk, _⟩ | ⟨n, _, he⟩
  · exact h.of_procs hsame he
  · exact (h.add hfree he).of_procs hsame rfl
  · exact absurd hk (ho n)
  · exact (h.term he).of_procs hsame rfl

theorem Poised.act {c : Choice} {o : Op} (h : Poised me l w) (ho : Steady o) :
    Poised me l (PrivatePaas.act G c l w o).2.2 := by
  cases o with
  | kv o => cases ho
  | net o =>
    exact ⟨h.self, h.running, h.unwritten, h.childless, h.sound.perform o, Net.spaces_perform h.spaces o⟩
  | fs o => exact ⟨h.self, h.running, h.unwritten, h.childless, h.sound, h.spaces⟩
  | probe o => exact h
  | ipam st o =>
    cases st <;> exact ⟨h.self, h.running, h.unwritten, h.childless, h.sound, h.spaces⟩
  | proc o =>
    cases o with
    | start cmd =>
      change Poised me l (w.start l c cmd).2
      have hc : cmd.isWorkload = false := ho
      cases hs : (w.start l c cmd).1 with
      | none =>
        rw [start_none hs]
        exact h
      | some pid =>
        obtain ⟨hf, hpid, hw⟩ := start_some hs
        rw [hw]
        refine ⟨h.self, h.running.add hf rfl, h.unwritten, ?_, h.sound.addNamespace _, ?_⟩
        · intro q hq hr
          rcases (Procs.mem_add (h := hf)).mp hq with rfl | hq
          · simp [Local.started, hc] at hr
          · exact h.childless q hq hr
        · intro k hk hns
          refine (Procs.not_free_add (h := hf)).mpr ?_
          rcases List.mem_append.mp hk with hk | hk
          · exact .inr (h.spaces k hk hns)
          · obtain rfl := List.mem_singleton.mp hk
            exact .inl rfl
    | kill n sg =>
      obtain rfl : sg = .sigterm := ho
      refine ⟨h.self, h.running.term (f := l.aims n) rfl, h.unwritten, ?_, h.sound,
        fun k hk hns => Procs.not_free_term (h.spaces k hk hns)⟩
      intro q hq hr
      obtain ⟨q', hq', he⟩ := Procs.exists_of_mem_term hq
      rw [he] at hr ⊢
      exact h.childless q' hq' hr
    | _ => exact h

theorem hasBridge_act {c : Choice} {o : Op} (h : w.net.HasBridge) (ho : Steady o) :
    (PrivatePaas.act G c l w o).2.2.net.HasBridge := by
  cases o with
  | net o => exact h.perform ho
  | ipam st o => cases st <;> exact h
  | proc o =>
    cases o with
    | start cmd =>
      change (w.start l c cmd).2.net.HasBridge
      cases hs : (w.start l c cmd).1 with
      | none =>
        rw [start_none hs]
        exact h
      | some pid =>
        obtain ⟨_, _, hw⟩ := start_some hs
        rw [hw]
        obtain ⟨k, hk, hk'⟩ := h
        exact ⟨k, List.mem_append_left _ hk, hk'⟩
    | kill n sg =>
      obtain rfl : sg = .sigterm := ho
      exact h
    | _ => exact h
  | _ => exact h

theorem Steady.remnant {n : Nat} {o o' : Op} (h : Steady o) (hr : o.remnant n = some o') : Steady o' := by
  cases o with
  | fs o => cases o <;> cases hr <;> trivial
  | proc o => cases hr
  | _ => cases hr; exact h

theorem Poised.past (h : Poised me l w) (l' : Local) (hl : l.Same l') (past : Past) :
    Poised me l' { w with past := past } :=
  ⟨hl.id.trans h.self, h.running.of_procs hl rfl, h.unwritten, h.childless, h.sound, h.spaces⟩

/-- A steady operation, whether it fails or not. -/
theorem Poised.perform {c : Choice} {o : Op} (h : Poised me l w) (ho : Steady o) :
    Poised me (PrivatePaas.perform Y G c l w o).2.1 (PrivatePaas.perform Y G c l w o).2.2 := by
  have hw : Poised me l (attempt G c l w o).2.2 :=
    attempt_elim (P := fun x => Poised me l x.2.2) (h.act ho) h fun _ _ hr => h.act (ho.remnant hr)
  exact hw.past _ same_perform _

theorem hasBridge_perform {c : Choice} {o : Op} (h : w.net.HasBridge) (ho : Steady o) :
    (PrivatePaas.perform Y G c l w o).2.2.net.HasBridge := by
  have hw : (attempt G c l w o).2.2.net.HasBridge :=
    attempt_elim (P := fun x => x.2.2.net.HasBridge) (hasBridge_act h ho) h
      fun _ _ hr => hasBridge_act h (ho.remnant hr)
  exact hw

/-- What comes behind steady operations finds the create as it was, and the bridge. -/
theorem wp_steady_bind {p : Go α} {f : α → Go β} {Q : Option β → Local → World → Prop} (hp : p.Only Steady)
    (h : Poised me l w) (hb : w.net.HasBridge)
    (hf : ∀ a l' w', Poised me l' w' → w'.net.HasBridge → (Host Y G).wp C Q l' w' (f a))
    (hn : ∀ l' w', w'.Unwritten me → Q none l' w') : (Host Y G).wp C Q l w (p >>= f) := by
  have hsteady := System.wp_of_only (Y := Host Y G) (C := C)
    (I := fun l' w' => Poised me l' w' ∧ Net.HasBridge (World.net w'))
    (fun _ _ _ _ _ ho hI _ => ⟨hI.1.perform ho, hasBridge_perform hI.2 ho⟩) hp ⟨h, hb⟩
  refine System.wp_bind (System.wp_mono (fun r l' w' hI => ?_) hsteady)
  cases r with
  | none => exact hn l' w' hI.1.unwritten
  | some a => exact hf a l' w' hI.1 hI.2

theorem Poised.net (h : Poised me l w) {l' : Local} (hl : l.Same l') {n : Net} (hs : n.Sound)
    (hn : w.net.Within n) : Poised me l' { w with net := n } :=
  ⟨hl.id.trans h.self, h.running.of_procs hl rfl, h.unwritten, h.childless, hs,
    fun k hk hns => h.spaces k (hn k hk hns) hns⟩

theorem Parent.net (h : Parent me p l w) {l' : Local} (hl : l.Same l') (n : Net) :
    Parent me p l' { w with net := n } :=
  ⟨hl.id.trans h.self, h.running.of_procs hl rfl, h.unwritten, h.mem, h.role, h.owner, h.only, h.pid⟩

theorem Born.net (h : Born me p l w) {l' : Local} (hl : l.Same l') {n : Net} (hs : n.Sound)
    (hn : w.net.Within n) : Born me p l' { w with net := n } :=
  ⟨h.toParent.net hl n, hs, fun k hk hns => h.lone k (hn k hk (by have := h.pid; omega)) hns⟩

theorem isNet_createBridge : Only Op.IsNet createBridge := by
  simp [createBridge, Op.IsNet]

/-- Behind `CreateBridge` there is the bridge. -/
theorem wp_createBridge {f : Unit → Go β} {Q : Option β → Local → World → Prop} (hs : w.net.Sound)
    (hr : Running l w)
    (hf : ∀ l' n, l.Same l' → n.Sound → n.HasBridge → w.net.Within n →
      (Host Y G).wp Smooth Q l' { w with net := n } (f ()))
    (hn : ∀ l' n, l.Same l' → Q none l' { w with net := n }) :
    (Host Y G).wp Smooth Q l w (createBridge >>= f) := by
  refine System.wp_bind (System.wp_mono (fun r l' w' he => ?_) (wp_net isNet_createBridge hr))
  obtain ⟨hl, hr, rfl⟩ := he
  obtain ⟨hb, hs', hw⟩ := Net.exec_createBridge (t := w.procs) hs
  cases r with
  | none => exact hn l' _ hl
  | some a => exact hf l' _ hl hs' (hb hr.symm) hw

/-- The start of the process: it fails, or the process is born. -/
theorem wp_start {cmd : Command} {k : Option Nat → Go β} {Q : Option β → Local → World → Prop}
    (hc : cmd.isWorkload = true) (h : Poised me l w)
    (hf : ∀ p l' w', Born me p l' w' → (w.net.HasBridge → w'.net.HasBridge) →
      (Host Y G).wp C Q l' w' (k (some p.pid)))
    (hn : ∀ l' w', Poised me l' w' → (Host Y G).wp C Q l' w' (k none)) :
    (Host Y G).wp C Q l w (.call (.proc (.start cmd)) k) := by
  refine wp_alive h.running fun c _ => ?_
  have hp : ∀ r w', attempt G c l w (.proc (.start cmd)) = (r, l.mem, w') →
      (perform Y G c l w (.proc (.start cmd))).1 = r ∧ (perform Y G c l w (.proc (.start cmd))).2.2 =
        { w' with past := w'.past.record l w (.proc (.start cmd)) r } := by
    intro r w' he
    unfold perform
    rw [he]
    exact ⟨rfl, rfl⟩
  have fails : attempt G c l w (.proc (.start cmd)) = (none, l.mem, w) → (Host Y G).wp C Q
      (perform Y G c l w (.proc (.start cmd))).2.1 (perform Y G c l w (.proc (.start cmd))).2.2
      (k (perform Y G c l w (.proc (.start cmd))).1) := by
    intro he
    obtain ⟨hr, hw⟩ := hp _ _ he
    rw [hr, hw]
    exact hn _ _ (h.past _ same_perform _)
  by_cases hfault : c.fault = none
  · have he : attempt G c l w (.proc (.start cmd)) =
        ((w.start l c cmd).1, l.mem, (w.start l c cmd).2) := attempt_ok hfault
    cases hs : (w.start l c cmd).1 with
    | none =>
      rw [hs, start_none hs] at he
      exact fails he
    | some pid =>
      obtain ⟨hfree, hpid, hw⟩ := start_some hs
      rw [hs, hw] at he
      obtain ⟨hr, hw⟩ := hp _ _ he
      rw [hr, hw]
      refine hf (l.started cmd pid) _ _ ?_ fun ⟨k, hk, hk'⟩ => ⟨k, List.mem_append_left _ hk, hk'⟩
      refine ⟨⟨h.self, ?_, h.unwritten, (Procs.mem_add (h := hfree)).mpr (.inl rfl), ?_, h.self, ?_, hpid⟩,
        ?_, ?_⟩
      · exact (h.running.add (q := l.started cmd pid) hfree rfl).of_procs same_perform rfl
      · exact if_pos hc
      · intro q hq hr ho
        rcases (Procs.mem_add (h := hfree)).mp hq with rfl | hq
        · rfl
        · exact absurd ho (h.childless q hq hr)
      · exact h.sound.addNamespace _
      · intro k hk hns
        rcases List.mem_append.mp hk with hk | hk
        · have hns : k.ns = pid := hns
          have htaken := h.spaces k hk (by omega)
          rw [hns] at htaken
          exact absurd hfree htaken
        · obtain rfl := List.mem_singleton.mp hk
          exact ⟨rfl, rfl⟩
  · exact fails (attempt_proc hfault)

theorem Parent.place (h : Parent me p l w) : Net.place w.procs p.pid = some p.pid := by
  have hfind : w.procs.all.find? (·.pid = p.pid) = some p := by
    cases hf : w.procs.all.find? (·.pid = p.pid) with
    | none => exact absurd (List.find?_eq_none.mp hf p h.mem) (by simp)
    | some q =>
      have hq := List.find?_some hf
      rw [Procs.eq_of_pid (List.mem_of_find?_eq_some hf) h.mem (of_decide_eq_true hq)]
  have h0 : p.pid ≠ 0 := by
    have := h.pid
    omega
  unfold Net.place
  rw [if_neg h0, hfind, Option.map_some, if_pos (.inl h.role)]

/-- The process has an interface with this address, whose other end is on the bridge. -/
def Net.Linked (n : Net) (pid : Nat) (ip : String) : Prop :=
  ∃ a b o i, Attached pid a b n o i ∧ i.addrs = [cidrOf ip]

/-- Nothing in the namespace is the end of a pair. -/
def Net.Alone (n : Net) (pid : Nat) : Prop := ∀ k ∈ n.links, k.ns = pid → k.pair = 0

theorem Net.Alone.not_linked {n : Net} {pid : Nat} (h : n.Alone pid) (ip : String) : ¬ n.Linked pid ip := by
  rintro ⟨a, b, o, i, ⟨_, ⟨hi, hns, _⟩, hp, hpair⟩, _⟩
  exact hp (hpair.symm.trans (h i hi hns))

/-- Whether the kernel takes the names of the interfaces of a workload of this name as they are. -/
def Nameable (name : String) : Prop := Net.validName (vethNames (bytes ("v-" ++ name)) 0).2 = true

instance (name : String) : Decidable (Nameable name) :=
  inferInstanceAs (Decidable (Net.validName (vethNames (bytes ("v-" ++ name)) 0).2 = true))

/-- Where nothing fails the process is connected, if its name allows it. -/
theorem wp_connect (h : Born me p l w) (hb : w.net.HasBridge) (ip name : String) :
    (Host Y G).wp Smooth (fun _ l' w' => Parent me p l' w' ∧
      (Nameable name → parseAddr (Net.cidrOf ip) = true → w'.net.Linked p.pid ip) ∧
      (¬ Nameable name → w'.net.Alone p.pid)) l w
      (connectProcessToBridge p.pid ip (bytes ("v-" ++ name))) := by
  have hnet := (connects_connectProcess p.pid ip (bytes ("v-" ++ name))).mono fun _ => Op.Connects.isNet
  refine System.wp_mono (fun r l' w' he => ?_) (wp_net hnet h.running)
  obtain ⟨hl, _, rfl⟩ := he
  obtain ⟨hin, hout, hlo⟩ := vethNames_ne_fixed name p.pid
  have hvalid : Net.validName (vethNames (bytes ("v-" ++ name)) p.pid).2 = true ↔ Nameable name := by
    rw [validName_vethNames_pid _ p.pid 0]
    rfl
  have hpid : p.pid ≠ 0 := by
    have := h.pid
    omega
  refine ⟨h.toParent.net hl _, fun hname hparse => ?_, fun hname => ?_⟩
  · have hv := hvalid.mpr hname
    have hready : Net.Ready w.procs w.net p.pid (vethNames (bytes ("v-" ++ name)) p.pid).1
        (vethNames (bytes ("v-" ++ name)) p.pid).2 := by
      refine ⟨hb, (validName_vethNames _ _).trans hv, hv, vethNames_ne _ _ _ _, hin, hout, hlo, h.place, hpid, ?_⟩
      intro k hk hk'
      exact hlo (hk'.2.symm.trans (h.lone k hk hk'.1).1)
    obtain ⟨n, o, i, hexec, hatt, haddrs, _⟩ := hready.attached ip _ rfl
    rw [hexec]
    exact ⟨_, _, o, i, hatt, haddrs hparse⟩
  · have hv := Bool.eq_false_iff.mpr (hvalid.not.mpr hname)
    rw [← validName_vethNames] at hv
    obtain ⟨_, hold⟩ := Net.exec_connect_refused (t := w.procs) h.sound ip _ rfl hv
    intro k hk hns
    exact (h.lone k (hold k hk fun h0 => hpid (hns.symm.trans h0)) hns).2

/-- The process with this pid has been started, and it has been connected if `linked`. -/
def Launched (me : Nat) (linked : Prop) (ip : String) (pid : Nat) (l : Local) (w : World) : Prop :=
  ∃ p, Parent me p l w ∧ p.pid = pid ∧
    (linked → parseAddr (Net.cidrOf ip) = true → w.net.Linked p.pid ip) ∧ (¬ linked → w.net.Alone p.pid)

theorem Launched.undisturbed {linked : Prop} {ip : String} {pid : Nat} {l' : Local} {w' : World}
    (h : Launched me linked ip pid l w) (hu : Undisturbed l w l' w') : Launched me linked ip pid l' w' := by
  obtain ⟨p, hp, hpid, hlink, halone⟩ := h
  refine ⟨p, hp.undisturbed hu, hpid, ?_, ?_⟩
  · rw [hu.net]
    exact hlink
  · rw [hu.net]
    exact halone

/-- What `CreateService` or `CreateDatabase` has done when its process runs. -/
def Outcome (me : Nat) (linked : Prop) (ip : String) (r : Option Nat) (l : Local) (w : World) : Prop :=
  match r with
  | none => w.Unwritten me
  | some pid => Launched me linked ip pid l w

theorem Born.launched {linked : Prop} (h : Born me p l w) (hl : ¬ linked) (ip : String) :
    Launched me linked ip p.pid l w :=
  ⟨p, h.toParent, rfl, fun hlinked => absurd hlinked hl, fun _ k hk hns => (h.lone k hk hns).2⟩

theorem wp_connectIfLb (s : Service) (ip : String) (h : Born me p l w) (hb : s.lb = true → w.net.HasBridge) :
    (Host Y G).wp Smooth (fun _ l' w' => Launched me (s.lb = true ∧ Nameable s.name) ip p.pid l' w') l w
      (s.connectIfLb p.pid ip) := by
  unfold Service.connectIfLb
  split
  · rename_i hlb
    refine System.wp_bind (System.wp_mono (fun r l' w' hc => ?_) (wp_connect h (hb hlb) ip s.name))
    obtain ⟨hp, hlink, halone⟩ := hc
    have hl : Launched me (s.lb = true ∧ Nameable s.name) ip p.pid l' w' :=
      ⟨p, hp, rfl, fun hn => hlink hn.2, fun hn => halone fun hname => hn ⟨hlb, hname⟩⟩
    cases r <;> exact hl
  · rename_i hlb
    exact h.launched (fun hn => hlb hn.1) ip

theorem Launched.unwritten {linked : Prop} {ip : String} {pid : Nat} (h : Launched me linked ip pid l w) :
    w.Unwritten me := by
  obtain ⟨p, hp, _⟩ := h
  exact hp.unwritten

theorem wp_execPythonService (s : Service) (ip : String) (h : Poised me l w)
    (hb : s.lb = true → w.net.HasBridge) :
    (Host Y G).wp Smooth (Outcome me (s.lb = true ∧ Nameable s.name) ip) l w (s.execPythonService ip) := by
  refine wp_calm_bind (p := openAppend _) ⟨trivial, fun _ => trivial⟩ (fun r l₁ w₁ h₁ => ?_)
    fun l₁ w₁ h₁ => (h.undisturbed h₁).unwritten
  have hp₁ := h.undisturbed h₁
  split
  · exact hp₁.unwritten
  refine wp_start rfl hp₁ (fun p l₂ w₂ h₂ hb₂ => ?_) fun l₂ w₂ h₂ => h₂.unwritten
  simp only [bind_eq, ret_bind]
  refine wp_calm_bind (calm_waitNetns p.pid 10) (fun r l₃ w₃ h₃ => ?_)
    fun l₃ w₃ h₃ => (h₂.undisturbed h₃).unwritten
  split
  · exact (h₂.undisturbed h₃).unwritten
  refine wp_calm_bind (calm_serviceCg s p.pid) (fun r l₄ w₄ h₄ => ?_)
    fun l₄ w₄ h₄ => ((h₂.undisturbed h₃).undisturbed h₄).unwritten
  have hp₄ := (h₂.undisturbed h₃).undisturbed h₄
  have hb₄ : s.lb = true → w₄.net.HasBridge := by
    intro hlb
    rw [h₄.net, h₃.net]
    refine hb₂ ?_
    rw [h₁.net]
    exact hb hlb
  refine System.wp_bind (System.wp_mono (fun r l₅ w₅ h₅ => ?_) (wp_connectIfLb s ip hp₄ hb₄))
  cases r with
  | none => exact h₅.unwritten
  | some u =>
    refine wp_calm_bind (p := release _) ⟨trivial, fun _ => trivial⟩ (fun r l₆ w₆ h₆ => ?_)
      fun l₆ w₆ h₆ => (h₅.undisturbed h₆).unwritten
    split
    · exact (h₅.undisturbed h₆).unwritten
    · exact h₅.undisturbed h₆

/-- What `CreateService` has done when it is over. -/
def ServiceDone (me : Nat) (s : Service) (ip : String) (r : Option Service) (l : Local) (w : World) : Prop :=
  match r with
  | none => w.Unwritten me
  | some t => t.name = s.name ∧
    (s.technology = python ∧ Launched me (s.lb = true ∧ Nameable s.name) ip t.pid.toNat l w ∧ 0 ≤ t.pid ∨
      s.technology ≠ python ∧ Poised me l w)

theorem wp_createService (body ip : String) (h : Poised me l w) (hb : w.net.HasBridge) :
    (Host Y G).wp Smooth (ServiceDone me (parseService Y body) ip) l w (Service.createService Y body ip) := by
  have run : ∀ (s : Service) (l : Local) (w : World), s.name = (parseService Y body).name →
      s.lb = (parseService Y body).lb → (parseService Y body).technology = python → Poised me l w →
      w.net.HasBridge → (Host Y G).wp Smooth (ServiceDone me (parseService Y body) ip) l w
        (do let pid ← s.execPythonService ip; return { s with pid := pid }) := by
    intro s l w hname hlb htech hp hb
    refine System.wp_bind (System.wp_mono (fun r l' w' hr => ?_) (wp_execPythonService s ip hp fun _ => hb))
    rw [hname, hlb] at hr
    cases r with
    | none => exact hr
    | some pid => exact ⟨hname, .inl ⟨htech, hr, Int.natCast_nonneg pid⟩⟩
  unfold Service.createService
  dsimp only
  by_cases htech : (parseService Y body).technology = python
  · rw [if_pos htech]
    by_cases hlb : (parseService Y body).lb = true
    · rw [if_pos hlb]
      refine wp_steady_bind (steady_updateLbConfig _) h hb (fun _ l₁ w₁ h₁ hb₁ => ?_) fun _ _ h₁ => h₁
      refine run _ l₁ w₁ ?_ ?_ htech h₁ hb₁
      · unfold Service.withServers
        split <;> rfl
      · unfold Service.withServers
        split <;> rfl
    · rw [if_neg hlb]
      exact run _ l w rfl rfl htech h hb
  · rw [if_neg htech]
    exact ⟨rfl, .inr ⟨htech, h⟩⟩

/-- What `execPostgreSQL` has done when it is over. -/
def PostgresDone (me : Nat) (r : Option Nat) (l : Local) (w : World) : Prop :=
  match r with
  | none => w.Unwritten me
  | some pid => ∃ p, Born me p l w ∧ p.pid = pid

theorem wp_execPostgreSQL (d : Database) (h : Poised me l w) :
    (Host Y G).wp Smooth (PostgresDone me) l w d.execPostgreSQL := by
  refine wp_calm_bind (p := lookupUser _) ⟨trivial, fun _ => trivial⟩ (fun _ l₁ w₁ h₁ => ?_)
    fun _ _ h₁ => (h.undisturbed h₁).unwritten
  have hp₁ := h.undisturbed h₁
  refine wp_calm_bind (p := mkdirAll _) ⟨trivial, fun _ => trivial⟩ (fun _ l₂ w₂ h₂ => ?_)
    fun _ _ h₂ => (hp₁.undisturbed h₂).unwritten
  have hp₂ := hp₁.undisturbed h₂
  refine wp_calm_bind (calm_initDataDir _) (fun _ l₃ w₃ h₃ => ?_)
    fun _ _ h₃ => (hp₂.undisturbed h₃).unwritten
  have hp₃ := hp₂.undisturbed h₃
  refine wp_calm_bind (calm_allowBridge _) (fun _ l₄ w₄ h₄ => ?_)
    fun _ _ h₄ => (hp₃.undisturbed h₄).unwritten
  have hp₄ := hp₃.undisturbed h₄
  refine wp_calm_bind (calm_findBin _) (fun bin l₅ w₅ h₅ => ?_)
    fun _ _ h₅ => (hp₄.undisturbed h₅).unwritten
  have hp₅ := hp₄.undisturbed h₅
  refine wp_calm_bind (p := openAppend _) ⟨trivial, fun _ => trivial⟩ (fun r l₆ w₆ h₆ => ?_)
    fun _ _ h₆ => (hp₅.undisturbed h₆).unwritten
  have hp₆ := hp₅.undisturbed h₆
  split
  · exact hp₆.unwritten
  refine wp_start rfl hp₆ (fun p l₇ w₇ h₇ _ => ?_) fun _ _ h₇ => h₇.unwritten
  simp only [bind_eq, ret_bind]
  refine wp_calm_bind (calm_waitNetns p.pid 20) (fun r l₈ w₈ h₈ => ?_)
    fun _ _ h₈ => (h₇.undisturbed h₈).unwritten
  have hp₈ := h₇.undisturbed h₈
  split
  · exact hp₈.unwritten
  refine wp_calm_bind (calm_databaseCg d p.pid) (fun _ l₉ w₉ h₉ => ?_)
    fun _ _ h₉ => (hp₈.undisturbed h₉).unwritten
  exact ⟨p, hp₈.undisturbed h₉, rfl⟩

theorem wp_connectToBridge (d : Database) (ip : String) (h : Born me p l w) :
    (Host Y G).wp Smooth (fun r l' w' => match r with
      | none => w'.Unwritten me
      | some _ => Launched me (Nameable d.name) ip p.pid l' w') l w (d.connectToBridge p.pid ip) := by
  refine wp_createBridge h.sound h.running (fun l₁ n₁ h₁ hs hb hw => ?_) fun _ _ _ => h.unwritten
  refine System.wp_bind (System.wp_mono (fun r l₂ w₂ hc => ?_) (wp_connect (h.net h₁ hs hw) hb ip d.name))
  obtain ⟨hp, hlink, halone⟩ := hc
  cases r with
  | none => exact hp.unwritten
  | some _ => exact ⟨p, hp, rfl, hlink, halone⟩

/-- What `CreateDatabase` has done when it is over. -/
def DatabaseDone (me : Nat) (d : Database) (ip : String) (r : Option Database) (l : Local) (w : World) : Prop :=
  match r with
  | none => w.Unwritten me
  | some t => t.name = d.name ∧ (d.technology = postgreSQL ∧ (∃ pid : Nat, t.pid = itoa pid ∧
      Launched me (Nameable d.name) ip pid l w) ∨ d.technology ≠ postgreSQL ∧ Poised me l w)

theorem wp_createDatabase (body ip : String) (h : Poised me l w) :
    (Host Y G).wp Smooth (DatabaseDone me (parseYaml Y body) ip) l w (Database.createDatabase Y body ip) := by
  unfold Database.createDatabase
  dsimp only
  by_cases htech : (parseYaml Y body).technology = postgreSQL
  · rw [if_pos htech]
    refine System.wp_bind (System.wp_mono (fun r l₁ w₁ h₁ => ?_) (wp_execPostgreSQL _ h))
    cases r with
    | none => exact h₁
    | some pid =>
      obtain ⟨p, hp, rfl⟩ := h₁
      refine System.wp_bind (System.wp_mono (fun r l₂ w₂ h₂ => ?_) (wp_connectToBridge _ ip hp))
      cases r with
      | none => exact h₂
      | some _ => exact ⟨rfl, .inl ⟨htech, p.pid, rfl, h₂⟩⟩
  · rw [if_neg htech]
    exact ⟨rfl, .inr ⟨htech, h⟩⟩

end PrivatePaas
