import PrivatePaas.Effects.Machine

/-!
# One program by itself

`exec` runs a program of one invocation while nothing else acts on the world; the
choices of the outside are taken from a stream, one for each operation. `wp` is the
weakest precondition over all such streams. `Answers` forgets the world: it lists
what a program may be answered, whoever acts in between.
-/

namespace Effects
set_option autoImplicit false

variable {S : Signature} {α β : Type}

namespace Prog

/-- The program stopped behind `n` operations. -/
def take : Nat → Prog S α → Prog S α
  | 0, _ => halt
  | _ + 1, ret a => ret a
  | _ + 1, halt => halt
  | n + 1, call o k => call o fun r => take n (k r)

/-- The operations of a run with their answers, and the result it returns. -/
inductive Answers : Prog S α → List ((o : S.Op) × S.Ret o) → α → Prop where
  | ret (a : α) : Answers (.ret a) [] a
  | call {o : S.Op} {k : S.Ret o → Prog S α} {r : S.Ret o} {tr : List ((o : S.Op) × S.Ret o)}
      {a : α} : Answers (k r) tr a → Answers (.call o k) (⟨o, r⟩ :: tr) a

namespace Answers
variable {p : Prog S α} {f : α → Prog S β} {tr : List ((o : S.Op) × S.Ret o)} {a : α} {b : β}

theorem of_ret {a' : α} (h : Answers (S := S) (.ret a) tr a') : tr = [] ∧ a' = a := by
  cases h
  exact ⟨rfl, rfl⟩

theorem of_call {o : S.Op} {k : S.Ret o → Prog S α} (h : Answers (.call o k) tr a) :
    ∃ r tr', tr = ⟨o, r⟩ :: tr' ∧ Answers (k r) tr' a := by
  cases h with
  | call h => exact ⟨_, _, rfl, h⟩

theorem of_bind (h : Answers (p >>= f) tr b) :
    ∃ tr₁ tr₂ a, tr = tr₁ ++ tr₂ ∧ Answers p tr₁ a ∧ Answers (f a) tr₂ b := by
  induction p generalizing tr with
  | ret a => exact ⟨[], tr, a, rfl, .ret a, h⟩
  | halt => cases h
  | call o k ih =>
    obtain ⟨r, tr', rfl, h'⟩ := of_call h
    obtain ⟨tr₁, tr₂, a, rfl, h₁, h₂⟩ := ih r h'
    exact ⟨_ :: tr₁, tr₂, a, rfl, .call h₁, h₂⟩

/-- What holds of every operation of the program holds of every one in the list. -/
theorem only {P : S.Op → Prop} (h : Answers p tr a) (hp : Only P p) : ∀ x ∈ tr, P x.1 := by
  induction h with
  | ret a => simp
  | call h ih =>
    intro x hx
    rcases List.mem_cons.mp hx with rfl | hx
    · exact hp.1
    · exact ih (hp.2 _) x hx

end Answers
end Prog

namespace System
variable (Y : System S)

/-- `none` is the result of a program that halts, or whose process is gone. -/
structure Outcome (α : Type) where
  result : Option α
  rest : Nat → Y.Choice
  loc : Y.Local
  world : Y.World

def exec (c : Nat → Y.Choice) (l : Y.Local) (w : Y.World) : Prog S α → Y.Outcome α
  | .ret a => ⟨some a, c, l, w⟩
  | .halt => ⟨none, c, l, w⟩
  | .call o k =>
    if Y.alive l w then
      let (r, l', w') := Y.perform (c 0) l w o
      exec (fun n => c (n + 1)) l' w' (k r)
    else ⟨none, c, l, w⟩

/-- Every way in which the program can go with choices in `C` ends in `Q`. -/
def wp (C : Y.Choice → Prop) (Q : Option α → Y.Local → Y.World → Prop) (l : Y.Local) (w : Y.World) :
    Prog S α → Prop
  | .ret a => Q (some a) l w
  | .halt => Q none l w
  | .call o k =>
    (Y.alive l w = false → Q none l w) ∧ (Y.alive l w = true → ∀ c, C c →
      wp C Q (Y.perform c l w o).2.1 (Y.perform c l w o).2.2 (k (Y.perform c l w o).1))

variable {Y} {C : Y.Choice → Prop} {Q R : Option α → Y.Local → Y.World → Prop}
variable {l : Y.Local} {w : Y.World} {p : Prog S α}

@[simp] theorem wp_ret (a : α) : Y.wp C Q l w (.ret a) ↔ Q (some a) l w := Iff.rfl

@[simp] theorem wp_halt : Y.wp C Q l w .halt ↔ Q none l w := Iff.rfl

theorem wp_call {o : S.Op} {k : S.Ret o → Prog S α} : Y.wp C Q l w (.call o k) ↔
    (Y.alive l w = false → Q none l w) ∧ (Y.alive l w = true → ∀ c, C c →
      Y.wp C Q (Y.perform c l w o).2.1 (Y.perform c l w o).2.2 (k (Y.perform c l w o).1)) := Iff.rfl

theorem wp_ite {b : Prop} [Decidable b] {q : Prog S α} :
    Y.wp C Q l w (if b then p else q) ↔ (b → Y.wp C Q l w p) ∧ (¬ b → Y.wp C Q l w q) := by
  split <;> simp_all

theorem wp_mono (h : ∀ r l w, Q r l w → R r l w) (hp : Y.wp C Q l w p) : Y.wp C R l w p := by
  induction p generalizing l w with
  | ret a => exact h _ l w hp
  | halt => exact h _ l w hp
  | call o k ih =>
    refine ⟨fun hl => h _ l w (hp.1 hl), fun hl c hc => ?_⟩
    exact ih _ (hp.2 hl c hc)

/-- Fewer choices leave fewer ways to go. -/
theorem wp_choices {D : Y.Choice → Prop} (h : ∀ c, C c → D c) (hp : Y.wp D Q l w p) : Y.wp C Q l w p := by
  induction p generalizing l w with
  | ret a => exact hp
  | halt => exact hp
  | call o k ih =>
    refine ⟨hp.1, fun hl c hc => ?_⟩
    exact ih _ (hp.2 hl c (h c hc))

theorem wp_of_forall (h : ∀ r l w, Q r l w) : Y.wp C Q l w p := by
  induction p generalizing l w with
  | ret a => exact h _ l w
  | halt => exact h _ l w
  | call o k ih => exact ⟨fun _ => h _ l w, fun _ _ _ => ih _⟩

/-- What follows a program starts from where it returns. -/
theorem wp_bind {f : α → Prog S β} {Q : Option β → Y.Local → Y.World → Prop}
    (h : Y.wp C (fun r l w => match r with
      | some a => Y.wp C Q l w (f a)
      | none => Q none l w) l w p) : Y.wp C Q l w (p >>= f) := by
  induction p generalizing l w with
  | ret a => exact h
  | halt => exact h
  | call o k ih =>
    refine ⟨fun hl => h.1 hl, fun hl c hc => ?_⟩
    exact ih _ (h.2 hl c hc)

/-- What every operation of a program preserves holds when it is over. -/
theorem wp_of_only {P : S.Op → Prop} {I : Y.Local → Y.World → Prop}
    (step : ∀ c l w o, C c → P o → I l w → Y.alive l w = true →
      I (Y.perform c l w o).2.1 (Y.perform c l w o).2.2)
    (hp : p.Only P) (hI : I l w) : Y.wp C (fun _ l w => I l w) l w p := by
  induction p generalizing l w with
  | ret a => exact hI
  | halt => exact hI
  | call o k ih =>
    refine ⟨fun _ => hI, fun hl c hc => ?_⟩
    exact ih _ (hp.2 _) (step c l w o hc hp.1 hI hl)

theorem wp_and (hq : Y.wp C Q l w p) (hr : Y.wp C R l w p) :
    Y.wp C (fun a l w => Q a l w ∧ R a l w) l w p := by
  induction p generalizing l w with
  | ret a => exact ⟨hq, hr⟩
  | halt => exact ⟨hq, hr⟩
  | call o k ih =>
    refine ⟨fun hl => ⟨hq.1 hl, hr.1 hl⟩, fun hl c hc => ?_⟩
    exact ih _ (hq.2 hl c hc) (hr.2 hl c hc)

theorem exec_dead {c : Nat → Y.Choice} {o : S.Op} {k : S.Ret o → Prog S α}
    (h : Y.alive l w = false) : Y.exec c l w (.call o k) = ⟨none, c, l, w⟩ := by
  simp [exec, h]

theorem exec_alive {c : Nat → Y.Choice} {o : S.Op} {k : S.Ret o → Prog S α}
    (h : Y.alive l w = true) : Y.exec c l w (.call o k) =
      Y.exec (fun n => c (n + 1)) (Y.perform (c 0) l w o).2.1 (Y.perform (c 0) l w o).2.2
        (k (Y.perform (c 0) l w o).1) := by
  simp [exec, h]

variable (Y) in
/-- `I` holds from the beginning to the end, whichever way the program goes. -/
def always (C : Y.Choice → Prop) (I : Y.World → Prop) (l : Y.Local) (w : Y.World) : Prog S α → Prop
  | .ret _ => I w
  | .halt => I w
  | .call o k => I w ∧ (Y.alive l w = true → ∀ c, C c →
      always C I (Y.perform c l w o).2.1 (Y.perform c l w o).2.2 (k (Y.perform c l w o).1))

section Always
variable {I : Y.World → Prop}

theorem wp_of_always (h : Y.always C I l w p) : Y.wp C (fun _ _ w => I w) l w p := by
  induction p generalizing l w with
  | ret a => exact h
  | halt => exact h
  | call o k ih => exact ⟨fun _ => h.1, fun hl c hc => ih _ (h.2 hl c hc)⟩

theorem always_bind {f : α → Prog S β} (hp : Y.always C I l w p)
    (hf : ∀ a l' w', I w' → Y.always C I l' w' (f a)) : Y.always C I l w (p >>= f) := by
  induction p generalizing l w with
  | ret a => exact hf a l w hp
  | halt => exact hp
  | call o k ih => exact ⟨hp.1, fun hl c hc => ih _ (hp.2 hl c hc)⟩

/-- What follows goes on from what is known where the program returns. -/
theorem always_bind_wp {f : α → Prog S β} (hp : Y.always C I l w p)
    (hf : Y.wp C (fun r l' w' => ∀ a, r = some a → Y.always C I l' w' (f a)) l w p) :
    Y.always C I l w (p >>= f) := by
  induction p generalizing l w with
  | ret a => exact hf a rfl
  | halt => exact hp
  | call o k ih => exact ⟨hp.1, fun hl c hc => ih _ (hp.2 hl c hc) (hf.2 hl c hc)⟩

/-- What every operation preserves, and what follows from it, holds all the time. -/
theorem always_of_kept {P : S.Op → Prop} {J : Y.Local → Y.World → Prop} (hJ : ∀ l w, J l w → I w)
    (step : ∀ c l w o, C c → P o → J l w → Y.alive l w = true →
      J (Y.perform c l w o).2.1 (Y.perform c l w o).2.2)
    (hp : p.Only P) (h : J l w) : Y.always C I l w p := by
  induction p generalizing l w with
  | ret a => exact hJ l w h
  | halt => exact hJ l w h
  | call o k ih => exact ⟨hJ l w h, fun hl c hc => ih _ (hp.2 _) (step c l w o hc hp.1 h hl)⟩

theorem always_of_only {P : S.Op → Prop}
    (step : ∀ c l w o, C c → P o → I w → Y.alive l w = true → I (Y.perform c l w o).2.2)
    (hp : p.Only P) (hI : I w) : Y.always C I l w p :=
  always_of_kept (J := fun _ w => I w) (fun _ _ h => h) step hp hI

/-- So it holds where the program is stopped. -/
theorem always_stopped (h : Y.always C I l w p) (n : Nat) {c : Nat → Y.Choice} (hc : ∀ k, C (c k)) :
    I (Y.exec c l w (p.take n)).world := by
  induction p generalizing l w n c with
  | ret a => cases n <;> exact h
  | halt => cases n <;> exact h
  | call o k ih =>
    cases n with
    | zero => exact h.1
    | succ n =>
      rw [Prog.take]
      by_cases hl : Y.alive l w = true
      · rw [exec_alive hl]
        exact ih _ (h.2 hl (c 0) (hc 0)) n fun k => hc (k + 1)
      · rw [exec_dead (by simpa using hl)]
        exact h.1

end Always

/-- The weakest precondition is about the runs of `exec`. -/
theorem wp_iff_exec (c₀ : Y.Choice) (h₀ : C c₀) : Y.wp C Q l w p ↔
    ∀ c : Nat → Y.Choice, (∀ n, C (c n)) →
      Q (Y.exec c l w p).result (Y.exec c l w p).loc (Y.exec c l w p).world := by
  induction p generalizing l w with
  | ret a => exact ⟨fun h _ _ => h, fun h => h (fun _ => c₀) fun _ => h₀⟩
  | halt => exact ⟨fun h _ _ => h, fun h => h (fun _ => c₀) fun _ => h₀⟩
  | call o k ih =>
    rw [wp_call]
    by_cases hl : Y.alive l w = true
    · constructor
      · intro h c hc
        rw [exec_alive hl]
        exact (ih _).mp (h.2 hl (c 0) (hc 0)) (fun n => c (n + 1)) fun n => hc (n + 1)
      · intro h
        refine ⟨fun hd => absurd hd (by simp [hl]), fun _ c hc => (ih _).mpr fun c' hc' => ?_⟩
        have hx := h (fun n => n.casesOn c c') fun n => by cases n with
          | zero => exact hc
          | succ n => exact hc' n
        rwa [exec_alive hl] at hx
    · rw [Bool.not_eq_true] at hl
      constructor
      · intro h c _
        rw [exec_dead hl]
        exact h.1 hl
      · intro h
        refine ⟨fun _ => ?_, fun ha => absurd ha (by simp [hl])⟩
        have hx := h (fun _ => c₀) fun _ => h₀
        rwa [exec_dead hl] at hx

variable (Y) in
/-- What the operations of `exec` are answered. -/
def trace (c : Nat → Y.Choice) (l : Y.Local) (w : Y.World) : Prog S α → List ((o : S.Op) × S.Ret o)
  | .ret _ => []
  | .halt => []
  | .call o k =>
    if Y.alive l w then
      let (r, l', w') := Y.perform (c 0) l w o
      ⟨o, r⟩ :: trace (fun n => c (n + 1)) l' w' (k r)
    else []

theorem exec_answers {c : Nat → Y.Choice} {a : α} (h : (Y.exec c l w p).result = some a) :
    p.Answers (Y.trace c l w p) a := by
  induction p generalizing l w c with
  | ret b =>
    obtain rfl := Option.some.inj h
    exact .ret _
  | halt => cases h
  | call o k ih =>
    by_cases hl : Y.alive l w = true
    · rw [exec_alive hl] at h
      simp only [trace, hl, if_true]
      exact .call (ih _ h)
    · rw [exec_dead (by simpa using hl)] at h
      cases h

variable (Y) in
/-- When an invocation is over its process ends, if it is still there. -/
def afterwards (l : Y.Local) (w : Y.World) : Y.World := if Y.alive l w then Y.leave l w else w

theorem afterwards_elim {P : Y.World → Prop} (left : P (Y.leave l w)) (gone : P w) : P (Y.afterwards l w) := by
  unfold afterwards
  split
  · exact left
  · exact gone

end System

namespace Machine
variable {Y : System S} {ι : Type} [DecidableEq ι]

/-- A job that alone acts goes the way of `exec`, up to where it has nothing left to do. -/
theorem run_exec {m : Machine Y ι} {i : ι} {l : Y.Local} {p : Prog S Unit} (c : Nat → Y.Choice)
    (hj : m.jobs i = some ⟨l, p⟩) :
    ∃ n q, m.run ((List.range n).map fun k => .act i (c k)) =
        ⟨(Y.exec c l m.world p).world, Function.update m.jobs i (some ⟨(Y.exec c l m.world p).loc, q⟩)⟩ ∧
      ((Y.exec c l m.world p).result = some () ∧ q = .ret () ∨
        (Y.exec c l m.world p).result = none ∧ (q = .halt ∨
          Y.alive (Y.exec c l m.world p).loc (Y.exec c l m.world p).world = false)) := by
  have stay : m = ⟨m.world, Function.update m.jobs i (some ⟨l, p⟩)⟩ := by
    rw [← hj, Function.update_eq_self]
  induction p generalizing m l c with
  | ret a => exact ⟨0, .ret a, stay, .inl ⟨rfl, rfl⟩⟩
  | halt => exact ⟨0, .halt, stay, .inr ⟨rfl, .inl rfl⟩⟩
  | call o k ih =>
    by_cases hl : Y.alive l m.world = true
    · rw [System.exec_alive hl]
      have hstep : m.apply (.act i (c 0)) = ⟨(Y.perform (c 0) l m.world o).2.2, Function.update m.jobs i
          (some ⟨(Y.perform (c 0) l m.world o).2.1, k (Y.perform (c 0) l m.world o).1⟩)⟩ := by
        simp only [apply, act, hj, hl, if_true]
      obtain ⟨n, q, hrun, hq⟩ := ih _ (m := m.apply (.act i (c 0))) (fun n => c (n + 1))
        (by rw [hstep]; exact Function.update_self ..) (by rw [hstep, Function.update_idem])
      rw [hstep] at hrun hq
      refine ⟨n + 1, q, ?_, hq⟩
      rw [List.range_succ_eq_map, List.map_cons, run_cons, hstep, List.map_map]
      rw [Function.update_idem] at hrun
      exact hrun
    · rw [Bool.not_eq_true] at hl
      rw [System.exec_dead hl]
      exact ⟨0, .call o k, stay, .inr ⟨rfl, .inr hl⟩⟩

/-- What is launched in a free slot and alone acts leaves the slot free again. -/
theorem exists_run_alone {m : Machine Y ι} {i : ι} (hi : m.jobs i = none) {x : Y.Launch} {l : Y.Local}
    {p : Prog S Unit} {w : Y.World} (he : Y.enter x m.world = some (l, p, w)) (c : Nat → Y.Choice) :
    ∃ es, m.run es = ⟨Y.afterwards (Y.exec c l w p).loc (Y.exec c l w p).world, m.jobs⟩ := by
  have hlaunch : m.apply (.launch i x) = ⟨w, Function.update m.jobs i (some ⟨l, p⟩)⟩ := by
    simp only [apply, launch, hi, he]
  obtain ⟨n, q, hrun, hq⟩ := run_exec (m := m.apply (.launch i x)) (i := i) (l := l) (p := p) c
    (by rw [hlaunch]; exact Function.update_self ..)
  rw [hlaunch] at hrun hq
  rw [Function.update_idem] at hrun
  have hback : Function.update m.jobs i none = m.jobs := by rw [← hi, Function.update_eq_self]
  refine ⟨.launch i x :: (List.range n).map (fun k => .act i (c k)) ++ [.act i (c n)], ?_⟩
  rw [List.cons_append, run_cons, hlaunch, run_append, hrun, run_cons, run_nil]
  simp only [apply, act, Function.update_self, Function.update_idem, System.afterwards]
  by_cases ha : Y.alive (Y.exec c l w p).loc (Y.exec c l w p).world = true
  · have hover : q = .ret () ∨ q = .halt := by
      rcases hq with ⟨_, hret⟩ | ⟨_, hhalt | hdead⟩
      · exact .inl hret
      · exact .inr hhalt
      · rw [ha] at hdead
        cases hdead
    rcases hover with rfl | rfl
    · simp only [ha, if_true, hback]
    · simp only [ha, if_true, hback]
  · simp only [ha, hback]
    rfl

end Machine
end Effects
