import Mathlib.Logic.Function.Basic
import PrivatePaas.Effects.Program

/-!
# Invocations that share a world

A `Machine Y ι` has one slot per index of `ι`; an occupied slot is a job, an
invocation that is somewhere inside its program. An event launches a job, lets
one job perform its next operation, or is the world's own doing. With `ι = Unit`
the invocations run one after another; with more slots they interleave at every
operation. A run is a list of events; what an event cannot do it does not do.
-/

namespace Effects
set_option autoImplicit false

/-- How the operations of a signature act on a shared world. `Local` is what one
invocation owns, `Choice` what the outside decides for one operation. -/
structure System (S : Signature) where
  World : Type
  Local : Type
  Choice : Type
  Launch : Type
  Env : Type
  perform : Choice → Local → World → (o : S.Op) → S.Ret o × Local × World
  alive : Local → World → Bool
  enter : Launch → World → Option (Local × Prog S Unit × World)
  leave : Local → World → World
  disturb : Env → World → World

variable {S : Signature}

structure Job (Y : System S) where
  loc : Y.Local
  prog : Prog S Unit

structure Machine (Y : System S) (ι : Type) where
  world : Y.World
  jobs : ι → Option (Job Y)

/-- `act i c` is the next operation of job `i`; for a job that has no operation
left it is the end of its process, and a job whose process is gone is cleared. -/
inductive Event (Y : System S) (ι : Type) where
  | launch (i : ι) (l : Y.Launch)
  | act (i : ι) (c : Y.Choice)
  | env (d : Y.Env)

namespace Machine
variable {Y : System S} {ι : Type} [DecidableEq ι]

def launch (m : Machine Y ι) (i : ι) (l : Y.Launch) : Machine Y ι :=
  match m.jobs i with
  | some _ => m
  | none =>
    match Y.enter l m.world with
    | none => m
    | some (loc, p, w) => ⟨w, Function.update m.jobs i (some ⟨loc, p⟩)⟩

def act (m : Machine Y ι) (i : ι) (c : Y.Choice) : Machine Y ι :=
  match m.jobs i with
  | none => m
  | some j =>
    if Y.alive j.loc m.world then
      match j.prog with
      | .ret _ => ⟨Y.leave j.loc m.world, Function.update m.jobs i none⟩
      | .halt => ⟨Y.leave j.loc m.world, Function.update m.jobs i none⟩
      | .call o k =>
        let (r, loc, w) := Y.perform c j.loc m.world o
        ⟨w, Function.update m.jobs i (some ⟨loc, k r⟩)⟩
    else ⟨m.world, Function.update m.jobs i none⟩

def apply (m : Machine Y ι) : Event Y ι → Machine Y ι
  | .launch i l => m.launch i l
  | .act i c => m.act i c
  | .env d => { m with world := Y.disturb d m.world }

def run (m : Machine Y ι) (es : List (Event Y ι)) : Machine Y ι := es.foldl apply m

@[simp] theorem run_nil (m : Machine Y ι) : m.run [] = m := rfl

@[simp] theorem run_cons (m : Machine Y ι) (e : Event Y ι) (es : List (Event Y ι)) :
    m.run (e :: es) = (m.apply e).run es := rfl

theorem run_append (m : Machine Y ι) (es fs : List (Event Y ι)) :
    m.run (es ++ fs) = (m.run es).run fs := List.foldl_append

/-- No invocation is under way. -/
def Idle (m : Machine Y ι) : Prop := ∀ i, m.jobs i = none

/-- The operation an event performs: by the live job in slot `i`, which stands at
`loc` and goes on with `k`. -/
def Performs (m : Machine Y ι) (e : Event Y ι) (i : ι) (c : Y.Choice) (loc : Y.Local)
    (o : S.Op) (k : S.Ret o → Prog S Unit) : Prop :=
  e = .act i c ∧ m.jobs i = some ⟨loc, .call o k⟩ ∧ Y.alive loc m.world = true

/-- The job an event ends: its program is over, or its process was killed. -/
def Ends (m : Machine Y ι) (e : Event Y ι) (i : ι) (j : Job Y) : Prop :=
  ∃ c, e = .act i c ∧ m.jobs i = some j ∧
    (Y.alive j.loc m.world = true → j.prog = .ret () ∨ j.prog = .halt)

/-- What job `i` performs next, and where it stands. -/
def due (m : Machine Y ι) (i : ι) : Option (Y.Local × S.Op) :=
  (m.jobs i).bind fun j =>
    if Y.alive j.loc m.world then j.prog.next?.map fun o => (j.loc, o) else none

omit [DecidableEq ι] in
theorem exists_performs {m : Machine Y ι} {i : ι} {loc : Y.Local} {o : S.Op} (c : Y.Choice)
    (h : m.due i = some (loc, o)) : ∃ k, m.Performs (.act i c) i c loc o k := by
  unfold due at h
  cases hj : m.jobs i with
  | none => simp [hj] at h
  | some j =>
    obtain ⟨l, p⟩ := j
    simp only [hj, Option.bind_some] at h
    split at h
    · rename_i ha
      cases p with
      | ret a => simp [Prog.next?] at h
      | halt => simp [Prog.next?] at h
      | call o' k =>
        simp only [Prog.next?, Option.map_some, Option.some.injEq, Prod.mk.injEq] at h
        obtain ⟨rfl, rfl⟩ := h
        exact ⟨k, rfl, hj, ha⟩
    · cases h

omit [DecidableEq ι] in
theorem Performs.due {m : Machine Y ι} {e : Event Y ι} {i : ι} {c : Y.Choice} {loc : Y.Local}
    {o : S.Op} {k : S.Ret o → Prog S Unit} (h : m.Performs e i c loc o k) :
    m.due i = some (loc, o) := by
  simp [Machine.due, h.2.1, h.2.2, Prog.next?]

omit [DecidableEq ι] in
theorem Ends.due {m : Machine Y ι} {e : Event Y ι} {i : ι} {j : Job Y} (h : m.Ends e i j) :
    m.due i = none := by
  obtain ⟨c, _, hj, hover⟩ := h
  unfold Machine.due
  rw [hj, Option.bind_some]
  split
  · rename_i ha
    rcases hover ha with hr | hr <;> rw [hr] <;> rfl
  · rfl

/-- The jobs when one has been put in a slot: it, and those in the other slots. -/
theorem jobs_put {jobs : ι → Option (Job Y)} {i i' : ι} {j j' : Job Y}
    (h : Function.update jobs i (some j) i' = some j') : i' = i ∧ j' = j ∨ i' ≠ i ∧ jobs i' = some j' := by
  by_cases hi : i' = i
  · subst i'
    rw [Function.update_self] at h
    exact .inl ⟨rfl, (Option.some.inj h).symm⟩
  · rw [Function.update_of_ne hi] at h
    exact .inr ⟨hi, h⟩

theorem jobs_clear {jobs : ι → Option (Job Y)} {i i' : ι} {j' : Job Y}
    (h : Function.update jobs i none i' = some j') : i' ≠ i ∧ jobs i' = some j' := by
  by_cases hi : i' = i
  · subst i'
    rw [Function.update_self] at h
    cases h
  · rw [Function.update_of_ne hi] at h
    exact ⟨hi, h⟩

/-- All that one event can do, case by case. -/
theorem apply_elim {P : Machine Y ι → Prop} (m : Machine Y ι) (e : Event Y ι)
    (stay : P m)
    (launched : ∀ i l loc p w, e = .launch i l → m.jobs i = none →
      Y.enter l m.world = some (loc, p, w) → P ⟨w, Function.update m.jobs i (some ⟨loc, p⟩)⟩)
    (dead : ∀ i j, m.Ends e i j → Y.alive j.loc m.world = false →
      P ⟨m.world, Function.update m.jobs i none⟩)
    (ended : ∀ i j, m.Ends e i j → Y.alive j.loc m.world = true →
      P ⟨Y.leave j.loc m.world, Function.update m.jobs i none⟩)
    (acted : ∀ i c loc o k, m.Performs e i c loc o k →
      P ⟨(Y.perform c loc m.world o).2.2, Function.update m.jobs i
        (some ⟨(Y.perform c loc m.world o).2.1, k (Y.perform c loc m.world o).1⟩)⟩)
    (disturbed : ∀ d, e = .env d → P { m with world := Y.disturb d m.world }) :
    P (m.apply e) := by
  cases e with
  | launch i l =>
    simp only [apply, launch]
    cases hj : m.jobs i with
    | some j => exact stay
    | none =>
      cases he : Y.enter l m.world with
      | none => exact stay
      | some r => exact launched i l r.1 r.2.1 r.2.2 rfl hj he
  | act i c =>
    simp only [apply, act]
    cases hj : m.jobs i with
    | none => exact stay
    | some j =>
      obtain ⟨loc, prog⟩ := j
      by_cases ha : Y.alive loc m.world = true
      · simp only [ha, if_true]
        cases prog with
        | ret a => exact ended i _ ⟨c, rfl, hj, fun _ => .inl rfl⟩ ha
        | halt => exact ended i _ ⟨c, rfl, hj, fun _ => .inr rfl⟩ ha
        | call o k => exact acted i c loc o k ⟨rfl, hj, ha⟩
      · simp only [ha]
        exact dead i _ ⟨c, rfl, hj, fun h => absurd h ha⟩ (by simpa using ha)
  | env d => exact disturbed d rfl

/-- `C` holds of every event of the run, in the state in which it happens. -/
def Along (C : Machine Y ι → Event Y ι → Prop) : Machine Y ι → List (Event Y ι) → Prop
  | _, [] => True
  | m, e :: es => C m e ∧ Along C (m.apply e) es

instance (C : Machine Y ι → Event Y ι → Prop) [∀ m e, Decidable (C m e)] (m : Machine Y ι)
    (es : List (Event Y ι)) : Decidable (Along C m es) :=
  match es with
  | [] => .isTrue trivial
  | e :: es =>
    have := instDecidableAlong C (m.apply e) es
    inferInstanceAs (Decidable (C m e ∧ Along C (m.apply e) es))

/-- `P` holds in every state of the run, the first and the last included. -/
def Throughout (P : Machine Y ι → Prop) : Machine Y ι → List (Event Y ι) → Prop
  | m, [] => P m
  | m, e :: es => P m ∧ Throughout P (m.apply e) es

section Rules
variable {J P : Machine Y ι → Prop} {C D : Machine Y ι → Event Y ι → Prop}
variable {m : Machine Y ι} {es : List (Event Y ι)}

theorem Along.imp (h : ∀ m e, C m e → D m e) (hc : Along C m es) : Along D m es := by
  induction es generalizing m with
  | nil => trivial
  | cons e es ih => exact ⟨h m e hc.1, ih hc.2⟩

theorem Along.and (hc : Along C m es) (hd : Along D m es) :
    Along (fun m e => C m e ∧ D m e) m es := by
  induction es generalizing m with
  | nil => trivial
  | cons e es ih => exact ⟨⟨hc.1, hd.1⟩, ih hc.2 hd.2⟩

theorem along_of_forall {D : Event Y ι → Prop} (h : ∀ e ∈ es, D e) : Along (fun _ e => D e) m es := by
  induction es generalizing m with
  | nil => trivial
  | cons e es ih =>
    exact ⟨h e List.mem_cons_self, ih fun e' he' => h e' (List.mem_cons_of_mem e he')⟩

theorem along_append {fs : List (Event Y ι)} :
    Along C m (es ++ fs) ↔ Along C m es ∧ Along C (m.run es) fs := by
  induction es generalizing m with
  | nil => simp [Along]
  | cons e es ih => simp [Along, ih, and_assoc]

theorem Throughout.imp {Q : Machine Y ι → Prop} (h : ∀ m, P m → Q m) (hp : Throughout P m es) :
    Throughout Q m es := by
  induction es generalizing m with
  | nil => exact h m hp
  | cons e es ih => exact ⟨h m hp.1, ih hp.2⟩

theorem Throughout.last (hp : Throughout P m es) : P (m.run es) := by
  induction es generalizing m with
  | nil => exact hp
  | cons e es ih => exact ih hp.2

variable (step : ∀ m e, J m → C m e → J (m.apply e))
include step

/-- What every event preserves under `C` holds throughout a run along which `C` holds. -/
theorem throughout_of_step (h0 : J m) (hc : Along C m es) : Throughout J m es := by
  induction es generalizing m with
  | nil => exact h0
  | cons e es ih => exact ⟨h0, ih (step m e h0 hc.1) hc.2⟩

theorem run_of_step (h0 : J m) (hc : Along C m es) : J (m.run es) :=
  (throughout_of_step step h0 hc).last

/-- Each event is judged in a state in which the invariant holds. -/
theorem along_of_step (now : ∀ m e, J m → C m e → D m e) (h0 : J m) (hc : Along C m es) :
    Along D m es := by
  induction es generalizing m with
  | nil => trivial
  | cons e es ih => exact ⟨now m e h0 hc.1, ih (step m e h0 hc.1) hc.2⟩

end Rules
end Machine

/-- The jobs of `Y` carry a state of `M` with them, and every program that can be
launched obeys `M` from the state it is launched in up to a state in `fin`. -/
structure Watch (Y : System S) (M : Monitor S) where
  state : Y.Local → M.State
  fin : M.State → Prop
  perform_state : ∀ c l w o,
    state (Y.perform c l w o).2.1 = M.next (state l) o (Y.perform c l w o).1
  enter_obeys : ∀ l w loc p w', Y.enter l w = some (loc, p, w') →
    M.Obeys (state loc) p fun s _ => fin s

namespace Watch
variable {Y : System S} {M : Monitor S} {ι : Type} [DecidableEq ι] (W : Watch Y M)

/-- Every job obeys the monitor from where it stands. -/
def Holds (m : Machine Y ι) : Prop :=
  ∀ i j, m.jobs i = some j → M.Obeys (W.state j.loc) j.prog fun s _ => W.fin s

variable {W} {m : Machine Y ι} {e : Event Y ι}

omit [DecidableEq ι] in
theorem holds_of_idle (h : m.Idle) : W.Holds m := by
  intro i j hj
  rw [h i] at hj
  cases hj

theorem Holds.clear (h : W.Holds m) (w : Y.World) (i : ι) :
    W.Holds (⟨w, Function.update m.jobs i none⟩ : Machine Y ι) := by
  intro k j hj
  exact h k j (Machine.jobs_clear hj).2

theorem Holds.put (h : W.Holds m) {w : Y.World} {i : ι} {j : Job Y}
    (hj : M.Obeys (W.state j.loc) j.prog fun s _ => W.fin s) :
    W.Holds (⟨w, Function.update m.jobs i (some j)⟩ : Machine Y ι) := by
  intro k j' hk
  rcases Machine.jobs_put hk with ⟨rfl, rfl⟩ | ⟨_, hk⟩
  · exact hj
  · exact h k j' hk

theorem Holds.apply (h : W.Holds m) (e : Event Y ι) : W.Holds (m.apply e) := by
  apply Machine.apply_elim m e
  case stay => exact h
  case launched => exact fun i l loc p w _ _ he => h.put (W.enter_obeys l _ loc p w he)
  case dead => exact fun i j _ _ => h.clear _ i
  case ended => exact fun i j _ _ => h.clear _ i
  case acted =>
    rintro i c loc o k ⟨_, hj, _⟩
    refine h.put ?_
    have ho := (h i _ hj).2 (Y.perform c loc m.world o).1
    simpa only [W.perform_state] using ho
  case disturbed => exact fun d _ => h

theorem Holds.run (h : W.Holds m) (es : List (Event Y ι)) : W.Holds (m.run es) := by
  induction es generalizing m with
  | nil => exact h
  | cons e es ih => exact ih (h.apply e)

omit [DecidableEq ι] in
/-- An operation that is performed was accepted. -/
theorem Holds.ok {i : ι} {c : Y.Choice} {loc : Y.Local} {o : S.Op} {k : S.Ret o → Prog S Unit}
    (h : W.Holds m) (hp : m.Performs e i c loc o k) : M.ok (W.state loc) o := (h i _ hp.2.1).1

end Watch
end Effects
