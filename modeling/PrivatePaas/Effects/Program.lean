import Mathlib.Logic.Basic
import Mathlib.Tactic.TypeStar

/-!
# Programs as trees of effects, and the monitors that watch them

A `Prog S α` performs operations of the signature `S` one at a time; what an
operation answers is decided outside, so one tree stands for every run.
A `Monitor` is a deterministic automaton over operations and answers.
`Obeys` says that a program never performs an operation its monitor refuses.
Neither knows what the operations do.
-/

namespace Effects
set_option autoImplicit false

/-- Operations and the type each of them answers with. -/
structure Signature where
  Op : Type
  Ret : Op → Type

/-- `halt` is a program that ends at once, without a result: a fatal log or a panic. -/
inductive Prog (S : Signature) (α : Type) : Type where
  | ret (a : α)
  | halt
  | call (o : S.Op) (k : S.Ret o → Prog S α)

namespace Prog
variable {S : Signature} {α β γ : Type}

def bind : Prog S α → (α → Prog S β) → Prog S β
  | ret a, f => f a
  | halt, _ => halt
  | call o k, f => call o fun r => (k r).bind f

instance : Monad (Prog S) where
  pure := ret
  bind := bind

@[simp] theorem pure_eq (a : α) : (pure a : Prog S α) = ret a := rfl

@[simp] theorem bind_eq (p : Prog S α) (f : α → Prog S β) : p.bind f = p >>= f := rfl

@[simp] theorem ret_bind (a : α) (f : α → Prog S β) : ret a >>= f = f a := rfl

@[simp] theorem halt_bind (f : α → Prog S β) : (halt : Prog S α) >>= f = halt := rfl

@[simp] theorem call_bind (o : S.Op) (k : S.Ret o → Prog S α) (f : α → Prog S β) :
    call o k >>= f = call o fun r => k r >>= f := rfl

@[simp] theorem bind_assoc (p : Prog S α) (f : α → Prog S β) (g : β → Prog S γ) :
    p >>= f >>= g = p >>= fun a => f a >>= g := by
  induction p with
  | ret a => rfl
  | halt => rfl
  | call o k ih =>
    simp only [call_bind]
    congr 1
    funext r
    exact ih r

/-- The operation that comes next. -/
def next? : Prog S α → Option S.Op
  | call o _ => some o
  | _ => none

/-- Every operation the program can reach, whatever is answered on the way, satisfies `P`. -/
def Only (P : S.Op → Prop) : Prog S α → Prop
  | ret _ => True
  | halt => True
  | call o k => P o ∧ ∀ r, Only P (k r)

namespace Only
variable {P P' : S.Op → Prop}

theorem bind {p : Prog S α} {f : α → Prog S β} (hp : Only P p) (hf : ∀ a, Only P (f a)) :
    Only P (p >>= f) := by
  induction p with
  | ret a => exact hf a
  | halt => trivial
  | call o k ih => exact ⟨hp.1, fun r => ih r (hp.2 r)⟩

/-- What holds of a whole program holds of its beginning. -/
theorem of_bind {p : Prog S α} {f : α → Prog S β} (h : Only P (p >>= f)) : Only P p := by
  induction p with
  | ret a => trivial
  | halt => trivial
  | call o k ih => exact ⟨h.1, fun r => ih r (h.2 r)⟩

theorem mono {p : Prog S α} (h : ∀ o, P o → P' o) (hp : Only P p) : Only P' p := by
  induction p with
  | ret a => trivial
  | halt => trivial
  | call o k ih => exact ⟨h o hp.1, fun r => ih r (hp.2 r)⟩

end Only

section Simp
variable {P : S.Op → Prop}

@[simp] theorem only_ret (a : α) : Only P (ret a) := trivial

@[simp] theorem only_halt : Only P (halt : Prog S α) := trivial

@[simp] theorem only_call {o : S.Op} {k : S.Ret o → Prog S α} :
    Only P (call o k) ↔ P o ∧ ∀ r, Only P (k r) := Iff.rfl

@[simp] theorem only_ite {c : Prop} [Decidable c] {p q : Prog S α} :
    Only P (if c then p else q) ↔ (c → Only P p) ∧ (¬ c → Only P q) := by
  split <;> simp_all

end Simp
end Prog

/-- Which operations may be performed in which state, and where each answer leads. -/
structure Monitor (S : Signature) where
  State : Type
  ok : State → S.Op → Prop
  next : State → (o : S.Op) → S.Ret o → State

namespace Monitor
variable {S : Signature} {α β : Type} (M : Monitor S)

/-- From state `s` the program performs only operations that `M` accepts, and
each of its results is reached in a state that satisfies `Q`. -/
def Obeys : M.State → Prog S α → (M.State → α → Prop) → Prop
  | s, .ret a, Q => Q s a
  | _, .halt, _ => True
  | s, .call o k, Q => M.ok s o ∧ ∀ r, Obeys (M.next s o r) (k r) Q

/-- An operation that is accepted in `s` and leaves the monitor there. -/
def Still (s : M.State) (o : S.Op) : Prop := M.ok s o ∧ ∀ r, M.next s o r = s

variable {M}
variable {s : M.State} {Q Q' : M.State → α → Prop}

@[simp] theorem obeys_ret (a : α) : M.Obeys s (.ret a) Q ↔ Q s a := Iff.rfl

@[simp] theorem obeys_halt : M.Obeys s (.halt : Prog S α) Q := trivial

@[simp] theorem obeys_ite {c : Prop} [Decidable c] {p q : Prog S α} :
    M.Obeys s (if c then p else q) Q ↔ (c → M.Obeys s p Q) ∧ (¬ c → M.Obeys s q Q) := by
  split <;> simp_all

theorem Obeys.mono {p : Prog S α} (hp : M.Obeys s p Q) (h : ∀ s a, Q s a → Q' s a) :
    M.Obeys s p Q' := by
  induction p generalizing s with
  | ret a => exact h s a hp
  | halt => trivial
  | call o k ih => exact ⟨hp.1, fun r => ih r (hp.2 r)⟩

theorem Obeys.bind {p : Prog S α} {f : α → Prog S β} {R : M.State → β → Prop}
    (hp : M.Obeys s p Q) (hf : ∀ s a, Q s a → M.Obeys s (f a) R) : M.Obeys s (p >>= f) R := by
  induction p generalizing s with
  | ret a => exact hf s a hp
  | halt => trivial
  | call o k ih => exact ⟨hp.1, fun r => ih r (hp.2 r)⟩

theorem Obeys.still {o : S.Op} {k : S.Ret o → Prog S α} (ho : M.Still s o)
    (hk : ∀ r, M.Obeys s (k r) Q) : M.Obeys s (.call o k) Q := by
  refine ⟨ho.1, fun r => ?_⟩
  rw [ho.2 r]
  exact hk r

/-- A program of operations that are still in `s` ends in `s`. -/
theorem Obeys.of_only {p : Prog S α} (hp : p.Only (M.Still s)) (hQ : ∀ a, Q s a) :
    M.Obeys s p Q := by
  induction p with
  | ret a => exact hQ a
  | halt => trivial
  | call o k ih => exact Obeys.still hp.1 fun r => ih r (hp.2 r)

/-- Such a program in front of another one can be skipped. -/
theorem Obeys.skip {p : Prog S α} {f : α → Prog S β} {R : M.State → β → Prop}
    (hp : p.Only (M.Still s)) (hf : ∀ a, M.Obeys s (f a) R) : M.Obeys s (p >>= f) R :=
  Obeys.bind (Q := fun s' _ => s' = s) (Obeys.of_only hp fun _ => rfl)
    (by rintro _ a rfl; exact hf a)

end Monitor
end Effects
