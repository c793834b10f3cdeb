import PrivatePaas.Effects.Program

/-!
# What lies ahead of a program

`Reaches T L` looks ahead to an operation with `T`, up to the next one with `L`. With
`caught` a program returns also where it would halt, so that a monitor sees that end, too.
-/

namespace Effects
set_option autoImplicit false

namespace Prog
variable {S : Signature} {α β : Type}

/-- The program can come to an operation with `T`, without one with `L` before it. -/
def Reaches (T L : S.Op → Prop) : Prog S α → Prop
  | ret _ => False
  | halt => False
  | call o k => T o ∨ ¬ L o ∧ ∃ r, Reaches T L (k r)

section Reaches
variable {T T' L : S.Op → Prop} {o : S.Op} {k : S.Ret o → Prog S α}

theorem Reaches.mono {p : Prog S α} (h : ∀ o, T o → T' o) (hp : p.Reaches T L) : p.Reaches T' L := by
  induction p with
  | ret a => exact hp
  | halt => exact hp
  | call o k ih =>
    rcases hp with ho | ⟨hl, r, hr⟩
    · exact .inl (h o ho)
    · exact .inr ⟨hl, r, ih r hr⟩

theorem not_reaches_call (ht : ¬ T o) (hl : L o) : ¬ (call o k).Reaches T L := by
  rintro (h | ⟨h, _⟩)
  · exact ht h
  · exact h hl

end Reaches

/-- The program with `none` as its result where it halts. -/
def caught : Prog S α → Prog S (Option α)
  | ret a => ret (some a)
  | halt => ret none
  | call o k => call o fun r => (k r).caught

theorem caught_bind (p : Prog S α) (f : α → Prog S β) : (p >>= f).caught = p.caught >>= fun
    | some a => (f a).caught
    | none => ret none := by
  induction p with
  | ret a => rfl
  | halt => rfl
  | call o k ih =>
    simp only [call_bind, caught]
    congr 1
    funext r
    exact ih r

theorem Only.caught {P : S.Op → Prop} {p : Prog S α} (hp : p.Only P) : p.caught.Only P := by
  induction p with
  | ret a => trivial
  | halt => trivial
  | call o k ih => exact ⟨hp.1, fun r => ih r (hp.2 r)⟩

/-- The program comes to an end: it does not halt, whatever it is answered. -/
def Returns : Prog S α → Prop
  | ret _ => True
  | halt => False
  | call _ k => ∀ r, Returns (k r)

@[simp] theorem returns_ret (a : α) : Returns (ret a : Prog S α) := trivial

@[simp] theorem returns_call {o : S.Op} {k : S.Ret o → Prog S α} :
    Returns (call o k) ↔ ∀ r, Returns (k r) := Iff.rfl

@[simp] theorem returns_ite {c : Prop} [Decidable c] {p q : Prog S α} :
    Returns (if c then p else q) ↔ (c → Returns p) ∧ (¬ c → Returns q) := by
  split <;> simp_all

theorem Returns.bind {p : Prog S α} {f : α → Prog S β} (hp : Returns p) (hf : ∀ a, Returns (f a)) :
    Returns (p >>= f) := by
  induction p with
  | ret a => exact hf a
  | halt => exact absurd hp id
  | call o k ih => exact fun r => ih r (hp r)

end Prog

namespace Monitor
variable {S : Signature} {α β : Type} {M : Monitor S} {s : M.State}

/-- A program in front of another one that is caught as a whole. -/
theorem Obeys.caught_bind {p : Prog S α} {f : α → Prog S β} {Q : M.State → Option α → Prop}
    {R : M.State → Option β → Prop} (hp : M.Obeys s p.caught Q)
    (hf : ∀ s a, Q s (some a) → M.Obeys s (f a).caught R) (hn : ∀ s, Q s none → R s none) :
    M.Obeys s (p >>= f).caught R := by
  rw [Prog.caught_bind]
  refine hp.bind fun s' a ha => ?_
  cases a with
  | none => exact hn s' ha
  | some a => exact hf s' a ha

/-- A program that does not halt and leaves the monitor where it is can be skipped. -/
theorem Obeys.caught_skip {p : Prog S α} {f : α → Prog S β} {R : M.State → Option β → Prop}
    (hp : p.Only (M.Still s)) (hr : p.Returns) (hf : ∀ a, M.Obeys s (f a).caught R) :
    M.Obeys s (p >>= f).caught R := by
  induction p with
  | ret a => exact hf a
  | halt => exact absurd hr id
  | call o k ih => exact Obeys.still hp.1 fun r => ih r (hp.2 r) (hr r)

end Monitor
end Effects
