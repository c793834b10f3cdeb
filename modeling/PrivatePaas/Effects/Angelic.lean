import PrivatePaas.Effects.Exec

/-!
# One way for a program to go

`may` is the dual of `wp`: the outside can choose so that the program ends in `Q`.
-/

namespace Effects
set_option autoImplicit false

namespace System
variable {S : Signature} {α β : Type} {Y : System S}

variable (Y) in
/-- Some way in which the program can go with choices in `C` ends in `Q`. -/
def may (C : Y.Choice → Prop) (Q : Option α → Y.Local → Y.World → Prop) (l : Y.Local) (w : Y.World) :
    Prog S α → Prop
  | .ret a => Q (some a) l w
  | .halt => Q none l w
  | .call o k =>
    (Y.alive l w = false ∧ Q none l w) ∨ (Y.alive l w = true ∧ ∃ c, C c ∧
      may C Q (Y.perform c l w o).2.1 (Y.perform c l w o).2.2 (k (Y.perform c l w o).1))

variable {C : Y.Choice → Prop} {Q R : Option α → Y.Local → Y.World → Prop}
variable {l : Y.Local} {w : Y.World} {p : Prog S α}

theorem may_call {o : S.Op} {k : S.Ret o → Prog S α} (hl : Y.alive l w = true) (c : Y.Choice) (hc : C c)
    (h : Y.may C Q (Y.perform c l w o).2.1 (Y.perform c l w o).2.2 (k (Y.perform c l w o).1)) :
    Y.may C Q l w (.call o k) := .inr ⟨hl, c, hc, h⟩

/-- What follows a program goes on from where it returns. -/
theorem may_bind {f : α → Prog S β} {Q : Option β → Y.Local → Y.World → Prop}
    (h : Y.may C (fun r l w => ∃ a, r = some a ∧ Y.may C Q l w (f a)) l w p) : Y.may C Q l w (p >>= f) := by
  induction p generalizing l w with
  | ret a =>
    obtain ⟨_, hr, hf⟩ := h
    obtain rfl := Option.some.inj hr
    exact hf
  | halt =>
    obtain ⟨_, hr, _⟩ := h
    cases hr
  | call o k ih =>
    rcases h with ⟨_, _, hr, _⟩ | ⟨hl, c, hc, h⟩
    · cases hr
    · exact .inr ⟨hl, c, hc, ih _ h⟩

/-- What can happen is what cannot be excluded. -/
theorem not_wp_iff : ¬ Y.wp C Q l w p ↔ Y.may C (fun r l w => ¬ Q r l w) l w p := by
  induction p generalizing l w with
  | ret a => exact Iff.rfl
  | halt => exact Iff.rfl
  | call o k ih =>
    by_cases hl : Y.alive l w = true
    · have hlive : ¬ Y.alive l w = false := by simp [hl]
      constructor
      · intro h
        by_contra hno
        exact h ⟨fun hd => absurd hd hlive, fun _ c hc => by_contra fun hw =>
          hno (.inr ⟨hl, c, hc, (ih _).mp hw⟩)⟩
      · intro h hwp
        rcases h with ⟨hd, _⟩ | ⟨_, c, hc, h⟩
        · exact hlive hd
        · exact (ih _).mpr h (hwp.2 hl c hc)
    · have hdead : Y.alive l w = false := by simpa using hl
      constructor
      · intro h
        exact .inl ⟨hdead, fun hq => h ⟨fun _ => hq, fun ha => absurd ha hl⟩⟩
      · intro h hwp
        rcases h with ⟨_, hq⟩ | ⟨ha, _⟩
        · exact hq (hwp.1 hdead)
        · exact hl ha

/-- One run of `exec` ends there. -/
theorem may_iff_exec (c₀ : Y.Choice) (h₀ : C c₀) : Y.may C Q l w p ↔
    ∃ c : Nat → Y.Choice, (∀ n, C (c n)) ∧
      Q (Y.exec c l w p).result (Y.exec c l w p).loc (Y.exec c l w p).world := by
  have h := (@not_wp_iff S α Y C (fun r l w => ¬ Q r l w) l w p).symm
  simp only [not_not] at h
  rw [h, wp_iff_exec c₀ h₀]
  constructor
  · intro hne
    by_contra hno
    exact hne fun c hc hq => hno ⟨c, hc, hq⟩
  · intro he hall
    obtain ⟨c, hc, hq⟩ := he
    exact hall c hc hq

end System
end Effects
