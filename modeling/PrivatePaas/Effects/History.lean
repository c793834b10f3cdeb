import PrivatePaas.Effects.Machine

/-!
# What has been done

The history of a run lists the operations that its events have performed, each with
the job that performed it, as it stood, and the answer. Where a program performs only
operations of one kind, every deed of every run is of that kind.
-/

namespace Effects
set_option autoImplicit false

variable {S : Signature}

structure Deed (Y : System S) where
  doer : Y.Local
  op : S.Op
  answer : S.Ret op

namespace Machine
variable {Y : System S} {ι : Type} [DecidableEq ι]

def deed (m : Machine Y ι) : Event Y ι → Option (Deed Y)
  | .act i c =>
    match m.jobs i with
    | some ⟨loc, .call o _⟩ =>
      if Y.alive loc m.world then some ⟨loc, o, (Y.perform c loc m.world o).1⟩ else none
    | _ => none
  | _ => none

def history (m : Machine Y ι) : List (Event Y ι) → List (Deed Y)
  | [] => []
  | e :: es => (m.deed e).toList ++ history (m.apply e) es

omit [DecidableEq ι] in
theorem exists_performs_of_deed {m : Machine Y ι} {e : Event Y ι} {d : Deed Y} (h : m.deed e = some d) :
    ∃ i c k, m.Performs e i c d.doer d.op k := by
  cases e with
  | act i c =>
    simp only [deed] at h
    split at h
    · rename_i loc o k hj
      split at h
      · rename_i ha
        obtain rfl := Option.some.inj h
        exact ⟨i, c, k, rfl, hj, ha⟩
      · cases h
    · cases h
  | launch => cases h
  | env => cases h

end Machine

/-- The operations that satisfy `P`, whatever came before. -/
def Monitor.only (P : S.Op → Prop) : Monitor S where
  State := Unit
  ok _ := P
  next _ _ _ := ()

theorem Monitor.obeys_only {α : Type} {P : S.Op → Prop} {p : Prog S α} (h : p.Only P) :
    (Monitor.only P).Obeys () p fun _ _ => True :=
  Obeys.of_only (h.mono fun _ ho => ⟨ho, fun _ => rfl⟩) fun _ => trivial

namespace Watch
variable {Y : System S} {ι : Type} [DecidableEq ι]

/-- The watch over programs that perform only operations with `P`. -/
def only (Y : System S) (P : S.Op → Prop)
    (h : ∀ l w loc p w', Y.enter l w = some (loc, p, w') → p.Only P) : Watch Y (.only P) where
  state _ := ()
  fin _ := True
  perform_state _ _ _ _ := rfl
  enter_obeys l w loc p w' he := Monitor.obeys_only (h l w loc p w' he)

variable {M : Monitor S} {W : Watch Y M} {m : Machine Y ι}

theorem Holds.history (h : W.Holds m) (es : List (Event Y ι)) :
    ∀ d ∈ m.history es, M.ok (W.state d.doer) d.op := by
  induction es generalizing m with
  | nil => exact fun _ hd => absurd hd List.not_mem_nil
  | cons e es ih =>
    intro d hd
    rcases List.mem_append.mp hd with hd | hd
    · obtain ⟨i, c, k, hp⟩ := Machine.exists_performs_of_deed (Option.mem_toList.mp hd)
      exact h.ok hp
    · exact ih (h.apply e) d hd

end Watch
end Effects
