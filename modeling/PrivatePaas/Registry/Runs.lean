import PrivatePaas.Registry.Books

/-!
# The books along a run

`books_step` is the induction step for everything that is said about registry, pool
and processes: an event starts or clears an invocation, is a move of one of them,
or changes the process table from outside.
-/

namespace PrivatePaas
set_option autoImplicit false
open Files Text Effects Network PrivatePaas.Parser

variable {Y : Yaml} {G : GoIpam} {ι : Type}

abbrev Pages (ι : Type) := ι → Option Page

def booksOf (m : Machine (Host Y G) ι) : Books := World.books Y m.world

def pagesOf (m : Machine (Host Y G) ι) : Pages ι := fun i => (m.jobs i).map fun j => j.loc.page

theorem pagesOf_eq_some {m : Machine (Host Y G) ι} {i : ι} {p : Page} :
    pagesOf m i = some p ↔ ∃ j, m.jobs i = some j ∧ j.loc.page = p := by
  simp [pagesOf]

theorem pagesOf_job {m : Machine (Host Y G) ι} {i : ι} {j : Job (Host Y G)}
    (h : m.jobs i = some j) : pagesOf m i = some j.loc.page := by
  simp [pagesOf, h]

theorem pagesOf_idle {m : Machine (Host Y G) ι} (h : m.Idle) (i : ι) : pagesOf m i = none := by
  simp [pagesOf, h i]

/-- Nothing from outside makes the operation of the event fail. -/
def Faultless (e : Event (Host Y G) ι) : Prop :=
  match e with
  | .act _ c => Choice.fault c = none
  | _ => True

instance (e : Event (Host Y G) ι) : Decidable (Faultless e) :=
  match e with
  | .act _ c => inferInstanceAs (Decidable (Choice.fault c = none))
  | .launch _ _ => .isTrue trivial
  | .env _ => .isTrue trivial

theorem Faultless.fault {m : Machine (Host Y G) ι} {e : Event (Host Y G) ι} {i : ι} {c : Choice}
    {loc : Local} {o : Op} {k : o.Ret → Go Unit} (h : Faultless e)
    (hp : m.Performs e i c loc o k) : c.fault = none := by
  obtain ⟨rfl, _⟩ := hp
  exact h

variable [DecidableEq ι]

theorem pagesOf_update (w : (Host Y G).World) (jobs : ι → Option (Job (Host Y G))) (i : ι)
    (j : Option (Job (Host Y G))) :
    pagesOf (⟨w, Function.update jobs i j⟩ : Machine (Host Y G) ι) =
      Function.update (fun k => (jobs k).map fun j => j.loc.page) i (j.map fun j => j.loc.page) := by
  funext k
  by_cases hk : k = i
  · subst k
    simp [pagesOf]
  · simp [pagesOf, Function.update_of_ne hk]

/-- The stages in which an invocation can begin. -/
def Stage.Fresh (s : Stage) : Prop := s = .outset ∨ s = .done ∨ ∃ key, s = .asked key

theorem fresh_outset (t : Task) : t.outset.Fresh := by
  cases t with
  | create path => exact .inl rfl
  | delete type_ name =>
    by_cases h : type_ = "service" ∨ type_ = "database"
    · rw [Task.outset, if_pos h]
      exact .inr (.inr ⟨_, rfl⟩)
    · rw [Task.outset, if_neg h]
      exact .inr (.inl rfl)
  | _ => exact .inr (.inl rfl)

/-- A page that has just been opened. -/
structure Page.Opened (p : Page) (b : Books) : Prop where
  id : p.id = b.nextId
  fresh : p.stage.Fresh
  online : p.offline = false
  reserved : p.unreserved = false
  target : p.target = 0

/-- What one event does to books and pages, where the operations speak for themselves. -/
theorem books_apply (J : Books → Pages ι → Prop) {m : Machine (Host Y G) ι} {e : Event (Host Y G) ι}
    (stay : J (booksOf m) (pagesOf m))
    (enter : ∀ i p q hf, pagesOf m i = none → p.Opened (booksOf m) → q.role = .cli → q.pid = p.pid →
      J { booksOf m with procs := (booksOf m).procs.add q hf, nextId := (booksOf m).nextId + 1 }
        (Function.update (pagesOf m) i (some p)))
    (clear : ∀ i j, m.Ends e i j → J (booksOf m) (Function.update (pagesOf m) i none))
    (leave : ∀ i j, m.Ends e i j →
      J { booksOf m with procs := (booksOf m).procs.keep fun q => ! j.loc.page.own q }
        (Function.update (pagesOf m) i none))
    (acted : ∀ i c loc o k, m.Performs e i c loc o k → pagesOf m i = some loc.page →
      J (World.books Y (perform Y G c loc m.world o).2.2)
        (Function.update (pagesOf m) i (some (perform Y G c loc m.world o).2.1.page)))
    (exit : ∀ pid, e = .env (.exit pid) →
      J { booksOf m with procs := (booksOf m).procs.keep fun q => q.pid ≠ pid } (pagesOf m))
    (spawn : ∀ q hf, q.role = .other →
      J { booksOf m with procs := (booksOf m).procs.add q hf } (pagesOf m)) :
    J (booksOf (m.apply e)) (pagesOf (m.apply e)) := by
  apply Machine.apply_elim (P := fun m' => J (booksOf m') (pagesOf m')) m e
  case stay => exact stay
  case launched =>
    intro i x loc p w' _ hj he
    rw [pagesOf_update]
    change PrivatePaas.enter Y x m.world = some (loc, p, w') at he
    unfold PrivatePaas.enter at he
    split at he
    · rename_i hx
      injection he with he
      injection he with hl he
      injection he with _ hw
      subst hl hw
      exact enter i _ (x.process m.world.nextId) hx.1 (by simp [pagesOf, hj])
        ⟨rfl, fresh_outset x.task, rfl, rfl, rfl⟩ rfl rfl
    · cases he
  case dead =>
    intro i j hend _
    rw [pagesOf_update]
    exact clear i j hend
  case ended =>
    intro i j hend _
    rw [pagesOf_update]
    exact leave i j hend
  case acted =>
    intro i c loc o k hp
    rw [pagesOf_update]
    exact acted i c loc o k hp (pagesOf_job hp.2.1)
  case disturbed =>
    intro d hd
    cases d with
    | exit pid => exact exit pid hd
    | spawn pid pgid =>
      have hj : ∀ w, J (World.books Y w) (pagesOf m) →
          PrivatePaas.disturb (.spawn pid pgid) m.world = w →
          J (World.books Y (PrivatePaas.disturb (.spawn pid pgid) m.world)) (pagesOf m) := by
        intro w h hw
        rw [hw]
        exact h
      by_cases hfree : m.world.procs.Free pid
      · refine hj _ ?_ (dif_pos hfree)
        exact spawn (stranger pid pgid) hfree rfl
      · exact hj _ stay (dif_neg hfree)

theorem books_step (J : Books → Pages ι → Prop) (up hit : Prop)
    {m : Machine (Host Y G) ι} {e : Event (Host Y G) ι}
    (hY : Y.Lawful) (hL : (ledgerWatch Y G).Holds m)
    (hup : ∀ i c loc o k, m.Performs e i c loc o k → up → o.OnRedis → c.fault = none)
    (hhit : ∀ i c loc o k, m.Performs e i c loc o k → hit →
      ∀ n, o = .proc (.kill n .sigkill) → c.fault = none)
    (stay : J (booksOf m) (pagesOf m))
    (enter : ∀ i p q hf, pagesOf m i = none → p.Opened (booksOf m) → q.role = .cli → q.pid = p.pid →
      J { booksOf m with procs := (booksOf m).procs.add q hf, nextId := (booksOf m).nextId + 1 }
        (Function.update (pagesOf m) i (some p)))
    (clear : ∀ i j, m.Ends e i j → J (booksOf m) (Function.update (pagesOf m) i none))
    (leave : ∀ i j, m.Ends e i j →
      J { booksOf m with procs := (booksOf m).procs.keep fun q => ! j.loc.page.own q }
        (Function.update (pagesOf m) i none))
    (move : ∀ i c loc o k r p' b', m.Performs e i c loc o k →
      pagesOf m i = some loc.page → (ledger Y).ok loc.ledger o →
      Move G up hit loc.page (booksOf m) o r p' b' → J b' (Function.update (pagesOf m) i (some p')))
    (exit : ∀ pid, e = .env (.exit pid) →
      J { booksOf m with procs := (booksOf m).procs.keep fun q => q.pid ≠ pid } (pagesOf m))
    (spawn : ∀ q hf, q.role = .other →
      J { booksOf m with procs := (booksOf m).procs.add q hf } (pagesOf m)) :
    J (booksOf (m.apply e)) (pagesOf (m.apply e)) := by
  refine books_apply J stay enter clear leave (fun i c loc o k hp hi => ?_) exit spawn
  have hok : (ledger Y).ok loc.ledger o := hL.ok hp
  have hm : Moves Y G up hit c loc m.world o := moves_perform hY hok
    (hup i c loc o k hp) (hhit i c loc o k hp)
  exact move i c loc o k _ _ _ hp hi hok hm

end PrivatePaas
