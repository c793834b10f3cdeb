import PrivatePaas.Registry.Frame
import PrivatePaas.Registry.Sequence

/-!
# Redis out of sight

The leases are exclusive even where probes fail, as long as no address is acquired in,
or handed back to, the memory of one invocation. The mark that a probe leaves on a page
plays no part in this, and without it the invariants of the other runs carry over.
-/

namespace PrivatePaas
set_option autoImplicit false
open Files Text Effects Network PrivatePaas.Parser Books

variable {Y : Yaml} {G : GoIpam} {ι : Type}

/-- The page without the mark that a probe has failed. -/
def Page.cleared (p : Page) : Page := { p with offline := false }

def cleared (P : Pages ι) : Pages ι := fun i => (P i).map Page.cleared

theorem cleared_eq_some {P : Pages ι} {i : ι} {p : Page} (h : P i = some p) :
    cleared P i = some p.cleared := by
  rw [cleared, h, Option.map_some]

theorem exists_of_cleared {P : Pages ι} {i : ι} {p' : Page} (h : cleared P i = some p') :
    ∃ p, P i = some p ∧ p.cleared = p' := Option.map_eq_some_iff.mp h

theorem cleared_update [DecidableEq ι] {P : Pages ι} {i : ι} {x : Option Page} :
    cleared (Function.update P i x) = Function.update (cleared P) i (x.map Page.cleared) := by
  funext j
  by_cases hj : j = i
  · subst j
    simp [cleared]
  · simp [cleared, Function.update_of_ne hj]

theorem weakerPages_cleared {P : Pages ι} : WeakerPages P (cleared P) := by
  intro j q' hj
  obtain ⟨q, hq, rfl⟩ := exists_of_cleared hj
  exact ⟨q, hq, rfl, fun h => h, fun _ _ h => h, fun _ h => ⟨h, rfl⟩⟩

section Operations
variable {hit : Prop} {c : Choice} {l : Local} {w : World}

/-- The invocation without the mark. -/
def Local.cleared (l : Local) : Local := { l with ledger := { l.ledger with offline := false } }

theorem attempt_cleared {o : Op} : attempt G c l.cleared w o = attempt G c l w o := by
  have hact : ∀ o, act G c l.cleared w o = act G c l w o := by
    intro o
    cases o with
    | ipam st o => cases st <;> rfl
    | proc o => cases o <;> rfl
    | _ => rfl
  unfold attempt
  rw [hact]
  cases c.fault with
  | none => rfl
  | some n =>
    cases n with
    | zero => rfl
    | succ n =>
      cases hr : o.remnant n with
      | none => simp only [hr]; rfl
      | some o' => simp only [hr, hact]

theorem perform_cleared {o : Op} : (perform Y G c l.cleared w o).1 = (perform Y G c l w o).1 ∧
    (perform Y G c l.cleared w o).2.2 = (perform Y G c l w o).2.2 ∧
    ((∀ q, o ≠ .probe q) → (perform Y G c l.cleared w o).2.1.page = (perform Y G c l w o).2.1.page.cleared) := by
  have hrec : ∀ (h : Past) r, h.record l.cleared w o r = h.record l w o r := by
    intro h r
    cases o with
    | ipam st o => cases st <;> cases o <;> rfl
    | proc o => cases o <;> rfl
    | _ => rfl
  have hpage : (∀ q, o ≠ .probe q) → ∀ r mem, Local.page { l.cleared.observe Y w o r with mem := mem } =
      (Local.page { l.observe Y w o r with mem := mem }).cleared := by
    intro ho r mem
    cases o with
    | probe q => exact absurd rfl (ho q)
    | kv o => cases o <;> rfl
    | _ => rfl
  unfold perform
  rw [attempt_cleared]
  exact ⟨rfl, congrArg (fun past => World.mk _ _ _ _ _ _ _ past) (hrec _ _), fun ho => hpage ho _ _⟩

/-- An operation that is not one on the pool in memory does to the books what it does where
no probe has failed. -/
theorem moves_cleared {o : Op} (hY : Y.Lawful) (hok : (ledger Y).ok l.ledger o)
    (ho : ∀ q, o ≠ .ipam .memory q) (hup : o.OnRedis → (∀ q, o ≠ .probe q) → c.fault = none)
    (hhit : hit → ∀ n, o = .proc (.kill n .sigkill) → c.fault = none) :
    Move G True hit l.page.cleared (w.books Y) o (perform Y G c l w o).1
      (perform Y G c l w o).2.1.page.cleared ((perform Y G c l w o).2.2.books Y) := by
  by_cases hp : ∃ q, o = .probe q
  · obtain ⟨q, rfl⟩ := hp
    have hw : (perform Y G c l w (.probe q)).2.2.books Y = w.books Y := by
      refine attempt_elim (P := fun x => World.books Y { x.2.2 with
        past := x.2.2.past.record l w (.probe q) x.1 } = w.books Y) rfl rfl fun n o' hr => ?_
      cases hr
      rfl
    rw [hw]
    exact .silent _ trivial trivial
  · have hno : ∀ q, o ≠ .probe q := fun q he => hp ⟨q, he⟩
    have hok' : (ledger Y).ok l.cleared.ledger o := by
      refine ⟨hok.1, ?_⟩
      cases o with
      | ipam st o =>
        cases st with
        | memory => exact absurd rfl (ho o)
        | redis => exact ⟨nofun, hok.2.2⟩
      | _ => trivial
    have hm : Moves Y G True hit c l.cleared w o := moves_perform hY hok' (fun _ hr => hup hr hno) hhit
    obtain ⟨hr, hw, hpage⟩ := @perform_cleared Y G c l w o
    unfold Moves at hm
    rw [hr, hw, hpage hno] at hm
    exact hm

/-- In memory a prefix is made and reserved without a trace in the books. -/
theorem perform_memory {q : IpamOp} (hacq : q ≠ .acquireIP) (hrel : ∀ a, q ≠ .releaseIP a) :
    (perform Y G c l w (.ipam .memory q)).2.2.books Y = w.books Y ∧
      ∃ u, (perform Y G c l w (.ipam .memory q)).2.1.page.cleared = { l.page.cleared with unreserved := u } := by
  obtain ⟨r, mem, h⟩ := @attempt_memory G c l w q
  unfold perform
  rw [h]
  refine ⟨rfl, Ledger.unreservedAfter l.ledger.unreserved (.ipam .memory q) r, ?_⟩
  cases q with
  | acquireIP => exact absurd rfl hacq
  | releaseIP a => exact absurd rfl (hrel a)
  | _ => rfl

end Operations

section Runs

/-- Redis answers every command but the probe. -/
def Answered [DecidableEq ι] (m : Machine (Host Y G) ι) (e : Event (Host Y G) ι) : Prop :=
  ∀ i c loc o k, m.Performs e i c loc o k → o.OnRedis → (∀ q, o ≠ .probe q) → c.fault = none

/-- Addresses are acquired from Redis and handed back to it. -/
def Shared [DecidableEq ι] (m : Machine (Host Y G) ι) (e : Event (Host Y G) ι) : Prop :=
  ∀ i c loc q k, m.Performs e i c loc (.ipam .memory q) k → q ≠ .acquireIP ∧ ∀ a, q ≠ .releaseIP a

variable {m : Machine (Host Y G) Unit} {e : Event (Host Y G) Unit}

/-- The invariant of runs in which one invocation follows another and probes may fail. -/
structure Undivided (m : Machine (Host Y G) Unit) : Prop where
  ledger : (ledgerWatch Y G).Holds m
  tidy : Tidy (booksOf m) (pagesOf m)
  exclusive : Exclusive (booksOf m) (cleared (pagesOf m))
  current : Current (booksOf m) (cleared (pagesOf m))

theorem cleared_idle (hm : m.Idle) : cleared (pagesOf m) = pagesOf m := by
  funext i
  rw [cleared, pagesOf_idle hm i]
  rfl

theorem undivided_of_untouched (hw : World.Untouched m.world) (hm : m.Idle) : Undivided m := by
  obtain ⟨⟨hledger, htidy, hexclusive⟩, hcurrent⟩ := orderly_of_untouched hw hm
  refine ⟨hledger, htidy, ?_, ?_⟩ <;> rw [cleared_idle hm] <;> assumption

/-- Nothing is doomed when an invocation ends that is not past a release. -/
theorem not_doomed {i : Unit} {j : Job (Host Y G)} {id : Nat} (hu : Unbroken m e) (hend : m.Ends e i j) :
    ¬ Doomed (cleared (pagesOf m)) id := by
  rintro ⟨k, r, key, rec, hk, hs, _⟩
  obtain ⟨p, hp, rfl⟩ := exists_of_cleared hk
  have ⟨_, _, hj, _⟩ := hend
  obtain rfl : j.loc.page = p := Option.some.inj ((pagesOf_job hj).symm.trans hp)
  exact (hu i j hend key rec).1 hs

theorem Undivided.over {i : Unit} {j : Job (Host Y G)} {b' : Books} (h : Undivided m) (hu : Unbroken m e)
    (hend : m.Ends e i j) (hb : Fewer (booksOf m) b') (hs : SameLeases (booksOf m) b')
    (hreg : b'.registry = (booksOf m).registry) :
    Exclusive b' (cleared (Function.update (pagesOf m) i none)) ∧
      Current b' (cleared (Function.update (pagesOf m) i none)) := by
  rw [cleared_update, Option.map_none]
  refine ⟨h.exclusive.weaken hb hs humblerPages_clear fun q _ _ hd => absurd hd (not_doomed hu hend), ?_⟩
  refine ⟨fun p key rec hi => by simp at hi, fun k rec a hk hip ha => ?_⟩
  rw [hreg] at hk
  rw [hs.freed] at ha
  obtain ⟨p, hp, hst⟩ := h.current.pending k rec a hk hip ha
  obtain ⟨r, hr, rfl⟩ := exists_of_cleared hp
  have ⟨_, _, hj, _⟩ := hend
  obtain rfl : j.loc.page = r := Option.some.inj ((pagesOf_job hj).symm.trans hr)
  rcases hst with hst | hst
  · exact absurd hst (hu i j hend k rec).1
  · exact absurd ((hu i j hend k rec).2 hst) hip

theorem Undivided.step (hY : Y.Lawful) (hG : G.Lawful) (h : Undivided m) (hup : Answered m e) (hsh : Shared m e)
    (hhit : SignalsHit m e) (hu : Unbroken m e) : Undivided (m.apply e) := by
  have htidy : Tidy (booksOf m) (cleared (pagesOf m)) := h.tidy.weaken (.refl _) weakerPages_cleared
  have hJ : Exclusive (booksOf (m.apply e)) (cleared (pagesOf (m.apply e))) ∧
      Current (booksOf (m.apply e)) (cleared (pagesOf (m.apply e))) := by
    apply books_apply (fun b P => Exclusive b (cleared P) ∧ Current b (cleared P))
    case stay => exact ⟨h.exclusive, h.current⟩
    case enter =>
      intro i p q hf hi ho hq _
      have hi' : cleared (pagesOf m) i = none := by rw [cleared, hi, Option.map_none]
      have ho' : p.cleared.Opened (booksOf m) := ⟨ho.id, ho.fresh, rfl, ho.reserved, ho.target⟩
      rw [cleared_update, Option.map_some]
      refine ⟨h.exclusive.enter ho' hi' hf (by rw [hq]; exact nofun), fun p' key rec hp' hs => ?_,
        fun k rec a hk hip ha => ?_⟩
      · obtain rfl : p.cleared = p' := by simpa using hp'
        rcases ho'.fresh with hs' | hs' | ⟨_, hs'⟩ <;> rw [hs'] at hs <;> cases hs
      · obtain ⟨p', hp', _⟩ := h.current.pending k rec a hk hip ha
        rw [hi'] at hp'
        cases hp'
    case clear => exact fun i j hend => h.over hu hend (.refl _) ⟨rfl, rfl, rfl⟩ rfl
    case leave => exact fun i j hend => h.over hu hend (fewer_keep _) ⟨rfl, rfl, rfl⟩ rfl
    case acted =>
      intro i c loc o k hp hi
      have hi' := cleared_eq_some hi
      rw [cleared_update, Option.map_some]
      by_cases hmem : ∃ q, o = .ipam .memory q
      · obtain ⟨q, rfl⟩ := hmem
        obtain ⟨hacq, hrel⟩ := hsh i c loc q k hp
        obtain ⟨hb, u, hpage⟩ := @perform_memory Y G c loc m.world q hacq hrel
        rw [hb, hpage]
        refine ⟨h.exclusive.weaken (.refl _) ⟨rfl, rfl, rfl⟩ (humblerPages_update hi' ?_) ?_, ?_⟩
        · exact ⟨⟨rfl, fun h => h, fun _ _ h => h, fun _ h => ⟨h, rfl⟩⟩, rfl, fun _ _ h => h, fun _ _ h => h⟩
        · exact fun q _ _ hd => hd.update hi' fun _ _ hst => ⟨hst, rfl⟩
        · exact h.current.keep hi' rfl rfl (fun _ _ hs => ⟨hs, rfl⟩) fun _ _ hs => hs
      · have hok : (PrivatePaas.ledger Y).ok loc.ledger o := h.ledger.ok hp
        have hm := @moves_cleared Y G (∀ n, o = .proc (.kill n .sigkill) → c.fault = none) c loc m.world o hY hok
          (fun q he => hmem ⟨q, he⟩) (hup i c loc o k hp) fun hh => hh
        refine ⟨h.exclusive.move htidy hG trivial (fun hmiss q hq ho => hmiss fun n he => ?_) hi'
          (h.current.fair (Y := Y) hi' hok.1) hm, h.current.move htidy h.exclusive trivial hi' hm⟩
        subst he
        exact hhit i c loc n k hp q hq ho
    case exit =>
      exact fun pid _ => ⟨h.exclusive.weaken (fewer_keep _) ⟨rfl, rfl, rfl⟩ (humblerPages_refl _)
        fun _ _ _ hd => hd, h.current.reading, h.current.pending⟩
    case spawn =>
      exact fun q hf hq => ⟨h.exclusive.weaken (fewer_add hf (by rw [hq]; exact nofun)) ⟨rfl, rfl, rfl⟩
        (humblerPages_refl _) fun _ _ _ hd => hd, h.current.reading, h.current.pending⟩
  exact ⟨h.ledger.apply e, tidy_step hY h.ledger h.tidy, hJ.1, hJ.2⟩

end Runs
end PrivatePaas
