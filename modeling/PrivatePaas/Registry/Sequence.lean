import PrivatePaas.Registry.Exclusive

/-!
# One invocation after another

With a single slot a delete works on the record that is in the registry. As long as no
delete ends between its release and its `Del`, no record outlives the release of its
address, and the conditions under which leases are exclusive hold by themselves.
-/

namespace PrivatePaas
set_option autoImplicit false
open Files Text Effects Network PrivatePaas.Parser Books

variable {Y : Yaml} {G : GoIpam}

/-- A delete past its release. -/
def Stage.Pending (s : Stage) (key : String) (rec : Cmd.Service) : Prop :=
  s = .released key rec ∨ s = .killed key rec

/-- The delete under way has read what the registry says, and a record whose address has
been released is the one it is about to drop. -/
structure Current (b : Books) (P : Pages Unit) : Prop where
  reading : ∀ p key rec, P () = some p → p.stage = .reading key rec →
    b.registry key = some (rec, p.target)
  pending : ∀ k rec a, b.registry k = some (rec, a) → rec.ip ≠ "" → a ∈ b.freed →
    ∃ p, P () = some p ∧ p.stage.Pending k rec

/-- No delete ends between the release of an address and the `Del` of its record. -/
def Unbroken (m : Machine (Host Y G) Unit) (e : Event (Host Y G) Unit) : Prop :=
  ∀ i j, m.Ends e i j → ∀ key rec,
    j.loc.ledger.stage ≠ .released key rec ∧ (j.loc.ledger.stage = .killed key rec → rec.ip = "")

section Steps
variable {b b' : Books} {P : Pages Unit} {p p' : Page} {up hit : Prop}

/-- With a single slot every operation is fair: the record that a delete has read is there,
and its address has not been released. -/
theorem Current.fair (h : Current b P) (hi : P () = some p) {o : Op} (hok : p.stage.ok Y o) :
    Fair G b P p o := by
  cases o with
  | ipam st o =>
    cases o with
    | releaseIP a =>
      obtain ⟨key, rec, hs, hip, _⟩ := hok
      intro hfreed
      have hreg := h.reading p key rec hi hs
      obtain ⟨q, hpg, hst⟩ := h.pending key rec _ hreg hip hfreed
      obtain rfl : p = q := Option.some.inj (hi.symm.trans hpg)
      rw [hs] at hst
      rcases hst with hst | hst <;> cases hst
    | acquireIP =>
      obtain ⟨known, hs⟩ := hok
      intro s a _ _ j r key rec hj hst
      obtain rfl : p = r := Option.some.inj (hi.symm.trans hj)
      rw [hs] at hst
      cases hst
    | _ => trivial
  | _ => trivial

/-- The registry and the releases are as they were. -/
theorem Current.keep (h : Current b P) (hi : P () = some p)
    (hreg : b'.registry = b.registry) (hfreed : b'.freed = b.freed)
    (hr : ∀ key rec, p'.stage = .reading key rec → p.stage = .reading key rec ∧ p'.target = p.target)
    (hp : ∀ key rec, p.stage.Pending key rec → p'.stage.Pending key rec) :
    Current b' (Function.update P () (some p')) := by
  constructor
  · intro q key rec hq hs
    obtain rfl : p' = q := by simpa using hq
    obtain ⟨hs', ht⟩ := hr key rec hs
    rw [hreg, ht]
    exact h.reading p key rec hi hs'
  · intro k rec a hk hip ha
    rw [hreg] at hk
    rw [hfreed] at ha
    obtain ⟨q, hq, hs⟩ := h.pending k rec a hk hip ha
    obtain rfl : p = q := Option.some.inj (hi.symm.trans hq)
    exact ⟨p', by simp, hp k rec hs⟩

/-- While no delete is past its release, no recorded address is released. -/
theorem Current.unfreed (h : Current b P) (hno : ∀ p, P () = some p → ∀ key rec, ¬ p.stage.Pending key rec)
    {k : String} {rec : Cmd.Service} {a : Nat} (hk : b.registry k = some (rec, a))
    (hip : rec.ip ≠ "") : a ∉ b.freed := by
  intro ha
  obtain ⟨p, hp, hs⟩ := h.pending k rec a hk hip ha
  exact hno p hp k rec hs

theorem not_pending {s : Stage} (h : ∀ key rec, s ≠ .released key rec ∧ s ≠ .killed key rec)
    (key : String) (rec : Cmd.Service) : ¬ s.Pending key rec := by
  rintro (hs | hs)
  · exact (h key rec).1 hs
  · exact (h key rec).2 hs

theorem Current.release {key : String} {rec : Cmd.Service} {pool : Option (Finset String)}
    (h : Current b P) (ht : Tidy b P) (hi : P () = some p) (hs : p.stage = .reading key rec) :
    Current { b with pool := pool, freed := insert p.target b.freed }
      (Function.update P () (some { p with stage := .released key rec })) := by
  constructor
  · intro q key' rec' hq hst
    obtain rfl : { p with stage := Stage.released key rec } = q := by simpa using hq
    cases hst
  · intro k rec' a hk hip ha
    refine ⟨{ p with stage := .released key rec }, by simp, .inl ?_⟩
    have hown := h.reading p key rec hi hs
    rcases Finset.mem_insert.mp ha with rfl | ha
    · obtain rfl := ht.author_inj k key rec' rec _ hk hown
      obtain ⟨rfl, _⟩ := Prod.mk.inj (Option.some.inj (hk.symm.trans hown))
      rfl
    · obtain ⟨q, hq, hst⟩ := h.pending k rec' a hk hip ha
      obtain rfl : p = q := Option.some.inj (hi.symm.trans hq)
      rw [hs] at hst
      rcases hst with hst | hst <;> cases hst

theorem Current.set {key : String} {rec : Cmd.Service} (h : Current b P)
    (hex : Exclusive b P) (hi : P () = some p) (hs : p.stage.Unwritten) :
    Current { b with registry := Function.update b.registry key (some (rec, p.id)) }
      (Function.update P () (some { p with stage := .done })) := by
  have hno : ∀ q, P () = some q → ∀ key rec, ¬ q.stage.Pending key rec := by
    intro q hq
    obtain rfl : p = q := Option.some.inj (hi.symm.trans hq)
    refine not_pending fun key rec => ⟨fun hst => ?_, fun hst => ?_⟩ <;> rw [hst] at hs <;>
      rcases hs with hs | ⟨_, _, hs⟩
    · exact hs
    · cases hs
    · exact hs
    · cases hs
  constructor
  · intro q key' rec' hq hst
    obtain rfl : { p with stage := Stage.done } = q := by simpa using hq
    cases hst
  · intro k rec' a hk hip ha
    by_cases hkey : k = key
    · subst k
      simp only [Function.update_self, Option.some.injEq, Prod.mk.injEq] at hk
      obtain ⟨_, rfl⟩ := hk
      exact absurd ha (hex.unfreed () p hi hs)
    · have hk' : b.registry k = some (rec', a) := by simpa [Function.update_of_ne hkey] using hk
      exact absurd ha (h.unfreed hno hk' hip)

theorem Current.del {key : String} {rec : Cmd.Service} (h : Current b P) (hi : P () = some p)
    (hs : p.stage = .killed key rec) :
    Current { b with registry := Function.update b.registry key none }
      (Function.update P () (some { p with stage := .done })) := by
  constructor
  · intro q key' rec' hq hst
    obtain rfl : { p with stage := Stage.done } = q := by simpa using hq
    cases hst
  · intro k rec' a hk hip ha
    have hkey : k ≠ key := by
      rintro rfl
      simp at hk
    have hk' : b.registry k = some (rec', a) := by simpa [Function.update_of_ne hkey] using hk
    obtain ⟨q, hq, hst⟩ := h.pending k rec' a hk' hip ha
    obtain rfl : p = q := Option.some.inj (hi.symm.trans hq)
    rw [hs] at hst
    rcases hst with hst | hst
    · cases hst
    · injection hst with hkk
      exact absurd hkk.symm hkey

theorem Current.get {key : String} {rec : Cmd.Service} {author : Nat} (h : Current b P)
    (hi : P () = some p) (hs : p.stage = .asked key) (hk : b.registry key = some (rec, author)) :
    Current b (Function.update P () (some { p with stage := .reading key rec, target := author })) := by
  constructor
  · intro q key' rec' hq hst
    obtain rfl : { p with stage := Stage.reading key rec, target := author } = q := by simpa using hq
    injection hst with h1 h2
    subst h1 h2
    exact hk
  · intro k rec' a hk' hip ha
    obtain ⟨q, hq, hst⟩ := h.pending k rec' a hk' hip ha
    obtain rfl : p = q := Option.some.inj (hi.symm.trans hq)
    rw [hs] at hst
    rcases hst with hst | hst <;> cases hst

theorem Current.move {o : Op} {r : o.Ret} (h : Current b P) (ht : Tidy b P) (hex : Exclusive b P)
    (hup : up) (hi : P () = some p) (hm : Move G up hit p b o r p' b') :
    Current b' (Function.update P () (some p')) := by
  have same : ∀ {b' : Books} {r : Bool}, b'.registry = b.registry → b'.freed = b.freed →
      Current b' (Function.update P () (some { p with unreserved := r })) := fun hreg hfreed =>
    h.keep hi hreg hfreed (fun _ _ hs => ⟨hs, rfl⟩) fun _ _ hs => hs
  -- a page that neither reads nor is past a release, before and after
  have quiet : ∀ {b' : Books} {s : Stage} {t : Nat}, b'.registry = b.registry → b'.freed = b.freed →
      (∀ key rec, s ≠ .reading key rec) → (∀ key rec, ¬ p.stage.Pending key rec) →
      Current b' (Function.update P () (some { p with stage := s, target := t })) :=
    fun hreg hfreed hr hp =>
      h.keep hi hreg hfreed (fun key rec hs => absurd hs (hr key rec)) fun key rec hs =>
        absurd hs (hp key rec)
  cases hm with
  | silent => exact same rfl rfl
  | outset path s hs hs' =>
    refine quiet rfl rfl ?_ (not_pending fun _ _ => by rw [hs]; exact ⟨nofun, nofun⟩)
    intro key rec hst
    rcases hs' with rfl | ⟨known, rfl⟩ <;> cases hst
  | offline o hdown => exact absurd hup hdown
  | stray st o s u pool lessee freed hoff =>
    rw [hex.online () p hi] at hoff
    cases hoff hup
  | format hnone => exact same rfl rfl
  | found s r hpool hr => exact same rfl rfl
  | reserve s a hpool ha => exact same rfl rfl
  | reserved a => exact same rfl rfl
  | claim known s a hs hu hpool ha =>
    exact quiet rfl rfl nofun (not_pending fun _ _ => by rw [hs]; exact ⟨nofun, nofun⟩)
  | exhausted => exact same rfl rfl
  | release key rec s a hs => exact h.release ht hi hs
  | refuse key rec a hs =>
    exact quiet rfl rfl nofun (not_pending fun _ _ => by rw [hs]; exact ⟨nofun, nofun⟩)
  | start cmd known ip pid _ hs hf =>
    exact quiet rfl rfl nofun (not_pending fun _ _ => by rw [hs]; exact ⟨nofun, nofun⟩)
  | startEnvoy cmd q _ hq hf => exact same rfl rfl
  | kill key rec hs =>
    refine h.keep hi rfl rfl nofun fun key' rec' hst => ?_
    rcases hs with hs | hs <;> rw [hs] at hst <;> rcases hst with hst | hst <;> cases hst
    exact .inr rfl
  | killFails key rec hs =>
    refine h.keep hi rfl rfl nofun fun key' rec' hst => ?_
    rcases hs with hs | hs <;> rw [hs] at hst <;> rcases hst with hst | hst <;> cases hst
    exact .inr rfl
  | term n => exact same rfl rfl
  | set key text rec hs =>
    refine h.set hex hi ?_
    rcases hs with ⟨known, hs⟩ | ⟨pid, hs, _⟩ <;> rw [hs]
    · exact .inl trivial
    · exact .inr ⟨_, _, rfl⟩
  | setFails key text rec hs hdown => exact absurd hup hdown
  | get key rec author hs hk => exact h.get hi hs hk
  | miss key t hs =>
    exact quiet rfl rfl nofun (not_pending fun _ _ => by rw [hs]; exact ⟨nofun, nofun⟩)
  | del key rec hs => exact h.del hi hs
  | delFails key rec hs hdown => exact absurd hup hdown

end Steps

section Runs
variable {m : Machine (Host Y G) Unit} {e : Event (Host Y G) Unit}

/-- The invariant of runs in which one invocation follows another. -/
structure Orderly (m : Machine (Host Y G) Unit) : Prop where
  kept : Kept m
  current : Current (booksOf m) (pagesOf m)

theorem orderly_of_untouched (hw : World.Untouched m.world) (hm : m.Idle) : Orderly m := by
  refine ⟨kept_of_untouched hw hm, ⟨fun p key rec hi => ?_, fun k rec a hk => ?_⟩⟩
  · rw [pagesOf_idle hm] at hi
    cases hi
  · simp [booksOf, World.books, hw.registry k] at hk

/-- With a single slot every operation is fair. -/
theorem Orderly.fair (h : Orderly m) (hu : Unbroken m e) : FairStep m e := by
  refine ⟨fun i c loc o k hp => ?_, fun i j hend key rec hs => absurd hs (hu i j hend key rec).1⟩
  have hok : (ledger Y).ok loc.ledger o := h.kept.ledger.ok hp
  exact h.current.fair (pagesOf_job hp.2.1) hok.1

/-- The invocation that ends leaves no record behind whose address is released. -/
theorem Current.over {b' : Books} {i : Unit} {j : Job (Host Y G)}
    (h : Current (booksOf m) (pagesOf m)) (hu : Unbroken m e) (hend : m.Ends e i j)
    (hreg : b'.registry = (booksOf m).registry) (hfreed : b'.freed = (booksOf m).freed) :
    Current b' (Function.update (pagesOf m) i none) := by
  refine ⟨fun p key rec hi => by simp at hi, fun k rec a hk hip ha => ?_⟩
  rw [hreg] at hk
  rw [hfreed] at ha
  obtain ⟨p, hp, hs⟩ := h.pending k rec a hk hip ha
  have ⟨_, _, hj, _⟩ := hend
  obtain rfl : j.loc.page = p := Option.some.inj ((pagesOf_job hj).symm.trans hp)
  rcases hs with hs | hs
  · exact absurd hs (hu i j hend k rec).1
  · exact absurd ((hu i j hend k rec).2 hs) hip

theorem Orderly.step (hY : Y.Lawful) (hG : G.Lawful) (h : Orderly m) (hup : RedisUp m e)
    (hhit : SignalsHit m e) (hu : Unbroken m e) : Orderly (m.apply e) := by
  refine ⟨h.kept.step hY hG hup hhit (h.fair hu), ?_⟩
  apply books_step (fun b P => Current b P) True False hY h.kept.ledger
  case hup => exact fun i c loc o k hp _ => hup i c loc o k hp
  case hhit => exact fun _ _ _ _ _ _ hx => absurd hx id
  case stay => exact h.current
  case enter =>
    intro i p q hf hi ho _ _
    refine ⟨fun p' key rec hp' hs => ?_, fun k rec a hk hip ha => ?_⟩
    · obtain rfl : p = p' := by simpa using hp'
      rcases ho.fresh with hs' | hs' | ⟨_, hs'⟩ <;> rw [hs'] at hs <;> cases hs
    · obtain ⟨p', hp', _⟩ := h.current.pending k rec a hk hip ha
      rw [hi] at hp'
      cases hp'
  case clear => exact fun i j hend => h.current.over hu hend rfl rfl
  case leave => exact fun i j hend => h.current.over hu hend rfl rfl
  case move =>
    exact fun i c loc o k r p' b' hp hi _ hm =>
      h.current.move h.kept.tidy h.kept.exclusive trivial hi hm
  case exit => exact fun _ _ => ⟨h.current.reading, h.current.pending⟩
  case spawn => exact fun _ _ _ => ⟨h.current.reading, h.current.pending⟩

end Runs
end PrivatePaas
