import Mathlib.Data.Fintype.Basic
import PrivatePaas.Registry.Exclusive
import PrivatePaas.Results.Sample

/-!
# Addresses of concurrent invocations

With any number of invocations under way, an address goes back to the pool, or out of
it, only when no other live workload holds it. This asks for two things: that no
second delete releases what a first one has released already, and that no create
acquires an address between its release and the kill.
-/

namespace PrivatePaas
set_option autoImplicit false
open Files Text Effects Network PrivatePaas.Parser

variable {Y : Yaml} {G : GoIpam} {ι : Type}

/-- An address leaves the pool as allocated only by a delete, and only when every live
workload that was given it is the one of the record that this delete has read. What
`AcquireIP` answers is the address of no live workload. -/
structure SafeStep [DecidableEq ι] (m : Machine (Host Y G) ι) (e : Event (Host Y G) ι) : Prop where
  released : ∀ a, World.Allocated m.world a → ¬ World.Allocated (m.apply e).world a →
    ∃ i c loc k key rec, m.Performs e i c loc (.ipam .redis (.releaseIP a)) k ∧
      loc.ledger.stage = .reading key rec ∧
      ∀ q, World.Live m.world q → q.ip = a → q.owner = loc.target
  acquired : ∀ i c loc st k a, m.Performs e i c loc (.ipam st .acquireIP) k →
    (perform Y G c loc m.world (.ipam st .acquireIP)).1 = some a →
    ∀ q, World.Live m.world q → q.ip ≠ a

section Steps
variable [DecidableEq ι] {m : Machine (Host Y G) ι} {e : Event (Host Y G) ι}

omit [DecidableEq ι] in
/-- The workloads that hold an address leased for a record are that record's. -/
theorem Exclusive.owner_eq {b : Books} {P : Pages ι} (h : Exclusive b P) {q : Proc} {id : Nat}
    (hq : b.Live q) (hip : q.ip ≠ "") (hl : b.Leased q.ip id) : q.owner = id := by
  have hfree : q.owner ∉ b.freed := fun hx => h.vacant q hq hx id hl
  have hlessee := (h.live q hq hip hfree).lessee
  rw [hl.lessee] at hlessee
  exact (Option.some.inj hlessee).symm

theorem Kept.released (h : Kept m) (hY : Y.Lawful) (hup : RedisUp m e) (hf : FairStep m e) (a : String)
    (ha : World.Allocated m.world a) (hn : ¬ World.Allocated (m.apply e).world a) :
    ∃ i c loc k key rec, m.Performs e i c loc (.ipam .redis (.releaseIP a)) k ∧
      loc.ledger.stage = .reading key rec ∧
      ∀ q, World.Live m.world q → q.ip = a → q.owner = loc.target := by
  by_contra hno
  refine hn ?_
  change ∃ s, (booksOf (m.apply e)).pool = some s ∧ a ∈ s
  apply books_step (fun b _ => ∃ s, b.pool = some s ∧ a ∈ s) True False hY h.ledger
  case hup => exact fun i c loc o k hp _ => hup i c loc o k hp
  case hhit => exact fun _ _ _ _ _ _ hx => absurd hx id
  case stay => exact ha
  case enter => exact fun _ _ _ _ _ _ _ _ => ha
  case clear => exact fun _ _ _ => ha
  case leave => exact fun _ _ _ => ha
  case exit => exact fun _ _ => ha
  case spawn => exact fun _ _ _ => ha
  case move =>
    intro i c loc o k r p' b' hp hi hok hm
    obtain ⟨s0, hs0, ha0⟩ := ha
    cases hm with
    | stray st o s u pool lessee freed hoff =>
      have hon := h.exclusive.online i loc.page hi
      rw [hoff trivial] at hon
      cases hon
    | format hnone => exact absurd (hs0.symm.trans hnone) nofun
    | reserve s x hpool =>
      obtain rfl : s0 = s := Option.some.inj (hs0.symm.trans hpool)
      exact ⟨_, rfl, Finset.mem_insert_of_mem ha0⟩
    | claim known s x hs hu hpool =>
      obtain rfl : s0 = s := Option.some.inj (hs0.symm.trans hpool)
      exact ⟨_, rfl, Finset.mem_insert_of_mem ha0⟩
    | release key rec s x hs hip hu hx hpool hmem =>
      obtain rfl : s0 = s := Option.some.inj (hs0.symm.trans hpool)
      by_cases hax : a = x
      · subst hax
        have hfair : Fair G (booksOf m) (pagesOf m) loc.page (.ipam .redis (.releaseIP a)) :=
          hf.fair i c loc _ k hp
        have hfresh : loc.target ∉ (booksOf m).freed := fun hx => hfair hx s0 hpool hmem
        have hr : loc.page.stage.Reads rec := by rw [hs]; exact rfl
        have hrec : a = rec.ip := by rw [hx, (h.exclusive.read_ip i _ rec hi hr).cleanIP]
        have hl := h.exclusive.read i _ key rec hi hs hip hfresh
        refine absurd ⟨i, c, loc, k, key, rec, hp, hs, fun q hq hqa => ?_⟩ hno
        have hqr : q.ip = rec.ip := by rw [hqa, hrec]
        exact h.exclusive.owner_eq hq (by rw [hqr]; exact hip) (by rw [hqr]; exact hl)
      · exact ⟨_, rfl, Finset.mem_erase.mpr ⟨hax, ha0⟩⟩
    | _ => exact ⟨s0, hs0, ha0⟩

omit [DecidableEq ι] in
theorem Kept.acquired (h : Kept m) (hG : G.Lawful) (hup : RedisUp m e) (hf : FairStep m e) {i : ι}
    {c : Choice} {loc : Local} {st : Storage} {k : Option String → Go Unit} {a : String}
    (hp : m.Performs e i c loc (.ipam st .acquireIP) k)
    (ha : (perform Y G c loc m.world (.ipam st .acquireIP)).1 = some a) (q : Proc)
    (hq : World.Live m.world q) : q.ip ≠ a := by
  have hi := pagesOf_job hp.2.1
  have hok : (PrivatePaas.ledger Y).ok loc.ledger (.ipam st .acquireIP) := h.ledger.ok hp
  have hon : loc.ledger.offline = false := h.exclusive.online i loc.page hi
  cases st with
  | memory =>
    rw [hok.2.1 rfl] at hon
    cases hon
  | redis =>
    have hfair : Fair G (booksOf m) (pagesOf m) loc.page (.ipam .redis .acquireIP) :=
      hf.fair i c loc (.ipam .redis .acquireIP) k hp
    have hf0 := hup i c loc (.ipam .redis .acquireIP) k hp trivial
    obtain ⟨s, hpool, hs⟩ := Option.bind_eq_some_iff.mp ((perform_acquireIP hf0).symm.trans ha)
    have hfree := hG.free s a hs
    have hne := ne_empty_of_mem_hosts (hG.host s a hs)
    rintro rfl
    by_cases hx : q.owner ∈ (booksOf m).freed
    · obtain ⟨j, r, key, rec, hj, hst, htgt⟩ := h.exclusive.doomed q hq hx
      have hr : r.stage.Reads rec := by rw [hst]; exact rfl
      have hip := (h.tidy.reads j r rec q hj hr hq htgt.symm).2
      exact hfair s q.ip hpool hs j r key rec hj hst q hq htgt.symm hip
    · obtain ⟨s', hs', hmem⟩ := (h.exclusive.live q hq hne hx).allocated
      obtain rfl : s = s' := Option.some.inj (hpool.symm.trans hs')
      exact hfree hmem

theorem Kept.safe (h : Kept m) (hY : Y.Lawful) (hG : G.Lawful) (hup : RedisUp m e)
    (hf : FairStep m e) : SafeStep m e :=
  ⟨h.released hY hup hf, fun _ _ _ _ _ _ hp ha => h.acquired hG hup hf hp ha⟩

end Steps

/-- Any number of invocations, from a host without records and workloads: every step is
safe as long as Redis answers, no kill fails, and every step is fair. -/
theorem addresses_exclusive [DecidableEq ι] {m : Machine (Host Y G) ι} {es : List (Event (Host Y G) ι)}
    (hY : Y.Lawful) (hG : G.Lawful) (hm : m.Idle) (hw : World.Untouched m.world)
    (hc : Machine.Along (fun m e => RedisUp m e ∧ SignalsHit m e ∧ FairStep m e) m es) :
    Machine.Along SafeStep m es :=
  Machine.along_of_step (J := Kept)
    (fun _ _ h hc => h.step hY hG hc.1 hc.2.1 hc.2.2)
    (fun _ _ h hc => h.safe hY hG hc.1 hc.2.2)
    (kept_of_untouched hw hm) hc

section Calm
variable [Fintype ι]

/-- A delete that has released an address and has not killed yet. -/
def releasing (j : Job (Host Y G)) : Bool :=
  match (Local.ledger j.loc).stage with
  | .released _ _ => true
  | _ => false

/-- A test for the conditions: nothing fails, a release is the first one for its record,
and where an address is acquired, or an invocation ends, no kill is outstanding. -/
def calm (m : Machine (Host Y G) ι) (e : Event (Host Y G) ι) : Bool :=
  match e with
  | .act i c => Choice.fault c = none && match m.due i with
    | some (l, .ipam _ (.releaseIP _)) => Local.target l ∉ (World.past m.world).freed
    | some (_, .ipam _ .acquireIP) => decide (∀ j, (m.jobs j).all (fun x => ! releasing x) = true)
    | some _ => true
    | none => (m.jobs i).all fun x => ! releasing x
  | _ => true

omit [Fintype ι] in
theorem not_released_of_all {m : Machine (Host Y G) ι} {i : ι} {j : Job (Host Y G)}
    (h : (m.jobs i).all (fun x => ! releasing x) = true) (hj : m.jobs i = some j)
    (key : String) (rec : Cmd.Service) : j.loc.ledger.stage ≠ .released key rec := by
  intro hs
  simp [hj, releasing, hs] at h

theorem fair_of_calm {m : Machine (Host Y G) ι} {e : Event (Host Y G) ι} (h : calm m e = true) :
    RedisUp m e ∧ SignalsHit m e ∧ FairStep m e := by
  have hfault : ∀ i c loc o k, m.Performs e i c loc o k → c.fault = none := by
    rintro i c loc o k ⟨rfl, _⟩
    simp only [calm, Bool.and_eq_true, decide_eq_true_eq] at h
    exact h.1
  refine ⟨fun i c loc o k hp _ => hfault i c loc o k hp, fun i c loc n k hp _ _ _ => hfault i c loc _ k hp,
    fun i c loc o k hp => ?_, fun i j hend key rec hs => ?_⟩
  · have hdue := hp.due
    obtain ⟨rfl, _⟩ := hp
    simp only [calm, hdue, Bool.and_eq_true] at h
    cases o with
    | ipam st o =>
      cases o with
      | releaseIP a =>
        have hfresh : Local.target loc ∉ m.world.past.freed := of_decide_eq_true h.2
        exact fun hx => absurd hx hfresh
      | acquireIP =>
        have hall : ∀ j, (m.jobs j).all (fun x => ! releasing x) = true := of_decide_eq_true h.2
        intro s a _ _ j r key rec hj hst
        obtain ⟨x, hx, rfl⟩ := pagesOf_eq_some.mp hj
        exact absurd hst (not_released_of_all (hall j) hx key rec)
      | _ => trivial
    | _ => trivial
  · have hdue := hend.due
    obtain ⟨c, rfl, hj, _⟩ := hend
    simp only [calm, hdue, Bool.and_eq_true] at h
    exact absurd hs (not_released_of_all h.2 hj key rec)

end Calm

section Sample
open Sample

/-- A service is deleted up to the release of its address; then a create begins. -/
def lateKill : List (SampleEvent (Fin 2)) :=
  create 0 web 100 :: steps 0 20 101 ++ delete 0 "service" "web" 200 :: steps 0 5 201 ++
    create 1 web 300 :: steps 1 4 301

/-- The create is handed the address of the workload that is still alive. -/
theorem lateKill_unsafe : World.Untouched (start (ι := Fin 2)).world ∧
    (∀ e ∈ lateKill ++ steps 1 1 301, Faultless e) ∧
    ¬ Machine.Along SafeStep start (lateKill ++ steps 1 1 301) := by
  refine ⟨⟨fun _ => rfl, start_workloads, rfl⟩, by decide, fun h => ?_⟩
  have hsafe := (Machine.along_append.mp h).2.1
  have hdue : ((start.run lateKill).due 1).map Prod.snd = some (.ipam .redis .acquireIP) := by
    decide +kernel
  have hpool : (start.run lateKill).world.pool.bind lowestFree.acquireIP = some "10.0.0.1" := by
    decide +kernel
  have hlive : ∃ q ∈ (start.run lateKill).world.procs.all, q.role = .workload ∧ q.ip = "10.0.0.1" := by
    decide +kernel
  obtain ⟨⟨loc, o⟩, hd, rfl⟩ := Option.map_eq_some_iff.mp hdue
  obtain ⟨k, hp⟩ := Machine.exists_performs ({ pid := 301 } : Choice) hd
  obtain ⟨q, hq, hrole, hip⟩ := hlive
  exact hsafe.acquired 1 _ loc .redis k "10.0.0.1" hp ((perform_acquireIP rfl).trans hpool) q
    ⟨hq, hrole⟩ hip

/-- Two creates in turns, and a delete of one of the services while nothing else runs. -/
def inTurns : List (SampleEvent (Fin 2)) :=
  create 0 web 100 :: create 1 blog 200 :: (List.range 30).flatMap
    (fun _ => steps 0 1 101 ++ steps 1 1 201) ++ steps 1 60 202 ++
    delete 0 "service" "web" 300 :: steps 0 80 301

theorem inTurns_safe : Machine.Along SafeStep start inTurns :=
  addresses_exclusive yaml_lawful lowestFree_lawful start_idle ⟨fun _ => rfl, start_workloads, rfl⟩
    (Machine.Along.imp (fun _ _ => fair_of_calm)
      (by decide +kernel : Machine.Along (fun m e => calm m e = true) start inTurns))

end Sample
end PrivatePaas
