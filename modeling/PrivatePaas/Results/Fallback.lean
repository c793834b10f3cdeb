import PrivatePaas.Registry.Outage
import PrivatePaas.Results.Distinct

/-!
# While Redis is out of reach

Every `GetIpam` looks for Redis anew, and where it does not find it the invocation has a
pool of its own, empty at first. As long as no address is acquired there or handed back
there, all invocations work on one pool, whatever else the probes answer.
-/

namespace PrivatePaas
set_option autoImplicit false
open Files Text Effects Network PrivatePaas.Parser

variable {Y : Yaml} {G : GoIpam} {m : Machine (Host Y G) Unit} {e : Event (Host Y G) Unit}

/-- No two live workloads hold the same address. -/
def Apart (w : World) : Prop := ∀ q q', w.Live q → w.Live q' → q.ip ≠ "" → q.ip = q'.ip → q = q'

/-- What is acquired was free in the pool and with no live workload; what a delete hands
back goes to the pool in which the author of the record acquired it. -/
structure OnePool (m : Machine (Host Y G) Unit) (e : Event (Host Y G) Unit) : Prop where
  acquired : ∀ i c loc st k a, m.Performs e i c loc (.ipam st .acquireIP) k →
    (perform Y G c loc m.world (.ipam st .acquireIP)).1 = some a →
    st = .redis ∧ ¬ World.Allocated m.world a ∧ ∀ q, World.Live m.world q → q.ip ≠ a
  released : ∀ i c loc st a k, m.Performs e i c loc (.ipam st (.releaseIP a)) k →
    st = .redis ∧ (World.past m.world).lessee a = some (Local.target loc) ∧
      World.Allocated m.world a ∧ ¬ World.Allocated (m.apply e).world a

section Steps

theorem Undivided.apart (h : Undivided m) : Apart m.world := by
  intro q q' hq hq' hip heq
  have howner : q.owner = q'.owner := by
    by_cases hf : q.owner ∈ (booksOf m).freed
    · by_cases hf' : q'.owner ∈ (booksOf m).freed
      · obtain ⟨_, p, _, _, hp, _, ht⟩ := h.exclusive.doomed q hq hf
        obtain ⟨_, p', _, _, hp', _, ht'⟩ := h.exclusive.doomed q' hq' hf'
        obtain rfl : p = p' := Option.some.inj (hp.symm.trans hp')
        rw [← ht, ← ht']
      · have hl := h.exclusive.live q' hq' (heq ▸ hip) hf'
        exact absurd (heq ▸ hl) (h.exclusive.vacant q hq hf q'.owner)
    · have hl := h.exclusive.live q hq hip hf
      by_cases hf' : q'.owner ∈ (booksOf m).freed
      · exact absurd (heq ▸ hl) (h.exclusive.vacant q' hq' hf' q.owner)
      · have hl' := (h.exclusive.live q' hq' (heq ▸ hip) hf').lessee
        rw [← heq, hl.lessee] at hl'
        exact Option.some.inj hl'
  exact Procs.eq_of_pid hq.1 hq'.1 (h.tidy.owner_inj q q' hq hq' howner)

theorem Undivided.acquired (h : Undivided m) (hG : G.Lawful) (hup : Answered m e) (hsh : Shared m e) {i : Unit}
    {c : Choice} {loc : Local} {st : Storage} {k : Option String → Go Unit} {a : String}
    (hp : m.Performs e i c loc (.ipam st .acquireIP) k)
    (ha : (perform Y G c loc m.world (.ipam st .acquireIP)).1 = some a) :
    st = .redis ∧ ¬ World.Allocated m.world a ∧ ∀ q, World.Live m.world q → q.ip ≠ a := by
  have hi := pagesOf_job hp.2.1
  obtain ⟨known, hs⟩ := (h.ledger.ok hp).1
  cases st with
  | memory => exact absurd rfl (hsh i c loc _ k hp).1
  | redis =>
    have hf0 := hup i c loc (.ipam .redis .acquireIP) k hp trivial nofun
    obtain ⟨s, hpool, hs'⟩ := Option.bind_eq_some_iff.mp ((perform_acquireIP hf0).symm.trans ha)
    have hfree := hG.free s a hs'
    refine ⟨rfl, ?_, ?_⟩
    · rintro ⟨s', hs'', hmem⟩
      obtain rfl : s = s' := Option.some.inj (hpool.symm.trans hs'')
      exact hfree hmem
    · rintro q hq rfl
      by_cases hx : q.owner ∈ (booksOf m).freed
      · obtain ⟨_, r, key, rec, hj, hst, _⟩ := h.exclusive.doomed q hq hx
        obtain rfl := Option.some.inj ((cleared_eq_some hi).symm.trans hj)
        rw [show loc.page.cleared.stage = .holding known "" from hs] at hst
        cases hst
      · obtain ⟨s', hs'', hmem⟩ :=
          (h.exclusive.live q hq (ne_empty_of_mem_hosts (hG.host s _ hs')) hx).allocated
        obtain rfl : s = s' := Option.some.inj (hpool.symm.trans hs'')
        exact hfree hmem

theorem Undivided.released (h : Undivided m) (hup : Answered m e) (hsh : Shared m e) {i : Unit}
    {c : Choice} {loc : Local} {st : Storage} {a : String} {k : Bool → Go Unit}
    (hp : m.Performs e i c loc (.ipam st (.releaseIP a)) k) :
    st = .redis ∧ (World.past m.world).lessee a = some (Local.target loc) ∧
      World.Allocated m.world a ∧ ¬ World.Allocated (m.apply e).world a := by
  have hi := cleared_eq_some (pagesOf_job hp.2.1)
  obtain ⟨key, rec, hs, hip, ha, _⟩ := (h.ledger.ok hp).1
  cases st with
  | memory => exact absurd rfl ((hsh i c loc _ k hp).2 a)
  | redis =>
    have hs' : loc.page.cleared.stage = .reading key rec := hs
    have hrec : a = rec.ip := by
      rw [ha]
      exact (h.exclusive.read_ip i _ rec hi (by rw [hs']; exact rfl)).cleanIP
    have hfresh : loc.page.cleared.target ∉ (booksOf m).freed := by
      refine h.current.unfreed (fun p hp' => ?_) (h.current.reading _ key rec hi hs') hip
      obtain rfl : loc.page.cleared = p := Option.some.inj (hi.symm.trans hp')
      exact not_pending fun _ _ => by rw [hs']; exact ⟨nofun, nofun⟩
    obtain ⟨hl, s, hpool, hmem⟩ := h.exclusive.read i _ key rec hi hs' hip hfresh
    rw [← hrec] at hl hmem
    refine ⟨rfl, hl, ⟨s, hpool, hmem⟩, ?_⟩
    have hf0 := hup i c loc (.ipam .redis (.releaseIP a)) k hp trivial nofun
    rintro ⟨s', hs'', hmem'⟩
    rw [pool_performs hp, hf0, if_neg nofun] at hs''
    have hpool' : World.pool m.world = some s := hpool
    simp only [IpamOp.perform, hpool', if_pos hmem, Option.some.injEq] at hs''
    rw [← hs''] at hmem'
    exact absurd rfl (Finset.ne_of_mem_erase hmem')

end Steps

/-- Runs in which any probe may fail: as long as `AcquireIP` and `ReleaseIP` find Redis, no
two live workloads share an address, and there is one pool. -/
theorem outage_harmless {es : List (Event (Host Y G) Unit)} (hY : Y.Lawful) (hG : G.Lawful) (hm : m.Idle)
    (hw : World.Untouched m.world)
    (hc : Machine.Along (fun m e => Answered m e ∧ Shared m e ∧ SignalsHit m e ∧ Unbroken m e) m es) :
    Machine.Throughout (fun m => Apart m.world) m es ∧ Machine.Along OnePool m es := by
  have step : ∀ m e, Undivided m → (Answered m e ∧ Shared m e ∧ SignalsHit m e ∧ Unbroken m e) →
      Undivided (m.apply e) := fun m e h hc => h.step hY hG hc.1 hc.2.1 hc.2.2.1 hc.2.2.2
  have h0 : Undivided m := undivided_of_untouched hw hm
  refine ⟨(Machine.throughout_of_step step h0 hc).imp fun _ h => h.apart, ?_⟩
  refine Machine.along_of_step step (fun m e h hc => ?_) h0 hc
  exact ⟨fun _ _ _ _ _ _ hp ha => h.acquired hG hc.1 hc.2.1 hp ha,
    fun _ _ _ _ _ _ hp => h.released hc.1 hc.2.1 hp⟩

section Test

/-- An operation that fails and is no probe. -/
def failingOp : Op → Choice → Bool
  | .probe _, _ => false
  | _, c => c.fault != none

/-- An address that is acquired or handed back in the memory of the invocation. -/
def privateOp : Op → Choice → Bool
  | .ipam .memory .acquireIP, _ => true
  | .ipam .memory (.releaseIP _), _ => true
  | _, _ => false

/-- A test for events that keep to the pool in Redis. -/
def pooled (m : Machine (Host Y G) Unit) (e : Event (Host Y G) Unit) : Bool :=
  !passes failingOp m e && !passes privateOp m e && unbroken m e

theorem fault_of_failing {i : Unit} {c : Choice} {loc : Local} {o : Op} {k : o.Ret → Go Unit}
    (h : passes failingOp m e = false) (hp : m.Performs e i c loc o k) (ho : ∀ q, o ≠ .probe q) :
    c.fault = none := by
  by_contra hf
  have hfail : failingOp o c = true := by
    cases o with
    | probe q => exact absurd rfl (ho q)
    | _ => exact bne_iff_ne.mpr hf
  rw [passes_iff.mpr ⟨i, c, loc, o, k, hp, hfail⟩] at h
  cases h

theorem answered_of_test (h : passes failingOp m e = false) : Answered m e :=
  fun _ _ _ _ _ hp _ ho => fault_of_failing h hp ho

theorem pooled_sound (h : pooled m e = true) : Answered m e ∧ Shared m e ∧ SignalsHit m e ∧ Unbroken m e := by
  simp only [pooled, Bool.and_eq_true, Bool.not_eq_true'] at h
  obtain ⟨⟨hfail, hpriv⟩, hu⟩ := h
  refine ⟨answered_of_test hfail, fun i c loc q k hp => ?_,
    fun i c loc n k hp _ _ _ => fault_of_failing hfail hp nofun, unbroken_of_test hu⟩
  have hno : privateOp (.ipam .memory q) c = false := by
    by_contra hf
    rw [passes_iff.mpr ⟨i, c, loc, _, k, hp, Bool.eq_true_of_not_eq_false hf⟩] at hpriv
    cases hpriv
  refine ⟨?_, fun a => ?_⟩ <;> rintro rfl <;> cases hno

end Test

section Sample
open Sample

/-- The probe that times out. -/
def missed (pid : Nat) : SampleEvent Unit := .act () { fault := some 0, pid := pid }

/-- Redis is out of reach while the first service gets its address, and back for the second. -/
def outage : List (SampleEvent Unit) :=
  create () web 100 :: steps () 1 101 ++ missed 101 :: steps () 40 101 ++
    create () blog 200 :: steps () 30 201 ++ steps () 60 202

/-- Both services live with the same address. -/
theorem outage_conflict : World.Untouched (start (ι := Unit)).world ∧ Machine.Along Answered start outage ∧
    ¬ Machine.Throughout (fun m => Apart m.world) start outage := by
  have hanswered : Machine.Along (fun m e => passes failingOp m e = false) start outage := by decide +kernel
  refine ⟨⟨fun _ => rfl, start_workloads, rfl⟩, hanswered.imp fun _ _ => answered_of_test, fun h => ?_⟩
  have hlive : ∃ q ∈ (start.run outage).world.procs.all, ∃ q' ∈ (start.run outage).world.procs.all,
      (q.role = .workload ∧ q'.role = .workload ∧ q.ip = "10.0.0.1" ∧ q'.ip = "10.0.0.1") ∧ q.pid ≠ q'.pid := by
    decide +kernel
  obtain ⟨q, hq, q', hq', ⟨hr, hr', hip, hip'⟩, hne⟩ := hlive
  refine hne (congrArg Proc.pid (h.last q q' ⟨hq, hr⟩ ⟨hq', hr'⟩ ?_ (hip.trans hip'.symm)))
  rw [hip]
  decide

/-- Redis is out of reach while Envoy is started, and back for a second service and a delete. -/
def flicker : List (SampleEvent Unit) :=
  create () blog 100 :: steps () 32 101 ++ missed 101 :: steps () 60 102 ++
    create () web 200 :: steps () 40 201 ++ delete () "service" "blog" 300 :: steps () 80 301

theorem flicker_harmless : Machine.Throughout (fun m => Apart m.world) start flicker ∧
    Machine.Along OnePool start flicker :=
  outage_harmless yaml_lawful lowestFree_lawful start_idle ⟨fun _ => rfl, start_workloads, rfl⟩
    ((by decide +kernel : Machine.Along (fun m e => pooled m e = true) start flicker).imp
      fun _ _ => pooled_sound)

end Sample
end PrivatePaas
