import PrivatePaas.Registry.Sequence
import PrivatePaas.Results.Sample

/-!
# Addresses of invocations that follow one another

Between two invocations every recorded address is allocated, and neither two records
nor two live workloads share one, as long as no delete is cut off between its release
and its `Del`. A delete of a record without a process cuts itself off: it kills its own
process group.
-/

namespace PrivatePaas
set_option autoImplicit false
open Files Text Effects Network PrivatePaas.Parser

variable {Y : Yaml} {G : GoIpam}

/-- What the registry, the pool and the processes say about addresses. -/
structure Distinct (Y : Yaml) (w : World) : Prop where
  allocated : ∀ key e, w.kv key = some e → (Y.decode e.value).ip ≠ "" →
    w.Allocated (Y.decode e.value).ip
  records : ∀ key key' e e', w.kv key = some e → w.kv key' = some e' →
    (Y.decode e.value).ip ≠ "" → (Y.decode e.value).ip = (Y.decode e'.value).ip → key = key'
  workloads : ∀ q q', w.Live q → w.Live q' → q.ip ≠ "" → q.ip = q'.ip → q = q'

section Idle
variable {m : Machine (Host Y G) Unit}

theorem Orderly.leased_entry (h : Orderly m) (hm : m.Idle) {key : String} {e : Entry}
    (hk : World.kv m.world key = some e) (hip : (Y.decode e.value).ip ≠ "") :
    (booksOf m).Leased (Y.decode e.value).ip e.author := by
  have hreg : (booksOf m).registry key = some (Y.decode e.value, e.author) := by
    simp [booksOf, World.books, hk]
  refine h.kept.exclusive.entry key _ _ hreg hip ?_
  refine h.current.unfreed (fun p hp => ?_) hreg hip
  rw [pagesOf_idle hm] at hp
  cases hp

theorem Orderly.leased_live (h : Orderly m) (hm : m.Idle) {q : Proc} (hq : World.Live m.world q)
    (hip : q.ip ≠ "") : (booksOf m).Leased q.ip q.owner := by
  refine h.kept.exclusive.live q hq hip fun hfreed => ?_
  obtain ⟨i, p, key, rec, hp, _⟩ := h.kept.exclusive.doomed q hq hfreed
  rw [pagesOf_idle hm] at hp
  cases hp

/-- One address is leased to one invocation, and that has one record and one workload. -/
theorem Orderly.distinct (h : Orderly m) (hm : m.Idle) : Distinct Y m.world := by
  constructor
  · exact fun key e hk hip => (h.leased_entry hm hk hip).allocated
  · intro key key' e e' hk hk' hip heq
    have hl := (h.leased_entry hm hk hip).lessee
    have hl' := (h.leased_entry hm hk' (heq ▸ hip)).lessee
    rw [← heq, hl] at hl'
    have hauthor := Option.some.inj hl'
    refine h.kept.tidy.author_inj key key' (Y.decode e.value) (Y.decode e'.value) e.author ?_ ?_
    · simp [booksOf, World.books, hk]
    · simp [booksOf, World.books, hk', hauthor]
  · intro q q' hq hq' hip heq
    have hl := (h.leased_live hm hq hip).lessee
    have hl' := (h.leased_live hm hq' (heq ▸ hip)).lessee
    rw [← heq, hl] at hl'
    have hpid := h.kept.tidy.owner_inj q q' hq hq' (Option.some.inj hl')
    exact Procs.eq_of_pid hq.1 hq'.1 hpid

end Idle

theorem addresses_distinct {m : Machine (Host Y G) Unit} {es : List (Event (Host Y G) Unit)}
    (hY : Y.Lawful) (hG : G.Lawful) (hm : m.Idle) (hw : World.Untouched m.world)
    (hc : Machine.Along (fun m e => RedisUp m e ∧ SignalsHit m e ∧ Unbroken m e) m es) :
    Machine.Throughout (fun m => m.Idle → Distinct Y m.world) m es :=
  (Machine.throughout_of_step (J := Orderly) (fun _ _ h hc => h.step hY hG hc.1 hc.2.1 hc.2.2)
    (orderly_of_untouched hw hm) hc).imp fun _ h => h.distinct

/-- A test for `Unbroken`. -/
def unbroken (m : Machine (Host Y G) Unit) (e : Event (Host Y G) Unit) : Bool :=
  match e with
  | .act i _ => (m.due i).isSome || (m.jobs i).all fun j =>
    match (Local.ledger j.loc).stage with
    | .released _ _ => false
    | .killed _ rec => rec.ip = ""
    | _ => true
  | _ => true

theorem unbroken_of_test {m : Machine (Host Y G) Unit} {e : Event (Host Y G) Unit}
    (h : unbroken m e = true) : Unbroken m e := by
  intro i j hend key rec
  have hdue := hend.due
  obtain ⟨c, rfl, hj, _⟩ := hend
  simp only [unbroken, hdue, hj, Option.isSome_none, Bool.false_or, Option.all_some] at h
  refine ⟨fun hs => ?_, fun hs => ?_⟩
  · rw [hs] at h
    cases h
  · rw [hs] at h
    exact of_decide_eq_true h

section Sample
open Sample

/-- A service in an unsupported technology is created and deleted. -/
def suicide : List (SampleEvent Unit) :=
  create () tool 100 :: steps () 30 101 ++ delete () "service" "tool" 200 :: steps () 80 201

/-- The delete kills itself: the record stays, its address is free. -/
theorem suicide_indistinct : World.Untouched (start (ι := Unit)).world ∧
    (∀ e ∈ suicide, Faultless e) ∧
    ¬ Machine.Throughout (fun m => m.Idle → Distinct yaml m.world) start suicide := by
  refine ⟨⟨fun _ => rfl, start_workloads, rfl⟩, by decide +kernel, fun h => ?_⟩
  have hidle : (start.run suicide).Idle := idle_of_isNone (by decide +kernel)
  have hrec : (World.kv (start.run suicide).world "service:tool").map
      (fun e => (yaml.decode e.value).ip) = some "10.0.0.1" := by decide +kernel
  have hpool : (World.pool (start.run suicide).world).map (fun s => decide ("10.0.0.1" ∈ s)) =
      some false := by decide +kernel
  obtain ⟨e, he, hip⟩ := Option.map_eq_some_iff.mp hrec
  obtain ⟨s, hs, hfree⟩ := Option.map_eq_some_iff.mp hpool
  obtain ⟨s', hs', hmem⟩ := (h.last hidle).allocated "service:tool" e he (by rw [hip]; decide)
  obtain rfl : s = s' := Option.some.inj (hs.symm.trans hs')
  exact of_decide_eq_false hfree (hip ▸ hmem)

theorem comings_distinct :
    Machine.Throughout (fun m => m.Idle → Distinct yaml m.world) start comings :=
  addresses_distinct yaml_lawful lowestFree_lawful start_idle ⟨fun _ => rfl, start_workloads, rfl⟩
    ((Machine.along_of_forall (D := Faultless) (by decide +kernel)).and
      (by decide +kernel : Machine.Along (fun m e => unbroken m e = true) start comings) |>.imp
      fun _ _ h => ⟨h.1.redisUp, h.1.signalsHit, unbroken_of_test h.2⟩)

end Sample
end PrivatePaas
