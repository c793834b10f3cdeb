import PrivatePaas.Conduct.Watch
import PrivatePaas.Effects.Exec
import PrivatePaas.Registry.Rules
import PrivatePaas.Results.Sample

/-!
# The address of the bridge

`GetIpam` makes the prefix with one operation and reserves the address of the bridge
with another, and whoever finds the prefix does not reserve. So everything depends on
what comes between the two.
-/

namespace PrivatePaas
set_option autoImplicit false
open Files Text Effects Go Network PrivatePaas.Parser

variable {Y : Yaml} {G : GoIpam} {ι : Type} [DecidableEq ι]
variable {m : Machine (Host Y G) ι} {e : Event (Host Y G) ι} {es : List (Event (Host Y G) ι)}

/-- The address that `CreateBridge` gives to `br0`. -/
def bridgeIp : String := host 254

section Statement

/-- The event is the last one of a `GetIpam` call that returns without an error: the prefix
was found, or the reservation is done. -/
def Obtains (m : Machine (Host Y G) ι) (e : Event (Host Y G) ι) : Prop :=
  ∃ i c loc, (∃ k, m.Performs e i c loc (.ipam .redis .prefixFrom) k ∧
      (perform Y G c loc m.world (.ipam .redis .prefixFrom)).1 = true) ∨
    ∃ k, m.Performs e i c loc (.ipam .redis (.acquireSpecificIP bridgeIp)) k

/-- A call of `GetIpam` returns a pool in which the address of the bridge is allocated, and
`GetIp` does not return it. -/
def BridgeKept (m : Machine (Host Y G) ι) (e : Event (Host Y G) ι) : Prop :=
  (Obtains m e → World.Allocated (m.apply e).world bridgeIp) ∧
    ∀ i c loc k, m.Performs e i c loc (.ipam .redis .acquireIP) k →
      (perform Y G c loc m.world (.ipam .redis .acquireIP)).1 ≠ some bridgeIp

/-- All invocations use the storage in Redis. -/
def OneStorage (m : Machine (Host Y G) ι) (e : Event (Host Y G) ι) : Prop :=
  ∀ i c loc o k, m.Performs e i c loc (.probe o) k → c.fault = none

/-- The address of the bridge is not handed back. -/
def Unreleased (m : Machine (Host Y G) ι) (e : Event (Host Y G) ι) : Prop :=
  ∀ i c loc k, ¬ m.Performs e i c loc (.ipam .redis (.releaseIP bridgeIp)) k

/-- The prefix is made. -/
def Makes (m : Machine (Host Y G) ι) (e : Event (Host Y G) ι) : Prop :=
  World.pool m.world = none ∧
    ∃ i c loc k, m.Performs e i c loc (.ipam .redis .newPrefix) k ∧ Choice.fault c ≠ some 0

/-- The address of the bridge is reserved. -/
def Reserves (m : Machine (Host Y G) ι) (e : Event (Host Y G) ι) : Prop :=
  ∃ i c loc k, m.Performs e i c loc (.ipam .redis (.acquireSpecificIP bridgeIp)) k ∧
    Choice.fault c ≠ some 0

/-- The prefix has been made in the run, and the reservation has not come yet. -/
inductive Exposed (m : Machine (Host Y G) ι) : List (Event (Host Y G) ι) → Prop where
  | made {es : List (Event (Host Y G) ι)} {e : Event (Host Y G) ι} (h : Makes (m.run es) e) :
      Exposed m (es ++ [e])
  | later {es : List (Event (Host Y G) ι)} {e : Event (Host Y G) ι} (h : Exposed m es)
      (he : ¬ Reserves (m.run es) e) : Exposed m (es ++ [e])

/-- Somebody finds the prefix, or a reservation fails. -/
def Meets (m : Machine (Host Y G) ι) (e : Event (Host Y G) ι) : Prop :=
  ∃ i c loc, (∃ k, m.Performs e i c loc (.ipam .redis .prefixFrom) k ∧ Choice.fault c = none) ∨
    ∃ k, m.Performs e i c loc (.ipam .redis (.acquireSpecificIP bridgeIp)) k ∧ Choice.fault c = some 0

/-- Between the making of the prefix and the reservation nobody looks it up, and the
reservation does not fail. -/
def Sheltered (m : Machine (Host Y G) ι) (es : List (Event (Host Y G) ι)) : Prop :=
  ∀ es₁ e es₂, es = es₁ ++ e :: es₂ → Exposed m es₁ → ¬ Meets (m.run es₁) e

end Statement

section Pool
variable {c : Choice} {l : Local} {w : World} {i : ι}

theorem perform_redis_answer (o : IpamOp) : (perform Y G c l w (.ipam .redis o)).1 =
    if c.fault = none then (o.perform G c w.pool).1 else Op.failure (.ipam .redis o) := by
  unfold perform
  cases hf : c.fault with
  | none =>
    rw [attempt_ok hf]
    rfl
  | some n =>
    cases n with
    | zero =>
      rw [attempt_zero hf]
      rfl
    | succ n =>
      rw [attempt_succ hf]
      rfl

variable (m e) in
/-- An event leaves the pool alone, or it performs an operation on it. -/
theorem pool_apply : World.pool (m.apply e).world = World.pool m.world ∨
    ∃ i c loc o k, m.Performs e i c loc (.ipam .redis o) k ∧ Choice.fault c ≠ some 0 ∧
      World.pool (m.apply e).world = (IpamOp.perform G c (World.pool m.world) o).2 := by
  by_cases hp : ∃ i c loc o k, m.Performs e i c loc (.ipam .redis o) k
  · obtain ⟨i, c, loc, o, k, hp⟩ := hp
    have hpool := pool_performs hp
    by_cases hf : Choice.fault c = some 0
    · rw [if_pos hf] at hpool
      exact .inl hpool
    · rw [if_neg hf] at hpool
      exact .inr ⟨i, c, loc, o, k, hp, hf, hpool⟩
  · refine .inl ?_
    apply Machine.apply_elim (P := fun m' => World.pool m'.world = World.pool m.world) m e
    case stay => rfl
    case launched => exact fun i x loc p w _ _ hx => (enter_stores hx).pool
    case dead => exact fun _ _ _ _ => rfl
    case ended => exact fun _ _ _ _ => rfl
    case acted =>
      intro i c loc o k ho
      refine @perform_pool Y G c loc m.world o fun hon => hp ?_
      cases o with
      | ipam st o =>
        cases st with
        | redis => exact ⟨i, c, loc, o, k, ho⟩
        | memory => cases hon
      | _ => cases hon
    case disturbed => exact fun d _ => (disturb_stores d).pool

end Pool

section Invariant

/-- There is a prefix, and the address of the bridge is free. -/
def World.Open (w : World) : Prop := ∃ s, w.pool = some s ∧ bridgeIp ∉ s

/-- The storage keeps a prefix that it has. -/
theorem perform_isSome {G : GoIpam} {c : Choice} {pool : Option (Finset String)} {s : Finset String}
    (o : IpamOp) (h : pool = some s) : ∃ s', (o.perform G c pool).2 = some s' ∧
      (∀ a, o ≠ .releaseIP a → a ∈ s → a ∈ s') := by
  subst h
  cases o with
  | prefixFrom => exact ⟨s, rfl, fun _ _ h => h⟩
  | newPrefix => exact ⟨s, rfl, fun _ _ h => h⟩
  | acquireSpecificIP a =>
    simp only [IpamOp.perform]
    split
    · exact ⟨s, rfl, fun _ _ h => h⟩
    · exact ⟨_, rfl, fun _ _ h => Finset.mem_insert_of_mem h⟩
  | acquireIP =>
    simp only [IpamOp.perform]
    split
    · exact ⟨s, rfl, fun _ _ h => h⟩
    · exact ⟨_, rfl, fun _ _ h => Finset.mem_insert_of_mem h⟩
  | releaseIP a =>
    simp only [IpamOp.perform]
    split
    · refine ⟨_, rfl, fun b hb h => Finset.mem_erase.mpr ⟨?_, h⟩⟩
      intro hab
      exact hb (hab ▸ rfl)
    · exact ⟨s, rfl, fun _ _ h => h⟩

theorem pool_stays (h : World.pool m.world ≠ none) : World.pool (m.apply e).world ≠ none := by
  obtain ⟨s, hs⟩ := Option.ne_none_iff_exists'.mp h
  rcases pool_apply m e with he | ⟨i, c, loc, o, k, _, _, he⟩
  · rw [he, hs]
    exact nofun
  · obtain ⟨s', hs', _⟩ := perform_isSome (G := G) (c := c) o hs
    rw [he, hs']
    exact nofun

theorem allocated_stays (h : World.Allocated m.world bridgeIp) (hr : Unreleased m e) :
    World.Allocated (m.apply e).world bridgeIp := by
  obtain ⟨s, hs, hmem⟩ := h
  rcases pool_apply m e with he | ⟨i, c, loc, o, k, hp, _, he⟩
  · exact ⟨s, he.trans hs, hmem⟩
  · obtain ⟨s', hs', hkeep⟩ := perform_isSome (G := G) (c := c) o hs
    refine ⟨s', he.trans hs', hkeep bridgeIp (fun ho => ?_) hmem⟩
    subst ho
    exact hr i c loc k hp

/-- Each invocation uses Redis, has seen a prefix before it asks for an address, and has got
past the reservation, where the address of the bridge is then allocated. -/
structure Cautious (m : Machine (Host Y G) ι) : Prop where
  ledger : (ledgerWatch Y G).Holds m
  dues : (duesWatch Y G).Holds m
  online : ∀ i j, m.jobs i = some j → j.loc.ledger.offline = false
  seen : ∀ i j, m.jobs i = some j → j.loc.ledger.unreserved = true ∨ j.loc.dues.made = true →
    World.pool m.world ≠ none
  ready : ∀ i j, m.jobs i = some j → j.loc.ledger.unreserved = false → j.loc.dues.made = true →
    World.Allocated m.world bridgeIp

/-- Where a job comes from that is there after an event. -/
theorem jobs_apply {k : ι} {j : Job (Host Y G)} (h : (m.apply e).jobs k = some j) :
    m.jobs k = some j ∨ (∃ x w, enter Y x m.world = some (j.loc, j.prog, w)) ∨
      ∃ c loc o f, m.Performs e k c loc o f ∧ j.loc = (perform Y G c loc m.world o).2.1 := by
  have put : ∀ (w : World) (i : ι) (j' : Option (Job (Host Y G))),
      (⟨w, Function.update m.jobs i j'⟩ : Machine (Host Y G) ι).jobs k = some j →
      k = i ∧ j' = some j ∨ m.jobs k = some j := by
    intro w i j' hj
    by_cases hk : k = i
    · subst k
      exact .inl ⟨rfl, by simpa using hj⟩
    · exact .inr (by simpa [Function.update_of_ne hk] using hj)
  refine Machine.apply_elim (P := fun m' => m'.jobs k = some j → m.jobs k = some j ∨
      (∃ x w, enter Y x m.world = some (j.loc, j.prog, w)) ∨
      ∃ c loc o f, m.Performs e k c loc o f ∧ j.loc = (perform Y G c loc m.world o).2.1) m e
    (fun hj => .inl hj) ?_ ?_ ?_ ?_ (fun d _ hj => .inl hj) h
  · intro i x loc p w _ _ hx hj
    rcases put _ _ _ hj with ⟨rfl, hj'⟩ | hj'
    · obtain rfl := Option.some.inj hj'
      exact .inr (.inl ⟨x, w, hx⟩)
    · exact .inl hj'
  · intro i _ _ _ hj
    rcases put _ _ _ hj with ⟨_, hj'⟩ | hj'
    · cases hj'
    · exact .inl hj'
  · intro i _ _ _ hj
    rcases put _ _ _ hj with ⟨_, hj'⟩ | hj'
    · cases hj'
    · exact .inl hj'
  · intro i c loc o f hp hj
    rcases put _ _ _ hj with ⟨rfl, hj'⟩ | hj'
    · obtain rfl := Option.some.inj hj'
      exact .inr (.inr ⟨c, loc, o, f, hp, rfl⟩)
    · exact .inl hj'

omit [DecidableEq ι] in
theorem Cautious.start (hm : m.Idle) : Cautious m where
  ledger := Watch.holds_of_idle hm
  dues := Watch.holds_of_idle hm
  online i _ hj := absurd ((hm i).symm.trans hj) nofun
  seen i _ hj := absurd ((hm i).symm.trans hj) nofun
  ready i _ hj := absurd ((hm i).symm.trans hj) nofun

omit [DecidableEq ι] in
/-- The storage that is asked is the one in Redis. -/
theorem Cautious.redis (h : Cautious m) {i : ι} {c : Choice} {loc : Local} {st : Storage} {o : IpamOp}
    {k : o.Ret → Go Unit} (hp : m.Performs e i c loc (.ipam st o) k) : st = .redis := by
  have hok : (PrivatePaas.ledger Y).ok loc.ledger (.ipam st o) := h.ledger.ok hp
  cases st with
  | redis => rfl
  | memory =>
    have hon := h.online i _ hp.2.1
    rw [hok.2.1 rfl] at hon
    cases hon

section Marks
variable {c : Choice} {l : Local} {w : World} {o : Op}

/-- An invocation has seen a prefix where there is one. -/
theorem seen_perform (hst : ∀ st p, o = .ipam st p → st = .redis)
    (h : (perform Y G c l w o).2.1.ledger.unreserved = true ∨ (perform Y G c l w o).2.1.dues.made = true) :
    (l.ledger.unreserved = true ∨ l.dues.made = true) ∨ (perform Y G c l w o).2.2.pool ≠ none := by
  change Ledger.unreservedAfter l.ledger.unreserved o (perform Y G c l w o).1 = true ∨
    Dues.madeAfter l.dues.made o (perform Y G c l w o).1 = true at h
  cases o with
  | ipam st p =>
    obtain rfl := hst st p rfl
    have hans := @perform_redis_answer Y G c l w p
    have hpool := @perform_redis_pool Y G c l w p
    by_cases hf : c.fault = none
    · rw [if_pos hf] at hans
      rw [hf, if_neg (by simp)] at hpool
      rw [hans] at h
      rw [hpool]
      cases p with
      | prefixFrom =>
        cases hw : w.pool with
        | none =>
          rw [hw] at h
          exact .inl (by simpa [Ledger.unreservedAfter, Dues.madeAfter, IpamOp.perform] using h)
        | some s => exact .inr (Option.some_ne_none s)
      | newPrefix => cases w.pool <;> exact .inr (Option.some_ne_none _)
      | acquireSpecificIP a => exact .inl (h.imp (fun hu => by cases hu) id)
      | acquireIP => exact .inl h
      | releaseIP a => exact .inl h
    · rw [if_neg hf] at hans
      rw [hans] at h
      cases p with
      | acquireSpecificIP a => exact .inl (h.imp (fun hu => by cases hu) id)
      | _ => exact .inl (by simpa [Ledger.unreservedAfter, Dues.madeAfter, Op.failure] using h)
  | _ => exact .inl h

/-- An invocation gets past the reservation where its `GetIpam` returns. -/
theorem ready_perform (hst : ∀ st p, o = .ipam st p → st = .redis)
    (hu : (perform Y G c l w o).2.1.ledger.unreserved = false)
    (hm : (perform Y G c l w o).2.1.dues.made = true) :
    l.ledger.unreserved = false ∧ l.dues.made = true ∨
      (o = .ipam .redis .prefixFrom ∧ (perform Y G c l w (.ipam .redis .prefixFrom)).1 = true) ∨
      ∃ a, o = .ipam .redis (.acquireSpecificIP a) ∧ l.ledger.unreserved = true := by
  change Ledger.unreservedAfter l.ledger.unreserved o (perform Y G c l w o).1 = false at hu
  change Dues.madeAfter l.dues.made o (perform Y G c l w o).1 = true at hm
  cases o with
  | ipam st p =>
    obtain rfl := hst st p rfl
    cases p with
    | prefixFrom =>
      cases hr : (perform Y G c l w (.ipam .redis .prefixFrom)).1 with
      | true => exact .inr (.inl ⟨rfl, rfl⟩)
      | false =>
        rw [hr] at hm
        exact .inl ⟨hu, by simpa [Dues.madeAfter] using hm⟩
    | newPrefix =>
      cases hr : (perform Y G c l w (.ipam .redis .newPrefix)).1 with
      | failed =>
        rw [hr] at hu hm
        exact .inl ⟨by simpa [Ledger.unreservedAfter] using hu, by simpa [Dues.madeAfter] using hm⟩
      | created =>
        rw [hr] at hu
        simp [Ledger.unreservedAfter] at hu
      | already =>
        rw [hr] at hu
        simp [Ledger.unreservedAfter] at hu
    | acquireSpecificIP a =>
      cases hl : l.ledger.unreserved with
      | true => exact .inr (.inr ⟨a, rfl, rfl⟩)
      | false => exact .inl ⟨rfl, hm⟩
    | acquireIP => exact .inl ⟨hu, hm⟩
    | releaseIP a => exact .inl ⟨hu, hm⟩
  | _ => exact .inl ⟨hu, hm⟩

end Marks

theorem Cautious.step (h : Cautious m) (hone : OneStorage m e) (hrel : Unreleased m e)
    (hkept : BridgeKept m e) : Cautious (m.apply e) := by
  refine ⟨h.ledger.apply e, h.dues.apply e, ?_, ?_, ?_⟩
  · intro i j hj
    rcases jobs_apply hj with hj | ⟨x, w, hx⟩ | ⟨c, loc, o, f, hp, he⟩
    · exact h.online i j hj
    · rw [(enter_spec hx).2.2.1]
    · have hon : loc.ledger.offline = false := h.online i _ hp.2.1
      rw [he]
      change Ledger.offlineAfter loc.ledger.offline o (perform Y G c loc m.world o).1 = false
      rw [hon]
      cases o with
      | probe o =>
        have hr := (@perform_smooth Y G loc m.world c (hone i c loc o f hp) (.probe o)).1
        simp only [hr]
        rfl
      | _ => rfl
  · intro i j hj hseen
    rcases jobs_apply hj with hj | ⟨x, w, hx⟩ | ⟨c, loc, o, f, hp, he⟩
    · exact pool_stays (h.seen i j hj hseen)
    · rw [(enter_spec hx).2.2.1, (enter_spec hx).2.2.2.1] at hseen
      rcases hseen with hs | hs <;> cases hs
    · rw [he] at hseen
      have hst : ∀ st p, o = .ipam st p → st = .redis := by
        intro st p ho
        subst ho
        exact h.redis hp
      rcases seen_perform hst hseen with hseen | hpool
      · exact pool_stays (h.seen i _ hp.2.1 hseen)
      · rw [apply_performs hp]
        exact hpool
  · intro i j hj hu hmade
    rcases jobs_apply hj with hj | ⟨x, w, hx⟩ | ⟨c, loc, o, f, hp, he⟩
    · exact allocated_stays (h.ready i j hj hu hmade) hrel
    · rw [(enter_spec hx).2.2.2.1] at hmade
      cases hmade
    · rw [he] at hu hmade
      have hst : ∀ st p, o = .ipam st p → st = .redis := by
        intro st p ho
        subst ho
        exact h.redis hp
      rcases ready_perform hst hu hmade with ⟨hu, hmade⟩ | ⟨rfl, hr⟩ | ⟨a, rfl, hun⟩
      · exact allocated_stays (h.ready i _ hp.2.1 hu hmade) hrel
      · exact hkept.1 ⟨i, c, loc, .inl ⟨f, hp, hr⟩⟩
      · have hok : (PrivatePaas.ledger Y).ok loc.ledger (.ipam .redis (.acquireSpecificIP a)) := h.ledger.ok hp
        have ha : a = bridgeIp := by
          have := hok.2.2
          simp only [hun, if_true] at this
          exact this
        subst ha
        exact hkept.1 ⟨i, c, loc, .inr ⟨f, hp⟩⟩

theorem World.Open.not_allocated {w : World} (h : w.Open) : ¬ w.Allocated bridgeIp := by
  intro ⟨s, hs, hmem⟩
  obtain ⟨s', hs', hn⟩ := h
  rw [hs] at hs'
  obtain rfl := Option.some.inj hs'
  exact hn hmem

theorem World.open_of_not_allocated {w : World} (h : w.pool ≠ none) (ha : ¬ w.Allocated bridgeIp) : w.Open := by
  obtain ⟨s, hs⟩ := Option.ne_none_iff_exists'.mp h
  exact ⟨s, hs, fun hmem => ha ⟨s, hs, hmem⟩⟩

theorem Reserves.allocated (h : Reserves m e) (hp : World.pool m.world ≠ none) :
    World.Allocated (m.apply e).world bridgeIp := by
  obtain ⟨i, c, loc, k, hperf, hf⟩ := h
  obtain ⟨s, hs⟩ := Option.ne_none_iff_exists'.mp hp
  have hpool := pool_performs hperf
  rw [if_neg hf, hs] at hpool
  simp only [IpamOp.perform] at hpool
  split at hpool
  · rename_i hmem
    exact ⟨s, hpool, hmem⟩
  · exact ⟨_, hpool, Finset.mem_insert_self _ _⟩

omit [DecidableEq ι] in
/-- Whoever asks for an address has got past the reservation. -/
theorem Cautious.asks (h : Cautious m) {i : ι} {c : Choice} {loc : Local} {k : Option String → Go Unit}
    (hp : m.Performs e i c loc (.ipam .redis .acquireIP) k) : World.Allocated m.world bridgeIp := by
  have hl : (PrivatePaas.ledger Y).ok loc.ledger (.ipam .redis .acquireIP) := h.ledger.ok hp
  have hd : (PrivatePaas.dues Y).ok loc.dues (.ipam .redis .acquireIP) := h.dues.ok hp
  exact h.ready i _ hp.2.1 hl.2.2 hd.2

/-- The address of the bridge comes to be free only where the prefix is made, and stays so
until it is reserved. -/
theorem Cautious.open_step (h : Cautious m) (hrel : Unreleased m e) :
    World.Open (m.apply e).world ↔ Makes m e ∨ World.Open m.world ∧ ¬ Reserves m e := by
  constructor
  · intro ho
    by_cases hp : World.pool m.world = none
    · left
      obtain ⟨s, hs, _⟩ := ho
      rcases pool_apply m e with he | ⟨i, c, loc, o, k, hperf, hf, he⟩
      · rw [he, hp] at hs
        cases hs
      · rw [he, hp] at hs
        cases o with
        | newPrefix => exact ⟨hp, i, c, loc, k, hperf, hf⟩
        | _ => cases hs
    · refine .inr ⟨World.open_of_not_allocated hp fun ha => ?_, fun hr => ?_⟩
      · exact ho.not_allocated (allocated_stays ha hrel)
      · exact ho.not_allocated (hr.allocated hp)
  · intro ho
    rcases ho with ⟨hp, i, c, loc, k, hperf, hf⟩ | ⟨ho, hr⟩
    · have hpool := pool_performs hperf
      rw [if_neg hf, hp] at hpool
      exact ⟨_, hpool, by decide⟩
    · obtain ⟨s, hs, hmem⟩ := id ho
      rcases pool_apply m e with he | ⟨i, c, loc, o, k, hperf, hf, he⟩
      · exact ⟨s, he.trans hs, hmem⟩
      · rw [hs] at he
        cases o with
        | prefixFrom => exact ⟨s, he, hmem⟩
        | newPrefix => exact ⟨s, he, hmem⟩
        | acquireSpecificIP a =>
          have hne : bridgeIp ≠ a := by
            intro heq
            subst heq
            exact hr ⟨i, c, loc, k, hperf, hf⟩
          simp only [IpamOp.perform] at he
          split at he
          · exact ⟨s, he, hmem⟩
          · exact ⟨_, he, fun hin => (Finset.mem_insert.mp hin).elim hne hmem⟩
        | acquireIP => exact absurd (h.asks hperf) ho.not_allocated
        | releaseIP a =>
          simp only [IpamOp.perform] at he
          split at he
          · exact ⟨_, he, fun hin => hmem (Finset.mem_of_mem_erase hin)⟩
          · exact ⟨s, he, hmem⟩

end Invariant

section Runs

/-- Where the storage is shared and the bridge keeps its address. -/
def Ordinary (m : Machine (Host Y G) ι) (e : Event (Host Y G) ι) : Prop := OneStorage m e ∧ Unreleased m e

theorem cautious_run (hm : m.Idle) (ho : m.Along Ordinary es) (hk : m.Along BridgeKept es) :
    Cautious (m.run es) :=
  Machine.run_of_step (J := Cautious) (C := fun m e => Ordinary m e ∧ BridgeKept m e)
    (fun _ _ h hc => h.step hc.1.1 hc.1.2 hc.2) (Cautious.start hm) (ho.and hk)

/-- As long as every call has returned a whole pool, the bridge's address is free in the
window and nowhere else. -/
theorem exposed_iff (hm : m.Idle) (h0 : ¬ World.Open m.world) (ho : m.Along Ordinary es)
    (hk : m.Along BridgeKept es) : Exposed m es ↔ World.Open (m.run es).world := by
  induction es using List.reverseRecOn with
  | nil =>
    refine iff_of_false (fun h => ?_) h0
    generalize hes : ([] : List (Event (Host Y G) ι)) = es at h
    cases h <;> simp at hes
  | append_singleton es e ih =>
    obtain ⟨ho, hoe, _⟩ := Machine.along_append.mp ho
    obtain ⟨hk, hke, _⟩ := Machine.along_append.mp hk
    have ih := ih ho hk
    have hstep := (cautious_run hm ho hk).open_step hoe.2
    rw [Machine.run_append]
    change _ ↔ World.Open ((m.run es).apply e).world
    rw [hstep, ← ih]
    constructor
    · intro h
      generalize hes : es ++ [e] = es' at h
      cases h with
      | made h =>
        obtain ⟨rfl, he⟩ := List.append_inj' hes rfl
        obtain rfl := (List.cons.inj he).1
        exact .inl h
      | later h hr =>
        obtain ⟨rfl, he⟩ := List.append_inj' hes rfl
        obtain rfl := (List.cons.inj he).1
        exact .inr ⟨h, hr⟩
    · intro h
      exact h.elim .made fun h => .later h.1 h.2

/-- A call that returns in the window returns a pool without the address, and no other does. -/
theorem Cautious.kept_iff (h : Cautious m) (hG : G.Lawful) :
    BridgeKept m e ↔ (World.Open m.world → ¬ Meets m e) := by
  constructor
  · rintro ⟨hobt, _⟩ ho ⟨i, c, loc, ⟨k, hp, hf⟩ | ⟨k, hp, hf⟩⟩
    · have hpool := pool_performs hp
      have hans := @perform_redis_answer Y G c loc m.world .prefixFrom
      rw [hf, if_neg nofun] at hpool
      rw [if_pos hf] at hans
      obtain ⟨s, hs, hmem⟩ := id ho
      have htrue : (perform Y G c loc m.world (.ipam .redis .prefixFrom)).1 = true := by
        rw [hans, hs]
        rfl
      obtain ⟨s', hs', hmem'⟩ := hobt ⟨i, c, loc, .inl ⟨k, hp, htrue⟩⟩
      exact ho.not_allocated ⟨s', hpool.symm.trans hs', hmem'⟩
    · have hpool := pool_performs hp
      rw [if_pos hf] at hpool
      obtain ⟨s', hs', hmem'⟩ := hobt ⟨i, c, loc, .inr ⟨k, hp⟩⟩
      exact ho.not_allocated ⟨s', hpool.symm.trans hs', hmem'⟩
  · intro hmeets
    have allocated : World.pool m.world ≠ none → Meets m e → World.Allocated m.world bridgeIp := by
      intro hp hm
      by_contra hna
      exact hmeets (World.open_of_not_allocated hp hna) hm
    refine ⟨?_, fun i c loc k hp heq => ?_⟩
    · rintro ⟨i, c, loc, ⟨k, hp, htrue⟩ | ⟨k, hp⟩⟩
      · have hpool := pool_performs hp
        have hans := @perform_redis_answer Y G c loc m.world .prefixFrom
        rw [htrue] at hans
        by_cases hf : Choice.fault c = none
        · rw [if_pos hf] at hans
          rw [hf, if_neg nofun] at hpool
          have hsome : World.pool m.world ≠ none := by
            intro hnone
            rw [hnone] at hans
            cases hans
          obtain ⟨s, hs, hmem⟩ := allocated hsome ⟨i, c, loc, .inl ⟨k, hp, hf⟩⟩
          exact ⟨s, hpool.trans hs, hmem⟩
        · rw [if_neg hf] at hans
          cases hans
      · have hok : (PrivatePaas.ledger Y).ok loc.ledger (.ipam .redis (.acquireSpecificIP bridgeIp)) :=
          h.ledger.ok hp
        have hun : loc.ledger.unreserved = true := by
          by_contra hn
          have hlast : if loc.ledger.unreserved = true then bridgeIp = host 254 else bridgeIp = host 1 :=
            hok.2.2
          rw [if_neg hn] at hlast
          exact absurd (host_injective hlast) (by decide)
        have hsome := h.seen i _ hp.2.1 (.inl hun)
        by_cases hf : Choice.fault c = some 0
        · have hpool := pool_performs hp
          rw [if_pos hf] at hpool
          obtain ⟨s, hs, hmem⟩ := allocated hsome ⟨i, c, loc, .inr ⟨k, hp, hf⟩⟩
          exact ⟨s, hpool.trans hs, hmem⟩
        · exact Reserves.allocated ⟨i, c, loc, k, hp, hf⟩ hsome
    · obtain ⟨s, hs, hmem⟩ := h.asks hp
      rw [@perform_redis_answer Y G c loc m.world .acquireIP] at heq
      split at heq
      · rw [hs] at heq
        simp only [IpamOp.perform] at heq
        split at heq
        · cases heq
        · rename_i a ha
          obtain rfl := Option.some.inj heq
          exact hG.free s _ ha hmem
      · cases heq

/-- Every `GetIpam` returns a pool in which the address of the bridge is allocated, and no
`GetIp` returns that address, in exactly those runs in which nobody looks the prefix up
between its making and the reservation, and the reservation does not fail. -/
theorem bridge_kept_iff (hG : G.Lawful) (hm : m.Idle)
    (h0 : World.pool m.world = none ∨ World.Allocated m.world bridgeIp) (ho : m.Along Ordinary es) :
    m.Along BridgeKept es ↔ Sheltered m es := by
  have hclosed : ¬ World.Open m.world := by
    intro hopen
    rcases h0 with h0 | h0
    · obtain ⟨s, hs, _⟩ := hopen
      rw [h0] at hs
      cases hs
    · exact hopen.not_allocated h0
  constructor
  · intro hk es₁ e es₂ hes hexp
    subst hes
    obtain ⟨ho₁, _⟩ := Machine.along_append.mp ho
    obtain ⟨hk₁, hke, _⟩ := Machine.along_append.mp hk
    exact ((cautious_run hm ho₁ hk₁).kept_iff hG).mp hke ((exposed_iff hm hclosed ho₁ hk₁).mp hexp)
  · intro hs
    induction es using List.reverseRecOn with
    | nil => trivial
    | append_singleton es e ih =>
      obtain ⟨ho, hoe, _⟩ := Machine.along_append.mp ho
      have hk := ih ho fun es₁ e' es₂ hes => hs es₁ e' (es₂ ++ [e]) (by rw [hes]; simp)
      refine Machine.along_append.mpr ⟨hk, ?_, trivial⟩
      refine ((cautious_run hm ho hk).kept_iff hG).mpr fun hopen => ?_
      exact hs es e [] rfl ((exposed_iff hm hclosed ho hk).mpr hopen)

end Runs

section Test

def makingOp : Op → Choice → Bool
  | .ipam .redis .newPrefix, c => c.fault != some 0
  | _, _ => false

def reservingOp : Op → Choice → Bool
  | .ipam .redis (.acquireSpecificIP a), c => a == bridgeIp && c.fault != some 0
  | _, _ => false

def meetingOp : Op → Choice → Bool
  | .ipam .redis .prefixFrom, c => c.fault == none
  | .ipam .redis (.acquireSpecificIP a), c => a == bridgeIp && c.fault == some 0
  | _, _ => false

/-- A probe that fails, or the release of the bridge's address. -/
def strayOp : Op → Choice → Bool
  | .probe _, c => c.fault != none
  | .ipam .redis (.releaseIP a), _ => a == bridgeIp
  | _, _ => false

theorem meetingOp_of_fault {c : Choice} (h : c.fault = some 0) :
    meetingOp (.ipam .redis (.acquireSpecificIP bridgeIp)) c = true := by
  simp [meetingOp, h]

omit [DecidableEq ι] in
theorem ordinary_of_passes (h : passes strayOp m e = false) : Ordinary m e := by
  have stray : ∀ i c loc o k, m.Performs e i c loc o k → strayOp o c = false := by
    intro i c loc o k hp
    by_contra hf
    rw [passes_iff.mpr ⟨i, c, loc, o, k, hp, Bool.eq_true_of_not_eq_false hf⟩] at h
    cases h
  refine ⟨fun i c loc o k hp => ?_, fun i c loc k hp => ?_⟩
  · by_contra hf
    exact absurd (stray i c loc _ k hp) (by rw [Bool.not_eq_false]; exact bne_iff_ne.mpr hf)
  · exact absurd (stray i c loc _ k hp) (by rw [Bool.not_eq_false]; exact beq_self_eq_true bridgeIp)

omit [DecidableEq ι] in
theorem Makes.passes (h : Makes m e) : passes makingOp m e = true := by
  obtain ⟨_, i, c, loc, k, hp, hf⟩ := h
  exact passes_iff.mpr ⟨i, c, loc, _, k, hp, bne_iff_ne.mpr hf⟩

omit [DecidableEq ι] in
theorem reserves_of_passes (h : PrivatePaas.passes reservingOp m e = true) : Reserves m e := by
  obtain ⟨i, c, loc, o, k, hp, hf⟩ := passes_iff.mp h
  cases o with
  | ipam st o =>
    cases st with
    | redis =>
      cases o with
      | acquireSpecificIP a =>
        obtain ⟨ha, hf⟩ := (Bool.and_eq_true _ _).mp hf
        obtain rfl := eq_of_beq ha
        exact ⟨i, c, loc, k, hp, bne_iff_ne.mp hf⟩
      | _ => cases hf
    | memory => cases hf
  | _ => cases hf

omit [DecidableEq ι] in
theorem Meets.passes (h : Meets m e) : PrivatePaas.passes meetingOp m e = true := by
  obtain ⟨i, c, loc, ⟨k, hp, hf⟩ | ⟨k, hp, hf⟩⟩ := h
  · exact passes_iff.mpr ⟨i, c, loc, _, k, hp, beq_iff_eq.mpr hf⟩
  · exact passes_iff.mpr ⟨i, c, loc, _, k, hp, meetingOp_of_fault hf⟩

/-- The test for `Sheltered`, begun inside the window or outside. -/
def sheltered : Bool → Machine (Host Y G) ι → List (Event (Host Y G) ι) → Bool
  | _, _, [] => true
  | b, m, e :: es =>
    !(b && passes meetingOp m e) &&
      sheltered (passes makingOp m e || b && !passes reservingOp m e) (m.apply e) es

theorem sheltered_sound {b : Bool} {es₀ : List (Event (Host Y G) ι)} (hb : Exposed m es₀ → b = true)
    (h : sheltered b (m.run es₀) es = true) : ∀ es₁ e es₂, es = es₁ ++ e :: es₂ →
      Exposed m (es₀ ++ es₁) → ¬ Meets (m.run (es₀ ++ es₁)) e := by
  induction es generalizing b es₀ with
  | nil => exact fun es₁ e es₂ hes => absurd hes (by simp)
  | cons e' es ih =>
    intro es₁ e es₂ hes hexp hmeets
    obtain ⟨hnow, hlater⟩ := (Bool.and_eq_true _ _).mp h
    cases es₁ with
    | nil =>
      obtain rfl := (List.cons.inj hes).1
      rw [List.append_nil] at hexp hmeets
      rw [hb hexp, hmeets.passes] at hnow
      cases hnow
    | cons e₁ es₁ =>
      obtain ⟨rfl, rfl⟩ := List.cons.inj hes
      have hrun : m.run (es₀ ++ [e']) = (m.run es₀).apply e' := by
        rw [Machine.run_append]
        rfl
      refine @ih _ (es₀ ++ [e']) (fun hx => ?_) (hrun ▸ hlater) es₁ e es₂ rfl ?_ ?_
      · generalize hes' : es₀ ++ [e'] = es' at hx
        cases hx with
        | made hx =>
          obtain ⟨rfl, he⟩ := List.append_inj' hes' rfl
          obtain rfl := (List.cons.inj he).1
          rw [hx.passes]
          rfl
        | later hx hr =>
          obtain ⟨rfl, he⟩ := List.append_inj' hes' rfl
          obtain rfl := (List.cons.inj he).1
          have hno : passes reservingOp (m.run es₀) e' = false :=
            Bool.eq_false_iff.mpr fun ht => hr (reserves_of_passes ht)
          rw [hb hx, hno]
          simp
      · rwa [List.append_assoc]
      · rwa [List.append_assoc]

end Test

namespace Sample

/-- Two creates in turns, from the reservation of the first one on. -/
def afterReservation : List (SampleEvent (Fin 2)) :=
  create 0 web 100 :: create 1 web 200 :: steps 0 6 101 ++
    (List.range 30).flatMap fun _ => steps 1 1 201 ++ steps 0 1 101

/-- A create makes the prefix, and another one looks it up. -/
def race : List (SampleEvent (Fin 2)) :=
  create 0 web 100 :: create 1 web 200 :: steps 0 5 101 ++ steps 1 3 201

end Sample
open Sample

theorem afterReservation_kept : Machine.Along BridgeKept start afterReservation := by
  refine (bridge_kept_iff lowestFree_lawful start_idle (.inl rfl) ?_).mpr fun es₁ e es₂ hes => ?_
  · exact Machine.Along.imp (fun _ _ => ordinary_of_passes)
      (by decide +kernel : Machine.Along (fun m e => passes strayOp m e = false) start afterReservation)
  · have hstart : Exposed (start (ι := Fin 2)) [] → false = true := by
      intro h
      generalize hes : ([] : List (SampleEvent (Fin 2))) = es at h
      cases h <;> simp at hes
    exact sheltered_sound hstart (by decide +kernel) es₁ e es₂ hes

/-- The pool that the second create is given leaves the address of the bridge free. -/
theorem race_unreserved : (∀ e ∈ race ++ steps 1 1 201, Faultless e) ∧
    ¬ Machine.Along BridgeKept start (race ++ steps 1 1 201) := by
  refine ⟨by decide, fun h => ?_⟩
  have hkept := (Machine.along_append.mp h).2.1
  have hdue : ((start.run race).due 1).map Prod.snd = some (.ipam .redis .prefixFrom) := by
    decide +kernel
  have hpool : (start.run race).world.pool = some {host 0, host 255} := by decide +kernel
  obtain ⟨⟨loc, o⟩, hd, rfl⟩ := Option.map_eq_some_iff.mp hdue
  obtain ⟨k, hp⟩ := Machine.exists_performs ({ pid := 201 } : Choice) hd
  have hans : (perform yaml lowestFree { pid := 201 } loc (start.run race).world
      (.ipam .redis .prefixFrom)).1 = true := by
    refine (@perform_redis_answer yaml lowestFree { pid := 201 } loc (start.run race).world .prefixFrom).trans ?_
    rw [if_pos rfl]
    change (World.pool (start.run race).world).isSome = true
    rw [hpool]
    rfl
  obtain ⟨s, hs, hmem⟩ := hkept.1 ⟨1, _, loc, .inl ⟨k, hp, hans⟩⟩
  have hafter := pool_performs hp
  rw [if_neg (by simp), hpool] at hafter
  obtain rfl := Option.some.inj (hafter.symm.trans hs)
  revert hmem
  decide

end PrivatePaas
