import PrivatePaas.Registry.Tidy

/-!
# Who holds an address

An address that was acquired by an invocation is leased to it until a delete hands it
back: to the invocation while it works, then to its record and to the workload it
has started. The lease outlives the invocation and ends with the first release.
-/

namespace PrivatePaas
set_option autoImplicit false
open Files Text Effects Network PrivatePaas.Parser Books

variable {Y : Yaml} {G : GoIpam} {ι : Type}

/-- `a` is allocated, and `id` is the invocation that acquired it last. -/
structure Books.Leased (b : Books) (a : String) (id : Nat) : Prop where
  lessee : b.lessee a = some id
  allocated : ∃ s, b.pool = some s ∧ a ∈ s

/-- No address, or one of the prefix. -/
def Plausible (a : String) : Prop := a = "" ∨ a ∈ hosts

/-- The address that a create holds in a stage. -/
def Stage.Holds : Stage → String → Prop
  | .holding _ ip, a => a = ip
  | .running ip _, a => a = ip
  | _, _ => False

theorem cleanIP_host (n : Nat) : cleanIP (host n) = host n := by
  have hdigit : ∀ c ∈ (itoa n).toList, c.isDigit := fun _ hc => isDigit_of_mem_itoa hc
  have hslash : '/' ∉ (host n).toList := by
    simp only [host, String.toList_append, List.mem_append, not_or]
    refine ⟨by decide, fun h => ?_⟩
    exact absurd (hdigit _ h) (by decide)
  have hspace : ∀ c ∈ (host n).toList, isSpace c = false := by
    intro c hc
    simp only [host, String.toList_append, List.mem_append] at hc
    rcases hc with hc | hc
    · have hall : "10.0.0.".toList.all (fun c => ! isSpace c) = true := by decide
      simpa using List.all_eq_true.mp hall c hc
    · exact isSpace_of_isDigit (hdigit c hc)
  rw [cleanIP, split_of_notMem hslash]
  exact trimSpace_eq_self hspace

theorem Plausible.cleanIP {a : String} (h : Plausible a) : cleanIP a = a := by
  rcases h with rfl | h
  · decide
  · obtain ⟨n, _, rfl⟩ := mem_hosts.mp h
    exact cleanIP_host n

theorem host_ne_empty (n : Nat) : host n ≠ "" := by
  intro h
  have := congrArg String.toList h
  simp [host] at this

theorem ne_empty_of_mem_hosts {a : String} (h : a ∈ hosts) : a ≠ "" := by
  obtain ⟨n, _, rfl⟩ := mem_hosts.mp h
  exact host_ne_empty n

/-- A delete is between handing back an address of invocation `id` and its kill. -/
def Doomed (P : Pages ι) (id : Nat) : Prop :=
  ∃ i p key rec, P i = some p ∧ p.stage = .released key rec ∧ p.target = id

structure Exclusive (b : Books) (P : Pages ι) : Prop where
  online : ∀ i p, P i = some p → p.offline = false
  freed_lt : ∀ a ∈ b.freed, a < b.nextId
  unfreed : ∀ i p, P i = some p → p.stage.Unwritten → p.id ∉ b.freed
  entry_ip : ∀ k rec a, b.registry k = some (rec, a) → Plausible rec.ip
  page_ip : ∀ i p a, P i = some p → p.stage.Holds a → Plausible a
  read_ip : ∀ i p rec, P i = some p → p.stage.Reads rec → Plausible rec.ip
  entry : ∀ k rec a, b.registry k = some (rec, a) → rec.ip ≠ "" → a ∉ b.freed → b.Leased rec.ip a
  live : ∀ q, b.Live q → q.ip ≠ "" → q.owner ∉ b.freed → b.Leased q.ip q.owner
  page : ∀ i p a, P i = some p → p.stage.Holds a → a ≠ "" → b.Leased a p.id
  read : ∀ i p key rec, P i = some p → p.stage = .reading key rec → rec.ip ≠ "" →
    p.target ∉ b.freed → b.Leased rec.ip p.target
  doomed : ∀ q, b.Live q → q.owner ∈ b.freed → Doomed P q.owner
  vacant : ∀ q, b.Live q → q.owner ∈ b.freed → ∀ id, ¬ b.Leased q.ip id
  unpooled : b.pool = none → b.freed = ∅

/-- The conditions under which one operation leaves every lease alone: what is freed has
not been freed for the same record before, and what is acquired is not the address of
a workload that is about to be killed. -/
def Fair (G : GoIpam) (b : Books) (P : Pages ι) (p : Page) : Op → Prop
  | .ipam _ (.releaseIP a) => p.target ∈ b.freed → ∀ s, b.pool = some s → a ∉ s
  | .ipam _ .acquireIP => ∀ s a, b.pool = some s → G.acquireIP s = some a →
      ∀ j r key rec, P j = some r → r.stage = .released key rec →
        ∀ q, b.Live q → q.owner = r.target → rec.ip ≠ a
  | _ => True

section Steps
variable [DecidableEq ι] {b b' : Books} {P : Pages ι} {i : ι} {p p' : Page} {up hit : Prop}

theorem Exclusive.enter {q : Proc} (h : Exclusive b P) (ho : p.Opened b)
    (hi : P i = none) (hf : b.procs.Free q.pid) (hq : q.role ≠ .workload) :
    Exclusive { b with procs := b.procs.add q hf, nextId := b.nextId + 1 }
      (Function.update P i (some p)) := by
  have live : ∀ r, Books.Live { b with procs := b.procs.add q hf, nextId := b.nextId + 1 } r →
      b.Live r := by
    intro r hr
    rcases (Procs.mem_add (h := hf)).mp hr.1 with rfl | hm
    · exact absurd hr.2 hq
    · exact ⟨hm, hr.2⟩
  have noHold : ∀ a, ¬ p.stage.Holds a := by
    intro a
    rcases ho.fresh with hs | hs | ⟨key, hs⟩ <;> rw [hs] <;> exact id
  have noRead : ∀ key rec, p.stage ≠ .reading key rec := by
    intro key rec
    rcases ho.fresh with hs | hs | ⟨key, hs⟩ <;> rw [hs] <;> exact nofun
  constructor
  · intro j r hj
    rcases update_some hj with ⟨rfl, rfl⟩ | ⟨_, hj⟩
    · exact ho.online
    · exact h.online j r hj
  · exact fun a ha => Nat.lt_succ_of_lt (h.freed_lt a ha)
  · intro j r hj hs
    rcases update_some hj with ⟨rfl, rfl⟩ | ⟨_, hj⟩
    · intro hfreed
      have := h.freed_lt _ hfreed
      rw [ho.id] at this
      omega
    · exact h.unfreed j r hj hs
  · exact h.entry_ip
  · intro j r a hj hs
    rcases update_some hj with ⟨rfl, rfl⟩ | ⟨_, hj⟩
    · exact absurd hs (noHold a)
    · exact h.page_ip j r a hj hs
  · intro j r rec hj hs
    rcases update_some hj with ⟨rfl, rfl⟩ | ⟨_, hj⟩
    · exact absurd hs (ho.fresh.not_reads rec)
    · exact h.read_ip j r rec hj hs
  · intro k rec a hk hip hfreed
    exact ⟨(h.entry k rec a hk hip hfreed).1, (h.entry k rec a hk hip hfreed).2⟩
  · intro r hr hip hfreed
    exact ⟨(h.live r (live r hr) hip hfreed).1, (h.live r (live r hr) hip hfreed).2⟩
  · intro j r a hj hs ha
    rcases update_some hj with ⟨rfl, rfl⟩ | ⟨_, hj⟩
    · exact absurd hs (noHold a)
    · exact ⟨(h.page j r a hj hs ha).1, (h.page j r a hj hs ha).2⟩
  · intro j r key rec hj hs hip hfreed
    rcases update_some hj with ⟨rfl, rfl⟩ | ⟨_, hj⟩
    · exact absurd hs (noRead key rec)
    · exact ⟨(h.read j r key rec hj hs hip hfreed).1, (h.read j r key rec hj hs hip hfreed).2⟩
  · intro r hr hfreed
    obtain ⟨j, r', key, rec, hj, hs, htgt⟩ := h.doomed r (live r hr) hfreed
    have hne : j ≠ i := by
      rintro rfl
      rw [hi] at hj
      cases hj
    exact ⟨j, r', key, rec, by rw [Function.update_of_ne hne, hj], hs, htgt⟩
  · exact fun r hr hfreed id hl => h.vacant r (live r hr) hfreed id ⟨hl.1, hl.2⟩
  · exact h.unpooled

/-- The pool and its labels are as they were. -/
structure SameLeases (b b' : Books) : Prop where
  pool : b'.pool = b.pool
  lessee : b'.lessee = b.lessee
  freed : b'.freed = b.freed

theorem SameLeases.leased (h : SameLeases b b') {a : String} {id : Nat} :
    b'.Leased a id ↔ b.Leased a id := by
  constructor
  · rintro ⟨hl, s, hs, ha⟩
    exact ⟨by rw [← h.lessee, hl], s, by rw [← h.pool, hs], ha⟩
  · rintro ⟨hl, s, hs, ha⟩
    exact ⟨by rw [h.lessee, hl], s, by rw [h.pool, hs], ha⟩

/-- A page that holds and reads nothing that it did not before. -/
structure Page.Humbler (p p' : Page) : Prop where
  weaker : p.Weaker p'
  online : p'.offline = p.offline
  holds : ∀ a, a ≠ "" → p'.stage.Holds a → p.stage.Holds a
  reading : ∀ key rec, p'.stage = .reading key rec → p.stage = .reading key rec

theorem Page.Humbler.refl (p : Page) : p.Humbler p := ⟨.refl p, rfl, fun _ _ h => h, fun _ _ h => h⟩

def HumblerPages (P P' : Pages ι) : Prop := ∀ j q', P' j = some q' → ∃ q, P j = some q ∧ q.Humbler q'

omit [DecidableEq ι] in
theorem humblerPages_refl (P : Pages ι) : HumblerPages P P := fun _ q' h => ⟨q', h, .refl q'⟩

theorem humblerPages_update (hi : P i = some p) (h : p.Humbler p') :
    HumblerPages P (Function.update P i (some p')) := by
  intro j q' hj
  rcases update_some hj with ⟨rfl, rfl⟩ | ⟨_, hj⟩
  · exact ⟨p, hi, h⟩
  · exact ⟨q', hj, .refl q'⟩

theorem humblerPages_clear : HumblerPages P (Function.update P i none) :=
  fun _ q' hj => ⟨q', update_none hj, .refl q'⟩

omit [DecidableEq ι] in
theorem Exclusive.weaken {P' : Pages ι} (h : Exclusive b P) (hb : Fewer b b')
    (hs : SameLeases b b') (hP : HumblerPages P P')
    (hd : ∀ q, b'.Live q → q.owner ∈ b.freed → Doomed P q.owner → Doomed P' q.owner) :
    Exclusive b' P' := by
  obtain ⟨hreg, hlive, hid⟩ := hb
  constructor
  · intro j q' hj
    obtain ⟨q, hq, hw⟩ := hP j q' hj
    rw [hw.online]
    exact h.online j q hq
  · intro a ha
    rw [hid]
    exact h.freed_lt a (hs.freed ▸ ha)
  · intro j q' hj hst
    obtain ⟨q, hq, hw⟩ := hP j q' hj
    rw [hw.weaker.id, hs.freed]
    exact h.unfreed j q hq (hw.weaker.unwritten hst)
  · exact fun k rec a hk => h.entry_ip k rec a (hreg k _ hk)
  · intro j q' a hj hst
    obtain ⟨q, hq, hw⟩ := hP j q' hj
    by_cases ha : a = ""
    · exact .inl ha
    · exact h.page_ip j q a hq (hw.holds a ha hst)
  · intro j q' rec hj hst
    obtain ⟨q, hq, hw⟩ := hP j q' hj
    exact h.read_ip j q rec hq (hw.weaker.reads rec hst).1
  · intro k rec a hk hip hfreed
    exact hs.leased.mpr (h.entry k rec a (hreg k _ hk) hip (hs.freed ▸ hfreed))
  · intro q hq hip hfreed
    obtain ⟨q0, hq0, _, ho, ha⟩ := hlive q hq
    rw [ho, ha, hs.leased]
    exact h.live q0 hq0 (ha ▸ hip) (by rw [← ho, ← hs.freed]; exact hfreed)
  · intro j q' a hj hst ha
    obtain ⟨q, hq, hw⟩ := hP j q' hj
    rw [hw.weaker.id, hs.leased]
    exact h.page j q a hq (hw.holds a ha hst) ha
  · intro j q' key rec hj hst hip hfreed
    obtain ⟨q, hq, hw⟩ := hP j q' hj
    have hr : q'.stage.Reads rec := by rw [hst]; exact rfl
    have htgt := (hw.weaker.reads rec hr).2
    rw [htgt, hs.leased]
    exact h.read j q key rec hq (hw.reading key rec hst) hip (by rw [← htgt, ← hs.freed]; exact hfreed)
  · intro q hq hfreed
    obtain ⟨q0, hq0, _, ho, _⟩ := hlive q hq
    rw [hs.freed] at hfreed
    exact hd q hq hfreed (by rw [ho]; exact h.doomed q0 hq0 (ho ▸ hfreed))
  · intro q hq hfreed id hl
    obtain ⟨q0, hq0, _, ho, ha⟩ := hlive q hq
    rw [hs.freed] at hfreed
    exact h.vacant q0 hq0 (ho ▸ hfreed) id (ha ▸ hs.leased.mp hl)
  · intro hpool
    rw [hs.freed]
    exact h.unpooled (hs.pool ▸ hpool)

/-- The operation comes from a page that is not about to kill. -/
theorem Doomed.update {id : Nat} (h : Doomed P id) (hi : P i = some p)
    (hp : ∀ key rec, p.stage = .released key rec → p'.stage = .released key rec ∧ p'.target = p.target) :
    Doomed (Function.update P i (some p')) id := by
  obtain ⟨j, r, key, rec, hj, hs, ht⟩ := h
  by_cases hne : j = i
  · subst j
    obtain rfl : p = r := by
      rw [hi] at hj
      exact Option.some.inj hj
    obtain ⟨hs', ht'⟩ := hp key rec hs
    exact ⟨i, p', key, rec, by simp, hs', by rw [ht', ht]⟩
  · exact ⟨j, r, key, rec, by rw [Function.update_of_ne hne, hj], hs, ht⟩

/-- The page that changes reads another record. -/
theorem Doomed.update_of_ne {id : Nat} (h : Doomed P id) (hi : P i = some p) (hp : p.target ≠ id) :
    Doomed (Function.update P i (some p')) id := by
  obtain ⟨j, r, key, rec, hj, hs, ht⟩ := h
  have hne : j ≠ i := by
    rintro rfl
    rw [hi] at hj
    obtain rfl := Option.some.inj hj
    exact hp ht
  exact ⟨j, r, key, rec, by rw [Function.update_of_ne hne, hj], hs, ht⟩

/-- Allocating an address that is free leaves every lease. -/
theorem Leased.insert {s : Finset String} {a c : String} {id : Nat} {x : Option Nat}
    (h : b.Leased c id) (hpool : b.pool = some s) (ha : a ∉ s) :
    Books.Leased { b with pool := some (insert a s), lessee := Function.update b.lessee a x } c id := by
  obtain ⟨hl, s', hs', hc⟩ := h
  obtain rfl : s = s' := by
    rw [hpool] at hs'
    exact Option.some.inj hs'
  have hne : c ≠ a := by
    rintro rfl
    exact ha hc
  exact ⟨by simpa [Function.update_of_ne hne] using hl, _, rfl, Finset.mem_insert_of_mem hc⟩

theorem Leased.of_insert {s : Finset String} {a c : String} {id : Nat} {x : Option Nat}
    (h : Books.Leased { b with pool := some (Insert.insert a s), lessee := Function.update b.lessee a x } c id)
    (hpool : b.pool = some s) (hne : c ≠ a) : b.Leased c id := by
  obtain ⟨hl, s', hs', hc⟩ := h
  obtain rfl := Option.some.inj hs'
  refine ⟨by simpa [Function.update_of_ne hne] using hl, s, hpool, ?_⟩
  rcases Finset.mem_insert.mp hc with rfl | hc
  · exact absurd rfl hne
  · exact hc

/-- An address that is asked for by name is leased to nobody. -/
theorem Exclusive.reserve {s : Finset String} {a : String} {r : Bool} (h : Exclusive b P)
    (hi : P i = some p) (hpool : b.pool = some s) (ha : a ∉ s) :
    Exclusive { b with pool := some (insert a s), lessee := Function.update b.lessee a none }
      (Function.update P i (some { p with unreserved := r })) := by
  have hP : ∀ j q', Function.update P i (some { p with unreserved := r }) j = some q' →
      ∃ q, P j = some q ∧ q'.id = q.id ∧ q'.stage = q.stage ∧ q'.offline = q.offline ∧
        q'.target = q.target := by
    intro j q' hj
    rcases update_some hj with ⟨rfl, rfl⟩ | ⟨_, hj⟩
    · exact ⟨p, hi, rfl, rfl, rfl, rfl⟩
    · exact ⟨q', hj, rfl, rfl, rfl, rfl⟩
  constructor
  · intro j q' hj
    obtain ⟨q, hq, _, _, ho, _⟩ := hP j q' hj
    rw [ho]
    exact h.online j q hq
  · exact h.freed_lt
  · intro j q' hj hs
    obtain ⟨q, hq, hid, hst, _, _⟩ := hP j q' hj
    rw [hid]
    exact h.unfreed j q hq (hst ▸ hs)
  · exact h.entry_ip
  · intro j q' c hj hs
    obtain ⟨q, hq, _, hst, _, _⟩ := hP j q' hj
    exact h.page_ip j q c hq (hst ▸ hs)
  · intro j q' rec hj hs
    obtain ⟨q, hq, _, hst, _, _⟩ := hP j q' hj
    exact h.read_ip j q rec hq (hst ▸ hs)
  · exact fun k rec c hk hip hf => Leased.insert (h.entry k rec c hk hip hf) hpool ha
  · exact fun q hq hip hf => Leased.insert (h.live q hq hip hf) hpool ha
  · intro j q' c hj hs hc
    obtain ⟨q, hq, hid, hst, _, _⟩ := hP j q' hj
    rw [hid]
    exact Leased.insert (h.page j q c hq (hst ▸ hs) hc) hpool ha
  · intro j q' key rec hj hs hip hf
    obtain ⟨q, hq, _, hst, _, htgt⟩ := hP j q' hj
    rw [htgt] at hf ⊢
    exact Leased.insert (h.read j q key rec hq (hst ▸ hs) hip hf) hpool ha
  · exact fun q hq hf => (h.doomed q hq hf).update hi fun key rec hs => ⟨hs, rfl⟩
  · intro q hq hf id hl
    by_cases hne : q.ip = a
    · have hn := hl.1
      simp [hne] at hn
    · exact h.vacant q hq hf id (Leased.of_insert hl hpool hne)
  · exact nofun

/-- Where there is no pool there is no lease. -/
theorem Exclusive.format {r : Bool} {s : Finset String} (h : Exclusive b P)
    (hi : P i = some p) (hnone : b.pool = none) :
    Exclusive { b with pool := some s } (Function.update P i (some { p with unreserved := r })) := by
  have none : ∀ {c id}, ¬ b.Leased c id := by
    rintro c id ⟨_, s, hs, _⟩
    rw [hnone] at hs
    cases hs
  have hh : p.Humbler { p with unreserved := r } :=
    ⟨⟨rfl, fun h => h, fun _ _ h => h, fun _ h => ⟨h, rfl⟩⟩, rfl, fun _ _ h => h, fun _ _ h => h⟩
  have weak := h.weaken (Fewer.refl b) ⟨rfl, rfl, rfl⟩ (humblerPages_update hi hh)
    (fun q _ _ hq => hq.update hi fun _ _ hst => ⟨hst, rfl⟩)
  constructor
  · exact weak.online
  · exact h.freed_lt
  · exact weak.unfreed
  · exact h.entry_ip
  · exact weak.page_ip
  · exact weak.read_ip
  · exact fun k rec a hk hip hx => absurd (h.entry k rec a hk hip hx) none
  · exact fun q hq hip hx => absurd (h.live q hq hip hx) none
  · exact fun j q c hj hst hc => absurd (weak.page j q c hj hst hc) none
  · exact fun j q k rec hj hst hip hx => absurd (weak.read j q k rec hj hst hip hx) none
  · exact weak.doomed
  · intro q hq hx
    rw [h.unpooled hnone] at hx
    exact absurd hx (Finset.notMem_empty _)
  · exact nofun

/-- An address that `AcquireIP` finds is leased to the invocation that asked. -/
theorem Exclusive.claim {known : Bool} {s : Finset String} {a : String} (h : Exclusive b P)
    (ht : Tidy b P) (hG : G.Lawful) (hi : P i = some p) (hs : p.stage = .holding known "")
    (hpool : b.pool = some s) (ha : G.acquireIP s = some a) (hfair : Fair G b P p (.ipam .redis .acquireIP)) :
    Exclusive { b with pool := some (insert a s), lessee := Function.update b.lessee a (some p.id) }
      (Function.update P i (some { p with stage := .holding known a })) := by
  have hfree := hG.free s a ha
  have hin := hG.host s a ha
  constructor
  · intro j q hj
    rcases update_some hj with ⟨rfl, rfl⟩ | ⟨_, hj⟩
    · exact h.online j p hi
    · exact h.online j q hj
  · exact h.freed_lt
  · intro j q hj hst
    rcases update_some hj with ⟨rfl, rfl⟩ | ⟨_, hj⟩
    · exact h.unfreed j p hi (.inl (by rw [hs]; trivial))
    · exact h.unfreed j q hj hst
  · exact h.entry_ip
  · intro j q c hj hst
    rcases update_some hj with ⟨rfl, rfl⟩ | ⟨_, hj⟩
    · obtain rfl : c = a := hst
      exact .inr hin
    · exact h.page_ip j q c hj hst
  · intro j q rec hj hst
    rcases update_some hj with ⟨rfl, rfl⟩ | ⟨_, hj⟩
    · exact absurd hst id
    · exact h.read_ip j q rec hj hst
  · exact fun k rec c hk hip hf => Leased.insert (h.entry k rec c hk hip hf) hpool hfree
  · exact fun q hq hip hf => Leased.insert (h.live q hq hip hf) hpool hfree
  · intro j q c hj hst hc
    rcases update_some hj with ⟨rfl, rfl⟩ | ⟨_, hj⟩
    · obtain rfl : c = a := hst
      exact ⟨by simp, _, rfl, Finset.mem_insert_self _ _⟩
    · exact Leased.insert (h.page j q c hj hst hc) hpool hfree
  · intro j q key rec hj hst hip hf
    rcases update_some hj with ⟨rfl, rfl⟩ | ⟨_, hj⟩
    · cases hst
    · exact Leased.insert (h.read j q key rec hj hst hip hf) hpool hfree
  · intro q hq hf
    refine (h.doomed q hq hf).update hi fun key rec hr => ?_
    rw [hs] at hr
    cases hr
  · intro q hq hf id hl
    obtain ⟨j, r, key, rec, hj, hst, htgt⟩ := h.doomed q hq hf
    have hr : r.stage.Reads rec := by rw [hst]; exact rfl
    have hip : rec.ip = q.ip := (ht.reads j r rec q hj hr hq htgt.symm).2
    have hne : q.ip ≠ a := hip ▸ hfair s a hpool ha j r key rec hj hst q hq htgt.symm
    exact h.vacant q hq hf id (Leased.of_insert hl hpool hne)
  · exact nofun

/-- The lease that ends is the one of the record that was read, and no other. -/
theorem Exclusive.release {key : String} {rec : Cmd.Service} {s : Finset String} {a : String}
    (h : Exclusive b P) (ht : Tidy b P) (hi : P i = some p) (hs : p.stage = .reading key rec)
    (hip : rec.ip ≠ "") (hclean : a = cleanIP rec.ip) (hpool : b.pool = some s) (hm : a ∈ s)
    (hfair : Fair G b P p (.ipam .redis (.releaseIP a))) :
    Exclusive { b with pool := some (s.erase a), freed := insert p.target b.freed }
      (Function.update P i (some { p with stage := .released key rec })) := by
  have hr : p.stage.Reads rec := by rw [hs]; exact rfl
  obtain rfl : a = rec.ip := by rw [hclean, (h.read_ip i p rec hi hr).cleanIP]
  have hfresh : p.target ∉ b.freed := fun hf => hfair hf s hpool hm
  have hlease := h.read i p key rec hi hs hip hfresh
  have keep : ∀ c id, b.Leased c id → id ≠ p.target →
      Books.Leased { b with pool := some (s.erase rec.ip), freed := insert p.target b.freed } c id := by
    rintro c id ⟨hl, s', hs', hc⟩ hne
    obtain rfl : s = s' := by
      rw [hpool] at hs'
      exact Option.some.inj hs'
    have hca : c ≠ rec.ip := by
      rintro rfl
      rw [hlease.1] at hl
      exact hne (Option.some.inj hl).symm
    exact ⟨hl, _, rfl, Finset.mem_erase.mpr ⟨hca, hc⟩⟩
  have hnot : ∀ {x : Nat}, x ∉ insert p.target b.freed → x ≠ p.target ∧ x ∉ b.freed := by
    intro x hx
    rw [Finset.mem_insert, not_or] at hx
    exact hx
  constructor
  · intro j q hj
    rcases update_some hj with ⟨rfl, rfl⟩ | ⟨_, hj⟩
    · exact h.online j p hi
    · exact h.online j q hj
  · intro x hx
    rcases Finset.mem_insert.mp hx with rfl | hx
    · exact ht.target_lt i p rec hi hr
    · exact h.freed_lt x hx
  · intro j q hj hst
    rcases update_some hj with ⟨rfl, rfl⟩ | ⟨_, hj⟩
    · rcases hst with hst | ⟨_, _, hst⟩
      · exact absurd hst id
      · cases hst
    · intro hx
      rcases Finset.mem_insert.mp hx with hx | hx
      · exact ht.unread j q i p rec hj hst hi hr hx.symm
      · exact h.unfreed j q hj hst hx
  · exact h.entry_ip
  · intro j q c hj hst
    rcases update_some hj with ⟨rfl, rfl⟩ | ⟨_, hj⟩
    · exact absurd hst id
    · exact h.page_ip j q c hj hst
  · intro j q rec' hj hst
    rcases update_some hj with ⟨rfl, rfl⟩ | ⟨_, hj⟩
    · obtain rfl : rec' = rec := hst
      exact h.read_ip _ p rec' hi hr
    · exact h.read_ip j q rec' hj hst
  · intro k rec' x hk hip' hx
    obtain ⟨hne, hx⟩ := hnot hx
    exact keep _ _ (h.entry k rec' x hk hip' hx) hne
  · intro q hq hip' hx
    obtain ⟨hne, hx⟩ := hnot hx
    exact keep _ _ (h.live q hq hip' hx) hne
  · intro j q c hj hst hc
    rcases update_some hj with ⟨rfl, rfl⟩ | ⟨_, hj⟩
    · exact absurd hst id
    · refine keep _ _ (h.page j q c hj hst hc) fun he => ?_
      have hun : q.stage.Unwritten := by
        cases hq : q.stage with
        | holding known ip => exact .inl trivial
        | running ip pid => exact .inr ⟨ip, pid, rfl⟩
        | _ => rw [hq] at hst; exact absurd hst id
      exact ht.unread j q i p rec hj hun hi hr he.symm
  · intro j q key' rec' hj hst hip' hx
    obtain ⟨hne, hx⟩ := hnot hx
    rcases update_some hj with ⟨rfl, rfl⟩ | ⟨_, hj⟩
    · cases hst
    · exact keep _ _ (h.read j q key' rec' hj hst hip' hx) hne
  · intro q hq hx
    rcases Finset.mem_insert.mp hx with hx | hx
    · exact ⟨i, { p with stage := .released key rec }, key, rec, by simp, rfl, hx.symm⟩
    · refine (h.doomed q hq hx).update hi fun key' rec' hst => ?_
      rw [hs] at hst
      cases hst
  · rintro q hq hx id ⟨hl, s', hs', hc⟩
    obtain rfl := Option.some.inj hs'
    obtain ⟨hca, hc⟩ := Finset.mem_erase.mp hc
    rcases Finset.mem_insert.mp hx with hx | hx
    · exact hca (ht.reads i p rec q hi hr hq hx).2.symm
    · exact h.vacant q hq hx id ⟨hl, s, hpool, hc⟩
  · exact nofun

/-- The child gets the address its invocation holds. -/
theorem Exclusive.start {known : Bool} {ip : String} {pid : Nat} (h : Exclusive b P)
    (hi : P i = some p) (hs : p.stage = .holding known ip) (hf : b.procs.Free pid) :
    Exclusive { b with procs := b.procs.add (child p pid ip) hf }
      (Function.update P i (some { p with stage := .running ip pid })) := by
  have live : ∀ r, Books.Live { b with procs := b.procs.add (child p pid ip) hf } r →
      r = child p pid ip ∨ b.Live r := by
    intro r hr
    rcases (Procs.mem_add (h := hf)).mp hr.1 with rfl | hm
    · exact .inl rfl
    · exact .inr ⟨hm, hr.2⟩
  have hnew : p.id ∉ b.freed := h.unfreed i p hi (.inl (by rw [hs]; trivial))
  have holds : ∀ a, a = ip → p.stage.Holds a := fun a ha => by rw [hs]; exact ha
  constructor
  · intro j q hj
    rcases update_some hj with ⟨rfl, rfl⟩ | ⟨_, hj⟩
    · exact h.online j p hi
    · exact h.online j q hj
  · exact h.freed_lt
  · intro j q hj hst
    rcases update_some hj with ⟨rfl, rfl⟩ | ⟨_, hj⟩
    · exact hnew
    · exact h.unfreed j q hj hst
  · exact h.entry_ip
  · intro j q c hj hst
    rcases update_some hj with ⟨rfl, rfl⟩ | ⟨_, hj⟩
    · exact h.page_ip j p c hi (holds c hst)
    · exact h.page_ip j q c hj hst
  · intro j q rec hj hst
    rcases update_some hj with ⟨rfl, rfl⟩ | ⟨_, hj⟩
    · exact absurd hst id
    · exact h.read_ip j q rec hj hst
  · exact fun k rec c hk hip hx => ⟨(h.entry k rec c hk hip hx).1, (h.entry k rec c hk hip hx).2⟩
  · intro q hq hip hx
    rcases live q hq with rfl | hq
    · exact ⟨(h.page i p ip hi (holds ip rfl) hip).1, (h.page i p ip hi (holds ip rfl) hip).2⟩
    · exact ⟨(h.live q hq hip hx).1, (h.live q hq hip hx).2⟩
  · intro j q c hj hst hc
    rcases update_some hj with ⟨rfl, rfl⟩ | ⟨_, hj⟩
    · exact ⟨(h.page j p c hi (holds c hst) hc).1, (h.page j p c hi (holds c hst) hc).2⟩
    · exact ⟨(h.page j q c hj hst hc).1, (h.page j q c hj hst hc).2⟩
  · intro j q key rec hj hst hip hx
    rcases update_some hj with ⟨rfl, rfl⟩ | ⟨_, hj⟩
    · cases hst
    · exact ⟨(h.read j q key rec hj hst hip hx).1, (h.read j q key rec hj hst hip hx).2⟩
  · intro q hq hx
    rcases live q hq with rfl | hq
    · exact absurd hx hnew
    · refine (h.doomed q hq hx).update hi fun key rec hst => ?_
      rw [hs] at hst
      cases hst
  · intro q hq hx id hl
    rcases live q hq with rfl | hq
    · exact hnew hx
    · exact h.vacant q hq hx id ⟨hl.1, hl.2⟩
  · exact h.unpooled

/-- The record takes the lease over. -/
theorem Exclusive.set {key : String} {rec : Cmd.Service} (h : Exclusive b P) (hi : P i = some p)
    (hs : p.stage.Holds rec.ip) :
    Exclusive { b with registry := Function.update b.registry key (some (rec, p.id)) }
      (Function.update P i (some { p with stage := .done })) := by
  have entry : ∀ k rec' a, Function.update b.registry key (some (rec, p.id)) k = some (rec', a) →
      (rec' = rec ∧ a = p.id) ∨ b.registry k = some (rec', a) := by
    intro k rec' a hk
    by_cases hkey : k = key
    · subst k
      simp only [Function.update_self, Option.some.injEq, Prod.mk.injEq] at hk
      exact .inl ⟨hk.1.symm, hk.2.symm⟩
    · exact .inr (by simpa [Function.update_of_ne hkey] using hk)
  have hdone : p.Humbler { p with stage := .done } :=
    ⟨⟨rfl, nofun, nofun, nofun⟩, rfl, nofun, nofun⟩
  have hnot : ∀ key' rec', p.stage ≠ .released key' rec' := by
    intro key' rec' hst
    rw [hst] at hs
    exact hs
  have weak := h.weaken (Fewer.refl b) ⟨rfl, rfl, rfl⟩ (humblerPages_update hi hdone)
    (fun q _ _ hq => hq.update hi fun key' rec' hst => absurd hst (hnot key' rec'))
  constructor
  · exact weak.online
  · exact h.freed_lt
  · exact weak.unfreed
  · intro k rec' a hk
    rcases entry k rec' a hk with ⟨rfl, _⟩ | hk
    · exact h.page_ip i p _ hi hs
    · exact h.entry_ip k rec' a hk
  · exact weak.page_ip
  · exact weak.read_ip
  · intro k rec' a hk hip hx
    rcases entry k rec' a hk with ⟨rfl, rfl⟩ | hk
    · exact ⟨(h.page i p _ hi hs hip).1, (h.page i p _ hi hs hip).2⟩
    · exact ⟨(h.entry k rec' a hk hip hx).1, (h.entry k rec' a hk hip hx).2⟩
  · exact fun q hq hip hx => ⟨(h.live q hq hip hx).1, (h.live q hq hip hx).2⟩
  · exact fun j q c hj hst hc => ⟨(weak.page j q c hj hst hc).1, (weak.page j q c hj hst hc).2⟩
  · exact fun j q k rec' hj hst hip hx =>
      ⟨(weak.read j q k rec' hj hst hip hx).1, (weak.read j q k rec' hj hst hip hx).2⟩
  · exact weak.doomed
  · exact fun q hq hx id hl => h.vacant q hq hx id ⟨hl.1, hl.2⟩
  · exact h.unpooled

/-- A delete reads the lease of the record. -/
theorem Exclusive.get {key : String} {rec : Cmd.Service} {author : Nat} (h : Exclusive b P)
    (hi : P i = some p) (hs : p.stage = .asked key) (hk : b.registry key = some (rec, author)) :
    Exclusive b (Function.update P i (some { p with stage := .reading key rec, target := author })) := by
  constructor
  · intro j q hj
    rcases update_some hj with ⟨rfl, rfl⟩ | ⟨_, hj⟩
    · exact h.online j p hi
    · exact h.online j q hj
  · exact h.freed_lt
  · intro j q hj hst
    rcases update_some hj with ⟨rfl, rfl⟩ | ⟨_, hj⟩
    · rcases hst with hst | ⟨_, _, hst⟩
      · exact absurd hst id
      · cases hst
    · exact h.unfreed j q hj hst
  · exact h.entry_ip
  · intro j q c hj hst
    rcases update_some hj with ⟨rfl, rfl⟩ | ⟨_, hj⟩
    · exact absurd hst id
    · exact h.page_ip j q c hj hst
  · intro j q rec' hj hst
    rcases update_some hj with ⟨rfl, rfl⟩ | ⟨_, hj⟩
    · obtain rfl : rec' = rec := hst
      exact h.entry_ip key rec' author hk
    · exact h.read_ip j q rec' hj hst
  · exact h.entry
  · exact h.live
  · intro j q c hj hst hc
    rcases update_some hj with ⟨rfl, rfl⟩ | ⟨_, hj⟩
    · exact absurd hst id
    · exact h.page j q c hj hst hc
  · intro j q key' rec' hj hst hip hx
    rcases update_some hj with ⟨rfl, rfl⟩ | ⟨_, hj⟩
    · injection hst with _ hrec
      subst hrec
      exact h.entry key rec author hk hip hx
    · exact h.read j q key' rec' hj hst hip hx
  · intro q hq hx
    refine (h.doomed q hq hx).update hi fun key' rec' hst => ?_
    rw [hs] at hst
    cases hst
  · exact h.vacant
  · exact h.unpooled

/-- SIGKILL reaches the workload that a record names. -/
theorem not_spares_named {rec : Cmd.Service} {q : Proc} (h : Names rec q)
    (hq : 1 < q.pid ∧ q.pid < pidMax) : p.spares (atoi rec.pid).1 q = false := by
  have hmax : q.pid ≤ maxInt := by
    have := hq.2
    simp only [pidMax, maxInt] at *
    omega
  have hlt : q.pid < 2 ^ 31 := by
    have := hq.2
    simp only [pidMax] at this
    omega
  have hpos : (0 : Int) < (q.pid : Int) := by
    have := hq.1
    omega
  have haim : p.aims (atoi rec.pid).1 q = true := by
    rw [Page.aims, h.1, atoi_itoa hmax, pidArg_natCast hlt, Procs.named_of_pos hpos]
  have hne : q.pid ≠ 1 := by
    have := hq.1
    omega
  simp [Page.spares, haim, hne]

/-- A page that has come to its kill. -/
theorem humbler_killed {key : String} {rec : Cmd.Service}
    (hs : p.stage = .reading key rec ∨ p.stage = .released key rec) :
    p.Humbler { p with stage := .killed key rec } := by
  refine ⟨.of_stage id nofun fun rec' hst => ?_, rfl, nofun, nofun⟩
  obtain rfl : rec' = rec := hst
  rcases hs with hs | hs <;> rw [hs] <;> exact rfl

theorem Exclusive.kill {key : String} {rec : Cmd.Service} (h : Exclusive b P) (ht : Tidy b P)
    (hi : P i = some p) (hs : p.stage = .reading key rec ∨ p.stage = .released key rec) :
    Exclusive { b with procs := b.procs.keep (p.spares (atoi rec.pid).1) }
      (Function.update P i (some { p with stage := .killed key rec })) := by
  have hr : p.stage.Reads rec := by rcases hs with hs | hs <;> rw [hs] <;> exact rfl
  refine h.weaken (fewer_keep _) ⟨rfl, rfl, rfl⟩ (humblerPages_update hi (humbler_killed hs)) ?_
  intro q hq _ hd
  refine hd.update_of_ne hi fun he => ?_
  obtain ⟨hmem, hsp⟩ := Procs.mem_keep.mp hq.1
  have hlive : b.Live q := ⟨hmem, hq.2⟩
  have hn := ht.reads i p rec q hi hr hlive he.symm
  rw [not_spares_named hn (ht.pid_range q hlive)] at hsp
  cases hsp

/-- What one operation preserves, as long as it is fair, Redis answers, and no SIGKILL
fails that is meant for a live workload. -/
theorem Exclusive.move {o : Op} {r : o.Ret} (h : Exclusive b P) (ht : Tidy b P) (hG : G.Lawful)
    (hup : up) (hhit : ¬ hit → ∀ q, b.Live q → q.owner ≠ p.target) (hi : P i = some p)
    (hfair : Fair G b P p o) (hm : Move G up hit p b o r p' b') :
    Exclusive b' (Function.update P i (some p')) := by
  have keeps : ∀ {b' p'}, Fewer b b' → SameLeases b b' → p.Humbler p' →
      (∀ key rec, p.stage = .released key rec → p'.stage = .released key rec ∧ p'.target = p.target) →
      Exclusive b' (Function.update P i (some p')) := fun hb hs hp hd =>
    h.weaken hb hs (humblerPages_update hi hp) fun q _ _ hq => hq.update hi hd
  have same : ∀ {b'}, Fewer b b' → SameLeases b b' → Exclusive b' (Function.update P i (some p)) :=
    fun hb hs => keeps hb hs (.refl p) fun _ _ hst => ⟨hst, rfl⟩
  have flag : ∀ {r : Bool}, p.Humbler { p with unreserved := r } :=
    ⟨⟨rfl, fun h => h, fun _ _ h => h, fun _ h => ⟨h, rfl⟩⟩, rfl, fun _ _ h => h, fun _ _ h => h⟩
  have done : ∀ {t : Nat}, p.Humbler { p with stage := .done, target := t } :=
    ⟨⟨rfl, nofun, nofun, nofun⟩, rfl, nofun, nofun⟩
  cases hm with
  | silent => exact same (.refl b) ⟨rfl, rfl, rfl⟩
  | outset path s hs hs' =>
    refine keeps (.refl b) ⟨rfl, rfl, rfl⟩ ⟨⟨rfl, ?_, ?_, ?_⟩, rfl, ?_, ?_⟩ ?_
    · exact fun _ => by rw [hs]; trivial
    · intro ip pid hr
      rcases hs' with rfl | ⟨known, rfl⟩ <;> cases hr
    · intro rec hr
      rcases hs' with rfl | ⟨known, rfl⟩ <;> exact absurd hr id
    · intro a ha hr
      rcases hs' with rfl | ⟨known, rfl⟩
      · exact absurd hr id
      · exact absurd hr ha
    · intro key rec hr
      rcases hs' with rfl | ⟨known, rfl⟩ <;> cases hr
    · intro key rec hst
      rw [hs] at hst
      cases hst
  | offline o hdown => exact absurd hup hdown
  | stray st o s u pool lessee freed hoff =>
    rw [h.online i p hi] at hoff
    cases hoff hup
  | format hnone => exact h.format hi hnone
  | found s r hpool hr => exact keeps (.refl b) ⟨rfl, rfl, rfl⟩ flag fun _ _ hst => ⟨hst, rfl⟩
  | reserve s a hpool ha => exact h.reserve hi hpool ha
  | reserved a => exact keeps (.refl b) ⟨rfl, rfl, rfl⟩ flag fun _ _ hst => ⟨hst, rfl⟩
  | claim known s a hs hu hpool ha => exact h.claim ht hG hi hs hpool ha hfair
  | exhausted => exact same (.refl b) ⟨rfl, rfl, rfl⟩
  | release key rec s a hs hip hu hclean hpool hmem =>
    exact h.release ht hi hs hip hclean hpool hmem hfair
  | refuse key rec a hs hip hclean =>
    refine keeps (.refl b) ⟨rfl, rfl, rfl⟩ ⟨.of_stage id nofun fun rec' hst => ?_, rfl, nofun, nofun⟩
      fun key' rec' hst => ?_
    · rw [hs]
      exact hst
    · rw [hs] at hst
      cases hst
  | start cmd known ip pid _ hs hf => exact h.start hi hs hf
  | startEnvoy cmd q _ hq hf =>
    exact same (fewer_add hf (by rw [hq]; exact nofun)) ⟨rfl, rfl, rfl⟩
  | kill key rec hs => exact h.kill ht hi hs
  | killFails key rec hs hmiss =>
    refine h.weaken (.refl b) ⟨rfl, rfl, rfl⟩ (humblerPages_update hi (humbler_killed hs)) ?_
    exact fun q hq _ hd => hd.update_of_ne hi fun he => hhit hmiss q hq he.symm
  | term n => exact same (fewer_term _) ⟨rfl, rfl, rfl⟩
  | set key text rec hs =>
    refine h.set hi ?_
    rcases hs with ⟨known, hs⟩ | ⟨pid, hs, _⟩ <;> rw [hs] <;> exact rfl
  | setFails key text rec hs hdown => exact absurd hup hdown
  | get key rec author hs hk => exact h.get hi hs hk
  | miss key t hs =>
    refine keeps (.refl b) ⟨rfl, rfl, rfl⟩ done fun key' rec' hst => ?_
    rw [hs] at hst
    cases hst
  | del key rec hs =>
    refine keeps ⟨fun k e hk => ?_, fun q hq => ⟨q, hq, rfl, rfl, rfl⟩, rfl⟩ ⟨rfl, rfl, rfl⟩ done
      fun key' rec' hst => ?_
    · by_cases hkey : k = key
      · subst k
        simp at hk
      · simpa [Function.update_of_ne hkey] using hk
    · rw [hs] at hst
      cases hst
  | delFails key rec hs hdown => exact absurd hup hdown

end Steps

theorem exclusive_of_untouched {m : Machine (Host Y G) ι} (hw : World.Untouched m.world)
    (hm : m.Idle) : Exclusive (booksOf m) (pagesOf m) := by
  have live : ∀ q, ¬ (booksOf m).Live q := fun q hq => hw.workloads q hq.1 hq.2
  have reg : ∀ k, (booksOf m).registry k = none := fun k => by
    simp [booksOf, World.books, hw.registry k]
  have freed : (booksOf m).freed = ∅ := hw.freed
  have page : ∀ i p, pagesOf m i ≠ some p := fun i p hi => by
    rw [pagesOf_idle hm] at hi
    cases hi
  have entry : ∀ k e, (booksOf m).registry k ≠ some e := fun k e hk => by
    rw [reg] at hk
    cases hk
  constructor
  · exact fun i p hi => absurd hi (page i p)
  · intro a ha
    rw [freed] at ha
    exact absurd ha (Finset.notMem_empty a)
  · exact fun i p hi => absurd hi (page i p)
  · exact fun k rec a hk => absurd hk (entry k _)
  · exact fun i p a hi => absurd hi (page i p)
  · exact fun i p rec hi => absurd hi (page i p)
  · exact fun k rec a hk => absurd hk (entry k _)
  · exact fun q hq => absurd hq (live q)
  · exact fun i p a hi => absurd hi (page i p)
  · exact fun i p key rec hi => absurd hi (page i p)
  · exact fun q hq => absurd hq (live q)
  · exact fun q hq => absurd hq (live q)
  · exact fun _ => freed

section Runs
variable [DecidableEq ι]

/-- Redis answers what the event asks of it. -/
def RedisUp (m : Machine (Host Y G) ι) (e : Event (Host Y G) ι) : Prop :=
  ∀ i c loc o k, m.Performs e i c loc o k → o.OnRedis → c.fault = none

/-- No SIGKILL fails while the workload lives that it is meant for. -/
def SignalsHit (m : Machine (Host Y G) ι) (e : Event (Host Y G) ι) : Prop :=
  ∀ i c loc n k, m.Performs e i c loc (.proc (.kill n .sigkill)) k →
    ∀ q, (booksOf m).Live q → q.owner = loc.target → c.fault = none

omit [DecidableEq ι] in
theorem Faultless.redisUp {m : Machine (Host Y G) ι} {e : Event (Host Y G) ι} (h : Faultless e) :
    RedisUp m e := fun _ _ _ _ _ hp _ => h.fault hp

omit [DecidableEq ι] in
theorem Faultless.signalsHit {m : Machine (Host Y G) ι} {e : Event (Host Y G) ι} (h : Faultless e) :
    SignalsHit m e := fun _ _ _ _ _ hp _ _ _ => h.fault hp

/-- The operation of the event is fair, and no delete ends between handing an address back
and killing its workload. -/
structure FairStep (m : Machine (Host Y G) ι) (e : Event (Host Y G) ι) : Prop where
  fair : ∀ i c loc o k, m.Performs e i c loc o k → Fair G (booksOf m) (pagesOf m) loc.page o
  ends : ∀ i j, m.Ends e i j → ∀ key rec, j.loc.ledger.stage = .released key rec →
    ∀ q, (booksOf m).Live q → q.owner ≠ j.loc.target

theorem Doomed.clear {m : Machine (Host Y G) ι} {e : Event (Host Y G) ι} {i : ι}
    {j : Job (Host Y G)} {q : Proc} (hf : FairStep m e) (hend : m.Ends e i j)
    (hq : (booksOf m).Live q) (h : Doomed (pagesOf m) q.owner) :
    Doomed (Function.update (pagesOf m) i none) q.owner := by
  obtain ⟨k, r, key, rec, hk, hs, ht⟩ := h
  by_cases hne : k = i
  · subst k
    have ⟨_, _, hj, _⟩ := hend
    rw [pagesOf_job hj] at hk
    obtain rfl := Option.some.inj hk
    exact absurd ht.symm (hf.ends i j hend key rec hs q hq)
  · exact ⟨k, r, key, rec, by rw [Function.update_of_ne hne, hk], hs, ht⟩

theorem exclusive_step {m : Machine (Host Y G) ι} {e : Event (Host Y G) ι} (hY : Y.Lawful)
    (hG : G.Lawful) (hL : (ledgerWatch Y G).Holds m) (ht : Tidy (booksOf m) (pagesOf m))
    (h : Exclusive (booksOf m) (pagesOf m)) (hup : RedisUp m e) (hhit : SignalsHit m e)
    (hf : FairStep m e) : Exclusive (booksOf (m.apply e)) (pagesOf (m.apply e)) := by
  apply books_step (fun b P => Exclusive b P) True
    (∀ i c loc n k, m.Performs e i c loc (.proc (.kill n .sigkill)) k → c.fault = none) hY hL
  case hup => exact fun i c loc o k hp _ => hup i c loc o k hp
  case hhit =>
    intro i c loc o k hp hh n ho
    subst ho
    exact hh i c loc n k hp
  case stay => exact h
  case enter => exact fun i p q hfree hi ho hq _ => h.enter ho hi hfree (by rw [hq]; exact nofun)
  case clear =>
    exact fun i j hend => h.weaken (.refl _) ⟨rfl, rfl, rfl⟩ humblerPages_clear
      fun q hq _ hd => hd.clear hf hend hq
  case leave =>
    intro i j hend
    refine h.weaken (fewer_keep _) ⟨rfl, rfl, rfl⟩ humblerPages_clear fun q hq _ hd => ?_
    exact hd.clear hf hend ⟨(Procs.mem_keep.mp hq.1).1, hq.2⟩
  case move =>
    intro i c loc o k r p' b' hp hi _ hm
    refine h.move ht hG trivial (fun hmiss q hq ho => hmiss ?_) hi (hf.fair i c loc o k hp) hm
    intro i' c' loc' n k' hp'
    obtain ⟨rfl, rfl⟩ := Event.act.inj (hp.1.symm.trans hp'.1)
    obtain rfl : loc = loc' := by
      have hj := hp.2.1.symm.trans hp'.2.1
      injection hj with hj
      injection hj
    exact hhit i c loc n k' hp' q hq ho
  case exit =>
    exact fun pid _ => h.weaken (fewer_keep _) ⟨rfl, rfl, rfl⟩ (humblerPages_refl _)
      fun _ _ _ hd => hd
  case spawn =>
    exact fun q hfree hq => h.weaken (fewer_add hfree (by rw [hq]; exact nofun)) ⟨rfl, rfl, rfl⟩
      (humblerPages_refl _) fun _ _ _ hd => hd

/-- The invariant of all that follows: the programs keep to the ledger, the books are
tidy, and the leases are exclusive. -/
structure Kept (m : Machine (Host Y G) ι) : Prop where
  ledger : (ledgerWatch Y G).Holds m
  tidy : Tidy (booksOf m) (pagesOf m)
  exclusive : Exclusive (booksOf m) (pagesOf m)

omit [DecidableEq ι] in
theorem kept_of_untouched {m : Machine (Host Y G) ι} (hw : World.Untouched m.world)
    (hm : m.Idle) : Kept m :=
  ⟨Watch.holds_of_idle hm, tidy_of_untouched hw hm, exclusive_of_untouched hw hm⟩

theorem Kept.step {m : Machine (Host Y G) ι} {e : Event (Host Y G) ι} (hY : Y.Lawful)
    (hG : G.Lawful) (h : Kept m) (hup : RedisUp m e) (hhit : SignalsHit m e) (hf : FairStep m e) :
    Kept (m.apply e) :=
  ⟨h.ledger.apply e, tidy_step hY h.ledger h.tidy,
    exclusive_step hY hG h.ledger h.tidy h.exclusive hup hhit hf⟩

end Runs
end PrivatePaas
