import PrivatePaas.Registry.Runs

/-!
# What the books say about workloads, whatever fails

An invocation starts at most one workload and writes at most one record; a record
and every copy of it that a delete has read name the workload of its author, as long
as that workload lives. No fault of Redis, of the file system or of a signal
changes this.
-/

namespace PrivatePaas
set_option autoImplicit false
open Files Text Effects Network PrivatePaas.Parser

variable {Y : Yaml} {G : GoIpam} {ι : Type}

namespace Stage

/-- The invocation has not started a workload yet and may still do so. -/
def Before : Stage → Prop
  | outset => True
  | holding _ _ => True
  | _ => False

/-- The record a delete has read. -/
def Reads : Stage → Cmd.Service → Prop
  | reading _ r, rec => rec = r
  | released _ r, rec => rec = r
  | killed _ r, rec => rec = r
  | _, _ => False

/-- The invocation may still write a record. -/
def Unwritten (s : Stage) : Prop := s.Before ∨ ∃ ip pid, s = running ip pid

end Stage

namespace Books

/-- A workload process that runs. -/
def Live (b : Books) (q : Proc) : Prop := q ∈ b.procs ∧ q.role = .workload

/-- A record names a process by its pid and its address. -/
def Names (rec : Cmd.Service) (q : Proc) : Prop := rec.pid = itoa q.pid ∧ rec.ip = q.ip

end Books

open Books

structure Tidy (b : Books) (P : Pages ι) : Prop where
  page_lt : ∀ i p, P i = some p → p.id < b.nextId
  page_inj : ∀ i j p q, P i = some p → P j = some q → p.id = q.id → i = j
  owner_lt : ∀ q, b.Live q → q.owner < b.nextId
  owner_inj : ∀ q q', b.Live q → b.Live q' → q.owner = q'.owner → q.pid = q'.pid
  pid_range : ∀ q, b.Live q → 1 < q.pid ∧ q.pid < pidMax
  author_lt : ∀ k rec a, b.registry k = some (rec, a) → a < b.nextId
  author_inj : ∀ k k' rec rec' a, b.registry k = some (rec, a) → b.registry k' = some (rec', a) →
    k = k'
  target_lt : ∀ i p rec, P i = some p → p.stage.Reads rec → p.target < b.nextId
  before : ∀ i p q, P i = some p → p.stage.Before → b.Live q → q.owner ≠ p.id
  running : ∀ i p ip pid q, P i = some p → p.stage = .running ip pid → b.Live q → q.owner = p.id →
    q.pid = pid ∧ q.ip = ip
  unwritten : ∀ i p k rec a, P i = some p → p.stage.Unwritten → b.registry k = some (rec, a) →
    a ≠ p.id
  unread : ∀ i p j p' rec, P i = some p → p.stage.Unwritten → P j = some p' → p'.stage.Reads rec →
    p'.target ≠ p.id
  names : ∀ k rec a q, b.registry k = some (rec, a) → b.Live q → q.owner = a → Names rec q
  reads : ∀ i p rec q, P i = some p → p.stage.Reads rec → b.Live q → q.owner = p.target →
    Names rec q

section Steps
variable [DecidableEq ι] {b b' : Books} {P : Pages ι} {i : ι} {p p' : Page}

theorem update_some {j : ι} {q : Page} (h : Function.update P i (some p') j = some q) :
    (j = i ∧ q = p') ∨ (j ≠ i ∧ P j = some q) := by
  by_cases hj : j = i
  · subst j
    left
    exact ⟨rfl, by simpa using h.symm⟩
  · right
    exact ⟨hj, by simpa [Function.update_of_ne hj] using h⟩

theorem update_none {j : ι} {q : Page} (h : Function.update P i none j = some q) : P j = some q := by
  by_cases hj : j = i
  · subst j
    simp at h
  · simpa [Function.update_of_ne hj] using h

/-- Nothing new: no new record, and every workload was there before. -/
structure Fewer (b b' : Books) : Prop where
  registry : ∀ k e, b'.registry k = some e → b.registry k = some e
  live : ∀ q, b'.Live q → ∃ q0, b.Live q0 ∧ q.pid = q0.pid ∧ q.owner = q0.owner ∧ q.ip = q0.ip
  nextId : b'.nextId = b.nextId

/-- A page that claims nothing that it did not claim before. -/
structure Page.Weaker (p p' : Page) : Prop where
  id : p'.id = p.id
  before : p'.stage.Before → p.stage.Before
  running : ∀ ip pid, p'.stage = .running ip pid → p.stage = .running ip pid
  reads : ∀ rec, p'.stage.Reads rec → p.stage.Reads rec ∧ p'.target = p.target

theorem Page.Weaker.unwritten (h : p.Weaker p') (hs : p'.stage.Unwritten) : p.stage.Unwritten := by
  rcases hs with hs | ⟨ip, pid, hs⟩
  · exact .inl (h.before hs)
  · exact .inr ⟨ip, pid, h.running ip pid hs⟩

/-- Every page of the new assignment is weaker than the one it replaces. -/
def WeakerPages (P P' : Pages ι) : Prop := ∀ j q', P' j = some q' → ∃ q, P j = some q ∧ q.Weaker q'

theorem Page.Weaker.refl (p : Page) : p.Weaker p :=
  ⟨rfl, fun h => h, fun _ _ h => h, fun _ h => ⟨h, rfl⟩⟩

omit [DecidableEq ι] in
theorem weakerPages_refl (P : Pages ι) : WeakerPages P P := fun _ q' h => ⟨q', h, .refl q'⟩

theorem weakerPages_update (hi : P i = some p) (h : p.Weaker p') :
    WeakerPages P (Function.update P i (some p')) := by
  intro j q' hj
  rcases update_some hj with ⟨rfl, rfl⟩ | ⟨_, hj⟩
  · exact ⟨p, hi, h⟩
  · exact ⟨q', hj, .refl q'⟩

theorem weakerPages_clear : WeakerPages P (Function.update P i none) :=
  fun _ q' hj => ⟨q', update_none hj, .refl q'⟩

omit [DecidableEq ι] in
theorem Tidy.weaken {P' : Pages ι} (h : Tidy b P) (hb : Fewer b b') (hP : WeakerPages P P') :
    Tidy b' P' := by
  obtain ⟨hreg, hlive, hid⟩ := hb
  constructor
  · intro j q' hj
    obtain ⟨q, hq, hw⟩ := hP j q' hj
    rw [hw.id, hid]
    exact h.page_lt j q hq
  · intro j k q' r' hj hk he
    obtain ⟨q, hq, hw⟩ := hP j q' hj
    obtain ⟨r, hr, hw'⟩ := hP k r' hk
    rw [hw.id, hw'.id] at he
    exact h.page_inj j k q r hq hr he
  · intro q hq
    obtain ⟨q0, hq0, _, ho, _⟩ := hlive q hq
    rw [ho, hid]
    exact h.owner_lt q0 hq0
  · intro q r hq hr he
    obtain ⟨q0, hq0, hp, ho, _⟩ := hlive q hq
    obtain ⟨r0, hr0, hp', ho', _⟩ := hlive r hr
    rw [hp, hp']
    exact h.owner_inj q0 r0 hq0 hr0 (by rw [← ho, ← ho', he])
  · intro q hq
    obtain ⟨q0, hq0, hp, _, _⟩ := hlive q hq
    rw [hp]
    exact h.pid_range q0 hq0
  · intro k rec a hk
    rw [hid]
    exact h.author_lt k rec a (hreg k _ hk)
  · intro k k' rec rec' a hk hk'
    exact h.author_inj k k' rec rec' a (hreg k _ hk) (hreg k' _ hk')
  · intro j q' rec hj hs
    obtain ⟨q, hq, hw⟩ := hP j q' hj
    obtain ⟨hs', ht⟩ := hw.reads rec hs
    rw [ht, hid]
    exact h.target_lt j q rec hq hs'
  · intro j q' r hj hs hr
    obtain ⟨q, hq, hw⟩ := hP j q' hj
    obtain ⟨r0, hr0, _, ho, _⟩ := hlive r hr
    rw [ho, hw.id]
    exact h.before j q r0 hq (hw.before hs) hr0
  · intro j q' ip pid r hj hs hr ho
    obtain ⟨q, hq, hw⟩ := hP j q' hj
    obtain ⟨r0, hr0, hp, ho', ha⟩ := hlive r hr
    rw [hp, ha]
    exact h.running j q ip pid r0 hq (hw.running ip pid hs) hr0 (by rw [← ho', ho, hw.id])
  · intro j q' k rec a hj hs hk
    obtain ⟨q, hq, hw⟩ := hP j q' hj
    rw [hw.id]
    exact h.unwritten j q k rec a hq (hw.unwritten hs) (hreg k _ hk)
  · intro j q' k r' rec hj hs hk hr
    obtain ⟨q, hq, hw⟩ := hP j q' hj
    obtain ⟨r, hr', hw'⟩ := hP k r' hk
    obtain ⟨hrec, ht⟩ := hw'.reads rec hr
    rw [hw.id, ht]
    exact h.unread j q k r rec hq (hw.unwritten hs) hr' hrec
  · intro k rec a q hk hq ho
    obtain ⟨q0, hq0, hp, ho', ha⟩ := hlive q hq
    have hn := h.names k rec a q0 (hreg k _ hk) hq0 (by rw [← ho', ho])
    exact ⟨by rw [hp]; exact hn.1, by rw [ha]; exact hn.2⟩
  · intro j q' rec r hj hs hr ho
    obtain ⟨q, hq, hw⟩ := hP j q' hj
    obtain ⟨hs', ht⟩ := hw.reads rec hs
    obtain ⟨r0, hr0, hp, ho', ha⟩ := hlive r hr
    have hn := h.reads j q rec r0 hq hs' hr0 (by rw [← ho', ho, ht])
    exact ⟨by rw [hp]; exact hn.1, by rw [ha]; exact hn.2⟩

theorem Fewer.of_procs {t : Procs} (h : ∀ q ∈ t, q.role = .workload →
    ∃ q0 ∈ b.procs, q0.role = .workload ∧ q.pid = q0.pid ∧ q.owner = q0.owner ∧ q.ip = q0.ip) :
    Fewer b { b with procs := t } := by
  refine ⟨fun _ _ hk => hk, fun q hq => ?_, rfl⟩
  obtain ⟨q0, hq0, hr, hrest⟩ := h q hq.1 hq.2
  exact ⟨q0, ⟨hq0, hr⟩, hrest⟩

theorem Fewer.refl (b : Books) : Fewer b b :=
  ⟨fun _ _ hk => hk, fun q hq => ⟨q, hq, rfl, rfl, rfl⟩, rfl⟩

theorem fewer_keep (f : Proc → Bool) : Fewer b { b with procs := b.procs.keep f } :=
  .of_procs fun q hq hr => ⟨q, (Procs.mem_keep.mp hq).1, hr, rfl, rfl, rfl⟩

theorem fewer_term (f : Proc → Bool) : Fewer b { b with procs := b.procs.term f } := by
  refine .of_procs fun q hq hr => ?_
  obtain ⟨q0, hq0, he⟩ := Procs.exists_of_mem_term hq
  have hrole : q.role = q0.role := by rw [he]
  exact ⟨q0, hq0, hrole ▸ hr, by rw [he], by rw [he], by rw [he]⟩

/-- A process that is no workload changes nothing here. -/
theorem fewer_add {q : Proc} (hf : b.procs.Free q.pid) (hq : q.role ≠ .workload) :
    Fewer b { b with procs := b.procs.add q hf } := by
  refine .of_procs fun r hr hrole => ?_
  rcases Procs.mem_add.mp hr with rfl | hr
  · exact absurd hrole hq
  · exact ⟨r, hr, hrole, rfl, rfl, rfl⟩

theorem Stage.Fresh.not_reads {s : Stage} (h : s.Fresh) (rec : Cmd.Service) : ¬ s.Reads rec := by
  rcases h with h | h | ⟨key, h⟩ <;> rw [h] <;> exact id

theorem Stage.Fresh.not_running {s : Stage} (h : s.Fresh) (ip : String) (pid : Nat) :
    s ≠ .running ip pid := by
  rcases h with h | h | ⟨key, h⟩ <;> rw [h] <;> exact nofun

/-- A new invocation has a new number. -/
theorem Tidy.enter {q : Proc} (h : Tidy b P) (ho : p.Opened b) (hf : b.procs.Free q.pid)
    (hq : q.role ≠ .workload) :
    Tidy { b with procs := b.procs.add q hf, nextId := b.nextId + 1 }
      (Function.update P i (some p)) := by
  have live : ∀ r, Books.Live { b with procs := b.procs.add q hf, nextId := b.nextId + 1 } r →
      b.Live r := by
    intro r hr
    rcases (Procs.mem_add (h := hf)).mp hr.1 with rfl | hm
    · exact absurd hr.2 hq
    · exact ⟨hm, hr.2⟩
  have hid := ho.id
  constructor
  · intro j r hj0
    rcases update_some hj0 with ⟨rfl, rfl⟩ | ⟨_, hj⟩
    · exact hid ▸ Nat.lt_succ_self _
    · exact Nat.lt_succ_of_lt (h.page_lt j r hj)
  · intro j k r r' hj0 hk0 he
    rcases update_some hj0 with ⟨rfl, rfl⟩ | ⟨_, hj⟩ <;>
      rcases update_some hk0 with ⟨rfl, rfl⟩ | ⟨_, hk⟩
    · rfl
    · have := h.page_lt k r' hk
      omega
    · have := h.page_lt j r hj
      omega
    · exact h.page_inj j k r r' hj hk he
  · exact fun r hr => Nat.lt_succ_of_lt (h.owner_lt r (live r hr))
  · exact fun r r' hr hr' => h.owner_inj r r' (live r hr) (live r' hr')
  · exact fun r hr => h.pid_range r (live r hr)
  · exact fun k rec a hk => Nat.lt_succ_of_lt (h.author_lt k rec a hk)
  · exact h.author_inj
  · intro j r rec hj0 hs
    rcases update_some hj0 with ⟨rfl, rfl⟩ | ⟨_, hj⟩
    · exact absurd hs (ho.fresh.not_reads rec)
    · exact Nat.lt_succ_of_lt (h.target_lt j r rec hj hs)
  · intro j r r' hj0 hs hr'
    rcases update_some hj0 with ⟨rfl, rfl⟩ | ⟨_, hj⟩
    · have := h.owner_lt r' (live r' hr')
      omega
    · exact h.before j r r' hj hs (live r' hr')
  · intro j r ip pid r' hj0 hs hr'
    rcases update_some hj0 with ⟨rfl, rfl⟩ | ⟨_, hj⟩
    · exact absurd hs (ho.fresh.not_running ip pid)
    · exact h.running j r ip pid r' hj hs (live r' hr')
  · intro j r k rec a hj0 hs hk
    rcases update_some hj0 with ⟨rfl, rfl⟩ | ⟨_, hj⟩
    · have := h.author_lt k rec a hk
      omega
    · exact h.unwritten j r k rec a hj hs hk
  · intro j r k r' rec hj0 hs hk0 hr
    rcases update_some hk0 with ⟨rfl, rfl⟩ | ⟨_, hk⟩
    · exact absurd hr (ho.fresh.not_reads rec)
    rcases update_some hj0 with ⟨rfl, rfl⟩ | ⟨_, hj⟩
    · have := h.target_lt k r' rec hk hr
      omega
    · exact h.unread j r k r' rec hj hs hk hr
  · exact fun k rec a r hk hr => h.names k rec a r hk (live r hr)
  · intro j r rec r' hj0 hs hr'
    rcases update_some hj0 with ⟨rfl, rfl⟩ | ⟨_, hj⟩
    · exact absurd hs (ho.fresh.not_reads rec)
    · exact h.reads j r rec r' hj hs (live r' hr')

/-- A workload is started by an invocation that has none and has recorded nothing. -/
theorem Tidy.start {known : Bool} {ip : String} {pid : Nat} (h : Tidy b P) (hi : P i = some p)
    (hs : p.stage = .holding known ip) (hf : b.procs.Free pid) (hlo : 1 < pid) (hhi : pid < pidMax) :
    Tidy { b with procs := b.procs.add (child p pid ip) hf }
      (Function.update P i (some { p with stage := .running ip pid })) := by
  have hbefore : p.stage.Before := by rw [hs]; trivial
  have live : ∀ r, Books.Live { b with procs := b.procs.add (child p pid ip) hf } r →
      r = child p pid ip ∨ b.Live r := by
    intro r hr
    rcases (Procs.mem_add (h := hf)).mp hr.1 with rfl | hm
    · exact .inl rfl
    · exact .inr ⟨hm, hr.2⟩
  have fresh : ∀ r, b.Live r → r.owner ≠ p.id := fun r hr => h.before i p r hi hbefore hr
  constructor
  · intro j r hj0
    rcases update_some hj0 with ⟨rfl, rfl⟩ | ⟨_, hj⟩
    · exact h.page_lt j p hi
    · exact h.page_lt j r hj
  · intro j k r r' hj0 hk0 he
    rcases update_some hj0 with ⟨rfl, rfl⟩ | ⟨_, hj⟩ <;>
      rcases update_some hk0 with ⟨rfl, rfl⟩ | ⟨_, hk⟩
    · rfl
    · exact h.page_inj _ _ p r' hi hk he
    · exact h.page_inj _ _ r p hj hi he
    · exact h.page_inj j k r r' hj hk he
  · intro r hr
    rcases live r hr with rfl | hr
    · exact h.page_lt i p hi
    · exact h.owner_lt r hr
  · intro r r' hr hr' he
    rcases live r hr with rfl | hr <;> rcases live r' hr' with rfl | hr'
    · rfl
    · exact absurd he.symm (fresh r' hr')
    · exact absurd he (fresh r hr)
    · exact h.owner_inj r r' hr hr' he
  · intro r hr
    rcases live r hr with rfl | hr
    · exact ⟨hlo, hhi⟩
    · exact h.pid_range r hr
  · exact h.author_lt
  · exact h.author_inj
  · intro j r rec hj0 hr
    rcases update_some hj0 with ⟨rfl, rfl⟩ | ⟨_, hj⟩
    · exact absurd hr id
    · exact h.target_lt j r rec hj hr
  · intro j r r' hj0 hr hr'
    rcases update_some hj0 with ⟨rfl, rfl⟩ | ⟨hne, hj⟩
    · exact absurd hr id
    rcases live r' hr' with rfl | hr'
    · exact fun he => hne (h.page_inj j i r p hj hi he.symm)
    · exact h.before j r r' hj hr hr'
  · intro j r ip' pid' r' hj0 hr hr' ho
    rcases update_some hj0 with ⟨rfl, rfl⟩ | ⟨hne, hj⟩
    · injection hr with hip hpid
      rcases live r' hr' with rfl | hr'
      · exact ⟨hpid, hip⟩
      · exact absurd ho (fresh r' hr')
    rcases live r' hr' with rfl | hr'
    · exact absurd (h.page_inj j i r p hj hi ho.symm) hne
    · exact h.running j r ip' pid' r' hj hr hr' ho
  · intro j r k rec a hj0 hr hk
    rcases update_some hj0 with ⟨rfl, rfl⟩ | ⟨_, hj⟩
    · exact h.unwritten j p k rec a hi (.inl hbefore) hk
    · exact h.unwritten j r k rec a hj hr hk
  · intro j r k r' rec hj0 hr hk0 hrec
    rcases update_some hk0 with ⟨rfl, rfl⟩ | ⟨_, hk⟩
    · exact absurd hrec id
    rcases update_some hj0 with ⟨rfl, rfl⟩ | ⟨_, hj⟩
    · exact h.unread j p k r' rec hi (.inl hbefore) hk hrec
    · exact h.unread j r k r' rec hj hr hk hrec
  · intro k rec a r hk hr ho
    rcases live r hr with rfl | hr
    · exact absurd ho.symm (h.unwritten i p k rec a hi (.inl hbefore) hk)
    · exact h.names k rec a r hk hr ho
  · intro j r rec r' hj0 hrec hr' ho
    rcases update_some hj0 with ⟨rfl, rfl⟩ | ⟨_, hj⟩
    · exact absurd hrec id
    rcases live r' hr' with rfl | hr'
    · exact absurd ho.symm (h.unread i p j r rec hi (.inl hbefore) hj hrec)
    · exact h.reads j r rec r' hj hrec hr' ho

/-- The record names the child, if there is one. -/
theorem Tidy.set {key : String} {rec : Cmd.Service} (h : Tidy b P) (hi : P i = some p)
    (hs : (∃ known, p.stage = .holding known rec.ip) ∨
      ∃ pid : Nat, p.stage = .running rec.ip pid ∧ rec.pid = itoa pid) :
    Tidy { b with registry := Function.update b.registry key (some (rec, p.id)) }
      (Function.update P i (some { p with stage := .done })) := by
  have hun : p.stage.Unwritten := by
    rcases hs with ⟨known, hs⟩ | ⟨pid, hs, _⟩
    · exact .inl (by rw [hs]; trivial)
    · exact .inr ⟨_, _, hs⟩
  have names : ∀ q, b.Live q → q.owner = p.id → Names rec q := by
    intro q hq ho
    rcases hs with ⟨known, hs⟩ | ⟨pid, hs, hpid⟩
    · exact absurd ho (h.before i p q hi (by rw [hs]; trivial) hq)
    · obtain ⟨hqp, hqi⟩ := h.running i p _ pid q hi hs hq ho
      exact ⟨by rw [hpid, hqp], hqi.symm⟩
  have entry : ∀ k rec' a, Function.update b.registry key (some (rec, p.id)) k = some (rec', a) →
      (k = key ∧ rec' = rec ∧ a = p.id) ∨ (k ≠ key ∧ b.registry k = some (rec', a)) := by
    intro k rec' a hk
    by_cases hkey : k = key
    · subst k
      left
      simp only [Function.update_self, Option.some.injEq, Prod.mk.injEq] at hk
      exact ⟨rfl, hk.1.symm, hk.2.symm⟩
    · right
      exact ⟨hkey, by simpa [Function.update_of_ne hkey] using hk⟩
  have weak := h.weaken (Fewer.refl b)
    (weakerPages_update hi (show p.Weaker { p with stage := .done } from ⟨rfl, nofun, nofun, nofun⟩))
  constructor
  · exact weak.page_lt
  · exact weak.page_inj
  · exact h.owner_lt
  · exact h.owner_inj
  · exact h.pid_range
  · intro k rec' a hk0
    rcases entry k rec' a hk0 with ⟨_, _, rfl⟩ | ⟨_, hk⟩
    · exact h.page_lt i p hi
    · exact h.author_lt k rec' a hk
  · intro k k' r r' a hk0 hk0'
    rcases entry k r a hk0 with ⟨rfl, _, rfl⟩ | ⟨_, hk⟩ <;>
      rcases entry k' r' _ hk0' with ⟨rfl, _, he⟩ | ⟨_, hk'⟩
    · rfl
    · exact absurd rfl (h.unwritten i p k' r' _ hi hun hk')
    · exact absurd he (h.unwritten i p k r a hi hun hk)
    · exact h.author_inj k k' r r' a hk hk'
  · exact weak.target_lt
  · exact weak.before
  · exact weak.running
  · intro j r k rec' a hj0 hr hk0
    rcases update_some hj0 with ⟨rfl, rfl⟩ | ⟨hne, hj⟩
    · rcases hr with hr | ⟨_, _, hr⟩
      · exact absurd hr id
      · exact absurd hr nofun
    rcases entry k rec' a hk0 with ⟨_, _, rfl⟩ | ⟨_, hk⟩
    · exact fun he => hne (h.page_inj j i r p hj hi he.symm)
    · exact h.unwritten j r k rec' a hj hr hk
  · exact weak.unread
  · intro k rec' a q hk0 hq ho
    rcases entry k rec' a hk0 with ⟨_, rfl, rfl⟩ | ⟨_, hk⟩
    · exact names q hq ho
    · exact h.names k rec' a q hk hq ho
  · exact weak.reads

/-- What a delete reads is what the record says. -/
theorem Tidy.get {key : String} {rec : Cmd.Service} {author : Nat} (h : Tidy b P) (hi : P i = some p)
    (hk : b.registry key = some (rec, author)) :
    Tidy b (Function.update P i (some { p with stage := .reading key rec, target := author })) := by
  constructor
  · intro j r hj0
    rcases update_some hj0 with ⟨rfl, rfl⟩ | ⟨_, hj⟩
    · exact h.page_lt j p hi
    · exact h.page_lt j r hj
  · intro j k r r' hj0 hk0 he
    rcases update_some hj0 with ⟨rfl, rfl⟩ | ⟨_, hj⟩ <;>
      rcases update_some hk0 with ⟨rfl, rfl⟩ | ⟨_, hk⟩
    · rfl
    · exact h.page_inj _ _ p r' hi hk he
    · exact h.page_inj _ _ r p hj hi he
    · exact h.page_inj j k r r' hj hk he
  · exact h.owner_lt
  · exact h.owner_inj
  · exact h.pid_range
  · exact h.author_lt
  · exact h.author_inj
  · intro j r rec' hj0 hr
    rcases update_some hj0 with ⟨rfl, rfl⟩ | ⟨_, hj⟩
    · exact h.author_lt key rec author hk
    · exact h.target_lt j r rec' hj hr
  · intro j r r' hj0 hr hr'
    rcases update_some hj0 with ⟨rfl, rfl⟩ | ⟨_, hj⟩
    · exact absurd hr id
    · exact h.before j r r' hj hr hr'
  · intro j r ip pid r' hj0 hr hr'
    rcases update_some hj0 with ⟨rfl, rfl⟩ | ⟨_, hj⟩
    · exact absurd hr nofun
    · exact h.running j r ip pid r' hj hr hr'
  · intro j r k rec' a hj0 hr hk'
    rcases update_some hj0 with ⟨rfl, rfl⟩ | ⟨_, hj⟩
    · rcases hr with hr | ⟨_, _, hr⟩
      · exact absurd hr id
      · exact absurd hr nofun
    · exact h.unwritten j r k rec' a hj hr hk'
  · intro j r k r' rec' hj0 hr hk0' hrec
    rcases update_some hj0 with ⟨rfl, rfl⟩ | ⟨_, hj⟩
    · rcases hr with hr | ⟨_, _, hr⟩
      · exact absurd hr id
      · exact absurd hr nofun
    rcases update_some hk0' with ⟨rfl, rfl⟩ | ⟨_, hk'⟩
    · exact h.unwritten j r key rec author hj hr hk
    · exact h.unread j r k r' rec' hj hr hk' hrec
  · exact h.names
  · intro j r rec' q hj0 hrec hq ho
    rcases update_some hj0 with ⟨rfl, rfl⟩ | ⟨_, hj⟩
    · obtain rfl : rec' = rec := hrec
      exact h.names key rec' author q hk hq ho
    · exact h.reads j r rec' q hj hrec hq ho

/-- A page that only loses its stage. -/
theorem Page.Weaker.of_stage {s : Stage} (hb : ¬ s.Before) (hr : ∀ ip pid, s ≠ .running ip pid)
    (hs : ∀ rec, s.Reads rec → p.stage.Reads rec) : p.Weaker { p with stage := s } :=
  ⟨rfl, fun h => absurd h hb, fun ip pid h => absurd h (hr ip pid), fun rec h => ⟨hs rec h, rfl⟩⟩

theorem Page.Weaker.of_strays {s : Stage} {r : Bool} (h : p.stage.Strays s) :
    p.Weaker { p with stage := s, unreserved := r } := by
  rcases h with rfl | ⟨known, a, hp, rfl⟩ | ⟨key, rec, hp, rfl⟩
  · exact ⟨rfl, fun h => h, fun _ _ h => h, fun _ h => ⟨h, rfl⟩⟩
  · exact ⟨rfl, fun _ => by rw [hp]; trivial, nofun, nofun⟩
  · refine ⟨rfl, nofun, nofun, fun rec' h => ⟨?_, rfl⟩⟩
    rw [hp]
    exact h

/-- What one operation of an invocation preserves. -/
theorem Tidy.move {o : Op} {r : o.Ret} {up hit : Prop} (h : Tidy b P) (hi : P i = some p)
    (hm : Move G up hit p b o r p' b') : Tidy b' (Function.update P i (some p')) := by
  have keeps : ∀ {b' p'}, Fewer b b' → p.Weaker p' → Tidy b' (Function.update P i (some p')) :=
    fun hb hp => h.weaken hb (weakerPages_update hi hp)
  have done : ∀ {t : Nat}, p.Weaker { p with stage := .done, target := t } :=
    ⟨rfl, nofun, nofun, nofun⟩
  have killed : ∀ {key rec}, p.stage = .reading key rec ∨ p.stage = .released key rec →
      p.Weaker { p with stage := .killed key rec } := by
    intro key rec hs
    refine .of_stage id nofun fun rec' hr => ?_
    rcases hs with hs | hs <;> rw [hs] <;> exact hr
  have released : ∀ {key rec}, p.stage = .reading key rec →
      p.Weaker { p with stage := .released key rec } := by
    intro key rec hs
    refine .of_stage id nofun fun rec' hr => ?_
    rw [hs]
    exact hr
  cases hm with
  | silent => exact keeps (.refl b) (.refl p)
  | outset path s hs hs' =>
    refine keeps (.refl b) ⟨rfl, fun _ => by rw [hs]; trivial, ?_, ?_⟩
    · intro ip pid hr
      rcases hs' with rfl | ⟨known, rfl⟩ <;> cases hr
    · intro rec hr
      rcases hs' with rfl | ⟨known, rfl⟩ <;> exact absurd hr id
  | offline => exact keeps (.refl b) ⟨rfl, fun h => h, fun _ _ h => h, fun _ h => ⟨h, rfl⟩⟩
  | stray st o s r pool lessee freed _ hs =>
    exact keeps ⟨fun _ _ h => h, fun q hq => ⟨q, hq, rfl, rfl, rfl⟩, rfl⟩ (.of_strays hs)
  | format =>
    exact keeps ⟨fun _ _ h => h, fun q hq => ⟨q, hq, rfl, rfl, rfl⟩, rfl⟩
      ⟨rfl, fun h => h, fun _ _ h => h, fun _ h => ⟨h, rfl⟩⟩
  | found => exact keeps (.refl b) ⟨rfl, fun h => h, fun _ _ h => h, fun _ h => ⟨h, rfl⟩⟩
  | reserve =>
    exact keeps ⟨fun _ _ h => h, fun q hq => ⟨q, hq, rfl, rfl, rfl⟩, rfl⟩
      ⟨rfl, fun h => h, fun _ _ h => h, fun _ h => ⟨h, rfl⟩⟩
  | reserved => exact keeps (.refl b) ⟨rfl, fun h => h, fun _ _ h => h, fun _ h => ⟨h, rfl⟩⟩
  | claim known s a hs =>
    exact keeps ⟨fun _ _ h => h, fun q hq => ⟨q, hq, rfl, rfl, rfl⟩, rfl⟩
      (.of_strays (.inr (.inl ⟨known, a, hs, rfl⟩)))
  | exhausted => exact keeps (.refl b) (.refl p)
  | release key rec s a hs =>
    exact keeps ⟨fun _ _ h => h, fun q hq => ⟨q, hq, rfl, rfl, rfl⟩, rfl⟩ (released hs)
  | refuse key rec a hs => exact keeps (.refl b) (released hs)
  | start cmd known ip pid _ hs hf hlo hhi => exact h.start hi hs hf hlo hhi
  | startEnvoy cmd q _ hq hf => exact keeps (fewer_add hf (by rw [hq]; exact nofun)) (.refl p)
  | kill key rec hs => exact keeps (fewer_keep _) (killed hs)
  | killFails key rec hs => exact keeps (.refl b) (killed hs)
  | term n => exact keeps (fewer_term _) (.refl p)
  | set key text rec hs => exact h.set hi hs
  | setFails => exact keeps (.refl b) done
  | get key rec author hs hk => exact h.get hi hk
  | miss => exact keeps (.refl b) done
  | del key rec hs =>
    refine keeps ⟨fun k e hk => ?_, fun q hq => ⟨q, hq, rfl, rfl, rfl⟩, rfl⟩ done
    by_cases hkey : k = key
    · subst k
      simp at hk
    · simpa [Function.update_of_ne hkey] using hk
  | delFails => exact keeps (.refl b) done

end Steps

/-- Nothing has been created: an empty registry and no workload. -/
structure World.Untouched (w : World) : Prop where
  registry : ∀ k, w.kv k = none
  workloads : ∀ q ∈ w.procs, q.role ≠ .workload
  freed : w.past.freed = ∅

theorem tidy_of_untouched {m : Machine (Host Y G) ι} (hw : World.Untouched m.world)
    (hm : m.Idle) : Tidy (booksOf m) (pagesOf m) := by
  have live : ∀ q, ¬ (booksOf m).Live q := fun q hq => hw.workloads q hq.1 hq.2
  have reg : ∀ k, (booksOf m).registry k = none := fun k => by
    simp [booksOf, World.books, hw.registry k]
  constructor
  · intro i p hi
    rw [pagesOf_idle hm] at hi
    cases hi
  · intro i j p q hi
    rw [pagesOf_idle hm] at hi
    cases hi
  · exact fun q hq => absurd hq (live q)
  · exact fun q q' hq => absurd hq (live q)
  · exact fun q hq => absurd hq (live q)
  · intro k rec a hk
    rw [reg] at hk
    cases hk
  · intro k k' rec rec' a hk
    rw [reg] at hk
    cases hk
  · intro i p rec hi
    rw [pagesOf_idle hm] at hi
    cases hi
  · exact fun i p q _ _ hq => absurd hq (live q)
  · exact fun i p ip pid q _ _ hq => absurd hq (live q)
  · intro i p k rec a hi
    rw [pagesOf_idle hm] at hi
    cases hi
  · intro i p j p' rec hi
    rw [pagesOf_idle hm] at hi
    cases hi
  · exact fun k rec a q _ hq => absurd hq (live q)
  · exact fun i p rec q _ _ hq => absurd hq (live q)

variable [DecidableEq ι]

/-- Every event keeps the books tidy. -/
theorem tidy_step {m : Machine (Host Y G) ι} {e : Event (Host Y G) ι} (hY : Y.Lawful)
    (hL : (ledgerWatch Y G).Holds m) (h : Tidy (booksOf m) (pagesOf m)) :
    Tidy (booksOf (m.apply e)) (pagesOf (m.apply e)) := by
  apply books_step (fun b P => Tidy b P) False False hY hL
  case hup => exact fun _ _ _ _ _ _ hf => absurd hf id
  case hhit => exact fun _ _ _ _ _ _ hf => absurd hf id
  case stay => exact h
  case enter => exact fun i p q hf _ ho hq _ => h.enter ho hf (by rw [hq]; exact nofun)
  case clear => exact fun i j _ => h.weaken (.refl _) weakerPages_clear
  case leave => exact fun i j _ => h.weaken (fewer_keep _) weakerPages_clear
  case move => exact fun i c loc o k r p' b' _ hi _ hm => h.move hi hm
  case exit => exact fun pid _ => h.weaken (fewer_keep _) (weakerPages_refl _)
  case spawn =>
    exact fun q hf hq => h.weaken (fewer_add hf (by rw [hq]; exact nofun)) (weakerPages_refl _)

theorem tidy_run {m : Machine (Host Y G) ι} (hY : Y.Lawful) (hL : (ledgerWatch Y G).Holds m)
    (h : Tidy (booksOf m) (pagesOf m)) (es : List (Event (Host Y G) ι)) :
    Tidy (booksOf (m.run es)) (pagesOf (m.run es)) := by
  induction es generalizing m with
  | nil => exact h
  | cons e es ih => exact ih (hL.apply e) (tidy_step hY hL h)

end PrivatePaas
