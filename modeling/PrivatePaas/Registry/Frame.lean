import PrivatePaas.Registry.Runs

/-!
# What an event leaves alone

Each part of the world is changed by one kind of operation only, whether the operation
fails or not, and by nothing that happens outside unless it is the process table.
-/

namespace PrivatePaas
set_option autoImplicit false
open Files Text Effects

variable {Y : Yaml} {G : GoIpam} {c : Choice} {l : Local} {w : World} {o : Op}

namespace Op

def IsFs : Op → Prop
  | .fs _ => True
  | _ => False

/-- `Set` and `Del`. -/
def WritesKv : Op → Prop
  | .kv (.set _ _) => True
  | .kv (.del _) => True
  | _ => False

def OnPool : Op → Prop
  | .ipam .redis _ => True
  | _ => False

def IsProc : Op → Prop
  | .proc _ => True
  | _ => False

/-- What is left of an operation is of the same kind. -/
theorem remnant_kind {n : Nat} {o o' : Op} (h : o.remnant n = some o') :
    (o'.IsFs → o.IsFs) ∧ (o'.WritesKv → o.WritesKv) ∧ (o'.OnPool → o.OnPool) ∧ ¬ o'.IsProc := by
  cases o with
  | fs o =>
    cases o <;> cases h <;> exact ⟨id, id, id, id⟩
  | proc o => cases h
  | _ => cases h; exact ⟨id, id, id, id⟩

end Op

/-- All that an operation can do, whether it fails or not. -/
theorem attempt_elim {P : o.Ret × Option (Finset String) × World → Prop} (done : P (act G c l w o))
    (failed : P (o.failure, l.mem, w))
    (cut : ∀ n o', o.remnant n = some o' → P (o.failure, (act G c l w o').2)) :
    P (attempt G c l w o) := by
  unfold attempt
  split
  · exact done
  · exact failed
  · split
    · exact failed
    · exact cut _ _ ‹_›

theorem act_kv (h : ¬ o.WritesKv) : (act G c l w o).2.2.kv = w.kv := by
  cases o with
  | kv o =>
    cases o with
    | get key => rfl
    | _ => exact absurd trivial h
  | ipam st o => cases st <;> rfl
  | proc o =>
    cases o with
    | start cmd =>
      change (w.start l c cmd).2.kv = w.kv
      unfold World.start
      split <;> rfl
    | kill n sg => cases sg <;> rfl
    | _ => rfl
  | _ => rfl

theorem act_pool (h : ¬ o.OnPool) : (act G c l w o).2.2.pool = w.pool := by
  cases o with
  | ipam st o =>
    cases st with
    | memory => rfl
    | redis => exact absurd trivial h
  | proc o =>
    cases o with
    | start cmd =>
      change (w.start l c cmd).2.pool = w.pool
      unfold World.start
      split <;> rfl
    | kill n sg => cases sg <;> rfl
    | _ => rfl
  | _ => rfl

theorem act_fs (h : ¬ o.IsFs) : (act G c l w o).2.2.fs = w.fs := by
  cases o with
  | fs o => exact absurd trivial h
  | ipam st o => cases st <;> rfl
  | proc o =>
    cases o with
    | start cmd =>
      change (w.start l c cmd).2.fs = w.fs
      unfold World.start
      split <;> rfl
    | kill n sg => cases sg <;> rfl
    | _ => rfl
  | _ => rfl

theorem act_procs (h : ¬ o.IsProc) : (act G c l w o).2.2.procs = w.procs := by
  cases o with
  | proc o => exact absurd trivial h
  | ipam st o => cases st <;> rfl
  | _ => rfl

/-- Working directory and labels. -/
theorem act_rest : (act G c l w o).2.2.past = w.past ∧ (act G c l w o).2.2.cwd = w.cwd ∧
    (act G c l w o).2.2.nextId = w.nextId := by
  cases o with
  | ipam st o => cases st <;> exact ⟨rfl, rfl, rfl⟩
  | proc o =>
    cases o with
    | start cmd =>
      change (w.start l c cmd).2.past = w.past ∧ (w.start l c cmd).2.cwd = w.cwd ∧
        (w.start l c cmd).2.nextId = w.nextId
      unfold World.start
      split <;> exact ⟨rfl, rfl, rfl⟩
    | kill n sg => cases sg <;> exact ⟨rfl, rfl, rfl⟩
    | _ => exact ⟨rfl, rfl, rfl⟩
  | _ => exact ⟨rfl, rfl, rfl⟩

theorem perform_kv (h : ¬ o.WritesKv) : (perform Y G c l w o).2.2.kv = w.kv :=
  attempt_elim (P := fun x => x.2.2.kv = w.kv) (act_kv h) rfl
    fun _ _ ho => act_kv fun hx => h ((Op.remnant_kind ho).2.1 hx)

theorem perform_pool (h : ¬ o.OnPool) : (perform Y G c l w o).2.2.pool = w.pool :=
  attempt_elim (P := fun x => x.2.2.pool = w.pool) (act_pool h) rfl
    fun _ _ ho => act_pool fun hx => h ((Op.remnant_kind ho).2.2.1 hx)

theorem perform_fs (h : ¬ o.IsFs) : (perform Y G c l w o).2.2.fs = w.fs :=
  attempt_elim (P := fun x => x.2.2.fs = w.fs) (act_fs h) rfl
    fun _ _ ho => act_fs fun hx => h ((Op.remnant_kind ho).1 hx)

theorem perform_procs (h : ¬ o.IsProc) : (perform Y G c l w o).2.2.procs = w.procs :=
  attempt_elim (P := fun x => x.2.2.procs = w.procs) (act_procs h) rfl
    fun _ _ ho => act_procs (Op.remnant_kind ho).2.2.2

theorem perform_cwd : (perform Y G c l w o).2.2.cwd = w.cwd :=
  attempt_elim (P := fun x => x.2.2.cwd = w.cwd) act_rest.2.1 rfl fun _ _ _ => act_rest.2.1

theorem perform_past : (perform Y G c l w o).2.2.past = w.past.record l w o (perform Y G c l w o).1 := by
  have h : (attempt G c l w o).2.2.past = w.past :=
    attempt_elim (P := fun x => x.2.2.past = w.past) act_rest.1 rfl fun _ _ _ => act_rest.1
  change (attempt G c l w o).2.2.past.record l w o (attempt G c l w o).1 = _
  rw [h]
  rfl

/-- A text that is read is there. -/
theorem perform_readFile {p : Path} {data : String}
    (h : (perform Y G c l w (.fs (.readFile p))).1 = .ok data) : w.fs.read p = .ok data := by
  have hp : (perform Y G c l w (.fs (.readFile p))).1 = (attempt G c l w (.fs (.readFile p))).1 := rfl
  rw [hp] at h
  cases hf : c.fault with
  | none =>
    rw [attempt_ok hf] at h
    exact h
  | some n =>
    cases n with
    | zero =>
      rw [attempt_zero hf] at h
      cases h
    | succ n =>
      rw [attempt_succ hf] at h
      cases h

/-- A start or a signal that fails does nothing. -/
theorem attempt_proc {o : ProcOp} (hf : c.fault ≠ none) :
    attempt G c l w (.proc o) = ((Op.proc o).failure, l.mem, w) := by
  cases h : c.fault with
  | none => exact absurd h hf
  | some n =>
    cases n with
    | zero => exact attempt_zero h
    | succ n => exact attempt_succ h

theorem start_free {cmd : Command} {pid : Nat} (h : (w.start l c cmd).1 = some pid) :
    pid = c.pid ∧ w.procs.Free c.pid ∧ 0 < c.pid := by
  unfold World.start at h
  split at h
  · rename_i hx
    exact ⟨(Option.some.inj h).symm, hx.1, Nat.zero_lt_of_lt hx.2.1⟩
  · cases h

/-- The process that a start answers with has a pid that was free. -/
theorem perform_start {cmd : Command} {pid : Nat}
    (h : (perform Y G c l w (.proc (.start cmd))).1 = some pid) :
    pid = c.pid ∧ w.procs.Free c.pid ∧ 0 < c.pid := by
  have hp : (perform Y G c l w (.proc (.start cmd))).1 = (attempt G c l w (.proc (.start cmd))).1 := rfl
  rw [hp] at h
  by_cases hf : c.fault = none
  · rw [attempt_ok hf] at h
    exact start_free h
  · rw [attempt_proc hf] at h
    cases h

/-- What an operation can do to the processes. -/
theorem perform_procs_cases : (perform Y G c l w o).2.2.procs = w.procs ∨
    (∃ cmd, ∃ h : w.procs.Free c.pid, o = .proc (.start cmd) ∧
      (perform Y G c l w o).2.2.procs = w.procs.add (l.started cmd c.pid) h) ∨
    (∃ n, o = .proc (.kill n .sigkill) ∧
      (perform Y G c l w o).2.2.procs = w.procs.keep fun p => ! l.aims n p || p.pid = 1) ∨
    ∃ n, o = .proc (.kill n .sigterm) ∧ (perform Y G c l w o).2.2.procs = w.procs.term (l.aims n) := by
  by_cases ho : o.IsProc
  · cases o with
    | proc o =>
      have hp : (perform Y G c l w (.proc o)).2.2.procs = (attempt G c l w (.proc o)).2.2.procs := rfl
      rw [hp]
      by_cases hf : c.fault = none
      · rw [attempt_ok hf]
        cases o with
        | start cmd =>
          change (w.start l c cmd).2.procs = _ ∨ (∃ _ _, _ ∧ (w.start l c cmd).2.procs = _) ∨ _
          unfold World.start
          split
          · rename_i hx
            exact .inr (.inl ⟨cmd, hx.1, rfl, rfl⟩)
          · exact .inl rfl
        | kill n sg =>
          cases sg with
          | sigkill => exact .inr (.inr (.inl ⟨n, rfl, rfl⟩))
          | sigterm => exact .inr (.inr (.inr ⟨n, rfl, rfl⟩))
        | _ => exact .inl rfl
      · rw [attempt_proc hf]
        exact .inl rfl
    | _ => exact absurd ho id
  · exact .inl (perform_procs ho)

/-- Every process was there before, or has just been started. -/
theorem mem_perform_procs {q : Proc} (hq : q ∈ (perform Y G c l w o).2.2.procs) :
    (∃ q0 ∈ w.procs, q.pid = q0.pid ∧ q.role = q0.role ∧ q.owner = q0.owner ∧ q.pgid = q0.pgid) ∨
      ∃ cmd, o = .proc (.start cmd) ∧ w.procs.Free c.pid ∧ q.pid = c.pid ∧
        q.role = if cmd.isWorkload then .workload else .envoy := by
  have same : q ∈ w.procs → ∃ q0 ∈ w.procs, q.pid = q0.pid ∧ q.role = q0.role ∧ q.owner = q0.owner ∧
      q.pgid = q0.pgid :=
    fun h => ⟨q, h, rfl, rfl, rfl, rfl⟩
  rcases @perform_procs_cases Y G c l w o with he | ⟨cmd, hfree, ho, he⟩ | ⟨n, ho, he⟩ | ⟨n, ho, he⟩
  · rw [he] at hq
    exact .inl (same hq)
  · rw [he] at hq
    rcases (Procs.mem_add (h := hfree)).mp hq with rfl | hq
    · exact .inr ⟨cmd, ho, hfree, rfl, rfl⟩
    · exact .inl (same hq)
  · rw [he] at hq
    exact .inl (same (Procs.mem_keep.mp hq).1)
  · rw [he] at hq
    obtain ⟨q0, hq0, heq⟩ := Procs.exists_of_mem_term hq
    exact .inl ⟨q0, hq0, by rw [heq], by rw [heq], by rw [heq], by rw [heq]⟩

/-- A world in which only processes, their namespaces and the count of invocations differ. -/
structure World.SameStores (w w' : World) : Prop where
  kv : w'.kv = w.kv
  pool : w'.pool = w.pool
  fs : w'.fs = w.fs
  cwd : w'.cwd = w.cwd
  past : w'.past = w.past

theorem World.SameStores.registry {w' : World} (h : w.SameStores w') (Y : Yaml) :
    (w'.books Y).registry = (w.books Y).registry := by
  simp only [World.books, h.kv]

theorem enter_stores {x : Launch} {w' : World} {p : Go Unit} (h : enter Y x w = some (l, p, w')) :
    w.SameStores w' := by
  unfold enter at h
  split at h
  · injection h with h
    injection h with _ h
    injection h with _ h
    subst h
    exact ⟨rfl, rfl, rfl, rfl, rfl⟩
  · cases h

theorem leave_stores : w.SameStores ((Host Y G).leave l w) := ⟨rfl, rfl, rfl, rfl, rfl⟩

theorem disturb_stores (d : Env) : w.SameStores (disturb d w) := by
  cases d with
  | exit pid => exact ⟨rfl, rfl, rfl, rfl, rfl⟩
  | spawn pid pgid =>
    unfold disturb
    dsimp only
    split <;> exact ⟨rfl, rfl, rfl, rfl, rfl⟩

/-- Who is there after an invocation has begun. -/
theorem mem_of_enter {x : Launch} {w' : World} {p : Go Unit} (h : enter Y x w = some (l, p, w')) {q : Proc}
    (hq : q ∈ w'.procs) : q ∈ w.procs ∨ q.role = .cli ∧ q.pid = x.pid := by
  unfold enter at h
  split at h
  · rename_i hf
    injection h with h
    injection h with _ h
    injection h with _ h
    subst h
    rcases (Procs.mem_add (h := hf.1)).mp hq with rfl | hq'
    · exact .inr ⟨rfl, rfl⟩
    · exact .inl hq'
  · cases h

theorem mem_of_disturb {d : Env} {q : Proc} (hq : q ∈ (disturb d w).procs) :
    q ∈ w.procs ∨ ∃ pid pgid, d = .spawn pid pgid ∧ w.procs.Free pid ∧ q = stranger pid pgid := by
  cases d with
  | exit pid => exact .inl (Procs.mem_keep.mp hq).1
  | spawn pid pgid =>
    by_cases hf : w.procs.Free pid
    · have hd : disturb (.spawn pid pgid) w = { w with procs := w.procs.add (stranger pid pgid) hf } :=
        dif_pos hf
      rw [hd] at hq
      rcases (Procs.mem_add (h := hf)).mp hq with rfl | hq'
      · exact .inr ⟨pid, pgid, rfl, hf, rfl⟩
      · exact .inl hq'
    · have hd : disturb (.spawn pid pgid) w = w := dif_neg hf
      rw [hd] at hq
      exact .inl hq

/-- No workload begins with an invocation, and none from outside. -/
theorem live_of_enter {x : Launch} {w' : World} {p : Go Unit} (h : enter Y x w = some (l, p, w')) {q : Proc}
    (hq : w'.Live q) : w.Live q := by
  refine ⟨(mem_of_enter h hq.1).resolve_right fun hx => ?_, hq.2⟩
  exact absurd (hx.1.symm.trans hq.2) nofun

theorem live_of_disturb {d : Env} {q : Proc} (hq : (disturb d w).Live q) : w.Live q := by
  refine ⟨(mem_of_disturb hq.1).resolve_right ?_, hq.2⟩
  rintro ⟨pid, pgid, _, _, rfl⟩
  exact absurd hq.2 nofun

/-- A `Set` that fails before it is carried out is lost; any other one takes effect. -/
theorem perform_set {key text : String} : (perform Y G c l w (.kv (.set key text))).2.2.kv =
    if c.fault = some 0 then w.kv else Function.update w.kv key (some ⟨text, l.id⟩) := by
  have hp : (perform Y G c l w (.kv (.set key text))).2.2.kv =
      (attempt G c l w (.kv (.set key text))).2.2.kv := rfl
  rw [hp]
  cases hf : c.fault with
  | none =>
    rw [attempt_ok hf]
    rfl
  | some n =>
    cases n with
    | zero =>
      rw [attempt_zero hf]
      rfl
    | succ n =>
      rw [attempt_succ hf]
      rfl

theorem perform_del {key : String} : (perform Y G c l w (.kv (.del key))).2.2.kv =
    if c.fault = some 0 then w.kv else Function.update w.kv key none := by
  have hp : (perform Y G c l w (.kv (.del key))).2.2.kv = (attempt G c l w (.kv (.del key))).2.2.kv := rfl
  rw [hp]
  cases hf : c.fault with
  | none =>
    rw [attempt_ok hf]
    rfl
  | some n =>
    cases n with
    | zero =>
      rw [attempt_zero hf]
      rfl
    | succ n =>
      rw [attempt_succ hf]
      rfl

/-- An operation on the pool takes effect unless it fails at once. -/
theorem perform_redis_pool (o : IpamOp) : (perform Y G c l w (.ipam .redis o)).2.2.pool =
    if c.fault = some 0 then w.pool else (o.perform G c w.pool).2 := by
  unfold perform
  cases hf : c.fault with
  | none =>
    rw [attempt_ok hf]
    rfl
  | some n =>
    cases n with
    | zero =>
      rw [attempt_zero hf]
      rfl
    | succ n =>
      rw [attempt_succ hf]
      rfl

section Runs
variable {ι : Type} [DecidableEq ι] {m : Machine (Host Y G) ι} {e : Event (Host Y G) ι} {i : ι}

theorem apply_performs {loc : Local} {o : Op} {k : o.Ret → Go Unit} (hp : m.Performs e i c loc o k) :
    m.apply e = ⟨(perform Y G c loc m.world o).2.2, Function.update m.jobs i
      (some ⟨(perform Y G c loc m.world o).2.1, k (perform Y G c loc m.world o).1⟩)⟩ := by
  obtain ⟨rfl, hj, ha⟩ := hp
  simp only [Machine.apply, Machine.act, hj, ha, if_true]
  rfl

theorem pool_performs {loc : Local} {o : IpamOp} {k : o.Ret → Go Unit}
    (hp : m.Performs e i c loc (.ipam .redis o) k) : World.pool (m.apply e).world =
      if c.fault = some 0 then World.pool m.world else (o.perform G c (World.pool m.world)).2 := by
  rw [apply_performs hp]
  exact @perform_redis_pool Y G c loc m.world o

/-- What an event performs passes the test. -/
def passes (f : Op → Choice → Bool) (m : Machine (Host Y G) ι) : Event (Host Y G) ι → Bool
  | .act i c =>
    match m.due i with
    | some (_, o) => f o c
    | none => false
  | _ => false

omit [DecidableEq ι] in
theorem passes_iff {f : Op → Choice → Bool} :
    passes f m e = true ↔ ∃ i c loc o k, m.Performs e i c loc o k ∧ f o c = true := by
  constructor
  · intro h
    cases e with
    | act i c =>
      simp only [passes] at h
      split at h
      · rename_i loc o hd
        obtain ⟨k, hp⟩ := Machine.exists_performs c hd
        exact ⟨i, c, loc, o, k, hp, h⟩
      · cases h
    | launch i x => cases h
    | env d => cases h
  · intro ⟨i, c, loc, o, k, hp, hf⟩
    have hd := hp.due
    obtain ⟨rfl, _⟩ := hp
    simp only [passes, hd]
    exact hf

/-- A test for events that write no record under other keys. -/
def within (keys : List String) (m : Machine (Host Y G) ι) (e : Event (Host Y G) ι) : Bool :=
  match e with
  | .act i _ => match m.due i with
    | some (_, .kv (.set key _)) => decide (key ∈ keys)
    | _ => true
  | _ => true

/-- There are records under these keys only. -/
def RecordsIn (keys : List String) (m : Machine (Host Y G) ι) : Prop :=
  ∀ k, k ∉ keys → World.kv m.world k = none

theorem recordsIn_step {keys : List String} (h : RecordsIn keys m) (he : within keys m e = true) :
    RecordsIn keys (m.apply e) := by
  intro k hk
  apply Machine.apply_elim (P := fun m' => World.kv m'.world k = none) m e
  case stay => exact h k hk
  case launched =>
    intro i x loc p w _ _ hx
    exact (congrFun (enter_stores hx).kv k).trans (h k hk)
  case dead => exact fun _ _ _ _ => h k hk
  case ended => exact fun _ _ _ _ => h k hk
  case disturbed => exact fun d _ => (congrFun (disturb_stores d).kv k).trans (h k hk)
  case acted =>
    intro i c loc o k' hp
    have hdue := hp.due
    obtain ⟨rfl, _⟩ := hp
    simp only [within, hdue] at he
    by_cases ho : o.WritesKv
    · cases o with
      | kv o =>
        cases o with
        | get key => exact absurd ho id
        | set key text =>
          have hne : k ≠ key := by
            rintro rfl
            exact hk (of_decide_eq_true he)
          refine (congrFun (@perform_set Y G c loc m.world key text) k).trans ?_
          split
          · exact h k hk
          · rw [Function.update_of_ne hne]
            exact h k hk
        | del key =>
          refine (congrFun (@perform_del Y G c loc m.world key) k).trans ?_
          split
          · exact h k hk
          · by_cases hkey : k = key
            · rw [hkey, Function.update_self]
            · rw [Function.update_of_ne hkey]
              exact h k hk
      | _ => exact absurd ho id
    · exact (congrFun (@perform_kv Y G c loc m.world o ho) k).trans (h k hk)

end Runs
end PrivatePaas
