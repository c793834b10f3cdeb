import Mathlib.Data.Multiset.AddSub
import PrivatePaas.Registry.Exclusive
import PrivatePaas.Registry.Rules
import PrivatePaas.Results.Sample

/-!
# Acquire and release cancel out

Calls of `GetIp` and `ReleaseIp`, one after another and on one storage: whatever has been
acquired is handed back in the end, in any order, and the pool is what it was.
-/

namespace PrivatePaas
set_option autoImplicit false
open Files Text Effects Go Network Prog PrivatePaas.Parser

variable {Y : Yaml} {G : GoIpam} {l : Local} {w : World}

namespace Pool

inductive Call where
  | acquire
  | release (ipStr : String)
deriving DecidableEq

inductive Reply where
  | address (ip : String)
  | released (ok : Bool)
deriving DecidableEq

def Call.program : Call → Go Reply
  | acquire => do
    let ip ← getIp
    return .address ip
  | release ipStr => do
    let ok ← releaseIp ipStr
    return .released ok

/-- The allocated addresses in the storage that is used. -/
def stored : Storage → Local → World → Option (Finset String)
  | .redis, _, w => w.pool
  | .memory, l, _ => l.mem

/-- The probe selects the storage, and nothing fails behind it. -/
def Selects (st : Storage) (c : Nat → Choice) : Prop :=
  match st with
  | .redis => ∀ n, Smooth (c n)
  | .memory => (c 0).fault ≠ none ∧ (∀ n, Smooth (c (n + 1))) ∨
      Smooth (c 0) ∧ (c 1).fault ≠ none ∧ ∀ n, Smooth (c (n + 2))

/-- A call with its reply, and the pool as it was before. -/
structure Served where
  call : Call
  reply : Option Reply
  before : Option (Finset String)
deriving DecidableEq

/-- The calls one after another; the `n`th one has the choices `c n`. -/
def serve (Y : Yaml) (G : GoIpam) (st : Storage) (c : Nat → Nat → Choice) (l : Local) (w : World) :
    List Call → List Served × Local × World
  | [] => ([], l, w)
  | x :: xs =>
    let o := (Host Y G).exec (c 0) l w x.program
    let (log, l', w') := serve Y G st (fun n => c (n + 1)) o.loc o.world xs
    (⟨x, o.result, stored st l w⟩ :: log, l', w')

/-- The text is the address, with a mask length or without, and perhaps with spaces around. -/
def Writes (ipStr a : String) : Prop :=
  ∃ pre post : String, (∀ c ∈ pre.toList, isSpace c = true) ∧ (∀ c ∈ post.toList, isSpace c = true) ∧
    (ipStr = pre ++ a ++ post ∨ ∃ n : Nat, ipStr = pre ++ a ++ "/" ++ itoa n ++ post)

/-- Every address that was acquired is released exactly once, later on; `held` are those that
are still to be released. -/
def Disciplined : Multiset String → List Served → Prop
  | held, [] => held = 0
  | held, ⟨.acquire, some (.address ip), _⟩ :: log =>
    if ip = "" then Disciplined held log else Disciplined (ip ::ₘ held) log
  | held, ⟨.acquire, _, _⟩ :: log => Disciplined held log
  | held, ⟨.release ipStr, _, _⟩ :: log => ∃ a ∈ held, Writes ipStr a ∧ Disciplined (held.erase a) log

/-- A text that can stand for an address: not empty, without slashes and spaces. -/
def AddressText (a : String) : Prop := a ≠ "" ∧ ∀ c ∈ a.toList, c ≠ '/' ∧ isSpace c = false

section Text

theorem addressText_of_mem_hosts {a : String} (h : a ∈ hosts) : AddressText a := by
  refine ⟨ne_empty_of_mem_hosts h, ?_⟩
  obtain ⟨n, _, rfl⟩ := mem_hosts.mp h
  intro c hc
  simp only [host, String.toList_append, List.mem_append] at hc
  rcases hc with hc | hc
  · have hall : "10.0.0.".toList.all (fun c => c ≠ '/' ∧ ! isSpace c) = true := by decide
    simpa using List.all_eq_true.mp hall c hc
  · refine ⟨?_, isSpace_of_isDigit (isDigit_of_mem_itoa hc)⟩
    rintro rfl
    exact absurd (isDigit_of_mem_itoa hc) (by decide)

theorem dropWhile_isSpace {pre rest : List Char} (h : ∀ c ∈ pre, isSpace c = true) :
    (pre ++ rest).dropWhile isSpace = rest.dropWhile isSpace := by
  induction pre with
  | nil => rfl
  | cons c pre ih =>
    rw [List.cons_append, List.dropWhile_cons_of_pos (h c List.mem_cons_self)]
    exact ih fun c hc => h c (List.mem_cons_of_mem _ hc)

theorem trimSpace_around {pre a post : String} (hpre : ∀ c ∈ pre.toList, isSpace c = true)
    (hpost : ∀ c ∈ post.toList, isSpace c = true) (ha : AddressText a) :
    trimSpace (pre ++ a ++ post) = a := by
  have hne : a.toList ≠ [] := fun h => ha.1 (String.toList_inj.mp h)
  have hspace : ∀ c ∈ a.toList, isSpace c = false := fun c hc => (ha.2 c hc).2
  have hfront : (a.toList ++ post.toList).dropWhile isSpace = a.toList ++ post.toList := by
    cases hl : a.toList with
    | nil => exact absurd hl hne
    | cons c cs =>
      rw [List.cons_append, List.dropWhile_cons_of_neg]
      rw [hspace c (by rw [hl]; exact List.mem_cons_self)]
      exact Bool.false_ne_true
  rw [trimSpace, String.toList_append, String.toList_append, List.append_assoc, dropWhile_isSpace hpre, hfront,
    List.reverse_append, dropWhile_isSpace fun c hc => hpost c (List.mem_reverse.mp hc),
    dropWhile_eq_self fun c hc => hspace c (List.mem_reverse.mp hc), List.reverse_reverse, String.ofList_toList]

theorem slash_notMem_spaces {s : String} (h : ∀ c ∈ s.toList, isSpace c = true) : '/' ∉ s.toList :=
  fun hc => absurd (h _ hc) (by decide)

/-- What `ReleaseIp` hands on is the address. -/
theorem Writes.cleanIP {ipStr a : String} (h : Writes ipStr a) (ha : AddressText a) : cleanIP ipStr = a := by
  obtain ⟨pre, post, hpre, hpost, h⟩ := h
  have hslash : ∀ s : String, (∀ c ∈ s.toList, isSpace c = true) → '/' ∉ (pre ++ a ++ s).toList := by
    intro s hs hc
    rw [String.toList_append, String.toList_append] at hc
    rcases List.mem_append.mp hc with hc | hc
    · rcases List.mem_append.mp hc with hc | hc
      · exact slash_notMem_spaces hpre hc
      · exact (ha.2 _ hc).1 rfl
    · exact slash_notMem_spaces hs hc
  rcases h with rfl | ⟨n, rfl⟩
  · rw [Network.cleanIP, split_of_notMem (hslash post hpost)]
    exact trimSpace_around hpre hpost ha
  · have hempty : ∀ c ∈ "".toList, isSpace c = true := by
      intro c hc
      simp at hc
    have hcut : split '/' (pre ++ a ++ "/" ++ itoa n ++ post) = (pre ++ a) :: split '/' (itoa n ++ post) := by
      have hs := hslash "" hempty
      rw [String.append_empty] at hs
      have hassoc : pre ++ a ++ "/" ++ itoa n ++ post = pre ++ a ++ ("/" ++ (itoa n ++ post)) := by
        simp only [String.append_assoc]
      rw [hassoc, split_append_cons (u := itoa n ++ post) (pre ++ a) (by rw [String.toList_append]; rfl),
        split_of_notMem hs]
      rfl
    have htrim := trimSpace_around hpre hempty ha
    rw [String.append_empty] at htrim
    rw [Network.cleanIP, hcut]
    exact htrim

end Text

section Calls
variable {st : Storage} {s : Finset String} {c : Nat → Choice} {α : Type}

/-- The invocation runs, and the pool of the storage is this one. -/
structure Stands (st : Storage) (s : Finset String) (l : Local) (w : World) : Prop where
  running : Running l w
  pool : stored st l w = some s

theorem Stands.perform_ipam (h : Stands st s l w) {ch : Choice} (hc : Smooth ch) {o : IpamOp} {r : o.Ret}
    {s' : Finset String} (ho : o.perform G ch (some s) = (r, some s')) :
    (perform Y G ch l w (.ipam st o)).1 = r ∧
      Stands st s' (perform Y G ch l w (.ipam st o)).2.1 (perform Y G ch l w (.ipam st o)).2.2 := by
  have hpool := h.pool
  unfold perform
  rw [attempt_ok hc]
  cases st with
  | redis =>
    have hpool : w.pool = some s := hpool
    simp only [act, hpool, ho]
    exact ⟨trivial, h.running.of_procs ⟨rfl, rfl, rfl⟩ rfl, rfl⟩
  | memory =>
    have hpool : l.mem = some s := hpool
    simp only [act, hpool, ho]
    exact ⟨trivial, h.running.of_procs ⟨rfl, rfl, rfl⟩ rfl, rfl⟩

theorem Stands.probe (h : Stands st s l w) (ch : Choice) (o : ProbeOp) :
    (perform Y G ch l w (.probe o)).1 = decide (ch.fault = none) ∧
      Stands st s (perform Y G ch l w (.probe o)).2.1 (perform Y G ch l w (.probe o)).2.2 := by
  have hpool := h.pool
  unfold perform
  cases hf : ch.fault with
  | none =>
    rw [attempt_ok hf]
    refine ⟨rfl, h.running.of_procs ⟨rfl, rfl, rfl⟩ rfl, ?_⟩
    cases st <;> exact hpool
  | some n =>
    cases n with
    | zero =>
      rw [attempt_zero hf]
      refine ⟨rfl, h.running.of_procs ⟨rfl, rfl, rfl⟩ rfl, ?_⟩
      cases st <;> exact hpool
    | succ n =>
      rw [attempt_succ hf]
      refine ⟨rfl, h.running.of_procs ⟨rfl, rfl, rfl⟩ rfl, ?_⟩
      cases st <;> exact hpool

theorem exec_probe (α : Type) (o : ProbeOp) (h : Stands st s l w) : ∃ l' w', (∀ k : Bool → Go α,
    (Host Y G).exec c l w (.call (.probe o) k) =
      (Host Y G).exec (fun n => c (n + 1)) l' w' (k (decide ((c 0).fault = none)))) ∧ Stands st s l' w' := by
  obtain ⟨hr, h'⟩ := h.probe (Y := Y) (G := G) (c 0) o
  refine ⟨_, _, fun k => ?_, h'⟩
  rw [← hr]
  exact System.exec_alive (Y := Host Y G) (alive_iff.mpr h.running)

theorem exec_ipam (α : Type) {o : IpamOp} {r : o.Ret} {s' : Finset String} (h : Stands st s l w)
    (hc : Smooth (c 0)) (ho : o.perform G (c 0) (some s) = (r, some s')) : ∃ l' w', (∀ k : o.Ret → Go α,
    (Host Y G).exec c l w (.call (.ipam st o) k) = (Host Y G).exec (fun n => c (n + 1)) l' w' (k r)) ∧
      Stands st s' l' w' := by
  obtain ⟨hr, h'⟩ := h.perform_ipam (Y := Y) hc ho
  refine ⟨_, _, fun k => ?_, h'⟩
  rw [← hr]
  exact System.exec_alive (Y := Host Y G) (alive_iff.mpr h.running)

/-- Behind the probe the storage is the one that it selects. -/
theorem exec_selectStorage (α : Type) (h : Stands st s l w) (hc : Selects st c) : ∃ c' l' w',
    (∀ f : Storage → Go α, (Host Y G).exec c l w (selectStorage >>= f) = (Host Y G).exec c' l' w' (f st)) ∧
      (∀ n, Smooth (c' n)) ∧ Stands st s l' w' := by
  obtain ⟨l₁, w₁, he₁, h₁⟩ := exec_probe (Y := Y) (G := G) (c := c) α .ping h
  obtain ⟨l₂, w₂, he₂, h₂⟩ := exec_probe (Y := Y) (G := G) (c := fun n => c (n + 1)) α .newRedis h₁
  have ping : ∀ f : Storage → Go α, (Host Y G).exec c l w (selectStorage >>= f) =
      (Host Y G).exec (fun n => c (n + 1)) l₁ w₁
        (if (c 0).fault = none then
          .call (.probe .newRedis) fun r => f (if r then .redis else .memory)
        else f .memory) := by
    intro f
    have hk := he₁ fun r => (if r then
      .call (.probe .newRedis) fun r => if r then return .redis else return .memory
      else return .memory) >>= f
    refine hk.trans (congrArg _ ?_)
    by_cases hf : (c 0).fault = none
    · rw [decide_eq_true hf, if_pos rfl, if_pos hf]
      simp only [call_bind]
      congr 1
      funext r
      cases r <;> rfl
    · rw [decide_eq_false hf, if_neg hf]
      rfl
  cases st with
  | redis =>
    refine ⟨_, l₂, w₂, fun f => ?_, fun n => hc (n + 2), h₂⟩
    have h0 : (c 0).fault = none := hc 0
    have h1 : (c 1).fault = none := hc 1
    rw [ping, if_pos h0, he₂]
    simp only [Nat.zero_add, h1]
    rfl
  | memory =>
    rcases hc with ⟨h0, hc⟩ | ⟨h0, h1, hc⟩
    · refine ⟨_, l₁, w₁, fun f => ?_, hc, h₁⟩
      rw [ping, if_neg h0]
    · refine ⟨_, l₂, w₂, fun f => ?_, hc, h₂⟩
      have h0 : (c 0).fault = none := h0
      rw [ping, if_pos h0, he₂]
      simp only [Nat.zero_add, h1]
      rfl

/-- `GetIpam` finds the prefix and changes nothing. -/
theorem exec_getIpam (α : Type) (h : Stands st s l w) (hc : Selects st c) : ∃ c' l' w',
    (∀ f : Option Storage → Go α, (Host Y G).exec c l w (getIpam >>= f) =
      (Host Y G).exec c' l' w' (f (some st))) ∧ (∀ n, Smooth (c' n)) ∧ Stands st s l' w' := by
  obtain ⟨c₁, l₁, w₁, he₁, hc₁, h₁⟩ := exec_selectStorage (Y := Y) (G := G) α h hc
  obtain ⟨l₂, w₂, he₂, h₂⟩ := exec_ipam (Y := Y) (G := G) (c := c₁) α (o := .prefixFrom) (r := true) h₁ (hc₁ 0) rfl
  refine ⟨_, l₂, w₂, fun f => ?_, fun n => hc₁ (n + 1), h₂⟩
  unfold getIpam
  rw [Prog.bind_assoc, he₁]
  exact he₂ _

/-- `GetIp` hands out what the storage has chosen. -/
theorem exec_acquire (h : Stands st s l w) (hc : Selects st c) : ∃ rest l' w',
    (Host Y G).exec c l w Call.acquire.program = ⟨some (.address ((G.acquireIP s).getD "")), rest, l', w'⟩ ∧
      Stands st (match G.acquireIP s with | none => s | some a => insert a s) l' w' := by
  obtain ⟨c₁, l₁, w₁, he₁, hc₁, h₁⟩ := exec_getIpam (Y := Y) (G := G) Reply h hc
  have ho : IpamOp.perform G (c₁ 0) (some s) .acquireIP =
      (G.acquireIP s, some (match G.acquireIP s with | none => s | some a => insert a s)) := by
    simp only [IpamOp.perform]
    cases G.acquireIP s <;> rfl
  obtain ⟨l₂, w₂, he₂, h₂⟩ := exec_ipam (Y := Y) (G := G) Reply h₁ (hc₁ 0) ho
  refine ⟨fun n => c₁ (n + 1), l₂, w₂, ?_, h₂⟩
  unfold Call.program getIp
  simp only [bind_assoc]
  rw [he₁]
  refine (he₂ _).trans ?_
  cases G.acquireIP s <;> rfl

/-- `ReleaseIp` takes the address out, or reports that it is not there. -/
theorem exec_release {ipStr a : String} (h : Stands st s l w) (hc : Selects st c) (ht : Writes ipStr a)
    (ha : AddressText a) : ∃ rest l' w', (Host Y G).exec c l w (Call.release ipStr).program =
      ⟨some (.released (decide (a ∈ s))), rest, l', w'⟩ ∧ Stands st (s.erase a) l' w' := by
  obtain ⟨c₁, l₁, w₁, he₁, hc₁, h₁⟩ := exec_getIpam (Y := Y) (G := G) Reply h hc
  have ho : IpamOp.perform G (c₁ 0) (some s) (.releaseIP a) = (decide (a ∈ s), some (s.erase a)) := by
    simp only [IpamOp.perform]
    by_cases hmem : a ∈ s
    · rw [if_pos hmem, decide_eq_true hmem]
    · rw [if_neg hmem, decide_eq_false hmem, Finset.erase_eq_of_notMem hmem]
  obtain ⟨l₂, w₂, he₂, h₂⟩ := exec_ipam (Y := Y) (G := G) Reply h₁ (hc₁ 0) ho
  refine ⟨fun n => c₁ (n + 1), l₂, w₂, ?_, h₂⟩
  unfold Call.program releaseIp
  simp only [bind_assoc]
  rw [he₁]
  dsimp only
  rw [ht.cleanIP ha, if_neg ha.1]
  exact (he₂ _).trans rfl

end Calls

/-- What a call is replied when all is well: a free address, or success. -/
def Served.Fair (x : Served) : Prop :=
  match x.call with
  | .acquire => ∃ ip, x.reply = some (.address ip) ∧ (ip ≠ "" → ∀ s, x.before = some s → ip ∉ s)
  | .release _ => x.reply = some (.released true)

/-- The pool is the initial one together with what is still held. -/
structure Outstanding (s₀ : Finset String) (held : Multiset String) (s : Finset String) : Prop where
  pool : ∀ a, a ∈ s ↔ a ∈ s₀ ∨ a ∈ held
  fresh : ∀ a ∈ held, a ∉ s₀
  nodup : held.Nodup
  host : ∀ a ∈ held, a ∈ hosts

section Sequences
variable {s₀ s : Finset String} {held : Multiset String} {a : String}

theorem Outstanding.acquire (h : Outstanding s₀ held s) (hG : G.Lawful) (ha : G.acquireIP s = some a) :
    Outstanding s₀ (a ::ₘ held) (insert a s) := by
  have hfree := hG.free s a ha
  refine ⟨fun b => ?_, fun b hb => ?_, ?_, fun b hb => ?_⟩
  · rw [Finset.mem_insert, h.pool, Multiset.mem_cons]
    tauto
  · rcases Multiset.mem_cons.mp hb with rfl | hb
    · exact fun hs => hfree ((h.pool b).mpr (.inl hs))
    · exact h.fresh b hb
  · exact Multiset.nodup_cons.mpr ⟨fun hheld => hfree ((h.pool a).mpr (.inr hheld)), h.nodup⟩
  · rcases Multiset.mem_cons.mp hb with rfl | hb
    · exact hG.host s b ha
    · exact h.host b hb

theorem Outstanding.release (h : Outstanding s₀ held s) (ha : a ∈ held) :
    Outstanding s₀ (held.erase a) (s.erase a) := by
  refine ⟨fun b => ?_, fun b hb => h.fresh b (Multiset.mem_of_mem_erase hb), h.nodup.erase a,
    fun b hb => h.host b (Multiset.mem_of_mem_erase hb)⟩
  rw [Finset.mem_erase, h.pool, h.nodup.mem_erase_iff]
  constructor
  · intro ⟨hne, hb⟩
    exact hb.imp id fun hb => ⟨hne, hb⟩
  · intro hb
    rcases hb with hb | ⟨hne, hb⟩
    · refine ⟨fun heq => ?_, .inl hb⟩
      subst heq
      exact h.fresh b ha hb
    · exact ⟨hne, .inr hb⟩

theorem serve_spec {st : Storage} {c : Nat → Nat → Choice} (hG : G.Lawful) (hc : ∀ n, Selects st (c n))
    (xs : List Call) (h : Stands st s l w) (ho : Outstanding s₀ held s)
    (hd : Disciplined held (serve Y G st c l w xs).1) : (∀ x ∈ (serve Y G st c l w xs).1, x.Fair) ∧
      stored st (serve Y G st c l w xs).2.1 (serve Y G st c l w xs).2.2 = some s₀ := by
  induction xs generalizing c l w s held with
  | nil =>
    have hzero : held = 0 := hd
    subst hzero
    have hs : s = s₀ := Finset.ext fun b => (ho.pool b).trans (by simp)
    exact ⟨fun x hx => absurd hx List.not_mem_nil, hs ▸ h.pool⟩
  | cons x xs ih =>
    cases x with
    | acquire =>
      obtain ⟨rest, l', w', he, h'⟩ := exec_acquire (Y := Y) (G := G) h (hc 0)
      simp only [serve, he, h.pool] at hd ⊢
      cases ha : G.acquireIP s with
      | none =>
        rw [ha] at hd h'
        have hd : Disciplined held (serve Y G st (fun n => c (n + 1)) l' w' xs).1 := by simpa [Disciplined] using hd
        obtain ⟨hfair, hend⟩ := ih (fun n => hc (n + 1)) h' ho hd
        refine ⟨fun x hx => ?_, hend⟩
        rcases List.mem_cons.mp hx with rfl | hx
        · exact ⟨"", rfl, fun hne => absurd rfl hne⟩
        · exact hfair x hx
      | some a =>
        rw [ha] at hd h'
        have hne : a ≠ "" := ne_empty_of_mem_hosts (hG.host s a ha)
        have hd : Disciplined (a ::ₘ held) (serve Y G st (fun n => c (n + 1)) l' w' xs).1 := by
          simpa [Disciplined, hne] using hd
        obtain ⟨hfair, hend⟩ := ih (fun n => hc (n + 1)) h' (ho.acquire hG ha) hd
        refine ⟨fun x hx => ?_, hend⟩
        rcases List.mem_cons.mp hx with rfl | hx
        · refine ⟨a, rfl, fun _ s' hs' => ?_⟩
          obtain rfl := Option.some.inj hs'
          exact hG.free s a ha
        · exact hfair x hx
    | release ipStr =>
      obtain ⟨a, ha, ht, hd⟩ := id hd
      have hin : a ∈ s := (ho.pool a).mpr (.inr ha)
      obtain ⟨rest, l', w', he, h'⟩ := exec_release (Y := Y) (G := G) h (hc 0) ht
        (addressText_of_mem_hosts (ho.host a ha))
      simp only [serve, he] at hd ⊢
      obtain ⟨hfair, hend⟩ := ih (fun n => hc (n + 1)) h' (ho.release ha) hd
      refine ⟨fun x hx => ?_, hend⟩
      rcases List.mem_cons.mp hx with rfl | hx
      · change some (Reply.released (decide (a ∈ s))) = some (.released true)
        rw [decide_eq_true hin]
      · exact hfair x hx

/-- In every sequence of calls in which each acquired address is released once, an address that
is handed out was free, every release succeeds, and the pool is in the end what it was. The
release of an address that is not allocated is refused and changes nothing. -/
theorem acquire_release_cancel {st : Storage} {c : Nat → Nat → Choice} (hG : G.Lawful)
    (hc : ∀ n, Selects st (c n)) (h : Stands st s l w) :
    (∀ xs, Disciplined 0 (serve Y G st c l w xs).1 → (∀ x ∈ (serve Y G st c l w xs).1, x.Fair) ∧
      stored st (serve Y G st c l w xs).2.1 (serve Y G st c l w xs).2.2 = some s) ∧
    ∀ ipStr a, Writes ipStr a → AddressText a → a ∉ s →
      (serve Y G st c l w [.release ipStr]).1 = [⟨.release ipStr, some (.released false), some s⟩] ∧
      stored st (serve Y G st c l w [.release ipStr]).2.1 (serve Y G st c l w [.release ipStr]).2.2 = some s := by
  constructor
  · intro xs hd
    exact serve_spec hG hc xs h ⟨fun b => by simp, by simp, Multiset.nodup_zero, by simp⟩ hd
  · intro ipStr a ht ha hn
    obtain ⟨rest, l', w', he, h'⟩ := exec_release (Y := Y) (G := G) h (hc 0) ht ha
    rw [Finset.erase_eq_of_notMem hn] at h'
    simp only [serve, he, h.pool, decide_eq_false hn]
    exact ⟨trivial, h'.pool⟩

end Sequences

end Pool

namespace Sample
open Pool

def reserved : Finset String := {host 0, host 255, host 254}

/-- The wired host with a fresh pool. -/
def pooled : World := { wired with pool := some reserved }

/-- Two addresses that are handed back in the order in which they came. -/
def exchange : List Pool.Call := [.acquire, .acquire, .release " 10.0.0.1/24 ", .release "10.0.0.2"]

end Sample
open Sample Pool

theorem exchange_cancels :
    (∀ x ∈ (serve yaml lowestFree .redis (fun _ _ => ({} : Choice)) caller pooled exchange).1, x.Fair) ∧
      (serve yaml lowestFree .redis (fun _ _ => ({} : Choice)) caller pooled exchange).2.2.pool =
        some reserved := by
  have hstands : Stands .redis reserved caller pooled := ⟨⟨⟨5, 5, .cli, 1, "", false⟩, by decide, by decide⟩, rfl⟩
  have hlog : (serve yaml lowestFree .redis (fun _ _ => ({} : Choice)) caller pooled exchange).1 =
      [⟨.acquire, some (.address "10.0.0.1"), some reserved⟩,
        ⟨.acquire, some (.address "10.0.0.2"), some (insert (host 1) reserved)⟩,
        ⟨.release " 10.0.0.1/24 ", some (.released true), some (insert (host 2) (insert (host 1) reserved))⟩,
        ⟨.release "10.0.0.2", some (.released true), some (insert (host 2) reserved)⟩] := by
    decide +kernel
  have hselects : ∀ _ : Nat, Selects .redis fun _ => ({} : Choice) := fun _ _ => rfl
  refine (acquire_release_cancel (c := fun _ _ => ({} : Choice)) lowestFree_lawful hselects hstands).1
    exchange ?_
  rw [hlog]
  have hspace : ∀ c ∈ " ".toList, isSpace c = true := List.all_eq_true.mp (by decide)
  have hnone : ∀ c ∈ "".toList, isSpace c = true := List.all_eq_true.mp (by decide)
  refine ⟨"10.0.0.1", by decide, ⟨" ", " ", hspace, hspace, .inr ⟨24, by decide⟩⟩, ?_⟩
  refine ⟨"10.0.0.2", by decide, ⟨"", "", hnone, hnone, .inl (by decide)⟩, ?_⟩
  change ((("10.0.0.2" ::ₘ "10.0.0.1" ::ₘ 0 : Multiset String).erase "10.0.0.1").erase "10.0.0.2") = 0
  decide

end PrivatePaas
