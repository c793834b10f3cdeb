import PrivatePaas.Conduct.Watch

/-!
# Registry, pool and processes as the books that a command keeps

The abstract model of the ledger: the decoded registry, the pool in Redis and the
process table, with a page for every invocation that is under way. `Move` lists what
one operation can do to them. With `up` Redis answers every operation, with `hit` no
SIGKILL fails.
-/

namespace PrivatePaas
set_option autoImplicit false
open Files Text Effects Network PrivatePaas.Parser

/-- A registry entry: the record and the invocation that wrote it. -/
abbrev Registry := String → Option (Cmd.Service × Nat)

structure Books where
  registry : Registry
  pool : Option (Finset String)
  procs : Procs
  lessee : String → Option Nat
  freed : Finset Nat
  nextId : Nat

structure Page where
  id : Nat
  pid : Nat
  pgid : Nat
  stage : Stage
  offline : Bool
  unreserved : Bool
  target : Nat

def World.books (Y : Yaml) (w : World) : Books where
  registry key := (w.kv key).map fun e => (Y.decode e.value, e.author)
  pool := w.pool
  procs := w.procs
  lessee := w.past.lessee
  freed := w.past.freed
  nextId := w.nextId

def Local.page (l : Local) : Page where
  id := l.id
  pid := l.pid
  pgid := l.pgid
  stage := l.ledger.stage
  offline := l.ledger.offline
  unreserved := l.ledger.unreserved
  target := l.target

namespace Page

/-- The page after an operation that has answered with `r`. -/
def observe (Y : Yaml) (p : Page) (w : World) (o : Op) (r : o.Ret) : Page :=
  { p with
    stage := p.stage.next Y o r
    offline := Ledger.offlineAfter p.offline o r
    unreserved := Ledger.unreservedAfter p.unreserved o r
    target := match o with
      | .kv (.get key) => ((w.kv key).map Entry.author).getD 0
      | _ => p.target }

def aims (p : Page) (n : Int) : Proc → Bool := Procs.named (pidArg n) p.pid p.pgid

/-- What a successful SIGKILL leaves. -/
def spares (p : Page) (n : Int) (q : Proc) : Bool := ! p.aims n q || q.pid = 1

/-- The process of the invocation. -/
def own (p : Page) (q : Proc) : Bool := q.pid = p.pid ∧ q.owner = p.id ∧ q.role = .cli

end Page

/-- The child of an invocation. -/
def child (p : Page) (pid : Nat) (ip : String) : Proc where
  pid := pid
  pgid := pid
  role := .workload
  owner := p.id
  ip := ip

/-- Whether an operation needs Redis. -/
def Op.OnRedis : Op → Prop
  | .kv _ => True
  | .probe _ => True
  | .ipam .redis _ => True
  | _ => False

/-- Where an operation on a pool that is lost to the others can lead. -/
def Stage.Strays (s s' : Stage) : Prop :=
  s' = s ∨ (∃ known a, s = .holding known "" ∧ s' = .holding known a) ∨
    ∃ key rec, s = .reading key rec ∧ s' = .released key rec

/-- An operation that leaves no trace in the books. -/
def Op.Silent : Op → Prop
  | .kv _ => False
  | .ipam _ .prefixFrom => True
  | .ipam _ _ => False
  | .proc (.kill _ .sigkill) => False
  | _ => True

/-- What the answer of an operation without effect says about the books. -/
def Op.Truthful (b : Books) : (o : Op) → o.Ret → Prop
  | .proc (.start _), r => r = none
  | .ipam _ .prefixFrom, r => r = true → b.pool ≠ none
  | _, _ => True

inductive Move (G : GoIpam) (up hit : Prop) (p : Page) (b : Books) :
    (o : Op) → o.Ret → Page → Books → Prop where
  | silent (o : Op) {r : o.Ret} (h : o.Silent) (hr : o.Truthful b r) : Move G up hit p b o r p b
  | outset (path : Path) (s : Stage) {r : Except Err String} (h : p.stage = .outset)
      (hs : s = .done ∨ ∃ known, s = .holding known "") :
      Move G up hit p b (.fs (.readFile path)) r { p with stage := s } b
  | offline (o : ProbeOp) {r : Bool} (h : ¬ up) :
      Move G up hit p b (.probe o) r { p with offline := true } b
  | stray (st : Storage) (o : IpamOp) (s : Stage) (u : Bool) (pool : Option (Finset String))
      (lessee : String → Option Nat) (freed : Finset Nat) {r : o.Ret} (h : up → p.offline = true)
      (hs : p.stage.Strays s) :
      Move G up hit p b (.ipam st o) r { p with stage := s, unreserved := u }
        { b with pool := pool, lessee := lessee, freed := freed }
  | format {r : NewPrefix} (h : b.pool = none) :
      Move G up hit p b (.ipam .redis .newPrefix) r { p with unreserved := true }
        { b with pool := some {host 0, host 255} }
  | found (s : Finset String) (u : Bool) {r : NewPrefix} (h : b.pool = some s)
      (hu : u = true ∨ u = p.unreserved) :
      Move G up hit p b (.ipam .redis .newPrefix) r { p with unreserved := u } b
  | reserve (s : Finset String) (a : String) {r : Option String} (h : b.pool = some s) (ha : a ∉ s)
      (hr : a = if p.unreserved then host 254 else host 1) :
      Move G up hit p b (.ipam .redis (.acquireSpecificIP a)) r { p with unreserved := false }
        { b with pool := some (insert a s), lessee := Function.update b.lessee a none }
  | reserved (a : String) {r : Option String} (h : ∀ s, b.pool = some s → a ∈ s)
      (hr : a = if p.unreserved then host 254 else host 1) :
      Move G up hit p b (.ipam .redis (.acquireSpecificIP a)) r { p with unreserved := false } b
  | claim (known : Bool) (s : Finset String) (a : String) {r : Option String}
      (hs : p.stage = .holding known "") (hu : p.unreserved = false) (h : b.pool = some s)
      (ha : G.acquireIP s = some a) :
      Move G up hit p b (.ipam .redis .acquireIP) r { p with stage := .holding known a }
        { b with pool := some (insert a s), lessee := Function.update b.lessee a (some p.id) }
  | exhausted {r : Option String} (h : ∀ s, b.pool = some s → G.acquireIP s = none) :
      Move G up hit p b (.ipam .redis .acquireIP) r p b
  | release (key : String) (rec : Cmd.Service) (s : Finset String) (a : String) {r : Bool}
      (hs : p.stage = .reading key rec) (hip : rec.ip ≠ "") (hu : p.unreserved = false)
      (ha : a = cleanIP rec.ip) (h : b.pool = some s) (hm : a ∈ s) :
      Move G up hit p b (.ipam .redis (.releaseIP a)) r { p with stage := .released key rec }
        { b with pool := some (s.erase a), freed := insert p.target b.freed }
  | refuse (key : String) (rec : Cmd.Service) (a : String) {r : Bool}
      (hs : p.stage = .reading key rec) (hip : rec.ip ≠ "") (ha : a = cleanIP rec.ip)
      (h : ∀ s, b.pool = some s → a ∉ s) :
      Move G up hit p b (.ipam .redis (.releaseIP a)) r { p with stage := .released key rec } b
  | start (cmd : Command) (known : Bool) (ip : String) (pid : Nat) (hc : cmd.isWorkload = true)
      (hs : p.stage = .holding known ip) (hfree : b.procs.Free pid) (hlo : 1 < pid)
      (hhi : pid < pidMax) :
      Move G up hit p b (.proc (.start cmd)) (some pid) { p with stage := .running ip pid }
        { b with procs := b.procs.add (child p pid ip) hfree }
  | startEnvoy (cmd : Command) (q : Proc) (hc : cmd.isWorkload = false) (hq : q.role = .envoy)
      (hfree : b.procs.Free q.pid) (hlo : 1 < q.pid) (hhi : q.pid < pidMax) :
      Move G up hit p b (.proc (.start cmd)) (some q.pid) p { b with procs := b.procs.add q hfree }
  | kill (key : String) (rec : Cmd.Service) {r : Option Errno}
      (hs : p.stage = .reading key rec ∨ p.stage = .released key rec) :
      Move G up hit p b (.proc (.kill (atoi rec.pid).1 .sigkill)) r { p with stage := .killed key rec }
        { b with procs := b.procs.keep (p.spares (atoi rec.pid).1) }
  | killFails (key : String) (rec : Cmd.Service) {r : Option Errno}
      (hs : p.stage = .reading key rec ∨ p.stage = .released key rec) (h : ¬ hit) :
      Move G up hit p b (.proc (.kill (atoi rec.pid).1 .sigkill)) r
        { p with stage := .killed key rec } b
  | term (n : Int) {r : Option Errno} :
      Move G up hit p b (.proc (.kill n .sigterm)) r p { b with procs := b.procs.term (p.aims n) }
  | set (key text : String) (rec : Cmd.Service) {r : Bool}
      (hs : (∃ known, p.stage = .holding known rec.ip) ∨
        ∃ pid : Nat, p.stage = .running rec.ip pid ∧ rec.pid = itoa pid) :
      Move G up hit p b (.kv (.set key text)) r { p with stage := .done }
        { b with registry := Function.update b.registry key (some (rec, p.id)) }
  | setFails (key text : String) (rec : Cmd.Service) {r : Bool}
      (hs : (∃ known, p.stage = .holding known rec.ip) ∨
        ∃ pid : Nat, p.stage = .running rec.ip pid ∧ rec.pid = itoa pid) (h : ¬ up) :
      Move G up hit p b (.kv (.set key text)) r { p with stage := .done } b
  | get (key : String) (rec : Cmd.Service) (author : Nat) {r : Option String} (hs : p.stage = .asked key)
      (h : b.registry key = some (rec, author)) :
      Move G up hit p b (.kv (.get key)) r { p with stage := .reading key rec, target := author } b
  | miss (key : String) (t : Nat) {r : Option String} (hs : p.stage = .asked key)
      (h : up → b.registry key = none) :
      Move G up hit p b (.kv (.get key)) r { p with stage := .done, target := t } b
  | del (key : String) (rec : Cmd.Service) {r : Bool} (hs : p.stage = .killed key rec) :
      Move G up hit p b (.kv (.del key)) r { p with stage := .done }
        { b with registry := Function.update b.registry key none }
  | delFails (key : String) (rec : Cmd.Service) {r : Bool} (hs : p.stage = .killed key rec) (h : ¬ up) :
      Move G up hit p b (.kv (.del key)) r { p with stage := .done } b

section Refinement
variable {Y : Yaml} {G : GoIpam} {up hit : Prop} {c : Choice} {l : Local} {w : World}

/-- What an operation does to the books, as a move. -/
def Moves (Y : Yaml) (G : GoIpam) (up hit : Prop) (c : Choice) (l : Local) (w : World) (o : Op) :
    Prop :=
  Move G up hit l.page (w.books Y) o (perform Y G c l w o).1 (perform Y G c l w o).2.1.page
    ((perform Y G c l w o).2.2.books Y)

/-- It is enough to know the answer, the rest of the world and the labels. -/
theorem moves_of {o : Op} {r : o.Ret} {mem : Option (Finset String)} {w' : World}
    (h : attempt G c l w o = (r, mem, w'))
    (hm : Move G up hit l.page (w.books Y) o r (l.page.observe Y w o r)
      (World.books Y { w' with past := w'.past.record l w o r })) : Moves Y G up hit c l w o := by
  have hp : (perform Y G c l w o).2.1.page = l.page.observe Y w o (attempt G c l w o).1 := by
    cases o with
    | kv o => cases o <;> rfl
    | _ => rfl
  have hr : (perform Y G c l w o).1 = (attempt G c l w o).1 := rfl
  have hb : (perform Y G c l w o).2.2 = { (attempt G c l w o).2.2 with
      past := (attempt G c l w o).2.2.past.record l w o (attempt G c l w o).1 } := rfl
  unfold Moves
  rw [hp, hr, hb, h]
  exact hm

theorem attempt_ok {o : Op} (h : c.fault = none) : attempt G c l w o = act G c l w o := by
  unfold attempt
  rw [h]

theorem attempt_zero {o : Op} (h : c.fault = some 0) :
    attempt G c l w o = (o.failure, l.mem, w) := by
  unfold attempt
  rw [h]

theorem attempt_succ {o : Op} {n : Nat} (h : c.fault = some (n + 1)) :
    attempt G c l w o = match o.remnant n with
      | none => (o.failure, l.mem, w)
      | some o' => (o.failure, (act G c l w o').2) := by
  cases hr : o.remnant n with
  | none => simp only [attempt, h, hr]
  | some o' => simp only [attempt, h, hr]

theorem attempt_fs (o : FsOp) : ∃ r t, attempt G c l w (.fs o) = (r, l.mem, { w with fs := t }) := by
  cases hf : c.fault with
  | none => exact ⟨_, _, attempt_ok hf⟩
  | some n =>
    cases n with
    | zero => exact ⟨_, w.fs, attempt_zero hf⟩
    | succ n => cases o <;> exact ⟨_, _, attempt_succ hf⟩

theorem attempt_net (o : NetOp) : ∃ r n, attempt G c l w (.net o) = (r, l.mem, { w with net := n }) := by
  cases hf : c.fault with
  | none => exact ⟨_, _, attempt_ok hf⟩
  | some n =>
    cases n with
    | zero => exact ⟨_, w.net, attempt_zero hf⟩
    | succ n => exact ⟨_, _, attempt_succ hf⟩

theorem moves_fs (o : FsOp) : Moves Y G up hit c l w (.fs o) := by
  obtain ⟨r, t, h⟩ := attempt_fs (G := G) (c := c) (l := l) (w := w) o
  refine moves_of h ?_
  cases o with
  | readFile path =>
    by_cases hs : l.ledger.stage = .outset
    · refine Move.outset path _ hs ?_
      cases r with
      | error e => exact .inl (by simp [Local.page, Stage.next, hs, Stage.afterRead])
      | ok data =>
        cases hf : Y.unmarshalFile data with
        | none => exact .inl (by simp [Local.page, Stage.next, hs, Stage.afterRead, hf])
        | some f => exact .inr ⟨_, by simp [Local.page, Stage.next, hs, Stage.afterRead, hf]; rfl⟩
    · have hn : l.page.observe Y w (.fs (.readFile path)) r = l.page := by
        simp only [Page.observe, Stage.next]
        rw [Stage.afterRead_of_ne (show l.page.stage ≠ .outset from hs)]
        rfl
      rw [hn]
      exact .silent _ trivial trivial
  | _ => exact .silent _ trivial trivial

theorem moves_net (o : NetOp) : Moves Y G up hit c l w (.net o) := by
  obtain ⟨r, n, h⟩ := attempt_net (G := G) (c := c) (l := l) (w := w) o
  exact moves_of h (.silent _ trivial trivial)

theorem moves_probe (o : ProbeOp) (hup : up → c.fault = none) :
    Moves Y G up hit c l w (.probe o) := by
  cases hf : c.fault with
  | none =>
    refine moves_of (attempt_ok hf) ?_
    have h : l.page.observe Y w (.probe o) true = l.page := by
      simp [Page.observe, Stage.next, Ledger.offlineAfter, Ledger.unreservedAfter]
    rw [h]
    exact .silent _ trivial trivial
  | some n =>
    have hr : attempt G c l w (.probe o) = (false, l.mem, w) := by
      cases n with
      | zero => exact attempt_zero hf
      | succ n => exact attempt_succ hf
    refine moves_of hr ?_
    have h : l.page.observe Y w (.probe o) false = { l.page with offline := true } := by
      simp [Page.observe, Stage.next, Ledger.offlineAfter, Ledger.unreservedAfter]
    rw [h]
    refine .offline o fun hu => ?_
    rw [hup hu] at hf
    cases hf

theorem moves_kv (o : KvOp) (hok : (ledger Y).ok l.ledger (.kv o)) (hY : Y.Lawful)
    (hup : up → c.fault = none) : Moves Y G up hit c l w (.kv o) := by
  have down : ∀ n, c.fault = some n → ¬ up := by
    intro n hf hu
    rw [hup hu] at hf
    cases hf
  cases o with
  | get key =>
    have hs : l.page.stage = .asked key := hok.1
    have hnone : l.page.observe Y w (.kv (.get key)) none =
        { l.page with stage := .done, target := ((w.kv key).map Entry.author).getD 0 } := by
      simp [Page.observe, Stage.next, hs, Stage.afterGet, Ledger.offlineAfter,
        Ledger.unreservedAfter]
    cases hf : c.fault with
    | none =>
      cases he : w.kv key with
      | none =>
        have hr : attempt G c l w (.kv (.get key)) = (none, l.mem, w) := by
          rw [attempt_ok hf]
          simp [act, KvOp.perform, he]
        refine moves_of hr ?_
        rw [hnone]
        exact .miss key _ hs fun _ => by simp [World.books, he]
      | some e =>
        have hr : attempt G c l w (.kv (.get key)) = (some e.value, l.mem, w) := by
          rw [attempt_ok hf]
          simp [act, KvOp.perform, he]
        refine moves_of hr ?_
        have hp : l.page.observe Y w (.kv (.get key)) (some e.value) =
            { l.page with stage := .reading key (Y.decode e.value), target := e.author } := by
          simp [Page.observe, Stage.next, hs, Stage.afterGet, he, Ledger.offlineAfter,
            Ledger.unreservedAfter]
        rw [hp]
        exact .get key _ _ hs (by simp [World.books, he])
    | some n =>
      have hr : attempt G c l w (.kv (.get key)) = (none, l.mem, w) := by
        cases n with
        | zero => exact attempt_zero hf
        | succ n => exact attempt_succ hf
      refine moves_of hr ?_
      rw [hnone]
      exact .miss key _ hs fun hu => absurd hu (down n hf)
  | set key text =>
    obtain ⟨rec, rfl, hs⟩ := hok.1
    have hp : ∀ r, l.page.observe Y w (.kv (.set key (Y.marshalRecord rec))) r =
        { l.page with stage := .done } := by
      intro r
      rcases hs with ⟨known, hs⟩ | ⟨pid, hs, _⟩
      · simp [Page.observe, Local.page, Stage.next, hs, Stage.afterSet, Ledger.offlineAfter,
          Ledger.unreservedAfter]
      · simp [Page.observe, Local.page, Stage.next, hs, Stage.afterSet, Ledger.offlineAfter,
          Ledger.unreservedAfter]
    have hb : World.books Y { w with kv := Function.update w.kv key (some ⟨Y.marshalRecord rec, l.id⟩) } =
        { w.books Y with
          registry := Function.update (w.books Y).registry key (some (rec, l.page.id)) } := by
      simp only [World.books, Books.mk.injEq, and_true]
      funext k
      by_cases hk : k = key
      · subst k
        simp [hY.decode_marshal, Local.page]
      · simp [Function.update_of_ne hk]
    cases hf : c.fault with
    | none =>
      refine moves_of (attempt_ok hf) ?_
      rw [hp]
      exact hb ▸ Move.set key _ rec hs
    | some n =>
      cases n with
      | zero =>
        refine moves_of (attempt_zero hf) ?_
        rw [hp]
        exact .setFails key _ rec hs (down _ hf)
      | succ n =>
        refine moves_of (attempt_succ hf) ?_
        rw [hp]
        exact hb ▸ Move.set key _ rec hs
  | del key =>
    obtain ⟨rec, hs⟩ := hok.1
    have hp : ∀ r, l.page.observe Y w (.kv (.del key)) r = { l.page with stage := .done } := by
      intro r
      simp [Page.observe, Local.page, Stage.next, hs, Stage.afterDel, Ledger.offlineAfter,
        Ledger.unreservedAfter]
    have hb : World.books Y { w with kv := Function.update w.kv key none } =
        { w.books Y with registry := Function.update (w.books Y).registry key none } := by
      simp only [World.books, Books.mk.injEq, and_true]
      funext k
      by_cases hk : k = key
      · subst k
        simp
      · simp [Function.update_of_ne hk]
    cases hf : c.fault with
    | none =>
      refine moves_of (attempt_ok hf) ?_
      rw [hp]
      exact hb ▸ Move.del key rec hs
    | some n =>
      cases n with
      | zero =>
        refine moves_of (attempt_zero hf) ?_
        rw [hp]
        exact .delFails key rec hs (down _ hf)
      | succ n =>
        refine moves_of (attempt_succ hf) ?_
        rw [hp]
        exact hb ▸ Move.del key rec hs

theorem attempt_redis (o : IpamOp) :
    ∃ r pool, attempt G c l w (.ipam .redis o) = (r, l.mem, { w with pool := pool }) := by
  cases hf : c.fault with
  | none => exact ⟨_, _, attempt_ok hf⟩
  | some n =>
    cases n with
    | zero => exact ⟨_, w.pool, attempt_zero hf⟩
    | succ n => exact ⟨_, _, attempt_succ hf⟩

theorem attempt_memory (o : IpamOp) :
    ∃ r mem, attempt G c l w (.ipam .memory o) = (r, mem, w) := by
  cases hf : c.fault with
  | none => exact ⟨_, _, attempt_ok hf⟩
  | some n =>
    cases n with
    | zero => exact ⟨_, _, attempt_zero hf⟩
    | succ n => exact ⟨_, _, attempt_succ hf⟩

theorem strays_ipam {st : Storage} {o : IpamOp} (hok : (ledger Y).ok l.ledger (.ipam st o))
    (r : o.Ret) : l.ledger.stage.Strays (l.ledger.stage.next Y (.ipam st o) r) := by
  cases o with
  | prefixFrom => exact .inl rfl
  | newPrefix => exact .inl rfl
  | acquireSpecificIP a => exact .inl rfl
  | acquireIP =>
    obtain ⟨known, hs⟩ := hok.1
    exact .inr (.inl ⟨known, r.getD "", hs, by simp [Stage.next, hs, Stage.afterAcquire]⟩)
  | releaseIP a =>
    obtain ⟨key, rec, hs, _⟩ := hok.1
    exact .inr (.inr ⟨key, rec, hs, by simp [Stage.next, hs, Stage.afterRelease]⟩)

/-- An operation on a pool that the others do not see, or one that fails. -/
theorem moves_stray {st : Storage} {o : IpamOp} {r : o.Ret} {mem pool : Option (Finset String)}
    (hok : (ledger Y).ok l.ledger (.ipam st o)) (hup : up → l.ledger.offline = true)
    (h : attempt G c l w (.ipam st o) = (r, mem, { w with pool := pool })) :
    Moves Y G up hit c l w (.ipam st o) :=
  moves_of h (.stray st o _ _ pool _ _ hup (strays_ipam hok r))

theorem moves_newPrefix (hf : c.fault = none) : Moves Y G up hit c l w (.ipam .redis .newPrefix) := by
  have hp : ∀ r, l.page.observe Y w (.ipam .redis .newPrefix) r =
      { l.page with unreserved := l.page.unreserved || r != .failed } := fun _ => rfl
  cases hpool : w.pool with
  | none =>
    have h : attempt G c l w (.ipam .redis .newPrefix) =
        (.created, l.mem, { w with pool := some {host 0, host 255} }) := by
      rw [attempt_ok hf]
      simp only [act, IpamOp.perform, hpool]
    refine moves_of h ?_
    rw [hp, show (l.page.unreserved || NewPrefix.created != .failed) = true by simp]
    exact .format hpool
  | some s =>
    have h : attempt G c l w (.ipam .redis .newPrefix) =
        (if c.refuse then .failed else .already, l.mem, { w with pool := some s }) := by
      rw [attempt_ok hf]
      simp only [act, IpamOp.perform, hpool]
    have hw : { w with pool := some s } = w := by rw [← hpool]
    rw [hw] at h
    refine moves_of h ?_
    rw [hp]
    refine .found s _ hpool ?_
    cases c.refuse <;> simp

theorem moves_acquireSpecific {a : String} (hf : c.fault = none)
    (hok : (ledger Y).ok l.ledger (.ipam .redis (.acquireSpecificIP a))) :
    Moves Y G up hit c l w (.ipam .redis (.acquireSpecificIP a)) := by
  have hp : ∀ r, l.page.observe Y w (.ipam .redis (.acquireSpecificIP a)) r =
      { l.page with unreserved := false } := fun _ => rfl
  have hr : a = if l.page.unreserved then host 254 else host 1 := by
    have h := hok.2.2
    change if l.ledger.unreserved = true then a = host 254 else a = host 1 at h
    change a = if l.ledger.unreserved = true then host 254 else host 1
    by_cases hu : l.ledger.unreserved = true
    · rwa [if_pos hu] at h ⊢
    · rwa [if_neg hu] at h ⊢
  by_cases hm : ∃ s, w.pool = some s ∧ a ∉ s
  · obtain ⟨s, hpool, ha⟩ := hm
    have h : attempt G c l w (.ipam .redis (.acquireSpecificIP a)) =
        (some a, l.mem, { w with pool := some (insert a s) }) := by
      rw [attempt_ok hf]
      simp only [act, IpamOp.perform, hpool, if_neg ha]
    refine moves_of h ?_
    rw [hp]
    exact .reserve s a hpool ha hr
  · have h : attempt G c l w (.ipam .redis (.acquireSpecificIP a)) = (none, l.mem, w) := by
      rw [attempt_ok hf]
      cases hpool : w.pool with
      | none =>
        simp only [act, IpamOp.perform, hpool]
        rw [← hpool]
      | some s =>
        have ha : a ∈ s := by
          by_contra hn
          exact hm ⟨s, hpool, hn⟩
        simp only [act, IpamOp.perform, hpool, if_pos ha]
        rw [← hpool]
    refine moves_of h ?_
    rw [hp]
    refine .reserved a (fun s hs => ?_) hr
    by_contra hn
    exact hm ⟨s, hs, hn⟩

theorem moves_acquireIP (hf : c.fault = none)
    (hok : (ledger Y).ok l.ledger (.ipam .redis .acquireIP)) :
    Moves Y G up hit c l w (.ipam .redis .acquireIP) := by
  obtain ⟨⟨known, hs⟩, _, hu⟩ := hok
  by_cases hm : ∃ s a, w.pool = some s ∧ G.acquireIP s = some a
  · obtain ⟨s, a, hpool, ha⟩ := hm
    have h : attempt G c l w (.ipam .redis .acquireIP) =
        (some a, l.mem, { w with pool := some (insert a s) }) := by
      rw [attempt_ok hf]
      simp only [act, IpamOp.perform, hpool, ha]
    have hp : l.page.observe Y w (.ipam .redis .acquireIP) (some a) =
        { l.page with stage := .holding known a } := by
      simp [Page.observe, Local.page, Stage.next, hs, Stage.afterAcquire, Ledger.offlineAfter,
        Ledger.unreservedAfter]
    refine moves_of h ?_
    rw [hp]
    exact .claim known s a hs hu hpool ha
  · have hn : ∀ s, w.pool = some s → G.acquireIP s = none := by
      intro s hpool
      by_contra hne
      obtain ⟨a, ha⟩ := Option.ne_none_iff_exists'.mp hne
      exact hm ⟨s, a, hpool, ha⟩
    have h : attempt G c l w (.ipam .redis .acquireIP) = (none, l.mem, w) := by
      rw [attempt_ok hf]
      cases hpool : w.pool with
      | none =>
        simp only [act, IpamOp.perform, hpool]
        rw [← hpool]
      | some s =>
        simp only [act, IpamOp.perform, hpool, hn s hpool]
        rw [← hpool]
    have hp : l.page.observe Y w (.ipam .redis .acquireIP) none = l.page := by
      simp [Page.observe, Local.page, Stage.next, hs, Stage.afterAcquire, Ledger.offlineAfter,
        Ledger.unreservedAfter]
    refine moves_of h ?_
    rw [hp]
    exact .exhausted hn

theorem moves_releaseIP {a : String} (hf : c.fault = none)
    (hok : (ledger Y).ok l.ledger (.ipam .redis (.releaseIP a))) :
    Moves Y G up hit c l w (.ipam .redis (.releaseIP a)) := by
  obtain ⟨⟨key, rec, hs, hip, ha, _⟩, _, hu⟩ := hok
  have hp : ∀ r, l.page.observe Y w (.ipam .redis (.releaseIP a)) r =
      { l.page with stage := .released key rec } := by
    intro r
    simp [Page.observe, Local.page, Stage.next, hs, Stage.afterRelease, Ledger.offlineAfter,
      Ledger.unreservedAfter]
  by_cases hm : ∃ s, w.pool = some s ∧ a ∈ s
  · obtain ⟨s, hpool, hmem⟩ := hm
    have h : attempt G c l w (.ipam .redis (.releaseIP a)) =
        (true, l.mem, { w with pool := some (s.erase a) }) := by
      rw [attempt_ok hf]
      simp only [act, IpamOp.perform, hpool, if_pos hmem]
    refine moves_of h ?_
    rw [hp]
    exact .release key rec s a hs hip hu ha hpool hmem
  · have hn : ∀ s, w.pool = some s → a ∉ s := fun s hpool hmem => hm ⟨s, hpool, hmem⟩
    have h : attempt G c l w (.ipam .redis (.releaseIP a)) = (false, l.mem, w) := by
      rw [attempt_ok hf]
      cases hpool : w.pool with
      | none =>
        simp only [act, IpamOp.perform, hpool]
        rw [← hpool]
      | some s =>
        simp only [act, IpamOp.perform, hpool, if_neg (hn s hpool)]
        rw [← hpool]
    refine moves_of h ?_
    rw [hp]
    exact .refuse key rec a hs hip ha hn

theorem moves_ipam (st : Storage) (o : IpamOp) (hok : (ledger Y).ok l.ledger (.ipam st o))
    (hup : up → st = .redis → c.fault = none) : Moves Y G up hit c l w (.ipam st o) := by
  cases st with
  | memory =>
    obtain ⟨r, mem, h⟩ := attempt_memory (G := G) (c := c) (l := l) (w := w) o
    exact moves_stray hok (fun _ => hok.2.1 rfl) h
  | redis =>
    cases hf : c.fault with
    | some n =>
      obtain ⟨r, pool, h⟩ := attempt_redis (G := G) (c := c) (l := l) (w := w) o
      refine moves_stray hok (fun hu => ?_) h
      rw [hup hu rfl] at hf
      cases hf
    | none =>
      cases o with
      | prefixFrom =>
        refine moves_of (attempt_ok hf) (.silent _ trivial fun hr hn => ?_)
        change w.pool = none at hn
        change w.pool.isSome = true at hr
        rw [hn] at hr
        cases hr
      | newPrefix => exact moves_newPrefix hf
      | acquireSpecificIP a => exact moves_acquireSpecific hf hok
      | acquireIP => exact moves_acquireIP hf hok
      | releaseIP a => exact moves_releaseIP hf hok

/-- What Redis answers to `AcquireIP` is what go-ipam chooses from the pool. -/
theorem perform_acquireIP (hf : c.fault = none) :
    (perform Y G c l w (.ipam .redis .acquireIP)).1 = w.pool.bind G.acquireIP := by
  change (attempt G c l w (.ipam .redis .acquireIP)).1 = _
  rw [attempt_ok hf]
  simp only [act, IpamOp.perform]
  cases hpool : w.pool with
  | none => rfl
  | some s => cases ha : G.acquireIP s <;> simp [ha]

theorem moves_start (cmd : Command) (hok : (ledger Y).ok l.ledger (.proc (.start cmd))) :
    Moves Y G up hit c l w (.proc (.start cmd)) := by
  have hnone : l.page.observe Y w (.proc (.start cmd)) none = l.page := by
    cases hs : l.ledger.stage <;> simp [Page.observe, Local.page, Stage.next, hs,
      Stage.afterStart, Ledger.offlineAfter, Ledger.unreservedAfter]
  have hfail : attempt G c l w (.proc (.start cmd)) = (none, l.mem, w) →
      Moves Y G up hit c l w (.proc (.start cmd)) := by
    intro h
    refine moves_of h ?_
    rw [hnone]
    have : World.books Y { w with past := w.past.record l w (.proc (.start cmd)) none } =
        w.books Y := by
      simp [World.books, Past.record]
    rw [this]
    exact .silent _ trivial rfl
  cases hf : c.fault with
  | some n =>
    refine hfail ?_
    cases n with
    | zero => exact attempt_zero hf
    | succ n => exact attempt_succ hf
  | none =>
    by_cases hfree : w.procs.Free c.pid ∧ 1 < c.pid ∧ c.pid < pidMax
    · have h : attempt G c l w (.proc (.start cmd)) = (some c.pid, l.mem,
          { w with
            procs := w.procs.add (l.started cmd c.pid) hfree.1
            net := w.net.addNamespace c.pid }) := by
        rw [attempt_ok hf]
        simp only [act, World.performProc, World.start, dif_pos hfree]
      refine moves_of h ?_
      have hb : (Past.record w.past l w (.proc (.start cmd)) (some c.pid)).lessee = w.past.lessee ∧
          (Past.record w.past l w (.proc (.start cmd)) (some c.pid)).freed = w.past.freed := by
        cases hc : cmd.isWorkload <;> simp [Past.record, hc]
      simp only [World.books, hb.1, hb.2]
      cases hc : cmd.isWorkload with
      | true =>
        obtain ⟨known, ip, hs⟩ := hok.1 hc
        have hp : l.page.observe Y w (.proc (.start cmd)) (some c.pid) =
            { l.page with stage := .running ip c.pid } := by
          simp [Page.observe, Local.page, Stage.next, hs, hc, Stage.afterStart,
            Ledger.offlineAfter, Ledger.unreservedAfter]
        have hq : l.started cmd c.pid = child l.page c.pid ip := by
          simp [Local.started, child, Local.page, hc, hs]
        rw [hp]
        simp only [hq]
        exact .start cmd known ip c.pid hc hs hfree.1 hfree.2.1 hfree.2.2
      | false =>
        have hp : l.page.observe Y w (.proc (.start cmd)) (some c.pid) = l.page := by
          simp [Page.observe, Local.page, Stage.next, hc, Ledger.offlineAfter,
            Ledger.unreservedAfter]
        rw [hp]
        exact .startEnvoy cmd (l.started cmd c.pid) hc (by simp [Local.started, hc]) hfree.1 hfree.2.1 hfree.2.2
    · refine hfail ?_
      rw [attempt_ok hf]
      simp only [act, World.performProc, World.start, dif_neg hfree]

theorem moves_kill (n : Int) (sg : Signal) (hok : (ledger Y).ok l.ledger (.proc (.kill n sg)))
    (hhit : hit → sg = .sigkill → c.fault = none) : Moves Y G up hit c l w (.proc (.kill n sg)) := by
  have failed : ∀ k, c.fault = some k →
      attempt G c l w (.proc (.kill n sg)) = (some .eperm, l.mem, w) := by
    intro k hf
    cases k with
    | zero => exact attempt_zero hf
    | succ k => exact attempt_succ hf
  have miss : ∀ k, c.fault = some k → sg = .sigkill → ¬ hit := by
    intro k hf hs hh
    rw [hhit hh hs] at hf
    cases hf
  cases sg with
  | sigterm =>
    cases hf : c.fault with
    | none => exact moves_of (attempt_ok hf) (.term n)
    | some k => exact moves_of (failed k hf) (.silent _ trivial trivial)
  | sigkill =>
    obtain ⟨key, rec, hs, rfl⟩ := hok.1
    have hp : ∀ r, l.page.observe Y w (.proc (.kill (atoi rec.pid).1 .sigkill)) r =
        { l.page with stage := .killed key rec } := by
      intro r
      rcases hs with hs | hs
      · simp [Page.observe, Local.page, Stage.next, hs, Stage.afterKill, Ledger.offlineAfter,
          Ledger.unreservedAfter]
      · simp [Page.observe, Local.page, Stage.next, hs, Stage.afterKill, Ledger.offlineAfter,
          Ledger.unreservedAfter]
    cases hf : c.fault with
    | none =>
      refine moves_of (attempt_ok hf) ?_
      rw [hp]
      exact .kill key rec hs
    | some k =>
      refine moves_of (failed k hf) ?_
      rw [hp]
      exact .killFails key rec hs (miss k hf rfl)

theorem attempt_quiet {o : ProcOp} (h : ∀ cmd, o ≠ .start cmd) (h' : ∀ n sg, o ≠ .kill n sg) :
    ∃ r, attempt G c l w (.proc o) = (r, l.mem, w) := by
  cases hf : c.fault with
  | none =>
    rw [attempt_ok hf]
    cases o with
    | start cmd => exact absurd rfl (h cmd)
    | kill n sg => exact absurd rfl (h' n sg)
    | _ => exact ⟨_, rfl⟩
  | some n =>
    cases n with
    | zero => exact ⟨_, attempt_zero hf⟩
    | succ n => exact ⟨_, attempt_succ hf⟩

/-- Every operation that the ledger accepts is a move. -/
theorem moves_perform {o : Op} (hY : Y.Lawful) (hok : (ledger Y).ok l.ledger o)
    (hup : up → o.OnRedis → c.fault = none)
    (hhit : hit → ∀ n, o = .proc (.kill n .sigkill) → c.fault = none) :
    Moves Y G up hit c l w o := by
  cases o with
  | fs o => exact moves_fs o
  | net o => exact moves_net o
  | probe o => exact moves_probe o fun hu => hup hu trivial
  | kv o => exact moves_kv o hok hY fun hu => hup hu trivial
  | ipam st o =>
    refine moves_ipam st o hok fun hu hst => hup hu ?_
    subst hst
    trivial
  | proc o =>
    cases o with
    | start cmd => exact moves_start cmd hok
    | kill n sg => exact moves_kill n sg hok fun hh hs => hhit hh n (by rw [hs])
    | signal0 n =>
      obtain ⟨r, h⟩ := attempt_quiet (o := .signal0 n) (c := c) (l := l) (w := w) (G := G) nofun nofun
      exact moves_of h (.silent _ trivial trivial)
    | netnsReady n =>
      obtain ⟨r, h⟩ := attempt_quiet (o := .netnsReady n) (c := c) (l := l) (w := w) (G := G) nofun nofun
      exact moves_of h (.silent _ trivial trivial)
    | release n =>
      obtain ⟨r, h⟩ := attempt_quiet (o := .release n) (c := c) (l := l) (w := w) (G := G) nofun nofun
      exact moves_of h (.silent _ trivial trivial)
    | lookPath n =>
      obtain ⟨r, h⟩ := attempt_quiet (o := .lookPath n) (c := c) (l := l) (w := w) (G := G) nofun nofun
      exact moves_of h (.silent _ trivial trivial)
    | lookupUser n =>
      obtain ⟨r, h⟩ := attempt_quiet (o := .lookupUser n) (c := c) (l := l) (w := w) (G := G) nofun nofun
      exact moves_of h (.silent _ trivial trivial)

end Refinement
end PrivatePaas
