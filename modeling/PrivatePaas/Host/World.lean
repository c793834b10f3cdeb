import Mathlib.Data.Finset.Erase
import PrivatePaas.Effects.Machine
import PrivatePaas.Host.Net
import PrivatePaas.Host.Stage

/-!
# The host

What the operations do: to Redis and the address pools, to the file tree, to the
process table and to the network. `Entry.author`, `Past` and the stages in `Local`
are labels for the proofs; no operation depends on them.
-/

namespace PrivatePaas
set_option autoImplicit false
open Files Text Effects Network PrivatePaas.Parser

/-- A stored text and the invocation that stored it. -/
structure Entry where
  value : String
  author : Nat
deriving DecidableEq

/-- `lessee a` is the invocation that acquired `a` last, if it did not ask for it by
name, `freed` the authors of the records whose address a delete has released.
`envoyText` is what stood in the configuration when Envoy was last started. -/
structure Past where
  lessee : String → Option Nat := fun _ => none
  freed : Finset Nat := ∅
  envoyText : Option (Option String) := none

structure World where
  kv : String → Option Entry
  pool : Option (Finset String)
  fs : Tree
  cwd : Path
  procs : Procs
  net : Net
  nextId : Nat
  past : Past

/-- A workload process that runs. -/
def World.Live (w : World) (q : Proc) : Prop := q ∈ w.procs ∧ q.role = .workload

def World.Allocated (w : World) (a : String) : Prop := ∃ s, w.pool = some s ∧ a ∈ s

/-- A host on which the CLI has not run yet. -/
def World.blank (t : Tree) (cwd : Path) : World where
  kv _ := none
  pool := none
  fs := t
  cwd := cwd
  procs := ⟨[⟨1, 1, .other, 0, "", false⟩], List.pairwise_singleton _ _⟩
  net := {}
  nextId := 1
  past := {}

/-- One invocation of the CLI. `mem` is its fallback pool, `target` the author of the
record it has read. -/
structure Local where
  id : Nat
  pid : Nat
  pgid : Nat
  mem : Option (Finset String) := none
  ledger : Ledger
  dues : Dues := {}
  envoy : EnvoyStage := .quiet
  lb : LbState := ⟨.idle, false⟩
  target : Nat := 0

/-- What the outside decides for one operation. With `fault = some 0` the operation
fails before it does anything; with `some (n + 1)` it fails after it has been carried
out, or, where it writes, after `n` characters. -/
structure Choice where
  fault : Option Nat := none
  pid : Nat := 0
  text : String := ""
  refuse : Bool := false

inductive Task where
  | create (config : Path)
  | delete (type_ name : String)
  | updateLb (config : ServiceEnvoyConfig)
  | startEnvoy
  | stopEnvoy

/-- `pgid = 0` asks for a process group of its own. -/
structure Launch where
  task : Task
  pid : Nat
  pgid : Nat := 0

inductive Env where
  | exit (pid : Nat)
  | spawn (pid pgid : Nat)

def cutAt (n : Nat) (s : String) : String := String.ofList (s.toList.take n)

/-- `data` written over the beginning of `old`. -/
def overlay (data old : String) : String :=
  data ++ String.ofList (old.toList.drop data.toList.length)

namespace Op

/-- What may have been done of an operation that fails: of a write its first characters,
of a start or a signal nothing. -/
def remnant (n : Nat) : Op → Option Op
  | .fs (.writeFile p data) => some (.fs (.writeFile p (cutAt n data)))
  | .fs (.write p data) => some (.fs (.write p (cutAt n data)))
  | .fs (.append p data) => some (.fs (.append p (cutAt n data)))
  | .proc _ => none
  | o => some o

/-- The answer of an operation that fails. -/
def failure : (o : Op) → o.Ret
  | .fs (.readFile _) => .error .other
  | .fs (.stat _) => .error .other
  | .fs (.glob _ _) => []
  | .fs .getwd => none
  | .fs (.writeFile _ _) | .fs (.create _) | .fs (.write _ _) | .fs (.openAppend _)
  | .fs (.append _ _) | .fs (.remove _) | .fs (.mkdirAll _) | .fs (.parseFiles _)
  | .fs (.initdb _ _) => false
  | .kv (.get _) => none
  | .kv (.set _ _) | .kv (.del _) => false
  | .probe _ => false
  | .ipam _ .prefixFrom | .ipam _ (.releaseIP _) => false
  | .ipam _ .newPrefix => .failed
  | .ipam _ (.acquireSpecificIP _) | .ipam _ .acquireIP => none
  | .proc (.start _) => none
  | .proc (.kill _ _) => some .eperm
  | .proc (.signal0 _) | .proc (.netnsReady _) | .proc (.release _) => false
  | .proc (.lookPath _) => none
  | .proc (.lookupUser _) => none
  | .net o => Net.failure o

end Op

namespace FsOp

def store (t : Tree) (p : Path) (f : Option String → String) : Bool × Tree :=
  match t.update p f with
  | none => (false, t)
  | some t' => (true, t')

/-- What `initdb` leaves behind that the program looks at. -/
def clusterFiles (c : Choice) (t : Tree) (dir : Path) : Option Tree :=
  (t.update (clean (dir ++ ["PG_VERSION"])) fun _ => "14\n").bind fun t' =>
    t'.update (clean (dir ++ ["pg_hba.conf"])) fun _ => c.text

def perform (c : Choice) (cwd : Path) (t : Tree) : (o : FsOp) → o.Ret × Tree
  | .readFile p => (t.read p, t)
  | .writeFile p data => store t p fun _ => data
  | .create p => store t p fun _ => ""
  | .write p data =>
    match t.read p with
    | .error _ => (true, t)
    | .ok _ => store t p fun old => overlay data (old.getD "")
  | .openAppend p => store t p fun old => old.getD ""
  | .append p data => store t p fun old => old.getD "" ++ data
  | .remove p =>
    match t.remove p with
    | none => (false, t)
    | some t' => (true, t')
  | .mkdirAll p =>
    match t.mkdirs [] p with
    | none => (false, t)
    | some t' => (true, t')
  | .stat p => (t.stat p, t)
  | .glob dir suffix => (t.glob dir suffix, t)
  | .getwd => (some cwd, t)
  | .parseFiles p => ((t.read p).isOk, t)
  | .initdb _ dir =>
    match clusterFiles c t dir with
    | none => (false, t)
    | some t' => (true, t')

end FsOp

namespace KvOp

def perform (author : Nat) (kv : String → Option Entry) : (o : KvOp) →
    o.Ret × (String → Option Entry)
  | .get key => ((kv key).map Entry.value, kv)
  | .set key value => (true, Function.update kv key (some ⟨value, author⟩))
  | .del key => (true, Function.update kv key none)

end KvOp

namespace IpamOp

/-- A new prefix has its network and its broadcast address blocked. -/
def perform (G : GoIpam) (c : Choice) (pool : Option (Finset String)) : (o : IpamOp) →
    o.Ret × Option (Finset String)
  | .prefixFrom => (pool.isSome, pool)
  | .newPrefix =>
    match pool with
    | none => (.created, some {host 0, host 255})
    | some s => (if c.refuse then .failed else .already, some s)
  | .acquireSpecificIP a =>
    match pool with
    | none => (none, none)
    | some s => if a ∈ s then (none, some s) else (some a, some (insert a s))
  | .acquireIP =>
    match pool with
    | none => (none, none)
    | some s =>
      match G.acquireIP s with
      | none => (none, some s)
      | some a => (some a, some (insert a s))
  | .releaseIP a =>
    match pool with
    | none => (false, none)
    | some s => if a ∈ s then (true, some (s.erase a)) else (false, some s)

end IpamOp

namespace Local

/-- The processes a signal with this pid argument goes to. -/
def aims (l : Local) (n : Int) : Proc → Bool := Procs.named (pidArg n) l.pid l.pgid

/-- A started process leads a session, a group and a network namespace of its own. -/
def started (l : Local) (cmd : Command) (pid : Nat) : Proc where
  pid := pid
  pgid := pid
  role := if cmd.isWorkload then .workload else .envoy
  owner := l.id
  ip := match l.ledger.stage with
    | .holding _ ip => ip
    | _ => ""

end Local

namespace World

def withProcs (w : World) (t : Procs) : World := { w with procs := t, net := w.net.sweep t }

/-- SIGKILL does not reach init. A SIGTERM is noted with whom it goes to: when they take it
and exit is an event of its own. -/
def kill (w : World) (l : Local) (n : Int) : Signal → Option Errno × World
  | .sigkill =>
    (if ∃ p ∈ w.procs.all, l.aims n p = true then none else some .esrch,
      w.withProcs (w.procs.keep fun p => ! l.aims n p || p.pid = 1))
  | .sigterm =>
    (if ∃ p ∈ w.procs.all, l.aims n p = true then none else some .esrch,
      { w with procs := w.procs.term (l.aims n) })

def start (w : World) (l : Local) (c : Choice) (cmd : Command) : Option Nat × World :=
  if h : w.procs.Free c.pid ∧ 1 < c.pid ∧ c.pid < pidMax then
    (some c.pid,
      { w with
        procs := w.procs.add (l.started cmd c.pid) h.1
        net := w.net.addNamespace c.pid })
  else (none, w)

def performProc (w : World) (l : Local) (c : Choice) : (o : ProcOp) → o.Ret × World
  | .start cmd => w.start l c cmd
  | .kill n s => w.kill l n s
  | .signal0 n => (decide (∃ p ∈ w.procs.all, l.aims n p = true), w)
  | .netnsReady pid => (decide (¬ w.procs.Free pid), w)
  | .release _ => (true, w)
  | .lookPath _ => (if c.text = "" then none else some c.text, w)
  | .lookupUser _ => (some (c.pid, c.pid), w)

end World

namespace Past

def record (h : Past) (l : Local) (w : World) : (o : Op) → o.Ret → Past
  | .ipam .redis .acquireIP, r =>
    match r with
    | some a => { h with lessee := Function.update h.lessee a (some l.id) }
    | none => h
  | .ipam .redis (.acquireSpecificIP _), r =>
    match r with
    | some a => { h with lessee := Function.update h.lessee a none }
    | none => h
  | .ipam .redis (.releaseIP _), r => if r then { h with freed := insert l.target h.freed } else h
  | .proc (.start cmd), r =>
    if cmd.isWorkload ∨ r = none then h else { h with envoyText := some (w.fs.content envoyConfig) }
  | _, _ => h

end Past

namespace Local

def targetAfter (l : Local) (w : World) : Op → Nat
  | .kv (.get key) => ((w.kv key).map Entry.author).getD 0
  | _ => l.target

def observe (Y : Yaml) (l : Local) (w : World) (o : Op) (r : o.Ret) : Local :=
  { l with
    ledger := (PrivatePaas.ledger Y).next l.ledger o r
    dues := (PrivatePaas.dues Y).next l.dues o r
    envoy := PrivatePaas.envoy.next l.envoy o r
    lb := (PrivatePaas.lb Y).next l.lb o r
    target := l.targetAfter w o }

end Local

/-- An operation that does not fail. -/
def act (G : GoIpam) (c : Choice) (l : Local) (w : World) : (o : Op) →
    o.Ret × Option (Finset String) × World
  | .fs o =>
    let (r, t) := o.perform c w.cwd w.fs
    (r, l.mem, { w with fs := t })
  | .kv o =>
    let (r, kv) := o.perform l.id w.kv
    (r, l.mem, { w with kv := kv })
  | .probe _ => (true, l.mem, w)
  | .ipam .redis o =>
    let (r, pool) := o.perform G c w.pool
    (r, l.mem, { w with pool := pool })
  | .ipam .memory o =>
    let (r, mem) := o.perform G c l.mem
    (r, mem, w)
  | .proc o =>
    let (r, w) := w.performProc l c o
    (r, l.mem, w)
  | .net o =>
    let (r, n) := Net.perform w.procs w.net o
    (r, l.mem, { w with net := n })

/-- An operation with its answer and what becomes of the fallback pool and the world. -/
def attempt (G : GoIpam) (c : Choice) (l : Local) (w : World) (o : Op) :
    o.Ret × Option (Finset String) × World :=
  match c.fault with
  | none => act G c l w o
  | some 0 => (o.failure, l.mem, w)
  | some (n + 1) =>
    match o.remnant n with
    | none => (o.failure, l.mem, w)
    | some o' => (o.failure, (act G c l w o').2)

def perform (Y : Yaml) (G : GoIpam) (c : Choice) (l : Local) (w : World) (o : Op) :
    o.Ret × Local × World :=
  let (r, mem, w') := attempt G c l w o
  (r, { l.observe Y w o r with mem := mem }, { w' with past := w'.past.record l w o r })

namespace Task
variable (Y : Yaml)

def program : Task → Go Unit
  | create config => Cmd.runCreate Y config
  | delete type_ name => Cmd.runDelete Y type_ name
  | updateLb config => updateLbConfig Y config
  | startEnvoy => do
    let _ ← Network.startEnvoy
    return ()
  | stopEnvoy => do
    let _ ← Network.stopEnvoy
    return ()

/-- Where the ledger of an invocation begins. -/
def outset : Task → Stage
  | create _ => .outset
  | delete type_ name =>
    if type_ = "service" ∨ type_ = "database" then .asked (type_ ++ ":" ++ name) else .done
  | _ => .done

end Task

namespace Launch

def group (x : Launch) : Nat := if x.pgid = 0 then x.pid else x.pgid

def process (x : Launch) (id : Nat) : Proc where
  pid := x.pid
  pgid := x.group
  role := .cli
  owner := id

def invocation (x : Launch) (id : Nat) : Local where
  id := id
  pid := x.pid
  pgid := x.group
  ledger := ⟨x.task.outset, false, false⟩

end Launch

/-- A new invocation is a process of its own. -/
def enter (Y : Yaml) (x : Launch) (w : World) : Option (Local × Go Unit × World) :=
  if h : w.procs.Free x.pid ∧ 1 < x.pid ∧ x.pid < pidMax then
    some (x.invocation w.nextId, x.task.program Y,
      { w with
        procs := w.procs.add (x.process w.nextId) h.1
        nextId := w.nextId + 1 })
  else none

/-- A process that is none of ours. -/
def stranger (pid pgid : Nat) : Proc where
  pid := pid
  pgid := pgid
  role := .other

/-- The process of an invocation. -/
def Local.own (l : Local) (p : Proc) : Bool := p.pid = l.pid ∧ p.owner = l.id ∧ p.role = .cli

def disturb (e : Env) (w : World) : World :=
  match e with
  | .exit pid => w.withProcs (w.procs.keep fun p => p.pid ≠ pid)
  | .spawn pid pgid =>
    if h : w.procs.Free pid then
      { w with procs := w.procs.add (stranger pid pgid) h }
    else w

/-- The host as the system its invocations share. -/
def Host (Y : Yaml) (G : GoIpam) : System sig where
  World := World
  Local := Local
  Choice := Choice
  Launch := Launch
  Env := Env
  perform := perform Y G
  alive l w := decide (∃ p ∈ w.procs.all, l.own p = true)
  enter := enter Y
  leave l w := w.withProcs (w.procs.keep fun p => ! l.own p)
  disturb := disturb

end PrivatePaas
