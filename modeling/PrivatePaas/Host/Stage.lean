import PrivatePaas.Code.Cmd

/-!
# How far an invocation has come

Four monitors read an invocation's own operations: what it has acquired, started
and recorded (`ledger`), what it owes to the pool (`dues`), what it knows of the
Envoy process (`envoy`), and how far its rewriting of the Envoy configuration is
(`lb`). They observe; they take no
part in what an operation does.
-/

namespace PrivatePaas
set_option autoImplicit false
open Files Text Effects Network PrivatePaas.Parser

/-- `known` says whether the type in the configuration file is one of the two known ones. -/
inductive Stage where
  | outset
  | holding (known : Bool) (ip : String)
  | running (ip : String) (pid : Nat)
  | asked (key : String)
  | reading (key : String) (rec : Cmd.Service)
  | released (key : String) (rec : Cmd.Service)
  | killed (key : String) (rec : Cmd.Service)
  | done
deriving DecidableEq

/-- `offline` says that a probe for Redis has failed, `unreserved` that the bridge
address has not been asked for since the prefix was made. -/
structure Ledger where
  stage : Stage
  offline : Bool := false
  unreserved : Bool := false
deriving DecidableEq

namespace Stage
variable (Y : Yaml)

def afterRead (s : Stage) (r : Except Err String) : Stage :=
  match s with
  | outset =>
    match r with
    | .error _ => done
    | .ok data =>
      match Y.unmarshalFile data with
      | none => done
      | some f => holding (f.type = "service" ∨ f.type = "db") ""
  | s => s

def afterAcquire (s : Stage) (r : Option String) : Stage :=
  match s with
  | holding known ip => holding known (r.getD ip)
  | s => s

def afterStart (s : Stage) (r : Option Nat) : Stage :=
  match s, r with
  | holding _ ip, some pid => running ip pid
  | s, _ => s

def afterSet (s : Stage) : Stage :=
  match s with
  | holding _ _ => done
  | running _ _ => done
  | s => s

def afterGet (s : Stage) (r : Option String) : Stage :=
  match s with
  | asked key =>
    match r with
    | none => done
    | some text => reading key (Y.decode text)
  | s => s

def afterRelease (s : Stage) : Stage :=
  match s with
  | reading key rec => released key rec
  | s => s

def afterKill (s : Stage) : Stage :=
  match s with
  | reading key rec => killed key rec
  | released key rec => killed key rec
  | s => s

def afterDel (s : Stage) : Stage :=
  match s with
  | killed _ _ => done
  | s => s

def next (s : Stage) : (o : Op) → o.Ret → Stage
  | .fs (.readFile _), r => s.afterRead Y r
  | .ipam _ .acquireIP, r => s.afterAcquire r
  | .ipam _ (.releaseIP _), _ => s.afterRelease
  | .proc (.start c), r => if c.isWorkload then s.afterStart r else s
  | .proc (.kill _ .sigkill), _ => s.afterKill
  | .kv (.set _ _), _ => s.afterSet
  | .kv (.get _), r => s.afterGet Y r
  | .kv (.del _), _ => s.afterDel
  | _, _ => s

/-- The stage in which an operation of the ledger is due, and with what. -/
def ok (s : Stage) : Op → Prop
  | .ipam _ .acquireIP => ∃ known, s = holding known ""
  | .ipam _ (.releaseIP a) =>
    ∃ key rec, s = reading key rec ∧ rec.ip ≠ "" ∧ a = Network.cleanIP rec.ip ∧ a ≠ ""
  | .proc (.start c) => c.isWorkload = true → ∃ known ip, s = holding known ip
  | .proc (.kill n .sigkill) =>
    ∃ key rec, (s = reading key rec ∨ s = released key rec) ∧ n = (atoi rec.pid).1
  | .kv (.set _ text) => ∃ rec, text = Y.marshalRecord rec ∧
      ((∃ known, s = holding known rec.ip) ∨ ∃ pid : Nat, s = running rec.ip pid ∧ rec.pid = itoa pid)
  | .kv (.get key) => s = asked key
  | .kv (.del key) => ∃ rec, s = killed key rec
  | _ => True

/-- Where an invocation may return from. -/
def final : Stage → Prop
  | holding known _ => known = false
  | done => True
  | _ => False

end Stage

namespace Ledger

def offlineAfter (b : Bool) : (o : Op) → o.Ret → Bool
  | .probe _, r => b || !r
  | _, _ => b

def unreservedAfter (b : Bool) : (o : Op) → o.Ret → Bool
  | .ipam _ .newPrefix, r => b || r != .failed
  | .ipam _ (.acquireSpecificIP _), _ => false
  | _, _ => b

/-- Which pool may be asked for what. -/
def poolOk (l : Ledger) : Op → Prop
  | .ipam st p => (st = .memory → l.offline = true) ∧
      match p with
      | .prefixFrom => l.unreserved = false
      | .newPrefix => l.unreserved = false
      | .acquireSpecificIP a => if l.unreserved then a = host 254 else a = host 1
      | .acquireIP => l.unreserved = false
      | .releaseIP _ => l.unreserved = false
  | _ => True

end Ledger

def ledger (Y : Yaml) : Monitor sig where
  State := Ledger
  ok l o := l.stage.ok Y o ∧ l.poolOk o
  next l o r := {
    stage := l.stage.next Y o r
    offline := Ledger.offlineAfter l.offline o r
    unreserved := Ledger.unreservedAfter l.unreserved o r }

/-- What an invocation owes to the pool: the release of the address it has read, the
gateway's address for the Envoy that it is about to start, or that it has started.
`void` says that the prefix could not be made or that Envoy could not be started. -/
inductive Debt where
  | clear
  | unreleased (ip : String)
  | unstarted
  | started
  | void
deriving DecidableEq

namespace Debt
variable (Y : Yaml)

def step (d : Debt) : (o : Op) → o.Ret → Debt
  | .kv (.get _), r =>
    match r with
    | some text => unreleased (Y.decode text).ip
    | none => d
  | .ipam _ (.releaseIP _), _ => unstarted
  | .ipam _ .newPrefix, r => if r = .failed then void else d
  | .ipam _ (.acquireSpecificIP a), _ => if a = host 1 then clear else d
  | .proc (.kill _ .sigkill), _ =>
    match d with
    | unreleased _ => clear
    | d => d
  | .proc (.start c), r => if c.isWorkload then d else if r = none then void else started
  | _, _ => d

def next (d : Debt) (o : Op) (r : o.Ret) : Debt := if d = void then void else d.step Y o r

/-- There is no address left to release. -/
def Released (d : Debt) : Prop := ∀ ip, d = unreleased ip → Network.cleanIP ip = ""

/-- Where an invocation may return from. -/
def final (d : Debt) : Prop := d = clear ∨ d = void

def ok (d : Debt) : Op → Prop
  | .kv (.get _) => d.final
  | .ipam _ (.acquireSpecificIP a) => a = host 1 → d = started ∨ d = void
  | .proc (.kill _ .sigkill) => d.Released
  | .proc (.start c) => c.isWorkload = false → ∀ ip, d ≠ unreleased ip
  | _ => True

end Debt

/-- `made` says that the prefix has been seen or made. -/
structure Dues where
  debt : Debt := .clear
  made : Bool := false
deriving DecidableEq

namespace Dues

def madeAfter (b : Bool) : (o : Op) → o.Ret → Bool
  | .ipam _ .prefixFrom, r => b || r
  | .ipam _ .newPrefix, r => b || r != .failed
  | _, _ => b

/-- No address is asked for or handed back before there is a prefix. -/
def madeOk (b : Bool) : Op → Prop
  | .ipam _ (.acquireSpecificIP _) => b = true
  | .ipam _ .acquireIP => b = true
  | .ipam _ (.releaseIP _) => b = true
  | _ => True

end Dues

def dues (Y : Yaml) : Monitor sig where
  State := Dues
  ok d o := d.debt.ok o ∧ Dues.madeOk d.made o
  next d o r := ⟨d.debt.next Y o r, Dues.madeAfter d.made o r⟩

/-- A path whose last name is neither the pid file's nor that of a yaml file. -/
def Harmless (p : Path) : Prop :=
  ∃ d n, p = d ++ [n] ∧ Proper n ∧ n ≠ "envoy-paas.pid" ∧ ¬ ".yaml".toList <:+ n.toList

/-- A path that ends in a yaml file. -/
def YamlFile (p : Path) : Prop := ∃ d n, p = d ++ [n] ∧ Proper n ∧ ".yaml".toList <:+ n.toList

/-- What the invocation knows of Envoy: the text of the pid file, a pid that has
answered the probe, or the pid of the Envoy it has started. -/
inductive EnvoyStage where
  | quiet
  | read (content : String)
  | alive (pid : Int)
  | born (pid : Nat)
deriving DecidableEq

namespace EnvoyStage

def next (s : EnvoyStage) : (o : Op) → o.Ret → EnvoyStage
  | .fs (.readFile p), r =>
    if p = envoyPidFile then (match r with | .ok data => read data | .error _ => quiet) else s
  | .proc (.signal0 n), r => if r then alive n else quiet
  | .proc (.kill _ .sigterm), _ => quiet
  | .proc (.start c), r =>
    if c.isWorkload then s else (match r with | some pid => born pid | none => quiet)
  | .fs (.writeFile p _), _ => if p = envoyPidFile then quiet else s
  | _, _ => s

def ok (s : EnvoyStage) : Op → Prop
  | .proc (.signal0 n) => ∃ data, s = read data ∧ atoi (trimSpace data) = (n, true)
  | .proc (.kill n .sigterm) => s = alive n
  | .fs (.writeFile p data) =>
    (p = envoyPidFile ∧ ∃ pid : Nat, s = born pid ∧ data = itoa pid) ∨ Harmless p ∨ YamlFile p
  | .fs (.create p) => YamlFile p
  | .fs (.write p _) => YamlFile p
  | .fs (.openAppend p) => Harmless p
  | .fs (.append p _) => Harmless p
  | _ => True

end EnvoyStage

def envoy : Monitor sig where
  State := EnvoyStage
  ok := EnvoyStage.ok
  next := EnvoyStage.next

/-- The rewriting of the Envoy configuration. `listed todo acc` has listed the
fragments and still has to read `todo`; `truncated` and `rendered` hold what is rendered. -/
inductive LbStage where
  | idle
  | begun
  | wrote (file : Path) (data : String)
  | listed (file : Path) (data : String) (todo : List String) (acc : List EnvoyService)
  | truncated (file : Path) (data : String) (acc : List EnvoyService)
  | rendered (file : Path) (data : String) (acc : List EnvoyService)
  | served
deriving DecidableEq

/-- `missing` says that the last look at the Envoy configuration found none. -/
structure LbState where
  stage : LbStage
  missing : Bool := false
deriving DecidableEq

namespace LbStage

def next (Y : Yaml) (s : LbStage) : (o : Op) → o.Ret → LbStage
  | .fs (.mkdirAll p), r => if p = envoyConfDir ∧ r = true then begun else s
  | .fs (.writeFile p data), r =>
    match s with
    | begun => if r then wrote p data else begun
    | s => s
  | .fs (.glob _ _), r =>
    match s with
    | wrote p data => listed p data r []
    | s => s
  | .fs (.readFile _), r =>
    match s with
    | listed p data (_ :: todo) acc => listed p data todo (acc ++ fragmentServices Y r)
    | s => s
  | .fs (.create _), r =>
    match s with
    | listed p data [] acc => if r then truncated p data acc else listed p data [] acc
    | s => s
  | .fs (.write _ _), r =>
    match s with
    | truncated p data acc => if r then rendered p data acc else truncated p data acc
    | s => s
  | .proc (.start c), r =>
    match s with
    | rendered p data acc => if c.isWorkload ∨ r = none then rendered p data acc else served
    | s => s
  | _, _ => s

end LbStage

namespace LbState

def missingAfter (b : Bool) : (o : Op) → o.Ret → Bool
  | .fs (.stat p), r => if p = envoyConfig then r = .error .notExist else b
  | .fs (.writeFile p _), _ => if p = envoyConfig then false else b
  | _, _ => b

/-- What may be done to the files that the rewriting is about. -/
def ok (Y : Yaml) (s : LbState) : Op → Prop
  | .fs (.mkdirAll p) => p = envoyConfDir → s.stage = .idle
  | .fs (.writeFile p data) =>
    (s.stage = .begun ∧ ∃ c, p = serviceConfPath c.upstreamName ∧ data = Y.marshalConfig c) ∨
    s.stage ≠ .begun ∧ (Harmless p ∨ p = envoyPidFile ∨
      p = envoyConfig ∧ data = bootstrapConfig ∧ s.missing = true)
  | .fs (.glob d suffix) => d = envoyConfDir ∧ suffix = ".yaml" ∧ ∃ p data, s.stage = .wrote p data
  | .fs (.readFile p) => ∀ q data f todo acc, s.stage = .listed q data (f :: todo) acc →
      p = envoyConfDir ++ [f]
  | .fs (.create p) => p = envoyConfig ∧ ∃ q data acc, s.stage = .listed q data [] acc
  | .fs (.write p text) => p = envoyConfig ∧ ∃ q data acc, s.stage = .truncated q data acc ∧
      text = envoyTmpl acc
  | .fs (.openAppend p) => Harmless p
  | .fs (.append p _) => Harmless p
  | .fs (.remove _) => s.stage = .idle
  | .proc (.start _) => s.stage = .idle ∨ s.stage = .served ∨
      ∃ q data acc, s.stage = .rendered q data acc
  | _ => True

/-- Where an invocation may return from. -/
def final (s : LbState) : Prop :=
  s.stage = .idle ∨ s.stage = .served ∨ ∃ q data acc, s.stage = .rendered q data acc

end LbState

def lb (Y : Yaml) : Monitor sig where
  State := LbState
  ok := LbState.ok Y
  next s o r := ⟨s.stage.next Y o r, LbState.missingAfter s.missing o r⟩

end PrivatePaas
