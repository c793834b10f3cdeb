import PrivatePaas.Effects.Program
import PrivatePaas.Data

/-!
# What the program asks of its host

Every call that leaves the process is an operation: the file system, Redis,
go-ipam, processes and signals, and the network links. An operation is one atomic
step. Log lines, sleeps, `chown` and the values they need are not modelled.
-/

namespace PrivatePaas
set_option autoImplicit false
open Files Effects

/-- `write` fills a file that `create` has opened: it starts at the beginning of the
file and leaves what stands behind its own text. -/
inductive FsOp where
  | readFile (p : Path)
  | writeFile (p : Path) (data : String)
  | create (p : Path)
  | write (p : Path) (data : String)
  | openAppend (p : Path)
  | append (p : Path) (data : String)
  | remove (p : Path)
  | mkdirAll (p : Path)
  | stat (p : Path)
  | glob (dir : Path) (suffix : String)
  | getwd
  | parseFiles (p : Path)
  | initdb (bin : String) (dataDir : Path)
deriving DecidableEq

/-- A Boolean answer says that the error is nil. -/
abbrev FsOp.Ret : FsOp → Type
  | readFile _ => Except Err String
  | stat _ => Except Err Unit
  | glob _ _ => List String
  | getwd => Option Path
  | writeFile _ _ | create _ | write _ _ | openAppend _ | append _ _ | remove _ | mkdirAll _
  | parseFiles _ | initdb _ _ => Bool

inductive KvOp where
  | get (key : String)
  | set (key value : String)
  | del (key : String)
deriving DecidableEq

abbrev KvOp.Ret : KvOp → Type
  | get _ => Option String
  | set _ _ | del _ => Bool

/-- The two steps with which `GetIpam` looks for Redis. -/
inductive ProbeOp where
  | ping
  | newRedis
deriving DecidableEq

/-- Where the pool of an `Ipamer` is kept: in Redis, or in the memory of the invocation. -/
inductive Storage where
  | redis
  | memory
deriving DecidableEq

inductive NewPrefix where
  | created
  | already
  | failed
deriving DecidableEq

inductive IpamOp where
  | prefixFrom
  | newPrefix
  | acquireSpecificIP (ip : String)
  | acquireIP
  | releaseIP (ip : String)
deriving DecidableEq

abbrev IpamOp.Ret : IpamOp → Type
  | prefixFrom | releaseIP _ => Bool
  | newPrefix => NewPrefix
  | acquireSpecificIP _ | acquireIP => Option String

/-- What is started: `/proc/self/exe` as container init, the database server, or Envoy. -/
inductive Command where
  | containerInit (servicePath : String)
  | postgres (bin : String) (dataDir : Path)
  | envoy (bin : String) (config : Path)
deriving DecidableEq

def Command.isWorkload : Command → Bool
  | containerInit _ | postgres _ _ => true
  | envoy _ _ => false

inductive Signal where
  | sigkill
  | sigterm
deriving DecidableEq

inductive Errno where
  | esrch
  | eperm
deriving DecidableEq

inductive ProcOp where
  | start (cmd : Command)
  | kill (pid : Int) (sig : Signal)
  | signal0 (pid : Int)
  | netnsReady (pid : Nat)
  | release (pid : Nat)
  | lookPath (name : String)
  | lookupUser (name : String)
deriving DecidableEq

abbrev ProcOp.Ret : ProcOp → Type
  | start _ => Option Nat
  | kill _ _ => Option Errno
  | signal0 _ | netnsReady _ | release _ => Bool
  | lookPath _ => Option String
  | lookupUser _ => Option (Nat × Nat)

/-- An interface name, byte by byte. -/
abbrev IfName := List UInt8

def bytes (s : String) : IfName := s.toByteArray.data.toList

inductive Rule where
  | acceptLo
  | acceptEstablished
  | acceptSource (cidr : String)
  | drop
deriving DecidableEq

/-- Network operations. A namespace is named by the process it was made for, the
host's own by 0. -/
inductive NetOp where
  | linkByName (ns : Nat) (name : IfName)
  | linkDel (name : IfName)
  | linkAddBridge (name : IfName)
  | linkAddVeth (name peer : IfName)
  | linkSetUp (ns : Nat) (name : IfName)
  | addrAdd (ns : Nat) (name : IfName) (cidr : String)
  | linkSetMaster (name : IfName)
  | linkSetNs (name : IfName) (pid : Nat)
  | enterNs (pid : Nat)
  | iptablesAppend (pid : Nat) (rule : Rule)
deriving DecidableEq

/-- `linkByName` answers whether the link it finds is a bridge. -/
abbrev NetOp.Ret : NetOp → Type
  | linkByName _ _ => Option Bool
  | linkDel _ | linkAddBridge _ | linkAddVeth _ _ | linkSetUp _ _ | addrAdd _ _ _
  | linkSetMaster _ | linkSetNs _ _ | enterNs _ | iptablesAppend _ _ => Bool

inductive Op where
  | fs (o : FsOp)
  | kv (o : KvOp)
  | probe (o : ProbeOp)
  | ipam (st : Storage) (o : IpamOp)
  | proc (o : ProcOp)
  | net (o : NetOp)
deriving DecidableEq

abbrev Op.Ret : Op → Type
  | fs o => o.Ret
  | kv o => o.Ret
  | probe _ => Bool
  | ipam _ o => o.Ret
  | proc o => o.Ret
  | net o => o.Ret

abbrev sig : Signature := ⟨Op, Op.Ret⟩

/-- A program of the CLI. -/
abbrev Go (α : Type) := Prog sig α

namespace Go

def readFile (p : Path) : Go (Except Err String) := .call (.fs (.readFile p)) .ret
def writeFile (p : Path) (data : String) : Go Bool := .call (.fs (.writeFile p data)) .ret
def create (p : Path) : Go Bool := .call (.fs (.create p)) .ret
def write (p : Path) (data : String) : Go Bool := .call (.fs (.write p data)) .ret
def openAppend (p : Path) : Go Bool := .call (.fs (.openAppend p)) .ret
def append (p : Path) (data : String) : Go Bool := .call (.fs (.append p data)) .ret
def remove (p : Path) : Go Bool := .call (.fs (.remove p)) .ret
def mkdirAll (p : Path) : Go Bool := .call (.fs (.mkdirAll p)) .ret
def stat (p : Path) : Go (Except Err Unit) := .call (.fs (.stat p)) .ret
def glob (dir : Path) (suffix : String) : Go (List String) := .call (.fs (.glob dir suffix)) .ret
def getwd : Go (Option Path) := .call (.fs .getwd) .ret
def parseFiles (p : Path) : Go Bool := .call (.fs (.parseFiles p)) .ret
def initdb (bin : String) (dataDir : Path) : Go Bool := .call (.fs (.initdb bin dataDir)) .ret

def get (key : String) : Go (Option String) := .call (.kv (.get key)) .ret
def set (key value : String) : Go Bool := .call (.kv (.set key value)) .ret
def del (key : String) : Go Bool := .call (.kv (.del key)) .ret

def ping : Go Bool := .call (.probe .ping) .ret
def newRedis : Go Bool := .call (.probe .newRedis) .ret
def prefixFrom (st : Storage) : Go Bool := .call (.ipam st .prefixFrom) .ret
def newPrefix (st : Storage) : Go NewPrefix := .call (.ipam st .newPrefix) .ret
def acquireSpecificIP (st : Storage) (ip : String) : Go (Option String) :=
  .call (.ipam st (.acquireSpecificIP ip)) .ret
def acquireIP (st : Storage) : Go (Option String) := .call (.ipam st .acquireIP) .ret
def releaseIP (st : Storage) (ip : String) : Go Bool := .call (.ipam st (.releaseIP ip)) .ret

def start (cmd : Command) : Go (Option Nat) := .call (.proc (.start cmd)) .ret
def kill (pid : Int) (s : Signal) : Go (Option Errno) := .call (.proc (.kill pid s)) .ret
def signal0 (pid : Int) : Go Bool := .call (.proc (.signal0 pid)) .ret
def netnsReady (pid : Nat) : Go Bool := .call (.proc (.netnsReady pid)) .ret
def release (pid : Nat) : Go Bool := .call (.proc (.release pid)) .ret
def lookPath (name : String) : Go (Option String) := .call (.proc (.lookPath name)) .ret
def lookupUser (name : String) : Go (Option (Nat × Nat)) := .call (.proc (.lookupUser name)) .ret

def linkByName (ns : Nat) (name : IfName) : Go (Option Bool) :=
  .call (.net (.linkByName ns name)) .ret
def linkDel (name : IfName) : Go Bool := .call (.net (.linkDel name)) .ret
def linkAddBridge (name : IfName) : Go Bool := .call (.net (.linkAddBridge name)) .ret
def linkAddVeth (name peer : IfName) : Go Bool := .call (.net (.linkAddVeth name peer)) .ret
def linkSetUp (ns : Nat) (name : IfName) : Go Bool := .call (.net (.linkSetUp ns name)) .ret
def addrAdd (ns : Nat) (name : IfName) (cidr : String) : Go Bool :=
  .call (.net (.addrAdd ns name cidr)) .ret
def linkSetMaster (name : IfName) : Go Bool := .call (.net (.linkSetMaster name)) .ret
def linkSetNs (name : IfName) (pid : Nat) : Go Bool := .call (.net (.linkSetNs name pid)) .ret
def enterNs (pid : Nat) : Go Bool := .call (.net (.enterNs pid)) .ret
def iptablesAppend (pid : Nat) (rule : Rule) : Go Bool :=
  .call (.net (.iptablesAppend pid rule)) .ret

/-- `log.Fatalf`, or a panic that nothing recovers. -/
def fatal {α : Type} : Go α := .halt

attribute [simp] readFile writeFile create write openAppend append remove mkdirAll stat glob getwd
  parseFiles initdb get set del ping newRedis prefixFrom newPrefix acquireSpecificIP acquireIP
  releaseIP start kill signal0 netnsReady release lookPath lookupUser linkByName linkDel
  linkAddBridge linkAddVeth linkSetUp addrAdd linkSetMaster linkSetNs enterNs iptablesAppend fatal

end Go
end PrivatePaas
