import PrivatePaas.Code.NetworkManager
import PrivatePaas.Host.Procs

/-!
# Links and packet filters

A workload and Envoy each have a network namespace of their own, which goes with
the process; every other process is in the host's.
-/

namespace PrivatePaas
set_option autoImplicit false
open Text Network

/-- `pair` numbers the veth pair a link is one end of; 0 is no pair. -/
structure Link where
  name : IfName
  ns : Nat
  bridge : Bool := false
  pair : Nat := 0
  master : Bool := false
  up : Bool := false
  addrs : List String := []
deriving DecidableEq

structure Net where
  links : List Link := []
  rules : List (Nat × Rule) := []
  pairs : Nat := 0

namespace Net

/-- The namespace of a process. -/
def place (t : Procs) (pid : Nat) : Option Nat :=
  if pid = 0 then some 0
  else (t.all.find? (·.pid = pid)).map fun p =>
    if p.role = .workload ∨ p.role = .envoy then p.pid else 0

/-- NUL, blanks, the slash and the colon. -/
def refused : List UInt8 := [0, 9, 10, 11, 12, 13, 32, 47, 58, 160]

/-- What the kernel accepts as an interface name, or as the pattern of one. -/
def wellFormed (n : IfName) : Bool :=
  n ≠ [] ∧ n.length < 16 ∧ n ≠ bytes "." ∧ n ≠ bytes ".." ∧ n.all (· ∉ refused)

/-- A name that is taken as it is: with a percent sign it would be a pattern. -/
def validName (n : IfName) : Bool := wellFormed n ∧ 37 ∉ n

/-- The only percent sign of a pattern belongs to a `%d`, which the number replaces. -/
def numbered (name : IfName) (i : Nat) : Option IfName :=
  match name.dropWhile (· ≠ 37) with
  | _ :: 100 :: rest =>
    if 37 ∈ rest then none
    else some ((name.takeWhile (· ≠ 37) ++ bytes (itoa i) ++ rest).take 15)
  | _ => none

def find (n : Net) (ns : Nat) (name : IfName) : Option Link :=
  n.links.find? fun l => l.ns = ns ∧ l.name = name

/-- The name that a new link of the host's namespace gets. A pattern gets the lowest number
with which the name is free. -/
def assign (n : Net) (name : IfName) : Option IfName :=
  if wellFormed name then
    if 37 ∈ name then
      ((List.range (n.links.length + 1)).filterMap (numbered name)).find? fun a => (n.find 0 a).isNone
    else if (n.find 0 name).isNone then some name
    else none
  else none

/-- An end of a new pair as it is made. -/
def bare (n : Net) (name : IfName) : Link := { name := name, ns := 0, pair := n.pairs + 1 }

/-- A new pair behind the links that are there. -/
def plugged (n : Net) (A B : Link) : Net :=
  { n with links := n.links ++ [A, B], pairs := n.pairs + 1 }

def modify (n : Net) (ns : Nat) (name : IfName) (f : Link → Link) : Net :=
  { n with links := n.links.map fun l => if l.ns = ns ∧ l.name = name then f l else l }

/-- Deleting one end of a pair deletes the other. -/
def delete (n : Net) (l : Link) : Net :=
  { n with links := n.links.filter fun k =>
      ¬ (k.ns = l.ns ∧ k.name = l.name) ∧ (l.pair = 0 ∨ k.pair ≠ l.pair) }

/-- What is left when the namespaces of processes that are gone are taken down. -/
def sweep (n : Net) (t : Procs) : Net :=
  let gone := fun ns => ns ≠ 0 ∧ t.Free ns
  let pairs := (n.links.filter fun l => gone l.ns).map Link.pair
  { n with
    links := n.links.filter fun l => ¬ gone l.ns ∧ (l.pair = 0 ∨ l.pair ∉ pairs)
    rules := n.rules.filter fun r => ¬ gone r.1 }

/-- A namespace comes with its loopback link. -/
def addNamespace (n : Net) (pid : Nat) : Net :=
  { n with links := n.links ++ [{ name := bytes "lo", ns := pid }] }

def perform (t : Procs) (n : Net) : (o : NetOp) → o.Ret × Net
  | .linkByName pid name =>
    (((place t pid).bind fun ns => n.find ns name).map Link.bridge, n)
  | .linkDel name =>
    match n.find 0 name with
    | none => (false, n)
    | some l => (true, n.delete l)
  | .linkAddBridge name =>
    match n.assign name with
    | none => (false, n)
    | some a => (true, { n with links := n.links ++ [{ name := a, ns := 0, bridge := true }] })
  | .linkAddVeth name peer =>
    match n.assign peer with
    | none => (false, n)
    | some b =>
      -- the peer is there when the name of the other end is looked for
      match assign { n with links := n.links ++ [n.bare b] } name with
      | none => (false, n)
      | some a => (true, n.plugged (n.bare a) (n.bare b))
  | .linkSetUp pid name =>
    match place t pid with
    | none => (false, n)
    | some ns =>
      if (n.find ns name).isSome then (true, n.modify ns name fun l => { l with up := true })
      else (false, n)
  | .addrAdd pid name cidr =>
    match place t pid with
    | none => (false, n)
    | some ns =>
      match n.find ns name with
      | none => (false, n)
      | some l =>
        if cidr ∈ l.addrs then (false, n)
        else (true, n.modify ns name fun l => { l with addrs := l.addrs ++ [cidr] })
  | .linkSetMaster name =>
    if (n.find 0 name).isSome ∧ (n.find 0 br0).isSome then
      (true, n.modify 0 name fun l => { l with master := true })
    else (false, n)
  | .linkSetNs name pid =>
    match place t pid with
    | none => (false, n)
    | some ns =>
      if (n.find 0 name).isSome ∧ (ns = 0 ∨ n.find ns name = none) then
        (true, n.modify 0 name fun l => { l with ns := ns, master := false, up := false })
      else (false, n)
  | .enterNs pid => ((place t pid).isSome, n)
  | .iptablesAppend pid rule =>
    match place t pid with
    | none => (false, n)
    | some ns => (true, { n with rules := n.rules ++ [(ns, rule)] })

/-- The answer of an operation that fails. -/
def failure : (o : NetOp) → o.Ret
  | .linkByName _ _ => none
  | .linkDel _ | .linkAddBridge _ | .linkAddVeth _ _ | .linkSetUp _ _ | .addrAdd _ _ _
  | .linkSetMaster _ | .linkSetNs _ _ | .enterNs _ | .iptablesAppend _ _ => false

end Net
end PrivatePaas
