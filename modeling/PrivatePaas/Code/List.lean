import PrivatePaas.Data
import PrivatePaas.Effects.Exec

/-!
# cmd/list.go

`list` reads the registry, one command after another, while other invocations go on.
-/

namespace PrivatePaas
set_option autoImplicit false
open Text Effects

namespace Cmd

/-- What `list` asks Redis. A call that fails answers with no keys, or with no value. -/
inductive ListOp where
  | keys (pattern : String)
  | get (key : String)

abbrev ListOp.Ret : ListOp → Type
  | keys _ => List String
  | get _ => Option String

def listSig : Signature := ⟨ListOp, ListOp.Ret⟩

abbrev Lister (α : Type) := Prog listSig α

def keys (pattern : String) : Lister (List String) := .call (.keys pattern) .ret
def getValue (key : String) : Lister (Option String) := .call (.get key) .ret

/-- `strings.SplitN(s, c, 2)` -/
def splitN (c : Char) (s : String) : List String :=
  match s.toList.span (· ≠ c) with
  | (_, []) => [s]
  | (a, _ :: b) => [String.ofList a, String.ofList b]

/-- One line of the table. -/
structure Row where
  resourceType : String
  resourceName : String
  pid : String
  ip : String
deriving DecidableEq

/-- `%-ns` -/
def pad (n : Nat) (s : String) : String := s ++ String.ofList (List.replicate (n - s.length) ' ')

/-- `"%-12s %-20s %-10s %s\n"` -/
def Row.line (r : Row) : String :=
  pad 12 r.resourceType ++ " " ++ pad 20 r.resourceName ++ " " ++ pad 10 r.pid ++ " " ++ r.ip ++ "\n"

def header : List String :=
  [Row.line ⟨"TYPE", "NAME", "PID", "IP"⟩, String.ofList (List.replicate 55 '-') ++ "\n"]

variable (Y : Yaml)

/-- One round of the loop over the keys. -/
def listKey (key val : String) : List Row :=
  match splitN ':' key with
  | [resourceType, resourceName] => [⟨resourceType, resourceName, (Y.decode val).pid, (Y.decode val).ip⟩]
  | _ => []

def listRows : List String → Lister (List Row)
  | [] => return []
  | key :: keys => do
    match ← getValue key with
    | none => listRows keys
    | some val =>
      let rows ← listRows keys
      return listKey Y key val ++ rows

/-- The text that is printed, line by line. -/
def runList : Lister (List String) := do
  let serviceKeys ← keys "service:*"
  let dbKeys ← keys "database:*"
  let allKeys := serviceKeys ++ dbKeys
  if allKeys = [] then return ["No active services or databases found.\n"]
  let rows ← listRows Y allKeys
  return header ++ rows.map Row.line

end Cmd
end PrivatePaas
