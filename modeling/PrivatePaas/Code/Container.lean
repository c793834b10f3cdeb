import PrivatePaas.Base.Mounts
import PrivatePaas.Data

/-!
# parser/service.go: RunContainerInit

What the started process does before it becomes python3. Its errors are ignored but
for that of `pivot_root`; here `none` says that a mount, `pivot_root`, the change of
directory or the unmount has failed.
-/

namespace PrivatePaas
set_option autoImplicit false
open Files Text

namespace Parser

/-- The file system of the host, and a fresh /proc. -/
inductive Fs where
  | host
  | proc
deriving DecidableEq

/-- The path starts at the root. -/
def isRooted (path : String) : Bool := path.toList.head? = some '/'

/-- `filepath.Clean`, name by name. -/
def cleanStep (rooted : Bool) (q : List String) (c : String) : List String :=
  if c = "" ∨ c = "." then q
  else if c = ".." then
    match q.getLast? with
    | none => if rooted then [] else [".."]
    | some d => if d = ".." then q ++ [".."] else q.dropLast
  else q ++ [c]

/-- The names before the last one. -/
def dirNames (path : String) : List String := (split '/' path).dropLast

/-- `filepath.Dir` -/
def dir (path : String) : List String := (dirNames path).foldl (cleanStep (isRooted path)) []

def pivotRoot (newroot : Path) (ns : Mounts Fs) : Option (Mounts Fs) := do
  -- newroot must be a mount point
  let ns ← ns.bind true newroot newroot
  -- Switch the root filesystem
  let putold := newroot ++ [".oldroot"]
  let ns := (ns.mkdirAll putold).getD ns
  let ns ← ns.pivot newroot putold
  let ns ← ns.chdir []
  let ns ← ns.detach [".oldroot"]
  return (ns.remove [".oldroot"]).getD ns

/-- What python3 finds when it is executed with `servicePath`. -/
def runContainerInit (pwd : Path) (servicePath : String) (ns : Mounts Fs) : Option (Mounts Fs) := do
  let absRootfs := pwd ++ ["rootfs"]
  -- Making the Python script accessible inside the container
  let appDir := absRootfs ++ ["app"]
  let ns := (ns.mkdirAll appDir).getD ns
  let ns ← ns.bind (isRooted servicePath) (dir servicePath) appDir
  let ns ← pivotRoot absRootfs ns
  -- Mount fresh /proc for the new PID namespace
  let ns := (ns.mkdirAll ["proc"]).getD ns
  ns.mountFs .proc ["proc"]

/-- The process as it is started: in the directory in which the CLI runs. -/
def onHost (host proc : Tree) (pwd : Path) : Mounts Fs where
  tree
    | .host => host
    | .proc => proc
  mounts := [⟨0, .host, [], none⟩]
  fresh := 1
  root := ⟨0, []⟩
  cwd := ⟨0, pwd⟩

/-- The file that a path names. -/
def fileAt (ns : Mounts Fs) (path : String) : Option (Fs × Path) :=
  (ns.resolve (isRooted path) (split '/' path)).bind ns.file

end Parser
end PrivatePaas
