import PrivatePaas.Base.Shell
import PrivatePaas.Host.Operations

/-!
# cmd/cleanup.go
-/

namespace PrivatePaas
set_option autoImplicit false

namespace Cmd

/-- `strings.HasPrefix(iface.Name, "v-")` -/
def hanging (name : IfName) : Bool := (bytes "v-").isPrefixOf name

def deleteCommand (name : IfName) : Shell.Bytes := bytes "ip link delete " ++ name

/-- `interfaces` is the answer of `net.Interfaces`, `none` an error; `sh` runs one command line. -/
def runCleanup {W : Type} (sh : Shell.Bytes → W → W) (interfaces : Option (List IfName)) (w : W) : W :=
  match interfaces with
  | none => w
  | some names => names.foldl (fun w name => if hanging name then sh (deleteCommand name) w else w) w

end Cmd
end PrivatePaas
