import PrivatePaas.Code.Parser

/-!
# cmd/create.go and cmd/delete.go
-/

namespace PrivatePaas
set_option autoImplicit false
open Files Text Effects Go Network PrivatePaas.Parser

namespace Cmd
variable (Y : Yaml)

def serviceKey (name : String) : String := "service:" ++ name
def databaseKey (name : String) : String := "database:" ++ name

/-- The record of a service as it is when `CreateService` returns. -/
def serviceEntry (s : Parser.Service) (ip : String) : Service where
  pid := itoa s.pid
  configFileName := if s.lb then envoyConfigPath s.lbConfig.upstreamName else ""
  ip := ip

def databaseEntry (d : Database) (ip : String) : Service := ⟨d.pid, "", ip⟩

def createByType (file : File) (ip : String) : Go Unit := do
  if file.type = "service" then
    createBridge
    let s ← Service.createService Y file.body ip
    let _ ← set (serviceKey s.name) (Y.marshalRecord (serviceEntry s ip))
    return ()
  else if file.type = "db" then
    let d ← Database.createDatabase Y file.body ip
    let _ ← set (databaseKey d.name) (Y.marshalRecord (databaseEntry d ip))
    return ()
  else return ()

/-- `create` with the absolute path of its configuration file. -/
def runCreate (filepath : Path) : Go Unit := do
  match ← readFile filepath with
  | .error _ => return ()
  | .ok f =>
    match Y.unmarshalFile f with
    | none => return ()
    | some file =>
      let ip ← getIp
      createByType Y file ip

def releaseOf (service : Service) : Go Unit := do
  if service.ip = "" then return ()
  let _ ← releaseIp service.ip
  return ()

def removeConfig (service : Service) : Go Unit := do
  if service.configFileName = "" then return ()
  let _ ← remove (split '/' service.configFileName)
  return ()

def deleteProcess (name type_ : String) : Go Unit := do
  let key := type_ ++ ":" ++ name
  match ← get key with
  | none => return ()
  | some serviceStruct =>
    let service := Y.decode serviceStruct
    releaseOf service
    -- 1. Kill the process
    let _ ← kill (atoi service.pid).1 .sigkill
    -- 2. Stop Envoy process
    let _ ← stopEnvoy
    -- 3. Delete the config file from Envoy
    removeConfig service
    -- 4. Restart Envoy to apply the changes
    let _ ← startEnvoy
    -- 5. Delete from Redis
    let _ ← del key
    return ()

def runDelete (type_ name : String) : Go Unit := do
  if type_ ≠ "service" ∧ type_ ≠ "database" then return ()
  deleteProcess Y name type_

end Cmd
end PrivatePaas
