import PrivatePaas.Code.NetworkManager

/-!
# parser/: lb_parser.go, service_parser.go, service.go, db_parser.go, db.go

`CreateEnvoy` and `EnvoyConfig.cg` have no caller and are left out, as are the
`chown` calls. `Marshal` does not fail on these structs.
-/

namespace PrivatePaas
set_option autoImplicit false
open Files Text Effects Go Network

namespace Parser
variable (Y : Yaml)

/-- One round of the loop over the fragments: what a fragment adds to the list. -/
def fragmentServices (read : Except Err String) : List EnvoyService :=
  match read with
  | .error _ => []
  | .ok data =>
    match Y.unmarshalConfig data with
    | none => []
    | some c => [toEnvoyService c]

/-- Read all files and parse them -/
def readFragments : List String → List EnvoyService → Go (List EnvoyService)
  | [], envoyServices => return envoyServices
  | file :: files, envoyServices => do
    let data ← readFile (envoyConfDir ++ [file])
    readFragments files (envoyServices ++ fragmentServices Y data)

def templatePath (pwd : Path) : Path := pwd ++ ["parser", "templates", "envoy.tmpl"]

def updateLbConfig (config : ServiceEnvoyConfig) : Go Unit := do
  if !(← mkdirAll envoyConfDir) then fatal
  else if !(← writeFile (serviceConfPath config.upstreamName) (Y.marshalConfig config)) then fatal
  else
    let files ← glob envoyConfDir ".yaml"
    let envoyServices ← readFragments Y files []
    match ← getwd with
    | none => fatal
    | some pwd =>
      if !(← parseFiles (templatePath pwd)) then fatal
      else if !(← create envoyConfig) then fatal
      else if !(← write envoyConfig (envoyTmpl envoyServices)) then fatal
      else
        let _ ← startEnvoy
        return ()

/-- A struct that did not decode is left as it is, untrimmed. -/
def parseService (body : String) : Service :=
  match Y.unmarshalService body with
  | (s, false) => s
  | (s, true) =>
    { s with technology := trimSpace s.technology, name := trimSpace s.name, path := trimSpace s.path }

/-- The error is dropped by the caller. -/
def parseYaml (body : String) : Database := (Y.unmarshalDatabase body).1

/-- Wait for the network namespace of the process; `false` after the last retry. -/
def waitNetns (pid : Nat) : Nat → Go Bool
  | 0 => return false
  | retries + 1 => do
    if ← netnsReady pid then return true
    waitNetns pid retries

def logPath (name : String) : Path := ["var", "log"] ++ split '/' (name ++ ".log")

namespace Service

def cgroup (pid : Nat) : Path := ["sys", "fs", "cgroup", itoa pid]

def writeLimit (file : Path) (value : String) : Go Unit := do
  if value = "" then return ()
  let _ ← writeFile file value
  return ()

/-- cg places the process into a cgroup -/
def cg (s : Service) (pid : Nat) : Go Unit := do
  if !(← mkdirAll (cgroup pid)) then return ()
  writeLimit (cgroup pid ++ ["memory.max"]) s.limitations.memory
  writeLimit (cgroup pid ++ ["cpu.max"]) s.limitations.cpu
  writeLimit (cgroup pid ++ ["pids.max"]) s.limitations.pids

/-- ConnectToLb connects the service process to the load balancer bridge -/
def connectToLb (s : Service) (pid : Nat) (ip : String) : Go Unit := do
  let _ ← connectProcessToBridge pid ip (bytes ("v-" ++ s.name))
  return ()

def connectIfLb (s : Service) (pid : Nat) (ip : String) : Go Unit :=
  if s.lb then s.connectToLb pid ip else return ()

/-- The pid of the started process. -/
def execPythonService (s : Service) (ip : String) : Go Nat := do
  if !(← openAppend (logPath s.name)) then fatal
  else
    match ← start (.containerInit s.path) with
    | none => fatal
    | some pid =>
      if !(← waitNetns pid 10) then fatal
      else
        s.cg pid
        s.connectIfLb pid ip
        if !(← release pid) then fatal
        else return pid

/-- The service's own servers, or the address that was acquired for it. -/
def withServers (s : Service) (ip : String) : Service :=
  if s.lbConfig.servers = [] then
    { s with lbConfig := { s.lbConfig with servers := [ip ++ ":8888"] } }
  else s

/-- The service as `runCreate` finds it afterwards. -/
def createService (body ip : String) : Go Service := do
  let s := parseService Y body
  if s.technology = python then
    if s.lb then
      let s := s.withServers ip
      updateLbConfig Y s.lbConfig
      let pid ← s.execPythonService ip
      return { s with pid := pid }
    else
      let pid ← s.execPythonService ip
      return { s with pid := pid }
  else return s

end Service

namespace Database

def candidates : List Path :=
  [["usr", "lib", "postgresql", "14", "bin"], ["usr", "lib", "postgresql", "12", "bin"],
   ["usr", "lib", "postgresql", "16", "bin"], ["usr", "lib", "postgresql", "15", "bin"],
   ["usr", "lib", "postgresql", "13", "bin"], ["usr", "local", "bin"]]

def firstExisting (name : String) : List Path → Go String
  | [] => return name
  | c :: cs => do
    match ← stat (c ++ [name]) with
    | .ok _ => return "/" ++ String.intercalate "/" (c ++ [name])
    | .error _ => firstExisting name cs

/-- `findPostgresBin` and `findInitdbBin` -/
def findBin (name : String) : Go String := do
  match ← lookPath name with
  | some path => return path
  | none => firstExisting name candidates

def findPostgresBin : Go String := findBin "postgres"
def findInitdbBin : Go String := findBin "initdb"

def dataDir (name : String) : Path := ["var", "lib", "postgresql", "data"] ++ split '/' name

def hbaRule : String := "\nhost all all 0.0.0.0/0 trust\n"

/-- Initialize data directory with initdb if it doesn't exist yet -/
def initDataDir (dir : Path) : Go Unit := do
  match ← stat (clean (dir ++ ["PG_VERSION"])) with
  | .error .notExist =>
    let _ ← mkdirAll dir
    let initdbBin ← findInitdbBin
    let _ ← initdb initdbBin dir
    return ()
  | _ => return ()

/-- Ensure pg_hba.conf allows connections from the bridge subnet -/
def allowBridge (dir : Path) : Go Unit := do
  match ← readFile (clean (dir ++ ["pg_hba.conf"])) with
  | .error _ => return ()
  | .ok data =>
    if "0.0.0.0/0".toList <:+: data.toList then return ()
    let _ ← append (clean (dir ++ ["pg_hba.conf"])) hbaRule
    return ()

def cgroup (name : String) : Path :=
  clean (["sys", "fs", "cgroup"] ++ split '/' (name ++ "_cgroup"))

def cg (d : Database) (pid : Nat) : Go Unit := do
  if !(← mkdirAll (cgroup d.name)) then return ()
  let _ ← writeFile (cgroup d.name ++ ["memory.max"]) "200M"
  let _ ← writeFile (cgroup d.name ++ ["io.weight"]) "100"
  if !(← writeFile (cgroup d.name ++ ["cgroup.procs"]) (itoa pid)) then fatal
  else return ()

/-- The pid of the started process. -/
def execPostgreSQL (d : Database) : Go Nat := do
  let _ ← lookupUser "postgres"
  let _ ← mkdirAll ["var", "lib", "postgresql", "data"]
  initDataDir (dataDir d.name)
  allowBridge (dataDir d.name)
  let postgresBin ← findPostgresBin
  if !(← openAppend (logPath d.name)) then fatal
  else
    match ← start (.postgres postgresBin (dataDir d.name)) with
    | none => fatal
    | some pid =>
      if !(← waitNetns pid 20) then fatal
      else
        d.cg pid
        return pid

def connectToBridge (d : Database) (pid : Nat) (ip : String) : Go Unit := do
  createBridge
  let _ ← connectProcessToBridge pid ip (bytes ("v-" ++ d.name))
  return ()

/-- The database as `runCreate` finds it afterwards. -/
def createDatabase (body ip : String) : Go Database := do
  let d := parseYaml Y body
  if d.technology = postgreSQL then
    let pid ← d.execPostgreSQL
    d.connectToBridge pid ip
    return { d with pid := itoa pid }
  else return d

end Database
end Parser
end PrivatePaas
