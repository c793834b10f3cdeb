import PrivatePaas.Host.Operations

/-!
# network/network_manager.go and utils/network.go

`createVethPair` and `GetNetworkNamespaceForProcess` have no caller and are left
out, and with them the peer route of `configureInterfaceInNamespace`, which is
only ever asked for without a peer.
-/

namespace PrivatePaas
set_option autoImplicit false
open Files Text Effects Go

namespace Utils
open Network

/-- The pid in the pid file if it is alive, else 0; `none` is an error. -/
def findPidForEnvoy : Go (Option Int) := do
  match ← readFile envoyPidFile with
  | .error .notExist => return some 0
  | .error .other => return none
  | .ok data =>
    match atoi (trimSpace data) with
    | (_, false) => return none
    | (pid, true) =>
      if ← signal0 pid then return some pid
      return some 0

end Utils

namespace Network
open Utils

/-- `false` is an error. -/
def stopEnvoy : Go Bool := do
  match ← findPidForEnvoy with
  | none => return false
  | some pid =>
    if pid = 0 then return true
    match ← kill pid .sigterm with
    | some .eperm => return false
    | _ =>
      let _ ← remove envoyPidFile
      return true

def envoyCgroup : Path := ["sys", "fs", "cgroup", "envoyLb"]

def moveProcessToEnvoyCgroup (pid : Nat) : Go Unit := do
  if !(← mkdirAll envoyCgroup) then return ()
  let _ ← writeFile (envoyCgroup ++ ["pids.max"]) "100"
  let _ ← writeFile (envoyCgroup ++ ["cgroup.procs"]) (itoa pid)
  return ()

/-- The storage that Redis' answer to the probe selects. -/
def selectStorage : Go Storage := do
  if ← ping then
    if ← newRedis then return .redis
    return .memory
  return .memory

/-- The storage of the pool, or `none` for an error. -/
def getIpam : Go (Option Storage) := do
  let storage ← selectStorage
  if ← prefixFrom storage then return some storage
  match ← newPrefix storage with
  | .failed => return none
  | _ =>
    -- Reserve 10.0.0.254 for host bridge br0
    let _ ← acquireSpecificIP storage (host 254)
    return some storage

/-- `false` is an error. -/
def releaseIp (ipStr : String) : Go Bool := do
  match ← getIpam with
  | none => return false
  | some storage =>
    if cleanIP ipStr = "" then return true
    releaseIP storage (cleanIP ipStr)

def getOrAcquireEnvoyIp : Go (Option String) := do
  match ← getIpam with
  | none => return none
  | some storage =>
    match ← acquireSpecificIP storage (host 1) with
    | some ip => return some ip
    | none => return some (host 1)

/-- The acquired address, empty when there is none. -/
def getIp : Go String := do
  match ← getIpam with
  | none => return ""
  | some storage =>
    match ← acquireIP storage with
    | none => return ""
    | some ip => return ip

def br0 : IfName := bytes "br0"

/-- A panic where `br0` is not a bridge in the end: the type assertion fails. -/
def createBridge : Go Unit := do
  if (← linkByName 0 br0) = some true then return ()
  let _ ← linkAddBridge br0
  let _ ← linkSetUp 0 br0
  let _ ← addrAdd 0 br0 "10.0.0.254/24"
  if (← linkByName 0 br0) = some true then return ()
  fatal

/-- `netlink.ParseAddr` on `a.b.c.d/n`, where no number has a sign or a leading zero, as in
the addresses of the pool. -/
def parseAddr (cidr : String) : Bool :=
  match split '/' cidr with
  | [a, n] =>
    (match atoi n with | (k, ok) => ok ∧ 0 ≤ k ∧ k ≤ 32) ∧
    (split '.' a).length = 4 ∧
    (split '.' a).all fun d => match atoi d with | (k, ok) => ok ∧ 0 ≤ k ∧ k ≤ 255
  | _ => false

/-- The INPUT rules of a namespace, in the order in which they are appended. -/
def firewall : List Rule :=
  [.acceptLo, .acceptEstablished, .acceptSource "10.0.0.0/24", .drop]

def appendRules (pid : Nat) : List Rule → Go Unit
  | [] => return ()
  | r :: rs => do
    let _ ← iptablesAppend pid r
    appendRules pid rs

def enableLoopback (pid : Nat) (enableLo : Bool) : Go Unit := do
  if enableLo then
    if (← linkByName pid (bytes "lo")) = none then return ()
    let _ ← linkSetUp pid (bytes "lo")
    return ()
  else return ()

def enableFirewall (pid : Nat) (vethName : IfName) : Go Unit := do
  if (bytes "v-envoy").isPrefixOf vethName then return ()
  appendRules pid firewall

def configureInterfaceInNamespace (pid : Nat) (vethName : IfName) (ipStr : String)
    (enableLo : Bool) : Go Bool := do
  if !(← enterNs pid) then return false
  if (← linkByName pid vethName) = none then return false
  let cidr := if '/' ∈ ipStr.toList then ipStr else ipStr ++ "/24"
  if !parseAddr cidr then return false
  if !(← addrAdd pid vethName cidr) then return false
  if !(← linkSetUp pid vethName) then return false
  enableLoopback pid enableLo
  enableFirewall pid vethName
  return true

/-- The two interface names for a prefix and a pid. -/
def vethNames (vethNamePrefix : IfName) (pid : Nat) : IfName × IfName :=
  let safePrefix := vethNamePrefix.take 9
  let base := safePrefix ++ bytes "_" ++ bytes (itoa (pid % 1000 : Nat))
  ((base ++ bytes "_n").take 15, (base ++ bytes "_b").take 15)

def delExisting (name : IfName) : Go Unit := do
  if (← linkByName 0 name) = none then return ()
  let _ ← linkDel name
  return ()

/-- `false` is an error. -/
def connectProcessToBridge (pid : Nat) (ip : String) (vethNamePrefix : IfName) : Go Bool := do
  let (vethInsideName, vethOutsideName) := vethNames vethNamePrefix pid
  delExisting vethInsideName
  delExisting vethOutsideName
  if !(← linkAddVeth vethInsideName vethOutsideName) then return false
  if (← linkByName 0 vethInsideName) = none then return false
  if (← linkByName 0 vethOutsideName) = none then return false
  if !(← linkSetMaster vethOutsideName) then return false
  if !(← linkSetUp 0 vethOutsideName) then return false
  if !(← linkSetNs vethInsideName pid) then return false
  configureInterfaceInNamespace pid vethInsideName ip true

/-- Where the Envoy binary is looked for. -/
def envoyBinary : Go String := do
  match ← lookPath "envoy" with
  | some path => return path
  | none =>
    match ← stat ["home", "linuxbrew", ".linuxbrew", "bin", "envoy"] with
    | .ok _ => return "/home/linuxbrew/.linuxbrew/bin/envoy"
    | .error _ =>
      match ← stat ["usr", "local", "bin", "envoy"] with
      | .ok _ => return "/usr/local/bin/envoy"
      | .error _ => return "envoy"

/-- Stop existing PaaS envoy if any -/
def stopExisting : Go Unit := do
  match ← findPidForEnvoy with
  | none => return ()
  | some pid =>
    if pid = 0 then return ()
    let _ ← kill pid .sigterm
    return ()

/-- Ensure the config file exists -/
def ensureConfig : Go Unit := do
  let _ ← mkdirAll ["run"]
  match ← stat envoyConfig with
  | .error .notExist =>
    let _ ← writeFile envoyConfig bootstrapConfig
    return ()
  | _ => return ()

def connectEnvoy (pid : Nat) (ip : String) : Go Unit := do
  createBridge
  let _ ← connectProcessToBridge pid ip (bytes "v-envoy")
  return ()

/-- The pid of the new process, or `none` for an error. -/
def startEnvoy : Go (Option Nat) := do
  stopExisting
  ensureConfig
  let envoyBin ← envoyBinary
  let _ ← openAppend ["var", "log", "envoy-paas.log"]
  match ← start (.envoy envoyBin envoyConfig) with
  | none => return none
  | some pid =>
    moveProcessToEnvoyCgroup pid
    let _ ← writeFile envoyPidFile (itoa pid)
    match ← getOrAcquireEnvoyIp with
    | none => return none
    | some ip =>
      connectEnvoy pid ip
      return some pid

end Network
end PrivatePaas
