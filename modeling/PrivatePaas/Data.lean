import Mathlib.Data.Finset.Insert
import PrivatePaas.Base.Text
import PrivatePaas.Base.FileTree

/-!
# Configuration files, registry records and the Envoy configuration

The structs of `cmd/root.go` and `parser/`, the two libraries they are encoded
with, and `parser/templates/envoy.tmpl`. `Yaml` and `GoIpam` are parameters:
gopkg.in/yaml.v2 and go-ipam are not part of the repository.
-/

namespace PrivatePaas
set_option autoImplicit false
open Files Text

namespace Cmd

/-- The file handed to `create`. -/
structure File where
  type : String
  body : String
deriving DecidableEq, Repr

/-- What Redis keeps for a workload. -/
structure Service where
  pid : String
  configFileName : String
  ip : String
deriving DecidableEq, Repr

end Cmd

namespace Parser

def python : String := "python"
def postgreSQL : String := "postgresql"

structure ServiceEnvoyConfig where
  upstreamName : String := ""
  servers : List String := []
  listenPort : Int := 0
  domain : String := ""
deriving DecidableEq, Repr

structure Limitations where
  memory : String := ""
  cpu : String := ""
  pids : String := ""
deriving DecidableEq, Repr

/-- `pid` has no yaml tag, so a body may set it under the key `pid`. -/
structure Service where
  name : String := ""
  lb : Bool := false
  path : String := ""
  technology : String := ""
  lbConfig : ServiceEnvoyConfig := {}
  limitations : Limitations := {}
  pid : Int := 0
deriving DecidableEq, Repr

structure Database where
  name : String := ""
  technology : String := ""
  username : String := ""
  password : String := ""
  initScript : Option String := none
  pid : String := ""
deriving DecidableEq, Repr

structure EnvoyServer where
  address : String
  port : Int
deriving DecidableEq, Repr

structure EnvoyService where
  upstreamName : String
  listenPort : Int
  domain : String
  servers : List EnvoyServer
deriving DecidableEq, Repr

end Parser

/-- gopkg.in/yaml.v2. A Boolean result says whether the error is nil; on an error the
struct holds what had been decoded by then. -/
structure Yaml where
  unmarshalFile : String → Option Cmd.File
  unmarshalService : String → Parser.Service × Bool
  unmarshalDatabase : String → Parser.Database × Bool
  marshalRecord : Cmd.Service → String
  unmarshalRecord : String → Cmd.Service × Bool
  marshalConfig : Parser.ServiceEnvoyConfig → String
  unmarshalConfig : String → Option Parser.ServiceEnvoyConfig

/-- What is written is read back. -/
structure Yaml.Lawful (Y : Yaml) : Prop where
  record : ∀ r, Y.unmarshalRecord (Y.marshalRecord r) = (r, true)
  config : ∀ c, Y.unmarshalConfig (Y.marshalConfig c) = some c

/-- The record behind a stored text; a text that is no record is taken for a pid. -/
def Yaml.decode (Y : Yaml) (text : String) : Cmd.Service :=
  match Y.unmarshalRecord text with
  | (r, true) => r
  | (r, false) => { r with pid := text }

@[simp] theorem Yaml.Lawful.decode_marshal {Y : Yaml} (h : Y.Lawful) (r : Cmd.Service) :
    Y.decode (Y.marshalRecord r) = r := by
  simp [Yaml.decode, h.record]

/-- The address `10.0.0.n`. -/
def host (n : Nat) : String := "10.0.0." ++ itoa n

/-- The addresses of the prefix 10.0.0.0/24. -/
def hosts : List String := (List.range 256).map host

theorem host_injective {m n : Nat} (h : host m = host n) : m = n :=
  itoa_injective ((String.append_right_inj _).mp h)

theorem mem_hosts {a : String} : a ∈ hosts ↔ ∃ n < 256, host n = a := by
  simp [hosts]

/-- The choice of `AcquireIP` among the allocated and the free addresses of a prefix. -/
structure GoIpam where
  acquireIP : Finset String → Option String

/-- `AcquireIP` answers with a free address of the prefix as long as there is one. -/
structure GoIpam.Lawful (G : GoIpam) : Prop where
  host : ∀ s a, G.acquireIP s = some a → a ∈ hosts
  free : ∀ s a, G.acquireIP s = some a → a ∉ s
  full : ∀ s, G.acquireIP s = none → ∀ a ∈ hosts, a ∈ s

/-- `AcquireIP` answers with the lowest free address. -/
def GoIpam.LowestFirst (G : GoIpam) : Prop :=
  ∀ s n, G.acquireIP s = some (PrivatePaas.host n) → ∀ k < n, PrivatePaas.host k ∈ s

/-- The allocator that searches the prefix from below. -/
def lowestFree : GoIpam where
  acquireIP s := hosts.find? fun a => a ∉ s

theorem lowestFree_eq (s : Finset String) :
    lowestFree.acquireIP s = hosts.find? fun a => decide (a ∉ s) := rfl

theorem lowestFree_lawful : lowestFree.Lawful where
  host s a h := List.mem_of_find?_eq_some (lowestFree_eq s ▸ h)
  free s a h := by
    rw [lowestFree_eq] at h
    simpa using List.find?_some h
  full s h a ha := by
    rw [lowestFree_eq] at h
    simpa using List.find?_eq_none.mp h a ha

theorem lowestFree_lowestFirst : lowestFree.LowestFirst := by
  intro s n h k hk
  rw [lowestFree_eq] at h
  obtain ⟨_, i, hi, hn, hlt⟩ := List.find?_eq_some_iff_getElem.mp h
  have hlen : i < 256 := by simpa [hosts] using hi
  have hin : i = n := host_injective (by simpa [hosts] using hn)
  have hki := hlt k (by omega)
  simpa [hosts] using hki

namespace Parser

/-- The listener that the template writes for one service. -/
def listener (s : EnvoyService) : String :=
  "\n    - name: listener_" ++ s.upstreamName ++
  "\n      address:\n        socket_address:\n          address: 0.0.0.0\n          port_value: " ++
  itoa s.listenPort ++
  "\n      filter_chains:\n      - filters:\n        - name: envoy.filters.network.http_connection_manager" ++
  "\n          typed_config:\n            \"@type\": type.googleapis.com/envoy.extensions.filters.network." ++
  "http_connection_manager.v3.HttpConnectionManager\n            stat_prefix: ingress_http" ++
  "\n            route_config:\n              name: local_route\n              virtual_hosts:" ++
  "\n              - name: local_service\n                domains: [\"" ++ s.domain ++ "\", \"" ++
  s.domain ++ ":*\"]\n                routes:\n                - match:\n                    prefix: \"/\"" ++
  "\n                  route:\n                    cluster: cluster_" ++ s.upstreamName ++
  "\n            http_filters:\n            - name: envoy.filters.http.router" ++
  "\n              typed_config:\n                \"@type\": type.googleapis.com/envoy.extensions.filters." ++
  "http.router.v3.Router"

def endpoint (s : EnvoyServer) : String :=
  "\n          - endpoint:\n              address:\n                socket_address:" ++
  "\n                  address: " ++ s.address ++ "\n                  port_value: " ++ itoa s.port

def cluster (s : EnvoyService) : String :=
  "\n    - name: cluster_" ++ s.upstreamName ++
  "\n      connect_timeout: 0.25s\n      type: STATIC\n      lb_policy: ROUND_ROBIN" ++
  "\n      load_assignment:\n        cluster_name: cluster_" ++ s.upstreamName ++
  "\n        endpoints:\n        - lb_endpoints:" ++
  s.servers.foldr (fun e r => endpoint e ++ r) ""

/-- `envoy.tmpl` executed on a list of services. -/
def envoyTmpl (ss : List EnvoyService) : String :=
  "static_resources:\n  listeners:" ++ ss.foldr (fun s r => listener s ++ r) "" ++
  "\n\n  clusters:" ++ ss.foldr (fun s r => cluster s ++ r) "" ++ "\n"

/-- One entry of `servers:`, split at every colon. -/
def parseServer (srv : String) : EnvoyServer :=
  match split ':' srv with
  | [] => ⟨"", 80⟩
  | [a] => ⟨a, 80⟩
  | a :: p :: _ => ⟨a, match atoi p with | (n, true) => n | (_, false) => 80⟩

def toEnvoyService (c : ServiceEnvoyConfig) : EnvoyService :=
  ⟨c.upstreamName, c.listenPort, c.domain, c.servers.map parseServer⟩

/-- `filepath.Clean` of an absolute path. -/
def clean (p : Path) : Path :=
  p.foldl (fun q c => if c = "" ∨ c = "." then q else if c = ".." then q.dropLast else q ++ [c]) []

theorem clean_concat (p : Path) {n : String} (hn : Proper n) : clean (p ++ [n]) = clean p ++ [n] := by
  simp [clean, List.foldl_append, hn.1, hn.2.1, hn.2.2]

def envoyConfDir : Path := ["etc", "envoy", "conf.d"]

/-- Where `UpdateLbConfig` writes the fragment of an upstream: `filepath.Join` cleans the path. -/
def serviceConfPath (upstream : String) : Path :=
  clean (envoyConfDir ++ split '/' (upstream ++ ".yaml"))

end Parser

namespace Network

def envoyPidFile : Path := ["run", "envoy-paas.pid"]
def envoyConfig : Path := ["run", "envoy-paas.yaml"]

/-- What `StartEnvoy` writes where no configuration exists yet. -/
def bootstrapConfig : String := "static_resources:\n  listeners: []\n  clusters: []\n"

/-- The address text that `ReleaseIp` hands on. -/
def cleanIP (ipStr : String) : String := trimSpace ((split '/' ipStr).headD "")

end Network

namespace Cmd

/-- The path text that `runCreate` stores for a load-balanced service; it is not cleaned. -/
def envoyConfigPath (upstream : String) : String := "/etc/envoy/conf.d/" ++ upstream ++ ".yaml"

end Cmd
end PrivatePaas
