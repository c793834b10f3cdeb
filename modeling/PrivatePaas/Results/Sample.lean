import PrivatePaas.Codec
import PrivatePaas.Registry.Runs

/-!
# A sample host

The host on which the results are tried out: a few configuration files, the codec that
knows them, and the allocator that searches from below.
-/

namespace PrivatePaas
set_option autoImplicit false
open Files Text Effects Network PrivatePaas.Parser

namespace Sample

instance neZero_two : NeZero 2 := ⟨two_ne_zero⟩

/-- A configuration file: its name, its type, the lines of its body and what they say. -/
structure Config where
  name : String
  type : String
  lines : List String
  service : Parser.Service := {}
  database : Database := {}

namespace Config

def body (c : Config) : String := String.join (c.lines.map fun l => l ++ "\n")

def text (c : Config) : String :=
  "type: " ++ c.type ++ "\nbody: |\n" ++ String.join (c.lines.map fun l => "  " ++ l ++ "\n")

end Config

/-- A Python service without a load balancer. -/
def web : Config where
  name := "web.yaml"
  type := "service"
  lines := ["name: web", "path: /srv/web.py", "technology: python"]
  service := { name := "web", path := "/srv/web.py", technology := "python" }

/-- A Python service behind Envoy. -/
def shop : Config where
  name := "shop.yaml"
  type := "service"
  lines := ["name: shop", "lb: true", "path: /srv/shop.py", "technology: python", "lbconfig:",
    "  upstreamname: shop", "  listenport: 8082", "  domain: shop.local"]
  service := {
    name := "shop"
    lb := true
    path := "/srv/shop.py"
    technology := "python"
    lbConfig := { upstreamName := "shop", listenPort := 8082, domain := "shop.local" } }

/-- Another one. -/
def blog : Config where
  name := "blog.yaml"
  type := "service"
  lines := ["name: blog", "lb: true", "path: /srv/blog.py", "technology: python", "lbconfig:",
    "  upstreamname: blog", "  listenport: 8083", "  domain: blog.local"]
  service := {
    name := "blog"
    lb := true
    path := "/srv/blog.py"
    technology := "python"
    lbConfig := { upstreamName := "blog", listenPort := 8083, domain := "blog.local" } }

/-- A service in a technology that `create` does not start. -/
def tool : Config where
  name := "tool.yaml"
  type := "service"
  lines := ["name: tool", "path: /srv/tool", "technology: go"]
  service := { name := "tool", path := "/srv/tool", technology := "go" }

/-- A file of a type that `create` does not know. -/
def odd : Config where
  name := "odd.yaml"
  type := "queue"
  lines := ["name: odd"]

def users : Config where
  name := "users.yaml"
  type := "db"
  lines := ["name: users", "technology: postgresql"]
  database := { name := "users", technology := "postgresql" }

def configs : List Config := [web, shop, blog, tool, odd, users]

def yaml : Yaml := quotedYaml
  (fun s => (configs.find? fun c => c.text = s).map fun c => ⟨c.type, c.body⟩)
  (fun s => match configs.find? fun c => c.body = s with
    | some c => (c.service, true)
    | none => ({}, false))
  (fun s => match configs.find? fun c => c.body = s with
    | some c => (c.database, true)
    | none => ({}, false))

theorem yaml_lawful : yaml.Lawful := quotedYaml_lawful _ _ _

def tree : Tree := Tree.ofFiles <|
  (configs.map fun c => (["root", c.name], c.text)) ++
    [(["opt", "ppass", "parser", "templates", "envoy.tmpl"], "static_resources:"),
     (["usr", "local", "bin", "envoy"], ""), (["run", "utmp"], ""), (["var", "log", "syslog"], ""),
     (["sys", "fs", "cgroup", "cgroup.procs"], "")]

section Runs
variable {ι : Type}

abbrev SampleEvent (ι : Type) := Event (Host yaml lowestFree) ι

def start : Machine (Host yaml lowestFree) ι := ⟨World.blank tree ["opt", "ppass"], fun _ => none⟩

theorem start_idle : (start (ι := ι)).Idle := fun _ => rfl

theorem start_workloads : ∀ q ∈ (World.procs (start (ι := ι)).world).all, q.role ≠ .workload := by
  intro q hq
  obtain rfl := List.mem_singleton.mp hq
  decide

theorem idle_of_isNone {m : Machine (Host yaml lowestFree) Unit} (h : (m.jobs ()).isNone = true) :
    m.Idle := by
  intro i
  cases i
  exact Option.isNone_iff_eq_none.mp h

def create (i : ι) (c : Config) (pid : Nat) : SampleEvent ι :=
  .launch i ⟨.create ["root", c.name], pid, 0⟩

def delete (i : ι) (type_ name : String) (pid : Nat) : SampleEvent ι :=
  .launch i ⟨.delete type_ name, pid, 0⟩

/-- `n` operations of job `i`; what it starts gets the given pid. -/
def steps (i : ι) (n : Nat) (pid : Nat) : List (SampleEvent ι) :=
  List.replicate n (.act i { pid := pid })

/-- Two services and a database come and go. -/
def comings : List (SampleEvent Unit) :=
  create () web 100 :: steps () 30 101 ++ create () users 110 :: steps () 60 111 ++
    delete () "service" "web" 120 :: steps () 80 121 ++ create () blog 130 :: steps () 30 131 ++
    steps () 60 132

/-- A host with its bridge, a CLI process and two processes that wait to be connected. -/
def wired : World :=
  { World.blank tree ["opt", "ppass"] with
    procs := ⟨[⟨5, 5, .cli, 1, "", false⟩, ⟨1001, 1001, .workload, 1, "10.0.0.3", false⟩,
      ⟨2001, 2001, .workload, 2, "10.0.0.4", false⟩], by decide⟩
    net := { links := [{ name := br0, ns := 0, bridge := true }, { name := bytes "lo", ns := 1001 },
      { name := bytes "lo", ns := 2001 }] } }

/-- The invocation whose process is there. -/
def caller : Local := Launch.invocation ⟨.startEnvoy, 5, 0⟩ 1

end Runs
end Sample
end PrivatePaas
