import PrivatePaas.Registry.Fragments
import PrivatePaas.Results.Updates

/-!
# Bodies that do not parse

On an error the decoder has filled in the fields that fit. `ParseService` logs the error,
the caller of `ParseYaml` drops it, and both go on with the struct they have.
-/

namespace PrivatePaas
set_option autoImplicit false
open Files Text Effects Go Network Prog PrivatePaas.Parser

variable {Y : Yaml} {body : String}

/-- An operation that starts no process and writes to no yaml file, so neither to a
fragment nor to the Envoy configuration. -/
def Inert : Op → Prop
  | .proc (.start _) => False
  | .fs o => ∀ p, o.Writes p → ¬ YamlFile p
  | _ => True

/-- No process, no fragment and not the Envoy configuration is another one. -/
structure Unchanged (w w' : World) : Prop where
  procs : w'.procs = w.procs
  yaml : ∀ q, YamlFile q → w'.fs.content q = w.fs.content q

theorem Unchanged.refl (w : World) : Unchanged w w := ⟨rfl, fun _ _ => rfl⟩

/-- The struct is left as it was, and `CreateService` then changes nothing. -/
def ServiceIgnored (Y : Yaml) (body : String) : Prop :=
  parseService Y body = {} ∧ ∀ (G : GoIpam) (ip : String) (f : Nat → Choice) (l : Local) (w : World),
    Unchanged w ((Host Y G).exec f l w (Service.createService Y body ip)).world

def DatabaseIgnored (Y : Yaml) (body : String) : Prop :=
  parseYaml Y body = {} ∧ ∀ (G : GoIpam) (ip : String) (f : Nat → Choice) (l : Local) (w : World),
    Unchanged w ((Host Y G).exec f l w (Database.createDatabase Y body ip)).world

theorem parseService_of_error (h : (Y.unmarshalService body).2 = false) :
    parseService Y body = (Y.unmarshalService body).1 := by
  unfold parseService
  split
  · rename_i hs
    rw [hs]
  · rename_i hs
    rw [hs] at h
    cases h

theorem createService_other (h : (parseService Y body).technology ≠ python) (ip : String) :
    Service.createService Y body ip = .ret (parseService Y body) := by
  unfold Service.createService
  exact if_neg h

theorem createDatabase_other (h : (parseYaml Y body).technology ≠ postgreSQL) (ip : String) :
    Database.createDatabase Y body ip = .ret (parseYaml Y body) := by
  unfold Database.createDatabase
  exact if_neg h

/-- Where the directory can be made, a fragment is written. -/
theorem not_inert_updateLbConfig (c : ServiceEnvoyConfig) : ¬ Only Inert (updateLbConfig Y c) := by
  intro h
  have hwrite : Inert (.fs (.writeFile (serviceConfPath c.upstreamName) (Y.marshalConfig c))) := (h.2 true).1
  exact hwrite _ rfl (yamlFile_serviceConfPath c.upstreamName)

/-- Where the log can be opened, a process is started. -/
theorem not_inert_execPythonService (s : Service) (ip : String) : ¬ Only Inert (s.execPythonService ip) := by
  intro h
  have hstart : Inert (.proc (.start (.containerInit s.path))) := (h.2 true).1
  exact hstart

theorem not_inert_execPostgreSQL (d : Database) : ¬ Only Inert d.execPostgreSQL := by
  intro h
  have hinitialised := ((h.2 none).2 true).2 (Except.ok () : Except Err Unit)
  have hallowed := hinitialised.2 (Except.error Err.other : Except Err String)
  have hstart : Inert (.proc (.start (.postgres "postgres" (Database.dataDir d.name)))) :=
    ((hallowed.2 (some "postgres")).2 true).1
  exact hstart

theorem inert_createService_iff (ip : String) :
    Only Inert (Service.createService Y body ip) ↔ (parseService Y body).technology ≠ python := by
  constructor
  · intro h htech
    unfold Service.createService at h
    dsimp only at h
    rw [if_pos htech] at h
    split at h
    · exact not_inert_updateLbConfig _ (Only.of_bind h)
    · exact not_inert_execPythonService _ ip (Only.of_bind h)
  · intro htech
    rw [createService_other htech]
    trivial

theorem inert_createDatabase_iff (ip : String) :
    Only Inert (Database.createDatabase Y body ip) ↔ (parseYaml Y body).technology ≠ postgreSQL := by
  constructor
  · intro h htech
    unfold Database.createDatabase at h
    dsimp only at h
    rw [if_pos htech] at h
    exact not_inert_execPostgreSQL _ (Only.of_bind h)
  · intro htech
    rw [createDatabase_other htech]
    trivial

theorem serviceIgnored_iff (h : (Y.unmarshalService body).2 = false) :
    ServiceIgnored Y body ↔ (Y.unmarshalService body).1 = {} := by
  have hparse := parseService_of_error h
  constructor
  · intro hi
    rw [← hparse]
    exact hi.1
  · intro he
    have hp : parseService Y body = {} := hparse.trans he
    refine ⟨hp, fun G ip f l w => ?_⟩
    rw [createService_other (by rw [hp]; decide) ip]
    exact .refl w

theorem databaseIgnored_iff : DatabaseIgnored Y body ↔ (Y.unmarshalDatabase body).1 = {} := by
  constructor
  · exact fun hi => hi.1
  · intro he
    have hp : parseYaml Y body = {} := he
    refine ⟨hp, fun G ip f l w => ?_⟩
    rw [createDatabase_other (by rw [hp]; decide) ip]
    exact .refl w

/-- A body that does not parse is ignored exactly if nothing of it was decoded; whether
something is started or written is up to the technology that was decoded. -/
theorem unparsed_ignored_iff (Y : Yaml) (body : String) :
    ((Y.unmarshalService body).2 = false →
      (ServiceIgnored Y body ↔ (Y.unmarshalService body).1 = {}) ∧
      ∀ ip, Only Inert (Service.createService Y body ip) ↔ (Y.unmarshalService body).1.technology ≠ python) ∧
    ((Y.unmarshalDatabase body).2 = false →
      (DatabaseIgnored Y body ↔ (Y.unmarshalDatabase body).1 = {}) ∧
      ∀ ip, Only Inert (Database.createDatabase Y body ip) ↔
        (Y.unmarshalDatabase body).1.technology ≠ postgreSQL) := by
  refine ⟨fun h => ⟨serviceIgnored_iff h, fun ip => ?_⟩, fun _ => ⟨databaseIgnored_iff, fun ip => ?_⟩⟩
  · rw [← parseService_of_error h]
    exact inert_createService_iff ip
  · exact inert_createDatabase_iff ip

section Sample

/-- The codec of the sample host, for which one more body has a mistyped field. -/
def mistyped : Yaml :=
  { Sample.yaml with
    unmarshalService := fun body =>
      if body = "name: web\npath: /srv/web.py\ntechnology: python\nlimitations: none\n" then
        ({ name := "web", path := "/srv/web.py", technology := "python" }, false)
      else Sample.yaml.unmarshalService body }

theorem garbled_ignored : ServiceIgnored mistyped "name: [invalid yaml\n" ∧
    DatabaseIgnored mistyped "name: [invalid yaml\n" :=
  ⟨((unparsed_ignored_iff mistyped "name: [invalid yaml\n").1 (by decide +kernel)).1.mpr (by decide +kernel),
    ((unparsed_ignored_iff mistyped "name: [invalid yaml\n").2 (by decide +kernel)).1.mpr (by decide +kernel)⟩

/-- A service whose limitations are mistyped runs, and without any limit. -/
theorem mistyped_runs : ∃ body, (mistyped.unmarshalService body).2 = false ∧ parseService mistyped body ≠ {} ∧
    ∃ q ∈ (World.procs ((Host mistyped lowestFree).exec plainly Sample.caller (wiredOn Sample.tree)
      (Service.createService mistyped body "10.0.0.1")).world).all, q.role = .workload ∧ q.pid = 101 :=
  ⟨"name: web\npath: /srv/web.py\ntechnology: python\nlimitations: none\n", by decide +kernel, by decide +kernel,
    by decide +kernel⟩

end Sample
end PrivatePaas
