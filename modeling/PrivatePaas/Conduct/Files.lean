import PrivatePaas.Conduct.Plain
import PrivatePaas.Conduct.Watch
import PrivatePaas.Effects.History
import PrivatePaas.Host.Links

/-!
# The files of the program

Every file that any invocation writes is one of a short list: its configuration and
its fragments, the pid file, the log files, what is written into cgroup directories,
and the access rules of a database.
-/

namespace PrivatePaas
set_option autoImplicit false
open Files Text Effects Go Network Prog PrivatePaas.Parser

/-- The files that are written, by the paths under which they are. -/
inductive Written : Path → Prop where
  | config : Written envoyConfig
  | fragment (upstream : String) : Written (serviceConfPath upstream)
  | pidFile : Written envoyPidFile
  | envoyLog : Written ["var", "log", "envoy-paas.log"]
  | log (name : String) : Written (logPath name)
  | limit (pid : Nat) {n : String} (h : n ∈ ["memory.max", "cpu.max", "pids.max"]) :
      Written (Service.cgroup pid ++ [n])
  | envoyCgroup {n : String} (h : n ∈ ["pids.max", "cgroup.procs"]) : Written (envoyCgroup ++ [n])
  | databaseCgroup (name : String) {n : String} (h : n ∈ ["memory.max", "io.weight", "cgroup.procs"]) :
      Written (Database.cgroup name ++ [n])
  | access (dir : Path) : Written (clean (dir ++ ["pg_hba.conf"]))

/-- The file an operation writes. -/
def Op.file? : Op → Option Path
  | .fs (.writeFile p _) | .fs (.create p) | .fs (.write p _) | .fs (.openAppend p)
  | .fs (.append p _) => some p
  | _ => none

/-- The operation writes nothing but a file of the list. -/
def Listed (o : Op) : Prop := ∀ p, o.file? = some p → Written p

section ListedPrograms
variable {Y : Yaml}

attribute [local simp] Listed Op.file?

theorem listed_of_none {o : Op} (h : o.file? = none) : Listed o := by
  intro p hp
  rw [h] at hp
  cases hp

theorem listed_of_some {o : Op} {p : Path} (h : o.file? = some p) (hp : Written p) : Listed o := by
  intro q hq
  obtain rfl := Option.some.inj (h.symm.trans hq)
  exact hp

theorem listed_createBridge : Only Listed createBridge := by
  simp [createBridge]

theorem listed_connectProcess (pid : Nat) (ip : String) (pre : IfName) :
    Only Listed (connectProcessToBridge pid ip pre) := by
  refine (connects_connectProcess pid ip pre).mono fun o ho => listed_of_none ?_
  cases o with
  | net o => rfl
  | _ => exact absurd ho id

theorem listed_selectStorage : Only Listed selectStorage := by
  simp [selectStorage]

theorem listed_getIpam : Only Listed getIpam := by
  refine listed_selectStorage.bind fun st => ⟨listed_of_none rfl, fun r => only_ite.mpr
    ⟨fun _ => trivial, fun _ => ⟨listed_of_none rfl, fun r => ?_⟩⟩⟩
  cases r with
  | failed => trivial
  | created => exact ⟨listed_of_none rfl, fun _ => trivial⟩
  | already => exact ⟨listed_of_none rfl, fun _ => trivial⟩

theorem listed_getIp : Only Listed getIp := by
  refine listed_getIpam.bind fun st => ?_
  cases st with
  | none => trivial
  | some st =>
    refine ⟨listed_of_none rfl, fun r => ?_⟩
    cases r <;> trivial

theorem listed_getOrAcquireEnvoyIp : Only Listed getOrAcquireEnvoyIp := by
  refine listed_getIpam.bind fun st => ?_
  cases st with
  | none => trivial
  | some st =>
    refine ⟨listed_of_none rfl, fun r => ?_⟩
    cases r <;> trivial

theorem listed_releaseIp (ip : String) : Only Listed (releaseIp ip) := by
  refine listed_getIpam.bind fun st => ?_
  cases st with
  | none => trivial
  | some st => simp

theorem listed_findPidForEnvoy : Only Listed Utils.findPidForEnvoy := by
  refine ⟨listed_of_none rfl, fun r => ?_⟩
  cases r with
  | error e => cases e <;> trivial
  | ok data =>
    cases h : atoi (trimSpace data) with
    | mk pid b => cases b <;> simp [h]

theorem listed_stopEnvoy : Only Listed stopEnvoy := by
  refine listed_findPidForEnvoy.bind fun r => ?_
  cases r with
  | none => trivial
  | some pid =>
    refine only_ite.mpr ⟨fun _ => trivial, fun _ => ⟨listed_of_none rfl, fun r => ?_⟩⟩
    cases r with
    | none => exact ⟨listed_of_none rfl, fun _ => trivial⟩
    | some e => cases e <;> simp

theorem listed_stopExisting : Only Listed stopExisting := by
  refine listed_findPidForEnvoy.bind fun r => ?_
  cases r <;> simp

theorem listed_ensureConfig : Only Listed ensureConfig := by
  refine ⟨listed_of_none rfl, fun _ => ⟨listed_of_none rfl, fun r => ?_⟩⟩
  cases r with
  | ok _ => trivial
  | error e =>
    cases e with
    | other => trivial
    | notExist => exact ⟨listed_of_some rfl .config, fun _ => trivial⟩

theorem listed_envoyBinary : Only Listed envoyBinary := by
  refine ⟨listed_of_none rfl, fun r => ?_⟩
  cases r with
  | some path => trivial
  | none =>
    refine ⟨listed_of_none rfl, fun r => ?_⟩
    cases r with
    | ok _ => trivial
    | error _ =>
      refine ⟨listed_of_none rfl, fun r => ?_⟩
      cases r <;> trivial

theorem listed_moveToCgroup (pid : Nat) : Only Listed (moveProcessToEnvoyCgroup pid) :=
  ⟨listed_of_none rfl, fun _ => only_ite.mpr ⟨fun _ => trivial, fun _ =>
    ⟨listed_of_some rfl (.envoyCgroup (by decide)), fun _ =>
      ⟨listed_of_some rfl (.envoyCgroup (by decide)), fun _ => trivial⟩⟩⟩⟩

theorem listed_startEnvoy : Only Listed startEnvoy := by
  refine listed_stopExisting.bind fun _ => listed_ensureConfig.bind fun _ =>
    listed_envoyBinary.bind fun bin => ⟨listed_of_some rfl .envoyLog, fun _ =>
      ⟨listed_of_none rfl, fun r => ?_⟩⟩
  cases r with
  | none => trivial
  | some pid =>
    refine (listed_moveToCgroup pid).bind fun _ => ⟨listed_of_some rfl .pidFile, fun _ => ?_⟩
    refine listed_getOrAcquireEnvoyIp.bind fun r => ?_
    cases r with
    | none => trivial
    | some ip =>
      have hconnect : Only Listed (connectEnvoy pid ip) :=
        listed_createBridge.bind fun _ => (listed_connectProcess pid ip _).bind fun _ => trivial
      exact hconnect.bind fun _ => trivial

theorem listed_readFragments (fs : List String) (acc : List EnvoyService) :
    Only Listed (readFragments Y fs acc) := by
  induction fs generalizing acc with
  | nil => trivial
  | cons f fs ih => exact ⟨listed_of_none rfl, fun r => ih _⟩

theorem listed_updateLbConfig (c : ServiceEnvoyConfig) : Only Listed (updateLbConfig Y c) := by
  refine ⟨listed_of_none rfl, fun _ => only_ite.mpr ⟨fun _ => trivial, fun _ =>
    ⟨listed_of_some rfl (.fragment _), fun _ => only_ite.mpr ⟨fun _ => trivial, fun _ =>
      ⟨listed_of_none rfl, fun files => (listed_readFragments files []).bind fun ss =>
        ⟨listed_of_none rfl, fun r => ?_⟩⟩⟩⟩⟩⟩
  cases r with
  | none => trivial
  | some pwd =>
    exact ⟨listed_of_none rfl, fun _ => only_ite.mpr ⟨fun _ => trivial, fun _ =>
      ⟨listed_of_some rfl .config, fun _ => only_ite.mpr ⟨fun _ => trivial, fun _ =>
        ⟨listed_of_some rfl .config, fun _ => only_ite.mpr ⟨fun _ => trivial, fun _ =>
          listed_startEnvoy.bind fun _ => trivial⟩⟩⟩⟩⟩⟩

theorem listed_waitNetns (pid n : Nat) : Only Listed (waitNetns pid n) := by
  induction n with
  | zero => trivial
  | succ n ih =>
    exact ⟨listed_of_none rfl, fun _ => only_ite.mpr ⟨fun _ => trivial, fun _ => ih⟩⟩

theorem listed_writeLimit (pid : Nat) {n : String} (value : String)
    (h : n ∈ ["memory.max", "cpu.max", "pids.max"]) :
    Only Listed (Service.writeLimit (Service.cgroup pid ++ [n]) value) :=
  only_ite.mpr ⟨fun _ => trivial, fun _ => ⟨listed_of_some rfl (.limit pid h), fun _ => trivial⟩⟩

theorem listed_serviceCg (s : Service) (pid : Nat) : Only Listed (s.cg pid) :=
  ⟨listed_of_none rfl, fun _ => only_ite.mpr ⟨fun _ => trivial, fun _ =>
    (listed_writeLimit pid _ (by decide)).bind fun _ =>
      (listed_writeLimit pid _ (by decide)).bind fun _ => listed_writeLimit pid _ (by decide)⟩⟩

theorem listed_execPythonService (s : Service) (ip : String) : Only Listed (s.execPythonService ip) := by
  refine ⟨listed_of_some rfl (.log _), fun _ => only_ite.mpr ⟨fun _ => trivial, fun _ =>
    ⟨listed_of_none rfl, fun r => ?_⟩⟩⟩
  cases r with
  | none => trivial
  | some pid =>
    have hconnect : Only Listed (s.connectIfLb pid ip) := by
      refine only_ite.mpr ⟨fun _ => ?_, fun _ => trivial⟩
      exact (listed_connectProcess pid ip _).bind fun _ => trivial
    refine (listed_waitNetns pid 10).bind fun _ => only_ite.mpr ⟨fun _ => trivial, fun _ => ?_⟩
    exact (listed_serviceCg s pid).bind fun _ => hconnect.bind fun _ => ⟨listed_of_none rfl, fun _ =>
      only_ite.mpr ⟨fun _ => trivial, fun _ => trivial⟩⟩

theorem listed_createService (body ip : String) : Only Listed (Service.createService Y body ip) := by
  refine only_ite.mpr ⟨fun _ => only_ite.mpr ⟨fun _ => ?_, fun _ => ?_⟩, fun _ => trivial⟩
  · exact (listed_updateLbConfig _).bind fun _ => (listed_execPythonService _ ip).bind fun _ => trivial
  · exact (listed_execPythonService _ ip).bind fun _ => trivial

theorem listed_firstExisting (name : String) (cs : List Path) :
    Only Listed (Database.firstExisting name cs) := by
  induction cs with
  | nil => trivial
  | cons c cs ih =>
    refine ⟨listed_of_none rfl, fun r => ?_⟩
    cases r with
    | ok _ => trivial
    | error _ => exact ih

theorem listed_findBin (name : String) : Only Listed (Database.findBin name) := by
  refine ⟨listed_of_none rfl, fun r => ?_⟩
  cases r with
  | some _ => trivial
  | none => exact listed_firstExisting name _

theorem listed_initDataDir (dir : Path) : Only Listed (Database.initDataDir dir) := by
  refine ⟨listed_of_none rfl, fun r => ?_⟩
  cases r with
  | ok _ => trivial
  | error e =>
    cases e with
    | other => trivial
    | notExist =>
      exact ⟨listed_of_none rfl, fun _ => (listed_findBin _).bind fun _ =>
        ⟨listed_of_none rfl, fun _ => trivial⟩⟩

theorem listed_allowBridge (dir : Path) : Only Listed (Database.allowBridge dir) := by
  refine ⟨listed_of_none rfl, fun r => ?_⟩
  cases r with
  | error _ => trivial
  | ok data =>
    exact only_ite.mpr ⟨fun _ => trivial, fun _ => ⟨listed_of_some rfl (.access dir), fun _ => trivial⟩⟩

theorem listed_databaseCg (d : Database) (pid : Nat) : Only Listed (d.cg pid) :=
  ⟨listed_of_none rfl, fun _ => only_ite.mpr ⟨fun _ => trivial, fun _ =>
    ⟨listed_of_some rfl (.databaseCgroup _ (by decide)), fun _ =>
      ⟨listed_of_some rfl (.databaseCgroup _ (by decide)), fun _ =>
        ⟨listed_of_some rfl (.databaseCgroup _ (by decide)), fun _ =>
          only_ite.mpr ⟨fun _ => trivial, fun _ => trivial⟩⟩⟩⟩⟩⟩

theorem listed_createDatabase (body ip : String) : Only Listed (Database.createDatabase Y body ip) := by
  refine only_ite.mpr ⟨fun _ => ?_, fun _ => trivial⟩
  have run : Only Listed (parseYaml Y body).execPostgreSQL := by
    refine ⟨listed_of_none rfl, fun _ => ⟨listed_of_none rfl, fun _ => ?_⟩⟩
    refine (listed_initDataDir _).bind fun _ => (listed_allowBridge _).bind fun _ =>
      (listed_findBin _).bind fun bin => ⟨listed_of_some rfl (.log _), fun _ => only_ite.mpr
        ⟨fun _ => trivial, fun _ => ⟨listed_of_none rfl, fun r => ?_⟩⟩⟩
    cases r with
    | none => trivial
    | some pid =>
      exact (listed_waitNetns pid 20).bind fun _ => only_ite.mpr ⟨fun _ => trivial, fun _ =>
        (listed_databaseCg _ pid).bind fun _ => trivial⟩
  have connect : ∀ pid, Only Listed ((parseYaml Y body).connectToBridge pid ip) := fun pid =>
    listed_createBridge.bind fun _ => (listed_connectProcess pid ip _).bind fun _ => trivial
  exact run.bind fun pid => (connect pid).bind fun _ => trivial

theorem listed_runCreate (path : Path) : Only Listed (Cmd.runCreate Y path) := by
  refine ⟨listed_of_none rfl, fun r => ?_⟩
  cases r with
  | error _ => trivial
  | ok f =>
    simp only [bind_eq, ret_bind]
    cases Y.unmarshalFile f with
    | none => trivial
    | some file =>
      refine listed_getIp.bind fun ip => only_ite.mpr ⟨fun _ => ?_, fun _ => only_ite.mpr
        ⟨fun _ => ?_, fun _ => ?_⟩⟩
      · exact listed_createBridge.bind fun _ => (listed_createService _ ip).bind fun _ =>
          ⟨listed_of_none rfl, fun _ => trivial⟩
      · exact (listed_createDatabase _ ip).bind fun _ => ⟨listed_of_none rfl, fun _ => trivial⟩
      · trivial

theorem listed_runDelete (type_ name : String) : Only Listed (Cmd.runDelete Y type_ name) := by
  refine only_ite.mpr ⟨fun _ => trivial, fun _ => ⟨listed_of_none rfl, fun r => ?_⟩⟩
  cases r with
  | none => trivial
  | some text =>
    have hrelease : Only Listed (Cmd.releaseOf (Y.decode text)) :=
      only_ite.mpr ⟨fun _ => trivial, fun _ => (listed_releaseIp _).bind fun _ => trivial⟩
    have hremove : Only Listed (Cmd.removeConfig (Y.decode text)) :=
      only_ite.mpr ⟨fun _ => trivial, fun _ => ⟨listed_of_none rfl, fun _ => trivial⟩⟩
    exact hrelease.bind fun _ => ⟨listed_of_none rfl, fun _ => listed_stopEnvoy.bind fun _ =>
      hremove.bind fun _ => listed_startEnvoy.bind fun _ => ⟨listed_of_none rfl, fun _ => trivial⟩⟩

theorem listed_program (t : Task) : Only Listed (t.program Y) := by
  cases t with
  | create path => exact listed_runCreate path
  | delete type_ name => exact listed_runDelete type_ name
  | updateLb c => exact listed_updateLbConfig c
  | startEnvoy => exact listed_startEnvoy.bind fun _ => trivial
  | stopEnvoy => exact listed_stopEnvoy.bind fun _ => trivial

end ListedPrograms

def filesWatch (Y : Yaml) (G : GoIpam) : Watch (Host Y G) (.only Listed) :=
  .only (Host Y G) Listed fun x w l p w' h => by
    obtain ⟨_, rfl, _⟩ := enter_spec h
    exact listed_program x.task

end PrivatePaas
