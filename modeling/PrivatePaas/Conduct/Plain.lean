import PrivatePaas.Host.Stage

/-!
# What no monitor follows

The files of the program by their last names, the parts of the program whose
operations leave all three monitors where they are, and those that only the ledger
follows.
-/

namespace PrivatePaas
set_option autoImplicit false
open Files Text Effects Go Network Prog PrivatePaas.Parser

section Paths

theorem harmless_of_ending {p d : Path} {u t : String} (hp : p = d ++ [u ++ t])
    (hlen : 2 < t.toList.length) (hy : ¬ ".yaml".toList <:+ t.toList)
    (hy' : ¬ t.toList <:+ ".yaml".toList) (hpid : ¬ t.toList <:+ "envoy-paas.pid".toList) :
    Harmless p := by
  have hend := suffix_append u t
  have hlen' : t.toList.length ≤ (u ++ t).toList.length := hend.length_le
  refine ⟨d, u ++ t, hp, ⟨?_, ?_, ?_⟩, ?_, ?_⟩
  · intro h
    rw [h] at hlen'
    exact absurd (hlen.trans_le hlen') (by decide)
  · intro h
    rw [h] at hlen'
    exact absurd (hlen.trans_le hlen') (by decide)
  · intro h
    rw [h] at hlen'
    exact absurd (hlen.trans_le hlen') (by decide)
  · intro h
    rw [h] at hend
    exact hpid hend
  · intro h
    rcases suffix_comparable h hend with h | h
    · exact hy h
    · exact hy' h

theorem harmless_concat (d : Path) {n : String}
    (h : Proper n ∧ n ≠ "envoy-paas.pid" ∧ ¬ ".yaml".toList <:+ n.toList) : Harmless (d ++ [n]) :=
  ⟨d, n, rfl, h⟩

theorem Harmless.ne_concat {p d : Path} {n : String} (h : Harmless p)
    (hn : n = "envoy-paas.pid" ∨ ".yaml".toList <:+ n.toList) : p ≠ d ++ [n] := by
  obtain ⟨d', n', rfl, _, hpid, hy⟩ := h
  intro he
  obtain ⟨_, hn'⟩ := List.append_inj' he rfl
  obtain rfl : n' = n := by simpa using hn'
  exact hn.elim hpid hy

theorem Harmless.ne_pidFile {p : Path} (h : Harmless p) : p ≠ envoyPidFile :=
  h.ne_concat (d := ["run"]) (.inl rfl)

theorem Harmless.ne_config {p : Path} (h : Harmless p) : p ≠ envoyConfig :=
  h.ne_concat (d := ["run"]) (.inr (by decide))

theorem harmless_log (name : String) : Harmless (logPath name) := by
  obtain ⟨ds, u, h⟩ := split_append (c := '/') name ".log" (by decide)
  refine harmless_of_ending (d := ["var", "log"] ++ ds) (u := u) (t := ".log") ?_ ?_ ?_ ?_ ?_
  · rw [logPath, h, List.append_assoc]
  all_goals decide

theorem yamlFile_serviceConfPath (upstream : String) : YamlFile (serviceConfPath upstream) := by
  obtain ⟨ds, u, h⟩ := split_append (c := '/') upstream ".yaml" (by decide)
  have hsfx := suffix_append u ".yaml"
  have hlen : 5 ≤ (u ++ ".yaml").toList.length := hsfx.length_le
  have hp : Proper (u ++ ".yaml") := by
    refine ⟨?_, ?_, ?_⟩ <;> intro he <;> rw [he] at hlen <;> exact absurd hlen (by decide)
  refine ⟨clean (envoyConfDir ++ ds), u ++ ".yaml", ?_, hp, hsfx⟩
  rw [serviceConfPath, h, ← List.append_assoc, clean_concat _ hp]

theorem YamlFile.ne_pidFile {p : Path} (h : YamlFile p) : p ≠ envoyPidFile := by
  obtain ⟨d, n, rfl, _, hy⟩ := h
  intro he
  obtain ⟨_, hn⟩ := List.append_inj' (show _ = ["run"] ++ ["envoy-paas.pid"] from he) rfl
  obtain rfl : n = "envoy-paas.pid" := by simpa using hn
  exact absurd hy (by decide)

theorem cgroup_ne_confDir (name : String) : Database.cgroup name ≠ envoyConfDir := by
  obtain ⟨ds, u, h⟩ := split_append (c := '/') name "_cgroup" (by decide)
  have hsfx := suffix_append u "_cgroup"
  have hlen : 7 ≤ (u ++ "_cgroup").toList.length := hsfx.length_le
  have hp : Proper (u ++ "_cgroup") := by
    refine ⟨?_, ?_, ?_⟩ <;> intro he <;> rw [he] at hlen <;> exact absurd hlen (by decide)
  rw [Database.cgroup, h, ← List.append_assoc, clean_concat _ hp]
  intro he
  obtain ⟨_, hn⟩ := List.append_inj' (show _ = ["etc", "envoy"] ++ ["conf.d"] from he) rfl
  obtain hn : u ++ "_cgroup" = "conf.d" := by simpa using hn
  rw [hn] at hsfx
  exact absurd hsfx (by decide)

theorem clean_ne_concat {p d : Path} {m n : String} (hm : Proper m) (h : m ≠ n) :
    clean (p ++ [m]) ≠ d ++ [n] := by
  rw [clean_concat p hm]
  intro he
  obtain ⟨_, hn⟩ := List.append_inj' he rfl
  exact h (by simpa using hn)

end Paths

/-- An operation that none of the three monitors follows. -/
def Plain : Op → Prop
  | .net _ => True
  | .proc (.netnsReady _) => True
  | .proc (.release _) => True
  | .proc (.lookPath _) => True
  | .proc (.lookupUser _) => True
  | .fs (.stat p) => p ≠ envoyConfig
  | .fs (.mkdirAll p) => p ≠ envoyConfDir
  | .fs (.writeFile p _) => Harmless p
  | .fs (.openAppend p) => Harmless p
  | .fs (.append p _) => Harmless p
  | .fs (.readFile p) => p ≠ envoyPidFile
  | .fs (.initdb _ _) => True
  | .fs .getwd => True
  | .fs (.parseFiles _) => True
  | _ => False

section PlainPrograms
attribute [local simp] Plain

theorem plain_createBridge : Only Plain createBridge := by
  simp [createBridge]

theorem plain_delExisting (name : IfName) : Only Plain (delExisting name) := by
  simp [delExisting]

theorem plain_appendRules (pid : Nat) (rules : List Rule) : Only Plain (appendRules pid rules) := by
  induction rules with
  | nil => simp [appendRules]
  | cons r rs ih => simp [appendRules, ih]

theorem plain_enableLoopback (pid : Nat) (lo : Bool) : Only Plain (enableLoopback pid lo) := by
  simp [enableLoopback]

theorem plain_enableFirewall (pid : Nat) (veth : IfName) : Only Plain (enableFirewall pid veth) := by
  simp [enableFirewall, plain_appendRules]

theorem plain_configureInterface (pid : Nat) (veth : IfName) (ip : String) (lo : Bool) :
    Only Plain (configureInterfaceInNamespace pid veth ip lo) := by
  have hend : Only Plain (do enableLoopback pid lo; enableFirewall pid veth; return true) :=
    (plain_enableLoopback pid lo).bind fun _ => (plain_enableFirewall pid veth).bind fun _ => trivial
  simp only [configureInterfaceInNamespace]
  simp at hend ⊢
  simp [hend]

theorem plain_connectProcess (pid : Nat) (ip : String) (pre : IfName) :
    Only Plain (connectProcessToBridge pid ip pre) := by
  unfold connectProcessToBridge
  refine (plain_delExisting _).bind fun _ => (plain_delExisting _).bind fun _ => ?_
  simp [plain_configureInterface]

theorem plain_connectEnvoy (pid : Nat) (ip : String) : Only Plain (connectEnvoy pid ip) :=
  plain_createBridge.bind fun _ => (plain_connectProcess pid ip _).bind fun _ => trivial

theorem plain_moveToCgroup (pid : Nat) : Only Plain (moveProcessToEnvoyCgroup pid) := by
  have h1 : Harmless (envoyCgroup ++ ["pids.max"]) := harmless_concat _ (by decide)
  have h2 : Harmless (envoyCgroup ++ ["cgroup.procs"]) := harmless_concat _ (by decide)
  have h3 : envoyCgroup ≠ envoyConfDir := by decide
  simp [moveProcessToEnvoyCgroup, h1, h2, h3]

theorem plain_envoyBinary : Only Plain envoyBinary := by
  unfold envoyBinary
  refine ⟨trivial, fun r => ?_⟩
  cases r with
  | some path => trivial
  | none =>
    refine ⟨by simp [envoyConfig], fun r => ?_⟩
    cases r with
    | ok _ => trivial
    | error _ =>
      refine ⟨by simp [envoyConfig], fun r => ?_⟩
      cases r <;> trivial

theorem plain_waitNetns (pid n : Nat) : Only Plain (waitNetns pid n) := by
  induction n with
  | zero => simp [waitNetns]
  | succ n ih => simp [waitNetns, ih]

theorem plain_writeLimit (d : Path) {n : String} (value : String)
    (h : Proper n ∧ n ≠ "envoy-paas.pid" ∧ ¬ ".yaml".toList <:+ n.toList) :
    Only Plain (Service.writeLimit (d ++ [n]) value) := by
  simp [Service.writeLimit, harmless_concat d h]

theorem plain_serviceCg (s : Service) (pid : Nat) : Only Plain (s.cg pid) := by
  have h : Service.cgroup pid ≠ envoyConfDir := by simp [Service.cgroup, envoyConfDir]
  unfold Service.cg
  refine ⟨h, fun r => ?_⟩
  cases r with
  | false => trivial
  | true =>
    exact (plain_writeLimit _ _ (by decide)).bind fun _ =>
      (plain_writeLimit _ _ (by decide)).bind fun _ => plain_writeLimit _ _ (by decide)

theorem plain_connectIfLb (s : Service) (pid : Nat) (ip : String) :
    Only Plain (s.connectIfLb pid ip) := by
  unfold Service.connectIfLb Service.connectToLb
  split
  · exact (plain_connectProcess pid ip _).bind fun _ => trivial
  · trivial

theorem plain_firstExisting {name : String} (hn : name ≠ "envoy-paas.yaml") (cs : List Path) :
    Only Plain (Database.firstExisting name cs) := by
  induction cs with
  | nil => trivial
  | cons c cs ih =>
    refine ⟨?_, fun r => ?_⟩
    · intro he
      obtain ⟨_, h⟩ := List.append_inj' (show _ = ["run"] ++ ["envoy-paas.yaml"] from he) rfl
      exact hn (by simpa using h)
    cases r with
    | ok _ => trivial
    | error _ => exact ih

theorem plain_findBin {name : String} (hn : name ≠ "envoy-paas.yaml") :
    Only Plain (Database.findBin name) := by
  refine ⟨trivial, fun r => ?_⟩
  cases r with
  | some _ => trivial
  | none => exact plain_firstExisting hn _

theorem plain_initDataDir (name : String) : Only Plain (Database.initDataDir (Database.dataDir name)) := by
  have hdir : Database.dataDir name ≠ envoyConfDir := by simp [Database.dataDir, envoyConfDir]
  refine ⟨clean_ne_concat (d := ["run"]) (n := "envoy-paas.yaml") (by decide) (by decide),
    fun r => ?_⟩
  cases r with
  | ok _ => trivial
  | error e =>
    cases e with
    | other => trivial
    | notExist =>
      exact ⟨hdir, fun _ => (plain_findBin (by decide)).bind fun _ => ⟨trivial, fun _ => trivial⟩⟩

theorem plain_allowBridge (dir : Path) : Only Plain (Database.allowBridge dir) := by
  refine ⟨clean_ne_concat (d := ["run"]) (n := "envoy-paas.pid") (by decide) (by decide),
    fun r => ?_⟩
  cases r with
  | error _ => trivial
  | ok data =>
    have h : Harmless (clean (dir ++ ["pg_hba.conf"])) := by
      rw [clean_concat _ (by decide)]
      exact harmless_concat _ (by decide)
    exact only_ite.mpr ⟨fun _ => trivial, fun _ => ⟨h, fun _ => trivial⟩⟩

theorem plain_databaseCg (d : Database) (pid : Nat) : Only Plain (d.cg pid) := by
  have h1 : Harmless (Database.cgroup d.name ++ ["memory.max"]) := harmless_concat _ (by decide)
  have h2 : Harmless (Database.cgroup d.name ++ ["io.weight"]) := harmless_concat _ (by decide)
  have h3 : Harmless (Database.cgroup d.name ++ ["cgroup.procs"]) := harmless_concat _ (by decide)
  refine ⟨cgroup_ne_confDir d.name, fun r => ?_⟩
  cases r with
  | false => trivial
  | true =>
    refine ⟨h1, fun _ => ⟨h2, fun _ => ⟨h3, fun r => ?_⟩⟩⟩
    cases r <;> trivial

theorem plain_connectToBridge (d : Database) (pid : Nat) (ip : String) :
    Only Plain (d.connectToBridge pid ip) :=
  plain_createBridge.bind fun _ => (plain_connectProcess pid ip _).bind fun _ => trivial

end PlainPrograms

section BearingPrograms
variable {Y : Yaml}

/-- A plain operation, or the start of a workload. -/
def Bearing : Op → Prop
  | .proc (.start c) => c.isWorkload = true
  | o => Plain o

theorem Plain.bearing {o : Op} (h : Plain o) : Bearing o := by
  cases o with
  | proc o => cases o <;> first | exact h | exact absurd h id
  | _ => exact h

theorem bearing_execPythonService (v : Service) (ip : String) :
    Only Bearing (v.execPythonService ip) := by
  refine ⟨harmless_log v.name, fun r => only_ite.mpr ⟨fun _ => trivial, fun _ => ⟨rfl, fun r => ?_⟩⟩⟩
  cases r with
  | none => trivial
  | some pid =>
    refine ((plain_waitNetns pid 10).mono fun _ => Plain.bearing).bind fun r => ?_
    refine only_ite.mpr ⟨fun _ => trivial, fun _ => ?_⟩
    refine ((plain_serviceCg v pid).mono fun _ => Plain.bearing).bind fun _ => ?_
    refine ((plain_connectIfLb v pid ip).mono fun _ => Plain.bearing).bind fun _ => ?_
    exact ⟨trivial, fun r => only_ite.mpr ⟨fun _ => trivial, fun _ => trivial⟩⟩

theorem bearing_createDatabase (body ip : String) :
    Only Bearing (Database.createDatabase Y body ip) := by
  refine only_ite.mpr ⟨fun _ => ?_, fun _ => trivial⟩
  have hdir : ["var", "lib", "postgresql", "data"] ≠ envoyConfDir := by simp [envoyConfDir]
  have run : Only Bearing (parseYaml Y body).execPostgreSQL := by
    refine ⟨trivial, fun _ => ⟨hdir, fun _ => ?_⟩⟩
    refine ((plain_initDataDir _).mono fun _ => Plain.bearing).bind fun _ => ?_
    refine ((plain_allowBridge _).mono fun _ => Plain.bearing).bind fun _ => ?_
    refine ((plain_findBin (by decide)).mono fun _ => Plain.bearing).bind fun bin => ?_
    refine ⟨harmless_log _, fun r => only_ite.mpr ⟨fun _ => trivial, fun _ => ⟨rfl, fun r => ?_⟩⟩⟩
    cases r with
    | none => trivial
    | some pid =>
      refine ((plain_waitNetns pid 20).mono fun _ => Plain.bearing).bind fun r => ?_
      refine only_ite.mpr ⟨fun _ => trivial, fun _ => ?_⟩
      exact ((plain_databaseCg _ pid).mono fun _ => Plain.bearing).bind fun _ => trivial
  exact run.bind fun pid =>
    ((plain_connectToBridge _ pid ip).mono fun _ => Plain.bearing).bind fun _ => trivial

end BearingPrograms

section QuietPrograms
variable {Y : Yaml}

/-- An operation on files, links or processes that starts nothing and kills nothing. -/
def Quiet : Op → Prop
  | .fs _ => True
  | .net _ => True
  | .proc (.start _) => False
  | .proc (.kill _ .sigkill) => False
  | .proc _ => True
  | _ => False

attribute [local simp] Quiet

theorem Plain.quiet {o : Op} (h : Plain o) : Quiet o := by
  cases o with
  | fs o => trivial
  | net o => trivial
  | proc o => cases o <;> trivial
  | _ => exact absurd h id

theorem quiet_findPidForEnvoy : Only Quiet Utils.findPidForEnvoy := by
  refine ⟨trivial, fun r => ?_⟩
  cases r with
  | error e => cases e <;> trivial
  | ok data =>
    cases h : atoi (trimSpace data) with
    | mk pid b => cases b <;> simp [h]

theorem quiet_stopExisting : Only Quiet stopExisting := by
  refine quiet_findPidForEnvoy.bind fun r => ?_
  cases r <;> simp

theorem quiet_stopEnvoy : Only Quiet stopEnvoy := by
  refine quiet_findPidForEnvoy.bind fun r => ?_
  cases r with
  | none => trivial
  | some pid =>
    refine only_ite.mpr ⟨fun _ => trivial, fun _ => ⟨trivial, fun r => ?_⟩⟩
    cases r with
    | none => exact ⟨trivial, fun _ => trivial⟩
    | some e => cases e <;> simp

theorem quiet_ensureConfig : Only Quiet ensureConfig := by
  refine ⟨trivial, fun _ => ⟨trivial, fun r => ?_⟩⟩
  cases r with
  | ok _ => trivial
  | error e => cases e <;> simp

theorem quiet_readFragments (fs : List String) (acc : List EnvoyService) :
    Only Quiet (readFragments Y fs acc) := by
  induction fs generalizing acc with
  | nil => trivial
  | cons f fs ih => exact ⟨trivial, fun r => ih _⟩

theorem quiet_removeConfig (rec : Cmd.Service) : Only Quiet (Cmd.removeConfig rec) := by
  simp [Cmd.removeConfig]

end QuietPrograms

section AsidePrograms

/-- An operation that concerns neither the Envoy process nor its configuration. -/
def Aside : Op → Prop
  | .kv _ => True
  | .probe _ => True
  | .ipam _ _ => True
  | .proc (.start c) => c.isWorkload = true
  | .proc (.kill _ .sigkill) => True
  | o => Plain o

theorem Plain.aside {o : Op} (h : Plain o) : Aside o := by
  cases o with
  | proc o => cases o <;> first | exact h | exact absurd h id
  | _ => first | exact h | trivial

theorem Bearing.aside {o : Op} (h : Bearing o) : Aside o := by
  cases o with
  | proc o => cases o <;> first | exact h | exact absurd h id
  | _ => exact Plain.aside h

theorem aside_getIpam : Only Aside getIpam := by
  have h : Only Aside selectStorage := by simp [selectStorage, Aside]
  refine h.bind fun st => ⟨trivial, fun r => ?_⟩
  cases r with
  | true => trivial
  | false =>
    refine ⟨trivial, fun r => ?_⟩
    cases r with
    | failed => trivial
    | created => exact ⟨trivial, fun _ => trivial⟩
    | already => exact ⟨trivial, fun _ => trivial⟩

theorem aside_getIp : Only Aside getIp := by
  refine aside_getIpam.bind fun st => ?_
  cases st with
  | none => trivial
  | some st =>
    refine ⟨trivial, fun r => ?_⟩
    cases r <;> trivial

theorem aside_getOrAcquireEnvoyIp : Only Aside getOrAcquireEnvoyIp := by
  refine aside_getIpam.bind fun st => ?_
  cases st with
  | none => trivial
  | some st =>
    refine ⟨trivial, fun r => ?_⟩
    cases r <;> trivial

theorem aside_releaseIp (ip : String) : Only Aside (releaseIp ip) := by
  refine aside_getIpam.bind fun st => ?_
  cases st with
  | none => trivial
  | some st =>
    simp only [only_ite]
    exact ⟨fun _ => trivial, fun _ => ⟨trivial, fun _ => trivial⟩⟩

end AsidePrograms
end PrivatePaas
