import PrivatePaas.Conduct.Plain

/-!
# Every command keeps to the Envoy monitor

A signal goes to a pid that has just been read from the pid file and has answered
the probe, and the pid file gets the pid of the Envoy that has just been started.
-/

namespace PrivatePaas
set_option autoImplicit false
open Files Text Effects Go Network Prog PrivatePaas.Parser

variable {Y : Yaml} {s : EnvoyStage}

attribute [local simp] EnvoyStage.next

/-- An operation that has nothing to do with the Envoy process. -/
def OffEnvoy : Op → Prop
  | .kv _ => True
  | .probe _ => True
  | .ipam _ _ => True
  | .net _ => True
  | .proc (.start c) => c.isWorkload = true
  | .proc (.kill _ .sigterm) => False
  | .proc (.signal0 _) => False
  | .proc _ => True
  | .fs (.readFile p) => p ≠ envoyPidFile
  | .fs (.writeFile p _) => Harmless p ∨ YamlFile p
  | .fs (.create p) => YamlFile p
  | .fs (.write p _) => YamlFile p
  | .fs (.openAppend p) => Harmless p
  | .fs (.append p _) => Harmless p
  | .fs _ => True

theorem Aside.offEnvoy {o : Op} (h : Aside o) : OffEnvoy o := by
  cases o with
  | fs o => cases o <;> first | trivial | exact h | exact .inl h
  | proc o =>
    cases o with
    | start c => exact h
    | kill n sg => cases sg <;> trivial
    | _ => trivial
  | _ => trivial

theorem Plain.offEnvoy {o : Op} (h : Plain o) : OffEnvoy o := h.aside.offEnvoy

theorem offEnvoy_still {o : Op} (h : OffEnvoy o) : envoy.Still s o := by
  cases o with
  | fs o =>
    cases o with
    | readFile p =>
      have hp : p ≠ envoyPidFile := h
      exact ⟨trivial, fun r => by simp [envoy, hp]⟩
    | writeFile p data =>
      have hp : p ≠ envoyPidFile := Or.elim h Harmless.ne_pidFile YamlFile.ne_pidFile
      exact ⟨.inr h, fun r => by simp [envoy, hp]⟩
    | create p => exact ⟨h, fun _ => rfl⟩
    | write p data => exact ⟨h, fun _ => rfl⟩
    | openAppend p => exact ⟨h, fun _ => rfl⟩
    | append p data => exact ⟨h, fun _ => rfl⟩
    | _ => exact ⟨trivial, fun _ => rfl⟩
  | proc o =>
    cases o with
    | start c =>
      have hc : c.isWorkload = true := h
      exact ⟨trivial, fun r => by simp [envoy, hc]⟩
    | kill n sg =>
      cases sg with
      | sigkill => exact ⟨trivial, fun _ => rfl⟩
      | sigterm => exact absurd h id
    | signal0 n => exact absurd h id
    | _ => exact ⟨trivial, fun _ => rfl⟩
  | net o => exact ⟨trivial, fun _ => rfl⟩
  | kv o => exact ⟨trivial, fun _ => rfl⟩
  | probe o => exact ⟨trivial, fun _ => rfl⟩
  | ipam st o => exact ⟨trivial, fun _ => rfl⟩

theorem envoy_skip {α β : Type} {p : Go α} {f : α → Go β} {R : EnvoyStage → β → Prop}
    (hp : Only OffEnvoy p) (hf : ∀ a, envoy.Obeys s (f a) R) : envoy.Obeys s (p >>= f) R :=
  Monitor.Obeys.skip (hp.mono fun _ => offEnvoy_still) hf

theorem yamlFile_envoyConfig : YamlFile envoyConfig :=
  ⟨["run"], "envoy-paas.yaml", rfl, by decide, by decide⟩

theorem offEnvoy_ensureConfig : Only OffEnvoy ensureConfig := by
  refine ⟨trivial, fun _ => ⟨trivial, fun r => ?_⟩⟩
  cases r with
  | ok _ => trivial
  | error e =>
    cases e with
    | other => trivial
    | notExist => exact ⟨.inr yamlFile_envoyConfig, fun _ => trivial⟩

theorem offEnvoy_readFragments (fs : List String) (acc : List EnvoyService) :
    Only OffEnvoy (readFragments Y fs acc) := by
  induction fs generalizing acc with
  | nil => trivial
  | cons f fs ih =>
    have hf : envoyConfDir ++ [f] ≠ envoyPidFile := by simp [envoyConfDir, envoyPidFile]
    exact ⟨hf, fun r => ih _⟩

/-- The pid that is found has answered the probe. -/
theorem envoy_findPid : envoy.Obeys s Utils.findPidForEnvoy fun s' r =>
    ∀ pid, r = some pid → pid ≠ 0 → s' = .alive pid := by
  refine ⟨trivial, fun r => ?_⟩
  cases r with
  | error e =>
    cases e with
    | notExist => exact fun pid h h0 => absurd (Option.some.inj h).symm h0
    | other => exact nofun
  | ok data =>
    simp only [bind_eq, ret_bind]
    split
    · exact nofun
    · rename_i pid hpid
      refine ⟨⟨data, by simp [envoy], hpid⟩, fun r => ?_⟩
      cases r with
      | false => exact fun pid h h0 => absurd (Option.some.inj h).symm h0
      | true =>
        intro n h h0
        obtain rfl : pid = n := Option.some.inj h
        simp [envoy]

theorem envoy_stopExisting : envoy.Obeys s stopExisting fun _ _ => True := by
  refine envoy_findPid.bind fun s' r h => ?_
  cases r with
  | none => trivial
  | some pid =>
    refine Monitor.obeys_ite.mpr ⟨fun _ => trivial, fun h0 => ?_⟩
    exact ⟨h pid rfl h0, fun _ => trivial⟩

theorem envoy_stopEnvoy : envoy.Obeys s stopEnvoy fun _ _ => True := by
  refine envoy_findPid.bind fun s' r h => ?_
  cases r with
  | none => trivial
  | some pid =>
    refine Monitor.obeys_ite.mpr ⟨fun _ => trivial, fun h0 => ⟨h pid rfl h0, fun r => ?_⟩⟩
    cases r with
    | none => exact ⟨trivial, fun _ => trivial⟩
    | some e =>
      cases e with
      | eperm => trivial
      | esrch => exact ⟨trivial, fun _ => trivial⟩

/-- The pid file gets the pid of the Envoy that was started. -/
theorem envoy_startEnvoy : envoy.Obeys s startEnvoy fun _ _ => True := by
  refine envoy_stopExisting.bind fun s _ _ => ?_
  refine envoy_skip offEnvoy_ensureConfig fun _ => ?_
  refine envoy_skip (plain_envoyBinary.mono fun _ => Plain.offEnvoy) fun bin => ?_
  have hlog : Harmless ["var", "log", "envoy-paas.log"] := harmless_concat ["var", "log"] (by decide)
  refine envoy_skip (p := openAppend _) ⟨hlog, fun _ => trivial⟩ fun _ => ?_
  refine ⟨trivial, fun r => ?_⟩
  cases r with
  | none => trivial
  | some pid =>
    simp only [bind_eq, ret_bind]
    refine envoy_skip ((plain_moveToCgroup pid).mono fun _ => Plain.offEnvoy) fun _ => ?_
    refine ⟨.inl ⟨rfl, pid, by simp [envoy, Command.isWorkload], rfl⟩, fun _ => ?_⟩
    simp only [bind_eq, ret_bind]
    refine envoy_skip (aside_getOrAcquireEnvoyIp.mono fun _ => Aside.offEnvoy) fun r => ?_
    cases r with
    | none => trivial
    | some ip => exact envoy_skip ((plain_connectEnvoy pid ip).mono fun _ => Plain.offEnvoy) fun _ => trivial

theorem envoy_updateLbConfig (c : ServiceEnvoyConfig) :
    envoy.Obeys s (updateLbConfig Y c) fun _ _ => True := by
  refine envoy_skip (p := mkdirAll _) ⟨trivial, fun _ => trivial⟩ fun r => ?_
  refine Monitor.obeys_ite.mpr ⟨fun _ => trivial, fun _ => ?_⟩
  refine envoy_skip (p := writeFile _ _)
    ⟨.inr (yamlFile_serviceConfPath c.upstreamName), fun _ => trivial⟩ fun r => ?_
  refine Monitor.obeys_ite.mpr ⟨fun _ => trivial, fun _ => ?_⟩
  refine envoy_skip (p := glob _ _) ⟨trivial, fun _ => trivial⟩ fun files => ?_
  refine envoy_skip (offEnvoy_readFragments files []) fun services => ?_
  refine envoy_skip (p := getwd) ⟨trivial, fun _ => trivial⟩ fun r => ?_
  cases r with
  | none => trivial
  | some pwd =>
    refine envoy_skip (p := parseFiles _) ⟨trivial, fun _ => trivial⟩ fun r => ?_
    refine Monitor.obeys_ite.mpr ⟨fun _ => trivial, fun _ => ?_⟩
    refine envoy_skip (p := create _) ⟨yamlFile_envoyConfig, fun _ => trivial⟩ fun r => ?_
    refine Monitor.obeys_ite.mpr ⟨fun _ => trivial, fun _ => ?_⟩
    refine envoy_skip (p := write _ _) ⟨yamlFile_envoyConfig, fun _ => trivial⟩ fun r => ?_
    refine Monitor.obeys_ite.mpr ⟨fun _ => trivial, fun _ => ?_⟩
    exact envoy_startEnvoy.bind fun _ _ _ => trivial

theorem envoy_createService (body ip : String) :
    envoy.Obeys s (Service.createService Y body ip) fun _ _ => True := by
  have run : ∀ s' (v : Service), envoy.Obeys s' (do
      let pid ← v.execPythonService ip
      return { v with pid := pid }) fun _ _ => True :=
    fun _ v =>
      envoy_skip ((bearing_execPythonService v ip).mono fun _ h => h.aside.offEnvoy) fun _ => trivial
  unfold Service.createService
  refine Monitor.obeys_ite.mpr ⟨fun _ => ?_, fun _ => trivial⟩
  refine Monitor.obeys_ite.mpr ⟨fun _ => ?_, fun _ => run _ _⟩
  exact (envoy_updateLbConfig _).bind fun _ _ _ => run _ _

theorem envoy_runCreate (p : Path) : envoy.Obeys s (Cmd.runCreate Y p) fun _ _ => True := by
  refine ⟨trivial, fun r => ?_⟩
  generalize envoy.next s (.fs (.readFile p)) r = s
  cases r with
  | error e => trivial
  | ok data =>
    simp only [bind_eq, ret_bind]
    cases Y.unmarshalFile data with
    | none => trivial
    | some file =>
      refine envoy_skip (aside_getIp.mono fun _ => Aside.offEnvoy) fun ip => ?_
      unfold Cmd.createByType
      refine Monitor.obeys_ite.mpr ⟨fun _ => ?_, fun _ => Monitor.obeys_ite.mpr ⟨fun _ => ?_, fun _ => trivial⟩⟩
      · refine envoy_skip (plain_createBridge.mono fun _ => Plain.offEnvoy) fun _ => ?_
        refine (envoy_createService file.body ip).bind fun _ v _ => ?_
        exact envoy_skip (p := set _ _) ⟨trivial, fun _ => trivial⟩ fun _ => trivial
      · refine envoy_skip ((bearing_createDatabase file.body ip).mono fun _ h => h.aside.offEnvoy) fun d => ?_
        exact envoy_skip (p := set _ _) ⟨trivial, fun _ => trivial⟩ fun _ => trivial

theorem envoy_runDelete (type_ name : String) :
    envoy.Obeys s (Cmd.runDelete Y type_ name) fun _ _ => True := by
  unfold Cmd.runDelete
  refine Monitor.obeys_ite.mpr ⟨fun _ => trivial, fun _ => ?_⟩
  refine envoy_skip (p := get _) ⟨trivial, fun _ => trivial⟩ fun r => ?_
  cases r with
  | none => trivial
  | some text =>
    have released : Only OffEnvoy (Cmd.releaseOf (Y.decode text)) :=
      only_ite.mpr ⟨fun _ => trivial, fun _ =>
        ((aside_releaseIp _).mono fun _ => Aside.offEnvoy).bind fun _ => trivial⟩
    refine envoy_skip released fun _ => ?_
    refine envoy_skip (p := kill _ _) ⟨trivial, fun _ => trivial⟩ fun _ => ?_
    refine envoy_stopEnvoy.bind fun _ _ _ => ?_
    refine envoy_skip (p := Cmd.removeConfig (Y.decode text)) ?_ fun _ => ?_
    · simp [Cmd.removeConfig, OffEnvoy]
    exact envoy_startEnvoy.bind fun _ _ _ => ⟨trivial, fun _ => trivial⟩

end PrivatePaas
