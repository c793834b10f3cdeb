import PrivatePaas.Host.Links

/-!
# What a create does before and after it starts its process

Up to the start of the process, and from there to the record, a create kills nothing,
starts no other workload and writes no record, and the bridge stays where it is.
-/

namespace PrivatePaas
set_option autoImplicit false
open Files Text Effects Go Network Prog PrivatePaas.Parser

variable {Y : Yaml}

/-- An operation on files, pools or processes that starts nothing and sends no signal. -/
def Calm : Op → Prop
  | .fs _ => True
  | .probe _ => True
  | .ipam _ _ => True
  | .proc (.start _) => False
  | .proc (.kill _ _) => False
  | .proc _ => True
  | _ => False

/-- The bridge is neither deleted nor moved. -/
def NetOp.SparesBridge : NetOp → Prop
  | linkDel name => name ≠ br0
  | linkSetNs name _ => name ≠ br0
  | _ => True

/-- An operation that kills nothing, starts no workload, writes no record and spares the
bridge. -/
def Steady : Op → Prop
  | .net o => o.SparesBridge
  | .proc (.start c) => c.isWorkload = false
  | .proc (.kill _ sg) => sg = .sigterm
  | .kv _ => False
  | _ => True

theorem Calm.steady {o : Op} (h : Calm o) : Steady o := by
  cases o with
  | proc o => cases o <;> trivial
  | net o => cases h
  | kv o => cases h
  | _ => trivial

section CalmPrograms

attribute [local simp] Calm

theorem calm_getIpam : Only Calm getIpam := by
  have h : Only Calm selectStorage := by simp [selectStorage]
  refine h.bind fun st => ⟨trivial, fun r => only_ite.mpr ⟨fun _ => trivial, fun _ => ⟨trivial, fun r => ?_⟩⟩⟩
  cases r with
  | failed => trivial
  | created => exact ⟨trivial, fun _ => trivial⟩
  | already => exact ⟨trivial, fun _ => trivial⟩

theorem calm_getOrAcquireEnvoyIp : Only Calm getOrAcquireEnvoyIp := by
  refine calm_getIpam.bind fun st => ?_
  cases st with
  | none => trivial
  | some st =>
    refine ⟨trivial, fun r => ?_⟩
    cases r <;> trivial

theorem calm_getIp : Only Calm getIp := by
  refine calm_getIpam.bind fun st => ?_
  cases st with
  | none => trivial
  | some st =>
    refine ⟨trivial, fun r => ?_⟩
    cases r <;> trivial

theorem calm_findPidForEnvoy : Only Calm Utils.findPidForEnvoy := by
  refine ⟨trivial, fun r => ?_⟩
  cases r with
  | error e => cases e <;> trivial
  | ok data =>
    cases h : atoi (trimSpace data) with
    | mk pid b => cases b <;> simp [h]

theorem calm_ensureConfig : Only Calm ensureConfig := by
  refine ⟨trivial, fun _ => ⟨trivial, fun r => ?_⟩⟩
  cases r with
  | ok _ => trivial
  | error e => cases e <;> simp

theorem calm_envoyBinary : Only Calm envoyBinary := by
  refine ⟨trivial, fun r => ?_⟩
  cases r with
  | some path => trivial
  | none =>
    refine ⟨trivial, fun r => ?_⟩
    cases r with
    | ok _ => trivial
    | error _ =>
      refine ⟨trivial, fun r => ?_⟩
      cases r <;> trivial

theorem calm_moveToCgroup (pid : Nat) : Only Calm (moveProcessToEnvoyCgroup pid) := by
  simp [moveProcessToEnvoyCgroup]

theorem calm_readFragments (fs : List String) (acc : List EnvoyService) :
    Only Calm (readFragments Y fs acc) := by
  induction fs generalizing acc with
  | nil => trivial
  | cons f fs ih => exact ⟨trivial, fun r => ih _⟩

theorem calm_waitNetns (pid n : Nat) : Only Calm (waitNetns pid n) := by
  induction n with
  | zero => trivial
  | succ n ih => exact ⟨trivial, fun _ => only_ite.mpr ⟨fun _ => trivial, fun _ => ih⟩⟩

theorem calm_writeLimit (file : Path) (value : String) : Only Calm (Service.writeLimit file value) := by
  simp [Service.writeLimit]

theorem calm_serviceCg (s : Service) (pid : Nat) : Only Calm (s.cg pid) :=
  ⟨trivial, fun _ => only_ite.mpr ⟨fun _ => trivial, fun _ => (calm_writeLimit _ _).bind fun _ =>
    (calm_writeLimit _ _).bind fun _ => calm_writeLimit _ _⟩⟩

theorem calm_databaseCg (d : Database) (pid : Nat) : Only Calm (d.cg pid) := by
  simp [Database.cg]

theorem calm_firstExisting (name : String) (cs : List Path) :
    Only Calm (Database.firstExisting name cs) := by
  induction cs with
  | nil => trivial
  | cons c cs ih =>
    refine ⟨trivial, fun r => ?_⟩
    cases r with
    | ok _ => trivial
    | error _ => exact ih

theorem calm_findBin (name : String) : Only Calm (Database.findBin name) := by
  refine ⟨trivial, fun r => ?_⟩
  cases r with
  | some _ => trivial
  | none => exact calm_firstExisting name _

theorem calm_initDataDir (dir : Path) : Only Calm (Database.initDataDir dir) := by
  refine ⟨trivial, fun r => ?_⟩
  cases r with
  | ok _ => trivial
  | error e =>
    cases e with
    | other => trivial
    | notExist =>
      exact ⟨trivial, fun _ => (calm_findBin _).bind fun _ => ⟨trivial, fun _ => trivial⟩⟩

theorem calm_allowBridge (dir : Path) : Only Calm (Database.allowBridge dir) := by
  refine ⟨trivial, fun r => ?_⟩
  cases r with
  | error _ => trivial
  | ok data => exact only_ite.mpr ⟨fun _ => trivial, fun _ => ⟨trivial, fun _ => trivial⟩⟩

end CalmPrograms

section SteadyPrograms

theorem steady_createBridge : Only Steady createBridge := by
  simp [createBridge, Steady, NetOp.SparesBridge]

theorem steady_connectProcess (pid : Nat) (ip name : String) :
    Only Steady (connectProcessToBridge pid ip (bytes ("v-" ++ name))) := by
  obtain ⟨hin, hout, _⟩ := vethNames_ne_fixed name pid
  refine (connects_connectProcess pid ip _).mono fun o ho => ?_
  cases o with
  | net o =>
    cases o with
    | linkDel m => exact Or.elim ho (fun h => h ▸ hin) fun h => h ▸ hout
    | linkSetNs m ns => exact ho.1 ▸ hin
    | _ => trivial
  | _ => exact absurd ho id

theorem steady_stopExisting : Only Steady stopExisting := by
  refine (calm_findPidForEnvoy.mono fun _ => Calm.steady).bind fun r => ?_
  cases r <;> simp [Steady]

theorem steady_startEnvoy : Only Steady startEnvoy := by
  refine steady_stopExisting.bind fun _ => (calm_ensureConfig.mono fun _ => Calm.steady).bind fun _ =>
    (calm_envoyBinary.mono fun _ => Calm.steady).bind fun bin => ⟨trivial, fun _ => ⟨rfl, fun r => ?_⟩⟩
  cases r with
  | none => trivial
  | some pid =>
    refine ((calm_moveToCgroup pid).mono fun _ => Calm.steady).bind fun _ => ⟨trivial, fun _ => ?_⟩
    refine (calm_getOrAcquireEnvoyIp.mono fun _ => Calm.steady).bind fun r => ?_
    cases r with
    | none => trivial
    | some ip =>
      have hconnect : Only Steady (connectEnvoy pid ip) :=
        steady_createBridge.bind fun _ => (steady_connectProcess pid ip "envoy").bind fun _ => trivial
      exact hconnect.bind fun _ => trivial

theorem steady_updateLbConfig (c : ServiceEnvoyConfig) : Only Steady (updateLbConfig Y c) := by
  refine ⟨trivial, fun _ => only_ite.mpr ⟨fun _ => trivial, fun _ => ⟨trivial, fun _ => only_ite.mpr
    ⟨fun _ => trivial, fun _ => ⟨trivial, fun files => ?_⟩⟩⟩⟩⟩
  refine ((calm_readFragments files []).mono fun _ => Calm.steady).bind fun ss => ⟨trivial, fun r => ?_⟩
  cases r with
  | none => trivial
  | some pwd =>
    exact ⟨trivial, fun _ => only_ite.mpr ⟨fun _ => trivial, fun _ => ⟨trivial, fun _ => only_ite.mpr
      ⟨fun _ => trivial, fun _ => ⟨trivial, fun _ => only_ite.mpr ⟨fun _ => trivial, fun _ =>
        steady_startEnvoy.bind fun _ => trivial⟩⟩⟩⟩⟩⟩

end SteadyPrograms
end PrivatePaas
