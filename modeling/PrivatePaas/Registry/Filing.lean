import PrivatePaas.Registry.Frame
import PrivatePaas.Conduct.Steady
import PrivatePaas.Effects.History

/-!
# What the records say of fragments

Every record has been stored by a create: it stands under the key of a service or of a
database, and names no fragment, or that of an upstream.
-/

namespace PrivatePaas
set_option autoImplicit false
open Files Text Effects Go Network Prog PrivatePaas.Parser

variable {Y : Yaml} {G : GoIpam} {ι : Type}

/-- The record was made by a create. -/
def Filed (rec : Cmd.Service) : Prop :=
  rec.configFileName = "" ∨ ∃ u, rec.configFileName = Cmd.envoyConfigPath u

/-- The key of a service or of a database. -/
def Keyed (key : String) : Prop := ∃ name, key = Cmd.serviceKey name ∨ key = Cmd.databaseKey name

/-- What is stored is the record of a create, under the key of a service or a database. -/
def Filing (Y : Yaml) (o : Op) : Prop :=
  ∀ key text, o = .kv (.set key text) → Keyed key ∧ ∃ rec, text = Y.marshalRecord rec ∧ Filed rec

section Programs

theorem filing_of_ne {o : Op} (h : ∀ key text, o ≠ .kv (.set key text)) : Filing Y o :=
  fun key text he => absurd he (h key text)

theorem filing_set {key : String} {rec : Cmd.Service} (hk : Keyed key) (h : Filed rec) :
    Filing Y (.kv (.set key (Y.marshalRecord rec))) := by
  intro _ text he
  cases he
  exact ⟨hk, rec, rfl, h⟩

theorem Steady.filing {o : Op} (h : Steady o) : Filing Y o := by
  refine filing_of_ne fun key text he => ?_
  subst he
  exact h

theorem Bearing.filing {o : Op} (h : Bearing o) : Filing Y o := by
  refine filing_of_ne fun key text he => ?_
  subst he
  exact h

theorem Quiet.filing {o : Op} (h : Quiet o) : Filing Y o := by
  refine filing_of_ne fun key text he => ?_
  subst he
  exact h

theorem filed_serviceEntry (s : Service) (ip : String) : Filed (Cmd.serviceEntry s ip) := by
  unfold Cmd.serviceEntry Filed
  by_cases h : s.lb = true
  · exact .inr ⟨s.lbConfig.upstreamName, if_pos h⟩
  · exact .inl (if_neg h)

theorem filing_createService (body ip : String) : Only (Filing Y) (Service.createService Y body ip) := by
  have run : ∀ s : Service, Only (Filing Y) (s.execPythonService ip) :=
    fun s => (bearing_execPythonService s ip).mono fun _ => Bearing.filing
  refine only_ite.mpr ⟨fun _ => only_ite.mpr ⟨fun _ => ?_, fun _ => ?_⟩, fun _ => trivial⟩
  · exact ((steady_updateLbConfig _).mono fun _ => Steady.filing).bind fun _ => (run _).bind fun _ => trivial
  · exact (run _).bind fun _ => trivial

theorem filing_runCreate (path : Path) : Only (Filing Y) (Cmd.runCreate Y path) := by
  have hread : Filing Y (.fs (.readFile path)) := filing_of_ne nofun
  refine ⟨hread, fun r => ?_⟩
  cases r with
  | error _ => trivial
  | ok f =>
    simp only [bind_eq, ret_bind]
    cases Y.unmarshalFile f with
    | none => trivial
    | some file =>
      refine (calm_getIp.mono fun _ h => h.steady.filing).bind fun ip => only_ite.mpr
        ⟨fun _ => ?_, fun _ => only_ite.mpr ⟨fun _ => ?_, fun _ => trivial⟩⟩
      · refine (plain_createBridge.mono fun _ h => h.bearing.filing).bind fun _ => ?_
        refine (filing_createService _ ip).bind fun s => ?_
        have hset := @filing_set Y (Cmd.serviceKey s.name) _ ⟨_, .inl rfl⟩ (filed_serviceEntry s ip)
        exact ⟨hset, fun _ => trivial⟩
      · refine ((bearing_createDatabase _ ip).mono fun _ => Bearing.filing).bind fun d => ?_
        have hset := @filing_set Y (Cmd.databaseKey d.name) (Cmd.databaseEntry d ip) ⟨_, .inr rfl⟩ (.inl rfl)
        exact ⟨hset, fun _ => trivial⟩

theorem filing_releaseIp (ip : String) : Only (Filing Y) (releaseIp ip) := by
  refine (calm_getIpam.mono fun _ h => h.steady.filing).bind fun st => ?_
  cases st with
  | none => trivial
  | some st =>
    have hrelease : ∀ a, Filing Y (.ipam st (.releaseIP a)) := fun _ => filing_of_ne nofun
    simp only [only_ite]
    exact ⟨fun _ => trivial, fun _ => ⟨hrelease _, fun _ => trivial⟩⟩

theorem filing_runDelete (type_ name : String) : Only (Filing Y) (Cmd.runDelete Y type_ name) := by
  have hget : ∀ key, Filing Y (.kv (.get key)) := fun _ => filing_of_ne nofun
  have hkill : ∀ n, Filing Y (.proc (.kill n .sigkill)) := fun _ => filing_of_ne nofun
  have hdel : ∀ key, Filing Y (.kv (.del key)) := fun _ => filing_of_ne nofun
  refine only_ite.mpr ⟨fun _ => trivial, fun _ => ⟨hget _, fun r => ?_⟩⟩
  cases r with
  | none => trivial
  | some text =>
    have hrelease : Only (Filing Y) (Cmd.releaseOf (Y.decode text)) :=
      only_ite.mpr ⟨fun _ => trivial, fun _ => (filing_releaseIp _).bind fun _ => trivial⟩
    refine hrelease.bind fun _ => ⟨hkill _, fun _ => ?_⟩
    refine (quiet_stopEnvoy.mono fun _ => Quiet.filing).bind fun _ => ?_
    refine ((quiet_removeConfig _).mono fun _ => Quiet.filing).bind fun _ => ?_
    exact (steady_startEnvoy.mono fun _ => Steady.filing).bind fun _ => ⟨hdel _, fun _ => trivial⟩

theorem filing_program (t : Task) : Only (Filing Y) (t.program Y) := by
  cases t with
  | create path => exact filing_runCreate path
  | delete type_ name => exact filing_runDelete type_ name
  | updateLb c => exact (steady_updateLbConfig c).mono fun _ => Steady.filing
  | startEnvoy => exact (steady_startEnvoy.mono fun _ => Steady.filing).bind fun _ => trivial
  | stopEnvoy => exact (quiet_stopEnvoy.mono fun _ => Quiet.filing).bind fun _ => trivial

end Programs

def filingWatch (Y : Yaml) (G : GoIpam) : Watch (Host Y G) (.only (Filing Y)) :=
  .only (Host Y G) (Filing Y) fun x w l p w' h => by
    obtain ⟨_, rfl, _⟩ := enter_spec h
    exact filing_program x.task

/-- Every record has been made by a create, and its key is one of those. -/
def World.AllFiled (Y : Yaml) (w : World) : Prop :=
  ∀ key e, w.kv key = some e → Keyed key ∧ Filed (Y.decode e.value)

section Runs
variable {c : Choice} {l : Local} {w : World} {o : Op}

theorem World.AllFiled.of_kv {w' : World} (h : w.AllFiled Y) (hw : w'.kv = w.kv) : w'.AllFiled Y := by
  unfold World.AllFiled
  rw [hw]
  exact h

theorem allFiled_perform (hY : Y.Lawful) (h : w.AllFiled Y) (ho : Filing Y o) :
    (perform Y G c l w o).2.2.AllFiled Y := by
  by_cases hkv : o.WritesKv
  · cases o with
    | kv o =>
      cases o with
      | get key => exact absurd hkv id
      | set key text =>
        intro k e he
        rw [perform_set] at he
        split at he
        · exact h k e he
        · by_cases hk : k = key
          · subst k
            rw [Function.update_self] at he
            obtain rfl := Option.some.inj he
            obtain ⟨hkey, rec, rfl, hrec⟩ := ho key text rfl
            rw [hY.decode_marshal]
            exact ⟨hkey, hrec⟩
          · rw [Function.update_of_ne hk] at he
            exact h k e he
      | del key =>
        intro k e he
        rw [perform_del] at he
        split at he
        · exact h k e he
        · by_cases hk : k = key
          · subst k
            rw [Function.update_self] at he
            cases he
          · rw [Function.update_of_ne hk] at he
            exact h k e he
    | _ => exact absurd hkv id
  · exact h.of_kv (perform_kv hkv)

variable [DecidableEq ι] {m : Machine (Host Y G) ι}

theorem allFiled_step (hY : Y.Lawful) (hF : (filingWatch Y G).Holds m) (h : World.AllFiled Y m.world)
    (e : Event (Host Y G) ι) : World.AllFiled Y (m.apply e).world := by
  apply Machine.apply_elim (P := fun m' => World.AllFiled Y m'.world) m e
  case stay => exact h
  case launched => exact fun i x loc p w _ _ hx => h.of_kv (enter_stores hx).kv
  case dead => exact fun _ _ _ _ => h
  case ended => exact fun _ _ _ _ => h
  case acted => exact fun i c loc o k hp => allFiled_perform hY h (hF.ok hp)
  case disturbed => exact fun d _ => h.of_kv (disturb_stores d).kv

theorem allFiled_run (hY : Y.Lawful) (hF : (filingWatch Y G).Holds m) (h : World.AllFiled Y m.world)
    (es : List (Event (Host Y G) ι)) : World.AllFiled Y (m.run es).world := by
  induction es generalizing m with
  | nil => exact h
  | cons e es ih => exact ih (hF.apply e) (allFiled_step hY hF h e)

end Runs
end PrivatePaas
