import PrivatePaas.Conduct.Plain

/-!
# Every command keeps to the ledger

A create acquires one address, starts at most one child and records what it has
acquired and started; a delete hands back, kills and unrecords what it has read.
-/

namespace PrivatePaas
set_option autoImplicit false
open Files Text Effects Go Network Prog PrivatePaas.Parser

variable {Y : Yaml} {l : Ledger} {s : Stage}

attribute [local simp] Stage.next

/-- An operation that moves the ledger in no stage but the first. -/
def OffLedger : Op → Prop
  | .fs _ => True
  | .net _ => True
  | .proc (.start c) => c.isWorkload = false
  | .proc (.kill _ .sigkill) => False
  | .proc _ => True
  | _ => False

theorem Plain.offLedger {o : Op} (h : Plain o) : OffLedger o := by
  cases o with
  | fs o => trivial
  | net o => trivial
  | proc o => cases o <;> trivial
  | kv o => exact absurd h id
  | probe o => exact absurd h id
  | ipam st o => exact absurd h id

theorem Quiet.offLedger {o : Op} (h : Quiet o) : OffLedger o := by
  cases o with
  | fs o => trivial
  | net o => trivial
  | proc o =>
    cases o with
    | start c => exact absurd h id
    | kill n sg => cases sg <;> exact h
    | _ => trivial
  | _ => exact absurd h id

theorem Stage.afterRead_of_ne {r : Except Err String} (hs : s ≠ .outset) : s.afterRead Y r = s := by
  cases s <;> first | rfl | exact absurd rfl hs

theorem offLedger_still {o : Op} (hs : l.stage ≠ .outset) (h : OffLedger o) :
    (ledger Y).Still l o := by
  cases o with
  | fs o => cases o <;> simp [Monitor.Still, ledger, Stage.ok, Ledger.poolOk,
      Ledger.offlineAfter, Ledger.unreservedAfter, Stage.afterRead_of_ne hs]
  | net o => simp [Monitor.Still, ledger, Stage.ok, Ledger.poolOk,
      Ledger.offlineAfter, Ledger.unreservedAfter]
  | proc o =>
    cases o with
    | start c =>
      have hc : c.isWorkload = false := h
      simp [Monitor.Still, ledger, Stage.ok, Ledger.poolOk,
        Ledger.offlineAfter, Ledger.unreservedAfter, hc]
    | kill n sig =>
      cases sig with
      | sigkill => exact absurd h id
      | sigterm => simp [Monitor.Still, ledger, Stage.ok, Ledger.poolOk,
          Ledger.offlineAfter, Ledger.unreservedAfter]
    | _ => simp [Monitor.Still, ledger, Stage.ok, Ledger.poolOk,
        Ledger.offlineAfter, Ledger.unreservedAfter]
  | kv o => exact absurd h id
  | probe o => exact absurd h id
  | ipam st o => exact absurd h id

/-- Programs that the ledger does not follow. -/
theorem ledger_skip {α β : Type} {p : Go α} {f : α → Go β} {R : Ledger → β → Prop}
    (hs : l.stage ≠ .outset) (hp : Only OffLedger p) (hf : ∀ a, (ledger Y).Obeys l (f a) R) :
    (ledger Y).Obeys l (p >>= f) R :=
  Monitor.Obeys.skip (hp.mono fun _ => offLedger_still hs) hf

/-- The ledger stands at `s`, with nothing left to reserve. -/
def Ledger.At (s : Stage) (l : Ledger) : Prop := l.stage = s ∧ l.unreserved = false

/-- Where an invocation may return from. -/
def Ledger.final (l : Ledger) : Prop := l.stage.final ∧ l.unreserved = false

theorem ledger_selectStorage (h : l.At s) :
    (ledger Y).Obeys l selectStorage fun l' st => l'.At s ∧ (st = .memory → l'.offline = true) := by
  refine ⟨⟨trivial, trivial⟩, fun r => ?_⟩
  cases r with
  | false => exact ⟨h, fun _ => Bool.or_true _⟩
  | true =>
    refine ⟨⟨trivial, trivial⟩, fun r => ?_⟩
    cases r with
    | false => exact ⟨h, fun _ => Bool.or_true _⟩
    | true => exact ⟨h, fun hst => absurd hst (by decide)⟩

theorem ledger_getIpam (h : l.At s) :
    (ledger Y).Obeys l getIpam fun l' st => l'.At s ∧ (st = some .memory → l'.offline = true) := by
  refine (ledger_selectStorage h).bind fun l st hl => ?_
  obtain ⟨⟨hs, hu⟩, hoff⟩ := hl
  refine ⟨⟨trivial, hoff, hu⟩, fun r => ?_⟩
  have hs1 : ((ledger Y).next l (.ipam st .prefixFrom) r).At s := ⟨hs, hu⟩
  have hoff' : ∀ r', st = .memory →
      ((ledger Y).next l (.ipam st .prefixFrom) r').offline = true := fun _ hst => hoff hst
  cases r with
  | true =>
    exact ⟨hs1, fun hst => hoff (Option.some.inj hst)⟩
  | false =>
    refine ⟨⟨trivial, hoff, hu⟩, fun r => ?_⟩
    cases r with
    | failed => exact ⟨⟨hs, by simpa [ledger, Ledger.unreservedAfter] using hu⟩, nofun⟩
    | created =>
      exact ⟨⟨trivial, hoff, by simp [ledger, Ledger.unreservedAfter]⟩, fun _ =>
        ⟨⟨hs, rfl⟩, fun hst => hoff (Option.some.inj hst)⟩⟩
    | already =>
      exact ⟨⟨trivial, hoff, by simp [ledger, Ledger.unreservedAfter]⟩, fun _ =>
        ⟨⟨hs, rfl⟩, fun hst => hoff (Option.some.inj hst)⟩⟩

theorem ledger_getIp {known : Bool} (h : l.At (.holding known "")) :
    (ledger Y).Obeys l getIp fun l' ip => l'.At (.holding known ip) := by
  refine (ledger_getIpam h).bind fun l st hl => ?_
  obtain ⟨⟨hs, hu⟩, hoff⟩ := hl
  cases st with
  | none => exact ⟨hs, hu⟩
  | some st =>
    refine ⟨⟨⟨known, hs⟩, fun hst => hoff (congrArg some hst), hu⟩, fun r => ?_⟩
    cases r with
    | none => exact ⟨by simp [ledger, hs, Stage.afterAcquire], hu⟩
    | some ip => exact ⟨by simp [ledger, hs, Stage.afterAcquire], hu⟩

theorem ledger_getOrAcquireEnvoyIp (h : l.At s) :
    (ledger Y).Obeys l getOrAcquireEnvoyIp fun l' _ => l'.At s := by
  refine (ledger_getIpam h).bind fun l st hl => ?_
  obtain ⟨⟨hs, hu⟩, hoff⟩ := hl
  cases st with
  | none => exact ⟨hs, hu⟩
  | some st =>
    refine ⟨⟨trivial, fun hst => hoff (congrArg some hst), ?_⟩, fun r => ?_⟩
    · simp [hu]
    · cases r <;> exact ⟨hs, rfl⟩

/-- The address a delete hands back is the one in the record it has read. -/
theorem ledger_releaseIp {key : String} {rec : Cmd.Service} (h : l.At (.reading key rec))
    (hip : rec.ip ≠ "") :
    (ledger Y).Obeys l (releaseIp rec.ip) fun l' _ =>
      l'.At (.reading key rec) ∨ l'.At (.released key rec) := by
  refine (ledger_getIpam h).bind fun l st hl => ?_
  obtain ⟨⟨hs, hu⟩, hoff⟩ := hl
  cases st with
  | none => exact .inl ⟨hs, hu⟩
  | some st =>
    simp only [Monitor.obeys_ite]
    refine ⟨fun _ => .inl ⟨hs, hu⟩, fun hne => ?_⟩
    refine ⟨⟨⟨key, rec, hs, hip, rfl, hne⟩, fun hst => hoff (congrArg some hst), hu⟩, fun r => ?_⟩
    exact .inr ⟨by simp [ledger, hs, Stage.afterRelease], hu⟩

theorem ledger_startEnvoy (hs : s ≠ .outset) (h : l.At s) :
    (ledger Y).Obeys l startEnvoy fun l' _ => l'.At s := by
  have hl : l.stage ≠ .outset := by rw [h.1]; exact hs
  refine ledger_skip hl (quiet_stopExisting.mono fun _ => Quiet.offLedger) fun _ => ?_
  refine ledger_skip hl (quiet_ensureConfig.mono fun _ => Quiet.offLedger) fun _ => ?_
  refine ledger_skip hl (plain_envoyBinary.mono fun _ => Plain.offLedger) fun bin => ?_
  refine ledger_skip hl (p := openAppend _) ⟨trivial, fun _ => trivial⟩ fun _ => ?_
  refine ledger_skip hl (p := start (.envoy bin envoyConfig)) ⟨rfl, fun _ => trivial⟩ fun r => ?_
  cases r with
  | none => exact h
  | some pid =>
    refine ledger_skip hl ((plain_moveToCgroup pid).mono fun _ => Plain.offLedger) fun _ => ?_
    refine ledger_skip hl (p := writeFile _ _) ⟨trivial, fun _ => trivial⟩ fun _ => ?_
    refine (ledger_getOrAcquireEnvoyIp h).bind fun l r hl' => ?_
    have hl : l.stage ≠ .outset := by rw [hl'.1]; exact hs
    cases r with
    | none => exact hl'
    | some ip =>
      exact ledger_skip hl ((plain_connectEnvoy pid ip).mono fun _ => Plain.offLedger) fun _ => hl'

theorem ledger_updateLbConfig (hs : s ≠ .outset) (h : l.At s) (c : ServiceEnvoyConfig) :
    (ledger Y).Obeys l (updateLbConfig Y c) fun l' _ => l'.At s := by
  have hl : l.stage ≠ .outset := by rw [h.1]; exact hs
  refine ledger_skip hl (p := mkdirAll _) ⟨trivial, fun _ => trivial⟩ fun r => ?_
  refine Monitor.obeys_ite.mpr ⟨fun _ => trivial, fun _ => ?_⟩
  refine ledger_skip hl (p := writeFile _ _) ⟨trivial, fun _ => trivial⟩ fun r => ?_
  refine Monitor.obeys_ite.mpr ⟨fun _ => trivial, fun _ => ?_⟩
  refine ledger_skip hl (p := glob _ _) ⟨trivial, fun _ => trivial⟩ fun files => ?_
  refine ledger_skip hl ((quiet_readFragments files []).mono fun _ => Quiet.offLedger) fun services => ?_
  refine ledger_skip hl (p := getwd) ⟨trivial, fun _ => trivial⟩ fun r => ?_
  cases r with
  | none => trivial
  | some pwd =>
    refine ledger_skip hl (p := parseFiles _) ⟨trivial, fun _ => trivial⟩ fun r => ?_
    refine Monitor.obeys_ite.mpr ⟨fun _ => trivial, fun _ => ?_⟩
    refine ledger_skip hl (p := create _) ⟨trivial, fun _ => trivial⟩ fun r => ?_
    refine Monitor.obeys_ite.mpr ⟨fun _ => trivial, fun _ => ?_⟩
    refine ledger_skip hl (p := write _ _) ⟨trivial, fun _ => trivial⟩ fun r => ?_
    refine Monitor.obeys_ite.mpr ⟨fun _ => trivial, fun _ => ?_⟩
    exact (ledger_startEnvoy hs h).bind fun l _ hl' => hl'

/-- The child is recorded in the stage the invocation has reached. -/
theorem ledger_execPythonService {known : Bool} {ip : String} (h : l.At (.holding known ip))
    (v : Service) :
    (ledger Y).Obeys l (v.execPythonService ip) fun l' pid => l'.At (.running ip pid) := by
  have hl : l.stage ≠ .outset := by rw [h.1]; exact nofun
  refine ledger_skip hl (p := openAppend _) ⟨trivial, fun _ => trivial⟩ fun r => ?_
  refine Monitor.obeys_ite.mpr ⟨fun _ => trivial, fun _ => ?_⟩
  refine ⟨⟨fun _ => ⟨known, ip, h.1⟩, trivial⟩, fun r => ?_⟩
  cases r with
  | none => trivial
  | some pid =>
    have h' : ((ledger Y).next l (.proc (.start (.containerInit v.path))) (some pid)).At
        (.running ip pid) :=
      ⟨by simp [ledger, Command.isWorkload, h.1, Stage.afterStart], h.2⟩
    generalize (ledger Y).next l (.proc (.start (.containerInit v.path))) (some pid) = l1 at h'
    have hl : l1.stage ≠ .outset := by rw [h'.1]; exact nofun
    simp only [bind_eq, ret_bind]
    refine ledger_skip hl ((plain_waitNetns pid 10).mono fun _ => Plain.offLedger) fun r => ?_
    refine Monitor.obeys_ite.mpr ⟨fun _ => trivial, fun _ => ?_⟩
    refine ledger_skip hl ((plain_serviceCg v pid).mono fun _ => Plain.offLedger) fun _ => ?_
    refine ledger_skip hl ((plain_connectIfLb v pid ip).mono fun _ => Plain.offLedger) fun _ => ?_
    refine ledger_skip hl (p := release _) ⟨trivial, fun _ => trivial⟩ fun r => ?_
    exact Monitor.obeys_ite.mpr ⟨fun _ => trivial, fun _ => h'⟩

/-- After a create has done its work it holds an address, or it has started a child
whose pid it has put into the struct. -/
def Ledger.Created (known : Bool) (ip : String) (pid : Int) (l : Ledger) : Prop :=
  l.At (.holding known ip) ∨ ∃ n : Nat, l.At (.running ip n) ∧ pid = n

theorem ledger_createService {known : Bool} {ip : String} (h : l.At (.holding known ip))
    (body : String) :
    (ledger Y).Obeys l (Service.createService Y body ip) fun l' v => l'.Created known ip v.pid := by
  have run : ∀ l', l'.At (.holding known ip) → ∀ v : Service, (ledger Y).Obeys l' (do
      let pid ← v.execPythonService ip
      return { v with pid := pid }) fun l' v => l'.Created known ip v.pid := by
    intro l' hl' v
    exact (ledger_execPythonService hl' v).bind fun l'' pid hl'' => .inr ⟨pid, hl'', rfl⟩
  unfold Service.createService
  refine Monitor.obeys_ite.mpr ⟨fun _ => ?_, fun _ => .inl h⟩
  refine Monitor.obeys_ite.mpr ⟨fun _ => ?_, fun _ => run l h _⟩
  exact (ledger_updateLbConfig (by simp) h _).bind fun l' _ hl' => run l' hl' _

theorem ledger_execPostgreSQL {known : Bool} {ip : String} (h : l.At (.holding known ip))
    (d : Database) :
    (ledger Y).Obeys l d.execPostgreSQL fun l' pid => l'.At (.running ip pid) := by
  have hl : l.stage ≠ .outset := by rw [h.1]; exact nofun
  refine ledger_skip hl (p := lookupUser _) ⟨trivial, fun _ => trivial⟩ fun _ => ?_
  refine ledger_skip hl (p := mkdirAll _) ⟨trivial, fun _ => trivial⟩ fun _ => ?_
  refine ledger_skip hl ((plain_initDataDir d.name).mono fun _ => Plain.offLedger) fun _ => ?_
  refine ledger_skip hl ((plain_allowBridge _).mono fun _ => Plain.offLedger) fun _ => ?_
  refine ledger_skip hl ((plain_findBin (by decide)).mono fun _ => Plain.offLedger) fun bin => ?_
  refine ledger_skip hl (p := openAppend _) ⟨trivial, fun _ => trivial⟩ fun r => ?_
  refine Monitor.obeys_ite.mpr ⟨fun _ => trivial, fun _ => ?_⟩
  refine ⟨⟨fun _ => ⟨known, ip, h.1⟩, trivial⟩, fun r => ?_⟩
  cases r with
  | none => trivial
  | some pid =>
    have h' : ((ledger Y).next l (.proc (.start (.postgres bin (Database.dataDir d.name))))
        (some pid)).At (.running ip pid) :=
      ⟨by simp [ledger, Command.isWorkload, h.1, Stage.afterStart], h.2⟩
    generalize (ledger Y).next l (.proc (.start (.postgres bin (Database.dataDir d.name))))
      (some pid) = l1 at h'
    have hl : l1.stage ≠ .outset := by rw [h'.1]; exact nofun
    simp only [bind_eq, ret_bind]
    refine ledger_skip hl ((plain_waitNetns pid 20).mono fun _ => Plain.offLedger) fun r => ?_
    refine Monitor.obeys_ite.mpr ⟨fun _ => trivial, fun _ => ?_⟩
    exact ledger_skip hl ((plain_databaseCg d pid).mono fun _ => Plain.offLedger) fun _ => h'

theorem ledger_createDatabase {known : Bool} {ip : String} (h : l.At (.holding known ip))
    (body : String) :
    (ledger Y).Obeys l (Database.createDatabase Y body ip) fun l' d =>
      l'.At (.holding known ip) ∨ ∃ n : Nat, l'.At (.running ip n) ∧ d.pid = itoa n := by
  unfold Database.createDatabase
  refine Monitor.obeys_ite.mpr ⟨fun _ => ?_, fun _ => .inl h⟩
  refine (ledger_execPostgreSQL h _).bind fun l' pid hl' => ?_
  have hl : l'.stage ≠ .outset := by rw [hl'.1]; exact nofun
  exact ledger_skip hl ((plain_connectToBridge _ pid ip).mono fun _ => Plain.offLedger) fun _ =>
    .inr ⟨pid, hl', rfl⟩

theorem ledger_createByType {known : Bool} {ip : String} (h : l.At (.holding known ip))
    (file : Cmd.File) (hk : known = decide (file.type = "service" ∨ file.type = "db")) :
    (ledger Y).Obeys l (Cmd.createByType Y file ip) fun l' _ => l'.final := by
  have hl : l.stage ≠ .outset := by rw [h.1]; exact nofun
  unfold Cmd.createByType
  refine Monitor.obeys_ite.mpr ⟨fun _ => ?_, fun hns => Monitor.obeys_ite.mpr ⟨fun _ => ?_, fun hnd => ?_⟩⟩
  · refine ledger_skip hl (plain_createBridge.mono fun _ => Plain.offLedger) fun _ => ?_
    refine (ledger_createService h file.body).bind fun l' v hl' => ?_
    rcases hl' with hl' | ⟨n, hl', hpid⟩
    · refine ⟨⟨⟨_, rfl, .inl ⟨known, hl'.1⟩⟩, trivial⟩, fun r => ?_⟩
      exact ⟨by simp [ledger, hl'.1, Stage.afterSet, Stage.final], hl'.2⟩
    · refine ⟨⟨⟨_, rfl, .inr ⟨n, hl'.1, ?_⟩⟩, trivial⟩, fun r => ?_⟩
      · rw [Cmd.serviceEntry, hpid]
      · exact ⟨by simp [ledger, hl'.1, Stage.afterSet, Stage.final], hl'.2⟩
  · refine (ledger_createDatabase h file.body).bind fun l' d hl' => ?_
    rcases hl' with hl' | ⟨n, hl', hpid⟩
    · refine ⟨⟨⟨_, rfl, .inl ⟨known, hl'.1⟩⟩, trivial⟩, fun r => ?_⟩
      exact ⟨by simp [ledger, hl'.1, Stage.afterSet, Stage.final], hl'.2⟩
    · refine ⟨⟨⟨_, rfl, .inr ⟨n, hl'.1, hpid⟩⟩, trivial⟩, fun r => ?_⟩
      exact ⟨by simp [ledger, hl'.1, Stage.afterSet, Stage.final], hl'.2⟩
  · have hf : known = false := by simp [hk, hns, hnd]
    refine ⟨?_, h.2⟩
    rw [h.1]
    exact hf

theorem ledger_runCreate (h : l.At .outset) (path : Path) :
    (ledger Y).Obeys l (Cmd.runCreate Y path) fun l' _ => l'.final := by
  refine ⟨⟨trivial, trivial⟩, fun r => ?_⟩
  cases r with
  | error e => exact ⟨by simp [ledger, h.1, Stage.afterRead, Stage.final], h.2⟩
  | ok data =>
    cases hf : Y.unmarshalFile data with
    | none =>
      simp only [bind_eq, ret_bind, hf]
      exact ⟨by simp [ledger, h.1, Stage.afterRead, hf, Stage.final], h.2⟩
    | some file =>
      have h' : ((ledger Y).next l (.fs (.readFile path)) (.ok data)).At
          (.holding (decide (file.type = "service" ∨ file.type = "db")) "") :=
        ⟨by simp [ledger, h.1, Stage.afterRead, hf], h.2⟩
      simp only [bind_eq, ret_bind, hf]
      exact (ledger_getIp h').bind fun l' ip hl' => ledger_createByType hl' file rfl

theorem ledger_deleteProcess (name type_ : String) (h : l.At (.asked (type_ ++ ":" ++ name))) :
    (ledger Y).Obeys l (Cmd.deleteProcess Y name type_) fun l' _ => l'.final := by
  refine ⟨⟨h.1, trivial⟩, fun r => ?_⟩
  cases r with
  | none => exact ⟨by simp [ledger, h.1, Stage.afterGet, Stage.final], h.2⟩
  | some text =>
    have h' : ((ledger Y).next l (.kv (.get (type_ ++ ":" ++ name))) (some text)).At
        (.reading (type_ ++ ":" ++ name) (Y.decode text)) :=
      ⟨by simp [ledger, h.1, Stage.afterGet], h.2⟩
    generalize (ledger Y).next l (.kv (.get (type_ ++ ":" ++ name))) (some text) = l1 at h'
    have released : (ledger Y).Obeys l1 (Cmd.releaseOf (Y.decode text)) fun l' _ =>
        l'.At (.reading (type_ ++ ":" ++ name) (Y.decode text)) ∨
        l'.At (.released (type_ ++ ":" ++ name) (Y.decode text)) :=
      Monitor.obeys_ite.mpr ⟨fun _ => .inl h', fun hip =>
        (ledger_releaseIp h' hip).bind fun l' _ hl' => hl'⟩
    refine released.bind fun l2 _ h2 => ?_
    refine ⟨⟨?_, trivial⟩, fun r => ?_⟩
    · exact ⟨_, _, h2.imp And.left And.left, rfl⟩
    have h3 : ((ledger Y).next l2 (.proc (.kill (atoi (Y.decode text).pid).1 .sigkill)) r).At
        (.killed (type_ ++ ":" ++ name) (Y.decode text)) := by
      rcases h2 with h2 | h2
      · exact ⟨by simp [ledger, h2.1, Stage.afterKill], h2.2⟩
      · exact ⟨by simp [ledger, h2.1, Stage.afterKill], h2.2⟩
    generalize (ledger Y).next l2 (.proc (.kill (atoi (Y.decode text).pid).1 .sigkill)) r = l3 at h3
    have hl : l3.stage ≠ .outset := by rw [h3.1]; exact nofun
    simp only [bind_eq, ret_bind]
    refine ledger_skip hl (quiet_stopEnvoy.mono fun _ => Quiet.offLedger) fun _ => ?_
    refine ledger_skip hl (p := Cmd.removeConfig (Y.decode text)) ?_ fun _ => ?_
    · simp [Cmd.removeConfig, OffLedger]
    refine (ledger_startEnvoy (by simp) h3).bind fun l4 _ h4 => ?_
    refine ⟨⟨⟨_, h4.1⟩, trivial⟩, fun r => ?_⟩
    exact ⟨by simp [ledger, h4.1, Stage.afterDel, Stage.final], h4.2⟩

theorem ledger_runDelete (type_ name : String)
    (h : l.At (if type_ = "service" ∨ type_ = "database" then .asked (type_ ++ ":" ++ name) else .done)) :
    (ledger Y).Obeys l (Cmd.runDelete Y type_ name) fun l' _ => l'.final := by
  unfold Cmd.runDelete
  refine Monitor.obeys_ite.mpr ⟨fun hne => ?_, fun hne => ?_⟩
  · refine ⟨?_, h.2⟩
    rw [h.1, if_neg (by simpa using hne)]
    trivial
  · rw [if_pos (by simpa [or_iff_not_imp_left] using hne)] at h
    exact ledger_deleteProcess name type_ h

end PrivatePaas
