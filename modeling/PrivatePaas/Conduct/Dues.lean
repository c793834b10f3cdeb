import PrivatePaas.Conduct.Plain

/-!
# Every command pays its dues to the pool

A delete releases the address it has read before it kills, whoever has started Envoy
asks for the gateway's address afterwards, and nobody asks before there is a prefix.
-/

namespace PrivatePaas
set_option autoImplicit false
open Files Text Effects Go Network Prog PrivatePaas.Parser

variable {Y : Yaml} {d : Dues}

attribute [local simp] Debt.step

/-- An operation that changes no dues. -/
def OffDues : Op → Prop
  | .kv (.get _) => False
  | .ipam _ _ => False
  | .proc (.start c) => c.isWorkload = true
  | .proc (.kill _ .sigkill) => False
  | _ => True

theorem Quiet.offDues {o : Op} (h : Quiet o) : OffDues o := by
  cases o with
  | fs o => trivial
  | net o => trivial
  | proc o =>
    cases o with
    | start c => exact absurd h id
    | kill n sg => cases sg <;> exact h
    | _ => trivial
  | _ => exact absurd h id

theorem Bearing.offDues {o : Op} (h : Bearing o) : OffDues o := by
  cases o with
  | proc o => cases o <;> first | exact h | trivial
  | fs o => trivial
  | net o => trivial
  | _ => exact absurd h id

theorem Plain.offDues {o : Op} (h : Plain o) : OffDues o := h.bearing.offDues

theorem Debt.next_of_step {d : Debt} {o : Op} {r : o.Ret} (h : d.step Y o r = d) :
    d.next Y o r = d := by
  by_cases hv : d = .void
  · exact (if_pos hv).trans hv.symm
  · exact (if_neg hv).trans h

theorem offDues_still {o : Op} (h : OffDues o) : (dues Y).Still d o := by
  have same : (∀ r, d.debt.step Y o r = d.debt) → (∀ r, Dues.madeAfter d.made o r = d.made) →
      ∀ r, (dues Y).next d o r = d := by
    intro hs hm r
    change Dues.mk _ _ = d
    rw [Debt.next_of_step (hs r), hm r]
  cases o with
  | kv o =>
    cases o with
    | get key => exact absurd h id
    | _ => exact ⟨⟨trivial, trivial⟩, same (fun _ => rfl) fun _ => rfl⟩
  | ipam st o => exact absurd h id
  | proc o =>
    cases o with
    | start c =>
      have hc : c.isWorkload = true := h
      refine ⟨⟨fun hw => ?_, trivial⟩, same (fun r => by simp [hc]) fun _ => rfl⟩
      rw [hc] at hw
      cases hw
    | kill n sg =>
      cases sg with
      | sigkill => exact absurd h id
      | sigterm => exact ⟨⟨trivial, trivial⟩, same (fun _ => rfl) fun _ => rfl⟩
    | _ => exact ⟨⟨trivial, trivial⟩, same (fun _ => rfl) fun _ => rfl⟩
  | _ => exact ⟨⟨trivial, trivial⟩, same (fun _ => rfl) fun _ => rfl⟩

theorem dues_skip {α β : Type} {p : Go α} {f : α → Go β} {R : Dues → β → Prop}
    (hp : Only OffDues p) (hf : ∀ a, (dues Y).Obeys d (f a) R) : (dues Y).Obeys d (p >>= f) R :=
  Monitor.Obeys.skip (hp.mono fun _ => offDues_still) hf

/-- The debt is what it was, or void. -/
def Dues.Stays (d d' : Dues) : Prop := d'.debt = d.debt ∨ d'.debt = .void

theorem Dues.Stays.final {d' : Dues} (h : d.Stays d') (hd : d.debt.final) : d'.debt.final := by
  rcases h with h | h <;> rw [h]
  · exact hd
  · exact .inr rfl

/-- There is a prefix when `GetIpam` returns, or the debt is void. -/
theorem dues_getIpam : (dues Y).Obeys d getIpam fun d' r =>
    d.Stays d' ∧ (r = none → d'.debt = .void) ∧ (r ≠ none → d'.made = true) := by
  refine dues_skip (p := selectStorage) (by simp [selectStorage, OffDues]) fun st => ?_
  refine ⟨⟨trivial, trivial⟩, fun r => ?_⟩
  have hd : ∀ r, ((dues Y).next d (.ipam st .prefixFrom) r).debt = d.debt := fun r =>
    Debt.next_of_step rfl
  cases r with
  | true => exact ⟨.inl (hd true), by simp, fun _ => Bool.or_true _⟩
  | false =>
    have h1 := hd false
    generalize (dues Y).next d (.ipam st .prefixFrom) false = d1 at h1
    refine ⟨⟨trivial, trivial⟩, fun r => ?_⟩
    have hne : host 254 ≠ host 1 := fun h => absurd (host_injective h) (by decide)
    have reserve : r ≠ .failed → (dues Y).Obeys ((dues Y).next d1 (.ipam st .newPrefix) r) (do
        let _ ← acquireSpecificIP st (host 254)
        return some st) fun d' r =>
          d.Stays d' ∧ (r = none → d'.debt = .void) ∧ (r ≠ none → d'.made = true) := by
      intro hr
      have hmade : Dues.madeAfter d1.made (.ipam st .newPrefix) r = true := by
        simp [Dues.madeAfter, hr]
      refine ⟨⟨fun h => absurd h hne, hmade⟩, fun a => ⟨.inl ?_, by simp, fun _ => hmade⟩⟩
      have hn : d1.debt.next Y (.ipam st .newPrefix) r = d1.debt :=
        Debt.next_of_step (by simp [hr])
      have hn' : d1.debt.next Y (.ipam st (.acquireSpecificIP (host 254))) a = d1.debt :=
        Debt.next_of_step (by simp [hne])
      change (d1.debt.next Y (.ipam st .newPrefix) r).next Y (.ipam st (.acquireSpecificIP (host 254))) a = _
      rw [hn, hn', h1]
    cases r with
    | failed =>
      have hv : d1.debt.next Y (.ipam st .newPrefix) .failed = .void := by
        by_cases hv : d1.debt = .void <;> simp [Debt.next, hv]
      exact ⟨.inr hv, fun _ => hv, fun h => absurd rfl h⟩
    | created => exact reserve (by simp)
    | already => exact reserve (by simp)

theorem dues_getIp (h : d.debt.final) : (dues Y).Obeys d getIp fun d' _ => d'.debt.final := by
  refine dues_getIpam.bind fun d' st hd => ?_
  have hd' := hd.1.final h
  cases st with
  | none => exact hd'
  | some st =>
    refine ⟨⟨trivial, hd.2.2 nofun⟩, fun r => ?_⟩
    have hn : ((dues Y).next d' (.ipam st .acquireIP) r).debt.final := by
      have : d'.debt.next Y (.ipam st .acquireIP) r = d'.debt := Debt.next_of_step rfl
      change (d'.debt.next Y (.ipam st .acquireIP) r).final
      rw [this]
      exact hd'
    cases r <;> exact hn

theorem dues_getOrAcquireEnvoyIp (h : d.debt = .started ∨ d.debt = .void) :
    (dues Y).Obeys d getOrAcquireEnvoyIp fun d' _ => d'.debt.final := by
  refine dues_getIpam.bind fun d' st hd => ?_
  cases st with
  | none => exact .inr (hd.2.1 rfl)
  | some st =>
    have hd' : d'.debt = .started ∨ d'.debt = .void := by
      rcases hd.1 with hs | hs <;> rw [hs]
      · exact h
      · exact .inr rfl
    refine ⟨⟨fun _ => hd', hd.2.2 nofun⟩, fun r => ?_⟩
    have hfin : ((dues Y).next d' (.ipam st (.acquireSpecificIP (host 1))) r).debt.final := by
      rcases hd' with hs | hs
      · exact .inl (by simp [dues, Debt.next, hs])
      · exact .inr (by simp [dues, Debt.next, hs])
    cases r <;> exact hfin

theorem dues_startEnvoy (h : ∀ ip, d.debt ≠ .unreleased ip) :
    (dues Y).Obeys d startEnvoy fun d' _ => d'.debt.final := by
  refine dues_skip (quiet_stopExisting.mono fun _ => Quiet.offDues) fun _ => ?_
  refine dues_skip (quiet_ensureConfig.mono fun _ => Quiet.offDues) fun _ => ?_
  refine dues_skip (plain_envoyBinary.mono fun _ => Plain.offDues) fun bin => ?_
  refine dues_skip (p := openAppend _) ⟨trivial, fun _ => trivial⟩ fun _ => ?_
  refine ⟨⟨fun _ => h, trivial⟩, fun r => ?_⟩
  have hnext : ∀ r, d.debt.next Y (.proc (.start (.envoy bin envoyConfig))) r =
      if d.debt = .void ∨ r = none then .void else .started := by
    intro r
    by_cases hv : d.debt = .void
    · simp [Debt.next, hv]
    · simp [Debt.next, Command.isWorkload, hv]
  cases r with
  | none => exact .inr ((hnext none).trans (if_pos (.inr rfl)))
  | some pid =>
    have hd : ((dues Y).next d (.proc (.start (.envoy bin envoyConfig))) (some pid)).debt = .started ∨
        ((dues Y).next d (.proc (.start (.envoy bin envoyConfig))) (some pid)).debt = .void := by
      by_cases hv : d.debt = .void
      · exact .inr ((hnext (some pid)).trans (if_pos (.inl hv)))
      · exact .inl ((hnext (some pid)).trans (if_neg (by simp [hv])))
    generalize (dues Y).next d (.proc (.start (.envoy bin envoyConfig))) (some pid) = d at hd
    simp only [bind_eq, ret_bind]
    refine dues_skip ((plain_moveToCgroup pid).mono fun _ => Plain.offDues) fun _ => ?_
    refine dues_skip (p := writeFile _ _) ⟨trivial, fun _ => trivial⟩ fun _ => ?_
    refine (dues_getOrAcquireEnvoyIp hd).bind fun d' r hd' => ?_
    cases r with
    | none => exact hd'
    | some ip => exact dues_skip ((plain_connectEnvoy pid ip).mono fun _ => Plain.offDues) fun _ => hd'

theorem Debt.final.ne_unreleased {d : Debt} (h : d.final) (ip : String) : d ≠ .unreleased ip := by
  rcases h with rfl | rfl <;> exact nofun

theorem dues_updateLbConfig (h : d.debt.final) (c : ServiceEnvoyConfig) :
    (dues Y).Obeys d (updateLbConfig Y c) fun d' _ => d'.debt.final := by
  refine dues_skip (p := mkdirAll _) ⟨trivial, fun _ => trivial⟩ fun r => ?_
  refine Monitor.obeys_ite.mpr ⟨fun _ => trivial, fun _ => ?_⟩
  refine dues_skip (p := writeFile _ _) ⟨trivial, fun _ => trivial⟩ fun r => ?_
  refine Monitor.obeys_ite.mpr ⟨fun _ => trivial, fun _ => ?_⟩
  refine dues_skip (p := glob _ _) ⟨trivial, fun _ => trivial⟩ fun files => ?_
  refine dues_skip ((quiet_readFragments files []).mono fun _ => Quiet.offDues) fun services => ?_
  refine dues_skip (p := getwd) ⟨trivial, fun _ => trivial⟩ fun r => ?_
  cases r with
  | none => trivial
  | some pwd =>
    refine dues_skip (p := parseFiles _) ⟨trivial, fun _ => trivial⟩ fun r => ?_
    refine Monitor.obeys_ite.mpr ⟨fun _ => trivial, fun _ => ?_⟩
    refine dues_skip (p := create _) ⟨trivial, fun _ => trivial⟩ fun r => ?_
    refine Monitor.obeys_ite.mpr ⟨fun _ => trivial, fun _ => ?_⟩
    refine dues_skip (p := write _ _) ⟨trivial, fun _ => trivial⟩ fun r => ?_
    refine Monitor.obeys_ite.mpr ⟨fun _ => trivial, fun _ => ?_⟩
    exact (dues_startEnvoy h.ne_unreleased).bind fun _ _ hd => hd

theorem dues_createService (h : d.debt.final) (body ip : String) :
    (dues Y).Obeys d (Service.createService Y body ip) fun d' _ => d'.debt.final := by
  have run : ∀ (d' : Dues) (v : Service), d'.debt.final → (dues Y).Obeys d' (do
      let pid ← v.execPythonService ip
      return { v with pid := pid }) fun d' _ => d'.debt.final :=
    fun _ v hd =>
      dues_skip ((bearing_execPythonService v ip).mono fun _ => Bearing.offDues) fun _ => hd
  unfold Service.createService
  refine Monitor.obeys_ite.mpr ⟨fun _ => ?_, fun _ => h⟩
  refine Monitor.obeys_ite.mpr ⟨fun _ => ?_, fun _ => run _ _ h⟩
  exact (dues_updateLbConfig h _).bind fun _ _ hd => run _ _ hd

theorem dues_runCreate (h : d.debt.final) (p : Path) :
    (dues Y).Obeys d (Cmd.runCreate Y p) fun d' _ => d'.debt.final := by
  refine dues_skip (p := readFile p) ⟨trivial, fun _ => trivial⟩ fun r => ?_
  cases r with
  | error e => exact h
  | ok data =>
    cases hf : Y.unmarshalFile data with
    | none =>
      simp only [hf]
      exact h
    | some file =>
      simp only [hf]
      refine (dues_getIp h).bind fun d' ip hd => ?_
      unfold Cmd.createByType
      refine Monitor.obeys_ite.mpr ⟨fun _ => ?_, fun _ => Monitor.obeys_ite.mpr ⟨fun _ => ?_, fun _ => hd⟩⟩
      · refine dues_skip (plain_createBridge.mono fun _ => Plain.offDues) fun _ => ?_
        refine (dues_createService hd file.body ip).bind fun _ v hd' => ?_
        exact dues_skip (p := set _ _) ⟨trivial, fun _ => trivial⟩ fun _ => hd'
      · refine dues_skip ((bearing_createDatabase file.body ip).mono fun _ => Bearing.offDues) fun v => ?_
        exact dues_skip (p := set _ _) ⟨trivial, fun _ => trivial⟩ fun _ => hd

theorem Debt.released_of_blank {d : Debt} {ip : String} (h : d = .unreleased ip ∨ d = .void)
    (hip : cleanIP ip = "") : d.Released := by
  rcases h with rfl | rfl
  · intro ip' he
    rw [← Debt.unreleased.inj he, hip]
  · exact fun _ he => absurd he nofun

/-- An address that is not blank is released, unless there is no prefix. -/
theorem dues_releaseIp {ip : String} (h : d.debt = .unreleased ip ∨ d.debt = .void) :
    (dues Y).Obeys d (releaseIp ip) fun d' _ => Debt.Released d'.debt := by
  refine dues_getIpam.bind fun d' st hd => ?_
  have hd' : d'.debt = .unreleased ip ∨ d'.debt = .void := by
    rcases hd.1 with hs | hs <;> rw [hs]
    · exact h
    · exact .inr rfl
  cases st with
  | none =>
    intro ip he
    rw [hd.2.1 rfl] at he
    cases he
  | some st =>
    simp only [Monitor.obeys_ite]
    refine ⟨fun hip => Debt.released_of_blank hd' hip,
      fun _ => ⟨⟨trivial, hd.2.2 (by simp)⟩, fun r ip' he => ?_⟩⟩
    have hn : d'.debt.next Y (.ipam st (.releaseIP (cleanIP ip))) r = .unreleased ip' := he
    rcases hd' with hs | hs <;> rw [hs] at hn <;> cases hn

/-- Before its kill a delete has released the address it has read, if there is one. -/
theorem dues_releaseOf {rec : Cmd.Service} (h : d.debt = .unreleased rec.ip ∨ d.debt = .void) :
    (dues Y).Obeys d (Cmd.releaseOf rec) fun d' _ => Debt.Released d'.debt := by
  refine Monitor.obeys_ite.mpr ⟨fun hip => ?_, fun _ => (dues_releaseIp h).bind fun _ _ hd => hd⟩
  exact Debt.released_of_blank h (by rw [hip]; decide)

theorem dues_runDelete (h : d.debt.final) (type_ name : String) :
    (dues Y).Obeys d (Cmd.runDelete Y type_ name) fun d' _ => d'.debt.final := by
  unfold Cmd.runDelete
  refine Monitor.obeys_ite.mpr ⟨fun _ => h, fun _ => ⟨⟨h, trivial⟩, fun r => ?_⟩⟩
  cases r with
  | none =>
    have hn : d.debt.next Y (.kv (.get (type_ ++ ":" ++ name))) none = d.debt := Debt.next_of_step rfl
    change (d.debt.next Y (.kv (.get (type_ ++ ":" ++ name))) none).final
    rw [hn]
    exact h
  | some text =>
    have hd : ((dues Y).next d (.kv (.get (type_ ++ ":" ++ name))) (some text)).debt =
        .unreleased (Y.decode text).ip ∨
        ((dues Y).next d (.kv (.get (type_ ++ ":" ++ name))) (some text)).debt = .void := by
      by_cases hv : d.debt = .void
      · exact .inr (if_pos hv)
      · exact .inl (if_neg hv)
    generalize (dues Y).next d (.kv (.get (type_ ++ ":" ++ name))) (some text) = d at hd
    simp only [bind_eq, ret_bind]
    refine (dues_releaseOf hd).bind fun d' _ hd' => ⟨⟨hd', trivial⟩, fun r => ?_⟩
    have hk : ∀ ip, ((dues Y).next d' (.proc (.kill (atoi (Y.decode text).pid).1 .sigkill)) r).debt ≠
        .unreleased ip := by
      intro ip
      change d'.debt.next Y (.proc (.kill (atoi (Y.decode text).pid).1 .sigkill)) r ≠ _
      cases hs : d'.debt <;> simp [Debt.next]
    generalize (dues Y).next d' (.proc (.kill (atoi (Y.decode text).pid).1 .sigkill)) r = d at hk
    simp only [bind_eq, ret_bind]
    refine dues_skip (quiet_stopEnvoy.mono fun _ => Quiet.offDues) fun _ => ?_
    refine dues_skip ((quiet_removeConfig _).mono fun _ => Quiet.offDues) fun _ => ?_
    refine (dues_startEnvoy hk).bind fun d' _ hd' => ?_
    exact dues_skip (p := del _) ⟨trivial, fun _ => trivial⟩ fun _ => hd'

end PrivatePaas
