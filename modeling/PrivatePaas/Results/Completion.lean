import PrivatePaas.Conduct.Calls
import PrivatePaas.Registry.OwnBridge
import PrivatePaas.Results.Backfire

/-!
# What a delete has done when it is over

A delete that runs by itself without failure comes to its end unless its signal reaches
itself, and then nothing of the workload is left, however the state came about: a delete
that was interrupted can be repeated.
-/

namespace PrivatePaas
set_option autoImplicit false
open Files Text Effects Go Network Prog PrivatePaas.Parser

variable {Y : Yaml} {G : GoIpam} {α β : Type}

/-- An operation of a delete between its signal and its `Del`. -/
def Settling : Op → Prop
  | .fs o => o.OffFragments
  | .kv _ => False
  | .ipam _ (.acquireSpecificIP a) => a = host 1 ∨ a = host 254
  | .ipam _ .acquireIP => False
  | .ipam _ (.releaseIP _) => False
  | .proc (.start c) => c.isWorkload = false
  | .proc (.kill _ sg) => sg = .sigterm
  | _ => True

/-- Such an operation that is none of the network's. -/
def Unlinked : Op → Prop
  | .net _ => False
  | o => Settling o

section Programs

attribute [local simp] Unlinked Settling

theorem Unlinked.settling {o : Op} (h : Unlinked o) : Settling o := by
  cases o with
  | net o => exact absurd h id
  | _ => exact h

theorem unlinked_fs {o : FsOp} (h : ∀ p, ¬ o.Writes p) : Unlinked (.fs o) := fun p hp => absurd hp (h p)

theorem Plain.settling {o : Op} (h : Plain o) : Settling o := by
  cases o with
  | fs o => exact fun p hp => .inl ((offYaml_of_offLb (Plain.offLb h)).1 p hp)
  | proc o =>
    cases o with
    | start cmd => exact absurd h id
    | kill n sg => exact absurd h id
    | _ => trivial
  | kv o => exact absurd h id
  | ipam st o => exact absurd h id
  | _ => trivial

/-- A plain operation that is calm as well. -/
theorem Plain.unlinked {o : Op} (h : Plain o) (hc : Calm o) : Unlinked o := by
  cases o with
  | net o => exact absurd hc id
  | fs o => exact Plain.settling (o := .fs o) h
  | proc o => exact Plain.settling (o := .proc o) h
  | kv o => exact absurd h id
  | ipam st o => exact absurd h id
  | probe o => trivial

theorem unlinked_of_plain {p : Go α} (h : p.Only Plain) (hc : p.Only Calm) : p.Only Unlinked := by
  induction p with
  | ret a => trivial
  | halt => trivial
  | call o k ih => exact ⟨h.1.unlinked hc.1, fun r => ih r (h.2 r) (hc.2 r)⟩

theorem unlinked_findPid : Only Unlinked Utils.findPidForEnvoy := by
  refine ⟨unlinked_fs fun _ => id, fun r => ?_⟩
  cases r with
  | error e => cases e <;> trivial
  | ok data =>
    cases h : atoi (trimSpace data) with
    | mk pid b => cases b <;> simp [h]

theorem unlinked_stopEnvoy : Only Unlinked stopEnvoy := by
  refine unlinked_findPid.bind fun r => ?_
  have hremove : Unlinked (.fs (.remove envoyPidFile)) := unlinked_fs fun _ => id
  cases r with
  | none => trivial
  | some pid =>
    refine only_ite.mpr ⟨fun _ => trivial, fun _ => ⟨rfl, fun r => ?_⟩⟩
    cases r with
    | none => exact ⟨hremove, fun _ => trivial⟩
    | some e =>
      cases e with
      | esrch => exact ⟨hremove, fun _ => trivial⟩
      | eperm => trivial

theorem unlinked_removeConfig (rec : Cmd.Service) : Only Unlinked (Cmd.removeConfig rec) := by
  have hremove : Unlinked (.fs (.remove (split '/' rec.configFileName))) := unlinked_fs fun _ => id
  exact only_ite.mpr ⟨fun _ => trivial, fun _ => ⟨hremove, fun _ => trivial⟩⟩

theorem unlinked_getIpam : Only Unlinked getIpam := by
  have h : Only Unlinked selectStorage := by simp [selectStorage]
  refine h.bind fun st => ⟨trivial, fun r => only_ite.mpr ⟨fun _ => trivial, fun _ => ⟨trivial, fun r => ?_⟩⟩⟩
  cases r with
  | failed => trivial
  | created => exact ⟨.inr rfl, fun _ => trivial⟩
  | already => exact ⟨.inr rfl, fun _ => trivial⟩

theorem unlinked_envoyIp : Only Unlinked getOrAcquireEnvoyIp := by
  refine unlinked_getIpam.bind fun st => ?_
  cases st with
  | none => trivial
  | some st =>
    refine ⟨.inl rfl, fun r => ?_⟩
    cases r <;> trivial

theorem unlinked_stopExisting : Only Unlinked stopExisting := by
  refine unlinked_findPid.bind fun r => ?_
  cases r <;> simp

theorem unlinked_ensureConfig : Only Unlinked ensureConfig := by
  refine ⟨unlinked_fs fun _ => id, fun _ => ⟨unlinked_fs fun _ => id, fun r => ?_⟩⟩
  cases r with
  | ok _ => trivial
  | error e =>
    cases e with
    | other => trivial
    | notExist => exact ⟨fun p hp => .inr hp, fun _ => trivial⟩

theorem unlinked_openLog : Unlinked (.fs (.openAppend ["var", "log", "envoy-paas.log"])) :=
  Plain.settling (o := .fs (.openAppend _)) (harmless_concat ["var", "log"] (by decide))

theorem unlinked_writePid (pid : Nat) : Unlinked (.fs (.writeFile envoyPidFile (itoa pid))) := by
  intro p hp
  obtain rfl : p = envoyPidFile := hp
  exact .inl ⟨"envoy-paas.pid", .concat (d := ["run"]) (by decide), by decide⟩

theorem unlinked_moveToCgroup (pid : Nat) : Only Unlinked (moveProcessToEnvoyCgroup pid) :=
  unlinked_of_plain (plain_moveToCgroup pid) (calm_moveToCgroup pid)

theorem unlinked_envoyBinary : Only Unlinked envoyBinary := unlinked_of_plain plain_envoyBinary calm_envoyBinary

theorem settling_startEnvoy : Only Settling startEnvoy := by
  refine (unlinked_stopExisting.mono fun _ => Unlinked.settling).bind fun _ => ?_
  refine (unlinked_ensureConfig.mono fun _ => Unlinked.settling).bind fun _ => ?_
  refine (unlinked_envoyBinary.mono fun _ => Unlinked.settling).bind fun bin => ?_
  refine ⟨unlinked_openLog, fun _ => ⟨rfl, fun r => ?_⟩⟩
  cases r with
  | none => trivial
  | some pid =>
    refine ((unlinked_moveToCgroup pid).mono fun _ => Unlinked.settling).bind fun _ => ?_
    refine ⟨unlinked_writePid pid, fun _ => (unlinked_envoyIp.mono fun _ => Unlinked.settling).bind fun r => ?_⟩
    cases r with
    | none => trivial
    | some ip => exact ((plain_connectEnvoy pid ip).mono fun _ => Plain.settling).bind fun _ => trivial

theorem returns_findPid : Returns Utils.findPidForEnvoy := by
  intro r
  cases r with
  | error e => cases e <;> trivial
  | ok data =>
    cases h : atoi (trimSpace data) with
    | mk pid b => cases b <;> simp [h, Returns]

theorem returns_stopEnvoy : Returns stopEnvoy := by
  refine returns_findPid.bind fun r => ?_
  cases r with
  | none => trivial
  | some pid =>
    by_cases h0 : pid = 0
    · simp only [h0, if_true]
      trivial
    · simp only [h0, if_false]
      intro r
      cases r with
      | none => exact fun _ => trivial
      | some e => cases e <;> simp [Returns]

theorem returns_stopExisting : Returns stopExisting := by
  refine returns_findPid.bind fun r => ?_
  cases r with
  | none => trivial
  | some pid =>
    by_cases h0 : pid = 0
    · simp only [h0, if_true]
      trivial
    · simp only [h0, if_false]
      exact fun _ => trivial

theorem returns_removeConfig (rec : Cmd.Service) : Returns (Cmd.removeConfig rec) := by
  unfold Cmd.removeConfig
  split
  · trivial
  · exact fun _ => trivial

theorem returns_getIpam : Returns getIpam := by
  have h : Returns selectStorage := by
    intro r
    cases r with
    | false => trivial
    | true =>
      intro r
      cases r <;> trivial
  refine h.bind fun st => ?_
  intro r
  cases r with
  | true => trivial
  | false =>
    intro r
    cases r with
    | failed => trivial
    | created => exact fun _ => trivial
    | already => exact fun _ => trivial

theorem returns_envoyIp : Returns getOrAcquireEnvoyIp := by
  refine returns_getIpam.bind fun st => ?_
  cases st with
  | none => trivial
  | some st =>
    intro r
    cases r <;> trivial

theorem returns_appendRules (pid : Nat) (rules : List Rule) : Returns (appendRules pid rules) := by
  induction rules with
  | nil => trivial
  | cons r rs ih => exact fun _ => ih

theorem returns_connectProcess (pid : Nat) (ip : String) (pre : IfName) :
    Returns (connectProcessToBridge pid ip pre) := by
  have hdel : ∀ name, Returns (delExisting name) := fun name => by simp [delExisting]
  have hfire : ∀ veth, Returns (enableFirewall pid veth) := fun veth => by
    simp [enableFirewall, returns_appendRules]
  have hlo : ∀ lo, Returns (enableLoopback pid lo) := fun lo => by simp [enableLoopback]
  have hend : ∀ veth, Returns (do enableLoopback pid true; enableFirewall pid veth; return true) := fun veth =>
    (hlo true).bind fun _ => (hfire veth).bind fun _ => trivial
  have hconf : ∀ veth, Returns (configureInterfaceInNamespace pid veth ip true) := by
    intro veth
    have h := hend veth
    simp only [configureInterfaceInNamespace]
    simp at h ⊢
    simp [h]
  unfold connectProcessToBridge
  refine (hdel _).bind fun _ => (hdel _).bind fun _ => ?_
  simp [hconf]

end Programs

section Invariant
variable {C : (Host Y G).Choice → Prop} {c : Choice} {l l₀ : Local} {w w₀ : World} {o : Op}
variable {a : Nat} {rec : Cmd.Service} {q : Path}

/-- The addresses that the network keeps for itself: its own, Envoy's, the bridge's and
the one for all. -/
def keptHosts : List String := [host 0, host 1, host 254, host 255]

/-- The address in the record can be given to another workload. -/
def World.Returned (w : World) (rec : Cmd.Service) : Prop :=
  cleanIP rec.ip ≠ "" → cleanIP rec.ip ∉ keptHosts → ¬ w.Allocated (cleanIP rec.ip)

/-- The state of a delete whose signal has gone out. -/
structure Settled (a : Nat) (rec : Cmd.Service) (l₀ : Local) (w₀ : World) (l : Local) (w : World) : Prop where
  same : l₀.Same l
  running : Running l w
  kv : w.kv = w₀.kv
  gone : ∀ q ∈ w.procs, q.role = .workload → q.owner ≠ a
  returned : w.Returned rec

theorem Settling.remnant {n : Nat} {o' : Op} (h : Settling o) (hr : o.remnant n = some o') : Settling o' := by
  cases o with
  | fs o =>
    obtain ⟨o'', rfl⟩ : ∃ o'', o' = .fs o'' := by
      cases o <;> cases hr <;> exact ⟨_, rfl⟩
    exact FsOp.OffFragments.remnant h hr
  | proc o => cases hr
  | _ => cases hr; exact h

/-- No address but the network's own is taken. -/
theorem Settling.allocated (h : Settling o) {b : String} (hb : b ∉ keptHosts)
    (ha : (perform Y G c l w o).2.2.Allocated b) : w.Allocated b := by
  by_cases ho : o.OnPool
  · cases o with
    | ipam st o =>
      cases st with
      | memory => exact absurd ho id
      | redis =>
        obtain ⟨s, hs, hmem⟩ := ha
        rw [perform_redis_pool] at hs
        split at hs
        · exact ⟨s, hs, hmem⟩
        · have hne : ∀ b', b' ∈ keptHosts → b ≠ b' := fun b' hb' he => hb (he ▸ hb')
          cases o with
          | prefixFrom => exact ⟨s, hs, hmem⟩
          | newPrefix =>
            cases hp : w.pool with
            | some s' =>
              rw [hp] at hs
              obtain rfl := Option.some.inj hs
              exact ⟨s', hp, hmem⟩
            | none =>
              rw [hp] at hs
              obtain rfl := Option.some.inj hs
              rcases Finset.mem_insert.mp hmem with he | he
              · exact absurd he (hne _ (by simp [keptHosts]))
              · exact absurd (Finset.mem_singleton.mp he) (hne _ (by simp [keptHosts]))
          | acquireSpecificIP b' =>
            have hb' : b ≠ b' := by
              rcases h with rfl | rfl <;> exact hne _ (by simp [keptHosts])
            cases hp : w.pool with
            | none =>
              rw [hp] at hs
              cases hs
            | some s' =>
              rw [hp] at hs
              simp only [IpamOp.perform] at hs
              split at hs
              · obtain rfl := Option.some.inj hs
                exact ⟨s', hp, hmem⟩
              · obtain rfl := Option.some.inj hs
                exact ⟨s', hp, (Finset.mem_insert.mp hmem).resolve_left hb'⟩
          | acquireIP => exact absurd h id
          | releaseIP b' => exact absurd h id
    | _ => exact absurd ho id
  · unfold World.Allocated at ha ⊢
    rwa [perform_pool ho] at ha

theorem Settling.running (h : Settling o) (hl : Running l w) :
    Running (perform Y G c l w o).2.1 (perform Y G c l w o).2.2 := by
  refine running_perform hl fun n he => ?_
  subst he
  cases h

/-- No process of the workload comes back. -/
theorem Settling.gone (h : Settling o) (hg : ∀ q ∈ w.procs, q.role = .workload → q.owner ≠ a) :
    ∀ q ∈ (perform Y G c l w o).2.2.procs, q.role = .workload → q.owner ≠ a := by
  intro q hq hr
  rcases mem_perform_procs hq with ⟨q₀, hq₀, _, hrole, howner, _⟩ | ⟨cmd, rfl, _, _, hrole⟩
  · rw [howner]
    exact hg q₀ hq₀ (hrole ▸ hr)
  · have hcmd : cmd.isWorkload = false := h
    rw [hcmd] at hrole
    rw [hrole] at hr
    cases hr

theorem Settled.perform (h : Settled a rec l₀ w₀ l w) (ho : Settling o) :
    Settled a rec l₀ w₀ (PrivatePaas.perform Y G c l w o).2.1 (PrivatePaas.perform Y G c l w o).2.2 := by
  have hkv : ¬ o.WritesKv := by
    cases o with
    | kv o => exact absurd ho id
    | _ => exact id
  exact ⟨h.same.trans same_perform, ho.running h.running, (perform_kv hkv).trans h.kv, ho.gone h.gone,
    fun h0 hb ha => h.returned h0 hb (ho.allocated hb ha)⟩

theorem wp_settling {p : Go α} (hp : p.Only Settling) (h : Settled a rec l₀ w₀ l w) :
    (Host Y G).wp C (fun _ l' w' => Settled a rec l₀ w₀ l' w') l w p :=
  System.wp_of_only (Y := Host Y G) (I := fun l' w' => Settled a rec l₀ w₀ l' w')
    (fun _ _ _ _ _ ho hI _ => hI.perform ho) hp h

/-- A yaml file that is not there is not made by it. -/
theorem Settling.absent (h : Settling o) (hq : YamlFile q) (hne : q ≠ envoyConfig) (hw : w.fs.content q = none) :
    (perform Y G c l w o).2.2.fs.content q = none := by
  have hact : ∀ {o : Op}, Settling o → (act G c l w o).2.2.fs.content q = none := by
    intro o h
    by_cases ho : o.IsFs
    · cases o with
      | fs o =>
        rcases @offFragments_yaml c w.cwd w.fs o h q hq hne with hc | ⟨_, _, hc⟩
        · exact hc.trans hw
        · exact hc
      | _ => exact absurd ho id
    · rw [act_fs ho]
      exact hw
  exact attempt_elim (P := fun x => x.2.2.fs.content q = none) (hact h) hw fun _ _ hr => hact (h.remnant hr)

theorem wp_absent {p : Go α} (hp : p.Only Settling) (hq : YamlFile q) (hne : q ≠ envoyConfig)
    (hw : w.fs.content q = none) : (Host Y G).wp C (fun _ _ w' => w'.fs.content q = none) l w p :=
  System.wp_of_only (Y := Host Y G) (I := fun _ w' => (World.fs w').content q = none)
    (fun _ _ _ _ _ ho hI _ => ho.absent hq hne hI) hp hw

end Invariant

section Invariant
variable {C : (Host Y G).Choice → Prop} {c : Choice} {l l₀ : Local} {w w₀ : World} {o : Op}
variable {a : Nat} {rec : Cmd.Service} {q : Path}

theorem Unlinked.namesVeth (h : Unlinked o) : o.NamesVeth := by
  cases o with
  | net o => exact absurd h id
  | _ => trivial

/-- What comes behind such a program finds the delete as it was. -/
theorem wp_unlinked_bind {p : Go α} {f : α → Go β} {Q : Option β → Local → World → Prop} (hp : p.Only Unlinked)
    (hr : Returns p) (h : Settled a rec l₀ w₀ l w) (hb : w.net.OwnBridge)
    (hf : ∀ r l' w', Settled a rec l₀ w₀ l' w' → w'.net.OwnBridge → (Host Y G).wp C Q l' w' (f r)) :
    (Host Y G).wp C Q l w (p >>= f) := by
  induction p generalizing l w with
  | ret r => exact hf r l w h hb
  | halt => exact absurd hr id
  | call o k ih =>
    exact wp_alive h.running fun c _ => ih _ (hp.2 _) (hr _) (h.perform hp.1.settling)
      (ownBridge_perform hb hp.1.namesVeth)

/-- A program of settling operations that returns. -/
theorem wp_settling_bind {p : Go α} {f : α → Go β} {Q : Option β → Local → World → Prop} (hp : p.Only Settling)
    (hr : Returns p) (h : Settled a rec l₀ w₀ l w)
    (hf : ∀ r l' w', Settled a rec l₀ w₀ l' w' → (Host Y G).wp C Q l' w' (f r)) :
    (Host Y G).wp C Q l w (p >>= f) := by
  induction p generalizing l w with
  | ret r => exact hf r l w h
  | halt => exact absurd hr id
  | call o k ih => exact wp_alive h.running fun c _ => ih _ (hp.2 _) (hr _) (h.perform hp.1)

theorem wp_connectEnvoy (pid : Nat) (ip : String) (h : Settled a rec l₀ w₀ l w) (hb : w.net.OwnBridge) :
    (Host Y G).wp Smooth (fun r l' w' => r = some () ∧ Settled a rec l₀ w₀ l' w') l w (connectEnvoy pid ip) := by
  refine System.wp_bind (System.wp_mono (fun r l' w' he => ?_) (wp_net isNet_createBridge h.running))
  obtain ⟨hl, hr, rfl⟩ := he
  rw [Net.createBridge_returns hb] at hr
  subst hr
  have hs : Settled a rec l₀ w₀ l' { w with net := (Net.exec w.procs w.net createBridge).2 } :=
    ⟨h.same.trans hl, h.running.of_procs hl rfl, h.kv, h.gone, h.returned⟩
  refine wp_settling_bind ((plain_connectProcess pid ip _).mono fun _ => Plain.settling) ?_ hs fun _ _ _ h' => ⟨rfl, h'⟩
  exact returns_connectProcess pid ip _

theorem wp_startEnvoy_ends (h : Settled a rec l₀ w₀ l w) (hb : w.net.OwnBridge) :
    (Host Y G).wp Smooth (fun r l' w' => (∃ found, r = some found) ∧ Settled a rec l₀ w₀ l' w') l w startEnvoy := by
  refine wp_unlinked_bind unlinked_stopExisting returns_stopExisting h hb fun _ l₁ w₁ h₁ hb₁ => ?_
  refine wp_unlinked_bind unlinked_ensureConfig returns_ensureConfig h₁ hb₁ fun _ l₂ w₂ h₂ hb₂ => ?_
  refine wp_unlinked_bind unlinked_envoyBinary returns_envoyBinary h₂ hb₂ fun bin l₃ w₃ h₃ hb₃ => ?_
  refine wp_unlinked_bind (p := openAppend _) ⟨unlinked_openLog, fun _ => trivial⟩ (fun _ => trivial) h₃ hb₃
    fun _ l₄ w₄ h₄ hb₄ => ?_
  refine wp_unlinked_bind (p := start (.envoy bin envoyConfig)) ⟨rfl, fun _ => trivial⟩ (fun _ => trivial) h₄ hb₄
    fun r l₅ w₅ h₅ hb₅ => ?_
  cases r with
  | none => exact ⟨⟨none, rfl⟩, h₅⟩
  | some pid =>
    refine wp_unlinked_bind (unlinked_moveToCgroup pid) (returns_moveToCgroup pid) h₅ hb₅ fun _ l₆ w₆ h₆ hb₆ => ?_
    refine wp_unlinked_bind (p := writeFile envoyPidFile (itoa pid)) ⟨unlinked_writePid pid, fun _ => trivial⟩
      (fun _ => trivial) h₆ hb₆ fun _ l₇ w₇ h₇ hb₇ => ?_
    refine wp_unlinked_bind unlinked_envoyIp returns_envoyIp h₇ hb₇ fun r l₈ w₈ h₈ hb₈ => ?_
    cases r with
    | none => exact ⟨⟨none, rfl⟩, h₈⟩
    | some ip =>
      refine System.wp_bind (System.wp_mono (fun r l₉ w₉ h₉ => ?_) (wp_connectEnvoy pid ip h₈ hb₈))
      obtain ⟨hr, h₉⟩ := h₉
      subst hr
      exact ⟨⟨some pid, rfl⟩, h₉⟩

/-- The `Del`, where nothing fails. -/
theorem wp_del {k : String} {Q : Option Unit → Local → World → Prop} (hl : Running l w)
    (h : ∀ l', Q (some ()) l' { w with kv := Function.update w.kv k none }) :
    (Host Y G).wp Smooth Q l w (do let _ ← del k; return ()) := by
  refine wp_alive hl fun c hc => ?_
  obtain ⟨_, hw⟩ := @perform_smooth Y G l w c hc (.kv (.del k))
  have hworld : (act G c l w (.kv (.del k))).2.2 = { w with kv := Function.update w.kv k none } := rfl
  rw [hw, hworld]
  exact h _

end Invariant

section Release
variable {l : Local} {w : World} {rec : Cmd.Service}

theorem calm_releaseOf (rec : Cmd.Service) : Only Calm (Cmd.releaseOf rec) := by
  refine only_ite.mpr ⟨fun _ => trivial, fun _ => Only.bind ?_ fun _ => trivial⟩
  refine calm_getIpam.bind fun st => ?_
  cases st with
  | none => trivial
  | some st =>
    simp only [only_ite]
    exact ⟨fun _ => trivial, fun _ => ⟨trivial, fun _ => trivial⟩⟩

/-- Where nothing fails the address is free again. -/
theorem wp_returned (hl : Running l w) :
    (Host Y G).wp Smooth (fun r l' w' => Undisturbed l w l' w' ∧ r = some () ∧ w'.Returned rec) l w
      (Cmd.releaseOf rec) := by
  refine System.wp_and (wp_calm (calm_releaseOf rec)) ?_
  have hblank : cleanIP "" = "" := by decide
  by_cases h0 : rec.ip = ""
  · have hc : cleanIP rec.ip = "" := by rw [h0, hblank]
    unfold Cmd.releaseOf
    rw [if_pos h0]
    exact ⟨rfl, fun hne => absurd hc hne⟩
  by_cases hc : cleanIP rec.ip = ""
  · unfold Cmd.releaseOf releaseIp
    rw [if_neg h0, bind_assoc]
    refine wp_getIpam hl fun l₁ past₁ h₁ => ?_
    dsimp only
    rw [if_pos hc]
    exact ⟨rfl, fun hne => absurd hc hne⟩
  · unfold Cmd.releaseOf releaseIp
    rw [if_neg h0, bind_assoc]
    refine wp_getIpam hl fun l₁ past₁ h₁ => ?_
    dsimp only
    rw [if_neg hc]
    refine wp_redis (hl.of_procs h₁ rfl) fun c l₂ past₂ _ h₂ => ⟨rfl, fun _ _ hal => ?_⟩
    obtain ⟨s, hs, hmem⟩ := hal
    simp only [IpamOp.perform] at hs
    split at hs
    · obtain rfl := Option.some.inj hs
      exact (Finset.mem_erase.mp hmem).1 rfl
    · rename_i hno
      obtain rfl := Option.some.inj hs
      exact hno hmem

end Release

section Removal
variable {l l₀ : Local} {w w₀ : World} {rec : Cmd.Service} {a : Nat} {key : String}

/-- Nothing of the workload is left, and no other record is touched. -/
structure Removed (key : String) (a : Nat) (rec : Cmd.Service) (w w' : World) : Prop where
  kv : w'.kv = Function.update w.kv key none
  gone : ∀ q ∈ w'.procs, q.role = .workload → q.owner ≠ a
  returned : w'.Returned rec
  fragment : ∀ u, rec.configFileName = Cmd.envoyConfigPath u → '/' ∉ u.toList → w'.fs.content (fragmentFile rec) = none

/-- The fragment of an upstream whose name is one component. -/
theorem fragmentFile_plain {u : String} (hu : rec.configFileName = Cmd.envoyConfigPath u) (hs : '/' ∉ u.toList) :
    fragmentFile rec = envoyConfDir ++ [u ++ ".yaml"] ∧ IsFragment (fragmentFile rec) ∧
      split '/' rec.configFileName = "" :: fragmentFile rec := by
  have hsplit : split '/' (u ++ ".yaml") = [u ++ ".yaml"] := by
    refine split_of_notMem fun hm => ?_
    rw [String.toList_append] at hm
    exact (List.mem_append.mp hm).elim hs (by decide)
  have hend : ".yaml".toList <:+ (u ++ ".yaml").toList := suffix_append u ".yaml"
  have hfile : fragmentFile rec = envoyConfDir ++ [u ++ ".yaml"] := by
    rw [fragmentFile, hu, clean_configPath, serviceConfPath, hsplit, clean_concat _ (proper_of_yaml hend)]
    rfl
  exact ⟨hfile, ⟨_, hfile, hend⟩, by rw [hu, split_configPath, hsplit, hfile]⟩

/-- A path that leads to the file takes it away. -/
theorem content_remove {t : Tree} {c : Choice} {cwd p q : Path}
    (hp : ∀ data, t.content q = some data → t.walk [] p = .ok q) :
    (FsOp.perform c cwd t (.remove p)).2.content q = none := by
  cases hc : t.content q with
  | some data =>
    obtain ⟨t', ht, hcontent⟩ := remove_of_walk (hp data hc) hc
    simp only [FsOp.perform, ht]
    rw [hcontent, if_pos rfl]
  | none =>
    simp only [FsOp.perform]
    cases ht : t.remove p with
    | none => exact hc
    | some t' =>
      obtain ⟨q', _, hcontent, _⟩ := remove_cases ht
      simp only [hcontent, hc, ite_self]

theorem wp_removeConfig_absent {u : String} (hu : rec.configFileName = Cmd.envoyConfigPath u) (hs : '/' ∉ u.toList)
    (hl : Running l w) :
    (Host Y G).wp Smooth (fun _ _ w' => w'.fs.content (fragmentFile rec) = none) l w (Cmd.removeConfig rec) := by
  obtain ⟨hfile, _, hpath⟩ := fragmentFile_plain hu hs
  have h0 : rec.configFileName ≠ "" := by
    intro h0
    have hlen : (split '/' "").length = 1 := by decide
    rw [← h0, hpath, hfile] at hlen
    simp [envoyConfDir] at hlen
  unfold Cmd.removeConfig
  rw [if_neg h0]
  refine wp_fs hl fun c l' past _ _ => ?_
  refine content_remove fun data hdata => ?_
  rw [hpath, Tree.walk, if_pos (.inl rfl), if_pos (.inl rfl)]
  exact Tree.walk_of_mem (Tree.mem_of_content hdata)

/-- What follows the signal comes to its end. -/
theorem wp_restart_ends (h : Settled a rec l₀ w₀ l w) (hb : w.net.OwnBridge) :
    (Host Y G).wp Smooth (fun r _ w' => r = some () ∧ w'.kv = Function.update w₀.kv key none ∧
        (∀ q ∈ w'.procs, q.role = .workload → q.owner ≠ a) ∧ w'.Returned rec) l w (do
      let _ ← stopEnvoy
      Cmd.removeConfig rec
      let _ ← startEnvoy
      let _ ← del key
      return ()) := by
  refine wp_unlinked_bind unlinked_stopEnvoy returns_stopEnvoy h hb fun _ l₁ w₁ h₁ hb₁ => ?_
  refine wp_unlinked_bind (unlinked_removeConfig rec) (returns_removeConfig rec) h₁ hb₁ fun _ l₂ w₂ h₂ hb₂ => ?_
  refine System.wp_bind (System.wp_mono (fun r l₃ w₃ h₃ => ?_) (wp_startEnvoy_ends h₂ hb₂))
  obtain ⟨⟨found, hr⟩, h₃⟩ := h₃
  subst hr
  refine wp_del h₃.running fun l₄ => ⟨rfl, ?_, h₃.gone, h₃.returned⟩
  rw [h₃.kv]

/-- The fragment is gone when it is over. -/
theorem wp_restart_absent (h : Settled a rec l₀ w₀ l w) {u : String}
    (hu : rec.configFileName = Cmd.envoyConfigPath u) (hs : '/' ∉ u.toList) :
    (Host Y G).wp Smooth (fun r _ w' => r = some () → w'.fs.content (fragmentFile rec) = none) l w (do
      let _ ← stopEnvoy
      Cmd.removeConfig rec
      let _ ← startEnvoy
      let _ ← del key
      return ()) := by
  obtain ⟨_, hfrag, _⟩ := fragmentFile_plain hu hs
  have hstop : (Host Y G).wp Smooth (fun _ l' w' => Settled a rec l₀ w₀ l' w') l w stopEnvoy :=
    wp_settling (unlinked_stopEnvoy.mono fun _ => Unlinked.settling) h
  refine System.wp_bind (System.wp_mono (fun r l₁ w₁ h₁ => ?_) hstop)
  cases r with
  | none => exact nofun
  | some _ =>
    refine System.wp_bind (System.wp_mono (fun r l₂ w₂ h₂ => ?_) (wp_removeConfig_absent hu hs h₁.running))
    cases r with
    | none => exact nofun
    | some _ =>
      refine System.wp_bind (System.wp_mono (fun r l₃ w₃ h₃ => ?_)
        (wp_absent settling_startEnvoy hfrag.yamlFile hfrag.ne_config h₂))
      cases r with
      | none => exact nofun
      | some _ =>
        refine wp_op nofun fun c r _ _ _ => ?_
        have hfs : (perform Y G c l₃ w₃ (.kv (.del key))).2.2.fs = w₃.fs := perform_fs id
        rw [hfs]
        exact h₃

/-- The same, for every record whose fragment lies in the directory itself. -/
theorem wp_restart_fragment (h : Settled a rec l₀ w₀ l w) (key : String) :
    (Host Y G).wp Smooth (fun r _ w' => r = some () → ∀ u, rec.configFileName = Cmd.envoyConfigPath u →
        '/' ∉ u.toList → w'.fs.content (fragmentFile rec) = none) l w (do
      let _ ← stopEnvoy
      Cmd.removeConfig rec
      let _ ← startEnvoy
      let _ ← del key
      return ()) := by
  by_cases hf : ∃ u, rec.configFileName = Cmd.envoyConfigPath u ∧ '/' ∉ u.toList
  · obtain ⟨u, hu, hs⟩ := hf
    exact System.wp_mono (fun _ _ _ hq hr _ _ _ => hq hr) (wp_restart_absent h hu hs)
  · exact System.wp_of_forall fun _ _ _ _ u hu hs => absurd ⟨u, hu, hs⟩ hf

end Removal

section Runs
variable {ι : Type} [DecidableEq ι] {m : Machine (Host Y G) ι} {es : List (Event (Host Y G) ι)}
variable {l : Local} {w : World} {p : Go Unit} {x : Launch} {type_ name : String} {e : Entry}

/-- The invocation survives its own SIGKILL. -/
def Survives (l : Local) (w : World) (rec : Cmd.Service) : Prop :=
  ∃ p ∈ w.procs.all, l.own p = true ∧ l.aims (atoi rec.pid).1 p = false

/-- What a delete comes to that runs by itself without failure. -/
theorem wp_deleteProcess_smooth (hl : Running l w) (h1 : 1 < l.pid) (he : w.kv (type_ ++ ":" ++ name) = some e)
    (hb : w.net.OwnBridge)
    (hown : ∀ q ∈ w.procs, q.role = .workload → q.owner = e.author →
      l.aims (atoi (Y.decode e.value).pid).1 q = true ∧ q.pid ≠ 1) :
    (Host Y G).wp Smooth (fun r _ w' =>
      (r = some () ↔ Survives l w (Y.decode e.value)) ∧
      (r = some () → Removed (type_ ++ ":" ++ name) e.author (Y.decode e.value) w w') ∧
      (r = none → w'.kv = w.kv ∧ ∀ q ∈ w'.procs, q.role = .workload → q.owner ≠ e.author)) l w
      (Cmd.deleteProcess Y name type_) := by
  refine wp_get hl fun l₁ h₁ => ?_
  rw [he, Option.map_some, bind_eq, ret_bind]
  refine System.wp_bind (System.wp_mono (fun r l₂ w₂ h₂ => ?_) (wp_returned (hl.of_procs h₁ rfl)))
  obtain ⟨hu, hr, hreturned⟩ := h₂
  subst hr
  have hsame : l.Same l₂ := h₁.trans hu.same
  refine wp_kill (hl.of_procs hsame hu.procs) fun l₃ _ past h₃ => ?_
  have hall : l.Same l₃ := hsame.trans h₃
  have hkeep : (w₂.kill l₂ (atoi (Y.decode e.value).pid).1 .sigkill).2.procs =
      w.procs.keep fun p => ! l.aims (atoi (Y.decode e.value).pid).1 p || p.pid = 1 := by
    rw [← hu.procs, ← hsame.aims]
    rfl
  have hgone : ∀ q ∈ (w₂.kill l₂ (atoi (Y.decode e.value).pid).1 .sigkill).2.procs, q.role = .workload →
      q.owner ≠ e.author := by
    intro q hq hr ho
    rw [hkeep] at hq
    obtain ⟨hqw, hspared⟩ := Procs.mem_keep.mp hq
    obtain ⟨haim, hpid⟩ := hown q hqw hr ho
    simp [haim, hpid] at hspared
  by_cases hs : Survives l w (Y.decode e.value)
  · obtain ⟨p, hp, hpown, hmiss⟩ := hs
    have hrun : Running l₃ { (w₂.kill l₂ (atoi (Y.decode e.value).pid).1 .sigkill).2 with past := past } := by
      refine ⟨p, ?_, by rw [hall.own]; exact hpown⟩
      change p ∈ (w₂.kill l₂ (atoi (Y.decode e.value).pid).1 .sigkill).2.procs
      rw [hkeep]
      exact Procs.mem_keep.mpr ⟨hp, by simp [hmiss]⟩
    have hset : Settled e.author (Y.decode e.value) l w l₃
        { (w₂.kill l₂ (atoi (Y.decode e.value).pid).1 .sigkill).2 with past := past } :=
      ⟨hall, hrun, hu.kv, hgone, hreturned⟩
    have hbridge : (w₂.kill l₂ (atoi (Y.decode e.value).pid).1 .sigkill).2.net.OwnBridge := by
      change (w₂.net.sweep _).OwnBridge
      rw [hu.net]
      exact hb.sweep _
    have hends := System.wp_and (@wp_restart_ends Y G l₃ l _ w _ _ (type_ ++ ":" ++ name) hset hbridge)
      (@wp_restart_fragment Y G l₃ l _ w _ _ hset (type_ ++ ":" ++ name))
    refine System.wp_mono (fun r l₄ w₄ h₄ => ?_) hends
    obtain ⟨⟨hr, hkv, hg, hret⟩, hfrag⟩ := h₄
    exact ⟨iff_of_true hr ⟨p, hp, hpown, hmiss⟩, fun _ => ⟨hkv, hg, hret, hfrag hr⟩, fun hn => by
      rw [hr] at hn
      cases hn⟩
  · refine ⟨fun _ => ⟨iff_of_false nofun hs, nofun, fun _ => ⟨hu.kv, hgone⟩⟩, fun ha => absurd ?_ hs⟩
    obtain ⟨p, hp, hpown⟩ := alive_iff.mp ha
    change p ∈ (w₂.kill l₂ (atoi (Y.decode e.value).pid).1 .sigkill).2.procs at hp
    rw [hkeep] at hp
    obtain ⟨hpw, hspared⟩ := Procs.mem_keep.mp hp
    rw [hall.own] at hpown
    have hpid : p.pid = l.pid := (of_decide_eq_true hpown).1
    refine ⟨p, hpw, hpown, ?_⟩
    simp only [Bool.or_eq_true, Bool.not_eq_true', decide_eq_true_eq] at hspared
    exact hspared.resolve_right (by omega)

theorem wp_releaseOf_fs (rec : Cmd.Service) : (Host Y G).wp Smooth (fun _ _ w' => w'.fs = w.fs) l w (Cmd.releaseOf rec) := by
  have hipam : Only (fun o : Op => ¬ o.IsFs) getIpam := asking_getIpam.mono fun _ h => (Asking.modest h).2.2
  have honly : Only (fun o : Op => ¬ o.IsFs) (Cmd.releaseOf rec) := by
    refine only_ite.mpr ⟨fun _ => trivial, fun _ => (hipam.bind fun st => ?_).bind fun _ => trivial⟩
    cases st with
    | none => trivial
    | some st =>
      simp only [only_ite]
      exact ⟨fun _ => trivial, fun _ => ⟨id, fun _ => trivial⟩⟩
  exact System.wp_of_only (Y := Host Y G) (I := fun _ w' => World.fs w' = w.fs)
    (fun _ _ _ _ _ ho hI _ => (perform_fs ho).trans hI) honly rfl

/-- A SIGTERM comes back to a delete that the pid file leads to itself. -/
theorem wp_deleteProcess_signalled (hl : Running l w) (he : w.kv (type_ ++ ":" ++ name) = some e)
    (hs : Survives l w (Y.decode e.value)) (hb : w.LeadsBack l) :
    (Host Y G).wp Smooth (fun _ _ w' => ¬ Unsignalled l w') l w (Cmd.deleteProcess Y name type_) := by
  refine wp_get hl fun l₁ h₁ => ?_
  rw [he, Option.map_some, bind_eq, ret_bind]
  have hrelease := System.wp_and (@wp_returned Y G l₁ w (Y.decode e.value) (hl.of_procs h₁ rfl))
    (@wp_releaseOf_fs Y G l₁ w (Y.decode e.value))
  refine System.wp_bind (System.wp_mono (fun r l₂ w₂ h₂ => ?_) hrelease)
  obtain ⟨⟨hu, hr, _⟩, hfs⟩ := h₂
  subst hr
  have hsame : l.Same l₂ := h₁.trans hu.same
  refine wp_kill (hl.of_procs hsame hu.procs) fun l₃ _ past h₃ => ?_
  have hall : l.Same l₃ := hsame.trans h₃
  obtain ⟨p, hp, hown, hmiss⟩ := hs
  have hleft : p ∈ (w₂.kill l₂ (atoi (Y.decode e.value).pid).1 .sigkill).2.procs := by
    refine Procs.mem_keep.mpr ⟨hu.procs ▸ hp, ?_⟩
    rw [hsame.aims, hmiss]
    rfl
  have hback : World.LeadsBack { (w₂.kill l₂ (atoi (Y.decode e.value).pid).1 .sigkill).2 with past := past } l₃ := by
    obtain ⟨n, ⟨⟨data, hdata, hat⟩, h0, _⟩, p', hp', hown', haim⟩ := hb
    obtain rfl : p' = p := Procs.eq_of_pid hp' hp ((of_decide_eq_true hown').1.trans (of_decide_eq_true hown).1.symm)
    have haim₃ : l₃.aims n p' = true := by rw [hall.aims, haim]
    have hown₃ : l₃.own p' = true := by rw [hall.own, hown]
    refine ⟨n, ⟨⟨data, ?_, hat⟩, h0, p', hleft, haim₃⟩, p', hleft, hown₃, haim₃⟩
    change w₂.fs.content envoyPidFile = some data
    rw [hfs]
    exact hdata
  have hrun : Running l₃ { (w₂.kill l₂ (atoi (Y.decode e.value).pid).1 .sigkill).2 with past := past } :=
    ⟨p, hleft, by rw [hall.own]; exact hown⟩
  refine System.wp_mono (fun _ _ w' h hun => h fun q hq hownq => ?_) (wp_signalled hrun hback)
  rw [hall.own] at hownq
  exact hun q hq hownq

theorem unsignalled_of_enter {w₀ : World} (he : enter Y x w₀ = some (l, p, w)) : Unsignalled l w := by
  intro q hq hown
  unfold enter at he
  split at he
  · rename_i hx
    simp only [Option.some.injEq, Prod.mk.injEq] at he
    obtain ⟨rfl, rfl, rfl⟩ := he
    rcases (Procs.mem_add (h := hx.1)).mp hq with rfl | hq₀
    · rfl
    · exact absurd (of_decide_eq_true hown).1 (hx.1 q hq₀)
  · cases he

variable {c : Nat → (Host Y G).Choice}

/-- What holds of a delete that is launched in a reachable state. -/
theorem exec_delete_smooth (hY : Y.Lawful) (hm : m.Idle) (hw : World.Untouched m.world)
    (hb : (World.net m.world).OwnBridge) (he : enter Y x (m.run es).world = some (l, p, w)) (hx : x.task = .delete type_ name)
    (ht : type_ = "service" ∨ type_ = "database") (hk : w.kv (type_ ++ ":" ++ name) = some e) (hc : ∀ n, Smooth (c n)) :
    (((Host Y G).exec c l w p).result = some () ↔ Survives l w (Y.decode e.value)) ∧
    (((Host Y G).exec c l w p).result = some () →
      Removed (type_ ++ ":" ++ name) e.author (Y.decode e.value) w ((Host Y G).exec c l w p).world) ∧
    (((Host Y G).exec c l w p).result = none → World.kv ((Host Y G).exec c l w p).world = w.kv ∧
      ∀ q ∈ World.procs ((Host Y G).exec c l w p).world, q.role = .workload → q.owner ≠ e.author) := by
  obtain ⟨hl, h1⟩ := running_of_enter he
  have htidy : Tidy (booksOf (m.run es)) (pagesOf (m.run es)) :=
    tidy_run hY (Watch.holds_of_idle hm) (tidy_of_untouched hw hm) es
  have hown : ∀ q ∈ w.procs, q.role = .workload → q.owner = e.author →
      l.aims (atoi (Y.decode e.value).pid).1 q = true ∧ q.pid ≠ 1 := by
    intro q hq hr ho
    have hlive : (booksOf (m.run es)).Live q := live_of_enter he ⟨hq, hr⟩
    have hreg : (booksOf (m.run es)).registry (type_ ++ ":" ++ name) = some (Y.decode e.value, e.author) := by
      change ((m.run es).world.kv (type_ ++ ":" ++ name)).map _ = _
      rw [← (enter_stores he).kv, hk]
      rfl
    obtain ⟨hrange, hmax⟩ := htidy.pid_range q hlive
    have hnames := htidy.names _ _ _ q hreg hlive ho
    have hlt : q.pid < 2 ^ 31 := by
      have : pidMax < 2 ^ 31 := by decide
      omega
    have hle : q.pid ≤ maxInt := by
      have : pidMax ≤ maxInt := by decide
      omega
    refine ⟨?_, by omega⟩
    rw [Local.aims, hnames.1, atoi_itoa hle, pidArg_natCast hlt, Procs.named_of_pos (by omega)]
  have hbridge : w.net.OwnBridge := by
    rw [net_of_enter he]
    exact ownBridge_run (Watch.holds_of_idle hm) hb es
  rw [program_of_delete he hx ht]
  exact (System.wp_iff_exec (Y := Host Y G) (C := Smooth) ({} : Choice) rfl).mp
    (wp_deleteProcess_smooth hl h1 hk hbridge hown) c hc

/-- The invocation has come to its end, and no SIGTERM has come to it on the way. -/
def Concluded (l : Local) (o : System.Outcome (Host Y G) Unit) : Prop := o.result = some () ∧ Unsignalled l o.world

/-- A delete that is launched in any reachable state, also after deletes of the same
workload that were interrupted, and that runs by itself without failure: it comes to its
end unless its SIGKILL reaches itself or the pid file leads its SIGTERM to itself, and
then the process, the record and the fragment of the workload are gone and its address,
if it is none of those that the network keeps, is free again; if its SIGKILL reaches
itself, the process is gone and the record still stands. -/
theorem delete_completes (hY : Y.Lawful) (hm : m.Idle) (hw : World.Untouched m.world)
    (hb : (World.net m.world).OwnBridge) (he : enter Y x (m.run es).world = some (l, p, w)) (hx : x.task = .delete type_ name)
    (ht : type_ = "service" ∨ type_ = "database") (hk : w.kv (type_ ++ ":" ++ name) = some e) (hc : ∀ n, Smooth (c n)) :
    (Concluded l ((Host Y G).exec c l w p) ↔ Survives l w (Y.decode e.value) ∧ ¬ w.LeadsBack l) ∧
    (((Host Y G).exec c l w p).result = some () →
      Removed (type_ ++ ":" ++ name) e.author (Y.decode e.value) w ((Host Y G).exec c l w p).world) ∧
    (((Host Y G).exec c l w p).result = none → World.kv ((Host Y G).exec c l w p).world = w.kv ∧
      ∀ q ∈ World.procs ((Host Y G).exec c l w p).world, q.role = .workload → q.owner ≠ e.author) := by
  obtain ⟨hends, hremoved⟩ := exec_delete_smooth hY hm hw hb he hx ht hk hc
  refine ⟨⟨fun hdone => ?_, fun ⟨hs, hn⟩ => ⟨hends.mpr hs, ?_⟩⟩, hremoved⟩
  · have hs := hends.mp hdone.1
    refine ⟨hs, fun hback => ?_⟩
    have hwp := (System.wp_iff_exec (Y := Host Y G) (C := Smooth) ({} : Choice) rfl).mp
      (wp_deleteProcess_signalled (Y := Y) (G := G) (running_of_enter he).1 hk hs hback) c hc
    rw [program_of_delete he hx ht] at hdone
    exact hwp hdone.2
  · rw [program_of_delete he hx ht]
    exact (System.wp_iff_exec (Y := Host Y G) (C := Smooth) ({} : Choice) rfl).mp
      (wp_unsignalled (Y := Y) (G := G) (unsignalled_of_enter he) hn) c hc

end Runs

namespace Sample

/-- A delete of a service behind Envoy is killed before it releases the address. -/
def interrupted : List (SampleEvent Unit) :=
  create () users 100 :: steps () 60 101 ++ create () shop 110 :: steps () 25 111 ++ steps () 60 112 ++
    delete () "service" "shop" 120 :: steps () 4 121 ++ [.env (.exit 120)]

/-- What the repeated delete comes upon. -/
def Halfway (l : Local) (w : World) (rec : Cmd.Service) : Bool :=
  rec.ip = "10.0.0.2" ∧ cleanIP rec.ip = "10.0.0.2" ∧ cleanIP rec.ip ∉ keptHosts ∧
    w.pool.any (fun s => "10.0.0.2" ∈ s) = true ∧
    rec.configFileName = Cmd.envoyConfigPath "shop" ∧ (w.fs.content (fragmentFile rec)).isSome ∧
    (∃ p ∈ w.procs.all, l.own p = true ∧ l.aims (atoi rec.pid).1 p = false) ∧
    (w.fs.content envoyPidFile).all (fun data =>
      ∀ p ∈ w.procs.all, l.own p = true → l.aims (atoi (trimSpace data)).1 p = false) = true

/-- It takes away what the interrupted one has left. -/
theorem interrupted_repeated : ∃ l p w e, enter yaml ⟨.delete "service" "shop", 130, 0⟩ (start.run interrupted).world =
      some (l, p, w) ∧ w.kv ("service" ++ ":" ++ "shop") = some e ∧ w.Allocated "10.0.0.2" ∧
    w.fs.content (fragmentFile (yaml.decode e.value)) ≠ none ∧
    Concluded l ((Host yaml lowestFree).exec (fun _ => { pid := 140 }) l w p) ∧
    Removed ("service" ++ ":" ++ "shop") e.author (yaml.decode e.value) w
      ((Host yaml lowestFree).exec (fun _ => { pid := 140 }) l w p).world ∧
    ¬ World.Allocated ((Host yaml lowestFree).exec (fun _ => { pid := 140 }) l w p).world "10.0.0.2" ∧
    (World.fs ((Host yaml lowestFree).exec (fun _ => { pid := 140 }) l w p).world).content
      (fragmentFile (yaml.decode e.value)) = none := by
  have hsome : (enter yaml ⟨.delete "service" "shop", 130, 0⟩ (start.run interrupted).world).any (fun r =>
      (r.2.2.kv ("service" ++ ":" ++ "shop")).any fun e => Halfway r.1 r.2.2 (yaml.decode e.value)) = true := by
    decide +kernel
  obtain ⟨⟨l, p, w⟩, hr, hr'⟩ := (Option.any_eq_true _ _).mp hsome
  obtain ⟨e, he, he'⟩ := (Option.any_eq_true _ _).mp hr'
  obtain ⟨hip, hclean, hkept, hpool, hconfig, hfragment, hs, hpid⟩ := of_decide_eq_true he'
  have hb : (World.net (start (ι := Unit)).world).OwnBridge := fun k hk => absurd hk List.not_mem_nil
  have hback : ¬ w.LeadsBack l := by
    intro hback
    obtain ⟨n, ⟨⟨data, hdata, hat⟩, _⟩, q, hq, hown, haim⟩ := hback
    rw [hdata, Option.all_some] at hpid
    have hmiss := of_decide_eq_true hpid q hq hown
    rw [hat, haim] at hmiss
    cases hmiss
  obtain ⟨hends, hremoved, _⟩ := delete_completes yaml_lawful start_idle ⟨fun _ => rfl, start_workloads, rfl⟩ hb hr rfl
    (.inl rfl) he (c := fun _ => { pid := 140 }) fun _ => rfl
  have hdone := hends.mpr ⟨hs, hback⟩
  have hgone := hremoved hdone.1
  have hallocated : w.Allocated "10.0.0.2" := by
    obtain ⟨s, hs, hmem⟩ := (Option.any_eq_true _ _).mp hpool
    exact ⟨s, hs, of_decide_eq_true hmem⟩
  refine ⟨l, p, w, e, hr, he, hallocated, Option.isSome_iff_ne_none.mp hfragment, hdone, hgone, ?_, ?_⟩
  · have hfree := hgone.returned (by rw [hclean]; decide) hkept
    rwa [hclean] at hfree
  · exact hgone.fragment "shop" hconfig (by decide)

end Sample
end PrivatePaas
