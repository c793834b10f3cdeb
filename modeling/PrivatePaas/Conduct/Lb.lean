import PrivatePaas.Conduct.Plain

/-!
# Every command keeps to the rewriting of the Envoy configuration

A fragment is written before the fragments are listed, all of them are read, and
what has been read is what is rendered. Outside of it only a missing configuration
is written.
-/

namespace PrivatePaas
set_option autoImplicit false
open Files Text Effects Go Network Prog PrivatePaas.Parser

variable {Y : Yaml} {s : LbState}

attribute [local simp] LbStage.next

/-- An operation that touches neither the fragments nor the Envoy configuration. -/
def OffLb : Op → Prop
  | .kv _ => True
  | .probe _ => True
  | .ipam _ _ => True
  | .net _ => True
  | .proc (.start c) => c.isWorkload = true
  | .proc _ => True
  | .fs (.readFile _) => True
  | .fs (.writeFile p _) => Harmless p ∨ p = envoyPidFile
  | .fs (.stat p) => p ≠ envoyConfig
  | .fs (.mkdirAll p) => p ≠ envoyConfDir
  | .fs (.openAppend p) => Harmless p
  | .fs (.append p _) => Harmless p
  | .fs (.initdb _ _) => True
  | .fs .getwd => True
  | .fs (.parseFiles _) => True
  | .fs _ => False

theorem Aside.offLb {o : Op} (h : Aside o) : OffLb o := by
  cases o with
  | fs o => cases o <;> first | trivial | exact h | exact .inl h
  | proc o =>
    cases o with
    | start c => exact h
    | kill n sg => cases sg <;> trivial
    | _ => trivial
  | _ => trivial

theorem Plain.offLb {o : Op} (h : Plain o) : OffLb o := h.aside.offLb

theorem LbState.final.ne_begun (h : s.final) : s.stage ≠ .begun := by
  intro hb
  rcases h with h | h | ⟨p, data, acc, h⟩ <;> rw [hb] at h <;> cases h

theorem LbState.final.ne_listed (h : s.final) (p : Path) (data : String) (fs : List String)
    (acc : List EnvoyService) : s.stage ≠ .listed p data fs acc := by
  intro hb
  rcases h with h | h | ⟨p, data, acc, h⟩ <;> rw [hb] at h <;> cases h

theorem offLb_still {o : Op} (hs : s.final) (h : OffLb o) : (lb Y).Still s o := by
  have next : ∀ r, s.stage.next Y o r = s.stage := by
    intro r
    rcases hs with hs | hs | ⟨q, data, acc, hs⟩ <;> rw [hs]
    all_goals
      cases o with
      | fs o =>
        cases o with
        | mkdirAll p => exact if_neg fun hp => h hp.1
        | _ => rfl
      | proc o =>
        cases o with
        | start c =>
          have hc : c.isWorkload = true := h
          simp [hc]
        | _ => rfl
      | _ => rfl
  have missing : ∀ r, LbState.missingAfter s.missing o r = s.missing := by
    intro r
    cases o with
    | fs o =>
      cases o with
      | stat p => exact if_neg h
      | writeFile p data =>
        refine if_neg (Or.elim h Harmless.ne_config ?_)
        rintro rfl
        decide
      | _ => rfl
    | _ => rfl
  refine ⟨?_, fun r => ?_⟩
  · cases o with
    | fs o =>
      cases o with
      | writeFile p data => exact .inr ⟨hs.ne_begun, Or.imp_right .inl h⟩
      | readFile p => exact fun q data f todo acc hst => absurd hst (hs.ne_listed _ _ _ _)
      | mkdirAll p => exact fun hp => absurd hp h
      | openAppend p => exact h
      | append p data => exact h
      | create p => exact absurd h id
      | write p data => exact absurd h id
      | glob d x => exact absurd h id
      | remove p => exact absurd h id
      | _ => trivial
    | proc o =>
      cases o with
      | start c => exact hs
      | _ => trivial
    | _ => trivial
  · change LbState.mk _ _ = s
    rw [next, missing]

theorem lb_skip {α β : Type} {p : Go α} {f : α → Go β} {R : LbState → β → Prop} (hs : s.final)
    (hp : Only OffLb p) (hf : ∀ a, (lb Y).Obeys s (f a) R) : (lb Y).Obeys s (p >>= f) R :=
  Monitor.Obeys.skip (hp.mono fun _ => offLb_still hs) hf

theorem offLb_findPidForEnvoy : Only OffLb Utils.findPidForEnvoy := by
  refine ⟨trivial, fun r => ?_⟩
  cases r with
  | error e => cases e <;> trivial
  | ok data =>
    cases h : atoi (trimSpace data) with
    | mk pid b => cases b <;> simp [h, OffLb]

theorem offLb_stopExisting : Only OffLb stopExisting := by
  refine offLb_findPidForEnvoy.bind fun r => ?_
  cases r <;> simp [OffLb]

/-- Only a configuration that is missing is written. -/
theorem lb_ensureConfig (hs : s.final) :
    (lb Y).Obeys s ensureConfig fun s' _ => s'.stage = s.stage := by
  have hrun : ["run"] ≠ envoyConfDir := by decide
  refine lb_skip hs (p := mkdirAll _) ⟨hrun, fun _ => trivial⟩ fun _ => ⟨trivial, fun r => ?_⟩
  cases r with
  | ok _ => rfl
  | error e =>
    cases e with
    | other => rfl
    | notExist =>
      refine ⟨.inr ⟨hs.ne_begun, .inr (.inr ⟨rfl, rfl, ?_⟩)⟩, fun r => ?_⟩
      · simp [lb, LbState.missingAfter]
      · change LbStage.next Y s.stage (.fs (.writeFile envoyConfig bootstrapConfig)) r = s.stage
        rcases hs with hs | hs | ⟨q, data, acc, hs⟩ <;> rw [hs] <;> rfl

theorem lb_startEnvoy (hs : s.final) :
    (lb Y).Obeys s startEnvoy fun s' _ => s'.final ∧ (s'.stage = .idle ↔ s.stage = .idle) := by
  refine lb_skip hs offLb_stopExisting fun _ => ?_
  refine (lb_ensureConfig hs).bind fun s1 _ h1 => ?_
  have hs1 : s1.final := by
    unfold LbState.final
    rw [h1]
    exact hs
  refine lb_skip hs1 (plain_envoyBinary.mono fun _ => Plain.offLb) fun bin => ?_
  have hlog : Harmless ["var", "log", "envoy-paas.log"] := harmless_concat ["var", "log"] (by decide)
  refine lb_skip hs1 (p := openAppend _) ⟨hlog, fun _ => trivial⟩ fun _ => ?_
  refine ⟨hs1, fun r => ?_⟩
  have h2 : LbState.final ((lb Y).next s1 (.proc (.start (.envoy bin envoyConfig))) r) ∧
      (((lb Y).next s1 (.proc (.start (.envoy bin envoyConfig))) r).stage = .idle ↔
        s.stage = .idle) := by
    rw [← h1]
    rcases hs1 with hs | hs | ⟨p, data, acc, hs⟩
    · simp [lb, LbState.final, hs]
    · simp [lb, LbState.final, hs]
    · simp only [lb, LbStage.next, LbState.final, hs]
      split <;> simp
  generalize (lb Y).next s1 (.proc (.start (.envoy bin envoyConfig))) r = s2 at h2
  cases r with
  | none => exact h2
  | some pid =>
    simp only [bind_eq, ret_bind]
    refine lb_skip h2.1 ((plain_moveToCgroup pid).mono fun _ => Plain.offLb) fun _ => ?_
    refine lb_skip h2.1 (p := writeFile _ _) ⟨.inr rfl, fun _ => trivial⟩ fun _ => ?_
    refine lb_skip h2.1 (aside_getOrAcquireEnvoyIp.mono fun _ => Aside.offLb) fun r => ?_
    cases r with
    | none => exact h2
    | some ip => exact lb_skip h2.1 ((plain_connectEnvoy pid ip).mono fun _ => Plain.offLb) fun _ => h2

/-- Reading the fragments adds what each of them holds. -/
theorem lb_readFragments {p : Path} {data : String} (fs : List String) (acc : List EnvoyService)
    (hs : s.stage = .listed p data fs acc) :
    (lb Y).Obeys s (readFragments Y fs acc) fun s' services =>
      s'.stage = .listed p data [] services := by
  induction fs generalizing acc s with
  | nil => exact hs
  | cons f fs ih =>
    refine ⟨?_, fun r => ih _ ?_⟩
    · intro q d g todo acc' hst
      rw [hs] at hst
      injection hst with _ _ hfs _
      rw [(List.cons.inj hfs).1]
    · simp [lb, hs]

theorem lb_updateLbConfig (hs : s.stage = .idle) (c : ServiceEnvoyConfig) :
    (lb Y).Obeys s (updateLbConfig Y c) fun s' _ => s'.final ∧ s'.stage ≠ .idle := by
  refine ⟨fun _ => hs, fun r => ?_⟩
  cases r with
  | false => trivial
  | true =>
    refine ⟨.inl ⟨by simp [lb], c, rfl, rfl⟩, fun r => ?_⟩
    cases r with
    | false => trivial
    | true =>
      have h2 : ((lb Y).next ((lb Y).next s (.fs (.mkdirAll envoyConfDir)) true)
          (.fs (.writeFile (serviceConfPath c.upstreamName) (Y.marshalConfig c))) true).stage =
          .wrote (serviceConfPath c.upstreamName) (Y.marshalConfig c) := by
        simp [lb]
      generalize (lb Y).next ((lb Y).next s (.fs (.mkdirAll envoyConfDir)) true)
        (.fs (.writeFile (serviceConfPath c.upstreamName) (Y.marshalConfig c))) true = s2 at h2
      refine ⟨⟨rfl, rfl, _, _, h2⟩, fun files => ?_⟩
      have h2' : ((lb Y).next s2 (.fs (.glob envoyConfDir ".yaml")) files).stage =
          .listed (serviceConfPath c.upstreamName) (Y.marshalConfig c) files [] := by
        simp [lb, h2]
      refine (lb_readFragments files [] h2').bind fun s3 services h3 => ?_
      refine ⟨trivial, fun r => ?_⟩
      have h4 : ((lb Y).next s3 (.fs .getwd) r).stage = .listed (serviceConfPath c.upstreamName)
          (Y.marshalConfig c) [] services := h3
      generalize (lb Y).next s3 (.fs .getwd) r = s4 at h4
      cases r with
      | none => trivial
      | some pwd =>
        refine ⟨trivial, fun r => ?_⟩
        have h5 : ((lb Y).next s4 (.fs (.parseFiles (templatePath pwd))) r).stage =
            .listed (serviceConfPath c.upstreamName) (Y.marshalConfig c) [] services := h4
        generalize (lb Y).next s4 (.fs (.parseFiles (templatePath pwd))) r = s5 at h5
        refine Monitor.obeys_ite.mpr ⟨fun _ => trivial, fun _ => ⟨⟨rfl, _, _, _, h5⟩, fun r => ?_⟩⟩
        cases r with
        | false => trivial
        | true =>
          have h6 : ((lb Y).next s5 (.fs (.create envoyConfig)) true).stage =
              .truncated (serviceConfPath c.upstreamName) (Y.marshalConfig c) services := by
            simp [lb, h5]
          generalize (lb Y).next s5 (.fs (.create envoyConfig)) true = s6 at h6
          refine ⟨⟨rfl, _, _, _, h6, rfl⟩, fun r => ?_⟩
          cases r with
          | false => trivial
          | true =>
            have h7 : ((lb Y).next s6 (.fs (.write envoyConfig (envoyTmpl services))) true).stage =
                .rendered (serviceConfPath c.upstreamName) (Y.marshalConfig c) services := by
              simp [lb, h6]
            generalize (lb Y).next s6 (.fs (.write envoyConfig (envoyTmpl services))) true = s7 at h7
            refine (lb_startEnvoy (.inr (.inr ⟨_, _, _, h7⟩))).bind fun s8 _ h8 => ?_
            refine ⟨h8.1, fun hi => ?_⟩
            have hi' := h8.2.mp hi
            rw [h7] at hi'
            cases hi'

theorem lb_createService (hs : s.stage = .idle) (body ip : String) :
    (lb Y).Obeys s (Service.createService Y body ip) fun s' _ => s'.final := by
  have run : ∀ (s' : LbState) (v : Service), s'.final → (lb Y).Obeys s' (do
      let pid ← v.execPythonService ip
      return { v with pid := pid }) fun s' _ => s'.final :=
    fun _ v hs' =>
      lb_skip hs' ((bearing_execPythonService v ip).mono fun _ h => h.aside.offLb) fun _ => hs'
  unfold Service.createService
  refine Monitor.obeys_ite.mpr ⟨fun _ => ?_, fun _ => .inl hs⟩
  refine Monitor.obeys_ite.mpr ⟨fun _ => ?_, fun _ => run s _ (.inl hs)⟩
  exact (lb_updateLbConfig hs _).bind fun s' _ hs' => run s' _ hs'.1

theorem lb_runCreate (hs : s.stage = .idle) (p : Path) :
    (lb Y).Obeys s (Cmd.runCreate Y p) fun s' _ => s'.final := by
  have hf : s.final := .inl hs
  refine lb_skip hf (p := readFile p) ⟨trivial, fun _ => trivial⟩ fun r => ?_
  cases r with
  | error e => exact hf
  | ok data =>
    dsimp only
    cases Y.unmarshalFile data with
    | none => exact hf
    | some file =>
      refine lb_skip hf (aside_getIp.mono fun _ => Aside.offLb) fun ip => ?_
      unfold Cmd.createByType
      refine Monitor.obeys_ite.mpr ⟨fun _ => ?_, fun _ => Monitor.obeys_ite.mpr ⟨fun _ => ?_, fun _ => hf⟩⟩
      · refine lb_skip hf (plain_createBridge.mono fun _ => Plain.offLb) fun _ => ?_
        refine (lb_createService hs file.body ip).bind fun s' v hs' => ?_
        exact lb_skip hs' (p := set _ _) ⟨trivial, fun _ => trivial⟩ fun _ => hs'
      · refine lb_skip hf ((bearing_createDatabase file.body ip).mono fun _ h => h.aside.offLb) fun d => ?_
        exact lb_skip hf (p := set _ _) ⟨trivial, fun _ => trivial⟩ fun _ => hf

theorem lb_remove (hs : s.stage = .idle) (p : Path) : (lb Y).Still s (.fs (.remove p)) :=
  ⟨hs, fun _ => by rw [show (lb Y).next s _ _ = ⟨LbStage.next Y s.stage _ _, s.missing⟩ from rfl, hs]; cases s; cases hs; rfl⟩

theorem lb_stopEnvoy (hs : s.stage = .idle) : (lb Y).Obeys s stopEnvoy fun s' _ => s' = s := by
  refine lb_skip (.inl hs) offLb_findPidForEnvoy fun r => ?_
  cases r with
  | none => rfl
  | some pid =>
    refine Monitor.obeys_ite.mpr ⟨fun _ => rfl, fun _ => ?_⟩
    refine lb_skip (.inl hs) (p := kill _ _) ⟨trivial, fun _ => trivial⟩ fun r => ?_
    have rest : (lb Y).Obeys s (do let _ ← remove envoyPidFile; return true) fun s' _ => s' = s :=
      Monitor.Obeys.still (lb_remove hs _) fun _ => rfl
    cases r with
    | none => exact rest
    | some e =>
      cases e with
      | eperm => rfl
      | esrch => exact rest

/-- A delete renders nothing. -/
theorem lb_runDelete (hs : s.stage = .idle) (type_ name : String) :
    (lb Y).Obeys s (Cmd.runDelete Y type_ name) fun s' _ => s'.stage = .idle := by
  have hf : s.final := .inl hs
  unfold Cmd.runDelete
  refine Monitor.obeys_ite.mpr ⟨fun _ => hs, fun _ => ?_⟩
  refine lb_skip hf (p := get _) ⟨trivial, fun _ => trivial⟩ fun r => ?_
  cases r with
  | none => exact hs
  | some text =>
    have released : Only OffLb (Cmd.releaseOf (Y.decode text)) :=
      only_ite.mpr ⟨fun _ => trivial, fun _ =>
        ((aside_releaseIp _).mono fun _ => Aside.offLb).bind fun _ => trivial⟩
    refine lb_skip hf released fun _ => ?_
    refine lb_skip hf (p := kill _ _) ⟨trivial, fun _ => trivial⟩ fun _ => ?_
    refine (lb_stopEnvoy hs).bind fun s' _ hs' => ?_
    subst s'
    have removed : (lb Y).Obeys s (Cmd.removeConfig (Y.decode text)) fun s' _ => s' = s :=
      Monitor.obeys_ite.mpr ⟨fun _ => rfl, fun _ => Monitor.Obeys.still (lb_remove hs _) fun _ => rfl⟩
    refine removed.bind fun s' _ hs' => ?_
    subst s'
    refine (lb_startEnvoy hf).bind fun s' _ hs' => ?_
    exact lb_skip hs'.1 (p := del _) ⟨trivial, fun _ => trivial⟩ fun _ => hs'.2.mpr hs

end PrivatePaas
