import PrivatePaas.Results.Others

/-!
# A SIGTERM that comes back

A delete sends SIGTERM to the pid in the pid file. In a stale pid file this can be its
own: the signal has then come to the delete itself when it is over.
-/

namespace PrivatePaas
set_option autoImplicit false
open Files Text Effects Go Network Prog PrivatePaas.Parser

variable {Y : Yaml} {G : GoIpam} {α : Type}

/-- The pid in the pid file leads `l` to its own process. -/
def World.LeadsBack (w : World) (l : Local) : Prop :=
  ∃ n, w.Marks l n ∧ ∃ p ∈ w.procs.all, l.own p = true ∧ l.aims n p = true

/-- No SIGTERM has come to the process of `l`. -/
def Unsignalled (l : Local) (w : World) : Prop := ∀ p ∈ w.procs, l.own p = true → p.termed = false

/-- A SIGKILL. -/
def Op.IsSigkill : Op → Prop
  | .proc (.kill _ .sigkill) => True
  | _ => False

/-- A SIGTERM. -/
def Op.IsSigterm : Op → Prop
  | .proc (.kill _ .sigterm) => True
  | _ => False

/-- An operation that sends no SIGTERM and writes no file. -/
def Lasting : Op → Prop
  | .fs (.readFile _) => True
  | .fs (.remove _) => True
  | .fs _ => False
  | o => ¬ o.IsSigterm

section Operations
variable {c : Choice} {l : Local} {w : World} {o : Op} {q : Proc}

/-- An operation makes no process of the CLI. -/
theorem own_perform (ho : ¬ o.IsSigterm) (hq : q ∈ (perform Y G c l w o).2.2.procs) (hr : q.role = .cli) :
    q ∈ w.procs := by
  rcases @perform_procs_cases Y G c l w o with he | ⟨cmd, hfree, rfl, he⟩ | ⟨n, rfl, he⟩ | ⟨n, rfl, he⟩
  · rwa [he] at hq
  · rw [he] at hq
    rcases (Procs.mem_add (h := hfree)).mp hq with rfl | hq
    · cases hw : cmd.isWorkload <;> simp [Local.started, hw] at hr
    · exact hq
  · rw [he] at hq
    exact (Procs.mem_keep.mp hq).1
  · exact absurd trivial ho

/-- A process that has been sent SIGTERM is still there behind whatever is no SIGKILL. -/
theorem termed_perform (ho : ¬ o.IsSigkill) (hq : q ∈ w.procs) (ht : q.termed = true) :
    q ∈ (perform Y G c l w o).2.2.procs := by
  rcases @perform_procs_cases Y G c l w o with he | ⟨cmd, hfree, rfl, he⟩ | ⟨n, rfl, he⟩ | ⟨n, rfl, he⟩
  · rwa [he]
  · rw [he]
    exact (Procs.mem_add (h := hfree)).mpr (.inr hq)
  · exact absurd trivial ho
  · rw [he]
    refine List.mem_map.mpr ⟨q, hq, ?_⟩
    split
    · rw [← ht]
    · rfl

/-- The pid file is not written. -/
theorem Lasting.pidFile (h : Lasting o) {data : String}
    (hd : (perform Y G c l w o).2.2.fs.content envoyPidFile = some data) : w.fs.content envoyPidFile = some data := by
  by_cases hf : o.IsFs
  · cases o with
    | fs o =>
      cases o with
      | readFile p =>
        obtain ⟨past, hw⟩ := @perform_readFile_world Y G c l w p
        rwa [hw] at hd
      | remove p =>
        rcases @perform_remove_fs Y G c l w p with hfs | ⟨t, ht, hfs⟩
        · rwa [hfs] at hd
        · obtain ⟨q', _, hcontent, _⟩ := remove_cases ht
          rw [hfs, hcontent] at hd
          split at hd
          · cases hd
          · exact hd
      | _ => exact absurd h id
    | _ => exact absurd hf id
  · rwa [perform_fs hf] at hd

theorem Lasting.not_isSigterm (h : Lasting o) : ¬ o.IsSigterm := by
  cases o with
  | fs o => exact id
  | _ => exact h

theorem Modest.not_isSigterm (h : Modest o) : ¬ o.IsSigterm := by
  cases o with
  | proc o =>
    cases o with
    | kill n sg => exact absurd h id
    | _ => exact id
  | _ => exact id

theorem Asking.lasting (h : Asking o) : Lasting o := by
  cases o with
  | ipam st o => exact id
  | probe o => exact id
  | _ => exact absurd h id

end Operations

section Quiet
variable {C : (Host Y G).Choice → Prop} {c : Choice} {l l₀ : Local} {w w₀ : World} {o : Op}
variable {type_ name : String}

/-- The delete has not come to a SIGTERM of its own, and the pid file is none of its making. -/
structure Unled (l₀ : Local) (w₀ : World) (l : Local) (w : World) : Prop where
  same : l₀.Same l
  own : ∀ p ∈ w.procs, l₀.own p = true → p ∈ w₀.procs
  pidFile : ∀ data, w.fs.content envoyPidFile = some data → w₀.fs.content envoyPidFile = some data

theorem role_of_own {p : Proc} (h : l.own p = true) : p.role = .cli := (of_decide_eq_true h).2.2

theorem Unled.lasting (h : Unled l₀ w₀ l w) (ho : Lasting o) :
    Unled l₀ w₀ (perform Y G c l w o).2.1 (perform Y G c l w o).2.2 :=
  ⟨h.same.trans same_perform, fun p hp hown => h.own p (own_perform ho.not_isSigterm hp (role_of_own hown)) hown,
    fun _ hd => h.pidFile _ (ho.pidFile hd)⟩

theorem wp_lasting {p : Go α} (hp : p.Only Lasting) (h : Unled l₀ w₀ l w) :
    (Host Y G).wp C (fun _ l' w' => Unled l₀ w₀ l' w') l w p :=
  System.wp_of_only (Y := Host Y G) (I := fun l' w' => Unled l₀ w₀ l' w')
    (fun _ _ _ _ _ ho hI _ => hI.lasting ho) hp h

/-- A SIGTERM that does not come back. -/
theorem Unled.term (h : Unled l₀ w₀ l w) {n : Int}
    (hn : ∀ p ∈ w₀.procs, l₀.own p = true → l₀.aims n p = false) :
    Unled l₀ w₀ (perform Y G c l w (.proc (.kill n .sigterm))).2.1
      (perform Y G c l w (.proc (.kill n .sigterm))).2.2 := by
  have hfs : (perform Y G c l w (.proc (.kill n .sigterm))).2.2.fs = w.fs := perform_fs id
  refine ⟨h.same.trans same_perform, fun p hp hown => ?_, fun data hd => h.pidFile data (hfs ▸ hd)⟩
  rcases @perform_kill_procs Y G c l w n .sigterm with hk | hk
  · rw [hk] at hp
    exact h.own p hp hown
  · have hterm : (w.kill l n .sigterm).2.procs = w.procs.term (l.aims n) := rfl
    rw [hk, hterm] at hp
    obtain ⟨p₀, hp₀, he⟩ := List.mem_map.mp hp
    split at he
    · rename_i haim
      rw [h.same.aims] at haim
      have hown₀ : l₀.own p₀ = true := by
        rw [← hown, ← he]
        rfl
      rw [hn p₀ (h.own p₀ hp₀ hown₀) hown₀] at haim
      cases haim
    · exact h.own p (he ▸ hp₀) hown

/-- Where the pid file does not lead back, nor does what is found in it. -/
theorem Unled.findPid (h : Unled l₀ w₀ l w) (hb : ¬ w₀.LeadsBack l₀) :
    (Host Y G).wp C (fun r l' w' => Unled l₀ w₀ l' w' ∧ ∀ n, r = some (some n) → n ≠ 0 →
      ∀ p ∈ w₀.procs, l₀.own p = true → l₀.aims n p = false) l w Utils.findPidForEnvoy := by
  refine System.wp_mono (fun r l' w' hlook => ?_) wp_findPid
  obtain ⟨hl, ⟨past, rfl⟩, hmarks⟩ := hlook
  refine ⟨⟨h.same.trans hl, h.own, h.pidFile⟩, fun n hn h0 p hp hown => ?_⟩
  obtain ⟨⟨data, hdata, hat⟩, _⟩ := hmarks n hn h0
  by_contra haim
  rw [Bool.not_eq_false] at haim
  exact hb ⟨n, ⟨⟨data, h.pidFile data hdata, hat⟩, h0, p, hp, haim⟩, p, hp, hown, haim⟩

theorem Unled.stopEnvoy (h : Unled l₀ w₀ l w) (hb : ¬ w₀.LeadsBack l₀) :
    (Host Y G).wp C (fun _ l' w' => Unled l₀ w₀ l' w') l w Network.stopEnvoy := by
  refine System.wp_bind (System.wp_mono (fun r l₁ w₁ h₁ => ?_) (h.findPid hb))
  obtain ⟨h₁, hmiss⟩ := h₁
  cases r with
  | none => exact h₁
  | some found =>
    cases found with
    | none => exact h₁
    | some n =>
      by_cases h0 : n = 0
      · simp only [h0, if_true]
        exact h₁
      · simp only [h0, if_false]
        refine wp_op h₁ fun c r _ _ => ?_
        have h₂ := @Unled.term Y G c l₁ l₀ w₁ w₀ h₁ n (hmiss n rfl h0)
        have removed : (Host Y G).wp C (fun _ l' w' => Unled l₀ w₀ l' w')
            (perform Y G c l₁ w₁ (.proc (.kill n .sigterm))).2.1 (perform Y G c l₁ w₁ (.proc (.kill n .sigterm))).2.2 (do
              let _ ← remove envoyPidFile
              return true) := wp_lasting ⟨trivial, fun _ => trivial⟩ h₂
        cases r with
        | none => exact removed
        | some err =>
          cases err with
          | eperm => exact h₂
          | esrch => exact removed

theorem Unled.stopExisting (h : Unled l₀ w₀ l w) (hb : ¬ w₀.LeadsBack l₀) :
    (Host Y G).wp C (fun _ l' w' => Unled l₀ w₀ l' w') l w Network.stopExisting := by
  refine System.wp_bind (System.wp_mono (fun r l₁ w₁ h₁ => ?_) (h.findPid hb))
  obtain ⟨h₁, hmiss⟩ := h₁
  cases r with
  | none => exact h₁
  | some found =>
    cases found with
    | none => exact h₁
    | some n =>
      by_cases h0 : n = 0
      · simp only [h0, if_true]
        exact h₁
      · simp only [h0, if_false]
        exact wp_op h₁ fun c r _ _ => h₁.term (hmiss n rfl h0)

theorem lasting_releaseOf (rec : Cmd.Service) : Only Lasting (Cmd.releaseOf rec) := by
  refine only_ite.mpr ⟨fun _ => trivial, fun _ => Only.bind ?_ fun _ => trivial⟩
  refine (asking_getIpam.mono fun _ => Asking.lasting).bind fun st => ?_
  cases st with
  | none => trivial
  | some st =>
    simp only [only_ite]
    exact ⟨fun _ => trivial, fun _ => ⟨id, fun _ => trivial⟩⟩

theorem lasting_removeConfig (rec : Cmd.Service) : Only Lasting (Cmd.removeConfig rec) :=
  only_ite.mpr ⟨fun _ => trivial, fun _ => ⟨trivial, fun _ => trivial⟩⟩

/-- What is left of a delete behind its last SIGTERM. -/
theorem wp_launch_own {k : String} (h : Unled l₀ w₀ l w) :
    (Host Y G).wp C (fun _ _ w' => ∀ p ∈ w'.procs, l₀.own p = true → p ∈ w₀.procs) l w (do
      ensureConfig
      let _ ← launchEnvoy
      let _ ← del k
      return ()) := by
  have hcalm : ∀ o, Calm o → ¬ o.IsSigterm := by
    intro o ho
    cases o with
    | proc o =>
      cases o with
      | kill n sg => exact absurd ho id
      | _ => exact id
    | _ => exact id
  have hp : Only (fun o : Op => ¬ o.IsSigterm) (do
      ensureConfig
      let _ ← launchEnvoy
      let _ ← del k
      return () : Go Unit) :=
    (calm_ensureConfig.mono hcalm).bind fun _ =>
      (modest_launchEnvoy.mono fun _ => Modest.not_isSigterm).bind fun _ => ⟨id, fun _ => trivial⟩
  exact System.wp_of_only (Y := Host Y G) (I := fun _ w' => ∀ p ∈ World.procs w', l₀.own p = true → p ∈ w₀.procs)
    (fun _ _ _ _ _ ho hI _ p hq hown => hI p (own_perform ho hq (role_of_own hown)) hown) hp h.own

theorem wp_restart_own {k : String} {rec : Cmd.Service} (h : Unled l₀ w₀ l w) (hb : ¬ w₀.LeadsBack l₀) :
    (Host Y G).wp C (fun _ _ w' => ∀ p ∈ w'.procs, l₀.own p = true → p ∈ w₀.procs) l w (do
      let _ ← stopEnvoy
      Cmd.removeConfig rec
      let _ ← startEnvoy
      let _ ← del k
      return ()) := by
  refine System.wp_bind (System.wp_mono (fun r l₁ w₁ h₁ => ?_) (h.stopEnvoy hb))
  cases r with
  | none => exact h₁.own
  | some _ =>
    refine System.wp_bind (System.wp_mono (fun r l₂ w₂ h₂ => ?_) (wp_lasting (lasting_removeConfig rec) h₁))
    cases r with
    | none => exact h₂.own
    | some _ =>
      rw [startEnvoy_eq]
      simp only [bind_assoc]
      refine System.wp_bind (System.wp_mono (fun r l₃ w₃ h₃ => ?_) (h₂.stopExisting hb))
      cases r with
      | none => exact h₃.own
      | some _ => exact wp_launch_own h₃

/-- A delete that the pid file does not lead to itself sends no SIGTERM to itself. -/
theorem wp_unsignalled (h0 : Unsignalled l w) (hb : ¬ w.LeadsBack l) :
    (Host Y G).wp C (fun _ _ w' => Unsignalled l w') l w (Cmd.deleteProcess Y name type_) := by
  have h₀ : Unled l w l w := ⟨.refl l, fun _ hp _ => hp, fun _ hd => hd⟩
  have hown : (Host Y G).wp C (fun _ _ w' => ∀ p ∈ w'.procs, l.own p = true → p ∈ w.procs) l w
      (Cmd.deleteProcess Y name type_) := by
    refine wp_op h₀.own fun c r _ hr => ?_
    have h₁ := @Unled.lasting Y G c l l w w (.kv (.get (type_ ++ ":" ++ name))) h₀ id
    cases r with
    | none => exact h₁.own
    | some text =>
      rw [bind_eq, ret_bind]
      refine System.wp_bind (System.wp_mono (fun r l₂ w₂ h₂ => ?_) (wp_lasting (lasting_releaseOf (Y.decode text)) h₁))
      cases r with
      | none => exact h₂.own
      | some _ =>
        refine wp_op h₂.own fun c r _ _ => ?_
        have h₃ := @Unled.lasting Y G c l₂ l w₂ w (.proc (.kill (atoi (Y.decode text).pid).1 .sigkill)) h₂ id
        exact wp_restart_own h₃ hb
  exact System.wp_mono (fun _ _ _ h p hp hq => h0 p (h p hp hq) hq) hown

end Quiet

section Struck
variable {C : (Host Y G).Choice → Prop} {l l₀ : Local} {w : World} {key : String} {rec : Cmd.Service}

theorem Calm.not_isSigkill {o : Op} (h : Calm o) : ¬ o.IsSigkill := by
  cases o with
  | proc o =>
    cases o with
    | kill n sg => exact absurd h id
    | _ => exact id
  | _ => exact id

theorem Modest.not_isSigkill {o : Op} (h : Modest o) : ¬ o.IsSigkill := by
  cases o with
  | proc o =>
    cases o with
    | kill n sg => exact absurd h id
    | _ => exact id
  | _ => exact id

/-- What a delete does behind its first SIGTERM kills nobody. -/
theorem sparing_restart (key : String) (rec : Cmd.Service) : Only (fun o : Op => ¬ o.IsSigkill) (do
    Cmd.removeConfig rec
    let _ ← startEnvoy
    let _ ← del key
    return ()) := by
  have hstop : Only (fun o : Op => ¬ o.IsSigkill) stopExisting := by
    refine (calm_findPidForEnvoy.mono fun _ => Calm.not_isSigkill).bind fun r => ?_
    cases r with
    | none => trivial
    | some n => exact only_ite.mpr ⟨fun _ => trivial, fun _ => ⟨id, fun _ => trivial⟩⟩
  have hremove : Only (fun o : Op => ¬ o.IsSigkill) (Cmd.removeConfig rec) :=
    only_ite.mpr ⟨fun _ => trivial, fun _ => ⟨id, fun _ => trivial⟩⟩
  rw [startEnvoy_eq]
  simp only [bind_assoc]
  refine hremove.bind fun _ => hstop.bind fun _ => ?_
  refine (calm_ensureConfig.mono fun _ => Calm.not_isSigkill).bind fun _ => ?_
  exact (modest_launchEnvoy.mono fun _ => Modest.not_isSigkill).bind fun _ => ⟨id, fun _ => trivial⟩

theorem wp_termed {p : Go α} (hp : p.Only fun o : Op => ¬ o.IsSigkill) {q : Proc} (hq : q ∈ w.procs)
    (ht : q.termed = true) : (Host Y G).wp C (fun _ _ w' => q ∈ w'.procs) l w p :=
  System.wp_of_only (Y := Host Y G) (I := fun _ w' => q ∈ World.procs w')
    (fun _ _ _ _ _ ho hI _ => termed_perform ho hI ht) hp hq

/-- The pid in the pid file is found. -/
theorem wp_marked {f : Option Int → Go α} {Q : Option α → Local → World → Prop} (hl : Running l w) {n : Int}
    (hn : w.Marks l n) (h : ∀ l', l.Same l' → (Host Y G).wp Smooth Q l' w (f (some n))) :
    (Host Y G).wp Smooth Q l w (Utils.findPidForEnvoy >>= f) := by
  obtain ⟨⟨data, hdata, hat⟩, _, hthere⟩ := hn
  refine wp_readFile hl fun l₁ h₁ => ?_
  rw [Tree.read_of_content hdata]
  simp only [bind_eq, ret_bind, hat]
  refine wp_signal0 (hl.of_procs h₁ rfl) (by rw [h₁.aims]; exact hthere) fun l₂ h₂ => ?_
  exact h l₂ (h₁.trans h₂)

/-- A delete that the pid file leads to itself sends SIGTERM to itself. -/
theorem wp_signalled (hl : Running l w) (hb : w.LeadsBack l) :
    (Host Y G).wp Smooth (fun _ _ w' => ¬ Unsignalled l w') l w (do
      let _ ← stopEnvoy
      Cmd.removeConfig rec
      let _ ← startEnvoy
      let _ ← del key
      return ()) := by
  obtain ⟨n, hn, p, hp, hown, haim⟩ := hb
  unfold stopEnvoy
  rw [bind_assoc]
  refine wp_marked hl hn fun l₁ h₁ => ?_
  have h0 : n ≠ 0 := hn.2.1
  simp only [h0, if_false]
  refine wp_kill (hl.of_procs h₁ rfl) fun l₂ r past h₂ => ?_
  have hq : { p with termed := true } ∈ (w.kill l₁ n .sigterm).2.procs := by
    refine List.mem_map.mpr ⟨p, hp, ?_⟩
    rw [h₁.aims, if_pos haim]
  have hrest := sparing_restart key rec
  refine System.wp_mono (fun _ _ w' hmem hun => ?_) (wp_termed ?_ hq rfl)
  · have hfalse := hun _ hmem hown
    cases hfalse
  · cases r with
    | none => exact ⟨id, fun _ => hrest⟩
    | some err =>
      cases err with
      | eperm => exact hrest
      | esrch => exact ⟨id, fun _ => hrest⟩

end Struck

end PrivatePaas
