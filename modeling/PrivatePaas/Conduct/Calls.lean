import PrivatePaas.Conduct.Envoy
import PrivatePaas.Effects.Ahead
import PrivatePaas.Host.World

/-!
# StartEnvoy and StopEnvoy as calls

A call reads the pid file, and from what it has read it goes on to act on the Envoy
process and on the pid file. `calls` follows one call through that window.
-/

namespace PrivatePaas
set_option autoImplicit false
open Files Text Effects Go Network Prog PrivatePaas.Parser

namespace Op

/-- The pid file is read. -/
def Looks : Op → Prop
  | .fs (.readFile p) => p = envoyPidFile
  | _ => False

/-- An Envoy is started, or the pid file written. -/
def Renews : Op → Prop
  | .proc (.start c) => c.isWorkload = false
  | .fs (.writeFile p _) => p = envoyPidFile
  | _ => False

/-- The Envoy process or the pid file is changed. -/
def Meddles : Op → Prop
  | .proc (.kill _ .sigterm) => True
  | .fs (.remove p) => p = envoyPidFile
  | o => o.Renews

theorem Renews.meddles {o : Op} (h : o.Renews) : o.Meddles := by
  cases o with
  | fs o => cases o <;> first | exact h | exact absurd h id
  | proc o =>
    cases o with
    | kill n sg => exact absurd h id
    | _ => exact h
  | _ => exact h

end Op

/-- The program may still start an Envoy, or write its pid, on what it has read before. -/
def Starting {α : Type} (p : Go α) : Prop := p.Reaches Op.Renews Op.Looks

/-- The program may still change something on what it has read before. -/
def Engaged {α : Type} (p : Go α) : Prop := p.Reaches Op.Meddles Op.Looks

theorem Starting.engaged {α : Type} {p : Go α} (h : Starting p) : Engaged p :=
  Reaches.mono (fun _ => Op.Renews.meddles) h

section
variable {α : Type} {o : Op} {k : o.Ret → Go α} {r : o.Ret}

theorem Starting.before (ho : ¬ o.Looks) (h : Starting (k r)) : Starting (.call o k) := .inr ⟨ho, r, h⟩

theorem Engaged.before (ho : ¬ o.Looks) (h : Engaged (k r)) : Engaged (.call o k) := .inr ⟨ho, r, h⟩

end

/-- An operation that has nothing to do with Envoy or the pid file. -/
def OffCalls (o : Op) : Prop := OffEnvoy o ∧ ∀ p, o ≠ .fs (.remove p)

theorem OffCalls.not_meddles {o : Op} (h : OffCalls o) : ¬ o.Meddles ∧ ¬ o.Looks := by
  have hoff := h.1
  cases o with
  | fs o =>
    cases o with
    | readFile p => exact ⟨id, hoff⟩
    | writeFile p data => exact ⟨Or.elim hoff Harmless.ne_pidFile YamlFile.ne_pidFile, id⟩
    | remove p => exact absurd rfl (h.2 p)
    | _ => exact ⟨id, id⟩
  | proc o =>
    cases o with
    | start c => exact ⟨fun hc => Bool.noConfusion (hc.symm.trans hoff), id⟩
    | kill n sg =>
      cases sg with
      | sigkill => exact ⟨id, id⟩
      | sigterm => exact absurd hoff id
    | _ => exact ⟨id, id⟩
  | _ => exact ⟨id, id⟩

theorem Aside.offCalls {o : Op} (h : Aside o) : OffCalls o := by
  refine ⟨h.offEnvoy, ?_⟩
  rintro p rfl
  exact h

/-- Where a call stands: outside the window, with the pid that it has read, sure that no
Envoy runs, or with the Envoy that it has started. -/
inductive CallStage where
  | out
  | seen (n : Int)
  | clear
  | born (pid : Nat)
deriving DecidableEq

namespace CallStage

/-- A call that finds no Envoy goes on if it is to start one. -/
def onward (starts : Bool) : CallStage := if starts then clear else out

/-- The pid that a text says, if it says one other than 0. -/
def afterLook (starts : Bool) (r : Except Err String) : CallStage :=
  match r with
  | .error _ => onward starts
  | .ok data =>
    match atoi (trimSpace data) with
    | (_, false) => onward starts
    | (n, true) => if n = 0 then onward starts else seen n

def next (starts : Bool) (s : CallStage) : (o : Op) → o.Ret → CallStage
  | .fs (.readFile p), r => if p = envoyPidFile then afterLook starts r else s
  | .proc (.signal0 _), r =>
    match s with
    | seen n => if r then seen n else onward starts
    | s => s
  | .proc (.kill _ .sigterm), r => if r = some .eperm then onward starts else clear
  | .proc (.start c), r => if c.isWorkload then s else (match r with | some pid => born pid | none => out)
  | .fs (.writeFile p _), _ => if p = envoyPidFile then out else s
  | .fs (.remove _), _ => out
  | _, _ => s

def ok (starts : Bool) (s : CallStage) : Op → Prop
  | .fs (.readFile p) => p = envoyPidFile → s = out
  | .proc (.signal0 n) => (∀ pid, s ≠ born pid) ∧ ∀ m, s = seen m → n = m
  | .proc (.kill n .sigterm) => s = seen n
  | .proc (.start c) => c.isWorkload = false → starts = true ∧ s = clear
  | .fs (.writeFile p data) =>
    (p = envoyPidFile ∧ ∃ pid : Nat, s = born pid ∧ data = itoa pid) ∨
      p ≠ envoyPidFile ∧ OffCalls (.fs (.writeFile p data))
  | .fs (.remove p) => p = envoyPidFile ∧ starts = false ∧ s = clear
  | o => OffCalls o

end CallStage

/-- The monitor of one call; `starts` says that it is a call of `StartEnvoy`. -/
def calls (starts : Bool) : Monitor sig where
  State := CallStage
  ok := CallStage.ok starts
  next := CallStage.next starts

section Monitor
variable {starts : Bool} {s : CallStage} {o : Op}

theorem offCalls_still (h : OffCalls o) : (calls starts).Still s o := by
  obtain ⟨hoff, hrem⟩ := h
  cases o with
  | fs o =>
    cases o with
    | readFile p => exact ⟨fun hp => absurd hp hoff, fun _ => if_neg hoff⟩
    | writeFile p data =>
      have hp : p ≠ envoyPidFile := Or.elim hoff Harmless.ne_pidFile YamlFile.ne_pidFile
      exact ⟨.inr ⟨hp, hoff, hrem⟩, fun _ => if_neg hp⟩
    | remove p => exact absurd rfl (hrem p)
    | _ => exact ⟨⟨hoff, hrem⟩, fun _ => rfl⟩
  | proc o =>
    cases o with
    | start c =>
      have hc : c.isWorkload = true := hoff
      exact ⟨fun h => Bool.noConfusion (h.symm.trans hc), fun _ => if_pos hc⟩
    | kill n sg =>
      cases sg with
      | sigkill => exact ⟨⟨hoff, hrem⟩, fun _ => rfl⟩
      | sigterm => exact absurd hoff id
    | signal0 n => exact absurd hoff id
    | _ => exact ⟨⟨hoff, hrem⟩, fun _ => rfl⟩
  | _ => exact ⟨⟨hoff, hrem⟩, fun _ => rfl⟩

/-- What the monitor accepts, one kind of operation at a time. -/
theorem calls_cases (h : (calls starts).ok s o) :
    OffCalls o ∨ (o = .fs (.readFile envoyPidFile) ∧ s = .out) ∨
      (∃ n, o = .proc (.signal0 n) ∧ (∀ pid, s ≠ .born pid) ∧ ∀ m, s = .seen m → n = m) ∨
      (∃ n, o = .proc (.kill n .sigterm) ∧ s = .seen n) ∨
      (∃ c, o = .proc (.start c) ∧ c.isWorkload = false ∧ starts = true ∧ s = .clear) ∨
      (∃ pid : Nat, o = .fs (.writeFile envoyPidFile (itoa pid)) ∧ s = .born pid) ∨
      (o = .fs (.remove envoyPidFile) ∧ starts = false ∧ s = .clear) := by
  have off : OffEnvoy o → (∀ p, o ≠ .fs (.remove p)) → OffCalls o := fun h1 h2 => ⟨h1, h2⟩
  cases o with
  | fs o =>
    cases o with
    | readFile p =>
      by_cases hp : p = envoyPidFile
      · exact .inr (.inl ⟨by rw [hp], h hp⟩)
      · exact .inl (off hp nofun)
    | writeFile p data =>
      rcases h with ⟨rfl, pid, hs, rfl⟩ | ⟨_, hoff⟩
      · exact .inr (.inr (.inr (.inr (.inr (.inl ⟨pid, rfl, hs⟩)))))
      · exact .inl hoff
    | remove p =>
      obtain ⟨rfl, hb, hs⟩ := h
      exact .inr (.inr (.inr (.inr (.inr (.inr ⟨rfl, hb, hs⟩)))))
    | _ => exact .inl h
  | proc o =>
    cases o with
    | start c =>
      by_cases hc : c.isWorkload = true
      · exact .inl (off hc nofun)
      · rw [Bool.not_eq_true] at hc
        exact .inr (.inr (.inr (.inr (.inl ⟨c, rfl, hc, h hc⟩))))
    | kill n sg =>
      cases sg with
      | sigkill => exact .inl h
      | sigterm => exact .inr (.inr (.inr (.inl ⟨n, rfl, h⟩)))
    | signal0 n => exact .inr (.inr (.inl ⟨n, rfl, h⟩))
    | _ => exact .inl h
  | _ => exact .inl h

variable {α : Type} {p : Go α}

/-- A call that is in the window has something to do in it. -/
theorem engaged_of_obeys (h : (calls starts).Obeys s p.caught fun s _ => s = .out) (hs : s ≠ .out) :
    Engaged p := by
  induction p generalizing s with
  | ret a => exact absurd h hs
  | halt => exact absurd h hs
  | call o k ih =>
    obtain ⟨hok, hk⟩ := h
    rcases calls_cases hok with hoff | ⟨_, hout⟩ | ⟨n, rfl, hb, hn⟩ | ⟨n, rfl, _⟩ | ⟨c, rfl, hc, _⟩ |
      ⟨pid, rfl, _⟩ | ⟨rfl, _⟩
    · refine Engaged.before hoff.not_meddles.2 (r := o.failure) (ih _ ?_ hs)
      have hr := hk o.failure
      rwa [(offCalls_still hoff).2] at hr
    · exact absurd hout hs
    · refine Engaged.before id (r := true) (ih _ (hk true) ?_)
      cases s with
      | out => exact absurd rfl hs
      | seen m => exact nofun
      | clear => exact nofun
      | born pid => exact absurd rfl (hb pid)
    · exact .inl trivial
    · exact .inl hc
    · exact .inl rfl
    · exact .inl rfl

/-- A call of `StartEnvoy` that is in the window starts an Envoy in it. -/
theorem starting_of_obeys (h : (calls true).Obeys s p.caught fun s _ => s = .out) (hs : s ≠ .out) :
    Starting p := by
  induction p generalizing s with
  | ret a => exact absurd h hs
  | halt => exact absurd h hs
  | call o k ih =>
    obtain ⟨hok, hk⟩ := h
    rcases calls_cases hok with hoff | ⟨_, hout⟩ | ⟨n, rfl, hb, hn⟩ | ⟨n, rfl, _⟩ | ⟨c, rfl, hc, _⟩ |
      ⟨pid, rfl, _⟩ | ⟨_, hf, _⟩
    · refine Starting.before hoff.not_meddles.2 (r := o.failure) (ih _ ?_ hs)
      have hr := hk o.failure
      rwa [(offCalls_still hoff).2] at hr
    · exact absurd hout hs
    · refine Starting.before id (r := true) (ih _ (hk true) ?_)
      cases s with
      | out => exact absurd rfl hs
      | seen m => exact nofun
      | clear => exact nofun
      | born pid => exact absurd rfl (hb pid)
    · exact Starting.before id (r := none) (ih _ (hk none) nofun)
    · exact .inl hc
    · exact .inl rfl
    · cases hf

end Monitor
section Programs
variable {s : CallStage}

theorem returns_ensureConfig : Returns ensureConfig := by
  intro _ r
  cases r with
  | ok _ => trivial
  | error e => cases e <;> simp [Returns]

theorem returns_envoyBinary : Returns envoyBinary := by
  intro r
  cases r with
  | some path => trivial
  | none =>
    intro r
    cases r with
    | ok _ => trivial
    | error _ =>
      intro r
      cases r <;> trivial

theorem returns_moveToCgroup (pid : Nat) : Returns (moveProcessToEnvoyCgroup pid) := by
  intro r
  cases r with
  | false => trivial
  | true => exact fun _ _ => trivial

theorem offCalls_ensureConfig : Only OffCalls ensureConfig := by
  refine ⟨⟨trivial, nofun⟩, fun _ => ⟨⟨trivial, nofun⟩, fun r => ?_⟩⟩
  cases r with
  | ok _ => trivial
  | error e =>
    cases e with
    | other => trivial
    | notExist => exact ⟨⟨.inr yamlFile_envoyConfig, nofun⟩, fun _ => trivial⟩

theorem calls_skip {α β : Type} {starts : Bool} {p : Go α} {f : α → Go β}
    {R : CallStage → Option β → Prop} (hp : Only OffCalls p) (hr : Returns p)
    (hf : ∀ a, (calls starts).Obeys s (f a).caught R) : (calls starts).Obeys s (p >>= f).caught R :=
  Monitor.Obeys.caught_skip (hp.mono fun _ => offCalls_still) hr hf

/-- What a call goes on with: no pid, or one that it has read and that is not 0. -/
def Found (starts : Bool) (s : CallStage) (found : Option Int) : Prop :=
  ((∀ pid, found = some pid → pid = 0) ∧ s = .onward starts) ∨
    ∃ pid, found = some pid ∧ pid ≠ 0 ∧ s = .seen pid

theorem calls_findPid (starts : Bool) : (calls starts).Obeys .out Utils.findPidForEnvoy.caught fun s r =>
    ∃ found, r = some found ∧ Found starts s found := by
  have zero : ∀ pid, some (0 : Int) = some pid → pid = 0 := fun _ h => (Option.some.inj h).symm
  refine ⟨fun _ => rfl, fun r => ?_⟩
  have hnext : (calls starts).next .out (.fs (.readFile envoyPidFile)) r = .afterLook starts r := rfl
  rw [hnext]
  cases r with
  | error e =>
    cases e with
    | notExist => exact ⟨some 0, rfl, .inl ⟨zero, rfl⟩⟩
    | other => exact ⟨none, rfl, .inl ⟨(by simp), rfl⟩⟩
  | ok data =>
    simp only [bind_eq, ret_bind, CallStage.afterLook]
    obtain ⟨n, valid⟩ := atoi (trimSpace data)
    cases valid with
    | false => exact ⟨none, rfl, .inl ⟨(by simp), rfl⟩⟩
    | true =>
      by_cases h0 : n = 0
      · subst n
        have hstay : ∀ r, (calls starts).next (.onward starts) (.proc (.signal0 0)) r = .onward starts := by
          cases starts <;> exact fun _ => rfl
        refine ⟨⟨?_, ?_⟩, fun r => ?_⟩
        · cases starts <;> intro _ hs <;> cases hs
        · cases starts <;> intro _ hs <;> cases hs
        · simp only [if_true, hstay]
          cases r <;> exact ⟨some 0, rfl, .inl ⟨zero, rfl⟩⟩
      · simp only [h0, if_false]
        refine ⟨⟨(by simp), fun m hm => CallStage.seen.inj hm⟩, fun r => ?_⟩
        cases r with
        | false => exact ⟨some 0, rfl, .inl ⟨zero, rfl⟩⟩
        | true => exact ⟨some n, rfl, .inr ⟨n, rfl, h0, rfl⟩⟩

theorem calls_stopEnvoy (Y : Yaml) :
    (calls false).Obeys .out (Task.program Y .stopEnvoy).caught fun s _ => s = .out := by
  have hstop : (calls false).Obeys .out stopEnvoy.caught fun s r => r ≠ none ∧ s = .out := by
    refine (calls_findPid false).caught_bind (fun s found h => ?_) fun s h => absurd h.choose_spec.1 nofun
    obtain ⟨_, hf, ⟨h0, rfl⟩ | ⟨pid, rfl, h0, rfl⟩⟩ := h
    · obtain rfl := Option.some.inj hf
      cases found with
      | none => exact ⟨nofun, rfl⟩
      | some pid =>
        simp only [h0 pid rfl, if_true]
        exact ⟨nofun, rfl⟩
    · obtain rfl := Option.some.inj hf
      simp only [h0, if_false]
      refine ⟨rfl, fun r => ?_⟩
      cases r with
      | none => exact ⟨⟨rfl, rfl, rfl⟩, fun _ => ⟨nofun, rfl⟩⟩
      | some e =>
        cases e with
        | eperm => exact ⟨nofun, rfl⟩
        | esrch => exact ⟨⟨rfl, rfl, rfl⟩, fun _ => ⟨nofun, rfl⟩⟩
  exact hstop.caught_bind (fun s _ h => h.2) fun s h => absurd rfl h.1

theorem calls_stopExisting : (calls true).Obeys .out stopExisting.caught fun s r =>
    r ≠ none ∧ s = .clear := by
  refine (calls_findPid true).caught_bind (fun s found h => ?_) fun s h => absurd h.choose_spec.1 nofun
  obtain ⟨_, hf, ⟨h0, rfl⟩ | ⟨pid, rfl, h0, rfl⟩⟩ := h
  · obtain rfl := Option.some.inj hf
    cases found with
    | none => exact ⟨nofun, rfl⟩
    | some pid =>
      simp only [h0 pid rfl, if_true]
      exact ⟨nofun, rfl⟩
  · obtain rfl := Option.some.inj hf
    simp only [h0, if_false]
    refine ⟨rfl, fun r => ⟨nofun, ?_⟩⟩
    change (if r = some .eperm then CallStage.clear else CallStage.clear) = _
    split <;> rfl

/-- The Envoy that is started gets its pid into the pid file. -/
theorem calls_startEnvoy (Y : Yaml) :
    (calls true).Obeys .out (Task.program Y .startEnvoy).caught fun s _ => s = .out := by
  have hstart : (calls true).Obeys .out startEnvoy.caught fun s _ => s = .out := by
    refine calls_stopExisting.caught_bind (fun s _ h => ?_) fun s h => absurd rfl h.1
    rw [h.2]
    refine calls_skip offCalls_ensureConfig returns_ensureConfig fun _ => ?_
    refine calls_skip (plain_envoyBinary.mono fun _ h => h.aside.offCalls) returns_envoyBinary fun bin => ?_
    have hlog : Harmless ["var", "log", "envoy-paas.log"] := harmless_concat ["var", "log"] (by decide)
    refine calls_skip (p := openAppend _) ⟨⟨hlog, nofun⟩, fun _ => trivial⟩ (fun _ => trivial) fun _ => ?_
    refine ⟨fun _ => ⟨rfl, rfl⟩, fun r => ?_⟩
    cases r with
    | none => rfl
    | some pid =>
      simp only [bind_eq, ret_bind]
      refine calls_skip ((plain_moveToCgroup pid).mono fun _ h => h.aside.offCalls)
        (returns_moveToCgroup pid) fun _ => ?_
      refine ⟨.inl ⟨rfl, pid, rfl, rfl⟩, fun _ => ?_⟩
      simp only [bind_eq, ret_bind]
      refine Monitor.Obeys.of_only (Only.mono (fun _ => offCalls_still) (Only.caught
        ((aside_getOrAcquireEnvoyIp.mono fun _ => Aside.offCalls).bind fun r => ?_))) fun _ => rfl
      cases r with
      | none => trivial
      | some ip => exact ((plain_connectEnvoy pid ip).mono fun _ h => h.aside.offCalls).bind fun _ => trivial
  exact hstart.caught_bind (fun s _ h => h) fun s h => h

end Programs
end PrivatePaas
