import PrivatePaas.Conduct.Calls
import PrivatePaas.Host.Content
import PrivatePaas.Registry.Fragments
import PrivatePaas.Registry.Frame
import PrivatePaas.Results.Sample

/-!
# At most one Envoy

The pid file is read, and later an Envoy is started and its pid written, without a lock.
Calls of `StartEnvoy` and `StopEnvoy` leave at most one Envoy behind, the one in the pid
file, as long as none of them reads the pid file while another one is still about to start
an Envoy on what it has read before, and what keeps track of an Envoy does not fail.
-/

namespace PrivatePaas
set_option autoImplicit false
open Files Text Effects Network PrivatePaas.Parser

variable {Y : Yaml} {G : GoIpam} {ι : Type}

/-- An Envoy that has not been sent SIGTERM. -/
def World.Serves (w : World) (q : Proc) : Prop := q ∈ w.procs ∧ q.role = .envoy ∧ q.termed = false

/-- There is at most one such Envoy, and its pid is in the pid file. -/
def World.Sole (w : World) : Prop :=
  (∀ p q, w.Serves p → w.Serves q → p = q) ∧
    ∀ q, w.Serves q → w.fs.content envoyPidFile = some (itoa q.pid)

/-- The operations by which a call learns of the Envoy that runs, and ends it. -/
def Op.Tracks : Op → Prop
  | .proc (.signal0 _) => True
  | .proc (.kill _ .sigterm) => True
  | o => o.Looks

/-- `alone`: the pid file is not read while another call may still start an Envoy or write
a pid on what it has read before, and by a call that may start one not while another call
may still change anything. The other three are about failures while an Envoy serves: a
call that may start one finds it and ends it, its pid is written, and the call that has
started it comes to the writing. -/
structure OneAtATime (m : Machine (Host Y G) ι) (e : Event (Host Y G) ι) : Prop where
  alone : ∀ i c loc k, m.Performs e i c loc (.fs (.readFile envoyPidFile)) k →
    ∀ i' j, i' ≠ i → m.jobs i' = some j →
      ¬ Starting j.prog ∧ ((∃ r, Starting (k r)) → ¬ Engaged j.prog)
  tracked : ∀ i c loc o k, m.Performs e i c loc o k → o.Tracks → (∃ r, Starting (k r)) →
    c.fault ≠ none → ∀ q, ¬ World.Serves m.world q
  recorded : ∀ i c loc data k, m.Performs e i c loc (.fs (.writeFile envoyPidFile data)) k →
    (perform Y G c loc m.world (.fs (.writeFile envoyPidFile data))).1 = false →
    ∀ q, ¬ World.Serves m.world q
  finished : ∀ i j pid, m.Ends e i j → j.loc.envoy = .born pid → ∀ q, ¬ World.Serves m.world q

/-- What is launched is a call of `StartEnvoy` or `StopEnvoy`. -/
def CallsOnly : Event (Host Y G) ι → Prop
  | .launch _ x => Launch.task x = .startEnvoy ∨ Launch.task x = .stopEnvoy
  | _ => True

section Operations
variable {c : Choice} {l : Local} {w w' : World} {o : Op}

theorem OffCalls.remnant {n : Nat} {o' : Op} (h : OffCalls o) (hr : o.remnant n = some o') :
    OffCalls o' := by
  cases o with
  | fs o =>
    cases o with
    | remove p => exact absurd rfl (h.2 p)
    | writeFile p data =>
      cases hr
      exact ⟨h.1, nofun⟩
    | write p data =>
      cases hr
      exact ⟨h.1, nofun⟩
    | append p data =>
      cases hr
      exact ⟨h.1, nofun⟩
    | _ =>
      cases hr
      exact h
  | proc o => cases hr
  | _ =>
    cases hr
    exact h

theorem OffCalls.writes {o : FsOp} (h : OffCalls (.fs o)) {p : Path} (hp : o.Writes p) :
    ∃ n, Named p n ∧ "envoy-paas.pid" ≠ n := by
  have hoff := h.1
  cases o with
  | writeFile p' data =>
    obtain rfl : p = p' := hp
    exact Or.elim hoff Harmless.named YamlFile.named
  | create p' =>
    obtain rfl : p = p' := hp
    exact YamlFile.named hoff
  | write p' data =>
    obtain rfl : p = p' := hp
    exact YamlFile.named hoff
  | openAppend p' =>
    obtain rfl : p = p' := hp
    exact Harmless.named hoff
  | append p' data =>
    obtain rfl : p = p' := hp
    exact Harmless.named hoff
  | initdb bin dir => exact FsOp.named_of_initdb hp (by decide)
  | _ => exact absurd hp id

/-- The pid file stays what it was. -/
theorem OffCalls.pidFile (h : OffCalls o) :
    (perform Y G c l w o).2.2.fs.content envoyPidFile = w.fs.content envoyPidFile := by
  have hact : ∀ {o : Op}, OffCalls o →
      (act G c l w o).2.2.fs.content envoyPidFile = w.fs.content envoyPidFile := by
    intro o h
    by_cases ho : o.IsFs
    · cases o with
      | fs o =>
        rcases @FsOp.perform_content c w.cwd w.fs _ _ o pidFile_named
          fun p hp => h.writes hp with hc | ⟨p, rfl, _⟩
        · exact hc
        · exact absurd rfl (h.2 p)
      | _ => exact absurd ho id
    · rw [act_fs ho]
  exact attempt_elim (P := fun x => x.2.2.fs.content envoyPidFile = w.fs.content envoyPidFile)
    (hact h) rfl fun _ _ hr => hact (h.remnant hr)

/-- Envoys come only with a start, which answers with their pid. -/
theorem serves_perform {q : Proc} (hq : (perform Y G c l w o).2.2.Serves q) :
    w.Serves q ∨ ∃ cmd, o = .proc (.start cmd) ∧ cmd.isWorkload = false ∧
      1 < q.pid ∧ q.pid < pidMax ∧
      ∀ cmd', (perform Y G c l w (.proc (.start cmd'))).1 = some q.pid := by
  by_cases ho : o.IsProc
  · cases o with
    | proc o =>
      have hp : ∀ o : ProcOp, (perform Y G c l w (.proc o)).2.2.procs =
          (attempt G c l w (.proc o)).2.2.procs := fun _ => rfl
      obtain ⟨hq, hrole, hterm⟩ := hq
      rw [hp] at hq
      by_cases hf : c.fault = none
      · rw [attempt_ok hf] at hq
        cases o with
        | start cmd =>
          change q ∈ (w.start l c cmd).2.procs at hq
          by_cases hx : w.procs.Free c.pid ∧ 1 < c.pid ∧ c.pid < pidMax
          · have hs : ∀ cmd', w.start l c cmd' = (some c.pid, { w with
                procs := w.procs.add (l.started cmd' c.pid) hx.1
                net := w.net.addNamespace c.pid }) := fun _ => dif_pos hx
            rw [hs] at hq
            rcases (Procs.mem_add (h := hx.1)).mp hq with rfl | hq
            · right
              refine ⟨cmd, rfl, ?_, hx.2.1, hx.2.2, fun cmd' => ?_⟩
              · by_contra hc
                rw [Bool.not_eq_false] at hc
                rw [Local.started, if_pos hc] at hrole
                cases hrole
              · have hr : (perform Y G c l w (.proc (.start cmd'))).1 =
                    (attempt G c l w (.proc (.start cmd'))).1 := rfl
                rw [hr, attempt_ok hf]
                exact congrArg Prod.fst (hs cmd')
            · exact .inl ⟨hq, hrole, hterm⟩
          · have hs : w.start l c cmd = (none, w) := dif_neg hx
            rw [hs] at hq
            exact .inl ⟨hq, hrole, hterm⟩
        | kill n sg =>
          left
          cases sg with
          | sigkill => exact ⟨(Procs.mem_keep.mp hq).1, hrole, hterm⟩
          | sigterm => exact ⟨(Procs.mem_of_term hq hterm).1, hrole, hterm⟩
        | _ => exact .inl ⟨hq, hrole, hterm⟩
      · rw [attempt_proc hf] at hq
        exact .inl ⟨hq, hrole, hterm⟩
    | _ => exact absurd ho id
  · left
    obtain ⟨hq, hrest⟩ := hq
    rw [perform_procs ho] at hq
    exact ⟨hq, hrest⟩

/-- A signal that is not refused has reached whom it names. -/
theorem serves_sigterm {n : Int} {q : Proc}
    (hr : (perform Y G c l w (.proc (.kill n .sigterm))).1 ≠ some .eperm)
    (hq : (perform Y G c l w (.proc (.kill n .sigterm))).2.2.Serves q) (hpid : q.pid < pidMax)
    (h0 : 0 < q.pid) : (q.pid : Int) ≠ n := by
  have hp : ∀ o : ProcOp, (perform Y G c l w (.proc o)).1 = (attempt G c l w (.proc o)).1 ∧
      (perform Y G c l w (.proc o)).2.2.procs = (attempt G c l w (.proc o)).2.2.procs := fun _ => ⟨rfl, rfl⟩
  obtain ⟨hq, _, hterm⟩ := hq
  rw [(hp _).1] at hr
  rw [(hp _).2] at hq
  by_cases hf : c.fault = none
  · rw [attempt_ok hf] at hq
    rintro rfl
    have haims := (Procs.mem_of_term hq hterm).2
    have hlt : q.pid < 2 ^ 31 := by
      unfold pidMax at hpid
      omega
    rw [Local.aims, pidArg_natCast hlt] at haims
    have hn := @Procs.named_of_pos _ l.pid l.pgid q (Int.natCast_pos.mpr h0)
    rw [hn.mpr rfl] at haims
    cases haims
  · rw [attempt_proc hf] at hr
    exact absurd rfl hr

theorem signal0_false {n : Int} {q : Proc} (hf : c.fault = none)
    (hr : (perform Y G c l w (.proc (.signal0 n))).1 = false) (hq : q ∈ w.procs)
    (hpid : q.pid < pidMax) (h0 : 0 < q.pid) : (q.pid : Int) ≠ n := by
  have hp : (perform Y G c l w (.proc (.signal0 n))).1 = (attempt G c l w (.proc (.signal0 n))).1 := rfl
  rw [hp, attempt_ok hf] at hr
  rintro rfl
  have hlt : q.pid < 2 ^ 31 := by
    unfold pidMax at hpid
    omega
  refine of_decide_eq_false hr ⟨q, hq, ?_⟩
  rw [Local.aims, pidArg_natCast hlt]
  exact (Procs.named_of_pos (Int.natCast_pos.mpr h0)).mpr rfl

theorem readFile_content {data : String} (hf : c.fault = none) (hc : w.fs.content envoyPidFile = some data) :
    (perform Y G c l w (.fs (.readFile envoyPidFile))).1 = .ok data := by
  have hp : (perform Y G c l w (.fs (.readFile envoyPidFile))).1 =
      (attempt G c l w (.fs (.readFile envoyPidFile))).1 := rfl
  rw [hp, attempt_ok hf]
  exact Tree.read_of_content hc

theorem writeFile_content {data : String}
    (hr : (perform Y G c l w (.fs (.writeFile envoyPidFile data))).1 = true) :
    (perform Y G c l w (.fs (.writeFile envoyPidFile data))).2.2.fs.content envoyPidFile = some data := by
  have hp : (perform Y G c l w (.fs (.writeFile envoyPidFile data))).1 =
      (attempt G c l w (.fs (.writeFile envoyPidFile data))).1 ∧
      (perform Y G c l w (.fs (.writeFile envoyPidFile data))).2.2.fs =
        (attempt G c l w (.fs (.writeFile envoyPidFile data))).2.2.fs := ⟨rfl, rfl⟩
  rw [hp.1] at hr
  rw [hp.2]
  cases hf : c.fault with
  | none =>
    rw [attempt_ok hf] at hr ⊢
    change (FsOp.store w.fs envoyPidFile fun _ => data).1 = true at hr
    change (FsOp.store w.fs envoyPidFile fun _ => data).2.content envoyPidFile = some data
    unfold FsOp.store at hr ⊢
    cases hu : w.fs.update envoyPidFile fun _ => data with
    | none =>
      rw [hu] at hr
      cases hr
    | some t =>
      obtain ⟨q, hw, _, _, hc, _⟩ := Tree.update_spec hu
      obtain rfl := eq_of_walk_root (by decide) hw
      exact (hc _).trans (if_pos rfl)
  | some n =>
    cases n with
    | zero =>
      rw [attempt_zero hf] at hr
      cases hr
    | succ n =>
      rw [attempt_succ hf] at hr
      cases hr

theorem kill_refused {n : Int} (hr : (perform Y G c l w (.proc (.kill n .sigterm))).1 = some .eperm) :
    c.fault ≠ none := by
  intro hf
  have hp : (perform Y G c l w (.proc (.kill n .sigterm))).1 =
      (attempt G c l w (.proc (.kill n .sigterm))).1 := rfl
  rw [hp, attempt_ok hf] at hr
  change (if ∃ p ∈ w.procs.all, l.aims n p = true then none else some Errno.esrch) = _ at hr
  split at hr <;> cases hr

theorem pidFile_of_not_fs (ho : ¬ o.IsFs) :
    (perform Y G c l w o).2.2.fs.content envoyPidFile = w.fs.content envoyPidFile := by
  rw [perform_fs ho]

theorem World.Sole.fewer (h : w.Sole) (hs : ∀ q, w'.Serves q → w.Serves q)
    (hc : w'.fs.content envoyPidFile = w.fs.content envoyPidFile) : w'.Sole :=
  ⟨fun p q hp hq => h.1 p q (hs p hp) (hs q hq), fun q hq => hc ▸ h.2 q (hs q hq)⟩

theorem sole_of_none (h : ∀ q, ¬ w.Serves q) : w.Sole :=
  ⟨fun p _ hp => absurd hp (h p), fun q hq => absurd hq (h q)⟩

end Operations

/-- What a call may rely on where it stands. -/
def CallStage.Holds (s : CallStage) (w : World) : Prop :=
  match s with
  | out => True
  | seen n => ∀ q, w.Serves q → (q.pid : Int) = n
  | clear => ∀ q, ¬ w.Serves q
  | born pid => ∀ q, w.Serves q → q.pid = pid

section Stages
variable {w w' : World} {s : CallStage} {starts : Bool}

theorem CallStage.Holds.fewer (h : s.Holds w) (hs : ∀ q, w'.Serves q → w.Serves q) : s.Holds w' := by
  cases s with
  | out => trivial
  | seen n => exact fun q hq => h q (hs q hq)
  | clear => exact fun q hq => h q (hs q hq)
  | born pid => exact fun q hq => h q (hs q hq)

theorem holds_of_none (h : ∀ q, ¬ w.Serves q) : s.Holds w := by
  cases s with
  | out => trivial
  | seen n => exact fun q hq => absurd hq (h q)
  | clear => exact h
  | born pid => exact fun q hq => absurd hq (h q)

theorem onward_holds (h : starts = true → ∀ q, ¬ w.Serves q) : (CallStage.onward starts).Holds w := by
  cases starts with
  | true => exact h rfl
  | false => trivial

theorem onward_ne_born (pid : Nat) : CallStage.onward starts ≠ .born pid := by
  cases starts <;> exact nofun

theorem afterLook_ne_born {r : Except Err String} (pid : Nat) : CallStage.afterLook starts r ≠ .born pid := by
  unfold CallStage.afterLook
  split
  · exact onward_ne_born pid
  · split
    · exact onward_ne_born pid
    · split
      · exact onward_ne_born pid
      · exact nofun

theorem afterLook_itoa {pid : Nat} (h0 : 0 < pid) (hmax : pid < pidMax) :
    CallStage.afterLook starts (.ok (itoa pid)) = .seen pid := by
  have hle : pid ≤ maxInt := by
    unfold pidMax at hmax
    unfold maxInt
    omega
  unfold CallStage.afterLook
  simp only [trimSpace_itoa, atoi_itoa hle]
  rw [if_neg (by omega)]

/-- Job `j` is a call that stands at `s`. -/
structure Stands (w : World) (starts : Bool) (s : CallStage) (j : Job (Host Y G)) : Prop where
  obeys : (calls starts).Obeys s j.prog.caught fun s _ => s = .out
  holds : s.Holds w
  born : ∀ pid, s = .born pid ↔ j.loc.envoy = .born pid
  starter : ∀ pid, s = .born pid → starts = true

variable {j : Job (Host Y G)}

theorem Stands.fewer (h : Stands w starts s j) (hs : ∀ q, w'.Serves q → w.Serves q) : Stands w' starts s j :=
  { h with holds := h.holds.fewer hs }

theorem Stands.out_of_idle (h : Stands w starts s j) (hj : ¬ Engaged j.prog) : s = .out := by
  by_contra hs
  exact hj (engaged_of_obeys h.obeys hs)

/-- A call that has started an Envoy still has to write its pid. -/
theorem Stands.starting (h : Stands w starts s j) {pid : Nat} (hb : j.loc.envoy = .born pid) :
    Starting j.prog := by
  have hs := (h.born pid).mpr hb
  have hobeys := h.obeys
  rw [h.starter pid hs] at hobeys
  refine starting_of_obeys hobeys ?_
  rw [hs]
  exact nofun

end Stages

section Runs
variable {m : Machine (Host Y G) ι} {e : Event (Host Y G) ι}

/-- The invariant: every call may rely on what it has read, and unless one has just started
an Envoy, the pid file is right. -/
structure Overseen (m : Machine (Host Y G) ι) : Prop where
  range : ∀ q, World.Serves m.world q → 1 < q.pid ∧ q.pid < pidMax
  jobs : ∀ i j, m.jobs i = some j → ∃ starts s, Stands m.world starts s j
  lone : ∀ i j i' j', i ≠ i' → m.jobs i = some j → m.jobs i' = some j' → Starting j.prog →
    ¬ Engaged j'.prog
  sole : (∀ i j pid, m.jobs i = some j → j.loc.envoy ≠ .born pid) → World.Sole m.world

variable [DecidableEq ι]

/-- A job that goes on, where what the others rely on stays. -/
theorem Overseen.put (h : Overseen m) {i : ι} {w : World} {j : Job (Host Y G)} {b : Bool}
    {s : CallStage} (range : ∀ q, w.Serves q → 1 < q.pid ∧ q.pid < pidMax)
    (others : ∀ i' j' b s', i ≠ i' → m.jobs i' = some j' → Stands m.world b s' j' → Stands w b s' j')
    (stands : Stands w b s j)
    (lone : ∀ i' j', i ≠ i' → m.jobs i' = some j' →
      (Starting j.prog → ¬ Engaged j'.prog) ∧ (Starting j'.prog → ¬ Engaged j.prog))
    (sole : (∀ pid, j.loc.envoy ≠ .born pid) →
      (∀ i' j' pid, i ≠ i' → m.jobs i' = some j' → j'.loc.envoy ≠ .born pid) → w.Sole) :
    Overseen (⟨w, Function.update m.jobs i (some j)⟩ : Machine (Host Y G) ι) := by
  refine ⟨range, fun i' j' hj' => ?_, fun i₁ j₁ i₂ j₂ hne hj₁ hj₂ => ?_, fun hb => ?_⟩
  · rcases Machine.jobs_put hj' with ⟨_, rfl⟩ | ⟨hne, hj'⟩
    · exact ⟨b, s, stands⟩
    · obtain ⟨b, s', hs⟩ := h.jobs i' j' hj'
      exact ⟨b, s', others i' j' b s' hne.symm hj' hs⟩
  · rcases Machine.jobs_put hj₁ with ⟨rfl, rfl⟩ | ⟨hne₁, hold₁⟩
    · rcases Machine.jobs_put hj₂ with ⟨rfl, rfl⟩ | ⟨_, hold₂⟩
      · exact absurd rfl hne
      · exact (lone i₂ j₂ hne hold₂).1
    · rcases Machine.jobs_put hj₂ with ⟨rfl, rfl⟩ | ⟨_, hold₂⟩
      · exact (lone i₁ j₁ hne₁.symm hold₁).2
      · exact h.lone i₁ j₁ i₂ j₂ hne hold₁ hold₂
  · refine sole (fun pid => hb i j pid (Function.update_self ..)) fun i' j' pid hne hj' => ?_
    exact hb i' j' pid ((Function.update_of_ne (Ne.symm hne) ..).trans hj')

/-- A job that is over. -/
theorem Overseen.clear (h : Overseen m) (hc : OneAtATime m e) {i : ι} {j : Job (Host Y G)} {w : World}
    (he : m.Ends e i j) (hs : ∀ q, w.Serves q → World.Serves m.world q)
    (hfs : w.fs = World.fs m.world) :
    Overseen (⟨w, Function.update m.jobs i none⟩ : Machine (Host Y G) ι) := by
  have left : ∀ {i' j'}, Function.update m.jobs i none i' = some j' → m.jobs i' = some j' := by
    intro i' j' hj'
    by_cases hi : i' = i
    · subst i'
      exact absurd ((Function.update_self ..).symm.trans hj') nofun
    · exact (Function.update_of_ne hi ..).symm.trans hj'
  refine ⟨fun q hq => h.range q (hs q hq), fun i' j' hj' => ?_, fun i₁ j₁ i₂ j₂ hne hj₁ hj₂ => ?_, fun hb => ?_⟩
  · obtain ⟨b, s, hst⟩ := h.jobs i' j' (left hj')
    exact ⟨b, s, hst.fewer hs⟩
  · exact h.lone i₁ j₁ i₂ j₂ hne (left hj₁) (left hj₂)
  · by_cases hborn : ∃ pid, j.loc.envoy = .born pid
    · obtain ⟨pid, hborn⟩ := hborn
      exact sole_of_none fun q hq => hc.finished i j pid he hborn q (hs q hq)
    · refine (h.sole fun i' j' pid hj' hb' => ?_).fewer hs (by rw [hfs])
      by_cases hi : i' = i
      · subst i'
        obtain ⟨_, _, hj, _⟩ := he
        obtain rfl : j' = j := Option.some.inj (hj'.symm.trans hj)
        exact hborn ⟨pid, hb'⟩
      · exact hb i' j' pid ((Function.update_of_ne hi ..).trans hj') hb'

section Acts
variable {i : ι} {c : Choice} {loc : Local} {o : Op} {k : o.Ret → Go Unit} {starts : Bool} {s : CallStage}

omit [DecidableEq ι] in
/-- What an operation other than a look leads to was ahead before. -/
theorem Overseen.lone_act (h : Overseen m) (hp : m.Performs e i c loc o k) (ho : ¬ o.Looks) (r : o.Ret)
    {i' : ι} {j' : Job (Host Y G)} (hne : i ≠ i') (hj' : m.jobs i' = some j') :
    (Starting (k r) → ¬ Engaged j'.prog) ∧ (Starting j'.prog → ¬ Engaged (k r)) := by
  refine ⟨fun hs => ?_, fun hs he => ?_⟩
  · exact h.lone i _ i' j' hne hp.2.1 hj' (Starting.before ho hs)
  · exact h.lone i' j' i _ hne.symm hj' hp.2.1 hs (Engaged.before ho he)

/-- An operation after which no other Envoy serves and the pid file is what it was. -/
theorem Overseen.keep {b : Bool} (h : Overseen m) (hp : m.Performs e i c loc o k) (ho : ¬ o.Looks)
    (hstart : ∀ cmd, o = .proc (.start cmd) → cmd.isWorkload = true)
    (hfile : (perform Y G c loc m.world o).2.2.fs.content envoyPidFile =
      (World.fs m.world).content envoyPidFile)
    (hborn : ∀ pid, loc.envoy = .born pid → (perform Y G c loc m.world o).2.1.envoy = .born pid)
    (hst : Stands (Y := Y) (G := G) (perform Y G c loc m.world o).2.2 b s
      ⟨(perform Y G c loc m.world o).2.1, k (perform Y G c loc m.world o).1⟩) :
    Overseen (m.apply e) := by
  have hserves : ∀ q, (perform Y G c loc m.world o).2.2.Serves q → World.Serves m.world q := by
    intro q hq
    rcases serves_perform hq with hq | ⟨cmd, rfl, hc, _⟩
    · exact hq
    · exact absurd (hc.symm.trans (hstart cmd rfl)) nofun
  rw [apply_performs hp]
  refine h.put (fun q hq => h.range q (hserves q hq)) (fun _ _ _ _ _ _ hs => hs.fewer hserves) hst
    (fun i' j' hne hj' => h.lone_act hp ho _ hne hj') fun hb hothers => ?_
  refine (h.sole fun i' j' pid hj' hb' => ?_).fewer hserves hfile
  by_cases hi : i = i'
  · subst i'
    obtain rfl := Option.some.inj (hp.2.1.symm.trans hj')
    exact hb pid (hborn pid hb')
  · exact hothers i' j' pid hi hj' hb'

/-- The pid file is read. -/
theorem Overseen.look (h : Overseen m) (hc : OneAtATime m e)
    {k : Except Err String → Go Unit} (hp : m.Performs e i c loc (.fs (.readFile envoyPidFile)) k)
    (hst : Stands m.world starts .out (⟨loc, .call (.fs (.readFile envoyPidFile)) k⟩ : Job (Host Y G))) :
    Overseen (m.apply e) := by
  have alone := hc.alone i c loc k hp
  have unborn : ∀ i' j' pid, m.jobs i' = some j' → j'.loc.envoy ≠ .born pid := by
    intro i' j' pid hj' hb
    by_cases hi : i' = i
    · subst i'
      obtain rfl := Option.some.inj (hp.2.1.symm.trans hj')
      exact absurd ((hst.born pid).mpr hb) nofun
    · obtain ⟨b, s', hs'⟩ := h.jobs i' j' hj'
      exact (alone i' j' hi hj').1 (hs'.starting hb)
  have hsole := h.sole unborn
  have hw : (perform Y G c loc m.world (.fs (.readFile envoyPidFile))).2.2.procs = World.procs m.world ∧
      (perform Y G c loc m.world (.fs (.readFile envoyPidFile))).2.2.fs = World.fs m.world := by
    refine ⟨perform_procs id, ?_⟩
    refine attempt_elim (P := fun x => x.2.2.fs = World.fs m.world) rfl rfl fun n o' hr => ?_
    cases hr
    rfl
  have hserves : ∀ q, (perform Y G c loc m.world (.fs (.readFile envoyPidFile))).2.2.Serves q →
      World.Serves m.world q := fun q hq => ⟨hw.1 ▸ hq.1, hq.2⟩
  rw [apply_performs hp]
  have hobeys := hst.obeys.2 (perform Y G c loc m.world (.fs (.readFile envoyPidFile))).1
  have hstage : (perform Y G c loc m.world (.fs (.readFile envoyPidFile))).2.1.envoy =
      envoy.next loc.envoy (.fs (.readFile envoyPidFile))
        (perform Y G c loc m.world (.fs (.readFile envoyPidFile))).1 := rfl
  have hread : ∀ q, World.Serves m.world q → c.fault = none →
      (perform Y G c loc m.world (.fs (.readFile envoyPidFile))).1 = .ok (itoa q.pid) :=
    fun q hq hf => readFile_content hf (hsole.2 q hq)
  have hok : ∀ data, (perform Y G c loc m.world (.fs (.readFile envoyPidFile))).1 = .ok data →
      (World.fs m.world).content envoyPidFile = some data :=
    fun data hr => Tree.content_of_read (by decide) (@perform_readFile Y G c loc m.world _ data hr)
  have htracked := hc.tracked i c loc (.fs (.readFile envoyPidFile)) k hp rfl
  generalize (perform Y G c loc m.world (.fs (.readFile envoyPidFile))).1 = r at *
  have hunborn : ∀ pid, (perform Y G c loc m.world (.fs (.readFile envoyPidFile))).2.1.envoy ≠ .born pid := by
    intro pid
    rw [hstage]
    cases r <;> exact nofun
  refine h.put (s := .afterLook starts r) (fun q hq => h.range q (hserves q hq))
    (fun _ _ _ _ _ _ hs => hs.fewer hserves)
    ⟨hobeys, ?_, fun pid => ⟨fun hs => absurd hs (afterLook_ne_born pid), fun hb => absurd hb (hunborn pid)⟩,
      fun pid hs => absurd hs (afterLook_ne_born pid)⟩
    (fun i' j' hne hj' => ?_) fun _ _ => hsole.fewer hserves (by rw [hw.2])
  · refine CallStage.Holds.fewer (w := m.world) ?_ hserves
    by_cases hq : ∃ q, World.Serves m.world q
    · obtain ⟨q, hq⟩ := hq
      obtain ⟨hlo, hhi⟩ := h.range q hq
      cases r with
      | ok data =>
        obtain rfl := Option.some.inj ((hok data rfl).symm.trans (hsole.2 q hq))
        rw [afterLook_itoa (by omega) hhi]
        intro q' hq'
        rw [hsole.1 q' q hq' hq]
      | error err =>
        refine onward_holds fun hb => ?_
        subst hb
        refine htracked ⟨.error err, starting_of_obeys hobeys nofun⟩ fun hf => ?_
        exact absurd (hread q hq hf) nofun
    · exact holds_of_none fun q hq' => hq ⟨q, hq'⟩
  · obtain ⟨h1, h2⟩ := alone i' j' hne.symm hj'
    exact ⟨fun hs => h2 ⟨r, hs⟩, fun hs => absurd hs h1⟩

/-- The pid that was read is probed. -/
theorem Overseen.probe (h : Overseen m) (hc : OneAtATime m e) {n : Int} {k : Bool → Go Unit}
    (hp : m.Performs e i c loc (.proc (.signal0 n)) k)
    (hst : Stands m.world starts s (⟨loc, .call (.proc (.signal0 n)) k⟩ : Job (Host Y G))) :
    Overseen (m.apply e) := by
  obtain ⟨hborn, hseen⟩ := hst.obeys.1
  have hobeys := hst.obeys.2 (perform Y G c loc m.world (.proc (.signal0 n))).1
  have hprocs : (perform Y G c loc m.world (.proc (.signal0 n))).2.2.procs = World.procs m.world := by
    refine attempt_elim (P := fun x => x.2.2.procs = World.procs m.world) rfl rfl fun n o' hr => ?_
    cases hr
  have hserves : ∀ q, (perform Y G c loc m.world (.proc (.signal0 n))).2.2.Serves q →
      World.Serves m.world q := fun q hq => ⟨hprocs ▸ hq.1, hq.2⟩
  have hstage : (perform Y G c loc m.world (.proc (.signal0 n))).2.1.envoy =
      if (perform Y G c loc m.world (.proc (.signal0 n))).1 = true then .alive n else .quiet := rfl
  have htracked := hc.tracked i c loc (.proc (.signal0 n)) k hp trivial
  have hfalse := fun hf hr q hq => @signal0_false Y G c loc m.world n q hf hr hq
  have hunborn : ∀ pid, (perform Y G c loc m.world (.proc (.signal0 n))).2.1.envoy ≠ .born pid := by
    intro pid
    rw [hstage]
    split <;> exact nofun
  refine h.keep hp id nofun (@pidFile_of_not_fs Y G c loc m.world (.proc (.signal0 n)) id)
    (fun pid hb => absurd ((hst.born pid).mpr hb) (hborn pid))
    (b := starts) (s := (calls starts).next s (.proc (.signal0 n))
      (perform Y G c loc m.world (.proc (.signal0 n))).1) ?_
  generalize (perform Y G c loc m.world (.proc (.signal0 n))).1 = r at *
  have hnext : (calls starts).next s (.proc (.signal0 n)) r = s ∨
      r = false ∧ s = .seen n ∧ (calls starts).next s (.proc (.signal0 n)) r = .onward starts := by
    cases s with
    | seen m' =>
      obtain rfl := hseen m' rfl
      cases r with
      | true => exact .inl rfl
      | false => exact .inr ⟨rfl, rfl, rfl⟩
    | _ => exact .inl rfl
  have hne : ∀ pid, (calls starts).next s (.proc (.signal0 n)) r ≠ .born pid := by
    intro pid
    rcases hnext with hn | ⟨_, _, hn⟩
    · rw [hn]
      exact hborn pid
    · rw [hn]
      exact onward_ne_born pid
  refine ⟨hobeys, ?_, fun pid => ⟨fun hs => absurd hs (hne pid), fun hb => absurd hb (hunborn pid)⟩,
    fun pid hs => absurd hs (hne pid)⟩
  refine CallStage.Holds.fewer (w := m.world) ?_ hserves
  rcases hnext with hn | ⟨rfl, rfl, hn⟩
  · rw [hn]
    exact hst.holds
  · rw [hn] at hobeys ⊢
    refine onward_holds fun hb q hq => ?_
    subst hb
    by_cases hf : c.fault = none
    · obtain ⟨hlo, hhi⟩ := h.range q hq
      exact hfalse hf rfl q hq.1 hhi (by omega) (hst.holds q hq)
    · exact htracked ⟨false, starting_of_obeys hobeys nofun⟩ hf q hq

/-- The pid that was read is sent SIGTERM. -/
theorem Overseen.term (h : Overseen m) (hc : OneAtATime m e) {n : Int} {k : Option Errno → Go Unit}
    (hp : m.Performs e i c loc (.proc (.kill n .sigterm)) k)
    (hst : Stands m.world starts s (⟨loc, .call (.proc (.kill n .sigterm)) k⟩ : Job (Host Y G))) :
    Overseen (m.apply e) := by
  obtain rfl : s = .seen n := hst.obeys.1
  have hobeys := hst.obeys.2 (perform Y G c loc m.world (.proc (.kill n .sigterm))).1
  have hserves : ∀ q, (perform Y G c loc m.world (.proc (.kill n .sigterm))).2.2.Serves q →
      World.Serves m.world q := by
    intro q hq
    rcases serves_perform hq with hq | ⟨cmd, hcmd, _⟩
    · exact hq
    · cases hcmd
  have htracked := hc.tracked i c loc (.proc (.kill n .sigterm)) k hp trivial
  have hrefused := fun hr => @kill_refused Y G c loc m.world n hr
  have hreached := fun hr q hq => @serves_sigterm Y G c loc m.world n q hr hq
  have hstage : (perform Y G c loc m.world (.proc (.kill n .sigterm))).2.1.envoy = .quiet := rfl
  have hnext : ∀ r : Option Errno, (r = some .eperm ∧
      (calls starts).next (.seen n) (.proc (.kill n .sigterm)) r = .onward starts) ∨
      r ≠ some .eperm ∧ (calls starts).next (.seen n) (.proc (.kill n .sigterm)) r = .clear := by
    intro r
    by_cases hr : r = some .eperm
    · exact .inl ⟨hr, if_pos hr⟩
    · exact .inr ⟨hr, if_neg hr⟩
  have hne : ∀ (r : Option Errno) pid, (calls starts).next (.seen n) (.proc (.kill n .sigterm)) r ≠ .born pid := by
    intro r pid
    rcases hnext r with ⟨_, hn⟩ | ⟨_, hn⟩ <;> rw [hn]
    · exact onward_ne_born pid
    · exact nofun
  refine h.keep hp id nofun (@pidFile_of_not_fs Y G c loc m.world (.proc (.kill n .sigterm)) id)
    (fun pid hb => absurd ((hst.born pid).mpr hb) nofun) (b := starts)
    ⟨hobeys, ?_, fun pid => ⟨fun hs => absurd hs (hne _ pid), fun hb => ?_⟩, fun pid hs => absurd hs (hne _ pid)⟩
  · rcases hnext (perform Y G c loc m.world (.proc (.kill n .sigterm))).1 with ⟨hr, hn⟩ | ⟨hr, hn⟩
    · rw [hn] at hobeys ⊢
      refine CallStage.Holds.fewer (w := m.world) (onward_holds fun hb => ?_) hserves
      subst hb
      exact htracked ⟨_, starting_of_obeys hobeys nofun⟩ (hrefused hr)
    · rw [hn]
      intro q hq
      obtain ⟨hlo, hhi⟩ := h.range q (hserves q hq)
      exact hreached hr q hq hhi (by omega) (hst.holds q (hserves q hq))
  · rw [hstage] at hb
    cases hb

/-- An Envoy is started. -/
theorem Overseen.start (h : Overseen m) {cmd : Command} (hcmd : cmd.isWorkload = false)
    {k : Option Nat → Go Unit} (hp : m.Performs e i c loc (.proc (.start cmd)) k)
    (hst : Stands m.world starts s (⟨loc, .call (.proc (.start cmd)) k⟩ : Job (Host Y G))) :
    Overseen (m.apply e) := by
  obtain ⟨rfl, rfl⟩ := hst.obeys.1 hcmd
  have hnone : ∀ q, ¬ World.Serves m.world q := hst.holds
  have hobeys := hst.obeys.2 (perform Y G c loc m.world (.proc (.start cmd))).1
  have hserves : ∀ q, (perform Y G c loc m.world (.proc (.start cmd))).2.2.Serves q →
      (1 < q.pid ∧ q.pid < pidMax) ∧ (perform Y G c loc m.world (.proc (.start cmd))).1 = some q.pid := by
    intro q hq
    rcases serves_perform hq with hq | ⟨_, _, _, hlo, hhi, hr⟩
    · exact absurd hq (hnone q)
    · exact ⟨⟨hlo, hhi⟩, hr cmd⟩
  have idle : ∀ i' j', i ≠ i' → m.jobs i' = some j' → ¬ Engaged j'.prog := fun i' j' hne hj' =>
    h.lone i _ i' j' hne hp.2.1 hj' (Or.inl hcmd : Starting (.call (.proc (.start cmd)) k))
  have hnext : ∀ r : Option Nat, (calls true).next .clear (.proc (.start cmd)) r =
      r.elim .out .born := by
    intro r
    cases r <;> exact if_neg (Bool.eq_false_iff.mp hcmd)
  have hborn : ∀ r : Option Nat, envoy.next loc.envoy (.proc (.start cmd)) r = r.elim .quiet .born := by
    intro r
    cases r <;> exact if_neg (Bool.eq_false_iff.mp hcmd)
  have hstage : (perform Y G c loc m.world (.proc (.start cmd))).2.1.envoy =
      Option.elim (perform Y G c loc m.world (.proc (.start cmd))).1 .quiet .born := hborn _
  rw [hnext] at hobeys
  rw [apply_performs hp]
  generalize hr : (perform Y G c loc m.world (.proc (.start cmd))).1 = r at *
  refine h.put (b := true) (s := Option.elim r .out .born)
    (fun q hq => (hserves q hq).1) (fun i' j' b s' hne hj' hs => ?_)
    ⟨hobeys, ?_, fun pid => ?_, fun _ _ => rfl⟩ (fun i' j' hne hj' => ?_) fun hb _ => ?_
  · refine { hs with holds := ?_ }
    rw [hs.out_of_idle (idle i' j' hne hj')]
    trivial
  · cases r with
    | none => trivial
    | some pid => exact fun q hq => Option.some.inj (hserves q hq).2.symm
  · rw [hstage]
    cases r with
    | none => exact ⟨nofun, nofun⟩
    | some pid' => exact ⟨fun hs => congrArg _ (CallStage.born.inj hs), fun hs => congrArg _ (EnvoyStage.born.inj hs)⟩
  · exact ⟨fun _ => idle i' j' hne hj', fun hs => absurd hs.engaged (idle i' j' hne hj')⟩
  · cases r with
    | none => exact sole_of_none fun q hq => absurd (hserves q hq).2 nofun
    | some pid => exact absurd hstage (hb pid)

/-- The pid of the Envoy that was started is written. -/
theorem Overseen.record (h : Overseen m) (hc : OneAtATime m e) {pid : Nat} {k : Bool → Go Unit}
    (hp : m.Performs e i c loc (.fs (.writeFile envoyPidFile (itoa pid))) k)
    (hs : s = .born pid)
    (hst : Stands m.world starts s (⟨loc, .call (.fs (.writeFile envoyPidFile (itoa pid))) k⟩ : Job (Host Y G))) :
    Overseen (m.apply e) := by
  subst hs
  have hobeys := hst.obeys.2 (perform Y G c loc m.world (.fs (.writeFile envoyPidFile (itoa pid)))).1
  have hserves : ∀ q, (perform Y G c loc m.world (.fs (.writeFile envoyPidFile (itoa pid)))).2.2.Serves q →
      World.Serves m.world q := by
    intro q hq
    have hprocs := @perform_procs Y G c loc m.world (.fs (.writeFile envoyPidFile (itoa pid))) id
    exact ⟨hprocs ▸ hq.1, hq.2⟩
  have hquiet : (perform Y G c loc m.world (.fs (.writeFile envoyPidFile (itoa pid)))).2.1.envoy = .quiet :=
    show (if envoyPidFile = envoyPidFile then EnvoyStage.quiet else loc.envoy) = _ from if_pos rfl
  have hnext : ∀ r, (calls starts).next (.born pid) (.fs (.writeFile envoyPidFile (itoa pid))) r = .out :=
    fun _ => show (if envoyPidFile = envoyPidFile then CallStage.out else CallStage.born pid) = _ from if_pos rfl
  rw [hnext] at hobeys
  rw [apply_performs hp]
  refine h.put (b := starts) (s := .out) (fun q hq => h.range q (hserves q hq))
    (fun _ _ _ _ _ _ hs => hs.fewer hserves)
    ⟨hobeys, trivial, fun pid' => ⟨nofun, fun hb => ?_⟩, nofun⟩
    (fun i' j' hne hj' => h.lone_act hp id _ hne hj') fun _ _ => ?_
  · rw [hquiet] at hb
    cases hb
  · cases hr : (perform Y G c loc m.world (.fs (.writeFile envoyPidFile (itoa pid)))).1 with
    | true =>
      have hfile := @writeFile_content Y G c loc m.world _ hr
      refine ⟨fun q q' hq hq' => ?_, fun q hq => ?_⟩
      · have hpid := (hst.holds q (hserves q hq)).trans (hst.holds q' (hserves q' hq')).symm
        exact Procs.eq_of_pid hq.1 hq'.1 hpid
      · rw [hst.holds q (hserves q hq)]
        exact hfile
    | false => exact sole_of_none fun q hq => hc.recorded i c loc _ k hp hr q (hserves q hq)

/-- The pid file is removed when no Envoy serves any more. -/
theorem Overseen.forget (h : Overseen m) {k : Bool → Go Unit}
    (hp : m.Performs e i c loc (.fs (.remove envoyPidFile)) k) (hs : s = .clear)
    (hst : Stands m.world starts s (⟨loc, .call (.fs (.remove envoyPidFile)) k⟩ : Job (Host Y G))) :
    Overseen (m.apply e) := by
  subst hs
  have hnone : ∀ q, ¬ World.Serves m.world q := hst.holds
  have hobeys := hst.obeys.2 (perform Y G c loc m.world (.fs (.remove envoyPidFile))).1
  have hserves : ∀ q, (perform Y G c loc m.world (.fs (.remove envoyPidFile))).2.2.Serves q →
      World.Serves m.world q := by
    intro q hq
    have hprocs := @perform_procs Y G c loc m.world (.fs (.remove envoyPidFile)) id
    exact ⟨hprocs ▸ hq.1, hq.2⟩
  rw [apply_performs hp]
  refine h.put (b := starts) (s := .out) (fun q hq => h.range q (hserves q hq))
    (fun _ _ _ _ _ _ hs => hs.fewer hserves)
    ⟨hobeys, trivial, fun pid => ⟨nofun, fun hb => ?_⟩, nofun⟩
    (fun i' j' hne hj' => h.lone_act hp id _ hne hj') fun _ _ => sole_of_none fun q hq => hnone q (hserves q hq)
  exact absurd ((hst.born pid).mpr hb) nofun

end Acts

theorem Overseen.step (h : Overseen m) (hl : CallsOnly e) (hc : OneAtATime m e) : Overseen (m.apply e) := by
  apply Machine.apply_elim (P := fun m' => Overseen m') m e
  case stay => exact h
  case launched =>
    intro i x loc p w he hj hx
    have hspec := enter_spec hx
    have hserves : ∀ q, World.Serves w q → World.Serves m.world q := by
      intro q hq
      rcases mem_of_enter hx hq.1 with hq' | ⟨hr, _⟩
      · exact ⟨hq', hq.2⟩
      · exact absurd (hr.symm.trans hq.2.1) nofun
    have hprog : ∃ starts, (calls starts).Obeys .out p.caught (fun s _ => s = .out) ∧ ¬ Engaged p := by
      subst he
      rw [hspec.2.1]
      rcases hl with ht | ht <;> rw [ht]
      · exact ⟨true, calls_startEnvoy Y, Prog.not_reaches_call id rfl⟩
      · exact ⟨false, calls_stopEnvoy Y, Prog.not_reaches_call id rfl⟩
    obtain ⟨starts, hobeys, hidle⟩ := hprog
    have hquiet : loc.envoy = .quiet := hspec.2.2.2.2.1
    refine h.put (j := ⟨loc, p⟩) (b := starts) (s := .out) (fun q hq => h.range q (hserves q hq))
      (fun _ _ _ _ _ _ hs => hs.fewer hserves)
      ⟨hobeys, trivial, fun pid => ⟨nofun, fun hb => absurd (hquiet.symm.trans hb) nofun⟩, nofun⟩
      (fun i' j' hne hj' => ⟨fun hs => absurd hs.engaged hidle, fun _ => hidle⟩) fun _ hothers => ?_
    refine (h.sole fun i' j' pid hj' => ?_).fewer hserves (by rw [(enter_stores hx).fs])
    refine hothers i' j' pid ?_ hj'
    rintro rfl
    rw [hj] at hj'
    cases hj'
  case dead => exact fun i j he _ => h.clear hc he (fun q hq => hq) rfl
  case ended =>
    exact fun i j he _ => h.clear hc he (fun q hq => ⟨(Procs.mem_keep.mp hq.1).1, hq.2⟩) rfl
  case disturbed =>
    intro d _
    have hserves : ∀ q, World.Serves ((Host Y G).disturb d m.world) q → World.Serves m.world q := by
      intro q hq
      rcases mem_of_disturb hq.1 with hq' | ⟨pid, pgid, _, _, rfl⟩
      · exact ⟨hq', hq.2⟩
      · exact absurd hq.2.1 nofun
    refine ⟨fun q hq => h.range q (hserves q hq), fun i j hj => ?_, h.lone, fun hb => ?_⟩
    · obtain ⟨b, s, hs⟩ := h.jobs i j hj
      exact ⟨b, s, hs.fewer hserves⟩
    · exact (h.sole hb).fewer hserves (congrArg (fun t => Tree.content t envoyPidFile) (disturb_stores d).fs)
  case acted =>
    intro i c loc o k hp
    suffices hs : Overseen (m.apply e) from apply_performs hp ▸ hs
    obtain ⟨starts, s, hst⟩ := h.jobs i _ hp.2.1
    rcases calls_cases hst.obeys.1 with hoff | ⟨rfl, rfl⟩ | ⟨n, rfl, _⟩ | ⟨n, rfl, _⟩ | ⟨cmd, rfl, hcmd, _⟩ |
      ⟨pid, rfl, hs⟩ | ⟨rfl, _, hs⟩
    · have hoff' := @offCalls_still starts s _ hoff
      have hobeys := hst.obeys.2 (perform Y G c loc m.world o).1
      rw [hoff'.2] at hobeys
      have hstage : (perform Y G c loc m.world o).2.1.envoy = loc.envoy :=
        (offEnvoy_still (s := loc.envoy) hoff.1).2 _
      have hstart : ∀ cmd, o = .proc (.start cmd) → cmd.isWorkload = true := by
        rintro cmd rfl
        exact hoff.1
      refine h.keep hp hoff.not_meddles.2 hstart (@OffCalls.pidFile Y G c loc m.world o hoff)
        (fun pid hb => hstage.trans hb) ⟨hobeys, hst.holds.fewer fun q hq => ?_, fun pid => ?_, hst.starter⟩
      · rcases serves_perform hq with hq | ⟨cmd, rfl, hcmd, _⟩
        · exact hq
        · exact absurd (hcmd.symm.trans (hstart cmd rfl)) nofun
      · rw [hstage]
        exact hst.born pid
    · exact h.look hc hp hst
    · exact h.probe hc hp hst
    · exact h.term hc hp hst
    · exact h.start hcmd hp hst
    · exact h.record hc hp hs hst
    · exact h.forget hp hs hst

end Runs

/-- From a host on which no Envoy runs, with any number of calls at once. -/
theorem envoy_sole [DecidableEq ι] {m : Machine (Host Y G) ι} {es : List (Event (Host Y G) ι)}
    (hm : m.Idle) (hw : ∀ q ∈ (World.procs m.world).all, q.role ≠ .envoy) (hl : ∀ e ∈ es, CallsOnly e)
    (hc : Machine.Along OneAtATime m es) :
    Machine.Throughout (fun m => m.Idle → World.Sole m.world) m es := by
  have hnone : ∀ q, ¬ World.Serves m.world q := fun q hq => hw q hq.1 hq.2.1
  have nojob : ∀ i j, m.jobs i ≠ some j := by
    intro i j hj
    rw [hm i] at hj
    cases hj
  have h0 : Overseen m := ⟨fun q hq => absurd hq (hnone q), fun i j hj => absurd hj (nojob i j),
    fun i j _ _ _ hj => absurd hj (nojob i j), fun _ => sole_of_none hnone⟩
  refine (Machine.throughout_of_step (fun _ _ h hc => h.step hc.1 hc.2) h0
    ((Machine.along_of_forall hl).and hc)).imp fun m h hidle => h.sole fun i j pid hj => ?_
  rw [hidle i] at hj
  cases hj

section Sample
open Sample

/-- A test for events in which a call has the pid file to itself. -/
def unhurried (m : Machine (Host Y G) (Fin 2)) (e : Event (Host Y G) (Fin 2)) : Bool :=
  match e with
  | .act i c => decide (Choice.fault c = none) && match m.due i with
    | some (_, .fs (.readFile _)) => (List.finRange 2).all fun i' => i' = i || (m.jobs i').isNone
    | some (loc, .fs (.writeFile p data)) => (perform Y G c loc m.world (.fs (.writeFile p data))).1
    | some _ => true
    | none => (m.jobs i).all fun j => match Local.envoy j.loc with
      | .born _ => false
      | _ => true
  | _ => true

theorem unhurried_sound {m : Machine (Host Y G) (Fin 2)} {e : Event (Host Y G) (Fin 2)}
    (h : unhurried m e = true) : OneAtATime m e := by
  have fault : ∀ i c loc o k, m.Performs e i c loc o k → c.fault = none := by
    intro i c loc o k hp
    obtain ⟨rfl, _⟩ := hp
    simp only [unhurried, Bool.and_eq_true, decide_eq_true_eq] at h
    exact h.1
  refine ⟨fun i c loc k hp i' j hne hj => ?_, fun i c loc o k hp _ _ hf => absurd (fault i c loc o k hp) hf,
    fun i c loc data k hp hr => ?_, fun i j pid he hb => ?_⟩
  · have hdue := hp.due
    obtain ⟨rfl, _⟩ := hp
    simp only [unhurried, hdue, Bool.and_eq_true, List.all_eq_true, Bool.or_eq_true, decide_eq_true_eq] at h
    rcases h.2 i' (List.mem_finRange i') with hi | hi
    · exact absurd hi hne
    · rw [hj] at hi
      cases hi
  · have hdue := hp.due
    obtain ⟨rfl, _⟩ := hp
    simp only [unhurried, hdue, Bool.and_eq_true] at h
    exact absurd (hr.symm.trans h.2) nofun
  · have hdue := he.due
    obtain ⟨c, rfl, hj, _⟩ := he
    simp only [unhurried, hdue, hj, Option.all_some, Bool.and_eq_true, hb] at h
    cases h.2

/-- One call after the other: Envoy is started, started again, stopped and started. -/
def inTurn : List (SampleEvent (Fin 2)) :=
  .launch 0 ⟨.startEnvoy, 100, 0⟩ :: steps 0 60 101 ++ .launch 1 ⟨.startEnvoy, 200, 0⟩ :: steps 1 60 201 ++
    .launch 0 ⟨.stopEnvoy, 300, 0⟩ :: steps 0 10 301 ++ .launch 1 ⟨.startEnvoy, 400, 0⟩ :: steps 1 60 401

theorem inTurn_sole :
    Machine.Throughout (fun m : Machine (Host yaml lowestFree) (Fin 2) => m.Idle → World.Sole m.world)
      start inTurn :=
  envoy_sole start_idle (by decide +kernel) (by
      intro e he
      simp only [inTurn, steps, List.mem_append, List.mem_cons, List.mem_replicate] at he
      rcases he with ((((rfl | ⟨_, rfl⟩) | rfl | ⟨_, rfl⟩) | rfl | ⟨_, rfl⟩) | rfl | ⟨_, rfl⟩)
      all_goals first | exact .inl rfl | exact .inr rfl | trivial)
    ((by decide +kernel : Machine.Along (fun m e => unhurried m e = true) start inTurn).imp
      fun _ _ h => unhurried_sound h)

/-- Two calls read the pid file before either of them has written it. -/
def together : List (SampleEvent (Fin 2)) :=
  .launch 0 ⟨.startEnvoy, 100, 0⟩ :: .launch 1 ⟨.startEnvoy, 200, 0⟩ :: steps 0 1 101 ++ steps 1 1 201 ++
    steps 0 60 101 ++ steps 1 60 201

/-- Two Envoys run, and nothing has failed. -/
theorem together_two : (start (ι := Fin 2)).Idle ∧
    (∀ q ∈ (World.procs (start (ι := Fin 2)).world).all, q.role ≠ .envoy) ∧
    (∀ e ∈ together, CallsOnly e) ∧ (∀ e ∈ together, Faultless e) ∧
    ¬ Machine.Throughout (fun m : Machine (Host yaml lowestFree) (Fin 2) => m.Idle → World.Sole m.world)
      start together := by
  refine ⟨start_idle, by decide +kernel, ?_, by decide +kernel, fun h => ?_⟩
  · intro e he
    simp only [together, steps, List.mem_append, List.mem_cons, List.mem_replicate] at he
    rcases he with ((((rfl | rfl | ⟨_, rfl⟩) | ⟨_, rfl⟩) | ⟨_, rfl⟩) | ⟨_, rfl⟩)
    all_goals first | exact .inl rfl | trivial
  · have hidle : ∀ i : Fin 2, ((start.run together).jobs i).isNone = true := by decide +kernel
    have htwo : ∃ p ∈ (World.procs (start.run together).world).all,
        ∃ q ∈ (World.procs (start.run together).world).all,
          (p.role = .envoy ∧ p.termed = false ∧ q.role = .envoy ∧ q.termed = false) ∧ p.pid ≠ q.pid := by
      decide +kernel
    obtain ⟨p, hp, q, hq, ⟨hpr, hpt, hqr, hqt⟩, hne⟩ := htwo
    have hsole := h.last fun i => Option.isNone_iff_eq_none.mp (hidle i)
    exact hne (congrArg Proc.pid (hsole.1 p q ⟨hp, hpr, hpt⟩ ⟨hq, hqr, hqt⟩))

end Sample
end PrivatePaas
