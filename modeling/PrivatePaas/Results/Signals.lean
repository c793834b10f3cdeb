import PrivatePaas.Host.Content
import PrivatePaas.Registry.Frame
import PrivatePaas.Registry.Tidy
import PrivatePaas.Results.Sample

/-!
# Whom a signal reaches

A delete kills the pid in the record it has read, and Envoy's pid goes through the pid
file. Every signal goes to a process of our own as long as the workload of the record
lives, nobody else gets the pid that stands in the pid file, and Envoy is still there when
it is signalled after the probe.
-/

namespace PrivatePaas
set_option autoImplicit false
open Files Text Effects Network PrivatePaas.Parser

variable {Y : Yaml} {G : GoIpam} {ι : Type}

/-- Every signal names one process: the workload of the record that the delete has read, or
an Envoy. -/
def OwnSignal (m : Machine (Host Y G) ι) (e : Event (Host Y G) ι) : Prop :=
  ∀ i c loc n sg k, m.Performs e i c loc (.proc (.kill n sg)) k →
    0 < n ∧ ∃ q : Proc, q ∈ World.procs m.world ∧ (q.pid : Int) = n ∧
      match sg with
      | .sigkill => q.role = .workload ∧ q.owner = loc.target
      | .sigterm => q.role = .envoy

/-- Whom a signal is meant for is there. -/
def Meant (m : Machine (Host Y G) ι) (e : Event (Host Y G) ι) : Prop :=
  ∀ i c loc n sg k, m.Performs e i c loc (.proc (.kill n sg)) k →
    match sg with
    | .sigkill => ∃ q, World.Live m.world q ∧ q.owner = loc.target
    | .sigterm => ¬ ∀ q ∈ (World.procs m.world).all, (q.pid : Int) ≠ n

/-- The invocation has this pid from the pid file, or from the start of Envoy. -/
def EnvoyStage.Knows : EnvoyStage → Int → Prop
  | quiet, _ => False
  | read data, n => atoi (trimSpace data) = (n, true)
  | alive pid, n => n = pid
  | born pid, n => n = pid

/-- The pid stands in the pid file, or an invocation is about to use it. -/
def Marked (m : Machine (Host Y G) ι) (n : Int) : Prop :=
  (∃ data, (World.fs m.world).content envoyPidFile = some data ∧ atoi (trimSpace data) = (n, true)) ∨
    ∃ i j, m.jobs i = some j ∧ j.loc.envoy.Knows n

/-- No process other than Envoy is given such a pid. -/
def Unclaimed (m : Machine (Host Y G) ι) (e : Event (Host Y G) ι) : Prop :=
  match e with
  | .launch _ x => (World.procs m.world).Free (Launch.pid x) → ¬ Marked m (Launch.pid x : Nat)
  | .act i c => ∀ loc cmd k, m.Performs e i c loc (.proc (.start cmd)) k → cmd.isWorkload = true →
    (World.procs m.world).Free (Choice.pid c) → ¬ Marked m (Choice.pid c : Nat)
  | .env (.spawn pid _) => (World.procs m.world).Free pid → ¬ Marked m pid
  | .env (.exit _) => True

/-- A pid file that is not written to its end has the pid of no other process. -/
def Untorn (m : Machine (Host Y G) ι) (e : Event (Host Y G) ι) : Prop :=
  ∀ i c loc data k, m.Performs e i c loc (.fs (.writeFile envoyPidFile data)) k →
    ∀ n, c.fault = some (n + 1) → ∀ q ∈ (World.procs m.world).all,
      atoi (trimSpace (cutAt n data)) = ((q.pid : Int), true) → q.role = .envoy

section PidFile
variable {c : Choice} {l : Local} {w : World} {cwd : Path} {t : Tree}

/-- An operation that writes to the pid file as a whole or not at all. -/
def FsOp.PidSafe (o : FsOp) : Prop :=
  ∀ p, o.Writes p → (p = envoyPidFile ∧ ∃ data, o = .writeFile p data) ∨
    ∃ n, Named p n ∧ "envoy-paas.pid" ≠ n

theorem pidSafe_of_ok {s : EnvoyStage} {o : FsOp} (h : envoy.ok s (.fs o)) : o.PidSafe := by
  intro p hp
  cases o with
  | writeFile p' data =>
    obtain rfl : p = p' := hp
    rcases h with ⟨hpid, _⟩ | hh | hy
    · exact .inl ⟨hpid, data, rfl⟩
    · exact .inr hh.named
    · exact .inr hy.named
  | create p' =>
    obtain rfl : p = p' := hp
    exact .inr (YamlFile.named h)
  | write p' data =>
    obtain rfl : p = p' := hp
    exact .inr (YamlFile.named h)
  | openAppend p' =>
    obtain rfl : p = p' := hp
    exact .inr (Harmless.named h)
  | append p' data =>
    obtain rfl : p = p' := hp
    exact .inr (Harmless.named h)
  | initdb bin dir => exact .inr (FsOp.named_of_initdb hp (by decide))
  | _ => exact absurd hp id

/-- What is left of such an operation is one, too. -/
theorem FsOp.PidSafe.remnant {o o' : FsOp} {n : Nat} (h : o.PidSafe)
    (hr : Op.remnant n (.fs o) = some (.fs o')) :
    o'.PidSafe ∧ ∀ p data, o' = .writeFile p data → ∃ d, o = .writeFile p d ∧ data = cutAt n d := by
  cases o with
  | writeFile p data =>
    cases hr
    refine ⟨fun q hq => ?_, fun p' d he => ?_⟩
    · exact (h q hq).imp_left fun hx => ⟨hx.1, _, by rw [show q = p from hq]⟩
    · injection he with h1 h2
      subst h1 h2
      exact ⟨data, rfl, rfl⟩
  | write p data =>
    cases hr
    refine ⟨fun q hq => (h q hq).imp_left fun hx => ?_, nofun⟩
    obtain ⟨_, _, hd⟩ := hx
    cases hd
  | append p data =>
    cases hr
    refine ⟨fun q hq => (h q hq).imp_left fun hx => ?_, nofun⟩
    obtain ⟨_, _, hd⟩ := hx
    cases hd
  | _ =>
    cases hr
    exact ⟨h, nofun⟩

theorem pidFile_fs {o : FsOp} (h : o.PidSafe) :
    (o.perform c cwd t).2.content envoyPidFile = t.content envoyPidFile ∨
      (o.perform c cwd t).2.content envoyPidFile = none ∨
      ∃ data, o = .writeFile envoyPidFile data ∧
        (o.perform c cwd t).2.content envoyPidFile = some data := by
  by_cases hw : ∃ data, o = .writeFile envoyPidFile data
  · obtain ⟨data, rfl⟩ := hw
    simp only [FsOp.perform, FsOp.store]
    cases hu : t.update envoyPidFile fun _ => data with
    | none => exact .inl rfl
    | some t' =>
      obtain ⟨q, _, _, hc⟩ := FsOp.update_named hu pidFile_named
      by_cases hq : envoyPidFile = q
      · exact .inr (.inr ⟨data, rfl, (hc _).trans (if_pos hq)⟩)
      · exact .inl ((hc _).trans (if_neg hq))
  · have hn : ∀ p, o.Writes p → ∃ n, Named p n ∧ "envoy-paas.pid" ≠ n := by
      intro p hp
      refine (h p hp).resolve_left ?_
      rintro ⟨rfl, data, hd⟩
      exact hw ⟨data, hd⟩
    rcases FsOp.perform_content o pidFile_named hn with hc | ⟨p, _, hc⟩
    · exact .inl hc
    · exact .inr (.inl hc)

/-- What an operation can leave in the pid file. -/
theorem pidFile_perform {o : Op} (h : envoy.ok l.envoy o) :
    (perform Y G c l w o).2.2.fs.content envoyPidFile = w.fs.content envoyPidFile ∨
      (perform Y G c l w o).2.2.fs.content envoyPidFile = none ∨
      ∃ data, o = .fs (.writeFile envoyPidFile data) ∧
        ((perform Y G c l w o).2.2.fs.content envoyPidFile = some data ∨
          ∃ n, c.fault = some (n + 1) ∧
            (perform Y G c l w o).2.2.fs.content envoyPidFile = some (cutAt n data)) := by
  by_cases ho : o.IsFs
  · cases o with
    | fs o =>
      have hsafe := pidSafe_of_ok h
      have hfs : (perform Y G c l w (.fs o)).2.2.fs = (attempt G c l w (.fs o)).2.2.fs := rfl
      rw [hfs]
      cases hf : c.fault with
      | none =>
        rw [attempt_ok hf]
        rcases pidFile_fs hsafe with hc | hc | ⟨data, rfl, hc⟩
        · exact .inl hc
        · exact .inr (.inl hc)
        · exact .inr (.inr ⟨data, rfl, .inl hc⟩)
      | some n =>
        cases n with
        | zero =>
          rw [attempt_zero hf]
          exact .inl rfl
        | succ n =>
          rw [attempt_succ hf]
          cases hr : Op.remnant n (.fs o) with
          | none => exact .inl rfl
          | some o' =>
            obtain ⟨o'', rfl⟩ : ∃ o'', o' = .fs o'' := by
              cases o <;> cases hr <;> exact ⟨_, rfl⟩
            obtain ⟨hsafe', hdata⟩ := hsafe.remnant hr
            rcases pidFile_fs hsafe' with hc | hc | ⟨data, hd, hc⟩
            · exact .inl hc
            · exact .inr (.inl hc)
            · obtain ⟨d, rfl, rfl⟩ := hdata _ data hd
              exact .inr (.inr ⟨d, rfl, .inr ⟨n, rfl, hc⟩⟩)
    | _ => exact absurd ho id
  · left
    rw [perform_fs ho]

end PidFile

/-- An answer with a pid: the text of the pid file, or the pid of the Envoy just started. -/
def Op.Tells : (o : Op) → o.Ret → Int → Prop
  | .fs (.readFile p), r, n => p = envoyPidFile ∧ ∃ data, r = .ok data ∧ atoi (trimSpace data) = (n, true)
  | .proc (.start cmd), r, n => cmd.isWorkload = false ∧ ∃ pid : Nat, r = some pid ∧ n = pid
  | _, _, _ => False

/-- An invocation knows only what it has been told. -/
theorem knows_next {s : EnvoyStage} {o : Op} {r : o.Ret} (hok : envoy.ok s o) {n : Int}
    (h : (envoy.next s o r).Knows n) : s.Knows n ∨ o.Tells r n := by
  cases o with
  | fs o =>
    cases o with
    | readFile p =>
      by_cases hp : p = envoyPidFile
      · subst p
        cases r with
        | error e => exact absurd h id
        | ok data => exact .inr ⟨rfl, data, rfl, h⟩
      · have hs : envoy.next s (.fs (.readFile p)) r = s := if_neg hp
        rw [hs] at h
        exact .inl h
    | writeFile p data =>
      by_cases hp : p = envoyPidFile
      · have hs : envoy.next s (.fs (.writeFile p data)) r = .quiet := if_pos hp
        rw [hs] at h
        exact absurd h id
      · have hs : envoy.next s (.fs (.writeFile p data)) r = s := if_neg hp
        rw [hs] at h
        exact .inl h
    | _ => exact .inl h
  | proc o =>
    cases o with
    | start cmd =>
      by_cases hc : cmd.isWorkload = true
      · have hs : envoy.next s (.proc (.start cmd)) r = s := if_pos hc
        rw [hs] at h
        exact .inl h
      · cases r with
        | none =>
          have hs : envoy.next s (.proc (.start cmd)) none = .quiet := if_neg hc
          rw [hs] at h
          exact absurd h id
        | some pid =>
          have hs : envoy.next s (.proc (.start cmd)) (some pid) = .born pid := if_neg hc
          rw [hs] at h
          exact .inr ⟨Bool.eq_false_iff.mpr hc, pid, rfl, h⟩
    | kill m sg =>
      cases sg with
      | sigkill => exact .inl h
      | sigterm => exact absurd h id
    | signal0 m =>
      cases r with
      | false => exact absurd h id
      | true =>
        obtain ⟨data, hs, hm⟩ := hok
        obtain rfl : n = m := h
        rw [hs]
        exact .inl hm
    | _ => exact .inl h
  | _ => exact .inl h

/-- What is left of the decimal of a pid is nothing, or the decimal of one. -/
theorem cutAt_itoa {n : Nat} (hn : 0 < n) (j : Nat) :
    cutAt j (itoa n) = "" ∨ ∃ m : Nat, 0 < m ∧ cutAt j (itoa n) = itoa m := by
  unfold cutAt
  rw [itoa_natCast]
  rcases take_toDigits hn j with h | ⟨m, hm, _, h⟩
  · exact .inl (by rw [h])
  · refine .inr ⟨m, hm, ?_⟩
    rw [h, ← itoa_natCast, String.ofList_toList]

section Runs
variable [DecidableEq ι] {m : Machine (Host Y G) ι} {e : Event (Host Y G) ι}

/-- The invariant: whoever has a marked pid is an Envoy. -/
structure Trusted (m : Machine (Host Y G) ι) : Prop where
  ledger : (ledgerWatch Y G).Holds m
  envoy : (envoyWatch Y G).Holds m
  tidy : Tidy (booksOf m) (pagesOf m)
  marked : ∀ n, Marked m n → ∀ q : Proc, q ∈ World.procs m.world → (q.pid : Int) = n → q.role = .envoy
  positive : ∀ n, Marked m n → 0 < n

omit [DecidableEq ι] in
theorem Trusted.ownSignal (h : Trusted m) (hm : Meant m e) : OwnSignal m e := by
  intro i c loc n sg k hp
  have hmeant := hm i c loc n sg k hp
  cases sg with
  | sigkill =>
    obtain ⟨q, hq, ho⟩ := hmeant
    obtain ⟨key, rec, hs, rfl⟩ := (h.ledger.ok hp).1
    have hreads : loc.page.stage.Reads rec := by
      have hs' : loc.page.stage = .reading key rec ∨ loc.page.stage = .released key rec := hs
      rcases hs' with hs' | hs' <;> rw [hs'] <;> rfl
    obtain ⟨hpid, _⟩ := h.tidy.reads i loc.page rec q (pagesOf_job hp.2.1) hreads hq ho
    obtain ⟨hlo, hhi⟩ := h.tidy.pid_range q hq
    have hle : q.pid ≤ maxInt := by
      unfold pidMax at hhi
      unfold maxInt
      omega
    rw [hpid, atoi_itoa hle]
    exact ⟨Int.natCast_pos.mpr (by omega), q, hq.1, rfl, hq.2, ho⟩
  | sigterm =>
    have hs : loc.envoy = .alive n := h.envoy.ok hp
    obtain ⟨q, hq, hpid⟩ : ∃ q ∈ (World.procs m.world).all, (q.pid : Int) = n := by
      by_contra hno
      exact hmeant fun q hq hpid => hno ⟨q, hq, hpid⟩
    have hk : Marked m n := .inr ⟨i, _, hp.2.1, by rw [hs]; rfl⟩
    exact ⟨h.positive n hk, q, hq, hpid, h.marked n hk q hq hpid⟩

/-- Where a pid comes from that is marked when a job has been put in a slot. -/
theorem Marked.of_put {i : ι} {n : Int} {j : Job (Host Y G)} {w : World}
    (hn : Marked (⟨w, Function.update m.jobs i (some j)⟩ : Machine (Host Y G) ι) n) :
    (∃ data, w.fs.content envoyPidFile = some data ∧ atoi (trimSpace data) = (n, true)) ∨
      EnvoyStage.Knows (Local.envoy j.loc) n ∨ ∃ i' j', m.jobs i' = some j' ∧ j'.loc.envoy.Knows n := by
  rcases hn with hfile | ⟨i', j', hj, hk⟩
  · exact .inl hfile
  · rcases Machine.jobs_put hj with ⟨_, rfl⟩ | ⟨_, hj⟩
    · exact .inr (.inl hk)
    · exact .inr (.inr ⟨i', j', hj, hk⟩)

theorem Marked.of_clear {i : ι} {n : Int} {w : World} (hfs : w.fs = World.fs m.world)
    (hn : Marked (⟨w, Function.update m.jobs i none⟩ : Machine (Host Y G) ι) n) : Marked m n := by
  rcases hn with ⟨data, hc, hat⟩ | ⟨i', j, hj, hk⟩
  · exact .inl ⟨data, hfs ▸ hc, hat⟩
  · exact .inr ⟨i', j, (Machine.jobs_clear hj).2, hk⟩

theorem Marked.of_enter {i : ι} {x : Launch} {loc : Local} {p : Go Unit} {w : World} {n : Int}
    (hx : enter Y x m.world = some (loc, p, w))
    (hn : Marked (⟨w, Function.update m.jobs i (some ⟨loc, p⟩)⟩ : Machine (Host Y G) ι) n) : Marked m n := by
  obtain ⟨_, _, _, _, hquiet, _⟩ := enter_spec hx
  rcases hn.of_put with ⟨data, hc, hat⟩ | hk | hj
  · exact .inl ⟨data, (enter_stores hx).fs ▸ hc, hat⟩
  · rw [hquiet] at hk
    exact absurd hk id
  · exact .inr hj

/-- Where a pid comes from that is marked after an operation. -/
theorem Trusted.marked_perform (h : Trusted m) (ht : Untorn m e) {i : ι} {c : Choice} {loc : Local}
    {o : Op} {k : o.Ret → Go Unit} (hp : m.Performs e i c loc o k) {n : Int}
    (hn : Marked (⟨(perform Y G c loc m.world o).2.2, Function.update m.jobs i
      (some ⟨(perform Y G c loc m.world o).2.1, k (perform Y G c loc m.world o).1⟩)⟩ : Machine (Host Y G) ι) n) :
    Marked m n ∨ (¬ o.IsProc ∧ 0 < n ∧
        ∀ q ∈ (World.procs m.world).all, (q.pid : Int) = n → q.role = .envoy) ∨
      ∃ cmd, o = .proc (.start cmd) ∧ cmd.isWorkload = false ∧ n = c.pid ∧ 0 < c.pid ∧
        (World.procs m.world).Free c.pid := by
  have hok : PrivatePaas.envoy.ok loc.envoy o := h.envoy.ok hp
  have hknow : ∀ {n}, loc.envoy.Knows n → Marked m n := fun hk => .inr ⟨i, _, hp.2.1, hk⟩
  rcases hn.of_put with ⟨data, hc, hat⟩ | hk | hj
  · rcases @pidFile_perform Y G c loc m.world o hok with hs | hs | ⟨d, rfl, hs⟩
    · exact .inl (.inl ⟨data, hs ▸ hc, hat⟩)
    · rw [hs] at hc
      cases hc
    · rcases hs with hs | ⟨j, hf, hs⟩
      · obtain rfl : d = data := Option.some.inj (hs.symm.trans hc)
        rcases hok with ⟨_, pid, hborn, rfl⟩ | hh | hy
        · rw [trimSpace_itoa] at hat
          obtain rfl := eq_of_atoi_itoa hat
          exact .inl (hknow (by rw [hborn]; rfl))
        · exact absurd rfl hh.ne_pidFile
        · exact absurd rfl hy.ne_pidFile
      · obtain rfl : cutAt j d = data := Option.some.inj (hs.symm.trans hc)
        refine .inr (.inl ⟨id, ?_, fun q hq hpid => ht i c loc d k hp j hf q hq (hpid ▸ hat)⟩)
        rcases hok with ⟨_, pid, hborn, rfl⟩ | hh | hy
        · have hpid := h.positive pid (hknow (by rw [hborn]; rfl))
          rcases cutAt_itoa (Int.natCast_pos.mp hpid) j with he | ⟨m', hm', he⟩
          · rw [he, show atoi (trimSpace "") = (0, false) by decide] at hat
            cases hat
          · rw [he, trimSpace_itoa] at hat
            obtain rfl := eq_of_atoi_itoa hat
            exact Int.natCast_pos.mpr hm'
        · exact absurd rfl hh.ne_pidFile
        · exact absurd rfl hy.ne_pidFile
  · rcases knows_next (s := loc.envoy) hok hk with hk | hk
    · exact .inl (hknow hk)
    · cases o with
      | fs o =>
        cases o with
        | readFile p =>
          obtain ⟨rfl, data, hr, hat⟩ := hk
          have hread := @perform_readFile Y G c loc m.world envoyPidFile data hr
          exact .inl (.inl ⟨data, Tree.content_of_read (by decide) hread, hat⟩)
        | _ => exact absurd hk id
      | proc o =>
        cases o with
        | start cmd =>
          obtain ⟨hc, pid, hr, rfl⟩ := hk
          obtain ⟨rfl, hfree, hpos⟩ := @perform_start Y G c loc m.world cmd pid hr
          exact .inr (.inr ⟨cmd, rfl, hc, rfl, hpos, hfree⟩)
        | _ => exact absurd hk id
      | _ => exact absurd hk id
  · exact .inl (.inr hj)

/-- Every marked pid is positive, and a process that has one is an Envoy. -/
structure Vouched (m : Machine (Host Y G) ι) : Prop where
  marked : ∀ n, Marked m n → ∀ q : Proc, q ∈ World.procs m.world → (q.pid : Int) = n → q.role = .envoy
  positive : ∀ n, Marked m n → 0 < n

omit [DecidableEq ι] in
/-- With fewer marked pids, and no process among them that is new. -/
theorem Trusted.vouched_of_marked (h : Trusted m) {m' : Machine (Host Y G) ι} (hn : ∀ n, Marked m' n → Marked m n)
    (hq : ∀ q ∈ World.procs m'.world, q ∈ World.procs m.world ∨ ¬ Marked m q.pid) : Vouched m' := by
  refine ⟨fun n hmark q hmem hpid => ?_, fun n hmark => h.positive n (hn n hmark)⟩
  rcases hq q hmem with hold | hnew
  · exact h.marked n (hn n hmark) q hold hpid
  · rw [hpid] at hnew
    exact absurd (hn n hmark) hnew

theorem Trusted.vouched_perform (h : Trusted m) (hu : Unclaimed m e) (ht : Untorn m e) {i : ι} {c : Choice}
    {loc : Local} {o : Op} {k : o.Ret → Go Unit} (hp : m.Performs e i c loc o k) :
    Vouched (⟨(perform Y G c loc m.world o).2.2, Function.update m.jobs i
      (some ⟨(perform Y G c loc m.world o).2.1, k (perform Y G c loc m.world o).1⟩)⟩ : Machine (Host Y G) ι) := by
  refine ⟨fun n hn q hq hpid => ?_, fun n hn => ?_⟩
  · rcases @mem_perform_procs Y G c loc m.world o q hq with ⟨q0, hq0, hpid0, hrole, _⟩ |
      ⟨cmd, rfl, hfree, hpid0, hrole⟩
    · rw [hrole]
      rw [hpid0] at hpid
      rcases h.marked_perform ht hp hn with hmark | ⟨_, _, hmark⟩ | ⟨_, _, _, hn', _, hfree⟩
      · exact h.marked n hmark q0 hq0 hpid
      · exact hmark q0 hq0 hpid
      · exact absurd (by omega) (hfree q0 hq0)
    · rw [hrole]
      by_cases hc : cmd.isWorkload = true
      · obtain rfl := hp.1
        have hno := hu loc cmd k hp hc hfree
        rcases h.marked_perform ht hp hn with hmark | ⟨hproc, _⟩ | ⟨cmd', hcmd, hc', _⟩
        · rw [← hpid0, hpid] at hno
          exact absurd hmark hno
        · exact absurd trivial hproc
        · cases hcmd
          exact absurd (hc.symm.trans hc') nofun
      · rw [if_neg hc]
  · rcases h.marked_perform ht hp hn with hmark | ⟨_, hpos, _⟩ | ⟨_, _, _, rfl, hpos, _⟩
    · exact h.positive n hmark
    · exact hpos
    · exact Int.natCast_pos.mpr hpos

theorem Trusted.vouched_apply (h : Trusted m) (hu : Unclaimed m e) (ht : Untorn m e) : Vouched (m.apply e) := by
  apply Machine.apply_elim m e
  case stay => exact ⟨h.marked, h.positive⟩
  case launched =>
    intro i x loc p w he hj hx
    obtain ⟨⟨hfree, _⟩, _⟩ := enter_spec hx
    refine h.vouched_of_marked (fun _ hn => hn.of_enter hx) fun q hq => ?_
    rcases mem_of_enter hx hq with hq | ⟨_, hqx⟩
    · exact .inl hq
    · subst he
      rw [hqx]
      exact .inr (hu hfree)
  case dead =>
    intro i j _ _
    exact h.vouched_of_marked (fun _ hn => hn.of_clear rfl) fun q hq => .inl hq
  case ended =>
    intro i j _ _
    exact h.vouched_of_marked (fun _ hn => hn.of_clear rfl) fun q hq => .inl (Procs.mem_keep.mp hq).1
  case acted => exact fun i c loc o k hp => h.vouched_perform hu ht hp
  case disturbed =>
    intro d he
    refine h.vouched_of_marked (fun n hn => ?_) fun q hq => ?_
    · rcases hn with ⟨data, hc, hat⟩ | hj
      · exact .inl ⟨data, (disturb_stores d).fs ▸ hc, hat⟩
      · exact .inr hj
    · rcases mem_of_disturb hq with hq | ⟨pid, pgid, rfl, hfree, rfl⟩
      · exact .inl hq
      · subst he
        exact .inr (hu hfree)

theorem Trusted.step (hY : Y.Lawful) (h : Trusted m) (hu : Unclaimed m e) (ht : Untorn m e) :
    Trusted (m.apply e) := by
  have hvouched := h.vouched_apply hu ht
  exact ⟨h.ledger.apply e, h.envoy.apply e, tidy_step hY h.ledger h.tidy, hvouched.marked, hvouched.positive⟩

end Runs

/-- From a host on which nothing has been created, with any number of invocations at once. -/
theorem signals_own [DecidableEq ι] {m : Machine (Host Y G) ι} {es : List (Event (Host Y G) ι)}
    (hY : Y.Lawful) (hm : m.Idle) (hw : World.Untouched m.world)
    (hpid : (World.fs m.world).content envoyPidFile = none)
    (hc : Machine.Along (fun m e => Meant m e ∧ Unclaimed m e ∧ Untorn m e) m es) :
    Machine.Along OwnSignal m es := by
  have hno : ∀ n, ¬ Marked m n := by
    rintro n (⟨data, hdata, _⟩ | ⟨i, j, hj, _⟩)
    · rw [hpid] at hdata
      cases hdata
    · rw [hm i] at hj
      cases hj
  have h0 : Trusted m := ⟨Watch.holds_of_idle hm, Watch.holds_of_idle hm, tidy_of_untouched hw hm,
    fun n hn => absurd hn (hno n), fun n hn => absurd hn (hno n)⟩
  exact Machine.along_of_step (fun _ _ h hc => h.step hY hc.2.1 hc.2.2)
    (fun _ _ h hc => h.ownSignal hc.1) h0 hc

/-- The pid that an invocation knows. -/
def EnvoyStage.known : EnvoyStage → Option Int
  | quiet => none
  | read data => match atoi (trimSpace data) with
    | (n, true) => some n
    | _ => none
  | alive pid => some pid
  | born pid => some pid

theorem EnvoyStage.Knows.known {s : EnvoyStage} {n : Int} (h : s.Knows n) : s.known = some n := by
  cases s with
  | quiet => exact absurd h id
  | read data =>
    have hd : atoi (trimSpace data) = (n, true) := h
    simp only [EnvoyStage.known, hd]
  | alive pid =>
    obtain rfl : n = pid := h
    rfl
  | born pid =>
    obtain rfl : n = pid := h
    rfl

/-- The marked pids, where one invocation follows another. -/
def markedPids (m : Machine (Host Y G) Unit) : List Int :=
  (match (World.fs m.world).content envoyPidFile with
    | some data => (EnvoyStage.read data).known.toList
    | none => []) ++
  match m.jobs () with
  | some j => (Local.envoy j.loc).known.toList
  | none => []

theorem Marked.mem {m : Machine (Host Y G) Unit} {n : Int} (h : Marked m n) : n ∈ markedPids m := by
  unfold markedPids
  rcases h with ⟨data, hc, hat⟩ | ⟨i, j, hj, hk⟩
  · have hn : (EnvoyStage.read data).known = some n := EnvoyStage.Knows.known hat
    rw [hc]
    simp [hn]
  · have hj' : m.jobs () = some j := hj
    simp [hj', hk.known]

/-- A test for `Meant`, `Unclaimed` and `Untorn`. -/
def aimed (m : Machine (Host Y G) Unit) (e : Event (Host Y G) Unit) : Bool :=
  match e with
  | .launch _ x => decide ((Launch.pid x : Int) ∉ markedPids m)
  | .env (.spawn pid _) => decide ((pid : Int) ∉ markedPids m)
  | .env (.exit _) => true
  | .act i c => decide (Choice.fault c = none) && match m.due i with
    | some (loc, .proc (.kill _ .sigkill)) => (World.procs m.world).all.any fun q =>
      q.role = .workload ∧ q.owner = Local.target loc
    | some (_, .proc (.kill n .sigterm)) => (World.procs m.world).all.any fun q => (q.pid : Int) = n
    | some (_, .proc (.start _)) => decide ((Choice.pid c : Int) ∉ markedPids m)
    | _ => true

theorem aimed_sound {m : Machine (Host Y G) Unit} {e : Event (Host Y G) Unit}
    (h : aimed m e = true) : Meant m e ∧ Unclaimed m e ∧ Untorn m e := by
  refine ⟨fun i c loc n sg k hp => ?_, ?_, fun i c loc data k hp n hf => ?_⟩
  · have hdue := hp.due
    obtain ⟨rfl, _⟩ := hp
    cases sg with
    | sigkill =>
      simp only [aimed, hdue, Bool.and_eq_true, List.any_eq_true, decide_eq_true_eq] at h
      obtain ⟨q, hq, hrole, ho⟩ := h.2
      exact ⟨q, ⟨hq, hrole⟩, ho⟩
    | sigterm =>
      simp only [aimed, hdue, Bool.and_eq_true, List.any_eq_true, decide_eq_true_eq] at h
      obtain ⟨q, hq, hpid⟩ := h.2
      exact fun hno => hno q hq hpid
  · cases e with
    | launch i x => exact fun _ hk => of_decide_eq_true h hk.mem
    | env d =>
      cases d with
      | exit pid => trivial
      | spawn pid pgid => exact fun _ hk => of_decide_eq_true h hk.mem
    | act i c =>
      intro loc cmd k hp _ _ hk
      simp only [aimed, hp.due, Bool.and_eq_true, decide_eq_true_eq] at h
      exact h.2 hk.mem
  · obtain ⟨rfl, _⟩ := hp
    simp only [aimed, Bool.and_eq_true, decide_eq_true_eq] at h
    rw [h.1] at hf
    cases hf

section Sample
open Sample

/-- A service in an unsupported technology is created, and its delete has come to the kill. -/
def toolKill : List (SampleEvent Unit) :=
  create () tool 100 :: steps () 30 101 ++ delete () "service" "tool" 200 :: steps () 5 201

/-- The record has pid 0, and so has the signal. -/
theorem toolKill_foreign : World.Untouched (start (ι := Unit)).world ∧
    (World.fs (start (ι := Unit)).world).content envoyPidFile = none ∧
    (∀ e ∈ toolKill ++ [.act () {}], Faultless e) ∧
    ¬ Machine.Along OwnSignal start (toolKill ++ [.act () {}]) := by
  refine ⟨⟨fun _ => rfl, start_workloads, rfl⟩, by decide +kernel, by decide +kernel, fun h => ?_⟩
  have hdue : ((start.run toolKill).due ()).map Prod.snd = some (.proc (.kill 0 .sigkill)) := by
    decide +kernel
  obtain ⟨⟨loc, o⟩, hd, rfl⟩ := Option.map_eq_some_iff.mp hdue
  obtain ⟨k, hp⟩ := Machine.exists_performs ({} : Choice) hd
  exact absurd ((Machine.along_append.mp h).2.1 () {} loc 0 .sigkill k hp).1 (by decide)

theorem comings_aimed : Machine.Along OwnSignal start comings :=
  signals_own yaml_lawful start_idle ⟨fun _ => rfl, start_workloads, rfl⟩ (by decide +kernel)
    ((by decide +kernel : Machine.Along (fun m e => aimed m e = true) start comings).imp
      fun _ _ h => aimed_sound h)

end Sample
end PrivatePaas
