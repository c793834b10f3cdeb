import PrivatePaas.Registry.Accounts
import PrivatePaas.Results.Sample

/-!
# Which workloads can still be deleted

Between two invocations every live workload is the one that exactly one record names,
whatever fails, as long as no create ends after its start and before its record, no
record of a live workload is replaced or dropped, and none is written beside another.
-/

namespace PrivatePaas
set_option autoImplicit false
open Files Text Effects Network PrivatePaas.Parser Books

variable {Y : Yaml} {G : GoIpam}

/-- The record under this key has the pid of the process. -/
def World.Points (Y : Yaml) (w : World) (key : String) (q : Proc) : Prop :=
  ∃ x, w.kv key = some x ∧ (atoi (Y.decode x.value).pid).1 = q.pid

/-- Every live workload is the pid of exactly one record. -/
def Traced (Y : Yaml) (w : World) : Prop := ∀ q, w.Live q → ∃! key, w.Points Y key q

/-- No invocation ends while a workload that it has started lives without a record. -/
def Recording (m : Machine (Host Y G) Unit) (e : Event (Host Y G) Unit) : Prop :=
  ∀ i j, m.Ends e i j → ∀ ip pid, j.loc.ledger.stage = .running ip pid →
    ∀ q, World.Live m.world q → q.pid ≠ pid

/-- A `Set` that is lost was not for a live workload. One that takes effect replaces no
record of a live workload, except with another one of it, and names no live workload that a
record under another key has. -/
def Recorded (m : Machine (Host Y G) Unit) (e : Event (Host Y G) Unit) : Prop :=
  ∀ i c loc key text k, m.Performs e i c loc (.kv (.set key text)) k → ∀ q, World.Live m.world q →
    if c.fault = some 0 then ∀ ip, loc.ledger.stage ≠ .running ip q.pid
    else if (atoi (Y.decode text).pid).1 = q.pid then ∀ key', World.Points Y m.world key' q → key' = key
    else ¬ World.Points Y m.world key q

/-- A record is dropped when no workload lives that it names. -/
def Dropped (m : Machine (Host Y G) Unit) (e : Event (Host Y G) Unit) : Prop :=
  ∀ i c loc key k, m.Performs e i c loc (.kv (.del key)) k → c.fault ≠ some 0 →
    ∀ q, World.Live m.world q → ¬ World.Points Y m.world key q

/-- The workload of the create under way has no record yet, every other one has one. -/
structure Traceable (m : Machine (Host Y G) Unit) : Prop where
  ledger : (ledgerWatch Y G).Holds m
  range : ∀ q, World.Live m.world q → q.pid < pidMax
  traced : ∀ q, World.Live m.world q →
    (∃ p ip, pagesOf m () = some p ∧ p.stage = .running ip q.pid) ∨ ∃! key, World.Points Y m.world key q

section Steps
variable {m : Machine (Host Y G) Unit} {e : Event (Host Y G) Unit}

/-- What an operation other than `Set` and `Del` does to the workloads: one may be new, and
then it is the child of the invocation, which stays where it is otherwise. -/
theorem live_of_move {up hit : Prop} {p p' : Page} {b b' : Books} {o : Op} {r : o.Ret}
    (hm : Move G up hit p b o r p' b') (ho : ¬ o.WritesKv) (q : Proc) (hq : b'.Live q) :
    (p'.stage = .running q.ip q.pid ∧ q.pid < pidMax) ∨
      ∃ q0, b.Live q0 ∧ q.pid = q0.pid ∧
        ∀ ip, p.stage = .running ip q.pid → p'.stage = .running ip q.pid := by
  have same : b.Live q → (∀ ip, p.stage = .running ip q.pid → p'.stage = .running ip q.pid) →
      ∃ q0, b.Live q0 ∧ q.pid = q0.pid ∧
        ∀ ip, p.stage = .running ip q.pid → p'.stage = .running ip q.pid := fun hl hs => ⟨q, hl, rfl, hs⟩
  have other : ∀ {s}, p.stage = s → (∀ ip pid, s ≠ .running ip pid) →
      ∀ ip, p.stage = .running ip q.pid → p'.stage = .running ip q.pid :=
    fun hs hne ip hr => absurd (hs.symm.trans hr) (hne ip q.pid)
  cases hm with
  | outset path s hs => exact .inr (same hq (other hs nofun))
  | stray st o s u pool lessee freed _ hs =>
    refine .inr (same hq ?_)
    rcases hs with rfl | ⟨known, a, hs, _⟩ | ⟨key, rec, hs, _⟩
    · exact fun _ h => h
    · exact other hs nofun
    · exact other hs nofun
  | claim known s a hs => exact .inr (same hq (other hs nofun))
  | release key rec s a hs => exact .inr (same hq (other hs nofun))
  | refuse key rec a hs => exact .inr (same hq (other hs nofun))
  | start cmd known ip pid _ hs hf _ hhi =>
    rcases (Procs.mem_add (h := hf)).mp hq.1 with rfl | hq'
    · exact .inl ⟨rfl, hhi⟩
    · exact .inr (same ⟨hq', hq.2⟩ (other hs nofun))
  | startEnvoy cmd q' _ hrole hf =>
    rcases (Procs.mem_add (h := hf)).mp hq.1 with rfl | hq'
    · exact absurd (hrole.symm.trans hq.2) nofun
    · exact .inr (same ⟨hq', hq.2⟩ fun _ h => h)
  | kill key rec hs =>
    refine .inr (same ⟨(Procs.mem_keep.mp hq.1).1, hq.2⟩ ?_)
    rcases hs with hs | hs <;> exact other hs nofun
  | killFails key rec hs =>
    refine .inr (same hq ?_)
    rcases hs with hs | hs <;> exact other hs nofun
  | term n =>
    obtain ⟨q0, hq0, he⟩ := Procs.exists_of_mem_term hq.1
    exact .inr ⟨q0, ⟨hq0, by rw [he] at hq; exact hq.2⟩, by rw [he], fun _ h => h⟩
  | get key rec author hs => exact .inr (same hq (other hs nofun))
  | miss key t hs => exact .inr (same hq (other hs nofun))
  | set => exact absurd trivial ho
  | setFails => exact absurd trivial ho
  | del => exact absurd trivial ho
  | delFails => exact absurd trivial ho
  | _ => exact .inr (same hq fun _ h => h)

/-- Only the pid of a process matters, and the records. -/
theorem points_congr {w w' : World} {q q' : Proc} (hkv : w'.kv = w.kv) (hq : q'.pid = q.pid)
    (key : String) : w'.Points Y key q' ↔ w.Points Y key q := by
  unfold World.Points
  rw [hkv, hq]

/-- Where the record of another process is written or dropped. -/
theorem existsUnique_of_ne {w w' : World} {key : String} {x : Option Entry} {q : Proc}
    (h : ∃! k, w.Points Y k q) (hkv : w'.kv = Function.update w.kv key x) (hold : ¬ w.Points Y key q)
    (hx : ∀ y, x = some y → (atoi (Y.decode y.value).pid).1 ≠ q.pid) : ∃! k, w'.Points Y k q := by
  obtain ⟨k0, hk0, huniq⟩ := h
  have hne : k0 ≠ key := by
    rintro rfl
    exact hold hk0
  refine ⟨k0, ?_, fun k hk => ?_⟩
  · obtain ⟨y, hy, he⟩ := hk0
    exact ⟨y, by rw [hkv, Function.update_of_ne hne, hy], he⟩
  · obtain ⟨y, hy, he⟩ := hk
    rw [hkv] at hy
    by_cases hkey : k = key
    · subst k
      rw [Function.update_self] at hy
      exact absurd he (hx y hy)
    · rw [Function.update_of_ne hkey] at hy
      exact huniq k ⟨y, hy, he⟩

/-- Where its own record is written. -/
theorem existsUnique_of_eq {w w' : World} {key : String} {x : Entry} {q : Proc}
    (hkv : w'.kv = Function.update w.kv key (some x)) (hold : ∀ k, w.Points Y k q → k = key)
    (hx : (atoi (Y.decode x.value).pid).1 = q.pid) : ∃! k, w'.Points Y k q := by
  refine ⟨key, ⟨x, by rw [hkv, Function.update_self], hx⟩, fun k hk => ?_⟩
  obtain ⟨y, hy, he⟩ := hk
  by_contra hkey
  rw [hkv, Function.update_of_ne hkey] at hy
  exact hkey (hold k ⟨y, hy, he⟩)

/-- A workload that is in the process table now. -/
theorem Traceable.here (h : Traceable m) {i : Unit} {j : Job (Host Y G)} (hj : m.jobs i = some j)
    {q : Proc} (hq : World.Live m.world q) :
    (∃ ip, j.loc.page.stage = .running ip q.pid) ∨ ∃! key, World.Points Y m.world key q := by
  refine (h.traced q hq).imp_left ?_
  rintro ⟨p, ip, hp, hs⟩
  obtain rfl := Option.some.inj ((pagesOf_job hj).symm.trans hp)
  exact ⟨ip, hs⟩

theorem Traceable.set (hY : Y.Lawful) (h : Traceable m) (hset : Recorded m e) {i : Unit} {c : Choice}
    {loc : Local} {key text : String} {k : Bool → Go Unit}
    (hp : m.Performs e i c loc (.kv (.set key text)) k) {q : Proc} (hq : World.Live m.world q) :
    ∃! k, World.Points Y (perform Y G c loc m.world (.kv (.set key text))).2.2 k q := by
  have hkv := @perform_set Y G c loc m.world key text
  have hcond := hset i c loc key text k hp q hq
  have htr := h.here hp.2.1 hq
  by_cases hf : c.fault = some 0
  · rw [if_pos hf] at hkv hcond
    rcases htr with ⟨ip, hs⟩ | htr
    · exact absurd hs (hcond ip)
    · simpa only [points_congr hkv rfl] using htr
  · rw [if_neg hf] at hkv hcond
    by_cases hn : (atoi (Y.decode text).pid).1 = q.pid
    · rw [if_pos hn] at hcond
      exact existsUnique_of_eq hkv hcond hn
    · rw [if_neg hn] at hcond
      refine existsUnique_of_ne (htr.resolve_left ?_) hkv hcond fun y hy => by
        obtain rfl := Option.some.inj hy
        exact hn
      -- the record of a create that has started a workload has its pid
      rintro ⟨ip, hs⟩
      obtain ⟨rec, rfl, hrec⟩ := (h.ledger.ok hp).1
      rw [hY.decode_marshal] at hn
      have hs' : loc.ledger.stage = .running ip q.pid := hs
      rcases hrec with ⟨known, hst⟩ | ⟨pid, hst, hpid⟩
      · exact absurd (hs'.symm.trans hst) nofun
      · obtain ⟨_, rfl⟩ := Stage.running.inj (hs'.symm.trans hst)
        have hlt := h.range q hq
        have hle : q.pid ≤ maxInt := by
          unfold pidMax at hlt
          unfold maxInt
          omega
        rw [hpid, atoi_itoa hle] at hn
        exact hn rfl

theorem Traceable.del (h : Traceable m) (hdel : Dropped m e) {i : Unit} {c : Choice} {loc : Local}
    {key : String} {k : Bool → Go Unit} (hp : m.Performs e i c loc (.kv (.del key)) k) {q : Proc}
    (hq : World.Live m.world q) :
    ∃! k, World.Points Y (perform Y G c loc m.world (.kv (.del key))).2.2 k q := by
  have hkv := @perform_del Y G c loc m.world key
  have htr := (h.here hp.2.1 hq).resolve_left fun ⟨ip, hs⟩ => by
    obtain ⟨rec, hst⟩ := (h.ledger.ok hp).1
    have hs' : loc.ledger.stage = .running ip q.pid := hs
    exact absurd (hs'.symm.trans hst) nofun
  by_cases hf : c.fault = some 0
  · rw [if_pos hf] at hkv
    simpa only [points_congr hkv rfl] using htr
  · rw [if_neg hf] at hkv
    exact existsUnique_of_ne htr hkv (hdel i c loc key k hp hf q hq) nofun

/-- What one operation preserves. -/
theorem Traceable.acted (hY : Y.Lawful) (h : Traceable m) (hset : Recorded m e) (hdel : Dropped m e)
    {i : Unit} {c : Choice} {loc : Local} {o : Op} {k : o.Ret → Go Unit}
    (hp : m.Performs e i c loc o k) (q : Proc)
    (hq : World.Live (perform Y G c loc m.world o).2.2 q) : q.pid < pidMax ∧
      ((∃ ip, (perform Y G c loc m.world o).2.1.page.stage = .running ip q.pid) ∨
        ∃! key, World.Points Y (perform Y G c loc m.world o).2.2 key q) := by
  by_cases ho : o.WritesKv
  · have hproc : ¬ o.IsProc := by cases o <;> first | exact id | exact absurd ho id
    have hq' : World.Live m.world q := by
      unfold World.Live at hq ⊢
      rwa [@perform_procs Y G c loc m.world o hproc] at hq
    refine ⟨h.range q hq', .inr ?_⟩
    cases o with
    | kv o =>
      cases o with
      | get key => exact absurd ho id
      | set key text => exact h.set hY hset hp hq'
      | del key => exact h.del hdel hp hq'
    | _ => exact absurd ho id
  · have hm : Moves Y G False False c loc m.world o := moves_perform hY
      (h.ledger.ok hp) (fun hx => absurd hx id) (fun hx => absurd hx id)
    rcases live_of_move hm ho q hq with ⟨hs, hlt⟩ | ⟨q0, hq0, hpid, hs⟩
    · exact ⟨hlt, .inl ⟨q.ip, hs⟩⟩
    · refine ⟨hpid ▸ h.range q0 hq0, ?_⟩
      rcases h.here hp.2.1 hq0 with ⟨ip, hst⟩ | htr
      · exact .inl ⟨ip, hs ip (hpid ▸ hst)⟩
      · right
        simpa only [points_congr (@perform_kv Y G c loc m.world o ho) hpid] using htr

theorem Traceable.step (hY : Y.Lawful) (h : Traceable m) (hend : Recording m e) (hset : Recorded m e)
    (hdel : Dropped m e) : Traceable (m.apply e) := by
  suffices hs : ∀ q, World.Live (m.apply e).world q → q.pid < pidMax ∧
      ((∃ p ip, pagesOf (m.apply e) () = some p ∧ p.stage = .running ip q.pid) ∨
        ∃! key, World.Points Y (m.apply e).world key q) from
    ⟨h.ledger.apply e, fun q hq => (hs q hq).1, fun q hq => (hs q hq).2⟩
  have ended : ∀ {i j}, m.Ends e i j → ∀ {q}, World.Live m.world q → ∃! key, World.Points Y m.world key q := by
    intro i j he q hq
    have ⟨_, _, hj, _⟩ := he
    refine (h.here hj hq).resolve_left ?_
    rintro ⟨ip, hs⟩
    exact hend i j he ip q.pid hs q hq rfl
  apply Machine.apply_elim (P := fun m' => ∀ q, World.Live m'.world q → q.pid < pidMax ∧
    ((∃ p ip, pagesOf m' () = some p ∧ p.stage = .running ip q.pid) ∨
      ∃! key, World.Points Y m'.world key q)) m e
  case stay => exact fun q hq => ⟨h.range q hq, h.traced q hq⟩
  case launched =>
    intro i x loc p w _ hj he q hq
    have hq' : World.Live m.world q := live_of_enter he hq
    refine ⟨h.range q hq', .inr ?_⟩
    have htr := (h.traced q hq').resolve_left fun ⟨p', _, hp', _⟩ => by
      obtain ⟨j, hj', _⟩ := pagesOf_eq_some.mp hp'
      exact absurd (hj.symm.trans hj') nofun
    simpa only [points_congr (enter_stores he).kv rfl] using htr
  case dead => exact fun i j he _ q hq => ⟨h.range q hq, .inr (ended he hq)⟩
  case ended =>
    intro i j he _ q hq
    have hq' : World.Live m.world q := ⟨(Procs.mem_keep.mp hq.1).1, hq.2⟩
    exact ⟨h.range q hq', .inr (ended he hq')⟩
  case acted =>
    intro i c loc o k hp q hq
    obtain ⟨hlt, htr⟩ := h.acted hY hset hdel hp q hq
    refine ⟨hlt, htr.imp_left ?_⟩
    rintro ⟨ip, hs⟩
    exact ⟨_, ip, by rw [pagesOf_update]; exact Function.update_self .., hs⟩
  case disturbed =>
    intro d _ q hq
    have hq' : World.Live m.world q := live_of_disturb hq
    refine ⟨h.range q hq', ?_⟩
    have hkv : ∀ key, World.Points Y ((Host Y G).disturb d m.world) key q ↔
        World.Points Y m.world key q := points_congr (disturb_stores d).kv rfl
    simp only [hkv]
    exact h.traced q hq'

end Steps

theorem workloads_traced {m : Machine (Host Y G) Unit} {es : List (Event (Host Y G) Unit)}
    (hY : Y.Lawful) (hm : m.Idle) (hw : ∀ q, ¬ World.Live m.world q)
    (hc : Machine.Along (fun m e => Recording m e ∧ Recorded m e ∧ Dropped m e) m es) :
    Machine.Throughout (fun m => m.Idle → Traced Y m.world) m es := by
  have h0 : Traceable m := ⟨Watch.holds_of_idle hm, fun q hq => absurd hq (hw q),
    fun q hq => absurd hq (hw q)⟩
  refine (Machine.throughout_of_step (J := Traceable)
    (fun _ _ h hc => h.step hY hc.1 hc.2.1 hc.2.2) h0 hc).imp fun m h hm q hq => ?_
  refine (h.traced q hq).resolve_left ?_
  rintro ⟨p, ip, hp, _⟩
  rw [pagesOf_idle hm] at hp
  cases hp

/-- A test for `Recording`, `Recorded` and `Dropped`, on records under the given keys. -/
def tracing (keys : List String) (m : Machine (Host Y G) Unit) (e : Event (Host Y G) Unit) : Bool :=
  let pids := ((World.procs m.world).all.filter fun q => q.role = .workload).map Proc.pid
  let pidAt := fun key => (World.kv m.world key).map fun x => (atoi (Y.decode x.value).pid).1
  match e with
  | .act i c => decide (Choice.fault c = none) && match m.due i with
    | some (_, .kv (.set key text)) => pids.all fun pid =>
      if (atoi (Y.decode text).pid).1 = pid then keys.all fun k => k = key ∨ pidAt k ≠ some (pid : Int)
      else pidAt key ≠ some (pid : Int)
    | some (_, .kv (.del key)) => pids.all fun pid => pidAt key ≠ some (pid : Int)
    | some _ => true
    | none => (m.jobs i).all fun j =>
      match (Local.ledger j.loc).stage with
      | .running _ pid => decide (pid ∉ pids)
      | _ => true
  | _ => true

theorem tracing_sound {keys : List String} {m : Machine (Host Y G) Unit} {e : Event (Host Y G) Unit}
    (hkeys : RecordsIn keys m) (h : tracing keys m e = true) :
    Recording m e ∧ Recorded m e ∧ Dropped m e := by
  have live : ∀ q, World.Live m.world q →
      q.pid ∈ ((World.procs m.world).all.filter fun q => q.role = .workload).map Proc.pid := fun q hq =>
    List.mem_map.mpr ⟨q, List.mem_filter.mpr ⟨hq.1, decide_eq_true hq.2⟩, rfl⟩
  have points : ∀ key q, World.Points Y m.world key q → key ∈ keys ∧
      ((World.kv m.world key).map fun x => (atoi (Y.decode x.value).pid).1) = some (q.pid : Int) := by
    rintro key q ⟨x, hx, hat⟩
    refine ⟨by_contra fun hk => ?_, by rw [hx, Option.map_some, hat]⟩
    rw [hkeys key hk] at hx
    cases hx
  refine ⟨fun i j hend ip pid hs q hq hpid => ?_, fun i c loc key text k hp q hq => ?_,
    fun i c loc key k hp _ q hq hx => ?_⟩
  · have hdue := hend.due
    obtain ⟨c, rfl, hj, _⟩ := hend
    simp only [tracing, hdue, hj, Option.all_some, hs, Bool.and_eq_true, decide_eq_true_eq] at h
    exact h.2 (hpid ▸ live q hq)
  · have hdue := hp.due
    obtain ⟨rfl, _⟩ := hp
    simp only [tracing, hdue, Bool.and_eq_true, decide_eq_true_eq, List.all_eq_true] at h
    have hq' := h.2 q.pid (live q hq)
    rw [if_neg (by rw [h.1]; exact nofun)]
    split at hq'
    · rename_i hn
      rw [if_pos hn]
      intro key' hx
      obtain ⟨hmem, hat⟩ := points key' q hx
      have := of_decide_eq_true (List.all_eq_true.mp hq' key' hmem)
      exact this.resolve_right fun hne => hne hat
    · rename_i hn
      rw [if_neg hn]
      exact fun hx => of_decide_eq_true hq' (points key q hx).2
  · have hdue := hp.due
    obtain ⟨rfl, _⟩ := hp
    simp only [tracing, hdue, Bool.and_eq_true, decide_eq_true_eq, List.all_eq_true] at h
    exact h.2 q.pid (live q hq) (points key q hx).2

section Sample
open Sample

/-- The same service is created twice. -/
def twice : List (SampleEvent Unit) :=
  create () web 100 :: steps () 30 101 ++ create () web 110 :: steps () 30 111

/-- The process of the first create is in no record. -/
theorem twice_untraced : (∀ q, ¬ World.Live (start (ι := Unit)).world q) ∧ (∀ e ∈ twice, Faultless e) ∧
    ¬ Machine.Throughout (fun m => m.Idle → Traced yaml m.world) start twice := by
  refine ⟨fun q hq => start_workloads q hq.1 hq.2, by decide +kernel, fun h => ?_⟩
  have hidle : (start.run twice).Idle := idle_of_isNone (by decide +kernel)
  have hrun : RecordsIn ["service:web"] (start.run twice) := Machine.run_of_step
    (fun _ _ => recordsIn_step) (fun _ _ => rfl)
    (by decide +kernel : Machine.Along (fun m e => within ["service:web"] m e = true) start twice)
  have hlive : ∃ q ∈ (World.procs (start.run twice).world).all, q.role = .workload ∧ q.pid = 101 := by
    decide +kernel
  have hrec : (World.kv (start.run twice).world "service:web").map
      (fun x => (atoi (yaml.decode x.value).pid).1) = some 111 := by decide +kernel
  obtain ⟨q, hq, hrole, hpid⟩ := hlive
  obtain ⟨key, ⟨x, hx, hat⟩, _⟩ := h.last hidle q ⟨hq, hrole⟩
  by_cases hkey : key = "service:web"
  · subst key
    rw [hx, Option.map_some, hat, hpid] at hrec
    exact absurd hrec (by decide)
  · rw [hrun key (by simpa using hkey)] at hx
    cases hx

def comingKeys : List String := ["service:web", "service:blog", "database:users"]

theorem comings_traced :
    Machine.Throughout (fun m => m.Idle → Traced yaml m.world) start comings := by
  have htest : Machine.Along (fun m e => within comingKeys m e = true ∧ tracing comingKeys m e = true)
      start comings := by decide +kernel
  refine workloads_traced yaml_lawful start_idle (fun q hq => start_workloads q hq.1 hq.2) ?_
  exact Machine.along_of_step (J := RecordsIn comingKeys) (fun _ _ h hc => recordsIn_step h hc.1)
    (fun _ _ h hc => tracing_sound h hc.2) (fun _ _ => rfl) htest

end Sample
end PrivatePaas
