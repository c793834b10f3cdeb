import PrivatePaas.Registry.Creation
import PrivatePaas.Registry.Failing
import PrivatePaas.Registry.Removal
import PrivatePaas.Registry.Tidy
import PrivatePaas.Results.Sample

/-!
# What a delete takes from others

A delete that runs to its end spares the other workloads, whatever fails on the way, if
and only if nothing that its record or the pid file leads to is theirs.
-/

namespace PrivatePaas
set_option autoImplicit false
open Files Text Effects Go Network Prog PrivatePaas.Parser

variable {Y : Yaml} {G : GoIpam} {α β : Type}

section Ways
/-- What a delete goes on with when it has read a record. -/
def afterGet (key : String) (rec : Cmd.Service) : Go Unit := do
  Cmd.releaseOf rec
  let _ ← kill (atoi rec.pid).1 .sigkill
  let _ ← stopEnvoy
  Cmd.removeConfig rec
  let _ ← startEnvoy
  let _ ← del key
  return ()

theorem failing_releaseOf (rec : Cmd.Service) : failing (Cmd.releaseOf rec) = some () := by
  unfold Cmd.releaseOf
  split <;> rfl

theorem failing_removeConfig (rec : Cmd.Service) : failing (Cmd.removeConfig rec) = some () := by
  unfold Cmd.removeConfig
  split <;> rfl

theorem failing_stopEnvoy : failing stopEnvoy = some false := rfl

theorem failing_startEnvoy : failing startEnvoy = some none := rfl

end Ways

section Losses
variable {l : Local} {w : World} {key : String} {rec rec' : Cmd.Service}

/-- The delete runs to its end, and what it leaves is in `P`. -/
def Ending (P : World → Prop) : Option Unit → Local → World → Prop := fun r _ w => r = some () ∧ P w

variable {P : World → Prop}

/-- The address is handed back, and nothing else succeeds. -/
theorem may_release (hl : Running l w) {s : Finset String} (hs : w.pool = some s) (h0 : rec.ip ≠ "")
    (hc : cleanIP rec.ip ≠ "") (hm : cleanIP rec.ip ∈ s)
    (h : ∀ past, P { w with pool := some (s.erase (cleanIP rec.ip)), past := past }) :
    (Host Y G).may Anyhow (Ending P) l w (afterGet key rec) := by
  unfold afterGet Cmd.releaseOf releaseIp
  rw [if_neg h0]
  simp only [bind_assoc]
  refine may_getIpam hl hs fun l₁ past₁ h₁ => ?_
  dsimp only
  rw [if_neg hc]
  refine may_redis (hl.of_procs h₁ rfl) fun l₂ past₂ h₂ => ?_
  simp only [IpamOp.perform, hs, if_pos hm]
  refine may_failing (hl.of_procs (h₁.trans h₂) rfl) fun l₃ h₃ => ⟨?_, h past₂⟩
  simp [failing_stopEnvoy, failing_removeConfig, failing_startEnvoy]

/-- The signal goes out and does not reach the invocation. -/
theorem may_kill (hl : ∃ p ∈ w.procs, l.own p = true ∧ l.aims (atoi rec.pid).1 p = false)
    (h : ∀ past, P { (w.kill l (atoi rec.pid).1 .sigkill).2 with past := past }) :
    (Host Y G).may Anyhow (Ending P) l w (afterGet key rec) := by
  obtain ⟨p, hp, hown, hmiss⟩ := hl
  unfold afterGet
  refine may_skip ⟨p, hp, hown⟩ (failing_releaseOf rec) fun l₁ h₁ => ?_
  have hrun : Running l₁ w := Running.of_procs ⟨p, hp, hown⟩ h₁ rfl
  refine may_proc hrun fun l₂ past₂ h₂ => ?_
  have haims : (w.performProc l₁ {} (.kill (atoi rec.pid).1 .sigkill)).2 =
      (w.kill l (atoi rec.pid).1 .sigkill).2 := by
    change (w.kill l₁ (atoi rec.pid).1 .sigkill).2 = (w.kill l (atoi rec.pid).1 .sigkill).2
    unfold World.kill
    rw [h₁.aims]
  rw [haims]
  have hleft : Running l₂ { (w.kill l (atoi rec.pid).1 .sigkill).2 with past := past₂ } := by
    refine ⟨p, Procs.mem_keep.mpr ⟨hp, ?_⟩, ?_⟩
    · simp [hmiss]
    · rw [(h₁.trans h₂).own]
      exact hown
  refine may_failing hleft fun l₃ h₃ => ⟨?_, h past₂⟩
  simp [failing_stopEnvoy, failing_removeConfig, failing_startEnvoy]

/-- The pid in the pid file is found. -/
theorem may_findPid {Q : Option α → Local → World → Prop} {f : Option Int → Go α} (hl : Running l w) {n : Int}
    (hn : w.Marks l n) (h : ∀ l', l.Same l' → (Host Y G).may Anyhow Q l' w (f (some n))) :
    (Host Y G).may Anyhow Q l w (Utils.findPidForEnvoy >>= f) := by
  obtain ⟨⟨data, hdata, hat⟩, _, hthere⟩ := hn
  refine may_readFile hl fun l₁ h₁ => ?_
  rw [Tree.read_of_content hdata]
  simp only [bind_eq, ret_bind, hat]
  refine may_signal0 (hl.of_procs h₁ rfl) (by rw [h₁.aims]; exact hthere) fun l₂ h₂ => ?_
  exact h l₂ (h₁.trans h₂)

/-- SIGTERM goes to the pid in the pid file. -/
theorem may_term (hl : Running l w) {n : Int} (hn : w.Marks l n)
    (h : ∀ past, P { (w.kill l n .sigterm).2 with past := past }) :
    (Host Y G).may Anyhow (Ending P) l w (afterGet key rec) := by
  have hne : n ≠ 0 := hn.2.1
  unfold afterGet
  refine may_skip hl (failing_releaseOf rec) fun l₁ h₁ => ?_
  have hl₁ : Running l₁ w := hl.of_procs h₁ rfl
  refine may_skip (p := kill (atoi rec.pid).1 .sigkill) hl₁ rfl fun l₂ h₂ => ?_
  have hl₂ : Running l₂ w := hl₁.of_procs h₂ rfl
  unfold stopEnvoy
  rw [bind_assoc]
  refine may_findPid hl₂ (hn.same (h₁.trans h₂)) fun l₃ h₃ => ?_
  simp only [hne, if_false]
  have hsame : l.Same l₃ := (h₁.trans h₂).trans h₃
  refine may_proc (hl₂.of_procs h₃ rfl) fun l₄ past₄ h₄ => ?_
  have haims : (w.performProc l₃ {} (.kill n .sigterm)).2 = (w.kill l n .sigterm).2 := by
    change (w.kill l₃ n .sigterm).2 = (w.kill l n .sigterm).2
    unfold World.kill
    rw [hsame.aims]
  have hans : (w.performProc l₃ {} (.kill n .sigterm)).1 ≠ some .eperm := by
    change (if ∃ p ∈ w.procs.all, l₃.aims n p = true then none else some Errno.esrch) ≠ some .eperm
    split <;> simp
  rw [haims]
  have hl₄ : Running l₄ w := hl.of_procs (hsame.trans h₄) rfl
  have hleft : Running l₄ { (w.kill l n .sigterm).2 with past := past₄ } := hl₄.term rfl
  refine may_failing hleft fun l₅ h₅ => ⟨?_, h past₄⟩
  cases hr : (w.performProc l₃ {} (.kill n .sigterm)).1 with
  | none => simp [failing_removeConfig, failing_startEnvoy]
  | some err =>
    cases err with
    | eperm => exact absurd hr hans
    | esrch => simp [failing_removeConfig, failing_startEnvoy]

/-- The recorded file is removed. -/
theorem may_removeConfig (hl : Running l w) (h0 : rec.configFileName ≠ "")
    (h : ∀ past, P { w with fs := (FsOp.perform {} w.cwd w.fs (.remove (split '/' rec.configFileName))).2, past := past }) :
    (Host Y G).may Anyhow (Ending P) l w (afterGet key rec) := by
  unfold afterGet Cmd.removeConfig
  refine may_skip hl (failing_releaseOf rec) fun l₁ h₁ => ?_
  have hl₁ : Running l₁ w := hl.of_procs h₁ rfl
  refine may_skip (p := kill (atoi rec.pid).1 .sigkill) hl₁ rfl fun l₂ h₂ => ?_
  have hl₂ : Running l₂ w := hl₁.of_procs h₂ rfl
  refine may_skip hl₂ failing_stopEnvoy fun l₃ h₃ => ?_
  have hl₃ : Running l₃ w := hl₂.of_procs h₃ rfl
  rw [if_neg h0]
  refine may_fs hl₃ fun l₄ past₄ h₄ => ?_
  refine may_failing (hl₃.of_procs h₄ rfl) fun l₅ h₅ => ⟨?_, h past₄⟩
  simp [failing_startEnvoy]

end Losses

section Delete
variable {l : Local} {w : World} {key type_ name : String} {e e' : Entry} {rec' : Cmd.Service}

theorem may_deleteProcess {Q : Option Unit → Local → World → Prop} (hl : Running l w)
    (he : w.kv (type_ ++ ":" ++ name) = some e')
    (h : ∀ l', l.Same l' → (Host Y G).may Anyhow Q l' w (afterGet (type_ ++ ":" ++ name) (Y.decode e'.value))) :
    (Host Y G).may Anyhow Q l w (Cmd.deleteProcess Y name type_) := by
  refine may_get hl fun l₁ h₁ => ?_
  rw [he, Option.map_some]
  exact h l₁ h₁

/-- A delete that always spares the other leads to nothing of the other's. -/
theorem avoids_of_spared (hl : Running l w) (he : w.kv (type_ ++ ":" ++ name) = some e')
    (hspare : ∀ c, ((Host Y G).exec c l w (Cmd.deleteProcess Y name type_)).result = some () →
      Left key e rec' w ((Host Y G).exec c l w (Cmd.deleteProcess Y name type_)).world) :
    Avoids l w (Y.decode e'.value) e.author rec' := by
  have exclude : (∀ l', l.Same l' → (Host Y G).may Anyhow (Ending fun w' => ¬ Left key e rec' w w') l' w
      (afterGet (type_ ++ ":" ++ name) (Y.decode e'.value))) → False := by
    intro h
    obtain ⟨c, _, hend, hleft⟩ := (System.may_iff_exec (Y := Host Y G) (C := Anyhow) ({} : Choice) trivial).mp
      (may_deleteProcess hl he h)
    exact hleft (hspare c hend)
  constructor
  case address =>
    intro h0 hc heq hal
    obtain ⟨s, hs, ha⟩ := hal
    refine exclude fun l₁ h₁ => may_release (hl.of_procs h₁ rfl) hs h0 hc (heq ▸ ha) fun past hleft => ?_
    obtain ⟨s', hs', ha'⟩ := hleft.spared.address ⟨s, hs, ha⟩
    obtain rfl := Option.some.inj hs'
    exact (Finset.mem_erase.mp ha').1 heq.symm
  case kill =>
    intro hself q hq hr ho haim
    obtain ⟨p, hp, hown, hmiss⟩ := hself
    by_contra h1
    refine exclude fun l₁ h₁ => may_kill ⟨p, hp, by rw [h₁.own]; exact hown, by rw [h₁.aims]; exact hmiss⟩
      fun past hleft => ?_
    have hmem := (Procs.mem_keep.mp (hleft.spared.process q hq hr ho)).2
    rw [h₁.aims, haim] at hmem
    simp [h1] at hmem
  case term =>
    intro n hn q hq hr ho haim
    by_contra ht
    refine exclude fun l₁ h₁ => may_term (hl.of_procs h₁ rfl) (hn.same h₁) fun past hleft => ?_
    have hmem := Procs.mem_of_term (hleft.spared.process q hq hr ho) (by simpa using ht)
    rw [h₁.aims, haim] at hmem
    exact absurd hmem.2 (by simp)
  case fragment =>
    intro h0 hc hw
    by_contra hne
    obtain ⟨data, hdata⟩ := Option.ne_none_iff_exists'.mp hne
    refine exclude fun l₁ h₁ => may_removeConfig (hl.of_procs h₁ rfl) h0 fun past hleft => ?_
    obtain ⟨t, ht, hcontent⟩ := remove_of_walk hw hdata
    have hkept := hleft.spared.fragment hc fun hec => by rw [← hec, hdata]; simp
    simp only [FsOp.perform, ht] at hkept
    rw [hcontent, if_pos rfl, hdata] at hkept
    cases hkept

end Delete

section Runs
variable {ι : Type} [DecidableEq ι] {m : Machine (Host Y G) ι} {es : List (Event (Host Y G) ι)}
variable {l : Local} {w : World} {p : Go Unit} {x : Launch} {type_ name : String} {e : Entry}

theorem running_of_enter {w₀ : World} (h : enter Y x w₀ = some (l, p, w)) : Running l w ∧ 1 < l.pid := by
  unfold enter at h
  split at h
  · rename_i hx
    simp only [Option.some.injEq, Prod.mk.injEq] at h
    obtain ⟨rfl, rfl, rfl⟩ := h
    exact ⟨⟨_, (Procs.mem_add (h := hx.1)).mpr (.inl rfl), by simp [Local.own, Launch.process, Launch.invocation]⟩, hx.2.1⟩
  · cases h

theorem program_of_delete {w₀ : World} (h : enter Y x w₀ = some (l, p, w)) (hx : x.task = .delete type_ name)
    (ht : type_ = "service" ∨ type_ = "database") : p = Cmd.deleteProcess Y name type_ := by
  obtain ⟨_, hp, _⟩ := enter_spec h
  rw [hp, hx]
  change Cmd.runDelete Y type_ name = _
  unfold Cmd.runDelete
  rw [if_neg fun hne => ht.elim hne.1 hne.2]

/-- A delete that is launched in a reachable state and runs to its end leaves every other
registered workload its record, its process, its allocated address and its fragment,
whatever fails meanwhile, if and only if the recorded address, pid and path and the pid
in the pid file lead to nothing of the other's. -/
theorem delete_spares_iff (hY : Y.Lawful) (hm : m.Idle) (hw : World.Untouched m.world)
    (he : enter Y x (m.run es).world = some (l, p, w)) (hx : x.task = .delete type_ name)
    (ht : type_ = "service" ∨ type_ = "database") (hk : w.kv (type_ ++ ":" ++ name) = some e) :
    (∀ c, ((Host Y G).exec c l w p).result = some () → ∀ key' e', key' ≠ type_ ++ ":" ++ name →
      w.kv key' = some e' → Left key' e' (Y.decode e'.value) w ((Host Y G).exec c l w p).world) ↔
    ∀ key' e', key' ≠ type_ ++ ":" ++ name → w.kv key' = some e' →
      Avoids l w (Y.decode e.value) e'.author (Y.decode e'.value) := by
  obtain ⟨hl, h1⟩ := running_of_enter he
  have hprog := program_of_delete he hx ht
  have hfiled : World.AllFiled Y w := by
    have hempty : World.AllFiled Y m.world := fun k e' hk' => by
      rw [hw.registry k] at hk'
      cases hk'
    exact (allFiled_run hY (Watch.holds_of_idle hm) hempty es).of_kv (enter_stores he).kv
  subst hprog
  constructor
  · intro hall key' e' hne hk'
    exact avoids_of_spared hl hk fun c hend => hall c hend key' e' hne hk'
  · intro hall c hend key' e' hne hk'
    have hwp := (System.wp_iff_exec (Y := Host Y G) (C := Anyhow) ({} : Choice) trivial).mp
      (wp_deleteProcess (hfiled key' e' hk').2 h1 hne hk (hall key' e' hne hk')) c fun _ => trivial
    exact hwp hend

end Runs

namespace Sample

/-- A service exits, and its pid goes to a database. -/
def reused : List (SampleEvent Unit) :=
  create () web 100 :: steps () 30 101 ++ .env (.exit 101) :: create () users 110 :: steps () 60 101

def removal : Launch := ⟨.delete "service" "web", 120, 0⟩

/-- What the pid of the deleted record names is the process of the other one. -/
def Mistaken (l : Local) (w : World) (e e' : Entry) : Bool :=
  (∃ q ∈ w.procs.all, q.role = .workload ∧ q.owner = e'.author ∧ q.pid ≠ 1 ∧
    l.aims (atoi (yaml.decode e.value).pid).1 q = true) ∧
  ∃ q ∈ w.procs.all, l.own q = true ∧ l.aims (atoi (yaml.decode e.value).pid).1 q = false

/-- Such a delete kills the database. -/
theorem reused_taken : ∃ l p w, enter yaml removal (start.run reused).world = some (l, p, w) ∧
    ¬ ∀ c, ((Host yaml lowestFree).exec c l w p).result = some () → ∀ key' e', key' ≠ "service" ++ ":" ++ "web" →
      w.kv key' = some e' →
      Left key' e' (yaml.decode e'.value) w ((Host yaml lowestFree).exec c l w p).world := by
  have hsome : (enter yaml removal (start.run reused).world).any (fun r =>
      (r.2.2.kv ("service" ++ ":" ++ "web")).any fun e => (r.2.2.kv "database:users").any fun e' =>
        Mistaken r.1 r.2.2 e e') = true := by decide +kernel
  obtain ⟨⟨l, p, w⟩, hr, hr'⟩ := (Option.any_eq_true _ _).mp hsome
  obtain ⟨e, he, he'⟩ := (Option.any_eq_true _ _).mp hr'
  obtain ⟨e', hk, hmis⟩ := (Option.any_eq_true _ _).mp he'
  obtain ⟨⟨q, hq, hrole, howner, h1, haim⟩, hself⟩ := of_decide_eq_true hmis
  refine ⟨l, p, w, hr, fun hall => ?_⟩
  have ha := (delete_spares_iff yaml_lawful start_idle ⟨fun _ => rfl, start_workloads, rfl⟩ hr rfl
    (.inl rfl) he).mp hall "database:users" e' (by decide) hk
  exact h1 (ha.kill hself q hq hrole howner haim)

end Sample
end PrivatePaas
