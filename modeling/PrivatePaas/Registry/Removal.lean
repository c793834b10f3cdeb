import PrivatePaas.Registry.Filing
import PrivatePaas.Registry.Rewriting

/-!
# What a delete takes away

Whatever fails, a delete takes from the other workloads no more than what the record
that it has read, or the pid file, leads to: an address, a process, a file.
-/

namespace PrivatePaas
set_option autoImplicit false
open Files Text Effects Go Network Prog PrivatePaas.Parser

variable {Y : Yaml} {G : GoIpam} {α β : Type}

section Paths
variable {t : Tree} {u : String} {q : Path}

/-- One component after another, as `clean` takes them. -/
theorem eq_foldl_of_walk {cs : List String} {cur : Path} (h : t.walk cur cs = .ok q) :
    q = cs.foldl (fun q c => if c = "" ∨ c = "." then q else if c = ".." then q.dropLast else q ++ [c]) cur := by
  induction cs generalizing cur with
  | nil => exact (Except.ok.inj h).symm
  | cons c cs ih =>
    simp only [Tree.walk] at h
    rw [List.foldl_cons]
    split at h
    · split at h
      · rename_i hc
        rw [if_pos hc]
        exact ih h
      · rename_i hc
        rw [if_neg hc]
        split at h
        · rename_i hup
          rw [if_pos hup]
          exact ih h
        · rename_i hup
          rw [if_neg hup]
          exact ih h
    · split at h <;> cases h

/-- Where a path leads is what is left of it when it is cleaned. -/
theorem eq_clean_of_walk {p : Path} (h : t.walk [] p = .ok q) : q = clean p := eq_foldl_of_walk h

/-- The directories that the name of an upstream goes through. -/
def passage (u : String) : Path := (split '/' (u ++ ".yaml")).dropLast

/-- The last name of the path. -/
theorem split_yaml (u : String) : ∃ n, split '/' (u ++ ".yaml") = passage u ++ [n] ∧ Proper n ∧
    ".yaml".toList <:+ n.toList := by
  obtain ⟨ds, v, h⟩ := split_append (c := '/') u ".yaml" (by decide)
  have hend := suffix_append v ".yaml"
  refine ⟨v ++ ".yaml", ?_, proper_of_yaml hend, hend⟩
  rw [passage, h, List.dropLast_concat]

/-- The path that is recorded, component by component. -/
theorem split_configPath (u : String) :
    split '/' (Cmd.envoyConfigPath u) = "" :: (envoyConfDir ++ split '/' (u ++ ".yaml")) := by
  have hcut : Cmd.envoyConfigPath u = "/etc/envoy/conf.d" ++ ("/" ++ (u ++ ".yaml")) := by
    have hdir : "/etc/envoy/conf.d/".toList = "/etc/envoy/conf.d".toList ++ "/".toList := by decide
    apply String.toList_inj.mp
    unfold Cmd.envoyConfigPath
    rw [String.toList_append, String.toList_append, String.toList_append, String.toList_append,
      String.toList_append, List.append_assoc, hdir, List.append_assoc]
  have hslash : ("/" ++ (u ++ ".yaml")).toList = '/' :: (u ++ ".yaml").toList := by
    rw [String.toList_append]
    rfl
  have hfixed : split '/' "/etc/envoy/conf.d" = "" :: envoyConfDir := by decide +kernel
  rw [hcut, split_append_cons _ hslash, hfixed, List.cons_append]

/-- The empty name in front leads nowhere else. -/
theorem walk_configPath (u : String) :
    t.walk [] (split '/' (Cmd.envoyConfigPath u)) = t.walk [] (envoyConfDir ++ split '/' (u ++ ".yaml")) := by
  rw [split_configPath, Tree.walk, if_pos (.inl rfl), if_pos (.inl rfl)]

/-- A file that is there is removed by a path that leads to it. -/
theorem remove_of_walk {p : Path} {data : String} (hw : t.walk [] p = .ok q) (h : t.content q = some data) :
    ∃ t', t.remove p = some t' ∧ ∀ q', t'.content q' = if q' = q then none else t.content q' := by
  have hchildless : t.Childless q := by
    intro p' hp' hd
    have hf := (t.fits p' (AList.mem_keys.mp hp')).parent
    rw [hd] at hf
    exact Tree.not_isDir_of_content h hf
  refine ⟨t.drop q hchildless, ?_, Tree.content_drop hchildless⟩
  rw [Tree.remove, hw]
  exact dif_pos ⟨Tree.mem_of_content h, hchildless⟩

/-- A path leads where it led when there were more directories. -/
theorem walk_of_fewer {t' : Tree} (h : ∀ q, t'.isDir q → t.isDir q) {cs : List String} {cur : Path}
    (hw : t'.walk cur cs = .ok q) : t.walk cur cs = .ok q := by
  induction cs generalizing cur with
  | nil => exact hw
  | cons c cs ih =>
    simp only [Tree.walk] at hw ⊢
    split at hw
    · rename_i hd
      rw [if_pos (h cur hd)]
      split at hw
      · rename_i hc
        rw [if_pos hc]
        exact ih hw
      · rename_i hc
        rw [if_neg hc]
        split at hw
        · rename_i hup
          rw [if_pos hup]
          exact ih hw
        · rename_i hup
          rw [if_neg hup]
          exact ih hw
    · split at hw <;> cases hw

/-- What a removal does: one entry goes, the one that the path leads to. -/
theorem remove_cases {t' : Tree} {p : Path} (h : t.remove p = some t') : ∃ q, t.walk [] p = .ok q ∧
    (∀ q', t'.content q' = if q' = q then none else t.content q') ∧ ∀ q', t'.isDir q' → t.isDir q' := by
  obtain ⟨q, hw, hc⟩ := Tree.remove_spec h
  refine ⟨q, hw, hc, fun q' hd => ?_⟩
  rw [Tree.remove, hw] at h
  dsimp only at h
  split at h
  · rename_i hq
    obtain rfl := Option.some.inj h
    rcases hd with hd | hd
    · exact .inl hd
    · right
      by_cases hqq : q' = q
      · subst q'
        rw [Tree.drop, AList.lookup_erase] at hd
        cases hd
      · rwa [Tree.drop, AList.lookup_erase_ne hqq] at hd
  · cases h

/-- The file that a recorded path names. -/
def fragmentFile (rec : Cmd.Service) : Path := clean (split '/' rec.configFileName)

theorem clean_configPath (u : String) : clean (split '/' (Cmd.envoyConfigPath u)) = serviceConfPath u := by
  rw [split_configPath, serviceConfPath]
  rfl

end Paths

section Operations
variable {C : (Host Y G).Choice → Prop} {c : Choice} {l : Local} {w w' : World} {o : Op}

/-- An operation that takes nothing away and writes no fragment. -/
def Modest : Op → Prop
  | .kv (.get _) => True
  | .kv _ => False
  | .ipam _ (.releaseIP _) => False
  | .proc (.kill _ _) => False
  | .fs o => o.OffYaml
  | _ => True

theorem Modest.sparesYaml (h : Modest o) : SparesYaml o := by
  cases o with
  | fs o => exact h
  | _ => trivial

theorem Modest.remnant {n : Nat} {o' : Op} (h : Modest o) (hr : o.remnant n = some o') : Modest o' := by
  cases o with
  | fs o =>
    obtain ⟨o'', rfl⟩ : ∃ o'', o' = .fs o'' := by
      cases o <;> cases hr <;> exact ⟨_, rfl⟩
    exact FsOp.OffYaml.remnant h hr
  | proc o => cases hr
  | _ => cases hr; exact h

/-- What a record says its workload has is still there. Where the configuration of Envoy
is missing, it may appear. -/
structure Spared (a : Nat) (rec : Cmd.Service) (w w' : World) : Prop where
  process : ∀ q ∈ w.procs.all, q.role = .workload → q.owner = a → q ∈ w'.procs
  address : w.Allocated rec.ip → w'.Allocated rec.ip
  fragment : rec.configFileName ≠ "" → (fragmentFile rec = envoyConfig → w.fs.content envoyConfig ≠ none) →
    w'.fs.content (fragmentFile rec) = w.fs.content (fragmentFile rec)

theorem Spared.refl (a : Nat) (rec : Cmd.Service) (w : World) : Spared a rec w w :=
  ⟨fun _ hq _ _ => hq, id, fun _ _ => rfl⟩

theorem Spared.trans {a : Nat} {rec : Cmd.Service} {w₁ w₂ w₃ : World} (h : Spared a rec w₁ w₂)
    (h' : Spared a rec w₂ w₃) : Spared a rec w₁ w₃ :=
  ⟨fun q hq hr hp => h'.process q (h.process q hq hr hp) hr hp, fun ha => h'.address (h.address ha),
    fun hc hne => (h'.fragment hc fun he => by
      have h₁ := h.fragment hc hne
      rw [he] at h₁
      rw [h₁]
      exact hne he).trans (h.fragment hc hne)⟩

theorem Filed.yamlFile {rec : Cmd.Service} (h : Filed rec) (hc : rec.configFileName ≠ "") :
    YamlFile (fragmentFile rec) := by
  obtain ⟨u, hu⟩ := h.resolve_left hc
  rw [fragmentFile, hu, clean_configPath]
  exact yamlFile_serviceConfPath u

theorem Modest.not_writesKv (h : Modest o) : ¬ o.WritesKv := by
  cases o with
  | kv o => cases o <;> first | exact id | exact absurd h id
  | _ => exact id

theorem Modest.act_procs (h : Modest o) {q : Proc} (hq : q ∈ w.procs) : q ∈ (act G c l w o).2.2.procs := by
  by_cases ho : o.IsProc
  · cases o with
    | proc o =>
      cases o with
      | start cmd =>
        change q ∈ (w.start l c cmd).2.procs
        unfold World.start
        split
        · rename_i hx
          exact (Procs.mem_add (h := hx.1)).mpr (.inr hq)
        · exact hq
      | kill n sg => exact absurd h id
      | _ => exact hq
    | _ => exact absurd ho id
  · rw [PrivatePaas.act_procs ho]
    exact hq

theorem Modest.allocated (h : Modest o) {a : String} (ha : w.Allocated a) :
    (perform Y G c l w o).2.2.Allocated a := by
  obtain ⟨s, hs, ha⟩ := ha
  by_cases ho : o.OnPool
  · cases o with
    | ipam st o =>
      cases st with
      | memory => exact absurd ho id
      | redis =>
        have hp := @perform_redis_pool Y G c l w o
        unfold World.Allocated
        rw [hp]
        split
        · exact ⟨s, hs, ha⟩
        · rw [hs]
          cases o with
          | prefixFrom => exact ⟨s, rfl, ha⟩
          | newPrefix => exact ⟨s, rfl, ha⟩
          | acquireSpecificIP b =>
            simp only [IpamOp.perform]
            split
            · exact ⟨s, rfl, ha⟩
            · exact ⟨_, rfl, Finset.mem_insert_of_mem ha⟩
          | acquireIP =>
            simp only [IpamOp.perform]
            split
            · exact ⟨s, rfl, ha⟩
            · exact ⟨_, rfl, Finset.mem_insert_of_mem ha⟩
          | releaseIP b => exact absurd h id
    | _ => exact absurd ho id
  · unfold World.Allocated
    rw [perform_pool ho]
    exact ⟨s, hs, ha⟩

/-- Whatever fails, such an operation spares every workload. -/
theorem Modest.spared (h : Modest o) {a : Nat} {rec : Cmd.Service} (hrec : Filed rec) :
    Spared a rec w (perform Y G c l w o).2.2 := by
  refine ⟨fun q hq _ _ => ?_, h.allocated, fun hc hne => ?_⟩
  · exact attempt_elim (P := fun x => q ∈ x.2.2.procs) (h.act_procs hq) hq
      fun _ _ hr => (h.remnant hr).act_procs hq
  · exact h.sparesYaml.yamlKept.content _ (hrec.yamlFile hc)

end Operations

section Programs
variable {C : (Host Y G).Choice → Prop} {l : Local} {w : World}

/-- What is registered under a key, and what its workload has. -/
structure Left (key : String) (e : Entry) (rec : Cmd.Service) (w w' : World) : Prop where
  kv : w.kv key = some e → w'.kv key = some e
  spared : Spared e.author rec w w'

theorem Left.refl (key : String) (e : Entry) (rec : Cmd.Service) (w : World) : Left key e rec w w :=
  ⟨id, .refl _ rec w⟩

theorem Left.trans {key : String} {e : Entry} {rec : Cmd.Service} {w₁ w₂ w₃ : World}
    (h : Left key e rec w₁ w₂) (h' : Left key e rec w₂ w₃) : Left key e rec w₁ w₃ :=
  ⟨fun hk => h'.kv (h.kv hk), h.spared.trans h'.spared⟩

theorem Modest.left {c : Choice} {o : Op} (h : Modest o) {key : String} {e : Entry} {rec : Cmd.Service}
    (hrec : Filed rec) : Left key e rec w (perform Y G c l w o).2.2 :=
  ⟨fun hk => (congrFun (perform_kv h.not_writesKv) key).trans hk, h.spared hrec⟩

theorem wp_modest {key : String} {e : Entry} {rec : Cmd.Service} (hrec : Filed rec) {p : Go α}
    (h : p.Only Modest) : (Host Y G).wp C (fun _ _ w' => Left key e rec w w') l w p :=
  System.wp_of_only (Y := Host Y G) (I := fun _ w' => Left key e rec w w')
    (fun _ _ _ _ _ ho hI _ => hI.trans (ho.left hrec)) h (.refl ..)

theorem Plain.modest {o : Op} (h : Plain o) : Modest o := by
  cases o with
  | fs o => exact offYaml_of_offLb (Plain.offLb h)
  | proc o => cases o <;> trivial
  | kv o => exact absurd h id
  | ipam st o => exact absurd h id
  | _ => trivial

/-- An operation that asks for Redis, the prefix or an address. -/
def Asking : Op → Prop
  | .probe _ => True
  | .ipam _ (.releaseIP _) => False
  | .ipam _ _ => True
  | _ => False

theorem Asking.modest {o : Op} (h : Asking o) : Modest o ∧ ¬ o.IsProc ∧ ¬ o.IsFs := by
  cases o with
  | probe o => exact ⟨trivial, id, id⟩
  | ipam st o => cases o <;> first | exact ⟨trivial, id, id⟩ | exact absurd h id
  | _ => exact absurd h id

theorem asking_getIpam : Only Asking getIpam := by
  have h : Only Asking selectStorage := by simp [selectStorage, Asking]
  refine h.bind fun st => ⟨trivial, fun r => only_ite.mpr ⟨fun _ => trivial, fun _ => ⟨trivial, fun r => ?_⟩⟩⟩
  cases r with
  | failed => trivial
  | created => exact ⟨trivial, fun _ => trivial⟩
  | already => exact ⟨trivial, fun _ => trivial⟩

theorem modest_getOrAcquireEnvoyIp : Only Modest getOrAcquireEnvoyIp := by
  refine (asking_getIpam.mono fun _ h => h.modest.1).bind fun st => ?_
  cases st with
  | none => trivial
  | some st =>
    refine ⟨trivial, fun r => ?_⟩
    cases r <;> trivial

/-- What is not there can only be written. -/
theorem Left.bootstrap {c : Choice} {data : String} {key : String} {e : Entry} {rec : Cmd.Service}
    (h : w.fs.content envoyConfig = none) :
    Left key e rec w (perform Y G c l w (.fs (.writeFile envoyConfig data))).2.2 := by
  have hprocs : (perform Y G c l w (.fs (.writeFile envoyConfig data))).2.2.procs = w.procs := perform_procs id
  have hpool : (perform Y G c l w (.fs (.writeFile envoyConfig data))).2.2.pool = w.pool := perform_pool id
  refine ⟨fun hk => (congrFun (perform_kv id) key).trans hk, fun q hq _ _ => hprocs ▸ hq, fun ha => ?_,
    fun hc hne => ?_⟩
  · unfold World.Allocated
    rw [hpool]
    exact ha
  · have hoff : fragmentFile rec ≠ envoyConfig := fun he => hne he h
    have hstore : ∀ d, (FsOp.store w.fs envoyConfig fun _ => d).2.content (fragmentFile rec) =
        w.fs.content (fragmentFile rec) := fun _ => store_content_of_ne (by decide) hoff
    refine attempt_elim (P := fun x => x.2.2.fs.content (fragmentFile rec) = w.fs.content (fragmentFile rec))
      (hstore _) rfl fun n o' hr => ?_
    cases hr
    exact hstore _

/-- Nothing stands where `stat` does not find anything. -/
theorem perform_stat {c : Choice} {p : Path} (h : (perform Y G c l w (.fs (.stat p))).1 = .error .notExist) :
    (perform Y G c l w (.fs (.stat p))).2.2.fs.content p = none := by
  have hworld : (perform Y G c l w (.fs (.stat p))).2.2.fs = w.fs := by
    refine attempt_elim (P := fun x => x.2.2.fs = w.fs) rfl rfl fun n o' hr => ?_
    cases hr
    rfl
  rw [hworld]
  cases hc : w.fs.content p with
  | none => rfl
  | some data => exact absurd h (stat_of_content hc)

theorem wp_ensureConfig {key : String} {e : Entry} {rec : Cmd.Service} (hrec : Filed rec) :
    (Host Y G).wp C (fun _ _ w' => Left key e rec w w') l w ensureConfig := by
  have hmkdir : Modest (.fs (.mkdirAll ["run"])) := ⟨fun _ hp => absurd hp id, nofun⟩
  have hstat : Modest (.fs (.stat envoyConfig)) := ⟨fun _ hp => absurd hp id, nofun⟩
  refine wp_op (.refl ..) fun c₁ r₁ _ _ => ?_
  have h₁ := @Modest.left Y G l w c₁ _ hmkdir key e rec hrec
  refine wp_op h₁ fun c₂ r₂ _ hr => ?_
  have h₂ : Left key e rec w (perform Y G c₂ (perform Y G c₁ l w (.fs (.mkdirAll ["run"]))).2.1
      (perform Y G c₁ l w (.fs (.mkdirAll ["run"]))).2.2 (.fs (.stat envoyConfig))).2.2 :=
    h₁.trans (hstat.left hrec)
  cases r₂ with
  | ok _ => exact h₂
  | error err =>
    cases err with
    | other => exact h₂
    | notExist => exact wp_op h₂ fun _ _ _ _ => h₂.trans (.bootstrap (perform_stat hr))

theorem modest_launchEnvoy : Only Modest launchEnvoy := by
  have hlog : Harmless ["var", "log", "envoy-paas.log"] := harmless_concat ["var", "log"] (by decide)
  refine (plain_envoyBinary.mono fun _ => Plain.modest).bind fun bin => ?_
  refine ⟨offYaml_of_offLb (o := .openAppend _) hlog, fun _ => ⟨trivial, fun r => ?_⟩⟩
  cases r with
  | none => trivial
  | some pid =>
    refine ((plain_moveToCgroup pid).mono fun _ => Plain.modest).bind fun _ => ?_
    refine ⟨offYaml_of_offLb (o := .writeFile _ _) (.inr rfl), fun _ => ?_⟩
    refine modest_getOrAcquireEnvoyIp.bind fun r => ?_
    cases r with
    | none => trivial
    | some ip => exact ((plain_connectEnvoy pid ip).mono fun _ => Plain.modest).bind fun _ => trivial

end Programs
/-- The pid file says `n`, which is not zero, and a signal of `l` to `n` goes to someone. -/
def World.Marks (w : World) (l : Local) (n : Int) : Prop :=
  (∃ data, w.fs.content envoyPidFile = some data ∧ atoi (trimSpace data) = (n, true)) ∧
    n ≠ 0 ∧ ∃ p ∈ w.procs.all, l.aims n p = true

/-- A SIGTERM of `l` to the pid in the pid file changes no process of `a`. -/
def Unaimed (l : Local) (w : World) (a : Nat) : Prop :=
  ∀ n, w.Marks l n → ∀ q ∈ w.procs.all, q.role = .workload → q.owner = a → l.aims n q = true → q.termed = true

/-- What the delete of `rec` by `l` comes to leads to nothing that the workload of `rec'`
has. A signal that reaches the invocation itself is the last thing it does. -/
structure Avoids (l : Local) (w : World) (rec : Cmd.Service) (a : Nat) (rec' : Cmd.Service) : Prop where
  address : rec.ip ≠ "" → cleanIP rec.ip ≠ "" → cleanIP rec.ip = rec'.ip → ¬ w.Allocated rec'.ip
  kill : (∃ p ∈ w.procs.all, l.own p = true ∧ l.aims (atoi rec.pid).1 p = false) →
    ∀ q ∈ w.procs.all, q.role = .workload → q.owner = a →
      l.aims (atoi rec.pid).1 q = true → q.pid = 1
  term : Unaimed l w a
  fragment : rec.configFileName ≠ "" → rec'.configFileName ≠ "" →
    w.fs.walk [] (split '/' rec.configFileName) = .ok (fragmentFile rec') →
    w.fs.content (fragmentFile rec') = none

section Delete
variable {C : (Host Y G).Choice → Prop} {c : Choice} {l l₀ : Local} {w w₀ : World}
variable {key : String} {e : Entry} {rec rec' : Cmd.Service}

theorem Local.Same.aims {l' : Local} (h : l.Same l') (n : Int) : l'.aims n = l.aims n := by
  unfold Local.aims
  rw [h.pid, h.pgid]

theorem World.Marks.same {l' : Local} {n : Int} (h : w.Marks l n) (hl : l.Same l') : w.Marks l' n := by
  unfold World.Marks
  rw [hl.aims]
  exact h

/-- The state of a delete that has not come to its signal. -/
structure Unsent (key : String) (e : Entry) (rec' : Cmd.Service) (l₀ : Local) (w₀ : World) (l : Local)
    (w : World) : Prop where
  same : l₀.Same l
  left : Left key e rec' w₀ w
  procs : w.procs = w₀.procs
  fs : w.fs = w₀.fs

/-- The state of an invocation that has not come to its SIGTERM. -/
structure Untermed (key : String) (e : Entry) (rec' : Cmd.Service) (l₀ : Local) (w₀ : World) (l : Local)
    (w : World) : Prop where
  same : l₀.Same l
  left : Left key e rec' w₀ w
  pids : ∀ p ∈ w.procs, ∃ p₀ ∈ w₀.procs, p₀.pid = p.pid ∧ p₀.pgid = p.pgid
  pidFile : ∀ data, w.fs.content envoyPidFile = some data → w₀.fs.content envoyPidFile = some data

/-- The state of a delete that has not come to the start of Envoy. -/
structure Unstarted (key : String) (e : Entry) (rec' : Cmd.Service) (l₀ : Local) (w₀ : World) (l : Local)
    (w : World) : Prop extends Untermed key e rec' l₀ w₀ l w where
  dirs : ∀ q, w.fs.isDir q → w₀.fs.isDir q

theorem Unsent.modest (h : Unsent key e rec' l₀ w₀ l w) (hrec : Filed rec') {o : Op}
    (ho : Modest o ∧ ¬ o.IsProc ∧ ¬ o.IsFs) :
    Unsent key e rec' l₀ w₀ (perform Y G c l w o).2.1 (perform Y G c l w o).2.2 :=
  ⟨h.same.trans same_perform, h.left.trans (ho.1.left hrec), (perform_procs ho.2.1).trans h.procs,
    (perform_fs ho.2.2).trans h.fs⟩

/-- An address that is not the other's is handed back. -/
theorem Unsent.release (h : Unsent key e rec' l₀ w₀ l w) {st : Storage} {a : String}
    (ha : w₀.Allocated rec'.ip → a ≠ rec'.ip) :
    Unsent key e rec' l₀ w₀ (perform Y G c l w (.ipam st (.releaseIP a))).2.1
      (perform Y G c l w (.ipam st (.releaseIP a))).2.2 := by
  have hprocs : (perform Y G c l w (.ipam st (.releaseIP a))).2.2.procs = w.procs := perform_procs id
  have hfs : (perform Y G c l w (.ipam st (.releaseIP a))).2.2.fs = w.fs := perform_fs id
  refine ⟨h.same.trans same_perform, ⟨fun hk => ?_, ?_⟩, hprocs.trans h.procs, hfs.trans h.fs⟩
  · exact (congrFun (perform_kv id) key).trans (h.left.kv hk)
  · refine ⟨fun q hq hr hp => ?_, fun h0 => ?_, fun hc hne => ?_⟩
    · rw [hprocs]
      exact h.left.spared.process q hq hr hp
    · obtain ⟨s, hs, hmem⟩ := h.left.spared.address h0
      unfold World.Allocated
      cases st with
      | memory =>
        rw [perform_pool id]
        exact ⟨s, hs, hmem⟩
      | redis =>
        rw [perform_redis_pool]
        split
        · exact ⟨s, hs, hmem⟩
        · simp only [hs, IpamOp.perform]
          split
          · exact ⟨_, rfl, Finset.mem_erase.mpr ⟨(ha h0).symm, hmem⟩⟩
          · exact ⟨s, rfl, hmem⟩
    · rw [hfs]
      exact h.left.spared.fragment hc hne

theorem wp_releaseOf (hrec : Filed rec') (h : Unsent key e rec' l₀ w₀ l w)
    (ha : rec.ip ≠ "" → cleanIP rec.ip ≠ "" → cleanIP rec.ip = rec'.ip → ¬ w₀.Allocated rec'.ip) :
    (Host Y G).wp C (fun _ l' w' => Unsent key e rec' l₀ w₀ l' w') l w (Cmd.releaseOf rec) := by
  have hipam : (Host Y G).wp C (fun _ l' w' => Unsent key e rec' l₀ w₀ l' w') l w getIpam :=
    System.wp_of_only (Y := Host Y G) (I := fun l' w' => Unsent key e rec' l₀ w₀ l' w')
      (fun _ _ _ _ _ ho hI _ => hI.modest hrec (Asking.modest ho)) asking_getIpam h
  have hrelease : rec.ip ≠ "" →
      (Host Y G).wp C (fun _ l' w' => Unsent key e rec' l₀ w₀ l' w') l w (releaseIp rec.ip) := by
    refine fun h0 => System.wp_bind (System.wp_mono (fun r l₁ w₁ h₁ => ?_) hipam)
    cases r with
    | none => exact h₁
    | some st =>
      cases st with
      | none => exact h₁
      | some st =>
        dsimp only
        rw [System.wp_ite]
        refine ⟨fun _ => h₁, fun hc => ⟨fun _ => h₁, fun _ _ _ => ?_⟩⟩
        exact h₁.release fun hal hne => ha h0 hc hne hal
  unfold Cmd.releaseOf
  by_cases h0 : rec.ip = ""
  · rw [if_pos h0]
    exact h
  · rw [if_neg h0]
    refine System.wp_bind (System.wp_mono (fun r l₁ w₁ h₁ => ?_) (hrelease h0))
    cases r <;> exact h₁

theorem perform_kill_procs {n : Int} {sg : Signal} :
    (perform Y G c l w (.proc (.kill n sg))).2.2.procs = w.procs ∨
      (perform Y G c l w (.proc (.kill n sg))).2.2.procs = (w.kill l n sg).2.procs := by
  have hp : (perform Y G c l w (.proc (.kill n sg))).2.2.procs =
      (attempt G c l w (.proc (.kill n sg))).2.2.procs := rfl
  rw [hp]
  by_cases hf : c.fault = none
  · rw [attempt_ok hf]
    exact .inr rfl
  · rw [attempt_proc hf]
    exact .inl rfl

/-- A signal changes nothing but processes. -/
theorem Left.kill (h : Left key e rec' w₀ w) {n : Int} {sg : Signal}
    (hq : ∀ q ∈ w₀.procs, q.role = .workload → q.owner = e.author → q ∈ w.procs →
      q ∈ (perform Y G c l w (.proc (.kill n sg))).2.2.procs) :
    Left key e rec' w₀ (perform Y G c l w (.proc (.kill n sg))).2.2 := by
  have hkv : (perform Y G c l w (.proc (.kill n sg))).2.2.kv = w.kv := perform_kv id
  have hpool : (perform Y G c l w (.proc (.kill n sg))).2.2.pool = w.pool := perform_pool id
  have hfs : (perform Y G c l w (.proc (.kill n sg))).2.2.fs = w.fs := perform_fs id
  refine ⟨fun hk => (congrFun hkv key).trans (h.kv hk), fun q hq0 hr hp => ?_, fun ha => ?_, fun hc hne => ?_⟩
  · exact hq q hq0 hr hp (h.spared.process q hq0 hr hp)
  · unfold World.Allocated
    rw [hpool]
    exact h.spared.address ha
  · rw [hfs]
    exact h.spared.fragment hc hne

/-- A signal that does not reach the invocation itself goes by what is the other's. -/
theorem Unsent.kill (h : Unsent key e rec' l₀ w₀ l w) (h1 : 1 < l₀.pid) (ha : Avoids l₀ w₀ rec e.author rec')
    (hself : Running (perform Y G c l w (.proc (.kill (atoi rec.pid).1 .sigkill))).2.1
      (perform Y G c l w (.proc (.kill (atoi rec.pid).1 .sigkill))).2.2) :
    Unstarted key e rec' l₀ w₀ (perform Y G c l w (.proc (.kill (atoi rec.pid).1 .sigkill))).2.1
      (perform Y G c l w (.proc (.kill (atoi rec.pid).1 .sigkill))).2.2 := by
  have hfs : (perform Y G c l w (.proc (.kill (atoi rec.pid).1 .sigkill))).2.2.fs = w.fs := perform_fs id
  have hkeep : (w.kill l (atoi rec.pid).1 .sigkill).2.procs =
      w.procs.keep fun p => ! l.aims (atoi rec.pid).1 p || p.pid = 1 := rfl
  refine ⟨⟨h.same.trans same_perform, h.left.kill fun q hq₀ hr hp hq => ?_, fun p hp => ?_, fun data hd => ?_⟩,
    fun q hq => ?_⟩
  · rcases @perform_kill_procs Y G c l w (atoi rec.pid).1 .sigkill with hk | hk
    · rw [hk]
      exact hq
    · obtain ⟨p, hp', hown⟩ := hself
      rw [hk, hkeep] at hp'
      rw [hk, hkeep]
      obtain ⟨hpw, hpk⟩ := Procs.mem_keep.mp hp'
      have hown₀ : l₀.own p = true := by
        rw [← hown, (h.same.trans same_perform).own]
      have hmiss : l₀.aims (atoi rec.pid).1 p = false := by
        have hpid : p.pid = l₀.pid := (of_decide_eq_true hown₀).1
        rw [h.same.aims] at hpk
        simp only [Bool.or_eq_true, Bool.not_eq_true', decide_eq_true_eq] at hpk
        exact hpk.resolve_right (by omega)
      refine Procs.mem_keep.mpr ⟨hq, ?_⟩
      rw [h.same.aims]
      by_cases haim : l₀.aims (atoi rec.pid).1 q = true
      · have hone := ha.kill ⟨p, h.procs ▸ hpw, hown₀, hmiss⟩ q hq₀ hr hp haim
        simp [hone]
      · simp [haim]
  · rcases @perform_kill_procs Y G c l w (atoi rec.pid).1 .sigkill with hk | hk
    · rw [hk, h.procs] at hp
      exact ⟨p, hp, rfl, rfl⟩
    · rw [hk, hkeep, h.procs] at hp
      exact ⟨p, (Procs.mem_keep.mp hp).1, rfl, rfl⟩
  · rw [hfs, h.fs] at hd
    exact hd
  · rw [hfs, h.fs] at hq
    exact hq

/-- SIGTERM to a pid changes nobody who has had it before. -/
theorem Untermed.term (h : Untermed key e rec' l₀ w₀ l w) {n : Int}
    (hn : ∀ q ∈ w₀.procs.all, q.role = .workload → q.owner = e.author → l₀.aims n q = true → q.termed = true) :
    Untermed key e rec' l₀ w₀ (perform Y G c l w (.proc (.kill n .sigterm))).2.1
      (perform Y G c l w (.proc (.kill n .sigterm))).2.2 := by
  have hfs : (perform Y G c l w (.proc (.kill n .sigterm))).2.2.fs = w.fs := perform_fs id
  have hterm : (w.kill l n .sigterm).2.procs = w.procs.term (l.aims n) := rfl
  refine ⟨h.same.trans same_perform, h.left.kill fun q hq hr hp hqw => ?_, fun p hp => ?_,
    fun data hd => h.pidFile data (hfs ▸ hd)⟩
  · rcases @perform_kill_procs Y G c l w n .sigterm with hk | hk
    · rw [hk]
      exact hqw
    · rw [hk, hterm, h.same.aims]
      refine List.mem_map.mpr ⟨q, hqw, ?_⟩
      by_cases haim : l₀.aims n q = true
      · have ht := hn q hq hr hp haim
        rw [if_pos haim, ← ht]
      · rw [if_neg haim]
  · rcases @perform_kill_procs Y G c l w n .sigterm with hk | hk
    · rw [hk] at hp
      exact h.pids p hp
    · rw [hk, hterm] at hp
      obtain ⟨p', hp', he⟩ := Procs.exists_of_mem_term hp
      obtain ⟨p₀, hp₀, hpid, hpgid⟩ := h.pids p' hp'
      exact ⟨p₀, hp₀, by rw [hpid, he], by rw [hpgid, he]⟩

theorem Unstarted.term (h : Unstarted key e rec' l₀ w₀ l w) (ht : Unaimed l₀ w₀ e.author) {n : Int}
    (hn : w₀.Marks l₀ n) :
    Unstarted key e rec' l₀ w₀ (perform Y G c l w (.proc (.kill n .sigterm))).2.1
      (perform Y G c l w (.proc (.kill n .sigterm))).2.2 := by
  have hfs : (perform Y G c l w (.proc (.kill n .sigterm))).2.2.fs = w.fs := perform_fs id
  exact ⟨h.toUntermed.term (ht n hn), fun q hq => h.dirs q (hfs ▸ hq)⟩

/-- An operation that only looks. -/
theorem perform_world {o : Op} (h : (attempt G c l w o).2.2 = w) :
    ∃ past, (perform Y G c l w o).2.2 = { w with past := past } := by
  have hp : (perform Y G c l w o).2.2 = { (attempt G c l w o).2.2 with
      past := (attempt G c l w o).2.2.past.record l w o (attempt G c l w o).1 } := rfl
  rw [hp, h]
  exact ⟨_, rfl⟩

theorem perform_readFile_world {p : Path} :
    ∃ past, (perform Y G c l w (.fs (.readFile p))).2.2 = { w with past := past } := by
  refine perform_world (attempt_elim (P := fun x => x.2.2 = w) rfl rfl fun n o' hr => ?_)
  cases hr
  rfl

theorem perform_signal0_world {n : Int} :
    ∃ past, (perform Y G c l w (.proc (.signal0 n))).2.2 = { w with past := past } := by
  refine perform_world (attempt_elim (P := fun x => x.2.2 = w) rfl rfl fun n o' hr => ?_)
  cases hr

/-- Whoever answers the probe is there. -/
theorem signal0_true {n : Int} (h : (perform Y G c l w (.proc (.signal0 n))).1 = true) :
    ∃ p ∈ w.procs, l.aims n p = true := by
  have hp : (perform Y G c l w (.proc (.signal0 n))).1 = (attempt G c l w (.proc (.signal0 n))).1 := rfl
  rw [hp] at h
  by_cases hf : c.fault = none
  · rw [attempt_ok hf] at h
    exact of_decide_eq_true h
  · rw [attempt_proc hf] at h
    cases h

/-- What is found is the pid in the pid file, and nothing changes. -/
theorem wp_findPid : (Host Y G).wp C (fun r l' w' => l.Same l' ∧ (∃ past, w' = { w with past := past }) ∧
    ∀ n, r = some (some n) → n ≠ 0 → w.Marks l n) l w Utils.findPidForEnvoy := by
  have unmarked : ∀ {l' w'}, l.Same l' → (∃ past, w' = { w with past := past }) → ∀ r : Option (Option Int),
      (∀ n, r = some (some n) → n = 0) → l.Same l' ∧ (∃ past, w' = { w with past := past }) ∧
        ∀ n, r = some (some n) → n ≠ 0 → w.Marks l n :=
    fun hl hw r hr => ⟨hl, hw, fun n hn h0 => absurd (hr n hn) h0⟩
  have zero : ∀ n, some (some (0 : Int)) = some (some n) → n = 0 :=
    fun n hn => (Option.some.inj (Option.some.inj hn)).symm
  refine wp_op (unmarked (.refl l) ⟨w.past, rfl⟩ none nofun) fun c r _ hr => ?_
  have h₁ : l.Same (perform Y G c l w (.fs (.readFile envoyPidFile))).2.1 := same_perform
  have hw := @perform_readFile_world Y G c l w envoyPidFile
  cases r with
  | error err =>
    cases err with
    | notExist => exact unmarked h₁ hw _ zero
    | other => exact unmarked h₁ hw _ nofun
  | ok data =>
    have hcontent := Tree.content_of_read (by decide) (@perform_readFile Y G c l w _ data hr)
    cases hat : atoi (trimSpace data) with
    | mk n valid =>
      cases valid with
      | false =>
        simp only [bind_eq, ret_bind, hat]
        exact unmarked h₁ hw _ nofun
      | true =>
        simp only [bind_eq, ret_bind, hat]
        obtain ⟨past, hw⟩ := hw
        rw [hw]
        refine wp_op (unmarked h₁ ⟨past, rfl⟩ none nofun) fun c' r' _ hr' => ?_
        have h₂ := h₁.trans (@same_perform Y G (perform Y G c l w (.fs (.readFile envoyPidFile))).2.1
          { w with past := past } c' (.proc (.signal0 n)))
        obtain ⟨past', hw'⟩ := @perform_signal0_world Y G c' (perform Y G c l w (.fs (.readFile envoyPidFile))).2.1
          { w with past := past } n
        cases r' with
        | false => exact unmarked h₂ ⟨past', hw'⟩ _ zero
        | true =>
          obtain ⟨p, hp, haim⟩ := signal0_true hr'
          refine ⟨h₂, ⟨past', hw'⟩, fun n' hn' h0 => ?_⟩
          obtain rfl : n = n' := Option.some.inj (Option.some.inj hn')
          rw [h₁.aims] at haim
          exact ⟨⟨data, hcontent, hat⟩, h0, p, hp, haim⟩

/-- So it is where a signal may have gone out before. -/
theorem Untermed.findPid (h : Untermed key e rec' l₀ w₀ l w) :
    (Host Y G).wp C (fun r l' w' => Untermed key e rec' l₀ w₀ l' w' ∧ w'.fs = w.fs ∧
      ∀ n, r = some (some n) → n ≠ 0 → w₀.Marks l₀ n) l w Utils.findPidForEnvoy := by
  refine System.wp_mono (fun r l' w' hlook => ?_) wp_findPid
  obtain ⟨hl, ⟨past, rfl⟩, hmarks⟩ := hlook
  have hleft : Left key e rec' w₀ { w with past := past } :=
    ⟨h.left.kv, h.left.spared.process, h.left.spared.address, h.left.spared.fragment⟩
  refine ⟨⟨h.same.trans hl, hleft, h.pids, h.pidFile⟩, rfl, fun n hn h0 => ?_⟩
  obtain ⟨⟨data, hdata, hat⟩, _, p, hp, haim⟩ := hmarks n hn h0
  obtain ⟨p₀, hp₀, hpid, hpgid⟩ := h.pids p hp
  rw [h.same.aims] at haim
  exact ⟨⟨data, h.pidFile data hdata, hat⟩, h0, p₀, hp₀, (Procs.named_congr hpid hpgid).trans haim⟩

theorem perform_remove_fs {p : Path} : (perform Y G c l w (.fs (.remove p))).2.2.fs = w.fs ∨
    ∃ t, w.fs.remove p = some t ∧ (perform Y G c l w (.fs (.remove p))).2.2.fs = t := by
  have hact : (act G c l w (.fs (.remove p))).2.2.fs = w.fs ∨
      ∃ t, w.fs.remove p = some t ∧ (act G c l w (.fs (.remove p))).2.2.fs = t := by
    change (FsOp.perform c w.cwd w.fs (.remove p)).2 = w.fs ∨
      ∃ t, w.fs.remove p = some t ∧ (FsOp.perform c w.cwd w.fs (.remove p)).2 = t
    simp only [FsOp.perform]
    cases w.fs.remove p with
    | none => exact .inl rfl
    | some t => exact .inr ⟨t, rfl, rfl⟩
  refine attempt_elim (P := fun x => x.2.2.fs = w.fs ∨ ∃ t, w.fs.remove p = some t ∧ x.2.2.fs = t) hact
    (.inl rfl) fun n o' hr => ?_
  cases hr
  exact hact

/-- A removal that leads to nothing of the other's. -/
theorem Unstarted.remove (h : Unstarted key e rec' l₀ w₀ l w) {p : Path}
    (hp : rec'.configFileName ≠ "" →
      w.fs.walk [] p = .ok (fragmentFile rec') → w₀.fs.content (fragmentFile rec') = none) :
    Unstarted key e rec' l₀ w₀ (perform Y G c l w (.fs (.remove p))).2.1
      (perform Y G c l w (.fs (.remove p))).2.2 := by
  have hprocs : (perform Y G c l w (.fs (.remove p))).2.2.procs = w.procs := perform_procs id
  have hfs : ∃ q, (∀ q', (perform Y G c l w (.fs (.remove p))).2.2.fs.content q' = w.fs.content q' ∨
      q' = q ∧ w.fs.walk [] p = .ok q ∧ (perform Y G c l w (.fs (.remove p))).2.2.fs.content q' = none) ∧
      ∀ q', (perform Y G c l w (.fs (.remove p))).2.2.fs.isDir q' → w.fs.isDir q' := by
    rcases @perform_remove_fs Y G c l w p with hf | ⟨t, ht, hf⟩
    · rw [hf]
      exact ⟨[], fun _ => .inl rfl, fun _ hd => hd⟩
    · obtain ⟨q, hw, hc, hd⟩ := remove_cases ht
      rw [hf]
      refine ⟨q, fun q' => ?_, hd⟩
      by_cases hq : q' = q
      · exact .inr ⟨hq, hw, (hc q').trans (if_pos hq)⟩
      · exact .inl ((hc q').trans (if_neg hq))
  obtain ⟨q, hcontent, hdir⟩ := hfs
  have hspared := h.left.spared
  refine ⟨⟨h.same.trans same_perform, ⟨fun hk => (congrFun (perform_kv id) key).trans (h.left.kv hk), ?_⟩,
    fun p hp => h.pids p (hprocs ▸ hp), fun data hd => ?_⟩, fun q hq => h.dirs q (hdir q hq)⟩
  · refine ⟨fun q hq hr hpid => ?_, fun ha => ?_, fun hc hne => ?_⟩
    · rw [hprocs]
      exact hspared.process q hq hr hpid
    · unfold World.Allocated
      rw [perform_pool id]
      exact hspared.address ha
    · rcases hcontent (fragmentFile rec') with hs | ⟨rfl, hw, hs⟩
      · rw [hs]
        exact hspared.fragment hc hne
      · rw [hs, hp hc hw]
  · rcases hcontent envoyPidFile with hs | ⟨_, _, hs⟩
    · exact h.pidFile data (hs ▸ hd)
    · rw [hs] at hd
      cases hd

theorem wp_stopEnvoy (hrec : Filed rec') (ht : Unaimed l₀ w₀ e.author) (h : Unstarted key e rec' l₀ w₀ l w) :
    (Host Y G).wp C (fun _ l' w' => Unstarted key e rec' l₀ w₀ l' w') l w stopEnvoy := by
  refine System.wp_bind (System.wp_mono (fun r l₁ w₁ hu => ?_) h.toUntermed.findPid)
  obtain ⟨hu, hfs, hmarks⟩ := hu
  have h₁ : Unstarted key e rec' l₀ w₀ l₁ w₁ := ⟨hu, fun q hq => h.dirs q (hfs ▸ hq)⟩
  have removed : ∀ {l w}, Unstarted key e rec' l₀ w₀ l w →
      (Host Y G).wp C (fun _ l' w' => Unstarted key e rec' l₀ w₀ l' w') l w (do
        let _ ← remove envoyPidFile
        return true) := by
    intro l w hu
    refine wp_op hu fun c r _ _ => hu.remove fun hc hw => ?_
    have hq := eq_of_walk_root (by decide) hw
    exact absurd hq (hrec.yamlFile hc).ne_pidFile
  cases r with
  | none => exact h₁
  | some found =>
    cases found with
    | none => exact h₁
    | some n =>
      by_cases h0 : n = 0
      · simp only [h0, if_true]
        exact h₁
      · simp only [h0, if_false]
        have hn := hmarks n rfl h0
        refine wp_op h₁ fun c r _ _ => ?_
        have h₂ := @Unstarted.term Y G c l₁ l₀ w₁ w₀ key e rec' h₁ ht n hn
        cases r with
        | none => exact removed h₂
        | some err =>
          cases err with
          | eperm => exact h₂
          | esrch => exact removed h₂

theorem wp_stopExisting (ht : Unaimed l₀ w₀ e.author) (h : Unstarted key e rec' l₀ w₀ l w) :
    (Host Y G).wp C (fun _ l' w' => Unstarted key e rec' l₀ w₀ l' w') l w stopExisting := by
  refine System.wp_bind (System.wp_mono (fun r l₁ w₁ hu => ?_) h.toUntermed.findPid)
  obtain ⟨hu, hfs, hmarks⟩ := hu
  have h₁ : Unstarted key e rec' l₀ w₀ l₁ w₁ := ⟨hu, fun q hq => h.dirs q (hfs ▸ hq)⟩
  cases r with
  | none => exact h₁
  | some found =>
    cases found with
    | none => exact h₁
    | some n =>
      by_cases h0 : n = 0
      · simp only [h0, if_true]
        exact h₁
      · simp only [h0, if_false]
        exact wp_op h₁ fun c r _ _ => h₁.term ht (hmarks n rfl h0)

theorem wp_removeConfig (ha : Avoids l₀ w₀ rec e.author rec') (h : Unstarted key e rec' l₀ w₀ l w) :
    (Host Y G).wp C (fun _ l' w' => Unstarted key e rec' l₀ w₀ l' w') l w (Cmd.removeConfig rec) := by
  unfold Cmd.removeConfig
  by_cases h0 : rec.configFileName = ""
  · rw [if_pos h0]
    exact h
  · rw [if_neg h0]
    refine wp_op h fun c r _ _ => h.remove fun hc hw => ?_
    exact ha.fragment h0 hc (walk_of_fewer h.dirs hw)

theorem wp_startEnvoy (hrec : Filed rec') (ht : Unaimed l₀ w₀ e.author) (h : Unstarted key e rec' l₀ w₀ l w) :
    (Host Y G).wp C (fun _ _ w' => Left key e rec' w₀ w') l w startEnvoy := by
  rw [startEnvoy_eq]
  refine System.wp_bind (System.wp_mono (fun r l₁ w₁ h₁ => ?_) (wp_stopExisting ht h))
  cases r with
  | none => exact h₁.left
  | some _ =>
    refine System.wp_bind (System.wp_mono (fun r l₂ w₂ h₂ => ?_) (@wp_ensureConfig Y G C l₁ w₁ key e rec' hrec))
    replace h₂ := h₁.left.trans h₂
    cases r with
    | none => exact h₂
    | some _ => exact System.wp_mono (fun _ _ _ h₃ => h₂.trans h₃) (wp_modest hrec modest_launchEnvoy)

/-- A text that is got is there. -/
theorem perform_get {k : String} {text : String} (h : (perform Y G c l w (.kv (.get k))).1 = some text) :
    (w.kv k).map Entry.value = some text := by
  have hp : (perform Y G c l w (.kv (.get k))).1 = (attempt G c l w (.kv (.get k))).1 := rfl
  rw [hp] at h
  cases hf : c.fault with
  | none =>
    rw [attempt_ok hf] at h
    exact h
  | some n =>
    cases n with
    | zero =>
      rw [attempt_zero hf] at h
      cases h
    | succ n =>
      rw [attempt_succ hf] at h
      cases h

/-- Nothing is taken by what is done to another key. -/
theorem Left.kvOp (h : Left key e rec' w₀ w) {o : KvOp}
    (hk : (perform Y G c l w (.kv o)).2.2.kv key = w.kv key) :
    Left key e rec' w₀ (perform Y G c l w (.kv o)).2.2 := by
  have hprocs : (perform Y G c l w (.kv o)).2.2.procs = w.procs := perform_procs id
  have hpool : (perform Y G c l w (.kv o)).2.2.pool = w.pool := perform_pool id
  have hfs : (perform Y G c l w (.kv o)).2.2.fs = w.fs := perform_fs id
  refine ⟨fun he => hk.trans (h.kv he), fun q hq hr hp => ?_, fun ha => ?_, fun hc hne => ?_⟩
  · rw [hprocs]
    exact h.spared.process q hq hr hp
  · unfold World.Allocated
    rw [hpool]
    exact h.spared.address ha
  · rw [hfs]
    exact h.spared.fragment hc hne

theorem Left.del (h : Left key e rec' w₀ w) {k : String} (hk : key ≠ k) :
    Left key e rec' w₀ (perform Y G c l w (.kv (.del k))).2.2 := by
  refine h.kvOp ?_
  rw [perform_del]
  split
  · rfl
  · exact Function.update_of_ne hk ..

theorem Left.set (h : Left key e rec' w₀ w) {k text : String} (hk : key ≠ k) :
    Left key e rec' w₀ (perform Y G c l w (.kv (.set k text))).2.2 := by
  refine h.kvOp ?_
  rw [perform_set]
  split
  · rfl
  · exact Function.update_of_ne hk ..

/-- What is left of a delete behind its signal. -/
theorem wp_restart {k : String} (hrec : Filed rec') (hk : key ≠ k) (ha : Avoids l₀ w₀ rec e.author rec')
    (h : Unstarted key e rec' l₀ w₀ l w) :
    (Host Y G).wp C (fun _ _ w' => Left key e rec' w₀ w') l w (do
      let _ ← stopEnvoy
      Cmd.removeConfig rec
      let _ ← startEnvoy
      let _ ← del k
      return ()) := by
  refine System.wp_bind (System.wp_mono (fun r l₁ w₁ h₁ => ?_) (wp_stopEnvoy hrec ha.term h))
  cases r with
  | none => exact h₁.left
  | some _ =>
    refine System.wp_bind (System.wp_mono (fun r l₂ w₂ h₂ => ?_) (wp_removeConfig ha h₁))
    cases r with
    | none => exact h₂.left
    | some _ =>
      refine System.wp_bind (System.wp_mono (fun r l₃ w₃ h₃ => ?_) (wp_startEnvoy hrec ha.term h₂))
      cases r with
      | none => exact h₃
      | some _ => exact wp_op h₃ fun _ _ _ _ => h₃.del hk

/-- A delete that comes to its end has left the other what it had. -/
theorem wp_deleteProcess {type_ name : String} {e' : Entry} (hrec : Filed rec') (h1 : 1 < l₀.pid)
    (hkey : key ≠ type_ ++ ":" ++ name) (he : w₀.kv (type_ ++ ":" ++ name) = some e')
    (ha : Avoids l₀ w₀ (Y.decode e'.value) e.author rec') :
    (Host Y G).wp C (fun r _ w' => r = some () → Left key e rec' w₀ w') l₀ w₀
      (Cmd.deleteProcess Y name type_) := by
  have h₀ : Unsent key e rec' l₀ w₀ l₀ w₀ := ⟨.refl l₀, .refl .., rfl, rfl⟩
  refine wp_op nofun fun c r _ hr => ?_
  have h₁ := @Unsent.modest Y G c l₀ l₀ w₀ w₀ key e rec' h₀ hrec (.kv (.get (type_ ++ ":" ++ name)))
    ⟨trivial, id, id⟩
  cases r with
  | none => exact fun _ => h₁.left
  | some text =>
    have htext := perform_get hr
    rw [he] at htext
    obtain rfl : e'.value = text := Option.some.inj htext
    rw [bind_eq, ret_bind]
    refine System.wp_bind (System.wp_mono (fun r l₂ w₂ h₂ => ?_) (wp_releaseOf hrec h₁ ha.address))
    cases r with
    | none => exact nofun
    | some _ =>
      refine wp_op nofun fun c r _ hr => ?_
      by_cases hself : Running (perform Y G c l₂ w₂ (.proc (.kill (atoi (Y.decode e'.value).pid).1 .sigkill))).2.1
          (perform Y G c l₂ w₂ (.proc (.kill (atoi (Y.decode e'.value).pid).1 .sigkill))).2.2
      · exact System.wp_mono (fun _ _ _ hl _ => hl) (wp_restart hrec hkey ha (h₂.kill h1 ha hself))
      · exact ⟨fun _ => nofun, fun halive => absurd (alive_iff.mp halive) hself⟩

end Delete
end PrivatePaas
