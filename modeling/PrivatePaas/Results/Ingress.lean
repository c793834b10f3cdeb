import PrivatePaas.Registry.Removal
import PrivatePaas.Results.Sample

/-!
# What the configuration lists

Whatever else runs at the same time, as long as the rewritings of the Envoy
configuration keep clear of one another, it lists every fragment when none is under way.
-/

namespace PrivatePaas
set_option autoImplicit false
open Files Text Effects Go Network Prog PrivatePaas.Parser

variable {Y : Yaml} {G : GoIpam} {ι : Type}

section Trees
variable {t t' : Tree} {n : String}

/-- What is read from a fragment depends on nothing but its text. -/
theorem fragmentServices_content (hn : ".yaml".toList <:+ n.toList) :
    fragmentServices Y (t.read (envoyConfDir ++ [n])) =
      (((t.content (envoyConfDir ++ [n])).bind Y.unmarshalConfig).map toEnvoyService).toList := by
  have hproper : ∀ c ∈ envoyConfDir ++ [n], Proper c := by
    intro c hc
    rcases List.mem_append.mp hc with hc | hc
    · exact proper_confDir c hc
    · obtain rfl := List.mem_singleton.mp hc
      exact proper_of_yaml hn
  cases hr : t.read (envoyConfDir ++ [n]) with
  | error err =>
    cases hc : t.content (envoyConfDir ++ [n]) with
    | none => rfl
    | some data =>
      rw [Tree.read_of_content hc] at hr
      cases hr
  | ok data =>
    rw [Tree.content_of_read hproper hr]
    simp only [fragmentServices, Option.bind_some]
    cases Y.unmarshalConfig data <;> rfl

/-- What a glob lists comes to the services of the fragments, also where there is no
directory. -/
theorem flatMap_listed : ((t.glob envoyConfDir ".yaml").flatMap fun n =>
    fragmentServices Y (t.read (envoyConfDir ++ [n]))) = (fragments Y t).map toEnvoyService := by
  by_cases hd : t.isDir envoyConfDir
  · exact flatMap_glob hd
  · have hglob : t.glob envoyConfDir ".yaml" = [] := by
      unfold Tree.glob
      cases hw : t.walk [] envoyConfDir with
      | error err => rfl
      | ok q =>
        obtain rfl := eq_of_walk_root proper_confDir hw
        exact if_neg hd
    have hfiles : t.files envoyConfDir ".yaml" = [] := by
      refine List.eq_nil_iff_forall_not_mem.mpr fun n hn => hd ?_
      obtain ⟨data, hdata⟩ := Option.isSome_iff_exists.mp (Tree.mem_files.mp hn).2
      have hparent := (t.fits _ (Tree.mem_of_content hdata)).parent
      rwa [List.dropLast_concat] at hparent
    rw [hglob, fragments, hfiles]
    rfl

theorem yaml_of_mem_glob (h : n ∈ t.glob envoyConfDir ".yaml") : ".yaml".toList <:+ n.toList := by
  unfold Tree.glob at h
  split at h
  · cases h
  · split at h
    · rw [List.mem_insertionSort, List.mem_filter] at h
      exact of_decide_eq_true h.2
    · cases h

/-- Where fragments only disappear, the others keep their order. -/
theorem fragments_sublist (h : ∀ q, IsFragment q → t'.content q = t.content q ∨ t'.content q = none) :
    (fragments Y t').Sublist (fragments Y t) := by
  have hsame : ∀ n ∈ t'.files envoyConfDir ".yaml",
      t'.content (envoyConfDir ++ [n]) = t.content (envoyConfDir ++ [n]) := by
    intro n hn
    obtain ⟨hy, hsome⟩ := Tree.mem_files.mp hn
    rcases h _ ⟨n, rfl, hy⟩ with hc | hc
    · exact hc
    · rw [hc] at hsome
      cases hsome
  have hsubset : t'.files envoyConfDir ".yaml" ⊆ t.files envoyConfDir ".yaml" := by
    intro n hn
    obtain ⟨hy, hsome⟩ := Tree.mem_files.mp hn
    rw [hsame n hn] at hsome
    exact Tree.mem_files.mpr ⟨hy, hsome⟩
  have hsub : (t'.files envoyConfDir ".yaml").Sublist (t.files envoyConfDir ".yaml") :=
    List.sublist_of_subperm_of_pairwise (List.subperm_of_subset Tree.nodup_files hsubset)
      Tree.pairwise_files Tree.pairwise_files
  unfold fragments
  rw [List.filterMap_congr fun n hn => by rw [hsame n hn]]
  exact hsub.filterMap _

end Trees
section Stages

namespace LbStage

/-- The fragment has been written, and the configuration does not show it yet. -/
def Window : LbStage → Prop
  | wrote _ _ => True
  | listed _ _ _ _ => True
  | truncated _ _ _ => True
  | _ => False

/-- The directory has been made, or the window is open. -/
def Open (s : LbStage) : Prop := s = begun ∨ s.Window

/-- What a rewriting holds in its hands comes to the fragments that are there. -/
def Holds (Y : Yaml) (t : Tree) : LbStage → Prop
  | listed _ _ todo acc => (∀ n ∈ todo, ".yaml".toList <:+ n.toList) ∧
      acc ++ todo.flatMap (fun n => fragmentServices Y (t.read (envoyConfDir ++ [n]))) =
        (fragments Y t).map toEnvoyService
  | truncated _ _ acc => acc = (fragments Y t).map toEnvoyService ∧ t.content envoyConfig = some ""
  | _ => True

end LbStage

/-- Every fragment is in the configuration, and if nothing has been removed nothing else is. -/
def Shown (exact : Prop) (Y : Yaml) (t : Tree) : Prop :=
  fragments Y t = [] ∨ ∃ cs : List ServiceEnvoyConfig, (fragments Y t).Sublist cs ∧
    (exact → cs = fragments Y t) ∧ t.content envoyConfig = some (envoyTmpl (cs.map toEnvoyService))

variable {t t' : Tree} {s : LbStage} {exact : Prop}

theorem LbStage.holds_of_not_window (h : ¬ s.Window) : s.Holds Y t := by
  cases s <;> first | trivial | exact absurd trivial h

/-- The same fragments, and the same configuration. -/
structure Alike (t t' : Tree) : Prop where
  fragment : ∀ q, IsFragment q → t'.content q = t.content q
  config : t'.content envoyConfig = t.content envoyConfig

theorem YamlKept.alike (h : YamlKept t t') : Alike t t' :=
  ⟨fun q hq => h.content q hq.yamlFile, h.content _ yamlFile_config⟩

theorem LbStage.Holds.kept (h : s.Holds Y t) (hk : Alike t t') : s.Holds Y t' := by
  have hfrag : fragments Y t' = fragments Y t := fragments_congr hk.fragment
  cases s with
  | listed p data todo acc =>
    refine ⟨h.1, ?_⟩
    rw [hfrag, ← h.2]
    congr 1
    refine List.flatMap_congr fun n hn => ?_
    rw [fragmentServices_content (h.1 n hn), fragmentServices_content (h.1 n hn),
      hk.fragment _ ⟨n, rfl, h.1 n hn⟩]
  | truncated p data acc =>
    refine ⟨?_, hk.config.trans h.2⟩
    rw [hfrag]
    exact h.1
  | _ => trivial

theorem Shown.kept (h : Shown exact Y t) (hk : Alike t t') : Shown exact Y t' := by
  have hfrag : fragments Y t' = fragments Y t := fragments_congr hk.fragment
  unfold Shown
  rw [hfrag, hk.config]
  exact h

/-- What is removed is not shown any less. -/
theorem Shown.removed (h : Shown exact Y t)
    (hf : ∀ q, IsFragment q → t'.content q = t.content q ∨ ¬ exact ∧ t'.content q = none)
    (hc : t'.content envoyConfig = t.content envoyConfig) : Shown exact Y t' := by
  have hsub : (fragments Y t').Sublist (fragments Y t) :=
    fragments_sublist fun q hq => (hf q hq).imp_right And.right
  rcases h with h | ⟨cs, hcs, heq, htext⟩
  · rw [h] at hsub
    exact .inl (List.sublist_nil.mp hsub)
  · refine .inr ⟨cs, hsub.trans hcs, fun hx => ?_, hc.trans htext⟩
    have hfrag : fragments Y t' = fragments Y t :=
      fragments_congr fun q hq => (hf q hq).resolve_right fun h => h.1 hx
    rw [hfrag]
    exact heq hx

/-- Only what is missing is written, and then nothing was shown. -/
theorem Shown.bootstrap (h : Shown exact Y t) (hnone : t.content envoyConfig = none)
    (hf : ∀ q, IsFragment q → t'.content q = t.content q) : Shown exact Y t' := by
  rcases h with h | ⟨cs, _, _, htext⟩
  · exact .inl ((fragments_congr hf).trans h)
  · rw [hnone] at htext
    cases htext

end Stages

section Steps
variable {s : LbState} {o : Op}

/-- An operation that leaves the yaml files and the course of the rewriting alone. -/
structure Passing (s : LbStage) (o : Op) : Prop where
  spares : SparesYaml o
  writeFile : s = .begun → ∀ p data, o ≠ .fs (.writeFile p data)
  create : ∀ p, o ≠ .fs (.create p)
  write : ∀ p text, o ≠ .fs (.write p text)

/-- What an invocation may do to the yaml files. -/
theorem passing_or (h : (lb Y).ok s o) : Passing s.stage o ∨
    (s.stage = .begun ∧ ∃ c, o = .fs (.writeFile (serviceConfPath c.upstreamName) (Y.marshalConfig c))) ∨
    (s.stage ≠ .begun ∧ o = .fs (.writeFile envoyConfig bootstrapConfig)) ∨
    (∃ q data acc, s.stage = .listed q data [] acc ∧ o = .fs (.create envoyConfig)) ∨
    (∃ q data acc, s.stage = .truncated q data acc ∧ o = .fs (.write envoyConfig (envoyTmpl acc))) ∨
    s.stage = .idle ∧ ∃ p, o = .fs (.remove p) := by
  have harmless : ∀ {o : FsOp} {p : Path}, (∀ q, o.Writes q → q = p) → (∀ q, o ≠ .remove q) → Harmless p →
      o.OffYaml := fun hw hr hp => ⟨fun q hq => hw q hq ▸ hp.notYaml, hr⟩
  have still : ∀ {o : FsOp}, (∀ q, ¬ o.Writes q) → (∀ q, o ≠ .remove q) → o.OffYaml :=
    fun hw hr => ⟨fun q hq => absurd hq (hw q), hr⟩
  cases o with
  | fs o =>
    cases o with
    | writeFile p data =>
      have pass : s.stage ≠ .begun → (FsOp.writeFile p data).OffYaml → Passing s.stage (.fs (.writeFile p data)) :=
        fun hs ho => ⟨ho, fun hb => absurd hb hs, nofun, nofun⟩
      rcases h with ⟨hs, c, rfl, rfl⟩ | ⟨hs, hp | rfl | ⟨rfl, rfl, _⟩⟩
      · exact .inr (.inl ⟨hs, c, rfl⟩)
      · exact .inl (pass hs (harmless (fun _ hq => hq) nofun hp))
      · refine .inl (pass hs ⟨fun q hq => ⟨"envoy-paas.pid", ?_, by decide⟩, nofun⟩)
        obtain rfl : q = envoyPidFile := hq
        exact .concat (d := ["run"]) (by decide)
      · exact .inr (.inr (.inl ⟨hs, rfl⟩))
    | create p =>
      obtain ⟨rfl, q, data, acc, hs⟩ := h
      exact .inr (.inr (.inr (.inl ⟨q, data, acc, hs, rfl⟩)))
    | write p text =>
      obtain ⟨rfl, q, data, acc, hs, rfl⟩ := h
      exact .inr (.inr (.inr (.inr (.inl ⟨q, data, acc, hs, rfl⟩))))
    | remove p => exact .inr (.inr (.inr (.inr (.inr ⟨h, p, rfl⟩))))
    | openAppend p => exact .inl ⟨harmless (fun _ hq => hq) nofun h, nofun, nofun, nofun⟩
    | append p data => exact .inl ⟨harmless (fun _ hq => hq) nofun h, nofun, nofun, nofun⟩
    | initdb bin dir => exact .inl ⟨⟨fun q hq => FsOp.named_of_initdb hq (by decide), nofun⟩, nofun, nofun, nofun⟩
    | _ => exact .inl ⟨still (fun _ hq => hq) nofun, nofun, nofun, nofun⟩
  | _ => exact .inl ⟨trivial, nofun, nofun, nofun⟩

section Perform
variable {c : Choice} {l : Local} {w : World}

/-- An operation on files that does not fail. -/
theorem perform_fs_smooth (hc : c.fault = none) (o : FsOp) :
    (perform Y G c l w (.fs o)).1 = (o.perform c w.cwd w.fs).1 ∧
      (perform Y G c l w (.fs o)).2.2.fs = (o.perform c w.cwd w.fs).2 := by
  obtain ⟨hr, hw⟩ := @perform_smooth Y G l w c hc (.fs o)
  refine ⟨hr, ?_⟩
  rw [hw]
  rfl

/-- A window neither opens nor closes, and what a rewriting holds in its hands stays right. -/
theorem Passing.next {s : LbStage} (h : Passing s o) (hok : (lb Y).ok l.lb o) (hs : l.lb.stage = s)
    (hc : s.Window → c.fault = none) (hh : s.Holds Y w.fs) :
    ((s.next Y o (perform Y G c l w o).1).Window ↔ s.Window) ∧
      (s.next Y o (perform Y G c l w o).1).Holds Y (perform Y G c l w o).2.2.fs := by
  have hkept : YamlKept w.fs (perform Y G c l w o).2.2.fs := h.spares.yamlKept
  have same : ∀ {s' : LbStage}, s' = s → (s'.Window ↔ s.Window) ∧ s'.Holds Y (perform Y G c l w o).2.2.fs := by
    intro s' hs'
    subst hs'
    exact ⟨Iff.rfl, hh.kept hkept.alike⟩
  cases o with
  | fs o =>
    cases o with
    | mkdirAll p =>
      simp only [LbStage.next]
      split
      · rename_i hp
        have hidle : s = .idle := hs.symm.trans (hok hp.1)
        rw [hidle]
        exact ⟨Iff.rfl, trivial⟩
      · exact same rfl
    | writeFile p data =>
      cases s with
      | begun => exact absurd rfl (h.writeFile rfl p data)
      | _ => exact same rfl
    | glob d x =>
      cases s with
      | wrote p data =>
        obtain ⟨rfl, rfl, _⟩ := hok
        refine ⟨Iff.rfl, LbStage.Holds.kept ?_ hkept.alike⟩
        rw [(perform_fs_smooth (hc trivial) _).1]
        exact ⟨fun n hn => yaml_of_mem_glob hn, flatMap_listed⟩
      | _ => exact same rfl
    | readFile p =>
      cases s with
      | listed q data todo acc =>
        cases todo with
        | nil => exact same rfl
        | cons f todo =>
          obtain rfl : p = envoyConfDir ++ [f] := hok q data f todo acc hs
          refine ⟨Iff.rfl, LbStage.Holds.kept ?_ hkept.alike⟩
          rw [(perform_fs_smooth (hc trivial) _).1]
          have hall : acc ++ (f :: todo).flatMap (fun n => fragmentServices Y (w.fs.read (envoyConfDir ++ [n]))) =
            (fragments Y w.fs).map toEnvoyService := hh.2
          rw [List.flatMap_cons, ← List.append_assoc] at hall
          exact ⟨fun n hn => hh.1 n (List.mem_cons_of_mem f hn), hall⟩
      | _ => exact same rfl
    | create p => exact absurd rfl (h.create p)
    | write p text => exact absurd rfl (h.write p text)
    | _ => exact same (by cases s <;> rfl)
  | proc o =>
    cases o with
    | start cmd =>
      cases s with
      | rendered p data acc =>
        simp only [LbStage.next]
        split
        · exact same rfl
        · exact ⟨Iff.rfl, trivial⟩
      | _ => exact same rfl
    | _ => exact same (by cases s <;> rfl)
  | _ => exact same (by cases s <;> rfl)

theorem store_false {t : Tree} {p : Path} {f : Option String → String} (h : (FsOp.store t p f).1 = false) :
    (FsOp.store t p f).2 = t := by
  unfold FsOp.store at h ⊢
  split
  · rfl
  · rename_i hu
    rw [hu] at h
    cases h

theorem store_true {t : Tree} {p : Path} {f : Option String → String} (hp : ∀ n ∈ p, Proper n)
    (h : (FsOp.store t p f).1 = true) (q : Path) :
    (FsOp.store t p f).2.content q = if q = p then some (f (t.content p)) else t.content q := by
  unfold FsOp.store at h ⊢
  split
  · rename_i hu
    rw [hu] at h
    cases h
  · rename_i hu
    exact content_update hp hu q

theorem proper_config : ∀ n ∈ envoyConfig, Proper n := by decide

/-- The configuration is empty before it is written. -/
theorem create_config (hc : c.fault = none) (hr : (perform Y G c l w (.fs (.create envoyConfig))).1 = true) :
    (perform Y G c l w (.fs (.create envoyConfig))).2.2.fs.content envoyConfig = some "" ∧
      ∀ q, IsFragment q → (perform Y G c l w (.fs (.create envoyConfig))).2.2.fs.content q = w.fs.content q := by
  obtain ⟨hres, hfs⟩ := @perform_fs_smooth Y G c l w hc (.create envoyConfig)
  rw [hres] at hr
  have hcontent := store_true (f := fun _ => "") proper_config hr
  rw [hfs]
  exact ⟨(hcontent envoyConfig).trans (if_pos rfl), fun q hq => (hcontent q).trans (if_neg hq.ne_config)⟩

/-- What is written into the empty configuration is all that it holds. -/
theorem write_config {text : String} (hc : c.fault = none) (h : w.fs.content envoyConfig = some "") :
    (perform Y G c l w (.fs (.write envoyConfig text))).1 = true ∧
    (perform Y G c l w (.fs (.write envoyConfig text))).2.2.fs.content envoyConfig = some text ∧
      ∀ q, IsFragment q → (perform Y G c l w (.fs (.write envoyConfig text))).2.2.fs.content q = w.fs.content q := by
  obtain ⟨hres, hfs⟩ := @perform_fs_smooth Y G c l w hc (.write envoyConfig text)
  obtain ⟨t, hu, hcontent⟩ := Tree.update_of_content (fun old => overlay text (old.getD "")) h
  have hdone : FsOp.perform c w.cwd w.fs (.write envoyConfig text) = (true, t) := by
    simp only [FsOp.perform, Tree.read_of_content h, FsOp.store, hu]
  rw [hres, hfs, hdone]
  refine ⟨rfl, ?_, fun q hq => (hcontent q).trans (if_neg hq.ne_config)⟩
  rw [hcontent, if_pos rfl, Option.getD_some, overlay_empty]

/-- A configuration that is put in place changes no fragment. -/
theorem bootstrap_fragment {q : Path} (hq : IsFragment q) :
    (perform Y G c l w (.fs (.writeFile envoyConfig bootstrapConfig))).2.2.fs.content q = w.fs.content q := by
  have hstore : ∀ data, (FsOp.store w.fs envoyConfig fun _ => data).2.content q = w.fs.content q :=
    fun _ => store_content_of_ne proper_config hq.ne_config
  refine attempt_elim (P := fun x => x.2.2.fs.content q = w.fs.content q) (hstore _) rfl fun n o' hr => ?_
  cases hr
  exact hstore _

/-- A removal takes away what its path leads to. -/
theorem remove_content {p q : Path} :
    (perform Y G c l w (.fs (.remove p))).2.2.fs.content q = w.fs.content q ∨
      w.fs.walk [] p = .ok q ∧ (perform Y G c l w (.fs (.remove p))).2.2.fs.content q = none := by
  rcases @perform_remove_fs Y G c l w p with hf | ⟨t, ht, hf⟩
  · rw [hf]
    exact .inl rfl
  · obtain ⟨q', hw, hc, _⟩ := remove_cases ht
    rw [hf, hc q]
    by_cases hq : q = q'
    · rw [if_pos hq]
      exact .inr ⟨hq ▸ hw, rfl⟩
    · rw [if_neg hq]
      exact .inl rfl

end Perform
end Steps
section Runs
variable {m : Machine (Host Y G) ι} {e : Event (Host Y G) ι} {exact : Prop}

/-- Job `i` is in the window of a rewriting. -/
def Rewriting (m : Machine (Host Y G) ι) (i : ι) : Prop :=
  ∃ j, m.jobs i = some j ∧ LbStage.Window (Local.lb j.loc).stage

variable [DecidableEq ι]

/-- The rewritings keep clear of one another: none fails or ends inside its window, no
other job writes or removes a fragment meanwhile, and the configuration is neither removed
nor put in place where there is one. With `exact` no fragment is ever removed. -/
structure Spaced (exact : Prop) (m : Machine (Host Y G) ι) (e : Event (Host Y G) ι) : Prop where
  smooth : ∀ i c loc o k, m.Performs e i c loc o k → LbStage.Open (Local.lb loc).stage → Choice.fault c = none
  whole : ∀ i j, m.Ends e i j → ¬ LbStage.Window (Local.lb j.loc).stage
  written : ∀ i c loc p data k, m.Performs e i c loc (.fs (.writeFile p data)) k → (Local.lb loc).stage = .begun →
    ∀ i', i' ≠ i → ¬ Rewriting m i'
  removed : ∀ i c loc p k q, m.Performs e i c loc (.fs (.remove p)) k → (World.fs m.world).walk [] p = .ok q →
    q ≠ envoyConfig ∧ (IsFragment q → ¬ exact ∧ ∀ i', i' ≠ i → ¬ Rewriting m i')
  missing : ∀ i c loc k, m.Performs e i c loc (.fs (.writeFile envoyConfig bootstrapConfig)) k →
    (Local.lb loc).stage ≠ .begun → (World.fs m.world).content envoyConfig = none

/-- At most one rewriting is in its window, what it holds in its hands is right, and when
none is, the configuration shows the fragments. -/
structure Ingress (exact : Prop) (m : Machine (Host Y G) ι) : Prop where
  sole : ∀ i i', Rewriting m i → Rewriting m i' → i = i'
  holds : ∀ i j, m.jobs i = some j → LbStage.Holds Y (World.fs m.world) (Local.lb j.loc).stage
  shown : (∀ i, ¬ Rewriting m i) → Shown exact Y (World.fs m.world)

section Update
variable {i : ι} {j j' : Job (Host Y G)} {w : World}

theorem rewriting_self : Rewriting (⟨w, Function.update m.jobs i (some j')⟩ : Machine (Host Y G) ι) i ↔
    LbStage.Window (Local.lb j'.loc).stage := by
  unfold Rewriting
  simp only [Function.update_self, Option.some.injEq, exists_eq_left']

theorem rewriting_other {x : Option (Job (Host Y G))} {i' : ι} (hi : i' ≠ i) :
    Rewriting (⟨w, Function.update m.jobs i x⟩ : Machine (Host Y G) ι) i' ↔ Rewriting m i' := by
  unfold Rewriting
  simp only [Function.update_of_ne hi]

/-- What each job holds in its hands is right when that of one job is, and that of the others. -/
theorem holds_update (hown : LbStage.Holds Y w.fs (Local.lb j'.loc).stage)
    (hothers : ∀ i' k, i' ≠ i → m.jobs i' = some k → LbStage.Holds Y w.fs (Local.lb k.loc).stage) :
    ∀ i' k, (Function.update m.jobs i (some j')) i' = some k → LbStage.Holds Y w.fs (Local.lb k.loc).stage := by
  intro i' k hk
  rcases Machine.jobs_put hk with ⟨_, rfl⟩ | ⟨hi, hk⟩
  · exact hown
  · exact hothers i' k hi hk

/-- A job that stays in its window, or outside. -/
theorem Ingress.renew (h : Ingress exact m) (hj : m.jobs i = some j)
    (hwin : LbStage.Window (Local.lb j'.loc).stage ↔ LbStage.Window (Local.lb j.loc).stage)
    (hown : LbStage.Holds Y w.fs (Local.lb j'.loc).stage)
    (hothers : ∀ i' k, i' ≠ i → m.jobs i' = some k → LbStage.Holds Y w.fs (Local.lb k.loc).stage)
    (hshown : (∀ i, ¬ Rewriting m i) → Shown exact Y w.fs) :
    Ingress exact (⟨w, Function.update m.jobs i (some j')⟩ : Machine (Host Y G) ι) := by
  have hrew : ∀ i', Rewriting (⟨w, Function.update m.jobs i (some j')⟩ : Machine (Host Y G) ι) i' ↔ Rewriting m i' := by
    intro i'
    by_cases hi : i' = i
    · subst i'
      rw [rewriting_self, hwin]
      unfold Rewriting
      simp only [hj, Option.some.injEq, exists_eq_left']
    · exact rewriting_other hi
  refine ⟨fun i₁ i₂ h₁ h₂ => h.sole i₁ i₂ ((hrew i₁).mp h₁) ((hrew i₂).mp h₂), holds_update hown hothers, fun hno => ?_⟩
  exact hshown fun i' hr => hno i' ((hrew i').mpr hr)

/-- A job enters its window while no other is in one. -/
theorem Ingress.opens (hwin : LbStage.Window (Local.lb j'.loc).stage)
    (hown : LbStage.Holds Y w.fs (Local.lb j'.loc).stage) (halone : ∀ i', i' ≠ i → ¬ Rewriting m i') :
    Ingress exact (⟨w, Function.update m.jobs i (some j')⟩ : Machine (Host Y G) ι) := by
  have honly : ∀ i', Rewriting (⟨w, Function.update m.jobs i (some j')⟩ : Machine (Host Y G) ι) i' → i' = i := by
    intro i' hr
    by_contra hi
    exact halone i' hi ((rewriting_other hi).mp hr)
  refine ⟨fun i₁ i₂ h₁ h₂ => (honly i₁ h₁).trans (honly i₂ h₂).symm, holds_update hown fun i' k hi hk => ?_,
    fun hno => absurd (rewriting_self.mpr hwin) (hno i)⟩
  exact LbStage.holds_of_not_window fun hw => halone i' hi ⟨k, hk, hw⟩

/-- The one job that is in its window leaves it. -/
theorem Ingress.closes (hwin : ¬ LbStage.Window (Local.lb j'.loc).stage) (halone : ∀ i', i' ≠ i → ¬ Rewriting m i')
    (hshown : Shown exact Y w.fs) :
    Ingress exact (⟨w, Function.update m.jobs i (some j')⟩ : Machine (Host Y G) ι) := by
  have hnone : ∀ i', ¬ Rewriting (⟨w, Function.update m.jobs i (some j')⟩ : Machine (Host Y G) ι) i' := by
    intro i' hr
    by_cases hi : i' = i
    · subst i'
      exact hwin (rewriting_self.mp hr)
    · exact halone i' hi ((rewriting_other hi).mp hr)
  refine ⟨fun i₁ _ h₁ _ => absurd h₁ (hnone i₁),
    holds_update (LbStage.holds_of_not_window hwin) fun i' k hi hk => ?_, fun _ => hshown⟩
  exact LbStage.holds_of_not_window fun hw => halone i' hi ⟨k, hk, hw⟩

/-- A job that is not in its window goes. -/
theorem Ingress.clear (h : Ingress exact m) (hj : m.jobs i = some j)
    (hwin : ¬ LbStage.Window (Local.lb j.loc).stage) (hfs : w.fs = (World.fs m.world)) :
    Ingress exact (⟨w, Function.update m.jobs i none⟩ : Machine (Host Y G) ι) := by
  have hrew : ∀ i', Rewriting (⟨w, Function.update m.jobs i none⟩ : Machine (Host Y G) ι) i' → Rewriting m i' := by
    intro i' ⟨k, hk, hw⟩
    exact ⟨k, (Machine.jobs_clear hk).2, hw⟩
  refine ⟨fun i₁ i₂ h₁ h₂ => h.sole i₁ i₂ (hrew i₁ h₁) (hrew i₂ h₂), fun i' k hk => ?_, fun hno => ?_⟩
  · change LbStage.Holds Y w.fs _
    rw [hfs]
    exact h.holds i' k (Machine.jobs_clear hk).2
  · change Shown exact Y w.fs
    rw [hfs]
    refine h.shown fun i' hr => ?_
    by_cases hi : i' = i
    · subst i'
      obtain ⟨k, hk, hw⟩ := hr
      rw [hj] at hk
      obtain rfl := Option.some.inj hk
      exact hwin hw
    · exact hno i' ((rewriting_other hi).mpr hr)

end Update

section Acted
variable {i : ι} {c : Choice} {loc : Local} {o : Op} {k : o.Ret → Go Unit}

/-- One operation of one job. -/
theorem Ingress.acted (h : Ingress exact m) (hok : (lb Y).ok loc.lb o) (hs : Spaced exact m e)
    (hp : m.Performs e i c loc o k) {l' : Local} {w' : World} {r : o.Ret}
    (hr : (perform Y G c loc m.world o).1 = r) (hw' : (perform Y G c loc m.world o).2.2 = w')
    (hl' : l'.lb.stage = loc.lb.stage.next Y o r) :
    Ingress exact (⟨w', Function.update m.jobs i (some ⟨l', k r⟩)⟩ : Machine (Host Y G) ι) := by
  have hj := hp.2.1
  have hsmooth := hs.smooth i c loc o k hp
  -- an operation that leaves the stage alone
  have rest : l'.lb.stage = loc.lb.stage →
      (∀ i' k', m.jobs i' = some k' → LbStage.Holds Y w'.fs (Local.lb k'.loc).stage) →
      ((∀ i', ¬ Rewriting m i') → Shown exact Y w'.fs) →
      Ingress exact (⟨w', Function.update m.jobs i (some ⟨l', k r⟩)⟩ : Machine (Host Y G) ι) := by
    intro hstage hholds hshown
    refine h.renew hj (Iff.of_eq (congrArg LbStage.Window hstage)) ?_ (fun i' k' _ => hholds i' k') hshown
    have hown := hholds i _ hj
    rw [← hstage] at hown
    exact hown
  have kept : l'.lb.stage = loc.lb.stage → Alike (World.fs m.world) w'.fs →
      Ingress exact (⟨w', Function.update m.jobs i (some ⟨l', k r⟩)⟩ : Machine (Host Y G) ι) :=
    fun hstage hk => rest hstage (fun i' k' hk' => (h.holds i' k' hk').kept hk) fun hno => (h.shown hno).kept hk
  -- a job that stands in its window is the only one
  have alone : loc.lb.stage.Window → ∀ i', i' ≠ i → ¬ Rewriting m i' :=
    fun hw i' hi hrew => hi (h.sole i' i hrew ⟨_, hj, hw⟩)
  rcases passing_or hok with ho | ⟨hb, d, rfl⟩ | ⟨hb, rfl⟩ | ⟨q, data, acc, hl, rfl⟩ | ⟨q, data, acc, ht, rfl⟩ |
    ⟨hidle, p, rfl⟩
  · have hk : Alike (World.fs m.world) w'.fs := hw' ▸ ho.spares.yamlKept.alike
    obtain ⟨hwin, hown⟩ := @Passing.next Y G o c loc m.world _ ho hok rfl (fun hw => hsmooth (.inr hw)) (h.holds i _ hj)
    rw [hr, ← hl'] at hwin hown
    rw [hw'] at hown
    exact h.renew hj hwin hown (fun i' k' _ hk' => (h.holds i' k' hk').kept hk) fun hno => (h.shown hno).kept hk
  · -- the fragment is written, and the window opens
    rw [hb] at hl'
    obtain ⟨hres, hfs⟩ := @perform_fs_smooth Y G c loc m.world (hsmooth (.inl hb))
      (.writeFile (serviceConfPath d.upstreamName) (Y.marshalConfig d))
    cases r with
    | false =>
      have hsame : w'.fs = World.fs m.world := hw' ▸ hfs.trans (store_false (hres.symm.trans hr))
      exact kept (hl'.trans hb.symm) ⟨fun _ _ => by rw [hsame], by rw [hsame]⟩
    | true =>
      have hwrote : l'.lb.stage = .wrote (serviceConfPath d.upstreamName) (Y.marshalConfig d) := hl'
      refine Ingress.opens ?_ ?_ (hs.written i c loc _ _ k hp hb)
      · change l'.lb.stage.Window
        rw [hwrote]
        trivial
      · change l'.lb.stage.Holds Y w'.fs
        rw [hwrote]
        trivial
  · -- a configuration is put in place where there is none
    have hnone := hs.missing i c loc k hp hb
    have hfrag : ∀ q, IsFragment q → w'.fs.content q = (World.fs m.world).content q :=
      fun q hq => hw' ▸ bootstrap_fragment hq
    have hstage : l'.lb.stage = loc.lb.stage := by
      rw [hl']
      cases hst : loc.lb.stage <;> first | rfl | exact absurd hst hb
    refine rest hstage (fun i' k' hk' => ?_) fun hno => (h.shown hno).bootstrap hnone hfrag
    have hold := h.holds i' k' hk'
    cases hst : (Local.lb k'.loc).stage with
    | listed q data todo acc =>
      rw [hst] at hold
      refine ⟨hold.1, ?_⟩
      rw [fragments_congr hfrag, ← hold.2]
      congr 1
      refine List.flatMap_congr fun n hn => ?_
      rw [fragmentServices_content (hold.1 n hn), fragmentServices_content (hold.1 n hn), hfrag _ ⟨n, rfl, hold.1 n hn⟩]
    | truncated q data acc =>
      rw [hst] at hold
      rw [hold.2] at hnone
      cases hnone
    | _ => trivial
  · -- the configuration is made empty
    have hc := hsmooth (.inr (by rw [hl]; trivial))
    rw [hl] at hl'
    cases r with
    | false =>
      obtain ⟨hres, hfs⟩ := @perform_fs_smooth Y G c loc m.world hc (.create envoyConfig)
      have hsame : w'.fs = World.fs m.world := hw' ▸ hfs.trans (store_false (hres.symm.trans hr))
      exact kept (hl'.trans hl.symm) ⟨fun _ _ => by rw [hsame], by rw [hsame]⟩
    | true =>
      obtain ⟨hempty, hfrag⟩ := @create_config Y G c loc m.world hc hr
      rw [hw'] at hempty hfrag
      have htrunc : l'.lb.stage = .truncated q data acc := hl'
      have hold := h.holds i _ hj
      change loc.lb.stage.Holds Y _ at hold
      rw [hl] at hold
      refine Ingress.opens ?_ ?_ (alone (by rw [hl]; trivial))
      · change l'.lb.stage.Window
        rw [htrunc]
        trivial
      · change l'.lb.stage.Holds Y w'.fs
        rw [htrunc]
        have hall : acc ++ [] = (fragments Y (World.fs m.world)).map toEnvoyService := hold.2
        rw [List.append_nil] at hall
        exact ⟨hall.trans (by rw [fragments_congr hfrag]), hempty⟩
  · -- the configuration is written, and the window closes
    have hc := hsmooth (.inr (by rw [ht]; trivial))
    have hold := h.holds i _ hj
    change loc.lb.stage.Holds Y _ at hold
    rw [ht] at hold
    obtain ⟨hres, htext, hfrag⟩ := @write_config Y G c loc m.world (envoyTmpl acc) hc hold.2
    obtain rfl : true = r := hres.symm.trans hr
    rw [hw'] at htext hfrag
    rw [ht] at hl'
    have hrendered : l'.lb.stage = .rendered q data acc := hl'
    refine Ingress.closes ?_ (alone (by rw [ht]; trivial)) (.inr ⟨fragments Y w'.fs, .refl _, fun _ => rfl, ?_⟩)
    · change ¬ l'.lb.stage.Window
      rw [hrendered]
      exact id
    · rw [htext, hold.1, fragments_congr hfrag]
  · -- something is removed
    have hstage : l'.lb.stage = loc.lb.stage := by
      rw [hl', hidle]
      rfl
    have hcontent : ∀ q, w'.fs.content q = (World.fs m.world).content q ∨
        (World.fs m.world).walk [] p = .ok q ∧ w'.fs.content q = none := fun q => hw' ▸ remove_content
    have hconfig : w'.fs.content envoyConfig = (World.fs m.world).content envoyConfig := by
      rcases hcontent envoyConfig with hc | ⟨hwalk, _⟩
      · exact hc
      · exact absurd rfl (hs.removed i c loc p k _ hp hwalk).1
    by_cases hq : ∃ q, IsFragment q ∧ (World.fs m.world).walk [] p = .ok q
    · obtain ⟨q, hq, hwalk⟩ := hq
      obtain ⟨hx, hothers⟩ := (hs.removed i c loc p k q hp hwalk).2 hq
      have hclosed : ∀ i' k', m.jobs i' = some k' → ¬ LbStage.Window (Local.lb k'.loc).stage := by
        intro i' k' hk' hwin
        by_cases hi : i' = i
        · subst i'
          rw [hj] at hk'
          obtain rfl := Option.some.inj hk'
          change loc.lb.stage.Window at hwin
          rw [hidle] at hwin
          exact hwin
        · exact hothers i' hi ⟨k', hk', hwin⟩
      refine rest hstage (fun i' k' hk' => LbStage.holds_of_not_window (hclosed i' k' hk')) fun hno => ?_
      exact (h.shown hno).removed (fun q _ => (hcontent q).imp_right fun hc => ⟨hx, hc.2⟩) hconfig
    · refine kept hstage ⟨fun q' hq' => ?_, hconfig⟩
      rcases hcontent q' with hc | ⟨hwalk, _⟩
      · exact hc
      · exact absurd ⟨q', hq', hwalk⟩ hq

end Acted

/-- A job that has not begun a rewriting. -/
theorem Ingress.launched {i : ι} {l : Local} {p : Go Unit} {w : World} (h : Ingress exact m) (hj : m.jobs i = none)
    (hl : l.lb.stage = .idle) (hfs : w.fs = World.fs m.world) :
    Ingress exact (⟨w, Function.update m.jobs i (some ⟨l, p⟩)⟩ : Machine (Host Y G) ι) := by
  have hself : ¬ Rewriting (⟨w, Function.update m.jobs i (some ⟨l, p⟩)⟩ : Machine (Host Y G) ι) i := by
    rw [rewriting_self]
    change ¬ l.lb.stage.Window
    rw [hl]
    exact id
  have hrew : ∀ i', Rewriting (⟨w, Function.update m.jobs i (some ⟨l, p⟩)⟩ : Machine (Host Y G) ι) i' ↔
      Rewriting m i' := by
    intro i'
    by_cases hi : i' = i
    · subst i'
      refine ⟨fun hr => absurd hr hself, fun hr => ?_⟩
      obtain ⟨k, hk, _⟩ := hr
      rw [hj] at hk
      cases hk
    · exact rewriting_other hi
  refine ⟨fun i₁ i₂ h₁ h₂ => h.sole i₁ i₂ ((hrew i₁).mp h₁) ((hrew i₂).mp h₂),
    holds_update ?_ fun i' k _ hk => hfs ▸ h.holds i' k hk,
    fun hno => hfs ▸ h.shown fun i' hr => hno i' ((hrew i').mpr hr)⟩
  change l.lb.stage.Holds Y w.fs
  rw [hl]
  trivial

omit [DecidableEq ι] in
theorem Ingress.of_fs {w : World} (h : Ingress exact m) (hfs : w.fs = World.fs m.world) :
    Ingress exact (⟨w, m.jobs⟩ : Machine (Host Y G) ι) :=
  ⟨h.sole, fun i j hj => hfs ▸ h.holds i j hj, fun hno => hfs ▸ h.shown hno⟩

theorem ingress_step (hw : (lbWatch Y G).Holds m) (h : Ingress exact m) (hs : Spaced exact m e) :
    Ingress exact (m.apply e) := by
  apply Machine.apply_elim (P := Ingress exact) m e
  case stay => exact h
  case launched =>
    intro i x loc p w _ hj he
    obtain ⟨_, _, _, _, _, hl⟩ := enter_spec he
    exact h.launched hj (by rw [hl]) (enter_stores he).fs
  case dead =>
    intro i j hend _
    obtain ⟨_, _, hj, _⟩ := id hend
    exact h.clear hj (hs.whole i j hend) rfl
  case ended =>
    intro i j hend _
    obtain ⟨_, _, hj, _⟩ := id hend
    exact h.clear hj (hs.whole i j hend) rfl
  case acted => exact fun i c loc o k hp => h.acted (hw.ok hp) hs hp rfl rfl rfl
  case disturbed => exact fun d _ => h.of_fs (disturb_stores d).fs

/-- Along a run of any number of commands that interleave in any way, whatever else fails,
in which the rewritings of the configuration keep clear of one another: in every state in
which none is in its window, the configuration lists every fragment, in the order of the
file names; and if no fragment was removed, it lists nothing else. -/
theorem configuration_lists {es : List (Event (Host Y G) ι)} (hm : m.Idle) (h : Shown exact Y (World.fs m.world))
    (hc : Machine.Along (Spaced exact) m es) (hout : ∀ i, ¬ Rewriting (m.run es) i) :
    fragments Y (World.fs (m.run es).world) = [] ∨ ∃ cs : List ServiceEnvoyConfig,
      (fragments Y (World.fs (m.run es).world)).Sublist cs ∧
      (exact → cs = fragments Y (World.fs (m.run es).world)) ∧
      (World.fs (m.run es).world).content envoyConfig = some (envoyTmpl (cs.map toEnvoyService)) := by
  have hnone : ∀ i, ¬ Rewriting m i := fun i hr => by
    obtain ⟨j, hj, _⟩ := hr
    rw [hm i] at hj
    cases hj
  have h₀ : Ingress exact m := by
    refine ⟨fun i _ hr _ => absurd hr (hnone i), fun i j hj => ?_, fun _ => h⟩
    rw [hm i] at hj
    cases hj
  have hrun : (lbWatch Y G).Holds (m.run es) ∧ Ingress exact (m.run es) :=
    Machine.run_of_step (J := fun m => (lbWatch Y G).Holds m ∧ Ingress exact m)
      (fun m e hm he => ⟨hm.1.apply e, ingress_step hm.1 hm.2 he⟩) ⟨Watch.holds_of_idle hm, h₀⟩ hc
  exact hrun.2.shown hout

end Runs

namespace Sample

instance : DecidablePred LbStage.Window := fun s => by
  cases s <;> first | exact .isTrue trivial | exact .isFalse id

/-- No other job is in its window. -/
def undisturbed (m : Machine (Host Y G) (Fin 2)) (i : Fin 2) : Bool :=
  (List.finRange 2).all fun i' => i' = i || (m.jobs i').all fun j => ! decide (LbStage.Window (Local.lb j.loc).stage)

/-- A test for events in which the rewritings keep clear of one another. -/
def clear (m : Machine (Host Y G) (Fin 2)) (e : Event (Host Y G) (Fin 2)) : Bool :=
  match e with
  | .act i c => decide (Choice.fault c = none) && match m.due i with
    | some (loc, .fs (.writeFile p _)) =>
      if (Local.lb loc).stage = .begun then undisturbed m i
      else decide (p = envoyConfig → (World.fs m.world).content envoyConfig = none)
    | some (_, .fs (.remove p)) => undisturbed m i && match (World.fs m.world).walk [] p with
      | .ok q => decide (q ≠ envoyConfig)
      | .error _ => true
    | some _ => true
    | none => (m.jobs i).all fun j => ! decide (LbStage.Window (Local.lb j.loc).stage)
  | _ => true

theorem undisturbed_sound {m : Machine (Host Y G) (Fin 2)} {i i' : Fin 2} (h : undisturbed m i = true) (hi : i' ≠ i) :
    ¬ Rewriting m i' := by
  intro hr
  obtain ⟨j, hj, hwin⟩ := hr
  have hall := List.all_eq_true.mp h i' (List.mem_finRange i')
  simp [hi, hj, hwin] at hall

theorem clear_sound {m : Machine (Host Y G) (Fin 2)} {e : Event (Host Y G) (Fin 2)} (h : clear m e = true) :
    Spaced False m e := by
  refine ⟨fun i c loc o k hp _ => ?_, fun i j hend hwin => ?_, fun i c loc p data k hp hb i' hi => ?_,
    fun i c loc p k q hp hwalk => ?_, fun i c loc k hp hb => ?_⟩
  · obtain ⟨rfl, _⟩ := hp
    simp only [clear, Bool.and_eq_true, decide_eq_true_eq] at h
    exact h.1
  · have hdue := hend.due
    obtain ⟨c, rfl, hj, _⟩ := hend
    simp [clear, hdue, hj, hwin] at h
  · have hdue := hp.due
    obtain ⟨rfl, _⟩ := hp
    simp only [clear, hdue, hb, if_true, Bool.and_eq_true] at h
    exact undisturbed_sound h.2 hi
  · have hdue := hp.due
    obtain ⟨rfl, _⟩ := hp
    simp only [clear, hdue, hwalk, Bool.and_eq_true, decide_eq_true_eq] at h
    exact ⟨h.2.2, fun _ => ⟨id, fun i' hi => undisturbed_sound h.2.1 hi⟩⟩
  · have hdue := hp.due
    obtain ⟨rfl, _⟩ := hp
    simp only [clear, hdue, hb, if_false, Bool.and_eq_true, decide_eq_true_eq] at h
    exact h.2 trivial

/-- A service and a database are created in turns, then another service, and the first one
is deleted. -/
def turns : List (SampleEvent (Fin 2)) :=
  create 0 shop 100 :: create 1 users 200 :: (List.range 30).flatMap (fun _ => steps 0 1 101 ++ steps 1 1 201) ++
    steps 0 60 102 ++ steps 1 60 202 ++ create 0 blog 300 :: steps 0 30 301 ++ steps 0 60 302 ++
    delete 1 "service" "shop" 400 :: steps 1 80 401

theorem turns_listed : fragments yaml (World.fs (start.run turns).world) = [] ∨ ∃ cs : List ServiceEnvoyConfig,
    (fragments yaml (World.fs (start.run turns).world)).Sublist cs ∧
    (False → cs = fragments yaml (World.fs (start.run turns).world)) ∧
    (World.fs (start.run turns).world).content envoyConfig = some (envoyTmpl (cs.map toEnvoyService)) := by
  have hclear : Machine.Along (fun m e => clear m e = true) (start (ι := Fin 2)) turns := by decide +kernel
  have hout : (List.finRange 2).all (fun i => ((start (ι := Fin 2)).run turns).jobs i |>.isNone) = true := by
    decide +kernel
  refine configuration_lists start_idle (.inl (by decide +kernel)) (hclear.imp fun _ _ => clear_sound) fun i hr => ?_
  obtain ⟨j, hj, _⟩ := hr
  have hnone := List.all_eq_true.mp hout i (List.mem_finRange i)
  rw [hj] at hnone
  cases hnone

end Sample
end PrivatePaas
