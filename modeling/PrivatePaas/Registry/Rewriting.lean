import PrivatePaas.Registry.Fragments
import PrivatePaas.Registry.Rules

/-!
# One rewriting of the Envoy configuration

What `UpdateLbConfig` has done to the files when it returns: the fragment of its
upstream is there, no other fragment has changed, and the configuration is rendered
from all of them.
-/

namespace PrivatePaas
set_option autoImplicit false
open Files Text Effects Go Network Prog PrivatePaas.Parser

variable {Y : Yaml} {G : GoIpam} {α β : Type}
variable {C : (Host Y G).Choice → Prop} {l : Local} {w : World}

section Trees
variable {t t' : Tree}

theorem proper_confDir : ∀ n ∈ envoyConfDir, Proper n := by decide

/-- What a listed entry adds to the services: something only if it is a well-formed file. -/
theorem fragmentServices_read {n : String} (h : envoyConfDir ++ [n] ∈ t.nodes) :
    fragmentServices Y (t.read (envoyConfDir ++ [n])) =
      (((t.content (envoyConfDir ++ [n])).bind Y.unmarshalConfig).map toEnvoyService).toList := by
  cases hc : t.content (envoyConfDir ++ [n]) with
  | none =>
    rw [Tree.read, Tree.walk_of_mem h]
    simp only [hc]
    split <;> rfl
  | some data =>
    rw [Tree.read_of_content hc]
    simp only [fragmentServices, Option.bind_some]
    cases Y.unmarshalConfig data <;> rfl

/-- The services read from what a glob lists are those of the fragments. -/
theorem flatMap_glob (hd : t.isDir envoyConfDir) :
    ((t.glob envoyConfDir ".yaml").flatMap fun n => fragmentServices Y (t.read (envoyConfDir ++ [n]))) =
      (fragments Y t).map toEnvoyService := by
  have hglob : ∀ n ∈ t.glob envoyConfDir ".yaml", envoyConfDir ++ [n] ∈ t.nodes := by
    intro n hn
    rw [Tree.glob_eq_of_isDir proper_confDir hd, List.mem_insertionSort, List.mem_filter] at hn
    exact Tree.mem_names.mp hn.1
  unfold fragments
  rw [← Tree.filter_glob proper_confDir hd]
  generalize t.glob envoyConfDir ".yaml" = ns at hglob
  induction ns with
  | nil => rfl
  | cons n ns ih =>
    have hns := ih fun m hm => hglob m (List.mem_cons_of_mem n hm)
    rw [List.flatMap_cons, fragmentServices_read (hglob n List.mem_cons_self), hns]
    cases hc : t.content (envoyConfDir ++ [n]) with
    | none => simp [hc]
    | some data => cases hu : Y.unmarshalConfig data <;> simp [hc, hu]

theorem proper_of_yaml {n : String} (h : ".yaml".toList <:+ n.toList) : Proper n := by
  have hlen := h.length_le
  refine ⟨?_, ?_, ?_⟩ <;> intro he <;> rw [he] at hlen <;> exact absurd hlen (by decide)

theorem IsFragment.yamlFile {q : Path} (h : IsFragment q) : YamlFile q := by
  obtain ⟨n, rfl, hn⟩ := h
  exact ⟨envoyConfDir, n, rfl, proper_of_yaml hn, hn⟩

/-- The fragments are what their files say. -/
theorem fragments_congr (h : ∀ q, IsFragment q → t'.content q = t.content q) : fragments Y t' = fragments Y t := by
  have hcontent : ∀ n ∈ t.files envoyConfDir ".yaml",
      t'.content (envoyConfDir ++ [n]) = t.content (envoyConfDir ++ [n]) :=
    fun n hn => h _ ⟨n, rfl, (Tree.mem_files.mp hn).1⟩
  have hfiles : t'.files envoyConfDir ".yaml" = t.files envoyConfDir ".yaml" := by
    refine Tree.files_congr fun n hn => ?_
    rw [h _ ⟨n, rfl, hn⟩]
  unfold fragments
  rw [hfiles]
  exact List.filterMap_congr fun n hn => by rw [hcontent n hn]

/-- The directory that `MkdirAll` was asked for is there. -/
theorem isDir_of_mkdirs {cs : List String} {cur : Path} (hcs : ∀ c ∈ cs, Proper c) (hd : t.isDir cur)
    (h : t.mkdirs cur cs = some t') : t'.isDir (cur ++ cs) := by
  induction cs generalizing t cur with
  | nil =>
    obtain rfl := Option.some.inj h
    rwa [List.append_nil]
  | cons c cs ih =>
    have hc := hcs c List.mem_cons_self
    have hrest : ∀ c' ∈ cs, Proper c' := fun c' hc' => hcs c' (List.mem_cons_of_mem c hc')
    rw [List.append_cons]
    unfold Tree.mkdirs at h
    rw [if_neg (not_or.mpr ⟨hc.1, hc.2.1⟩), if_neg hc.2.2] at h
    split at h
    · exact ih hrest ‹_› h
    split at h
    · rename_i hq
      refine ih hrest ?_ h
      right
      rw [Tree.lookup_put, if_pos rfl]
    · cases h

end Trees

section Frame

/-- No yaml file has changed, and no directory has gone. -/
structure YamlKept (t t' : Tree) : Prop where
  content : ∀ q, YamlFile q → t'.content q = t.content q
  dir : ∀ q, t.isDir q → t'.isDir q

theorem YamlKept.refl (t : Tree) : YamlKept t t := ⟨fun _ _ => rfl, fun _ h => h⟩

theorem YamlKept.trans {t₁ t₂ t₃ : Tree} (h : YamlKept t₁ t₂) (h' : YamlKept t₂ t₃) : YamlKept t₁ t₃ :=
  ⟨fun q hq => (h'.content q hq).trans (h.content q hq), fun q hq => h'.dir q (h.dir q hq)⟩

section Operations
variable {t t' : Tree} {c : Choice} {cwd : Path}

theorem isDir_update {p q : Path} {f : Option String → String} (h : t.update p f = some t') (hq : t.isDir q) :
    t'.isDir q := by
  obtain ⟨_, _, _, _, _, hd⟩ := Tree.update_spec h
  exact (hd q).mpr hq

theorem isDir_store {p q : Path} {f : Option String → String} (hq : t.isDir q) :
    (FsOp.store t p f).2.isDir q := by
  unfold FsOp.store
  cases h : t.update p f with
  | none => exact hq
  | some t' => exact isDir_update h hq

/-- Only a removal takes a directory away. -/
theorem isDir_perform {q : Path} (o : FsOp) (ho : ∀ p, o ≠ .remove p) (hq : t.isDir q) :
    (o.perform c cwd t).2.isDir q := by
  cases o with
  | writeFile p data => exact isDir_store hq
  | create p => exact isDir_store hq
  | write p data =>
    simp only [FsOp.perform]
    split
    · exact hq
    · exact isDir_store hq
  | openAppend p => exact isDir_store hq
  | append p data => exact isDir_store hq
  | remove p => exact absurd rfl (ho p)
  | mkdirAll p =>
    simp only [FsOp.perform]
    cases hm : t.mkdirs [] p with
    | none => exact hq
    | some t' => exact (Tree.mkdirs_spec hm).2 q hq
  | initdb bin dir =>
    simp only [FsOp.perform, FsOp.clusterFiles]
    cases h1 : t.update (clean (dir ++ ["PG_VERSION"])) fun _ => "14\n" with
    | none => exact hq
    | some t1 =>
      simp only [Option.bind_some]
      cases h2 : t1.update (clean (dir ++ ["pg_hba.conf"])) fun _ => c.text with
      | none => exact hq
      | some t2 => exact isDir_update h2 (isDir_update h1 hq)
  | _ => exact hq

/-- An operation that writes to no yaml file and removes nothing. -/
def FsOp.OffYaml (o : FsOp) : Prop :=
  (∀ p, o.Writes p → ∃ n, Named p n ∧ ¬ ".yaml".toList <:+ n.toList) ∧ ∀ p, o ≠ .remove p

theorem yamlKept_perform {o : FsOp} (h : o.OffYaml) : YamlKept t (o.perform c cwd t).2 := by
  refine ⟨?_, fun q => isDir_perform o h.2⟩
  rintro q ⟨d, m, rfl, hm, hy⟩
  have hw : ∀ p, o.Writes p → ∃ n, Named p n ∧ m ≠ n := by
    intro p hp
    obtain ⟨n, hn, hny⟩ := h.1 p hp
    refine ⟨n, hn, ?_⟩
    rintro rfl
    exact hny hy
  rcases @FsOp.perform_content c cwd t (d ++ [m]) m o (.concat hm) hw with hc | ⟨p, hp, _⟩
  · exact hc
  · exact absurd hp (h.2 p)

theorem offYaml_of_offLb {o : FsOp} (h : OffLb (.fs o)) : o.OffYaml := by
  refine ⟨fun p hp => ?_, ?_⟩
  · cases o with
    | writeFile q data =>
      obtain rfl : p = q := hp
      rcases h with h | rfl
      · exact h.notYaml
      · exact ⟨"envoy-paas.pid", .concat (d := ["run"]) (by decide), by decide⟩
    | openAppend q => obtain rfl : p = q := hp; exact h.notYaml
    | append q data => obtain rfl : p = q := hp; exact h.notYaml
    | initdb bin dir => exact FsOp.named_of_initdb hp (by decide)
    | create q => exact absurd h id
    | write q data => exact absurd h id
    | _ => exact absurd hp id
  · rintro p rfl
    exact h

theorem FsOp.OffYaml.remnant {o o' : FsOp} {n : Nat} (h : o.OffYaml)
    (hr : Op.remnant n (.fs o) = some (.fs o')) : o'.OffYaml := by
  cases o with
  | remove p => exact absurd rfl (h.2 p)
  | _ => cases hr; exact ⟨h.1, fun _ he => by cases he⟩

end Operations

/-- Whatever fails, such an operation leaves the yaml files alone. -/
theorem FsOp.OffYaml.yamlKept {c : Choice} {o : FsOp} (h : o.OffYaml) :
    YamlKept w.fs (PrivatePaas.perform Y G c l w (.fs o)).2.2.fs := by
  refine attempt_elim (P := fun x => YamlKept w.fs x.2.2.fs) (yamlKept_perform h) (.refl _) fun n o' hr => ?_
  obtain ⟨o'', rfl⟩ : ∃ o'', o' = .fs o'' := by
    cases o <;> cases hr <;> exact ⟨_, rfl⟩
  exact yamlKept_perform (h.remnant hr)

/-- An operation that leaves the yaml files alone. -/
def SparesYaml : Op → Prop
  | .fs o => o.OffYaml
  | _ => True

theorem OffLb.sparesYaml {o : Op} (h : OffLb o) : SparesYaml o := by
  cases o with
  | fs o => exact offYaml_of_offLb h
  | _ => trivial

theorem SparesYaml.yamlKept {c : Choice} {o : Op} (h : SparesYaml o) :
    YamlKept w.fs (perform Y G c l w o).2.2.fs := by
  by_cases ho : o.IsFs
  · cases o with
    | fs o => exact FsOp.OffYaml.yamlKept h
    | _ => exact absurd ho id
  · rw [perform_fs ho]
    exact .refl _

theorem always_sparesYaml {p : Go α} {t : Tree} (h : p.Only SparesYaml) (ht : YamlKept t w.fs) :
    (Host Y G).always C (fun w' => YamlKept t w'.fs) l w p :=
  System.always_of_only (Y := Host Y G) (I := fun w' => YamlKept t (World.fs w'))
    (fun _ _ _ _ _ ho hI _ => hI.trans (SparesYaml.yamlKept ho)) h ht

theorem yamlFile_config : YamlFile envoyConfig := ⟨["run"], "envoy-paas.yaml", rfl, by decide, by decide⟩

/-- A file that is there is not reported missing. -/
theorem stat_of_content {c : Choice} {q : Path} {text : String} (h : w.fs.content q = some text) :
    (perform Y G c l w (.fs (.stat q))).1 ≠ Except.error Err.notExist := by
  have hstat : w.fs.stat q = .ok () := by
    rw [Tree.stat, Tree.walk_of_mem (Tree.mem_of_content h)]
    exact if_pos (.inr (Tree.mem_of_content h))
  have hother : Except.error (α := Unit) Err.other ≠ Except.error Err.notExist := by decide
  refine attempt_elim (o := .fs (.stat q)) (P := fun x => x.1 ≠ Except.error Err.notExist) ?_ hother
    fun _ _ _ => hother
  change w.fs.stat q ≠ _
  rw [hstat]
  nofun

theorem always_ensureConfig {t : Tree} {text : String} (h : t.content envoyConfig = some text)
    (ht : YamlKept t w.fs) : (Host Y G).always C (fun w' => YamlKept t w'.fs) l w ensureConfig := by
  have hrun : Only SparesYaml (mkdirAll ["run"]) := ⟨⟨fun _ hp => absurd hp id, nofun⟩, fun _ => trivial⟩
  refine System.always_bind (always_sparesYaml hrun ht) fun _ l₁ w₁ h₁ => ⟨h₁, fun _ c _ => ?_⟩
  have hstat := @stat_of_content Y G l₁ w₁ c envoyConfig text ((h₁.content _ yamlFile_config).trans h)
  have hkept : YamlKept t (perform Y G c l₁ w₁ (.fs (.stat envoyConfig))).2.2.fs :=
    h₁.trans (FsOp.OffYaml.yamlKept ⟨fun _ hp => absurd hp id, nofun⟩)
  simp only [bind_eq, ret_bind]
  split
  · exact absurd ‹_› hstat
  · exact hkept

/-- What comes behind `ensureConfig` in `StartEnvoy`. -/
def launchEnvoy : Go (Option Nat) := do
  let envoyBin ← envoyBinary
  let _ ← openAppend ["var", "log", "envoy-paas.log"]
  match ← start (.envoy envoyBin envoyConfig) with
  | none => return none
  | some pid =>
    moveProcessToEnvoyCgroup pid
    let _ ← writeFile envoyPidFile (itoa pid)
    match ← getOrAcquireEnvoyIp with
    | none => return none
    | some ip =>
      connectEnvoy pid ip
      return some pid

theorem startEnvoy_eq : startEnvoy = stopExisting >>= fun _ => ensureConfig >>= fun _ => launchEnvoy := rfl

theorem sparesYaml_launch : Only SparesYaml launchEnvoy := by
  have hlog : Harmless ["var", "log", "envoy-paas.log"] := harmless_concat ["var", "log"] (by decide)
  refine (plain_envoyBinary.mono fun _ h => h.offLb.sparesYaml).bind fun bin => ?_
  refine ⟨offYaml_of_offLb (o := .openAppend _) hlog, fun _ => ⟨trivial, fun r => ?_⟩⟩
  cases r with
  | none => trivial
  | some pid =>
    refine ((plain_moveToCgroup pid).mono fun _ h => h.offLb.sparesYaml).bind fun _ => ?_
    refine ⟨offYaml_of_offLb (o := .writeFile _ _) (.inr rfl), fun _ => ?_⟩
    refine (aside_getOrAcquireEnvoyIp.mono fun _ h => h.offLb.sparesYaml).bind fun r => ?_
    cases r with
    | none => trivial
    | some ip => exact ((plain_connectEnvoy pid ip).mono fun _ h => h.offLb.sparesYaml).bind fun _ => trivial

/-- Where there is a configuration, `StartEnvoy` leaves the yaml files alone. -/
theorem always_startEnvoy {text : String} (h : w.fs.content envoyConfig = some text) :
    (Host Y G).always C (fun w' => YamlKept w.fs w'.fs) l w startEnvoy :=
  System.always_bind (always_sparesYaml (offLb_stopExisting.mono fun _ => OffLb.sparesYaml) (.refl _))
    fun _ _ _ h₁ => System.always_bind (always_ensureConfig h h₁)
      fun _ _ _ h₂ => always_sparesYaml sparesYaml_launch h₂

end Frame

section Call
variable {c : ServiceEnvoyConfig} {t t' : Tree}

/-- What a call that returns has made of the files. -/
structure Rewritten (Y : Yaml) (c : ServiceEnvoyConfig) (t t' : Tree) : Prop where
  dir : t'.isDir envoyConfDir
  others : ∀ q, YamlFile q → q ≠ serviceConfPath c.upstreamName → q ≠ envoyConfig →
    t'.content q = t.content q
  stored : serviceConfPath c.upstreamName ≠ envoyConfig →
    t'.content (serviceConfPath c.upstreamName) = some (Y.marshalConfig c)
  text : t'.content envoyConfig = some (rendering Y t')

theorem wp_readFragments {files : List String} {acc : List EnvoyService} {f : List EnvoyService → Go β}
    {Q : Option β → Local → World → Prop} (hl : Running l w)
    (h : ∀ l' past, l.Same l' → (Host Y G).wp Smooth Q l' { w with past := past }
      (f (acc ++ files.flatMap fun n => fragmentServices Y (w.fs.read (envoyConfDir ++ [n]))))) :
    (Host Y G).wp Smooth Q l w (readFragments Y files acc >>= f) := by
  induction files generalizing l w acc with
  | nil =>
    have hk := h l w.past (.refl l)
    rw [List.flatMap_nil, List.append_nil] at hk
    exact hk
  | cons n files ih =>
    refine wp_fs hl fun _ l₁ past₁ _ h₁ => ?_
    refine ih (hl.of_procs h₁ rfl) fun l₂ past₂ h₂ => ?_
    have hk := h l₂ past₂ (h₁.trans h₂)
    rw [List.flatMap_cons, ← List.append_assoc] at hk
    exact hk

theorem content_update {p : Path} {f : Option String → String} (hp : ∀ n ∈ p, Proper n)
    (h : t.update p f = some t') (q : Path) :
    t'.content q = if q = p then some (f (t.content p)) else t.content q := by
  obtain ⟨q', hw, _, _, hc, _⟩ := Tree.update_spec h
  obtain rfl := eq_of_walk_root hp hw
  exact hc q

theorem overlay_empty (data : String) : overlay data "" = data := by
  simp [overlay]

/-- The fragment is written, then the configuration is made empty and filled. -/
theorem rewritten_of_steps {t₁ t₂ t₃ t₄ : Tree} (h₁ : t.mkdirs [] envoyConfDir = some t₁)
    (h₂ : t₁.update (serviceConfPath c.upstreamName) (fun _ => Y.marshalConfig c) = some t₂)
    (h₃ : t₂.update envoyConfig (fun _ => "") = some t₃)
    (h₄ : t₃.update envoyConfig (fun old => overlay (rendering Y t₂) (old.getD "")) = some t₄)
    (hk : YamlKept t₄ t') : Rewritten Y c t t' := by
  have hproper : ∀ n ∈ envoyConfig, Proper n := by decide
  have c₂ := content_update (proper_serviceConfPath c.upstreamName) h₂
  have c₃ := content_update hproper h₃
  have c₄ := content_update hproper h₄
  have after : ∀ q, q ≠ envoyConfig → t₄.content q = t₂.content q := by
    intro q hq
    rw [c₄, if_neg hq, c₃, if_neg hq]
  have htext : t₄.content envoyConfig = some (rendering Y t₂) := by
    rw [c₄, if_pos rfl, c₃, if_pos rfl, Option.getD_some, overlay_empty]
  refine ⟨?_, fun q hy hq hq' => ?_, fun hq => ?_, ?_⟩
  · have hd : t₁.isDir envoyConfDir := isDir_of_mkdirs proper_confDir (.inl rfl) h₁
    exact hk.dir _ (isDir_update h₄ (isDir_update h₃ (isDir_update h₂ hd)))
  · rw [hk.content q hy, after q hq', c₂, if_neg hq, (Tree.mkdirs_spec h₁).1 q]
  · rw [hk.content _ (yamlFile_serviceConfPath _), after _ hq, c₂, if_pos rfl]
  · rw [hk.content _ yamlFile_config, htext]
    have hsame : fragments Y t' = fragments Y t₂ :=
      fragments_congr fun q hq => (hk.content q hq.yamlFile).trans (after q hq.ne_config)
    rw [rendering, rendering, hsame]

/-- A call that returns has rewritten the configuration. -/
theorem wp_updateLbConfig (hl : Running l w) : (Host Y G).wp Smooth
    (fun r _ w' => r = some () → Rewritten Y c w.fs w'.fs) l w (updateLbConfig Y c) := by
  refine wp_fs hl fun _ l₁ past₁ _ h₁ => ?_
  simp only [FsOp.perform]
  cases hm : w.fs.mkdirs [] envoyConfDir with
  | none => exact fun hr => by cases hr
  | some t₁ =>
    simp only [bind_eq, ret_bind]
    refine wp_fs (hl.of_procs h₁ rfl) fun _ l₂ past₂ _ h₂ => ?_
    simp only [FsOp.perform, FsOp.store]
    cases hu : t₁.update (serviceConfPath c.upstreamName) fun _ => Y.marshalConfig c with
    | none => exact fun hr => by cases hr
    | some t₂ =>
      have hs₂ := h₁.trans h₂
      have hd : t₂.isDir envoyConfDir :=
        isDir_update hu (isDir_of_mkdirs proper_confDir (.inl rfl) hm)
      simp only [bind_eq, ret_bind]
      refine wp_fs (hl.of_procs hs₂ rfl) fun _ l₃ past₃ _ h₃ => ?_
      have hs₃ := hs₂.trans h₃
      simp only [FsOp.perform, bind_eq, ret_bind]
      refine wp_readFragments (hl.of_procs hs₃ rfl) fun l₄ past₄ h₄ => ?_
      have hs₄ := hs₃.trans h₄
      rw [List.nil_append, flatMap_glob hd]
      refine wp_fs (hl.of_procs hs₄ rfl) fun _ l₅ past₅ _ h₅ => ?_
      have hs₅ := hs₄.trans h₅
      simp only [FsOp.perform, bind_eq, ret_bind]
      refine wp_fs (hl.of_procs hs₅ rfl) fun _ l₆ past₆ _ h₆ => ?_
      have hs₆ := hs₅.trans h₆
      simp only [FsOp.perform, bind_eq, ret_bind]
      split
      · exact fun hr => by cases hr
      refine wp_fs (hl.of_procs hs₆ rfl) fun _ l₇ past₇ _ h₇ => ?_
      have hs₇ := hs₆.trans h₇
      simp only [FsOp.perform, FsOp.store]
      cases hcr : t₂.update envoyConfig fun _ => "" with
      | none => exact fun hr => by cases hr
      | some t₃ =>
        simp only [bind_eq, ret_bind]
        have hc₃ := content_update (by decide : ∀ n ∈ envoyConfig, Proper n) hcr envoyConfig
        rw [if_pos rfl] at hc₃
        obtain ⟨t₄, hw, hc₄⟩ := Tree.update_of_content (fun old => overlay (rendering Y t₂) (old.getD "")) hc₃
        have hc₄ := hc₄ envoyConfig
        rw [if_pos rfl, Option.getD_some, overlay_empty] at hc₄
        refine wp_fs (hl.of_procs hs₇ rfl) fun c₈ l₈ past₈ _ h₈ => ?_
        have hwrite : FsOp.perform c₈ w.cwd t₃ (.write envoyConfig (rendering Y t₂)) = (true, t₄) := by
          simp only [FsOp.perform, Tree.read_of_content hc₃, FsOp.store, hw]
        change (Host Y G).wp Smooth _ l₈ { w with
            fs := (FsOp.perform c₈ w.cwd t₃ (.write envoyConfig (rendering Y t₂))).2, past := past₈ }
          (if (!(FsOp.perform c₈ w.cwd t₃ (.write envoyConfig (rendering Y t₂))).1) = true then _ else _)
        rw [hwrite]
        refine System.wp_bind (System.wp_mono (fun r l₉ w₉ hk => ?_) (System.wp_of_always (always_startEnvoy hc₄)))
        cases r with
        | none => exact fun hr => by cases hr
        | some _ => exact fun _ => rewritten_of_steps hm hu hcr hw hk

end Call
end PrivatePaas
