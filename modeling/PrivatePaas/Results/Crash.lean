import PrivatePaas.Results.Updates

/-!
# A call that stops halfway

The fragment is written first, and the configuration is emptied before it is filled. What
is left of a call that stops is therefore consistent before the first and behind the last
of these steps only, unless the new fragment makes no difference.
-/

namespace PrivatePaas
set_option autoImplicit false
open Files Text Effects Go Network Prog PrivatePaas.Parser

variable {Y : Yaml} {G : GoIpam} {α : Type} {c : ServiceEnvoyConfig}
variable {l : Local} {w : World} {f : Nat → Choice} {n : Nat} {t t' t₂ : Tree}

/-- The configuration is the complete rendering of the fragments that are there. -/
def Consistent (Y : Yaml) (t : Tree) : Prop := t.content envoyConfig = some (rendering Y t)

section Faults

/-- What may have been done of a file operation that fails. -/
def FsOp.begun (n : Nat) : FsOp → FsOp
  | .writeFile p data => .writeFile p (cutAt n data)
  | .write p data => .write p (cutAt n data)
  | .append p data => .append p (cutAt n data)
  | o => o

/-- A file operation that may fail: its answer, and what becomes of the files. -/
def FsOp.meets (c : Choice) (cwd : Path) (t : Tree) (o : FsOp) : o.Ret × Tree :=
  match c.fault with
  | none => o.perform c cwd t
  | some 0 => (Op.failure (.fs o), t)
  | some (n + 1) => (Op.failure (.fs o), ((o.begun n).perform c cwd t).2)

theorem attempt_eq_meets {c : Choice} {o : FsOp} : attempt G c l w (.fs o) =
    ((o.meets c w.cwd w.fs).1, l.mem, { w with fs := (o.meets c w.cwd w.fs).2 }) := by
  unfold attempt FsOp.meets
  cases hc : c.fault with
  | none => rfl
  | some n =>
    cases n with
    | zero => rfl
    | succ n => cases o <;> rfl

theorem perform_eq_meets {c : Choice} {o : FsOp} :
    (perform Y G c l w (.fs o)).1 = (o.meets c w.cwd w.fs).1 ∧
      (perform Y G c l w (.fs o)).2.2 = { w with fs := (o.meets c w.cwd w.fs).2 } := by
  unfold perform
  rw [attempt_eq_meets]
  exact ⟨rfl, rfl⟩

/-- The first operation of a program that is stopped later. -/
theorem exec_take {o : FsOp} {k : o.Ret → Go α} {p : Go α} (hp : p = .call (.fs o) k) (hl : Running l w) :
    ∃ l', l.Same l' ∧ ∀ m, (Host Y G).exec f l w (p.take (m + 1)) =
      (Host Y G).exec (fun i => f (i + 1)) l' { w with fs := (o.meets (f 0) w.cwd w.fs).2 }
        (Prog.take m (k (o.meets (f 0) w.cwd w.fs).1)) := by
  obtain ⟨hr, hw⟩ := @perform_eq_meets Y G l w (f 0) o
  refine ⟨(perform Y G (f 0) l w (.fs o)).2.1, @same_perform Y G l w (f 0) (.fs o), fun m => ?_⟩
  rw [hp, Prog.take]
  refine (System.exec_alive (Y := Host Y G) (c := f) (alive_iff.mpr hl)).trans ?_
  change (Host Y G).exec _ _ (perform Y G (f 0) l w (.fs o)).2.2
    (Prog.take m (k (perform Y G (f 0) l w (.fs o)).1)) = _
  rw [hr, hw]
  rfl

theorem take_halt : (halt : Go α).take n = halt := by
  cases n <;> rfl

/-- What is written of a text. -/
def through (fault : Option Nat) (text : String) : String :=
  match fault with
  | none => text
  | some n => cutAt (n - 1) text

theorem through_zero (text : String) : through (some 0) text = "" := by
  simp [through, cutAt]

end Faults

section Reads

/-- The services that come of reading these files, some of which may not be readable. -/
def gathered (Y : Yaml) (t : Tree) : (Nat → Choice) → List String → List EnvoyService
  | _, [] => []
  | f, file :: files =>
    (if (f 0).fault = none then fragmentServices Y (t.read (envoyConfDir ++ [file])) else []) ++
      gathered Y t (fun i => f (i + 1)) files

theorem meets_readFile {c : Choice} {cwd p : Path} :
    ((FsOp.readFile p).meets c cwd t).2 = t ∧
      fragmentServices Y ((FsOp.readFile p).meets c cwd t).1 =
        if c.fault = none then fragmentServices Y (t.read p) else [] := by
  unfold FsOp.meets
  cases hc : c.fault with
  | none => exact ⟨rfl, (if_pos rfl).symm⟩
  | some n => cases n <;> exact ⟨rfl, (if_neg (by simp)).symm⟩

/-- The loop over the fragments, stopped there or later. -/
theorem stopped_reads {files : List String} {acc : List EnvoyService} {k : List EnvoyService → Go α}
    (hl : Running l w) : ∃ l', l.Same l' ∧
      (n ≤ files.length → World.fs ((Host Y G).exec f l w
        (Prog.take n (readFragments Y files acc >>= k))).world = w.fs) ∧
      (files.length < n → (Host Y G).exec f l w (Prog.take n (readFragments Y files acc >>= k)) =
        (Host Y G).exec (fun i => f (i + files.length)) l' w
          (Prog.take (n - files.length) (k (acc ++ gathered Y w.fs f files)))) := by
  induction files generalizing l w f n acc with
  | nil =>
    refine ⟨l, .refl l, fun hn => ?_, fun _ => ?_⟩
    · obtain rfl := Nat.le_zero.mp hn
      rw [Prog.take]
      rfl
    · rw [gathered, List.append_nil]
      rfl
  | cons file files ih =>
    obtain ⟨l₁, h₁, hstep⟩ := @exec_take Y G α l w f (.readFile (envoyConfDir ++ [file]))
      (fun data => readFragments Y files (acc ++ fragmentServices Y data) >>= k)
      (readFragments Y (file :: files) acc >>= k) rfl hl
    obtain ⟨hfs, hgot⟩ := @meets_readFile Y w.fs (f 0) w.cwd (envoyConfDir ++ [file])
    rw [hfs, hgot] at hstep
    obtain ⟨l₂, h₂, hshort, hlong⟩ := @ih l₁ w (fun i => f (i + 1)) (n - 1)
      (acc ++ if (f 0).fault = none then fragmentServices Y (w.fs.read (envoyConfDir ++ [file])) else [])
      (hl.of_procs h₁ rfl)
    refine ⟨l₂, h₁.trans h₂, fun hn => ?_, fun hn => ?_⟩
    · cases n with
      | zero =>
        rw [Prog.take]
        rfl
      | succ n =>
        rw [hstep]
        exact hshort (Nat.le_of_succ_le_succ hn)
    · obtain ⟨n, rfl⟩ : ∃ m, n = m + 1 := ⟨n - 1, by omega⟩
      rw [hstep, gathered, ← List.append_assoc, List.length_cons, Nat.add_sub_add_right]
      refine (hlong (Nat.lt_of_succ_lt_succ hn)).trans ?_
      simp only [Nat.add_sub_cancel, Nat.add_assoc, Nat.add_comm files.length 1]

end Reads

section Rendering

/-- The end of a call: the configuration is emptied and filled, and Envoy is started. -/
def fill (text : String) : Go Unit :=
  .call (.fs (.create envoyConfig)) fun created =>
    if !created then .halt
    else .call (.fs (.write envoyConfig text)) fun written =>
      if !written then .halt else startEnvoy >>= fun _ => .ret ()

/-- What follows the loop over the fragments. -/
def render (services : List EnvoyService) : Go Unit :=
  .call (.fs .getwd) fun
    | none => .halt
    | some pwd => .call (.fs (.parseFiles (templatePath pwd))) fun parsed =>
      if !parsed then .halt else fill (envoyTmpl services)

def relist (Y : Yaml) : Go Unit :=
  .call (.fs (.glob envoyConfDir ".yaml")) fun files => readFragments Y files [] >>= render

def rewrite (Y : Yaml) (c : ServiceEnvoyConfig) : Go Unit :=
  .call (.fs (.writeFile (serviceConfPath c.upstreamName) (Y.marshalConfig c))) fun written =>
    if !written then .halt else relist Y

theorem updateLbConfig_eq : updateLbConfig Y c = .call (.fs (.mkdirAll envoyConfDir)) fun made =>
    if !made then .halt else rewrite Y c := by
  unfold updateLbConfig
  simp only [mkdirAll, writeFile, glob, call_bind, ret_bind]
  rfl

/-- The yaml files are what they were, apart from the configuration. -/
structure Refilled (s : String) (t t' : Tree) : Prop where
  config : t'.content envoyConfig = some s
  others : ∀ q, YamlFile q → q ≠ envoyConfig → t'.content q = t.content q

theorem Refilled.rendering_eq {s : String} (h : Refilled s t t') : rendering Y t' = rendering Y t := by
  have hsame : fragments Y t' = fragments Y t :=
    fragments_congr fun q hq => h.others q hq.yamlFile hq.ne_config
  rw [rendering, rendering, hsame]

theorem Refilled.trans {s s' : String} {t₁ : Tree} (h : Refilled s t t₁) (h' : Refilled s' t₁ t') :
    Refilled s' t t' :=
  ⟨h'.config, fun q hy hq => (h'.others q hy hq).trans (h.others q hy hq)⟩

theorem Refilled.kept {s : String} {t₁ : Tree} (h : Refilled s t t₁) (hk : YamlKept t₁ t') : Refilled s t t' :=
  ⟨(hk.content _ yamlFile_config).trans h.config,
    fun q hy hq => (hk.content q hy).trans (h.others q hy hq)⟩

theorem meets_getwd {c : Choice} {cwd : Path} :
    FsOp.getwd.meets c cwd t = (if c.fault = none then some cwd else none, t) := by
  unfold FsOp.meets
  cases hc : c.fault with
  | none => rfl
  | some n => cases n <;> rfl

theorem meets_parseFiles {c : Choice} {cwd p : Path} :
    (FsOp.parseFiles p).meets c cwd t = (decide (c.fault = none) && (t.read p).isOk, t) := by
  unfold FsOp.meets
  cases hc : c.fault with
  | none => rfl
  | some n => cases n <;> rfl

theorem meets_create {c : Choice} {cwd : Path} {old : String} (h : t.content envoyConfig = some old) :
    ((FsOp.create envoyConfig).meets c cwd t).1 = decide (c.fault = none) ∧
      Refilled (if c.fault = some 0 then old else "") t ((FsOp.create envoyConfig).meets c cwd t).2 := by
  obtain ⟨t₁, hu, hc₁⟩ := Tree.update_of_content (fun _ => "") h
  have hstore : (FsOp.create envoyConfig).perform c cwd t = (true, t₁) := by
    simp only [FsOp.perform, FsOp.store, hu]
  have hempty : Refilled "" t t₁ := ⟨(hc₁ _).trans (if_pos rfl), fun q _ hq => (hc₁ q).trans (if_neg hq)⟩
  unfold FsOp.meets
  cases hc : c.fault with
  | none => rw [hstore]; exact ⟨rfl, hempty⟩
  | some n =>
    cases n with
    | zero => exact ⟨rfl, h, fun _ _ _ => rfl⟩
    | succ n =>
      refine ⟨rfl, ?_⟩
      rw [if_neg (by simp)]
      change Refilled "" t ((FsOp.create envoyConfig).perform c cwd t).2
      rw [hstore]
      exact hempty

theorem meets_write {c : Choice} {cwd : Path} {text : String} (h : t.content envoyConfig = some "") :
    ((FsOp.write envoyConfig text).meets c cwd t).1 = decide (c.fault = none) ∧
      Refilled (through c.fault text) t ((FsOp.write envoyConfig text).meets c cwd t).2 := by
  have hfull : ∀ data, Refilled data t ((FsOp.write envoyConfig data).perform c cwd t).2 ∧
      ((FsOp.write envoyConfig data).perform c cwd t).1 = true := by
    intro data
    obtain ⟨t₁, hu, hc₁⟩ := Tree.update_of_content (fun old => overlay data (old.getD "")) h
    simp only [FsOp.perform, Tree.read_of_content h, FsOp.store, hu]
    refine ⟨⟨?_, fun q _ hq => (hc₁ q).trans (if_neg hq)⟩, trivial⟩
    rw [hc₁, if_pos rfl, Option.getD_some, overlay_empty]
  unfold FsOp.meets
  cases hc : c.fault with
  | none => exact ⟨(hfull text).2, (hfull text).1⟩
  | some n =>
    cases n with
    | zero =>
      rw [through_zero]
      exact ⟨rfl, h, fun _ _ _ => rfl⟩
    | succ n => exact ⟨rfl, (hfull (cutAt n text)).1⟩

/-- The configuration has been emptied: the template was there, and `Create` did it. -/
def Opened (t : Tree) (cwd : Path) (f : Nat → Choice) (n : Nat) : Prop :=
  3 ≤ n ∧ (f 0).fault = none ∧ (f 1).fault = none ∧ (t.read (templatePath cwd)).isOk ∧ (f 2).fault ≠ some 0

/-- What the emptied configuration is filled with. -/
def filling (f : Nat → Choice) (n : Nat) (text : String) : String :=
  if 4 ≤ n ∧ (f 2).fault = none then through (f 3).fault text else ""

instance (t : Tree) (cwd : Path) (f : Nat → Choice) (n : Nat) : Decidable (Opened t cwd f n) :=
  inferInstanceAs (Decidable (_ ∧ _ ∧ _ ∧ _ ∧ _))

/-- `StartEnvoy` behind a write that has been answered, stopped somewhere. -/
theorem stopped_start {s : String} {ok : Bool} (h : Refilled s t w.fs) :
    Refilled s t (World.fs ((Host Y G).exec f l w (Prog.take n
      (if !ok then (.halt : Go Unit) else startEnvoy >>= fun _ => .ret ()))).world) := by
  have hk : (Host Y G).always (fun _ => True) (fun w' => YamlKept w.fs w'.fs) l w
      (if !ok then (.halt : Go Unit) else startEnvoy >>= fun _ => .ret ()) := by
    cases ok with
    | false => exact .refl _
    | true => exact System.always_bind (always_startEnvoy h.config) fun _ _ _ h' => h'
  exact h.kept (System.always_stopped hk n fun _ => trivial)

theorem stopped_fill {old text : String} (hl : Running l w) (h : w.fs.content envoyConfig = some old) :
    Refilled (if 1 ≤ n ∧ (f 0).fault ≠ some 0 then
        (if 2 ≤ n ∧ (f 0).fault = none then through (f 1).fault text else "") else old) w.fs
      (World.fs ((Host Y G).exec f l w (Prog.take n (fill text))).world) := by
  cases n with
  | zero =>
    rw [if_neg (by omega), Prog.take]
    exact ⟨h, fun _ _ _ => rfl⟩
  | succ n =>
    obtain ⟨l₁, h₁, hstep⟩ := @exec_take Y G Unit l w f (.create envoyConfig) _ (fill text) rfl hl
    obtain ⟨hr, hfs⟩ := @meets_create w.fs (f 0) w.cwd old h
    rw [hstep n]
    simp only [hr]
    generalize ((FsOp.create envoyConfig).meets (f 0) w.cwd w.fs).2 = t₁ at hfs ⊢
    cases hf : (f 0).fault with
    | some k =>
      simp only [reduceCtorEq, decide_false, Bool.not_false, if_true, take_halt]
      simp only [hf] at hfs
      by_cases hk : k = 0
      · subst hk
        exact hfs
      · rw [if_pos ⟨by omega, by simpa using hk⟩, if_neg (by simp)]
        rwa [if_neg (by simpa using hk)] at hfs
    | none =>
      simp only [decide_true, Bool.not_true, Bool.false_eq_true, if_false]
      simp only [hf, reduceCtorEq, if_false] at hfs
      rw [if_pos ⟨by omega, by simp⟩]
      cases n with
      | zero =>
        rw [if_neg (by omega), Prog.take]
        exact hfs
      | succ n =>
        obtain ⟨l₂, h₂, hstep₂⟩ := @exec_take Y G Unit l₁ { w with fs := t₁ } (fun i => f (i + 1))
          (.write envoyConfig text) _ _ rfl (hl.of_procs h₁ rfl)
        obtain ⟨-, hfs₂⟩ := @meets_write t₁ (f 1) w.cwd text hfs.config
        rw [hstep₂ n, if_pos ⟨by omega, trivial⟩]
        exact stopped_start (hfs.trans hfs₂)

/-- What follows the loop, stopped somewhere. -/
theorem stopped_render {old : String} {services : List EnvoyService} (hl : Running l w)
    (h : w.fs.content envoyConfig = some old) :
    Refilled (if Opened w.fs w.cwd f n then filling f n (envoyTmpl services) else old) w.fs
      (World.fs ((Host Y G).exec f l w (Prog.take n (render services))).world) := by
  have hold : Refilled old w.fs w.fs := ⟨h, fun _ _ _ => rfl⟩
  cases n with
  | zero =>
    rw [if_neg (by simp [Opened]), Prog.take]
    exact hold
  | succ n =>
    obtain ⟨l₁, h₁, hstep₁⟩ := @exec_take Y G Unit l w f .getwd _ (render services) rfl hl
    rw [hstep₁ n]
    simp only [meets_getwd]
    by_cases hf₀ : (f 0).fault = none
    · rw [if_pos hf₀]
      cases n with
      | zero =>
        rw [if_neg (by simp [Opened]), Prog.take]
        exact hold
      | succ n =>
        obtain ⟨l₂, h₂, hstep₂⟩ := @exec_take Y G Unit l₁ w (fun i => f (i + 1))
          (.parseFiles (templatePath w.cwd)) _ _ rfl (hl.of_procs h₁ rfl)
        have hf := @stopped_fill Y G l₂ w (fun i => f (i + 1 + 1)) n old (envoyTmpl services)
          ((hl.of_procs h₁ rfl).of_procs h₂ rfl) h
        refine (congrArg (fun x => Refilled _ w.fs (World.fs x.world)) (hstep₂ n)).mpr ?_
        simp only [meets_parseFiles]
        by_cases hf₁ : (f 1).fault = none ∧ (w.fs.read (templatePath w.cwd)).isOk
        · have hopen : Opened w.fs w.cwd f (n + 1 + 1) ↔ 1 ≤ n ∧ (f 2).fault ≠ some 0 := by
            unfold Opened
            constructor
            · intro ho
              exact ⟨by omega, ho.2.2.2.2⟩
            · intro ho
              exact ⟨by omega, hf₀, hf₁.1, hf₁.2, ho.2⟩
          have hfill : filling f (n + 1 + 1) (envoyTmpl services) =
              if 2 ≤ n ∧ (f 2).fault = none then through (f 3).fault (envoyTmpl services) else "" := by
            unfold filling
            congr 2
            exact propext ⟨by omega, by omega⟩
          simp only [hopen, hfill, hf₁.1, hf₁.2, decide_true, Bool.and_self, Bool.not_true, Bool.false_eq_true,
            if_false]
          exact hf
        · have hno : ¬ Opened w.fs w.cwd f (n + 1 + 1) := fun ho => hf₁ ⟨ho.2.2.1, ho.2.2.2.1⟩
          have hfail : (decide ((f 1).fault = none) && (w.fs.read (templatePath w.cwd)).isOk) = false := by
            rw [Bool.eq_false_iff]
            intro hok
            rw [Bool.and_eq_true, decide_eq_true_iff] at hok
            exact hf₁ hok
          rw [if_neg hno]
          simp only [hfail, Bool.not_false, if_true, take_halt]
          exact hold
    · rw [if_neg hf₀, if_neg fun ho => hf₀ ho.2.1, take_halt]
      exact hold

end Rendering

section Call

/-- The files behind the write of the fragment, if anything was written. -/
def fragmentLeft (Y : Yaml) (c : ServiceEnvoyConfig) (f : Nat → Choice) (n : Nat) (t : Tree) : Option Tree :=
  if 2 ≤ n ∧ (f 0).fault = none ∧ (f 1).fault ≠ some 0 then
    (t.mkdirs [] envoyConfDir).bind fun t₁ =>
      t₁.update (serviceConfPath c.upstreamName) fun _ => through (f 1).fault (Y.marshalConfig c)
  else none

/-- The fragments that are listed. -/
def listed (f : Nat → Choice) (t : Tree) : List String :=
  if (f 2).fault = none then t.glob envoyConfDir ".yaml" else []

/-- What is decided behind the first `k` operations. -/
def later (f : Nat → Choice) (k : Nat) : Nat → Choice := fun i => f (i + k)

theorem meets_mkdirAll {c : Choice} {cwd p : Path} :
    (∀ q, ((FsOp.mkdirAll p).meets c cwd t).2.content q = t.content q) ∧
      (((FsOp.mkdirAll p).meets c cwd t).1 = true → c.fault = none ∧
        t.mkdirs [] p = some ((FsOp.mkdirAll p).meets c cwd t).2) ∧
      (c.fault = none → ∀ t₁, t.mkdirs [] p = some t₁ → ((FsOp.mkdirAll p).meets c cwd t).1 = true) := by
  have hkept : ∀ q, ((FsOp.mkdirAll p).perform c cwd t).2.content q = t.content q := by
    intro q
    simp only [FsOp.perform]
    cases hm : t.mkdirs [] p with
    | none => rfl
    | some t₁ => exact (Tree.mkdirs_spec hm).1 q
  unfold FsOp.meets
  cases hc : c.fault with
  | none =>
    refine ⟨hkept, fun hr => ⟨rfl, ?_⟩, fun _ t₁ hm => ?_⟩
    · simp only [FsOp.perform] at hr ⊢
      cases hm : t.mkdirs [] p with
      | none => rw [hm] at hr; cases hr
      | some t₁ => rfl
    · simp only [FsOp.perform, hm]
  | some n =>
    cases n with
    | zero =>
      refine ⟨fun _ => rfl, ?_, by simp⟩
      intro hr
      cases hr
    | succ n =>
      refine ⟨hkept, ?_, by simp⟩
      intro hr
      cases hr

theorem meets_writeFile {c : Choice} {cwd p : Path} {data : String} :
    (FsOp.writeFile p data).meets c cwd t =
      match (if c.fault = some 0 then none else t.update p fun _ => through c.fault data) with
      | none => (false, t)
      | some t' => (decide (c.fault = none), t') := by
  unfold FsOp.meets
  cases hc : c.fault with
  | none =>
    cases hu : t.update p fun _ => data with
    | none => simp only [FsOp.perform, FsOp.store, through, reduceCtorEq, if_false, hu]
    | some t' => simp only [FsOp.perform, FsOp.store, through, reduceCtorEq, if_false, decide_true, hu]
  | some n =>
    cases n with
    | zero => rfl
    | succ n =>
      simp only [FsOp.begun, FsOp.perform, FsOp.store, through, reduceCtorEq, if_false, decide_false,
        Option.some.injEq, Nat.add_one_ne_zero, Nat.add_sub_cancel]
      cases t.update p fun _ => cutAt n data <;> rfl

theorem meets_glob {c : Choice} {cwd : Path} :
    (FsOp.glob envoyConfDir ".yaml").meets c cwd t =
      (if c.fault = none then t.glob envoyConfDir ".yaml" else [], t) := by
  unfold FsOp.meets
  cases hc : c.fault with
  | none => rfl
  | some n => cases n <;> rfl

/-- What is left of the configuration behind `k` operations and the loop. -/
def remains (Y : Yaml) (f : Nat → Choice) (n : Nat) (t : Tree) (cwd : Path) (old : String) : String :=
  if Opened t cwd (later f ((listed f t).length + 3)) (n - ((listed f t).length + 3)) then
    filling (later f ((listed f t).length + 3)) (n - ((listed f t).length + 3))
      (envoyTmpl (gathered Y t (later f 3) (listed f t)))
  else old

theorem stopped_relist {old : String} (hl : Running l w) (h : w.fs.content envoyConfig = some old) :
    Refilled (remains Y f (n + 2) w.fs w.cwd old) w.fs
      (World.fs ((Host Y G).exec (later f 2) l w (Prog.take n (relist Y))).world) := by
  have hold : Refilled old w.fs w.fs := ⟨h, fun _ _ _ => rfl⟩
  have hfew : n ≤ (listed f w.fs).length + 1 → remains Y f (n + 2) w.fs w.cwd old = old :=
    fun hn => if_neg fun ho => absurd ho.1 (by omega)
  cases n with
  | zero =>
    rw [hfew (by omega), Prog.take]
    exact hold
  | succ n =>
    obtain ⟨l₁, h₁, hstep⟩ := @exec_take Y G Unit l w (later f 2) (.glob envoyConfDir ".yaml") _ (relist Y) rfl hl
    rw [hstep n]
    simp only [meets_glob]
    change Refilled _ w.fs (World.fs ((Host Y G).exec (later f 3) l₁ w
      (Prog.take n (readFragments Y (listed f w.fs) [] >>= render))).world)
    obtain ⟨l₂, h₂, hshort, hlong⟩ := @stopped_reads Y G Unit l₁ w (later f 3) n (listed f w.fs) [] render
      (hl.of_procs h₁ rfl)
    by_cases hn : n ≤ (listed f w.fs).length
    · rw [hfew (by omega), hshort hn]
      exact hold
    · have hsub : n + 1 + 2 - ((listed f w.fs).length + 3) = n - (listed f w.fs).length := by omega
      rw [hlong (by omega), List.nil_append, remains, hsub]
      exact @stopped_render Y G l₂ w (later f ((listed f w.fs).length + 3)) (n - (listed f w.fs).length) old
        (gathered Y w.fs (later f 3) (listed f w.fs)) ((hl.of_procs h₁ rfl).of_procs h₂ rfl) h

theorem fragmentLeft_of_few (hn : n < 2) : fragmentLeft Y c f n t = none := by
  rw [fragmentLeft, if_neg (by omega)]

theorem stopped_rewrite {old : String} {t₁ : Tree} (hl : Running l w) (h : w.fs.content envoyConfig = some old)
    (hf : (f 0).fault = none) (hm : t₁.mkdirs [] envoyConfDir = some w.fs) :
    (fragmentLeft Y c f (n + 1) t₁ = none →
      (World.fs ((Host Y G).exec (later f 1) l w (Prog.take n (rewrite Y c))).world) = w.fs) ∧
    ∀ t₂, fragmentLeft Y c f (n + 1) t₁ = some t₂ → ∃ s, t₂.content envoyConfig = some s ∧
      Refilled (if (f 1).fault = none then remains Y f (n + 1) t₂ w.cwd s else s) t₂
        (World.fs ((Host Y G).exec (later f 1) l w (Prog.take n (rewrite Y c))).world) := by
  cases n with
  | zero =>
    rw [fragmentLeft_of_few (by omega), Prog.take]
    exact ⟨fun _ => rfl, by simp⟩
  | succ n =>
    obtain ⟨l₁, h₁, hstep⟩ := @exec_take Y G Unit l w (later f 1)
      (.writeFile (serviceConfPath c.upstreamName) (Y.marshalConfig c)) _ (rewrite Y c) rfl hl
    have hleft : fragmentLeft Y c f (n + 1 + 1) t₁ = if (f 1).fault = some 0 then none
        else w.fs.update (serviceConfPath c.upstreamName) fun _ => through (f 1).fault (Y.marshalConfig c) := by
      unfold fragmentLeft
      rw [hm, Option.bind_some]
      by_cases h₀ : (f 1).fault = some 0
      · rw [if_pos h₀, if_neg fun hx => hx.2.2 h₀]
      · rw [if_neg h₀, if_pos ⟨by omega, hf, h₀⟩]
    rw [hstep n, hleft]
    have hmeets := @meets_writeFile w.fs (f 1) w.cwd (serviceConfPath c.upstreamName) (Y.marshalConfig c)
    have hnext : later f 1 0 = f 1 := rfl
    rw [hnext, hmeets]
    cases hu : (if (f 1).fault = some 0 then none
        else w.fs.update (serviceConfPath c.upstreamName) fun _ => through (f 1).fault (Y.marshalConfig c)) with
    | none =>
      simp only [Bool.not_false, if_true, take_halt]
      exact ⟨fun _ => rfl, by simp⟩
    | some t₂ =>
      refine ⟨by simp, fun t₃ he => ?_⟩
      obtain rfl := Option.some.inj he
      have hup := hu
      rw [if_neg (by intro hx; rw [if_pos hx] at hu; cases hu)] at hup
      obtain ⟨s, hs⟩ : ∃ s, t₂.content envoyConfig = some s := by
        rw [content_update (proper_serviceConfPath c.upstreamName) hup]
        split
        · exact ⟨_, rfl⟩
        · exact ⟨old, h⟩
      refine ⟨s, hs, ?_⟩
      by_cases h₁ : (f 1).fault = none
      · simp only [h₁, decide_true, Bool.not_true, Bool.false_eq_true, if_false, if_true]
        exact @stopped_relist Y G l₁ { w with fs := t₂ } f n s (hl.of_procs ‹l.Same l₁› rfl) hs
      · simp only [h₁, decide_false, Bool.not_false, if_true, if_false, take_halt]
        exact ⟨hs, fun _ _ _ => rfl⟩

/-- A call that is stopped somewhere. -/
theorem stopped_call {old : String} (hl : Running l w) (h : w.fs.content envoyConfig = some old) :
    (fragmentLeft Y c f n w.fs = none → ∀ q, (World.fs ((Host Y G).exec f l w
      (Prog.take n (updateLbConfig Y c))).world).content q = w.fs.content q) ∧
    ∀ t₂, fragmentLeft Y c f n w.fs = some t₂ → ∃ s, t₂.content envoyConfig = some s ∧
      Refilled (if (f 1).fault = none then remains Y f n t₂ w.cwd s else s) t₂
        (World.fs ((Host Y G).exec f l w (Prog.take n (updateLbConfig Y c))).world) := by
  cases n with
  | zero =>
    rw [fragmentLeft_of_few (by omega), Prog.take]
    exact ⟨fun _ _ => rfl, by simp⟩
  | succ n =>
    obtain ⟨l₁, h₁, hstep⟩ := @exec_take Y G Unit l w f (.mkdirAll envoyConfDir) _ _ updateLbConfig_eq hl
    obtain ⟨hkept, hmade, hmakes⟩ := @meets_mkdirAll w.fs (f 0) w.cwd envoyConfDir
    rw [hstep n]
    generalize (FsOp.mkdirAll envoyConfDir).meets (f 0) w.cwd w.fs = x at hkept hmade hmakes ⊢
    obtain ⟨made, t₁⟩ := x
    cases made with
    | false =>
      have hnone : fragmentLeft Y c f (n + 1) w.fs = none := by
        unfold fragmentLeft
        split
        · rename_i hf
          cases hm : w.fs.mkdirs [] envoyConfDir with
          | none => rfl
          | some t₁ => exact absurd (hmakes hf.2.1 t₁ hm) (by simp)
        · rfl
      rw [hnone]
      simp only [Bool.not_false, if_true, take_halt]
      exact ⟨fun _ => hkept, by simp⟩
    | true =>
      obtain ⟨hf₀, hm⟩ := hmade rfl
      have hr := @stopped_rewrite Y G c l₁ { w with fs := t₁ } f n old w.fs (hl.of_procs h₁ rfl)
        ((hkept _).trans h) hf₀ hm
      exact ⟨fun hn q => (congrArg (Tree.content · q) (hr.1 hn)).trans (hkept q), hr.2⟩

/-- The configuration has been emptied: everything before had been done, and `Create` did it. -/
def Emptied (f : Nat → Choice) (n : Nat) (t : Tree) (cwd : Path) : Prop :=
  (f 1).fault = none ∧ Opened t cwd (later f ((listed f t).length + 3)) (n - ((listed f t).length + 3))

/-- It has been filled again: what was gathered has gone through, and it is all there is. -/
def Completed (Y : Yaml) (f : Nat → Choice) (n : Nat) (t : Tree) : Prop :=
  (listed f t).length + 6 < n ∧ (f ((listed f t).length + 5)).fault = none ∧
    through (f ((listed f t).length + 6)).fault
      (envoyTmpl (gathered Y t (later f 3) (listed f t))) = rendering Y t

instance (f : Nat → Choice) (n : Nat) (t : Tree) (cwd : Path) : Decidable (Emptied f n t cwd) :=
  inferInstanceAs (Decidable (_ ∧ _))

instance (f : Nat → Choice) (n : Nat) (t : Tree) : Decidable (Completed Y f n t) :=
  inferInstanceAs (Decidable (_ ∧ _ ∧ _))

theorem rendering_ne_empty (t : Tree) : rendering Y t ≠ "" := by
  obtain ⟨a, ha⟩ : ∃ a : String, rendering Y t = a ++ "\n" := ⟨_, rfl⟩
  intro h
  rw [ha] at h
  have hlist := congrArg String.toList h
  rw [String.toList_append] at hlist
  exact absurd (List.append_eq_nil_iff.mp hlist).2 (by decide)

theorem filling_eq_iff :
    filling (later f ((listed f t).length + 3)) (n - ((listed f t).length + 3))
      (envoyTmpl (gathered Y t (later f 3) (listed f t))) = rendering Y t ↔ Completed Y f n t := by
  unfold filling Completed later
  rw [show 2 + ((listed f t).length + 3) = (listed f t).length + 5 from by omega,
    show 3 + ((listed f t).length + 3) = (listed f t).length + 6 from by omega]
  split
  · rename_i h
    exact ⟨fun he => ⟨by omega, h.2, he⟩, fun he => he.2.2⟩
  · rename_i h
    exact ⟨fun he => absurd he.symm (rendering_ne_empty t), fun he => absurd ⟨by omega, he.2.1⟩ h⟩

/-- Where a call stops, whatever has failed before, the configuration is the complete
rendering of the fragments exactly if nothing of the fragment was written, or what was
written makes no difference and the configuration was not emptied, or it was completed. -/
theorem crash_consistent_iff (hl : Running l w) (hc : Consistent Y w.fs) :
    Consistent Y (World.fs ((Host Y G).exec f l w (Prog.take n (updateLbConfig Y c))).world) ↔
      ∀ t₂, fragmentLeft Y c f n w.fs = some t₂ →
        (Emptied f n t₂ w.cwd → Completed Y f n t₂) ∧ (¬ Emptied f n t₂ w.cwd → Consistent Y t₂) := by
  obtain ⟨hnone, hsome⟩ := @stopped_call Y G c l w f n _ hl hc
  cases hleft : fragmentLeft Y c f n w.fs with
  | none =>
    have hsame := hnone hleft
    have hr : Consistent Y (World.fs ((Host Y G).exec f l w (Prog.take n (updateLbConfig Y c))).world) := by
      unfold Consistent rendering
      rw [hsame, fragments_congr fun q _ => hsame q]
      exact hc
    exact ⟨fun _ => nofun, fun _ => hr⟩
  | some t₂ =>
    obtain ⟨s, hs, hr⟩ := hsome t₂ hleft
    have hiff : Consistent Y (World.fs ((Host Y G).exec f l w (Prog.take n (updateLbConfig Y c))).world) ↔
        (Emptied f n t₂ w.cwd → Completed Y f n t₂) ∧ (¬ Emptied f n t₂ w.cwd → Consistent Y t₂) := by
      unfold Consistent
      rw [hr.config, hr.rendering_eq, Option.some.injEq, hs, Option.some.injEq]
      by_cases he : Emptied f n t₂ w.cwd
      · rw [if_pos he.1, remains, if_pos he.2, filling_eq_iff]
        exact ⟨fun h => ⟨fun _ => h, fun hne => absurd he hne⟩, fun h => h.1 he⟩
      · have hold : (if (f 1).fault = none then remains Y f n t₂ w.cwd s else s) = s := by
          split
          · exact if_neg fun ho => he ⟨‹_›, ho⟩
          · rfl
        rw [hold]
        exact ⟨fun h => ⟨fun hx => absurd hx he, fun _ => h⟩, fun h => h.2 he⟩
    rw [hiff]
    exact ⟨fun h t₃ he => Option.some.inj he ▸ h, fun h => h t₂ rfl⟩

end Call

section Sample

theorem consistent_of_update {t : Tree} (hr : (updateOn t c).result = some ()) :
    Consistent Sample.yaml (World.fs (updateOn t c).world) :=
  (@rewritten_of_exec Sample.yaml lowestFree c Sample.caller (wiredOn t) plainly (caller_running t)
    (fun _ => rfl) hr).text

/-- The files behind a first call. -/
@[irreducible] def opened : Tree := World.fs (updateOn Sample.tree Sample.shop.service.lbConfig).world

theorem opened_consistent : Consistent Sample.yaml opened := by
  unfold opened
  exact consistent_of_update (by decide +kernel)

/-- A call that is stopped behind `n` operations. -/
def stoppedOn (t : Tree) (c : ServiceEnvoyConfig) (n : Nat) : Tree :=
  World.fs ((Host Sample.yaml lowestFree).exec plainly Sample.caller (wiredOn t)
    (Prog.take n (updateLbConfig Sample.yaml c))).world

/-- Behind its hundredth operation it has completed the configuration. -/
theorem completed_consistent : Consistent Sample.yaml (stoppedOn opened Sample.blog.service.lbConfig 100) := by
  have hdone : (fragmentLeft Sample.yaml Sample.blog.service.lbConfig plainly 100 opened).all
      (fun t₂ => decide (Emptied plainly 100 t₂ ["opt", "ppass"] ∧ Completed Sample.yaml plainly 100 t₂)) = true := by
    decide +kernel
  refine (@crash_consistent_iff Sample.yaml lowestFree Sample.blog.service.lbConfig Sample.caller
    (wiredOn opened) plainly 100 (caller_running opened) opened_consistent).mpr fun t₂ ht₂ => ?_
  rw [show (wiredOn opened).fs = opened from rfl] at ht₂
  rw [ht₂, Option.all_some, decide_eq_true_iff] at hdone
  exact ⟨fun _ => hdone.2, fun hne => absurd hdone.1 hne⟩

/-- Behind the write of its fragment it leaves one that the configuration does not list. -/
theorem halfway_inconsistent : ¬ ∀ (t : Tree) (c : ServiceEnvoyConfig) (n : Nat), Consistent Sample.yaml t →
    Consistent Sample.yaml (stoppedOn t c n) := by
  intro h
  have hc := h opened Sample.blog.service.lbConfig 2 opened_consistent
  have hno : (stoppedOn opened Sample.blog.service.lbConfig 2).content envoyConfig ≠
      some (rendering Sample.yaml (stoppedOn opened Sample.blog.service.lbConfig 2)) := by
    decide +kernel
  exact hno hc

end Sample
end PrivatePaas
