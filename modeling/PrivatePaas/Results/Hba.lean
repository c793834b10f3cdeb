import PrivatePaas.Host.Content
import PrivatePaas.Registry.Creation
import PrivatePaas.Registry.Fragments
import PrivatePaas.Results.Sample

/-!
# pg_hba.conf

`execPostgreSQL` looks for `0.0.0.0/0` anywhere in the text, while PostgreSQL reads
whole lines without their comments. What was written once is never written again.
-/

namespace PrivatePaas
set_option autoImplicit false
open Files Text Effects Go Network Prog PrivatePaas.Parser PrivatePaas.Parser.Database

variable {Y : Yaml} {G : GoIpam} {l : Local} {w : World} {d : Database} {text : String}

namespace Hba

section Rules

/-- The words of a line in front of its comment. -/
def ruleWords (line : List Char) : List String :=
  (((line.takeWhile (· ≠ '#')).splitOnP isSpace).filter (· ≠ [])).map String.ofList

/-- A column of names separated by commas that has `all` among them. -/
def hasAll (column : String) : Bool := "all" ∈ split ',' column

/-- What stands behind the users: every IPv4 address, and a method that does not refuse. -/
def fromEverywhere : List String → Bool
  | "0.0.0.0/0" :: method :: _ => method ≠ "reject"
  | "all" :: method :: _ => method ≠ "reject"
  | "0.0.0.0" :: "0.0.0.0" :: method :: _ => method ≠ "reject"
  | _ => false

/-- A host rule that admits all databases and users from everywhere. -/
def admits (line : List Char) : Bool :=
  match ruleWords line with
  | "host" :: database :: user :: rest => hasAll database && hasAll user && fromEverywhere rest
  | _ => false

/-- There is such a rule in the file. -/
def Admitting (text : String) : Prop := ∃ line ∈ text.toList.splitOn '\n', admits line = true

instance (text : String) : Decidable (Admitting text) :=
  inferInstanceAs (Decidable (∃ line ∈ text.toList.splitOn '\n', admits line = true))

/-- The text is taken for one that has a rule for the bridge subnet. -/
def Mentions (text : String) : Prop := "0.0.0.0/0".toList <:+: text.toList

instance (text : String) : Decidable (Mentions text) :=
  inferInstanceAs (Decidable ("0.0.0.0/0".toList <:+: text.toList))

/-- The file behind the call. -/
def admitted (text : String) : String := if Mentions text then text else text ++ hbaRule

theorem mentions_admitted (text : String) : Mentions (admitted text) := by
  unfold admitted
  split
  · assumption
  · have hrule : "0.0.0.0/0".toList <:+: hbaRule.toList := by decide
    rw [Mentions, String.toList_append]
    exact hrule.trans (List.suffix_append _ _).isInfix

/-- A second call finds what the first one has left. -/
theorem admitted_admitted (text : String) : admitted (admitted text) = admitted text :=
  if_pos (mentions_admitted text)

theorem prefix_admitted (text : String) : text.toList <+: (admitted text).toList := by
  unfold admitted
  split
  · exact List.prefix_rfl
  · rw [String.toList_append]
    exact List.prefix_append _ _

/-- The rule that is appended stands on a line of its own, whatever the text ends with. -/
theorem admitting_append (text : String) : Admitting (text ++ hbaRule) := by
  have hrule : hbaRule.toList = '\n' :: "host all all 0.0.0.0/0 trust\n".toList := by decide
  have hline : "host all all 0.0.0.0/0 trust".toList ∈
      "host all all 0.0.0.0/0 trust\n".toList.splitOn '\n' := by decide
  refine ⟨"host all all 0.0.0.0/0 trust".toList, ?_, by decide⟩
  rw [String.toList_append, hrule, List.splitOn_append_cons_self]
  exact List.mem_append_right _ hline

theorem admitting_admitted_iff (text : String) :
    Admitting (admitted text) ↔ ¬ Mentions text ∨ Admitting text := by
  unfold admitted
  by_cases hm : Mentions text
  · rw [if_pos hm]
    simp [hm]
  · rw [if_neg hm]
    exact iff_of_true (admitting_append text) (.inl hm)

end Rules

section Files
variable {dir : Path} {t v : Option String}

def hbaPath (dir : Path) : Path := clean (dir ++ ["pg_hba.conf"])
def versionPath (dir : Path) : Path := clean (dir ++ ["PG_VERSION"])

theorem named_hba (dir : Path) : Named (hbaPath dir) "pg_hba.conf" := by
  rw [hbaPath, clean_concat _ (by decide)]
  exact .concat (by decide)

theorem named_version (dir : Path) : Named (versionPath dir) "PG_VERSION" := by
  rw [versionPath, clean_concat _ (by decide)]
  exact .concat (by decide)

theorem version_ne_hba (dir : Path) : versionPath dir ≠ hbaPath dir := by
  intro he
  exact absurd ((named_version dir).unique (he ▸ named_hba dir)) (by decide)

/-- A data directory that has been initialised, with this text in its `pg_hba.conf`. -/
structure Cluster (dir : Path) (text : String) (f : Tree) : Prop where
  hba : f.content (hbaPath dir) = some text
  version : ∃ v, f.content (versionPath dir) = some v

/-- A data directory that `initdb` has not seen. -/
structure Vacant (dir : Path) (f : Tree) : Prop where
  hba : f.content (hbaPath dir) = none
  version : f.content (versionPath dir) = none

/-- What stands in the two files, and the process that makes the call. -/
structure Serves (dir : Path) (t v : Option String) (l : Local) (w : World) : Prop where
  hba : w.fs.content (hbaPath dir) = t
  version : w.fs.content (versionPath dir) = v
  running : Running l w

/-- An operation that leaves both files alone and sends no signal. -/
def Aloof : Op → Prop
  | .fs (.remove _) => False
  | .fs o => ∀ p, o.Writes p → ∃ n, Named p n ∧ n ≠ "pg_hba.conf" ∧ n ≠ "PG_VERSION"
  | .proc (.kill _ _) => False
  | _ => True

theorem content_of_aloof {f : Tree} {c : Choice} {cwd : Path} {o : FsOp} (ho : Aloof (.fs o)) :
    (o.perform c cwd f).2.content (hbaPath dir) = f.content (hbaPath dir) ∧
      (o.perform c cwd f).2.content (versionPath dir) = f.content (versionPath dir) := by
  have keep : ∀ {q : Path} {m : String}, Named q m → m = "pg_hba.conf" ∨ m = "PG_VERSION" →
      (o.perform c cwd f).2.content q = f.content q := by
    intro q m hq hm
    have hw : (∀ p, o.Writes p → ∃ n, Named p n ∧ m ≠ n) ∧ ∀ p, o ≠ .remove p := by
      constructor
      · intro p hp
        obtain ⟨n, hn, h₁, h₂⟩ : ∃ n, Named p n ∧ n ≠ "pg_hba.conf" ∧ n ≠ "PG_VERSION" := by
          cases o with
          | remove p => exact absurd ho id
          | _ => exact ho p hp
        refine ⟨n, hn, ?_⟩
        rcases hm with rfl | rfl
        · exact h₁.symm
        · exact h₂.symm
      · intro p hp
        rw [hp] at ho
        exact ho
    rcases FsOp.perform_content o hq hw.1 with hc | ⟨p, hp, _⟩
    · exact hc
    · exact absurd hp (hw.2 p)
  exact ⟨keep (named_hba dir) (.inl rfl), keep (named_version dir) (.inr rfl)⟩

theorem Serves.aloof {c : Choice} {o : Op} (h : Serves dir t v l w) (hc : Smooth c) (ho : Aloof o) :
    Serves dir t v (perform Y G c l w o).2.1 (perform Y G c l w o).2.2 := by
  obtain ⟨_, hw⟩ := @perform_smooth Y G l w c hc o
  have hfs : (act G c l w o).2.2.fs.content (hbaPath dir) = w.fs.content (hbaPath dir) ∧
      (act G c l w o).2.2.fs.content (versionPath dir) = w.fs.content (versionPath dir) := by
    cases o with
    | fs o => exact content_of_aloof ho
    | ipam st o => cases st <;> exact ⟨rfl, rfl⟩
    | proc o =>
      cases o with
      | start cmd =>
        change (w.start l c cmd).2.fs.content _ = _ ∧ (w.start l c cmd).2.fs.content _ = _
        cases hs : (w.start l c cmd).1 with
        | none =>
          rw [start_none hs]
          exact ⟨rfl, rfl⟩
        | some pid =>
          obtain ⟨hf, _, hw⟩ := start_some hs
          rw [hw]
          exact ⟨rfl, rfl⟩
      | kill n s => exact absurd ho id
      | _ => exact ⟨rfl, rfl⟩
    | _ => exact ⟨rfl, rfl⟩
  refine ⟨?_, ?_, running_perform h.running fun n he => ?_⟩
  · rw [hw]
    exact hfs.1.trans h.hba
  · rw [hw]
    exact hfs.2.trans h.version
  · rw [he] at ho
    exact ho

variable {C : Choice → Prop} (hC : ∀ c, C c → Smooth c)
include hC

theorem wp_aloof_call {α : Type} {o : Op} {k : o.Ret → Go α} {Q : Option α → Local → World → Prop}
    (ho : Aloof o) (h : Serves dir t v l w)
    (hk : ∀ r l' w', Serves dir t v l' w' → (Host Y G).wp C Q l' w' (k r)) :
    (Host Y G).wp C Q l w (.call o k) :=
  wp_alive h.running fun c hc => hk _ _ _ (h.aloof (hC c hc) ho)

/-- What leaves both files alone can stand in front. -/
theorem wp_aloof_bind {α β : Type} {p : Go α} {f : α → Go β} {Q : Option β → Local → World → Prop}
    (hp : p.Only Aloof) (h : Serves dir t v l w)
    (hf : ∀ a l' w', Serves dir t v l' w' → (Host Y G).wp C Q l' w' (f a))
    (hn : ∀ l' w', Serves dir t v l' w' → Q none l' w') : (Host Y G).wp C Q l w (p >>= f) := by
  have haloof := System.wp_of_only (Y := Host Y G) (C := C)
    (I := fun l' w' => Serves dir t v l' w') (fun c _ _ _ hc ho hI _ => Serves.aloof hI (hC c hc) ho) hp h
  refine System.wp_bind (System.wp_mono (fun r l' w' hs => ?_) haloof)
  cases r with
  | none => exact hn l' w' hs
  | some a => exact hf a l' w' hs

end Files

section Calls
variable {dir : Path} {t v : Option String}

theorem aloof_waitNetns (pid n : Nat) : Only Aloof (waitNetns pid n) := by
  induction n with
  | zero => trivial
  | succ n ih => exact ⟨trivial, fun _ => only_ite.mpr ⟨fun _ => trivial, fun _ => ih⟩⟩

theorem aloof_firstExisting (name : String) (cs : List Path) : Only Aloof (firstExisting name cs) := by
  induction cs with
  | nil => trivial
  | cons c cs ih =>
    refine ⟨fun _ hp => absurd hp id, fun r => ?_⟩
    cases r with
    | ok _ => trivial
    | error _ => exact ih

theorem aloof_findBin (name : String) : Only Aloof (findBin name) := by
  refine ⟨trivial, fun r => ?_⟩
  cases r with
  | some _ => trivial
  | none => exact aloof_firstExisting name _

/-- The search for a program comes to an end. -/
theorem wp_findBin {C : Choice → Prop} (hC : ∀ c, C c → Smooth c) (h : Serves dir t v l w) (name : String) :
    (Host Y G).wp C (fun r l' w' => r ≠ none ∧ Serves dir t v l' w') l w (findBin name) := by
  have search : ∀ cs l w, Serves dir t v l w →
      (Host Y G).wp C (fun r l' w' => r ≠ none ∧ Serves dir t v l' w') l w (firstExisting name cs) := by
    intro cs
    induction cs with
    | nil => exact fun _ _ hs => ⟨nofun, hs⟩
    | cons c cs ih =>
      intro l w hs
      refine wp_aloof_call hC (fun _ hp => absurd hp id) hs fun r l₁ w₁ h₁ => ?_
      cases r with
      | ok _ => exact ⟨nofun, h₁⟩
      | error _ => exact ih l₁ w₁ h₁
  refine wp_aloof_call hC trivial h fun r l₁ w₁ h₁ => ?_
  cases r with
  | some _ => exact ⟨nofun, h₁⟩
  | none => exact search candidates l₁ w₁ h₁

/-- The log file has a name of its own. -/
theorem aloof_openAppend (name : String) : Aloof (.fs (.openAppend (logPath name))) := by
  intro p hp
  obtain rfl : p = logPath name := hp
  obtain ⟨d, n, hsplit⟩ := split_append (c := '/') name ".log" (by decide)
  have hend := suffix_append n ".log"
  have ne : ∀ m : String, ¬ ".log".toList <:+ m.toList → n ++ ".log" ≠ m := by
    intro m hm he
    rw [he] at hend
    exact hm hend
  refine ⟨n ++ ".log", ⟨⟨ne _ (by decide), ne _ (by decide), ne _ (by decide)⟩, ["var", "log"] ++ d, ?_⟩,
    ne _ (by decide), ne _ (by decide)⟩
  rw [logPath, hsplit, List.append_assoc]

theorem aloof_cg (d : Database) (pid : Nat) : Only Aloof (d.cg pid) := by
  have limit : ∀ n value, Proper n → n ≠ "pg_hba.conf" → n ≠ "PG_VERSION" →
      Aloof (.fs (.writeFile (cgroup d.name ++ [n]) value)) := by
    intro n value hn h₁ h₂ p hp
    obtain rfl : p = cgroup d.name ++ [n] := hp
    exact ⟨n, .concat hn, h₁, h₂⟩
  refine ⟨fun _ hp => absurd hp id, fun _ => only_ite.mpr ⟨fun _ => trivial, fun _ => ?_⟩⟩
  refine ⟨limit _ _ (by decide) (by decide) (by decide), fun _ => ?_⟩
  refine ⟨limit _ _ (by decide) (by decide) (by decide), fun _ => ?_⟩
  refine ⟨limit _ _ (by decide) (by decide) (by decide), fun _ => ?_⟩
  exact only_ite.mpr ⟨fun _ => trivial, fun _ => trivial⟩

/-- The directory is not initialised a second time. -/
theorem wp_initDataDir {u : String} (h : Serves dir t (some u) l w) :
    (Host Y G).wp Smooth (fun r l' w' => r = some () ∧ Serves dir t (some u) l' w') l w (initDataDir dir) := by
  have hstat : w.fs.stat (versionPath dir) = .ok () := by
    rw [Tree.stat, Tree.walk_of_mem (Tree.mem_of_content h.version)]
    exact if_pos (.inr (Tree.mem_of_content h.version))
  refine wp_fs h.running fun c l₁ past₁ _ h₁ => ?_
  simp only [FsOp.perform]
  rw [show w.fs.stat (clean (dir ++ ["PG_VERSION"])) = .ok () from hstat]
  exact ⟨rfl, h.hba, h.version, h.running.of_procs h₁ rfl⟩

/-- `initdb` writes this text. -/
def Writing (text : String) (c : Choice) : Prop := Smooth c ∧ c.text = text

theorem Writing.smooth (c : Choice) (h : Writing text c) : Smooth c := h.1

/-- Where `initdb` makes its files at all, both are there. -/
theorem clusterFiles_cases {c : Choice} {f : Tree} (h : Vacant dir f) (bin : String) (cwd : Path) :
    Vacant dir (FsOp.perform c cwd f (.initdb bin dir)).2 ∨
      Cluster dir c.text (FsOp.perform c cwd f (.initdb bin dir)).2 := by
  simp only [FsOp.perform]
  cases hf : FsOp.clusterFiles c f dir with
  | none => exact .inl h
  | some f₂ =>
    right
    obtain ⟨f₁, hv, hh⟩ := Option.bind_eq_some_iff.mp hf
    obtain ⟨q, hq, _, _, hversion, _⟩ := Tree.update_spec hv
    obtain rfl : q = versionPath dir := Tree.eq_of_walk (proper_clean _) hq
    obtain ⟨q, hq, _, _, hhba, _⟩ := Tree.update_spec hh
    obtain rfl : q = hbaPath dir := Tree.eq_of_walk (proper_clean _) hq
    refine ⟨(hhba _).trans (if_pos rfl), "14\n", ?_⟩
    exact ((hhba _).trans (if_neg (version_ne_hba dir))).trans ((hversion _).trans (if_pos rfl))

/-- The first call finds what `initdb` has written, or no file. -/
theorem wp_initDataDir_vacant (h : Serves dir none none l w) :
    (Host Y G).wp (Writing text) (fun r l' w' => r = some () ∧ ∃ t v,
      (t = none ∨ t = some text ∧ v.isSome) ∧ Serves dir t v l' w') l w (initDataDir dir) := by
  refine wp_aloof_call Writing.smooth (fun _ hp => absurd hp id) h fun r l₁ w₁ h₁ => ?_
  simp only [bind_eq, ret_bind]
  split
  · refine wp_aloof_call Writing.smooth (fun _ hp => absurd hp id) h₁ fun _ l₂ w₂ h₂ => ?_
    simp only [bind_eq, ret_bind]
    refine System.wp_bind (System.wp_mono (fun r l₃ w₃ h₃ => ?_) (wp_findBin Writing.smooth h₂ "initdb"))
    obtain ⟨hr, h₃⟩ := h₃
    cases r with
    | none => exact absurd rfl hr
    | some bin =>
      refine wp_alive h₃.running fun c hc => ?_
      obtain ⟨_, hw⟩ := @perform_smooth Y G l₃ w₃ c hc.1 (.fs (.initdb bin dir))
      have hfs : (perform Y G c l₃ w₃ (.fs (.initdb bin dir))).2.2.fs =
          (FsOp.perform c w₃.cwd w₃.fs (.initdb bin dir)).2 := by rw [hw]; rfl
      refine ⟨rfl, _, _, ?_, rfl, rfl, running_perform h₃.running nofun⟩
      rw [hfs]
      rcases clusterFiles_cases ⟨h₃.hba, h₃.version⟩ bin w₃.cwd (c := c) with hn | hm
      · exact .inl hn.hba
      · obtain ⟨u, hu⟩ := hm.version
        rw [hc.2] at hm
        exact .inr ⟨hm.hba, by rw [hu]; rfl⟩
  · exact ⟨rfl, none, none, .inl rfl, h₁⟩

/-- The rule is appended where the text does not mention the subnet. -/
theorem wp_allowBridge (h : Serves dir t v l w) :
    (Host Y G).wp Smooth (fun r l' w' => r = some () ∧ Serves dir (t.map admitted) v l' w') l w
      (allowBridge dir) := by
  refine wp_fs h.running fun c l₁ past₁ _ h₁ => ?_
  have hrun : Running l₁ { w with past := past₁ } := h.running.of_procs h₁ rfl
  simp only [FsOp.perform]
  cases t with
  | none =>
    have hread : ∃ e, w.fs.read (clean (dir ++ ["pg_hba.conf"])) = .error e := by
      cases hr : w.fs.read (clean (dir ++ ["pg_hba.conf"])) with
      | error e => exact ⟨e, rfl⟩
      | ok data =>
        have hc := Tree.content_of_read (proper_clean _) hr
        rw [show w.fs.content (clean (dir ++ ["pg_hba.conf"])) = none from h.hba] at hc
        cases hc
    obtain ⟨e, he⟩ := hread
    rw [he]
    exact ⟨rfl, h.hba, h.version, hrun⟩
  | some text =>
    have hread : w.fs.read (hbaPath dir) = .ok text := Tree.read_of_content h.hba
    rw [show w.fs.read (clean (dir ++ ["pg_hba.conf"])) = .ok text from hread]
    simp only [bind_eq, ret_bind, Option.map_some]
    by_cases hm : "0.0.0.0/0".toList <:+: text.toList
    · have ha : admitted text = text := if_pos hm
      rw [if_pos hm, ha]
      exact ⟨rfl, h.hba, h.version, hrun⟩
    · have ha : admitted text = text ++ hbaRule := if_neg hm
      rw [if_neg hm, ha]
      refine wp_fs hrun fun c l₂ past₂ _ h₂ => ?_
      obtain ⟨f, hf, hcontent⟩ := Tree.update_of_content (fun old => old.getD "" ++ hbaRule) h.hba
      have hstore : (FsOp.perform c w.cwd w.fs (.append (hbaPath dir) hbaRule)).2 = f := by
        simp only [FsOp.perform, FsOp.store, hf]
      refine ⟨rfl, ?_, ?_, hrun.of_procs h₂ rfl⟩
      · change (FsOp.perform c w.cwd w.fs (.append (hbaPath dir) hbaRule)).2.content _ = _
        rw [hstore]
        exact (hcontent _).trans (if_pos rfl)
      · change (FsOp.perform c w.cwd w.fs (.append (hbaPath dir) hbaRule)).2.content _ = _
        rw [hstore]
        exact ((hcontent _).trans (if_neg (version_ne_hba dir))).trans h.version

/-- The two files when a call is over, whether it returned or not, from what `initDataDir` leaves. -/
theorem wp_execPostgreSQL {C : Choice → Prop} (hC : ∀ c, C c → Smooth c) (d : Database)
    {P : Option String → Option String → Prop} (h : Serves (dataDir d.name) t v l w)
    (hinit : ∀ l w, Serves (dataDir d.name) t v l w → (Host Y G).wp C (fun r l' w' => r = some () ∧
      ∃ t v, P t v ∧ Serves (dataDir d.name) t v l' w') l w (initDataDir (dataDir d.name))) :
    (Host Y G).wp C (fun _ _ w' => ∃ t, P t (w'.fs.content (versionPath (dataDir d.name))) ∧
      w'.fs.content (hbaPath (dataDir d.name)) = t.map admitted) l w d.execPostgreSQL := by
  refine wp_aloof_call hC trivial h fun _ l₁ w₁ h₁ => ?_
  refine wp_aloof_call hC (fun _ hp => absurd hp id) h₁ fun _ l₂ w₂ h₂ => ?_
  simp only [bind_eq, ret_bind]
  refine System.wp_bind (System.wp_mono (fun r l₃ w₃ h₃ => ?_) (hinit l₂ w₂ h₂))
  obtain ⟨rfl, t₃, v₃, hP, h₃⟩ := h₃
  have done : ∀ l' w', Serves (dataDir d.name) (t₃.map admitted) v₃ l' w' →
      ∃ t, P t (w'.fs.content (versionPath (dataDir d.name))) ∧
        w'.fs.content (hbaPath (dataDir d.name)) = t.map admitted := by
    intro l' w' hs
    exact ⟨t₃, by rwa [hs.version], hs.hba⟩
  refine System.wp_bind (System.wp_mono (fun r l₄ w₄ h₄ => ?_) (System.wp_choices hC (wp_allowBridge h₃)))
  obtain ⟨rfl, h₄⟩ := h₄
  refine wp_aloof_bind hC (aloof_findBin _) h₄ (fun bin l₅ w₅ h₅ => ?_) done
  refine wp_aloof_call hC (aloof_openAppend d.name) h₅ fun opened l₆ w₆ h₆ => ?_
  simp only [bind_eq, ret_bind]
  split
  · exact done _ _ h₆
  refine wp_aloof_call hC trivial h₆ fun pid l₇ w₇ h₇ => ?_
  simp only [bind_eq, ret_bind]
  cases pid with
  | none => exact done _ _ h₇
  | some pid =>
    refine wp_aloof_bind hC (aloof_waitNetns pid 20) h₇ (fun ready l₈ w₈ h₈ => ?_) done
    split
    · exact done _ _ h₈
    · exact wp_aloof_bind hC (aloof_cg d pid) h₈ (fun _ _ _ h₉ => done _ _ h₉) done

end Calls

section Result

/-- What `n` calls on the same data directory leave in the files, each made by a process
of its own in a world where nothing has touched them since. -/
inductive Calls (Y : Yaml) (G : GoIpam) (dir : Path) : Nat → Tree → Tree → Prop where
  | none (f : Tree) : Calls Y G dir 0 f f
  | call {n : Nat} {f : Tree} {d : Database} {l : Local} {w : World} {c : Nat → Choice}
      (before : Calls Y G dir n f w.fs) (dir_eq : dataDir d.name = dir) (running : Running l w)
      (smooth : ∀ k, Smooth (c k)) :
      Calls Y G dir (n + 1) f ((Host Y G).exec c l w d.execPostgreSQL).world.fs

variable {dir : Path} {n : Nat} {f f' : Tree} {t : String}

theorem Calls.cluster (h : Calls Y G dir n f f') (ht : Cluster dir t f) :
    Cluster dir t f' ∧ n = 0 ∨ Cluster dir (admitted t) f' ∧ 0 < n := by
  induction h with
  | none f => exact .inl ⟨ht, rfl⟩
  | @call n f d l w c before dir_eq running smooth ih =>
    subst dir_eq
    have hcall : ∀ u, Cluster (dataDir d.name) u w.fs →
        Cluster (dataDir d.name) (admitted u) ((Host Y G).exec c l w d.execPostgreSQL).world.fs := by
      intro u hu
      obtain ⟨v, hv⟩ := hu.version
      obtain ⟨_, ⟨rfl, hversion⟩, hhba⟩ := (System.wp_iff_exec (Y := Host Y G) (C := Smooth) ({} : Choice) rfl).mp
        (wp_execPostgreSQL (P := fun t' v' => t' = some u ∧ v' = some v) (fun _ hc => hc) d ⟨hu.hba, hv, running⟩
          fun l w h => System.wp_mono (fun _ _ _ hs => ⟨hs.1, _, _, ⟨rfl, rfl⟩, hs.2⟩) (wp_initDataDir h)) c smooth
      exact ⟨hhba, v, hversion⟩
    right
    refine ⟨?_, Nat.succ_pos n⟩
    rcases ih ht with ⟨hc, _⟩ | ⟨hc, _⟩
    · exact hcall t hc
    · have ha := hcall _ hc
      rwa [admitted_admitted] at ha

/-- Calls behind the first one change nothing. -/
theorem Calls.content (h : Calls Y G dir n f f') (ht : Cluster dir (admitted t) f) :
    f'.content (hbaPath dir) = some (admitted t) := by
  rcases h.cluster ht with ⟨hc, _⟩ | ⟨hc, _⟩
  · exact hc.hba
  · rw [admitted_admitted] at hc
    exact hc.hba

/-- After one call or more the old text is still in front and no call changes anything any
more; the subnet is admitted exactly if the old text did not mention it or admitted it. -/
theorem hba_admits_iff (h : Calls Y G dir (n + 1) f f') (ht : Cluster dir t f) :
    ∃ t', f'.content (hbaPath dir) = some t' ∧ t.toList <+: t'.toList ∧
      (∀ m f'', Calls Y G dir m f' f'' → f''.content (hbaPath dir) = some t') ∧
      (Admitting t' ↔ ¬ Mentions t ∨ Admitting t) := by
  have hc : Cluster dir (admitted t) f' := by
    rcases h.cluster ht with ⟨_, h0⟩ | ⟨hc, _⟩
    · cases h0
    · exact hc
  exact ⟨admitted t, hc.hba, prefix_admitted t, fun m f'' hm => hm.content hc, admitting_admitted_iff t⟩

/-- A first call that runs `initdb` comes to a call on what `initdb` has written, if that is there. -/
theorem first_admits_iff {c : Nat → Choice} (running : Running l w) (hw : Vacant (dataDir d.name) w.fs)
    (hc : ∀ k, Writing text (c k)) (hf : ((Host Y G).exec c l w d.execPostgreSQL).world.fs = f) {t' : String}
    (ht' : f.content (hbaPath (dataDir d.name)) = some t') :
    text.toList <+: t'.toList ∧ (∀ m f', Calls Y G (dataDir d.name) m f f' →
      f'.content (hbaPath (dataDir d.name)) = some t') ∧ (Admitting t' ↔ ¬ Mentions text ∨ Admitting text) := by
  obtain ⟨t, ht, hhba⟩ := (System.wp_iff_exec (Y := Host Y G) (C := Writing text) ({ text := text } : Choice)
    ⟨rfl, rfl⟩).mp (wp_execPostgreSQL Writing.smooth d ⟨hw.hba, hw.version, running⟩ fun _ _ h =>
      wp_initDataDir_vacant h) c hc
  rw [hf] at ht hhba
  rcases ht with rfl | ⟨rfl, hv⟩
  · rw [ht'] at hhba
    cases hhba
  · obtain ⟨v, hv⟩ := Option.isSome_iff_exists.mp hv
    obtain rfl : t' = admitted text := Option.some.inj (ht'.symm.trans hhba)
    exact ⟨prefix_admitted text, fun m f' h => h.content ⟨hhba, v, hv⟩, admitting_admitted_iff text⟩

/-- A host with a data directory for `users` and this `pg_hba.conf` in it. -/
def served (text : String) : World :=
  { Sample.wired with
    fs := Tree.ofFiles [(hbaPath (dataDir "users"), text), (versionPath (dataDir "users"), "14\n")] }

/-- A call from the sample process. -/
theorem served_call (text : String) : Calls Sample.yaml lowestFree (dataDir "users") 1 (served text).fs
    ((Host Sample.yaml lowestFree).exec (fun _ => ({} : Choice)) Sample.caller (served text)
      (execPostgreSQL { name := "users", technology := postgreSQL })).world.fs :=
  .call (.none _) rfl ⟨⟨5, 5, .cli, 1, "", false⟩, List.mem_cons_self, rfl⟩ fun _ => rfl

def samples : String := "# IPv4 local connections:\nhost all all 127.0.0.1/32 trust\n"

theorem samples_admitted : ∃ f f' : Tree, ∃ t', Calls Sample.yaml lowestFree (dataDir "users") 1 f f' ∧
    f'.content (hbaPath (dataDir "users")) = some t' ∧ Admitting t' := by
  have ht : Cluster (dataDir "users") samples (served samples).fs := by
    exact ⟨by decide +kernel, "14\n", by decide +kernel⟩
  obtain ⟨t', hc, _, _, ha⟩ := hba_admits_iff (served_call samples) ht
  exact ⟨_, _, t', served_call samples, hc, ha.mpr (.inl (by decide +kernel))⟩

/-- A first call, behind `initdb`. -/
example : ((Host Sample.yaml lowestFree).exec (fun _ => ({ text := samples } : Choice)) Sample.caller
    { Sample.wired with fs := Tree.ofFiles [] }
    (execPostgreSQL { name := "users", technology := postgreSQL })).world.fs.content (hbaPath (dataDir "users")) =
    some (samples ++ hbaRule) := by decide +kernel

/-- A comment that mentions the subnet keeps the rule out for ever. -/
theorem commented_refused : ∃ f f' : Tree, ∃ t', Cluster (dataDir "users") "# not yet: 0.0.0.0/0\n" f ∧
    Calls Sample.yaml lowestFree (dataDir "users") 1 f f' ∧
    f'.content (hbaPath (dataDir "users")) = some t' ∧ ¬ Admitting t' := by
  have ht : Cluster (dataDir "users") "# not yet: 0.0.0.0/0\n" (served "# not yet: 0.0.0.0/0\n").fs := by
    exact ⟨by decide +kernel, "14\n", by decide +kernel⟩
  have hcall := served_call "# not yet: 0.0.0.0/0\n"
  refine ⟨_, _, _, ht, hcall, ?_, (by decide +kernel : ¬ Admitting "# not yet: 0.0.0.0/0\n")⟩
  rcases hcall.cluster ht with ⟨_, h0⟩ | ⟨hc, _⟩
  · cases h0
  · have ha : admitted "# not yet: 0.0.0.0/0\n" = "# not yet: 0.0.0.0/0\n" := by decide +kernel
    rw [ha] at hc
    exact hc.hba

end Result

end Hba
end PrivatePaas
