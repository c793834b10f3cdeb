import Mathlib.Data.List.AList
import Mathlib.Data.List.Induction
import Mathlib.Data.List.Sort
import Mathlib.Data.String.Basic
import Mathlib.Tactic.Common

/-!
# A file tree and the kernel's way through it

A tree maps resolved paths to directories and files. It carries its own
well-formedness: every parent is a directory and no stored name is empty, `.` or
`..`. Paths that are handed in may contain all of these; `walk` resolves them one
component at a time, as the kernel does, with no symbolic links.
-/

namespace Files
set_option autoImplicit false

/-- The components of an absolute path, outermost first. -/
abbrev Path := List String

inductive Node where
  | dir
  | file (data : String)
deriving DecidableEq, Repr

def Node.text : Node → Option String
  | .dir => none
  | .file s => some s

inductive Err where
  | notExist
  | other
deriving DecidableEq, Repr

abbrev Nodes := AList fun _ : Path => Node

/-- A name that a directory entry can have. -/
def Proper (c : String) : Prop := c ≠ "" ∧ c ≠ "." ∧ c ≠ ".."

instance (c : String) : Decidable (Proper c) := inferInstanceAs (Decidable (_ ∧ _))

def IsDir (ns : Nodes) (p : Path) : Prop := p = [] ∨ ns.lookup p = some .dir

instance (ns : Nodes) (p : Path) : Decidable (IsDir ns p) := inferInstanceAs (Decidable (_ ∨ _))

/-- A place where an entry can stand: proper names below an existing directory. -/
structure Fits (ns : Nodes) (q : Path) : Prop where
  ne_nil : q ≠ []
  proper : ∀ c ∈ q, Proper c
  parent : IsDir ns q.dropLast

instance (ns : Nodes) (q : Path) : Decidable (Fits ns q) :=
  decidable_of_iff (q ≠ [] ∧ (∀ c ∈ q, Proper c) ∧ IsDir ns q.dropLast)
    ⟨fun h => ⟨h.1, h.2.1, h.2.2⟩, fun h => ⟨h.ne_nil, h.proper, h.parent⟩⟩

structure Tree where
  nodes : Nodes
  fits : ∀ q ∈ nodes, Fits nodes q

namespace Tree

/-- The text of the file that stands exactly at `q`. -/
def content (t : Tree) (q : Path) : Option String := (t.nodes.lookup q).bind Node.text

abbrev isDir (t : Tree) (q : Path) : Prop := IsDir t.nodes q

theorem content_eq_some {t : Tree} {q : Path} {s : String} :
    t.content q = some s ↔ t.nodes.lookup q = some (.file s) := by
  unfold content
  cases t.nodes.lookup q with
  | none => simp
  | some n => cases n <;> simp [Node.text]

theorem not_isDir_of_content {t : Tree} {q : Path} {s : String} (h : t.content q = some s) :
    ¬ t.isDir q := by
  have hl := content_eq_some.mp h
  rintro (rfl | hd)
  · exact (t.fits [] (AList.lookup_isSome.mp (by rw [hl]; rfl))).ne_nil rfl
  · rw [hl] at hd
    cases hd

/-- Put a node where there is none, or a file over a file. -/
def put (t : Tree) (q : Path) (n : Node) (hf : Fits t.nodes q) (hd : ¬ t.isDir q) : Tree where
  nodes := t.nodes.insert q n
  fits := by
    have keep : ∀ p, IsDir t.nodes p → IsDir (t.nodes.insert q n) p := by
      rintro p (rfl | hp)
      · exact .inl rfl
      · have hpq : p ≠ q := by
          rintro rfl
          exact hd (.inr hp)
        exact .inr (by rw [AList.lookup_insert_ne hpq, hp])
    intro p hp
    rcases (AList.mem_insert _).mp hp with rfl | hp
    · exact ⟨hf.ne_nil, hf.proper, keep _ hf.parent⟩
    · have h := t.fits p hp
      exact ⟨h.ne_nil, h.proper, keep _ h.parent⟩

/-- Nothing stands below `q`. -/
def Childless (t : Tree) (q : Path) : Prop := ∀ p ∈ t.nodes.keys, p.dropLast ≠ q

instance (t : Tree) (q : Path) : Decidable (t.Childless q) :=
  inferInstanceAs (Decidable (∀ p ∈ t.nodes.keys, _))

def drop (t : Tree) (q : Path) (h : t.Childless q) : Tree where
  nodes := t.nodes.erase q
  fits := by
    intro p hp
    obtain ⟨_, hp⟩ := AList.mem_erase.mp hp
    have hf := t.fits p hp
    refine ⟨hf.ne_nil, hf.proper, ?_⟩
    rcases hf.parent with hn | hd
    · exact .inl hn
    · exact .inr (by rw [AList.lookup_erase_ne (h p (AList.mem_keys.mp hp)), hd])

/-- Resolve the components `cs` from the resolved place `cur`. -/
def walk (t : Tree) (cur : Path) : List String → Except Err Path
  | [] => .ok cur
  | c :: cs =>
    if t.isDir cur then
      if c = "" ∨ c = "." then walk t cur cs
      else if c = ".." then walk t cur.dropLast cs
      else walk t (cur ++ [c]) cs
    else if cur ∈ t.nodes then .error .other
    else .error .notExist

/-- `os.ReadFile` -/
def read (t : Tree) (p : Path) : Except Err String :=
  match t.walk [] p with
  | .error e => .error e
  | .ok q =>
    match t.content q with
    | some s => .ok s
    | none => if t.isDir q then .error .other else .error .notExist

/-- `os.Stat` -/
def stat (t : Tree) (p : Path) : Except Err Unit :=
  match t.walk [] p with
  | .error e => .error e
  | .ok q => if t.isDir q ∨ q ∈ t.nodes then .ok () else .error .notExist

/-- The file at `p` gets the text `f old`, where `old` is its text so far. -/
def update (t : Tree) (p : Path) (f : Option String → String) : Option Tree :=
  match t.walk [] p with
  | .error _ => none
  | .ok q =>
    if h : Fits t.nodes q ∧ ¬ t.isDir q then some (t.put q (.file (f (t.content q))) h.1 h.2)
    else none

/-- `os.Remove`: a file or an empty directory. -/
def remove (t : Tree) (p : Path) : Option Tree :=
  match t.walk [] p with
  | .error _ => none
  | .ok q => if h : q ∈ t.nodes ∧ t.Childless q then some (t.drop q h.2) else none

/-- `os.MkdirAll` from the directory `cur`. -/
def mkdirs (t : Tree) (cur : Path) : List String → Option Tree
  | [] => some t
  | c :: cs =>
    if c = "" ∨ c = "." then mkdirs t cur cs
    else if c = ".." then mkdirs t cur.dropLast cs
    else if t.isDir (cur ++ [c]) then mkdirs t (cur ++ [c]) cs
    else if h : Fits t.nodes (cur ++ [c]) ∧ ¬ t.isDir (cur ++ [c]) ∧ cur ++ [c] ∉ t.nodes then
      mkdirs (t.put (cur ++ [c]) .dir h.1 h.2.1) (cur ++ [c]) cs
    else none

/-- The names directly in `d`. -/
def names (t : Tree) (d : Path) : List String :=
  t.nodes.keys.filterMap fun p => if p.dropLast = d then p.getLast? else none

/-- The names in `d` that end with `suffix`, sorted, as `filepath.Glob` gives them. -/
def glob (t : Tree) (d : Path) (suffix : String) : List String :=
  match t.walk [] d with
  | .error _ => []
  | .ok q =>
    if t.isDir q then
      ((t.names q).filter fun n => suffix.toList <:+ n.toList).insertionSort (· ≤ ·)
    else []

/-- The tree of the files in a list, and of the directories above them. -/
def ofFiles : List (Path × String) → Tree
  | [] => ⟨∅, by simp⟩
  | (p, s) :: fs =>
    (((ofFiles fs).mkdirs [] p.dropLast).bind fun t => t.update p fun _ => s).getD (ofFiles fs)

section Frame
variable {t t' : Tree} {p q cur : Path} {s : String}

theorem lookup_put (n : Node) (hf : Fits t.nodes q) (hd : ¬ t.isDir q) (p : Path) :
    (t.put q n hf hd).nodes.lookup p = if p = q then some n else t.nodes.lookup p := by
  split
  · subst p
    exact AList.lookup_insert _
  · exact AList.lookup_insert_ne ‹_›

theorem content_put (n : Node) (hf : Fits t.nodes q) (hd : ¬ t.isDir q) (p : Path) :
    (t.put q n hf hd).content p = if p = q then n.text else t.content p := by
  unfold content
  rw [lookup_put]
  split <;> rfl

theorem isDir_put_file (hf : Fits t.nodes q) (hd : ¬ t.isDir q) :
    (t.put q (.file s) hf hd).isDir p ↔ t.isDir p := by
  unfold isDir IsDir
  rw [lookup_put]
  split
  · subst p
    simp only [Option.some.injEq, reduceCtorEq, or_false]
    exact ⟨.inl, fun h => absurd h hd⟩
  · rfl

theorem isDir_put_dir (hf : Fits t.nodes q) (hd : ¬ t.isDir q) (h : t.isDir p) :
    (t.put q .dir hf hd).isDir p := by
  rcases h with h | h
  · exact .inl h
  · right
    rw [lookup_put]
    split <;> simp_all

theorem content_drop (h : t.Childless q) (p : Path) :
    (t.drop q h).content p = if p = q then none else t.content p := by
  by_cases hp : p = q
  · subst p
    simp [content, drop]
  · simp [content, drop, hp, AList.lookup_erase_ne hp]

/-- What a successful update does: one file changes, no directory does. -/
theorem update_spec {f : Option String → String} (h : t.update p f = some t') :
    ∃ q, t.walk [] p = .ok q ∧ Fits t.nodes q ∧ ¬ t.isDir q ∧
      (∀ q', t'.content q' = if q' = q then some (f (t.content q)) else t.content q') ∧
      ∀ q', t'.isDir q' ↔ t.isDir q' := by
  unfold update at h
  cases hw : t.walk [] p with
  | error e => simp [hw] at h
  | ok q =>
    simp only [hw] at h
    split at h
    · rename_i hq
      obtain rfl := Option.some.inj h
      exact ⟨q, rfl, hq.1, hq.2, fun q' => content_put _ hq.1 hq.2 q',
        fun q' => isDir_put_file hq.1 hq.2⟩
    · cases h

/-- What a successful removal does: one entry goes. -/
theorem remove_spec (h : t.remove p = some t') :
    ∃ q, t.walk [] p = .ok q ∧
      ∀ q', t'.content q' = if q' = q then none else t.content q' := by
  unfold remove at h
  cases hw : t.walk [] p with
  | error e => simp [hw] at h
  | ok q =>
    simp only [hw] at h
    split at h
    · rename_i hq
      obtain rfl := Option.some.inj h
      exact ⟨q, rfl, fun q' => content_drop hq.2 q'⟩
    · cases h

/-- `os.MkdirAll` adds directories and nothing else. -/
theorem mkdirs_spec {cs : List String} (h : t.mkdirs cur cs = some t') :
    (∀ q, t'.content q = t.content q) ∧ ∀ q, t.isDir q → t'.isDir q := by
  induction cs generalizing t cur with
  | nil =>
    obtain rfl := Option.some.inj h
    exact ⟨fun _ => rfl, fun _ hq => hq⟩
  | cons c cs ih =>
    unfold mkdirs at h
    split at h
    · exact ih h
    split at h
    · exact ih h
    split at h
    · exact ih h
    split at h
    · rename_i hq
      obtain ⟨hc, hd⟩ := ih h
      refine ⟨fun q => ?_, fun q hd' => hd q (isDir_put_dir hq.1 hq.2.1 hd')⟩
      rw [hc, content_put]
      split
      · subst q
        have hn : t.nodes.lookup (cur ++ [c]) = none := AList.lookup_eq_none.mpr hq.2.2
        simp [content, hn, Node.text]
      · rfl
    · cases h

end Frame

section Grown
variable {t t' t'' : Tree} {S S' : Path → Prop} {p q : Path}

/-- Directories have been added, at places in `S`. -/
def Grown (S : Path → Prop) (t t' : Tree) : Prop :=
  ∀ q, t'.nodes.lookup q = t.nodes.lookup q ∨
    S q ∧ t.nodes.lookup q = none ∧ t'.nodes.lookup q = some .dir

theorem Grown.refl (S : Path → Prop) (t : Tree) : Grown S t t := fun _ => .inl rfl

theorem Grown.trans (h : Grown S t t') (h' : Grown S t' t'') : Grown S t t'' := by
  intro q
  rcases h q with he | ⟨hS, hn, hd⟩
  · rcases h' q with he' | ⟨hS', hn', hd'⟩
    · exact .inl (he'.trans he)
    · exact .inr ⟨hS', he ▸ hn', hd'⟩
  · rcases h' q with he' | ⟨_, hn', _⟩
    · exact .inr ⟨hS, hn, he'.trans hd⟩
    · rw [hd] at hn'
      cases hn'

/-- Where nothing stands, a directory can only have been added at a place of its own. -/
theorem Grown.mono (h : Grown S t t') (hS : ∀ q, S q → t.nodes.lookup q = none → S' q) : Grown S' t t' := by
  intro q
  rcases h q with he | ⟨hq, hn, hd⟩
  · exact .inl he
  · exact .inr ⟨hS q hq hn, hn, hd⟩

theorem Grown.isDir (h : Grown S t t') (hq : t.isDir q) : t'.isDir q := by
  rcases hq with hq | hq
  · exact .inl hq
  · rcases h q with he | ⟨_, hn, _⟩
    · exact .inr (he.trans hq)
    · rw [hq] at hn
      cases hn

theorem Grown.isDir_iff (h : Grown S t t') (hS : ∀ q, S q → t'.isDir q) : t'.isDir q ↔ t.isDir q ∨ S q := by
  constructor
  · intro hq
    rcases hq with hq | hq
    · exact .inl (.inl hq)
    · rcases h q with he | ⟨hS, _⟩
      · exact .inl (.inr (he ▸ hq))
      · exact .inr hS
  · intro hq
    rcases hq with hq | hq
    · exact h.isDir hq
    · exact hS q hq

theorem isDir_of_not_childless (h : ¬ t.Childless q) : t.isDir q := by
  unfold Childless at h
  push Not at h
  obtain ⟨p, hp, rfl⟩ := h
  exact (t.fits p (AList.mem_keys.mp hp)).parent

theorem childless_iff : t.Childless q ↔ ∀ p, p.dropLast = q → t.nodes.lookup p = none := by
  constructor
  · intro h p hp
    refine AList.lookup_eq_none.mpr fun hm => h p (AList.mem_keys.mp hm) hp
  · intro h p hp hq
    have hm : p ∈ t.nodes := AList.mem_keys.mpr hp
    exact AList.lookup_eq_none.mp (h p hq) hm

/-- Where nothing has been added directly below. -/
theorem Grown.childless_iff (h : Grown S t t') (hS : ∀ p, S p → p.dropLast ≠ q) : t'.Childless q ↔ t.Childless q := by
  have same : ∀ p, p.dropLast = q → t'.nodes.lookup p = t.nodes.lookup p := by
    intro p hp
    rcases h p with he | ⟨hq, _⟩
    · exact he
    · exact absurd hp (hS p hq)
  rw [Tree.childless_iff, Tree.childless_iff]
  exact forall_congr' fun p => imp_congr_right fun hp => by rw [same p hp]

/-- A directory that has been made, if it was not there, goes again if nothing stands in it. -/
theorem Grown.isDir_of_removed {o : Path} (h : Grown S t t') (hS : ∀ p, S p → p = o) (ho : t'.isDir o) (hne : o ≠ [])
    (hd : ∀ q, t''.isDir q ↔ t'.isDir q ∧ (q = o → ¬ t'.Childless q)) :
    t''.isDir q ↔ t.isDir q ∧ (q = o → ¬ t.Childless q) := by
  have hchildless : t'.Childless o ↔ t.Childless o := by
    refine h.childless_iff fun p hp he => ?_
    obtain rfl := hS p hp
    have hlen := congrArg List.length he
    rw [List.length_dropLast] at hlen
    have hpos := List.length_pos_iff.mpr hne
    omega
  rw [hd, h.isDir_iff fun p hp => hS p hp ▸ ho]
  by_cases hq : q = o
  · subst q
    rw [hchildless]
    constructor
    · intro ⟨_, hn⟩
      exact ⟨isDir_of_not_childless (hn rfl), hn⟩
    · intro ⟨hdir, hn⟩
      exact ⟨.inl hdir, hn⟩
  · constructor
    · intro ⟨hdir, _⟩
      exact ⟨hdir.resolve_right fun hp => hq (hS q hp), fun he => absurd he hq⟩
    · intro ⟨hdir, _⟩
      exact ⟨.inl hdir, fun he => absurd he hq⟩

theorem grown_put (hf : Fits t.nodes q) (hd : ¬ t.isDir q) (hn : q ∉ t.nodes) : Grown (· = q) t (t.put q .dir hf hd) := by
  intro p
  rw [lookup_put]
  split
  · rename_i hp
    exact .inr ⟨hp, hp ▸ AList.lookup_eq_none.mpr hn, rfl⟩
  · exact .inl rfl

/-- One directory is made, or it is there. -/
theorem grown_mkdir {c : String} (h : t.mkdirs q [c] = some t') : Grown (· = q ++ [c]) t t' := by
  unfold mkdirs at h
  split at h
  · obtain rfl := Option.some.inj h
    exact .refl _ t
  split at h
  · obtain rfl := Option.some.inj h
    exact .refl _ t
  split at h
  · obtain rfl := Option.some.inj h
    exact .refl _ t
  split at h
  · rename_i hq
    obtain rfl := Option.some.inj h
    exact grown_put hq.1 hq.2.1 hq.2.2
  · cases h

theorem isDir_drop (h : t.Childless q) (hq : q ≠ []) : (t.drop q h).isDir p ↔ t.isDir p ∧ p ≠ q := by
  change p = [] ∨ (t.nodes.erase q).lookup p = some .dir ↔ (p = [] ∨ t.nodes.lookup p = some .dir) ∧ p ≠ q
  by_cases hp : p = q
  · subst p
    simp [hq]
  · rw [AList.lookup_erase_ne hp]
    simp [hp]

end Grown

section Walk
variable {t t' : Tree} {p q cur : Path}

theorem proper_of_isDir (h : t.isDir q) : ∀ c ∈ q, Proper c := by
  rcases h with rfl | h
  · simp
  · exact (t.fits q (AList.lookup_isSome.mp (by rw [h]; rfl))).proper

theorem walk_append (cs ds : List String) :
    t.walk cur (cs ++ ds) = (t.walk cur cs).bind fun q => t.walk q ds := by
  induction cs generalizing cur with
  | nil => rfl
  | cons c cs ih =>
    simp only [List.cons_append, walk]
    split
    · split
      · exact ih
      · split
        · exact ih
        · exact ih
    · split <;> rfl

theorem walk_proper {c : String} (hc : Proper c) (hd : t.isDir cur) :
    t.walk cur [c] = .ok (cur ++ [c]) := by
  simp [walk, hd, hc.1, hc.2.1, hc.2.2]

/-- A path that ends in a proper name resolves to a place of that name. -/
theorem walk_concat {c : String} {cs : List String} (hc : Proper c)
    (h : t.walk cur (cs ++ [c]) = .ok q) : ∃ d, q = d ++ [c] ∧ t.walk cur cs = .ok d ∧ t.isDir d := by
  rw [walk_append] at h
  cases hw : t.walk cur cs with
  | error e => simp [hw, Except.bind] at h
  | ok d =>
    simp only [hw, Except.bind] at h
    by_cases hd : t.isDir d
    · rw [walk_proper hc hd] at h
      exact ⟨d, (Except.ok.inj h).symm, rfl, hd⟩
    · simp only [walk, hd, if_false] at h
      split at h <;> cases h

/-- Walking along existing directories stays on the path itself. -/
theorem walk_resolved {cs : List String} (hcs : ∀ c ∈ cs, Proper c)
    (hd : ∀ ds, ds <+: cs → ds ≠ cs → t.isDir (cur ++ ds)) : t.walk cur cs = .ok (cur ++ cs) := by
  induction cs generalizing cur with
  | nil => simp [walk]
  | cons c cs ih =>
    have hc := hcs c List.mem_cons_self
    have hcur : t.isDir cur := by simpa using hd [] (List.nil_prefix) (by simp)
    have hrest : t.walk (cur ++ [c]) cs = .ok (cur ++ [c] ++ cs) := by
      apply ih (fun c' hc' => hcs c' (List.mem_cons_of_mem c hc'))
      intro ds hds hne
      have := hd (c :: ds) ((List.prefix_cons_inj c).mpr hds) (by simpa using hne)
      simpa using this
    simp [walk, hcur, hc.1, hc.2.1, hc.2.2, hrest]

/-- A path of proper names leads to the place of that path, if anywhere. -/
theorem eq_of_walk {cs : List String} (hcs : ∀ c ∈ cs, Proper c) (h : t.walk cur cs = .ok q) :
    q = cur ++ cs := by
  induction cs generalizing cur with
  | nil => simpa using (Except.ok.inj h).symm
  | cons c cs ih =>
    have hc := hcs c List.mem_cons_self
    by_cases hd : t.isDir cur
    · simp only [walk, hd, if_true, hc.1, hc.2.1, hc.2.2, or_self, if_false] at h
      simpa using ih (fun c' hc' => hcs c' (List.mem_cons_of_mem c hc')) h
    · simp only [walk, hd, if_false] at h
      split at h <;> cases h

theorem isDir_of_prefix (hq : t.isDir q) (hp : p <+: q) : t.isDir p := by
  induction q using List.reverseRecOn with
  | nil =>
    obtain rfl := List.prefix_nil.mp hp
    exact hq
  | append_singleton d c ih =>
    rcases List.prefix_concat_iff.mp hp with rfl | hp
    · exact hq
    · have hm : d ++ [c] ∈ t.nodes := by
        rcases hq with hq | hq
        · simp at hq
        · exact AList.lookup_isSome.mp (by rw [hq]; rfl)
      have hpar := (t.fits _ hm).parent
      rw [List.dropLast_concat] at hpar
      exact ih hpar hp

theorem mem_of_content {s : String} (h : t.content q = some s) : q ∈ t.nodes :=
  AList.lookup_isSome.mp (by rw [content_eq_some.mp h]; rfl)

/-- A stored entry is where its own path leads. -/
theorem walk_of_mem (h : q ∈ t.nodes) : t.walk [] q = .ok q := by
  have hf := t.fits q h
  have : t.walk [] q = .ok ([] ++ q) := walk_resolved hf.proper (by
    intro ds hds hne
    have hds' : ds <+: q.dropLast := by
      obtain ⟨r, hr⟩ := hds
      have hr' : r ≠ [] := by
        rintro rfl
        exact hne (by simpa using hr)
      exact ⟨r.dropLast, by rw [← hr, List.dropLast_append_of_ne_nil hr']⟩
    simpa using isDir_of_prefix hf.parent hds')
  simpa using this

theorem read_of_content {s : String} (h : t.content q = some s) : t.read q = .ok s := by
  simp [read, walk_of_mem (mem_of_content h), h]

/-- A file that is there can be written. -/
theorem update_of_content {s : String} (f : Option String → String) (h : t.content q = some s) :
    ∃ t', t.update q f = some t' ∧
      ∀ q', t'.content q' = if q' = q then some (f (some s)) else t.content q' := by
  have hm := mem_of_content h
  have hq : Fits t.nodes q ∧ ¬ t.isDir q := ⟨t.fits q hm, not_isDir_of_content h⟩
  refine ⟨t.put q (.file (f (t.content q))) hq.1 hq.2, ?_, fun q' => ?_⟩
  · rw [update, walk_of_mem hm]
    exact dif_pos hq
  · rw [content_put, h]
    rfl

theorem read_eq_ok {s : String} :
    t.read p = .ok s ↔ ∃ q, t.walk [] p = .ok q ∧ t.content q = some s := by
  unfold read
  cases hw : t.walk [] p with
  | error e => simp
  | ok q =>
    cases hc : t.content q with
    | some s' => simp [hc]
    | none =>
      simp only [hc]
      split <;> simp [hc]

/-- What is read under a path of proper names stands there. -/
theorem content_of_read {s : String} (hp : ∀ c ∈ p, Proper c) (h : t.read p = .ok s) :
    t.content p = some s := by
  obtain ⟨q, hw, hc⟩ := read_eq_ok.mp h
  rwa [show p = q by simpa using (eq_of_walk hp hw).symm]

end Walk

section Listing
variable {t t' : Tree} {d : Path} {sfx n : String}

theorem mem_names : n ∈ t.names d ↔ d ++ [n] ∈ t.nodes := by
  simp only [names, List.mem_filterMap]
  constructor
  · rintro ⟨p, hp, h⟩
    split at h
    · rename_i hd
      have hp' : p = d ++ [n] := by
        rw [← hd]
        exact (List.dropLast_append_getLast? n h).symm
      rw [← hp']
      exact AList.mem_keys.mpr hp
    · cases h
  · exact fun h => ⟨d ++ [n], AList.mem_keys.mp h, by simp⟩

theorem nodup_names : (t.names d).Nodup := by
  refine List.Nodup.filterMap ?_ t.nodes.keys_nodup
  intro p p' n hn hn'
  simp only [Option.mem_def] at hn hn'
  split at hn
  case isFalse => cases hn
  split at hn'
  case isFalse => cases hn'
  rename_i hd hd'
  rw [← List.dropLast_append_getLast? n hn, ← List.dropLast_append_getLast? n hn', hd, hd']

/-- The names of the files in the directory that stands at `d`, sorted. -/
def files (t : Tree) (d : Path) (sfx : String) : List String :=
  ((t.names d).filter fun n => sfx.toList <:+ n.toList ∧ (t.content (d ++ [n])).isSome).insertionSort
    (· ≤ ·)

theorem mem_files :
    n ∈ t.files d sfx ↔ sfx.toList <:+ n.toList ∧ (t.content (d ++ [n])).isSome := by
  simp only [files, List.mem_insertionSort, List.mem_filter, mem_names, decide_eq_true_eq]
  refine ⟨fun h => h.2, fun h => ⟨?_, h⟩⟩
  obtain ⟨s, hs⟩ := Option.isSome_iff_exists.mp h.2
  exact mem_of_content hs

theorem pairwise_files : (t.files d sfx).Pairwise (· ≤ ·) := List.pairwise_insertionSort _ _

theorem nodup_files : (t.files d sfx).Nodup :=
  (List.perm_insertionSort _ _).nodup_iff.mpr (nodup_names.filter _)

/-- Two trees with the same files in `d` list the same names. -/
theorem files_congr (h : ∀ n, sfx.toList <:+ n.toList →
      ((t.content (d ++ [n])).isSome ↔ (t'.content (d ++ [n])).isSome)) :
    t.files d sfx = t'.files d sfx := by
  apply List.Perm.eq_of_pairwise' pairwise_files pairwise_files
  apply (List.perm_ext_iff_of_nodup nodup_files nodup_files).mpr
  intro n
  rw [mem_files, mem_files]
  exact and_congr_right fun hs => h n hs

theorem glob_eq_of_isDir (hp : ∀ c ∈ d, Proper c) (hd : t.isDir d) :
    t.glob d sfx =
      ((t.names d).filter fun n => sfx.toList <:+ n.toList).insertionSort (· ≤ ·) := by
  have hw : t.walk [] d = .ok ([] ++ d) := by
    apply walk_resolved hp
    intro ds hds _
    simpa using isDir_of_prefix hd hds
  simp only [glob, hw, List.nil_append, hd, if_true]

/-- The files among what a glob lists are the files of the directory, in the same order. -/
theorem filter_glob (hp : ∀ c ∈ d, Proper c) (hd : t.isDir d) :
    (t.glob d sfx).filter (fun n => (t.content (d ++ [n])).isSome) = t.files d sfx := by
  apply List.Perm.eq_of_pairwise' ?_ pairwise_files
  · apply (List.perm_ext_iff_of_nodup ?_ nodup_files).mpr
    · intro n
      rw [mem_files, glob_eq_of_isDir hp hd]
      simp only [List.mem_filter, List.mem_insertionSort, mem_names, decide_eq_true_eq]
      refine ⟨fun h => ⟨h.1.2, h.2⟩, fun h => ⟨⟨?_, h.1⟩, h.2⟩⟩
      obtain ⟨s, hs⟩ := Option.isSome_iff_exists.mp h.2
      exact mem_of_content hs
    · rw [glob_eq_of_isDir hp hd]
      exact ((List.perm_insertionSort _ _).nodup_iff.mpr (nodup_names.filter _)).filter _
  · rw [glob_eq_of_isDir hp hd]
    exact (List.pairwise_insertionSort _ _).filter _

end Listing
end Tree
end Files
