import PrivatePaas.Base.FileTree

/-!
# Mounts

A namespace of mounts: each mount shows a directory of some file system, and but for
the root each is attached to a place in another one. A path is resolved name by name;
a step onto a place to which something is attached goes on in what is attached there,
and `..` from the top of a mount leads out of it. No two mounts stand on one place.
-/

namespace Files
set_option autoImplicit false

/-- A path from the top of a mount. -/
structure Place where
  mount : Nat
  path : Path
deriving DecidableEq

/-- `φ` names the file systems. -/
structure Mount (φ : Type) where
  id : Nat
  fs : φ
  base : Path
  point : Option Place

/-- A process with its namespace. -/
structure Mounts (φ : Type) where
  tree : φ → Tree
  mounts : List (Mount φ)
  fresh : Nat
  root : Place
  cwd : Place

/-- One name of a path, where no name is a link. -/
def stepName (q : Path) (c : String) : Path :=
  if c = "" ∨ c = "." then q else if c = ".." then q.dropLast else q ++ [c]

@[simp] theorem stepName_proper {q : Path} {c : String} (hc : Proper c) : stepName q c = q ++ [c] := by
  simp [stepName, hc.1, hc.2.1, hc.2.2]

theorem foldl_stepName_proper {cs : Path} (hcs : ∀ c ∈ cs, Proper c) (q : Path) :
    cs.foldl stepName q = q ++ cs := by
  induction cs generalizing q with
  | nil => simp
  | cons c cs ih =>
    rw [List.foldl_cons, stepName_proper (hcs c List.mem_cons_self),
      ih (fun d hd => hcs d (List.mem_cons_of_mem c hd))]
    simp

namespace Mounts
variable {φ : Type} (ns : Mounts φ)

def mount? (id : Nat) : Option (Mount φ) := ns.mounts.find? fun m => m.id = id

/-- Where a place is in the file system of its mount. -/
def entry (p : Place) : Option (φ × Path) := (ns.mount? p.mount).map fun m => (m.fs, m.base ++ p.path)

def isDir (p : Place) : Prop := ∃ e, ns.entry p = some e ∧ (ns.tree e.1).isDir e.2

instance (p : Place) : Decidable (ns.isDir p) :=
  match h : ns.entry p with
  | none => .isFalse (by rintro ⟨e, he, _⟩; rw [h] at he; cases he)
  | some e => decidable_of_iff ((ns.tree e.1).isDir e.2) (by simp [isDir, h])

/-- The file at a place. -/
def file (p : Place) : Option (φ × Path) :=
  (ns.entry p).filter fun e => ((ns.tree e.1).content e.2).isSome

/-- What is seen at a place. -/
def cross (p : Place) : Place :=
  match ns.mounts.find? fun m => m.point = some p with
  | some m => ⟨m.id, []⟩
  | none => p

def up (p : Place) : Place :=
  if p = ns.root then p
  else if p.path = [] then
    match (ns.mount? p.mount).bind Mount.point with
    | some a => ns.cross ⟨a.mount, a.path.dropLast⟩
    | none => p
  else ns.cross ⟨p.mount, p.path.dropLast⟩

def step (p : Place) (c : String) : Place :=
  if c = "" ∨ c = "." then p
  else if c = ".." then ns.up p
  else ns.cross ⟨p.mount, p.path ++ [c]⟩

def walk (p : Place) : List String → Option Place
  | [] => some p
  | c :: cs => if ns.isDir p then walk (ns.step p c) cs else none

/-- A path from the root or from the working directory. -/
def resolve (rooted : Bool) (cs : List String) : Option Place :=
  ns.walk (if rooted then ns.root else ns.cwd) cs

section Calls
variable [DecidableEq φ]

def mkdirsFrom (ns : Mounts φ) (p : Place) : List String → Option (Mounts φ)
  | [] => some ns
  | c :: cs =>
    if ns.isDir (ns.step p c) then mkdirsFrom ns (ns.step p c) cs
    else
      match ns.entry p with
      | none => none
      | some (f, d) =>
        match (ns.tree f).mkdirs d [c] with
        | none => none
        | some t =>
          mkdirsFrom { ns with tree := Function.update ns.tree f t } (ns.step p c) cs

/-- `os.MkdirAll` -/
def mkdirAll (cs : List String) : Option (Mounts φ) := ns.mkdirsFrom ns.root cs

/-- `os.Remove` -/
def remove (cs : List String) : Option (Mounts φ) := do
  let p ← ns.resolve true cs
  if p.path = [] then none
  else
    let (f, d) ← ns.entry p
    let t ← (ns.tree f).remove d
    return { ns with tree := Function.update ns.tree f t }

/-- The mounts among `ms` that a recursive bind takes along; `shown` says where it shows
a place. -/
def copies (fresh : Nat) (shown : Place → Option Place) : List (Mount φ) → List (Mount φ)
  | [] => []
  | m :: ms =>
    match m.point.bind shown with
    | none => copies fresh shown ms
    | some p =>
      { m with id := fresh, point := some p } ::
        copies (fresh + 1) (fun q => if q.mount = m.id then some ⟨fresh, q.path⟩ else shown q) ms

def shownBy (s : Place) (id : Nat) (q : Place) : Option Place :=
  if q.mount = s.mount ∧ s.path <+: q.path then some ⟨id, q.path.drop s.path.length⟩ else none

/-- `mount` with `MS_BIND` and `MS_REC` -/
def bind (rooted : Bool) (source target : List String) : Option (Mounts φ) := do
  let s ← ns.resolve rooted source
  let d ← ns.resolve true target
  let m ← ns.mount? s.mount
  if ns.isDir s ∧ ns.isDir d ∧ d.path ≠ [] then
    let more := copies (ns.fresh + 1) (shownBy s ns.fresh) ns.mounts
    return { ns with
      mounts := ns.mounts ++ ⟨ns.fresh, m.fs, m.base ++ s.path, some d⟩ :: more
      fresh := ns.fresh + 1 + more.length }
  else none

/-- `mount` of a whole file system -/
def mountFs (f : φ) (target : List String) : Option (Mounts φ) := do
  let d ← ns.resolve true target
  if ns.isDir d ∧ d.path ≠ [] then
    return { ns with
      mounts := ns.mounts ++ [⟨ns.fresh, f, [], some d⟩]
      fresh := ns.fresh + 1 }
  else none

/-- `pivot_root`: the mount at `new` becomes the root, and the old root moves to `put`. -/
def pivot (new put : List String) : Option (Mounts φ) := do
  let n ← ns.resolve true new
  let p ← ns.resolve true put
  if n.path = [] ∧ n ≠ ns.root ∧ p.mount = n.mount ∧ p.path ≠ [] ∧ ns.isDir p then
    return { ns with
      mounts := ns.mounts.map fun m =>
        if m.id = n.mount then { m with point := none }
        else if m.id = ns.root.mount then { m with point := some p }
        else m
      root := n
      cwd := if ns.cwd = ns.root then n else ns.cwd }
  else none

def chdir (cs : List String) : Option (Mounts φ) := do
  let p ← ns.resolve true cs
  if ns.isDir p then return { ns with cwd := p } else none

/-- `umount` with `MNT_DETACH`: what is attached below is out of reach with it. -/
def detach (cs : List String) : Option (Mounts φ) := do
  let p ← ns.resolve true cs
  if p.path = [] ∧ p ≠ ns.root then return { ns with mounts := ns.mounts.filter fun m => m.id ≠ p.mount }
  else none

end Calls

section Rules
variable {ns}

/-- Where steps through the namespace are steps of paths, a walk comes to the path that
its names lead to, and comes there if all it passes through are directories. -/
theorem walk_iff {place : Path → Place}
    (hstep : ∀ q c, ns.isDir (place q) → ns.step (place q) c = place (stepName q c)) {q : Path}
    {cs : List String} {p : Place} : ns.walk (place q) cs = some p ↔
      (∀ es c, es ++ [c] <+: cs → ns.isDir (place (es.foldl stepName q))) ∧
        p = place (cs.foldl stepName q) := by
  induction cs generalizing q with
  | nil =>
    simp only [walk, Option.some.injEq, List.foldl_nil]
    constructor
    · rintro rfl
      refine ⟨fun es c h => ?_, rfl⟩
      simp at h
    · rintro ⟨_, rfl⟩
      rfl
  | cons c cs ih =>
    by_cases hd : ns.isDir (place q)
    · simp only [walk, hd, if_true, hstep q c hd, ih, List.foldl_cons]
      refine and_congr_left fun _ => ⟨fun h es d hes => ?_, fun h es d hes => ?_⟩
      · cases es with
        | nil => exact hd
        | cons e es =>
          obtain ⟨rfl, htail⟩ := List.cons_prefix_cons.mp hes
          exact h es d htail
      · exact h (c :: es) d (List.cons_prefix_cons.mpr ⟨rfl, hes⟩)
    · simp only [walk, hd, if_false, reduceCtorEq, false_iff]
      rintro ⟨h, _⟩
      exact hd (h [] c (by simp))

theorem cross_eq_self {p : Place} (h : ∀ m ∈ ns.mounts, m.point ≠ some p) : ns.cross p = p := by
  unfold cross
  split
  · rename_i m hm
    exact absurd (by simpa using List.find?_some hm) (h m (List.mem_of_find?_eq_some hm))
  · rfl

theorem walk_append {p : Place} (cs ds : List String) :
    ns.walk p (cs ++ ds) = (ns.walk p cs).bind fun q => ns.walk q ds := by
  induction cs generalizing p with
  | nil => rfl
  | cons c cs ih =>
    simp only [List.cons_append, walk]
    split
    · exact ih
    · rfl

theorem eq_of_walk {cs : List String} {p p' : Place} (h : ns.walk p cs = some p') : p' = cs.foldl ns.step p := by
  induction cs generalizing p with
  | nil => exact (Option.some.inj h).symm
  | cons c cs ih =>
    simp only [walk] at h
    split at h
    · exact ih h
    · cases h

/-- Along names below which nothing is attached. -/
theorem foldl_step {k : Nat} {q : Path} {cs : List String} (hcs : ∀ c ∈ cs, Proper c)
    (hfree : ∀ es, es ≠ [] → es <+: cs → ns.cross ⟨k, q ++ es⟩ = ⟨k, q ++ es⟩) :
    cs.foldl ns.step ⟨k, q⟩ = ⟨k, q ++ cs⟩ := by
  induction cs generalizing q with
  | nil => simp
  | cons c cs ih =>
    have hc := hcs c List.mem_cons_self
    have hstep : ns.step ⟨k, q⟩ c = ⟨k, q ++ [c]⟩ := by
      simp only [step, hc.1, hc.2.1, hc.2.2, or_self, if_false]
      exact hfree [c] (by simp) (by simp)
    rw [List.foldl_cons, hstep, ih fun c' hc' => hcs c' (List.mem_cons_of_mem c hc')]
    · simp
    · intro es _ hes
      simpa using hfree (c :: es) (by simp) (List.cons_prefix_cons.mpr ⟨rfl, hes⟩)

theorem walk_straight {k : Nat} {q : Path} {cs : List String} {p : Place} (hcs : ∀ c ∈ cs, Proper c)
    (hfree : ∀ es, es ≠ [] → es <+: cs → ns.cross ⟨k, q ++ es⟩ = ⟨k, q ++ es⟩)
    (h : ns.walk ⟨k, q⟩ cs = some p) : p = ⟨k, q ++ cs⟩ :=
  (eq_of_walk h).trans (foldl_step hcs hfree)

section Frame
variable {ns' : Mounts φ}

/-- Only directories have changed. -/
structure SameFiles (ns ns' : Mounts φ) : Prop where
  mounts : ns'.mounts = ns.mounts
  fresh : ns'.fresh = ns.fresh
  root : ns'.root = ns.root
  cwd : ns'.cwd = ns.cwd
  content : ∀ f q, (ns'.tree f).content q = (ns.tree f).content q

theorem SameFiles.refl (ns : Mounts φ) : SameFiles ns ns := ⟨rfl, rfl, rfl, rfl, fun _ _ => rfl⟩

theorem SameFiles.trans {ns'' : Mounts φ} (h : SameFiles ns ns') (h' : SameFiles ns' ns'') :
    SameFiles ns ns'' where
  mounts := h'.mounts.trans h.mounts
  fresh := h'.fresh.trans h.fresh
  root := h'.root.trans h.root
  cwd := h'.cwd.trans h.cwd
  content f q := (h'.content f q).trans (h.content f q)

variable [DecidableEq φ]

theorem sameFiles_update {f : φ} {t : Tree} (h : ∀ q, t.content q = (ns.tree f).content q) :
    SameFiles ns { ns with tree := Function.update ns.tree f t } := by
  refine ⟨rfl, rfl, rfl, rfl, fun g q => ?_⟩
  change (Function.update ns.tree f t g).content q = _
  by_cases hg : g = f
  · subst g
    rw [Function.update_self]
    exact h q
  · rw [Function.update_of_ne hg]

theorem sameFiles_mkdirsFrom {p : Place} {cs : List String} (h : ns.mkdirsFrom p cs = some ns') :
    SameFiles ns ns' := by
  induction cs generalizing ns p with
  | nil =>
    obtain rfl := Option.some.inj h
    exact .refl _
  | cons c cs ih =>
    simp only [mkdirsFrom] at h
    split at h
    · exact ih h
    · split at h
      · cases h
      · split at h
        · cases h
        · rename_i hm
          exact (sameFiles_update (Tree.mkdirs_spec hm).1).trans (ih h)

/-- Where an error is ignored. -/
theorem sameFiles_mkdirAll (cs : List String) : SameFiles ns ((ns.mkdirAll cs).getD ns) := by
  cases h : ns.mkdirAll cs with
  | none => exact .refl _
  | some ns' => exact sameFiles_mkdirsFrom h

/-- Where a call of `mkdirAll` from `p` can add directories to the file system `f`. -/
def Reached (ns : Mounts φ) (p : Place) (cs : List String) (f : φ) (q : Path) : Prop :=
  ∃ es c d, es ++ [c] <+: cs ∧ ns.entry (es.foldl ns.step p) = some (f, d) ∧ q = d ++ [c]

theorem grown_mkdirsFrom {p : Place} {cs : List String} (h : ns.mkdirsFrom p cs = some ns') (f : φ) :
    Tree.Grown (ns.Reached p cs f) (ns.tree f) (ns'.tree f) := by
  induction cs generalizing ns p with
  | nil =>
    obtain rfl := Option.some.inj h
    exact .refl _ _
  | cons c cs ih =>
    have later : ∀ q, ns.Reached (ns.step p c) cs f q → ns.Reached p (c :: cs) f q :=
      fun q ⟨es, c', d, hes, he, hq⟩ => ⟨c :: es, c', d, List.cons_prefix_cons.mpr ⟨rfl, hes⟩, he, hq⟩
    simp only [mkdirsFrom] at h
    split at h
    · exact (ih h).mono fun q hq _ => later q hq
    split at h
    · cases h
    rename_i g d hentry
    split at h
    · cases h
    rename_i t ht
    have hrest := ih h
    have hfirst : Tree.Grown (ns.Reached p (c :: cs) f) (ns.tree f) (Function.update ns.tree g t f) := by
      by_cases hf : f = g
      · subst g
        rw [Function.update_self]
        refine (Tree.grown_mkdir ht).mono fun q hq _ => ?_
        exact ⟨[], c, d, List.cons_prefix_cons.mpr ⟨rfl, List.nil_prefix⟩, hentry, hq⟩
      · rw [Function.update_of_ne hf]
        exact .refl _ _
    exact hfirst.trans (hrest.mono fun q hq _ => later q hq)

theorem grown_mkdirAll (cs : List String) (f : φ) :
    Tree.Grown (ns.Reached ns.root cs f) (ns.tree f) (((ns.mkdirAll cs).getD ns).tree f) := by
  cases h : ns.mkdirAll cs with
  | none => exact .refl _ _
  | some ns' => exact grown_mkdirsFrom h f

/-- Where a directory is removed. -/
theorem sameFiles_remove {cs : List String} (hd : ∀ p, ns.resolve true cs = some p → ns.isDir p) :
    SameFiles ns ((ns.remove cs).getD ns) := by
  cases h : ns.remove cs with
  | none => exact .refl _
  | some ns' =>
    simp only [remove, Option.bind_eq_bind, Option.bind_eq_some_iff] at h
    obtain ⟨p, hp, h⟩ := h
    split at h
    · cases h
    simp only [Option.bind_eq_some_iff] at h
    obtain ⟨⟨f, d⟩, he, t, ht, h⟩ := h
    obtain rfl := Option.some.inj h
    refine sameFiles_update fun q => ?_
    obtain ⟨e, he', hdir⟩ := hd p hp
    obtain rfl := Option.some.inj (he.symm.trans he')
    obtain ⟨q', hw, hc⟩ := Tree.remove_spec ht
    rw [hc q]
    split
    · subst q
      have hq : q' = d := by
        rcases hdir with hnil | hmem
        · have hnil' : d = [] := hnil
          subst d
          simpa [Tree.walk] using hw.symm
        · have hm : d ∈ (ns.tree f).nodes := AList.lookup_isSome.mp (by rw [hmem]; rfl)
          simpa [Tree.walk_of_mem hm] using hw.symm
      subst d
      cases hs : (ns.tree f).content q' with
      | none => rfl
      | some s => exact absurd hdir (Tree.not_isDir_of_content hs)
    · rfl

/-- A directory goes that nothing stands in. -/
theorem tree_remove {cs : List String} {p : Place} {f : φ} {d : Path} (hp : ns.resolve true cs = some p)
    (hne : p.path ≠ []) (he : ns.entry p = some (f, d)) (hd : d ∈ (ns.tree f).nodes) :
    (∀ q, (((ns.remove cs).getD ns).tree f).isDir q ↔
        (ns.tree f).isDir q ∧ (q = d → ¬ (ns.tree f).Childless q)) ∧
      ∀ g, g ≠ f → ((ns.remove cs).getD ns).tree g = ns.tree g := by
  have hwalk := Tree.walk_of_mem hd
  by_cases hc : (ns.tree f).Childless d
  · have hremove : ns.remove cs = some { ns with tree := Function.update ns.tree f ((ns.tree f).drop d hc) } := by
      simp [remove, hp, hne, he, Tree.remove, hwalk, hd, hc]
    rw [hremove, Option.getD_some]
    refine ⟨fun q => ?_, fun g hg => Function.update_of_ne hg ..⟩
    change ((Function.update ns.tree f ((ns.tree f).drop d hc)) f).isDir q ↔ _
    rw [Function.update_self, Tree.isDir_drop hc ((ns.tree f).fits d hd).ne_nil]
    refine and_congr_right fun _ => ⟨fun hq he => absurd he hq, fun hq he => hq he (he ▸ hc)⟩
  · have hremove : ns.remove cs = none := by
      simp [remove, hp, hne, he, Tree.remove, hwalk, hc]
    rw [hremove, Option.getD_none]
    refine ⟨fun q => ⟨fun hq => ⟨hq, fun he => he ▸ hc⟩, fun hq => hq.1⟩, fun _ _ => rfl⟩

end Frame
end Rules
end Mounts
end Files
