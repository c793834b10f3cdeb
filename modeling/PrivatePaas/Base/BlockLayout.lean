import PrivatePaas.Base.BlockRules

/-!
# Reading what was laid out in blocks

Lines that are laid out as a nested forest are read as that forest. Mappings and
sequences of whatever they hold are built with `mapping` and `elements`, which say what
is read and keep the layout nested.
-/

namespace Blocks
set_option autoImplicit false

section Lines

/-- Lines, each behind a line break. -/
def layLines (ls : List (List Char)) : List Char := ls.flatMap ('\n' :: ·)

theorem tokens_line {l : List Char} (hl : ∀ c ∈ l, isBreak c = false) (cs : List Char) :
    tokens (l ++ '\n' :: cs) = expand 0 l ++ tokens cs := by
  rw [tokens, List.splitOnP_append_cons_of_forall_mem hl '\n' rfl, List.flatMap_cons, tokens]

theorem tokens_layLines {ls : List (List Char)} (hls : ∀ l ∈ ls, ∀ c ∈ l, isBreak c = false) :
    tokens (layLines ls) = ls.flatMap (expand 0) := by
  have hbreak : ∀ cs, tokens ('\n' :: cs) = tokens cs := tokens_line (l := []) nofun
  induction ls with
  | nil => rfl
  | cons l ls ih =>
    have hl := hls l List.mem_cons_self
    have ih := ih fun l' hl' => hls l' (List.mem_cons_of_mem l hl')
    have hlay : layLines (l :: ls) = '\n' :: (l ++ layLines ls) := rfl
    rw [hlay, hbreak, List.flatMap_cons]
    cases ls with
    | nil => simp [layLines, tokens, List.splitOnP_eq_singleton hl]
    | cons l' ls =>
      have hlay' : layLines (l' :: ls) = '\n' :: (l' ++ layLines ls) := rfl
      rw [hlay'] at ih ⊢
      rw [tokens_line hl, ← hbreak, ih]

namespace Forest

@[simp] theorem nil_append (g : Forest) : nil ++ g = g := rfl

@[simp] theorem cons_append (t : Token) (kids rest g : Forest) :
    cons t kids rest ++ g = cons t kids (rest ++ g) := rfl

@[simp] theorem append_nil (f : Forest) : f ++ nil = f := by
  induction f with
  | nil => rfl
  | cons t kids rest _ ih => rw [cons_append, ih]

theorem append_assoc (f g h : Forest) : f ++ g ++ h = f ++ (g ++ h) := by
  induction f with
  | nil => rfl
  | cons t kids rest _ ih => rw [cons_append, cons_append, ih, cons_append]

@[simp] theorem flatten_append (f g : Forest) : (f ++ g).flatten = f.flatten ++ g.flatten := by
  induction f with
  | nil => rfl
  | cons t kids rest _ ih => simp [flatten, ih]

def head? : Forest → Option Token
  | nil => none
  | cons t _ _ => some t

/-- The roots of the trees. -/
def roots : Forest → List Token
  | nil => []
  | cons t _ rest => t :: rest.roots

/-- No line of the forest takes the one that comes next. -/
def Clear (f g : Forest) : Prop := ∀ t ∈ f.flatten, ∀ u ∈ g.head?, t.takes u = false

/-- Every line takes its children, and nothing in a tree takes the next tree. -/
def Nested : Forest → Prop
  | nil => True
  | cons t kids rest => (∀ u ∈ kids.roots, t.takes u = true) ∧ Clear (cons t kids nil) rest ∧
      kids.Nested ∧ rest.Nested

theorem split_append {t : Token} {f g : Forest} (hf : ∀ u ∈ f.roots, t.takes u = true)
    (hg : ∀ u ∈ g.head?, t.takes u = false) : (f ++ g).split t = (f, g) := by
  induction f with
  | nil =>
    cases g with
    | nil => rfl
    | cons u kids rest => simp [split, hg u rfl]
  | cons u kids rest _ ih =>
    have hu := hf u List.mem_cons_self
    simp [split, hu, ih fun v hv => hf v (List.mem_cons_of_mem u hv)]

theorem head?_append (f g : Forest) : (f ++ g).head? = f.head?.or g.head? := by
  cases f <;> rfl

/-- The lines of a nested forest are put together as they were. -/
theorem build_append {f : Forest} (hf : f.Nested) {g : Forest} (hg : Clear f g) :
    f.flatten.foldr add g = f ++ g := by
  induction f generalizing g with
  | nil => rfl
  | cons t kids rest ihk ihr =>
    obtain ⟨htakes, hclear, hkids, hrest⟩ := hf
    have hrest' := ihr hrest (g := g) fun u hu => hg u (by simp [flatten, hu])
    have hnext : ∀ u ∈ (cons t kids nil).flatten, ∀ v ∈ (rest ++ g).head?, u.takes v = false := by
      intro u hu v hv
      rw [head?_append] at hv
      cases rest with
      | nil => exact hg u (by simpa [flatten] using hu) v hv
      | cons w k r => exact hclear u hu v hv
    have hkids' := ihk hkids (g := rest ++ g) fun u hu => hnext u (by simp [flatten, hu])
    rw [flatten, List.foldr_cons, List.foldr_append, hrest', hkids', add,
      split_append htakes (hnext t (by simp [flatten]))]
    rfl

theorem build_flatten {f : Forest} (hf : f.Nested) : build f.flatten = f := by
  have h := build_append hf (g := nil) fun t _ u hu => by cases hu
  rwa [append_nil] at h

end Forest

end Lines

section Keys

/-- A text in front of a colon that is read as the key `name`. -/
structure KeyText (k name : String) : Prop where
  chars : ∀ c ∈ k.toList, c ≠ ':' ∧ c ≠ '#'
  name : inline? k.toList = some (.scalar name)

/-- The text of a key with what stands behind it, and of a key with nothing behind it. -/
def fieldText (k : String) (v : List Char) : List Char := k.toList ++ ':' :: ' ' :: v

def openingText (k : String) : List Char := k.toList ++ [':']

/-- The two as lines. -/
def field (i : Nat) (k : String) (v : List Char) : Token := ⟨i, .entry (fieldText k v)⟩

def opening (i : Nat) (k : String) : Token := ⟨i, .entry (openingText k)⟩

variable {i : Nat} {k name : String} {v : List Char} {kids rest : Forest}

theorem splitKey_append {k v : List Char} (hk : ∀ c ∈ k, c ≠ ':' ∧ c ≠ '#')
    (hv : v.head?.all isWhite = true) (w : Bool) : splitKey w (k ++ ':' :: v) = some (k, v) := by
  induction k generalizing w with
  | nil => simp [splitKey, hv]
  | cons c k ih =>
    obtain ⟨hcolon, hhash⟩ := hk c List.mem_cons_self
    simp [splitKey, hcolon, hhash, ih fun d hd => hk d (List.mem_cons_of_mem c hd)]

theorem KeyText.opens (h : KeyText k name) : (opening i k).opens = true := by
  have hsplit : splitKey false (k.toList ++ [':']) = some (k.toList, []) := splitKey_append h.chars rfl false
  simp only [Token.opens, opening, openingText, hsplit]
  rfl

/-- A line does not take one further out, nor a key beside it, and an element none beside it. -/
theorem takes_eq_false {t u : Token} (h : u.indent < t.indent ∨
    u.indent = t.indent ∧ (t.isDash = true ∨ u.isDash = false)) : t.takes u = false := by
  have hopens : t.isDash = true → t.opens = false := by
    intro hd
    obtain ⟨i, item⟩ := t
    cases item with
    | dash => rfl
    | entry text => cases hd
  unfold Token.takes
  rcases h with h | ⟨h, ht | hu⟩
  · have h1 : ¬ t.indent < u.indent := by omega
    have h2 : t.indent ≠ u.indent := by omega
    simp [h1, h2]
  · simp [h, hopens ht]
  · simp [h, hu]

theorem read_field (h : KeyText k name) : (Forest.cons (field i k v) .nil rest).read =
    (inline? v).bind fun n => rest.read.map (⟨i, .key name, n⟩ :: ·) := by
  have hsplit : splitKey false (k.toList ++ ':' :: ' ' :: v) = some (k.toList, ' ' :: v) :=
    splitKey_append h.chars rfl false
  have hblank : inline? (' ' :: v) = inline? v := rfl
  have hpiece : piece (field i k v) true (some .null) = (inline? v).map fun n => ⟨i, .key name, n⟩ := by
    simp only [piece, field, fieldText, hsplit, h.name, hblank]
    cases inline? v with
    | none => rfl
    | some n => cases n <;> rfl
  change (piece (field i k v) true (some .null)).bind _ = _
  rw [hpiece, Option.bind_map]
  rfl

theorem read_opening (h : KeyText k name) : (Forest.cons (opening i k) kids rest).read =
    (kids.read.bind join).bind fun n => rest.read.map (⟨i, .key name, n⟩ :: ·) := by
  have hsplit : splitKey false (k.toList ++ [':']) = some (k.toList, []) := splitKey_append h.chars rfl false
  have hpiece : ∀ leaf below, piece (opening i k) leaf below = below.map fun n => ⟨i, .key name, n⟩ := by
    intro leaf below
    simp only [piece, opening, openingText, hsplit, h.name]
    rfl
  change (piece (opening i k) kids.isNil (kids.read.bind join)).bind _ = _
  rw [hpiece, Option.bind_map]
  rfl

theorem read_dash : (Forest.cons ⟨i, .dash⟩ kids rest).read =
    (kids.read.bind join).bind fun n => rest.read.map (⟨i, .dash, n⟩ :: ·) := by
  change (piece ⟨i, .dash⟩ kids.isNil (kids.read.bind join)).bind _ = _
  change ((kids.read.bind join).map _).bind _ = _
  rw [Option.bind_map]
  rfl

theorem join_keys {es : List (String × Node)} (hne : es ≠ []) (hn : (es.map Prod.fst).Nodup) :
    join (es.map fun e => ⟨i, .key e.1, e.2⟩) = some (.map es) := by
  have hkeys : ∀ es : List (String × Node), (es.map fun e => (⟨i, .key e.1, e.2⟩ : Piece)).mapM
      (fun q => q.head.key?) = some (es.map Prod.fst) := by
    intro es
    induction es with
    | nil => rfl
    | cons e es ih =>
      rw [List.map_cons, List.mapM_cons, ih]
      rfl
  have hnodes : ∀ es : List (String × Node), (es.map Prod.fst).zip ((es.map fun e =>
      (⟨i, .key e.1, e.2⟩ : Piece)).map Piece.node) = es := by
    intro es
    induction es with
    | nil => rfl
    | cons e es ih => rw [List.map_cons, List.map_cons, List.map_cons, List.zip_cons_cons, ih]
  cases es with
  | nil => exact absurd rfl hne
  | cons e es =>
    have hall : (es.map fun e => (⟨i, .key e.1, e.2⟩ : Piece)).all (fun q => q.indent = i) = true := by
      simp
    have hkeys := hkeys (e :: es)
    have hnodes := hnodes (e :: es)
    simp only [List.map_cons] at hkeys hnodes hn
    simp only [List.map_cons, join, hall, hkeys, hnodes, hn]
    rfl

theorem join_dashes {ns : List Node} (hne : ns ≠ []) :
    join (ns.map fun n => ⟨i, .dash, n⟩) = some (.seq ns) := by
  cases ns with
  | nil => exact absurd rfl hne
  | cons n ns => simp [join, Function.comp_def]

/-- A line with a text, and one with a dash in front of it. -/
def lineOf (i : Nat) (text : List Char) : List Char := List.replicate i ' ' ++ text

def dashLine (i : Nat) (text : List Char) : List Char := List.replicate i ' ' ++ '-' :: ' ' :: text

/-- A text begins with none of the characters that the layout uses. -/
def begins : List Char → Bool
  | [] => false
  | c :: _ => c ≠ ' ' ∧ c ≠ '#' ∧ c ≠ '-'

theorem begins_append {cs ds : List Char} (h : begins cs = true) : begins (cs ++ ds) = true := by
  cases cs with
  | nil => cases h
  | cons c cs => exact h

theorem expand_replicate (j : Nat) (cs : List Char) :
    expand i (List.replicate j ' ' ++ cs) = expand (i + j) cs := by
  induction j generalizing i with
  | zero => rfl
  | succ j ih =>
    have hstep : expand i (' ' :: (List.replicate j ' ' ++ cs)) =
        expand (i + 1) (List.replicate j ' ' ++ cs) := by rw [expand.eq_def]; rfl
    rw [List.replicate_succ, List.cons_append, hstep, ih]
    congr 1
    omega

theorem expand_text {text : List Char} (h : begins text = true) :
    expand i text = [⟨i, .entry text⟩] := by
  cases text with
  | nil => cases h
  | cons c cs =>
    have hc : c ≠ ' ' ∧ c ≠ '#' ∧ c ≠ '-' := of_decide_eq_true h
    obtain ⟨hspace, hhash, hdash⟩ := hc
    rw [expand.eq_def]
    simp [hspace, hhash, hdash]

theorem expand_lineOf {text : List Char} (h : begins text = true) :
    expand 0 (lineOf i text) = [⟨i, .entry text⟩] := by
  rw [lineOf, expand_replicate, Nat.zero_add, expand_text h]

theorem expand_dashLine {text : List Char} (h : begins text = true) :
    expand 0 (dashLine i text) = [⟨i, .dash⟩, ⟨i + 2, .entry text⟩] := by
  have hstep : expand i ('-' :: ' ' :: text) = ⟨i, .dash⟩ :: expand (i + 2) text := by
    rw [expand.eq_def]
    rfl
  rw [dashLine, expand_replicate, Nat.zero_add, hstep, expand_text h]

theorem line_field (hk : begins k.toList = true) :
    expand 0 (lineOf i (fieldText k v)) = [field i k v] := expand_lineOf (begins_append hk)

theorem line_opening (hk : begins k.toList = true) :
    expand 0 (lineOf i (openingText k)) = [opening i k] := expand_lineOf (begins_append hk)

theorem dash_field (hk : begins k.toList = true) :
    expand 0 (dashLine i (fieldText k v)) = [⟨i, .dash⟩, field (i + 2) k v] :=
  expand_dashLine (begins_append hk)

theorem dash_opening (hk : begins k.toList = true) :
    expand 0 (dashLine i (openingText k)) = [⟨i, .dash⟩, opening (i + 2) k] :=
  expand_dashLine (begins_append hk)

/-- A text on one line. -/
def oneLine (cs : List Char) : Bool := cs.all fun c => ! isBreak c

theorem oneLine_iff {cs : List Char} : oneLine cs = true ↔ ∀ c ∈ cs, isBreak c = false := by
  simp [oneLine]

theorem oneLine_append (cs ds : List Char) : oneLine (cs ++ ds) = (oneLine cs && oneLine ds) :=
  List.all_append

theorem oneLine_blanks (j : Nat) : oneLine (List.replicate j ' ') = true :=
  oneLine_iff.mpr fun c hc => by rw [List.eq_of_mem_replicate hc]; rfl

theorem oneLine_lineOf (text : List Char) : oneLine (lineOf i text) = oneLine text := by
  rw [lineOf, oneLine_append, oneLine_blanks, Bool.true_and]

theorem oneLine_dashLine (text : List Char) : oneLine (dashLine i text) = oneLine text := by
  rw [dashLine, oneLine_append, oneLine_blanks, Bool.true_and]
  rfl

theorem oneLine_field : oneLine (fieldText k v) = (oneLine k.toList && oneLine v) := by
  rw [fieldText, oneLine_append]
  rfl

theorem oneLine_opening : oneLine (openingText k) = oneLine k.toList := by
  rw [openingText, oneLine_append]
  exact Bool.and_true _

/-- What stands behind a key: a text on its line, or lines below it. -/
inductive Val where
  | line (v : List Char)
  | below (f : Forest)

def Forest.value (f : Forest) : Option Node := f.read.bind join

def Val.value : Val → Option Node
  | line v => inline? v
  | below f => f.value

/-- The name that a key is read as. -/
def readKey (k : String) : Option String :=
  if k.toList.all fun c => c ≠ ':' ∧ c ≠ '#' then
    match inline? k.toList with
    | some (.scalar name) => some name
    | _ => none
  else none

theorem keyText_of (h : readKey k = some name) : KeyText k name := by
  unfold readKey at h
  split at h
  case isFalse => cases h
  case isTrue hchars =>
    have hchars := List.all_eq_true.mp hchars
    split at h
    case h_2 => cases h
    case h_1 n hn =>
      obtain rfl := Option.some.inj h
      exact ⟨fun c hc => of_decide_eq_true (hchars c hc), hn⟩

/-- The keys of one mapping with the names they are read as. -/
def AreKeys (ks names : List String) : Prop :=
  names ≠ [] ∧ names.Nodup ∧ ks.map readKey = names.map some

instance (ks names : List String) : Decidable (AreKeys ks names) :=
  inferInstanceAs (Decidable (_ ∧ _ ∧ _))

def mapping (i : Nat) : List (String × Val) → Forest
  | [] => .nil
  | (k, .line v) :: es => .cons (field i k v) .nil (mapping i es)
  | (k, .below f) :: es => .cons (opening i k) f (mapping i es)

def elements (i : Nat) : List Forest → Forest
  | [] => .nil
  | f :: fs => .cons ⟨i, .dash⟩ f (elements i fs)

theorem mapM_eq_some {α β : Type} {f : α → Option β} {l : List α} {bs : List β} :
    l.mapM f = some bs ↔ List.Forall₂ (fun a b => f a = some b) l bs := by
  induction l generalizing bs with
  | nil => simp [eq_comm]
  | cons a l ih =>
    rw [List.mapM_cons]
    simp only [Option.bind_eq_bind, Option.bind_eq_some_iff, ih, Option.pure_def, Option.some.injEq,
      List.forall₂_cons_left_iff]
    constructor
    · rintro ⟨b, hb, bs', hbs, rfl⟩
      exact ⟨b, bs', hb, hbs, rfl⟩
    · rintro ⟨b, bs', hb, hbs, rfl⟩
      exact ⟨b, hb, bs', hbs, rfl⟩

theorem read_mapping {es : List (String × Val)} {names : List String}
    (hk : (es.map Prod.fst).map readKey = names.map some) :
    (mapping i es).read = (es.mapM fun e : String × Val => e.2.value).map fun ns =>
      (names.zip ns).map fun e => ⟨i, .key e.1, e.2⟩ := by
  induction es generalizing names with
  | nil =>
    cases names with
    | nil => rfl
    | cons name names => cases hk
  | cons e es ih =>
    obtain ⟨k, val⟩ := e
    cases names with
    | nil => cases hk
    | cons name names =>
      obtain ⟨hread, hk⟩ := List.cons.inj hk
      have hk1 : KeyText k name := keyText_of hread
      have hcons : (mapping i ((k, val) :: es)).read =
          val.value.bind fun n => (mapping i es).read.map (⟨i, .key name, n⟩ :: ·) := by
        cases val with
        | line v => exact read_field hk1
        | below f => exact read_opening hk1
      rw [hcons, ih hk, List.mapM_cons]
      cases val.value with
      | none => rfl
      | some n =>
        simp only [Option.bind_some, Option.bind_eq_bind]
        cases es.mapM (fun e : String × Val => e.2.value) with
        | none => rfl
        | some ns => rfl

theorem value_eq_mapping {es : List (String × Val)} {ks names : List String}
    (hes : es.map Prod.fst = ks) (hk : AreKeys ks names) :
    (mapping i es).value = (es.mapM fun e : String × Val => e.2.value).map fun ns =>
      .map (names.zip ns) := by
  obtain ⟨hne, hnodup, hread⟩ := hk
  rw [← hes] at hread
  have hlen : es.length = names.length := by simpa using congrArg List.length hread
  rw [Forest.value, read_mapping hread]
  cases hns : es.mapM (fun e : String × Val => e.2.value) with
  | none => rfl
  | some ns =>
    have hns := (mapM_eq_some.mp hns).length_eq
    refine join_keys ?_ ?_
    · intro hnil
      have := congrArg List.length hnil
      rw [List.length_zip] at this
      have := List.length_pos_iff.mpr hne
      simp only [List.length_nil] at *
      omega
    · rwa [List.map_fst_zip (by omega)]

/-- A mapping is read key by key. -/
theorem value_mapping {es : List (String × Val)} {ks names : List String} {ms : List (String × Node)}
    (hes : es.map Prod.fst = ks) (hms : ms.map Prod.fst = names) (hk : AreKeys ks names) :
    (mapping i es).value = some (.map ms) ↔
      List.Forall₂ (fun e m => e.2.value = some m.2) es ms := by
  have hlen : es.length = names.length := by
    have := congrArg List.length hk.2.2
    rw [← hes] at this
    simpa using this
  have hforall : List.Forall₂ (fun e m => e.2.value = some m.2) es ms ↔
      es.mapM (fun e : String × Val => e.2.value) = some (ms.map Prod.snd) := by
    rw [mapM_eq_some, List.forall₂_map_right_iff]
  have hzip : ms = names.zip (ms.map Prod.snd) := by
    rw [← hms]
    exact List.zip_of_prod rfl rfl
  rw [value_eq_mapping hes hk, hforall, Option.map_eq_some_iff]
  constructor
  · intro h
    obtain ⟨ns, hns, heq⟩ := h
    have hlen' := (mapM_eq_some.mp hns).length_eq
    obtain rfl := Node.map.inj heq
    rw [hns, List.map_snd_zip (by omega)]
  · intro h
    exact ⟨_, h, by rw [← hzip]⟩

theorem read_elements (fs : List Forest) :
    (elements i fs).read = (fs.mapM Forest.value).map fun ns => ns.map fun n => ⟨i, .dash, n⟩ := by
  induction fs with
  | nil => rfl
  | cons f fs ih =>
    have hcons : (elements i (f :: fs)).read =
        f.value.bind fun n => (elements i fs).read.map (⟨i, .dash, n⟩ :: ·) := read_dash
    rw [hcons, ih, List.mapM_cons]
    cases f.value with
    | none => rfl
    | some n =>
      simp only [Option.bind_some, Option.bind_eq_bind]
      cases fs.mapM Forest.value with
      | none => rfl
      | some ns => rfl

/-- What a sequence is read as; without elements it is nothing. -/
def listOf : List Node → Node
  | [] => .null
  | n :: ns => .seq (n :: ns)

theorem listOf_injective {ns ms : List Node} (h : listOf ns = listOf ms) : ns = ms := by
  cases ns with
  | nil =>
    cases ms with
    | nil => rfl
    | cons m ms => cases h
  | cons n ns =>
    cases ms with
    | nil => cases h
    | cons m ms => exact Node.seq.inj h

theorem over_listOf {P : Char → Prop} {ns : List Node} : (listOf ns).Over P ↔ ∀ n ∈ ns, n.Over P := by
  cases ns with
  | nil =>
    constructor
    · exact fun _ => nofun
    · exact fun _ => .null
  | cons n ns =>
    constructor
    · intro h
      cases h with
      | seq h => exact h
    · exact .seq

theorem value_eq_elements {fs : List Forest} :
    (elements i fs).value = (fs.mapM Forest.value).map listOf := by
  rw [Forest.value, read_elements]
  cases fs.mapM Forest.value with
  | none => rfl
  | some ns =>
    cases ns with
    | nil => rfl
    | cons n ns => exact join_dashes (List.cons_ne_nil n ns)

/-- A sequence is read element by element. -/
theorem value_elements {fs : List Forest} {ns : List Node} :
    (elements i fs).value = some (listOf ns) ↔ List.Forall₂ (fun f n => f.value = some n) fs ns := by
  rw [value_eq_elements, Option.map_eq_some_iff, ← mapM_eq_some]
  constructor
  · intro h
    obtain ⟨ms, hms, heq⟩ := h
    rw [hms, listOf_injective heq]
  · intro h
    exact ⟨ns, h, rfl⟩

/-- Every line of the forest is at least so far in. -/
def Above (n : Nat) (f : Forest) : Prop := ∀ t ∈ f.flatten, n ≤ t.indent

/-- The lines of the forest can stand below a key: further in, or elements beside it. -/
def Under (i : Nat) (f : Forest) : Prop := ∀ t ∈ f.flatten, i < t.indent ∨ i = t.indent ∧ t.isDash = true

/-- The forest is nested and begins at column `n`. -/
structure Stands (n : Nat) (f : Forest) : Prop where
  nested : f.Nested
  above : Above n f

/-- A text, or lines that can stand below a key at column `i`. -/
def Val.Sits (i : Nat) : Val → Prop
  | line _ => True
  | below f => f.Nested ∧ Under i f

theorem Stands.sits {n : Nat} {f : Forest} (h : Stands n f) (hn : i < n) : (Val.below f).Sits i :=
  ⟨h.nested, fun t ht => .inl (Nat.lt_of_lt_of_le hn (h.above t ht))⟩

theorem above_mapping {es : List (String × Val)} (h : ∀ e ∈ es, e.2.Sits i) : Above i (mapping i es) := by
  induction es with
  | nil => exact nofun
  | cons e es ih =>
    have ih := ih fun e he => h e (List.mem_cons_of_mem _ he)
    have hsits := h e List.mem_cons_self
    obtain ⟨k, val⟩ := e
    intro t ht
    cases val with
    | line v =>
      rcases List.mem_cons.mp ht with rfl | ht
      · exact Nat.le_refl i
      · exact ih t ht
    | below f =>
      rcases List.mem_cons.mp ht with rfl | ht
      · exact Nat.le_refl i
      rcases List.mem_append.mp ht with ht | ht
      · have := hsits.2 t ht
        omega
      · exact ih t ht

theorem under_elements {fs : List Forest} (h : ∀ f ∈ fs, Above (i + 1) f) : Under i (elements i fs) := by
  induction fs with
  | nil => exact nofun
  | cons f fs ih =>
    intro t ht
    rcases List.mem_cons.mp ht with rfl | ht
    · exact .inr ⟨rfl, rfl⟩
    rcases List.mem_append.mp ht with ht | ht
    · exact .inl (h f List.mem_cons_self t ht)
    · exact ih (fun g hg => h g (List.mem_cons_of_mem _ hg)) t ht

theorem roots_subset (f : Forest) : ∀ t ∈ f.roots, t ∈ f.flatten := by
  induction f with
  | nil => exact nofun
  | cons t kids rest _ ih =>
    intro u hu
    rcases List.mem_cons.mp hu with rfl | hu
    · exact List.mem_cons_self
    · exact List.mem_cons_of_mem _ (List.mem_append_right _ (ih u hu))

theorem nested_mapping {es : List (String × Val)} {ks names : List String}
    (hes : es.map Prod.fst = ks) (hk : AreKeys ks names)
    (h : ∀ e ∈ es, e.2.Sits i) : (mapping i es).Nested := by
  obtain ⟨-, -, hk⟩ := hk
  rw [← hes] at hk
  -- the line that comes next is a key beside the others
  have next : ∀ es : List (String × Val), ∀ u ∈ (mapping i es).head?, u.indent = i ∧ u.isDash = false := by
    intro es u hu
    cases es with
    | nil => cases hu
    | cons e es =>
      obtain ⟨k, val⟩ := e
      cases val with
      | line v =>
        obtain rfl := Option.some.inj hu
        exact ⟨rfl, rfl⟩
      | below f =>
        obtain rfl := Option.some.inj hu
        exact ⟨rfl, rfl⟩
  clear hes
  induction es generalizing names with
  | nil => trivial
  | cons e es ih =>
    obtain ⟨k, val⟩ := e
    have hlen := congrArg List.length hk
    obtain ⟨name, names, rfl⟩ : ∃ name ns, names = name :: ns := by
      refine List.exists_cons_of_length_pos ?_
      simp only [List.length_map, List.length_cons] at hlen
      omega
    obtain ⟨hread, hk⟩ := List.cons.inj hk
    have hk1 : KeyText k name := keyText_of hread
    have ih := ih (fun e he => h e (List.mem_cons_of_mem _ he)) hk
    cases val with
    | line v =>
      refine ⟨nofun, fun t ht u hu => ?_, trivial, ih⟩
      obtain rfl : t = field i k v := by simpa [Forest.flatten] using ht
      obtain ⟨hu, hd⟩ := next es u hu
      exact takes_eq_false (.inr ⟨hu, .inr hd⟩)
    | below f =>
      obtain ⟨hf, hunder⟩ := h (k, .below f) List.mem_cons_self
      refine ⟨fun u hu => ?_, fun t ht u hu => ?_, hf, ih⟩
      · rcases hunder u (roots_subset f u hu) with hlt | ⟨heq, hd⟩
        · simp [Token.takes, opening, hlt]
        · have hopens : (opening i k).opens = true := hk1.opens
          unfold Token.takes
          rw [hopens, hd]
          simp [opening, heq]
      · obtain ⟨hu, hd⟩ := next es u hu
        have hle : i ≤ t.indent := by
          rcases List.mem_cons.mp ht with rfl | ht
          · exact Nat.le_refl i
          · have ht' : t ∈ f.flatten := by simpa [Forest.flatten] using ht
            rcases hunder t ht' with hlt | ⟨heq, _⟩ <;> omega
        rcases Nat.lt_or_eq_of_le hle with hlt | heq
        · exact takes_eq_false (.inl (by omega))
        · exact takes_eq_false (.inr ⟨by omega, .inr hd⟩)

theorem nested_elements {fs : List Forest} (h : ∀ f ∈ fs, f.Nested ∧ Above (i + 1) f) :
    (elements i fs).Nested := by
  have next : ∀ fs : List Forest, ∀ u ∈ (elements i fs).head?, u.indent = i := by
    intro fs u hu
    cases fs with
    | nil => cases hu
    | cons f fs =>
      obtain rfl := Option.some.inj hu
      rfl
  induction fs with
  | nil => trivial
  | cons f fs ih =>
    obtain ⟨hf, habove⟩ := h f List.mem_cons_self
    refine ⟨fun u hu => ?_, fun t ht u hu => ?_, hf, ih fun g hg => h g (List.mem_cons_of_mem _ hg)⟩
    · have hlt := habove u (roots_subset f u hu)
      simp only [Token.takes, decide_eq_true_eq]
      omega
    · have hu := next fs u hu
      rcases List.mem_cons.mp ht with rfl | ht
      · exact takes_eq_false (.inr ⟨hu, .inl rfl⟩)
      · have hlt := habove t (by simpa [Forest.flatten] using ht)
        exact takes_eq_false (.inl (by omega))

theorem stands_mapping {es : List (String × Val)} {ks names : List String}
    (hes : es.map Prod.fst = ks) (hk : AreKeys ks names) (h : ∀ e ∈ es, e.2.Sits i) :
    Stands i (mapping i es) :=
  ⟨nested_mapping hes hk h, above_mapping h⟩

theorem sits_elements {fs : List Forest} {n : Nat} (hn : i < n) (h : ∀ f ∈ fs, Stands n f) :
    (Val.below (elements i fs)).Sits i := by
  have habove : ∀ f ∈ fs, Above (i + 1) f := fun f hf t ht => Nat.le_trans hn ((h f hf).above t ht)
  exact ⟨nested_elements fun f hf => ⟨(h f hf).nested, habove f hf⟩, under_elements habove⟩

theorem stands_elements {fs : List Forest} {n : Nat} (hn : i < n) (h : ∀ f ∈ fs, Stands n f) :
    Stands i (elements i fs) := by
  obtain ⟨hnested, hunder⟩ := sits_elements hn h
  refine ⟨hnested, fun t ht => ?_⟩
  have := hunder t ht
  omega

end Keys
end Blocks
