import Mathlib.Tactic.Common

/-!
# The words of a shell command line

How a POSIX shell cuts a line into words and operators, byte by byte, and what the words
come to. That depends on the circumstances of the run: on the files of the directory
where a word is a pattern for their names, and where there is an expansion on variables
and commands, so from the first expansion on a line is left as it is.
-/

namespace Shell
set_option autoImplicit false

abbrev Bytes := List UInt8

def ch (c : Char) : UInt8 := c.val.toUInt8

/-- A word as it stands in the line, its text without the quotes, and whether a byte of a
pattern stands in it outside of them. -/
structure Word where
  source : Bytes
  text : Bytes
  pattern : Bool
deriving DecidableEq, Repr

/-- The rest of a line from a word with an expansion in it is `live`. -/
inductive Token where
  | word (w : Word)
  | op (b : UInt8)
  | live (source : Bytes)
deriving DecidableEq, Repr

inductive Mode where
  | bare
  | single
  | double
  | comment
deriving DecidableEq, Repr

def blanks : Bytes := [ch ' ', ch '\t']
def operators : Bytes := [ch '\n', ch '&', ch '(', ch ')', ch ';', ch '<', ch '>', ch '|']
def patterns : Bytes := [ch '*', ch '?', ch '[']

/-- Whether a byte can begin or continue the name of a variable. -/
def nameByte (b : UInt8) : Bool :=
  (ch 'a' ≤ b ∧ b ≤ ch 'z') ∨ (ch 'A' ≤ b ∧ b ≤ ch 'Z') ∨ (ch '0' ≤ b ∧ b ≤ ch '9') ∨ b = ch '_'

/-- Whether what follows a dollar sign makes it an expansion. -/
def expands : Bytes → Bool
  | [] => false
  | b :: _ => nameByte b ∨ b ∈ [ch '@', ch '*', ch '#', ch '?', ch '-', ch '$', ch '!', ch '{', ch '(']

/-- The word so far, with these bytes at its end that mean the byte `b`. -/
def push (w : Option Word) (source : Bytes) (b : UInt8) (pattern : Bool) : Option Word :=
  let w := w.getD ⟨[], [], false⟩
  some ⟨w.source ++ source, w.text ++ [b], w.pattern || pattern⟩

/-- The word so far, with a quote at its end. -/
def touch (w : Option Word) (b : UInt8) : Option Word :=
  let w := w.getD ⟨[], [], false⟩
  some ⟨w.source ++ [b], w.text, w.pattern⟩

def flush : Option Word → List Token
  | none => []
  | some w => [.word w]

/-- The word so far belongs to the expansion. -/
def leave (w : Option Word) (bs : Bytes) : List Token := [.live ((w.getD ⟨[], [], false⟩).source ++ bs)]

/-- `none` is a quotation without an end. -/
def lex : Mode → Option Word → Bytes → Option (List Token)
  | .bare, w, [] => some (flush w)
  | .single, _, [] => none
  | .double, _, [] => none
  | .comment, _, [] => some []
  | .bare, w, b :: bs =>
    if b ∈ blanks then (lex .bare none bs).map fun ts => flush w ++ ts
    else if b ∈ operators then (lex .bare none bs).map fun ts => flush w ++ .op b :: ts
    else if b = ch '\\' then
      match bs with
      | [] => some (flush (push w [b] b false))
      | c :: cs => if c = ch '\n' then lex .bare w cs else lex .bare (push w [b, c] c false) cs
    else if b = ch '\'' then lex .single (touch w b) bs
    else if b = ch '"' then lex .double (touch w b) bs
    else if b = ch '`' ∨ (b = ch '$' ∧ expands bs = true) ∨ (b = ch '~' ∧ w = none) then
      some (leave w (b :: bs))
    else if b = ch '#' ∧ w = none then lex .comment none bs
    else lex .bare (push w [b] b (b ∈ patterns)) bs
  | .single, w, b :: bs =>
    if b = ch '\'' then lex .bare (touch w b) bs else lex .single (push w [b] b false) bs
  | .double, w, b :: bs =>
    if b = ch '"' then lex .bare (touch w b) bs
    else if b = ch '\\' then
      match bs with
      | [] => none
      | c :: cs =>
        if c = ch '\n' then lex .double w cs
        else if c ∈ [ch '$', ch '`', ch '"', ch '\\'] then lex .double (push w [b, c] c false) cs
        else lex .double (push (push w [b] b false) [c] c false) cs
    else if b = ch '`' ∨ (b = ch '$' ∧ expands bs = true) then some (leave w (b :: bs))
    else lex .double (push w [b] b false) bs
  | .comment, w, b :: bs =>
    if b = ch '\n' then (lex .bare none bs).map fun ts => .op b :: ts else lex .comment w bs

/-- The circumstances of a run: the files of the directory, which of them fit a word as a
pattern, and which words a live rest of a line comes to if it does not run anything. -/
structure Setting where
  names : List Bytes := []
  fits : Bytes → Bytes → Bool := fun _ _ => false
  comes : Bytes → Option (List Bytes) := fun _ => none

namespace Setting
variable (X : Setting)

def files (source : Bytes) : List Bytes := X.names.filter (X.fits source)

/-- A pattern that no file fits stays as it is. -/
def fields (w : Word) : List Bytes :=
  if w.pattern = true ∧ X.files w.source ≠ [] then X.files w.source else [w.text]

/-- The words of a line that is one command; a semicolon may end it. -/
def words : List Token → Option (List Bytes)
  | [] => some []
  | .word w :: ts => (words ts).map fun fs => X.fields w ++ fs
  | .op b :: ts => if b = ch ';' ∧ ts = [] then some [] else none
  | .live source :: _ => X.comes source

/-- What the shell makes of a line, if that is one command. -/
def command (line : Bytes) : Option (List Bytes) := (lex .bare none line).bind X.words

theorem fields_ne_nil (w : Word) : X.fields w ≠ [] := by
  unfold fields
  split
  · rename_i h
    exact h.2
  · exact List.cons_ne_nil _ _

end Setting

section Length
variable {w : Option Word} {ts us : List Token} {b : UInt8} {bs : Bytes} {m : Mode}

/-- How many bytes stand in the words. -/
def kept : List Token → Nat
  | [] => 0
  | .word w :: ts => w.text.length + kept ts
  | .op _ :: ts => kept ts
  | .live _ :: ts => kept ts

def held : Option Word → Nat
  | none => 0
  | some w => w.text.length

@[simp] theorem kept_append : kept (ts ++ us) = kept ts + kept us := by
  induction ts with
  | nil => simp [kept]
  | cons t ts ih => cases t <;> simp [kept, ih, Nat.add_assoc]

@[simp] theorem kept_flush : kept (flush w) = held w := by
  cases w <;> simp [kept, flush, held]

@[simp] theorem kept_leave : kept (leave w bs) = 0 := rfl

@[simp] theorem kept_op : kept (.op b :: ts) = kept ts := rfl

@[simp] theorem held_push (source : Bytes) (pattern : Bool) : held (push w source b pattern) = held w + 1 := by
  cases w <;> simp [push, held]

@[simp] theorem held_touch : held (touch w b) = held w := by
  cases w <;> simp [touch, held]

/-- No byte is made up. -/
theorem kept_lex (h : lex m w bs = some ts) : kept ts ≤ held w + bs.length := by
  have hnone : held none = 0 := rfl
  fun_induction lex m w bs generalizing ts with
  | case5 w b bs _ ih | case6 w b bs _ _ ih | case24 w bs ih =>
    obtain ⟨us, hus, rfl⟩ := Option.map_eq_some_iff.mp h
    have := ih hus
    simp only [kept_append, kept_flush, kept_op, List.length_cons]
    omega
  | _ => grind [held_push, held_touch, kept_flush, kept_leave, kept]

end Length

section Ordinary
variable {w : Option Word} {b : UInt8} {bs s t : Bytes} {p : Bool}

/-- A byte that stands for itself everywhere outside of quotes. -/
def Ordinary (b : UInt8) : Prop :=
  b ∉ blanks ∧ b ∉ operators ∧ b ∉ patterns ∧ b ∉ [ch '\\', ch '\'', ch '"', ch '`', ch '$', ch '#', ch '~']

instance (b : UInt8) : Decidable (Ordinary b) := inferInstanceAs (Decidable (_ ∧ _))

theorem lex_ordinary (h : Ordinary b) : lex .bare w (b :: bs) = lex .bare (push w [b] b false) bs := by
  obtain ⟨hblank, hop, hpat, hrest⟩ := h
  simp only [List.mem_cons, List.not_mem_nil, or_false, not_or] at hrest
  obtain ⟨hback, hsingle, hdouble, htick, hdollar, hhash, htilde⟩ := hrest
  rw [lex.eq_def]
  simp only [if_neg hblank, if_neg hop, if_neg hback, if_neg hsingle, if_neg hdouble, htick, hdollar, hhash,
    htilde, hpat, false_and, or_false, if_false, decide_false]

/-- Ordinary bytes are put at the end of a word. -/
theorem lex_ordinaries {cs : Bytes} (h : ∀ b ∈ cs, Ordinary b) :
    lex .bare (some ⟨s, t, p⟩) (cs ++ bs) = lex .bare (some ⟨s ++ cs, t ++ cs, p⟩) bs := by
  induction cs generalizing s t with
  | nil => rw [List.nil_append, List.append_nil, List.append_nil]
  | cons c cs ih =>
    have hpush : push (some ⟨s, t, p⟩) [c] c false = some ⟨s ++ [c], t ++ [c], p⟩ := by simp [push]
    rw [List.cons_append, lex_ordinary (h c List.mem_cons_self), hpush,
      ih fun b hb => h b (List.mem_cons_of_mem c hb), List.append_assoc, List.append_assoc, List.singleton_append]

/-- A word of ordinary bytes at the beginning of a line. -/
theorem lex_begin {cs : Bytes} (hc : cs ≠ []) (h : ∀ b ∈ cs, Ordinary b) :
    lex .bare none (cs ++ bs) = lex .bare (some ⟨cs, cs, false⟩) bs := by
  obtain ⟨c, cs, rfl⟩ := List.exists_cons_of_ne_nil hc
  have hpush : push none [c] c false = some ⟨[c], [c], false⟩ := rfl
  rw [List.cons_append, lex_ordinary (h c List.mem_cons_self), hpush,
    lex_ordinaries fun b hb => h b (List.mem_cons_of_mem c hb), List.singleton_append]

theorem lex_blank : lex .bare w (ch ' ' :: bs) = (lex .bare none bs).map fun ts => flush w ++ ts := by
  rw [lex.eq_def]
  exact if_pos (by decide)

/-- Such a word with a blank behind it is the first word of the command. -/
theorem command_first (X : Setting) {cs : Bytes} (hc : cs ≠ []) (h : ∀ b ∈ cs, Ordinary b) :
    X.command (cs ++ ch ' ' :: bs) = (X.command bs).map fun fs => cs :: fs := by
  have hword : X.fields ⟨cs, cs, false⟩ = [cs] := if_neg fun hp => Bool.false_ne_true hp.1
  unfold Setting.command
  rw [lex_begin hc h, lex_blank]
  cases lex .bare none bs with
  | none => rfl
  | some ts => simp [flush, Setting.words, hword]

end Ordinary

section Quiet
variable {w : Word} {b : UInt8} {bs : Bytes} {ts : List Token}

/-- A byte within a word that stands for itself in front of these, or belongs to a pattern. -/
def Plain (b : UInt8) (bs : Bytes) : Prop :=
  b ∉ blanks ∧ b ∉ operators ∧ b ∉ [ch '\'', ch '"', ch '`'] ∧
    ¬ (b = ch '\\' ∧ bs ≠ []) ∧ ¬ (b = ch '$' ∧ expands bs = true)

instance (b : UInt8) (bs : Bytes) : Decidable (Plain b bs) := inferInstanceAs (Decidable (_ ∧ _))

/-- A text that is all there is to a word, from its second byte on. -/
def Quiet : Bytes → Prop
  | [] => True
  | b :: bs => Plain b bs ∧ Quiet bs

instance decidableQuiet : (bs : Bytes) → Decidable (Quiet bs)
  | [] => .isTrue trivial
  | b :: bs =>
    have := decidableQuiet bs
    inferInstanceAs (Decidable (Plain b bs ∧ Quiet bs))

def patterned (bs : Bytes) : Bool := bs.any (· ∈ patterns)

theorem lex_plain (h : Plain b bs) : lex .bare (some w) (b :: bs) =
    lex .bare (some ⟨w.source ++ [b], w.text ++ [b], w.pattern || decide (b ∈ patterns)⟩) bs := by
  obtain ⟨hblank, hop, hquote, hback, hdollar⟩ := h
  simp only [List.mem_cons, List.not_mem_nil, or_false, not_or] at hquote
  rw [lex.eq_def]
  simp only [if_neg hblank, if_neg hop, hquote.1, hquote.2.1, hquote.2.2, hdollar, reduceCtorEq, and_false,
    or_false, if_false]
  split
  · rename_i hb
    obtain rfl : bs = [] := by_contra fun hbs => hback ⟨hb, hbs⟩
    rw [hb]
    rfl
  · rfl

/-- A quiet text is put at the end of the word. -/
theorem lex_quiet (h : Quiet bs) : lex .bare (some w) bs =
    some [.word ⟨w.source ++ bs, w.text ++ bs, w.pattern || patterned bs⟩] := by
  induction bs generalizing w with
  | nil => simp [lex, flush, patterned]
  | cons b bs ih => simp [lex_plain h.1, ih h.2, patterned, Bool.or_assoc]

/-- Another byte is lost. -/
theorem kept_lt_of_not_plain (h : ¬ Plain b bs) (hl : lex .bare (some w) (b :: bs) = some ts) :
    kept ts < w.text.length + (bs.length + 1) := by
  have hheld : held (some w) = w.text.length := rfl
  have hnone : held none = 0 := rfl
  rw [lex.eq_def] at hl
  dsimp only at hl
  split at hl
  · obtain ⟨us, hus, rfl⟩ := Option.map_eq_some_iff.mp hl
    have := kept_lex hus
    simp only [kept_append, kept_flush]
    omega
  rename_i hblank
  split at hl
  · obtain ⟨us, hus, rfl⟩ := Option.map_eq_some_iff.mp hl
    have := kept_lex hus
    simp only [kept_append, kept_flush, kept_op]
    omega
  rename_i hop
  split at hl
  · rename_i hb
    cases bs with
    | nil =>
      refine absurd ⟨hblank, hop, ?_, fun hx => hx.2 rfl, ?_⟩ h
      all_goals rw [hb]; decide
    | cons c cs =>
      dsimp only at hl
      rw [List.length_cons]
      split at hl
      · have := kept_lex hl
        omega
      · have := kept_lex hl
        rw [held_push] at this
        omega
  rename_i hback
  split at hl
  · have := kept_lex hl
    rw [held_touch] at this
    omega
  rename_i hsingle
  split at hl
  · have := kept_lex hl
    rw [held_touch] at this
    omega
  rename_i hdouble
  split at hl
  · obtain rfl := Option.some.inj hl
    rw [kept_leave]
    omega
  rename_i hlive
  simp only [not_or] at hlive
  refine absurd ⟨hblank, hop, ?_, fun hx => hback hx.1, hlive.2.1⟩ h
  simp only [List.mem_cons, List.not_mem_nil, or_false, not_or]
  exact ⟨hsingle, hdouble, hlive.1⟩

/-- What is not quiet does not come through whole. -/
theorem kept_lt_of_not_quiet (h : ¬ Quiet bs) (hl : lex .bare (some w) bs = some ts) :
    kept ts < w.text.length + bs.length := by
  induction bs generalizing w with
  | nil => exact absurd trivial h
  | cons b bs ih =>
    by_cases hb : Plain b bs
    · rw [lex_plain hb] at hl
      have := ih (fun hq => h ⟨hb, hq⟩) hl
      simp only [List.length_append, List.length_cons, List.length_nil] at this ⊢
      omega
    · exact kept_lt_of_not_plain hb hl

theorem Ordinary.plain (h : Ordinary b) : Plain b bs := by
  obtain ⟨hblank, hop, _, hrest⟩ := h
  simp only [List.mem_cons, List.not_mem_nil, or_false, not_or] at hrest
  obtain ⟨hback, hsingle, hdouble, htick, hdollar, _⟩ := hrest
  refine ⟨hblank, hop, ?_, fun hx => hback hx.1, fun hx => hdollar hx.1⟩
  simp only [List.mem_cons, List.not_mem_nil, or_false, not_or]
  exact ⟨hsingle, hdouble, htick⟩

theorem Ordinary.patterned_cons (h : Ordinary b) : patterned (b :: bs) = patterned bs := by
  simp [patterned, h.2.2.1]

end Quiet

namespace Setting
variable {X : Setting} {c : UInt8} {bs : Bytes}

/-- A text comes to itself: every byte stands for itself and no file fits; or, by chance, it
is a pattern that fits a file of that very name alone, or has an expansion that comes to it. -/
inductive Taken (X : Setting) (bs : Bytes) : Prop where
  | quiet (h : Quiet bs) (hfiles : patterned bs = true → X.files bs = [])
  | fits {w : Word} {ts : List Token} (h : lex .bare none bs = some (.word w :: ts))
    (hp : w.pattern = true) (hfiles : X.files w.source = [bs]) (hts : X.words ts = some [])
  | expands {source : Bytes} {ts : List Token} (h : lex .bare none bs = some (.live source :: ts))
    (hcomes : X.comes source = some [bs])

/-- A text that begins with an ordinary byte is one word, which comes to the text, exactly
if it is taken as it is. -/
theorem command_eq_iff (hc : Ordinary c) : X.command (c :: bs) = some [c :: bs] ↔ X.Taken (c :: bs) := by
  have hfirst : lex .bare none (c :: bs) = lex .bare (some ⟨[c], [c], false⟩) bs :=
    @lex_begin bs [c] (List.cons_ne_nil _ _) fun b hb => List.mem_singleton.mp hb ▸ hc
  constructor
  · intro h
    obtain ⟨ts, hl, hw⟩ := Option.bind_eq_some_iff.mp h
    rcases ts with _ | ⟨w | b | source, ts⟩
    · cases hw
    · obtain ⟨fs, hts, hfs⟩ := Option.map_eq_some_iff.mp hw
      obtain ⟨rfl, hfields⟩ : fs = [] ∧ X.fields w = [c :: bs] := by
        rcases List.append_eq_singleton_iff.mp hfs with ⟨h0, _⟩ | ⟨h1, h0⟩
        · exact absurd h0 (X.fields_ne_nil w)
        · exact ⟨h0, h1⟩
      unfold fields at hfields
      split at hfields
      · rename_i hp
        exact .fits hl hp.1 hfields hts
      · rename_i hno
        have htext : w.text = c :: bs := List.singleton_inj.mp hfields
        rw [hfirst] at hl
        have hq : Quiet bs := by
          by_contra hq
          have := kept_lt_of_not_quiet hq hl
          simp only [kept, htext, List.length_cons, List.length_nil] at this
          omega
        rw [lex_quiet hq] at hl
        obtain ⟨hword, rfl⟩ := List.cons.inj (Option.some.inj hl)
        obtain rfl := Token.word.inj hword
        refine .quiet ⟨hc.plain, hq⟩ fun hp => ?_
        rw [hc.patterned_cons] at hp
        by_contra hne
        exact hno ⟨hp, hne⟩
    · simp only [words] at hw
      split at hw <;> cases hw
    · exact .expands hl hw
  · intro h
    unfold command
    cases h with
    | quiet hq hfiles =>
      have hfields : X.fields ⟨c :: bs, c :: bs, patterned bs⟩ = [c :: bs] := by
        refine if_neg fun hp => hp.2 (hfiles ?_)
        rw [hc.patterned_cons]
        exact hp.1
      rw [hfirst, lex_quiet hq.2]
      simp [words, hfields]
    | fits hl hp hfiles hts =>
      have hfields : X.fields _ = [c :: bs] :=
        (if_pos ⟨hp, by rw [hfiles]; exact List.cons_ne_nil _ _⟩).trans hfiles
      rw [hl]
      simp [words, hfields, hts]
    | expands hl hcomes =>
      rw [hl]
      exact hcomes

end Setting
end Shell
