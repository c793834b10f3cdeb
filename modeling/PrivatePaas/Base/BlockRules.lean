import PrivatePaas.Base.Blocks

/-!
# What a scalar can be

A scalar is read as its own text exactly if it is written as YAML wants it, and no
scalar that is read contains a line break.
-/

namespace Blocks
set_option autoImplicit false

section Scalars

/-- A text that is a plain scalar as it stands. -/
structure PlainText (cs : List Char) : Prop where
  start : plainStart cs = true
  last : ∀ c, cs.getLast? = some c → isWhite c = false
  comment : uncomment true cs = cs
  colon : splitKey false cs = none
  chars : cs.all isPlain = true

theorem forall_getLast? {p : Char → Prop} [DecidablePred p] {cs : List Char} :
    cs.getLast?.all (fun c => decide (p c)) = true ↔ ∀ c, cs.getLast? = some c → p c := by
  cases cs.getLast? <;> simp

instance (cs : List Char) : Decidable (PlainText cs) :=
  decidable_of_iff (plainStart cs = true ∧ (cs.getLast?.all fun c => decide (isWhite c = false)) = true ∧
      uncomment true cs = cs ∧ splitKey false cs = none ∧ cs.all isPlain = true)
    ⟨fun h => ⟨h.1, forall_getLast?.mp h.2.1, h.2.2.1, h.2.2.2.1, h.2.2.2.2⟩,
      fun h => ⟨h.start, forall_getLast?.mpr h.last, h.comment, h.colon, h.chars⟩⟩

theorem uncomment_plain (w : Bool) (cs : List Char) : uncomment w cs <+: cs := by
  induction cs generalizing w with
  | nil => exact List.prefix_rfl
  | cons c cs ih =>
    unfold uncomment
    split
    · exact List.nil_prefix
    · exact List.cons_prefix_cons.mpr ⟨rfl, ih _⟩

theorem plain?_eq_some {cs : List Char} :
    plain? cs = some (.scalar (String.ofList cs)) ↔ PlainText cs := by
  unfold plain?
  simp only
  constructor
  · intro h
    split at h
    · cases h
    split at h
    · rename_i hne hok
      have hcs : (uncomment true cs).rdropWhile isWhite = cs :=
        String.ofList_injective (Node.scalar.inj (Option.some.inj h))
      have hlen := (List.rdropWhile_prefix (uncomment true cs) (p := isWhite)).length_le
      have hunc : uncomment true cs = cs := by
        have hpre := uncomment_plain true cs
        refine hpre.eq_of_length_le ?_
        rw [hcs] at hlen
        exact hlen
      rw [hcs] at hok hne
      refine ⟨hok.1, fun c hc => ?_, hunc, hok.2.1, hok.2.2⟩
      rw [hunc] at hcs
      have hlast := List.rdropWhile_last_not isWhite cs (by rw [hcs]; exact hne)
      simp only [hcs] at hlast
      rw [List.getLast?_eq_some_getLast hne] at hc
      obtain rfl := Option.some.inj hc
      simpa using hlast
    · cases h
  · intro h
    have hne : cs ≠ [] := by
      rintro rfl
      exact absurd h.start (by decide)
    have hdrop : cs.rdropWhile isWhite = cs := by
      refine List.rdropWhile_eq_self_iff.mpr fun _ => ?_
      rw [h.last _ (List.getLast?_eq_some_getLast hne)]
      decide
    rw [h.comment, hdrop, if_neg hne, if_pos ⟨h.start, h.colon, h.chars⟩]

/-- A quoted text ends at the first quote. -/
theorem flow?_inside {acc cs : List Char} {fs : List Flow} (h : flow? (some acc) cs = some fs) :
    ∃ s rest fs', cs = s ++ '"' :: rest ∧ s.all isQuoted = true ∧ fs = .text (acc ++ s) :: fs' ∧
      flow? none rest = some fs' := by
  induction cs generalizing acc fs with
  | nil => cases h
  | cons c cs ih =>
    simp only [flow?] at h
    split at h
    · rename_i hc
      subst c
      obtain ⟨fs', hfs', rfl⟩ := Option.map_eq_some_iff.mp h
      exact ⟨[], cs, fs', rfl, rfl, by simp, hfs'⟩
    split at h
    · rename_i hq
      obtain ⟨s, rest, fs', rfl, hs, rfl, hrest⟩ := ih h
      exact ⟨c :: s, rest, fs', rfl, by simp [hq, hs], by simp, hrest⟩
    · cases h

theorem flow?_quoted {s : List Char} (hs : s.all isQuoted = true) (acc rest : List Char) :
    flow? (some acc) (s ++ '"' :: rest) = (flow? none rest).map (.text (acc ++ s) :: ·) := by
  induction s generalizing acc with
  | nil => simp [flow?]
  | cons c s ih =>
    obtain ⟨hc, hs'⟩ := Bool.and_eq_true_iff.mp (List.all_cons ▸ hs)
    have hne : c ≠ '"' := by
      rintro rfl
      exact absurd hc (by decide)
    simp [flow?, hne, hc, ih hs']

theorem items?_text {s : List Char} {fs : List Flow} {ns : List Node} (h : items? (.text s :: fs) = some ns) :
    ∃ ns', ns = .scalar (String.ofList s) :: ns' ∧
      (fs = [.closing] ∧ ns' = [] ∨ ∃ gs, fs = .comma :: gs ∧ items? gs = some ns') := by
  unfold items? at h
  split at h
  · rename_i heq
    cases (List.cons.inj heq).1
  · rename_i heq
    obtain ⟨htext, rfl⟩ := List.cons.inj heq
    obtain rfl := Flow.text.inj htext
    obtain rfl := Option.some.inj h
    exact ⟨[], rfl, .inl ⟨rfl, rfl⟩⟩
  · rename_i heq
    obtain ⟨htext, rfl⟩ := List.cons.inj heq
    obtain rfl := Flow.text.inj htext
    obtain ⟨ns', hns', rfl⟩ := Option.map_eq_some_iff.mp h
    exact ⟨ns', rfl, .inr ⟨_, rfl, hns'⟩⟩
  · cases h

/-- What stands in brackets is a sequence. -/
theorem inline?_bracket {cs : List Char} {n : Node} : inline? ('[' :: cs) = some n ↔
    ∃ fs ns, flow? none ('[' :: cs) = some (.opening :: fs) ∧ items? fs = some ns ∧ .seq ns = n := by
  have hdrop : ('[' :: cs).dropWhile isWhite = '[' :: cs := rfl
  unfold inline?
  rw [hdrop]
  split
  · rename_i heq
    exact absurd (List.cons.inj heq).1 (by decide)
  · rename_i ds heq
    obtain rfl := (List.cons.inj heq).2
    split
    · rename_i fs hfs
      rw [Option.map_eq_some_iff]
      constructor
      · rintro ⟨ns, hns, hn⟩
        exact ⟨fs, ns, hfs, hns, hn⟩
      · rintro ⟨fs', ns, hfs', hns, hn⟩
        obtain rfl : fs = fs' := (List.cons.inj (Option.some.inj (hfs.symm.trans hfs'))).2
        exact ⟨ns, hns, hn⟩
    · rename_i hno
      refine iff_of_false (by simp) ?_
      rintro ⟨fs, ns, hfs, _⟩
      exact hno fs hfs
  · rename_i hno
    exact absurd rfl (hno cs)

/-- Two quoted texts in brackets. -/
theorem inline?_pair {s t : List Char} :
    inline? ('[' :: '"' :: (s ++ '"' :: ',' :: ' ' :: '"' :: (t ++ ['"', ']']))) =
        some (.seq [.scalar (String.ofList s), .scalar (String.ofList t)]) ↔
      s.all isQuoted = true ∧ t.all isQuoted = true := by
  have hopen : ∀ cs, flow? none ('[' :: '"' :: cs) = (flow? (some []) cs).map (.opening :: ·) := fun _ => rfl
  rw [inline?_bracket, hopen]
  constructor
  · rintro ⟨fs, ns, heq, hns, hseq⟩
    obtain ⟨fs', hfs, hcons⟩ := Option.map_eq_some_iff.mp heq
    obtain rfl := (List.cons.inj hcons).2
    obtain ⟨x, rest, gs, hcs, hx, rfl, hrest⟩ := flow?_inside hfs
    obtain rfl := Node.seq.inj hseq
    obtain ⟨ns', hcons, htail⟩ := items?_text hns
    obtain ⟨hsx, rfl⟩ := List.cons.inj hcons
    obtain rfl : s = x := String.ofList_injective (Node.scalar.inj hsx)
    rcases htail with ⟨_, hnil⟩ | ⟨hs, rfl, hns'⟩
    · cases hnil
    -- behind the first text comes what was written there
    obtain ⟨_, rfl⟩ := List.cons.inj (List.append_cancel_left hcs)
    obtain ⟨hs', hfs', hcons'⟩ := Option.map_eq_some_iff.mp (show (flow? (some []) _).map (.comma :: ·) = _ from hrest)
    obtain ⟨_, rfl⟩ := List.cons.inj hcons'
    obtain ⟨y, rest', gs', hcs', hy, rfl, _⟩ := flow?_inside hfs'
    obtain ⟨_, hcons'', _⟩ := items?_text hns'
    obtain rfl : t = y := String.ofList_injective (Node.scalar.inj (List.cons.inj hcons'').1)
    exact ⟨hx, hy⟩
  · rintro ⟨hs, ht⟩
    rw [flow?_quoted hs]
    have hrest : ∀ cs, flow? none (',' :: ' ' :: '"' :: cs) = (flow? (some []) cs).map (.comma :: ·) :=
      fun _ => rfl
    rw [hrest, flow?_quoted ht]
    exact ⟨_, _, rfl, rfl, rfl⟩

theorem inline?_eq_plain? {cs : List Char} (h : plainStart cs = true) : inline? cs = plain? cs := by
  cases cs with
  | nil => cases h
  | cons c cs =>
    have hwhite : isWhite c = false := by
      by_cases hc : c = '-' ∨ c = '?' ∨ c = ':'
      · rcases hc with rfl | rfl | rfl <;> rfl
      · have hstart : isIndicator c = false ∧ isWhite c = false := by simpa [plainStart, hc] using h
        exact hstart.2
    have hdrop : (c :: cs).dropWhile isWhite = c :: cs := by simp [hwhite]
    unfold inline?
    rw [hdrop]
    split
    · rename_i heq
      obtain ⟨rfl, rfl⟩ := List.cons.inj heq
      cases h
    · rename_i heq
      obtain ⟨rfl, rfl⟩ := List.cons.inj heq
      cases h
    · rfl

/-- A text is read as itself exactly if it is a plain scalar. -/
theorem inline?_eq_some {cs : List Char} :
    inline? cs = some (.scalar (String.ofList cs)) ↔ PlainText cs := by
  constructor
  · intro h
    have hlen := (List.dropWhile_suffix isWhite (l := cs)).length_le
    unfold inline? at h
    split at h
    · rename_i ds heq
      split at h
      · rename_i s hs
        obtain rfl : s = cs := String.ofList_injective (Node.scalar.inj (Option.some.inj h))
        have hs' : flow? (some []) ds = some [.text s] := hs
        obtain ⟨x, rest, _, rfl, _, hx, _⟩ := flow?_inside hs'
        obtain rfl : s = x := Flow.text.inj (List.cons.inj hx).1
        rw [heq, List.length_cons, List.length_append, List.length_cons] at hlen
        omega
      · cases h
    · split at h
      · obtain ⟨_, _, hseq⟩ := Option.map_eq_some_iff.mp h
        cases hseq
      · cases h
    · have hp : (uncomment true (cs.dropWhile isWhite)).rdropWhile isWhite = cs := by
        unfold plain? at h
        simp only at h
        split at h
        · cases h
        split at h
        · exact String.ofList_injective (Node.scalar.inj (Option.some.inj h))
        · cases h
      have hle := (List.rdropWhile_prefix (p := isWhite) (uncomment true (cs.dropWhile isWhite))).length_le
      have hle' := (uncomment_plain true (cs.dropWhile isWhite)).length_le
      rw [hp] at hle
      have hdrop : cs.dropWhile isWhite = cs :=
        (List.dropWhile_suffix isWhite).eq_of_length_le (hle.trans hle')
      rw [hdrop] at h
      exact plain?_eq_some.mp h
  · intro h
    rw [inline?_eq_plain? h.start]
    exact plain?_eq_some.mpr h

/-- A character that is plain wherever it stands behind another one. -/
def isWord (c : Char) : Bool := isPlain c ∧ isWhite c = false ∧ c ≠ '#' ∧ c ≠ ':'

/-- A text that can stand behind a word in a plain scalar. -/
structure PlainTail (cs : List Char) : Prop where
  last : ∀ c, cs.getLast? = some c → isWhite c = false
  comment : uncomment false cs = cs
  colon : splitKey false cs = none
  chars : cs.all isPlain = true

instance (cs : List Char) : Decidable (PlainTail cs) :=
  decidable_of_iff ((cs.getLast?.all fun c => decide (isWhite c = false)) = true ∧
      uncomment false cs = cs ∧ splitKey false cs = none ∧ cs.all isPlain = true)
    ⟨fun h => ⟨forall_getLast?.mp h.1, h.2.1, h.2.2.1, h.2.2.2⟩,
      fun h => ⟨forall_getLast?.mpr h.last, h.comment, h.colon, h.chars⟩⟩

variable {w : List Char} (hw : ∀ c ∈ w, isWord c = true)

theorem isWord_iff {c : Char} :
    isWord c = true ↔ isPlain c = true ∧ isWhite c = false ∧ c ≠ '#' ∧ c ≠ ':' := by
  simp [isWord]

include hw

theorem uncomment_word (cs : List Char) : uncomment false (w ++ cs) = w ++ uncomment false cs := by
  induction w with
  | nil => rfl
  | cons c w ih =>
    obtain ⟨_, hwhite, hhash, _⟩ := isWord_iff.mp (hw c List.mem_cons_self)
    have ih := ih fun d hd => hw d (List.mem_cons_of_mem c hd)
    simp [uncomment, hhash, hwhite, ih]

theorem splitKey_word (cs : List Char) :
    splitKey false (w ++ cs) = (splitKey false cs).map fun r => (w ++ r.1, r.2) := by
  induction w with
  | nil => simp
  | cons c w ih =>
    obtain ⟨_, hwhite, hhash, hcolon⟩ := isWord_iff.mp (hw c List.mem_cons_self)
    have ih := ih fun d hd => hw d (List.mem_cons_of_mem c hd)
    simp [splitKey, hhash, hcolon, hwhite, ih, Function.comp_def]

theorem plainText_append (hstart : w.head?.any (fun c => ! isIndicator c) = true) (cs : List Char) :
    PlainText (w ++ cs) ↔ PlainTail cs := by
  obtain ⟨c, w', rfl, hc⟩ : ∃ c w', w = c :: w' ∧ isIndicator c = false := by
    cases w with
    | nil => cases hstart
    | cons c w' => exact ⟨c, w', rfl, by simpa using hstart⟩
  obtain ⟨hplain, hwhite, hhash, hcolon⟩ := isWord_iff.mp (hw c List.mem_cons_self)
  have hcomment : uncomment true (c :: w' ++ cs) = c :: w' ++ uncomment false cs := by
    have h := uncomment_word (fun d hd => hw d (List.mem_cons_of_mem c hd)) cs
    simp [uncomment, hhash, hwhite, h]
  have hsplit := splitKey_word hw cs
  have hlast : (∀ d, (c :: w' ++ cs).getLast? = some d → isWhite d = false) ↔
      ∀ d, cs.getLast? = some d → isWhite d = false := by
    rw [List.getLast?_append]
    cases hcs : cs.getLast? with
    | some d => simp
    | none =>
      simp only [Option.none_or, reduceCtorEq, false_implies, implies_true, iff_true]
      intro d hd
      exact (isWord_iff.mp (hw d (List.mem_of_getLast? hd))).2.1
  have hall : (c :: w' ++ cs).all isPlain = true ↔ cs.all isPlain = true := by
    have hword : (c :: w').all isPlain = true :=
      List.all_eq_true.mpr fun d hd => (isWord_iff.mp (hw d hd)).1
    rw [List.all_append, hword, Bool.true_and]
  constructor
  · intro h
    refine ⟨hlast.mp h.last, ?_, ?_, hall.mp h.chars⟩
    · exact List.append_cancel_left (hcomment ▸ h.comment)
    · have := h.colon
      rw [hsplit] at this
      exact Option.map_eq_none_iff.mp this
  · intro h
    refine ⟨?_, hlast.mpr h.last, by rw [hcomment, h.comment], by rw [hsplit, h.colon]; rfl, hall.mpr h.chars⟩
    have hdash : c ≠ '-' ∧ c ≠ '?' := by
      constructor
      · intro heq
        rw [heq] at hc
        cases hc
      · intro heq
        rw [heq] at hc
        cases hc
    simp [plainStart, hdash.1, hdash.2, hcolon, hc, hwhite]

theorem plainText_of_word (hstart : plainStart w = true) : PlainText w := by
  have hcomment := uncomment_word hw []
  have hsplit := splitKey_word hw []
  rw [List.append_nil] at hcomment hsplit
  refine ⟨hstart, fun c hc => (isWord_iff.mp (hw c (List.mem_of_getLast? hc))).2.1, ?_, hsplit, ?_⟩
  · cases w with
    | nil => rfl
    | cons c w =>
      have hhash := (isWord_iff.mp (hw c List.mem_cons_self)).2.2.1
      simp only [uncomment, hhash, false_and, if_false] at hcomment ⊢
      simpa using hcomment
  · exact List.all_eq_true.mpr fun d hd => (isWord_iff.mp (hw d hd)).1

omit hw

end Scalars

section Characters
variable {P : Char → Prop}

/-- All texts of the node consist of characters with `P`. -/
inductive Node.Over (P : Char → Prop) : Node → Prop where
  | null : Node.Over P .null
  | scalar {text : String} (h : ∀ c ∈ text.toList, P c) : Node.Over P (.scalar text)
  | seq {items : List Node} (h : ∀ n ∈ items, Node.Over P n) : Node.Over P (.seq items)
  | map {entries : List (String × Node)} (h : ∀ e ∈ entries, Node.Over P e.2) : Node.Over P (.map entries)

theorem over_scalar {text : String} : (Node.scalar text).Over P ↔ ∀ c ∈ text.toList, P c := by
  constructor
  · intro h
    cases h with
    | scalar h => exact h
  · exact .scalar

theorem over_map {entries : List (String × Node)} :
    (Node.map entries).Over P ↔ ∀ e ∈ entries, e.2.Over P := by
  constructor
  · intro h
    cases h with
    | map h => exact h
  · exact .map

theorem over_seq {ns : List Node} (h : (Node.seq ns).Over P) : ∀ n ∈ ns, n.Over P := by
  cases h with
  | seq h => exact h

def Token.Over (P : Char → Prop) (t : Token) : Prop :=
  match t.item with
  | .dash => True
  | .entry text => ∀ c ∈ text, P c

theorem forall_mem_splitOnP {p : Char → Bool} (cs : List Char) :
    ∀ l ∈ cs.splitOnP p, ∀ c ∈ l, p c = false := by
  induction cs with
  | nil => simp
  | cons c cs ih =>
    rw [List.splitOnP_cons_eq_if_modifyHead]
    split
    · intro l hl
      rcases List.mem_cons.mp hl with rfl | hl
      · simp
      · exact ih l hl
    · rename_i hc
      intro l hl d hd
      cases hs : cs.splitOnP p with
      | nil => exact absurd hs (List.splitOnP_ne_nil p cs)
      | cons l' ls =>
        rw [hs] at ih hl
        rcases List.mem_cons.mp hl with rfl | hl
        · rcases List.mem_cons.mp hd with rfl | hd
          · simpa using hc
          · exact ih l' List.mem_cons_self d hd
        · exact ih l (List.mem_cons_of_mem _ hl) d hd

theorem over_expand {i : Nat} {cs : List Char} (h : ∀ c ∈ cs, P c) : ∀ t ∈ expand i cs, t.Over P := by
  induction i, cs using expand.induct with
  | case1 i => simp [expand]
  | case2 i cs ih =>
    have hstep : expand i (' ' :: cs) = expand (i + 1) cs := by rw [expand.eq_def]; rfl
    rw [hstep]
    exact ih fun c hc => h c (List.mem_cons_of_mem _ hc)
  | case3 i cs =>
    have hstep : expand i ('#' :: cs) = [] := by rw [expand.eq_def]; rfl
    simp [hstep]
  | case4 i => simp [expand, Token.Over]
  | case5 i cs _ _ ih =>
    have hrest := ih fun c hc => h c (List.mem_cons_of_mem _ (List.mem_cons_of_mem _ hc))
    simpa [expand, Token.Over] using hrest
  | case6 i c cs hc => simpa [expand, hc, Token.Over] using h
  | case7 i c cs hspace hhash hdash =>
    have hstep : expand i (c :: cs) = [⟨i, .entry (c :: cs)⟩] := by
      simp [expand.eq_def, hspace, hhash, hdash]
    rw [hstep]
    simpa [Token.Over] using h

theorem over_plain? {cs : List Char} (h : ∀ c ∈ cs, P c) {n : Node} (hn : plain? cs = some n) :
    n.Over P := by
  unfold plain? at hn
  simp only at hn
  split at hn
  · obtain rfl := Option.some.inj hn
    exact .null
  split at hn
  · obtain rfl := Option.some.inj hn
    refine .scalar fun c hc => h c ?_
    rw [String.toList_ofList] at hc
    exact (uncomment_plain true cs).subset ((List.rdropWhile_prefix isWhite (uncomment true cs)).subset hc)
  · cases hn

def Flow.Over (P : Char → Prop) : Flow → Prop
  | .text s => ∀ c ∈ s, P c
  | _ => True

theorem over_flow? {cs : List Char} (h : ∀ c ∈ cs, P c) {inside : Option (List Char)}
    (hi : ∀ s, inside = some s → ∀ c ∈ s, P c) {fs : List Flow} (hfs : flow? inside cs = some fs) :
    ∀ f ∈ fs, f.Over P := by
  induction cs generalizing inside fs with
  | nil =>
    simp only [flow?] at hfs
    split at hfs
    · obtain rfl := Option.some.inj hfs
      simp
    · cases hfs
  | cons c cs ih =>
    have hcs : ∀ c ∈ cs, P c := fun d hd => h d (List.mem_cons_of_mem c hd)
    -- one part more, and outside of quotes again
    have more : ∀ {f : Flow}, f.Over P → (flow? none cs).map (f :: ·) = some fs → ∀ f ∈ fs, f.Over P := by
      intro f hf hmap
      obtain ⟨gs, hgs, rfl⟩ := Option.map_eq_some_iff.mp hmap
      exact List.forall_mem_cons.mpr ⟨hf, ih hcs (fun _ hs => by cases hs) hgs⟩
    cases inside with
    | some s =>
      have hs := hi s rfl
      simp only [flow?] at hfs
      split at hfs
      · exact more (f := .text s) hs hfs
      split at hfs
      · refine ih hcs (fun s' hs' d hd => ?_) hfs
        obtain rfl := Option.some.inj hs'
        rcases List.mem_append.mp hd with hd | hd
        · exact hs d hd
        · rw [List.mem_singleton.mp hd]
          exact h c List.mem_cons_self
      · cases hfs
    | none =>
      simp only [flow?] at hfs
      split at hfs
      · exact ih hcs (fun _ hs => by cases hs) hfs
      split at hfs
      · refine ih hcs (fun s' hs' d hd => ?_) hfs
        obtain rfl := Option.some.inj hs'
        cases hd
      split at hfs
      · exact more (f := .comma) trivial hfs
      split at hfs
      · exact more (f := .opening) trivial hfs
      split at hfs
      · exact more (f := .closing) trivial hfs
      · cases hfs

theorem over_items? {fs : List Flow} (h : ∀ f ∈ fs, f.Over P) {ns : List Node} (hns : items? fs = some ns) :
    ∀ n ∈ ns, n.Over P := by
  have text : ∀ {s : List Char}, .text s ∈ fs → (Node.scalar (String.ofList s)).Over P := by
    intro s hs
    refine .scalar fun c hc => h _ hs c ?_
    rwa [String.toList_ofList] at hc
  induction fs using items?.induct generalizing ns with
  | case1 =>
    obtain rfl := Option.some.inj hns
    simp
  | case2 s =>
    obtain rfl := Option.some.inj hns
    simpa using text (s := s) (by simp)
  | case3 s fs ih =>
    obtain ⟨ns', hns', rfl⟩ := Option.map_eq_some_iff.mp hns
    refine List.forall_mem_cons.mpr ⟨text (s := s) (by simp), ih ?_ hns' ?_⟩
    · exact fun f hf => h f (by simp [hf])
    · exact fun {s} hs => text (by simp [hs])
  | case4 fs h1 h2 h3 =>
    unfold items? at hns
    split at hns <;> simp_all

theorem over_inline? {cs : List Char} (h : ∀ c ∈ cs, P c) {n : Node} (hn : inline? cs = some n) :
    n.Over P := by
  have hcs : ∀ c ∈ cs.dropWhile isWhite, P c := fun c hc => h c ((List.dropWhile_suffix _).subset hc)
  unfold inline? at hn
  split at hn
  · rename_i ds heq
    rw [heq] at hcs
    split at hn
    · rename_i s hs
      obtain rfl := Option.some.inj hn
      have htext := over_flow? hcs (fun _ h => by cases h) hs (.text s) (by simp)
      refine .scalar fun c hc => htext c ?_
      rwa [String.toList_ofList] at hc
    · cases hn
  · rename_i ds heq
    rw [heq] at hcs
    split at hn
    · rename_i fs hfs
      obtain ⟨ns, hns, rfl⟩ := Option.map_eq_some_iff.mp hn
      have hall := over_flow? hcs (fun _ h => by cases h) hfs
      exact .seq (over_items? (fun f hf => hall f (List.mem_cons_of_mem _ hf)) hns)
    · cases hn
  · exact over_plain? hcs hn

theorem over_splitKey {w : Bool} {cs k v : List Char} (h : ∀ c ∈ cs, P c)
    (hk : splitKey w cs = some (k, v)) : (∀ c ∈ k, P c) ∧ ∀ c ∈ v, P c := by
  induction cs generalizing w k with
  | nil => cases hk
  | cons c cs ih =>
    have hcs : ∀ c ∈ cs, P c := fun d hd => h d (List.mem_cons_of_mem c hd)
    simp only [splitKey] at hk
    split at hk
    · cases hk
    split at hk
    · obtain ⟨rfl, rfl⟩ := Prod.mk.inj (Option.some.inj hk)
      exact ⟨nofun, hcs⟩
    · obtain ⟨⟨k', v'⟩, hr, heq⟩ := Option.map_eq_some_iff.mp hk
      obtain ⟨rfl, rfl⟩ := Prod.mk.inj heq
      obtain ⟨hk', hv⟩ := ih hcs hr
      exact ⟨List.forall_mem_cons.mpr ⟨h c List.mem_cons_self, hk'⟩, hv⟩

theorem over_piece {t : Token} (h : t.Over P) {leaf : Bool} {below : Option Node}
    (hbelow : ∀ n, below = some n → n.Over P) {p : Piece} (hp : piece t leaf below = some p) :
    p.node.Over P := by
  obtain ⟨i, item⟩ := t
  cases item with
  | dash =>
    obtain ⟨n, hn, rfl⟩ := Option.map_eq_some_iff.mp hp
    exact hbelow n hn
  | entry text =>
    have htext : ∀ c ∈ text, P c := h
    simp only [piece] at hp
    split at hp
    · split at hp
      · obtain ⟨n, hn, rfl⟩ := Option.map_eq_some_iff.mp hp
        exact over_inline? htext hn
      · cases hp
    · rename_i k v hk
      obtain ⟨_, hv⟩ := over_splitKey htext hk
      split at hp
      · obtain ⟨n, hn, rfl⟩ := Option.map_eq_some_iff.mp hp
        exact hbelow n hn
      · rename_i n _ hn
        split at hp
        · obtain rfl := Option.some.inj hp
          exact over_inline? hv hn
        · cases hp
      · cases hp

theorem over_join {ps : List Piece} (h : ∀ p ∈ ps, p.node.Over P) {n : Node} (hn : join ps = some n) :
    n.Over P := by
  have hnodes : ∀ n ∈ ps.map Piece.node, n.Over P := by
    intro n hn
    obtain ⟨p, hp, rfl⟩ := List.mem_map.mp hn
    exact h p hp
  cases ps with
  | nil =>
    obtain rfl := Option.some.inj hn
    exact .null
  | cons p ps =>
    simp only [join] at hn
    split at hn
    · cases hn
    split at hn
    · split at hn
      · obtain rfl := Option.some.inj hn
        exact .seq hnodes
      · cases hn
    · split at hn
      · obtain rfl := Option.some.inj hn
        exact h p List.mem_cons_self
      · cases hn
    · split at hn
      · cases hn
      split at hn
      · obtain rfl := Option.some.inj hn
        exact .map fun e he => hnodes e.2 (List.of_mem_zip he).2
      · cases hn

theorem over_forest {f : Forest} (h : ∀ t ∈ f.flatten, t.Over P) {ps : List Piece} (hps : f.read = some ps) :
    ∀ p ∈ ps, p.node.Over P := by
  induction f generalizing ps with
  | nil =>
    obtain rfl := Option.some.inj hps
    simp
  | cons t kids rest ihk ihr =>
    obtain ⟨p, hp, hrest⟩ := Option.bind_eq_some_iff.mp hps
    obtain ⟨qs, hqs, rfl⟩ := Option.map_eq_some_iff.mp hrest
    have hbelow : ∀ n, kids.read.bind join = some n → n.Over P := by
      intro n hn
      obtain ⟨ks, hks, hjoin⟩ := Option.bind_eq_some_iff.mp hn
      exact over_join (ihk (fun u hu => h u (by simp [Forest.flatten, hu])) hks) hjoin
    exact List.forall_mem_cons.mpr ⟨over_piece (h t (by simp [Forest.flatten])) hbelow hp,
      ihr (fun u hu => h u (by simp [Forest.flatten, hu])) hqs⟩

theorem flatten_build (ts : List Token) : (Forest.build ts).flatten = ts := by
  have hsplit : ∀ (t : Token) (f : Forest), (f.split t).1.flatten ++ (f.split t).2.flatten = f.flatten := by
    intro t f
    induction f with
    | nil => rfl
    | cons u kids rest _ ih =>
      unfold Forest.split
      split
      · simp [Forest.flatten, ← ih]
      · simp [Forest.flatten]
  induction ts with
  | nil => rfl
  | cons t ts ih =>
    change t :: ((((Forest.build ts).split t).1).flatten ++ (((Forest.build ts).split t).2).flatten) = _
    rw [hsplit, ih]

/-- No scalar that is read contains a line break. -/
theorem over_read {text : String} {n : Node} (h : read text = some n) :
    n.Over fun c => isBreak c = false := by
  obtain ⟨ps, hps, hjoin⟩ := Option.bind_eq_some_iff.mp h
  refine over_join (over_forest (fun t ht => ?_) hps) hjoin
  rw [flatten_build] at ht
  obtain ⟨l, hl, ht⟩ := List.mem_flatMap.mp ht
  exact over_expand (forall_mem_splitOnP _ l hl) t ht

end Characters
end Blocks
