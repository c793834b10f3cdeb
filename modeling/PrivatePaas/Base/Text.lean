import Mathlib.Data.String.Basic
import Mathlib.Tactic.Linarith

/-!
# Go's string functions

`strings.Split` at one character, `strings.TrimSpace`, `strconv.Itoa` and
`strconv.Atoi`, on Lean strings. `atoi` answers as Go does when the error is
dropped: zero for a text that is no number, the nearest `int64` for one that is
out of range.
-/

namespace Text
set_option autoImplicit false

/-- `strings.Split(s, c)` -/
def split (c : Char) (s : String) : List String := (s.toList.splitOn c).map String.ofList

/-- `unicode.IsSpace` -/
def isSpace (c : Char) : Bool :=
  c ∈ ['\t', '\n', '\x0b', '\x0c', '\r', ' ', '\u0085', '\u00a0', '\u1680', '\u2028', '\u2029',
    '\u202f', '\u205f', '\u3000'] ∨ (0x2000 ≤ c.toNat ∧ c.toNat ≤ 0x200a)

/-- `strings.TrimSpace` -/
def trimSpace (s : String) : String :=
  String.ofList ((s.toList.dropWhile isSpace).reverse.dropWhile isSpace).reverse

/-- `strconv.Itoa` -/
def itoa (n : Int) : String := toString n

def digits? (cs : List Char) : Option Nat :=
  if cs ≠ [] ∧ cs.all Char.isDigit then some (Nat.ofDigitChars 10 cs 0) else none

def maxInt : Nat := 2 ^ 63 - 1

/-- `strconv.Atoi`: the value, and whether the error is nil. -/
def atoi (s : String) : Int × Bool :=
  match s.toList with
  | '-' :: cs =>
    match digits? cs with
    | none => (0, false)
    | some n => if n ≤ maxInt + 1 then (-n, true) else (-(maxInt + 1 : Nat), false)
  | cs =>
    match digits? (if cs.head? = some '+' then cs.tail else cs) with
    | none => (0, false)
    | some n => if n ≤ maxInt then (n, true) else (maxInt, false)

theorem itoa_natCast (n : Nat) : (itoa n).toList = Nat.toDigits 10 n := by
  have h : itoa n = n.repr := rfl
  rw [h, Nat.toList_repr]

theorem isDigit_of_mem_itoa {n : Nat} {c : Char} (h : c ∈ (itoa n).toList) : c.isDigit := by
  rw [itoa_natCast] at h
  exact Nat.isDigit_of_mem_toDigits (by decide) (by decide) h

theorem digits?_itoa (n : Nat) : digits? (itoa n).toList = some n := by
  have hne : (itoa n).toList ≠ [] := by
    rw [itoa_natCast]
    exact Nat.toDigits_ne_nil
  have hall : (itoa n).toList.all Char.isDigit = true :=
    List.all_eq_true.mpr fun c hc => isDigit_of_mem_itoa hc
  have hval : Nat.ofDigitChars 10 (itoa n).toList 0 = n := by
    rw [itoa_natCast]
    exact Nat.ofDigitChars_ten_toDigits
  simp [digits?, hne, hall, hval]

/-- A natural number comes back from its decimal form. -/
theorem atoi_itoa {n : Nat} (h : n ≤ maxInt) : atoi (itoa n) = ((n : Int), true) := by
  have hd := digits?_itoa n
  have hdigit : ∀ c ∈ (itoa n).toList, c.isDigit := fun c hc => isDigit_of_mem_itoa hc
  unfold atoi
  cases hs : (itoa n).toList with
  | nil => simp [hs, digits?] at hd
  | cons c cs =>
    rw [hs] at hd hdigit
    have hc : c.isDigit := hdigit c List.mem_cons_self
    split
    · rename_i ds heq
      obtain ⟨rfl, rfl⟩ := List.cons.inj heq
      exact absurd hc (by decide)
    · have hplus : c ≠ '+' := by
        rintro rfl
        exact absurd hc (by decide)
      simp [hplus, hd, h]

/-- A text that has an integer value has no other one. -/
theorem eq_of_atoi_itoa {n : Nat} {k : Int} (h : atoi (itoa n) = (k, true)) : k = n := by
  by_cases hn : n ≤ maxInt
  · rw [atoi_itoa hn] at h
    exact (Prod.mk.inj h).1.symm
  · have hd := digits?_itoa n
    have hdigit : ∀ c ∈ (itoa n).toList, c.isDigit := fun c hc => isDigit_of_mem_itoa hc
    unfold atoi at h
    cases hs : (itoa n).toList with
    | nil => simp [hs, digits?] at hd
    | cons c cs =>
      rw [hs] at hd hdigit h
      have hc : c.isDigit := hdigit c List.mem_cons_self
      split at h
      · rename_i ds heq
        obtain ⟨rfl, rfl⟩ := List.cons.inj heq
        exact absurd hc (by decide)
      · have hplus : c ≠ '+' := by
          rintro rfl
          exact absurd hc (by decide)
        simp [hplus, hd, hn] at h

theorem itoa_injective {m n : Nat} (h : itoa m = itoa n) : m = n := by
  have hm := digits?_itoa m
  rw [h, digits?_itoa n] at hm
  exact (Option.some.inj hm).symm

/-- What a positive decimal begins with is nothing or a positive decimal. -/
theorem take_toDigits {n : Nat} (hn : 0 < n) (j : Nat) : (Nat.toDigits 10 n).take j = [] ∨
    ∃ m, 0 < m ∧ m ≤ n ∧ (Nat.toDigits 10 n).take j = Nat.toDigits 10 m := by
  induction n using Nat.strongRecOn with
  | ind n ih =>
    by_cases hj : (Nat.toDigits 10 n).length ≤ j
    · exact .inr ⟨n, hn, le_rfl, List.take_of_length_le hj⟩
    rw [not_le] at hj
    by_cases hsmall : n < 10
    · rw [Nat.toDigits_of_lt_base hsmall, List.length_singleton] at hj
      obtain rfl : j = 0 := by omega
      exact .inl List.take_zero
    · have hsplit := Nat.toDigits_of_base_le (b := 10) (by decide) (Nat.le_of_not_lt hsmall)
      rw [hsplit, List.length_append, List.length_singleton] at hj
      rw [hsplit, List.take_append_of_le_length (by omega)]
      rcases ih (n / 10) (by omega) (by omega) with h | ⟨m, hm, hle, h⟩
      · exact .inl h
      · exact .inr ⟨m, hm, by omega, h⟩

theorem dropWhile_eq_self {cs : List Char} (h : ∀ c ∈ cs, isSpace c = false) :
    cs.dropWhile isSpace = cs := by
  cases cs with
  | nil => rfl
  | cons c cs => simp [h c List.mem_cons_self]

/-- A text without any space is its own trimmed form. -/
theorem trimSpace_eq_self {s : String} (h : ∀ c ∈ s.toList, isSpace c = false) :
    trimSpace s = s := by
  have hr : ∀ c ∈ s.toList.reverse, isSpace c = false :=
    fun c hc => h c (List.mem_reverse.mp hc)
  rw [trimSpace, dropWhile_eq_self h, dropWhile_eq_self hr, List.reverse_reverse,
    String.ofList_toList]

theorem isSpace_of_isDigit {c : Char} (h : c.isDigit) : isSpace c = false := by
  have hlo : 48 ≤ c.toNat := by
    have := h
    simp only [Char.isDigit, Bool.and_eq_true, decide_eq_true_eq] at this
    exact this.1
  have hhi : c.toNat ≤ 57 := by
    have := h
    simp only [Char.isDigit, Bool.and_eq_true, decide_eq_true_eq] at this
    exact this.2
  simp only [isSpace, List.mem_cons, List.not_mem_nil, or_false, decide_eq_false_iff_not]
  rintro (hm | hm)
  · rcases hm with rfl | rfl | rfl | rfl | rfl | rfl | rfl | rfl | rfl | rfl | rfl | rfl |
      rfl | rfl <;> revert hlo hhi <;> decide
  · omega

theorem trimSpace_itoa (n : Nat) : trimSpace (itoa n) = itoa n :=
  trimSpace_eq_self fun _ hc => isSpace_of_isDigit (isDigit_of_mem_itoa hc)

theorem split_of_notMem {c : Char} {s : String} (h : c ∉ s.toList) : split c s = [s] := by
  rw [split, List.splitOn_eq_singleton h]
  simp

/-- A separator ends the pieces of what stands before it. -/
theorem split_append_cons {c : Char} (s : String) {t u : String} (ht : t.toList = c :: u.toList) :
    split c (s ++ t) = split c s ++ split c u := by
  rw [split, split, split, String.toList_append, ht, List.splitOn_append_cons_self, List.map_append]

theorem getLast?_splitOn_append {c : Char} (cs ds : List Char) (hd : c ∉ ds) :
    ∃ es, ((cs ++ ds).splitOn c).getLast? = some (es ++ ds) := by
  induction cs with
  | nil => exact ⟨[], by simp [List.splitOn_eq_singleton hd]⟩
  | cons x cs ih =>
    obtain ⟨es, hes⟩ := ih
    rw [List.cons_append, List.splitOn_cons_eq_if_modifyHead]
    split
    · refine ⟨es, ?_⟩
      rw [List.getLast?_cons, hes]
      rfl
    · cases hl : (cs ++ ds).splitOn c with
      | nil => exact absurd hl (List.splitOn_ne_nil c _)
      | cons y ys =>
        rw [hl] at hes
        cases ys with
        | nil =>
          obtain rfl : y = es ++ ds := by simpa using hes
          exact ⟨x :: es, by simp⟩
        | cons z zs => exact ⟨es, by simpa [List.getLast?_cons_cons] using hes⟩

/-- The last piece of a text keeps an ending without the separator. -/
theorem split_append {c : Char} (s t : String) (ht : c ∉ t.toList) :
    ∃ ds u, split c (s ++ t) = ds ++ [u ++ t] := by
  obtain ⟨es, hes⟩ := getLast?_splitOn_append s.toList t.toList ht
  have hl : (split c (s ++ t)).getLast? = some (String.ofList es ++ t) := by
    rw [split, List.getLast?_map, String.toList_append, hes]
    simp [String.ofList_append]
  exact ⟨_, _, (List.dropLast_append_getLast? _ hl).symm⟩

/-- Two endings of one text are endings of each other. -/
theorem suffix_comparable {s t u : String} (hs : s.toList <:+ u.toList) (ht : t.toList <:+ u.toList) :
    s.toList <:+ t.toList ∨ t.toList <:+ s.toList :=
  List.suffix_or_suffix_of_suffix hs ht

theorem suffix_append (s t : String) : t.toList <:+ (s ++ t).toList := by
  rw [String.toList_append]
  exact List.suffix_append _ _

end Text
