import Mathlib.Data.List.Forall2
import PrivatePaas.Data

/-!
# Server strings

`UpdateLbConfig` splits a server string at every colon and keeps two pieces. The
endpoint is the one that is meant where there is no colon, or a single one with a
number behind it.
-/

namespace Text
set_option autoImplicit false

theorem length_split (c : Char) (s : String) : (split c s).length = s.toList.count c + 1 := by
  rw [split, List.length_map]
  induction s.toList with
  | nil => rfl
  | cons x cs ih =>
    rw [List.splitOn_cons_eq_if_modifyHead, List.count_cons]
    split <;> simp [ih]

/-- A decimal numeral, signed or not, and its value. -/
def Numeral (s : String) (k : Int) : Prop :=
  ∃ ds n, digits? ds = some n ∧
    (s.toList = ds ∧ k = n ∨ s.toList = '+' :: ds ∧ k = n ∨ s.toList = '-' :: ds ∧ k = -(n : Int))

theorem digits?_cons {c : Char} (cs : List Char) (h : c.isDigit = false) : digits? (c :: cs) = none := by
  simp [digits?, h]

theorem isDigit_of_digits? {ds : List Char} {n : Nat} (h : digits? ds = some n) :
    ds ≠ [] ∧ ∀ c ∈ ds, c.isDigit := by
  unfold digits? at h
  split at h
  · rename_i hx
    exact ⟨hx.1, List.all_eq_true.mp hx.2⟩
  · cases h

theorem numeral_minus {s : String} {cs : List Char} {k : Int} (hs : s.toList = '-' :: cs) :
    Numeral s k ↔ ∃ n, digits? cs = some n ∧ k = -(n : Int) := by
  constructor
  · intro ⟨ds, n, hd, h⟩
    rw [hs] at h
    rcases h with ⟨rfl, _⟩ | ⟨h, _⟩ | ⟨h, rfl⟩
    · rw [digits?_cons cs (by decide)] at hd
      cases hd
    · exact absurd (List.cons.inj h).1 (by decide)
    · exact ⟨n, (List.cons.inj h).2 ▸ hd, rfl⟩
  · intro ⟨n, hd, hk⟩
    exact ⟨cs, n, hd, .inr (.inr ⟨hs, hk⟩)⟩

theorem numeral_unsigned {s : String} {k : Int} (hs : s.toList.head? ≠ some '-') :
    Numeral s k ↔ ∃ n, digits? (if s.toList.head? = some '+' then s.toList.tail else s.toList) = some n ∧
      k = (n : Int) := by
  constructor
  · intro ⟨ds, n, hd, h⟩
    rcases h with ⟨h, rfl⟩ | ⟨h, rfl⟩ | ⟨h, _⟩
    · refine ⟨n, ?_, rfl⟩
      rw [if_neg, h]
      · exact hd
      · intro hplus
        obtain ⟨cs, hcs⟩ := List.head?_eq_some_iff.mp hplus
        rw [← h, hcs, digits?_cons cs (by decide)] at hd
        cases hd
    · refine ⟨n, ?_, rfl⟩
      rw [h]
      exact hd
    · rw [h] at hs
      exact absurd rfl hs
  · intro ⟨n, hd, hk⟩
    split at hd
    · rename_i hplus
      obtain ⟨cs, hcs⟩ := List.head?_eq_some_iff.mp hplus
      rw [hcs] at hd
      exact ⟨cs, n, hd, .inr (.inl ⟨hcs, hk⟩)⟩
    · exact ⟨_, n, hd, .inl ⟨rfl, hk⟩⟩

/-- `Atoi` reads the numerals whose value is an `int64`, and nothing else. -/
theorem atoi_eq_iff {s : String} {k : Int} :
    atoi s = (k, true) ↔ Numeral s k ∧ -(2 ^ 63 : Int) ≤ k ∧ k < 2 ^ 63 := by
  unfold atoi
  split
  · rename_i cs hs
    rw [numeral_minus hs]
    cases digits? cs with
    | none => simp
    | some n =>
      simp only [Option.some.injEq, exists_eq_left']
      by_cases hn : n ≤ maxInt + 1
      · rw [if_pos hn]
        simp only [Prod.mk.injEq, and_true]
        unfold maxInt at hn
        omega
      · rw [if_neg hn]
        simp only [Prod.mk.injEq, Bool.false_eq_true, and_false, false_iff]
        unfold maxInt at hn
        omega
  · rename_i hs
    have hhead : s.toList.head? ≠ some '-' := by
      intro hminus
      obtain ⟨cs, hcs⟩ := List.head?_eq_some_iff.mp hminus
      exact hs cs hcs
    rw [numeral_unsigned hhead]
    cases digits? (if s.toList.head? = some '+' then s.toList.tail else s.toList) with
    | none => simp
    | some n =>
      simp only [Option.some.injEq, exists_eq_left']
      by_cases hn : n ≤ maxInt
      · rw [if_pos hn]
        simp only [Prod.mk.injEq, and_true]
        unfold maxInt at hn
        omega
      · rw [if_neg hn]
        simp only [Prod.mk.injEq, Bool.false_eq_true, and_false, false_iff]
        unfold maxInt at hn
        omega

theorem Numeral.colon {s : String} {k : Int} (h : Numeral s k) : ':' ∉ s.toList := by
  obtain ⟨ds, n, hd, h⟩ := h
  have hcolon : ':' ∉ ds := fun hc => absurd ((isDigit_of_digits? hd).2 _ hc) (by decide)
  rcases h with ⟨h, _⟩ | ⟨h, _⟩ | ⟨h, _⟩ <;> rw [h] <;> simp [hcolon]

/-- A text with a colon, cut at the first one. -/
theorem exists_of_colon {s : String} (h : ':' ∈ s.toList) :
    ∃ a t, s = a ++ ":" ++ t ∧ ':' ∉ a.toList := by
  obtain ⟨as, bs, hs, ha⟩ := List.eq_append_cons_of_mem h
  refine ⟨String.ofList as, String.ofList bs, ?_, by rwa [String.toList_ofList]⟩
  rw [← String.toList_inj, hs]
  simp

theorem split_colon {a : String} (t : String) (ha : ':' ∉ a.toList) :
    split ':' (a ++ ":" ++ t) = a :: split ':' t := by
  rw [String.append_assoc, split_append_cons (u := t) a (by rw [String.toList_append]; rfl),
    split_of_notMem ha]
  rfl

/-- Two cuts at the first colon are the same. -/
theorem colon_inj {a a' t t' : String} (ha : ':' ∉ a.toList) (ha' : ':' ∉ a'.toList)
    (h : a ++ ":" ++ t = a' ++ ":" ++ t') : a = a' ∧ t = t' := by
  have hs := congrArg (split ':') h
  rw [split_colon t ha, split_colon t' ha'] at hs
  obtain rfl := (List.cons.inj hs).1
  exact ⟨rfl, (String.append_right_inj _).mp h⟩

theorem colon_mem (a t : String) : ':' ∈ (a ++ ":" ++ t).toList := by
  simp

end Text

namespace PrivatePaas
set_option autoImplicit false
open Text PrivatePaas.Parser

namespace Endpoint

/-- A host name or a dotted IPv4 address. -/
def HostName (h : String) : Prop :=
  h ≠ "" ∧ ∀ c ∈ h.toList, c.isAlphanum = true ∨ c ∈ ['-', '_', '.']

/-- A group of an IPv6 address. -/
def Group (g : String) : Prop :=
  g ≠ "" ∧ g.length ≤ 4 ∧ ∀ c ∈ g.toList, c.isDigit = true ∨ c.toLower ∈ ['a', 'b', 'c', 'd', 'e', 'f']

/-- Groups for so many words; the last two may be in dotted form. -/
inductive Groups : List String → Nat → Prop where
  | nil : Groups [] 0
  | cons {g : String} {gs : List String} {n : Nat} : Group g → Groups gs n → Groups (g :: gs) (n + 1)
  | dotted (a b c d : Fin 256) :
      Groups [itoa a ++ "." ++ itoa b ++ "." ++ itoa c ++ "." ++ itoa d] 2

def pieces (s : String) : List String := if s = "" then [] else split ':' s

/-- Eight words, or fewer with one gap. -/
def IPv6 (s : String) : Prop :=
  Groups (split ':' s) 8 ∨ ∃ l r m n, s = l ++ "::" ++ r ∧ (∀ g ∈ pieces l, Group g) ∧
    Groups (pieces l) m ∧ Groups (pieces r) n ∧ m + n ≤ 7

def Host (h : String) : Prop := HostName h ∨ ∃ s, h = "[" ++ s ++ "]" ∧ IPv6 s

/-- What a server string in one of the two forms means. -/
inductive Denotes : String → EnvoyServer → Prop where
  | withPort {h : String} {p : Nat} (hh : Host h) (h1 : 1 ≤ p) (h2 : p ≤ 65535) :
      Denotes (h ++ ":" ++ itoa p) ⟨h, p⟩
  | bare {h : String} (hh : Host h) : Denotes h ⟨h, 80⟩

/-- The endpoint has the whole host and the port that stands in the text. -/
def Undistorted (srv : String) (e : EnvoyServer) : Prop :=
  srv = e.address ∧ e.port = 80 ∨ ∃ t, srv = e.address ++ ":" ++ t ∧ Numeral t e.port

/-- The endpoint is what is meant, or, where nothing is, at least not another one. -/
def Decoded (srv : String) (e : EnvoyServer) : Prop :=
  (∀ e', Denotes srv e' → e = e') ∧ ((∀ e', ¬ Denotes srv e') → Undistorted srv e)

/-- No colon, or one colon and behind it a number of 64 bits. -/
def Readable (srv : String) : Prop :=
  ':' ∉ srv.toList ∨ ∃ a t k, srv = a ++ ":" ++ t ∧ ':' ∉ a.toList ∧ Numeral t k ∧
    -(2 ^ 63 : Int) ≤ k ∧ k < 2 ^ 63

theorem HostName.colon {h : String} (hh : HostName h) : ':' ∉ h.toList := by
  intro hc
  rcases hh.2 _ hc with h | h <;> revert h <;> decide

theorem Groups.length {gs : List String} {n : Nat} (h : Groups gs n) : n ≤ gs.length + 1 := by
  induction h with
  | nil => exact Nat.zero_le _
  | cons hg _ ih => simp only [List.length_cons]; omega
  | dotted a b c d => simp

theorem IPv6.colons {s : String} (h : IPv6 s) : 2 ≤ s.toList.count ':' := by
  rcases h with h | ⟨l, r, m, n, rfl, _⟩
  · have := h.length
    rw [length_split] at this
    omega
  · have hgap : "::".toList.count ':' = 2 := by decide
    rw [String.toList_append, String.toList_append, List.count_append, List.count_append, hgap]
    omega

/-- A host has no colon, or two. -/
theorem Host.colons {h : String} (hh : Host h) : ':' ∉ h.toList ∨ 2 ≤ h.toList.count ':' := by
  rcases hh with hh | ⟨s, rfl, hs⟩
  · exact .inl hh.colon
  · refine .inr (hs.colons.trans ?_)
    rw [String.toList_append, String.toList_append, List.count_append, List.count_append]
    omega

theorem parseServer_bare {srv : String} (h : ':' ∉ srv.toList) : parseServer srv = ⟨srv, 80⟩ := by
  rw [parseServer, split_of_notMem h]

/-- The first piece is the host, whatever stands behind it. -/
theorem parseServer_address {a : String} (t : String) (ha : ':' ∉ a.toList) :
    (parseServer (a ++ ":" ++ t)).address = a := by
  rw [parseServer, split_colon t ha]
  split
  · rename_i heq
    cases heq
  · rename_i heq
    exact ((List.cons.inj heq).1).symm
  · rename_i heq
    exact ((List.cons.inj heq).1).symm

theorem parseServer_port {a t : String} (ha : ':' ∉ a.toList) (ht : ':' ∉ t.toList) :
    parseServer (a ++ ":" ++ t) = ⟨a, match atoi t with | (n, true) => n | (_, false) => 80⟩ := by
  cases hn : atoi t with
  | mk n valid => cases valid <;> simp only [parseServer, split_colon t ha, split_of_notMem ht, hn]

theorem parseServer_numeral {a t : String} {k : Int} (ha : ':' ∉ a.toList) (ht : Numeral t k)
    (h : -(2 ^ 63 : Int) ≤ k ∧ k < 2 ^ 63) : parseServer (a ++ ":" ++ t) = ⟨a, k⟩ := by
  rw [parseServer_port ha ht.colon, atoi_eq_iff.mpr ⟨ht, h⟩]

theorem numeral_itoa (n : Nat) : Numeral (itoa n) n := ⟨_, n, digits?_itoa n, .inl ⟨rfl, rfl⟩⟩

theorem Readable.decoded {srv : String} (h : Readable srv) : Decoded srv (parseServer srv) := by
  rcases h with h | ⟨a, t, k, rfl, ha, ht, hk⟩
  · rw [parseServer_bare h]
    refine ⟨fun e' he => ?_, fun _ => .inl ⟨rfl, rfl⟩⟩
    cases he with
    | withPort => exact absurd (colon_mem _ _) h
    | bare => rfl
  · rw [parseServer_numeral ha ht hk]
    have hcount : (a ++ ":" ++ t).toList.count ':' = 1 := by
      rw [String.toList_append, String.toList_append, List.count_append, List.count_append,
        List.count_eq_zero.mpr ha, List.count_eq_zero.mpr ht.colon]
      decide
    refine ⟨fun e' he => ?_, fun _ => .inr ⟨t, rfl, ht⟩⟩
    generalize hsrv : a ++ ":" ++ t = srv at he
    cases he with
    | @withPort h p hh h1 h2 =>
      have hh : ':' ∉ h.toList := by
        refine hh.colons.resolve_right fun h2 => ?_
        rw [hsrv, String.toList_append, String.toList_append, List.count_append, List.count_append] at hcount
        have hone : ":".toList.count ':' = 1 := by decide
        omega
      obtain ⟨rfl, rfl⟩ := colon_inj ha hh hsrv
      have h1 := atoi_eq_iff.mpr ⟨ht, hk⟩
      have h2 := atoi_eq_iff.mpr ⟨numeral_itoa p, by omega, by omega⟩
      rw [h1] at h2
      rw [(Prod.mk.inj h2).1]
    | bare hh =>
      subst hsrv
      rcases hh.colons with hh | hh
      · exact absurd (colon_mem _ _) hh
      · omega

theorem Decoded.readable {srv : String} (h : Decoded srv (parseServer srv)) : Readable srv := by
  by_cases hc : ':' ∈ srv.toList
  · obtain ⟨a, t, rfl, ha⟩ := exists_of_colon hc
    have haddr := parseServer_address t ha
    by_cases hd : ∃ e', Denotes (a ++ ":" ++ t) e'
    · obtain ⟨e', he⟩ := hd
      have heq := h.1 e' he
      generalize hsrv : a ++ ":" ++ t = srv at he
      cases he with
      | @withPort name p hh h1 h2 =>
        rw [heq] at haddr
        obtain rfl : a = name := haddr.symm
        exact .inr ⟨a, itoa p, p, rfl, ha, numeral_itoa p, by omega, by omega⟩
      | bare hh =>
        subst hsrv
        rw [heq] at haddr
        have haddr : a ++ ":" ++ t = a := haddr
        rw [haddr] at hc
        exact absurd hc ha
    · rcases h.2 fun e' he => hd ⟨e', he⟩ with ⟨hs, _⟩ | ⟨t', hs, hnum⟩
      · rw [haddr] at hs
        rw [hs] at hc
        exact absurd hc ha
      · rw [haddr] at hs
        obtain ⟨_, rfl⟩ := colon_inj ha ha hs
        refine .inr ⟨a, t, _, rfl, ha, hnum, ?_⟩
        rw [parseServer_port ha hnum.colon]
        cases hat : atoi t with
        | mk k b =>
          cases b with
          | false =>
            change -(2 ^ 63 : Int) ≤ 80 ∧ (80 : Int) < 2 ^ 63
            decide
          | true => exact (atoi_eq_iff.mp hat).2
  · exact .inl hc

/-- The loop turns every server string of a fragment into the endpoint that it denotes, and
no other string into a wrong one, exactly where each is readable; what `CreateService`
writes for an address of the prefix always is. -/
theorem endpoints_decoded_iff (c : ServiceEnvoyConfig) :
    (List.Forall₂ Decoded c.servers (toEnvoyService c).servers ↔ ∀ srv ∈ c.servers, Readable srv) ∧
      ∀ ip ∈ hosts, parseServer (ip ++ ":8888") = ⟨ip, 8888⟩ := by
  constructor
  · rw [toEnvoyService, List.forall₂_map_right_iff, List.forall₂_same]
    exact forall₂_congr fun srv _ => ⟨Decoded.readable, Readable.decoded⟩
  · intro ip hip
    obtain ⟨n, _, rfl⟩ := mem_hosts.mp hip
    have hcolon : ':' ∉ (host n).toList := by
      simp only [host, String.toList_append, List.mem_append, not_or]
      exact ⟨by decide, fun hc => absurd (isDigit_of_mem_itoa hc) (by decide)⟩
    have hnum : Numeral "8888" 8888 := numeral_itoa 8888
    have hsplit : (host n ++ ":8888") = host n ++ ":" ++ "8888" := by
      rw [String.append_assoc]
      rfl
    rw [hsplit]
    exact parseServer_numeral hcolon hnum ⟨by decide, by decide⟩

/-- An upstream with a bracketed address. -/
def six : ServiceEnvoyConfig := ⟨"shop", ["[fd00::1]:8080"], 8082, "shop.local"⟩

/-- It is cut off at its first colon, and the port is the default. -/
theorem six_truncated : Denotes "[fd00::1]:8080" ⟨"[fd00::1]", 8080⟩ ∧
    (toEnvoyService six).servers = [⟨"[fd00", 80⟩] ∧
    ¬ List.Forall₂ Decoded six.servers (toEnvoyService six).servers := by
  have hgroup : ∀ g ∈ ["fd00", "1"], Group g := by
    intro g hg
    simp only [List.mem_cons, List.not_mem_nil, or_false] at hg
    have hall : ∀ s : String, s.toList.all (fun c => c.isDigit ∨ c.toLower ∈ ['a', 'b', 'c', 'd', 'e', 'f']) = true →
        ∀ c ∈ s.toList, c.isDigit = true ∨ c.toLower ∈ ['a', 'b', 'c', 'd', 'e', 'f'] :=
      fun s h c hc => of_decide_eq_true (List.all_eq_true.mp h c hc)
    rcases hg with rfl | rfl <;> exact ⟨by decide, by decide, hall _ (by decide)⟩
  have hhost : Host "[fd00::1]" := by
    refine .inr ⟨"fd00::1", by decide, .inr ⟨"fd00", "1", 1, 1, by decide, ?_, ?_, ?_, by decide⟩⟩
    · exact fun g hg => hgroup g (List.mem_cons.mpr (.inl (List.mem_singleton.mp hg)))
    · exact .cons (hgroup "fd00" List.mem_cons_self) .nil
    · exact .cons (hgroup "1" (List.mem_cons_of_mem _ List.mem_cons_self)) .nil
  have hdenotes : Denotes "[fd00::1]:8080" ⟨"[fd00::1]", 8080⟩ :=
    .withPort (p := 8080) hhost (by decide) (by decide)
  have hservers : (toEnvoyService six).servers = [⟨"[fd00", 80⟩] := by decide +kernel
  refine ⟨hdenotes, hservers, fun h => ?_⟩
  rw [hservers] at h
  have hdecoded := (List.forall₂_cons.mp h).1
  exact absurd (hdecoded.1 _ hdenotes) (by decide)

end Endpoint
end PrivatePaas
