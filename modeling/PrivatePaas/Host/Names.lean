import PrivatePaas.Host.Net

/-!
# The names of the interfaces

The kernel numbers a name with one `%d`, refuses any other percent sign and takes the
rest as it is. `vethNames` never has to cut a name off: nine bytes of the prefix, the last three
digits of the pid and what stands between them fit. So two pairs of names meet only
where the prefixes agree in nine bytes and the pids in three digits.
-/

namespace PrivatePaas
set_option autoImplicit false
open Text

@[simp] theorem bytes_append (s t : String) : bytes (s ++ t) = bytes s ++ bytes t := by
  simp [bytes]

theorem bytes_injective {s t : String} (h : bytes s = bytes t) : s = t :=
  String.toByteArray_inj.mp (ByteArray.ext (Array.toList_inj.mp h))

theorem bytes_eq (s : String) : bytes s = s.toList.flatMap String.utf8EncodeChar := by
  rw [bytes, ← String.utf8Encode_toList, List.utf8Encode, List.data_toByteArray]

/-- A decimal number has one byte for each digit. -/
theorem bytes_itoa (n : Nat) : bytes (itoa n) = (itoa n).toList.map fun c => c.val.toUInt8 := by
  rw [bytes_eq, List.map_eq_flatMap]
  apply List.flatMap_congr
  intro c hc
  have hd := isDigit_of_mem_itoa hc
  simp only [Char.isDigit, Bool.and_eq_true, decide_eq_true_eq] at hd
  have hsize : c.utf8Size = 1 := by
    rw [Char.utf8Size]
    grind
  rw [String.utf8EncodeChar_eq_singleton hsize]

theorem digit_of_mem_bytes_itoa {n : Nat} {b : UInt8} (h : b ∈ bytes (itoa n)) : 48 ≤ b ∧ b ≤ 57 := by
  rw [bytes_itoa] at h
  obtain ⟨c, hc, rfl⟩ := List.mem_map.mp h
  have hd := isDigit_of_mem_itoa hc
  simp only [Char.isDigit, Bool.and_eq_true, decide_eq_true_eq] at hd
  have hlo : 48 ≤ c.val.toNat := hd.1
  have hhi : c.val.toNat ≤ 57 := hd.2
  have hval : c.val.toUInt8.toNat = c.val.toNat := by
    rw [UInt32.toNat_toUInt8]
    omega
  rw [UInt8.le_iff_toNat_le, UInt8.le_iff_toNat_le, hval]
  exact ⟨hlo, hhi⟩

theorem accepted_digit {n : Nat} {b : UInt8} (h : b ∈ bytes (itoa n)) : b ∉ Net.refused ∧ b ≠ 37 := by
  have hd := digit_of_mem_bytes_itoa h
  constructor
  · intro hmem
    simp only [Net.refused, List.mem_cons, List.not_mem_nil, or_false] at hmem
    rcases hmem with rfl | rfl | rfl | rfl | rfl | rfl | rfl | rfl | rfl | rfl <;> exact absurd hd (by decide)
  · rintro rfl
    exact absurd hd (by decide)

theorem bytes_itoa_ne_nil (n : Nat) : bytes (itoa n) ≠ [] := by
  intro h
  have hlen := congrArg List.length h
  rw [bytes_itoa, List.length_map, List.length_nil, itoa_natCast] at hlen
  have := Nat.length_toDigits_pos (b := 10) (n := n)
  omega

namespace Net
variable {n : Net} {name a : IfName} {i : Nat}

theorem validName_iff : validName name = true ↔ wellFormed name = true ∧ 37 ∉ name := by
  simp [validName]

/-- A pattern with its number is what stands before, the number, and what stands behind. -/
theorem numbered_spec (h : numbered name i = some a) : ∃ front rest,
    name = front ++ 37 :: 100 :: rest ∧ 37 ∉ front ∧ 37 ∉ rest ∧
      a = (front ++ bytes (itoa i) ++ rest).take 15 := by
  have hname : name.takeWhile (· ≠ 37) ++ name.dropWhile (· ≠ 37) = name := List.takeWhile_append_dropWhile
  have hfront : 37 ∉ name.takeWhile (· ≠ 37) := by
    intro hmem
    have := List.all_eq_true.mp List.all_takeWhile 37 hmem
    simp at this
  unfold numbered at h
  split at h
  · rename_i b rest hdrop
    rw [hdrop] at hname
    have hb : b = 37 := by
      have := List.head?_dropWhile_not (fun b : UInt8 => decide (b ≠ 37)) name
      rw [hdrop] at this
      simpa using this
    split at h
    · cases h
    · rename_i hrest
      rw [hb] at hname
      exact ⟨_, rest, hname.symm, hfront, hrest, (Option.some.inj h).symm⟩
  · cases h

/-- With its number a pattern is a name that is taken as it is. -/
theorem validName_numbered (hw : wellFormed name = true) (h : numbered name i = some a) :
    validName a = true := by
  obtain ⟨front, rest, hname, hfront, hrest, ha⟩ := numbered_spec h
  simp only [wellFormed, decide_eq_true_eq, List.all_eq_true] at hw
  obtain ⟨_, hlen, _, _, hall⟩ := hw
  have hlong : front.length < 15 := by
    rw [hname, List.length_append, List.length_cons, List.length_cons] at hlen
    omega
  obtain ⟨d, ds, hds⟩ := List.exists_cons_of_ne_nil (bytes_itoa_ne_nil i)
  have hdigit : 48 ≤ d ∧ d ≤ 57 := digit_of_mem_bytes_itoa (n := i) (by rw [hds]; exact List.mem_cons_self)
  -- the first digit is not cut off, so the name is neither empty nor a dot or two
  have hd : d ∈ a := by
    rw [ha, hds, List.append_assoc, List.take_append, List.mem_append]
    right
    rw [List.cons_append, List.take_cons (by omega)]
    exact List.mem_cons_self
  have hbyte : ∀ b ∈ a, b ∉ refused ∧ b ≠ 37 := by
    intro b hb
    rw [ha] at hb
    rcases List.mem_append.mp (List.mem_of_mem_take hb) with hb | hb
    · rcases List.mem_append.mp hb with hb | hb
      · have hmem : b ∈ name := by
          rw [hname]
          exact List.mem_append_left _ hb
        exact ⟨hall b hmem, fun h37 => hfront (h37 ▸ hb)⟩
      · exact accepted_digit hb
    · have hmem : b ∈ name := by
        rw [hname]
        exact List.mem_append_right _ (List.mem_cons_of_mem _ (List.mem_cons_of_mem _ hb))
      exact ⟨hall b hmem, fun h37 => hrest (h37 ▸ hb)⟩
  refine validName_iff.mpr ⟨?_, fun hmem => (hbyte 37 hmem).2 rfl⟩
  simp only [wellFormed, decide_eq_true_eq, List.all_eq_true]
  refine ⟨List.ne_nil_of_mem hd, ?_, ?_, ?_, fun b hb => (hbyte b hb).1⟩
  · rw [ha, List.length_take]
    omega
  · rintro rfl
    rw [show bytes "." = [46] from rfl, List.mem_singleton] at hd
    subst d
    exact absurd hdigit (by decide)
  · rintro rfl
    rw [show bytes ".." = [46, 46] from rfl] at hd
    simp only [List.mem_cons, List.not_mem_nil, or_false, or_self] at hd
    subst d
    exact absurd hdigit (by decide)

/-- What a new link is called is a name taken as it is, and free. -/
theorem assign_spec (h : n.assign name = some a) : validName a = true ∧ n.find 0 a = none := by
  unfold assign at h
  split at h
  · rename_i hw
    split at h
    · have hfree := List.find?_some h
      obtain ⟨i, _, hi⟩ := List.mem_filterMap.mp (List.mem_of_find?_eq_some h)
      exact ⟨validName_numbered hw hi, Option.isNone_iff_eq_none.mp hfree⟩
    · rename_i hplain
      split at h
      · rename_i hfree
        obtain rfl := Option.some.inj h
        exact ⟨validName_iff.mpr ⟨hw, hplain⟩, Option.isNone_iff_eq_none.mp hfree⟩
      · cases h
  · cases h

theorem assign_of_validName (hv : validName name = true) (hf : n.find 0 name = none) :
    n.assign name = some name := by
  obtain ⟨hw, hplain⟩ := validName_iff.mp hv
  rw [assign, if_pos hw, if_neg hplain, hf]
  rfl

/-- A percent sign that is no `%d` is refused, a pattern gets the first free number. -/
example : ({ links := [{ name := bytes "v-0_b", ns := 0, pair := 1 }] } : Net).assign (bytes "v-50%off_b") = none ∧
    ({ links := [{ name := bytes "v-0_b", ns := 0, pair := 1 }] } : Net).assign (bytes "v-%d_b") =
      some (bytes "v-1_b") := by decide

/-- A number comes behind what a pattern begins with. -/
theorem assign_begins (h : n.assign name = some a) (hv : bytes "v-" <+: name) : bytes "v-" <+: a := by
  have hbytes : bytes "v-" = [118, 45] := rfl
  rw [hbytes] at hv ⊢
  unfold assign at h
  split at h
  · split at h
    · obtain ⟨i, _, hi⟩ := List.mem_filterMap.mp (List.mem_of_find?_eq_some h)
      obtain ⟨front, rest, rfl, _, _, rfl⟩ := numbered_spec hi
      obtain ⟨tail, htail⟩ := hv
      rcases front with _ | ⟨x, _ | ⟨y, front⟩⟩
      · simp at htail
      · simp at htail
      · simp only [List.cons_append, List.nil_append, List.cons.injEq] at htail
        simp [← htail.1, ← htail.2.1]
    · split at h
      · obtain rfl := Option.some.inj h
        exact hv
      · cases h
  · cases h

end Net

namespace Network

/-- The prefix, an underscore and the last digits of the pid. -/
def vethBase (vethNamePrefix : IfName) (pid : Nat) : IfName :=
  vethNamePrefix.take 9 ++ 95 :: bytes (itoa (pid % 1000 : Nat))

theorem bytes_itoa_small {n : Nat} (h : n < 1000) :
    (bytes (itoa n)).length ≤ 3 ∧ 95 ∉ bytes (itoa n) := by
  have hlen : (itoa n).length ≤ 3 := (Nat.length_repr_le_iff (by omega)).mpr h
  refine ⟨?_, fun hmem => absurd (digit_of_mem_bytes_itoa hmem) (by decide)⟩
  rw [bytes_itoa, List.length_map, String.length_toList]
  exact hlen

theorem vethBase_length (pre : IfName) (pid : Nat) : (vethBase pre pid).length ≤ 13 := by
  have hd := (bytes_itoa_small (Nat.mod_lt pid (by omega : 0 < 1000))).1
  have ht := List.length_take_le 9 pre
  simp only [vethBase, List.length_append, List.length_cons]
  omega

theorem vethNames_eq (pre : IfName) (pid : Nat) :
    vethNames pre pid = (vethBase pre pid ++ [95, 110], vethBase pre pid ++ [95, 98]) := by
  have hl := vethBase_length pre pid
  have hb : pre.take 9 ++ bytes "_" ++ bytes (itoa (pid % 1000 : Nat)) = vethBase pre pid := by
    rw [vethBase, List.append_assoc]
    rfl
  have hn : bytes "_n" = [95, 110] := rfl
  have hout : bytes "_b" = [95, 98] := rfl
  simp only [vethNames, hb, hn, hout]
  rw [List.take_of_length_le, List.take_of_length_le] <;> simp <;> omega

theorem vethNames_ne (pre pre' : IfName) (pid pid' : Nat) :
    (vethNames pre pid).1 ≠ (vethNames pre' pid').2 := by
  intro h
  rw [vethNames_eq, vethNames_eq] at h
  have := congrArg List.getLast? h
  simp at this

theorem vethBase_inj {pre pre' : IfName} {pid pid' : Nat} :
    vethBase pre pid = vethBase pre' pid' ↔ pre.take 9 = pre'.take 9 ∧ pid % 1000 = pid' % 1000 := by
  constructor
  · intro h
    have hd := (bytes_itoa_small (Nat.mod_lt pid (by omega : 0 < 1000))).2
    have hd' := (bytes_itoa_small (Nat.mod_lt pid' (by omega : 0 < 1000))).2
    -- the last underscore is where the digits begin
    have digits : ∀ (xs ds : IfName), 95 ∉ ds →
        (xs ++ 95 :: ds).reverse.takeWhile (· ≠ 95) = ds.reverse := by
      intro xs ds hds
      rw [List.reverse_append, List.reverse_cons, List.append_assoc]
      rw [List.takeWhile_append_of_pos]
      · simp
      · intro b hb
        have hne : b ≠ 95 := by
          rintro rfl
          exact hds (List.mem_reverse.mp hb)
        simpa using hne
    have hrev := congrArg (fun s => s.reverse.takeWhile (· ≠ 95)) h
    simp only [vethBase] at hrev
    rw [digits _ _ hd, digits _ _ hd', List.reverse_inj] at hrev
    have hlen := congrArg List.length h
    simp only [vethBase, hrev, List.length_append, List.length_cons] at hlen
    obtain ⟨hpre, _⟩ := List.append_inj h (by omega)
    refine ⟨hpre, ?_⟩
    have := itoa_injective (bytes_injective hrev)
    omega
  · intro h
    rw [vethBase, vethBase, h.1, h.2]

/-- The bridge ends of two calls have one name. -/
theorem vethNames_snd_inj {pre pre' : IfName} {pid pid' : Nat} :
    (vethNames pre pid).2 = (vethNames pre' pid').2 ↔
      pre.take 9 = pre'.take 9 ∧ pid % 1000 = pid' % 1000 := by
  rw [vethNames_eq, vethNames_eq, List.append_left_inj, vethBase_inj]

/-- Whether the kernel takes the names as they are is seen from the nine bytes. -/
theorem validName_vethBase (pre : IfName) (pid : Nat) {x : UInt8} (hx : x ∉ Net.refused ∧ x ≠ 37) :
    Net.validName (vethBase pre pid ++ [95, x]) = true ↔ ∀ b ∈ pre.take 9, b ∉ Net.refused ∧ b ≠ 37 := by
  have hlen := vethBase_length pre pid
  have hdot : vethBase pre pid ++ [95, x] ≠ bytes "." ∧ vethBase pre pid ++ [95, x] ≠ bytes ".." := by
    have h1 : bytes "." = [46] := rfl
    have h2 : bytes ".." = [46, 46] := rfl
    rw [h1, h2]
    constructor
    · intro h
      have := congrArg List.length h
      simp at this
    · intro h
      have := congrArg List.getLast? (congrArg List.dropLast h)
      simp at this
  have hmem : ∀ b, b ∈ vethBase pre pid ++ [95, x] ↔
      b ∈ pre.take 9 ∨ b = 95 ∨ b ∈ bytes (itoa (pid % 1000 : Nat)) ∨ b = x := by
    intro b
    simp only [vethBase, List.mem_append, List.mem_cons, List.not_mem_nil, or_false]
    tauto
  rw [Net.validName_iff]
  simp only [Net.wellFormed, decide_eq_true_eq, List.all_eq_true]
  constructor
  · rintro ⟨⟨_, _, _, _, hall⟩, hplain⟩ b hb
    have hb' := (hmem b).mpr (.inl hb)
    exact ⟨hall b hb', fun h37 => hplain (h37 ▸ hb')⟩
  · intro hpre
    have hall : ∀ b ∈ vethBase pre pid ++ [95, x], b ∉ Net.refused ∧ b ≠ 37 := by
      intro b hb
      rcases (hmem b).mp hb with hb | rfl | hb | rfl
      · exact hpre b hb
      · decide
      · exact accepted_digit hb
      · exact hx
    refine ⟨⟨by simp, ?_, hdot.1, hdot.2, fun b hb => (hall b hb).1⟩, fun hm => (hall 37 hm).2 rfl⟩
    rw [List.length_append, List.length_cons, List.length_singleton]
    omega

/-- The kernel takes the one name if it takes the other. -/
theorem validName_vethNames (pre : IfName) (pid : Nat) :
    Net.validName (vethNames pre pid).1 = Net.validName (vethNames pre pid).2 := by
  rw [vethNames_eq, Bool.eq_iff_iff, validName_vethBase pre pid (by decide),
    validName_vethBase pre pid (by decide)]

/-- Whether the kernel takes the names does not depend on the pid. -/
theorem validName_vethNames_pid (pre : IfName) (pid pid' : Nat) :
    Net.validName (vethNames pre pid).2 = Net.validName (vethNames pre pid').2 := by
  rw [vethNames_eq, vethNames_eq, Bool.eq_iff_iff, validName_vethBase pre pid (by decide),
    validName_vethBase pre pid' (by decide)]

/-- The names of a workload or of Envoy begin with the same two bytes. -/
theorem vethNames_begin (name : String) (pid : Nat) :
    bytes "v-" <+: (vethNames (bytes ("v-" ++ name)) pid).1 ∧
      bytes "v-" <+: (vethNames (bytes ("v-" ++ name)) pid).2 := by
  have hv : bytes "v-" = [118, 45] := rfl
  rw [vethNames_eq, bytes_append, vethBase, hv]
  simp

/-- The names of a workload or of Envoy are not those of the bridge and the loopback link. -/
theorem vethNames_ne_fixed (name : String) (pid : Nat) :
    (vethNames (bytes ("v-" ++ name)) pid).1 ≠ br0 ∧ (vethNames (bytes ("v-" ++ name)) pid).2 ≠ br0 ∧
      (vethNames (bytes ("v-" ++ name)) pid).1 ≠ bytes "lo" := by
  have hv : bytes "v-" = [118, 45] := rfl
  have hbr : br0 = [98, 114, 48] := rfl
  have hlo : bytes "lo" = [108, 111] := rfl
  rw [vethNames_eq, bytes_append, vethBase, hv, hbr, hlo]
  simp

/-- Neither name is ever cut, no inner end is called what an outer end is called, and two
outer ends have one name only where prefixes and pids agree as far as they are used. -/
theorem vethNames_readable (pre : IfName) (pid : Nat) :
    (vethNames pre pid = (pre.take 9 ++ bytes "_" ++ bytes (itoa (pid % 1000 : Nat)) ++ bytes "_n",
        pre.take 9 ++ bytes "_" ++ bytes (itoa (pid % 1000 : Nat)) ++ bytes "_b") ∧
      (vethNames pre pid).1.length ≤ 15 ∧ (vethNames pre pid).2.length ≤ 15) ∧
    ∀ pre' pid', (vethNames pre pid).1 ≠ (vethNames pre' pid').2 ∧
      ((vethNames pre pid).2 = (vethNames pre' pid').2 ↔
        pre.take 9 = pre'.take 9 ∧ pid % 1000 = pid' % 1000) := by
  have hlen := vethBase_length pre pid
  have hbase : pre.take 9 ++ bytes "_" ++ bytes (itoa (pid % 1000 : Nat)) = vethBase pre pid := by
    rw [vethBase, List.append_assoc]
    rfl
  refine ⟨⟨?_, ?_, ?_⟩, fun pre' pid' => ⟨vethNames_ne pre pre' pid pid', vethNames_snd_inj⟩⟩
  · rw [vethNames_eq, hbase]
    rfl
  · rw [vethNames_eq, List.length_append, List.length_cons, List.length_singleton]
    omega
  · rw [vethNames_eq, List.length_append, List.length_cons, List.length_singleton]
    omega

end Network
end PrivatePaas
