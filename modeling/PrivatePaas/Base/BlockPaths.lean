import PrivatePaas.Base.BlockLayout

/-!
# Looking things up in what was read

A node is entered by the keys of its mappings and the items of its sequences. What is
found in the value of a layout is what stands at that place of the layout, and a text
that is found can be read again as itself.
-/

namespace Blocks
set_option autoImplicit false

section Lookup

def Node.get? (k : String) : Node → Option Node
  | .map es => es.lookup k
  | _ => none

/-- The node behind one key after the other. -/
def Node.at? : List String → Node → Option Node
  | [], n => some n
  | k :: ks, n => (n.get? k).bind (Node.at? ks)

def Node.items : Node → List Node
  | .seq ns => ns
  | _ => []

def Node.text? : Node → Option String
  | .scalar s => some s
  | _ => none

def Node.itemsAt (ks : List String) (n : Node) : List Node := ((n.at? ks).map Node.items).getD []

def Node.textAt (ks : List String) (n : Node) : Option String := (n.at? ks).bind Node.text?

theorem text?_eq_some {n : Node} {s : String} : n.text? = some s ↔ n = .scalar s := by
  cases n <;> simp [Node.text?]

variable {i : Nat} {n : Node} {es : List (String × Val)}

theorem items_listOf (ns : List Node) : (listOf ns).items = ns := by
  cases ns <;> rfl

/-- The items of a sequence are the values of its elements. -/
theorem items_elements {fs : List Forest} (h : (elements i fs).value = some n) :
    List.Forall₂ (fun f m => f.value = some m) fs n.items := by
  rw [value_eq_elements, Option.map_eq_some_iff] at h
  obtain ⟨ns, hns, rfl⟩ := h
  rw [items_listOf]
  exact mapM_eq_some.mp hns

theorem items_singleton {f : Forest} (h : (elements i [f]).value = some n) :
    ∃ m, n.items = [m] ∧ f.value = some m := by
  have hforall := items_elements h
  cases hitems : n.items with
  | nil => rw [hitems] at hforall; cases hforall
  | cons m ms =>
    rw [hitems] at hforall
    obtain ⟨hm, hms⟩ := List.forall₂_cons.mp hforall
    obtain rfl := List.forall₂_nil_left_iff.mp hms
    exact ⟨m, rfl, hm⟩

theorem lookup_zip {names : List String} {ns : List Node} {name : String} {m : Node} {j : Nat}
    (hn : names.Nodup) (hname : names[j]? = some name) (hm : ns[j]? = some m) :
    (names.zip ns).lookup name = some m := by
  induction names generalizing ns j with
  | nil => cases hname
  | cons name' names ih =>
    obtain ⟨hnot, hn⟩ := List.nodup_cons.mp hn
    cases ns with
    | nil => cases hm
    | cons m' ns =>
      cases j with
      | zero =>
        obtain rfl := Option.some.inj hname
        obtain rfl := Option.some.inj hm
        simp
      | succ j =>
        have hne : name ≠ name' := by
          rintro rfl
          exact hnot (List.mem_of_getElem? hname)
        rw [List.zip_cons_cons, List.lookup_cons, beq_false_of_ne hne]
        exact ih hn hname hm

/-- Behind a key of a mapping stands the value of its entry. -/
theorem at?_mapping {ks names : List String} {k name : String} {val : Val} (j : Nat)
    (h : (mapping i es).value = some n) (hes : es.map Prod.fst = ks) (hk : AreKeys ks names)
    (hj : es[j]? = some (k, val)) (hname : names[j]? = some name) :
    ∃ m, val.value = some m ∧ ∀ p, n.at? (name :: p) = m.at? p := by
  rw [value_eq_mapping hes hk, Option.map_eq_some_iff] at h
  obtain ⟨ns, hns, rfl⟩ := h
  have hforall := mapM_eq_some.mp hns
  have hlen := hforall.length_eq
  obtain ⟨hlt, hget⟩ := List.getElem?_eq_some_iff.mp hj
  have hlt' : j < ns.length := hlen ▸ hlt
  refine ⟨ns[j], ?_, fun p => ?_⟩
  · have := hforall.get hlt hlt'
    simpa [hget] using this
  · have hlookup := lookup_zip hk.2.1 hname (List.getElem?_eq_getElem hlt')
    change ((names.zip ns).lookup name).bind _ = _
    rw [hlookup]
    rfl

end Lookup

section Texts
variable {P : Char → Prop}

theorem Node.Over.items {n : Node} (h : n.Over P) : ∀ m ∈ n.items, m.Over P := by
  cases h with
  | seq h => exact h
  | _ => exact nofun

theorem Node.Over.text {n : Node} (h : n.Over P) {s : String} (hs : n.text? = some s) : ∀ c ∈ s.toList, P c := by
  obtain rfl := text?_eq_some.mp hs
  exact over_scalar.mp h

theorem Node.Over.at? {n m : Node} (h : n.Over P) {p : List String} (hm : n.at? p = some m) : m.Over P := by
  induction p generalizing n with
  | nil =>
    obtain rfl := Option.some.inj hm
    exact h
  | cons k p ih =>
    obtain ⟨x, hx, hm⟩ := Option.bind_eq_some_iff.mp hm
    refine ih ?_ hm
    cases h with
    | @map es h =>
      obtain ⟨l₁, l₂, rfl, _⟩ := List.lookup_eq_some_iff.mp hx
      exact h (k, x) (by simp)
    | _ => cases hx

theorem Node.Over.itemsAt {n : Node} (h : n.Over P) {p : List String} : ∀ m ∈ n.itemsAt p, m.Over P := by
  unfold Node.itemsAt
  cases hp : n.at? p with
  | none => exact nofun
  | some x => exact (h.at? hp).items

theorem Node.Over.textAt {n : Node} (h : n.Over P) {p : List String} {s : String}
    (hs : n.textAt p = some s) : ∀ c ∈ s.toList, P c := by
  obtain ⟨x, hx, hs⟩ := Option.bind_eq_some_iff.mp hs
  exact (h.at? hx).text hs

theorem uncomment_of_prefix {w : Bool} {cs p : List Char} (h : p <+: uncomment w cs) : uncomment w p = p := by
  induction cs generalizing w p with
  | nil =>
    obtain rfl := List.prefix_nil.mp h
    rfl
  | cons c cs ih =>
    unfold uncomment at h
    split at h
    · obtain rfl := List.prefix_nil.mp h
      rfl
    · rename_i hc
      cases p with
      | nil => rfl
      | cons d p =>
        obtain ⟨rfl, h⟩ := List.cons_prefix_cons.mp h
        rw [uncomment, if_neg hc, ih h]

/-- A plain scalar that was read is one as it stands. -/
theorem plainText_of_plain? {cs : List Char} {s : String} (h : plain? cs = some (.scalar s)) :
    PlainText s.toList := by
  unfold plain? at h
  simp only at h
  split at h
  · cases h
  split at h
  · rename_i hne hok
    obtain rfl := Node.scalar.inj (Option.some.inj h)
    rw [String.toList_ofList]
    refine ⟨hok.1, fun c hc => ?_, uncomment_of_prefix (List.rdropWhile_prefix _ _), hok.2.1, hok.2.2⟩
    have hlast := List.rdropWhile_last_not isWhite _ hne
    rw [List.getLast?_eq_some_getLast hne] at hc
    obtain rfl := Option.some.inj hc
    simpa using hlast
  · cases h

/-- Texts in quotes consist of the characters that may stand there. -/
def Flow.Quoted : Flow → Prop
  | .text s => s.all isQuoted = true
  | _ => True

theorem quoted_flow? {cs : List Char} {inside : Option (List Char)}
    (hi : ∀ s, inside = some s → s.all isQuoted = true) {fs : List Flow} (hfs : flow? inside cs = some fs) :
    ∀ f ∈ fs, f.Quoted := by
  induction cs generalizing inside fs with
  | nil =>
    unfold flow? at hfs
    split at hfs
    · obtain rfl := Option.some.inj hfs
      simp
    · cases hfs
  | cons c cs ih =>
    have hnone : ∀ s : List Char, none = some s → s.all isQuoted = true := by simp
    have next : ∀ {f : Flow}, f.Quoted → (flow? none cs).map (f :: ·) = some fs → ∀ g ∈ fs, g.Quoted := by
      intro f hf hfs
      obtain ⟨gs, hgs, rfl⟩ := Option.map_eq_some_iff.mp hfs
      intro g hg
      rcases List.mem_cons.mp hg with rfl | hg
      · exact hf
      · exact ih hnone hgs g hg
    unfold flow? at hfs
    split at hfs
    · rename_i s
      split at hfs
      · exact next (f := .text s) (hi s rfl) hfs
      split at hfs
      · rename_i hq
        refine ih (fun t ht => ?_) hfs
        obtain rfl := Option.some.inj ht
        simp only [List.all_append, hi s rfl, List.all_cons, hq, List.all_nil, Bool.and_self]
      · cases hfs
    · split at hfs
      · exact ih hnone hfs
      split at hfs
      · refine ih (fun t ht => ?_) hfs
        obtain rfl := Option.some.inj ht
        rfl
      split at hfs
      · exact next (f := .comma) trivial hfs
      split at hfs
      · exact next (f := .opening) trivial hfs
      split at hfs
      · exact next (f := .closing) trivial hfs
      · cases hfs

theorem quoted_items? {fs : List Flow} (h : ∀ f ∈ fs, f.Quoted) {ns : List Node} (hns : items? fs = some ns) :
    ∀ n ∈ ns, ∀ s, n.text? = some s → s.toList.all isQuoted = true := by
  induction fs using items?.induct generalizing ns with
  | case1 =>
    obtain rfl := Option.some.inj hns
    simp
  | case2 t =>
    obtain rfl := Option.some.inj hns
    intro n hn s hs
    obtain rfl := List.mem_singleton.mp hn
    obtain rfl := Option.some.inj hs
    rw [String.toList_ofList]
    exact h (.text t) (by simp)
  | case3 t fs ih =>
    obtain ⟨ms, hms, rfl⟩ : ∃ ms, items? fs = some ms ∧ .scalar (String.ofList t) :: ms = ns := by
      rw [items?.eq_def] at hns
      exact Option.map_eq_some_iff.mp hns
    intro n hn s hs
    rcases List.mem_cons.mp hn with rfl | hn
    · obtain rfl := Option.some.inj hs
      rw [String.toList_ofList]
      exact h (.text t) (by simp)
    · exact ih (fun f hf => h f (by simp [hf])) hms n hn s hs
  | case4 fs h1 h2 h3 =>
    rw [items?.eq_def] at hns
    split at hns
    · exact absurd rfl h1
    · exact absurd rfl (h2 _)
    · exact absurd rfl (h3 _ _)
    · cases hns

/-- What stands between brackets is read as texts that may stand in quotes. -/
theorem quoted_inline? {cs : List Char} {n : Node} (h : inline? ('[' :: cs) = some n) :
    ∀ m ∈ n.items, ∀ s, m.text? = some s → s.toList.all isQuoted = true := by
  have hflow : ∀ {fs}, flow? none ('[' :: cs) = some fs → ∀ f ∈ fs, f.Quoted :=
    quoted_flow? fun _ hs => by cases hs
  obtain ⟨fs, ns, hfs, hns, rfl⟩ := inline?_bracket.mp h
  exact quoted_items? (fun f hf => hflow hfs f (List.mem_cons_of_mem _ hf)) hns

end Texts
end Blocks
