import PrivatePaas.Host.Names
import PrivatePaas.Host.World

/-!
# Links: what an operation leaves alone, and what a call sets up

A veth pair is told from others by its number. `Clear` says that a call which connects
one process is no danger to a link: neither the link nor the other end of its pair
stands where the call deletes. `Net.exec` runs a program of link operations by itself.
-/

namespace PrivatePaas
set_option autoImplicit false
open Text Effects Network Prog

namespace Net
variable {t : Procs} {n : Net} {k l : Link} {ns pid p : Nat} {name a b : IfName} {f : Link → Link}

theorem mem_modify : k ∈ (n.modify ns name f).links ↔
    ∃ l ∈ n.links, k = if l.ns = ns ∧ l.name = name then f l else l := by
  simp only [modify, List.mem_map]
  exact exists_congr fun l => and_congr_right fun _ => eq_comm

theorem mem_modify_of_ne (hk : k ∈ n.links) (h : ¬ (k.ns = ns ∧ k.name = name)) :
    k ∈ (n.modify ns name f).links :=
  mem_modify.mpr ⟨k, hk, (if_neg h).symm⟩

theorem mem_delete : k ∈ (n.delete l).links ↔
    k ∈ n.links ∧ ¬ (k.ns = l.ns ∧ k.name = l.name) ∧ (l.pair = 0 ∨ k.pair ≠ l.pair) := by
  simp only [delete, List.mem_filter, decide_eq_true_eq]

theorem find_spec (h : n.find ns name = some l) : l ∈ n.links ∧ l.ns = ns ∧ l.name = name := by
  have hp := List.find?_some h
  simp only [decide_eq_true_eq] at hp
  exact ⟨List.mem_of_find?_eq_some h, hp⟩

theorem find_eq_none : n.find ns name = none ↔ ∀ l ∈ n.links, ¬ (l.ns = ns ∧ l.name = name) := by
  simp [find]

theorem mem_plugged {A B : Link} : k ∈ (n.plugged A B).links ↔ k ∈ n.links ∨ k = A ∨ k = B := by
  simp [plugged]

/-- A bridge is added under the name it is assigned. -/
theorem addBridge_cases (t : Procs) (n : Net) (name : IfName) :
    perform t n (.linkAddBridge name) = (false, n) ∨ ∃ c, n.assign name = some c ∧
      perform t n (.linkAddBridge name) =
        (true, { n with links := n.links ++ [{ name := c, ns := 0, bridge := true }] }) := by
  simp only [perform]
  cases n.assign name with
  | none => exact .inl rfl
  | some c => exact .inr ⟨c, rfl, rfl⟩

/-- A pair is added under the names its ends are assigned one after the other. -/
theorem addVeth_cases (t : Procs) (n : Net) (name peer : IfName) :
    perform t n (.linkAddVeth name peer) = (false, n) ∨ ∃ a b, n.assign peer = some b ∧
      assign { n with links := n.links ++ [n.bare b] } name = some a ∧
      perform t n (.linkAddVeth name peer) = (true, n.plugged (n.bare a) (n.bare b)) := by
  simp only [perform]
  cases n.assign peer with
  | none => exact .inl rfl
  | some b =>
    simp only
    cases ha : assign { n with links := n.links ++ [n.bare b] } name with
    | none => exact .inl rfl
    | some a => exact .inr ⟨a, b, rfl, ha, rfl⟩

/-- A pair number is used for the two ends of one pair only, no bridge is an end, and
every name is one that the kernel takes. -/
structure Sound (n : Net) : Prop where
  bound : ∀ l ∈ n.links, l.pair ≤ n.pairs
  ends : ∀ p, p ≠ 0 → n.links.countP (·.pair = p) ≤ 2
  bridge : ∀ l ∈ n.links, l.bridge = true → l.pair = 0
  named : ∀ l ∈ n.links, validName l.name = true

theorem sound_blank : Sound {} := ⟨by simp, by simp, by simp, by simp⟩

theorem Sound.modify (h : n.Sound)
    (hf : ∀ l, (f l).pair = l.pair ∧ (f l).bridge = l.bridge ∧ (f l).name = l.name) :
    (n.modify ns name f).Sound := by
  have hpair : ∀ l : Link, (if l.ns = ns ∧ l.name = name then f l else l).pair = l.pair := by
    intro l
    split
    · exact (hf l).1
    · rfl
  constructor
  · intro k hk
    obtain ⟨l, hl, rfl⟩ := mem_modify.mp hk
    rw [hpair]
    exact h.bound l hl
  · intro p hp
    simp only [Net.modify, List.countP_map]
    refine le_trans (List.countP_mono_left fun l _ hl => ?_) (h.ends p hp)
    simpa [hpair] using hl
  · intro k hk hkb
    obtain ⟨l, hl, rfl⟩ := mem_modify.mp hk
    rw [hpair]
    apply h.bridge l hl
    split at hkb
    · rwa [(hf l).2.1] at hkb
    · exact hkb
  · intro k hk
    obtain ⟨l, hl, rfl⟩ := mem_modify.mp hk
    split
    · rw [(hf l).2.2]
      exact h.named l hl
    · exact h.named l hl

theorem Sound.delete (h : n.Sound) : (n.delete l).Sound := by
  constructor
  · intro k hk
    exact h.bound k (mem_delete.mp hk).1
  · intro p hp
    exact (List.filter_sublist.countP_le).trans (h.ends p hp)
  · exact fun k hk => h.bridge k (mem_delete.mp hk).1
  · exact fun k hk => h.named k (mem_delete.mp hk).1

theorem Sound.addBridge (h : n.Sound) {k : Link} (hk : k.pair = 0) (hn : validName k.name = true) :
    Sound { n with links := n.links ++ [k] } := by
  constructor
  · intro l hl
    rcases List.mem_append.mp hl with hl | hl
    · exact h.bound l hl
    · obtain rfl := List.mem_singleton.mp hl
      rw [hk]
      exact Nat.zero_le _
  · intro p hp
    have hne : ¬ k.pair = p := by omega
    simpa [List.countP_append, hne] using h.ends p hp
  · intro l hl hb
    rcases List.mem_append.mp hl with hl | hl
    · exact h.bridge l hl hb
    · obtain rfl := List.mem_singleton.mp hl
      exact hk
  · intro l hl
    rcases List.mem_append.mp hl with hl | hl
    · exact h.named l hl
    · obtain rfl := List.mem_singleton.mp hl
      exact hn

theorem Sound.plugged (h : n.Sound) (ha : validName a = true) (hb : validName b = true) :
    (n.plugged (n.bare a) (n.bare b)).Sound := by
  constructor
  · intro l hl
    change l.pair ≤ n.pairs + 1
    rcases mem_plugged.mp hl with hl | rfl | rfl
    · exact (h.bound l hl).trans (Nat.le_succ _)
    · exact Nat.le_refl _
    · exact Nat.le_refl _
  · intro p hp
    by_cases hpp : p = n.pairs + 1
    · subst p
      have hold : n.links.countP (·.pair = n.pairs + 1) = 0 := by
        rw [List.countP_eq_zero]
        intro l hl
        have := h.bound l hl
        simp only [decide_eq_true_eq]
        omega
      simp only [Net.plugged, List.countP_append, hold]
      simp [bare]
    · have hne : ¬ n.pairs + 1 = p := fun he => hpp he.symm
      simpa [Net.plugged, bare, List.countP_append, List.countP_cons, hne] using h.ends p hp
  · intro l hl hlb
    rcases mem_plugged.mp hl with hl | rfl | rfl
    · exact h.bridge l hl hlb
    · cases hlb
    · cases hlb
  · intro l hl
    rcases mem_plugged.mp hl with hl | rfl | rfl
    · exact h.named l hl
    · exact ha
    · exact hb

theorem Sound.perform (h : n.Sound) (o : NetOp) : (Net.perform t n o).2.Sound := by
  cases o with
  | linkByName ns name => exact h
  | enterNs pid => exact h
  | linkDel name =>
    simp only [Net.perform]
    split
    · exact h
    · exact h.delete
  | linkAddBridge name =>
    rcases addBridge_cases t n name with hp | ⟨c, hc, hp⟩
    · rw [hp]
      exact h
    · rw [hp]
      exact h.addBridge rfl (assign_spec hc).1
  | linkAddVeth name peer =>
    rcases addVeth_cases t n name peer with hp | ⟨a, b, hb, ha, hp⟩
    · rw [hp]
      exact h
    · rw [hp]
      exact h.plugged (assign_spec ha).1 (assign_spec hb).1
  | linkSetUp pid name =>
    simp only [Net.perform]
    split
    · exact h
    · split
      · exact h.modify fun _ => ⟨rfl, rfl, rfl⟩
      · exact h
  | addrAdd pid name cidr =>
    simp only [Net.perform]
    split
    · exact h
    · split
      · exact h
      · split
        · exact h
        · exact h.modify fun _ => ⟨rfl, rfl, rfl⟩
  | linkSetMaster name =>
    simp only [Net.perform]
    split
    · exact h.modify fun _ => ⟨rfl, rfl, rfl⟩
    · exact h
  | linkSetNs name pid =>
    simp only [Net.perform]
    split
    · exact h
    · split
      · exact h.modify fun _ => ⟨rfl, rfl, rfl⟩
      · exact h
  | iptablesAppend pid r =>
    simp only [Net.perform]
    split
    · exact h
    · exact ⟨h.bound, h.ends, h.bridge, h.named⟩

/-- What no link can be called is not found. -/
theorem Sound.find_eq_none (h : n.Sound) (hname : validName name = false) : n.find ns name = none := by
  refine Net.find_eq_none.mpr fun l hl hl' => ?_
  have hv := h.named l hl
  rw [hl'.2, hname] at hv
  cases hv

/-- A pair has no third end. -/
theorem Sound.eq_or_eq (h : n.Sound) {o i : Link} (ho : o ∈ n.links) (hi : i ∈ n.links) (hne : o ≠ i)
    (hp : o.pair ≠ 0) (hpair : i.pair = o.pair) (hl : l ∈ n.links) (hlp : l.pair = o.pair) :
    l = o ∨ l = i := by
  by_contra hcon
  rw [not_or] at hcon
  have hnodup : [l, o, i].Nodup := by simp [hcon.1, hcon.2, hne]
  have hsub : [l, o, i] ⊆ n.links := by simp [ho, hi, hl]
  have hc := (List.subperm_of_subset hnodup hsub).countP_le (fun k => decide (k.pair = o.pair))
  have := h.ends o.pair hp
  simp [hlp, hpair] at hc
  omega

end Net

/-- An operation that only concerns links and filters. -/
def Op.IsNet : Op → Prop
  | .net _ => True
  | _ => False

/-- The operations of a call that connects `pid` by a pair with these two names. -/
def NetOp.Of (pid : Nat) (inside outside : IfName) : NetOp → Prop
  | linkByName _ _ => True
  | enterNs _ => True
  | iptablesAppend _ _ => True
  | linkDel m => m = inside ∨ m = outside
  | linkAddVeth m m' => m = inside ∧ m' = outside
  | linkSetMaster m => m = outside
  | linkSetUp ns m => ns = pid ∨ ns = 0 ∧ m = outside
  | linkSetNs m ns => m = inside ∧ ns = pid
  | addrAdd ns _ _ => ns = pid
  | linkAddBridge _ => False

namespace Op

def Connects (pid : Nat) (inside outside : IfName) : Op → Prop
  | net o => o.Of pid inside outside
  | _ => False

end Op

theorem connects_appendRules (pid : Nat) (a b : IfName) (rules : List Rule) :
    Only (Op.Connects pid a b) (appendRules pid rules) := by
  induction rules with
  | nil => trivial
  | cons r rs ih => exact ⟨trivial, fun _ => ih⟩

theorem connects_configure (pid : Nat) (a b : IfName) (ip : String) :
    Only (Op.Connects pid a b) (configureInterfaceInNamespace pid a ip true) := by
  have hend : Only (Op.Connects pid a b) (do
      enableLoopback pid true; enableFirewall pid a; return true) := by
    refine Only.bind ?_ fun _ => Only.bind ?_ fun _ => trivial
    · simp [enableLoopback, Op.Connects, NetOp.Of]
    · simp [enableFirewall, connects_appendRules]
  simp only [configureInterfaceInNamespace]
  simp [Op.Connects, NetOp.Of] at hend ⊢
  simp [hend]

theorem connects_connectProcess (pid : Nat) (ip : String) (pre : IfName) :
    Only (Op.Connects pid (vethNames pre pid).1 (vethNames pre pid).2)
      (connectProcessToBridge pid ip pre) := by
  unfold connectProcessToBridge
  generalize vethNames pre pid = v
  obtain ⟨a, b⟩ := v
  refine Only.bind ?_ fun _ => Only.bind ?_ fun _ => ?_
  · simp [delExisting, Op.Connects, NetOp.Of]
  · simp [delExisting, Op.Connects, NetOp.Of]
  · have hc := connects_configure pid a b ip
    simp only [Go.linkAddVeth, Go.linkByName, Go.linkSetMaster, Go.linkSetUp, Go.linkSetNs]
    simp [Op.Connects, NetOp.Of, hc]

namespace Net
variable {t : Procs} {n : Net} {k : Link} {pid : Nat} {a b : IfName} {o : NetOp}

/-- A link that is no business of a call with these names. -/
structure Clear (pid : Nat) (a b : IfName) (n : Net) (k : Link) : Prop where
  mem : k ∈ n.links
  ns : k.ns ≠ pid
  name : k.ns = 0 → k.name ≠ a ∧ k.name ≠ b
  pair : ∀ l ∈ n.links, l.ns = 0 → l.name = a ∨ l.name = b → l.pair ≠ 0 → l.pair ≠ k.pair
  bound : k.pair ≤ n.pairs

theorem place_zero : place t 0 = some 0 := rfl

theorem Clear.modify (h : Clear pid a b n k) {ns : Nat} {name : IfName} {f : Link → Link}
    (hf : ∀ l, (f l).pair = l.pair ∧ (f l).name = l.name ∧ ((f l).ns = 0 → l.ns = 0))
    (hk : ¬ (k.ns = ns ∧ k.name = name)) : Clear pid a b (n.modify ns name f) k := by
  refine ⟨mem_modify_of_ne h.mem hk, h.ns, h.name, ?_, h.bound⟩
  intro l' hl' hns hname hp
  obtain ⟨l, hl, rfl⟩ := mem_modify.mp hl'
  by_cases hm : l.ns = ns ∧ l.name = name
  · obtain ⟨hpair, hnm, hz⟩ := hf l
    rw [if_pos hm] at hns hname hp ⊢
    rw [hpair] at hp ⊢
    rw [hnm] at hname
    exact h.pair l hl (hz hns) hname hp
  · rw [if_neg hm] at hns hname hp ⊢
    exact h.pair l hl hns hname hp

/-- No step of the call touches the link. -/
theorem Clear.perform (h : Clear pid a b n k) (hplace : place t pid = some pid) (hpid : pid ≠ 0)
    (ho : o.Of pid a b) : Clear pid a b (Net.perform t n o).2 k := by
  have away : ∀ {name : IfName}, ¬ (k.ns = pid ∧ k.name = name) := fun hk => h.ns hk.1
  have host : ∀ {name : IfName}, name = a ∨ name = b → ¬ (k.ns = 0 ∧ k.name = name) := by
    intro name hname ⟨hns, hk⟩
    rcases hname with rfl | rfl
    · exact (h.name hns).1 hk
    · exact (h.name hns).2 hk
  cases o with
  | linkByName ns name => exact h
  | enterNs ns => exact h
  | linkAddBridge name => exact absurd ho id
  | iptablesAppend ns r =>
    simp only [Net.perform]
    split
    · exact h
    · exact ⟨h.mem, h.ns, h.name, h.pair, h.bound⟩
  | linkDel name =>
    simp only [Net.perform]
    split
    · exact h
    · rename_i l hl
      obtain ⟨hmem, hns, hnm⟩ := find_spec hl
      refine ⟨mem_delete.mpr ⟨h.mem, ?_, ?_⟩, h.ns, h.name, ?_, h.bound⟩
      · rw [hns, hnm]
        exact host ho
      · by_cases hp : l.pair = 0
        · exact .inl hp
        · exact .inr (Ne.symm (h.pair l hmem hns (hnm ▸ ho) hp))
      · exact fun l' hl' => h.pair l' (mem_delete.mp hl').1
  | linkAddVeth name peer =>
    rcases addVeth_cases t n name peer with hp | ⟨c, d, _, _, hp⟩
    · rw [hp]
      exact h
    · rw [hp]
      have hnew : n.pairs + 1 ≠ k.pair := by
        have := h.bound
        omega
      refine ⟨mem_plugged.mpr (.inl h.mem), h.ns, h.name, ?_, h.bound.trans (Nat.le_succ _)⟩
      intro l hl hns hname hpair
      rcases mem_plugged.mp hl with hl | rfl | rfl
      · exact h.pair l hl hns hname hpair
      · exact hnew
      · exact hnew
  | linkSetUp ns name =>
    simp only [Net.perform]
    rcases ho with rfl | ⟨rfl, rfl⟩
    · rw [hplace]
      simp only
      split
      · exact h.modify (fun _ => ⟨rfl, rfl, id⟩) away
      · exact h
    · rw [place_zero]
      simp only
      split
      · exact h.modify (fun _ => ⟨rfl, rfl, id⟩) (host (.inr rfl))
      · exact h
  | addrAdd ns name cidr =>
    obtain rfl : ns = pid := ho
    simp only [Net.perform, hplace]
    split
    · exact h
    · split
      · exact h
      · exact h.modify (fun _ => ⟨rfl, rfl, id⟩) away
  | linkSetMaster name =>
    obtain rfl : name = b := ho
    simp only [Net.perform]
    split
    · exact h.modify (fun _ => ⟨rfl, rfl, id⟩) (host (.inr rfl))
    · exact h
  | linkSetNs name ns =>
    obtain ⟨rfl, rfl⟩ := ho
    simp only [Net.perform, hplace]
    split
    · exact h.modify (fun _ => ⟨rfl, rfl, fun hz => absurd hz hpid⟩) (host (.inl rfl))
    · exact h

/-- The call puts nothing into a namespace but its own and the host's. -/
theorem mem_of_mem_perform (hplace : place t pid = some pid) (ho : o.Of pid a b)
    (hk : k ∈ (Net.perform t n o).2.links) (h0 : k.ns ≠ 0) (hp : k.ns ≠ pid) : k ∈ n.links := by
  have old : ∀ {ns : Nat} {name : IfName} {f : Link → Link},
      k ∈ (n.modify ns name f).links →
      (∀ l, (f l).ns = l.ns ∧ (ns = pid ∨ ns = 0) ∨ (f l).ns = pid) → k ∈ n.links := by
    intro ns name f hm hf
    obtain ⟨l, hl, rfl⟩ := mem_modify.mp hm
    by_cases hc : l.ns = ns ∧ l.name = name
    · rw [if_pos hc] at h0 hp
      rcases hf l with ⟨hns, rfl | rfl⟩ | hns
      · exact absurd (hns.trans hc.1) hp
      · exact absurd (hns.trans hc.1) h0
      · exact absurd hns hp
    · rwa [if_neg hc]
  cases o with
  | linkByName ns name => exact hk
  | enterNs ns => exact hk
  | linkAddBridge name => exact absurd ho id
  | iptablesAppend ns r =>
    simp only [Net.perform] at hk
    split at hk <;> exact hk
  | linkDel name =>
    simp only [Net.perform] at hk
    split at hk
    · exact hk
    · exact (mem_delete.mp hk).1
  | linkAddVeth name peer =>
    rcases addVeth_cases t n name peer with hp | ⟨c, d, _, _, hp⟩
    · rwa [hp] at hk
    · rw [hp] at hk
      rcases mem_plugged.mp hk with hk | rfl | rfl
      · exact hk
      · exact absurd rfl h0
      · exact absurd rfl h0
  | linkSetUp ns name =>
    simp only [Net.perform] at hk
    rcases ho with rfl | ⟨rfl, rfl⟩
    · rw [hplace] at hk
      simp only at hk
      split at hk
      · exact old hk fun _ => .inl ⟨rfl, .inl rfl⟩
      · exact hk
    · rw [place_zero] at hk
      simp only at hk
      split at hk
      · exact old hk fun _ => .inl ⟨rfl, .inr rfl⟩
      · exact hk
  | addrAdd ns name cidr =>
    obtain rfl : ns = pid := ho
    simp only [Net.perform, hplace] at hk
    split at hk
    · exact hk
    · split at hk
      · exact hk
      · exact old hk fun _ => .inl ⟨rfl, .inl rfl⟩
  | linkSetMaster name =>
    simp only [Net.perform] at hk
    split at hk
    · exact old hk fun _ => .inl ⟨rfl, .inr rfl⟩
    · exact hk
  | linkSetNs name ns =>
    obtain ⟨rfl, rfl⟩ := ho
    simp only [Net.perform, hplace] at hk
    split at hk
    · exact old hk fun _ => .inr rfl
    · exact hk

/-- A program of link operations by itself, with nothing that fails. -/
def exec {α : Type} (t : Procs) (n : Net) : Go α → Option α × Net
  | .ret a => (some a, n)
  | .halt => (none, n)
  | .call o k =>
    match o, k with
    | .net o, k => exec t (perform t n o).2 (k (perform t n o).1)
    | _, _ => (none, n)

end Net
end PrivatePaas
