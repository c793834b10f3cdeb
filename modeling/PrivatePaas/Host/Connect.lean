import PrivatePaas.Effects.Exec
import PrivatePaas.Host.Links

/-!
# What one call of `ConnectProcessToBridge` sets up

Where nothing fails the two ends of a new pair are left: one on the bridge, the other
in the namespace of the process, with the address if it can be parsed.
-/

namespace PrivatePaas
set_option autoImplicit false
open Text Effects Network Prog

namespace Net
variable {t : Procs} {n m : Net} {A B k l : Link} {ns pid : Nat} {name a b : IfName} {f : Link → Link}
variable {α β : Type}

section Exec

@[simp] theorem exec_ret (x : α) : exec t n (.ret x) = (some x, n) := rfl

theorem exec_net (o : NetOp) (k : o.Ret → Go α) :
    exec t n (.call (.net o) k) = exec t (perform t n o).2 (k (perform t n o).1) := rfl

theorem exec_bind {p : Go α} {q : α → Go β} {r : α} (h : exec t n p = (some r, m)) :
    exec t n (p >>= q) = exec t m (q r) := by
  induction p generalizing n with
  | ret x =>
    obtain ⟨hx, rfl⟩ := Prod.mk.inj h
    obtain rfl := Option.some.inj hx
    rfl
  | halt => cases h
  | call o k ih =>
    cases o with
    | net o => exact ih _ h
    | _ => cases h

end Exec

/-- The net without the link of this name in the host's namespace, and without its peer. -/
def without (n : Net) (name : IfName) : Net :=
  match n.find 0 name with
  | none => n
  | some l => n.delete l

theorem exec_delExisting : exec t n (delExisting name) = (some (), n.without name) := by
  unfold delExisting without
  rw [Go.linkByName, call_bind, exec_net]
  cases h : n.find 0 name with
  | none => simp [perform, place_zero, h]
  | some l => simp [perform, place_zero, h, exec_net]

theorem mem_without (h : k ∈ (n.without name).links) :
    k ∈ n.links ∧ ¬ (k.ns = 0 ∧ k.name = name) := by
  unfold without at h
  split at h
  · rename_i hf
    exact ⟨h, find_eq_none.mp hf k h⟩
  · rename_i l hf
    obtain ⟨_, hns, hnm⟩ := find_spec hf
    have hk := mem_delete.mp h
    rw [hns, hnm] at hk
    exact ⟨hk.1, hk.2.1⟩

@[simp] theorem without_pairs : (n.without name).pairs = n.pairs := by
  unfold without
  split <;> rfl

theorem Sound.without (h : n.Sound) : (n.without name).Sound := by
  unfold Net.without
  split
  · exact h
  · exact h.delete

/-- What is no end of a pair stays, unless it bears the name itself. -/
theorem mem_without_of_pair (hk : k ∈ n.links) (hp : k.pair = 0) (hne : k.name ≠ name) :
    k ∈ (n.without name).links := by
  unfold without
  split
  · exact hk
  · rename_i l hf
    refine mem_delete.mpr ⟨hk, ?_, ?_⟩
    · rw [(find_spec hf).2.2]
      exact fun h => hne h.2
    · by_cases hl : l.pair = 0
      · exact .inl hl
      · exact .inr fun h => hl (h.symm.trans hp)

/-- No link of this name in this namespace. -/
def Lacks (m : Net) (ns : Nat) (name : IfName) : Prop := ∀ l ∈ m.links, ¬ (l.ns = ns ∧ l.name = name)

theorem find_plugged (h : m.Lacks ns name) : (plugged m A B).find ns name =
    if A.ns = ns ∧ A.name = name then some A else if B.ns = ns ∧ B.name = name then some B else none := by
  have hm : m.links.find? (fun l => decide (l.ns = ns ∧ l.name = name)) = none :=
    List.find?_eq_none.mpr fun l hl => by simpa using h l hl
  simp only [find, plugged, List.find?_append, hm, Option.none_or, List.find?_cons, List.find?_nil]
  by_cases hA : A.ns = ns ∧ A.name = name
  · simp [hA]
  · by_cases hB : B.ns = ns ∧ B.name = name
    · simp [hA, hB]
    · simp [hA, hB]

theorem modify_plugged (h : m.Lacks ns name) : (plugged m A B).modify ns name f =
    plugged m (if A.ns = ns ∧ A.name = name then f A else A)
      (if B.ns = ns ∧ B.name = name then f B else B) := by
  have hm : m.links.map (fun l => if l.ns = ns ∧ l.name = name then f l else l) = m.links := by
    conv_rhs => rw [← List.map_id m.links]
    exact List.map_congr_left fun l hl => if_neg (h l hl)
  simp [modify, plugged, hm]

/-- What a call needs to succeed: the bridge, names that the kernel takes, and a process
with a namespace of its own in which there is no such link yet. -/
structure Ready (t : Procs) (n : Net) (pid : Nat) (a b : IfName) : Prop where
  bridge : ∃ l ∈ n.links, l.ns = 0 ∧ l.name = br0 ∧ l.pair = 0
  inside : validName a = true
  outside : validName b = true
  ne : a ≠ b
  inside_ne : a ≠ br0
  outside_ne : b ≠ br0
  inside_lo : a ≠ bytes "lo"
  place : place t pid = some pid
  pid_ne : pid ≠ 0
  fresh : n.Lacks pid a

/-- The two ends as the call leaves them, before the address is configured. -/
def inner (n : Net) (pid : Nat) (a : IfName) : Link := { name := a, ns := pid, pair := n.pairs + 1 }
def outer (n : Net) (b : IfName) : Link :=
  { name := b, ns := 0, pair := n.pairs + 1, master := true, up := true }

section Ready
variable (h : Ready t n pid a b)
include h

theorem Ready.lacks : ((n.without a).without b).Lacks 0 a ∧ ((n.without a).without b).Lacks 0 b ∧
    ((n.without a).without b).Lacks pid a := by
  refine ⟨fun l hl => ?_, fun l hl => (mem_without hl).2, fun l hl => ?_⟩
  · exact (mem_without (mem_without hl).1).2
  · exact h.fresh l (mem_without (mem_without hl).1).1

theorem Ready.find_bridge : ∃ l ∈ ((n.without a).without b).links, l.ns = 0 ∧ l.name = br0 := by
  obtain ⟨l, hl, hns, hnm, hp⟩ := h.bridge
  refine ⟨l, ?_, hns, hnm⟩
  refine mem_without_of_pair (mem_without_of_pair hl hp ?_) hp ?_
  · rw [hnm]
    exact h.inside_ne.symm
  · rw [hnm]
    exact h.outside_ne.symm

/-- Up to the configuration of the address nothing goes wrong. -/
theorem Ready.exec_connect (ip : String) (pre : IfName) (hv : vethNames pre pid = (a, b)) :
    exec t n (connectProcessToBridge pid ip pre) =
      exec t (plugged ((n.without a).without b) (inner n pid a) (outer n b))
        (configureInterfaceInNamespace pid a ip true) := by
  obtain ⟨h0a, h0b, hpa⟩ := h.lacks
  have hbr := h.find_bridge
  unfold connectProcessToBridge
  rw [hv]
  simp only
  rw [exec_bind exec_delExisting, exec_bind exec_delExisting]
  have hpairs : ((n.without a).without b).pairs = n.pairs := by simp
  generalize (n.without a).without b = m at h0a h0b hpa hbr hpairs ⊢
  have hne := h.ne
  have free : find { m with links := m.links ++ [bare m b] } 0 a = none := by
    refine find_eq_none.mpr fun l hl hl' => ?_
    rcases List.mem_append.mp hl with hl | hl
    · exact h0a l hl hl'
    · obtain rfl := List.mem_singleton.mp hl
      exact hne hl'.2.symm
  have same : ∀ name, bare m name = bare n name := by
    intro name
    rw [bare, bare, hpairs]
  have add : perform t m (.linkAddVeth a b) = (true, plugged m (bare n a) (bare n b)) := by
    simp only [perform, assign_of_validName h.outside (find_eq_none.mpr h0b),
      assign_of_validName h.inside free]
    rw [same, same]
  have bridge : ∀ A B : Link, ((plugged m A B).find 0 br0).isSome = true := by
    intro A B
    obtain ⟨l, hl, hl'⟩ := hbr
    exact List.find?_isSome.mpr ⟨l, List.mem_append_left _ hl, by simpa using hl'⟩
  have named : perform t (plugged m (bare n a) (bare n b)) (.linkByName 0 a) =
      (some false, plugged m (bare n a) (bare n b)) := by
    simp [perform, place_zero, find_plugged h0a, bare]
  have peer : perform t (plugged m (bare n a) (bare n b)) (.linkByName 0 b) =
      (some false, plugged m (bare n a) (bare n b)) := by
    simp [perform, place_zero, find_plugged h0b, hne, bare]
  have master : perform t (plugged m (bare n a) (bare n b)) (.linkSetMaster b) =
      (true, plugged m (bare n a) { bare n b with master := true }) := by
    simp [perform, bridge, find_plugged h0b, modify_plugged h0b, hne, bare]
  have up : perform t (plugged m (bare n a) { bare n b with master := true }) (.linkSetUp 0 b) =
      (true, plugged m (bare n a) (outer n b)) := by
    simp [perform, place_zero, find_plugged h0b, modify_plugged h0b, hne, outer, bare]
  have moved : perform t (plugged m (bare n a) (outer n b)) (.linkSetNs a pid) =
      (true, plugged m (inner n pid a) (outer n b)) := by
    simp [perform, h.place, find_plugged h0a, find_plugged hpa, modify_plugged h0a, hne.symm, outer,
      inner, h.pid_ne, h.pid_ne.symm, bare]
  simp only [Go.linkAddVeth, Go.linkByName, Go.linkSetMaster, Go.linkSetUp, Go.linkSetNs, call_bind,
    ret_bind, exec_net, add, named, peer, master, up, moved, Bool.not_true, Bool.false_eq_true,
    if_false, reduceCtorEq]

end Ready

/-- Names that the kernel does not take as they are end the call: it refuses them, or the
ends of the new pair are called something else and are not found. -/
theorem exec_connect_refused (h : n.Sound) (ip : String) (pre : IfName) (hv : vethNames pre pid = (a, b))
    (ha : validName a = false) : (exec t n (connectProcessToBridge pid ip pre)).1 = some false ∧
      ∀ k ∈ (exec t n (connectProcessToBridge pid ip pre)).2.links, k.ns ≠ 0 → k ∈ n.links := by
  have hs : ((n.without a).without b).Sound := h.without.without
  have hold : ∀ k ∈ ((n.without a).without b).links, k ∈ n.links :=
    fun k hk => (mem_without (mem_without hk).1).1
  unfold connectProcessToBridge
  rw [hv]
  simp only
  rw [exec_bind exec_delExisting, exec_bind exec_delExisting]
  generalize (n.without a).without b = m at hs hold ⊢
  simp only [Go.linkAddVeth, Go.linkByName, call_bind, ret_bind, exec_net]
  have hnew := hs.perform (t := t) (.linkAddVeth a b)
  rcases addVeth_cases t m a b with hp | ⟨c, d, _, _, hp⟩
  · rw [hp]
    exact ⟨rfl, fun k hk _ => hold k hk⟩
  · rw [hp] at hnew ⊢
    have hlost : perform t (m.plugged (m.bare c) (m.bare d)) (.linkByName 0 a) =
        (none, m.plugged (m.bare c) (m.bare d)) := by
      simp [perform, place_zero, hnew.find_eq_none ha]
    simp only [hlost, Bool.not_true, Bool.false_eq_true, if_false, exec_net, if_true]
    refine ⟨rfl, fun k hk h0 => ?_⟩
    rcases mem_plugged.mp hk with hk | rfl | rfl
    · exact hold k hk
    · exact absurd rfl h0
    · exact absurd rfl h0

section Configure

theorem exec_enableLoopback (hplace : place t pid = some pid) :
    exec t n (enableLoopback pid true) = (some (), if n.find pid (bytes "lo") = none then n else
      n.modify pid (bytes "lo") fun l => { l with up := true }) := by
  unfold enableLoopback
  rw [if_pos rfl, Go.linkByName, call_bind, exec_net]
  cases h : n.find pid (bytes "lo") with
  | none => simp [perform, hplace, h]
  | some l => simp [perform, hplace, h, exec_net]

theorem exec_appendRules (hplace : place t pid = some pid) (rules : List Rule) :
    exec t n (appendRules pid rules) =
      (some (), { n with rules := n.rules ++ rules.map fun r => (pid, r) }) := by
  induction rules generalizing n with
  | nil => simp [appendRules]
  | cons r rules ih =>
    have hstep : perform t n (.iptablesAppend pid r) =
        (true, { n with rules := n.rules ++ [(pid, r)] }) := by
      simp [perform, hplace]
    simp only [appendRules, Go.iptablesAppend, call_bind, ret_bind, exec_net, hstep, ih,
      List.append_assoc, List.map_cons, List.singleton_append]

theorem exec_enableFirewall (hplace : place t pid = some pid) (veth : IfName) :
    ∃ rules, exec t n (enableFirewall pid veth) = (some (), { n with rules := rules }) := by
  unfold enableFirewall
  split
  · exact ⟨n.rules, rfl⟩
  · exact ⟨_, exec_appendRules hplace firewall⟩

/-- Loopback and filters touch no link but the loopback one. -/
theorem exec_finish (hplace : place t pid = some pid) (veth : IfName) :
    ∃ n', exec t n (do enableLoopback pid true; enableFirewall pid veth; return true) = (some true, n') ∧
      n'.pairs = n.pairs ∧
      (n'.links = n.links ∨ n'.links = (n.modify pid (bytes "lo") fun l => { l with up := true }).links) := by
  generalize hn₁ : (if n.find pid (bytes "lo") = none then n else
    n.modify pid (bytes "lo") fun l => { l with up := true }) = n₁
  obtain ⟨rules, hr⟩ := exec_enableFirewall (n := n₁) hplace veth
  have hlo : exec t n (enableLoopback pid true) = (some (), n₁) := hn₁ ▸ exec_enableLoopback hplace
  refine ⟨{ n₁ with rules := rules }, ?_, ?_, ?_⟩
  · rw [exec_bind hlo, exec_bind hr]
    rfl
  · rw [← hn₁]
    split <;> rfl
  · rw [← hn₁]
    split
    · exact .inl rfl
    · exact .inr rfl

/-- The address text that the interface gets. -/
def cidrOf (ip : String) : String := if '/' ∈ ip.toList then ip else ip ++ "/24"

/-- The address is added and the inner end set up, unless the address cannot be parsed. -/
theorem exec_configure (hplace : place t pid = some pid) (hpid : pid ≠ 0) (hlo : a ≠ bytes "lo")
    (hm : m.Lacks pid a) (hA : A.ns = pid ∧ A.name = a ∧ A.addrs = []) (hB : B.ns = 0) (ip : String) :
    ∃ n', exec t (plugged m A B) (configureInterfaceInNamespace pid a ip true) =
        (some (parseAddr (cidrOf ip)), n') ∧
      B ∈ n'.links ∧ n'.pairs = m.pairs + 1 ∧
      (∃ A' ∈ n'.links, A'.ns = pid ∧ A'.name = a ∧ A'.pair = A.pair ∧
        (parseAddr (cidrOf ip) = true → A'.addrs = [cidrOf ip])) ∧
      ∀ l ∈ n'.links, l.ns = 0 → l ∈ m.links ∨ l = B := by
  obtain ⟨hns, hname, haddrs⟩ := hA
  have hBns : ¬ (B.ns = pid ∧ B.name = a) := fun hb => hpid (hb.1.symm.trans hB)
  have hfind : ∀ A' : Link, A'.ns = pid → A'.name = a → (plugged m A' B).find pid a = some A' := by
    intro A' h1 h2
    rw [find_plugged hm, if_pos ⟨h1, h2⟩]
  have hmod : ∀ (A' : Link) (f : Link → Link), A'.ns = pid → A'.name = a →
      (plugged m A' B).modify pid a f = plugged m (f A') B := by
    intro A' f h1 h2
    rw [modify_plugged hm, if_pos ⟨h1, h2⟩, if_neg hBns]
  have entered : perform t (plugged m A B) (.enterNs pid) = (true, plugged m A B) := by
    simp [perform, hplace]
  have found : perform t (plugged m A B) (.linkByName pid a) = (some A.bridge, plugged m A B) := by
    simp [perform, hplace, hfind A hns hname]
  unfold configureInterfaceInNamespace
  rw [← cidrOf]
  simp only [Go.enterNs, Go.linkByName, call_bind, ret_bind, exec_net, entered, found, Bool.not_true,
    Bool.false_eq_true, if_false, reduceCtorEq]
  cases hparse : parseAddr (cidrOf ip) with
  | false =>
    refine ⟨plugged m A B, by simp, by simp [plugged], rfl, ⟨A, by simp [plugged], hns, hname, rfl, ?_⟩, ?_⟩
    · intro h
      cases h
    · intro l hl hl0
      simp only [plugged, List.mem_append, List.mem_cons, List.not_mem_nil, or_false] at hl
      rcases hl with hl | rfl | rfl
      · exact .inl hl
      · exact absurd (hns.symm.trans hl0) hpid
      · exact .inr rfl
  | true =>
    have added : perform t (plugged m A B) (.addrAdd pid a (cidrOf ip)) =
        (true, plugged m { A with addrs := [cidrOf ip] } B) := by
      simp [perform, hplace, hfind A hns hname, haddrs, hmod A _ hns hname]
    have up : perform t (plugged m { A with addrs := [cidrOf ip] } B) (.linkSetUp pid a) =
        (true, plugged m { A with addrs := [cidrOf ip], up := true } B) := by
      simp [perform, hplace, hfind { A with addrs := [cidrOf ip] } hns hname,
        hmod { A with addrs := [cidrOf ip] } _ hns hname]
    obtain ⟨n', hn', hpairs, hlinks⟩ := exec_finish
      (n := plugged m { A with addrs := [cidrOf ip], up := true } B) hplace a
    refine ⟨n', ?_, ?_, hpairs, ⟨{ A with addrs := [cidrOf ip], up := true }, ?_, hns, hname, rfl, fun _ => rfl⟩, ?_⟩
    · simp only [Go.addrAdd, Go.linkSetUp, call_bind, ret_bind, exec_net, added, up, Bool.not_true,
        Bool.false_eq_true, if_false]
      exact hn'
    · rcases hlinks with hl | hl
      · simp [hl, plugged]
      · rw [hl]
        exact mem_modify_of_ne (by simp [plugged]) fun h => hpid (h.1.symm.trans hB)
    · rcases hlinks with hl | hl
      · simp [hl, plugged]
      · rw [hl]
        exact mem_modify_of_ne (by simp [plugged]) fun h => hlo (hname.symm.trans h.2)
    · intro l hl hl0
      have hl' : l ∈ (plugged m { A with addrs := [cidrOf ip], up := true } B).links := by
        rcases hlinks with h | h
        · rwa [h] at hl
        · rw [h] at hl
          obtain ⟨k, hk, rfl⟩ := mem_modify.mp hl
          split at hl0
          · rename_i hk'
            exact absurd (hk'.1.symm.trans hl0) hpid
          · rwa [if_neg ‹_›]
      simp only [plugged, List.mem_append, List.mem_cons, List.not_mem_nil, or_false] at hl'
      rcases hl' with hl' | rfl | rfl
      · exact .inl hl'
      · exact absurd (hns.symm.trans hl0) hpid
      · exact .inr rfl

end Configure

/-- The two ends of a pair by which a process is connected to the bridge. -/
structure Attached (pid : Nat) (a b : IfName) (n : Net) (o i : Link) : Prop where
  outer : o ∈ n.links ∧ o.ns = 0 ∧ o.name = b ∧ o.master = true
  inner : i ∈ n.links ∧ i.ns = pid ∧ i.name = a
  pair : o.pair ≠ 0 ∧ i.pair = o.pair

/-- Where nothing fails the process is connected, with its address if that can be parsed;
and the bridge end is the only one of its name. -/
theorem Ready.attached (h : Ready t n pid a b) (ip : String) (pre : IfName)
    (hv : vethNames pre pid = (a, b)) :
    ∃ n' o i, exec t n (connectProcessToBridge pid ip pre) = (some (parseAddr (cidrOf ip)), n') ∧
      Attached pid a b n' o i ∧ (parseAddr (cidrOf ip) = true → i.addrs = [cidrOf ip]) ∧
      ∀ l ∈ n'.links, l.ns = 0 → l.name = b → l.pair = n.pairs + 1 := by
  obtain ⟨_, h0b, hpa⟩ := h.lacks
  obtain ⟨n', hn', hB, _, ⟨A', hA', hns, hname, hpair, haddrs⟩, hlinks⟩ :=
    exec_configure h.place h.pid_ne h.inside_lo hpa ⟨rfl, rfl, rfl⟩ rfl
      (A := Net.inner n pid a) (B := Net.outer n b) ip
  refine ⟨n', Net.outer n b, A', ?_, ⟨⟨hB, rfl, rfl, rfl⟩, ⟨hA', hns, hname⟩, Nat.succ_ne_zero _, hpair⟩,
    haddrs, ?_⟩
  · rw [h.exec_connect ip pre hv, hn']
  · intro l hl hl0 hlb
    rcases hlinks l hl hl0 with hm | rfl
    · exact absurd ⟨hl0, hlb⟩ (h0b l hm)
    · rfl

end Net

section Host
variable {Y : Yaml} {G : GoIpam} {α : Type}

theorem Op.Connects.isNet {pid : Nat} {a b : IfName} {o : Op} (h : o.Connects pid a b) : o.IsNet := by
  cases o with
  | net o => trivial
  | _ => exact absurd h id

/-- What a link operation does, whether it fails or not. -/
theorem perform_net (c : Choice) (l : Local) (w : World) (o : NetOp) :
    (perform Y G c l w (.net o)).2.2 = w ∨
      (perform Y G c l w (.net o)).2.2 = { w with net := (Net.perform w.procs w.net o).2 } := by
  cases hf : c.fault with
  | none =>
    simp only [perform, attempt, hf]
    exact .inr rfl
  | some n =>
    cases n with
    | zero =>
      simp only [perform, attempt, hf]
      exact .inl rfl
    | succ n =>
      simp only [perform, attempt, hf]
      exact .inr rfl

theorem alive_net (c : Choice) (l : Local) (w : World) (o : NetOp) :
    (Host Y G).alive (perform Y G c l w (.net o)).2.1 (perform Y G c l w (.net o)).2.2 =
      (Host Y G).alive l w := by
  have hw : (perform Y G c l w (.net o)).2.2.procs = w.procs := by
    rcases @perform_net Y G c l w o with h | h <;> rw [h]
  change decide (∃ p ∈ (perform Y G c l w (.net o)).2.2.procs.all, _) = _
  rw [hw]
  rfl

/-- Where nothing fails a program of link operations goes as it goes by itself. -/
theorem exec_net {p : Go α} (hp : Only Op.IsNet p) {c : Nat → (Host Y G).Choice}
    (hc : ∀ n, Choice.fault (c n) = none) {l : (Host Y G).Local} {w : World}
    (hl : (Host Y G).alive l w = true) :
    ((Host Y G).exec c l w p).result = (Net.exec w.procs w.net p).1 ∧
      ((Host Y G).exec c l w p).world = { w with net := (Net.exec w.procs w.net p).2 } ∧
      (Host Y G).alive ((Host Y G).exec c l w p).loc ((Host Y G).exec c l w p).world = true := by
  induction p generalizing l w c with
  | ret a => exact ⟨rfl, rfl, hl⟩
  | halt => exact ⟨rfl, rfl, hl⟩
  | call o k ih =>
    rw [System.exec_alive hl]
    cases o with
    | net o =>
      have hans : ((Host Y G).perform (c 0) l w (.net o)).1 = (Net.perform w.procs w.net o).1 ∧
          ((Host Y G).perform (c 0) l w (.net o)).2.2 =
            { w with net := (Net.perform w.procs w.net o).2 } := by
        simp only [Host, perform, attempt, hc 0]
        exact ⟨rfl, rfl⟩
      have halive := (@alive_net Y G (c 0) l w o).trans hl
      have hrest := ih ((Host Y G).perform (c 0) l w (.net o)).1 (hp.2 _) (c := fun n => c (n + 1))
        (fun n => hc (n + 1)) halive
      have hw : (perform Y G (c 0) l w (.net o)).2.2 = { w with net := (Net.perform w.procs w.net o).2 } :=
        hans.2
      rw [hw] at hrest
      rw [hans.1] at hrest
      rw [hans.1, hans.2]
      exact hrest
    | _ => exact absurd hp.1 id

end Host
end PrivatePaas
