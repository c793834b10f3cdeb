import PrivatePaas.Effects.Exec
import PrivatePaas.Host.Links

/-!
# Packets and the INPUT chain

A chain is searched from the front; a packet that no rule matches is accepted.
-/

namespace PrivatePaas
set_option autoImplicit false
open Text Effects Network Prog

/-- What the rules of the program can see of a packet. -/
structure Packet where
  lo : Bool
  established : Bool
  source : BitVec 32

/-- The number behind a dotted address. -/
def addrValue (s : String) : Nat := (split '.' s).foldl (fun n d => 256 * n + (atoi d).1.toNat) 0

/-- The addresses that `a.b.c.d/n` stands for. -/
def cidrContains (cidr : String) (a : BitVec 32) : Bool :=
  match split '/' cidr with
  | [base, n] =>
    a.toNat / 2 ^ (32 - (atoi n).1.toNat) = addrValue base / 2 ^ (32 - (atoi n).1.toNat)
  | _ => false

/-- The subnet of the bridge, 10.0.0.0/24. -/
def inSubnet (a : BitVec 32) : Prop := a.toNat / 256 = 10 * 256 * 256

/-- A packet that a workload must not get. -/
def Packet.Outside (p : Packet) : Prop :=
  p.lo = false ∧ p.established = false ∧ ¬ inSubnet p.source

inductive Verdict where
  | accept
  | drop
deriving DecidableEq

namespace Rule

def matches? (p : Packet) : Rule → Bool
  | acceptLo => p.lo
  | acceptEstablished => p.established
  | acceptSource cidr => cidrContains cidr p.source
  | drop => true

def target : Rule → Verdict
  | drop => .drop
  | _ => .accept

end Rule

def verdict (rules : List Rule) (p : Packet) : Verdict :=
  match rules.find? (Rule.matches? p) with
  | some r => r.target
  | none => .accept

theorem cidrContains_subnet {a : BitVec 32} : cidrContains "10.0.0.0/24" a = true ↔ inSubnet a := by
  have hs : split '/' "10.0.0.0/24" = ["10.0.0.0", "24"] := by decide
  have hn : (atoi "24").1.toNat = 24 := by decide
  have ha : addrValue "10.0.0.0" = 167772160 := by decide
  simp [cidrContains, hs, hn, ha, inSubnet]

/-- An address outside the subnet. -/
theorem exists_outside : ∃ p : Packet, p.Outside :=
  ⟨⟨false, false, 0⟩, rfl, rfl, by simp [inSubnet]⟩

/-- Of the rules that the program writes only the last one matches such a packet. -/
theorem matches_outside {p : Packet} (hp : p.Outside) {r : Rule} (hr : r ∈ firewall) :
    r.matches? p = true ↔ r = .drop := by
  obtain ⟨hlo, hest, hsrc⟩ := hp
  simp only [firewall, List.mem_cons, List.not_mem_nil, or_false] at hr
  rcases hr with rfl | rfl | rfl | rfl
  · simp [Rule.matches?, hlo]
  · simp [Rule.matches?, hest]
  · simp [Rule.matches?, cidrContains_subnet, hsrc]
  · simp [Rule.matches?]

theorem verdict_outside {p : Packet} (hp : p.Outside) {rules : List Rule}
    (hr : ∀ r ∈ rules, r ∈ firewall) : verdict rules p = .drop ↔ .drop ∈ rules := by
  unfold verdict
  cases h : rules.find? (Rule.matches? p) with
  | none =>
    simp only [reduceCtorEq, false_iff]
    intro hd
    exact absurd rfl (List.find?_eq_none.mp h _ hd)
  | some r =>
    have hm := List.mem_of_find?_eq_some h
    obtain rfl := (matches_outside hp (hr r hm)).mp (List.find?_some h)
    simp [Rule.target, hm]

/-- The rules that the commands of a run have appended in the namespace of a process. -/
def appended (pid : Nat) (tr : List ((o : Op) × o.Ret)) : List Rule :=
  tr.filterMap fun
    | ⟨.net (.iptablesAppend n r), done⟩ => if n = pid ∧ done = true then some r else none
    | _ => none

theorem mem_appended {pid : Nat} {tr : List ((o : Op) × o.Ret)} {r : Rule} :
    r ∈ appended pid tr ↔ ⟨.net (.iptablesAppend pid r), true⟩ ∈ tr := by
  simp only [appended, List.mem_filterMap]
  constructor
  · rintro ⟨x, hx, h⟩
    split at h
    · split at h
      · rename_i hc
        obtain ⟨rfl, rfl⟩ := hc
        obtain rfl := Option.some.inj h
        exact hx
      · cases h
    · cases h
  · intro h
    exact ⟨_, h, by simp⟩

theorem appended_append (pid : Nat) (s t : List ((o : Op) × o.Ret)) :
    appended pid (s ++ t) = appended pid s ++ appended pid t := List.filterMap_append

namespace Net

/-- The INPUT chain of a namespace. -/
def input (n : Net) (ns : Nat) : List Rule :=
  n.rules.filterMap fun r => if r.1 = ns then some r.2 else none

end Net

end PrivatePaas
