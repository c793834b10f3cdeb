import PrivatePaas.Host.Operations

/-!
# The process table

No two processes in the table have one pid. `owner` and `ip` are labels for the
proofs: the invocation that started the process and the address it was started for.
-/

namespace PrivatePaas
set_option autoImplicit false

inductive Role where
  | workload
  | envoy
  | cli
  | other
deriving DecidableEq, Repr

structure Proc where
  pid : Nat
  pgid : Nat
  role : Role
  owner : Nat := 0
  ip : String := ""
  termed : Bool := false
deriving DecidableEq, Repr

structure Procs where
  all : List Proc
  distinct : all.Pairwise fun p q => p.pid ≠ q.pid

namespace Procs

instance : Membership Proc Procs := ⟨fun t p => p ∈ t.all⟩

theorem mem_def {t : Procs} {p : Proc} : p ∈ t ↔ p ∈ t.all := Iff.rfl

instance (t : Procs) (p : Proc) : Decidable (p ∈ t) := inferInstanceAs (Decidable (p ∈ t.all))

/-- No process has the pid `n`. -/
def Free (t : Procs) (n : Nat) : Prop := ∀ p ∈ t.all, p.pid ≠ n

instance (t : Procs) (n : Nat) : Decidable (t.Free n) :=
  inferInstanceAs (Decidable (∀ p ∈ t.all, p.pid ≠ n))

def add (t : Procs) (p : Proc) (h : t.Free p.pid) : Procs where
  all := p :: t.all
  distinct := List.pairwise_cons.mpr ⟨fun q hq => (h q hq).symm, t.distinct⟩

def keep (t : Procs) (f : Proc → Bool) : Procs where
  all := t.all.filter f
  distinct := t.distinct.filter f

/-- The processes that `f` picks have been sent SIGTERM. -/
def term (t : Procs) (f : Proc → Bool) : Procs where
  all := t.all.map fun p => if f p then { p with termed := true } else p
  distinct := by
    refine List.pairwise_map.mpr (t.distinct.imp ?_)
    intro p q h
    split <;> split <;> exact h

@[simp] theorem mem_add {t : Procs} {p q : Proc} {h : t.Free p.pid} :
    q ∈ t.add p h ↔ q = p ∨ q ∈ t := List.mem_cons

@[simp] theorem mem_keep {t : Procs} {f : Proc → Bool} {q : Proc} :
    q ∈ t.keep f ↔ q ∈ t ∧ f q = true := List.mem_filter

/-- A process with a pid is the only one. -/
theorem eq_of_pid {t : Procs} {p q : Proc} (hp : p ∈ t) (hq : q ∈ t) (h : p.pid = q.pid) :
    p = q := by
  have symm : Std.Symm fun p q : Proc => p.pid ≠ q.pid := ⟨fun _ _ hpq => hpq.symm⟩
  by_contra hne
  exact t.distinct.forall hp hq hne h

theorem exists_of_mem_term {t : Procs} {f : Proc → Bool} {q : Proc} (h : q ∈ t.term f) :
    ∃ p ∈ t, q = { p with termed := q.termed } := by
  obtain ⟨p, hp, hq⟩ := List.mem_map.mp h
  refine ⟨p, hp, ?_⟩
  split at hq <;> rw [← hq]

/-- Who has not been sent SIGTERM was not picked. -/
theorem mem_of_term {t : Procs} {f : Proc → Bool} {q : Proc} (h : q ∈ t.term f) (hq : q.termed = false) :
    q ∈ t ∧ f q = false := by
  obtain ⟨p, hp, he⟩ := List.mem_map.mp h
  split at he
  · subst he
    cases hq
  · rename_i hf
    subst he
    exact ⟨hp, by simpa using hf⟩

theorem mem_term {t : Procs} {f : Proc → Bool} {p : Proc} (h : p ∈ t) :
    ∃ b, { p with termed := b } ∈ t.term f := by
  by_cases hf : f p = true
  · exact ⟨true, List.mem_map.mpr ⟨p, h, by simp [hf]⟩⟩
  · exact ⟨p.termed, List.mem_map.mpr ⟨p, h, by simp [hf]⟩⟩

/-- The processes a pid argument of `kill(2)` names: one process, the group of the
sender, all but init and the sender, or a group. -/
def named (n : Int) (self group : Nat) (p : Proc) : Bool :=
  if 0 < n then p.pid = n
  else if n = 0 then p.pgid = group
  else if n = -1 then p.pid ≠ 1 ∧ p.pid ≠ self
  else p.pgid = -n

theorem named_of_pos {n : Int} {self group : Nat} {p : Proc} (hn : 0 < n) :
    named n self group p = true ↔ (p.pid : Int) = n := by
  simp [named, hn]

/-- Pid and group decide. -/
theorem named_congr {n : Int} {self group : Nat} {p q : Proc} (hpid : p.pid = q.pid) (hpgid : p.pgid = q.pgid) :
    named n self group p = named n self group q := by
  unfold named
  rw [hpid, hpgid]

end Procs

/-- A pid argument as the kernel reads it: 32 bits, signed. -/
def pidArg (n : Int) : Int := n.bmod (2 ^ 32)

theorem pidArg_natCast {n : Nat} (h : n < 2 ^ 31) : pidArg n = n := by
  unfold pidArg
  rw [Int.bmod_eq_of_le] <;> omega

/-- One more than the largest pid. -/
def pidMax : Nat := 4194304

end PrivatePaas
