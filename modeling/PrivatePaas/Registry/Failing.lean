import PrivatePaas.Effects.Angelic
import PrivatePaas.Registry.Rules

/-!
# What a program comes to where its operations fail

An operation that fails at once changes nothing. So a program whose operations all
fail leaves the world as it is, and what it returns can be read off it.
-/

namespace PrivatePaas
set_option autoImplicit false
open Files Text Effects Go Network Prog PrivatePaas.Parser

variable {Y : Yaml} {G : GoIpam} {α β : Type}

/-- What the program returns when every operation fails. -/
def failing : Go α → Option α
  | .ret a => some a
  | .halt => none
  | .call o k => failing (k o.failure)

@[simp] theorem failing_ret (a : α) : failing (.ret a) = some a := rfl

@[simp] theorem failing_halt : failing (.halt : Go α) = none := rfl

@[simp] theorem failing_call {o : Op} {k : o.Ret → Go α} : failing (.call o k) = failing (k o.failure) := rfl

@[simp] theorem failing_bind (p : Go α) (f : α → Go β) :
    failing (p >>= f) = (failing p).bind fun a => failing (f a) := by
  induction p with
  | ret a => rfl
  | halt => rfl
  | call o k ih => exact ih _

section Operations
variable {l : Local} {w : World} {o : Op} {Q : Option α → Local → World → Prop}

theorem record_failure (h : Past) (l : Local) (w : World) (o : Op) : h.record l w o o.failure = h := by
  cases o with
  | ipam st o => cases st <;> cases o <;> rfl
  | proc o =>
    cases o with
    | start cmd => exact if_pos (.inr rfl)
    | _ => rfl
  | _ => rfl

/-- An operation that fails before it does anything. -/
theorem perform_failed : perform Y G { fault := some 0 } l w o =
    (o.failure, { l.observe Y w o o.failure with mem := l.mem }, w) := by
  have h : ({ w with past := w.past.record l w o o.failure } : World) = w := by
    rw [record_failure]
  exact congrArg (fun w' => (o.failure, ({ l.observe Y w o o.failure with mem := l.mem } : Local), w')) h

/-- Nothing is excluded. -/
abbrev Anyhow : (Host Y G).Choice → Prop := fun _ => True

theorem may_op {k : o.Ret → Go α} (hl : Running l w) (c : Choice)
    (h : (Host Y G).may Anyhow Q (perform Y G c l w o).2.1 (perform Y G c l w o).2.2
      (k (perform Y G c l w o).1)) : (Host Y G).may Anyhow Q l w (.call o k) :=
  System.may_call (alive_iff.mpr hl) c trivial h

/-- A program all of whose operations fail. -/
theorem may_failing {p : Go α} (hl : Running l w) (h : ∀ l', l.Same l' → Q (failing p) l' w) :
    (Host Y G).may Anyhow Q l w p := by
  induction p generalizing l with
  | ret a => exact h l (.refl l)
  | halt => exact h l (.refl l)
  | call o k ih =>
    refine may_op hl { fault := some 0 } ?_
    have hsame : l.Same (perform Y G { fault := some 0 } l w o).2.1 := same_perform
    rw [perform_failed] at hsame ⊢
    exact ih _ (hl.of_procs hsame rfl) fun l' hl' => h l' (hsame.trans hl')

/-- It can stand in front of another one. -/
theorem may_skip {p : Go α} {f : α → Go β} {a : α} {Q : Option β → Local → World → Prop} (hl : Running l w)
    (hp : failing p = some a) (h : ∀ l', l.Same l' → (Host Y G).may Anyhow Q l' w (f a)) :
    (Host Y G).may Anyhow Q l w (p >>= f) :=
  System.may_bind (may_failing hl fun l' hl' => ⟨a, hp, h l' hl'⟩)

/-- An operation that does not fail. -/
theorem may_smooth {k : o.Ret → Go α} (hl : Running l w)
    (h : ∀ l' past, l.Same l' → (Host Y G).may Anyhow Q l' { (act G {} l w o).2.2 with past := past }
      (k (act G {} l w o).1)) : (Host Y G).may Anyhow Q l w (.call o k) := by
  refine may_op hl {} ?_
  obtain ⟨hr, hw⟩ := @perform_smooth Y G l w {} rfl o
  rw [hr, hw]
  exact h _ _ same_perform

theorem may_probe {o : ProbeOp} {k : Bool → Go α} (hl : Running l w)
    (h : ∀ l', l.Same l' → (Host Y G).may Anyhow Q l' w (k true)) :
    (Host Y G).may Anyhow Q l w (.call (.probe o) k) := by
  refine may_op hl {} ?_
  obtain ⟨hr, hw⟩ := @perform_smooth Y G l w {} rfl (.probe o)
  rw [hr, hw]
  exact h _ same_perform

theorem may_get {key : String} {k : Option String → Go α} (hl : Running l w)
    (h : ∀ l', l.Same l' → (Host Y G).may Anyhow Q l' w (k ((w.kv key).map Entry.value))) :
    (Host Y G).may Anyhow Q l w (.call (.kv (.get key)) k) := by
  refine may_op hl {} ?_
  obtain ⟨hr, hw⟩ := @perform_smooth Y G l w {} rfl (.kv (.get key))
  rw [hr, hw]
  exact h _ same_perform

theorem may_redis {o : IpamOp} {k : o.Ret → Go α} (hl : Running l w)
    (h : ∀ l' past, l.Same l' → (Host Y G).may Anyhow Q l'
      { w with pool := (o.perform G {} w.pool).2, past := past } (k (o.perform G {} w.pool).1)) :
    (Host Y G).may Anyhow Q l w (.call (.ipam .redis o) k) :=
  may_smooth hl fun l' past hl' => h l' past hl'

theorem may_fs {o : FsOp} {k : o.Ret → Go α} (hl : Running l w)
    (h : ∀ l' past, l.Same l' → (Host Y G).may Anyhow Q l'
      { w with fs := (o.perform {} w.cwd w.fs).2, past := past } (k (o.perform {} w.cwd w.fs).1)) :
    (Host Y G).may Anyhow Q l w (.call (.fs o) k) :=
  may_smooth hl fun l' past hl' => h l' past hl'

theorem may_proc {o : ProcOp} {k : o.Ret → Go α} (hl : Running l w)
    (h : ∀ l' past, l.Same l' → (Host Y G).may Anyhow Q l' { (w.performProc l {} o).2 with past := past }
      (k (w.performProc l {} o).1)) : (Host Y G).may Anyhow Q l w (.call (.proc o) k) :=
  may_smooth hl fun l' past hl' => h l' past hl'

theorem may_readFile {p : Path} {k : Except Err String → Go α} (hl : Running l w)
    (h : ∀ l', l.Same l' → (Host Y G).may Anyhow Q l' w (k (w.fs.read p))) :
    (Host Y G).may Anyhow Q l w (.call (.fs (.readFile p)) k) := by
  refine may_op hl {} ?_
  obtain ⟨hr, hw⟩ := @perform_smooth Y G l w {} rfl (.fs (.readFile p))
  rw [hr, hw]
  exact h _ same_perform

theorem may_signal0 {n : Int} {k : Bool → Go α} (hl : Running l w) (hn : ∃ p ∈ w.procs.all, l.aims n p = true)
    (h : ∀ l', l.Same l' → (Host Y G).may Anyhow Q l' w (k true)) :
    (Host Y G).may Anyhow Q l w (.call (.proc (.signal0 n)) k) := by
  refine may_op hl {} ?_
  obtain ⟨hr, hw⟩ := @perform_smooth Y G l w {} rfl (.proc (.signal0 n))
  have ht : (act G {} l w (.proc (.signal0 n))).1 = true := decide_eq_true hn
  rw [hr, hw, ht]
  exact h _ same_perform

/-- The pool in Redis that is there already. -/
theorem may_getIpam {s : Finset String} {f : Option Storage → Go α} (hl : Running l w) (hs : w.pool = some s)
    (h : ∀ l' past, l.Same l' → (Host Y G).may Anyhow Q l' { w with past := past } (f (some .redis))) :
    (Host Y G).may Anyhow Q l w (getIpam >>= f) := by
  refine may_probe hl fun l₁ h₁ => may_probe (hl.of_procs h₁ rfl) fun l₂ h₂ => ?_
  refine may_redis ((hl.of_procs h₁ rfl).of_procs h₂ rfl) fun l₃ past₃ h₃ => ?_
  have hsome : w.pool.isSome = true := by rw [hs, Option.isSome_some]
  simp only [IpamOp.perform, hsome]
  exact h l₃ past₃ ((h₁.trans h₂).trans h₃)

end Operations
end PrivatePaas
