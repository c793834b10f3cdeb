import PrivatePaas.Conduct.Steady
import PrivatePaas.Host.Connect
import PrivatePaas.Registry.Coherent

/-!
# One invocation by itself

Rules for the weakest precondition on the host: what an operation of one kind leaves
alone, and what the smaller functions of the program come to where nothing fails.
-/

namespace PrivatePaas
set_option autoImplicit false
open Files Text Effects Go Network Prog PrivatePaas.Parser

variable {Y : Yaml} {G : GoIpam} {α : Type}
variable {C : (Host Y G).Choice → Prop} {l : Local} {w : World}

/-- No operation fails. -/
def Smooth (c : Choice) : Prop := c.fault = none

/-- Same invocation, same process. -/
structure Local.Same (l l' : Local) : Prop where
  id : l'.id = l.id
  pid : l'.pid = l.pid
  pgid : l'.pgid = l.pgid

theorem Local.Same.refl (l : Local) : l.Same l := ⟨rfl, rfl, rfl⟩

theorem Local.Same.trans {l₁ l₂ l₃ : Local} (h : l₁.Same l₂) (h' : l₂.Same l₃) : l₁.Same l₃ :=
  ⟨h'.id.trans h.id, h'.pid.trans h.pid, h'.pgid.trans h.pgid⟩

theorem Local.Same.own {l l' : Local} (h : l.Same l') : l'.own = l.own := by
  funext p
  rw [Local.own, Local.own, h.id, h.pid]

theorem same_perform {c : Choice} {o : Op} : l.Same (perform Y G c l w o).2.1 := ⟨rfl, rfl, rfl⟩

/-- The process of the invocation is there. -/
def Running (l : Local) (w : World) : Prop := ∃ p ∈ w.procs, l.own p = true

theorem alive_iff : (Host Y G).alive l w = true ↔ Running l w := decide_eq_true_iff

theorem Running.of_procs {l' : Local} {w' : World} (h : Running l w) (hl : l.Same l')
    (hw : w'.procs = w.procs) : Running l' w' := by
  unfold Running
  rw [hl.own, hw]
  exact h

theorem wp_alive {Q : Option α → Local → World → Prop} {o : Op} {k : o.Ret → Go α} (hl : Running l w)
    (h : ∀ c, C c → (Host Y G).wp C Q (perform Y G c l w o).2.1 (perform Y G c l w o).2.2
      (k (perform Y G c l w o).1)) : (Host Y G).wp C Q l w (.call o k) := by
  refine ⟨fun hd => ?_, fun _ => h⟩
  rw [alive_iff.mpr hl] at hd
  cases hd

/-- An operation by itself, whatever is answered. -/
theorem wp_op {Q : Option α → Local → World → Prop} {o : Op} {k : o.Ret → Go α} (dead : Q none l w)
    (h : ∀ c r, C c → (perform Y G c l w o).1 = r →
      (Host Y G).wp C Q (perform Y G c l w o).2.1 (perform Y G c l w o).2.2 (k r)) :
    (Host Y G).wp C Q l w (.call o k) :=
  ⟨fun _ => dead, fun _ c hc => h c _ hc rfl⟩

/-- Where nothing fails an operation does what it is for. -/
theorem perform_smooth {c : Choice} (hc : c.fault = none) (o : Op) :
    (perform Y G c l w o).1 = (act G c l w o).1 ∧ (perform Y G c l w o).2.2 =
      { (act G c l w o).2.2 with past := (act G c l w o).2.2.past.record l w o (act G c l w o).1 } := by
  unfold perform
  rw [attempt_ok hc]
  exact ⟨rfl, rfl⟩

/-- Records, processes and links are what they were. -/
structure Undisturbed (l : Local) (w : World) (l' : Local) (w' : World) : Prop where
  same : l.Same l'
  kv : w'.kv = w.kv
  procs : w'.procs = w.procs
  net : w'.net = w.net
  cwd : w'.cwd = w.cwd
  nextId : w'.nextId = w.nextId

theorem Undisturbed.refl (l : Local) (w : World) : Undisturbed l w l w :=
  ⟨.refl l, rfl, rfl, rfl, rfl, rfl⟩

theorem Undisturbed.trans {l₁ l₂ l₃ : Local} {w₁ w₂ w₃ : World} (h : Undisturbed l₁ w₁ l₂ w₂)
    (h' : Undisturbed l₂ w₂ l₃ w₃) : Undisturbed l₁ w₁ l₃ w₃ :=
  ⟨h.same.trans h'.same, h'.kv.trans h.kv, h'.procs.trans h.procs, h'.net.trans h.net,
    h'.cwd.trans h.cwd, h'.nextId.trans h.nextId⟩

theorem act_net {c : Choice} {o : Op} (h : Calm o) : (act G c l w o).2.2.net = w.net := by
  cases o with
  | ipam st o => cases st <;> rfl
  | proc o => cases o <;> first | rfl | exact absurd h id
  | net o => exact absurd h id
  | _ => rfl

theorem act_procs_of_calm {c : Choice} {o : Op} (h : Calm o) : (act G c l w o).2.2.procs = w.procs := by
  cases o with
  | ipam st o => cases st <;> rfl
  | proc o => cases o <;> first | rfl | exact absurd h id
  | _ => rfl

theorem Calm.remnant {n : Nat} {o o' : Op} (h : Calm o) (hr : o.remnant n = some o') : Calm o' := by
  cases o with
  | fs o => cases o <;> cases hr <;> trivial
  | proc o => cases hr
  | _ => cases hr; exact h

theorem undisturbed_perform {c : Choice} {o : Op} (h : Calm o) :
    Undisturbed l w (perform Y G c l w o).2.1 (perform Y G c l w o).2.2 := by
  have hkv : ¬ o.WritesKv := by
    cases o with
    | kv o => exact absurd h id
    | _ => exact id
  refine ⟨same_perform, perform_kv hkv, ?_, ?_, perform_cwd, perform_nextId⟩
  · exact attempt_elim (P := fun x => x.2.2.procs = w.procs) (act_procs_of_calm h) rfl
      fun _ _ ho => act_procs_of_calm (h.remnant ho)
  · exact attempt_elim (P := fun x => x.2.2.net = w.net) (act_net h) rfl
      fun _ _ ho => act_net (h.remnant ho)

theorem wp_calm {p : Go α} (h : p.Only Calm) :
    (Host Y G).wp C (fun _ l' w' => Undisturbed l w l' w') l w p :=
  System.wp_of_only (Y := Host Y G) (I := fun l' w' => Undisturbed l w l' w')
    (fun _ _ _ _ _ ho hI _ => hI.trans (undisturbed_perform ho)) h (.refl l w)

/-- Such a program in front of another one is skipped. -/
theorem wp_calm_bind {β : Type} {p : Go α} {f : α → Go β} {Q : Option β → Local → World → Prop}
    (h : p.Only Calm)
    (hf : ∀ a l' w', Undisturbed l w l' w' → (Host Y G).wp C Q l' w' (f a))
    (hn : ∀ l' w', Undisturbed l w l' w' → Q none l' w') : (Host Y G).wp C Q l w (p >>= f) := by
  refine System.wp_bind (System.wp_mono (fun r l' w' hu => ?_) (wp_calm h))
  cases r with
  | none => exact hn l' w' hu
  | some a => exact hf a l' w' hu

/-- A program of link operations, where nothing fails. -/
theorem wp_net {p : Go α} (h : p.Only Op.IsNet) (hl : Running l w) :
    (Host Y G).wp Smooth (fun r l' w' => l.Same l' ∧ r = (Net.exec w.procs w.net p).1 ∧
      w' = { w with net := (Net.exec w.procs w.net p).2 }) l w p := by
  have hsame : (Host Y G).wp Smooth (fun _ l' _ => l.Same l') l w p :=
    System.wp_of_only (Y := Host Y G) (I := fun l' _ => l.Same l')
      (fun _ _ _ _ _ _ hI _ => hI.trans same_perform) h (.refl l)
  have hexec : (Host Y G).wp Smooth (fun r _ w' => r = (Net.exec w.procs w.net p).1 ∧
      w' = { w with net := (Net.exec w.procs w.net p).2 }) l w p := by
    refine (System.wp_iff_exec (Y := Host Y G) (C := Smooth) ({} : Choice) rfl).mpr fun c hc => ?_
    have he := exec_net h hc (alive_iff.mpr hl)
    exact ⟨he.1, he.2.1⟩
  exact System.wp_mono (fun _ _ _ h => ⟨h.1, h.2⟩) (System.wp_and hsame hexec)

section Operations
variable {Q : Option α → Local → World → Prop}

theorem wp_probe {o : ProbeOp} {k : Bool → Go α} (hl : Running l w)
    (h : ∀ l', l.Same l' → (Host Y G).wp Smooth Q l' w (k true)) :
    (Host Y G).wp Smooth Q l w (.call (.probe o) k) := by
  refine wp_alive hl fun c hc => ?_
  obtain ⟨hr, hw⟩ := @perform_smooth Y G l w c hc (.probe o)
  rw [hr, hw]
  exact h _ same_perform

/-- An operation on the pool in Redis. -/
theorem wp_redis {o : IpamOp} {k : o.Ret → Go α} (hl : Running l w)
    (h : ∀ c l' past, Smooth c → l.Same l' → (Host Y G).wp Smooth Q l'
      { w with pool := (o.perform G c w.pool).2, past := past } (k (o.perform G c w.pool).1)) :
    (Host Y G).wp Smooth Q l w (.call (.ipam .redis o) k) := by
  refine wp_alive hl fun c hc => ?_
  obtain ⟨hr, hw⟩ := @perform_smooth Y G l w c hc (.ipam .redis o)
  rw [hr, hw]
  exact h c _ _ hc same_perform

/-- A file operation. -/
theorem wp_fs {o : FsOp} {k : o.Ret → Go α} (hl : Running l w)
    (h : ∀ c l' past, Smooth c → l.Same l' → (Host Y G).wp Smooth Q l'
      { w with fs := (o.perform c w.cwd w.fs).2, past := past } (k (o.perform c w.cwd w.fs).1)) :
    (Host Y G).wp Smooth Q l w (.call (.fs o) k) := by
  refine wp_alive hl fun c hc => ?_
  obtain ⟨hr, hw⟩ := @perform_smooth Y G l w c hc (.fs o)
  rw [hr, hw]
  exact h c _ _ hc same_perform

theorem wp_readFile {p : Path} {k : Except Err String → Go α} (hl : Running l w)
    (h : ∀ l', l.Same l' → (Host Y G).wp Smooth Q l' w (k (w.fs.read p))) :
    (Host Y G).wp Smooth Q l w (.call (.fs (.readFile p)) k) := by
  refine wp_alive hl fun c hc => ?_
  obtain ⟨hr, hw⟩ := @perform_smooth Y G l w c hc (.fs (.readFile p))
  rw [hr, hw]
  exact h _ same_perform

theorem wp_get {key : String} {k : Option String → Go α} (hl : Running l w)
    (h : ∀ l', l.Same l' → (Host Y G).wp Smooth Q l' w (k ((w.kv key).map Entry.value))) :
    (Host Y G).wp Smooth Q l w (.call (.kv (.get key)) k) := by
  refine wp_alive hl fun c hc => ?_
  obtain ⟨hr, hw⟩ := @perform_smooth Y G l w c hc (.kv (.get key))
  rw [hr, hw]
  exact h _ same_perform

theorem wp_kill {n : Int} {sg : Signal} {k : Option Errno → Go α} (hl : Running l w)
    (h : ∀ l' r past, l.Same l' → (Host Y G).wp Smooth Q l' { (w.kill l n sg).2 with past := past } (k r)) :
    (Host Y G).wp Smooth Q l w (.call (.proc (.kill n sg)) k) := by
  refine wp_alive hl fun c hc => ?_
  obtain ⟨hr, hw⟩ := @perform_smooth Y G l w c hc (.proc (.kill n sg))
  rw [hr, hw]
  exact h _ _ _ same_perform

theorem wp_signal0 {n : Int} {k : Bool → Go α} (hl : Running l w) (hn : ∃ p ∈ w.procs.all, l.aims n p = true)
    (h : ∀ l', l.Same l' → (Host Y G).wp Smooth Q l' w (k true)) :
    (Host Y G).wp Smooth Q l w (.call (.proc (.signal0 n)) k) := by
  refine wp_alive hl fun c hc => ?_
  obtain ⟨hr, hw⟩ := @perform_smooth Y G l w c hc (.proc (.signal0 n))
  have ht : (act G c l w (.proc (.signal0 n))).1 = true := decide_eq_true hn
  rw [hr, hw, ht]
  exact h _ same_perform

/-- The pool as `GetIpam` finds it, or as it makes it. -/
def World.prefixed (w : World) : Finset String := w.pool.getD {host 0, host 255, host 254}

/-- Where nothing fails the pool is the one in Redis. -/
theorem wp_getIpam {β : Type} {f : Option Storage → Go β} {Q : Option β → Local → World → Prop}
    (hl : Running l w)
    (h : ∀ l' past, l.Same l' → (Host Y G).wp Smooth Q l'
      { w with pool := some w.prefixed, past := past } (f (some .redis))) :
    (Host Y G).wp Smooth Q l w (getIpam >>= f) := by
  refine wp_probe hl fun l₁ h₁ => wp_probe (hl.of_procs h₁ rfl) fun l₂ h₂ => ?_
  have hl₂ : Running l₂ w := (hl.of_procs h₁ rfl).of_procs h₂ rfl
  refine wp_redis hl₂ fun c₃ l₃ past₃ hc₃ h₃ => ?_
  have hsame : l.Same l₃ := (h₁.trans h₂).trans h₃
  cases hp : w.pool with
  | some s =>
    have hs : w.prefixed = s := by rw [World.prefixed, hp, Option.getD_some]
    have hk := h l₃ past₃ hsame
    rw [hs] at hk
    exact hk
  | none =>
    have hs : w.prefixed = {host 0, host 255, host 254} := by rw [World.prefixed, hp, Option.getD_none]
    refine wp_redis (hl.of_procs hsame rfl) fun c₄ l₄ past₄ hc₄ h₄ => ?_
    refine wp_redis (hl.of_procs (hsame.trans h₄) rfl) fun c₅ l₅ past₅ hc₅ h₅ => ?_
    have hne : host 254 ∉ ({host 0, host 255} : Finset String) := by decide
    have hk := h l₅ past₅ ((hsame.trans h₄).trans h₅)
    rw [hs] at hk
    have hins : insert (host 254) ({host 0, host 255} : Finset String) = {host 0, host 255, host 254} := by
      decide
    simp only [IpamOp.perform, if_neg hne, hins]
    exact hk

/-- There is an address to be had. -/
def World.Stocked (G : GoIpam) (w : World) : Prop := ∀ s, w.pool = some s → G.acquireIP s ≠ none

/-- Where nothing fails a create is given an address, if there is one. -/
theorem wp_getIp (hG : G.Lawful) (hl : Running l w) :
    (Host Y G).wp Smooth (fun r l' w' => Undisturbed l w l' w' ∧ ∃ ip, r = some ip ∧
      (ip = "" ∧ ¬ w.Stocked G ∨ ip ∈ hosts ∧ w.Stocked G)) l w getIp := by
  refine System.wp_and (wp_calm calm_getIp) (wp_getIpam hl fun l₁ past₁ h₁ => ?_)
  refine wp_redis (hl.of_procs h₁ rfl) fun c₂ l₂ past₂ hc₂ h₂ => ?_
  have hstock : G.acquireIP w.prefixed ≠ none ↔ w.Stocked G := by
    unfold World.prefixed World.Stocked
    cases w.pool with
    | some s => simp
    | none =>
      simp only [Option.getD_none, reduceCtorEq, false_implies, implies_true, iff_true]
      intro hnone
      exact absurd (hG.full _ hnone (host 1) (mem_hosts.mpr ⟨1, by decide, rfl⟩)) (by decide)
  cases ha : G.acquireIP w.prefixed with
  | none =>
    simp only [IpamOp.perform, ha]
    exact ⟨"", rfl, .inl ⟨rfl, fun hs => hstock.mpr hs ha⟩⟩
  | some a =>
    simp only [IpamOp.perform, ha]
    exact ⟨a, rfl, .inr ⟨hG.host _ _ ha, hstock.mp (by rw [ha]; simp)⟩⟩

end Operations
end PrivatePaas
