import PrivatePaas.Conduct.Dues
import PrivatePaas.Conduct.Envoy
import PrivatePaas.Conduct.Lb
import PrivatePaas.Conduct.Ledger
import PrivatePaas.Host.World

/-!
# The monitors on the host

Every invocation carries the four monitors from its launch on, so that in every
state of every run each operation comes in a stage in which it is due.
-/

namespace PrivatePaas
set_option autoImplicit false
open Files Text Effects Network PrivatePaas.Parser

variable {Y : Yaml} {G : GoIpam} {ι : Type} [DecidableEq ι]

theorem enter_spec {x : Launch} {w w' : World} {l : Local} {p : Go Unit}
    (h : enter Y x w = some (l, p, w')) :
    (w.procs.Free x.pid ∧ 1 < x.pid ∧ x.pid < pidMax) ∧ p = x.task.program Y ∧
      l.ledger = ⟨x.task.outset, false, false⟩ ∧ l.dues = {} ∧ l.envoy = .quiet ∧
      l.lb = ⟨.idle, false⟩ := by
  unfold enter at h
  split at h
  · rename_i hx
    simp only [Option.some.injEq, Prod.mk.injEq] at h
    obtain ⟨rfl, rfl, rfl⟩ := h
    exact ⟨hx, rfl, rfl, rfl, rfl, rfl⟩
  · cases h

theorem program_ledger (t : Task) :
    (ledger Y).Obeys ⟨t.outset, false, false⟩ (t.program Y) fun l _ => l.final := by
  have rest : ∀ l : Ledger, l.At .done → l.final := by
    intro l h
    refine ⟨?_, h.2⟩
    rw [h.1]
    trivial
  cases t with
  | create path => exact ledger_runCreate ⟨rfl, rfl⟩ path
  | delete type_ name => exact ledger_runDelete type_ name ⟨rfl, rfl⟩
  | updateLb c =>
    exact (ledger_updateLbConfig (s := .done) (by simp) ⟨rfl, rfl⟩ c).mono fun l _ h => rest l h
  | startEnvoy =>
    exact (ledger_startEnvoy (s := .done) (by simp) ⟨rfl, rfl⟩).bind fun l _ h => rest l h
  | stopEnvoy =>
    exact ledger_skip (by simp [Task.outset]) (quiet_stopEnvoy.mono fun _ => Quiet.offLedger) fun _ =>
      ⟨trivial, rfl⟩

theorem program_dues (t : Task) :
    (dues Y).Obeys {} (t.program Y) fun d _ => d.debt.final := by
  have hclear : Debt.final (Dues.debt {}) := .inl rfl
  cases t with
  | create path => exact dues_runCreate hclear path
  | delete type_ name => exact dues_runDelete hclear type_ name
  | updateLb c => exact dues_updateLbConfig hclear c
  | startEnvoy => exact (dues_startEnvoy hclear.ne_unreleased).bind fun _ _ h => h
  | stopEnvoy => exact dues_skip (quiet_stopEnvoy.mono fun _ => Quiet.offDues) fun _ => hclear

theorem program_envoy (t : Task) (s : EnvoyStage) :
    envoy.Obeys s (t.program Y) fun _ _ => True := by
  cases t with
  | create path => exact envoy_runCreate path
  | delete type_ name => exact envoy_runDelete type_ name
  | updateLb c => exact envoy_updateLbConfig c
  | startEnvoy => exact envoy_startEnvoy.bind fun _ _ _ => trivial
  | stopEnvoy => exact envoy_stopEnvoy.bind fun _ _ _ => trivial

theorem program_lb (t : Task) :
    (lb Y).Obeys ⟨.idle, false⟩ (t.program Y) fun s _ => s.final := by
  cases t with
  | create path => exact lb_runCreate rfl path
  | delete type_ name => exact (lb_runDelete rfl type_ name).mono fun s _ h => .inl h
  | updateLb c => exact (lb_updateLbConfig rfl c).mono fun s _ h => h.1
  | startEnvoy => exact (lb_startEnvoy (.inl rfl)).bind fun s _ h => h.1
  | stopEnvoy =>
    refine (lb_stopEnvoy rfl).bind fun s _ h => ?_
    subst s
    exact .inl rfl

def ledgerWatch (Y : Yaml) (G : GoIpam) : Watch (Host Y G) (ledger Y) where
  state := Local.ledger
  fin l := l.final
  perform_state _ _ _ _ := rfl
  enter_obeys x w l p w' h := by
    obtain ⟨_, rfl, hl, _⟩ := enter_spec h
    rw [hl]
    exact program_ledger x.task

def duesWatch (Y : Yaml) (G : GoIpam) : Watch (Host Y G) (dues Y) where
  state := Local.dues
  fin d := d.debt.final
  perform_state _ _ _ _ := rfl
  enter_obeys x w l p w' h := by
    obtain ⟨_, rfl, _, hl, _⟩ := enter_spec h
    rw [hl]
    exact program_dues x.task

def envoyWatch (Y : Yaml) (G : GoIpam) : Watch (Host Y G) envoy where
  state := Local.envoy
  fin _ := True
  perform_state _ _ _ _ := rfl
  enter_obeys x w l p w' h := by
    obtain ⟨_, rfl, _⟩ := enter_spec h
    exact program_envoy x.task _

def lbWatch (Y : Yaml) (G : GoIpam) : Watch (Host Y G) (lb Y) where
  state := Local.lb
  fin s := s.final
  perform_state _ _ _ _ := rfl
  enter_obeys x w l p w' h := by
    obtain ⟨_, rfl, _, _, _, hl⟩ := enter_spec h
    rw [hl]
    exact program_lb x.task

end PrivatePaas
