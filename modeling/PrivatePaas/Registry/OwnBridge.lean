import PrivatePaas.Conduct.Steady
import PrivatePaas.Effects.History
import PrivatePaas.Registry.Creation

/-!
# Nothing else is called `br0`

No invocation gives another link the name of the bridge, so that `CreateBridge` returns
wherever nothing fails.
-/

namespace PrivatePaas
set_option autoImplicit false
open Files Text Effects Go Network Prog PrivatePaas.Parser

variable {Y : Yaml} {G : GoIpam} {ι : Type}

namespace Net
variable {t : Procs} {n : Net}

/-- Nothing but a bridge is called `br0`. -/
def OwnBridge (n : Net) : Prop := ∀ k ∈ n.links, k.name = br0 → k.bridge = true

theorem OwnBridge.mono {n' : Net} (h : n.OwnBridge) (hn : ∀ k ∈ n'.links, k ∈ n.links) : n'.OwnBridge :=
  fun k hk hname => h k (hn k hk) hname

theorem OwnBridge.append (h : n.OwnBridge) {ks : List Link} (hks : ∀ k ∈ ks, k.name = br0 → k.bridge = true)
    (m : Nat) : OwnBridge { n with links := n.links ++ ks, pairs := m } := by
  intro k hk hname
  rcases List.mem_append.mp hk with hk | hk
  · exact h k hk hname
  · exact hks k hk hname

theorem OwnBridge.modify (h : n.OwnBridge) {ns : Nat} {name : IfName} {f : Link → Link}
    (hf : ∀ k, (f k).name = k.name ∧ (f k).bridge = k.bridge) : (n.modify ns name f).OwnBridge := by
  intro k hk hname
  obtain ⟨k', hk', rfl⟩ := mem_modify.mp hk
  split
  · rename_i hm
    rw [if_pos hm, (hf k').1] at hname
    rw [(hf k').2]
    exact h k' hk' hname
  · rename_i hm
    rw [if_neg hm] at hname
    exact h k' hk' hname

theorem OwnBridge.sweep (h : n.OwnBridge) (t : Procs) : (n.sweep t).OwnBridge :=
  h.mono fun _ hk => (mem_sweep.mp hk).1

theorem OwnBridge.addNamespace (h : n.OwnBridge) (pid : Nat) : (n.addNamespace pid).OwnBridge := by
  refine h.append (fun k hk hname => ?_) n.pairs
  obtain rfl := List.mem_singleton.mp hk
  exact absurd hname (show bytes "lo" ≠ br0 by decide)

end Net

/-- The ends of a pair are called `v-` and something. -/
def Op.NamesVeth : Op → Prop
  | .net (.linkAddVeth name peer) => bytes "v-" <+: name ∧ bytes "v-" <+: peer
  | _ => True

theorem Net.assign_ne_br0 {n : Net} {name a : IfName} (h : n.assign name = some a)
    (hv : bytes "v-" <+: name) : a ≠ br0 := by
  rintro rfl
  exact absurd (Net.assign_begins h hv) (by decide)

theorem Net.OwnBridge.perform {t : Procs} {n : Net} (h : n.OwnBridge) {o : NetOp} (ho : (Op.net o).NamesVeth) :
    (Net.perform t n o).2.OwnBridge := by
  cases o with
  | linkByName ns name => exact h
  | enterNs pid => exact h
  | linkDel name =>
    simp only [Net.perform]
    split
    · exact h
    · exact h.mono fun _ hk => (mem_delete.mp hk).1
  | linkAddBridge name =>
    rcases Net.addBridge_cases t n name with hp | ⟨c, _, hp⟩
    · rw [hp]
      exact h
    · rw [hp]
      refine h.append (fun k hk _ => ?_) _
      obtain rfl := List.mem_singleton.mp hk
      rfl
  | linkAddVeth name peer =>
    rcases Net.addVeth_cases t n name peer with hp | ⟨a, b, hb, ha, hp⟩
    · rw [hp]
      exact h
    · rw [hp]
      refine h.append (fun k hk hname => ?_) _
      simp only [List.mem_cons, List.not_mem_nil, or_false] at hk
      rcases hk with rfl | rfl
      · exact absurd hname (Net.assign_ne_br0 ha ho.1)
      · exact absurd hname (Net.assign_ne_br0 hb ho.2)
  | linkSetUp pid name =>
    simp only [Net.perform]
    split
    · exact h
    · split
      · exact h.modify fun _ => ⟨rfl, rfl⟩
      · exact h
  | addrAdd pid name cidr =>
    simp only [Net.perform]
    split
    · exact h
    · split
      · exact h
      · split
        · exact h
        · exact h.modify fun _ => ⟨rfl, rfl⟩
  | linkSetMaster name =>
    simp only [Net.perform]
    split
    · exact h.modify fun _ => ⟨rfl, rfl⟩
    · exact h
  | linkSetNs name pid =>
    simp only [Net.perform]
    split
    · exact h
    · split
      · exact h.modify fun _ => ⟨rfl, rfl⟩
      · exact h
  | iptablesAppend pid rule =>
    simp only [Net.perform]
    split <;> exact h

section Bridge
variable {t : Procs} {n : Net}

/-- A bridge that is there is found. -/
theorem Net.look_bridge (h : n.OwnBridge) (hk : ∃ k ∈ n.links, k.ns = 0 ∧ k.name = br0) :
    (Net.perform t n (.linkByName 0 br0)).1 = some true := by
  change ((Net.place t 0).bind fun ns => n.find ns br0).map Link.bridge = some true
  rw [Net.place_zero, Option.bind_some]
  cases hf : n.find 0 br0 with
  | none =>
    obtain ⟨k, hk, hns, hname⟩ := hk
    exact absurd ⟨hns, hname⟩ (Net.find_eq_none.mp hf k hk)
  | some k =>
    obtain ⟨hk, _, hname⟩ := Net.find_spec hf
    rw [Option.map_some, h k hk hname]

/-- `CreateBridge` returns where no other link is in its way. -/
theorem Net.createBridge_returns (h : n.OwnBridge) : (Net.exec t n createBridge).1 = some () := by
  unfold createBridge
  simp only [Go.linkByName, Go.linkAddBridge, Go.linkSetUp, Go.addrAdd, call_bind, ret_bind, Net.exec_net]
  by_cases hfirst : (Net.perform t n (.linkByName 0 br0)).1 = some true
  · rw [if_pos hfirst]
    rfl
  rw [if_neg hfirst]
  have hsame : (Net.perform t n (.linkByName 0 br0)).2 = n := rfl
  simp only [Net.exec_net, hsame]
  have hnone : n.find 0 br0 = none := Net.find_eq_none.mpr fun k hk hm =>
    hfirst (Net.look_bridge h ⟨k, hk, hm.1, hm.2⟩)
  have hthere : (Net.perform t n (.linkAddBridge br0)).2.HasBridge := by
    simp only [Net.perform, Net.assign_of_validName (show Net.validName br0 = true by decide) hnone]
    exact ⟨_, List.mem_append_right _ (List.mem_singleton.mpr rfl), rfl, rfl, rfl⟩
  have hown : (Net.perform t n (.linkAddBridge br0)).2.OwnBridge := h.perform trivial
  have hown' := (hown.perform (t := t) (o := .linkSetUp 0 br0) trivial).perform (t := t)
    (o := .addrAdd 0 br0 "10.0.0.254/24") trivial
  have hthere' := (hthere.perform (t := t) (o := .linkSetUp 0 br0) trivial).perform (t := t)
    (o := .addrAdd 0 br0 "10.0.0.254/24") trivial
  obtain ⟨k, hk, hns, hname, _⟩ := hthere'
  rw [if_pos (Net.look_bridge (t := t) hown' ⟨k, hk, hns, hname⟩)]
  rfl

end Bridge

section Programs

theorem Calm.namesVeth {o : Op} (h : Calm o) : o.NamesVeth := by
  cases o with
  | net o => exact absurd h id
  | _ => trivial

theorem namesVeth_connect (pid : Nat) (ip name : String) :
    Only Op.NamesVeth (connectProcessToBridge pid ip (bytes ("v-" ++ name))) := by
  obtain ⟨hin, hout⟩ := vethNames_begin name pid
  refine (connects_connectProcess pid ip _).mono fun o ho => ?_
  cases o with
  | net o =>
    cases o with
    | linkAddVeth a b => exact ⟨ho.1 ▸ hin, ho.2 ▸ hout⟩
    | _ => trivial
  | _ => trivial

theorem namesVeth_createBridge : Only Op.NamesVeth createBridge := by
  simp [createBridge, Op.NamesVeth]

theorem namesVeth_stopEnvoy : Only Op.NamesVeth stopEnvoy := by
  refine (calm_findPidForEnvoy.mono fun _ => Calm.namesVeth).bind fun r => ?_
  cases r with
  | none => trivial
  | some pid =>
    refine only_ite.mpr ⟨fun _ => trivial, fun _ => ⟨trivial, fun r => ?_⟩⟩
    cases r with
    | none => exact ⟨trivial, fun _ => trivial⟩
    | some e =>
      cases e with
      | esrch => exact ⟨trivial, fun _ => trivial⟩
      | eperm => trivial

theorem namesVeth_startEnvoy : Only Op.NamesVeth startEnvoy := by
  have hstop : Only Op.NamesVeth stopExisting := by
    refine (calm_findPidForEnvoy.mono fun _ => Calm.namesVeth).bind fun r => ?_
    cases r <;> simp [Op.NamesVeth]
  refine hstop.bind fun _ => (calm_ensureConfig.mono fun _ => Calm.namesVeth).bind fun _ =>
    (calm_envoyBinary.mono fun _ => Calm.namesVeth).bind fun bin => ⟨trivial, fun _ => ⟨trivial, fun r => ?_⟩⟩
  cases r with
  | none => trivial
  | some pid =>
    refine ((calm_moveToCgroup pid).mono fun _ => Calm.namesVeth).bind fun _ => ⟨trivial, fun _ => ?_⟩
    refine (calm_getOrAcquireEnvoyIp.mono fun _ => Calm.namesVeth).bind fun r => ?_
    cases r with
    | none => trivial
    | some ip =>
      have hconnect : Only Op.NamesVeth (connectEnvoy pid ip) :=
        namesVeth_createBridge.bind fun _ => (namesVeth_connect pid ip "envoy").bind fun _ => trivial
      exact hconnect.bind fun _ => trivial

theorem namesVeth_updateLbConfig (c : ServiceEnvoyConfig) : Only Op.NamesVeth (updateLbConfig Y c) := by
  refine ⟨trivial, fun _ => only_ite.mpr ⟨fun _ => trivial, fun _ => ⟨trivial, fun _ => only_ite.mpr
    ⟨fun _ => trivial, fun _ => ⟨trivial, fun files => ?_⟩⟩⟩⟩⟩
  refine ((calm_readFragments files []).mono fun _ => Calm.namesVeth).bind fun ss => ⟨trivial, fun r => ?_⟩
  cases r with
  | none => trivial
  | some pwd =>
    exact ⟨trivial, fun _ => only_ite.mpr ⟨fun _ => trivial, fun _ => ⟨trivial, fun _ => only_ite.mpr
      ⟨fun _ => trivial, fun _ => ⟨trivial, fun _ => only_ite.mpr ⟨fun _ => trivial, fun _ =>
        namesVeth_startEnvoy.bind fun _ => trivial⟩⟩⟩⟩⟩⟩

theorem namesVeth_execPythonService (s : Service) (ip : String) : Only Op.NamesVeth (s.execPythonService ip) := by
  have hconnect : ∀ pid, Only Op.NamesVeth (s.connectIfLb pid ip) := by
    intro pid
    unfold Service.connectIfLb Service.connectToLb
    split
    · exact (namesVeth_connect pid ip s.name).bind fun _ => trivial
    · trivial
  refine ⟨trivial, fun r => only_ite.mpr ⟨fun _ => trivial, fun _ => ⟨trivial, fun r => ?_⟩⟩⟩
  cases r with
  | none => trivial
  | some pid =>
    refine ((calm_waitNetns pid 10).mono fun _ => Calm.namesVeth).bind fun r => ?_
    refine only_ite.mpr ⟨fun _ => trivial, fun _ => ?_⟩
    refine ((calm_serviceCg s pid).mono fun _ => Calm.namesVeth).bind fun _ => (hconnect pid).bind fun _ => ?_
    exact ⟨trivial, fun r => only_ite.mpr ⟨fun _ => trivial, fun _ => trivial⟩⟩

theorem namesVeth_createService (body ip : String) : Only Op.NamesVeth (Service.createService Y body ip) := by
  refine only_ite.mpr ⟨fun _ => only_ite.mpr ⟨fun _ => ?_, fun _ => ?_⟩, fun _ => trivial⟩
  · exact (namesVeth_updateLbConfig _).bind fun _ => (namesVeth_execPythonService _ ip).bind fun _ => trivial
  · exact (namesVeth_execPythonService _ ip).bind fun _ => trivial

theorem namesVeth_createDatabase (body ip : String) : Only Op.NamesVeth (Database.createDatabase Y body ip) := by
  refine only_ite.mpr ⟨fun _ => ?_, fun _ => trivial⟩
  have run : Only Op.NamesVeth (parseYaml Y body).execPostgreSQL := by
    refine ⟨trivial, fun _ => ⟨trivial, fun _ => ?_⟩⟩
    refine ((calm_initDataDir _).mono fun _ => Calm.namesVeth).bind fun _ => ?_
    refine ((calm_allowBridge _).mono fun _ => Calm.namesVeth).bind fun _ => ?_
    refine ((calm_findBin _).mono fun _ => Calm.namesVeth).bind fun bin => ?_
    refine ⟨trivial, fun r => only_ite.mpr ⟨fun _ => trivial, fun _ => ⟨trivial, fun r => ?_⟩⟩⟩
    cases r with
    | none => trivial
    | some pid =>
      refine ((calm_waitNetns pid 20).mono fun _ => Calm.namesVeth).bind fun r => ?_
      refine only_ite.mpr ⟨fun _ => trivial, fun _ => ?_⟩
      exact ((calm_databaseCg _ pid).mono fun _ => Calm.namesVeth).bind fun _ => trivial
  refine run.bind fun pid => Only.bind ?_ fun _ => trivial
  exact namesVeth_createBridge.bind fun _ => (namesVeth_connect pid ip _).bind fun _ => trivial

theorem namesVeth_runCreate (path : Path) : Only Op.NamesVeth (Cmd.runCreate Y path) := by
  refine ⟨trivial, fun r => ?_⟩
  cases r with
  | error _ => trivial
  | ok f =>
    simp only [bind_eq, ret_bind]
    cases Y.unmarshalFile f with
    | none => trivial
    | some file =>
      refine (calm_getIp.mono fun _ => Calm.namesVeth).bind fun ip => only_ite.mpr
        ⟨fun _ => ?_, fun _ => only_ite.mpr ⟨fun _ => ?_, fun _ => trivial⟩⟩
      · exact namesVeth_createBridge.bind fun _ => (namesVeth_createService _ ip).bind fun s =>
          ⟨trivial, fun _ => trivial⟩
      · exact (namesVeth_createDatabase _ ip).bind fun d => ⟨trivial, fun _ => trivial⟩

theorem namesVeth_runDelete (type_ name : String) : Only Op.NamesVeth (Cmd.runDelete Y type_ name) := by
  refine only_ite.mpr ⟨fun _ => trivial, fun _ => ⟨trivial, fun r => ?_⟩⟩
  cases r with
  | none => trivial
  | some text =>
    have hrelease : Only Op.NamesVeth (releaseIp (Y.decode text).ip) := by
      refine (calm_getIpam.mono fun _ => Calm.namesVeth).bind fun st => ?_
      cases st with
      | none => trivial
      | some st =>
        simp only [only_ite]
        exact ⟨fun _ => trivial, fun _ => ⟨trivial, fun _ => trivial⟩⟩
    have hof : Only Op.NamesVeth (Cmd.releaseOf (Y.decode text)) :=
      only_ite.mpr ⟨fun _ => trivial, fun _ => hrelease.bind fun _ => trivial⟩
    have hremove : Only Op.NamesVeth (Cmd.removeConfig (Y.decode text)) :=
      only_ite.mpr ⟨fun _ => trivial, fun _ => ⟨trivial, fun _ => trivial⟩⟩
    exact hof.bind fun _ => ⟨trivial, fun _ => namesVeth_stopEnvoy.bind fun _ => hremove.bind fun _ =>
      namesVeth_startEnvoy.bind fun _ => ⟨trivial, fun _ => trivial⟩⟩

theorem namesVeth_program (t : Task) : Only Op.NamesVeth (t.program Y) := by
  cases t with
  | create path => exact namesVeth_runCreate path
  | delete type_ name => exact namesVeth_runDelete type_ name
  | updateLb c => exact namesVeth_updateLbConfig c
  | startEnvoy => exact namesVeth_startEnvoy.bind fun _ => trivial
  | stopEnvoy => exact namesVeth_stopEnvoy.bind fun _ => trivial

end Programs

def namesVethWatch (Y : Yaml) (G : GoIpam) : Watch (Host Y G) (.only Op.NamesVeth) :=
  .only (Host Y G) Op.NamesVeth fun x w l p w' h => by
    obtain ⟨_, rfl, _⟩ := enter_spec h
    exact namesVeth_program x.task

section Runs
variable {c : Choice} {l : Local} {w : World} {o : Op}

theorem ownBridge_perform (h : w.net.OwnBridge) (ho : o.NamesVeth) : (perform Y G c l w o).2.2.net.OwnBridge := by
  have hact : ∀ {o : Op}, o.NamesVeth → (act G c l w o).2.2.net.OwnBridge := by
    intro o ho
    cases o with
    | net o => exact h.perform ho
    | ipam st o => cases st <;> exact h
    | proc o =>
      cases o with
      | start cmd =>
        change (w.start l c cmd).2.net.OwnBridge
        cases hs : (w.start l c cmd).1 with
        | none =>
          rw [start_none hs]
          exact h
        | some pid =>
          obtain ⟨_, _, hw⟩ := start_some hs
          rw [hw]
          exact h.addNamespace _
      | kill n sg =>
        cases sg with
        | sigkill => exact h.sweep _
        | sigterm => exact h
      | _ => exact h
    | _ => exact h
  have hrem : ∀ {n : Nat} {o' : Op}, o.remnant n = some o' → o'.NamesVeth := by
    intro n o' hr
    cases o with
    | fs o =>
      obtain ⟨o'', rfl⟩ : ∃ o'', o' = .fs o'' := by
        cases o <;> cases hr <;> exact ⟨_, rfl⟩
      trivial
    | proc o => cases hr
    | _ => cases hr; exact ho
  exact attempt_elim (P := fun x => x.2.2.net.OwnBridge) (hact ho) h fun _ _ hr => hact (hrem hr)

theorem net_of_enter {x : Launch} {w' : World} {p : Go Unit} (h : enter Y x w = some (l, p, w')) : w'.net = w.net := by
  unfold enter at h
  split at h
  · simp only [Option.some.injEq, Prod.mk.injEq] at h
    obtain ⟨_, _, rfl⟩ := h
    rfl
  · cases h

theorem ownBridge_disturb (h : w.net.OwnBridge) (d : Env) : (disturb d w).net.OwnBridge := by
  cases d with
  | exit pid => exact h.sweep _
  | spawn pid pgid =>
    simp only [disturb]
    split <;> exact h

variable [DecidableEq ι] {m : Machine (Host Y G) ι}

theorem ownBridge_step (hV : (namesVethWatch Y G).Holds m) (h : (World.net m.world).OwnBridge)
    (e : Event (Host Y G) ι) : (World.net (m.apply e).world).OwnBridge := by
  apply Machine.apply_elim (P := fun m' => (World.net m'.world).OwnBridge) m e
  case stay => exact h
  case launched =>
    intro i x loc p w _ _ hx
    change w.net.OwnBridge
    rw [net_of_enter hx]
    exact h
  case dead => exact fun _ _ _ _ => h
  case ended => exact fun _ _ _ _ => h.sweep _
  case acted => exact fun i c loc o k hp => @ownBridge_perform Y G c loc m.world o h (hV.ok hp)
  case disturbed => exact fun d _ => ownBridge_disturb h d

/-- Whatever happens, no other link comes to be called `br0`. -/
theorem ownBridge_run (hV : (namesVethWatch Y G).Holds m) (h : (World.net m.world).OwnBridge)
    (es : List (Event (Host Y G) ι)) : (World.net (m.run es).world).OwnBridge := by
  induction es generalizing m with
  | nil => exact h
  | cons e es ih => exact ih (hV.apply e) (ownBridge_step hV h e)

end Runs
end PrivatePaas
