import PrivatePaas.Host.Firewall
import PrivatePaas.Host.Names
import PrivatePaas.Results.Sample

/-!
# What gets through to a workload

Whatever happens around a call of `ConnectProcessToBridge`, the rules that it leaves in
the namespace of a workload keep a packet from outside out exactly if the last of the
four commands has been carried out and the name of the workload does not begin with
`envoy`: the test for Envoy's own interface looks at the beginning of the name only.
-/

namespace PrivatePaas
set_option autoImplicit false
open Text Effects Network Prog

variable {pid : Nat} {tr : List ((o : Op) × o.Ret)}

/-- An operation other than a filter command. -/
def Op.NoRule : Op → Prop
  | .net (.iptablesAppend _ _) => False
  | _ => True

theorem appended_of_noRule (h : ∀ x ∈ tr, x.1.NoRule) : appended pid tr = [] := by
  apply List.eq_nil_iff_forall_not_mem.mpr
  intro r hr
  exact h _ (mem_appended.mp hr)

section Programs

theorem noRule_delExisting (name : IfName) : Only Op.NoRule (delExisting name) := by
  simp [delExisting, Op.NoRule]

theorem noRule_enableLoopback (lo : Bool) : Only Op.NoRule (enableLoopback pid lo) := by
  simp [enableLoopback, Op.NoRule]

/-- The filter commands of the program, one for each rule. -/
theorem answers_appendRules {rules : List Rule} {u : Unit}
    (h : Answers (appendRules pid rules) tr u) :
    tr.map Sigma.fst = rules.map fun r => .net (.iptablesAppend pid r) := by
  induction rules generalizing tr with
  | nil =>
    obtain ⟨rfl, _⟩ := Answers.of_ret h
    rfl
  | cons r rules ih =>
    obtain ⟨b, tr', rfl, h'⟩ := Answers.of_call h
    rw [List.map_cons, List.map_cons, ih h']

theorem answers_enableFirewall {veth : IfName} {u : Unit} (h : Answers (enableFirewall pid veth) tr u) :
    tr.map Sigma.fst = if (bytes "v-envoy").isPrefixOf veth then [] else
      firewall.map fun r => .net (.iptablesAppend pid r) := by
  unfold enableFirewall at h
  split at h
  · obtain ⟨rfl, _⟩ := Answers.of_ret h
    simp_all
  · simp_all [answers_appendRules h]

/-- The run ends with `p`, and no filter command comes before. -/
def EndsWith (p : Go Unit) (tr : List ((o : Op) × o.Ret)) : Prop :=
  ∃ tr₁ tr₂, tr = tr₁ ++ tr₂ ∧ (∀ x ∈ tr₁, x.1.NoRule) ∧ Answers p tr₂ ()

theorem EndsWith.append {p : Go Unit} {tr₀ : List ((o : Op) × o.Ret)} (h : EndsWith p tr)
    (h₀ : ∀ x ∈ tr₀, x.1.NoRule) : EndsWith p (tr₀ ++ tr) := by
  obtain ⟨tr₁, tr₂, rfl, h₁, h₂⟩ := h
  refine ⟨tr₀ ++ tr₁, tr₂, (List.append_assoc ..).symm, fun x hx => ?_, h₂⟩
  exact (List.mem_append.mp hx).elim (h₀ x) (h₁ x)

/-- A step that returns `false` where it fails. -/
theorem EndsWith.of_guard {p : Go Unit} {o : Op} {q : o.Ret → Prop} [∀ r, Decidable (q r)]
    {next : Go Bool} (h : Answers (.call (S := sig) o fun r => if q r then .ret false else next) tr true)
    (ho : o.NoRule) (rest : ∀ tr, Answers next tr true → EndsWith p tr) : EndsWith p tr := by
  obtain ⟨r, tr', rfl, h'⟩ := Answers.of_call h
  split at h'
  · exact absurd (Answers.of_ret h').2 (by decide)
  · refine @EndsWith.append tr' p [⟨o, r⟩] (rest tr' h') fun x hx => ?_
    obtain rfl := List.mem_singleton.mp hx
    exact ho

/-- Behind everything else come the filter commands. -/
theorem answers_configure {veth : IfName} {ip : String} {lo : Bool}
    (h : Answers (configureInterfaceInNamespace pid veth ip lo) tr true) :
    EndsWith (enableFirewall pid veth) tr := by
  unfold configureInterfaceInNamespace at h
  refine .of_guard h trivial fun tr h => .of_guard h trivial fun tr h => ?_
  generalize (if '/' ∈ ip.toList then ip else ip ++ "/24") = cidr at h
  split at h
  · exact absurd (Answers.of_ret h).2 (by decide)
  refine .of_guard h trivial fun tr h => .of_guard h trivial fun tr h => ?_
  obtain ⟨tr₁, tr₂, _, rfl, h₁, h₂⟩ := Answers.of_bind h
  obtain ⟨tr₃, tr₄, _, rfl, h₃, h₄⟩ := Answers.of_bind h₂
  obtain ⟨rfl, _⟩ := Answers.of_ret h₄
  refine ⟨tr₁, tr₃, by rw [List.append_nil], fun x hx => ?_, h₃⟩
  exact h₁.only (noRule_enableLoopback lo) x hx

theorem answers_connect {ip : String} {pre : IfName}
    (h : Answers (connectProcessToBridge pid ip pre) tr true) :
    EndsWith (enableFirewall pid (vethNames pre pid).1) tr := by
  unfold connectProcessToBridge at h
  obtain ⟨tr₁, tr', _, rfl, h₁, h'⟩ := Answers.of_bind h
  obtain ⟨tr₂, tr'', _, rfl, h₂, h''⟩ := Answers.of_bind h'
  refine .append (.append ?_ fun x hx => ?_) fun x hx => ?_
  · refine .of_guard h'' trivial fun tr h => .of_guard h trivial fun tr h => ?_
    refine .of_guard h trivial fun tr h => .of_guard h trivial fun tr h => ?_
    refine .of_guard h trivial fun tr h => .of_guard h trivial fun tr h => ?_
    exact answers_configure h
  · exact h₂.only (noRule_delExisting _) x hx
  · exact h₁.only (noRule_delExisting _) x hx

/-- The filter commands of a call that succeeds. -/
theorem rules_connect {ip : String} {pre : IfName} {r : Rule}
    (h : Answers (connectProcessToBridge pid ip pre) tr true) :
    (∃ b, ⟨.net (.iptablesAppend pid r), b⟩ ∈ tr) ↔
      r ∈ firewall ∧ ¬ (bytes "v-envoy").isPrefixOf (vethNames pre pid).1 := by
  obtain ⟨tr₁, tr₂, rfl, h₁, h₂⟩ := answers_connect h
  have hfst := answers_enableFirewall h₂
  constructor
  · intro ⟨b, hb⟩
    rcases List.mem_append.mp hb with hb | hb
    · exact absurd (h₁ _ hb) id
    have hm := List.mem_map_of_mem (f := Sigma.fst) hb
    rw [hfst] at hm
    split at hm
    · cases hm
    · refine ⟨?_, ‹_›⟩
      obtain ⟨r', hr', he⟩ := List.mem_map.mp hm
      obtain rfl : r' = r := by simpa using he
      exact hr'
  · intro ⟨hr, hpre⟩
    rw [if_neg hpre] at hfst
    have hm : Op.net (.iptablesAppend pid r) ∈ tr₂.map Sigma.fst := by
      rw [hfst]
      exact List.mem_map_of_mem hr
    obtain ⟨⟨o, b⟩, hx, rfl⟩ := List.mem_map.mp hm
    exact ⟨b, List.mem_append_right _ hx⟩

end Programs

/-- Envoy's own interface, by the beginning of the name. -/
theorem looksLikeEnvoy_iff (name : String) :
    (bytes "v-envoy").isPrefixOf (vethNames (bytes ("v-" ++ name)) pid).1 = true ↔
      bytes "envoy" <+: bytes name := by
  have henvoy : bytes "v-envoy" = [118, 45, 101, 110, 118, 111, 121] := rfl
  have hname : bytes "envoy" = [101, 110, 118, 111, 121] := rfl
  have hv : bytes "v-" = [118, 45] := rfl
  rw [vethNames_eq, bytes_append, vethBase, henvoy, hname, hv]
  -- a name of less than five bytes is followed by the underscore
  obtain _ | ⟨a, _ | ⟨b, _ | ⟨c, _ | ⟨d, _ | ⟨e, rest⟩⟩⟩⟩⟩ := bytes name
  · simp
  · simp
  · simp
  · simp
  · simp
  · simp only [List.cons_append, List.nil_append, List.take_succ_cons, List.isPrefixOf_cons_cons_self,
      List.cons_prefix_cons, List.nil_prefix, and_true]
    simp [List.isPrefixOf]

section Host
variable {Y : Yaml} {G : GoIpam} {l : (Host Y G).Local} {w : (Host Y G).World} {α : Type}

theorem place_eq {t : Procs} {n ns : Nat} (h : Net.place t n = some ns) : ns = n ∨ ns = 0 := by
  unfold Net.place at h
  split at h
  · exact .inr (Option.some.inj h).symm
  · obtain ⟨p, hp, rfl⟩ := Option.map_eq_some_iff.mp h
    have hpn : p.pid = n := by simpa using List.find?_some hp
    split
    · exact .inl hpn
    · exact .inr rfl

/-- What a command does to the chain of one namespace. -/
theorem input_perform {t : Procs} {n : Net} (hpid : pid ≠ 0) (hp : Net.place t pid = some pid)
    (o : NetOp) : (Net.perform t n o).2.input pid =
      n.input pid ++ appended pid [⟨.net o, (Net.perform t n o).1⟩] := by
  have same : ∀ {n' : Net} {tr}, n'.rules = n.rules → appended pid tr = [] →
      n'.input pid = n.input pid ++ appended pid tr := by
    intro n' tr hr ht
    rw [ht, List.append_nil, Net.input, Net.input, hr]
  cases o with
  | iptablesAppend m r =>
    by_cases hm : m = pid
    · subst m
      simp [Net.perform, hp, appended, Net.input]
    · cases hpm : Net.place t m with
      | none => simp [Net.perform, hpm, appended]
      | some ns =>
        have hns : ns ≠ pid := by
          have := place_eq hpm
          omega
        simp [Net.perform, hpm, appended, Net.input, hm, hns]
  | _ =>
    refine same ?_ (appended_of_noRule (by simp [Op.NoRule]))
    simp only [Net.perform, Net.modify, Net.delete]
    repeat' split
    all_goals rfl

/-- A command that fails has left nothing behind. -/
def Clean (c : Choice) : Prop := ∀ n, c.fault ≠ some (n + 1)

/-- Along a run of link and filter commands the chain grows by what has been appended. -/
theorem input_exec {p : Go α} (hp : Only Op.IsNet p) {c : Nat → (Host Y G).Choice}
    (hc : ∀ n, Clean (c n)) (hpid : pid ≠ 0) (hplace : Net.place (World.procs w) pid = some pid) {a : α}
    (h : ((Host Y G).exec c l w p).result = some a) :
    (World.net ((Host Y G).exec c l w p).world).input pid =
      (World.net w).input pid ++ appended pid ((Host Y G).trace c l w p) := by
  induction p generalizing l w c with
  | ret b => exact (List.append_nil _).symm
  | halt => cases h
  | call o k ih =>
    by_cases hl : (Host Y G).alive l w = true
    · rw [System.exec_alive hl] at h ⊢
      simp only [System.trace, hl, if_true]
      cases o with
      | net o =>
        have hstep : World.procs ((Host Y G).perform (c 0) l w (.net o)).2.2 = World.procs w ∧
            (World.net ((Host Y G).perform (c 0) l w (.net o)).2.2).input pid =
              (World.net w).input pid ++
                appended pid [⟨.net o, ((Host Y G).perform (c 0) l w (.net o)).1⟩] := by
          cases hf : Choice.fault (c 0) with
          | none =>
            simp only [Host, perform, attempt, hf]
            exact ⟨rfl, input_perform hpid hplace o⟩
          | some n =>
            cases n with
            | succ n => exact absurd hf (hc 0 n)
            | zero =>
              simp only [Host, perform, attempt, hf]
              refine ⟨trivial, ?_⟩
              cases o <;> simp [appended, Op.failure, Net.failure]
        have hrest := ih _ (hp.2 _) (c := fun n => c (n + 1)) (fun n => hc (n + 1))
          (by rw [hstep.1]; exact hplace) h
        rw [hrest, hstep.2, List.append_assoc, ← appended_append]
        rfl
      | _ => exact absurd hp.1 id
    · rw [System.exec_dead (by simpa using hl)] at h
      cases h

attribute [local simp] Op.IsNet

theorem isNet_connectProcess (pid : Nat) (ip : String) (pre : IfName) :
    Only Op.IsNet (connectProcessToBridge pid ip pre) := by
  have happend : ∀ rules, Only Op.IsNet (appendRules pid rules) := by
    intro rules
    induction rules with
    | nil => trivial
    | cons r rs ih => exact ⟨trivial, fun _ => ih⟩
  have hfirewall : ∀ veth, Only Op.IsNet (enableFirewall pid veth) := fun veth => by
    simp [enableFirewall, happend]
  have hloopback : Only Op.IsNet (enableLoopback pid true) := by simp [enableLoopback]
  have hdel : ∀ name, Only Op.IsNet (delExisting name) := fun name => by simp [delExisting]
  have hconfigure : ∀ veth, Only Op.IsNet (configureInterfaceInNamespace pid veth ip true) := by
    intro veth
    have hend : Only Op.IsNet (do enableLoopback pid true; enableFirewall pid veth; return true) :=
      hloopback.bind fun _ => (hfirewall veth).bind fun _ => trivial
    simp only [configureInterfaceInNamespace]
    simp at hend ⊢
    simp [hend]
  unfold connectProcessToBridge
  refine (hdel _).bind fun _ => (hdel _).bind fun _ => ?_
  simp [hconfigure]

end Host

/-- The chain of a workload that `ConnectProcessToBridge` has connected keeps packets from
outside out exactly if the name does not begin with `envoy` and the last command succeeds.
`ok` says which of the commands do. -/
theorem workloads_firewalled_iff (pid : Nat) (ip name : String) (ok : Rule → Bool)
    (tr : List ((o : Op) × o.Ret))
    (h : Answers (connectProcessToBridge pid ip (bytes ("v-" ++ name))) tr true)
    (hok : ∀ r b, ⟨.net (.iptablesAppend pid r), b⟩ ∈ tr → b = ok r) :
    (∀ p : Packet, p.Outside → verdict (appended pid tr) p = .drop) ↔
      ¬ bytes "envoy" <+: bytes name ∧ ok .drop = true := by
  have hsub : ∀ r ∈ appended pid tr, r ∈ firewall := fun r hr =>
    ((rules_connect h).mp ⟨true, mem_appended.mp hr⟩).1
  have hdrop : (∀ p : Packet, p.Outside → verdict (appended pid tr) p = .drop) ↔
      .drop ∈ appended pid tr := by
    constructor
    · intro hall
      obtain ⟨p, hp⟩ := exists_outside
      exact (verdict_outside hp hsub).mp (hall p hp)
    · intro hd p hp
      exact (verdict_outside hp hsub).mpr hd
  rw [hdrop, mem_appended, ← @looksLikeEnvoy_iff pid]
  constructor
  · intro hd
    exact ⟨((rules_connect h).mp ⟨true, hd⟩).2, (hok _ _ hd).symm⟩
  · intro ⟨hname, hdone⟩
    obtain ⟨b, hb⟩ := (rules_connect (r := .drop) h).mpr ⟨by decide, hname⟩
    rw [hok _ _ hb, hdone] at hb
    exact hb

namespace Sample

/-- A call for a workload of the given name, with nothing that fails. -/
def connecting (name : String) : List ((o : Op) × o.Ret) :=
  (Host yaml lowestFree).trace (fun _ => {}) caller wired
    (connectProcessToBridge 1001 "10.0.0.3" (bytes ("v-" ++ name)))

/-- The host when the call is over. -/
def connected (name : String) : World :=
  ((Host yaml lowestFree).exec (fun _ => {}) caller wired
    (connectProcessToBridge 1001 "10.0.0.3" (bytes ("v-" ++ name)))).world

theorem connecting_answers {name : String}
    (h : ((Host yaml lowestFree).exec (fun _ => {}) caller wired
      (connectProcessToBridge 1001 "10.0.0.3" (bytes ("v-" ++ name)))).result = some true) :
    Answers (connectProcessToBridge 1001 "10.0.0.3" (bytes ("v-" ++ name))) (connecting name) true :=
  System.exec_answers h

theorem connecting_done {name : String}
    (h : ∀ x ∈ connecting name, (match x with
      | ⟨.net (.iptablesAppend _ _), b⟩ => b
      | _ => true) = true) {r : Rule} {b : Bool}
    (hb : ⟨.net (.iptablesAppend 1001 r), b⟩ ∈ connecting name) : b = true := h _ hb

theorem connected_input {name : String} (hdone : ((Host yaml lowestFree).exec (fun _ => {}) caller wired
      (connectProcessToBridge 1001 "10.0.0.3" (bytes ("v-" ++ name)))).result = some true) :
    (connected name).net.input 1001 = appended 1001 (connecting name) := by
  have hclean : Clean {} := fun _ hf => by cases hf
  have hne : (1001 : Nat) ≠ 0 := by decide
  exact input_exec (isNet_connectProcess 1001 "10.0.0.3" (bytes ("v-" ++ name))) (fun _ => hclean) hne (by decide) hdone

end Sample
open Sample

/-- What stands in the namespace of a service afterwards keeps packets from outside out. -/
theorem shop_firewalled : (connected "shop").net.input 1001 = appended 1001 (connecting "shop") ∧
    ∀ p : Packet, p.Outside → verdict (appended 1001 (connecting "shop")) p = .drop := by
  have hdone : ((Host yaml lowestFree).exec (fun _ => {}) caller wired
      (connectProcessToBridge 1001 "10.0.0.3" (bytes ("v-" ++ "shop")))).result = some true := by decide +kernel
  have hanswers := connecting_answers hdone
  refine ⟨connected_input hdone, ?_⟩
  exact (workloads_firewalled_iff 1001 "10.0.0.3" "shop" (fun _ => true) _ hanswers
    fun _ _ => connecting_done (by decide +kernel)).mpr ⟨by decide, rfl⟩

/-- A service whose name begins with `envoy` has no rules at all. -/
theorem envoyApi_open : ∃ tr p, Answers (connectProcessToBridge 1001 "10.0.0.3" (bytes ("v-" ++ "envoy-api"))) tr true ∧
    p.Outside ∧ verdict (appended 1001 tr) p = .accept := by
  refine ⟨connecting "envoy-api", ⟨false, false, 0⟩, ?_, ?_, ?_⟩
  · exact connecting_answers (by decide +kernel)
  · exact ⟨rfl, rfl, by simp [inSubnet]⟩
  · decide +kernel

end PrivatePaas
