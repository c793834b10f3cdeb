import PrivatePaas.Results.Completion

/-!
# Taking the workloads down

Deletes only take away. So what one of them has removed stays away while the next ones
run, and from any reachable state deletes that come to their end, in any order, leave
nothing of the workloads that they were asked to remove.
-/

namespace PrivatePaas
set_option autoImplicit false
open Files Text Effects Go Network Prog PrivatePaas.Parser

variable {Y : Yaml} {G : GoIpam} {α : Type}

/-- Nothing has come to the workloads, their records, addresses and fragments. -/
structure Shrunk (w w' : World) : Prop where
  registry : ∀ k e, w'.kv k = some e → w.kv k = some e
  workload : ∀ q ∈ w'.procs, q.role = .workload →
    ∃ q₀ ∈ w.procs, q₀.role = .workload ∧ q₀.pid = q.pid ∧ q₀.owner = q.owner
  address : ∀ a, a ∉ keptHosts → w'.Allocated a → w.Allocated a
  fragment : ∀ q data, YamlFile q → q ≠ envoyConfig → w'.fs.content q = some data → w.fs.content q = some data

namespace Shrunk
variable {w w₁ w₂ w₃ : World}

theorem refl (w : World) : Shrunk w w :=
  ⟨fun _ _ h => h, fun q hq hr => ⟨q, hq, hr, rfl, rfl⟩, fun _ _ h => h, fun _ _ _ _ h => h⟩

theorem trans (h : Shrunk w₁ w₂) (h' : Shrunk w₂ w₃) : Shrunk w₁ w₃ := by
  refine ⟨fun k e hk => h.registry k e (h'.registry k e hk), fun q hq hr => ?_,
    fun a ha hal => h.address a ha (h'.address a ha hal),
    fun q data hq hne hc => h.fragment q data hq hne (h'.fragment q data hq hne hc)⟩
  obtain ⟨q₁, hq₁, hr₁, hpid₁, howner₁⟩ := h'.workload q hq hr
  obtain ⟨q₀, hq₀, hr₀, hpid₀, howner₀⟩ := h.workload q₁ hq₁ hr₁
  exact ⟨q₀, hq₀, hr₀, hpid₀.trans hpid₁, howner₀.trans howner₁⟩

/-- Where the process table alone changes, and no workload appears. -/
theorem of_stores (h : w₁.SameStores w₂) (hlive : ∀ q, w₂.Live q → w₁.Live q) : Shrunk w₁ w₂ := by
  refine ⟨fun k e hk => ?_, fun q hq hr => ?_, fun a _ ha => ?_, fun q data _ _ hc => ?_⟩
  · rw [← h.kv]
    exact hk
  · obtain ⟨hq₀, hr₀⟩ := hlive q ⟨hq, hr⟩
    exact ⟨q, hq₀, hr₀, rfl, rfl⟩
  · unfold World.Allocated
    rw [← h.pool]
    exact ha
  · rw [← h.fs]
    exact hc

end Shrunk

/-- An operation of a delete. -/
def Shrinking : Op → Prop
  | .kv (.set _ _) => False
  | .kv _ => True
  | .ipam _ (.releaseIP _) => True
  | .proc (.kill _ _) => True
  | o => Settling o

section Operations
variable {c : Choice} {l : Local} {w : World} {o : Op}

theorem Settling.shrinking (h : Settling o) : Shrinking o := by
  cases o with
  | kv o => exact absurd h id
  | ipam st o =>
    cases o with
    | releaseIP a => trivial
    | _ => exact h
  | proc o =>
    cases o with
    | kill n s => trivial
    | _ => exact h
  | _ => exact h

/-- It is one of those that settle, or of the four that take away. -/
theorem Shrinking.cases (h : Shrinking o) : Settling o ∨ (∃ k, o = .kv (.get k)) ∨ (∃ k, o = .kv (.del k)) ∨
    (∃ st a, o = .ipam st (.releaseIP a)) ∨ ∃ n s, o = .proc (.kill n s) := by
  cases o with
  | kv o =>
    cases o with
    | get k => exact .inr (.inl ⟨k, rfl⟩)
    | set k text => exact absurd h id
    | del k => exact .inr (.inr (.inl ⟨k, rfl⟩))
  | ipam st o =>
    cases o with
    | releaseIP a => exact .inr (.inr (.inr (.inl ⟨st, a, rfl⟩)))
    | _ => exact .inl h
  | proc o =>
    cases o with
    | kill n s => exact .inr (.inr (.inr (.inr ⟨n, s, rfl⟩)))
    | _ => exact .inl h
  | _ => exact .inl h

theorem Shrinking.registry (h : Shrinking o) {k : String} {e : Entry}
    (hk : (perform Y G c l w o).2.2.kv k = some e) : w.kv k = some e := by
  by_cases ho : o.WritesKv
  · obtain ⟨key, rfl⟩ : ∃ key, o = .kv (.del key) := by
      rcases h.cases with hs | ⟨key, rfl⟩ | ⟨key, rfl⟩ | ⟨st, a, rfl⟩ | ⟨n, s, rfl⟩
      · cases o with
        | kv o => exact absurd hs id
        | _ => exact absurd ho id
      · exact absurd ho id
      · exact ⟨key, rfl⟩
      · exact absurd ho id
      · exact absurd ho id
    rw [perform_del] at hk
    split at hk
    · exact hk
    · by_cases hkey : k = key
      · rw [hkey, Function.update_self] at hk
        cases hk
      · rwa [Function.update_of_ne hkey] at hk
  · rwa [perform_kv ho] at hk

theorem Shrinking.workload (h : Shrinking o) {q : Proc} (hq : q ∈ (perform Y G c l w o).2.2.procs)
    (hr : q.role = .workload) : ∃ q₀ ∈ w.procs, q₀.role = .workload ∧ q₀.pid = q.pid ∧ q₀.owner = q.owner := by
  rcases mem_perform_procs hq with ⟨q₀, hq₀, hpid, hrole, howner, _⟩ | ⟨cmd, rfl, _, _, hrole⟩
  · exact ⟨q₀, hq₀, hrole.symm.trans hr, hpid.symm, howner.symm⟩
  · have hcmd : cmd.isWorkload = false := h
    rw [hcmd] at hrole
    rw [hrole] at hr
    cases hr

theorem Shrinking.address (h : Shrinking o) {a : String} (ha : a ∉ keptHosts)
    (hal : (perform Y G c l w o).2.2.Allocated a) : w.Allocated a := by
  have off : ¬ o.OnPool → w.Allocated a := by
    intro ho
    unfold World.Allocated at hal ⊢
    rwa [perform_pool ho] at hal
  rcases h.cases with hs | ⟨key, rfl⟩ | ⟨key, rfl⟩ | ⟨st, b, rfl⟩ | ⟨n, s, rfl⟩
  · exact hs.allocated ha hal
  · exact off id
  · exact off id
  · cases st with
    | memory => exact off id
    | redis =>
      obtain ⟨s, hs, hmem⟩ := hal
      rw [perform_redis_pool] at hs
      split at hs
      · exact ⟨s, hs, hmem⟩
      · cases hp : w.pool with
        | none =>
          rw [hp] at hs
          cases hs
        | some s' =>
          rw [hp] at hs
          simp only [IpamOp.perform] at hs
          split at hs
          · obtain rfl := Option.some.inj hs
            exact ⟨s', hp, Finset.mem_of_mem_erase hmem⟩
          · obtain rfl := Option.some.inj hs
            exact ⟨s', hp, hmem⟩
  · exact off id

theorem Shrinking.fragment (h : Shrinking o) {q : Path} {data : String} (hq : YamlFile q) (hne : q ≠ envoyConfig)
    (hc : (perform Y G c l w o).2.2.fs.content q = some data) : w.fs.content q = some data := by
  by_cases ho : o.IsFs
  · cases o with
    | fs o =>
      have hdone : ∀ {o : FsOp}, o.OffFragments → (act G c l w (.fs o)).2.2.fs.content q = some data →
          w.fs.content q = some data := by
        intro o hoff hdata
        have hdata : (o.perform c w.cwd w.fs).2.content q = some data := hdata
        rcases @offFragments_yaml c w.cwd w.fs o hoff q hq hne with hs | ⟨_, _, hs⟩
        · exact hs.symm.trans hdata
        · rw [hs] at hdata
          cases hdata
      refine attempt_elim (P := fun x => x.2.2.fs.content q = some data → w.fs.content q = some data)
        (hdone h) id (fun n o' hr => ?_) hc
      obtain ⟨o'', rfl⟩ : ∃ o'', o' = .fs o'' := by
        cases o <;> cases hr <;> exact ⟨_, rfl⟩
      exact hdone (FsOp.OffFragments.remnant h hr)
    | _ => exact absurd ho id
  · rwa [perform_fs ho] at hc

theorem Shrinking.shrunk (h : Shrinking o) : Shrunk w (perform Y G c l w o).2.2 :=
  ⟨fun _ _ => h.registry, fun _ => h.workload, fun _ => h.address, fun _ _ => h.fragment⟩

end Operations

section Programs

theorem shrinking_getIpam : Only Shrinking getIpam :=
  unlinked_getIpam.mono fun _ h => h.settling.shrinking

theorem shrinking_releaseIp (ip : String) : Only Shrinking (releaseIp ip) := by
  refine shrinking_getIpam.bind fun st => ?_
  cases st with
  | none => trivial
  | some st => simp [Shrinking]

theorem shrinking_runDelete (type_ name : String) : Only Shrinking (Cmd.runDelete Y type_ name) := by
  refine only_ite.mpr ⟨fun _ => trivial, fun _ => ⟨trivial, fun r => ?_⟩⟩
  cases r with
  | none => trivial
  | some text =>
    have hrelease : Only Shrinking (Cmd.releaseOf (Y.decode text)) :=
      only_ite.mpr ⟨fun _ => trivial, fun _ => (shrinking_releaseIp _).bind fun _ => trivial⟩
    refine hrelease.bind fun _ => ⟨trivial, fun _ => ?_⟩
    refine (unlinked_stopEnvoy.mono fun _ h => h.settling.shrinking).bind fun _ => ?_
    refine ((unlinked_removeConfig _).mono fun _ h => h.settling.shrinking).bind fun _ => ?_
    refine (settling_startEnvoy.mono fun _ => Settling.shrinking).bind fun _ => ?_
    exact ⟨trivial, fun _ => trivial⟩

end Programs

section Steps

/-- Deletes of these keys that run one after another, each by itself, without failure and
to its end. -/
inductive TakenDown (Y : Yaml) (G : GoIpam) : World → List String → World → Prop where
  | nil (w : World) : TakenDown Y G w [] w
  | cons {w w₁ w' : World} {x : Launch} {l : Local} {p : Go Unit} {type_ name : String} {ks : List String}
      {c : Nat → (Host Y G).Choice} (hx : x.task = .delete type_ name)
      (ht : type_ = "service" ∨ type_ = "database") (he : enter Y x w = some (l, p, w₁))
      (hc : ∀ n, Smooth (c n)) (hend : ((Host Y G).exec c l w₁ p).result = some ())
      (rest : TakenDown Y G ((Host Y G).afterwards ((Host Y G).exec c l w₁ p).loc ((Host Y G).exec c l w₁ p).world) ks w') :
      TakenDown Y G w ((type_ ++ ":" ++ name) :: ks) w'

variable {l : Local} {w w₁ w' : World} {x : Launch} {p : Go Unit} {type_ name : String} {ks : List String}

theorem shrunk_enter (he : enter Y x w = some (l, p, w₁)) : Shrunk w w₁ :=
  .of_stores (enter_stores he) fun _ => live_of_enter he

theorem shrunk_afterwards : Shrunk w ((Host Y G).afterwards l w) :=
  System.afterwards_elim (Y := Host Y G) (P := Shrunk w)
    (.of_stores leave_stores fun _ hq => ⟨(Procs.mem_keep.mp hq.1).1, hq.2⟩) (.refl w)

/-- Whatever fails. -/
theorem shrunk_exec (hx : x.task = .delete type_ name) (he : enter Y x w = some (l, p, w₁))
    (c : Nat → (Host Y G).Choice) : Shrunk w₁ ((Host Y G).exec c l w₁ p).world := by
  obtain ⟨_, rfl, _⟩ := enter_spec he
  rw [hx]
  have hwp : (Host Y G).wp Anyhow (fun _ _ w' => Shrunk w₁ w') l w₁ (Cmd.runDelete Y type_ name) :=
    System.wp_of_only (Y := Host Y G) (I := fun _ w' => Shrunk w₁ w')
      (fun _ _ _ _ _ ho hI _ => hI.trans ho.shrunk) (shrinking_runDelete type_ name) (.refl w₁)
  exact (System.wp_iff_exec (Y := Host Y G) (C := Anyhow) ({} : Choice) trivial).mp hwp c fun _ => trivial

/-- A delete of a key under which nothing is registered changes no record. -/
theorem kv_of_unregistered (hx : x.task = .delete type_ name) (ht : type_ = "service" ∨ type_ = "database")
    (he : enter Y x w = some (l, p, w₁)) {c : Nat → (Host Y G).Choice} (hc : ∀ n, Smooth (c n))
    (hk : w₁.kv (type_ ++ ":" ++ name) = none) : World.kv ((Host Y G).exec c l w₁ p).world = w₁.kv := by
  rw [program_of_delete he hx ht]
  have hwp : (Host Y G).wp Smooth (fun _ _ w' => World.kv w' = w₁.kv) l w₁ (Cmd.deleteProcess Y name type_) := by
    refine wp_get (running_of_enter he).1 fun _ _ => ?_
    rw [hk]
    rfl
  exact (System.wp_iff_exec (Y := Host Y G) (C := Smooth) ({} : Choice) rfl).mp hwp c hc

end Steps

section Runs
variable {ι : Type} [DecidableEq ι] {m : Machine (Host Y G) ι} {es : List (Event (Host Y G) ι)} {i : ι}
variable {w w₁ w₂ w' : World} {ks : List String} {key : String}

/-- What is left when the workloads under the keys `ks` have been taken down. -/
structure Remains (Y : Yaml) (ks : List String) (w w' : World) : Prop where
  registry : ∀ k, w'.kv k = if k ∈ ks then none else w.kv k
  workload : ∀ q ∈ w'.procs, q.role = .workload →
    (∃ q₀ ∈ w.procs, q₀.role = .workload ∧ q₀.pid = q.pid ∧ q₀.owner = q.owner) ∧
      ∀ k ∈ ks, ∀ e, w.kv k = some e → q.owner ≠ e.author
  address : ∀ a, a ∉ keptHosts → w'.Allocated a → w.Allocated a ∧
    ∀ k ∈ ks, ∀ e, w.kv k = some e → cleanIP (Y.decode e.value).ip ≠ "" → a ≠ cleanIP (Y.decode e.value).ip
  fragment : ∀ q data, YamlFile q → q ≠ envoyConfig → w'.fs.content q = some data → w.fs.content q = some data ∧
    ∀ k ∈ ks, ∀ e, w.kv k = some e → ∀ u, (Y.decode e.value).configFileName = Cmd.envoyConfigPath u →
      '/' ∉ u.toList → q ≠ fragmentFile (Y.decode e.value)

/-- One workload is gone, if there was one. -/
structure Undone (Y : Yaml) (key : String) (w w' : World) : Prop where
  shrunk : Shrunk w w'
  kv : w'.kv = Function.update w.kv key none
  removed : ∀ e, w.kv key = some e → Removed key e.author (Y.decode e.value) w w'

theorem Remains.nil (w : World) : Remains Y [] w w := by
  refine ⟨fun k => ?_, fun q hq hr => ⟨⟨q, hq, hr, rfl, rfl⟩, fun _ hk => ?_⟩, fun a _ ha => ⟨ha, fun _ hk => ?_⟩,
    fun q data _ _ hc => ⟨hc, fun _ hk => ?_⟩⟩
  · rw [if_neg List.not_mem_nil]
  · exact absurd hk List.not_mem_nil
  · exact absurd hk List.not_mem_nil
  · exact absurd hk List.not_mem_nil

/-- What the first one has taken away stays away. -/
theorem Remains.cons (h : Undone Y key w w₂) (hr : Remains Y ks w₂ w') :
    Remains Y (key :: ks) w w' := by
  have later : ∀ k ∈ key :: ks, ∀ e, w.kv k = some e → k = key ∨ k ∈ ks ∧ w₂.kv k = some e := by
    intro k hk e he
    by_cases hkey : k = key
    · exact .inl hkey
    · refine .inr ⟨(List.mem_cons.mp hk).resolve_left hkey, ?_⟩
      rw [h.kv, Function.update_of_ne hkey]
      exact he
  constructor
  case registry =>
    intro k
    rw [hr.registry, h.kv]
    by_cases hkey : k = key
    · subst k
      simp
    · simp [hkey]
  case workload =>
    intro q hq hrole
    obtain ⟨⟨q₂, hq₂, hr₂, hpid₂, howner₂⟩, hothers⟩ := hr.workload q hq hrole
    obtain ⟨q₀, hq₀, hr₀, hpid₀, howner₀⟩ := h.shrunk.workload q₂ hq₂ hr₂
    refine ⟨⟨q₀, hq₀, hr₀, hpid₀.trans hpid₂, howner₀.trans howner₂⟩, fun k hk e he => ?_⟩
    rcases later k hk e he with rfl | ⟨hks, he₂⟩
    · rw [← howner₂]
      exact (h.removed e he).gone q₂ hq₂ hr₂
    · exact hothers k hks e he₂
  case address =>
    intro a ha hal
    obtain ⟨hal₂, hothers⟩ := hr.address a ha hal
    refine ⟨h.shrunk.address a ha hal₂, fun k hk e he hne => ?_⟩
    rcases later k hk e he with rfl | ⟨hks, he₂⟩
    · rintro rfl
      exact (h.removed e he).returned hne ha hal₂
    · exact hothers k hks e he₂ hne
  case fragment =>
    intro q data hq hne hc
    obtain ⟨hc₂, hothers⟩ := hr.fragment q data hq hne hc
    refine ⟨h.shrunk.fragment q data hq hne hc₂, fun k hk e he u hu hslash => ?_⟩
    rcases later k hk e he with rfl | ⟨hks, he₂⟩
    · rintro rfl
      rw [(h.removed e he).fragment u hu hslash] at hc₂
      cases hc₂
    · exact hothers k hks e he₂ u hu hslash

theorem Removed.afterwards {l : Local} {a : Nat} {rec : Cmd.Service} (h : Removed key a rec w₁ w₂)
    (hw : w₁.kv = w.kv) : Removed key a rec w ((Host Y G).afterwards l w₂) := by
  refine System.afterwards_elim (Y := Host Y G) (P := Removed key a rec w) ?_ ⟨hw ▸ h.kv, h.gone, h.returned, h.fragment⟩
  exact ⟨hw ▸ h.kv, fun q hq => h.gone q (Procs.mem_keep.mp hq).1, h.returned, h.fragment⟩

/-- A delete that comes to its end, in a reachable state. -/
theorem undone_of_delete (hY : Y.Lawful) (hm : m.Idle) (hw : World.Untouched m.world)
    (hb : (World.net m.world).OwnBridge) {x : Launch} {l : Local} {p : Go Unit} {type_ name : String}
    (hx : x.task = .delete type_ name) (ht : type_ = "service" ∨ type_ = "database")
    (he : enter Y x (m.run es).world = some (l, p, w₁)) {c : Nat → (Host Y G).Choice} (hc : ∀ n, Smooth (c n))
    (hend : ((Host Y G).exec c l w₁ p).result = some ()) : Undone Y (type_ ++ ":" ++ name) (m.run es).world
      ((Host Y G).afterwards ((Host Y G).exec c l w₁ p).loc ((Host Y G).exec c l w₁ p).world) := by
  have hstores : w₁.kv = World.kv (m.run es).world := (enter_stores he).kv
  have removed : ∀ e, w₁.kv (type_ ++ ":" ++ name) = some e → Removed (type_ ++ ":" ++ name) e.author
      (Y.decode e.value) (m.run es).world
      ((Host Y G).afterwards ((Host Y G).exec c l w₁ p).loc ((Host Y G).exec c l w₁ p).world) :=
    fun e hk => ((exec_delete_smooth hY hm hw hb he hx ht hk hc).2.1 hend).afterwards hstores
  refine ⟨((shrunk_enter he).trans (shrunk_exec hx he c)).trans shrunk_afterwards, ?_, fun e hk => ?_⟩
  · cases hk : w₁.kv (type_ ++ ":" ++ name) with
    | some e => exact (removed e hk).kv
    | none =>
      have hsame : Function.update w₁.kv (type_ ++ ":" ++ name) none = w₁.kv := by
        rw [← hk, Function.update_eq_self]
      rw [← hstores, hsame, ← kv_of_unregistered hx ht he hc hk]
      exact System.afterwards_elim (Y := Host Y G)
        (P := fun w' => World.kv w' = World.kv ((Host Y G).exec c l w₁ p).world) rfl rfl
  · exact removed e (hstores ▸ hk)

/-- Deletes that run one after another from a reachable state, without failure and each to
its end, in any order: what is left is what was there before, less the record, the
process, the address and the fragment of each workload that was to be removed. -/
theorem torn_down (hY : Y.Lawful) (hm : m.Idle) (hw : World.Untouched m.world)
    (hb : (World.net m.world).OwnBridge) (hi : (m.run es).jobs i = none)
    (h : TakenDown Y G (m.run es).world ks w') : Remains Y ks (m.run es).world w' := by
  generalize hworld : (m.run es).world = w at h
  induction h generalizing es with
  | nil w => exact .nil w
  | @cons w w₁ w' x l p type_ name ks c hx ht he hc hend rest ih =>
    subst w
    obtain ⟨fs, hfs⟩ := Machine.exists_run_alone hi he c
    rw [← Machine.run_append] at hfs
    have hrest := ih (by rw [hfs]; exact hi) (congrArg Machine.world hfs)
    exact Remains.cons (undone_of_delete hY hm hw hb hx ht he hc hend) hrest

end Runs

namespace Sample

/-- A service behind Envoy and a database run. -/
def inhabited : List (SampleEvent Unit) :=
  create () shop 100 :: steps () 60 101 ++ create () users 110 :: steps () 60 111

/-- A delete by itself, where what it starts gets the pid `n`, and what is to hold afterwards. -/
def thenDelete (type_ name : String) (pid n : Nat) (f : World → Bool) (w : World) : Bool :=
  (enter yaml ⟨.delete type_ name, pid, 0⟩ w).any fun r =>
    let o := (Host yaml lowestFree).exec (fun _ => { pid := n }) r.1 r.2.2 r.2.1
    o.result.isSome && f ((Host yaml lowestFree).afterwards o.loc o.world)

theorem takenDown_cons {type_ name : String} {pid n : Nat} {f : World → Bool} {w : World} {ks : List String}
    (ht : type_ = "service" ∨ type_ = "database") (h : thenDelete type_ name pid n f w = true)
    (rest : ∀ w₂, f w₂ = true → ∃ w', TakenDown yaml lowestFree w₂ ks w') :
    ∃ w', TakenDown yaml lowestFree w ((type_ ++ ":" ++ name) :: ks) w' := by
  obtain ⟨⟨l, p, w₁⟩, he, hr⟩ := (Option.any_eq_true _ _).mp h
  obtain ⟨hend, hf⟩ := Bool.and_eq_true_iff.mp hr
  obtain ⟨⟨⟩, hend⟩ := Option.isSome_iff_exists.mp hend
  obtain ⟨w', hw'⟩ := rest _ hf
  exact ⟨w', .cons (c := fun _ => { pid := n }) rfl ht he (fun _ => rfl) hend hw'⟩

/-- Both are taken down. -/
theorem inhabited_down : ∃ w', TakenDown yaml lowestFree (start.run inhabited).world
      ["service" ++ ":" ++ "shop", "database" ++ ":" ++ "users"] w' ∧
    Remains yaml ["service" ++ ":" ++ "shop", "database" ++ ":" ++ "users"] (start.run inhabited).world w' := by
  have hruns : thenDelete "service" "shop" 120 130 (thenDelete "database" "users" 140 150 fun _ => true)
      (start.run inhabited).world = true := by decide +kernel
  obtain ⟨w', h⟩ := takenDown_cons (.inl rfl) hruns fun _ hw₂ =>
    takenDown_cons (.inr rfl) hw₂ fun w₃ _ => ⟨w₃, .nil w₃⟩
  have hb : (World.net (start (ι := Unit)).world).OwnBridge := fun k hk => absurd hk List.not_mem_nil
  have hi : (start.run inhabited).jobs () = none := by
    have hnone : ((start.run inhabited).jobs ()).isNone = true := by decide +kernel
    exact Option.isNone_iff_eq_none.mp hnone
  exact ⟨w', h, torn_down yaml_lawful start_idle ⟨fun _ => rfl, start_workloads, rfl⟩ hb hi h⟩

end Sample
end PrivatePaas
