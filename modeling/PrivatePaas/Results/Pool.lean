import PrivatePaas.Registry.Accounts
import PrivatePaas.Results.Sample

/-!
# The pool between invocations

With complete invocations and no failing operation the pool holds the reserved addresses
and the recorded ones, and nothing else, as long as no create of an unknown type is given
an address and no create replaces a record that has one.
-/

namespace PrivatePaas
set_option autoImplicit false
open Files Text Effects Network PrivatePaas.Parser

variable {Y : Yaml} {G : GoIpam}

/-- The network and the broadcast address, the bridge's, and the gateway's once Envoy has
been started. -/
def World.Reserved (w : World) (a : String) : Prop :=
  a = host 0 ∨ a = host 255 ∨ a = host 254 ∨ a = host 1 ∧ w.past.envoyText ≠ none

def World.Recorded (Y : Yaml) (w : World) (a : String) : Prop :=
  a ≠ "" ∧ ∃ key e, w.kv key = some e ∧ (Y.decode e.value).ip = a

/-- The allocated addresses are the reserved and the recorded ones. -/
structure Balanced (Y : Yaml) (w : World) : Prop where
  pool : ∀ s, w.pool = some s → ∀ a, a ∈ s ↔ w.Reserved a ∨ w.Recorded Y a
  unmade : w.pool = none → (∀ a, ¬ w.Recorded Y a) ∧ w.past.envoyText = none
  emptied : (∀ key, w.kv key = none) → ∀ s, w.pool = some s → ∀ a, a ∈ s ↔ w.Reserved a

/-- A host on which no prefix has been made and nothing has been created. -/
structure World.Pristine (w : World) : Prop where
  registry : ∀ k, w.kv k = none
  pool : w.pool = none
  envoy : w.past.envoyText = none

/-- An answer other than the failure of a start or of the making of the prefix. -/
def Op.Works : (o : Op) → o.Ret → Prop
  | .proc (.start _), r => r ≠ none
  | .ipam _ .newPrefix, r => r ≠ .failed
  | _, _ => True

/-- Every start starts something, and the prefix can be made. -/
def Served (m : Machine (Host Y G) Unit) (e : Event (Host Y G) Unit) : Prop :=
  ∀ i c loc o k, m.Performs e i c loc o k → o.Works (perform Y G c loc m.world o).1

/-- An invocation ends when its program has come to its end. -/
def Complete (m : Machine (Host Y G) Unit) (e : Event (Host Y G) Unit) : Prop :=
  ∀ i j, m.Ends e i j → j.prog = .ret () ∧ (Host Y G).alive j.loc m.world = true

/-- A create of an unknown type finds the pool exhausted. -/
def KnownType (m : Machine (Host Y G) Unit) (e : Event (Host Y G) Unit) : Prop :=
  ∀ i c loc st k, m.Performs e i c loc (.ipam st .acquireIP) k →
    loc.ledger.stage = .holding false "" → ∀ s, m.world.pool = some s → G.acquireIP s = none

/-- A record that is replaced has no address, or Envoy's. -/
def Unreplaced (m : Machine (Host Y G) Unit) (e : Event (Host Y G) Unit) : Prop :=
  ∀ i c loc key text k, m.Performs e i c loc (.kv (.set key text)) k →
    ∀ x, m.world.kv key = some x → (Y.decode x.value).ip = "" ∨
      (Y.decode x.value).ip = host 1 ∧ m.world.past.envoyText ≠ none

/-- The dues of the invocation under way. -/
def duesOf (m : Machine (Host Y G) Unit) : Dues := ((m.jobs ()).map fun j => j.loc.dues).getD {}

theorem duesOf_job {m : Machine (Host Y G) Unit} {i : Unit} {j : Job (Host Y G)}
    (h : m.jobs i = some j) : duesOf m = j.loc.dues := by
  simp [duesOf, h]

theorem duesOf_none {m : Machine (Host Y G) Unit} {i : Unit} (h : m.jobs i = none) : duesOf m = {} := by
  simp [duesOf, h]

/-- The invariant: the programs keep to their monitors, and the accounts are right. -/
structure Audited (m : Machine (Host Y G) Unit) : Prop where
  ledger : (ledgerWatch Y G).Holds m
  dues : (duesWatch Y G).Holds m
  accounts : Accounts (booksOf m) (pagesOf m ()) (duesOf m) (m.world.past.envoyText ≠ none)

theorem accounts_put {w : (Host Y G).World} {jobs : Unit → Option (Job (Host Y G))} {i : Unit}
    {j : Option (Job (Host Y G))} {e : Prop}
    (h : Accounts (World.books Y w) (j.map fun j => j.loc.page) ((j.map fun j => j.loc.dues).getD {}) e) :
    Accounts (booksOf (⟨w, Function.update jobs i j⟩ : Machine (Host Y G) Unit))
      (pagesOf (⟨w, Function.update jobs i j⟩ : Machine (Host Y G) Unit) ())
      (duesOf (⟨w, Function.update jobs i j⟩ : Machine (Host Y G) Unit)) e := by
  have hj : (⟨w, Function.update jobs i j⟩ : Machine (Host Y G) Unit).jobs () = j :=
    Function.update_self i j jobs
  unfold pagesOf duesOf
  rw [hj]
  exact h

/-- The history of Envoy's starts. -/
theorem perform_envoyText {c : Choice} {l : Local} {w : World} (o : Op) :
    (perform Y G c l w o).2.2.past.envoyText ≠ none ↔
      w.past.envoyText ≠ none ∨ o.StartsEnvoy (perform Y G c l w o).1 := by
  rw [perform_past]
  generalize (perform Y G c l w o).1 = r
  have off : ∀ h : Past, h.envoyText = w.past.envoyText →
      (h.envoyText ≠ none ↔ w.past.envoyText ≠ none ∨ False) := fun h hh => by rw [hh, or_false]
  cases o with
  | ipam st o =>
    cases st with
    | memory => cases o <;> exact off _ rfl
    | redis =>
      cases o with
      | acquireIP => cases r <;> exact off _ rfl
      | acquireSpecificIP a => cases r <;> exact off _ rfl
      | releaseIP a => cases r <;> exact off _ rfl
      | _ => exact off _ rfl
  | proc o =>
    cases o with
    | start cmd =>
      by_cases hc : cmd.isWorkload = true ∨ r = none
      · have : Past.record w.past l w (.proc (.start cmd)) r = w.past := if_pos hc
        rw [this]
        refine (or_iff_left ?_).symm
        rintro ⟨hw, hne⟩
        rcases hc with hc | hc
        · exact absurd (hw.symm.trans hc) nofun
        · exact hne hc
      · have : Past.record w.past l w (.proc (.start cmd)) r =
            { w.past with envoyText := some (w.fs.content envoyConfig) } := if_neg hc
        rw [this]
        obtain ⟨hw, hne⟩ := not_or.mp hc
        exact ⟨fun _ => .inr ⟨Bool.eq_false_iff.mpr hw, hne⟩, fun _ => nofun⟩
    | _ => exact off _ rfl
  | _ => exact off _ rfl

theorem Op.Works.payable {o : Op} {r : o.Ret} {d : Debt} (h : o.Works r) (hd : d ≠ .void) :
    d.next Y o r ≠ .void := by
  rw [Debt.next_of_ne hd]
  cases o with
  | kv o =>
    cases o with
    | get key => cases r <;> first | exact hd | exact nofun
    | _ => exact hd
  | ipam st o =>
    cases o with
    | newPrefix => exact fun he => hd ((if_neg h).symm.trans he)
    | acquireSpecificIP a =>
      change (if a = host 1 then Debt.clear else d) ≠ .void
      split
      · exact nofun
      · exact hd
    | releaseIP a => exact nofun
    | _ => exact hd
  | proc o =>
    cases o with
    | start c =>
      change (if c.isWorkload then d else if r = none then .void else .started) ≠ Debt.void
      rw [if_neg (show ¬ r = none from h)]
      split
      · exact hd
      · exact nofun
    | kill n sg =>
      cases sg with
      | sigkill => cases d <;> first | exact hd | exact nofun
      | sigterm => exact hd
    | _ => exact hd
  | _ => exact hd

section Runs
variable {m : Machine (Host Y G) Unit} {e : Event (Host Y G) Unit}

theorem audited_of_pristine (hw : World.Pristine m.world) (hm : m.Idle) : Audited m := by
  have page : pagesOf m () = none := pagesOf_idle hm ()
  have dues : duesOf m = {} := duesOf_none (hm ())
  have reg : ∀ k, (booksOf m).registry k = none := fun k => by
    simp [booksOf, World.books, hw.registry k]
  have pool : ∀ s, (booksOf m).pool ≠ some s := fun s hs => by
    have hs' : m.world.pool = some s := hs
    rw [hw.pool] at hs'
    cases hs'
  have use : ∀ a, ¬ InUse (booksOf m) none a := by
    rintro a ⟨_, ⟨k, rec, au, hk, _⟩ | ha⟩
    · rw [reg] at hk
      cases hk
    · exact held_none ha
  refine ⟨Watch.holds_of_idle hm, Watch.holds_of_idle hm, ?_⟩
  rw [page, dues]
  refine ⟨by simp, fun k rec au hk => ?_, fun a ha => absurd ha held_none, by simp, by simp, by simp,
    fun k k' rec rec' au au' hk => ?_, fun a k rec au ha => absurd ha held_none, by simp, by simp, by simp,
    fun _ => ⟨use, fun _ he => he hw.envoy⟩, fun s hs => absurd hs (pool s), fun s hs => absurd hs (pool s),
    fun s hs => absurd hs (pool s)⟩
  · rw [reg] at hk
    cases hk
  · rw [reg] at hk
    cases hk

theorem Audited.balanced (h : Audited m) (hm : m.Idle) : Balanced Y m.world := by
  have ha := h.accounts
  have dues : duesOf m = {} := duesOf_none (hm ())
  rw [pagesOf_idle hm, dues] at ha
  have square : Debt.Square (Dues.debt {}) := ⟨by simp, by simp⟩
  have use : ∀ a, InUse (booksOf m) none a ↔ World.Recorded Y m.world a := by
    intro a
    constructor
    · rintro ⟨hne, ⟨k, rec, au, hk, rfl, _⟩ | hx⟩
      · obtain ⟨x, hx, he⟩ := Option.map_eq_some_iff.mp hk
        obtain ⟨rfl, _⟩ := Prod.mk.inj he
        exact ⟨hne, k, x, hx, rfl⟩
      · exact absurd hx held_none
    · rintro ⟨hne, k, x, hx, rfl⟩
      exact ⟨hne, .inl ⟨k, Y.decode x.value, x.author, by simp [booksOf, World.books, hx], rfl,
        not_dropping_none⟩⟩
  have pool : ∀ s, World.pool m.world = some s → ∀ a, a ∈ s ↔ World.Reserved m.world a ∨
      World.Recorded Y m.world a := by
    intro s hs a
    have h254 : host 254 ∈ s := ha.bridge s hs (by simp)
    unfold World.Reserved
    by_cases h1 : a = host 1
    · subst a
      rw [(ha.gate s hs).2 square, use]
      have hne : ∀ n, n ≠ 1 → host 1 ≠ host n := fun n hn he => hn (host_injective he).symm
      have := hne 0 (by omega)
      have := hne 254 (by omega)
      have := hne 255 (by omega)
      tauto
    · by_cases h2 : a = host 254
      · subst a
        exact ⟨fun _ => .inl (.inr (.inr (.inl rfl))), fun _ => h254⟩
      · rw [ha.taken s hs a h1 h2, use]
        tauto
  refine ⟨pool, fun hn => ?_, fun hempty s hs a => ?_⟩
  · obtain ⟨hno, hsq⟩ := ha.unmade hn
    exact ⟨fun a hx => hno a ((use a).mpr hx), not_not.mp (hsq square)⟩
  · rw [pool s hs a]
    refine or_iff_left ?_
    rintro ⟨_, k, x, hx, _⟩
    exact absurd ((hempty k).symm.trans hx) (by simp)

theorem Audited.step (hY : Y.Lawful) (hG : G.Lawful) (h : Audited m) (hup : RedisUp m e)
    (hserved : Served m e) (hend : Complete m e) (hknown : KnownType m e) (hover : Unreplaced m e) :
    Audited (m.apply e) := by
  refine ⟨h.ledger.apply e, h.dues.apply e, ?_⟩
  apply Machine.apply_elim (P := fun m' => Accounts (booksOf m') (pagesOf m' ()) (duesOf m')
    (m'.world.past.envoyText ≠ none)) m e
  case stay => exact h.accounts
  case launched =>
    intro i x loc p w _ hj he
    change PrivatePaas.enter Y x m.world = some (loc, p, w) at he
    have hacc := h.accounts
    rw [show pagesOf m () = none by simp [pagesOf, hj], duesOf_none hj] at hacc
    obtain ⟨_, _, hl, hd, _⟩ := enter_spec he
    have hw := enter_stores he
    have hfresh := fresh_outset x.task
    have hpage : loc.page.stage = x.task.outset := congrArg Ledger.stage hl
    have noHold : ∀ a, ¬ loc.page.stage.Holds a := by
      intro a ha
      rw [hpage] at ha
      rcases hfresh with hs | hs | ⟨_, hs⟩ <;> rw [hs] at ha <;> exact ha
    have noAbout : ∀ k rec, ¬ loc.page.stage.About k rec := by
      intro k rec ha
      rw [hpage] at ha
      rcases ha with ha | ha | ha <;> rcases hfresh with hs | hs | ⟨_, hs⟩ <;> rw [hs] at ha <;> cases ha
    refine accounts_put ?_
    change Accounts (World.books Y w) (some loc.page) loc.dues ((World.past w).envoyText ≠ none)
    rw [hd, hw.past]
    refine hacc.keep hw.pool (hw.registry Y) ?_ (by simp) (fun a _ => ?_) (fun k rec _ => ?_) ?_ ?_ ?_
      (by simp) (by simp) (by simp) (fun hsq => ⟨hsq, id⟩) id
    · rintro _ ⟨⟩
      exact congrArg Ledger.offline hl
    · exact ⟨fun hx => absurd (held_some.mp hx) (noHold a), fun hx => absurd hx held_none⟩
    · refine ⟨fun hx => ?_, fun hx => absurd hx not_dropping_none⟩
      exact absurd (.inr (dropping_some.mp hx)) (noAbout k rec)
    · rintro _ a ⟨⟩ hs
      exact absurd (show loc.page.stage.Holds a by rw [hs]; rfl) (noHold a)
    · rintro _ k rec ⟨⟩ hs
      exact absurd hs (noAbout k rec)
    · rintro _ k rec ⟨⟩ hs
      exact absurd (.inl hs) (noAbout k rec)
  case dead =>
    intro i j he hdead
    rw [(hend i j he).2] at hdead
    cases hdead
  case ended =>
    intro i j he _
    obtain ⟨_, _, hj, _⟩ := id he
    have hacc := h.accounts
    rw [show pagesOf m () = some j.loc.page from pagesOf_job hj, duesOf_job hj] at hacc
    have hl := h.ledger i j hj
    have hfin := h.dues i j hj
    rw [(hend i j he).1] at hl hfin
    have hl' : j.loc.ledger.final := hl
    have hdebt : j.loc.dues.debt = .clear := (show Debt.final _ from hfin).resolve_right hacc.payable
    have hstage : j.loc.page.stage = .done ∨ ∃ a, j.loc.page.stage = .holding false a := by
      have hf : j.loc.page.stage.final := hl'.1
      cases hs : j.loc.page.stage <;> rw [hs] at hf
      case done => exact .inl rfl
      case holding known a => exact .inr ⟨a, by rw [show known = false from hf]⟩
      all_goals exact absurd hf id
    have hno : ∀ a, a ≠ "" → ¬ j.loc.page.stage.Holds a := by
      intro a hne hx
      rcases hstage with hs | ⟨a', hs⟩ <;> rw [hs] at hx
      · exact hx
      · exact hne (Eq.trans hx (hacc.unknown _ a' rfl hs))
    have hdrop : ∀ k rec, ¬ j.loc.page.stage.Pending k rec := by
      rintro k rec (hx | hx) <;> rcases hstage with hs | ⟨a', hs⟩ <;> rw [hs] at hx <;> cases hx
    refine accounts_put (hacc.keep rfl rfl (by simp) (fun _ p hp => ?_) (fun a hne => ?_)
      (fun k rec hne => ?_) (by simp) (by simp) (by simp) (by simp) (by simp) (by simp) (fun _ => ⟨?_, id⟩) id)
    · obtain rfl := Option.some.inj hp
      exact hl'.2
    · exact ⟨fun hx => absurd hx held_none, fun hx => absurd (held_some.mp hx) (hno a hne)⟩
    · exact ⟨fun hx => absurd hx not_dropping_none, fun hx => absurd (dropping_some.mp hx) (hdrop k rec)⟩
    · rw [hdebt]
      exact ⟨by simp, by simp⟩
  case acted =>
    intro i c loc o k hp
    have hok : (PrivatePaas.ledger Y).ok loc.ledger o := h.ledger.ok hp
    have hm : Moves Y G True False c loc m.world o := moves_perform hY hok
      (fun _ => hup i c loc o k hp) (fun hx => absurd hx id)
    have hacc := h.accounts
    rw [show pagesOf m () = some loc.page from pagesOf_job hp.2.1, duesOf_job hp.2.1] at hacc
    refine accounts_put (hacc.move hG hm (h.dues.ok hp) rfl
      ((hserved i c loc o k hp).payable hacc.payable) (fun st ho hs => ?_) (fun key text ho => ?_)
      (@perform_envoyText Y G c loc m.world o))
    · subst ho
      exact hknown i c loc st k hp hs
    · subst ho
      intro rec au hk
      obtain ⟨x, hx, he⟩ := Option.map_eq_some_iff.mp hk
      obtain ⟨rfl, _⟩ := Prod.mk.inj he
      exact hover i c loc key text k hp x hx
  case disturbed =>
    intro d _
    have hw : World.SameStores m.world (disturb d m.world) := disturb_stores d
    change Accounts (World.books Y (disturb d m.world)) (pagesOf m ()) (duesOf m)
      ((disturb d m.world).past.envoyText ≠ none)
    rw [hw.past]
    exact h.accounts.books hw.pool (hw.registry Y)

end Runs

/-- From a pristine host, complete invocations one after another, without a failing
operation. -/
theorem pool_balanced {m : Machine (Host Y G) Unit} {es : List (Event (Host Y G) Unit)}
    (hY : Y.Lawful) (hG : G.Lawful) (hm : m.Idle) (hw : World.Pristine m.world)
    (hc : Machine.Along (fun m e => RedisUp m e ∧ Served m e ∧ Complete m e ∧ KnownType m e ∧
      Unreplaced m e) m es) :
    Machine.Throughout (fun m => m.Idle → Balanced Y m.world) m es :=
  (Machine.throughout_of_step (J := Audited)
    (fun _ _ h hc => h.step hY hG hc.1 hc.2.1 hc.2.2.1 hc.2.2.2.1 hc.2.2.2.2)
    (audited_of_pristine hw hm) hc).imp fun _ h => h.balanced

instance (o : Op) (r : o.Ret) : Decidable (o.Works r) :=
  match o, r with
  | .proc (.start _), r => inferInstanceAs (Decidable (r ≠ none))
  | .ipam _ .newPrefix, r => inferInstanceAs (Decidable (r ≠ .failed))
  | .proc (.kill _ _), _ | .proc (.signal0 _), _ | .proc (.netnsReady _), _ | .proc (.release _), _
  | .proc (.lookPath _), _ | .proc (.lookupUser _), _ | .ipam _ .prefixFrom, _
  | .ipam _ (.acquireSpecificIP _), _ | .ipam _ .acquireIP, _ | .ipam _ (.releaseIP _), _
  | .fs _, _ | .kv _, _ | .probe _, _ | .net _, _ => .isTrue trivial

/-- A test for `Served` and `Complete`. -/
def wholesome (m : Machine (Host Y G) Unit) (e : Event (Host Y G) Unit) : Bool :=
  match e with
  | .act i c => match m.due i with
    | some (loc, o) => decide (o.Works (perform Y G c loc m.world o).1)
    | none => (m.jobs i).all fun j => (Host Y G).alive j.loc m.world && match j.prog with
      | .ret _ => true
      | _ => false
  | _ => true

theorem wholesome_sound {m : Machine (Host Y G) Unit} {e : Event (Host Y G) Unit}
    (h : wholesome m e = true) : Served m e ∧ Complete m e := by
  constructor
  · intro i c loc o k hp
    have hdue := hp.due
    obtain ⟨rfl, _⟩ := hp
    simp only [wholesome, hdue] at h
    exact of_decide_eq_true h
  · intro i j hend
    have hdue := hend.due
    obtain ⟨c, rfl, hj, _⟩ := hend
    simp only [wholesome, hdue, hj, Option.all_some, Bool.and_eq_true] at h
    obtain ⟨ha, hprog⟩ := h
    refine ⟨?_, ha⟩
    cases hp : j.prog with
    | ret a => rfl
    | halt => rw [hp] at hprog; cases hprog
    | call o k => rw [hp] at hprog; cases hprog

/-- A test for `KnownType` and `Unreplaced`. -/
def wellKept (m : Machine (Host Y G) Unit) (e : Event (Host Y G) Unit) : Bool :=
  match e with
  | .act i _ => match m.due i with
    | some (loc, .ipam _ .acquireIP) => decide ((Local.ledger loc).stage ≠ .holding false "")
    | some (_, .kv (.set key _)) => (World.kv m.world key).all fun x => (Y.decode x.value).ip = ""
    | _ => true
  | _ => true

theorem wellKept_sound {m : Machine (Host Y G) Unit} {e : Event (Host Y G) Unit}
    (h : wellKept m e = true) : KnownType m e ∧ Unreplaced m e := by
  constructor
  · intro i c loc st k hp hs
    have hdue := hp.due
    obtain ⟨rfl, _⟩ := hp
    simp only [wellKept, hdue] at h
    exact absurd hs (of_decide_eq_true h)
  · intro i c loc key text k hp x hx
    have hdue := hp.due
    obtain ⟨rfl, _⟩ := hp
    have hx' : World.kv m.world key = some x := hx
    simp only [wellKept, hdue, hx', Option.all_some] at h
    exact .inl (of_decide_eq_true h)

section Sample
open Sample

/-- A file of an unknown type is handed to `create`. -/
def leak : List (SampleEvent Unit) := create () odd 100 :: steps () 30 101

theorem start_pristine : World.Pristine (start (ι := Unit)).world := ⟨fun _ => rfl, rfl, rfl⟩

/-- The address that the create has acquired is in no record. -/
theorem leak_unbalanced : World.Pristine (start (ι := Unit)).world ∧ (∀ e ∈ leak, Faultless e) ∧
    Machine.Along (fun m e => Served m e ∧ Complete m e) start leak ∧
    ¬ Machine.Throughout (fun m => m.Idle → Balanced yaml m.world) start leak := by
  refine ⟨start_pristine, by decide +kernel, ?_, fun h => ?_⟩
  · exact (by decide +kernel : Machine.Along (fun m e => wholesome m e = true) start leak).imp
      fun _ _ h => wholesome_sound h
  have hidle : (start.run leak).Idle := idle_of_isNone (by decide +kernel)
  have hpool : (World.pool (start.run leak).world).map (fun s => decide (host 1 ∈ s)) = some true := by
    decide +kernel
  have henvoy : (World.past (start.run leak).world).envoyText = none := by decide +kernel
  obtain ⟨s, hs, hmem⟩ := Option.map_eq_some_iff.mp hpool
  have hkv : ∀ key, World.kv (start.run leak).world key = none := by
    have hrun : RecordsIn [] (start.run leak) := Machine.run_of_step (fun _ _ => recordsIn_step)
      (fun _ _ => rfl) (by decide +kernel : Machine.Along (fun m e => within [] m e = true) start leak)
    exact fun key => hrun key List.not_mem_nil
  have hres := ((h.last hidle).emptied hkv s hs (host 1)).mp (of_decide_eq_true hmem)
  rcases hres with he | he | he | ⟨_, he⟩
  · exact absurd (host_injective he) (by decide)
  · exact absurd (host_injective he) (by decide)
  · exact absurd (host_injective he) (by decide)
  · exact he henvoy

theorem comings_balanced : Machine.Throughout (fun m => m.Idle → Balanced yaml m.world) start comings :=
  pool_balanced yaml_lawful lowestFree_lawful start_idle start_pristine <|
    (((Machine.along_of_forall (D := Faultless) (by decide +kernel)).and
      (by decide +kernel : Machine.Along (fun m e => wholesome m e = true) start comings)).and
      (by decide +kernel : Machine.Along (fun m e => wellKept m e = true) start comings)).imp
      fun _ _ h => ⟨h.1.1.redisUp, (wholesome_sound h.1.2).1, (wholesome_sound h.1.2).2,
        wellKept_sound h.2⟩

end Sample
end PrivatePaas
