import PrivatePaas.Registry.Sequence
import PrivatePaas.Results.Sample

/-!
# The addresses of the bridge and of the gateway

The bridge has 10.0.0.254 from the moment the prefix is made; 10.0.0.1 is Envoy's only
from its first start on. A workload whose create runs before that is given 10.0.0.1,
so the gateway's address is kept from the workloads exactly as long as no create asks
for an address while 10.0.0.1 is free.
-/

namespace PrivatePaas
set_option autoImplicit false
open Files Text Effects Network PrivatePaas.Parser Books

variable {Y : Yaml} {G : GoIpam}

/-- An address that a workload may have. -/
def Guest (a : String) : Prop := ∃ n, 2 ≤ n ∧ n ≤ 253 ∧ a = host n

/-- What `GetIp` hands out is an address for workloads. -/
def Handed (m : Machine (Host Y G) Unit) (e : Event (Host Y G) Unit) : Prop :=
  ∀ i c loc st k a, m.Performs e i c loc (.ipam st .acquireIP) k →
    (perform Y G c loc m.world (.ipam st .acquireIP)).1 = some a → Guest a

/-- No live and no registered workload has the gateway's address. -/
structure Ungated (Y : Yaml) (w : World) : Prop where
  live : ∀ q, w.Live q → q.ip ≠ host 1
  recorded : ∀ key e, w.kv key = some e → (Y.decode e.value).ip ≠ host 1

/-- Where an address is asked for, the gateway's is not free. -/
def GatewayTaken (m : Machine (Host Y G) Unit) (e : Event (Host Y G) Unit) : Prop :=
  ∀ i c loc st k, m.Performs e i c loc (.ipam st .acquireIP) k →
    ∀ s, m.world.pool = some s → host 1 ∈ s

/-- No invocation ends between making the prefix and asking for the bridge's address. -/
def PrefixWhole (m : Machine (Host Y G) Unit) (e : Event (Host Y G) Unit) : Prop :=
  ∀ i j, m.Ends e i j → j.loc.ledger.unreserved = false

/-- No prefix, and no workload outside the addresses for workloads. -/
structure World.Unnumbered (Y : Yaml) (w : World) : Prop where
  pool : w.pool = none
  live : ∀ q, w.Live q → q.ip = "" ∨ Guest q.ip
  recorded : ∀ key e, w.kv key = some e → (Y.decode e.value).ip = "" ∨ Guest (Y.decode e.value).ip

theorem guest_ne {a : String} {n : Nat} (h : Guest a) (hn : n < 2 ∨ 253 < n) : a ≠ host n := by
  obtain ⟨k, hlo, hhi, rfl⟩ := h
  intro he
  have := host_injective he
  omega

theorem Guest.cleanIP {a : String} (h : Guest a) : cleanIP a = a := by
  obtain ⟨n, _, _, rfl⟩ := h
  exact cleanIP_host n

/-- The addresses that no workload gets are allocated, and every address in use is for
workloads. -/
structure Walled (b : Books) (P : Pages Unit) : Prop where
  online : ∀ p, P () = some p → p.offline = false
  edges : ∀ s, b.pool = some s → host 0 ∈ s ∧ host 255 ∈ s
  bridge : ∀ s, b.pool = some s → host 254 ∈ s ∨ ∃ p, P () = some p ∧ p.unreserved = true
  entry : ∀ k rec a, b.registry k = some (rec, a) → rec.ip = "" ∨ Guest rec.ip
  live : ∀ q, b.Live q → q.ip = "" ∨ Guest q.ip
  page : ∀ p a, P () = some p → p.stage.Holds a → a = "" ∨ Guest a
  read : ∀ p rec, P () = some p → p.stage.Reads rec → rec.ip = "" ∨ Guest rec.ip

/-- The address that go-ipam finds when all others are taken is one for workloads. -/
theorem guest_of_acquireIP {s : Finset String} {a : String} (hG : G.Lawful)
    (h : G.acquireIP s = some a) (h0 : host 0 ∈ s) (h1 : host 1 ∈ s) (h254 : host 254 ∈ s)
    (h255 : host 255 ∈ s) : Guest a := by
  obtain ⟨n, hn, rfl⟩ := mem_hosts.mp (hG.host s a h)
  have hfree := hG.free s _ h
  have hne : ∀ k, host k ∈ s → n ≠ k := by
    rintro k hk rfl
    exact hfree hk
  have := hne 0 h0
  have := hne 1 h1
  have := hne 254 h254
  have := hne 255 h255
  exact ⟨n, by omega, by omega, rfl⟩

/-- With the gateway's address free, it is the one that go-ipam finds. -/
theorem acquireIP_gateway {s : Finset String} (hG : G.Lawful) (hlow : G.LowestFirst)
    (h0 : host 0 ∈ s) (h1 : host 1 ∉ s) : G.acquireIP s = some (host 1) := by
  cases ha : G.acquireIP s with
  | none => exact absurd (hG.full s ha (host 1) (mem_hosts.mpr ⟨1, by omega, rfl⟩)) h1
  | some a =>
    obtain ⟨n, hn, rfl⟩ := mem_hosts.mp (hG.host s a ha)
    have hfree := hG.free s _ ha
    have hle : ¬ 1 < n := fun hlt => h1 (hlow s n ha 1 hlt)
    have hne : n ≠ 0 := by
      rintro rfl
      exact hfree h0
    obtain rfl : n = 1 := by omega
    rfl

section Steps
variable {b b' : Books} {P : Pages Unit} {p p' : Page} {up hit : Prop}

/-- The bridge's address is allocated once the page under way has asked for it. -/
theorem Walled.bridge_of_page (h : Walled b P) (hi : P () = some p) (hu : p.unreserved = false)
    {s : Finset String} (hs : b.pool = some s) : host 254 ∈ s := by
  rcases h.bridge s hs with hm | ⟨q, hq, hr⟩
  · exact hm
  · obtain rfl : p = q := Option.some.inj (hi.symm.trans hq)
    rw [hu] at hr
    cases hr

/-- A move that leaves pool and records alone, to a page with the same addresses or fewer. -/
theorem Walled.keep (h : Walled b P) (hi : P () = some p) (hpool : b'.pool = b.pool)
    (hreg : ∀ k e, b'.registry k = some e → b.registry k = some e)
    (hlive : ∀ q, b'.Live q → ∃ q0, b.Live q0 ∧ q.ip = q0.ip) (hon : p'.offline = p.offline)
    (hu : p.unreserved = true → p'.unreserved = true)
    (hh : ∀ a, a ≠ "" → p'.stage.Holds a → p.stage.Holds a)
    (hr : ∀ rec, p'.stage.Reads rec → p.stage.Reads rec) :
    Walled b' (Function.update P () (some p')) := by
  have hp : ∀ q, Function.update P () (some p') () = some q → q = p' := by
    intro q hq
    simpa using hq.symm
  constructor
  · intro q hq
    rw [hp q hq, hon]
    exact h.online p hi
  · exact fun s hs => h.edges s (hpool ▸ hs)
  · intro s hs
    rcases h.bridge s (hpool ▸ hs) with hm | ⟨q, hq, hq'⟩
    · exact .inl hm
    · obtain rfl : p = q := Option.some.inj (hi.symm.trans hq)
      exact .inr ⟨p', by simp, hu hq'⟩
  · exact fun k rec a hk => h.entry k rec a (hreg k _ hk)
  · intro q hq
    obtain ⟨q0, hq0, he⟩ := hlive q hq
    rw [he]
    exact h.live q0 hq0
  · intro q a hq hs
    rw [hp q hq] at hs
    by_cases ha : a = ""
    · exact .inl ha
    · exact h.page p a hi (hh a ha hs)
  · intro q rec hq hs
    rw [hp q hq] at hs
    exact h.read p rec hi (hr rec hs)

/-- A move that changes the pool only, and the page's knowledge of it. -/
theorem Walled.repool {s : Finset String} {r : Bool} {lessee : String → Option Nat}
    (h : Walled b P) (hi : P () = some p) (hedges : host 0 ∈ s ∧ host 255 ∈ s)
    (hbridge : host 254 ∈ s ∨ r = true) :
    Walled { b with pool := some s, lessee := lessee }
      (Function.update P () (some { p with unreserved := r })) := by
  have hp : ∀ q, Function.update P () (some { p with unreserved := r }) () = some q →
      q = { p with unreserved := r } := by
    intro q hq
    simpa using hq.symm
  constructor
  · intro q hq
    rw [hp q hq]
    exact h.online p hi
  · intro s' hs'
    obtain rfl := Option.some.inj hs'
    exact hedges
  · intro s' hs'
    obtain rfl := Option.some.inj hs'
    rcases hbridge with hb | hb
    · exact .inl hb
    · exact .inr ⟨_, Function.update_self .., hb⟩
  · exact h.entry
  · exact h.live
  · intro q a hq hs
    rw [hp q hq] at hs
    exact h.page p a hi hs
  · intro q rec hq hs
    rw [hp q hq] at hs
    exact h.read p rec hi hs

theorem Walled.claim {known : Bool} {s : Finset String} {a : String} {lessee : String → Option Nat}
    (h : Walled b P) (hi : P () = some p) (hpool : b.pool = some s) (ha : Guest a) :
    Walled { b with pool := some (insert a s), lessee := lessee }
      (Function.update P () (some { p with stage := .holding known a })) := by
  have hp : ∀ q, Function.update P () (some { p with stage := Stage.holding known a }) () = some q →
      q = { p with stage := .holding known a } := by
    intro q hq
    simpa using hq.symm
  constructor
  · intro q hq
    rw [hp q hq]
    exact h.online p hi
  · intro s' hs'
    obtain rfl := Option.some.inj hs'
    exact ⟨Finset.mem_insert_of_mem (h.edges s hpool).1, Finset.mem_insert_of_mem (h.edges s hpool).2⟩
  · intro s' hs'
    obtain rfl := Option.some.inj hs'
    rcases h.bridge s hpool with hm | ⟨q, hq, hr⟩
    · exact .inl (Finset.mem_insert_of_mem hm)
    · obtain rfl : p = q := Option.some.inj (hi.symm.trans hq)
      exact .inr ⟨_, Function.update_self .., hr⟩
  · exact h.entry
  · exact h.live
  · intro q x hq hs
    rw [hp q hq] at hs
    obtain rfl : x = a := hs
    exact .inr ha
  · intro q rec hq hs
    rw [hp q hq] at hs
    exact absurd hs id

/-- What is released is an address for workloads. -/
theorem Walled.release {key : String} {rec : Cmd.Service} {s : Finset String} {a : String}
    {freed : Finset Nat} (h : Walled b P) (hi : P () = some p) (hs : p.stage = .reading key rec)
    (hip : rec.ip ≠ "") (ha : a = cleanIP rec.ip) (hpool : b.pool = some s) :
    Walled { b with pool := some (s.erase a), freed := freed }
      (Function.update P () (some { p with stage := .released key rec })) := by
  have hr : p.stage.Reads rec := by rw [hs]; exact rfl
  have hg : Guest rec.ip := (h.read p rec hi hr).resolve_left hip
  have hsafe : ∀ n, n < 2 ∨ 253 < n → host n ∈ s → host n ∈ s.erase a := by
    intro n hn hm
    refine Finset.mem_erase.mpr ⟨fun he => ?_, hm⟩
    rw [ha, hg.cleanIP] at he
    exact guest_ne hg hn he.symm
  have hp : ∀ q, Function.update P () (some { p with stage := Stage.released key rec }) () = some q →
      q = { p with stage := .released key rec } := by
    intro q hq
    simpa using hq.symm
  constructor
  · intro q hq
    rw [hp q hq]
    exact h.online p hi
  · intro s' hs'
    obtain rfl := Option.some.inj hs'
    exact ⟨hsafe 0 (by omega) (h.edges s hpool).1, hsafe 255 (by omega) (h.edges s hpool).2⟩
  · intro s' hs'
    obtain rfl := Option.some.inj hs'
    rcases h.bridge s hpool with hm | ⟨q, hq, hq'⟩
    · exact .inl (hsafe 254 (by omega) hm)
    · obtain rfl : p = q := Option.some.inj (hi.symm.trans hq)
      exact .inr ⟨_, Function.update_self .., hq'⟩
  · exact h.entry
  · exact h.live
  · intro q x hq hst
    rw [hp q hq] at hst
    exact absurd hst id
  · intro q rec' hq hst
    rw [hp q hq] at hst
    obtain rfl : rec' = rec := hst
    exact .inr hg

theorem Walled.start {known : Bool} {ip : String} {pid : Nat} (h : Walled b P) (hi : P () = some p)
    (hs : p.stage = .holding known ip) (hf : b.procs.Free pid) :
    Walled { b with procs := b.procs.add (child p pid ip) hf }
      (Function.update P () (some { p with stage := .running ip pid })) := by
  have hip : ip = "" ∨ Guest ip := h.page p ip hi (by rw [hs]; exact rfl)
  have weak : Walled b (Function.update P () (some { p with stage := .running ip pid })) :=
    h.keep hi rfl (fun _ _ hk => hk) (fun q hq => ⟨q, hq, rfl⟩) rfl id
      (fun a _ ha => by rw [hs]; exact ha) fun _ hr => absurd hr id
  refine ⟨weak.online, weak.edges, weak.bridge, weak.entry, fun q hq => ?_, weak.page, weak.read⟩
  rcases (Procs.mem_add (h := hf)).mp hq.1 with rfl | hm
  · exact hip
  · exact h.live q ⟨hm, hq.2⟩

theorem Walled.set {key : String} {rec : Cmd.Service} (h : Walled b P) (hi : P () = some p)
    (hs : p.stage.Holds rec.ip) :
    Walled { b with registry := Function.update b.registry key (some (rec, p.id)) }
      (Function.update P () (some { p with stage := .done })) := by
  have weak : Walled b (Function.update P () (some { p with stage := .done })) :=
    h.keep hi rfl (fun _ _ hk => hk) (fun q hq => ⟨q, hq, rfl⟩) rfl id
      (fun _ _ ha => absurd ha id) fun _ hr => absurd hr id
  refine ⟨weak.online, weak.edges, weak.bridge, fun k rec' a hk => ?_, weak.live, weak.page, weak.read⟩
  by_cases hkey : k = key
  · subst k
    simp only [Function.update_self, Option.some.injEq, Prod.mk.injEq] at hk
    rw [← hk.1]
    exact h.page p rec.ip hi hs
  · exact h.entry k rec' a (by simpa [Function.update_of_ne hkey] using hk)

theorem Walled.get {key : String} {rec : Cmd.Service} {author : Nat} (h : Walled b P)
    (hi : P () = some p) (hk : b.registry key = some (rec, author)) :
    Walled b (Function.update P () (some { p with stage := .reading key rec, target := author })) := by
  have weak : Walled b (Function.update P () (some { p with stage := .done, target := author })) :=
    h.keep hi rfl (fun _ _ hk => hk) (fun q hq => ⟨q, hq, rfl⟩) rfl id
      (fun _ _ ha => absurd ha id) fun _ hr => absurd hr id
  refine ⟨fun q hq => ?_, weak.edges, fun s hs => ?_, weak.entry, weak.live, fun q a hq hs => ?_,
    fun q rec' hq hs => ?_⟩
  · obtain rfl : { p with stage := Stage.reading key rec, target := author } = q := by simpa using hq
    exact h.online p hi
  · rcases h.bridge s hs with hm | ⟨q, hq, hr⟩
    · exact .inl hm
    · obtain rfl : p = q := Option.some.inj (hi.symm.trans hq)
      exact .inr ⟨{ p with stage := .reading key rec, target := author }, by simp, hr⟩
  · obtain rfl : { p with stage := Stage.reading key rec, target := author } = q := by simpa using hq
    exact absurd hs id
  · obtain rfl : { p with stage := Stage.reading key rec, target := author } = q := by simpa using hq
    obtain rfl : rec' = rec := hs
    exact h.entry key rec' author hk

theorem Walled.move {o : Op} {r : o.Ret} (h : Walled b P) (hG : G.Lawful) (hup : up) (hi : P () = some p)
    (hgate : ∀ st, o = .ipam st .acquireIP → ∀ s, b.pool = some s → host 1 ∈ s)
    (hm : Move G up hit p b o r p' b') : Walled b' (Function.update P () (some p')) := by
  have same : ∀ {b' : Books} {q : Page}, b'.pool = b.pool →
      (∀ k e, b'.registry k = some e → b.registry k = some e) →
      (∀ q, b'.Live q → ∃ q0, b.Live q0 ∧ q.ip = q0.ip) → q.offline = p.offline →
      q.unreserved = p.unreserved → (∀ a, a ≠ "" → q.stage.Holds a → p.stage.Holds a) →
      (∀ rec, q.stage.Reads rec → p.stage.Reads rec) → Walled b' (Function.update P () (some q)) :=
    fun hpool hreg hlive hon hu hh hr => h.keep hi hpool hreg hlive hon (fun ht => by rw [hu, ht]) hh hr
  have reg : ∀ k e, b.registry k = some e → b.registry k = some e := fun _ _ hk => hk
  have live : ∀ q, b.Live q → ∃ q0, b.Live q0 ∧ q.ip = q0.ip := fun q hq => ⟨q, hq, rfl⟩
  have none : ∀ a : String, a ≠ "" → False → p.stage.Holds a := fun _ _ hx => absurd hx id
  have nor : ∀ rec : Cmd.Service, False → p.stage.Reads rec := fun _ hx => absurd hx id
  cases hm with
  | silent => exact same rfl reg live rfl rfl (fun _ _ ha => ha) fun _ hr => hr
  | outset path s hs hs' =>
    refine same rfl reg live rfl rfl (fun a hne ha => ?_) fun rec hr => ?_
    · rcases hs' with rfl | ⟨known, rfl⟩
      · exact absurd ha id
      · exact absurd ha hne
    · rcases hs' with rfl | ⟨known, rfl⟩ <;> exact absurd hr id
  | offline o hdown => exact absurd hup hdown
  | stray st o s u pool lessee freed hoff =>
    rw [h.online p hi] at hoff
    cases hoff hup
  | format hnone => exact h.repool hi (by simp) (.inr rfl)
  | found s r hpool hr =>
    refine h.keep hi rfl reg live rfl (fun hu => ?_) (fun _ _ ha => ha) fun _ hr => hr
    rcases hr with rfl | rfl
    · rfl
    · exact hu
  | reserve s a hpool ha hr =>
    have hedges := h.edges s hpool
    refine h.repool hi ⟨Finset.mem_insert_of_mem hedges.1, Finset.mem_insert_of_mem hedges.2⟩ (.inl ?_)
    cases hu : p.unreserved with
    | true =>
      rw [hu] at hr
      rw [hr]
      exact Finset.mem_insert_self _ _
    | false => exact Finset.mem_insert_of_mem (h.bridge_of_page hi hu hpool)
  | reserved a ha hr =>
    refine ⟨fun q hq => ?_, h.edges, fun s hs => .inl ?_, h.entry, h.live, fun q x hq hs => ?_,
      fun q rec hq hs => ?_⟩
    · obtain rfl : { p with unreserved := false } = q := by simpa using hq
      exact h.online p hi
    · cases hu : p.unreserved with
      | true =>
        rw [hu, if_pos rfl] at hr
        rw [← hr]
        exact ha s hs
      | false => exact h.bridge_of_page hi hu hs
    · obtain rfl : { p with unreserved := false } = q := by simpa using hq
      exact h.page p x hi hs
    · obtain rfl : { p with unreserved := false } = q := by simpa using hq
      exact h.read p rec hi hs
  | claim known s a hs hu hpool ha =>
    have hedges := h.edges s hpool
    exact h.claim hi hpool (guest_of_acquireIP hG ha hedges.1 (hgate .redis rfl s hpool)
      (h.bridge_of_page hi hu hpool) hedges.2)
  | exhausted => exact same rfl reg live rfl rfl (fun _ _ ha => ha) fun _ hr => hr
  | release key rec s a hs hip hu ha hpool => exact h.release hi hs hip ha hpool
  | refuse key rec a hs =>
    refine same rfl reg live rfl rfl none fun rec' hr => ?_
    rw [hs]
    exact hr
  | start cmd known ip pid _ hs hf => exact h.start hi hs hf
  | startEnvoy cmd q _ hq hf =>
    refine same rfl reg (fun r hr => ?_) rfl rfl (fun _ _ ha => ha) fun _ hr => hr
    rcases (Procs.mem_add (h := hf)).mp hr.1 with rfl | hm
    · exact absurd (hq.symm.trans hr.2) nofun
    · exact ⟨r, ⟨hm, hr.2⟩, rfl⟩
  | kill key rec hs =>
    refine same rfl reg (fun q hq => ?_) rfl rfl none fun rec' hr => ?_
    · exact ⟨q, ⟨(Procs.mem_keep.mp hq.1).1, hq.2⟩, rfl⟩
    · rcases hs with hs | hs <;> rw [hs] <;> exact hr
  | killFails key rec hs =>
    refine same rfl reg live rfl rfl none fun rec' hr => ?_
    rcases hs with hs | hs <;> rw [hs] <;> exact hr
  | term n =>
    refine same rfl reg (fun q hq => ?_) rfl rfl (fun _ _ ha => ha) fun _ hr => hr
    obtain ⟨q0, hq0, he⟩ := Procs.exists_of_mem_term hq.1
    exact ⟨q0, ⟨hq0, by rw [← hq.2, he]⟩, by rw [he]⟩
  | set key text rec hs =>
    refine h.set hi ?_
    rcases hs with ⟨known, hs⟩ | ⟨pid, hs, _⟩ <;> rw [hs] <;> exact rfl
  | setFails key text rec hs hdown => exact absurd hup hdown
  | get key rec author hs hk => exact h.get hi hk
  | miss key t hs => exact same rfl reg live rfl rfl none nor
  | del key rec hs =>
    refine same rfl (fun k e hk => ?_) live rfl rfl none nor
    by_cases hkey : k = key
    · subst k
      simp at hk
    · simpa [Function.update_of_ne hkey] using hk
  | delFails key rec hs hdown => exact absurd hup hdown

end Steps

section Runs
variable {m : Machine (Host Y G) Unit} {e : Event (Host Y G) Unit}

theorem walled_of_unnumbered (hw : World.Unnumbered Y m.world) (hm : m.Idle) :
    Walled (booksOf m) (pagesOf m) := by
  have page : ∀ p, pagesOf m () ≠ some p := fun p hi => by
    rw [pagesOf_idle hm] at hi
    cases hi
  have pool : ∀ s, (booksOf m).pool ≠ some s := fun s hs => by
    have hs' : m.world.pool = some s := hs
    rw [hw.pool] at hs'
    cases hs'
  refine ⟨fun p hi => absurd hi (page p), fun s hs => absurd hs (pool s), fun s hs => absurd hs (pool s),
    fun k rec a hk => ?_, hw.live, fun p a hi => absurd hi (page p), fun p rec hi => absurd hi (page p)⟩
  obtain ⟨x, hx, he⟩ := Option.map_eq_some_iff.mp hk
  obtain ⟨rfl, _⟩ := Prod.mk.inj he
  exact hw.recorded k x hx

/-- The invariant: the programs keep to the ledger, and the addresses are walled. -/
structure Guarded (m : Machine (Host Y G) Unit) : Prop where
  ledger : (ledgerWatch Y G).Holds m
  walled : Walled (booksOf m) (pagesOf m)

theorem Guarded.ungated (h : Guarded m) : Ungated Y m.world := by
  refine ⟨fun q hq he => ?_, fun key x hx he => ?_⟩
  · rcases h.walled.live q hq with hip | hip
    · exact host_ne_empty 1 (he.symm.trans hip)
    · exact guest_ne hip (by omega) he
  · have hreg : (booksOf m).registry key = some (Y.decode x.value, x.author) := by
      simp [booksOf, World.books, hx]
    rcases h.walled.entry key _ _ hreg with hip | hip
    · exact host_ne_empty 1 (he.symm.trans hip)
    · exact guest_ne hip (by omega) he

/-- The pool in Redis is asked, and the bridge has its address. -/
theorem Guarded.asks (h : Guarded m) {i : Unit} {c : Choice} {loc : Local} {st : Storage}
    {k : Option String → Go Unit} (hp : m.Performs e i c loc (.ipam st .acquireIP) k) :
    st = .redis ∧ ∀ s, m.world.pool = some s → host 254 ∈ s := by
  have hi := pagesOf_job hp.2.1
  have hok : (PrivatePaas.ledger Y).ok loc.ledger (.ipam st .acquireIP) := h.ledger.ok hp
  have hon : loc.ledger.offline = false := h.walled.online loc.page hi
  refine ⟨?_, fun s hs => h.walled.bridge_of_page hi hok.2.2 hs⟩
  cases st with
  | redis => rfl
  | memory =>
    rw [hok.2.1 rfl] at hon
    cases hon

theorem Guarded.handed (h : Guarded m) (hG : G.Lawful) (hup : RedisUp m e) (hgate : GatewayTaken m e) :
    Handed m e := by
  intro i c loc st k a hp ha
  obtain ⟨rfl, h254⟩ := h.asks hp
  have hf := hup i c loc (.ipam .redis .acquireIP) k hp trivial
  obtain ⟨s, hpool, hs⟩ := Option.bind_eq_some_iff.mp ((perform_acquireIP hf).symm.trans ha)
  have hedges := h.walled.edges s hpool
  exact guest_of_acquireIP hG hs hedges.1 (hgate i c loc .redis k hp s hpool) (h254 s hpool) hedges.2

/-- Where the gateway's address is free, it is handed out. -/
theorem Guarded.gatewayTaken (h : Guarded m) (hG : G.Lawful) (hlow : G.LowestFirst)
    (hup : RedisUp m e) (hd : Handed m e) : GatewayTaken m e := by
  intro i c loc st k hp s hpool
  obtain ⟨rfl, _⟩ := h.asks hp
  have hf := hup i c loc (.ipam .redis .acquireIP) k hp trivial
  by_contra h1
  have ha := acquireIP_gateway hG hlow (h.walled.edges s hpool).1 h1
  have hans : (perform Y G c loc m.world (.ipam .redis .acquireIP)).1 = some (host 1) :=
    (perform_acquireIP hf).trans (Option.bind_eq_some_iff.mpr ⟨s, hpool, ha⟩)
  exact guest_ne (hd i c loc .redis k _ hp hans) (by omega) rfl

theorem Walled.over {b' : Books} (h : Walled (booksOf m) (pagesOf m)) {i : Unit}
    {j : Job (Host Y G)} (hw : PrefixWhole m e) (hend : m.Ends e i j)
    (hpool : b'.pool = (booksOf m).pool) (hreg : b'.registry = (booksOf m).registry)
    (hlive : ∀ q, b'.Live q → (booksOf m).Live q) : Walled b' (Function.update (pagesOf m) i none) := by
  have page : ∀ p, Function.update (pagesOf m) i none () ≠ some p := fun p hi => by simp at hi
  refine ⟨fun p hi => absurd hi (page p), fun s hs => h.edges s (hpool ▸ hs), fun s hs => .inl ?_,
    fun k rec a hk => h.entry k rec a (hreg ▸ hk), fun q hq => h.live q (hlive q hq),
    fun p a hi => absurd hi (page p), fun p rec hi => absurd hi (page p)⟩
  have ⟨_, _, hj, _⟩ := hend
  exact h.bridge_of_page (pagesOf_job hj) (hw i j hend) (hpool ▸ hs)

theorem Guarded.step (hY : Y.Lawful) (hG : G.Lawful) (h : Guarded m) (hup : RedisUp m e)
    (hw : PrefixWhole m e) (hgate : GatewayTaken m e) : Guarded (m.apply e) := by
  refine ⟨h.ledger.apply e, ?_⟩
  apply books_step (fun b P => Walled b P) True False hY h.ledger
  case hup => exact fun i c loc o k hp _ => hup i c loc o k hp
  case hhit => exact fun _ _ _ _ _ _ hx => absurd hx id
  case stay => exact h.walled
  case enter =>
    intro i p q hf hi ho hq _
    have page : ∀ r, Function.update (pagesOf m) i (some p) () = some r → p = r := fun r hr => by
      simpa using hr
    refine ⟨fun r hr => ?_, h.walled.edges, fun s hs => ?_, h.walled.entry, fun r hr => ?_,
      fun r a hr hs => ?_, fun r rec hr hs => ?_⟩
    · obtain rfl := page r hr
      exact ho.online
    · rcases h.walled.bridge s hs with hm | ⟨r, hr, _⟩
      · exact .inl hm
      · rw [hi] at hr
        cases hr
    · rcases (Procs.mem_add (h := hf)).mp hr.1 with rfl | hm
      · exact absurd (hq.symm.trans hr.2) nofun
      · exact h.walled.live r ⟨hm, hr.2⟩
    · obtain rfl := page r hr
      rcases ho.fresh with hs' | hs' | ⟨key, hs'⟩ <;> rw [hs'] at hs <;> exact absurd hs id
    · obtain rfl := page r hr
      exact absurd hs (ho.fresh.not_reads rec)
  case clear => exact fun i j hend => h.walled.over hw hend rfl rfl fun _ hq => hq
  case leave =>
    exact fun i j hend => h.walled.over hw hend rfl rfl fun q hq =>
      ⟨(Procs.mem_keep.mp hq.1).1, hq.2⟩
  case move =>
    intro i c loc o k r p' b' hp hi _ hm
    refine h.walled.move hG trivial hi (fun st ho s hs => ?_) hm
    subst ho
    exact hgate i c loc st k hp s hs
  case exit =>
    exact fun pid _ => ⟨h.walled.online, h.walled.edges, h.walled.bridge, h.walled.entry,
      fun q hq => h.walled.live q ⟨(Procs.mem_keep.mp hq.1).1, hq.2⟩, h.walled.page, h.walled.read⟩
  case spawn =>
    intro q hf hq
    refine ⟨h.walled.online, h.walled.edges, h.walled.bridge, h.walled.entry, fun r hr => ?_,
      h.walled.page, h.walled.read⟩
    rcases (Procs.mem_add (h := hf)).mp hr.1 with rfl | hm
    · exact absurd (hq.symm.trans hr.2) nofun
    · exact h.walled.live r ⟨hm, hr.2⟩

end Runs

/-- From a Redis without the prefix, invocations one after another: the gateway's address is
kept from the workloads if and only if no address is asked for while it is free. -/
theorem gateway_kept_iff {m : Machine (Host Y G) Unit} {es : List (Event (Host Y G) Unit)}
    (hY : Y.Lawful) (hG : G.Lawful) (hlow : G.LowestFirst) (hm : m.Idle)
    (hw : World.Unnumbered Y m.world)
    (hc : Machine.Along (fun m e => RedisUp m e ∧ PrefixWhole m e) m es) :
    (Machine.Along Handed m es ∧ Machine.Throughout (fun m => Ungated Y m.world) m es) ↔
      Machine.Along GatewayTaken m es := by
  have h0 : Guarded m := ⟨Watch.holds_of_idle hm, walled_of_unnumbered hw hm⟩
  constructor
  · rintro ⟨hd, _⟩
    refine Machine.along_of_step (J := Guarded) (fun m e h hx => ?_) (fun m e h hx => ?_) h0 (hc.and hd)
    · exact h.step hY hG hx.1.1 hx.1.2 (h.gatewayTaken hG hlow hx.1.1 hx.2)
    · exact h.gatewayTaken hG hlow hx.1.1 hx.2
  · intro ht
    have step : ∀ m e, Guarded m → ((RedisUp m e ∧ PrefixWhole m e) ∧ GatewayTaken m e) →
        Guarded (m.apply e) := fun m e h hx => h.step hY hG hx.1.1 hx.1.2 hx.2
    refine ⟨Machine.along_of_step step (fun m e h hx => h.handed hG hx.1.1 hx.2) h0 (hc.and ht), ?_⟩
    exact (Machine.throughout_of_step step h0 (hc.and ht)).imp fun m h => h.ungated

/-- A test for `GatewayTaken` and `PrefixWhole`. -/
def gatewayTaken (m : Machine (Host Y G) Unit) (e : Event (Host Y G) Unit) : Bool :=
  match e with
  | .act i _ => match m.due i with
    | some (_, .ipam _ .acquireIP) => (World.pool m.world).all fun s => host 1 ∈ s
    | some _ => true
    | none => (m.jobs i).all fun j => ! (Local.ledger j.loc).unreserved
  | _ => true

theorem gatewayTaken_of_test {m : Machine (Host Y G) Unit} {e : Event (Host Y G) Unit}
    (h : gatewayTaken m e = true) : GatewayTaken m e ∧ PrefixWhole m e := by
  constructor
  · intro i c loc st k hp s hs
    have hdue := hp.due
    obtain ⟨rfl, _⟩ := hp
    have hs' : World.pool m.world = some s := hs
    simp only [gatewayTaken, hdue, hs', Option.all_some] at h
    exact of_decide_eq_true h
  · intro i j hend
    have hdue := hend.due
    obtain ⟨c, rfl, hj, _⟩ := hend
    simpa only [gatewayTaken, hdue, hj, Option.all_some, Bool.not_eq_true'] using h

section Sample
open Sample

theorem start_unnumbered : World.Unnumbered yaml (start (ι := Unit)).world :=
  ⟨rfl, fun q hq => absurd hq.2 (start_workloads q hq.1), fun _ _ hk => absurd hk nofun⟩

def firstCreate : List (SampleEvent Unit) := create () web 100 :: steps () 30 101

/-- The first service of a host is given the gateway's address. -/
theorem firstCreate_gated : World.Unnumbered yaml (start (ι := Unit)).world ∧
    (∀ e ∈ firstCreate, Faultless e) ∧
    ¬ (Machine.Along Handed start firstCreate ∧
      Machine.Throughout (fun m => Ungated yaml m.world) start firstCreate) := by
  refine ⟨start_unnumbered, by decide +kernel, fun h => ?_⟩
  have hlive : ∃ q ∈ (start.run firstCreate).world.procs.all, q.role = .workload ∧ q.ip = host 1 := by
    decide +kernel
  obtain ⟨q, hq, hrole, hip⟩ := hlive
  exact h.2.last.live q ⟨hq, hrole⟩ hip

/-- The sample host with a record that an earlier prefix has left behind. -/
def leftover : Machine (Host yaml lowestFree) Unit :=
  ⟨{ World.blank tree ["opt", "ppass"] with
      kv := Function.update (fun _ => none) "service:old"
        (some ⟨yaml.marshalRecord ⟨"999", "", ""⟩, 0⟩) }, fun _ => none⟩

theorem leftover_unnumbered : World.Unnumbered yaml leftover.world := by
  refine ⟨rfl, fun q hq => absurd hq.2 (start_workloads (ι := Unit) q hq.1), fun key e hk => .inl ?_⟩
  by_cases hkey : key = "service:old"
  · subst key
    have he : e = ⟨yaml.marshalRecord ⟨"999", "", ""⟩, 0⟩ := by
      simpa [leftover] using hk.symm
    rw [he, yaml_lawful.decode_marshal]
  · simp [leftover, Function.update_of_ne hkey, World.blank] at hk

/-- The delete of the old record starts Envoy, and a service and a database follow. -/
def envoyFirst : List (SampleEvent Unit) :=
  delete () "service" "old" 90 :: steps () 80 91 ++ create () web 100 :: steps () 30 101 ++
    delete () "service" "web" 110 :: steps () 80 111 ++ create () users 120 :: steps () 60 121

theorem envoyFirst_kept : Machine.Along Handed leftover envoyFirst ∧
    Machine.Throughout (fun m => Ungated yaml m.world) leftover envoyFirst := by
  have htest : Machine.Along (fun m e => gatewayTaken m e = true) leftover envoyFirst := by
    decide +kernel
  refine (gateway_kept_iff yaml_lawful lowestFree_lawful lowestFree_lowestFirst (fun _ => rfl)
    leftover_unnumbered ?_).mpr (htest.imp fun _ _ h => (gatewayTaken_of_test h).1)
  exact ((Machine.along_of_forall (D := Faultless) (by decide +kernel)).and htest).imp
    fun _ _ h => ⟨h.1.redisUp, (gatewayTaken_of_test h.2).2⟩

end Sample
end PrivatePaas
