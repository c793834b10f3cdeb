import PrivatePaas.Registry.Frame
import PrivatePaas.Registry.Sequence

/-!
# What the pool is made up of

With one invocation after another, an allocated address is one of the reserved ones,
one that a record holds and no delete has released, or the one that the create under
way holds. The gateway's address is out of this count between the release of an
address and Envoy's next start.
-/

namespace PrivatePaas
set_option autoImplicit false
open Files Text Effects Network PrivatePaas.Parser

variable {Y : Yaml} {G : GoIpam}

/-- A delete that has read this record under this key. -/
def Stage.About (s : Stage) (key : String) (rec : Cmd.Service) : Prop :=
  s = .reading key rec ∨ s.Pending key rec

/-- No address, or one of those that are not set apart when the prefix is made. -/
def Assignable (a : String) : Prop := a = "" ∨ ∃ n, 1 ≤ n ∧ n ≤ 253 ∧ a = host n

/-- Nothing is owed for Envoy. -/
def Debt.Square (d : Debt) : Prop := d ≠ .unstarted ∧ d ≠ .started

def Held (pg : Option Page) (a : String) : Prop := ∃ s, pg.map Page.stage = some s ∧ s.Holds a

def Dropping (pg : Option Page) (key : String) (rec : Cmd.Service) : Prop :=
  ∃ s, pg.map Page.stage = some s ∧ s.Pending key rec

@[simp] theorem held_some {p : Page} {a : String} : Held (some p) a ↔ p.stage.Holds a := by
  simp [Held]

@[simp] theorem held_none {a : String} : ¬ Held none a := by simp [Held]

@[simp] theorem dropping_some {p : Page} {key : String} {rec : Cmd.Service} :
    Dropping (some p) key rec ↔ p.stage.Pending key rec := by
  simp [Dropping]

@[simp] theorem not_dropping_none {key : String} {rec : Cmd.Service} : ¬ Dropping none key rec := by
  simp [Dropping]

/-- A recorded address that no delete has released, or one that a create holds. -/
def InUse (b : Books) (pg : Option Page) (a : String) : Prop :=
  a ≠ "" ∧ ((∃ k rec au, b.registry k = some (rec, au) ∧ rec.ip = a ∧ ¬ Dropping pg k rec) ∨ Held pg a)

/-- `envoy` says that Envoy has been started. -/
structure Accounts (b : Books) (pg : Option Page) (d : Dues) (envoy : Prop) : Prop where
  online : ∀ p, pg = some p → p.offline = false
  entry : ∀ k rec au, b.registry k = some (rec, au) → Assignable rec.ip
  page : ∀ a, Held pg a → Assignable a
  unknown : ∀ p a, pg = some p → p.stage = .holding false a → a = ""
  about : ∀ p key rec, pg = some p → p.stage.About key rec → ∃ au, b.registry key = some (rec, au)
  link : ∀ p key rec, pg = some p → p.stage = .reading key rec → d.debt = .unreleased rec.ip
  distinct : ∀ k k' rec rec' au au', b.registry k = some (rec, au) → b.registry k' = some (rec', au') →
    rec.ip ≠ "" → rec.ip = rec'.ip → k = k'
  apart : ∀ a k rec au, Held pg a → a ≠ "" → b.registry k = some (rec, au) → rec.ip ≠ a
  payable : d.debt ≠ .void
  started : d.debt = .started → envoy
  made : d.made = true → b.pool ≠ none
  unmade : b.pool = none → (∀ a, ¬ InUse b pg a) ∧ (d.debt.Square → ¬ envoy)
  taken : ∀ s, b.pool = some s → ∀ a, a ≠ host 1 → a ≠ host 254 →
    (a ∈ s ↔ a = host 0 ∨ a = host 255 ∨ InUse b pg a)
  bridge : ∀ s, b.pool = some s → (∀ p, pg = some p → p.unreserved = false) → host 254 ∈ s
  gate : ∀ s, b.pool = some s → (InUse b pg (host 1) → host 1 ∈ s) ∧
    (d.debt.Square → (host 1 ∈ s ↔ envoy ∨ InUse b pg (host 1)))

theorem Assignable.ne_host {a : String} {n : Nat} (h : Assignable a) (hn : n = 0 ∨ 253 < n) :
    a ≠ host n := by
  rcases h with rfl | ⟨k, hlo, hhi, rfl⟩
  · exact fun he => host_ne_empty n he.symm
  · intro he
    have := host_injective he
    omega

theorem Assignable.cleanIP {a : String} (h : Assignable a) : Network.cleanIP a = a := by
  rcases h with rfl | ⟨n, _, _, rfl⟩
  · decide
  · exact cleanIP_host n

section Steps
variable {b b' : Books} {p p' : Page} {d d' : Dues} {e e' : Prop}

theorem inUse_congr {pg pg' : Option Page} (hreg : b'.registry = b.registry)
    (hh : ∀ a, a ≠ "" → (Held pg' a ↔ Held pg a))
    (hp : ∀ k rec, rec.ip ≠ "" → (Dropping pg' k rec ↔ Dropping pg k rec)) (a : String) :
    InUse b' pg' a ↔ InUse b pg a := by
  unfold InUse
  rw [hreg]
  constructor
  · rintro ⟨hne, ⟨k, rec, au, hk, rfl, hd⟩ | ha⟩
    · exact ⟨hne, .inl ⟨k, rec, au, hk, rfl, fun hx => hd ((hp k rec hne).mpr hx)⟩⟩
    · exact ⟨hne, .inr ((hh a hne).mp ha)⟩
  · rintro ⟨hne, ⟨k, rec, au, hk, rfl, hd⟩ | ha⟩
    · exact ⟨hne, .inl ⟨k, rec, au, hk, rfl, fun hx => hd ((hp k rec hne).mp hx)⟩⟩
    · exact ⟨hne, .inr ((hh a hne).mpr ha)⟩

/-- A page with the same claims, before the same pool and the same registry. -/
theorem Accounts.keep {pg pg' : Option Page} (h : Accounts b pg d e) (hpool : b'.pool = b.pool)
    (hreg : b'.registry = b.registry) (hon : ∀ p', pg' = some p' → p'.offline = false)
    (hu : (∀ p', pg' = some p' → p'.unreserved = false) → ∀ p, pg = some p → p.unreserved = false)
    (hh : ∀ a, a ≠ "" → (Held pg' a ↔ Held pg a))
    (hp : ∀ k rec, rec.ip ≠ "" → (Dropping pg' k rec ↔ Dropping pg k rec))
    (hun : ∀ p' a, pg' = some p' → p'.stage = .holding false a → a = "")
    (hab : ∀ p' k rec, pg' = some p' → p'.stage.About k rec → ∃ au, b.registry k = some (rec, au))
    (hl : ∀ p' k rec, pg' = some p' → p'.stage = .reading k rec → d'.debt = .unreleased rec.ip)
    (hv : d'.debt ≠ .void) (hs : d'.debt = .started → e') (hm : d'.made = true → b.pool ≠ none)
    (hsq : d'.debt.Square → d.debt.Square ∧ (e' → e)) (he : e → e') : Accounts b' pg' d' e' := by
  have use : ∀ a, InUse b' pg' a ↔ InUse b pg a := inUse_congr hreg hh hp
  constructor
  · exact hon
  · exact fun k rec au hk => h.entry k rec au (hreg ▸ hk)
  · intro a ha
    by_cases hne : a = ""
    · exact .inl hne
    · exact h.page a ((hh a hne).mp ha)
  · exact hun
  · intro p' k rec hp' hs
    rw [hreg]
    exact hab p' k rec hp' hs
  · exact hl
  · exact fun k k' rec rec' au au' hk hk' => h.distinct k k' rec rec' au au' (hreg ▸ hk) (hreg ▸ hk')
  · exact fun a k rec au ha hne hk => h.apart a k rec au ((hh a hne).mp ha) hne (hreg ▸ hk)
  · exact hv
  · exact hs
  · exact fun hm' => hpool ▸ hm hm'
  · intro hn
    obtain ⟨hno, hsqn⟩ := h.unmade (hpool ▸ hn)
    exact ⟨fun a ha => hno a ((use a).mp ha), fun hd he' => hsqn (hsq hd).1 ((hsq hd).2 he')⟩
  · intro s hs a h1 h254
    rw [use a]
    exact h.taken s (hpool ▸ hs) a h1 h254
  · exact fun s hs hb => h.bridge s (hpool ▸ hs) (hu hb)
  · intro s hs
    rw [use]
    refine ⟨(h.gate s (hpool ▸ hs)).1, fun hd => ?_⟩
    rw [(h.gate s (hpool ▸ hs)).2 (hsq hd).1]
    exact or_congr_left ⟨he, (hsq hd).2⟩

/-- The process table does not matter. -/
theorem Accounts.books {pg : Option Page} (h : Accounts b pg d e) (hpool : b'.pool = b.pool)
    (hreg : b'.registry = b.registry) : Accounts b' pg d e :=
  h.keep hpool hreg h.online (fun hb => hb) (fun _ _ => .rfl) (fun _ _ _ => .rfl) h.unknown h.about h.link
    h.payable h.started h.made (fun hsq => ⟨hsq, id⟩) id

/-- A move to a stage with the same claims, where nothing becomes due. -/
theorem Accounts.stage {s : Stage} {t : Nat} {u : Bool} (h : Accounts b (some p) d e)
    (hpool : b'.pool = b.pool) (hreg : b'.registry = b.registry)
    (hu : u = false → p.unreserved = false)
    (hh : ∀ a, a ≠ "" → (s.Holds a ↔ p.stage.Holds a))
    (hp : ∀ k rec, rec.ip ≠ "" → (s.Pending k rec ↔ p.stage.Pending k rec))
    (hun : ∀ a, s = .holding false a → a = "")
    (hab : ∀ k rec, s.About k rec → ∃ au, b.registry k = some (rec, au))
    (hl : ∀ k rec, s = .reading k rec → d'.debt = .unreleased rec.ip)
    (hd : d'.debt = d.debt ∨ d.debt.Square ∧ d'.debt ≠ .void ∧ d'.debt ≠ .started)
    (hm : d'.made = true → b.pool ≠ none) :
    Accounts b' (some { p with stage := s, target := t, unreserved := u }) d' e := by
  refine h.keep hpool hreg ?_ ?_ ?_ ?_ ?_ ?_ ?_ ?_ ?_ hm ?_ id
  · rintro _ ⟨⟩
    exact h.online p rfl
  · intro hb q hq
    obtain rfl : p = q := Option.some.inj hq
    exact hu (hb { p with stage := s, target := t, unreserved := u } rfl)
  · simpa using hh
  · simpa using hp
  · rintro _ a ⟨⟩
    exact hun a
  · rintro _ k rec ⟨⟩
    exact hab k rec
  · rintro _ k rec ⟨⟩
    exact hl k rec
  · rcases hd with hd | ⟨_, hd, _⟩
    · rw [hd]
      exact h.payable
    · exact hd
  · rcases hd with hd | ⟨_, _, hd⟩
    · rw [hd]
      exact h.started
    · exact fun hs => absurd hs hd
  · intro hsq
    rcases hd with hd | ⟨hd, _⟩
    · rw [hd] at hsq
      exact ⟨hsq, id⟩
    · exact ⟨hd, id⟩

/-- The prefix is made. -/
theorem Accounts.format {u : Bool} (h : Accounts b (some p) d e) (hnone : b.pool = none)
    (hd : d'.debt = d.debt) (hu : u = true) :
    Accounts { b with pool := some {host 0, host 255} } (some { p with unreserved := u }) d' e := by
  subst u
  obtain ⟨hno, hsq⟩ := h.unmade hnone
  have use : ∀ a, ¬ InUse { b with pool := some {host 0, host 255} }
      (some { p with unreserved := true }) a := hno
  have h10 : host 1 ∉ ({host 0, host 255} : Finset String) := by
    simp only [Finset.mem_insert, Finset.mem_singleton]
    rintro (he | he) <;> exact absurd (host_injective he) (by decide)
  refine ⟨?_, h.entry, h.page, ?_, ?_, ?_, h.distinct, h.apart, hd ▸ h.payable, hd ▸ h.started,
    fun _ => nofun, nofun, ?_, ?_, ?_⟩
  · rintro _ ⟨⟩
    exact h.online p rfl
  · rintro _ a ⟨⟩
    exact h.unknown p a rfl
  · rintro _ k rec ⟨⟩
    exact h.about p k rec rfl
  · rintro _ k rec ⟨⟩
    rw [hd]
    exact h.link p k rec rfl
  · rintro _ ⟨⟩ a _ _
    simp only [Finset.mem_insert, Finset.mem_singleton]
    exact ⟨Or.imp_right .inl, Or.imp_right fun hx => hx.resolve_right (use a)⟩
  · rintro _ ⟨⟩ hb
    exact absurd (hb _ rfl) nofun
  · rintro _ ⟨⟩
    refine ⟨fun hx => absurd hx (use _), fun hs => ⟨fun hx => absurd hx h10, ?_⟩⟩
    rintro (he | hx)
    · exact absurd he (hsq (hd ▸ hs))
    · exact absurd hx (use _)

/-- The bridge or Envoy gets its address. -/
theorem Accounts.reserve {s : Finset String} {a : String} {lessee : String → Option Nat}
    (h : Accounts b (some p) d e) (hpool : b.pool = some s)
    (ha : a = if p.unreserved then host 254 else host 1)
    (hd : if a = host 1 then d'.debt = .clear ∧ e else d'.debt = d.debt)
    (hnl : a = host 1 → ∀ k rec, p.stage ≠ .reading k rec) :
    Accounts { b with pool := some (insert a s), lessee := lessee }
      (some { p with unreserved := false }) d' e := by
  have h254 : host 254 ≠ host 1 := fun he => absurd (host_injective he) (by decide)
  have hor : a = host 254 ∧ p.unreserved = true ∨ a = host 1 ∧ p.unreserved = false := by
    cases hu : p.unreserved with
    | true => exact .inl ⟨by rw [ha, hu, if_pos rfl], rfl⟩
    | false => exact .inr ⟨by rw [ha, hu]; rfl, rfl⟩
  have use : ∀ x, InUse { b with pool := some (insert a s), lessee := lessee }
      (some { p with unreserved := false }) x ↔ InUse b (some p) x := fun x => Iff.rfl
  have debt : a ≠ host 1 → d'.debt = d.debt := fun hne => by rwa [if_neg hne] at hd
  have paid : a = host 1 → d'.debt = .clear ∧ e := fun he => by rwa [if_pos he] at hd
  refine ⟨?_, h.entry, h.page, ?_, ?_, ?_, h.distinct, h.apart, ?_, ?_, fun _ => nofun, nofun, ?_, ?_, ?_⟩
  · rintro _ ⟨⟩
    exact h.online p rfl
  · rintro _ a ⟨⟩
    exact h.unknown p a rfl
  · rintro _ k rec ⟨⟩
    exact h.about p k rec rfl
  · rintro _ k rec ⟨⟩ hs
    by_cases he : a = host 1
    · exact absurd hs (hnl he k rec)
    · rw [debt he]
      exact h.link p k rec rfl hs
  · by_cases he : a = host 1
    · rw [(paid he).1]
      exact nofun
    · rw [debt he]
      exact h.payable
  · by_cases he : a = host 1
    · rw [(paid he).1]
      exact nofun
    · rw [debt he]
      exact h.started
  · rintro _ ⟨⟩ x h1 h254'
    rw [use, Finset.mem_insert, h.taken s hpool x h1 h254']
    refine or_iff_right fun he => ?_
    rcases hor with ⟨hx, _⟩ | ⟨hx, _⟩
    · exact h254' (he.trans hx)
    · exact h1 (he.trans hx)
  · rintro _ ⟨⟩ _
    rcases hor with ⟨rfl, _⟩ | ⟨_, hu⟩
    · exact Finset.mem_insert_self _ _
    · refine Finset.mem_insert_of_mem (h.bridge s hpool ?_)
      rintro _ ⟨⟩
      exact hu
  · rintro _ ⟨⟩
    rw [use]
    rcases hor with ⟨rfl, _⟩ | ⟨rfl, _⟩
    · rw [Finset.mem_insert, or_iff_right h254.symm, debt h254]
      exact h.gate s hpool
    · exact ⟨fun _ => Finset.mem_insert_self _ _,
        fun _ => ⟨fun _ => .inl (paid rfl).2, fun _ => Finset.mem_insert_self _ _⟩⟩

/-- The bridge or Envoy has its address already. -/
theorem Accounts.reserved {a : String} (h : Accounts b (some p) d e) (hmade : b.pool ≠ none)
    (ha : a = if p.unreserved then host 254 else host 1) (hin : ∀ s, b.pool = some s → a ∈ s)
    (hd : if a = host 1 then d'.debt = .clear ∧ e else d'.debt = d.debt)
    (hnl : a = host 1 → ∀ k rec, p.stage ≠ .reading k rec) :
    Accounts b (some { p with unreserved := false }) d' e := by
  obtain ⟨s, hpool⟩ := Option.ne_none_iff_exists'.mp hmade
  have : Accounts { b with pool := some (insert a s), lessee := b.lessee }
      (some { p with unreserved := false }) d' e := h.reserve hpool ha hd hnl
  rwa [Finset.insert_eq_self.mpr (hin s hpool), ← hpool] at this

/-- An address in use is allocated. -/
theorem Accounts.allocated (h : Accounts b (some p) d e) {s : Finset String} (hpool : b.pool = some s)
    {a : String} (ha : InUse b (some p) a) (h254 : a ≠ host 254) : a ∈ s := by
  by_cases h1 : a = host 1
  · subst a
    exact (h.gate s hpool).1 ha
  · exact (h.taken s hpool a h1 h254).mpr (.inr (.inr ha))

/-- The create under way gets an address. -/
theorem Accounts.claim {s : Finset String} {a : String} {lessee : String → Option Nat}
    (h : Accounts b (some p) d e) (hpool : b.pool = some s) (hu : p.unreserved = false)
    (hs : p.stage = .holding true "") (ha : a ∈ hosts) (hfree : a ∉ s) (hd : d'.debt = d.debt) :
    Accounts { b with pool := some (insert a s), lessee := lessee }
      (some { p with stage := .holding true a }) d' e := by
  have hb : host 254 ∈ s := h.bridge s hpool fun q hq => by
    obtain rfl : p = q := Option.some.inj hq
    exact hu
  have h254 : a ≠ host 254 := fun he => hfree (he ▸ hb)
  have hne : a ≠ "" := ne_empty_of_mem_hosts ha
  have h0 : a ≠ host 0 := fun he => hfree <| he ▸ (h.taken s hpool (host 0)
    (fun h => absurd (host_injective h) (by decide)) fun h => absurd (host_injective h) (by decide)).mpr
    (.inl rfl)
  have h255 : a ≠ host 255 := fun he => hfree <| he ▸ (h.taken s hpool (host 255)
    (fun h => absurd (host_injective h) (by decide)) fun h => absurd (host_injective h) (by decide)).mpr
    (.inr (.inl rfl))
  have hass : Assignable a := by
    obtain ⟨n, hn, rfl⟩ := mem_hosts.mp ha
    have : n ≠ 0 := fun he => h0 (he ▸ rfl)
    have : n ≠ 254 := fun he => h254 (he ▸ rfl)
    have : n ≠ 255 := fun he => h255 (he ▸ rfl)
    exact .inr ⟨n, by omega, by omega, rfl⟩
  have hno : ¬ InUse b (some p) a := fun hx => hfree (h.allocated hpool hx h254)
  have hstage : ∀ k rec, ¬ p.stage.Pending k rec := by
    intro k rec hx
    rw [hs] at hx
    rcases hx with hx | hx <;> cases hx
  have hold : ∀ x, x ≠ "" → ¬ p.stage.Holds x := by
    intro x hx hh
    rw [hs] at hh
    exact hx hh
  have use : ∀ x, InUse { b with pool := some (insert a s), lessee := lessee }
      (some { p with stage := .holding true a }) x ↔ x = a ∨ InUse b (some p) x := by
    intro x
    simp only [InUse, held_some, dropping_some]
    constructor
    · rintro ⟨hx, ⟨k, rec, au, hk, rfl, _⟩ | rfl⟩
      · exact .inr ⟨hx, .inl ⟨k, rec, au, hk, rfl, hstage k rec⟩⟩
      · exact .inl rfl
    · rintro (rfl | ⟨hx, ⟨k, rec, au, hk, rfl, _⟩ | hh⟩)
      · exact ⟨hne, .inr rfl⟩
      · exact ⟨hx, .inl ⟨k, rec, au, hk, rfl, by rintro (he | he) <;> cases he⟩⟩
      · exact absurd hh (hold x hx)
  refine ⟨?_, h.entry, ?_, ?_, ?_, ?_, h.distinct, ?_, hd ▸ h.payable, hd ▸ h.started, fun _ => nofun,
    nofun, ?_, ?_, ?_⟩
  · rintro _ ⟨⟩
    exact h.online p rfl
  · intro x hx
    rw [held_some] at hx
    obtain rfl : x = a := hx
    exact hass
  · rintro _ x ⟨⟩
    exact nofun
  · rintro _ k rec ⟨⟩ (hx | hx | hx) <;> cases hx
  · rintro _ k rec ⟨⟩
    exact nofun
  · intro x k rec au hx _ hk he
    rw [held_some] at hx
    obtain rfl : x = a := hx
    exact hno ⟨hne, .inl ⟨k, rec, au, hk, he, by simpa using hstage k rec⟩⟩
  · rintro _ ⟨⟩ x h1 hx
    rw [use, Finset.mem_insert, h.taken s hpool x h1 hx]
    tauto
  · rintro _ ⟨⟩ _
    exact Finset.mem_insert_of_mem hb
  · rintro _ ⟨⟩
    rw [use, Finset.mem_insert]
    obtain ⟨hin, hiff⟩ := h.gate s hpool
    refine ⟨Or.imp_right hin, fun hsq => ?_⟩
    rw [hd] at hsq
    rw [hiff hsq]
    tauto

/-- A delete hands back the address that it has read. -/
theorem Accounts.release {key : String} {rec : Cmd.Service} {s : Finset String} {freed : Finset Nat}
    (h : Accounts b (some p) d e) (hpool : b.pool = some s) (hs : p.stage = .reading key rec)
    (hip : rec.ip ≠ "") (hd : d'.debt = .unstarted) :
    Accounts { b with pool := some (s.erase rec.ip), freed := freed }
      (some { p with stage := .released key rec }) d' e := by
  obtain ⟨au, hk⟩ := h.about p key rec rfl (.inl hs)
  have hass := h.entry key rec au hk
  have use : ∀ x, InUse { b with pool := some (s.erase rec.ip), freed := freed }
      (some { p with stage := .released key rec }) x ↔ x ≠ rec.ip ∧ InUse b (some p) x := by
    intro x
    simp only [InUse, held_some, dropping_some]
    constructor
    · rintro ⟨hx, ⟨k, rec', au', hk', rfl, hn⟩ | hh⟩
      · refine ⟨fun he => ?_, hx, .inl ⟨k, rec', au', hk', rfl, ?_⟩⟩
        · obtain rfl := h.distinct k key rec' rec au' au hk' hk hx he
          obtain ⟨rfl, _⟩ := Prod.mk.inj (Option.some.inj (hk'.symm.trans hk))
          exact hn (.inl rfl)
        · rw [hs]
          rintro (he | he) <;> cases he
      · exact absurd hh id
    · rintro ⟨hne, hx, ⟨k, rec', au', hk', rfl, _⟩ | hh⟩
      · refine ⟨hx, .inl ⟨k, rec', au', hk', rfl, ?_⟩⟩
        rintro (he | he)
        · injection he with _ he
          exact hne (by rw [he])
        · cases he
      · rw [hs] at hh
        exact absurd hh id
  refine ⟨?_, h.entry, ?_, ?_, ?_, ?_, h.distinct, ?_, ?_, ?_, fun _ => nofun, nofun, ?_, ?_, ?_⟩
  · rintro _ ⟨⟩
    exact h.online p rfl
  · intro x hx
    rw [held_some] at hx
    exact absurd hx id
  · rintro _ x ⟨⟩
    exact nofun
  · rintro _ k rec' ⟨⟩ (hx | hx | hx)
    · cases hx
    · injection hx with h1 h2
      subst h1 h2
      exact ⟨au, hk⟩
    · cases hx
  · rintro _ k rec' ⟨⟩
    exact nofun
  · intro x k rec' au' hx
    rw [held_some] at hx
    exact absurd hx id
  · rw [hd]
    exact nofun
  · rw [hd]
    exact nofun
  · rintro _ ⟨⟩ x h1 h254
    rw [use, Finset.mem_erase, h.taken s hpool x h1 h254]
    have h0 := hass.ne_host (n := 0) (by omega)
    have h255 := hass.ne_host (n := 255) (by omega)
    constructor
    · tauto
    · rintro (rfl | rfl | hx)
      · exact ⟨h0.symm, .inl rfl⟩
      · exact ⟨h255.symm, .inr (.inl rfl)⟩
      · exact ⟨hx.1, .inr (.inr hx.2)⟩
  · rintro _ ⟨⟩ hb
    refine Finset.mem_erase.mpr ⟨(hass.ne_host (by omega)).symm, h.bridge s hpool ?_⟩
    intro q hq
    obtain rfl : p = q := Option.some.inj hq
    exact hb { p with stage := .released key rec } rfl
  · rintro _ ⟨⟩
    rw [use, Finset.mem_erase]
    refine ⟨fun hx => ⟨hx.1, (h.gate s hpool).1 hx.2⟩, fun hsq => ?_⟩
    rw [hd] at hsq
    exact absurd rfl hsq.1

/-- A create stores its record where none with an address is lost. -/
theorem Accounts.set {key : String} {rec : Cmd.Service} {au : Nat} (h : Accounts b (some p) d e)
    (hs : p.stage.Holds rec.ip) (hd : d' = d)
    (hold : ∀ rec' au', b.registry key = some (rec', au') → rec'.ip = "" ∨ rec'.ip = host 1 ∧ e) :
    Accounts { b with registry := Function.update b.registry key (some (rec, au)) }
      (some { p with stage := .done }) d' e := by
  subst d'
  have hunique : ∀ x, p.stage.Holds x → x = rec.ip := by
    intro x hx
    cases hst : p.stage <;> rw [hst] at hs hx
    case holding => exact Eq.trans hx (Eq.symm hs)
    case running => exact Eq.trans hx (Eq.symm hs)
    all_goals exact absurd hs id
  have hstage : ∀ k rec, ¬ p.stage.Pending k rec := by
    rintro k rec' (hx | hx) <;> rw [hx] at hs <;> exact hs
  have hass : Assignable rec.ip := h.page rec.ip (held_some.mpr hs)
  have entry : ∀ {k r x}, Function.update b.registry key (some (rec, au)) k = some (r, x) →
      (k = key ∧ r = rec) ∨ (k ≠ key ∧ b.registry k = some (r, x)) := by
    intro k r x hkr
    by_cases hkey : k = key
    · subst k
      simp only [Function.update_self, Option.some.injEq, Prod.mk.injEq] at hkr
      exact .inl ⟨rfl, hkr.1.symm⟩
    · exact .inr ⟨hkey, by rwa [Function.update_of_ne hkey] at hkr⟩
  have use : ∀ x, InUse { b with registry := Function.update b.registry key (some (rec, au)) }
      (some { p with stage := .done }) x → InUse b (some p) x := by
    simp only [InUse, held_some, dropping_some]
    rintro x ⟨hx, ⟨k, rec', au', hk, rfl, _⟩ | hh⟩
    · rcases entry hk with ⟨_, rfl⟩ | ⟨_, hk⟩
      · exact ⟨hx, .inr hs⟩
      · exact ⟨hx, .inl ⟨k, rec', au', hk, rfl, hstage k rec'⟩⟩
    · exact absurd hh id
  have use' : ∀ x, InUse b (some p) x → x = host 1 ∧ e ∨
      InUse { b with registry := Function.update b.registry key (some (rec, au)) }
        (some { p with stage := .done }) x := by
    simp only [InUse, held_some, dropping_some]
    rintro x ⟨hx, ⟨k, rec', au', hk, rfl, _⟩ | hh⟩
    · by_cases hkey : k = key
      · subst k
        exact .inl ((hold rec' au' hk).resolve_left hx)
      · exact .inr ⟨hx, .inl ⟨k, rec', au', by rwa [Function.update_of_ne hkey], rfl,
          by rintro (he | he) <;> cases he⟩⟩
    · exact .inr ⟨hx, .inl ⟨key, rec, au, Function.update_self .., (hunique x hh).symm,
          by rintro (he | he) <;> cases he⟩⟩
  refine ⟨?_, ?_, ?_, ?_, ?_, ?_, ?_, ?_, h.payable, h.started, h.made, ?_, ?_, ?_, ?_⟩
  · rintro _ ⟨⟩
    exact h.online p rfl
  · intro k rec' au' hk
    rcases entry hk with ⟨_, rfl⟩ | ⟨_, hk⟩
    · exact hass
    · exact h.entry k rec' au' hk
  · intro x hx
    rw [held_some] at hx
    exact absurd hx id
  · rintro _ x ⟨⟩
    exact nofun
  · rintro _ k rec' ⟨⟩ (hx | hx | hx) <;> cases hx
  · rintro _ k rec' ⟨⟩
    exact nofun
  · intro k k' r r' x x' hk hk' hne heq
    rcases entry hk with ⟨rfl, rfl⟩ | ⟨_, h1⟩ <;> rcases entry hk' with ⟨rfl, rfl⟩ | ⟨_, h2⟩
    · rfl
    · exact absurd heq.symm (h.apart r.ip k' r' x' (held_some.mpr hs) hne h2)
    · exact absurd heq (h.apart r'.ip k r x (held_some.mpr hs) (heq ▸ hne) h1)
    · exact h.distinct k k' r r' x x' h1 h2 hne heq
  · intro x k rec' au' hx
    rw [held_some] at hx
    exact absurd hx id
  · intro hn
    exact ⟨fun x hx => (h.unmade hn).1 x (use x hx), (h.unmade hn).2⟩
  · intro s hpool x h1 h254
    rw [h.taken s hpool x h1 h254]
    refine or_congr_right (or_congr_right ⟨fun hx => ?_, use x⟩)
    exact (use' x hx).resolve_left fun he => h1 he.1
  · intro s hpool hb
    refine h.bridge s hpool fun q hq => ?_
    obtain rfl : p = q := Option.some.inj hq
    exact hb { p with stage := .done } rfl
  · intro s hpool
    obtain ⟨hin, hiff⟩ := h.gate s hpool
    refine ⟨fun hx => hin (use _ hx), fun hsq => ?_⟩
    rw [hiff hsq]
    constructor
    · rintro (he | hx)
      · exact .inl he
      · exact (use' _ hx).imp_left And.right
    · exact Or.imp_right (use _)

/-- A delete drops the record that it has read. -/
theorem Accounts.del {key : String} {rec : Cmd.Service} (h : Accounts b (some p) d e)
    (hs : p.stage = .killed key rec) (hd : d' = d) :
    Accounts { b with registry := Function.update b.registry key none }
      (some { p with stage := .done }) d' e := by
  subst d'
  obtain ⟨au, hk⟩ := h.about p key rec rfl (.inr (.inr hs))
  have entry : ∀ {k r x}, Function.update b.registry key none k = some (r, x) →
      k ≠ key ∧ b.registry k = some (r, x) := by
    intro k r x hkr
    by_cases hkey : k = key
    · subst k
      simp at hkr
    · exact ⟨hkey, by rwa [Function.update_of_ne hkey] at hkr⟩
  have use : ∀ x, InUse { b with registry := Function.update b.registry key none }
      (some { p with stage := .done }) x ↔ InUse b (some p) x := by
    intro x
    simp only [InUse, held_some, dropping_some]
    constructor
    · rintro ⟨hx, ⟨k, rec', au', hk', rfl, _⟩ | hh⟩
      · obtain ⟨hkey, hk'⟩ := entry hk'
        refine ⟨hx, .inl ⟨k, rec', au', hk', rfl, ?_⟩⟩
        rw [hs]
        rintro (he | he)
        · cases he
        · injection he with he
          exact hkey he.symm
      · exact absurd hh id
    · rintro ⟨hx, ⟨k, rec', au', hk', rfl, hn⟩ | hh⟩
      · have hkey : k ≠ key := by
          rintro rfl
          obtain ⟨rfl, _⟩ := Prod.mk.inj (Option.some.inj (hk'.symm.trans hk))
          exact hn (.inr hs)
        exact ⟨hx, .inl ⟨k, rec', au', by rwa [Function.update_of_ne hkey], rfl,
          by rintro (he | he) <;> cases he⟩⟩
      · rw [hs] at hh
        exact absurd hh id
  refine ⟨?_, ?_, ?_, ?_, ?_, ?_, ?_, ?_, h.payable, h.started, h.made, ?_, ?_, ?_, ?_⟩
  · rintro _ ⟨⟩
    exact h.online p rfl
  · exact fun k rec' au' hk' => h.entry k rec' au' (entry hk').2
  · intro x hx
    rw [held_some] at hx
    exact absurd hx id
  · rintro _ x ⟨⟩
    exact nofun
  · rintro _ k rec' ⟨⟩ (hx | hx | hx) <;> cases hx
  · rintro _ k rec' ⟨⟩
    exact nofun
  · exact fun k k' r r' x x' hk hk' => h.distinct k k' r r' x x' (entry hk).2 (entry hk').2
  · intro x k rec' au' hx
    rw [held_some] at hx
    exact absurd hx id
  · exact fun hn => ⟨fun x hx => (h.unmade hn).1 x ((use x).mp hx), (h.unmade hn).2⟩
  · intro s hpool x h1 h254
    rw [use]
    exact h.taken s hpool x h1 h254
  · intro s hpool hb
    refine h.bridge s hpool fun q hq => ?_
    obtain rfl : p = q := Option.some.inj hq
    exact hb { p with stage := .done } rfl
  · intro s hpool
    rw [use]
    exact h.gate s hpool

theorem Accounts.same {u : Bool} (h : Accounts b (some p) d e) (hpool : b'.pool = b.pool)
    (hreg : b'.registry = b.registry) (hu : u = false → p.unreserved = false)
    (hd : d'.debt = d.debt) (hm : d'.made = true → b.pool ≠ none) :
    Accounts b' (some { p with unreserved := u }) d' e := by
  refine h.stage (s := p.stage) (t := p.target) hpool hreg hu (fun _ _ => .rfl) (fun _ _ _ => .rfl) ?_
    (fun k rec hs => h.about p k rec rfl hs) ?_ (.inl hd) hm
  · exact fun a hs => h.unknown p a rfl hs
  · intro k rec hs
    rw [hd]
    exact h.link p k rec rfl hs

/-- The start of Envoy. -/
def Op.StartsEnvoy : (o : Op) → o.Ret → Prop
  | .proc (.start c), r => c.isWorkload = false ∧ r ≠ none
  | _, _ => False

theorem Debt.next_of_ne {d : Debt} (h : d ≠ .void) (o : Op) (r : o.Ret) : d.next Y o r = d.step Y o r :=
  if_neg h

/-- An operation that leaves no trace in the books changes no debt either. -/
theorem Op.Silent.owes {o : Op} {r : o.Ret} (h : o.Silent) (hr : o.Truthful b r)
    (hpay : d.debt.step Y o r ≠ .void) :
    d.debt.step Y o r = d.debt ∧ (Dues.madeAfter d.made o r = true → d.made = true ∨ b.pool ≠ none) ∧
      ¬ o.StartsEnvoy r := by
  cases o with
  | kv o => exact absurd h id
  | ipam st o =>
    cases o with
    | prefixFrom =>
      refine ⟨rfl, fun hm => ?_, id⟩
      rcases Bool.or_eq_true_iff.mp hm with hm | hm
      · exact .inl hm
      · exact .inr (hr hm)
    | _ => exact absurd h id
  | proc o =>
    cases o with
    | start c =>
      obtain rfl : r = none := hr
      refine ⟨?_, .inl, fun hx => hx.2 rfl⟩
      by_cases hc : c.isWorkload = true
      · exact if_pos hc
      · exact absurd ((if_neg hc).trans (if_pos rfl)) hpay
    | kill n sg =>
      cases sg with
      | sigkill => exact absurd h id
      | sigterm => exact ⟨rfl, .inl, id⟩
    | _ => exact ⟨rfl, .inl, id⟩
  | _ => exact ⟨rfl, .inl, id⟩

/-- Envoy asks for its address when it has been started. -/
theorem Accounts.gateway {a : String} {r : Option String} (h : Accounts b (some p) d e)
    (hok : d.debt.ok (.ipam .redis (.acquireSpecificIP a)))
    (hd : d'.debt = d.debt.step Y (.ipam .redis (.acquireSpecificIP a)) r) :
    (if a = host 1 then d'.debt = .clear ∧ e else d'.debt = d.debt) ∧
      (a = host 1 → ∀ k rec, p.stage ≠ .reading k rec) := by
  have owed : a = host 1 → d.debt = .started := fun ha => (hok ha).resolve_right h.payable
  constructor
  · split
    · rename_i ha
      exact ⟨hd.trans (if_pos ha), h.started (owed ha)⟩
    · rename_i ha
      exact hd.trans (if_neg ha)
  · intro ha k rec hs
    rw [h.link p k rec rfl hs] at owed
    cases owed ha

/-- A delete kills when it has nothing to release any more. -/
theorem Accounts.kill {key : String} {rec : Cmd.Service} {procs : Procs} {n : Int} {r : Option Errno}
    (h : Accounts b (some p) d e) (hs : p.stage = .reading key rec ∨ p.stage = .released key rec)
    (hok : d.debt.Released) (hd : d'.debt = d.debt.step Y (.proc (.kill n .sigkill)) r)
    (hm : d'.made = d.made) :
    Accounts { b with procs := procs } (some { p with stage := .killed key rec }) d' e := by
  have hblank : p.stage = .reading key rec → rec.ip = "" := by
    intro hst
    obtain ⟨au, hk⟩ := h.about p key rec rfl (.inl hst)
    rw [← (h.entry key rec au hk).cleanIP]
    exact hok rec.ip (h.link p key rec rfl hst)
  refine h.stage (t := p.target) rfl rfl id (fun a _ => ⟨False.elim, fun hx => ?_⟩)
    (fun k rec' hne => ⟨fun hx => ?_, fun hx => ?_⟩) nofun (fun k rec' hx => ?_) nofun ?_ (hm ▸ h.made)
  · rcases hs with hs | hs <;> rw [hs] at hx <;> exact absurd hx id
  · rcases hx with hx | hx
    · cases hx
    · injection hx with h1 h2
      subst h1 h2
      exact .inl (hs.resolve_left fun hst => hne (hblank hst))
  · rcases hs with hs | hs <;> rw [hs] at hx <;> rcases hx with hx | hx <;> cases hx
    exact .inr rfl
  · refine h.about p k rec' rfl ?_
    rcases hx with hx | hx | hx <;> cases hx
    exact hs.imp_right .inl
  · rw [hd]
    cases hdebt : d.debt with
    | unreleased ip => exact .inr ⟨⟨nofun, nofun⟩, nofun, nofun⟩
    | _ => exact .inl rfl

/-- What one operation does to the accounts. -/
theorem Accounts.move {o : Op} {r : o.Ret} {hit : Prop} (hG : G.Lawful) (h : Accounts b (some p) d e)
    (hm : Move G True hit p b o r p' b') (hok : (dues Y).ok d o)
    (hst : p'.stage = p.stage.next Y o r) (hpay : d.debt.next Y o r ≠ .void)
    (hknown : ∀ st, o = .ipam st .acquireIP → p.stage = .holding false "" →
      ∀ s, b.pool = some s → G.acquireIP s = none)
    (hover : ∀ key text, o = .kv (.set key text) → ∀ rec au, b.registry key = some (rec, au) →
      rec.ip = "" ∨ rec.ip = host 1 ∧ e)
    (he : e' ↔ e ∨ o.StartsEnvoy r) : Accounts b' (some p') ((dues Y).next d o r) e' := by
  have hdebt : ((dues Y).next d o r).debt = d.debt.step Y o r := Debt.next_of_ne h.payable o r
  rw [Debt.next_of_ne h.payable] at hpay
  have quit : ¬ o.StartsEnvoy r → e' = e := fun hn => propext (he.trans (or_iff_left hn))
  -- a create or a delete that has come to its end
  have done : ∀ {t : Nat}, (∀ a, a ≠ "" → ¬ p.stage.Holds a) →
      (∀ k rec, rec.ip ≠ "" → ¬ p.stage.Pending k rec) → ((dues Y).next d o r).debt = d.debt →
      (((dues Y).next d o r).made = true → b.pool ≠ none) →
      Accounts b (some { p with stage := .done, target := t }) ((dues Y).next d o r) e := by
    intro t hh hp hd hm
    refine h.stage rfl rfl id (fun a ha => ⟨False.elim, fun hx => absurd hx (hh a ha)⟩)
      (fun k rec hr => ⟨fun hx => ?_, fun hx => absurd hx (hp k rec hr)⟩) nofun (fun k rec hx => ?_) nofun
      (.inl hd) hm
    · rcases hx with hx | hx <;> cases hx
    · rcases hx with hx | hx | hx <;> cases hx
  cases hm with
  | silent o hs hr =>
    obtain ⟨hd, hmade, hn⟩ := hs.owes hr hpay
    rw [quit hn]
    exact h.same rfl rfl id (hdebt.trans hd) fun hm => (hmade hm).elim h.made id
  | outset path s hs hs' =>
    rw [quit id]
    have hh : ∀ a, a ≠ "" → ¬ p.stage.Holds a := fun a _ hx => by rw [hs] at hx; exact hx
    have hp : ∀ k rec, ¬ p.stage.Pending k rec := by
      rintro k rec (hx | hx) <;> rw [hs] at hx <;> cases hx
    rcases hs' with rfl | ⟨known, rfl⟩
    · exact done hh (fun k rec _ => hp k rec) hdebt h.made
    · refine h.stage (t := p.target) rfl rfl id
        (fun a ha => ⟨fun hx => absurd hx ha, fun hx => absurd hx (hh a ha)⟩)
        (fun k rec _ => ⟨fun hx => ?_, fun hx => absurd hx (hp k rec)⟩) (fun a ha => ?_) (fun k rec hx => ?_)
        nofun (.inl hdebt) h.made
      · rcases hx with hx | hx <;> cases hx
      · injection ha with _ ha
        exact ha.symm
      · rcases hx with hx | hx | hx <;> cases hx
  | offline o hdown => exact absurd trivial hdown
  | stray st o s u pool lessee freed hoff =>
    rw [h.online p rfl] at hoff
    cases hoff trivial
  | format hnone =>
    rw [quit id]
    refine h.format hnone (hdebt.trans ?_) rfl
    exact if_neg fun hr => hpay (if_pos hr)
  | found s u hpool hu =>
    rw [quit id]
    refine h.same rfl rfl (fun hf => ?_) (hdebt.trans ?_) fun _ => by rw [hpool]; exact nofun
    · rcases hu with hu | hu
      · rw [hf] at hu
        cases hu
      · rw [← hu, hf]
    · exact if_neg fun hr => hpay (if_pos hr)
  | reserve s a hpool ha hr =>
    rw [quit id]
    obtain ⟨hd, hnl⟩ := h.gateway hok.1 hdebt
    exact h.reserve hpool hr hd hnl
  | reserved a hin hr =>
    rw [quit id]
    obtain ⟨hd, hnl⟩ := h.gateway hok.1 hdebt
    exact h.reserved (h.made hok.2) hr hin hd hnl
  | claim known s a hs hu hpool ha =>
    rw [quit id]
    cases known with
    | false =>
      rw [hknown .redis rfl hs s hpool] at ha
      cases ha
    | true => exact h.claim hpool hu hs (hG.host s a ha) (hG.free s a ha) hdebt
  | exhausted =>
    rw [quit id]
    exact h.same rfl rfl id hdebt h.made
  | release key rec s a hs hip hu ha hpool hmem =>
    rw [quit id]
    obtain ⟨au, hk⟩ := h.about p key rec rfl (.inl hs)
    rw [(h.entry key rec au hk).cleanIP] at ha
    subst a
    exact h.release hpool hs hip hdebt
  | refuse key rec a hs hip ha hno =>
    obtain ⟨au, hk⟩ := h.about p key rec rfl (.inl hs)
    have hass := h.entry key rec au hk
    rw [hass.cleanIP] at ha
    subst a
    obtain ⟨s, hpool⟩ := Option.ne_none_iff_exists'.mp (h.made hok.2)
    refine absurd (h.allocated hpool ⟨hip, .inl ⟨key, rec, au, hk, rfl, ?_⟩⟩ (hass.ne_host (by omega)))
      (hno s hpool)
    rw [dropping_some, hs]
    rintro (hx | hx) <;> cases hx
  | start cmd known ip pid hc hs =>
    rw [quit fun hx => absurd (hc.symm.trans hx.1) nofun]
    refine h.stage (s := .running ip pid) (t := p.target) rfl rfl id (fun a _ => by rw [hs]; rfl)
      (fun k rec _ => ⟨fun hx => ?_, fun hx => ?_⟩) nofun (fun k rec hx => ?_) nofun
      (.inl (hdebt.trans (if_pos hc))) h.made
    · rcases hx with hx | hx <;> cases hx
    · rw [hs] at hx
      rcases hx with hx | hx <;> cases hx
    · rcases hx with hx | hx | hx <;> cases hx
  | startEnvoy cmd q hc hq hf =>
    have hd : ((dues Y).next d (.proc (.start cmd)) (some q.pid)).debt = .started :=
      hdebt.trans ((if_neg (by rw [hc]; exact nofun)).trans (if_neg nofun))
    refine h.keep rfl rfl h.online (fun hb => hb) (fun _ _ => .rfl) (fun _ _ _ => .rfl) h.unknown h.about
      (fun q k rec hq hs => absurd (h.link q k rec hq hs) (hok.1 hc rec.ip)) ?_
      (fun _ => he.mpr (.inr ⟨hc, nofun⟩)) h.made (fun hsq => absurd hd hsq.2) fun hx => he.mpr (.inl hx)
    rw [hd]
    exact nofun
  | kill key rec hs =>
    rw [quit id]
    exact h.kill hs hok.1 hdebt rfl
  | killFails key rec hs =>
    rw [quit id]
    exact h.kill hs hok.1 hdebt rfl
  | term n =>
    rw [quit id]
    exact h.same rfl rfl id hdebt h.made
  | set key text rec hs =>
    rw [quit id]
    refine h.set ?_ ?_ (hover key text rfl)
    · rcases hs with ⟨known, hs⟩ | ⟨pid, hs, _⟩ <;> rw [hs] <;> rfl
    · exact congrArg (Dues.mk · d.made) hdebt
  | setFails key text rec hs hdown => exact absurd trivial hdown
  | @get key rec author r hs hk =>
    rw [quit id]
    have hclear : d.debt = .clear := hok.1.resolve_right h.payable
    change Stage.reading key rec = p.stage.afterGet Y r at hst
    rw [hs] at hst
    cases r with
    | none => cases hst
    | some text =>
      obtain ⟨_, rfl⟩ := Stage.reading.inj hst
      refine h.stage rfl rfl id (fun a _ => ⟨False.elim, fun hx => ?_⟩)
        (fun k rec _ => ⟨fun hx => ?_, fun hx => ?_⟩) nofun (fun k rec hx => ?_) (fun k rec hx => ?_)
        (.inr ⟨by rw [hclear]; exact ⟨nofun, nofun⟩, by rw [hdebt]; exact ⟨nofun, nofun⟩⟩) h.made
      · rw [hs] at hx
        exact absurd hx id
      · rcases hx with hx | hx <;> cases hx
      · rw [hs] at hx
        rcases hx with hx | hx <;> cases hx
      · rcases hx with hx | hx | hx <;> cases hx
        exact ⟨author, hk⟩
      · cases hx
        exact hdebt
  | @miss key t r hs =>
    rw [quit id]
    refine done (fun a _ hx => by rw [hs] at hx; exact hx) ?_ ?_ h.made
    · rintro k rec _ (hx | hx) <;> rw [hs] at hx <;> cases hx
    · change Stage.done = p.stage.afterGet Y r at hst
      rw [hs] at hst
      cases r with
      | none => exact hdebt
      | some text => cases hst
  | del key rec hs =>
    rw [quit id]
    exact h.del hs (congrArg (Dues.mk · d.made) hdebt)
  | delFails key rec hs hdown => exact absurd trivial hdown

end Steps
end PrivatePaas
