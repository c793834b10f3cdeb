import PrivatePaas.Host.Connect
import PrivatePaas.Results.Sample

/-!
# One workload connected after the other

A call deletes what bears its own two names, and these are nine bytes of a prefix and
three digits of a pid. A process that has been connected stays so exactly as long as no
later call comes to the same two.
-/

namespace PrivatePaas
set_option autoImplicit false
open Text Effects Network Prog

/-- A call of `ConnectProcessToBridge`: for a workload of this name, or for Envoy. -/
structure Call where
  caller : Local
  pid : Nat
  ip : String
  name : String

namespace Call
variable (Y : Yaml) (G : GoIpam)

def vethNamePrefix (x : Call) : IfName := bytes ("v-" ++ x.name)

def veth (x : Call) : IfName × IfName := vethNames x.vethNamePrefix x.pid

def run (c : Nat → (Host Y G).Choice) (w : World) (x : Call) : World :=
  ((Host Y G).exec c x.caller w (connectProcessToBridge x.pid x.ip x.vethNamePrefix)).world

/-- One call after the other. -/
def runAll (cs : Nat → Nat → (Host Y G).Choice) (w : World) : List Call → World
  | [] => w
  | x :: xs => runAll (fun n => cs (n + 1)) (x.run Y G (cs 0) w) xs

/-- The process waits in a namespace of its own, and its caller is there. -/
structure Waiting (x : Call) (w : World) : Prop where
  place : Net.place w.procs x.pid = some x.pid
  pid_ne : x.pid ≠ 0
  alive : (Host Y G).alive x.caller w = true
  fresh : ∀ l ∈ w.net.links, l.ns = x.pid → l.name = bytes "lo"

end Call

/-- There is a bridge, and the links are as the kernel keeps them. -/
structure Bridged (w : World) : Prop where
  sound : w.net.Sound
  bridge : ∃ l ∈ w.net.links, l.ns = 0 ∧ l.name = br0 ∧ l.pair = 0

namespace Call
variable {Y : Yaml} {G : GoIpam} {x y : Call} {w : World} {c : Nat → (Host Y G).Choice}

theorem runAll_singleton (cs : Nat → Nat → (Host Y G).Choice) (w : World) (x : Call) :
    runAll Y G cs w [x] = x.run Y G (cs 0) w := rfl

theorem runAll_append (cs : Nat → Nat → (Host Y G).Choice) (w : World) (xs ys : List Call) :
    runAll Y G cs w (xs ++ ys) = runAll Y G (fun n => cs (n + xs.length)) (runAll Y G cs w xs) ys := by
  induction xs generalizing cs w with
  | nil => rfl
  | cons x xs ih =>
    simp only [List.cons_append, runAll, ih, List.length_cons]
    congr 1

/-- What every link operation of the call preserves is preserved by the call. -/
theorem run_keeps {I : Net → Prop}
    (step : ∀ n o, NetOp.Of x.pid x.veth.1 x.veth.2 o → I n → I (Net.perform w.procs n o).2)
    (h : I w.net) : I (x.run Y G c w).net ∧ (x.run Y G c w).procs = w.procs := by
  have hwp : (Host Y G).wp (fun _ => True)
      (fun _ _ v => I (World.net v) ∧ World.procs v = w.procs) x.caller w
      (connectProcessToBridge x.pid x.ip x.vethNamePrefix) := by
    have h0 : I (World.net w) ∧ World.procs w = w.procs := ⟨h, rfl⟩
    refine System.wp_of_only (Y := Host Y G) (l := x.caller) (w := w)
      (I := fun _ v => I (World.net v) ∧ World.procs v = w.procs) ?_
      (connects_connectProcess x.pid x.ip x.vethNamePrefix) h0
    intro c l v o _ ho ⟨hI, hprocs⟩ _
    cases o with
    | net o =>
      rcases @perform_net Y G c l v o with hv | hv
      · change I (perform Y G c l v (.net o)).2.2.net ∧ (perform Y G c l v (.net o)).2.2.procs = w.procs
        rw [hv]
        exact ⟨hI, hprocs⟩
      · change I (perform Y G c l v (.net o)).2.2.net ∧ (perform Y G c l v (.net o)).2.2.procs = w.procs
        rw [hv]
        refine ⟨?_, hprocs⟩
        change I (Net.perform v.procs v.net o).2
        rw [show v.procs = w.procs from hprocs]
        exact step _ o ho hI
    | _ => exact absurd ho id
  exact (System.wp_iff_exec ({} : Choice) trivial).mp hwp c fun _ => trivial

theorem veth_ne (x y : Call) : x.veth.1 ≠ y.veth.2 := vethNames_ne _ _ _ _

theorem alive_run (hy : (Host Y G).alive y.caller w = true) :
    (Host Y G).alive y.caller (x.run Y G c w) = true := by
  have hprocs := (run_keeps (Y := Y) (G := G) (x := x) (w := w) (c := c) (I := fun _ => True)
    (fun _ _ _ _ => trivial) trivial).2
  change decide (∃ p ∈ (x.run Y G c w).procs.all, _) = true
  rw [hprocs]
  exact hy

theorem bridged_run (h : Bridged w) (hx : x.Waiting Y G w) : Bridged (x.run Y G c w) := by
  refine ⟨(run_keeps (I := Net.Sound) (fun n o _ hn => hn.perform o) h.sound).1, ?_⟩
  obtain ⟨l, hl, hns, hnm, hp⟩ := h.bridge
  obtain ⟨ha, hb, _⟩ := vethNames_ne_fixed x.name x.pid
  have hclear : Net.Clear x.pid x.veth.1 x.veth.2 w.net l := by
    refine ⟨hl, ?_, ?_, ?_, ?_⟩
    · rw [hns]
      exact hx.pid_ne.symm
    · intro _
      rw [hnm]
      exact ⟨ha.symm, hb.symm⟩
    · intro k _ _ _ hk
      rw [hp]
      exact hk
    · rw [hp]
      exact Nat.zero_le _
  exact ⟨l, (run_keeps
    (I := fun n => Net.Clear x.pid x.veth.1 x.veth.2 n l)
    (fun n o ho hn => hn.perform hx.place hx.pid_ne ho) hclear).1.mem, hns, hnm, hp⟩

/-- Another process that waits still waits after the call. -/
theorem waiting_run (hx : x.Waiting Y G w) (hy : y.Waiting Y G w) (hne : x.pid ≠ y.pid) :
    y.Waiting Y G (x.run Y G c w) := by
  have hkeep := run_keeps (Y := Y) (G := G) (c := c) (x := x) (w := w)
    (I := fun n => ∀ l ∈ n.links, l.ns = y.pid → l.name = bytes "lo")
    (fun n o ho hn l hl hlns => hn l (Net.mem_of_mem_perform hx.place ho hl
      (fun h0 => hy.pid_ne (hlns.symm.trans h0)) (fun hp => hne (hp.symm.trans hlns))) hlns) hy.fresh
  refine ⟨?_, hy.pid_ne, alive_run hy.alive, hkeep.1⟩
  rw [hkeep.2]
  exact hy.place

/-- A pair that does not bear the names of a call outlives it. -/
theorem attached_run (h : Bridged w) (hy : y.Waiting Y G w) (hne : x.pid ≠ y.pid) (hx : x.pid ≠ 0)
    (hnames : x.veth.2 ≠ y.veth.2) {o i : Link}
    (ha : Net.Attached x.pid x.veth.1 x.veth.2 w.net o i) :
    Net.Attached x.pid x.veth.1 x.veth.2 (y.run Y G c w).net o i := by
  obtain ⟨⟨ho, hons, honm, hom⟩, ⟨hi, hins, hinm⟩, hop, hpair⟩ := ha
  have hoi : o ≠ i := by
    rintro rfl
    exact hx (hins.symm.trans hons)
  have pair : ∀ l ∈ w.net.links, l.ns = 0 → l.name = y.veth.1 ∨ l.name = y.veth.2 → l.pair ≠ o.pair := by
    intro l hl hlns hlnm hlp
    rcases h.sound.eq_or_eq ho hi hoi hop hpair hl hlp with rfl | rfl
    · rcases hlnm with hn | hn
      · exact veth_ne y x (hn.symm.trans honm)
      · exact hnames (honm.symm.trans hn)
    · exact hx (hins.symm.trans hlns)
  have outer : Net.Clear y.pid y.veth.1 y.veth.2 w.net o := by
    refine ⟨ho, ?_, ?_, fun l hl hlns hlnm _ => pair l hl hlns hlnm, h.sound.bound o ho⟩
    · rw [hons]
      exact hy.pid_ne.symm
    · intro _
      rw [honm]
      exact ⟨(veth_ne y x).symm, hnames⟩
  have inner : Net.Clear y.pid y.veth.1 y.veth.2 w.net i := by
    refine ⟨hi, ?_, ?_, ?_, h.sound.bound i hi⟩
    · rw [hins]
      exact hne
    · intro h0
      exact absurd (hins.symm.trans h0) hx
    · intro l hl hlns hlnm _
      rw [hpair]
      exact pair l hl hlns hlnm
  have keep : ∀ k, Net.Clear y.pid y.veth.1 y.veth.2 w.net k → k ∈ (y.run Y G c w).net.links :=
    fun k hk => (run_keeps (I := fun n => Net.Clear y.pid y.veth.1 y.veth.2 n k)
      (fun n o ho hn => hn.perform hy.place hy.pid_ne ho) hk).1.mem
  exact ⟨⟨keep o outer, hons, honm, hom⟩, ⟨keep i inner, hins, hinm⟩, hop, hpair⟩

/-- With nothing that fails a process that waits is connected, if its name allows it, and
nothing else on the host bears the name of its bridge end. -/
theorem connected_run (h : Bridged w) (hx : x.Waiting Y G w) (hv : Net.validName x.veth.2 = true)
    (hc : ∀ n, Choice.fault (c n) = none) :
    ∃ o i, Net.Attached x.pid x.veth.1 x.veth.2 (x.run Y G c w).net o i ∧
      ∀ l ∈ (x.run Y G c w).net.links, l.ns = 0 → l.name = x.veth.2 → l.pair = w.net.pairs + 1 := by
  obtain ⟨ha, hb, hlo⟩ := vethNames_ne_fixed x.name x.pid
  have hready : Net.Ready w.procs w.net x.pid x.veth.1 x.veth.2 := by
    refine ⟨h.bridge, ?_, hv, veth_ne x x, ha, hb, hlo, hx.place, hx.pid_ne, ?_⟩
    · exact (validName_vethNames x.vethNamePrefix x.pid).trans hv
    · intro l hl ⟨hns, hnm⟩
      exact hlo (hnm.symm.trans (hx.fresh l hl hns))
  obtain ⟨n', o, i, hexec, hatt, _, honly⟩ := hready.attached x.ip x.vethNamePrefix rfl
  have hrun : (x.run Y G c w).net = n' := by
    have hnet := (connects_connectProcess x.pid x.ip x.vethNamePrefix).mono fun _ => Op.Connects.isNet
    have hw := (exec_net hnet hc hx.alive).2.1
    rw [run, hw, hexec]
  rw [hrun]
  exact ⟨o, i, hatt, honly⟩

/-- Whatever the calls come to, those that have not been made yet find their processes waiting. -/
theorem runAll_ready {ys zs : List Call} (cs : Nat → Nat → (Host Y G).Choice) (h : Bridged w)
    (hw : ∀ x ∈ ys ++ zs, x.Waiting Y G w) (hpids : (ys ++ zs).Pairwise fun x y => x.pid ≠ y.pid) :
    Bridged (runAll Y G cs w ys) ∧ ∀ z ∈ zs, z.Waiting Y G (runAll Y G cs w ys) := by
  induction ys generalizing cs w with
  | nil => exact ⟨h, hw⟩
  | cons y ys ih =>
    rw [List.cons_append, List.pairwise_cons] at hpids
    have hy := hw y List.mem_cons_self
    refine ih (fun n => cs (n + 1)) (bridged_run h hy) (fun x hx => ?_) hpids.2
    exact waiting_run hy (hw x (List.mem_cons_of_mem y hx)) (hpids.1 x hx)

/-- A pair outlives any number of calls that do not come to its names. -/
theorem attached_runAll {us : List Call} (cs : Nat → Nat → (Host Y G).Choice) (h : Bridged w)
    (hw : ∀ y ∈ us, y.Waiting Y G w) (hpids : (x :: us).Pairwise fun x y => x.pid ≠ y.pid)
    (hx : x.pid ≠ 0) (hnames : ∀ y ∈ us, x.veth.2 ≠ y.veth.2) {o i : Link}
    (ha : Net.Attached x.pid x.veth.1 x.veth.2 w.net o i) :
    Net.Attached x.pid x.veth.1 x.veth.2 (runAll Y G cs w us).net o i := by
  induction us generalizing cs w with
  | nil => exact ha
  | cons y us ih =>
    obtain ⟨hxy, hus⟩ := List.pairwise_cons.mp hpids
    obtain ⟨hyu, hus⟩ := List.pairwise_cons.mp hus
    have hy := hw y List.mem_cons_self
    refine ih (fun n => cs (n + 1)) (bridged_run h hy) (fun z hz => ?_) ?_
      (fun z hz => hnames z (List.mem_cons_of_mem y hz)) ?_
    · exact waiting_run hy (hw z (List.mem_cons_of_mem y hz)) (hyu z hz)
    · exact List.pairwise_cons.mpr ⟨fun z hz => hxy z (List.mem_cons_of_mem y hz), hus⟩
    · exact attached_run h hy (hxy y List.mem_cons_self) hx (hnames y List.mem_cons_self) ha

/-- Two calls come to the same names, and the kernel takes these as they are. -/
def Meets (x y : Call) : Prop :=
  x.vethNamePrefix.take 9 = y.vethNamePrefix.take 9 ∧ x.pid % 1000 = y.pid % 1000 ∧
    Net.validName x.veth.2 = true

instance (x y : Call) : Decidable (x.Meets y) := inferInstanceAs (Decidable (_ ∧ _ ∧ _))

/-- What one of the calls has connected is still connected after any later one, however
the calls go. -/
def StayConnected (Y : Yaml) (G : GoIpam) (w : World) (xs : List Call) : Prop :=
  ∀ (cs : Nat → Nat → (Host Y G).Choice) (ys : List Call) (x : Call) (us vs : List Call),
    xs = ys ++ x :: (us ++ vs) → ∀ o i,
      Net.Attached x.pid x.veth.1 x.veth.2 (runAll Y G cs w (ys ++ [x])).net o i →
      Net.Attached x.pid x.veth.1 x.veth.2 (runAll Y G cs w (ys ++ x :: us)).net o i

end Call

theorem pairwise_of_splits {α : Type} {R : α → α → Prop} {xs : List α}
    (h : ∀ ys x us y vs, xs = ys ++ x :: (us ++ y :: vs) → R x y) : xs.Pairwise R := by
  induction xs with
  | nil => exact .nil
  | cons x xs ih =>
    refine List.pairwise_cons.mpr ⟨fun y hy => ?_, ih fun ys x' us y vs he => ?_⟩
    · obtain ⟨us, vs, rfl⟩ := List.append_of_mem hy
      exact h [] x us y vs rfl
    · exact h (x :: ys) x' us y vs (by rw [he]; rfl)

theorem pairwise_split {α : Type} {R : α → α → Prop} {ys us vs : List α} {x : α}
    (h : (ys ++ x :: (us ++ vs)).Pairwise R) : (x :: us).Pairwise R ∧ ∀ y ∈ us ++ vs, R x y := by
  have hx := (List.pairwise_append.mp h).2.1
  refine ⟨hx.sublist ?_, (List.pairwise_cons.mp hx).1⟩
  exact (List.sublist_append_left us vs).cons_cons x

/-- Processes stay connected exactly if no call comes to the names of an earlier one. -/
theorem stay_connected_iff (Y : Yaml) (G : GoIpam) (w : World) (xs : List Call) (h : Bridged w)
    (hw : ∀ x ∈ xs, x.Waiting Y G w) (hpids : xs.Pairwise fun x y => x.pid ≠ y.pid) :
    Call.StayConnected Y G w xs ↔ xs.Pairwise fun x y => ¬ x.Meets y := by
  constructor
  · intro hstay
    apply pairwise_of_splits
    rintro ys x us y vs rfl ⟨hpre, hmod, hvalid⟩
    have hnames : x.veth.2 = y.veth.2 := vethNames_snd_inj.mpr ⟨hpre, hmod⟩
    -- nothing fails in any of the calls
    let cs : Nat → Nat → (Host Y G).Choice := fun _ _ => ({} : Choice)
    have hsplit : ys ++ x :: (us ++ y :: vs) = (ys ++ x :: us) ++ y :: vs := by simp
    obtain ⟨hb, hx⟩ := @Call.runAll_ready Y G w ys (x :: (us ++ y :: vs)) cs h hw hpids
    obtain ⟨o, i, ha, _⟩ := Call.connected_run (c := cs 0) hb (hx x List.mem_cons_self) hvalid fun _ => rfl
    have hfirst : Call.runAll Y G cs w (ys ++ [x]) = x.run Y G (cs 0) (Call.runAll Y G cs w ys) := by
      rw [Call.runAll_append, Call.runAll_singleton]
    have before := hstay cs ys x us (y :: vs) rfl o i (by rw [hfirst]; exact ha)
    have after := hstay cs ys x (us ++ [y]) vs (by simp) o i (by rw [hfirst]; exact ha)
    obtain ⟨hb', hy⟩ := @Call.runAll_ready Y G w (ys ++ x :: us) (y :: vs) cs h
      (by rw [← hsplit]; exact hw) (by rw [← hsplit]; exact hpids)
    obtain ⟨_, _, _, honly⟩ := Call.connected_run (c := cs 0) hb' (hy y List.mem_cons_self)
      (hnames ▸ hvalid) fun _ => rfl
    have hlast : Call.runAll Y G cs w (ys ++ x :: (us ++ [y])) =
        y.run Y G (cs 0) (Call.runAll Y G cs w (ys ++ x :: us)) := by
      have hassoc : ys ++ x :: (us ++ [y]) = (ys ++ x :: us) ++ [y] := by simp
      rw [hassoc, Call.runAll_append, Call.runAll_singleton]
    rw [hlast] at after
    have hpair := honly o after.outer.1 after.outer.2.1 (after.outer.2.2.1.trans hnames)
    have hbound := hb'.sound.bound o before.outer.1
    omega
  · rintro hapart cs ys x us vs rfl o i ha
    obtain ⟨hpids', _⟩ := pairwise_split hpids
    have hx := hw x (by simp)
    have hsplit : ys ++ x :: (us ++ vs) = (ys ++ [x]) ++ (us ++ vs) := by simp
    obtain ⟨hb, hus⟩ := @Call.runAll_ready Y G w (ys ++ [x]) (us ++ vs) cs h
      (by rw [← hsplit]; exact hw) (by rw [← hsplit]; exact hpids)
    have hassoc : ys ++ x :: us = (ys ++ [x]) ++ us := by simp
    rw [hassoc, Call.runAll_append]
    refine Call.attached_runAll _ hb (fun y hy => hus y (List.mem_append_left _ hy)) hpids' hx.pid_ne
      (fun y hy hn => ?_) ha
    -- the bridge end bears the common name, so the kernel takes that name
    have hmeet := (pairwise_split hapart).2 y (List.mem_append_left _ hy)
    obtain ⟨hpre, hmod⟩ := vethNames_snd_inj.mp hn
    have hnamed := hb.sound.named o ha.outer.1
    rw [ha.outer.2.2.1] at hnamed
    exact hmeet ⟨hpre, hmod, hnamed⟩

namespace Sample

/-- Nothing fails. -/
def smooth : Nat → Nat → (Host yaml lowestFree).Choice := fun _ _ => ({} : Choice)

def ordersEu : Call := ⟨caller, 1001, "10.0.0.3", "orders-eu"⟩
def ordersUs : Call := ⟨caller, 2001, "10.0.0.4", "orders-us"⟩

/-- The same two with names that differ early. -/
def regions : List Call :=
  [⟨caller, 1001, "10.0.0.3", "eu-orders"⟩, ⟨caller, 2001, "10.0.0.4", "us-orders"⟩]

theorem wired_bridged : Bridged wired := by
  refine ⟨⟨by decide, ?_, by decide, by decide⟩, by decide⟩
  intro p hp
  have : (wired.net.links.map Link.pair) = [0, 0, 0] := rfl
  simp [wired, hp.symm]

theorem waiting {x : Call} (h : x.caller = caller) (hx : x.pid = 1001 ∨ x.pid = 2001) :
    x.Waiting yaml lowestFree wired := by
  have alive : (Host yaml lowestFree).alive caller wired = true := by decide
  have place : Net.place wired.procs 1001 = some 1001 ∧ Net.place wired.procs 2001 = some 2001 := by
    decide
  have fresh : ∀ l ∈ wired.net.links, l.ns = 1001 ∨ l.ns = 2001 → l.name = bytes "lo" := by decide
  rcases hx with hx | hx
  · refine ⟨by rw [hx]; exact place.1, by rw [hx]; decide, by rw [h]; exact alive, fun l hl hns => ?_⟩
    exact fresh l hl (.inl (hns.trans hx))
  · refine ⟨by rw [hx]; exact place.2, by rw [hx]; decide, by rw [h]; exact alive, fun l hl hns => ?_⟩
    exact fresh l hl (.inr (hns.trans hx))

end Sample

theorem regions_stay : Call.StayConnected Sample.yaml lowestFree Sample.wired Sample.regions := by
  refine (stay_connected_iff _ _ _ _ Sample.wired_bridged (fun x hx => ?_) (by decide)).mpr
    (by decide +kernel)
  simp only [Sample.regions, List.mem_cons, List.not_mem_nil, or_false] at hx
  rcases hx with rfl | rfl
  · exact Sample.waiting rfl (.inl rfl)
  · exact Sample.waiting rfl (.inr rfl)

/-- Connecting the second database cuts the first one off: it is left with its loopback link. -/
theorem orders_collide :
    ¬ Call.StayConnected Sample.yaml lowestFree Sample.wired [Sample.ordersEu, Sample.ordersUs] := by
  intro hstay
  have left : ∀ l ∈ (Call.runAll Sample.yaml lowestFree Sample.smooth Sample.wired
      [Sample.ordersEu, Sample.ordersUs]).net.links, l.ns = 1001 → l.name = bytes "lo" := by
    decide +kernel
  obtain ⟨o, i, ha, _⟩ := Call.connected_run (x := Sample.ordersEu) (c := Sample.smooth 0)
    Sample.wired_bridged (Sample.waiting rfl (.inl rfl)) (by decide +kernel) fun _ => rfl
  rw [← Call.runAll_singleton] at ha
  have after := hstay Sample.smooth [] Sample.ordersEu [Sample.ordersUs] [] rfl o i ha
  rw [List.nil_append] at after
  obtain ⟨_, ⟨hi, hns, hnm⟩, _⟩ := after
  have hname := left i hi hns
  exact (vethNames_ne_fixed Sample.ordersEu.name Sample.ordersEu.pid).2.2 (hnm.symm.trans hname)

end PrivatePaas
