import PrivatePaas.Code.Cleanup
import PrivatePaas.Host.Connect
import PrivatePaas.Registry.Coherent
import PrivatePaas.Results.Sample

/-!
# Interfaces that are still in use

`runCleanup` goes by the names of the interfaces alone, and hands them to a shell as
they are.
-/

namespace PrivatePaas
set_option autoImplicit false
open Effects Network

section Lines
variable {X : Shell.Setting} {name : IfName}

/-- The shell takes the line for one command, which deletes the interface of this name. -/
def Deletes (X : Shell.Setting) (name : IfName) : Prop :=
  X.command (Cmd.deleteCommand name) = some [bytes "ip", bytes "link", bytes "delete", name]

instance (X : Shell.Setting) (name : IfName) : Decidable (Deletes X name) :=
  inferInstanceAs (Decidable (_ = _))

theorem command_deleteCommand (X : Shell.Setting) (bs : Shell.Bytes) : X.command (Cmd.deleteCommand bs) =
    (X.command bs).map fun fs => bytes "ip" :: bytes "link" :: bytes "delete" :: fs := by
  have hline : Cmd.deleteCommand bs = bytes "ip" ++ Shell.ch ' ' :: (bytes "link" ++ Shell.ch ' ' ::
      (bytes "delete" ++ Shell.ch ' ' :: bs)) := rfl
  rw [hline, Shell.command_first X (by decide +kernel) (by decide +kernel),
    Shell.command_first X (by decide +kernel) (by decide +kernel),
    Shell.command_first X (by decide +kernel) (by decide +kernel), Option.map_map, Option.map_map]
  rfl

/-- The line does what it is for exactly if the name comes to itself. -/
theorem deletes_iff (h : Cmd.hanging name = true) : Deletes X name ↔ X.Taken name := by
  obtain ⟨rest, rfl⟩ := List.isPrefixOf_iff_prefix.mp h
  have hv : bytes "v-" ++ rest = 118 :: 45 :: rest := rfl
  rw [hv, ← Shell.Setting.command_eq_iff (by decide), Deletes, command_deleteCommand]
  cases X.command (118 :: 45 :: rest) with
  | none => exact ⟨nofun, nofun⟩
  | some fs => simp only [Option.map_some, Option.some.injEq, List.cons.injEq, true_and]

end Lines

namespace Net
variable {n : Net} {k : Link} {names : List IfName}

/-- The net without the links of these names. -/
def withoutAll (n : Net) (names : List IfName) : Net := names.foldl without n

theorem mem_withoutAll (h : k ∈ (n.withoutAll names).links) : k ∈ n.links ∧ ¬ (k.ns = 0 ∧ k.name ∈ names) := by
  induction names generalizing n with
  | nil => exact ⟨h, by simp⟩
  | cons name names ih =>
    obtain ⟨hk, hno⟩ := ih (n := n.without name) h
    obtain ⟨hk, hne⟩ := mem_without hk
    refine ⟨hk, fun hx => ?_⟩
    rcases List.mem_cons.mp hx.2 with he | he
    · exact hne ⟨hx.1, he⟩
    · exact hno ⟨hx.1, he⟩

/-- A link stays if neither itself nor the other end of its pair has such a name. -/
theorem mem_withoutAll_of (hk : k ∈ n.links) (hname : ¬ (k.ns = 0 ∧ k.name ∈ names))
    (hpair : ∀ h ∈ n.links, h.ns = 0 → h.name ∈ names → h.pair = 0 ∨ k.pair ≠ h.pair) :
    k ∈ (n.withoutAll names).links := by
  induction names generalizing n with
  | nil => exact hk
  | cons name names ih =>
    have hstay : k ∈ (n.without name).links := by
      unfold without
      split
      · exact hk
      · rename_i l hl
        obtain ⟨hmem, hns, he⟩ := find_spec hl
        refine mem_delete.mpr ⟨hk, fun hx => hname ⟨hx.1.trans hns, ?_⟩, hpair l hmem hns ?_⟩
        · rw [hx.2, he]
          exact List.mem_cons_self
        · rw [he]
          exact List.mem_cons_self
    refine ih hstay (fun hx => hname ⟨hx.1, List.mem_cons_of_mem _ hx.2⟩) fun h hh hns he => ?_
    exact hpair h (mem_without hh).1 hns (List.mem_cons_of_mem _ he)

end Net

section Result
variable {X : Shell.Setting} {w : World} {sh : Shell.Bytes → World → World}

/-- What `net.Interfaces` lists: the links in the host's namespace. -/
def World.interfaces (w : World) : List IfName := (w.net.links.filter fun k => k.ns = 0).map Link.name

/-- The other end of its pair is in the namespace of a workload that runs, or of Envoy. -/
def World.InUse (w : World) (k : Link) : Prop :=
  k.pair ≠ 0 ∧ ∃ q ∈ w.procs, (q.role = .workload ∨ q.role = .envoy) ∧
    ∃ i ∈ w.net.links, i.ns = q.pid ∧ i.pair = k.pair

/-- Every hanging interface is gone, every one in use is there, and each command line has
deleted the interface it was made for and done nothing else. -/
structure CleanedUp (X : Shell.Setting) (w w' : World) : Prop where
  gone : ∀ k ∈ w.net.links, k.ns = 0 → Cmd.hanging k.name = true → ¬ w.InUse k → k ∉ w'.net.links
  kept : ∀ k ∈ w.net.links, k.ns = 0 → w.InUse k → k ∈ w'.net.links
  lines : ∀ k ∈ w.net.links, k.ns = 0 → Cmd.hanging k.name = true → Deletes X k.name

/-- A shell that runs `ip link delete` where the line comes to just that. -/
def RunsPlainly (X : Shell.Setting) (sh : Shell.Bytes → World → World) : Prop :=
  ∀ name w, Deletes X name → sh (Cmd.deleteCommand name) w = { w with net := w.net.without name }

theorem mem_interfaces {name : IfName} : name ∈ w.interfaces ↔ ∃ k ∈ w.net.links, k.ns = 0 ∧ k.name = name := by
  simp [World.interfaces, and_assoc]

/-- With a shell that takes every line as it is meant, all interfaces with the prefix go. -/
theorem runCleanup_eq (hsh : RunsPlainly X sh) {names : List IfName}
    (h : ∀ name ∈ names, Cmd.hanging name = true → Deletes X name) :
    Cmd.runCleanup sh (some names) w =
      { w with net := w.net.withoutAll (names.filter fun name => Cmd.hanging name) } := by
  unfold Cmd.runCleanup
  dsimp only
  induction names generalizing w with
  | nil => rfl
  | cons name names ih =>
    have hrest : ∀ x ∈ names, Cmd.hanging x = true → Deletes X x := fun x hx => h x (List.mem_cons_of_mem _ hx)
    rw [List.foldl_cons]
    by_cases hv : Cmd.hanging name = true
    · rw [if_pos hv, hsh name w (h name List.mem_cons_self hv), ih hrest, List.filter_cons_of_pos hv]
      rfl
    · rw [if_neg hv, ih hrest, List.filter_cons_of_neg hv]

/-- An interface with the prefix that is in use goes like any other. -/
theorem CleanedUp.not_inUse (hsh : RunsPlainly X sh) (h : CleanedUp X w (Cmd.runCleanup sh (some w.interfaces) w))
    {k : Link} (hk : k ∈ w.net.links) (hns : k.ns = 0) (hv : Cmd.hanging k.name = true) : ¬ w.InUse k := by
  intro huse
  have hkept := h.kept k hk hns huse
  rw [runCleanup_eq hsh fun name hname hv => ?_] at hkept
  · refine (Net.mem_withoutAll hkept).2 ⟨hns, List.mem_filter.mpr ⟨mem_interfaces.mpr ⟨k, hk, hns, rfl⟩, hv⟩⟩
  · obtain ⟨k', hk', hns', rfl⟩ := mem_interfaces.mp hname
    exact h.lines k' hk' hns' hv

/-- The interfaces of workloads and of Envoy have the prefix. -/
theorem hanging_vethNames (name : String) (pid : Nat) :
    Cmd.hanging (vethNames (bytes ("v-" ++ name)) pid).1 = true ∧
      Cmd.hanging (vethNames (bytes ("v-" ++ name)) pid).2 = true := by
  have hv : bytes "v-" = [118, 45] := rfl
  rw [vethNames_eq, bytes_append, vethBase, hv]
  exact ⟨rfl, rfl⟩

/-- Whatever the circumstances are, `cleanup` does what it is for exactly if no interface of the
prefix is in use and the shell takes the names of all as they are. -/
theorem cleanup_exact_iff (hsh : RunsPlainly X sh) :
    (CleanedUp X w (Cmd.runCleanup sh (some w.interfaces) w) ↔
      ∀ k ∈ w.net.links, k.ns = 0 → Cmd.hanging k.name = true → ¬ w.InUse k ∧ X.Taken k.name) ∧
    ∀ name pid x, x = (vethNames (bytes ("v-" ++ name)) pid).1 ∨ x = (vethNames (bytes ("v-" ++ name)) pid).2 →
      (Deletes X x ↔ X.Taken x) := by
  have mem_filter : ∀ {name : IfName}, name ∈ w.interfaces.filter (fun name => Cmd.hanging name) ↔
      (∃ k ∈ w.net.links, k.ns = 0 ∧ k.name = name) ∧ Cmd.hanging name = true := by
    intro name
    rw [List.mem_filter, mem_interfaces]
  refine ⟨⟨fun h k hk hns hv => ?_, fun h => ?_⟩, fun name pid x hx => deletes_iff ?_⟩
  · exact ⟨h.not_inUse hsh hk hns hv, (deletes_iff hv).mp (h.lines k hk hns hv)⟩
  · have hlines : ∀ k ∈ w.net.links, k.ns = 0 → Cmd.hanging k.name = true → Deletes X k.name :=
      fun k hk hns hv => (deletes_iff hv).mpr (h k hk hns hv).2
    have hrun : Cmd.runCleanup sh (some w.interfaces) w =
        { w with net := w.net.withoutAll (w.interfaces.filter fun name => Cmd.hanging name) } := by
      refine runCleanup_eq hsh fun name hname hv => ?_
      obtain ⟨k, hk, hns, rfl⟩ := mem_interfaces.mp hname
      exact hlines k hk hns hv
    rw [hrun]
    refine ⟨fun k hk hns hv _ hmem => ?_, fun k hk hns huse => ?_, hlines⟩
    · exact (Net.mem_withoutAll hmem).2 ⟨hns, mem_filter.mpr ⟨⟨k, hk, hns, rfl⟩, hv⟩⟩
    · refine Net.mem_withoutAll_of hk (fun hx => ?_) fun k' hk' hns' hname => ?_
      · exact (h k hk hns (mem_filter.mp hx.2).2).1 huse
      · -- the other link of a pair in use is in use
        by_contra hboth
        obtain ⟨h0, hpair⟩ := not_or.mp hboth
        obtain ⟨_, q, hq, hr, i, hi, hin, hip⟩ := huse
        refine (h k' hk' hns' (mem_filter.mp hname).2).1 ⟨h0, q, hq, hr, i, hi, hin, ?_⟩
        exact hip.trans (not_not.mp hpair)
  · rcases hx with rfl | rfl
    · exact (hanging_vethNames name pid).1
    · exact (hanging_vethNames name pid).2

/-- A shell that knows one command. -/
def plainShell (X : Shell.Setting) (line : Shell.Bytes) (w : World) : World :=
  match X.command line with
  | some [ip, link, delete, name] =>
    if ip = bytes "ip" ∧ link = bytes "link" ∧ delete = bytes "delete" then
      { w with net := w.net.without name }
    else w
  | _ => w

theorem plainShell_runs (X : Shell.Setting) : RunsPlainly X (plainShell X) := by
  intro name w h
  unfold plainShell
  rw [show X.command (Cmd.deleteCommand name) = _ from h]
  exact if_pos ⟨rfl, rfl, rfl⟩

/-- A host with two interfaces that nobody uses any more. -/
def littered : World := { Sample.wired with
  net := { links := [{ name := bytes "v-old_7_b", ns := 0 }, { name := bytes "v-a[x]_1_b", ns := 0 }] } }

/-- A directory with a file that no pattern here fits. -/
def readmeOnly : Shell.Setting := { names := [bytes "README.md"] }

theorem littered_cleanedUp : CleanedUp readmeOnly littered
    (Cmd.runCleanup (plainShell readmeOnly) (some littered.interfaces) littered) := by
  refine (cleanup_exact_iff (plainShell_runs readmeOnly)).1.mpr fun k hk _ _ => ?_
  simp only [littered, List.mem_cons, List.not_mem_nil, or_false] at hk
  rcases hk with rfl | rfl
  · exact ⟨fun h => h.1 rfl, .quiet (by decide +kernel) fun _ => rfl⟩
  · exact ⟨fun h => h.1 rfl, .quiet (by decide +kernel) fun _ => rfl⟩

/-- There is an interface in use that has the prefix. -/
def World.Exposed (w : World) : Prop := ∃ k ∈ w.net.links, k.ns = 0 ∧ Cmd.hanging k.name = true ∧ w.InUse k

instance (w : World) : Decidable w.Exposed :=
  inferInstanceAs (Decidable (∃ k ∈ w.net.links, k.ns = 0 ∧ Cmd.hanging k.name = true ∧ k.pair ≠ 0 ∧
    ∃ q ∈ w.procs.all, (q.role = .workload ∨ q.role = .envoy) ∧ ∃ i ∈ w.net.links, i.ns = q.pid ∧ i.pair = k.pair))

def World.exposed (w : World) : Bool := decide w.Exposed

theorem World.exposed_spec {w : World} (h : w.exposed = true) : w.Exposed := of_decide_eq_true h

/-- The interface of a service that runs is deleted, too. -/
theorem shop_cutOff : ∃ es : List (Sample.SampleEvent Unit), ∀ X sh, RunsPlainly X sh →
    ¬ CleanedUp X (Sample.start.run es).world (Cmd.runCleanup sh
      (some (World.interfaces (Sample.start.run es).world)) (Sample.start.run es).world) := by
  have hexposed : World.exposed (Sample.start.run
      (Sample.create () Sample.shop 100 :: Sample.steps () 100 101)).world = true := by decide +kernel
  obtain ⟨k, hk, hns, hv, hu⟩ := World.exposed_spec hexposed
  exact ⟨_, fun X sh hsh h => h.not_inUse hsh hk hns hv hu⟩

end Result
end PrivatePaas
