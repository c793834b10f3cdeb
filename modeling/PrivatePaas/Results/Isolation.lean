import PrivatePaas.Results.Script

/-!
# What a container sees of the host

A service runs with the rights of the CLI. What keeps it apart from the host is the
namespace in which it is started, so it matters which files the paths of the container
can lead to: those in the directory of the script, and those of rootfs.
-/

namespace PrivatePaas
set_option autoImplicit false
open Files Text PrivatePaas.Parser

/-- The directory of the script on the host. -/
def scriptDir (pwd : Path) (servicePath : String) : Path :=
  (dirNames servicePath).foldl stepName (if isRooted servicePath then [] else pwd)

/-- Some path, from the root or from the working directory, leads to the file. -/
def Visible (ns : Mounts Fs) (e : Fs × Path) : Prop :=
  ∃ rooted cs, (ns.resolve rooted cs).bind ns.file = some e

/-- What the container is meant to see. What rootfs itself has at `/app` and `/proc` is
covered by what is mounted there. -/
inductive Mounted (rootfs dir : Path) : Fs × Path → Prop where
  | script (q : Path) : Mounted rootfs dir (.host, dir ++ q)
  | own {q : Path} (happ : ¬ ["app"] <+: q) (hproc : ¬ ["proc"] <+: q) : Mounted rootfs dir (.host, rootfs ++ q)
  | proc (q : Path) : Mounted rootfs dir (.proc, q)

section Isolation
variable {t tp : Files.Tree} {pwd dir : Path} {servicePath : String} {ns : Mounts Fs}

theorem isDir_root_of_mountFs {ns' : Mounts Fs} {f : Fs} {c : String} {cs : List String}
    (h : ns.mountFs f (c :: cs) = some ns') : ns'.isDir ns'.root := by
  simp only [Mounts.mountFs, Option.bind_eq_bind, Option.bind_eq_some_iff, Mounts.resolve, if_true,
    Mounts.walk] at h
  obtain ⟨d, hd, h⟩ := h
  split at hd
  case isFalse => cases hd
  rename_i hroot
  split at h
  case isFalse => cases h
  obtain rfl := Option.some.inj h
  obtain ⟨e, he, hdir⟩ := hroot
  refine ⟨e, ?_, hdir⟩
  obtain ⟨m, hm, rfl⟩ := Option.map_eq_some_iff.mp he
  rw [Mounts.mount?] at hm
  rw [Mounts.entry, Mounts.mount?, List.find?_append, hm]
  rfl

/-- The mount of /proc has looked for its place below the root. -/
theorem isDir_root_of_init (h : runContainerInit pwd servicePath (onHost t tp pwd) = some ns) :
    ns.isDir ns.root := by
  simp only [runContainerInit, Option.bind_eq_bind, Option.bind_eq_some_iff] at h
  obtain ⟨_, _, _, _, h⟩ := h
  exact isDir_root_of_mountFs h

/-- Below a directory of the container that is not its root, the names are those of the
file system that is seen there. -/
theorem entry_inside_append (hm : ns.mounts = scriptMounts pwd dir) {q : Path} (hq : q ≠ []) (r : Path) :
    ns.entry (inside (q ++ r)) = (ns.entry (inside q)).map fun e => (e.1, e.2 ++ r) := by
  obtain ⟨x, q, rfl⟩ := List.exists_cons_of_ne_nil hq
  by_cases happ : x = "app"
  · subst x
    simp [entry_inside hm]
  by_cases hproc : x = "proc"
  · subst x
    simp [entry_inside hm]
  have hown : ∀ q, ns.entry (inside (x :: q)) = some (.host, pwd ++ ["rootfs"] ++ (x :: q)) := by
    intro q
    rw [inside_of_ne ⟨happ, hproc⟩]
    simp [Mounts.entry, Mounts.mount?, hm, scriptMounts, ownMounts, scriptMount]
  rw [List.cons_append, hown, hown]
  simp

theorem isDir_of_content {q r : Path} {c : String} (h : t.content (q ++ c :: r) ≠ none) : t.isDir q := by
  obtain ⟨s, hs⟩ := Option.ne_none_iff_exists'.mp h
  refine Tree.isDir_of_prefix (t.fits _ (Tree.mem_of_content hs)).parent ?_
  rw [List.dropLast_append_of_ne_nil (List.cons_ne_nil c r)]
  exact List.prefix_append q _

/-- A file of the container is found under the names at which it stands. -/
theorem visible_of_entry (hm : ns.mounts = scriptMounts pwd dir) (hr : ns.root = ⟨2, []⟩)
    (hroot : ns.isDir ns.root) {q : Path} (hq : ∀ c ∈ q, Proper c) {e : Fs × Path}
    (he : ns.entry (inside q) = some e) (hcontent : (ns.tree e.1).content e.2 ≠ none) : Visible ns e := by
  have hstart : ns.root = inside [] := hr
  have hwalk := @Mounts.walk_iff _ ns inside (fun q c _ => step_inside hm hr q c) [] q
  have hself : ∀ es, es <+: q → es.foldl stepName [] = es := by
    intro es hes
    rw [foldl_stepName_proper fun c hc => hq c (hes.subset hc), List.nil_append]
  refine ⟨true, q, ?_⟩
  rw [Mounts.resolve, if_pos rfl, hstart, Option.bind_eq_some_iff]
  refine ⟨inside q, hwalk.mpr ⟨fun es c hes => ?_, by rw [hself q List.prefix_rfl]⟩,
    file_eq_some.mpr ⟨he, hcontent⟩⟩
  rw [hself es ((List.prefix_append es [c]).trans hes)]
  by_cases hnil : es = []
  · subst es
    exact hstart ▸ hroot
  -- the directories on the way to a file
  obtain ⟨r, hr'⟩ := hes
  rw [List.append_assoc, List.singleton_append] at hr'
  rw [← hr', entry_inside_append hm hnil] at he
  obtain ⟨d, hd, rfl⟩ := Option.map_eq_some_iff.mp he
  exact ⟨d, hd, isDir_of_content hcontent⟩

theorem mounted_of_entry (hm : ns.mounts = scriptMounts pwd dir) {q : Path} {e : Fs × Path}
    (he : ns.entry (inside q) = some e) : Mounted (pwd ++ ["rootfs"]) dir e := by
  rw [entry_inside hm] at he
  obtain rfl := Option.some.inj he
  split
  · exact .script _
  · exact .proc _
  · rename_i happ hproc
    refine .own ?_ ?_
    · intro ⟨r, hr⟩
      exact happ r hr.symm
    · intro ⟨r, hr⟩
      exact hproc r hr.symm

/-- Where what is mounted stands in the container. -/
theorem exists_entry_of_mounted (hm : ns.mounts = scriptMounts pwd dir) {e : Fs × Path}
    (hproper : ∀ c ∈ e.2, Proper c) (h : Mounted (pwd ++ ["rootfs"]) dir e) :
    ∃ q, (∀ c ∈ q, Proper c) ∧ ns.entry (inside q) = some e := by
  cases h with
  | script q =>
    refine ⟨"app" :: q, List.forall_mem_cons.mpr ⟨by decide, fun c hc => ?_⟩, ?_⟩
    · exact hproper c (List.mem_append_right _ hc)
    · simp [entry_inside hm]
  | @own q happ hproc =>
    refine ⟨q, fun c hc => hproper c (List.mem_append_right _ hc), ?_⟩
    rw [entry_inside hm]
    split
    · exact absurd (by simp) happ
    · exact absurd (by simp) hproc
    · rfl
  | proc q =>
    refine ⟨"proc" :: q, List.forall_mem_cons.mpr ⟨by decide, hproper⟩, ?_⟩
    simp [entry_inside hm]

end Isolation

namespace Sample

end Sample
end PrivatePaas
