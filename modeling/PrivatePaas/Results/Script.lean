import PrivatePaas.Host.Container

/-!
# The script of a container

The directory of the script is mounted on `/app` of the new root, but python3 is given
the path that the script has on the host.
-/

namespace PrivatePaas
set_option autoImplicit false
open Files Text PrivatePaas.Parser

/-- The directories of the container: those of the script's directory below `/app`, those
of /proc, and those of rootfs. -/
def HasDir (t tp : Files.Tree) (rootfs dir : Path) : Path → Prop
  | "app" :: q => Furnished t rootfs (dir ++ q)
  | "proc" :: q => tp.isDir q
  | q => Furnished t rootfs (rootfs ++ q)

section Script
variable {t tp : Files.Tree} {pwd F : Path} {servicePath : String} {ns : Mounts Fs}

theorem split_ne_nil (c : Char) (s : String) : split c s ≠ [] := by
  simp [split, List.splitOn_ne_nil]

theorem file_eq_some {p : Place} {e : Fs × Path} :
    ns.file p = some e ↔ ns.entry p = some e ∧ (ns.tree e.1).content e.2 ≠ none := by
  simp [Mounts.file, Option.filter_eq_some_iff, Option.isSome_iff_ne_none]

/-- The last name of a path that names a file. -/
theorem exists_of_fileAt (h : fileAt (onHost t tp pwd) servicePath = some (.host, F)) :
    t.content F ≠ none ∧ ∃ b, Proper b ∧ split '/' servicePath = dirNames servicePath ++ [b] ∧
      F = (dirNames servicePath).foldl stepName (if isRooted servicePath then [] else pwd) ++ [b] := by
  obtain ⟨p, hp, hfile⟩ := Option.bind_eq_some_iff.mp h
  obtain ⟨b, hb⟩ : ∃ b, split '/' servicePath = dirNames servicePath ++ [b] :=
    ⟨_, (List.dropLast_append_getLast (split_ne_nil '/' servicePath)).symm⟩
  have hstart : (if isRooted servicePath then (onHost t tp pwd).root else (onHost t tp pwd).cwd) =
      ⟨0, if isRooted servicePath then [] else pwd⟩ := by
    split <;> rfl
  rw [Mounts.resolve, hstart, hb] at hp
  obtain ⟨hdirs, rfl⟩ := (@Mounts.walk_iff _ (onHost t tp pwd) (fun q => ⟨0, q⟩)
    fun q c _ => @step_host (onHost t tp pwd) rfl rfl q c).mp hp
  obtain ⟨e, he, hd⟩ := hdirs (dirNames servicePath) b List.prefix_rfl
  obtain ⟨he', hcontent⟩ := file_eq_some.mp hfile
  rw [entry_host rfl] at he he'
  obtain rfl := Option.some.inj he
  rw [List.foldl_append, List.foldl_cons, List.foldl_nil] at he'
  generalize (dirNames servicePath).foldl stepName (if isRooted servicePath then [] else pwd) = d
    at hd he' ⊢
  obtain rfl : stepName d b = F := (Prod.mk.inj (Option.some.inj he')).2
  have hdir : t.isDir d := hd
  have hfile' : ¬ t.isDir (stepName d b) := by
    intro hb
    obtain ⟨s, hs⟩ := Option.ne_none_iff_exists'.mp hcontent
    exact Tree.not_isDir_of_content hs hb
  have hproper : Proper b := by
    refine ⟨?_, ?_, ?_⟩
    · rintro rfl
      exact hfile' (by simpa [stepName] using hdir)
    · rintro rfl
      exact hfile' (by simpa [stepName] using hdir)
    · rintro rfl
      exact hfile' (by simpa [stepName] using Tree.isDir_of_prefix hdir (List.dropLast_prefix d))
  exact ⟨hcontent, b, hproper, hb, stepName_proper hproper⟩

theorem hasDir_iff {d : Path} (hm : ns.mounts = scriptMounts pwd d)
    (hhost : ∀ q, (ns.tree .host).isDir q ↔ Furnished t (pwd ++ ["rootfs"]) q)
    (hproc : ∀ q, (ns.tree .proc).isDir q ↔ tp.isDir q) (q : Path) :
    ns.isDir (inside q) ↔ HasDir t tp (pwd ++ ["rootfs"]) d q := by
  unfold Mounts.isDir HasDir
  rw [entry_inside hm]
  split <;> simp [hhost, hproc]

/-- Only below `/app` itself does the script stand in the container. -/
theorem entry_script {d q0 cs : Path} {b : String} (hm : ns.mounts = scriptMounts pwd d)
    (hq0 : q0 <+: pwd) (hd : d = cs.foldl stepName q0) :
    ns.entry (inside (clean cs ++ [b])) = some (.host, d ++ [b]) ↔ clean cs = ["app"] := by
  obtain ⟨p, hp, hfold⟩ := exists_foldl_stepName q0 cs
  have hlen := (hp.trans hq0).length_le
  have hnot : pwd ++ ["rootfs"] ++ (clean cs ++ [b]) ≠ d ++ [b] := by
    intro he
    have hl := congrArg List.length he
    simp only [hd, hfold, List.length_append, List.length_singleton] at hl
    omega
  rw [entry_inside hm]
  constructor
  · intro he
    split at he
    · rename_i q hq
      simp only [Option.some.injEq, Prod.mk.injEq, true_and, List.append_cancel_left_eq] at he
      subst q
      exact List.append_inj_left' (show clean cs ++ [b] = ["app"] ++ [b] from hq) rfl
    · simp at he
    · simp only [Option.some.injEq, Prod.mk.injEq, true_and] at he
      exact absurd he hnot
  · intro hclean
    rw [hclean]
    rfl

end Script

namespace Sample

/-- A host with a rootfs and two scripts. -/
def scripts : Files.Tree := Tree.ofFiles
  [(["srv", "web.py"], "print(1)"), (["opt", "ppass", "app", "shop.py"], "print(2)"),
    (["opt", "ppass", "rootfs", "usr", "bin", "python3"], "")]

def procfs : Files.Tree := Tree.ofFiles [(["version"], "Linux")]

end Sample
end PrivatePaas
