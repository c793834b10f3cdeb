import PrivatePaas.Code.Container

/-!
# The mounts of a container

Where the paths of the container lead when python3 starts: `/app` into the directory of
the script, `/proc` into a fresh /proc, and everything else into rootfs.
-/

namespace PrivatePaas
set_option autoImplicit false
open Files Text PrivatePaas.Parser

section Names

theorem clean_eq (p : Path) : clean p = p.foldl stepName [] := rfl

/-- Every name in a cleaned path is proper or leads up. -/
theorem foldl_cleanStep (rooted : Bool) {q0 : Path} (h0 : rooted = true → q0 = []) (ds : List String) :
    (∀ c ∈ ds.foldl (cleanStep rooted) [], Proper c ∨ c = "..") ∧
      (ds.foldl (cleanStep rooted) []).foldl stepName q0 = ds.foldl stepName q0 := by
  induction ds using List.reverseRecOn with
  | nil => simp
  | append_singleton ds c ih =>
    obtain ⟨hall, heq⟩ := ih
    simp only [List.foldl_append, List.foldl_cons, List.foldl_nil]
    rw [← heq]
    generalize ds.foldl (cleanStep rooted) [] = s at hall
    by_cases hdot : c = "" ∨ c = "."
    · simpa [cleanStep, stepName, hdot] using hall
    by_cases hup : c = ".."
    · subst c
      rcases List.eq_nil_or_concat s with rfl | ⟨s', d, rfl⟩
      · cases rooted with
        | true => simp [cleanStep, stepName, h0 rfl]
        | false => simp [cleanStep]
      · rw [List.concat_eq_append] at hall ⊢
        by_cases hd : d = ".."
        · subst d
          have hs : cleanStep rooted (s' ++ [".."]) ".." = s' ++ [".."] ++ [".."] := by simp [cleanStep]
          rw [hs, List.foldl_append]
          refine ⟨fun c hc => ?_, rfl⟩
          rcases List.mem_append.mp hc with hc | hc
          · exact hall c hc
          · exact .inr (List.mem_singleton.mp hc)
        · have hp : Proper d := (hall d (by simp)).resolve_right hd
          have hs : cleanStep rooted (s' ++ [d]) ".." = s' := by simp [cleanStep, hd]
          rw [hs, List.foldl_append, List.foldl_cons, List.foldl_nil, stepName_proper hp]
          exact ⟨fun c hc => hall c (List.mem_append_left _ hc), by simp [stepName]⟩
    · have hc : Proper c := ⟨fun h => hdot (.inl h), fun h => hdot (.inr h), hup⟩
      have hs : cleanStep rooted s c = s ++ [c] := by simp [cleanStep, hc.1, hc.2.1, hup]
      rw [hs, List.foldl_append]
      refine ⟨fun d hd => ?_, rfl⟩
      rcases List.mem_append.mp hd with hd | hd
      · exact hall d hd
      · exact .inl (List.mem_singleton.mp hd ▸ hc)

/-- Wherever a path starts, it leads to a place above that, and from there along the
path cleaned from the root. -/
theorem exists_foldl_stepName (q0 : Path) (cs : List String) :
    ∃ p, p <+: q0 ∧ cs.foldl stepName q0 = p ++ clean cs := by
  induction cs using List.reverseRecOn with
  | nil => exact ⟨q0, List.prefix_rfl, by simp [clean]⟩
  | append_singleton cs c ih =>
    obtain ⟨p, hp, heq⟩ := ih
    have hclean : clean (cs ++ [c]) = stepName (clean cs) c := by simp [clean_eq]
    rw [List.foldl_append, List.foldl_cons, List.foldl_nil, heq, hclean]
    by_cases hdot : c = "" ∨ c = "."
    · exact ⟨p, hp, by simp [stepName, hdot]⟩
    by_cases hup : c = ".."
    · subst c
      rcases List.eq_nil_or_concat (clean cs) with hnil | ⟨s, d, hs⟩
      · exact ⟨p.dropLast, (List.dropLast_prefix p).trans hp, by simp [hnil, stepName]⟩
      · refine ⟨p, hp, ?_⟩
        rw [hs, List.concat_eq_append, ← List.append_assoc]
        simp [stepName]
    · exact ⟨p, hp, by simp [stepName, hdot, hup]⟩

end Names

section Mounting
variable {ns ns' : Mounts Fs}

/-- The mounts of the host. -/
def rootMount : Mount Fs := ⟨0, .host, [], none⟩

theorem step_host (hm : ns.mounts = [rootMount]) (hr : ns.root = ⟨0, []⟩) (q : Path) (c : String) :
    ns.step ⟨0, q⟩ c = ⟨0, stepName q c⟩ := by
  have hcross : ∀ p, ns.cross p = p := fun p => Mounts.cross_eq_self (by simp [hm, rootMount])
  unfold Mounts.step stepName Mounts.up
  rw [hr]
  split
  · rfl
  split
  · by_cases hq : q = []
    · simp [hq]
    · simp [hq, hcross]
  · exact hcross _

theorem entry_host (hm : ns.mounts = [rootMount]) (q : Path) : ns.entry ⟨0, q⟩ = some (.host, q) := by
  simp [Mounts.entry, Mounts.mount?, hm, rootMount]

/-- The first mount shows the directory of the script in rootfs. -/
theorem bind_host (hm : ns.mounts = [rootMount]) (hr : ns.root = ⟨0, []⟩) {q0 : Path} {rooted : Bool}
    (hq : (if rooted then ns.root else ns.cwd) = ⟨0, q0⟩) {cs : List String} {target : Path}
    (htarget : ∀ c ∈ target, Proper c) (h : ns.bind rooted cs target = some ns') :
    ns'.mounts = [rootMount, ⟨ns.fresh, .host, cs.foldl stepName q0, some ⟨0, target⟩⟩] ∧
      ns'.fresh = ns.fresh + 1 ∧ ns'.root = ns.root ∧ ns'.tree = ns.tree ∧ (ns.tree .host).isDir target := by
  have hwalk : ∀ {q cs p}, ns.walk ⟨0, q⟩ cs = some p → p = ⟨0, cs.foldl stepName q⟩ := fun hp =>
    ((@Mounts.walk_iff _ ns (fun q => ⟨0, q⟩) fun q c _ => step_host hm hr q c).mp hp).2
  simp only [Mounts.bind, Option.bind_eq_bind, Option.bind_eq_some_iff, Mounts.resolve, if_true] at h
  obtain ⟨s, hs, d, hd, m, hmount, h⟩ := h
  rw [hq] at hs
  rw [hr] at hd
  obtain rfl := hwalk hs
  obtain rfl := hwalk hd
  obtain rfl : m = rootMount := by simpa [Mounts.mount?, hm, rootMount] using hmount.symm
  split at h
  · rename_i hdirs
    obtain ⟨e, he, hdir⟩ := hdirs.2.1
    rw [entry_host hm, foldl_stepName_proper htarget] at he
    obtain rfl := Option.some.inj he
    obtain rfl := Option.some.inj h
    refine ⟨?_, ?_, rfl, rfl, hdir⟩
    · simp [hm, rootMount, Mounts.copies, foldl_stepName_proper htarget]
    · simp [hm, rootMount, Mounts.copies]
  · cases h

variable {pwd dir : Path}

/-- The directory of the script, below the root of the host. -/
def scriptMount (pwd dir : Path) : Mount Fs := ⟨1, .host, dir, some ⟨0, pwd ++ ["rootfs"] ++ ["app"]⟩⟩

/-- The mounts of the container before it has left the host behind, and after that. -/
def hostMounts (pwd dir : Path) : List (Mount Fs) :=
  [rootMount, scriptMount pwd dir, ⟨2, .host, pwd ++ ["rootfs"], some ⟨0, pwd ++ ["rootfs"]⟩⟩,
    ⟨3, .host, dir, some ⟨2, ["app"]⟩⟩]

def ownMounts (pwd dir : Path) : List (Mount Fs) :=
  [scriptMount pwd dir, ⟨2, .host, pwd ++ ["rootfs"], none⟩, ⟨3, .host, dir, some ⟨2, ["app"]⟩⟩]

theorem bind_self (hm : ns.mounts = [rootMount, scriptMount pwd dir]) (hr : ns.root = ⟨0, []⟩)
    (hfresh : ns.fresh = 2) (hpwd : ∀ c ∈ pwd, Proper c)
    (h : ns.bind true (pwd ++ ["rootfs"]) (pwd ++ ["rootfs"]) = some ns') :
    ns'.mounts = hostMounts pwd dir ∧ ns'.fresh = 4 ∧ ns'.root = ns.root ∧ ns'.tree = ns.tree ∧
      (ns.tree .host).isDir (pwd ++ ["rootfs"]) := by
  have hproper : ∀ c ∈ pwd ++ ["rootfs"], Proper c := by
    intro c hc
    rcases List.mem_append.mp hc with hc | hc
    · exact hpwd c hc
    · rw [List.mem_singleton.mp hc]
      decide
  have hwalk : ∀ {p}, ns.walk ⟨0, []⟩ (pwd ++ ["rootfs"]) = some p → p = ⟨0, pwd ++ ["rootfs"]⟩ := by
    intro p hp
    refine Mounts.walk_straight (q := []) hproper (fun es _ hes => Mounts.cross_eq_self ?_) hp
    have hlen := hes.length_le
    simp only [hm, rootMount, scriptMount, List.mem_cons, List.not_mem_nil, or_false, forall_eq_or_imp,
      forall_eq, ne_eq, reduceCtorEq, not_false_iff, true_and]
    intro he
    have hes' : pwd ++ ["rootfs"] ++ ["app"] = es := by simpa using he
    rw [← hes'] at hlen
    simp at hlen
  simp only [Mounts.bind, Option.bind_eq_bind, Option.bind_eq_some_iff, Mounts.resolve, if_true, hr] at h
  obtain ⟨s, hs, d, hd, m, hmount, h⟩ := h
  obtain rfl := hwalk hs
  obtain rfl := hwalk hd
  obtain rfl : m = rootMount := by simpa [Mounts.mount?, hm, rootMount] using hmount.symm
  split at h
  · rename_i hdirs
    obtain ⟨e, he, hdir⟩ := hdirs.1
    obtain rfl : (Fs.host, pwd ++ ["rootfs"]) = e := by
      simpa [Mounts.entry, Mounts.mount?, hm, rootMount] using he
    obtain rfl := Option.some.inj h
    refine ⟨?_, ?_, hr.symm, rfl, hdir⟩
    · simp [hm, hfresh, hostMounts, rootMount, scriptMount, Mounts.copies, Mounts.shownBy]
    · simp [hm, hfresh, rootMount, scriptMount, Mounts.copies, Mounts.shownBy]
  · cases h

theorem pivot_host (hm : ns.mounts = hostMounts pwd dir) (hr : ns.root = ⟨0, []⟩)
    (hpwd : ∀ c ∈ pwd, Proper c)
    (h : ns.pivot (pwd ++ ["rootfs"]) (pwd ++ ["rootfs"] ++ [".oldroot"]) = some ns') :
    ns.isDir ⟨2, [".oldroot"]⟩ ∧ ns'.tree = ns.tree ∧ ns'.fresh = ns.fresh ∧ ns'.root = ⟨2, []⟩ ∧
      ns'.mounts = ⟨0, .host, [], some ⟨2, [".oldroot"]⟩⟩ :: ownMounts pwd dir := by
  -- up to the working directory nothing is mounted, and rootfs is on itself
  have hnew : ∀ {p}, ns.walk ⟨0, []⟩ (pwd ++ ["rootfs"]) = some p → p = ⟨2, []⟩ := by
    intro p hp
    rw [Mounts.walk_append, Option.bind_eq_some_iff] at hp
    obtain ⟨q, hq, hp⟩ := hp
    obtain rfl : q = ⟨0, pwd⟩ := by
      refine Mounts.walk_straight (q := []) hpwd (fun es _ hes => Mounts.cross_eq_self ?_) hq
      have hlen := hes.length_le
      simp only [hm, hostMounts, rootMount, scriptMount, List.mem_cons, List.not_mem_nil, or_false,
        forall_eq_or_imp, forall_eq, ne_eq, reduceCtorEq, not_false_iff, true_and, Option.some.injEq,
        Place.mk.injEq, List.nil_append, false_and, and_true]
      constructor
      · rintro rfl
        simp at hlen
      · rintro rfl
        simp at hlen
    simp only [Mounts.walk] at hp
    split at hp
    · have hne : pwd ++ ["rootfs"] ++ ["app"] ≠ pwd ++ ["rootfs"] := by simp
      simpa [Mounts.step, Mounts.cross, hm, hostMounts, rootMount, scriptMount] using hp.symm
    · cases hp
  have hput : ∀ {p}, ns.walk ⟨2, []⟩ [".oldroot"] = some p → p = ⟨2, [".oldroot"]⟩ := by
    intro p hp
    simp only [Mounts.walk] at hp
    split at hp
    · simpa [Mounts.step, Mounts.cross, hm, hostMounts, rootMount, scriptMount] using hp.symm
    · cases hp
  simp only [Mounts.pivot, Option.bind_eq_bind, Option.bind_eq_some_iff, Mounts.resolve, if_true, hr] at h
  obtain ⟨n, hn, p, hp, h⟩ := h
  rw [Mounts.walk_append, hn, Option.bind_some] at hp
  obtain rfl := hnew hn
  obtain rfl := hput hp
  split at h
  · rename_i hdir
    obtain rfl := Option.some.inj h
    refine ⟨hdir.2.2.2.2, rfl, rfl, rfl, ?_⟩
    simp [hm, hostMounts, ownMounts, rootMount, scriptMount]
  · cases h

theorem detach_host (hm : ns.mounts = ⟨0, .host, [], some ⟨2, [".oldroot"]⟩⟩ :: ownMounts pwd dir)
    (hr : ns.root = ⟨2, []⟩) (h : ns.detach [".oldroot"] = some ns') :
    ns' = { ns with mounts := ownMounts pwd dir } := by
  simp only [Mounts.detach, Option.bind_eq_bind, Option.bind_eq_some_iff, Mounts.resolve, if_true, hr,
    Mounts.walk] at h
  obtain ⟨p, hp, h⟩ := h
  split at hp
  case isFalse => cases hp
  obtain rfl : p = ⟨0, []⟩ := by
    simpa [Mounts.step, Mounts.cross, hm, ownMounts, scriptMount] using hp.symm
  split at h
  · obtain rfl := Option.some.inj h
    simp [hm, hr, ownMounts, scriptMount]
  · cases h

/-- `.oldroot` is made in rootfs. -/
theorem grown_oldroot (hm : ns.mounts = hostMounts pwd dir) (hr : ns.root = ⟨0, []⟩) (hpwd : ∀ c ∈ pwd, Proper c)
    (hA : (ns.tree .host).isDir (pwd ++ ["rootfs"])) (f : Fs) :
    Tree.Grown (fun q => f = .host ∧ q = pwd ++ ["rootfs"] ++ [".oldroot"]) (ns.tree f)
      (((ns.mkdirAll (pwd ++ ["rootfs"] ++ [".oldroot"])).getD ns).tree f) := by
  have hfree : ∀ es, es ≠ [] → es <+: pwd → ns.cross ⟨0, [] ++ es⟩ = ⟨0, [] ++ es⟩ := by
    intro es _ hes
    refine Mounts.cross_eq_self ?_
    have hlen := hes.length_le
    simp only [hm, hostMounts, rootMount, scriptMount, List.mem_cons, List.not_mem_nil, or_false,
      forall_eq_or_imp, forall_eq, ne_eq, reduceCtorEq, not_false_iff, true_and, Option.some.injEq,
      Place.mk.injEq, List.nil_append, false_and, and_true]
    constructor
    · rintro rfl
      simp at hlen
    · rintro rfl
      simp at hlen
  have hstraight : ∀ es, es <+: pwd → es.foldl ns.step ns.root = ⟨0, es⟩ := by
    intro es hes
    rw [hr]
    refine Mounts.foldl_step (fun c hc => hpwd c (hes.subset hc)) fun es' hne hes' => ?_
    exact hfree es' hne (hes'.trans hes)
  have hrootfs : (pwd ++ ["rootfs"]).foldl ns.step ns.root = ⟨2, []⟩ := by
    rw [List.foldl_append, hstraight pwd List.prefix_rfl]
    have hne : pwd ++ ["rootfs"] ++ ["app"] ≠ pwd ++ ["rootfs"] := by simp
    simp [Mounts.step, Mounts.cross, hm, hostMounts, rootMount, scriptMount]
  refine (Mounts.grown_mkdirAll _ f).mono fun q hq hn => ?_
  obtain ⟨es, c, d, hes, he, rfl⟩ := hq
  rcases List.prefix_concat_iff.mp hes with hall | hp
  · obtain ⟨rfl, hc⟩ := List.append_inj' hall rfl
    rw [hrootfs] at he
    obtain ⟨rfl, rfl⟩ : Fs.host = f ∧ pwd ++ ["rootfs"] = d := by
      simpa [Mounts.entry, Mounts.mount?, hm, hostMounts, rootMount, scriptMount] using he
    exact ⟨rfl, by rw [hc]⟩
  · have hpre : es <+: pwd := by
      rcases List.prefix_concat_iff.mp hp with hall | hp
      · rw [(List.append_inj' hall rfl).1]
      · exact (List.prefix_append es [c]).trans hp
    rw [hstraight es hpre] at he
    obtain ⟨rfl, rfl⟩ : Fs.host = f ∧ es = d := by
      simpa [Mounts.entry, Mounts.mount?, hm, hostMounts, rootMount, scriptMount] using he
    rcases Tree.isDir_of_prefix hA hp with hnil | hd
    · simp at hnil
    · rw [hn] at hd
      cases hd

/-- `.oldroot` is a directory of rootfs again, and is removed where nothing stands in it. -/
theorem remove_oldroot (hm : ns.mounts = ownMounts pwd dir) (hr : ns.root = ⟨2, []⟩)
    (hold : (ns.tree .host).isDir (pwd ++ ["rootfs"] ++ [".oldroot"])) :
    Mounts.SameFiles ns ((ns.remove [".oldroot"]).getD ns) ∧
      (∀ q, (((ns.remove [".oldroot"]).getD ns).tree .host).isDir q ↔ (ns.tree .host).isDir q ∧
        (q = pwd ++ ["rootfs"] ++ [".oldroot"] → ¬ (ns.tree .host).Childless q)) ∧
      ((ns.remove [".oldroot"]).getD ns).tree .proc = ns.tree .proc := by
  have hentry : ∀ q, ns.entry ⟨2, q⟩ = some (.host, pwd ++ ["rootfs"] ++ q) := fun q => by
    simp [Mounts.entry, Mounts.mount?, hm, ownMounts, scriptMount]
  have hroot : ns.isDir ⟨2, []⟩ := by
    refine ⟨_, hentry [], ?_⟩
    rw [List.append_nil]
    exact Tree.isDir_of_prefix hold (List.prefix_append _ _)
  have hresolve : ns.resolve true [".oldroot"] = some ⟨2, [".oldroot"]⟩ := by
    rw [Mounts.resolve, if_pos rfl, hr, Mounts.walk, if_pos hroot, Mounts.walk]
    simp [Mounts.step, Mounts.cross, hm, ownMounts, scriptMount]
  have hmem : pwd ++ ["rootfs"] ++ [".oldroot"] ∈ (ns.tree .host).nodes := by
    rcases hold with hnil | hd
    · simp at hnil
    · exact AList.lookup_isSome.mp (by rw [hd]; rfl)
  obtain ⟨hhost, hother⟩ := Mounts.tree_remove hresolve (by simp) (hentry _) hmem
  refine ⟨Mounts.sameFiles_remove fun p hp => ?_, hhost, hother .proc (by decide)⟩
  obtain rfl := Option.some.inj (hresolve.symm.trans hp)
  exact ⟨_, hentry _, hold⟩

/-- What `pivotRoot` leaves: rootfs as the root, with the directory of the script on `/app`. -/
theorem pivotRoot_spec (hm : ns.mounts = [rootMount, scriptMount pwd dir]) (hr : ns.root = ⟨0, []⟩)
    (hfresh : ns.fresh = 2) (hpwd : ∀ c ∈ pwd, Proper c)
    (h : pivotRoot (pwd ++ ["rootfs"]) ns = some ns') :
    ns'.mounts = ownMounts pwd dir ∧ ns'.fresh = 4 ∧ ns'.root = ⟨2, []⟩ ∧ ns'.cwd = ⟨2, []⟩ ∧
      (∀ f q, (ns'.tree f).content q = (ns.tree f).content q) ∧
      (∀ q, (ns'.tree .host).isDir q ↔ (ns.tree .host).isDir q ∧
        (q = pwd ++ ["rootfs"] ++ [".oldroot"] → ¬ (ns.tree .host).Childless q)) ∧
      ∀ q, (ns'.tree .proc).isDir q ↔ (ns.tree .proc).isDir q := by
  simp only [pivotRoot, Option.bind_eq_bind, Option.bind_eq_some_iff] at h
  obtain ⟨n1, h1, n3, h3, n4, h4, n5, h5, h6⟩ := h
  obtain rfl := Option.some.inj h6
  obtain ⟨hm1, hf1, hr1, ht1, hA⟩ := bind_self hm hr hfresh hpwd h1
  have h2 := @Mounts.sameFiles_mkdirAll _ n1 _ (pwd ++ ["rootfs"] ++ [".oldroot"])
  have hgrown := grown_oldroot hm1 (hr1.trans hr) hpwd (ht1 ▸ hA)
  generalize (n1.mkdirAll (pwd ++ ["rootfs"] ++ [".oldroot"])).getD n1 = n2 at h2 h3 hgrown
  obtain ⟨hdir, ht3, hf3, hr3, hm3⟩ :=
    pivot_host (h2.mounts.trans hm1) (h2.root.trans (hr1.trans hr)) hpwd h3
  simp only [Mounts.chdir, Mounts.resolve, if_true, Mounts.walk, Option.bind_eq_bind, Option.bind_some] at h4
  split at h4
  case isFalse => cases h4
  obtain rfl := Option.some.inj h4
  have h5' := @detach_host { n3 with cwd := n3.root } _ _ _ hm3 hr3 h5
  have hold : (n2.tree .host).isDir (pwd ++ ["rootfs"] ++ [".oldroot"]) := by
    obtain ⟨e, he, hd⟩ := hdir
    obtain rfl : (Fs.host, pwd ++ ["rootfs"] ++ [".oldroot"]) = e := by
      simpa [Mounts.entry, Mounts.mount?, h2.mounts.trans hm1, hostMounts, rootMount, scriptMount] using he
    exact hd
  have ht5 : n5.tree = n2.tree := by rw [h5', ← ht3]
  obtain ⟨h6, hhost, hproc⟩ := @remove_oldroot n5 pwd dir (by rw [h5']) (by rw [h5']; exact hr3) (ht5 ▸ hold)
  have hr5 : n5.root = ⟨2, []⟩ := by rw [h5', ← hr3]
  have hc5 : n5.cwd = ⟨2, []⟩ := by rw [h5', ← hr3]
  have hf5 : n5.fresh = 4 := by rw [h5', ← hf1, ← h2.fresh, ← hf3]
  refine ⟨h6.mounts.trans (by rw [h5']), h6.fresh.trans hf5, h6.root.trans hr5, h6.cwd.trans hc5,
    fun f q => (h6.content f q).trans ?_, fun q => ?_, fun q => ?_⟩
  · rw [ht5, h2.content f q, ht1]
  · -- made just before, or empty: it goes
    have hmade := hgrown .host
    rw [ht1] at hmade
    rw [ht5] at hhost
    exact hmade.isDir_of_removed (fun p hp => hp.2) hold (by simp) hhost
  · rw [hproc, ht5, (hgrown .proc).isDir_iff fun p hp => absurd hp.1 (by decide), ht1]
    simp

/-- The mounts when python3 starts. -/
def scriptMounts (pwd dir : Path) : List (Mount Fs) :=
  ownMounts pwd dir ++ [⟨4, .proc, [], some ⟨2, ["proc"]⟩⟩]

/-- Where a path of the container without `.` and `..` leads. -/
def inside : Path → Place
  | "app" :: q => ⟨3, q⟩
  | "proc" :: q => ⟨4, q⟩
  | q => ⟨2, q⟩

theorem inside_of_ne {x : String} {q : Path} (h : x ≠ "app" ∧ x ≠ "proc") : inside (x :: q) = ⟨2, x :: q⟩ := by
  unfold inside
  split
  · rename_i he
    exact absurd (List.cons.inj he).1 h.1
  · rename_i he
    exact absurd (List.cons.inj he).1 h.2
  · rfl

theorem cross_own (hm : ns.mounts = scriptMounts pwd dir) (q : Path) :
    ns.cross ⟨2, q⟩ = if q = ["app"] then ⟨3, []⟩ else if q = ["proc"] then ⟨4, []⟩ else ⟨2, q⟩ := by
  by_cases happ : q = ["app"]
  · simp [Mounts.cross, hm, scriptMounts, ownMounts, scriptMount, happ]
  by_cases hproc : q = ["proc"]
  · simp [Mounts.cross, hm, scriptMounts, ownMounts, scriptMount, hproc]
  · rw [if_neg happ, if_neg hproc]
    refine Mounts.cross_eq_self ?_
    simp [hm, scriptMounts, ownMounts, scriptMount, Ne.symm happ, Ne.symm hproc]

theorem cross_above (hm : ns.mounts = scriptMounts pwd dir) {k : Nat} (hk : 2 < k) (q : Path) :
    ns.cross ⟨k, q⟩ = ⟨k, q⟩ := by
  refine Mounts.cross_eq_self ?_
  simp [hm, scriptMounts, ownMounts, scriptMount]
  omega

/-- Within what is mounted on a directory of the container. -/
theorem step_above (hm : ns.mounts = scriptMounts pwd dir) (hr : ns.root = ⟨2, []⟩) {k : Nat}
    {name : String} (hk : k = 3 ∧ name = "app" ∨ k = 4 ∧ name = "proc") (q : Path) (c : String) :
    ns.step ⟨k, q⟩ c = inside (stepName (name :: q) c) := by
  have hkeep : ∀ q, inside (name :: q) = ⟨k, q⟩ := by
    rcases hk with ⟨rfl, rfl⟩ | ⟨rfl, rfl⟩ <;> exact fun _ => rfl
  have hlt : 2 < k := by omega
  have hroot : (⟨k, q⟩ : Place) ≠ ⟨2, []⟩ := by
    simp only [ne_eq, Place.mk.injEq, not_and]
    omega
  have hpoint : (ns.mount? k).bind Mount.point = some ⟨2, [name]⟩ := by
    rcases hk with ⟨rfl, rfl⟩ | ⟨rfl, rfl⟩ <;>
      simp [Mounts.mount?, hm, scriptMounts, ownMounts, scriptMount]
  unfold Mounts.step stepName Mounts.up
  rw [hr]
  split
  · exact (hkeep q).symm
  split
  · cases q with
    | nil => simp [hpoint, cross_own hm, inside]
    | cons x q => simp [cross_above hm hlt, hkeep]
  · rw [cross_above hm hlt, List.cons_append, hkeep]

/-- One step of a path in the container. -/
theorem step_inside (hm : ns.mounts = scriptMounts pwd dir) (hr : ns.root = ⟨2, []⟩) (q : Path)
    (c : String) : ns.step (inside q) c = inside (stepName q c) := by
  cases q with
  | nil =>
    unfold Mounts.step stepName Mounts.up
    rw [hr]
    split
    · rfl
    split
    · rfl
    · change ns.cross ⟨2, [c]⟩ = inside [c]
      rw [cross_own hm]
      by_cases happ : c = "app"
      · subst c
        rfl
      by_cases hproc : c = "proc"
      · subst c
        rfl
      · simp [happ, hproc, inside_of_ne]
  | cons x q =>
    by_cases happ : x = "app"
    · subst x
      exact step_above hm hr (.inl ⟨rfl, rfl⟩) q c
    by_cases hproc : x = "proc"
    · subst x
      exact step_above hm hr (.inr ⟨rfl, rfl⟩) q c
    rw [inside_of_ne ⟨happ, hproc⟩]
    have hkeep : ∀ q, ns.cross ⟨2, x :: q⟩ = inside (x :: q) := by
      intro q
      simp [cross_own hm, inside_of_ne, happ, hproc]
    unfold Mounts.step stepName Mounts.up
    rw [hr]
    split
    · exact (inside_of_ne ⟨happ, hproc⟩).symm
    split
    · cases q with
      | nil => simp [cross_own hm, inside]
      | cons y q => simp [hkeep]
    · exact hkeep _

/-- The directories of the host when the container stands: rootfs has its `app` and its
`proc`, and an `.oldroot` only where something stands in it. -/
def Furnished (t : Files.Tree) (rootfs q : Path) : Prop :=
  q = rootfs ∨ q = rootfs ++ ["app"] ∨ q = rootfs ++ ["proc"] ∨
    t.isDir q ∧ (q = rootfs ++ [".oldroot"] → ¬ t.Childless q)

instance (t : Files.Tree) (rootfs q : Path) : Decidable (Furnished t rootfs q) :=
  inferInstanceAs (Decidable (_ ∨ _ ∨ _ ∨ _ ∧ (_ → _)))

/-- The place for the script is made in rootfs. -/
theorem grown_app {t tp : Files.Tree} (hpwd : t.isDir pwd) (f : Fs) :
    Tree.Grown (fun q => f = .host ∧ (q = pwd ++ ["rootfs"] ∨ q = pwd ++ ["rootfs"] ++ ["app"]))
      ((onHost t tp pwd).tree f)
      ((((onHost t tp pwd).mkdirAll (pwd ++ ["rootfs"] ++ ["app"])).getD (onHost t tp pwd)).tree f) := by
  refine (Mounts.grown_mkdirAll _ f).mono fun q hq hn => ?_
  obtain ⟨es, c, d, hes, he, rfl⟩ := hq
  have hproper : ∀ c ∈ es, Proper c := by
    intro c' hc'
    have hmem := hes.subset (List.mem_append_left [c] hc')
    simp only [List.mem_append, List.mem_singleton] at hmem
    rcases hmem with (hmem | rfl) | rfl
    · exact Tree.proper_of_isDir hpwd c' hmem
    · decide
    · decide
  have hplace : es.foldl (onHost t tp pwd).step ⟨0, []⟩ = ⟨0, [] ++ es⟩ :=
    Mounts.foldl_step hproper fun _ _ _ => Mounts.cross_eq_self (by simp [onHost])
  have he : (onHost t tp pwd).entry (es.foldl (onHost t tp pwd).step ⟨0, []⟩) = some (f, d) := he
  rw [hplace, entry_host rfl] at he
  obtain ⟨rfl, rfl⟩ := Prod.mk.inj (Option.some.inj he)
  refine ⟨rfl, ?_⟩
  rcases List.prefix_concat_iff.mp hes with hall | hes
  · exact .inr hall
  rcases List.prefix_concat_iff.mp hes with hall | hes
  · exact .inl hall
  · rcases Tree.isDir_of_prefix hpwd hes with hnil | hd
    · simp at hnil
    · have hd' : t.nodes.lookup ([] ++ es ++ [c]) = some .dir := hd
      have hn' : t.nodes.lookup ([] ++ es ++ [c]) = none := hn
      rw [hd'] at hn'
      cases hn'

/-- The place for /proc is made in rootfs. -/
theorem grown_proc (hm : ns.mounts = ownMounts pwd dir) (hr : ns.root = ⟨2, []⟩) (f : Fs) :
    Tree.Grown (fun q => f = .host ∧ q = pwd ++ ["rootfs"] ++ ["proc"]) (ns.tree f)
      (((ns.mkdirAll ["proc"]).getD ns).tree f) := by
  refine (Mounts.grown_mkdirAll _ f).mono fun q hq hn => ?_
  obtain ⟨es, c, d, hes, he, rfl⟩ := hq
  obtain ⟨rfl, hc⟩ : es = [] ∧ c = "proc" := by
    cases es with
    | nil => simpa using hes
    | cons e es => simpa using hes.length_le
  rw [List.foldl_nil, hr] at he
  obtain ⟨rfl, rfl⟩ : Fs.host = f ∧ pwd ++ ["rootfs"] = d := by
    simpa [Mounts.entry, Mounts.mount?, hm, ownMounts, scriptMount] using he
  exact ⟨rfl, by rw [hc]⟩

/-- The directories when rootfs has got its `app`, has lost an empty `.oldroot` and has got its `proc`. -/
theorem furnished_iff {t t₁ t₂ t₃ : Files.Tree} {r : Path}
    (h₁ : Tree.Grown (fun q => q = r ∨ q = r ++ ["app"]) t t₁) (happ : t₁.isDir (r ++ ["app"]))
    (h₂ : ∀ q, t₂.isDir q ↔ t₁.isDir q ∧ (q = r ++ [".oldroot"] → ¬ t₁.Childless q))
    (h₃ : Tree.Grown (fun q => q = r ++ ["proc"]) t₂ t₃) (hproc : t₃.isDir (r ++ ["proc"])) {q : Path} :
    t₃.isDir q ↔ Furnished t r q := by
  have hmade : ∀ p, p = r ∨ p = r ++ ["app"] → t₁.isDir p := by
    intro p hp
    rcases hp with rfl | rfl
    · exact Tree.isDir_of_prefix happ (List.prefix_append _ _)
    · exact happ
  have hbelow : t₁.Childless (r ++ [".oldroot"]) ↔ t.Childless (r ++ [".oldroot"]) := by
    refine h₁.childless_iff fun p hp he => ?_
    rcases hp with rfl | rfl
    · simpa using congrArg List.length he
    · simpa using congrArg List.length he
  rw [h₃.isDir_iff fun q hq => hq ▸ hproc, h₂, h₁.isDir_iff hmade, Furnished]
  by_cases hq : q = r ++ [".oldroot"]
  · subst q
    rw [hbelow]
    simp
  · simp only [hq, false_implies, and_true]
    tauto

/-- What python3 finds: the own files of rootfs, the directory of the script, and /proc. -/
theorem runContainerInit_spec {t tp : Files.Tree} {servicePath : String} (hpwd : t.isDir pwd)
    (h : runContainerInit pwd servicePath (onHost t tp pwd) = some ns) :
    ns.mounts = scriptMounts pwd
        ((dirNames servicePath).foldl stepName (if isRooted servicePath then [] else pwd)) ∧
      ns.root = ⟨2, []⟩ ∧ ns.cwd = ⟨2, []⟩ ∧
      (∀ f q, (ns.tree f).content q = ((onHost t tp pwd).tree f).content q) ∧
      (∀ q, (ns.tree .host).isDir q ↔ Furnished t (pwd ++ ["rootfs"]) q) ∧
      ∀ q, (ns.tree .proc).isDir q ↔ tp.isDir q := by
  simp only [runContainerInit, Option.bind_eq_bind, Option.bind_eq_some_iff] at h
  obtain ⟨n2, h2, n3, h3, h5⟩ := h
  have h1 := @Mounts.sameFiles_mkdirAll _ (onHost t tp pwd) _ (pwd ++ ["rootfs"] ++ ["app"])
  have hgrown1 := @grown_app pwd t tp hpwd
  generalize ((onHost t tp pwd).mkdirAll (pwd ++ ["rootfs"] ++ ["app"])).getD (onHost t tp pwd) = n1
    at h1 h2 hgrown1
  have htarget : ∀ c ∈ pwd ++ ["rootfs"] ++ ["app"], Proper c := by
    intro c hc
    simp only [List.mem_append, List.mem_singleton] at hc
    rcases hc with (hc | rfl) | rfl
    · exact Tree.proper_of_isDir hpwd c hc
    · decide
    · decide
  have hstart : (if isRooted servicePath then n1.root else n1.cwd) =
      ⟨0, if isRooted servicePath then [] else pwd⟩ := by
    rw [h1.root, h1.cwd]
    split <;> rfl
  obtain ⟨hm2, hf2, hr2, ht2, happ⟩ := bind_host h1.mounts h1.root hstart htarget h2
  have hdir := (@foldl_cleanStep (isRooted servicePath) (if isRooted servicePath then [] else pwd)
    (fun h => if_pos h) (dirNames servicePath)).2
  have hmounts : n2.mounts = [rootMount, scriptMount pwd
      ((dirNames servicePath).foldl stepName (if isRooted servicePath then [] else pwd))] := by
    rw [hm2, h1.fresh, dir, hdir]
    rfl
  obtain ⟨hm3, hf3, hr3, hc3, hcont3, hdirs3, hproc3⟩ := pivotRoot_spec hmounts (hr2.trans h1.root)
    (hf2.trans (congrArg (· + 1) h1.fresh)) (Tree.proper_of_isDir hpwd) h3
  have h4 := @Mounts.sameFiles_mkdirAll _ n3 _ ["proc"]
  have hgrown4 := grown_proc hm3 hr3
  generalize (n3.mkdirAll ["proc"]).getD n3 = n4 at h4 h5 hgrown4
  simp only [Mounts.mountFs, Option.bind_eq_bind, Option.bind_eq_some_iff, Mounts.resolve, if_true,
    h4.root.trans hr3, Mounts.walk] at h5
  obtain ⟨d, hd, h5⟩ := h5
  split at hd
  case isFalse => cases hd
  obtain rfl : d = ⟨2, ["proc"]⟩ := by
    simpa [Mounts.step, Mounts.cross, h4.mounts.trans hm3, ownMounts, scriptMount] using hd.symm
  split at h5
  case isFalse => cases h5
  rename_i hplace
  obtain rfl := Option.some.inj h5
  have hproc : (n4.tree .host).isDir (pwd ++ ["rootfs"] ++ ["proc"]) := by
    obtain ⟨e, he, hd⟩ := hplace.1
    obtain rfl : (Fs.host, pwd ++ ["rootfs"] ++ ["proc"]) = e := by
      simpa [Mounts.entry, Mounts.mount?, h4.mounts.trans hm3, ownMounts, scriptMount] using he
    exact hd
  refine ⟨?_, rfl, h4.cwd.trans hc3, fun f q => ?_, fun q => ?_, fun q => ?_⟩
  · simp only [h4.mounts, hm3, h4.fresh, hf3, scriptMounts]
  · change (n4.tree f).content q = _
    rw [h4.content, hcont3, ht2, h1.content]
  · change (n4.tree .host).isDir q ↔ _
    rw [ht2] at hdirs3
    exact furnished_iff ((hgrown1 .host).mono fun _ hp _ => hp.2) happ hdirs3
      ((hgrown4 .host).mono fun _ hp _ => hp.2) hproc
  · change (n4.tree .proc).isDir q ↔ _
    rw [(hgrown4 .proc).isDir_iff fun p hp => absurd hp.1 (by decide), hproc3, ht2,
      (hgrown1 .proc).isDir_iff fun p hp => absurd hp.1 (by decide)]
    simp [onHost]

theorem entry_inside (hm : ns.mounts = scriptMounts pwd dir) (q : Path) : ns.entry (inside q) =
    some (match q with
      | "app" :: q => (.host, dir ++ q)
      | "proc" :: q => (.proc, q)
      | q => (.host, pwd ++ ["rootfs"] ++ q)) := by
  unfold inside
  split <;> simp [Mounts.entry, Mounts.mount?, hm, scriptMounts, ownMounts, scriptMount]

end Mounting

end PrivatePaas
