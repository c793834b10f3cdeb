import PrivatePaas.Host.World

/-!
# What file operations do to one file

A file changes only under an operation whose path ends in the name of that file, or by
its removal.
-/

namespace PrivatePaas
set_option autoImplicit false
open Files Text Effects Network PrivatePaas.Parser

/-- The last name of the path, one that a directory entry can have. -/
def Named (p : Path) (n : String) : Prop := Proper n ∧ ∃ d, p = d ++ [n]

theorem Named.concat {d : Path} {n : String} (h : Proper n) : Named (d ++ [n]) n := ⟨h, d, rfl⟩

theorem Named.unique {p : Path} {m n : String} (hm : Named p m) (hn : Named p n) : m = n := by
  obtain ⟨_, d, rfl⟩ := hm
  obtain ⟨_, d', h⟩ := hn
  obtain ⟨_, h⟩ := List.append_inj' h rfl
  simpa using h

namespace FsOp

/-- The paths that an operation writes to. -/
def Writes : FsOp → Path → Prop
  | writeFile p _, q | create p, q | write p _, q | openAppend p, q | append p _, q => q = p
  | initdb _ dir, q => q = clean (dir ++ ["PG_VERSION"]) ∨ q = clean (dir ++ ["pg_hba.conf"])
  | _, _ => False

/-- The files of a database cluster have these names. -/
theorem named_of_initdb {bin : String} {dir p : Path} {P : String → Prop}
    (hp : (initdb bin dir).Writes p) (h : P "PG_VERSION" ∧ P "pg_hba.conf") : ∃ n, Named p n ∧ P n := by
  rcases hp with rfl | rfl
  · rw [clean_concat dir (by decide : Proper "PG_VERSION")]
    exact ⟨_, .concat (by decide), h.1⟩
  · rw [clean_concat dir (by decide : Proper "pg_hba.conf")]
    exact ⟨_, .concat (by decide), h.2⟩

section Content
variable {c : Choice} {cwd : Path} {t t' : Tree} {p q : Path} {m n : String}

theorem update_named {f : Option String → String} (h : t.update p f = some t') (hp : Named p n) :
    ∃ q, Named q n ∧ t.walk [] p = .ok q ∧
      ∀ q', t'.content q' = if q' = q then some (f (t.content q)) else t.content q' := by
  obtain ⟨q, hw, _, _, hc, _⟩ := Tree.update_spec h
  obtain ⟨hn, d, rfl⟩ := hp
  obtain ⟨d', rfl, _, _⟩ := Tree.walk_concat hn hw
  exact ⟨d' ++ [n], .concat hn, hw, hc⟩

theorem update_content {f : Option String → String} (h : t.update p f = some t') (hp : Named p n)
    (hq : Named q m) (hne : m ≠ n) : t'.content q = t.content q := by
  obtain ⟨q', hq', _, hc⟩ := update_named h hp
  rw [hc, if_neg]
  rintro rfl
  exact hne (hq.unique hq')

theorem store_content {f : Option String → String} (hp : Named p n) (hq : Named q m) (hne : m ≠ n) :
    (store t p f).2.content q = t.content q := by
  unfold store
  cases h : t.update p f with
  | none => rfl
  | some t' => exact update_content h hp hq hne

/-- A file that no written path ends in the name of stays, or is removed. -/
theorem perform_content (o : FsOp) (hq : Named q m) (h : ∀ p, o.Writes p → ∃ n, Named p n ∧ m ≠ n) :
    (o.perform c cwd t).2.content q = t.content q ∨
      ∃ p, o = .remove p ∧ (o.perform c cwd t).2.content q = none := by
  cases o with
  | writeFile p data =>
    obtain ⟨n, hp, hne⟩ := h p rfl
    exact .inl (store_content hp hq hne)
  | create p =>
    obtain ⟨n, hp, hne⟩ := h p rfl
    exact .inl (store_content hp hq hne)
  | write p data =>
    obtain ⟨n, hp, hne⟩ := h p rfl
    left
    simp only [perform]
    split
    · rfl
    · exact store_content hp hq hne
  | openAppend p =>
    obtain ⟨n, hp, hne⟩ := h p rfl
    exact .inl (store_content hp hq hne)
  | append p data =>
    obtain ⟨n, hp, hne⟩ := h p rfl
    exact .inl (store_content hp hq hne)
  | remove p =>
    simp only [perform]
    cases hr : t.remove p with
    | none => exact .inl rfl
    | some t' =>
      obtain ⟨q', _, hc⟩ := Tree.remove_spec hr
      by_cases hqq : q = q'
      · exact .inr ⟨p, rfl, (hc q).trans (if_pos hqq)⟩
      · exact .inl ((hc q).trans (if_neg hqq))
  | mkdirAll p =>
    left
    simp only [perform]
    cases hm : t.mkdirs [] p with
    | none => rfl
    | some t' => exact (Tree.mkdirs_spec hm).1 q
  | initdb bin dir =>
    obtain ⟨n, hp, hne⟩ := h _ (.inl rfl)
    obtain ⟨n', hp', hne'⟩ := h _ (.inr rfl)
    left
    simp only [perform, clusterFiles]
    cases h1 : t.update (clean (dir ++ ["PG_VERSION"])) fun _ => "14\n" with
    | none => rfl
    | some t1 =>
      simp only [Option.bind_some]
      cases h2 : t1.update (clean (dir ++ ["pg_hba.conf"])) fun _ => c.text with
      | none => rfl
      | some t2 => exact (update_content h2 hp' hq hne').trans (update_content h1 hp hq hne)
  | _ => exact .inl rfl

end Content
end FsOp

section PidFile

theorem pidFile_named : Named envoyPidFile "envoy-paas.pid" := .concat (d := ["run"]) (by decide)

theorem Harmless.named {p : Path} (h : Harmless p) : ∃ n, Named p n ∧ "envoy-paas.pid" ≠ n := by
  obtain ⟨d, n, rfl, hn, hne, _⟩ := h
  exact ⟨n, .concat hn, hne.symm⟩

theorem YamlFile.named {p : Path} (h : YamlFile p) : ∃ n, Named p n ∧ "envoy-paas.pid" ≠ n := by
  obtain ⟨d, n, rfl, hn, hy⟩ := h
  refine ⟨n, .concat hn, ?_⟩
  rintro rfl
  exact absurd hy (by decide)

end PidFile
end PrivatePaas
