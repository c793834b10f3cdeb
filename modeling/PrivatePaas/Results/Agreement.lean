import PrivatePaas.Code.Cmd
import PrivatePaas.Registry.Removal
import PrivatePaas.Results.Updates

/-!
# One file for writer, reader and remover

`UpdateLbConfig` cleans the path of a fragment before it writes it, `runCreate` records
the path as it is, and the kernel walks the recorded path one directory at a time.
-/

namespace PrivatePaas
set_option autoImplicit false
open Files Text Effects Go Network Prog PrivatePaas.Parser

variable {Y : Yaml} {G : GoIpam} {t t' : Tree}

section Result
variable {s : Service} {l : Local} {w : World} {f : Nat → Choice} {v : Tree}

theorem serviceConfPath_of_walk {u n : String} (hn : Proper n) (hsplit : split '/' (u ++ ".yaml") = passage u ++ [n])
    (h : v.walk [] (envoyConfDir ++ passage u) = .ok envoyConfDir) : serviceConfPath u = envoyConfDir ++ [n] := by
  rw [serviceConfPath, hsplit, ← List.append_assoc, clean_concat _ hn, ← eq_clean_of_walk h]

/-- The file that a call from `t₀` to `t` writes is a fragment that the call lists and renders,
and the one that is removed from `v` by its recorded name; no other yaml file changes. -/
structure Agreed (Y : Yaml) (s : Service) (ip : String) (t₀ t v : Tree) : Prop where
  listed : ∃ n, serviceConfPath s.lbConfig.upstreamName = envoyConfDir ++ [n] ∧ n ∈ t.glob envoyConfDir ".yaml"
  fragment : s.lbConfig ∈ fragments Y t
  rendered : t.content envoyConfig = some (rendering Y t)
  others : ∀ q, YamlFile q → q ≠ serviceConfPath s.lbConfig.upstreamName → q ≠ envoyConfig →
    t.content q = t₀.content q
  removed : ∃ v', v.remove (split '/' (Cmd.serviceEntry s ip).configFileName) = some v' ∧
    ∀ q, v'.content q = if q = serviceConfPath s.lbConfig.upstreamName then none else v.content q

/-- The writer, the reader and the remover of a fragment agree on its file exactly if the
directories in the upstream's name are there when it is removed and lead back to the
directory of the fragments. -/
theorem fragment_agreed_iff (hY : Y.Lawful) (ip : String) (hlb : s.lb = true) (running : Running l w)
    (smooth : ∀ k, Smooth (f k))
    (returns : ((Host Y G).exec f l w (updateLbConfig Y s.lbConfig)).result = some ())
    (hv : (v.content (serviceConfPath s.lbConfig.upstreamName)).isSome) :
    Agreed Y s ip w.fs ((Host Y G).exec f l w (updateLbConfig Y s.lbConfig)).world.fs v ↔
      v.walk [] (envoyConfDir ++ passage s.lbConfig.upstreamName) = .ok envoyConfDir := by
  have hr := @rewritten_of_exec Y G s.lbConfig l w f running smooth returns
  generalize ((Host Y G).exec f l w (updateLbConfig Y s.lbConfig)).world.fs = t at hr
  obtain ⟨n, hsplit, hn, hyaml⟩ := split_yaml s.lbConfig.upstreamName
  obtain ⟨data, hdata⟩ := Option.isSome_iff_exists.mp hv
  have hname : (Cmd.serviceEntry s ip).configFileName = Cmd.envoyConfigPath s.lbConfig.upstreamName := if_pos hlb
  constructor
  · intro h
    obtain ⟨m, hm, _⟩ := h.listed
    obtain ⟨v', hremove, hcontent⟩ := h.removed
    obtain ⟨q, hw, hc⟩ := Tree.remove_spec hremove
    have hq : q = envoyConfDir ++ [m] := by
      have hgone := hcontent (serviceConfPath s.lbConfig.upstreamName)
      rw [if_pos rfl, hc, hdata] at hgone
      split at hgone
      · rw [← ‹_ = q›, hm]
      · cases hgone
    rw [hname, walk_configPath, hsplit, ← List.append_assoc] at hw
    obtain ⟨d, hd, hwalk, _⟩ := Tree.walk_concat hn hw
    rw [hq] at hd
    rw [hwalk, (List.append_inj' hd rfl).1]
  · intro hwalk
    have hpath := serviceConfPath_of_walk hn hsplit hwalk
    have hne : serviceConfPath s.lbConfig.upstreamName ≠ envoyConfig := IsFragment.ne_config ⟨n, hpath, hyaml⟩
    have hstored := hr.stored hne
    have hothers := hr.others
    rw [hpath] at hstored hdata hothers
    have hfile : n ∈ t.files envoyConfDir ".yaml" := Tree.mem_files.mpr ⟨hyaml, by rw [hstored]; rfl⟩
    have hlisted : n ∈ t.glob envoyConfDir ".yaml" := by
      rw [← Tree.filter_glob proper_confDir hr.dir] at hfile
      exact (List.mem_filter.mp hfile).1
    have hfragment : s.lbConfig ∈ fragments Y t := by
      refine List.mem_filterMap.mpr ⟨n, hfile, ?_⟩
      rw [hstored, Option.bind_some, hY.config]
    have hw : v.walk [] (split '/' (Cmd.envoyConfigPath s.lbConfig.upstreamName)) = .ok (envoyConfDir ++ [n]) := by
      have hdir : v.isDir envoyConfDir := by
        have hparent := (v.fits _ (Tree.mem_of_content hdata)).parent
        rwa [List.dropLast_concat] at hparent
      rw [walk_configPath, hsplit, ← List.append_assoc, Tree.walk_append, hwalk]
      exact Tree.walk_proper hn hdir
    refine ⟨⟨n, hpath, hlisted⟩, hfragment, hr.text, ?_, ?_⟩
    · rw [hpath]
      exact hothers
    · rw [hname, hpath]
      exact remove_of_walk hw hdata

theorem shop_agreed : ∃ t : Tree, Agreed Sample.yaml Sample.shop.service "10.0.0.1" Sample.tree t t := by
  have hreturns : (updateOn Sample.tree Sample.shop.service.lbConfig).result = some () := by decide +kernel
  have hv : ((World.fs (updateOn Sample.tree Sample.shop.service.lbConfig).world).content
      (serviceConfPath "shop")).isSome := by decide +kernel
  have hwalk : (World.fs (updateOn Sample.tree Sample.shop.service.lbConfig).world).walk []
      (envoyConfDir ++ passage "shop") = .ok envoyConfDir := by decide +kernel
  unfold updateOn at hreturns hv hwalk
  have h := fragment_agreed_iff (Y := Sample.yaml) (G := lowestFree) (s := Sample.shop.service) (f := plainly)
    Sample.yaml_lawful "10.0.0.1" rfl (caller_running Sample.tree) (fun _ => rfl) hreturns hv
  exact ⟨_, h.mpr hwalk⟩

/-- A name with `..` in front puts the file next to the directory of the fragments. -/
theorem upward_disagrees : ∃ s : Service, s.lb = true ∧
    (updateOn Sample.tree s.lbConfig).result = some () ∧
    ((World.fs (updateOn Sample.tree s.lbConfig).world).content (serviceConfPath s.lbConfig.upstreamName)).isSome ∧
    ¬ Agreed Sample.yaml s "10.0.0.1" Sample.tree (World.fs (updateOn Sample.tree s.lbConfig).world)
      (World.fs (updateOn Sample.tree s.lbConfig).world) := by
  refine ⟨{ Sample.shop.service with lbConfig := { Sample.shop.service.lbConfig with upstreamName := "../shop" } },
    rfl, by decide +kernel, by decide +kernel, fun h => ?_⟩
  obtain ⟨n, hn, _⟩ := h.listed
  have hlength := congrArg List.length hn
  rw [List.length_append, List.length_singleton] at hlength
  exact absurd hlength (by decide +kernel)

end Result
end PrivatePaas
