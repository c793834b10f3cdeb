import PrivatePaas.Code.List
import PrivatePaas.Registry.Filing
import PrivatePaas.Registry.Tidy
import PrivatePaas.Results.Sample

/-!
# What `list` tells

While other invocations go on, each line that `list` prints was true when its record was
read, no workload stands in two lines, and one that is registered all the time stands in one.
-/

namespace PrivatePaas
set_option autoImplicit false
open Files Text Effects Network Prog PrivatePaas.Parser

variable {Y : Yaml} {G : GoIpam} {ι : Type}

section Keys

/-- What a pattern of Redis matches whose only wildcard is `*`. -/
def globMatch : List Char → List Char → Bool
  | [], s => s.isEmpty
  | '*' :: p, s => s.tails.any (globMatch p)
  | c :: p, d :: s => c = d && globMatch p s
  | _ :: _, [] => false

/-- The answer of `KEYS`: the keys that match, each once, in some order. -/
def Matching (kv : String → Option Entry) (pattern : String) (ks : List String) : Prop :=
  ks.Nodup ∧ ∀ k, k ∈ ks ↔ (kv k).isSome ∧ globMatch pattern.toList k.toList = true

theorem globMatch_star (s : List Char) : globMatch ['*'] s = true := by
  simp only [globMatch, List.any_eq_true, List.mem_tails]
  exact ⟨[], List.nil_suffix, rfl⟩

/-- A pattern with one `*` behind its text matches what begins with the text. -/
theorem globMatch_append {p s : List Char} (hp : '*' ∉ p) : globMatch (p ++ ['*']) s = true ↔ p <+: s := by
  induction p generalizing s with
  | nil => simp [globMatch_star]
  | cons c p ih =>
    have hc : c ≠ '*' := fun h => hp (h ▸ List.mem_cons_self)
    have hrest : '*' ∉ p := fun h => hp (List.mem_cons_of_mem c h)
    cases s with
    | nil => simp [globMatch]
    | cons d s => simp [globMatch, ih hrest, List.cons_prefix_cons]

/-- What stands in front of the first colon, and what stands behind it. -/
theorem splitN_append {a b : String} (h : ':' ∉ a.toList) : Cmd.splitN ':' (a ++ ":" ++ b) = [a, b] := by
  have hspan : (a ++ ":" ++ b).toList.span (· ≠ ':') = (a.toList, ':' :: b.toList) := by
    have happ : (a ++ ":" ++ b).toList = a.toList ++ ':' :: b.toList := by
      simp [String.toList_append]
    rw [happ, List.span_eq_takeWhile_dropWhile]
    have hall : ∀ c ∈ a.toList, (decide (c ≠ ':')) = true := by
      intro c hc
      rw [decide_eq_true_eq]
      rintro rfl
      exact h hc
    rw [List.takeWhile_append_of_pos hall, List.dropWhile_append_of_pos hall]
    simp
  rw [Cmd.splitN, hspan]
  simp

end Keys
section Answers
variable [DecidableEq ι] {m : Machine (Host Y G) ι} {strict : Prop}

/-- What Redis can answer at one moment. With `strict` no call fails. -/
def Answer (strict : Prop) (w : World) : (o : Cmd.listSig.Op) × Cmd.listSig.Ret o → Prop
  | ⟨.keys pattern, ks⟩ => Matching w.kv pattern ks ∨ ¬ strict ∧ ks = ([] : List String)
  | ⟨.get key, r⟩ => r = (w.kv key).map Entry.value ∨ ¬ strict ∧ r = (none : Option String)

/-- The answers are given along a run: in front of each of them come some of its events. -/
inductive Told (strict : Prop) : Machine (Host Y G) ι → List ((o : Cmd.listSig.Op) × Cmd.listSig.Ret o) →
    List (Event (Host Y G) ι) → Prop where
  | over (m : Machine (Host Y G) ι) (es : List (Event (Host Y G) ι)) : Told strict m [] es
  | ask {m : Machine (Host Y G) ι} {x : (o : Cmd.listSig.Op) × Cmd.listSig.Ret o}
      {tr : List ((o : Cmd.listSig.Op) × Cmd.listSig.Ret o)} {es fs : List (Event (Host Y G) ι)}
      (answer : Answer strict (m.run es).world x) (rest : Told strict (m.run es) tr fs) :
      Told strict m (x :: tr) (es ++ fs)

/-- The key that a line stands for. -/
def Cmd.Row.key (r : Cmd.Row) : String := r.resourceType ++ ":" ++ r.resourceName

/-- The line says what stands in the registry. -/
def Cmd.Row.Tells (Y : Yaml) (w : World) (r : Cmd.Row) : Prop :=
  ∃ e, w.kv r.key = some e ∧ r.pid = (Y.decode e.value).pid ∧ r.ip = (Y.decode e.value).ip

theorem keyed_split {key : String} (h : Keyed key) : ∃ t n, (t = "service" ∨ t = "database") ∧
    Cmd.splitN ':' key = [t, n] ∧ key = t ++ ":" ++ n := by
  have hservice : "service" ++ ":" = "service:" := by decide
  have hdatabase : "database" ++ ":" = "database:" := by decide
  obtain ⟨n, h | h⟩ := h
  · have hkey : key = "service" ++ ":" ++ n := by rw [h, hservice, Cmd.serviceKey]
    exact ⟨"service", n, .inl rfl, hkey ▸ splitN_append (by decide), hkey⟩
  · have hkey : key = "database" ++ ":" ++ n := by rw [h, hdatabase, Cmd.databaseKey]
    exact ⟨"database", n, .inr rfl, hkey ▸ splitN_append (by decide), hkey⟩

/-- The line of a key that `list` has got a value for. -/
theorem listKey_eq {key val : String} (h : Keyed key) : ∃ r : Cmd.Row, Cmd.listKey Y key val = [r] ∧
    (r.resourceType = "service" ∨ r.resourceType = "database") ∧ r.key = key ∧
    r.pid = (Y.decode val).pid ∧ r.ip = (Y.decode val).ip := by
  obtain ⟨t, n, ht, hsplit, hkey⟩ := keyed_split h
  refine ⟨⟨t, n, (Y.decode val).pid, (Y.decode val).ip⟩, ?_, ht, hkey.symm, rfl, rfl⟩
  rw [Cmd.listKey, hsplit]

/-- The lines of these keys, as they are got one after another. -/
structure Reported (strict : Prop) (m : Machine (Host Y G) ι) (es : List (Event (Host Y G) ι)) (ks : List String)
    (rows : List Cmd.Row) : Prop where
  keys : (rows.map Cmd.Row.key).Sublist ks
  tells : ∀ r ∈ rows, (r.resourceType = "service" ∨ r.resourceType = "database") ∧
    ∃ fs, fs <+: es ∧ r.Tells Y (m.run fs).world
  complete : strict → ∀ k ∈ ks, (∀ fs, fs <+: es → World.kv (m.run fs).world k ≠ none) → ∃ r ∈ rows, r.key = k

/-- What is reported behind some events is reported. -/
theorem Reported.wait {es fs : List (Event (Host Y G) ι)} {ks : List String} {rows : List Cmd.Row}
    (h : Reported strict (m.run es) fs ks rows) : Reported strict m (es ++ fs) ks rows := by
  refine ⟨h.keys, fun r hr => ?_, fun hs k hk hall => ?_⟩
  · obtain ⟨ht, gs, hgs, hr⟩ := h.tells r hr
    exact ⟨ht, es ++ gs, (List.prefix_append_right_inj es).mpr hgs, Machine.run_append m es gs ▸ hr⟩
  · refine h.complete hs k hk fun gs hgs => ?_
    have hp := hall (es ++ gs) ((List.prefix_append_right_inj es).mpr hgs)
    rwa [Machine.run_append] at hp

theorem reported_listRows {ks : List String} (hks : ∀ k ∈ ks, Keyed k) {es : List (Event (Host Y G) ι)}
    {tr : List ((o : Cmd.listSig.Op) × Cmd.listSig.Ret o)} {rows : List Cmd.Row} (ht : Told strict m tr es)
    (ha : (Cmd.listRows Y ks).Answers tr rows) : Reported strict m es ks rows := by
  induction ks generalizing m es tr rows with
  | nil =>
    obtain ⟨_, rfl⟩ := ha.of_ret
    exact ⟨.refl _, fun r hr => absurd hr List.not_mem_nil, fun _ k hk => absurd hk List.not_mem_nil⟩
  | cons k ks ih =>
    have hrest : ∀ k' ∈ ks, Keyed k' := fun k' hk' => hks k' (List.mem_cons_of_mem k hk')
    obtain ⟨r, tr, rfl, hrun⟩ := ha.of_call
    cases ht with
    | ask answer rest =>
      rename_i es fs
      refine Reported.wait ?_
      cases r with
      | none =>
        have hr := ih hrest rest hrun
        refine ⟨hr.keys.cons k, hr.tells, fun hs k' hk' hall => ?_⟩
        rcases List.mem_cons.mp hk' with rfl | hk'
        · rcases answer with he | ⟨hn, _⟩
          · have hnone : World.kv (m.run es).world k' = none := by
              cases hkv : World.kv (m.run es).world k' with
              | none => rfl
              | some e =>
                rw [hkv] at he
                cases he
            exact absurd hnone (hall [] List.nil_prefix)
          · exact absurd hs hn
        · exact hr.complete hs k' hk' hall
      | some val =>
        have hrun : (Cmd.listRows Y ks >>= fun rows => ret (Cmd.listKey Y k val ++ rows)).Answers tr rows := hrun
        obtain ⟨tr₁, tr₂, rows', rfl, ha₁, ha₂⟩ := Answers.of_bind hrun
        obtain ⟨rfl, rfl⟩ := ha₂.of_ret
        rw [List.append_nil] at rest
        have hr := ih hrest rest ha₁
        obtain ⟨row, hrow, htype, hkey, hpid, hip⟩ := @listKey_eq Y k val (hks k List.mem_cons_self)
        have hval : ∃ e, World.kv (m.run es).world k = some e ∧ e.value = val := by
          rcases answer with he | ⟨_, he⟩
          · exact Option.map_eq_some_iff.mp he.symm
          · cases he
        obtain ⟨e, he, rfl⟩ := hval
        rw [hrow, List.singleton_append]
        refine ⟨?_, fun r hr' => ?_, fun hs k' hk' hall => ?_⟩
        · rw [List.map_cons, hkey]
          exact hr.keys.cons_cons k
        · rcases List.mem_cons.mp hr' with rfl | hr'
          · exact ⟨htype, [], List.nil_prefix, e, hkey ▸ he, hpid, hip⟩
          · exact hr.tells r hr'
        · rcases List.mem_cons.mp hk' with rfl | hk'
          · exact ⟨row, List.mem_cons_self, hkey⟩
          · obtain ⟨r, hr', hk⟩ := hr.complete hs k' hk' hall
            exact ⟨r, List.mem_cons_of_mem row hr', hk⟩

/-- What `KEYS` answers: keys of the registry, each once, that begin like the pattern. -/
theorem answer_keys {w : World} {lit : String} (hlit : '*' ∉ lit.toList) (hw : w.AllFiled Y) {ks : List String}
    (h : Answer strict w ⟨.keys (lit ++ "*"), ks⟩) : ks.Nodup ∧ (∀ k ∈ ks, Keyed k ∧ lit.toList <+: k.toList) ∧
      (strict → ∀ k, w.kv k ≠ none → lit.toList <+: k.toList → k ∈ ks) := by
  have hpat : ∀ k : String, globMatch (lit ++ "*").toList k.toList = true ↔ lit.toList <+: k.toList := by
    intro k
    rw [String.toList_append]
    exact globMatch_append hlit
  rcases h with ⟨hnodup, hmem⟩ | ⟨hn, rfl⟩
  · refine ⟨hnodup, fun k hk => ?_, fun _ k hk hp => ?_⟩
    · obtain ⟨hsome, hmatch⟩ := (hmem k).mp hk
      obtain ⟨e, he⟩ := Option.isSome_iff_exists.mp hsome
      exact ⟨(hw k e he).1, (hpat k).mp hmatch⟩
    · exact (hmem k).mpr ⟨Option.isSome_iff_ne_none.mpr hk, (hpat k).mpr hp⟩
  · exact ⟨.nil, fun k hk => absurd hk List.not_mem_nil, fun hs => absurd hs hn⟩

theorem Keyed.begins {key : String} (h : Keyed key) :
    "service:".toList <+: key.toList ∨ "database:".toList <+: key.toList := by
  obtain ⟨n, rfl | rfl⟩ := h
  · left
    rw [Cmd.serviceKey, String.toList_append]
    exact List.prefix_append ..
  · right
    rw [Cmd.databaseKey, String.toList_append]
    exact List.prefix_append ..

/-- No key is that of a service and of a database. -/
theorem not_both {key : String} (hs : "service:".toList <+: key.toList) : ¬ "database:".toList <+: key.toList := by
  intro hd
  rcases List.prefix_or_prefix_of_prefix hs hd with h | h
  · exact absurd h (by decide)
  · exact absurd h (by decide)

/-- The text that is printed for these keys and lines. -/
def printed (ks : List String) (rows : List Cmd.Row) : List String :=
  if ks = [] then ["No active services or databases found.\n"] else Cmd.header ++ rows.map Cmd.Row.line

/-- `list` asks for the keys of both kinds, and then for their values. -/
theorem answers_runList {tr : List ((o : Cmd.listSig.Op) × Cmd.listSig.Ret o)} {out : List String}
    (ha : (Cmd.runList Y).Answers tr out) : ∃ (serviceKeys dbKeys : List String)
      (tr' : List ((o : Cmd.listSig.Op) × Cmd.listSig.Ret o)),
      tr = ⟨.keys "service:*", serviceKeys⟩ :: ⟨.keys "database:*", dbKeys⟩ :: tr' ∧
      (if serviceKeys ++ dbKeys = [] then ret ["No active services or databases found.\n"]
        else Cmd.listRows Y (serviceKeys ++ dbKeys) >>= fun rows =>
          ret (Cmd.header ++ rows.map Cmd.Row.line)).Answers tr' out := by
  obtain ⟨serviceKeys, tr, rfl, h₁⟩ := ha.of_call
  obtain ⟨dbKeys, tr, rfl, h₂⟩ := Answers.of_call h₁
  exact ⟨serviceKeys, dbKeys, tr, rfl, h₂⟩

theorem reported_runList {es : List (Event (Host Y G) ι)} {tr : List ((o : Cmd.listSig.Op) × Cmd.listSig.Ret o)}
    {out : List String} (hfiled : ∀ fs, World.AllFiled Y (m.run fs).world) (ht : Told strict m tr es)
    (ha : (Cmd.runList Y).Answers tr out) : ∃ ks rows, out = printed ks rows ∧ ks.Nodup ∧
      (strict → ∀ k, (∀ fs, fs <+: es → World.kv (m.run fs).world k ≠ none) → k ∈ ks) ∧
      Reported strict m es ks rows := by
  obtain ⟨serviceKeys, dbKeys, tr, rfl, hrun⟩ := answers_runList ha
  cases ht with
  | ask answer₁ rest =>
    rename_i es₁ es
    cases rest with
    | ask answer₂ rest =>
      rename_i es₂ es
      have hstar : '*' ∉ "service:".toList ∧ '*' ∉ "database:".toList := by decide
      have hservice : "service:" ++ "*" = "service:*" := by decide
      have hdatabase : "database:" ++ "*" = "database:*" := by decide
      rw [← hservice] at answer₁
      rw [← hdatabase] at answer₂
      rw [← Machine.run_append] at answer₂ rest
      obtain ⟨hnodup₁, hmem₁, hall₁⟩ := answer_keys hstar.1 (hfiled es₁) answer₁
      obtain ⟨hnodup₂, hmem₂, hall₂⟩ := answer_keys hstar.2 (hfiled (es₁ ++ es₂)) answer₂
      have hnodup : (serviceKeys ++ dbKeys).Nodup := by
        refine List.nodup_append.mpr ⟨hnodup₁, hnodup₂, fun k hk k' hk' he => ?_⟩
        subst k'
        exact not_both (hmem₁ k hk).2 (hmem₂ k hk').2
      have hkeyed : ∀ k ∈ serviceKeys ++ dbKeys, Keyed k := by
        intro k hk
        rcases List.mem_append.mp hk with hk | hk
        · exact (hmem₁ k hk).1
        · exact (hmem₂ k hk).1
      have hfound : strict → ∀ k, (∀ fs, fs <+: es₁ ++ (es₂ ++ es) → World.kv (m.run fs).world k ≠ none) →
          k ∈ serviceKeys ++ dbKeys := by
        intro hs k hall
        have h₁ := hall es₁ (List.prefix_append ..)
        have h₂ := hall (es₁ ++ es₂) ((List.prefix_append_right_inj es₁).mpr (List.prefix_append ..))
        obtain ⟨e, he⟩ := Option.ne_none_iff_exists'.mp h₁
        rcases (hfiled es₁ k e he).1.begins with hp | hp
        · exact List.mem_append_left _ (hall₁ hs k h₁ hp)
        · exact List.mem_append_right _ (hall₂ hs k h₂ hp)
      by_cases hnil : serviceKeys ++ dbKeys = []
      · rw [if_pos hnil] at hrun
        obtain ⟨_, rfl⟩ := hrun.of_ret
        refine ⟨serviceKeys ++ dbKeys, [], by rw [printed, if_pos hnil], hnodup, hfound, ?_⟩
        rw [hnil]
        exact ⟨.refl _, fun r hr => absurd hr List.not_mem_nil, fun _ k hk => absurd hk List.not_mem_nil⟩
      · rw [if_neg hnil] at hrun
        obtain ⟨tr₁, tr₂, rows, rfl, ha₁, ha₂⟩ := Answers.of_bind hrun
        obtain ⟨rfl, rfl⟩ := ha₂.of_ret
        rw [List.append_nil] at rest
        have hrep := reported_listRows hkeyed rest ha₁
        rw [Machine.run_append] at hrep
        exact ⟨serviceKeys ++ dbKeys, rows, by rw [printed, if_neg hnil], hnodup, hfound, hrep.wait.wait⟩

end Answers

section Runs
variable [DecidableEq ι] {m : Machine (Host Y G) ι} {strict : Prop}

/-- `list` runs while invocations of any kind go on in any way, whatever fails. Every line
that it prints was true when its record was read: it names a service or a database, and
with these words `delete` finds the record; its pid and its address are those of the
workload process, if that is there. No workload stands in two lines. If no call of `list`
itself fails, every workload that is registered all the time stands in a line. -/
theorem list_truthful (hY : Y.Lawful) (hm : m.Idle) (hw : World.Untouched m.world)
    {es₀ es : List (Event (Host Y G) ι)} {tr : List ((o : Cmd.listSig.Op) × Cmd.listSig.Ret o)} {out : List String}
    (ht : Told strict (m.run es₀) tr es) (ha : (Cmd.runList Y).Answers tr out) :
    ∃ ks rows, out = printed ks rows ∧ (rows.map Cmd.Row.key).Nodup ∧
      (∀ r ∈ rows, (r.resourceType = "service" ∨ r.resourceType = "database") ∧
        ∃ fs e, fs <+: es ∧ World.kv (m.run (es₀ ++ fs)).world (r.resourceType ++ ":" ++ r.resourceName) = some e ∧
          r.pid = (Y.decode e.value).pid ∧ r.ip = (Y.decode e.value).ip ∧
          ∀ q ∈ World.procs (m.run (es₀ ++ fs)).world, q.role = .workload → q.owner = e.author →
            r.pid = itoa q.pid ∧ r.ip = q.ip) ∧
      (strict → ∀ k, (∀ fs, fs <+: es → World.kv (m.run (es₀ ++ fs)).world k ≠ none) →
        k ∈ ks ∧ ∃ r ∈ rows, r.key = k) := by
  have hempty : World.AllFiled Y m.world := fun k e hk => by
    rw [hw.registry k] at hk
    cases hk
  have hfiled : ∀ fs, World.AllFiled Y ((m.run es₀).run fs).world := fun fs => by
    rw [← Machine.run_append]
    exact allFiled_run hY (Watch.holds_of_idle hm) hempty _
  obtain ⟨ks, rows, hout, hnodup, hfound, hrep⟩ := reported_runList hfiled ht ha
  refine ⟨ks, rows, hout, hrep.keys.nodup hnodup, fun r hr => ?_, fun hs k hall => ?_⟩
  · obtain ⟨htype, fs, hfs, e, he, hpid, hip⟩ := hrep.tells r hr
    rw [← Machine.run_append] at he
    refine ⟨htype, fs, e, hfs, he, hpid, hip, fun q hq hrole howner => ?_⟩
    have htidy : Tidy (booksOf (m.run (es₀ ++ fs))) (pagesOf (m.run (es₀ ++ fs))) :=
      tidy_run hY (Watch.holds_of_idle hm) (tidy_of_untouched hw hm) _
    have hreg : (booksOf (m.run (es₀ ++ fs))).registry r.key = some (Y.decode e.value, e.author) := by
      change (World.kv (m.run (es₀ ++ fs)).world r.key).map _ = _
      rw [he]
      rfl
    obtain ⟨hp, hi⟩ := htidy.names r.key _ _ q hreg ⟨hq, hrole⟩ howner
    exact ⟨hpid.trans hp, hip.trans hi⟩
  · have hall' : ∀ fs, fs <+: es → World.kv ((m.run es₀).run fs).world k ≠ none := fun fs hfs => by
      rw [← Machine.run_append]
      exact hall fs hfs
    have hk := hfound hs k hall'
    exact ⟨hk, hrep.complete hs k hk hall'⟩

end Runs

namespace Sample

/-- A service and a database run. -/
def pair : List (SampleEvent Unit) :=
  create () web 100 :: steps () 30 101 ++ create () users 110 :: steps () 60 111

/-- The service is deleted between the keys and the values. -/
def parting : List (SampleEvent Unit) := delete () "service" "web" 120 :: steps () 80 121

theorem pair_matching {lit k : String} (hlit : '*' ∉ lit.toList) (hk : lit.toList <+: k.toList)
    (hsome : (World.kv (start.run pair).world k).isSome = true)
    (hother : ∀ k' ∈ ["service:web", "database:users"], k' ≠ k → ¬ lit.toList <+: k'.toList) :
    Matching (World.kv (start.run pair).world) (lit ++ "*") [k] := by
  have hrun : RecordsIn ["service:web", "database:users"] (start.run pair) := Machine.run_of_step
    (fun _ _ => recordsIn_step) (fun _ _ => rfl)
    (by decide +kernel : Machine.Along (fun m e => within ["service:web", "database:users"] m e = true) start pair)
  refine ⟨List.nodup_singleton k, fun k' => ?_⟩
  rw [String.toList_append, show "*".toList = ['*'] from rfl, globMatch_append hlit, List.mem_singleton]
  refine ⟨fun h => h ▸ ⟨hsome, hk⟩, fun h => ?_⟩
  obtain ⟨hk', hp⟩ := h
  by_contra hne
  by_cases hmem : k' ∈ ["service:web", "database:users"]
  · exact hother k' hmem hne hp
  · rw [hrun k' hmem] at hk'
    cases hk'

theorem parting_told : ∃ tr out, Told True (start.run pair) tr parting ∧ (Cmd.runList yaml).Answers tr out ∧
    ∃ ks rows, out = printed ks rows ∧ (rows.map Cmd.Row.key).Nodup ∧
      (∀ r ∈ rows, (r.resourceType = "service" ∨ r.resourceType = "database") ∧
        ∃ fs e, fs <+: parting ∧
          World.kv (start.run (pair ++ fs)).world (r.resourceType ++ ":" ++ r.resourceName) = some e ∧
          r.pid = (yaml.decode e.value).pid ∧ r.ip = (yaml.decode e.value).ip ∧
          ∀ q ∈ World.procs (start.run (pair ++ fs)).world, q.role = .workload → q.owner = e.author →
            r.pid = itoa q.pid ∧ r.ip = q.ip) ∧
      (True → ∀ k, (∀ fs, fs <+: parting → World.kv (start.run (pair ++ fs)).world k ≠ none) →
        k ∈ ks ∧ ∃ r ∈ rows, r.key = k) := by
  have hservice : Matching (World.kv (start.run pair).world) "service:*" ["service:web"] :=
    (by decide : "service:" ++ "*" = "service:*") ▸ pair_matching (by decide) (by decide) (by decide +kernel) (by decide)
  have hdatabase : Matching (World.kv (start.run pair).world) "database:*" ["database:users"] :=
    (by decide : "database:" ++ "*" = "database:*") ▸ pair_matching (by decide) (by decide) (by decide +kernel) (by decide)
  have hgone : World.kv ((start.run pair).run parting).world "service:web" = none := by
    apply Option.isNone_iff_eq_none.mp
    decide +kernel
  have hthere : (World.kv ((start.run pair).run parting).world "database:users").isSome = true := by decide +kernel
  obtain ⟨e, he⟩ := Option.isSome_iff_exists.mp hthere
  have hlast : Told True ((start.run pair).run parting) [⟨.get "database:users", some e.value⟩] ([] ++ []) := by
    refine .ask (.inl ?_) (.over _ [])
    rw [Machine.run_nil, he]
    rfl
  have hfirst : Told True (start.run pair) [⟨.get "service:web", none⟩, ⟨.get "database:users", some e.value⟩]
      (parting ++ ([] ++ [])) := by
    refine .ask (.inl ?_) hlast
    rw [hgone]
    rfl
  have htold : Told True (start.run pair) [⟨.keys "service:*", ["service:web"]⟩, ⟨.keys "database:*", ["database:users"]⟩,
      ⟨.get "service:web", none⟩, ⟨.get "database:users", some e.value⟩] ([] ++ ([] ++ (parting ++ ([] ++ [])))) := by
    refine .ask (.inl ?_) (.ask (.inl ?_) ?_)
    · rw [Machine.run_nil]
      exact hservice
    · rw [Machine.run_nil, Machine.run_nil]
      exact hdatabase
    · rw [Machine.run_nil, Machine.run_nil]
      exact hfirst
  simp only [List.nil_append, List.append_nil] at htold
  have hanswers : ∃ out, (Cmd.runList yaml).Answers [⟨.keys "service:*", ["service:web"]⟩,
      ⟨.keys "database:*", ["database:users"]⟩, ⟨.get "service:web", none⟩, ⟨.get "database:users", some e.value⟩] out := by
    refine ⟨Cmd.header ++ (Cmd.listKey yaml "database:users" e.value ++ []).map Cmd.Row.line, .call (.call ?_)⟩
    change Answers (if ["service:web"] ++ ["database:users"] = [] then ret ["No active services or databases found.\n"]
      else Cmd.listRows yaml ["service:web", "database:users"] >>= fun rows =>
        ret (Cmd.header ++ rows.map Cmd.Row.line)) _ _
    have hne : ["service:web"] ++ ["database:users"] ≠ [] := List.cons_ne_nil _ _
    rw [if_neg hne]
    exact .call (.call (.ret _))
  obtain ⟨out, hout⟩ := hanswers
  exact ⟨_, out, htold, hout, list_truthful yaml_lawful start_idle ⟨fun _ => rfl, start_workloads, rfl⟩ htold hout⟩

end Sample
end PrivatePaas
