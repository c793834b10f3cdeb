import PrivatePaas.Registry.Failing
import PrivatePaas.Registry.Removal
import PrivatePaas.Registry.Tidy
import PrivatePaas.Results.Sample

/-!
# What the other invocations leave alone

An invocation that deletes nothing takes nothing from a registered workload, whatever
fails and wherever it is stopped, as long as its record and its files are others and the
pid file does not lead to that workload.
-/

namespace PrivatePaas
set_option autoImplicit false
open Files Text Effects Go Network Prog PrivatePaas.Parser

variable {Y : Yaml} {G : GoIpam} {α β : Type}

namespace Parser

/-- The yaml files that a rewriting of the Envoy configuration writes. -/
def ServiceEnvoyConfig.files (c : ServiceEnvoyConfig) : List Path := [serviceConfPath c.upstreamName, envoyConfig]

end Parser

namespace Cmd
variable (Y : Yaml)

/-- The key under which a create of this file puts its record. -/
def File.key (f : File) : Option String :=
  if f.type = "service" then some (serviceKey (parseService Y f.body).name)
  else if f.type = "db" then some (databaseKey (parseYaml Y f.body).name)
  else none

/-- The yaml files that a create of this file writes. -/
def File.files (f : File) : List Path :=
  if f.type = "service" ∧ (parseService Y f.body).technology = python ∧ (parseService Y f.body).lb = true then
    (parseService Y f.body).lbConfig.files
  else []

end Cmd

namespace Task
variable (Y : Yaml)

/-- The configuration file of a create, if it can be read. -/
def file (w : World) : Task → Option Cmd.File
  | create path =>
    match w.fs.read path with
    | .ok data => Y.unmarshalFile data
    | .error _ => none
  | _ => none

def key (w : World) (t : Task) : Option String := (t.file Y w).bind (Cmd.File.key Y)

def files (w : World) : Task → List Path
  | create path => ((create path).file Y w).elim [] (Cmd.File.files Y)
  | updateLb c => c.files
  | _ => []

end Task

/-- What an invocation of `t` by `l` sets, signals and writes is none of the workload that
is registered by `e` under `key`. -/
structure Outside (Y : Yaml) (t : Task) (l : Local) (w : World) (key : String) (e : Entry) : Prop where
  key : t.key Y w ≠ some key
  term : Unaimed l w e.author
  files : (Y.decode e.value).configFileName ≠ "" → fragmentFile (Y.decode e.value) ∉ t.files Y w

section Operations
variable {c : Choice} {t : Tree} {cwd q : Path}

/-- A file stays that is none of those that are written. -/
theorem content_apart {o : FsOp} (hr : ∀ p, o ≠ .remove p) (hi : ∀ bin dir, o ≠ .initdb bin dir)
    (hw : ∀ p, o.Writes p → (∀ n ∈ p, Proper n) ∧ q ≠ p) : (o.perform c cwd t).2.content q = t.content q := by
  cases o with
  | writeFile p data => exact store_content_of_ne (hw p rfl).1 (hw p rfl).2
  | create p => exact store_content_of_ne (hw p rfl).1 (hw p rfl).2
  | write p data =>
    simp only [FsOp.perform]
    split
    · rfl
    · exact store_content_of_ne (hw p rfl).1 (hw p rfl).2
  | openAppend p => exact store_content_of_ne (hw p rfl).1 (hw p rfl).2
  | append p data => exact store_content_of_ne (hw p rfl).1 (hw p rfl).2
  | remove p => exact absurd rfl (hr p)
  | mkdirAll p =>
    simp only [FsOp.perform]
    cases hm : t.mkdirs [] p with
    | none => rfl
    | some t' => exact (Tree.mkdirs_spec hm).1 q
  | initdb bin dir => exact absurd rfl (hi bin dir)
  | _ => rfl

end Operations

/-- An operation in front of the SIGTERM of an invocation that writes these yaml files. -/
def Early (ys : List Path) : Op → Prop
  | .fs o => (∀ p, o ≠ .remove p) ∧ (∀ bin dir, o ≠ .initdb bin dir) ∧ ∀ p, o.Writes p → p ∈ ys
  | .proc (.start _) => False
  | o => Modest o

section Steps
variable {C : (Host Y G).Choice → Prop} {c : Choice} {l l₀ : Local} {w w₀ : World} {o : Op}
variable {key : String} {e : Entry} {rec : Cmd.Service} {ys : List Path}

/-- Paths that are none of the workload's, nor the pid file's. -/
structure Strange (rec : Cmd.Service) (ys : List Path) : Prop where
  proper : ∀ p ∈ ys, ∀ n ∈ p, Proper n
  pidFile : envoyPidFile ∉ ys
  fragment : rec.configFileName ≠ "" → fragmentFile rec ∉ ys

theorem Early.fs_content {o : FsOp} (h : Early ys (.fs o)) (hy : ∀ p ∈ ys, ∀ n ∈ p, Proper n) {q : Path} (hq : q ∉ ys) :
    (perform Y G c l w (.fs o)).2.2.fs.content q = w.fs.content q := by
  have hdone : ∀ {o : FsOp}, Early ys (.fs o) → (o.perform c w.cwd w.fs).2.content q = w.fs.content q := fun h =>
    content_apart h.1 h.2.1 fun p hp => ⟨hy p (h.2.2 p hp), fun he => hq (he ▸ h.2.2 p hp)⟩
  refine attempt_elim (P := fun x => x.2.2.fs.content q = w.fs.content q) (hdone h) rfl fun n o' hr => ?_
  obtain ⟨o'', rfl⟩ : ∃ o'', o' = .fs o'' := by
    cases o <;> cases hr <;> exact ⟨_, rfl⟩
  refine hdone ?_
  cases o <;> cases hr <;> first | exact h | exact ⟨nofun, nofun, h.2.2⟩

/-- Such an operation neither writes the pid file nor lets a process appear. -/
theorem Early.quiet (h : Early ys o) (hs : Strange rec ys) :
    (∀ q, q ∉ ys → (perform Y G c l w o).2.2.fs.content q = w.fs.content q) ∧
      ∀ p ∈ (perform Y G c l w o).2.2.procs, ∃ p₀ ∈ w.procs, p₀.pid = p.pid ∧ p₀.pgid = p.pgid := by
  refine ⟨fun q hq => ?_, fun p hp => ?_⟩
  · cases o with
    | fs o => exact h.fs_content hs.proper hq
    | _ => exact congrArg (fun t => Tree.content t q) (perform_fs id)
  · rcases mem_perform_procs hp with ⟨p₀, hp₀, hpid, _, _, hpgid⟩ | ⟨cmd, rfl, _⟩
    · exact ⟨p₀, hp₀, hpid.symm, hpgid.symm⟩
    · exact absurd h id

theorem Early.modest (h : Early ys o) (hf : ¬ o.IsFs) : Modest o := by
  cases o with
  | fs o => exact absurd trivial hf
  | proc o => cases o <;> first | exact absurd h id | exact h
  | _ => exact h

theorem Early.left (h : Early ys o) (hs : Strange rec ys) (hrec : Filed rec) :
    Left key e rec w (perform Y G c l w o).2.2 := by
  cases o with
  | fs o =>
    have hprocs : (perform Y G c l w (.fs o)).2.2.procs = w.procs := perform_procs id
    have hpool : (perform Y G c l w (.fs o)).2.2.pool = w.pool := perform_pool id
    refine ⟨fun hk => (congrFun (perform_kv id) key).trans hk, fun q hq _ _ => ?_, fun ha => ?_, fun hc _ => ?_⟩
    · rw [hprocs]
      exact hq
    · unfold World.Allocated
      rw [hpool]
      exact ha
    · exact h.fs_content hs.proper (hs.fragment hc)
  | _ => exact Modest.left (h.modest id) hrec

theorem Untermed.early (h : Untermed key e rec l₀ w₀ l w) (ho : Early ys o) (hs : Strange rec ys) (hrec : Filed rec) :
    Untermed key e rec l₀ w₀ (perform Y G c l w o).2.1 (perform Y G c l w o).2.2 := by
  obtain ⟨hcontent, hprocs⟩ := @Early.quiet Y G c l w o rec ys ho hs
  refine ⟨h.same.trans same_perform, h.left.trans (ho.left hs hrec), fun p hp => ?_, fun data hd => ?_⟩
  · obtain ⟨p₁, hp₁, hpid₁⟩ := hprocs p hp
    obtain ⟨p₀, hp₀, hpid₀, hpgid₀⟩ := h.pids p₁ hp₁
    exact ⟨p₀, hp₀, hpid₀.trans hpid₁.1, hpgid₀.trans hpid₁.2⟩
  · exact h.pidFile data ((hcontent envoyPidFile hs.pidFile).symm.trans hd)

end Steps

section Programs
variable {C : (Host Y G).Choice → Prop} {l l₀ : Local} {w w₀ : World}
variable {key : String} {e : Entry} {rec : Cmd.Service} {ys : List Path}

theorem always_left_modest (hrec : Filed rec) {p : Go α} (hp : p.Only Modest) (h : Left key e rec w₀ w) :
    (Host Y G).always C (Left key e rec w₀) l w p :=
  System.always_of_only (Y := Host Y G) (fun _ _ _ _ _ ho hI _ => hI.trans (ho.left hrec)) hp h

theorem always_early (hs : Strange rec ys) (hrec : Filed rec) {p : Go α} (hp : p.Only (Early ys))
    (h : Untermed key e rec l₀ w₀ l w) : (Host Y G).always C (Left key e rec w₀) l w p :=
  System.always_of_kept (Y := Host Y G) (J := Untermed key e rec l₀ w₀) (fun _ _ hu => hu.left)
    (fun _ _ _ _ _ ho hI _ => hI.early ho hs hrec) hp h

/-- Nothing is lost up to where the SIGTERM can come. -/
theorem always_early_bind (hs : Strange rec ys) (hrec : Filed rec) {p : Go α} {f : α → Go β}
    (hp : p.Only (Early ys)) (h : Untermed key e rec l₀ w₀ l w)
    (hf : ∀ a l' w', Untermed key e rec l₀ w₀ l' w' → (Host Y G).always C (Left key e rec w₀) l' w' (f a)) :
    (Host Y G).always C (Left key e rec w₀) l w (p >>= f) := by
  refine System.always_bind_wp (always_early hs hrec hp h) ?_
  have hkept : (Host Y G).wp C (fun _ l' w' => Untermed key e rec l₀ w₀ l' w') l w p :=
    System.wp_of_only (Y := Host Y G) (I := Untermed key e rec l₀ w₀)
      (fun _ _ _ _ _ ho hI _ => hI.early ho hs hrec) hp h
  exact System.wp_mono (fun _ l' w' hu a _ => hf a l' w' hu) hkept

theorem always_early_op (hs : Strange rec ys) (hrec : Filed rec) {o : Op} {k : o.Ret → Go α} (ho : Early ys o)
    (h : Untermed key e rec l₀ w₀ l w)
    (hk : ∀ r l' w', Untermed key e rec l₀ w₀ l' w' → (Host Y G).always C (Left key e rec w₀) l' w' (k r)) :
    (Host Y G).always C (Left key e rec w₀) l w (.call o k) :=
  ⟨h.left, fun _ _ _ => hk _ _ _ (h.early ho hs hrec)⟩

theorem modest_findPid : Only Modest Utils.findPidForEnvoy := by
  refine ⟨⟨fun _ hp => absurd hp id, nofun⟩, fun r => ?_⟩
  cases r with
  | error err => cases err <;> trivial
  | ok data =>
    cases h : atoi (trimSpace data) with
    | mk n valid => cases valid <;> simp [h, Modest]

theorem always_left_stopExisting (hrec : Filed rec) (ht : Unaimed l₀ w₀ e.author) (h : Untermed key e rec l₀ w₀ l w) :
    (Host Y G).always C (Left key e rec w₀) l w stopExisting := by
  refine System.always_bind_wp (always_left_modest hrec modest_findPid h.left)
    (System.wp_mono (fun r l₁ w₁ h₁ found hfound => ?_) h.findPid)
  obtain ⟨hu, _, hmarks⟩ := h₁
  cases found with
  | none => exact hu.left
  | some n =>
    by_cases h0 : n = 0
    · simp only [h0, if_true]
      exact hu.left
    · simp only [h0, if_false]
      exact ⟨hu.left, fun _ _ _ => (hu.term (ht n (hmarks n hfound h0))).left⟩

theorem always_left_ensureConfig (hrec : Filed rec) (h : Left key e rec w₀ w) :
    (Host Y G).always C (Left key e rec w₀) l w ensureConfig := by
  have hmkdir : Modest (.fs (.mkdirAll ["run"])) := ⟨fun _ hp => absurd hp id, nofun⟩
  have hstat : Modest (.fs (.stat envoyConfig)) := ⟨fun _ hp => absurd hp id, nofun⟩
  refine ⟨h, fun _ c₁ _ => ?_⟩
  have h₁ := h.trans (@Modest.left Y G l w c₁ _ hmkdir key e rec hrec)
  refine ⟨h₁, fun _ c₂ _ => ?_⟩
  have h₂ := h₁.trans (@Modest.left Y G (perform Y G c₁ l w (.fs (.mkdirAll ["run"]))).2.1
    (perform Y G c₁ l w (.fs (.mkdirAll ["run"]))).2.2 c₂ _ hstat key e rec hrec)
  generalize hr : ((Host Y G).perform c₂ _ _ (.fs (.stat envoyConfig))).1 = r₂
  cases r₂ with
  | ok _ => exact h₂
  | error err =>
    cases err with
    | other => exact h₂
    | notExist => exact ⟨h₂, fun _ _ _ => h₂.trans (.bootstrap (perform_stat hr))⟩

theorem always_left_startEnvoy (hrec : Filed rec) (ht : Unaimed l₀ w₀ e.author) (h : Untermed key e rec l₀ w₀ l w) :
    (Host Y G).always C (Left key e rec w₀) l w startEnvoy := by
  rw [startEnvoy_eq]
  refine System.always_bind (always_left_stopExisting hrec ht h) fun _ _ _ h₁ => ?_
  refine System.always_bind (always_left_ensureConfig hrec h₁) fun _ _ _ h₂ => ?_
  exact always_left_modest hrec modest_launchEnvoy h₂

theorem early_readFragments (files : List String) (acc : List EnvoyService) :
    Only (Early ys) (readFragments Y files acc) := by
  induction files generalizing acc with
  | nil => trivial
  | cons f fs ih => exact ⟨⟨nofun, nofun, fun _ hp => absurd hp id⟩, fun r => ih _⟩

theorem always_left_updateLbConfig {config : ServiceEnvoyConfig} (hs : Strange rec config.files) (hrec : Filed rec)
    (ht : Unaimed l₀ w₀ e.author) (h : Untermed key e rec l₀ w₀ l w) :
    (Host Y G).always C (Left key e rec w₀) l w (updateLbConfig Y config) := by
  have hfragment : serviceConfPath config.upstreamName ∈ config.files := List.mem_cons_self
  have hconfig : envoyConfig ∈ config.files := List.mem_cons_of_mem _ List.mem_cons_self
  have still : ∀ {o : FsOp}, (∀ p, o ≠ .remove p) → (∀ bin dir, o ≠ .initdb bin dir) → (∀ p, ¬ o.Writes p) →
      Early config.files (.fs o) := fun hr hi hw => ⟨hr, hi, fun p hp => absurd hp (hw p)⟩
  have writes : ∀ {p : Path} {data : String}, p ∈ config.files → Early config.files (.fs (.writeFile p data)) :=
    fun hp => ⟨nofun, nofun, fun _ he => he ▸ hp⟩
  unfold updateLbConfig
  refine always_early_op hs hrec (still nofun nofun fun _ hp => hp) h fun r _ _ h₁ => ?_
  cases r with
  | false => exact h₁.left
  | true =>
    refine always_early_op hs hrec (writes hfragment) h₁ fun r _ _ h₂ => ?_
    cases r with
    | false => exact h₂.left
    | true =>
      refine always_early_op hs hrec (still nofun nofun fun _ hp => hp) h₂ fun files _ _ h₃ => ?_
      rw [bind_eq, ret_bind]
      refine always_early_bind hs hrec (early_readFragments files []) h₃ fun services _ _ h₄ => ?_
      refine always_early_op hs hrec (still nofun nofun fun _ hp => hp) h₄ fun r _ _ h₅ => ?_
      cases r with
      | none => exact h₅.left
      | some pwd =>
        refine always_early_op hs hrec (still nofun nofun fun _ hp => hp) h₅ fun r _ _ h₆ => ?_
        cases r with
        | false => exact h₆.left
        | true =>
          refine always_early_op hs hrec ⟨nofun, nofun, fun _ he => he ▸ hconfig⟩ h₆ fun r _ _ h₇ => ?_
          cases r with
          | false => exact h₇.left
          | true =>
            refine always_early_op hs hrec ⟨nofun, nofun, fun _ he => he ▸ hconfig⟩ h₇ fun r _ _ h₈ => ?_
            cases r with
            | false => exact h₈.left
            | true =>
              rw [bind_eq, ret_bind]
              exact System.always_bind (always_left_startEnvoy hrec ht h₈) fun _ _ _ h₉ => h₉

theorem Bearing.modest {o : Op} (h : Bearing o) : Modest o := by
  cases o with
  | fs o => exact Plain.modest h
  | proc o => cases o <;> trivial
  | kv o => exact absurd h id
  | ipam st o => exact absurd h id
  | _ => trivial

theorem Asking.early {o : Op} (h : Asking o) : Early ys o := by
  cases o with
  | probe o => trivial
  | ipam st o => cases o <;> trivial
  | _ => exact absurd h id

theorem asking_getIp : Only Asking getIp := by
  refine asking_getIpam.bind fun st => ?_
  cases st with
  | none => trivial
  | some st =>
    refine ⟨trivial, fun r => ?_⟩
    cases r <;> trivial

theorem always_left_bearing (hrec : Filed rec) {p : Go α} {f : α → Go β} (hp : p.Only Bearing)
    (h : Left key e rec w₀ w)
    (hf : ∀ a l' w', Left key e rec w₀ w' → (Host Y G).always C (Left key e rec w₀) l' w' (f a)) :
    (Host Y G).always C (Left key e rec w₀) l w (p >>= f) :=
  System.always_bind (always_left_modest hrec (hp.mono fun _ => Bearing.modest) h) hf

/-- What comes behind the creation of a service goes on with its name. -/
theorem always_left_createService {body ip : String} {f : Service → Go β}
    (hs : (parseService Y body).technology = python → (parseService Y body).lb = true →
      Strange rec (parseService Y body).lbConfig.files)
    (hrec : Filed rec) (ht : Unaimed l₀ w₀ e.author) (h : Untermed key e rec l₀ w₀ l w)
    (hf : ∀ s l' w', s.name = (parseService Y body).name → Left key e rec w₀ w' →
      (Host Y G).always C (Left key e rec w₀) l' w' (f s)) :
    (Host Y G).always C (Left key e rec w₀) l w (Service.createService Y body ip >>= f) := by
  have run : ∀ (s : Service) (l : Local) (w : World), s.name = (parseService Y body).name → Left key e rec w₀ w →
      (Host Y G).always C (Left key e rec w₀) l w (s.execPythonService ip >>= fun pid => f { s with pid := pid }) := by
    intro s l w hname hl
    exact always_left_bearing hrec (bearing_execPythonService s ip) hl fun pid _ _ h₁ => hf _ _ _ hname h₁
  unfold Service.createService
  dsimp only
  by_cases htech : (parseService Y body).technology = python
  · rw [if_pos htech]
    by_cases hlb : (parseService Y body).lb = true
    · rw [if_pos hlb]
      have hfiles : ((parseService Y body).withServers ip).lbConfig.files = (parseService Y body).lbConfig.files := by
        unfold Service.withServers
        split <;> rfl
      simp only [bind_assoc, pure_eq, ret_bind]
      refine System.always_bind (always_left_updateLbConfig (hfiles ▸ hs htech hlb) hrec ht h) fun _ l₁ w₁ h₁ => ?_
      refine run _ l₁ w₁ ?_ h₁
      unfold Service.withServers
      split <;> rfl
    · rw [if_neg hlb]
      simp only [bind_assoc, pure_eq, ret_bind]
      exact run _ l w rfl h.left
  · rw [if_neg htech]
    exact hf _ l w rfl h.left

theorem always_left_createDatabase {body ip : String} {f : Database → Go β} (hrec : Filed rec)
    (h : Left key e rec w₀ w)
    (hf : ∀ d l' w', d.name = (parseYaml Y body).name → Left key e rec w₀ w' →
      (Host Y G).always C (Left key e rec w₀) l' w' (f d)) :
    (Host Y G).always C (Left key e rec w₀) l w (Database.createDatabase Y body ip >>= f) := by
  have hbearing := bearing_createDatabase (Y := Y) body ip
  unfold Database.createDatabase at hbearing ⊢
  dsimp only at hbearing ⊢
  by_cases htech : (parseYaml Y body).technology = postgreSQL
  · rw [if_pos htech] at hbearing ⊢
    simp only [bind_assoc, pure_eq, ret_bind]
    refine always_left_bearing hrec hbearing.of_bind h fun pid _ _ h₁ => ?_
    have hconnect := (plain_connectToBridge (parseYaml Y body) pid ip).mono fun _ => Plain.bearing
    exact always_left_bearing hrec hconnect h₁ fun _ _ _ h₂ => hf _ _ _ rfl h₂
  · rw [if_neg htech]
    exact hf _ l w rfl h

theorem always_left_createByType {file : Cmd.File} {ip : String} (hkey : file.key Y ≠ some key)
    (hs : Strange rec (file.files Y)) (hrec : Filed rec) (ht : Unaimed l₀ w₀ e.author)
    (h : Untermed key e rec l₀ w₀ l w) :
    (Host Y G).always C (Left key e rec w₀) l w (Cmd.createByType Y file ip) := by
  have record : ∀ {k text : String} {l' : Local} {w' : World}, file.key Y = some k → Left key e rec w₀ w' →
      (Host Y G).always C (Left key e rec w₀) l' w' (do
        let _ ← set k text
        return ()) := by
    intro k text l' w' hk hl
    have hne : key ≠ k := fun he => hkey (hk.trans (congrArg some he.symm))
    exact ⟨hl, fun _ _ _ => hl.set hne⟩
  unfold Cmd.createByType
  by_cases hservice : file.type = "service"
  · rw [if_pos hservice]
    have hbridge : Only (Early (file.files Y)) createBridge := by simp [createBridge, Early, Modest]
    refine always_early_bind hs hrec hbridge h fun _ l₁ w₁ h₁ => ?_
    have hstrange : (parseService Y file.body).technology = python → (parseService Y file.body).lb = true →
        Strange rec (parseService Y file.body).lbConfig.files := by
      intro htech hlb
      have hfiles : file.files Y = (parseService Y file.body).lbConfig.files := if_pos ⟨hservice, htech, hlb⟩
      exact hfiles ▸ hs
    refine always_left_createService hstrange hrec ht h₁ fun s l₂ w₂ hname h₂ => record ?_ h₂
    rw [hname]
    exact if_pos hservice
  · rw [if_neg hservice]
    by_cases hdb : file.type = "db"
    · rw [if_pos hdb]
      refine always_left_createDatabase hrec h.left fun d l₁ w₁ hname h₁ => record ?_ h₁
      rw [hname]
      exact (if_neg hservice).trans (if_pos hdb)
    · rw [if_neg hdb]
      exact h.left

theorem always_left_runCreate {path : Path} (hkey : (Task.create path).key Y w₀ ≠ some key)
    (hs : Strange rec ((Task.create path).files Y w₀)) (hrec : Filed rec) (ht : Unaimed l₀ w₀ e.author) :
    (Host Y G).always C (Left key e rec w₀) l₀ w₀ (Cmd.runCreate Y path) := by
  have h₀ : Untermed key e rec l₀ w₀ l₀ w₀ := ⟨.refl l₀, .refl .., fun p hp => ⟨p, hp, rfl, rfl⟩, fun _ hd => hd⟩
  have hread : Early ((Task.create path).files Y w₀) (.fs (.readFile path)) :=
    ⟨nofun, nofun, fun _ hp => absurd hp id⟩
  refine ⟨h₀.left, fun _ c _ => ?_⟩
  have h₁ : Untermed key e rec l₀ w₀ (perform Y G c l₀ w₀ (.fs (.readFile path))).2.1
      (perform Y G c l₀ w₀ (.fs (.readFile path))).2.2 := h₀.early hread hs hrec
  generalize hr : ((Host Y G).perform c l₀ w₀ (.fs (.readFile path))).1 = r
  cases r with
  | error _ => exact h₁.left
  | ok data =>
    simp only [bind_eq, ret_bind]
    cases hf : Y.unmarshalFile data with
    | none => exact h₁.left
    | some file =>
      have hfile : (Task.create path).file Y w₀ = some file := by
        have hdata := perform_readFile hr
        simp only [Task.file, hdata, hf]
      have hk : (Task.create path).key Y w₀ = file.key Y := by rw [Task.key, hfile, Option.bind_some]
      have hfs : (Task.create path).files Y w₀ = file.files Y := by rw [Task.files, hfile, Option.elim_some]
      rw [hk] at hkey
      rw [hfs] at hs
      have hip : Only (Early (file.files Y)) getIp := asking_getIp.mono fun _ => Asking.early
      exact always_early_bind hs hrec hip h₁ fun _ l₂ w₂ h₂ => always_left_createByType hkey hs hrec ht h₂

/-- `stop-envoy` removes nothing but the pid file. -/
theorem always_left_stopEnvoy (hrec : Filed rec) (ht : Unaimed l₀ w₀ e.author) :
    (Host Y G).always C (Left key e rec w₀) l₀ w₀ stopEnvoy := by
  have h₀ : Unstarted key e rec l₀ w₀ l₀ w₀ :=
    ⟨⟨.refl l₀, .refl .., fun p hp => ⟨p, hp, rfl, rfl⟩, fun _ hd => hd⟩, fun _ hd => hd⟩
  refine System.always_bind_wp (always_left_modest hrec modest_findPid h₀.left)
    (System.wp_mono (fun r l₁ w₁ h₁ found hfound => ?_) h₀.toUntermed.findPid)
  obtain ⟨hu, hfs, hmarks⟩ := h₁
  have h₁ : Unstarted key e rec l₀ w₀ l₁ w₁ := ⟨hu, fun q hq => h₀.dirs q (hfs ▸ hq)⟩
  cases found with
  | none => exact hu.left
  | some n =>
    by_cases h0 : n = 0
    · simp only [h0, if_true]
      exact hu.left
    · simp only [h0, if_false]
      refine ⟨hu.left, fun _ c _ => ?_⟩
      have h₂ := @Unstarted.term Y G c l₁ l₀ w₁ w₀ key e rec h₁ ht n (hmarks n hfound h0)
      generalize ((Host Y G).perform c l₁ w₁ (.proc (.kill n .sigterm))).1 = r
      have removed : (Host Y G).always C (Left key e rec w₀) (perform Y G c l₁ w₁ (.proc (.kill n .sigterm))).2.1
          (perform Y G c l₁ w₁ (.proc (.kill n .sigterm))).2.2 (do
            let _ ← remove envoyPidFile
            return true) := by
        refine ⟨h₂.left, fun _ _ _ => (h₂.remove fun hc hw => ?_).left⟩
        exact absurd (eq_of_walk_root (by decide) hw) (hrec.yamlFile hc).ne_pidFile
      cases r with
      | none => exact removed
      | some err =>
        cases err with
        | eperm => exact h₂.left
        | esrch => exact removed

theorem strange_nil : Strange rec [] := ⟨fun _ hp => absurd hp List.not_mem_nil, List.not_mem_nil, fun _ => List.not_mem_nil⟩

theorem strange_files {config : ServiceEnvoyConfig}
    (h : rec.configFileName ≠ "" → fragmentFile rec ∉ config.files) : Strange rec config.files := by
  refine ⟨fun p hp => ?_, fun hp => ?_, h⟩
  · rcases List.mem_cons.mp hp with rfl | hp
    · exact proper_serviceConfPath config.upstreamName
    · obtain rfl := List.mem_singleton.mp hp
      decide
  · rcases List.mem_cons.mp hp with he | hp
    · exact (yamlFile_serviceConfPath config.upstreamName).ne_pidFile he.symm
    · exact absurd (List.mem_singleton.mp hp) (by decide)

theorem Cmd.File.strange {file : Cmd.File} (h : rec.configFileName ≠ "" → fragmentFile rec ∉ file.files Y) :
    Strange rec (file.files Y) := by
  unfold Cmd.File.files at h ⊢
  split at h
  · rename_i hlb
    rw [if_pos hlb]
    exact strange_files h
  · rename_i hlb
    rw [if_neg hlb]
    exact strange_nil

theorem Task.strange {t : Task} (h : rec.configFileName ≠ "" → fragmentFile rec ∉ t.files Y w) :
    Strange rec (t.files Y w) := by
  cases t with
  | create path =>
    rw [Task.files] at h ⊢
    cases hf : (Task.create path).file Y w with
    | none => exact strange_nil
    | some file =>
      rw [hf] at h
      exact Cmd.File.strange h
  | updateLb c => exact strange_files h
  | _ => exact strange_nil

/-- Whatever fails, and wherever it is stopped. -/
theorem always_left_program {t : Task} (hd : ∀ type_ name, t ≠ .delete type_ name) (hrec : Filed rec)
    (hkey : t.key Y w ≠ some key) (ht : Unaimed l w e.author)
    (hfiles : rec.configFileName ≠ "" → fragmentFile rec ∉ t.files Y w) :
    (Host Y G).always C (Left key e rec w) l w (t.program Y) := by
  have h₀ : Untermed key e rec l w l w := ⟨.refl l, .refl .., fun p hp => ⟨p, hp, rfl, rfl⟩, fun _ hd => hd⟩
  cases t with
  | create path => exact always_left_runCreate hkey (Task.strange hfiles) hrec ht
  | delete type_ name => exact absurd rfl (hd type_ name)
  | updateLb c => exact always_left_updateLbConfig (strange_files hfiles) hrec ht h₀
  | startEnvoy => exact System.always_bind (always_left_startEnvoy hrec ht h₀) fun _ _ _ h => h
  | stopEnvoy => exact System.always_bind (always_left_stopEnvoy hrec ht) fun _ _ _ h => h

end Programs

section Runs
variable {ι : Type} [DecidableEq ι] {m : Machine (Host Y G) ι} {es : List (Event (Host Y G) ι)}
variable {l : Local} {w : World} {p : Go Unit} {x : Launch} {key : String} {e : Entry}

/-- An invocation other than a delete that is launched in a reachable state leaves a
registered workload its record, its process, its allocated address and its fragment,
whatever fails and behind however many operations it is killed, if its record and its
files are others and the pid file does not lead to that workload. -/
theorem spares_bystanders (hY : Y.Lawful) (hm : m.Idle) (hw : World.Untouched m.world)
    (he : enter Y x (m.run es).world = some (l, p, w)) (hx : ∀ type_ name, x.task ≠ .delete type_ name)
    (hk : w.kv key = some e) (ha : Outside Y x.task l w key e) (c : Nat → (Host Y G).Choice) (n : Nat) :
    Left key e (Y.decode e.value) w ((Host Y G).exec c l w (p.take n)).world := by
  obtain ⟨_, rfl, _⟩ := enter_spec he
  have hempty : World.AllFiled Y m.world := fun k e' hk' => by
    rw [hw.registry k] at hk'
    cases hk'
  have hfiled : World.AllFiled Y w :=
    (allFiled_run hY (Watch.holds_of_idle hm) hempty es).of_kv (enter_stores he).kv
  exact System.always_stopped (Y := Host Y G) (C := Anyhow)
    (always_left_program hx (hfiled key e hk).2 ha.key ha.term ha.files) n fun _ => trivial

end Runs

namespace Sample

/-- A service runs behind Envoy. -/
def served : List (SampleEvent Unit) := create () shop 110 :: steps () 30 111 ++ steps () 60 112

/-- Another one is created. -/
def second : Launch := ⟨.create ["root", blog.name], 120, 0⟩

/-- What the pid file says is the pid of no process of `e`, and the files are others. -/
def Aloof (l : Local) (w : World) (key : String) (e : Entry) : Bool :=
  second.task.key yaml w ≠ some key ∧ fragmentFile (yaml.decode e.value) ∉ second.task.files yaml w ∧
  ∀ data ∈ w.fs.content envoyPidFile, ∀ q ∈ w.procs.all, q.role = .workload → q.owner = e.author →
    l.aims (atoi (trimSpace data)).1 q = false

theorem served_left : ∃ l p w e, enter yaml second (start.run served).world = some (l, p, w) ∧
    w.kv "service:shop" = some e ∧ ∀ n, Left "service:shop" e (yaml.decode e.value) w
      ((Host yaml lowestFree).exec (fun _ => { pid := 130 }) l w (p.take n)).world := by
  have hsome : (enter yaml second (start.run served).world).any (fun r =>
      (r.2.2.kv "service:shop").any fun e => Aloof r.1 r.2.2 "service:shop" e) = true := by decide +kernel
  obtain ⟨⟨l, p, w⟩, hr, hr'⟩ := (Option.any_eq_true _ _).mp hsome
  obtain ⟨e, he, he'⟩ := (Option.any_eq_true _ _).mp hr'
  obtain ⟨hkey, hfiles, haims⟩ := of_decide_eq_true he'
  have ht : Unaimed l w e.author := by
    intro n hn q hq hrole howner haim
    obtain ⟨⟨data, hdata, hat⟩, _⟩ := hn
    have hmiss := haims data hdata q hq hrole howner
    rw [hat] at hmiss
    rw [hmiss] at haim
    cases haim
  exact ⟨l, p, w, e, hr, he, spares_bystanders yaml_lawful start_idle ⟨fun _ => rfl, start_workloads, rfl⟩ hr nofun he
    ⟨hkey, ht, fun _ => hfiles⟩ fun _ => { pid := 130 }⟩

end Sample
end PrivatePaas
