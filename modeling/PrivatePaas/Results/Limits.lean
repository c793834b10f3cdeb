import PrivatePaas.Conduct.Files
import PrivatePaas.Results.Sample

/-!
# Limits that apply to nobody

`Service.cg` makes a cgroup for the process and writes limits into it, but nothing ever
writes the pid of a service to the `cgroup.procs` of its cgroup, so no service is in it.
-/

namespace PrivatePaas
set_option autoImplicit false
open Files Text Effects Network PrivatePaas.Parser

variable {Y : Yaml} {G : GoIpam} {ι : Type} [DecidableEq ι]

section Membership

/-- The operation writes this text into the file. -/
def Op.Puts (p : Path) (text : String) : Op → Prop
  | .fs (.writeFile q data) | .fs (.write q data) | .fs (.append q data) => clean q = p ∧ data = text
  | _ => False

/-- The processes in a cgroup: those whose pid was written to its `cgroup.procs`, and the
children that they have started since. -/
inductive Enrolled (dir : Path) : List (Deed (Host Y G)) → Nat → Prop where
  | written {h : List (Deed (Host Y G))} {d : Deed (Host Y G)} {text : String}
      (hd : d.op.Puts (dir ++ ["cgroup.procs"]) text) :
      Enrolled dir (h ++ [d]) (atoi (trimSpace text)).1.toNat
  | forked {h : List (Deed (Host Y G))} {loc : Local} {cmd : Command} {pid : Nat}
      (hp : Enrolled dir h loc.pid) :
      Enrolled dir (h ++ [⟨loc, .proc (.start cmd), some pid⟩]) pid
  | later {h : List (Deed (Host Y G))} {d : Deed (Host Y G)} {pid : Nat} (hp : Enrolled dir h pid) :
      Enrolled dir (h ++ [d]) pid

/-- The service an invocation was launched for: it reads its configuration first. -/
def serviceOf (Y : Yaml) {G : GoIpam} (h : List (Deed (Host Y G))) (id : Nat) : Option Service :=
  match h.find? fun d => decide (Local.id d.doer = id) with
  | some ⟨_, .fs (.readFile _), .ok text⟩ => (Y.unmarshalFile text).map fun f => parseService Y f.body
  | _ => none

/-- The start of a service process with this pid. -/
def Deed.bears (pid : Nat) : Deed (Host Y G) → Bool
  | ⟨_, .proc (.start (.containerInit _)), r⟩ => decide (r = some pid)
  | _ => false

/-- An attempt to make the directory or to write a file in it, without success. -/
def Deed.misses (dir : Path) : Deed (Host Y G) → Bool
  | ⟨_, .fs (.mkdirAll p), r⟩ => p = dir ∧ r = false
  | ⟨_, .fs (.writeFile p _), r⟩ => p.dropLast = dir ∧ r = false
  | _ => false

/-- A service process for which `Service.cg` is over, and everything could be written. -/
structure Prepared (h : List (Deed (Host Y G))) (q : Proc) : Prop where
  started : ∃ d ∈ h, Local.id d.doer = q.owner ∧ Deed.bears q.pid d = true
  finished : ∃ d ∈ h, Local.id d.doer = q.owner ∧ d.op = .proc (.release q.pid)
  written : ∀ d ∈ h, Local.id d.doer = q.owner → Deed.misses (Service.cgroup q.pid) d = false

/-- What stands in a file of a cgroup; without an entry the kernel sets no limit. -/
def World.setting (w : World) (pid : Nat) (file : String) : String :=
  (w.fs.content (Service.cgroup pid ++ [file])).getD "max"

/-- An empty field means no limit. -/
def limit (value : String) : String := if value = "" then "max" else value

/-- The process is in the cgroup prepared for it, and its own limits are set there. -/
structure InForce (s : Service) (w : World) (h : List (Deed (Host Y G))) (q : Proc) : Prop where
  enrolled : Enrolled (Service.cgroup q.pid) h q.pid
  memory : w.setting q.pid "memory.max" = limit s.limitations.memory
  cpu : w.setting q.pid "cpu.max" = limit s.limitations.cpu
  pids : w.setting q.pid "pids.max" = limit s.limitations.pids

/-- At the end of the run, a live service with everything written for it. -/
def Limited (m : Machine (Host Y G) ι) (es : List (Event (Host Y G) ι)) (q : Proc) (s : Service) : Prop :=
  World.Live (m.run es).world q ∧ serviceOf Y (m.history es) q.owner = some s ∧
    Prepared (m.history es) q

/-- Configured limits are in force. -/
def LimitsInForce (m : Machine (Host Y G) ι) (es : List (Event (Host Y G) ι)) : Prop :=
  ∀ q s, Limited m es q s → InForce s (m.run es).world (m.history es) q

end Membership

section Nobody

/-- `clean` leaves the last name of a path that ends in a proper one. -/
theorem cgroup_concat (name : String) :
    ∃ d u, Database.cgroup name = d ++ [u ++ "_cgroup"] ∧ Proper (u ++ "_cgroup") := by
  obtain ⟨ds, u, h⟩ := split_append (c := '/') name "_cgroup" (by decide)
  have hlen : 7 ≤ (u ++ "_cgroup").toList.length := (suffix_append u "_cgroup").length_le
  have hp : Proper (u ++ "_cgroup") := by
    refine ⟨?_, ?_, ?_⟩ <;> intro he <;> rw [he] at hlen <;> exact absurd hlen (by decide)
  refine ⟨clean (["sys", "fs", "cgroup"] ++ ds), u, ?_, hp⟩
  rw [Database.cgroup, h, ← List.append_assoc, clean_concat _ hp]

theorem ne_itoa_of_mem {s : String} {c : Char} (hc : c ∈ s.toList) (hd : c.isDigit = false) (n : Nat) :
    s ≠ itoa n := by
  rintro rfl
  rw [isDigit_of_mem_itoa hc] at hd
  cases hd

/-- A path to `cgroup.procs` by way of a directory that is not a number. -/
theorem clean_procs_ne (d : Path) {u : String} (hu : Proper u) {c : Char} (hc : c ∈ u.toList)
    (hd : c.isDigit = false) (n : Nat) :
    clean (d ++ [u] ++ ["cgroup.procs"]) ≠ Service.cgroup n ++ ["cgroup.procs"] := by
  rw [clean_concat _ (by decide), clean_concat _ hu]
  intro he
  have h := List.append_inj_left' he rfl
  have hcg : Service.cgroup n = ["sys", "fs", "cgroup"] ++ [itoa n] := rfl
  rw [hcg] at h
  exact ne_itoa_of_mem hc hd n (by simpa using List.append_inj_right' h rfl)

/-- No file of the program is the `cgroup.procs` of a cgroup that `Service.cg` makes. -/
theorem Written.ne_procs {p : Path} (h : Written p) (n : Nat) :
    clean p ≠ Service.cgroup n ++ ["cgroup.procs"] := by
  cases h with
  | config => exact clean_ne_concat (p := ["run"]) (m := "envoy-paas.yaml") (by decide) (by decide)
  | fragment upstream =>
    obtain ⟨d, u, hp, hu, hy⟩ := yamlFile_serviceConfPath upstream
    rw [hp]
    refine clean_ne_concat hu ?_
    rintro rfl
    exact absurd hy (by decide)
  | pidFile => exact clean_ne_concat (p := ["run"]) (m := "envoy-paas.pid") (by decide) (by decide)
  | envoyLog =>
    exact clean_ne_concat (p := ["var", "log"]) (m := "envoy-paas.log") (by decide) (by decide)
  | log name =>
    obtain ⟨ds, u, h⟩ := split_append (c := '/') name ".log" (by decide)
    have hend := suffix_append u ".log"
    have hlen : 4 ≤ (u ++ ".log").toList.length := hend.length_le
    have hp : Proper (u ++ ".log") := by
      refine ⟨?_, ?_, ?_⟩ <;> intro he <;> rw [he] at hlen <;> exact absurd hlen (by decide)
    rw [logPath, h, ← List.append_assoc]
    refine clean_ne_concat hp ?_
    intro he
    rw [he] at hend
    exact absurd hend (by decide)
  | limit pid hm =>
    refine clean_ne_concat ?_ ?_
    · simp only [List.mem_cons, List.not_mem_nil, or_false] at hm
      rcases hm with rfl | rfl | rfl <;> decide
    · rintro rfl
      exact absurd hm (by decide)
  | @envoyCgroup m hm =>
    by_cases hprocs : m = "cgroup.procs"
    · subst m
      exact clean_procs_ne ["sys", "fs", "cgroup"] (u := "envoyLb") (c := 'e') (by decide) (by decide)
        (by decide) n
    · obtain rfl : m = "pids.max" := by simpa [hprocs] using hm
      exact clean_ne_concat (by decide) hprocs
  | @databaseCgroup name m hm =>
    obtain ⟨d, u, hd, hu⟩ := cgroup_concat name
    rw [hd]
    by_cases hprocs : m = "cgroup.procs"
    · subst m
      exact clean_procs_ne d hu (c := '_') (by simp) (by decide) n
    · refine clean_ne_concat ?_ hprocs
      have hm' : m = "memory.max" ∨ m = "io.weight" := by simpa [hprocs] using hm
      rcases hm' with rfl | rfl <;> decide
  | access dir =>
    rw [clean_concat _ (by decide)]
    exact clean_ne_concat (by decide) (by decide)

/-- In whatever order invocations write their files, none of them enrols a process in the
cgroup of a service. -/
theorem not_enrolled {h : List (Deed (Host Y G))} (hl : ∀ d ∈ h, Listed d.op) (n pid : Nat) :
    ¬ Enrolled (Service.cgroup n) h pid := by
  intro he
  induction he with
  | @written h d text hd =>
    have hd' : Listed d.op := hl d (by simp)
    cases ho : d.op with
    | fs o =>
      rw [ho] at hd hd'
      cases o with
      | writeFile p data => exact (hd' p rfl).ne_procs n hd.1
      | write p data => exact (hd' p rfl).ne_procs n hd.1
      | append p data => exact (hd' p rfl).ne_procs n hd.1
      | _ => exact hd
    | _ =>
      rw [ho] at hd
      exact hd
  | forked _ ih => exact ih fun d hd => hl d (by simp [hd])
  | later _ ih => exact ih fun d hd => hl d (by simp [hd])

theorem listed_history {m : Machine (Host Y G) ι} (h : m.Idle) (es : List (Event (Host Y G) ι)) :
    ∀ d ∈ m.history es, Listed d.op :=
  ((filesWatch Y G).holds_of_idle h).history es

/-- Limits are in force exactly as long as no service is there that should have them. -/
theorem limits_in_force_iff (m : Machine (Host Y G) ι) (es : List (Event (Host Y G) ι)) (h : m.Idle) :
    LimitsInForce m es ↔ ¬ ∃ q s, Limited m es q s := by
  constructor
  · rintro hall ⟨q, s, hq⟩
    exact not_enrolled (listed_history h es) q.pid q.pid (hall q s hq).enrolled
  · intro hnone q s hq
    exact absurd ⟨q, s, hq⟩ hnone

end Nobody

namespace Sample

def firstService : List (SampleEvent Unit) := create () web 100 :: steps () 30 101

/-- A service runs with its cgroup made and every file written, and is not in it. -/
theorem web_unlimited : (∀ e ∈ firstService, Faultless e) ∧ ¬ LimitsInForce start firstService := by
  refine ⟨by decide +kernel, fun hall => ?_⟩
  obtain ⟨q, hq, hrole, hpid, howner⟩ : ∃ q ∈ (World.procs (start.run firstService).world).all,
      q.role = .workload ∧ q.pid = 101 ∧ q.owner = 1 := by decide +kernel
  have hservice : serviceOf yaml (start.history firstService) 1 = some web.service := by decide +kernel
  have hprep : Prepared (start.history firstService) q := by
    refine ⟨?_, ?_, ?_⟩
    all_goals
      rw [howner, hpid]
      decide +kernel
  have hin := hall q web.service ⟨⟨hq, hrole⟩, by rw [howner]; exact hservice, hprep⟩
  exact not_enrolled (listed_history start_idle firstService) q.pid q.pid hin.enrolled

def serviceGone : List (SampleEvent Unit) := firstService ++ delete () "service" "web" 120 :: steps () 80 121

/-- Once the service is deleted there is nothing left to be limited. -/
theorem gone_limited : LimitsInForce (start (ι := Unit)) serviceGone := by
  refine (limits_in_force_iff start serviceGone start_idle).mpr ?_
  rintro ⟨q, s, hq, _⟩
  have hnone : ∀ q ∈ (World.procs (start.run serviceGone).world).all, q.role ≠ .workload := by
    decide +kernel
  exact hnone q hq.1 hq.2

end Sample
end PrivatePaas
