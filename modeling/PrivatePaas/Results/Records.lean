import PrivatePaas.Registry.Creation
import PrivatePaas.Results.Sample

/-!
# Records that tell the truth

A record names the process that the create has started and the address of its interface,
where the create gives it one: the address was acquired, the technology is one that is
started, and a service asks for the load balancer.
-/

namespace PrivatePaas
set_option autoImplicit false
open Files Text Effects Go Network Prog PrivatePaas.Parser

variable {Y : Yaml} {G : GoIpam} {l : Local} {w : World} {me : Nat}

/-- The record has the pid of the workload that this invocation has started, and the
address of the interface there whose other end is on the bridge. -/
def Truthful (Y : Yaml) (me : Nat) (w : World) (e : Entry) : Prop :=
  ∃ p ∈ w.procs, p.role = .workload ∧ p.owner = me ∧ 0 < p.pid ∧ (Y.decode e.value).pid = itoa p.pid ∧
    (Y.decode e.value).ip ≠ "" ∧ w.net.Linked p.pid (Y.decode e.value).ip

/-- A configuration of a workload that is started and gets an interface. -/
def Connecting (Y : Yaml) (file : Cmd.File) : Prop :=
  file.type = "service" ∧ (parseService Y file.body).technology = python ∧
      (parseService Y file.body).lb = true ∧ Nameable (parseService Y file.body).name ∨
    file.type = "db" ∧ (parseYaml Y file.body).technology = postgreSQL ∧
      Nameable (parseYaml Y file.body).name

/-- The pool has an address left, and the file asks for a workload with an interface. -/
def Recordable (Y : Yaml) (G : GoIpam) (w : World) (config : Path) : Prop :=
  w.Stocked G ∧ ∃ text file, w.fs.read config = .ok text ∧ Y.unmarshalFile text = some file ∧
    Connecting Y file

section Wp

/-- Whatever this invocation has recorded is truthful if and only if `P`. -/
def Records (Y : Yaml) (me : Nat) (P : Prop) (w : World) : Prop :=
  ∀ key e, w.kv key = some e → e.author = me → (Truthful Y me w e ↔ P)

theorem World.Unwritten.records (h : w.Unwritten me) (P : Prop) : Records Y me P w :=
  fun key e he ha => absurd ha (h key e he)

theorem wp_set {key : String} {rec : Cmd.Service} {P : Prop} (hr : Running l w)
    (hw : w.Unwritten me)
    (h : Truthful Y me w ⟨Y.marshalRecord rec, me⟩ ↔ P) :
    (Host Y G).wp Smooth (fun _ _ w' => Records Y me P w') l w
      (do let _ ← set key (Y.marshalRecord rec); return ()) := by
  refine wp_alive hr fun c hc => ?_
  obtain ⟨_, hw'⟩ := @perform_smooth Y G l w c hc (.kv (.set key (Y.marshalRecord rec)))
  rw [hw']
  intro k e he ha
  have he : Function.update w.kv key (some ⟨Y.marshalRecord rec, l.id⟩) k = some e := he
  by_cases hk : k = key
  · rw [hk, Function.update_self] at he
    obtain rfl := Option.some.inj he
    exact h
  · rw [Function.update_of_ne hk] at he
    exact absurd ha (hw k e he)

theorem truthful_marshal (hY : Y.Lawful) (rec : Cmd.Service) (a : Nat) :
    Truthful Y me w ⟨Y.marshalRecord rec, a⟩ ↔ ∃ p ∈ w.procs, p.role = .workload ∧ p.owner = me ∧
      0 < p.pid ∧ rec.pid = itoa p.pid ∧ rec.ip ≠ "" ∧ w.net.Linked p.pid rec.ip := by
  unfold Truthful
  simp only [hY.decode_marshal]

theorem Launched.truthful_iff {linked : Prop} {ip : String} {pid : Nat} {rec : Cmd.Service}
    (hY : Y.Lawful) (h : Launched me linked ip pid l w) (hpid : rec.pid = itoa pid) (hip : rec.ip = ip)
    (hstock : ip = "" ∨ parseAddr (Net.cidrOf ip) = true) (a : Nat) :
    Truthful Y me w ⟨Y.marshalRecord rec, a⟩ ↔ linked ∧ ip ≠ "" := by
  obtain ⟨p, hp, hpp, hlink, halone⟩ := h
  rw [truthful_marshal hY, hpid, hip]
  constructor
  · intro ⟨q, hq, hrole, howner, _, _, hne, hlinked⟩
    obtain rfl := hp.only q hq hrole howner
    refine ⟨Classical.byContradiction fun hn => (halone hn).not_linked ip hlinked, hne⟩
  · intro ⟨hl, hne⟩
    have h1 := hp.pid
    exact ⟨p, hp.mem, hp.role, hp.owner, by omega, by rw [hpp], hne,
      hlink hl (hstock.resolve_left hne)⟩

theorem Poised.not_truthful (h : Poised me l w) (e : Entry) : ¬ Truthful Y me w e := by
  intro ⟨q, hq, hrole, howner, _⟩
  exact h.childless q hq hrole howner

theorem parseAddr_hosts {a : String} (h : a ∈ hosts) : parseAddr (Net.cidrOf a) = true := by
  obtain ⟨n, hn, rfl⟩ := mem_hosts.mp h
  have hslash : '/' ∉ (host n).toList := by
    simp only [host, String.toList_append, List.mem_append, not_or]
    exact ⟨by decide, fun hc => absurd (isDigit_of_mem_itoa hc) (by decide)⟩
  have hdot : '.' ∉ (itoa n).toList := fun hc => absurd (isDigit_of_mem_itoa hc) (by decide)
  have hcidr : split '/' (Net.cidrOf (host n)) = [host n, "24"] := by
    rw [Net.cidrOf, if_neg hslash, split_append_cons (u := "24") (host n) (by decide),
      split_of_notMem hslash]
    rfl
  have hparts : split '.' (host n) = ["10", "0", "0", itoa n] := by
    have hhost : host n = "10.0.0" ++ ("." ++ itoa n) := by
      rw [host, ← String.append_assoc]
      rfl
    rw [hhost, split_append_cons (u := itoa n) "10.0.0" (by rw [String.toList_append]; rfl),
      split_of_notMem hdot]
    rfl
  have hvalue : atoi (itoa n) = ((n : Int), true) := atoi_itoa (by unfold maxInt; omega)
  have hten : atoi "10" = (10, true) := by decide
  have hzero : atoi "0" = (0, true) := by decide
  have hlen : atoi "24" = (24, true) := by decide
  simp only [parseAddr, hcidr, hparts, hlen, List.all_cons, List.all_nil, hten, hzero, hvalue]
  simp
  omega

theorem wp_createByType (hY : Y.Lawful) (file : Cmd.File) (ip : String) (h : Poised me l w)
    (hstock : ip = "" ∨ parseAddr (Net.cidrOf ip) = true) :
    (Host Y G).wp Smooth (fun _ _ w' => Records Y me (Connecting Y file ∧ ip ≠ "") w') l w
      (Cmd.createByType Y file ip) := by
  unfold Cmd.createByType
  by_cases hs : file.type = "service"
  · rw [if_pos hs]
    refine wp_createBridge h.sound h.running (fun l₁ n₁ h₁ hn hb hin => ?_)
      fun _ _ _ key e he ha => absurd ha (h.unwritten key e he)
    have hp₁ := h.net h₁ hn hin
    refine System.wp_bind (System.wp_mono (fun r l₂ w₂ h₂ => ?_) (wp_createService file.body ip hp₁ hb))
    have hconn : Connecting Y file ↔ (parseService Y file.body).technology = python ∧
        (parseService Y file.body).lb = true ∧ Nameable (parseService Y file.body).name := by
      simp [Connecting, hs]
    cases r with
    | none => exact World.Unwritten.records h₂ _
    | some s =>
      obtain ⟨_, ⟨htech, hl, hpos⟩ | ⟨htech, hp⟩⟩ := h₂
      · obtain ⟨p, hp, _⟩ := id hl
        refine wp_set hp.running hp.unwritten ?_
        have hpid : itoa s.pid = itoa (s.pid.toNat : Int) := by rw [Int.toNat_of_nonneg hpos]
        rw [@Launched.truthful_iff Y _ _ _ _ ip _ (Cmd.serviceEntry s ip) hY hl hpid rfl hstock, hconn]
        simp [htech]
      · refine wp_set hp.running hp.unwritten ?_
        refine iff_of_false (hp.not_truthful _) fun hc => htech (hconn.mp hc.1).1
  rw [if_neg hs]
  by_cases hd : file.type = "db"
  · rw [if_pos hd]
    refine System.wp_bind (System.wp_mono (fun r l₂ w₂ h₂ => ?_) (wp_createDatabase file.body ip h))
    have hconn : Connecting Y file ↔ (parseYaml Y file.body).technology = postgreSQL ∧
        Nameable (parseYaml Y file.body).name := by
      simp [Connecting, hd]
    cases r with
    | none => exact World.Unwritten.records h₂ _
    | some d =>
      obtain ⟨_, ⟨htech, pid, hpid, hl⟩ | ⟨htech, hp⟩⟩ := h₂
      · obtain ⟨p, hp, _⟩ := id hl
        refine wp_set hp.running hp.unwritten ?_
        rw [@Launched.truthful_iff Y _ _ _ _ ip _ (Cmd.databaseEntry d ip) hY hl hpid rfl hstock, hconn]
        simp [htech]
      · refine wp_set hp.running hp.unwritten ?_
        refine iff_of_false (hp.not_truthful _) fun hc => htech (hconn.mp hc.1).1
  rw [if_neg hd]
  exact World.Unwritten.records h.unwritten _

theorem wp_runCreate (hY : Y.Lawful) (hG : G.Lawful) (config : Path) (h : Poised me l w) :
    (Host Y G).wp Smooth (fun _ _ w' => Records Y me (Recordable Y G w config) w') l w
      (Cmd.runCreate Y config) := by
  refine wp_alive h.running fun c hc => ?_
  obtain ⟨hr, hw⟩ := @perform_smooth Y G l w c hc (.fs (.readFile config))
  have hp₁ : Poised me (perform Y G c l w (.fs (.readFile config))).2.1
      (perform Y G c l w (.fs (.readFile config))).2.2 := h.perform trivial
  have hpool : (perform Y G c l w (.fs (.readFile config))).2.2.pool = w.pool := by rw [hw]; rfl
  have hr : (perform Y G c l w (.fs (.readFile config))).1 = w.fs.read config := hr
  rw [hr]
  cases hread : w.fs.read config with
  | error e => exact World.Unwritten.records hp₁.unwritten _
  | ok text =>
    dsimp only [Prog.bind]
    cases hfile : Y.unmarshalFile text with
    | none => exact World.Unwritten.records hp₁.unwritten _
    | some file =>
      have hiff : ∀ ip : String, (ip ≠ "" ↔ w.Stocked G) →
          (Recordable Y G w config ↔ Connecting Y file ∧ ip ≠ "") := by
        intro ip hip
        rw [hip]
        constructor
        · intro ⟨hstock, text', file', hread', hfile', hconn⟩
          rw [hread] at hread'
          obtain rfl := Except.ok.inj hread'
          rw [hfile] at hfile'
          obtain rfl := Option.some.inj hfile'
          exact ⟨hconn, hstock⟩
        · intro ⟨hconn, hstock⟩
          exact ⟨hstock, text, file, hread, hfile, hconn⟩
      refine System.wp_bind (System.wp_mono (fun r l₂ w₂ h₂ => ?_) (wp_getIp hG hp₁.running))
      obtain ⟨hu, ip, rfl, hip⟩ := h₂
      have hstock : World.Stocked G (perform Y G c l w (.fs (.readFile config))).2.2 ↔ w.Stocked G := by
        unfold World.Stocked
        rw [hpool]
      rw [hstock] at hip
      have hempty : "" ∉ hosts := by decide
      rw [hiff ip]
      · refine wp_createByType hY file ip (hp₁.undisturbed hu) ?_
        rcases hip with ⟨hip, _⟩ | ⟨hip, _⟩
        · exact .inl hip
        · exact .inr (parseAddr_hosts hip)
      · rcases hip with ⟨rfl, hn⟩ | ⟨hip, hs⟩
        · simp [hn]
        · exact iff_of_true (fun he => hempty (he ▸ hip)) hs

end Wp

/-- A create in a coherent world has started nothing yet. -/
theorem World.Coherent.poised {x : Launch} {p : Go Unit} {w' : World} (h : w.Coherent)
    (he : PrivatePaas.enter Y x w = some (l, p, w')) : Poised l.id l w' := by
  obtain ⟨hw, hid, hn⟩ := h.enter he
  unfold PrivatePaas.enter at he
  split at he
  · rename_i hf
    injection he with he
    injection he with hl he
    injection he with _ he
    subst hl he
    refine ⟨rfl, ⟨x.process w.nextId, (Procs.mem_add (h := hf.1)).mpr (.inl rfl), ?_⟩, ?_, ?_, hw.sound, hw.spaces⟩
    · simp [Local.own, Launch.process, Launch.invocation]
    · intro key e hkey hauthor
      have := h.authors key e hkey
      rw [hid] at hauthor
      omega
    · intro q hq hr howner
      rcases (Procs.mem_add (h := hf.1)).mp hq with rfl | hq
      · cases hr
      · have := h.owners q hq hr
        rw [hid] at howner
        omega
  · cases he

/-- What a create by itself has recorded is truthful where the file asks for a workload that
gets an interface and the pool has an address for it, and nowhere else. -/
theorem record_truthful_iff (hY : Y.Lawful) (hG : G.Lawful) (hw : w.Coherent) {config : Path} {pid pgid : Nat}
    {p : Go Unit} {w' : World} (he : enter Y ⟨.create config, pid, pgid⟩ w = some (l, p, w'))
    (c : Nat → (Host Y G).Choice) (hc : ∀ n, Smooth (c n)) {key : String} {e : Entry}
    (hkv : World.kv ((Host Y G).exec c l w' p).world key = some e) (ha : e.author = l.id) :
    Truthful Y l.id ((Host Y G).exec c l w' p).world e ↔ Recordable Y G w config := by
  have hp := hw.poised he
  have hprog : p = Cmd.runCreate Y config ∧ w'.fs = w.fs ∧ w'.pool = w.pool := by
    unfold enter at he
    split at he
    · injection he with he
      injection he with _ he
      injection he with hp he
      subst hp he
      exact ⟨rfl, rfl, rfl⟩
    · cases he
  obtain ⟨rfl, hfs, hpool⟩ := hprog
  have hwp := (System.wp_iff_exec (Y := Host Y G) (C := Smooth) ({} : Choice) rfl).mp
    (wp_runCreate hY hG config hp) c hc key e hkv ha
  rw [hwp]
  unfold Recordable World.Stocked
  rw [hfs, hpool]

namespace Sample

/-- A database runs. -/
def occupied : List (SampleEvent Unit) := create () users 90 :: steps () 60 91

/-- A create that is launched now. -/
def first (c : Config) : Launch := ⟨.create ["root", c.name], 100, 0⟩

def atFirst : World := World.blank tree ["opt", "ppass"]

theorem atFirst_free : atFirst.procs.Free 100 ∧ 1 < 100 ∧ 100 < pidMax := by decide

/-- The host when this create has come in. -/
def entered (c : Config) : World :=
  { atFirst with procs := atFirst.procs.add ((first c).process 1) atFirst_free.1, nextId := 2 }

/-- What its `n`th operation starts gets the pid `101 + n`. -/
def pids (n : Nat) : (Host yaml lowestFree).Choice := ({ pid := 101 + n } : Choice)

def created (c : Config) : World :=
  ((Host yaml lowestFree).exec pids ((first c).invocation 1) (entered c)
    ((first c).task.program yaml)).world

end Sample
open Sample

/-- A service behind Envoy that is created after a database. -/
theorem shop_truthful : ∃ l p w e, enter yaml (first shop) (start.run occupied).world = some (l, p, w) ∧
    World.kv ((Host yaml lowestFree).exec pids l w p).world "service:shop" = some e ∧
    Truthful yaml l.id ((Host yaml lowestFree).exec pids l w p).world e := by
  have hsome : (enter yaml (first shop) (start.run occupied).world).any (fun r =>
      (World.kv ((Host yaml lowestFree).exec pids r.1 r.2.2 r.2.1).world "service:shop").any fun e =>
        e.author = r.1.id) = true := by decide +kernel
  obtain ⟨⟨l, p, w⟩, hr, hr'⟩ := (Option.any_eq_true _ _).mp hsome
  obtain ⟨e, he, ha⟩ := (Option.any_eq_true _ _).mp hr'
  have hcoherent := coherent_run (start_idle (ι := Unit)) (coherent_blank tree ["opt", "ppass"]) occupied
  refine ⟨l, p, w, e, hr, he, (record_truthful_iff yaml_lawful lowestFree_lawful hcoherent.world hr pids (fun _ => rfl)
    he (of_decide_eq_true ha)).mpr ⟨fun s hs => ?_, ?_⟩⟩
  · have hpool : ((start.run occupied).world.pool.all fun s => (lowestFree.acquireIP s).isSome) = true := by
      decide +kernel
    rw [hs, Option.all_some] at hpool
    exact Option.isSome_iff_ne_none.mp hpool
  · have hread : (start.run occupied).world.fs.read ["root", shop.name] = .ok shop.text := by decide +kernel
    have hfile : yaml.unmarshalFile shop.text = some ⟨"service", shop.body⟩ := by decide +kernel
    have hservice : parseService yaml shop.body = shop.service := by decide +kernel
    refine ⟨shop.text, ⟨"service", shop.body⟩, hread, hfile, .inl ⟨rfl, ?_⟩⟩
    rw [hservice]
    exact ⟨by decide, by decide, by decide +kernel⟩

/-- The record of a service without a load balancer gives an address that no interface has. -/
theorem web_untruthful : ∃ e, (created web).kv "service:web" = some e ∧ e.author = 1 ∧
    ¬ Truthful yaml 1 (created web) e := by
  have hkv : ((created web).kv "service:web").any (fun e => e.author = 1) = true := by decide +kernel
  obtain ⟨e, he, ha⟩ := (Option.any_eq_true _ _).mp hkv
  refine ⟨e, he, of_decide_eq_true ha, fun ⟨p, _, _, _, _, _, _, hlinked⟩ => ?_⟩
  have hpairs : ∀ k ∈ (created web).net.links, k.pair = 0 := by decide +kernel
  exact Net.Alone.not_linked (fun k hk _ => hpairs k hk) _ hlinked

end PrivatePaas
