import PrivatePaas.Host.Rendering

/-!
# The rendering read back

What the rendering of a list of services says when it is read by its block structure, and
which fields a service may have so that it says so.
-/

namespace PrivatePaas
set_option autoImplicit false
open Text Blocks

namespace Parser

section Document

def socketNode (address port : String) : Node :=
  .map [("socket_address", .map [("address", .scalar address), ("port_value", .scalar port)])]

def routesNode (name domain : String) : Node :=
  listOf [.map [("name", .scalar "local_service"), ("domains", .seq [.scalar domain, .scalar (domain ++ ":*")]),
    ("routes", listOf [.map [("match", .map [("prefix", .scalar "/")]),
      ("route", .map [("cluster", .scalar ("cluster_" ++ name))])]])]]

def managerNode (name domain : String) : Node :=
  .map [("@type", .scalar connectionManager), ("stat_prefix", .scalar "ingress_http"),
    ("route_config", .map [("name", .scalar "local_route"), ("virtual_hosts", routesNode name domain)]),
    ("http_filters", listOf [.map [("name", .scalar "envoy.filters.http.router"),
      ("typed_config", .map [("@type", .scalar router)])]])]

def listenerNode (s : EnvoyService) : Node :=
  .map [("name", .scalar ("listener_" ++ s.upstreamName)), ("address", socketNode "0.0.0.0" (itoa s.listenPort)),
    ("filter_chains", listOf [.map [("filters", listOf [.map [
      ("name", .scalar "envoy.filters.network.http_connection_manager"),
      ("typed_config", managerNode s.upstreamName s.domain)]])]])]

def endpointNode (s : EnvoyServer) : Node :=
  .map [("endpoint", .map [("address", socketNode s.address (itoa s.port))])]

def clusterNode (s : EnvoyService) : Node :=
  .map [("name", .scalar ("cluster_" ++ s.upstreamName)), ("connect_timeout", .scalar "0.25s"),
    ("type", .scalar "STATIC"), ("lb_policy", .scalar "ROUND_ROBIN"),
    ("load_assignment", .map [("cluster_name", .scalar ("cluster_" ++ s.upstreamName)),
      ("endpoints", listOf [.map [("lb_endpoints", listOf (s.servers.map endpointNode))]])])]

/-- What the rendering of a list of services says: a listener and a cluster for each. -/
def document (ss : List EnvoyService) : Node :=
  .map [("static_resources", .map [("listeners", listOf (ss.map listenerNode)),
    ("clusters", listOf (ss.map clusterNode))])]

end Document
section Values

theorem inline?_text {s : String} : inline? s.toList = some (.scalar s) ↔ PlainText s.toList := by
  have h := @inline?_eq_some s.toList
  rwa [String.ofList_toList] at h

theorem inline?_word {s : String} (hs : plainStart s.toList = true) (hw : s.toList.all isWord = true) :
    inline? s.toList = some (.scalar s) :=
  inline?_text.mpr (plainText_of_word (List.all_eq_true.mp hw) hs)

/-- The texts of the template that hold no field. -/
def texts : List String := ["0.0.0.0", "envoy.filters.network.http_connection_manager", connectionManager,
  "ingress_http", "local_route", "local_service", "envoy.filters.http.router", router, "0.25s", "STATIC",
  "ROUND_ROBIN"]

theorem inline?_texts : ∀ s ∈ texts, inline? s.toList = some (.scalar s) := by
  have h : ∀ s ∈ texts, plainStart s.toList = true ∧ s.toList.all isWord = true := by decide +kernel
  intro s hs
  obtain ⟨hstart, hw⟩ := h s hs
  exact inline?_word hstart hw

theorem isWord_of_isDigit {c : Char} (h : c.isDigit = true) : isWord c = true ∧ isIndicator c = false := by
  have hle : '0'.val ≤ c.val ∧ c.val ≤ '9'.val := by simpa [Char.isDigit] using h
  have hnat : 48 ≤ c.toNat ∧ c.toNat ≤ 57 := hle
  have hdigit : ∀ n < 58, 48 ≤ n → isWord (Char.ofNat n) = true ∧ isIndicator (Char.ofNat n) = false := by
    decide
  rw [← Char.ofNat_toNat c]
  exact hdigit c.toNat (by omega) hnat.1

theorem inline?_itoa (n : Int) : inline? (itoa n).toList = some (.scalar (itoa n)) := by
  have hdigits : ∀ m : Nat, ∀ c ∈ (itoa m).toList, isWord c = true ∧ isIndicator c = false := fun m c hc =>
    isWord_of_isDigit (isDigit_of_mem_itoa hc)
  have hne : ∀ m : Nat, ∃ c cs, (itoa m).toList = c :: cs := fun m => by
    rw [itoa_natCast]
    exact List.exists_cons_of_ne_nil Nat.toDigits_ne_nil
  cases n with
  | ofNat m =>
    have hw : (itoa m).toList.all isWord = true := List.all_eq_true.mpr fun c hc => (hdigits m c hc).1
    refine inline?_word ?_ hw
    change plainStart (itoa m).toList = true
    obtain ⟨c, cs, hcs⟩ := hne m
    obtain ⟨hword, hind⟩ := hdigits m c (hcs ▸ List.mem_cons_self)
    have h := ((plainText_append (w := (itoa m).toList) (List.all_eq_true.mp hw)
      (by rw [hcs]; simpa using hind) []).mpr ⟨nofun, rfl, rfl, rfl⟩).start
    rwa [List.append_nil] at h
  | negSucc m =>
    have htext : (itoa (.negSucc m)).toList = '-' :: (itoa (m + 1 : Nat)).toList := by
      change ("-" ++ (m + 1).repr).toList = _
      rw [String.toList_append]
      rfl
    obtain ⟨c, cs, hcs⟩ := hne (m + 1)
    obtain ⟨hword, _⟩ := hdigits (m + 1) c (hcs ▸ List.mem_cons_self)
    refine inline?_word ?_ ?_
    · rw [htext, hcs]
      simpa [plainStart] using (isWord_iff.mp hword).2.1
    · rw [htext]
      refine List.all_eq_true.mpr fun d hd => ?_
      rcases List.mem_cons.mp hd with rfl | hd
      · decide
      · exact (hdigits (m + 1) d hd).1

theorem inline?_named {w : String} (hw : w.toList.all isWord = true)
    (hstart : w.toList.head?.any (fun c => ! isIndicator c) = true) (name : String) :
    inline? (w.toList ++ name.toList) = some (.scalar (w ++ name)) ↔ PlainTail name.toList := by
  rw [← plainText_append (List.all_eq_true.mp hw) hstart, ← String.toList_append]
  exact inline?_text

theorem inline?_cluster_iff (name : String) :
    inline? ("cluster_".toList ++ name.toList) = some (.scalar ("cluster_" ++ name)) ↔ PlainTail name.toList :=
  inline?_named (by decide +kernel) (by decide +kernel) name

theorem inline?_domains (d : String) :
    inline? (domainsText d) = some (.seq [.scalar d, .scalar (d ++ ":*")]) ↔ d.toList.all isQuoted = true := by
  have h := @inline?_pair d.toList (d ++ ":*").toList
  rw [String.ofList_toList, String.ofList_toList] at h
  have hq : (d ++ ":*").toList.all isQuoted = d.toList.all isQuoted := by
    rw [String.toList_append, List.all_append]
    exact Bool.and_true _
  rw [hq, and_self] at h
  exact h

theorem value_socketAddress (i : Nat) (address : String) (port : Int) :
    (socketAddress i address.toList (itoa port).toList).value = some (socketNode address (itoa port)) ↔
      inline? address.toList = some (.scalar address) := by
  have hport := inline?_itoa port
  generalize itoa port = port at hport ⊢
  refine Iff.trans (value_mapping rfl rfl (areKeys ["socket_address"] (by decide))) ?_
  simp only [List.forall₂_cons, List.forall₂_nil_left_iff, and_true]
  refine Iff.trans (value_mapping rfl rfl (areKeys ["address", "port_value"] (by decide))) ?_
  simp only [List.forall₂_cons, List.forall₂_nil_left_iff, and_true, Val.value, hport]

theorem value_routes (name domain : String) :
    (routesForest name.toList (domainsText domain)).value = some (routesNode name domain) ↔
      PlainTail name.toList ∧ domain.toList.all isQuoted = true := by
  have hservice := inline?_texts "local_service" (by decide)
  have hslash : inline? "\"/\"".toList = some (.scalar "/") := by rfl
  have hcluster := inline?_cluster_iff name
  refine Iff.trans value_elements ?_
  simp only [List.forall₂_cons, List.forall₂_nil_left_iff, and_true]
  refine Iff.trans (value_mapping rfl rfl (areKeys ["name", "domains", "routes"] (by decide))) ?_
  simp only [List.forall₂_cons, List.forall₂_nil_left_iff, and_true, Val.value, hservice, true_and, inline?_domains]
  rw [and_comm]
  refine and_congr_left fun _ => ?_
  refine Iff.trans value_elements ?_
  simp only [List.forall₂_cons, List.forall₂_nil_left_iff, and_true]
  refine Iff.trans (value_mapping rfl rfl (areKeys ["match", "route"] (by decide))) ?_
  simp only [List.forall₂_cons, List.forall₂_nil_left_iff, and_true, Val.value]
  refine Iff.trans (and_congr (value_mapping rfl rfl (areKeys ["prefix"] (by decide)))
    (value_mapping rfl rfl (areKeys ["cluster"] (by decide)))) ?_
  simp only [List.forall₂_cons, List.forall₂_nil_left_iff, and_true, Val.value, hslash, true_and]
  exact hcluster

theorem value_manager (name domain : String) :
    (managerForest name.toList (domainsText domain)).value = some (managerNode name domain) ↔
      PlainTail name.toList ∧ domain.toList.all isQuoted = true := by
  have hmanager := inline?_texts connectionManager (by simp [texts])
  have hrouter := inline?_texts router (by simp [texts])
  have hingress := inline?_texts "ingress_http" (by decide)
  have hroute := inline?_texts "local_route" (by decide)
  have hfilter := inline?_texts "envoy.filters.http.router" (by decide)
  have hconfig : (mapping 16 [("\"@type\"", .line router.toList)]).value =
      some (.map [("@type", .scalar router)]) ↔ True := by
    refine Iff.trans (value_mapping rfl rfl type_keys) ?_
    simp only [List.forall₂_cons, List.forall₂_nil_left_iff, and_true, Val.value, hrouter]
  have hfilters : (elements 12 [mapping 14 [("name", .line "envoy.filters.http.router".toList),
      ("typed_config", .below (mapping 16 [("\"@type\"", .line router.toList)]))]]).value =
        some (listOf [.map [("name", .scalar "envoy.filters.http.router"),
          ("typed_config", .map [("@type", .scalar router)])]]) ↔ True := by
    refine Iff.trans value_elements ?_
    simp only [List.forall₂_cons, List.forall₂_nil_left_iff, and_true]
    refine Iff.trans (value_mapping rfl rfl (areKeys ["name", "typed_config"] (by decide))) ?_
    simp only [List.forall₂_cons, List.forall₂_nil_left_iff, and_true, Val.value, hfilter, hconfig]
  refine Iff.trans (value_mapping rfl rfl manager_keys) ?_
  simp only [List.forall₂_cons, List.forall₂_nil_left_iff, and_true, Val.value, hmanager, hingress, hfilters,
    true_and]
  refine Iff.trans (value_mapping rfl rfl (areKeys ["name", "virtual_hosts"] (by decide))) ?_
  simp only [List.forall₂_cons, List.forall₂_nil_left_iff, and_true, Val.value, hroute, true_and]
  exact value_routes name domain

theorem value_listener (s : EnvoyService) : (listenerForest s).value = some (listenerNode s) ↔
    PlainTail s.upstreamName.toList ∧ s.domain.toList.all isQuoted = true := by
  have hany := inline?_texts "0.0.0.0" (by decide)
  have hfilter := inline?_texts "envoy.filters.network.http_connection_manager" (by decide)
  have hname : inline? ("listener_".toList ++ s.upstreamName.toList) =
      some (.scalar ("listener_" ++ s.upstreamName)) ↔ _ :=
    inline?_named (by decide +kernel) (by decide +kernel) s.upstreamName
  have haddress := (value_socketAddress 8 "0.0.0.0" s.listenPort).mpr hany
  refine Iff.trans (value_mapping rfl rfl (areKeys ["name", "address", "filter_chains"] (by decide))) ?_
  simp only [List.forall₂_cons, List.forall₂_nil_left_iff, and_true, Val.value, haddress, true_and]
  rw [hname]
  have hchains : ∀ P : Prop, (P ↔ PlainTail s.upstreamName.toList ∧ s.domain.toList.all isQuoted = true) →
      (PlainTail s.upstreamName.toList ∧ P ↔
        PlainTail s.upstreamName.toList ∧ s.domain.toList.all isQuoted = true) := by
    intro P hP
    rw [hP, and_self_left]
  refine hchains _ ?_
  refine Iff.trans value_elements ?_
  simp only [List.forall₂_cons, List.forall₂_nil_left_iff, and_true]
  refine Iff.trans (value_mapping rfl rfl (areKeys ["filters"] (by decide))) ?_
  simp only [List.forall₂_cons, List.forall₂_nil_left_iff, and_true]
  refine Iff.trans value_elements ?_
  simp only [List.forall₂_cons, List.forall₂_nil_left_iff, and_true]
  refine Iff.trans (value_mapping rfl rfl (areKeys ["name", "typed_config"] (by decide))) ?_
  simp only [List.forall₂_cons, List.forall₂_nil_left_iff, and_true, Val.value, hfilter, true_and]
  exact value_manager s.upstreamName s.domain

theorem value_endpoint (s : EnvoyServer) :
    (endpointForest s).value = some (endpointNode s) ↔ PlainText s.address.toList := by
  refine Iff.trans (value_mapping rfl rfl (areKeys ["endpoint"] (by decide))) ?_
  simp only [List.forall₂_cons, List.forall₂_nil_left_iff, and_true]
  refine Iff.trans (value_mapping rfl rfl (areKeys ["address"] (by decide))) ?_
  simp only [List.forall₂_cons, List.forall₂_nil_left_iff, and_true]
  exact (value_socketAddress 16 s.address s.port).trans inline?_text

theorem value_map {α : Type} {i : Nat} {f : α → Forest} {g : α → Node} {l : List α} :
    (elements i (l.map f)).value = some (listOf (l.map g)) ↔ ∀ a ∈ l, (f a).value = some (g a) := by
  rw [value_elements, List.forall₂_map_left_iff, List.forall₂_map_right_iff, List.forall₂_same]

theorem value_cluster (s : EnvoyService) : (clusterForest s).value = some (clusterNode s) ↔
    PlainTail s.upstreamName.toList ∧ ∀ e ∈ s.servers, PlainText e.address.toList := by
  have htimeout := inline?_texts "0.25s" (by decide)
  have hstatic := inline?_texts "STATIC" (by decide)
  have hrobin := inline?_texts "ROUND_ROBIN" (by decide)
  have hname := inline?_cluster_iff s.upstreamName
  have hservers : (elements 10 (s.servers.map endpointForest)).value =
      some (listOf (s.servers.map endpointNode)) ↔ ∀ e ∈ s.servers, PlainText e.address.toList := by
    rw [value_map]
    simp only [value_endpoint]
  refine Iff.trans (value_mapping rfl rfl
    (areKeys ["name", "connect_timeout", "type", "lb_policy", "load_assignment"] (by decide))) ?_
  simp only [List.forall₂_cons, List.forall₂_nil_left_iff, and_true, Val.value, htimeout, hstatic, hrobin,
    hname, true_and]
  refine and_congr_right fun hup => ?_
  refine Iff.trans (value_mapping rfl rfl (areKeys ["cluster_name", "endpoints"] (by decide))) ?_
  simp only [List.forall₂_cons, List.forall₂_nil_left_iff, and_true, Val.value, hname, hup, true_and]
  refine Iff.trans value_elements ?_
  simp only [List.forall₂_cons, List.forall₂_nil_left_iff, and_true]
  refine Iff.trans (value_mapping rfl rfl (areKeys ["lb_endpoints"] (by decide))) ?_
  simp only [List.forall₂_cons, List.forall₂_nil_left_iff, and_true]
  exact hservers

/-- The fields of a service can stand where the template puts them. -/
structure Safe (s : EnvoyService) : Prop where
  upstream : PlainTail s.upstreamName.toList
  domain : s.domain.toList.all isQuoted = true
  address : ∀ e ∈ s.servers, PlainText e.address.toList

instance (s : EnvoyService) : Decidable (Safe s) :=
  decidable_of_iff (PlainTail s.upstreamName.toList ∧ s.domain.toList.all isQuoted = true ∧
      ∀ e ∈ s.servers, PlainText e.address.toList)
    ⟨fun h => ⟨h.1, h.2.1, h.2.2⟩, fun h => ⟨h.upstream, h.domain, h.address⟩⟩

theorem value_envoy (ss : List EnvoyService) :
    (envoyForest ss).value = some (document ss) ↔ ∀ s ∈ ss, Safe s := by
  refine Iff.trans (value_mapping rfl rfl (areKeys ["static_resources"] (by decide))) ?_
  simp only [List.forall₂_cons, List.forall₂_nil_left_iff, and_true]
  refine Iff.trans (value_mapping rfl rfl (areKeys ["listeners", "clusters"] (by decide))) ?_
  simp only [List.forall₂_cons, List.forall₂_nil_left_iff, and_true, Val.value, value_map, value_listener,
    value_cluster]
  constructor
  · intro h s hs
    obtain ⟨hup, hdomain⟩ := h.1 s hs
    exact ⟨hup, hdomain, (h.2 s hs).2⟩
  · intro h
    exact ⟨fun s hs => ⟨(h s hs).upstream, (h s hs).domain⟩, fun s hs => ⟨(h s hs).upstream, (h s hs).address⟩⟩

end Values

section Reading

/-- No field of the service contains a line break. -/
def OneLine (s : EnvoyService) : Prop :=
  oneLine s.upstreamName.toList = true ∧ oneLine s.domain.toList = true ∧
    ∀ e ∈ s.servers, oneLine e.address.toList = true

theorem oneLine_of_plain {cs : List Char} (h : cs.all isPlain = true) : oneLine cs = true := by
  refine oneLine_iff.mpr fun c hc => ?_
  have hplain := List.all_eq_true.mp h c hc
  cases hbreak : isBreak c with
  | false => rfl
  | true =>
    rcases of_decide_eq_true hbreak with rfl | rfl <;> cases hplain

theorem oneLine_of_quoted {cs : List Char} (h : cs.all isQuoted = true) : oneLine cs = true := by
  refine oneLine_iff.mpr fun c hc => ?_
  have hquoted := List.all_eq_true.mp h c hc
  cases hbreak : isBreak c with
  | false => rfl
  | true =>
    rcases of_decide_eq_true hbreak with rfl | rfl <;> cases hquoted

theorem Safe.oneLine {s : EnvoyService} (h : Safe s) : OneLine s :=
  ⟨oneLine_of_plain h.upstream.chars, oneLine_of_quoted h.domain, fun e he =>
    oneLine_of_plain (h.address e he).chars⟩

theorem oneLine_itoa (n : Int) : oneLine (itoa n).toList = true :=
  oneLine_of_plain (inline?_text.mp (inline?_itoa n)).chars

theorem oneLine_domains {d : String} (h : oneLine d.toList = true) : oneLine (domainsText d) = true := by
  refine oneLine_iff.mpr fun c hc => ?_
  have hd := oneLine_iff.mp h
  simp only [domainsText, List.mem_cons, List.mem_append, String.toList_append, List.not_mem_nil, or_false] at hc
  have hall : ":*".toList.all (fun c => ! isBreak c) = true := by decide
  have hstar : ∀ c ∈ ":*".toList, isBreak c = false := fun c hc => by
    simpa using List.all_eq_true.mp hall c hc
  rcases hc with rfl | rfl | hc | rfl | rfl | rfl | rfl | (hc | hc) | rfl | rfl
  case inr.inr.inl => exact hd c hc
  case inr.inr.inr.inr.inr.inr.inr.inl.inl => exact hd c hc
  case inr.inr.inr.inr.inr.inr.inr.inl.inr => exact hstar c hc
  all_goals rfl

theorem oneLine_listener {s : EnvoyService} (h : OneLine s) : (listenerLines s).all oneLine = true := by
  obtain ⟨hup, hdomain, _⟩ := h
  simp only [listenerLines, List.all_cons, List.all_nil, oneLine_lineOf, oneLine_dashLine, oneLine_field,
    oneLine_opening, oneLine_append, hup, oneLine_domains hdomain, oneLine_itoa]
  decide +kernel

theorem oneLine_endpoint {e : EnvoyServer} (h : oneLine e.address.toList = true) :
    (endpointLines e).all oneLine = true := by
  simp only [endpointLines, List.all_cons, List.all_nil, oneLine_lineOf, oneLine_dashLine, oneLine_field,
    oneLine_opening, h, oneLine_itoa]
  decide +kernel

theorem oneLine_cluster {s : EnvoyService} (h : OneLine s) : (clusterLines s).all oneLine = true := by
  obtain ⟨hup, _, haddress⟩ := h
  have hservers : (s.servers.flatMap endpointLines).all oneLine = true := by
    rw [List.all_flatMap]
    exact List.all_eq_true.mpr fun e he => oneLine_endpoint (haddress e he)
  simp only [clusterLines, List.all_append, List.all_cons, List.all_nil, oneLine_lineOf, oneLine_dashLine,
    oneLine_field, oneLine_opening, oneLine_append, hup, hservers]
  decide +kernel

theorem oneLine_envoy {ss : List EnvoyService} (h : ∀ s ∈ ss, OneLine s) :
    (envoyLines ss).all oneLine = true := by
  have hlisteners : (ss.flatMap listenerLines).all oneLine = true := by
    rw [List.all_flatMap]
    exact List.all_eq_true.mpr fun s hs => oneLine_listener (h s hs)
  have hclusters : (ss.flatMap clusterLines).all oneLine = true := by
    rw [List.all_flatMap]
    exact List.all_eq_true.mpr fun s hs => oneLine_cluster (h s hs)
  simp only [envoyLines, List.all_append, List.all_cons, List.all_nil, oneLine_lineOf, oneLine_opening,
    hlisteners, hclusters]
  decide +kernel

theorem read_envoyTmpl {ss : List EnvoyService} (h : ∀ s ∈ ss, OneLine s) :
    Blocks.read (envoyTmpl ss) = (envoyForest ss).value := by
  have hlines : ∀ l ∈ envoyLines ss, ∀ c ∈ l, isBreak c = false := fun l hl =>
    oneLine_iff.mp (List.all_eq_true.mp (oneLine_envoy h) l hl)
  have hbreak : tokens ('\n' :: (envoyTmpl ss).toList) = tokens (envoyTmpl ss).toList :=
    tokens_line (l := []) nofun _
  rw [envoyTmpl_toList, tokens_layLines hlines, expand_envoy] at hbreak
  unfold Blocks.read
  rw [← hbreak, Forest.build_flatten (stands_envoy ss).nested]
  rfl

/-- Where the document has no line break, no field of a service has one. -/
theorem oneLine_of_document {ss : List EnvoyService} (h : (document ss).Over fun c => isBreak c = false) :
    ∀ s ∈ ss, OneLine s := by
  intro s hs
  simp only [document, over_map, List.forall_mem_cons, over_listOf, List.forall_mem_map, List.not_mem_nil,
    false_implies, implies_true, and_true] at h
  obtain ⟨hl, hc⟩ := h
  have hl := hl s hs
  have hc := hc s hs
  simp only [listenerNode, managerNode, routesNode, over_map, List.forall_mem_cons, over_listOf, List.not_mem_nil,
    false_implies, implies_true, and_true, over_scalar, String.toList_append, List.forall_mem_append] at hl
  simp only [clusterNode, endpointNode, socketNode, over_map, List.forall_mem_cons, over_listOf,
    List.forall_mem_map, List.not_mem_nil, false_implies, implies_true, and_true, over_scalar] at hc
  obtain ⟨⟨_, hup⟩, _, _, _, _, ⟨_, _, hdomain, _⟩, _⟩ := hl
  obtain ⟨_, _, _, _, _, haddress⟩ := hc
  have hdomain := over_scalar.mp (over_seq hdomain _ List.mem_cons_self)
  exact ⟨oneLine_iff.mpr hup, oneLine_iff.mpr hdomain, fun e he => oneLine_iff.mpr (haddress e he).1⟩

end Reading

end Parser
end PrivatePaas
