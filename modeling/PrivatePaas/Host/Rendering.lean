import PrivatePaas.Base.BlockLayout
import PrivatePaas.Data

/-!
# The template as a layout in blocks

What `envoy.tmpl` renders, line by line, and the blocks these lines are.
-/

namespace PrivatePaas
set_option autoImplicit false
open Text Blocks

namespace Parser

section Lines

/-- `["d", "d:*"]` -/
def domainsText (d : String) : List Char :=
  '[' :: '"' :: (d.toList ++ '"' :: ',' :: ' ' :: '"' :: ((d ++ ":*").toList ++ ['"', ']']))

def connectionManager : String := "type.googleapis.com/envoy.extensions.filters.network." ++
  "http_connection_manager.v3.HttpConnectionManager"

def router : String := "type.googleapis.com/envoy.extensions.filters." ++ "http.router.v3.Router"

def listenerLines (s : EnvoyService) : List (List Char) := [
  dashLine 4 (fieldText "name" ("listener_".toList ++ s.upstreamName.toList)),
  lineOf 6 (openingText "address"),
  lineOf 8 (openingText "socket_address"),
  lineOf 10 (fieldText "address" "0.0.0.0".toList),
  lineOf 10 (fieldText "port_value" (itoa s.listenPort).toList),
  lineOf 6 (openingText "filter_chains"),
  dashLine 6 (openingText "filters"),
  dashLine 8 (fieldText "name" "envoy.filters.network.http_connection_manager".toList),
  lineOf 10 (openingText "typed_config"),
  lineOf 12 (fieldText "\"@type\"" connectionManager.toList),
  lineOf 12 (fieldText "stat_prefix" "ingress_http".toList),
  lineOf 12 (openingText "route_config"),
  lineOf 14 (fieldText "name" "local_route".toList),
  lineOf 14 (openingText "virtual_hosts"),
  dashLine 14 (fieldText "name" "local_service".toList),
  lineOf 16 (fieldText "domains" (domainsText s.domain)),
  lineOf 16 (openingText "routes"),
  dashLine 16 (openingText "match"),
  lineOf 20 (fieldText "prefix" "\"/\"".toList),
  lineOf 18 (openingText "route"),
  lineOf 20 (fieldText "cluster" ("cluster_".toList ++ s.upstreamName.toList)),
  lineOf 12 (openingText "http_filters"),
  dashLine 12 (fieldText "name" "envoy.filters.http.router".toList),
  lineOf 14 (openingText "typed_config"),
  lineOf 16 (fieldText "\"@type\"" router.toList)]

def endpointLines (s : EnvoyServer) : List (List Char) := [
  dashLine 10 (openingText "endpoint"),
  lineOf 14 (openingText "address"),
  lineOf 16 (openingText "socket_address"),
  lineOf 18 (fieldText "address" s.address.toList),
  lineOf 18 (fieldText "port_value" (itoa s.port).toList)]

def clusterLines (s : EnvoyService) : List (List Char) := [
  dashLine 4 (fieldText "name" ("cluster_".toList ++ s.upstreamName.toList)),
  lineOf 6 (fieldText "connect_timeout" "0.25s".toList),
  lineOf 6 (fieldText "type" "STATIC".toList),
  lineOf 6 (fieldText "lb_policy" "ROUND_ROBIN".toList),
  lineOf 6 (openingText "load_assignment"),
  lineOf 8 (fieldText "cluster_name" ("cluster_".toList ++ s.upstreamName.toList)),
  lineOf 8 (openingText "endpoints"),
  dashLine 8 (openingText "lb_endpoints")] ++ s.servers.flatMap endpointLines

def envoyLines (ss : List EnvoyService) : List (List Char) :=
  [lineOf 0 (openingText "static_resources"), lineOf 2 (openingText "listeners")] ++
    ss.flatMap listenerLines ++ [[], lineOf 2 (openingText "clusters")] ++
    ss.flatMap clusterLines ++ [[]]

/-- A literal, given by its characters. -/
def literal (cs : List Char) : String := .ofList cs

theorem toList_literal (cs : List Char) : (literal cs).toList = cs := String.toList_ofList

theorem layLines_append (ls ls' : List (List Char)) : layLines (ls ++ ls') = layLines ls ++ layLines ls' :=
  List.flatMap_append

theorem layLines_cons (l : List Char) (ls : List (List Char)) : layLines (l :: ls) = '\n' :: (l ++ layLines ls) :=
  rfl

set_option maxRecDepth 2000 in
theorem listener_toList (s : EnvoyService) : (listener s).toList = layLines (listenerLines s) := by
  -- the literals of the template, cut at their line breaks
  have hlit : listener s =
      literal ('\n' :: dashLine 4 (fieldText "name" "listener_".toList)) ++ s.upstreamName ++
      literal (layLines [lineOf 6 (openingText "address"), lineOf 8 (openingText "socket_address"),
        lineOf 10 (fieldText "address" "0.0.0.0".toList), lineOf 10 (fieldText "port_value" [])]) ++
      itoa s.listenPort ++
      literal (layLines [lineOf 6 (openingText "filter_chains"), dashLine 6 (openingText "filters"),
        dashLine 8 (fieldText "name" "envoy.filters.network.http_connection_manager".toList)]) ++
      literal (layLines [lineOf 10 (openingText "typed_config"), lineOf 12 (fieldText "\"@type\""
        "type.googleapis.com/envoy.extensions.filters.network.".toList)]) ++
      literal ("http_connection_manager.v3.HttpConnectionManager".toList ++
        layLines [lineOf 12 (fieldText "stat_prefix" "ingress_http".toList)]) ++
      literal (layLines [lineOf 12 (openingText "route_config"),
        lineOf 14 (fieldText "name" "local_route".toList), lineOf 14 (openingText "virtual_hosts")]) ++
      literal (layLines [dashLine 14 (fieldText "name" "local_service".toList),
        lineOf 16 (fieldText "domains" ['[', '"'])]) ++ s.domain ++ literal ['"', ',', ' ', '"'] ++ s.domain ++
      literal (":*".toList ++ ['"', ']'] ++ layLines [lineOf 16 (openingText "routes"),
        dashLine 16 (openingText "match"), lineOf 20 (fieldText "prefix" "\"/\"".toList)]) ++
      literal (layLines [lineOf 18 (openingText "route"),
        lineOf 20 (fieldText "cluster" "cluster_".toList)]) ++ s.upstreamName ++
      literal (layLines [lineOf 12 (openingText "http_filters"),
        dashLine 12 (fieldText "name" "envoy.filters.http.router".toList)]) ++
      literal (layLines [lineOf 14 (openingText "typed_config"), lineOf 16 (fieldText "\"@type\""
        "type.googleapis.com/envoy.extensions.filters.".toList)]) ++
      literal "http.router.v3.Router".toList := rfl
  have hnil : layLines [] = [] := rfl
  rw [hlit, listenerLines]
  delta connectionManager router
  simp only [-String.reduceToList, domainsText, lineOf, dashLine,
    fieldText, openingText, layLines_cons, hnil, String.toList_append, toList_literal, List.append_assoc,
    List.append_nil, List.cons_append, List.nil_append]

theorem foldr_toList {α : Type} (f : α → String) (l : List α) :
    (l.foldr (fun s r => f s ++ r) "").toList = l.flatMap fun s => (f s).toList := by
  induction l with
  | nil => rfl
  | cons a l ih => simp [ih]

theorem endpoint_toList (s : EnvoyServer) : (endpoint s).toList = layLines (endpointLines s) := by
  have hlit : endpoint s =
      literal (layLines [dashLine 10 (openingText "endpoint"), lineOf 14 (openingText "address"),
        lineOf 16 (openingText "socket_address")]) ++
      literal (layLines [lineOf 18 (fieldText "address" [])]) ++ s.address ++
      literal (layLines [lineOf 18 (fieldText "port_value" [])]) ++ itoa s.port := rfl
  rw [hlit]
  simp only [-String.reduceToList, endpointLines, lineOf, dashLine, fieldText, openingText, layLines,
    String.toList_append, toList_literal, List.append_assoc, List.flatMap_cons, List.flatMap_nil,
    List.append_nil, List.cons_append, List.nil_append]

theorem cluster_toList (s : EnvoyService) : (cluster s).toList = layLines (clusterLines s) := by
  have hservers : (s.servers.foldr (fun e r => endpoint e ++ r) "").toList =
      layLines (s.servers.flatMap endpointLines) := by
    rw [foldr_toList, layLines, List.flatMap_assoc]
    simp only [endpoint_toList, layLines]
  have hlit : cluster s =
      literal ('\n' :: dashLine 4 (fieldText "name" "cluster_".toList)) ++ s.upstreamName ++
      literal (layLines [lineOf 6 (fieldText "connect_timeout" "0.25s".toList),
        lineOf 6 (fieldText "type" "STATIC".toList),
        lineOf 6 (fieldText "lb_policy" "ROUND_ROBIN".toList)]) ++
      literal (layLines [lineOf 6 (openingText "load_assignment"),
        lineOf 8 (fieldText "cluster_name" "cluster_".toList)]) ++ s.upstreamName ++
      literal (layLines [lineOf 8 (openingText "endpoints"), dashLine 8 (openingText "lb_endpoints")]) ++
      s.servers.foldr (fun e r => endpoint e ++ r) "" := rfl
  rw [hlit, String.toList_append, hservers, clusterLines, layLines_append]
  simp only [-String.reduceToList, lineOf, dashLine, fieldText, openingText, layLines_cons,
    String.toList_append, toList_literal, List.append_assoc, List.cons_append, List.nil_append]
  simp only [layLines, List.flatMap_nil, List.nil_append]

theorem envoyTmpl_toList (ss : List EnvoyService) :
    '\n' :: (envoyTmpl ss).toList = layLines (envoyLines ss) := by
  have hlisteners : (ss.foldr (fun s r => listener s ++ r) "").toList =
      layLines (ss.flatMap listenerLines) := by
    rw [foldr_toList, layLines, List.flatMap_assoc]
    simp only [listener_toList, layLines]
  have hclusters : (ss.foldr (fun s r => cluster s ++ r) "").toList =
      layLines (ss.flatMap clusterLines) := by
    rw [foldr_toList, layLines, List.flatMap_assoc]
    simp only [cluster_toList, layLines]
  have hlit : envoyTmpl ss =
      literal (openingText "static_resources" ++ layLines [lineOf 2 (openingText "listeners")]) ++
      ss.foldr (fun s r => listener s ++ r) "" ++
      literal (layLines [[], lineOf 2 (openingText "clusters")]) ++
      ss.foldr (fun s r => cluster s ++ r) "" ++ literal ['\n'] := rfl
  rw [hlit]
  simp only [envoyLines, layLines_append, String.toList_append, toList_literal, hlisteners, hclusters,
    layLines_cons, List.append_assoc, List.cons_append, List.nil_append]
  rfl

end Lines
section Layout

def socketAddress (i : Nat) (address port : List Char) : Forest :=
  mapping i [("socket_address", .below (mapping (i + 2) [("address", .line address), ("port_value", .line port)]))]

def routesForest (name domains : List Char) : Forest :=
  elements 14 [mapping 16 [("name", .line "local_service".toList), ("domains", .line domains),
    ("routes", .below (elements 16 [mapping 18 [
      ("match", .below (mapping 20 [("prefix", .line "\"/\"".toList)])),
      ("route", .below (mapping 20 [("cluster", .line ("cluster_".toList ++ name))]))]]))]]

def managerForest (name domains : List Char) : Forest :=
  mapping 12 [("\"@type\"", .line connectionManager.toList), ("stat_prefix", .line "ingress_http".toList),
    ("route_config", .below (mapping 14 [("name", .line "local_route".toList),
      ("virtual_hosts", .below (routesForest name domains))])),
    ("http_filters", .below (elements 12 [mapping 14 [("name", .line "envoy.filters.http.router".toList),
      ("typed_config", .below (mapping 16 [("\"@type\"", .line router.toList)]))]]))]

def listenerForest (s : EnvoyService) : Forest :=
  mapping 6 [("name", .line ("listener_".toList ++ s.upstreamName.toList)),
    ("address", .below (socketAddress 8 "0.0.0.0".toList (itoa s.listenPort).toList)),
    ("filter_chains", .below (elements 6 [mapping 8 [("filters", .below (elements 8 [mapping 10 [
      ("name", .line "envoy.filters.network.http_connection_manager".toList),
      ("typed_config", .below (managerForest s.upstreamName.toList (domainsText s.domain)))]]))]]))]

def endpointForest (s : EnvoyServer) : Forest :=
  mapping 12 [("endpoint", .below (mapping 14 [("address", .below
    (socketAddress 16 s.address.toList (itoa s.port).toList))]))]

def clusterForest (s : EnvoyService) : Forest :=
  mapping 6 [("name", .line ("cluster_".toList ++ s.upstreamName.toList)),
    ("connect_timeout", .line "0.25s".toList), ("type", .line "STATIC".toList),
    ("lb_policy", .line "ROUND_ROBIN".toList),
    ("load_assignment", .below (mapping 8 [
      ("cluster_name", .line ("cluster_".toList ++ s.upstreamName.toList)),
      ("endpoints", .below (elements 8 [mapping 10 [
        ("lb_endpoints", .below (elements 10 (s.servers.map endpointForest)))]]))]))]

def envoyForest (ss : List EnvoyService) : Forest :=
  mapping 0 [("static_resources", .below (mapping 2 [
    ("listeners", .below (elements 4 (ss.map listenerForest))),
    ("clusters", .below (elements 4 (ss.map clusterForest)))]))]

theorem flatten_elements_map {α : Type} (i : Nat) (f : α → Forest) (l : List α) :
    (elements i (l.map f)).flatten = l.flatMap fun a => ⟨i, .dash⟩ :: (f a).flatten := by
  induction l with
  | nil => rfl
  | cons a l ih => simp [elements, Forest.flatten, ih]

theorem expand_endpoint (s : EnvoyServer) :
    (endpointLines s).flatMap (expand 0) = ⟨10, .dash⟩ :: (endpointForest s).flatten := by
  unfold endpointLines
  simp (disch := decide) only [List.flatMap_cons, List.flatMap_nil, line_field, line_opening, dash_opening]
  rfl

set_option maxRecDepth 1000 in
theorem expand_listener (s : EnvoyService) :
    (listenerLines s).flatMap (expand 0) = ⟨4, .dash⟩ :: (listenerForest s).flatten := by
  unfold listenerLines
  simp (disch := decide) only [List.flatMap_cons, List.flatMap_nil, line_field, line_opening, dash_field,
    dash_opening]
  simp only [listenerForest, managerForest, routesForest, socketAddress, mapping, elements, Forest.flatten,
    List.cons_append, List.nil_append, List.append_nil]

theorem expand_cluster (s : EnvoyService) :
    (clusterLines s).flatMap (expand 0) = ⟨4, .dash⟩ :: (clusterForest s).flatten := by
  have hservers : (s.servers.flatMap endpointLines).flatMap (expand 0) =
      (elements 10 (s.servers.map endpointForest)).flatten := by
    rw [flatten_elements_map, List.flatMap_assoc]
    simp only [expand_endpoint]
  unfold clusterLines
  rw [List.flatMap_append, hservers]
  simp (disch := decide) only [List.flatMap_cons, List.flatMap_nil, line_field, line_opening, dash_field,
    dash_opening]
  simp only [clusterForest, mapping, elements, Forest.flatten, List.cons_append, List.nil_append,
    List.append_nil]

theorem expand_envoy (ss : List EnvoyService) :
    (envoyLines ss).flatMap (expand 0) = (envoyForest ss).flatten := by
  have hlisteners : (ss.flatMap listenerLines).flatMap (expand 0) =
      (elements 4 (ss.map listenerForest)).flatten := by
    rw [flatten_elements_map, List.flatMap_assoc]
    simp only [expand_listener]
  have hclusters : (ss.flatMap clusterLines).flatMap (expand 0) =
      (elements 4 (ss.map clusterForest)).flatten := by
    rw [flatten_elements_map, List.flatMap_assoc]
    simp only [expand_cluster]
  have hblank : expand 0 [] = [] := rfl
  unfold envoyLines
  simp only [List.flatMap_append, hlisteners, hclusters]
  simp (disch := decide) only [List.flatMap_cons, List.flatMap_nil, line_opening, hblank]
  simp only [envoyForest, mapping, Forest.flatten, List.cons_append, List.nil_append, List.append_nil,
    List.append_assoc]

end Layout

section Standing

/-- The mappings of the template, by their keys. -/
def blockKeys : List (List String) := [
  ["static_resources"], ["listeners", "clusters"], ["name", "address", "filter_chains"], ["filters"],
  ["name", "typed_config"], ["name", "virtual_hosts"], ["name", "domains", "routes"], ["match", "route"],
  ["prefix"], ["cluster"], ["name", "connect_timeout", "type", "lb_policy", "load_assignment"],
  ["cluster_name", "endpoints"], ["lb_endpoints"], ["endpoint"], ["address"], ["socket_address"],
  ["address", "port_value"]]

theorem areKeys : ∀ ks ∈ blockKeys, AreKeys ks ks := by decide +kernel

theorem manager_keys : AreKeys ["\"@type\"", "stat_prefix", "route_config", "http_filters"]
    ["@type", "stat_prefix", "route_config", "http_filters"] := by decide +kernel

theorem type_keys : AreKeys ["\"@type\""] ["@type"] := by
  have hread : readKey "\"@type\"" = some "@type" := (List.cons.inj manager_keys.2.2).1
  exact ⟨List.cons_ne_nil _ _, List.nodup_singleton _, congrArg (· :: []) hread⟩

/-- A key with a text. -/
theorem sits_line (i : Nat) (v : List Char) : (Val.line v).Sits i := trivial

theorem stands_socketAddress (i : Nat) (address port : List Char) :
    Stands i (socketAddress i address port) := by
  refine stands_mapping rfl (areKeys ["socket_address"] (by decide)) ?_
  rw [List.forall_mem_singleton]
  refine Stands.sits (n := i + 2) ?_ (by omega)
  refine stands_mapping rfl (areKeys ["address", "port_value"] (by decide)) ?_
  simp [sits_line]

theorem sits_routes (name domains : List Char) : (Val.below (routesForest name domains)).Sits 14 := by
  refine sits_elements (n := 16) (by omega) ?_
  rw [List.forall_mem_singleton]
  refine stands_mapping rfl (areKeys ["name", "domains", "routes"] (by decide)) ?_
  simp only [List.forall_mem_cons, List.not_mem_nil, false_implies, implies_true, and_true,
    sits_line, true_and]
  refine sits_elements (n := 18) (by omega) ?_
  rw [List.forall_mem_singleton]
  refine stands_mapping rfl (areKeys ["match", "route"] (by decide)) ?_
  simp only [List.forall_mem_cons, List.not_mem_nil, false_implies, implies_true, and_true]
  constructor
  · refine Stands.sits (n := 20) (stands_mapping rfl (areKeys ["prefix"] (by decide)) ?_) (by omega)
    simp [sits_line]
  · refine Stands.sits (n := 20) (stands_mapping rfl (areKeys ["cluster"] (by decide)) ?_) (by omega)
    simp [sits_line]

theorem stands_manager (name domains : List Char) : Stands 12 (managerForest name domains) := by
  refine stands_mapping rfl manager_keys ?_
  simp only [List.forall_mem_cons, List.not_mem_nil, false_implies, implies_true, and_true,
    sits_line, true_and]
  constructor
  · refine Stands.sits (n := 14) (stands_mapping rfl (areKeys ["name", "virtual_hosts"] (by decide)) ?_) (by omega)
    simp only [List.forall_mem_cons, List.not_mem_nil, false_implies, implies_true, and_true,
    sits_line, true_and]
    exact sits_routes name domains
  · refine sits_elements (n := 14) (by omega) ?_
    rw [List.forall_mem_singleton]
    refine stands_mapping rfl (areKeys ["name", "typed_config"] (by decide)) ?_
    simp only [List.forall_mem_cons, List.not_mem_nil, false_implies, implies_true, and_true,
    sits_line, true_and]
    refine Stands.sits (n := 16) (stands_mapping rfl type_keys ?_) (by omega)
    simp [sits_line]

theorem stands_listener (s : EnvoyService) : Stands 6 (listenerForest s) := by
  refine stands_mapping rfl (areKeys ["name", "address", "filter_chains"] (by decide)) ?_
  simp only [List.forall_mem_cons, List.not_mem_nil, false_implies, implies_true, and_true,
    sits_line, true_and]
  refine ⟨(stands_socketAddress 8 _ _).sits (by omega), ?_⟩
  refine sits_elements (n := 8) (by omega) ?_
  rw [List.forall_mem_singleton]
  refine stands_mapping rfl (areKeys ["filters"] (by decide)) ?_
  rw [List.forall_mem_singleton]
  refine sits_elements (n := 10) (by omega) ?_
  rw [List.forall_mem_singleton]
  refine stands_mapping rfl (areKeys ["name", "typed_config"] (by decide)) ?_
  simp only [List.forall_mem_cons, List.not_mem_nil, false_implies, implies_true, and_true,
    sits_line, true_and]
  exact (stands_manager _ _).sits (by omega)

theorem stands_endpoint (s : EnvoyServer) : Stands 12 (endpointForest s) := by
  refine stands_mapping rfl (areKeys ["endpoint"] (by decide)) ?_
  rw [List.forall_mem_singleton]
  refine Stands.sits (n := 14) (stands_mapping rfl (areKeys ["address"] (by decide)) ?_) (by omega)
  rw [List.forall_mem_singleton]
  exact (stands_socketAddress 16 _ _).sits (by omega)

theorem stands_cluster (s : EnvoyService) : Stands 6 (clusterForest s) := by
  refine stands_mapping rfl
    (areKeys ["name", "connect_timeout", "type", "lb_policy", "load_assignment"] (by decide)) ?_
  simp only [List.forall_mem_cons, List.not_mem_nil, false_implies, implies_true, and_true,
    sits_line, true_and]
  refine Stands.sits (n := 8) (stands_mapping rfl (areKeys ["cluster_name", "endpoints"] (by decide)) ?_) (by omega)
  simp only [List.forall_mem_cons, List.not_mem_nil, false_implies, implies_true, and_true,
    sits_line, true_and]
  refine sits_elements (n := 10) (by omega) ?_
  rw [List.forall_mem_singleton]
  refine stands_mapping rfl (areKeys ["lb_endpoints"] (by decide)) ?_
  rw [List.forall_mem_singleton]
  refine sits_elements (n := 12) (by omega) fun f hf => ?_
  obtain ⟨e, _, rfl⟩ := List.mem_map.mp hf
  exact stands_endpoint e

theorem stands_envoy (ss : List EnvoyService) : Stands 0 (envoyForest ss) := by
  refine stands_mapping rfl (areKeys ["static_resources"] (by decide)) ?_
  rw [List.forall_mem_singleton]
  refine Stands.sits (n := 2) (stands_mapping rfl (areKeys ["listeners", "clusters"] (by decide)) ?_) (by omega)
  simp only [List.forall_mem_cons, List.not_mem_nil, false_implies, implies_true, and_true]
  constructor
  · refine Stands.sits (n := 4) (stands_elements (n := 6) (by omega) fun f hf => ?_) (by omega)
    obtain ⟨s, _, rfl⟩ := List.mem_map.mp hf
    exact stands_listener s
  · refine Stands.sits (n := 4) (stands_elements (n := 6) (by omega) fun f hf => ?_) (by omega)
    obtain ⟨s, _, rfl⟩ := List.mem_map.mp hf
    exact stands_cluster s

end Standing

end Parser
end PrivatePaas
