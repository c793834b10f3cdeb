import PrivatePaas.Base.BlockPaths
import PrivatePaas.Host.Document

/-!
# Listeners, virtual hosts and clusters

What Envoy finds in a configuration: the ports that are bound, the domains that are
routed, and the endpoints behind each cluster. The rendering of any services gives
each of them a listener with one virtual host, and a cluster.
-/

namespace PrivatePaas
set_option autoImplicit false
open Text Blocks PrivatePaas.Parser

section Views

def listeners (doc : Node) : List Node := doc.itemsAt ["static_resources", "listeners"]

def clusters (doc : Node) : List Node := doc.itemsAt ["static_resources", "clusters"]

def port (l : Node) : Option String := l.textAt ["address", "socket_address", "port_value"]

def virtualHosts (l : Node) : List Node :=
  (l.itemsAt ["filter_chains"]).flatMap fun c => (c.itemsAt ["filters"]).flatMap fun f =>
    f.itemsAt ["typed_config", "route_config", "virtual_hosts"]

def domains (h : Node) : List String := (h.itemsAt ["domains"]).filterMap Node.text?

def routes (h : Node) : List (Option String) := (h.itemsAt ["routes"]).map (Node.textAt ["route", "cluster"])

/-- Address and port of every endpoint of a cluster. -/
def endpoints (k : Node) : List (Option String × Option String) :=
  (k.itemsAt ["load_assignment", "endpoints"]).flatMap fun e => (e.itemsAt ["lb_endpoints"]).map fun x =>
    (x.textAt ["endpoint", "address", "socket_address", "address"],
      x.textAt ["endpoint", "address", "socket_address", "port_value"])

def clusterName (k : Node) : Option String := k.textAt ["name"]

/-- The listener on the port of the fragment has one virtual host for its domain, which
leads to the one cluster of its name with its servers. -/
def Serves (doc : Node) (c : ServiceEnvoyConfig) : Prop :=
  ∃ l ∈ listeners doc, port l = some (itoa c.listenPort) ∧
    ∃ h, (virtualHosts l).filter (fun h => c.domain ∈ domains h) = [h] ∧
      routes h = [some ("cluster_" ++ c.upstreamName)] ∧
      ∃ k, (clusters doc).filter (fun k => clusterName k = some ("cluster_" ++ c.upstreamName)) = [k] ∧
        endpoints k = c.servers.map fun s => (some (parseServer s).address, some (itoa (parseServer s).port))

/-- Every port is bound by one listener, and every fragment is served. -/
structure Routed (doc : Node) (cs : List ServiceEnvoyConfig) : Prop where
  bound : ((listeners doc).map port).Nodup
  served : ∀ c ∈ cs, Serves doc c

end Views
section Rendered
variable {n : Node} {s : EnvoyService}

theorem view_socketAddress {i : Nat} {address port : List Char} (h : (socketAddress i address port).value = some n) :
    n.textAt ["socket_address", "address"] = (inline? address).bind Node.text? ∧
      n.textAt ["socket_address", "port_value"] = (inline? port).bind Node.text? := by
  obtain ⟨m, hm, hn⟩ := at?_mapping 0 h rfl (areKeys ["socket_address"] (by decide)) rfl rfl
  obtain ⟨a, ha, hma⟩ := at?_mapping 0 hm rfl (areKeys ["address", "port_value"] (by decide)) rfl rfl
  obtain ⟨p, hp, hmp⟩ := at?_mapping 1 hm rfl (areKeys ["address", "port_value"] (by decide)) rfl rfl
  have ha : inline? address = some a := ha
  have hp : inline? port = some p := hp
  unfold Node.textAt
  rw [hn, hn, hma, hmp, ha, hp]
  exact ⟨rfl, rfl⟩

theorem view_routes {name domain : String} (h : (routesForest name.toList (domainsText domain)).value = some n) :
    ∃ v, n.items = [v] ∧ v.at? ["domains"] = inline? (domainsText domain) ∧
      routes v = [(inline? ("cluster_".toList ++ name.toList)).bind Node.text?] := by
  obtain ⟨v, hitems, hv⟩ := items_singleton h
  obtain ⟨d, hd, hvd⟩ := at?_mapping 1 hv rfl (areKeys ["name", "domains", "routes"] (by decide)) rfl rfl
  obtain ⟨r, hr, hvr⟩ := at?_mapping 2 hv rfl (areKeys ["name", "domains", "routes"] (by decide)) rfl rfl
  obtain ⟨x, hx, hxv⟩ := items_singleton hr
  obtain ⟨y, hy, hxy⟩ := at?_mapping 1 hxv rfl (areKeys ["match", "route"] (by decide)) rfl rfl
  obtain ⟨z, hz, hyz⟩ := at?_mapping 0 hy rfl (areKeys ["cluster"] (by decide)) rfl rfl
  have hd : inline? (domainsText domain) = some d := hd
  have hz : inline? ("cluster_".toList ++ name.toList) = some z := hz
  refine ⟨v, hitems, by rw [hvd, hd]; rfl, ?_⟩
  unfold routes Node.itemsAt Node.textAt
  rw [hvr]
  change r.items.map _ = _
  rw [hx, List.map_singleton, hxy, hyz, hz]
  rfl

theorem view_manager {name domain : String}
    (h : (managerForest name.toList (domainsText domain)).value = some n) :
    ∃ v, n.itemsAt ["route_config", "virtual_hosts"] = [v] ∧ v.at? ["domains"] = inline? (domainsText domain) ∧
      routes v = [(inline? ("cluster_".toList ++ name.toList)).bind Node.text?] := by
  obtain ⟨c, hc, hnc⟩ := at?_mapping 2 h rfl manager_keys rfl rfl
  obtain ⟨r, hr, hcr⟩ := at?_mapping 1 hc rfl (areKeys ["name", "virtual_hosts"] (by decide)) rfl rfl
  obtain ⟨v, hitems, hdomains, hroutes⟩ := view_routes hr
  refine ⟨v, ?_, hdomains, hroutes⟩
  unfold Node.itemsAt
  rw [hnc, hcr]
  exact hitems

/-- The listener of a service is bound to its port and has one virtual host. -/
theorem view_listener (h : (listenerForest s).value = some n) :
    port n = some (itoa s.listenPort) ∧
      ∃ v, virtualHosts n = [v] ∧ v.at? ["domains"] = inline? (domainsText s.domain) ∧
        routes v = [(inline? ("cluster_".toList ++ s.upstreamName.toList)).bind Node.text?] := by
  have keys := areKeys ["name", "address", "filter_chains"] (by decide)
  obtain ⟨a, ha, hna⟩ := at?_mapping 1 h rfl keys rfl rfl
  obtain ⟨f, hf, hnf⟩ := at?_mapping 2 h rfl keys rfl rfl
  constructor
  · have hport := (view_socketAddress ha).2
    rw [inline?_itoa] at hport
    unfold port Node.textAt
    rw [hna]
    exact hport
  · obtain ⟨x, hx, hfx⟩ := items_singleton hf
    obtain ⟨y, hy, hxy⟩ := at?_mapping 0 hfx rfl (areKeys ["filters"] (by decide)) rfl rfl
    obtain ⟨z, hz, hyz⟩ := items_singleton hy
    obtain ⟨m, hm, hzm⟩ := at?_mapping 1 hyz rfl (areKeys ["name", "typed_config"] (by decide)) rfl rfl
    obtain ⟨v, hitems, hdomains, hroutes⟩ := view_manager hm
    refine ⟨v, ?_, hdomains, hroutes⟩
    unfold virtualHosts Node.itemsAt
    rw [hnf]
    change f.items.flatMap _ = _
    rw [hx, List.flatMap_singleton, hxy]
    change y.items.flatMap _ = _
    rw [hz, List.flatMap_singleton, hzm]
    exact hitems

theorem view_endpoint {e : EnvoyServer} (h : (endpointForest e).value = some n) :
    n.textAt ["endpoint", "address", "socket_address", "address"] = (inline? e.address.toList).bind Node.text? ∧
      n.textAt ["endpoint", "address", "socket_address", "port_value"] = some (itoa e.port) := by
  obtain ⟨x, hx, hnx⟩ := at?_mapping 0 h rfl (areKeys ["endpoint"] (by decide)) rfl rfl
  obtain ⟨y, hy, hxy⟩ := at?_mapping 0 hx rfl (areKeys ["address"] (by decide)) rfl rfl
  obtain ⟨haddress, hport⟩ := view_socketAddress hy
  rw [inline?_itoa] at hport
  unfold Node.textAt at haddress hport ⊢
  rw [hnx, hnx, hxy, hxy]
  exact ⟨haddress, hport⟩

/-- The cluster of a service has its name, and an endpoint for each of its servers. -/
theorem view_cluster (h : (clusterForest s).value = some n) :
    clusterName n = (inline? ("cluster_".toList ++ s.upstreamName.toList)).bind Node.text? ∧
      endpoints n = s.servers.map fun e => ((inline? e.address.toList).bind Node.text?, some (itoa e.port)) := by
  have keys := areKeys ["name", "connect_timeout", "type", "lb_policy", "load_assignment"] (by decide)
  obtain ⟨x, hx, hnx⟩ := at?_mapping 0 h rfl keys rfl rfl
  obtain ⟨y, hy, hny⟩ := at?_mapping 4 h rfl keys rfl rfl
  constructor
  · have hx : inline? ("cluster_".toList ++ s.upstreamName.toList) = some x := hx
    unfold clusterName Node.textAt
    rw [hnx, hx]
    rfl
  · obtain ⟨z, hz, hyz⟩ := at?_mapping 1 hy rfl (areKeys ["cluster_name", "endpoints"] (by decide)) rfl rfl
    obtain ⟨u, hu, hzu⟩ := items_singleton hz
    obtain ⟨w, hw, huw⟩ := at?_mapping 0 hzu rfl (areKeys ["lb_endpoints"] (by decide)) rfl rfl
    have hservers := items_elements hw
    rw [List.forall₂_map_left_iff] at hservers
    unfold endpoints Node.itemsAt
    rw [hny, hyz]
    change z.items.flatMap _ = _
    rw [hu, List.flatMap_singleton, huw]
    change w.items.map _ = _
    generalize w.items = ms at hservers
    generalize s.servers = es at hservers ⊢
    induction hservers with
    | nil => rfl
    | cons he _ ih =>
      obtain ⟨haddress, hport⟩ := view_endpoint he
      rw [List.map_cons, List.map_cons, ih, haddress, hport]

/-- Every service of a readable rendering has its listener and its cluster. -/
theorem view_document {ss : List EnvoyService} (h : (envoyForest ss).value = some n) :
    List.Forall₂ (fun s l => (listenerForest s).value = some l) ss (listeners n) ∧
      List.Forall₂ (fun s k => (clusterForest s).value = some k) ss (clusters n) := by
  obtain ⟨m, hm, hn⟩ := at?_mapping 0 h rfl (areKeys ["static_resources"] (by decide)) rfl rfl
  obtain ⟨l, hl, hml⟩ := at?_mapping 0 hm rfl (areKeys ["listeners", "clusters"] (by decide)) rfl rfl
  obtain ⟨k, hk, hmk⟩ := at?_mapping 1 hm rfl (areKeys ["listeners", "clusters"] (by decide)) rfl rfl
  have hl := items_elements hl
  have hk := items_elements hk
  rw [List.forall₂_map_left_iff] at hl hk
  unfold listeners clusters Node.itemsAt
  rw [hn, hn, hml, hmk]
  exact ⟨hl, hk⟩

end Rendered
end PrivatePaas
