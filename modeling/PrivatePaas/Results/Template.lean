import PrivatePaas.Host.Document

/-!
# Rendering the template

The fields of the services are put into the template as they are. The rendering says
what the list of services says exactly if every field is written as YAML wants it at
its place.
-/

namespace PrivatePaas
set_option autoImplicit false
open Blocks PrivatePaas.Parser

/-- The rendering is read back as the services it was made from. -/
theorem rendering_faithful_iff (ss : List EnvoyService) :
    Blocks.read (envoyTmpl ss) = some (document ss) ↔ ∀ s ∈ ss, Safe s := by
  constructor
  · intro h
    have hone : ∀ s ∈ ss, OneLine s := oneLine_of_document (over_read h)
    rw [read_envoyTmpl hone] at h
    exact (value_envoy ss).mp h
  · intro h
    rw [read_envoyTmpl fun s hs => (h s hs).oneLine]
    exact (value_envoy ss).mpr h

namespace Sample

/-- A server given by its IPv6 address leaves a bracket as its address. -/
def bracket : ServiceEnvoyConfig := ⟨"shop", ["[::1]:80"], 8080, "shop.local"⟩

theorem bracket_unreadable : ¬ Blocks.read (envoyTmpl [toEnvoyService bracket]) =
    some (document [toEnvoyService bracket]) := by
  have hone : ∀ s ∈ [toEnvoyService bracket], OneLine s := by
    unfold OneLine
    decide +kernel
  have hnone : (envoyForest [toEnvoyService bracket]).value.isSome = false := by decide +kernel
  intro h
  rw [read_envoyTmpl hone] at h
  rw [h] at hnone
  cases hnone

end Sample
end PrivatePaas
