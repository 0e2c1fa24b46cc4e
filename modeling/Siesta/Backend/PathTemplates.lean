import Siesta.Backend.BeastServer
import Siesta.IR.EndpointParams
import Siesta.Lib.SlotScan

/-!
# The template of an endpoint

The slots of a path have the names of the document, and `buildTemplate` empties those of the names that
`sanitizeParamName` has rewritten.  So the template is the path with the slots of its parameters emptied
exactly when the two lists of names have the same slots in the path (`template_right_iff`).
-/

namespace Siesta

open Lib

def Endpoint.wireNames (ep : Endpoint) : List Str :=
  (ep.params.filter (·.location = "path".toList)).map (·.wire_name)

/-- The template is the path with the placeholders of its parameters emptied. -/
structure TemplateRight (ep : Endpoint) : Prop where
  replaced : ep.path_template = emptyAll ep.wireNames ep.path
  none_left : ∀ w ∈ ep.wireNames, w ≠ [] → ¬ slot w <:+: ep.path_template
  routed : (∃ w ∈ ep.wireNames, slot w <:+: ep.path) → ep.isStatic = false

/-- A placeholder of the path is one of a parameter exactly when it is one of a rewritten name. -/
def PlaceholdersKept (ep : Endpoint) : Prop :=
  ∀ n, slot n <:+: ep.path → (n ∈ ep.wireNames ↔ n ∈ ep.wireNames.map sanitizeParamName)

theorem sanitizeParamName_eq_nil {name : Str} : sanitizeParamName name = [] ↔ name = [] := by
  unfold sanitizeParamName
  rw [List.map_eq_nil_iff]
  split
  · rename_i h
    refine ⟨fun happend => by simp at happend, ?_⟩
    rintro rfl
    exact absurd h (by decide)
  · rfl

theorem braceFree_sanitized {names : List Str} : ∀ n ∈ names.map sanitizeParamName, BraceFree n := by
  intro n hn
  obtain ⟨w, -, rfl⟩ := List.mem_map.mp hn
  exact sanitizeParamName_braceFree w

theorem isStatic_eq_false_iff {ep : Endpoint} :
    ep.isStatic = false ↔ ['{', '}'] <:+: ep.path_template := by
  rw [Endpoint.isStatic, Option.isNone_eq_false_iff, Option.isSome_iff_ne_none, ne_eq, cutAt_eq_none,
    not_not]
  rfl

theorem Endpoint.Parsed.path_template_eq {ep : Endpoint} (h : ep.Parsed) :
    ep.path_template = emptyAll (ep.wireNames.map sanitizeParamName) ep.path := by
  have hnames : (ep.params.filter (·.location = "path".toList)).map (·.name) =
      ep.wireNames.map sanitizeParamName := by
    rw [Endpoint.wireNames, List.map_map]
    exact List.map_congr_left fun p hp => h.names p (List.mem_of_mem_filter hp)
  rw [h.path_template, buildTemplate, ← foldl_emptySlots_eq braceFree_sanitized, ← hnames, List.foldl_map]

section

variable {ep : Endpoint} (h : ep.Parsed)

include h

theorem replaced_of_placeholdersKept (hkept : PlaceholdersKept ep) :
    ep.path_template = emptyAll ep.wireNames ep.path := by
  rw [h.path_template_eq]
  exact fillSlots_congr_names braceFree_sanitized _ fun n hn => (hkept n hn).symm

theorem routed_of_placeholdersKept (hkept : PlaceholdersKept ep) {w : Str} (hw : w ∈ ep.wireNames)
    (hslot : slot w <:+: ep.path) : ep.isStatic = false := by
  rw [isStatic_eq_false_iff, h.path_template_eq]
  exact braces_infix_emptyAll braceFree_sanitized ((hkept w hslot).mp hw) hslot

theorem placeholdersKept_of_replaced (hfree : ∀ w ∈ ep.wireNames, BraceFree w)
    (hreplaced : ep.path_template = emptyAll ep.wireNames ep.path) : PlaceholdersKept ep := by
  intro n hslot
  rw [h.path_template_eq] at hreplaced
  by_cases hne : n = []
  · subst hne
    simp [List.mem_map, sanitizeParamName_eq_nil]
  · exact ⟨mem_of_emptyAll_eq hfree braceFree_sanitized hreplaced.symm hne hslot,
      mem_of_emptyAll_eq braceFree_sanitized hfree hreplaced hne hslot⟩

end

/-- **When a template is right.**  The template of an endpoint is its path with the placeholders of its
parameters emptied, if they are the placeholders of the rewritten names, and, for names without braces,
only then. -/
theorem template_right_iff (ir : InvalidRead) (ho : HashOrders) {spec : JsonObject}
    {endpoints : List Endpoint} {ep : Endpoint} (hrun : parseEndpoints ir ho spec = .ok endpoints)
    (hep : ep ∈ endpoints) :
    (PlaceholdersKept ep → ep.path_template = emptyAll ep.wireNames ep.path ∧
        ((∃ w ∈ ep.wireNames, slot w <:+: ep.path) → ep.isStatic = false)) ∧
      ((∀ w ∈ ep.wireNames, BraceFree w) → (TemplateRight ep ↔ PlaceholdersKept ep)) := by
  have h := parsed_of_mem_parseEndpoints hrun hep
  have hrouted : PlaceholdersKept ep → (∃ w ∈ ep.wireNames, slot w <:+: ep.path) →
      ep.isStatic = false := by
    rintro hkept ⟨w, hw, hslot⟩
    exact routed_of_placeholdersKept h hkept hw hslot
  refine ⟨fun hkept => ⟨replaced_of_placeholdersKept h hkept, hrouted hkept⟩, fun hfree => ?_⟩
  constructor
  · exact fun hright => placeholdersKept_of_replaced h hfree hright.replaced
  · intro hkept
    have hreplaced := replaced_of_placeholdersKept h hkept
    refine ⟨hreplaced, fun w hw hne => ?_, hrouted hkept⟩
    rw [hreplaced]
    exact not_slot_infix_emptyAll hfree hw hne ep.path

/-! ### A path with one parameter -/

/-- The operation `get` of a path with one path parameter. -/
def oneParamSpec (path name : String) : JsonObject :=
  pathsSpec [(path.toList, .obj [("get".toList, .obj
    [("parameters".toList, .arr [declaredParam name.toList "path".toList])])])]

theorem template_right_iff_item :
    ∃ ep, parseEndpoints .crash (HashOrder.newestFirst _) (oneParamSpec "/items/{id}" "id") = .ok [ep] ∧
      (PlaceholdersKept ep → ep.path_template = emptyAll ep.wireNames ep.path ∧
        ((∃ w ∈ ep.wireNames, slot w <:+: ep.path) → ep.isStatic = false)) ∧
      ((∀ w ∈ ep.wireNames, BraceFree w) → (TemplateRight ep ↔ PlaceholdersKept ep)) :=
  have hrun : ∃ ep, parseEndpoints .crash (HashOrder.newestFirst _) (oneParamSpec "/items/{id}" "id") =
      .ok [ep] := ⟨_, rfl⟩
  hrun.imp fun ep h => ⟨h, template_right_iff .crash (HashOrder.newestFirst _) h
    (List.mem_singleton_self ep)⟩

/-- The placeholder of a parameter that is renamed stays in the template. -/
theorem placeholder_survives :
    ∃ ep, parseEndpoints .crash (HashOrder.newestFirst _) (oneParamSpec "/orders/{order}" "order") =
        .ok [ep] ∧ ¬ TemplateRight ep :=
  ⟨_, rfl, fun h => absurd h.replaced (by decide)⟩

end Siesta
