import Siesta.Backend.BeastClient

/-!
# The path of a target

A generated method fills the placeholders of a template one by one; the document asks for the value of
each parameter in the slots of its name.  `clientPath_eq_iff` says for which endpoints the two are the
same.
-/

namespace Siesta

open Lib

def stringArgs (vals : ClientParam → Str) : Args := fun p => some (.scalar (.string (vals p)))

/-- The path of the document, where every occurrence of `{name}` is replaced by the value that is passed
for the parameter called name. -/
def openApiPath (ep : Endpoint) (vals : ClientParam → Str) : Str :=
  fillSlots (·.wire_name) ep.pathParams vals ep.path

/-- No placeholder, and no slot of a parameter under either of its names. -/
structure NoSlots (ep : Endpoint) : Prop where
  placeholder : ¬ placeholder <:+: ep.path
  wire_name : ∀ p ∈ ep.pathParams, ¬ slot p.wire_name <:+: ep.path
  name : ∀ p ∈ ep.pathParams, ¬ slot (sanitizeParamName p.wire_name) <:+: ep.path

/-- One parameter, whose name is not rewritten and stands in one slot, with no placeholder before it. -/
structure OneSlot (ep : Endpoint) (p : ClientParam) (before after : Str) : Prop where
  params : ep.pathParams = [p]
  name : sanitizeParamName p.wire_name = p.wire_name
  first : cutAt (slot p.wire_name) ep.path = some (before, after)
  last : ¬ slot p.wire_name <:+: after
  placeholder : ¬ placeholder <:+: before

def PathFits (ep : Endpoint) : Prop :=
  (∀ p ∈ ep.pathParams, p.is_string_type = true) ∧
    (ep.pathParams = [] ∨ NoSlots ep ∨ ∃ p before after, OneSlot ep p before after)

/-! ### What the method writes -/

theorem fillPlaceholder_of_cutAt {path before after : Str} (h : cutAt placeholder path = some (before, after))
    (value : Str) : fillPlaceholder path value = before ++ value ++ after := by
  rw [fillPlaceholder, h]

theorem fillPlaceholder_placeholder (path : Str) : fillPlaceholder path placeholder = path := by
  rw [fillPlaceholder]
  split
  · rename_i before after h
    exact (cutAt_eq_some h).symm
  · rfl

theorem emitPathParams_strings {params : List ClientParam} (h : ∀ p ∈ params, p.is_string_type = true)
    (vals : ClientParam → Str) (path : Str) :
    emitPathParams (stringArgs vals) params path =
      some (params.foldl (fun path p => fillPlaceholder path (vals p)) path) := by
  induction params generalizing path with
  | nil => rfl
  | cons p params ih =>
    have hp := h p (List.mem_cons_self ..)
    have hrest := ih (fun q hq => h q (List.mem_cons_of_mem _ hq)) (fillPlaceholder path (vals p))
    rw [emitPathParams, List.foldlM_cons, emitPathParam, stringArgs, hp]
    exact hrest

theorem emitPathParams_unflagged {params : List ClientParam} {p : ClientParam} (hp : p ∈ params)
    (hflag : p.is_string_type = false) (vals : ClientParam → Str) (path : Str) :
    emitPathParams (stringArgs vals) params path = none := by
  induction params generalizing path with
  | nil => cases hp
  | cons q params ih =>
    rw [emitPathParams, List.foldlM_cons, emitPathParam, stringArgs]
    rcases List.mem_cons.mp hp with rfl | hp
    · rw [hflag]
      rfl
    · cases q.is_string_type with
      | false => rfl
      | true => exact ih hp (fillPlaceholder path (vals q))

/-- With a placeholder for every other parameter, a value comes to stand in the first place, whichever
parameter it is passed for. -/
theorem foldl_fillPlaceholder_single {params : List ClientParam} (hnodup : params.Nodup) {p : ClientParam}
    (hp : p ∈ params) (value path : Str) :
    params.foldl (fun path q => fillPlaceholder path (if q = p then value else placeholder)) path =
      fillPlaceholder path value := by
  have hothers : ∀ (params : List ClientParam) (path : Str), p ∉ params →
      params.foldl (fun path q => fillPlaceholder path (if q = p then value else placeholder)) path = path := by
    intro params
    induction params with
    | nil => exact fun path _ => rfl
    | cons q params ih =>
      intro path hq
      rw [List.mem_cons, not_or] at hq
      rw [List.foldl_cons, if_neg (Ne.symm hq.1), fillPlaceholder_placeholder]
      exact ih path hq.2
  induction params generalizing path with
  | nil => cases hp
  | cons q params ih =>
    obtain ⟨hq, hnodup⟩ := List.nodup_cons.mp hnodup
    rw [List.foldl_cons]
    rcases List.mem_cons.mp hp with rfl | hp
    · rw [if_pos rfl]
      exact hothers params _ hq
    · have hne : q ≠ p := fun h => hq (h ▸ hp)
      rw [if_neg hne, fillPlaceholder_placeholder]
      exact ih hnodup hp path

/-! ### Comparing the two paths -/

section

variable {ep : Endpoint}

theorem literalPath_eq (hparsed : ep.Parsed) :
    ep.literalPath = (ep.pathParams.map fun p => sanitizeParamName p.wire_name).foldl emptySlots ep.path := by
  have hnames : ep.pathParams.map (fun p => sanitizeParamName p.wire_name) = ep.pathParams.map (·.name) :=
    List.map_congr_left fun p hp => (hparsed.names p (List.mem_of_mem_filter hp)).symm
  rw [Endpoint.literalPath, readLiteral_escapeCppString, hparsed.path_template, hnames, List.foldl_map]
  rfl

theorem pathParams_nodup (hparsed : ep.Parsed) : ep.pathParams.Nodup :=
  hparsed.wire_names.of_map.filter _

/-- The client and the document agree on every choice of strings. -/
def PathsEqual (ep : Endpoint) : Prop :=
  ∀ vals, methodPath ep (stringArgs vals) = some (openApiPath ep vals)

theorem pathsEqual_iff_of_flagged (h : ∀ p ∈ ep.pathParams, p.is_string_type = true) :
    PathsEqual ep ↔ ∀ vals : ClientParam → Str,
      ep.pathParams.foldl (fun path p => fillPlaceholder path (vals p)) ep.literalPath =
        openApiPath ep vals := by
  refine forall_congr' fun vals => ?_
  rw [methodPath, emitPathParams_strings h, Option.some.injEq]

theorem append_inj_of_values {a b before after : Str}
    (h : ∀ value : Str, a ++ value ++ b = before ++ value ++ after) : a = before ∧ b = after := by
  have hlen := congrArg List.length (h [])
  simp only [List.length_append, List.length_nil] at hlen
  have hx := h ['x']
  have hy := h ['y']
  rw [List.append_assoc, List.append_assoc] at hx hy
  have hget : ∀ i, (a ++ (['x'] ++ b))[i]? = (a ++ (['y'] ++ b))[i]? → i ≠ a.length := by
    rintro i hi rfl
    simp at hi
  have hget' : ∀ i, (before ++ (['x'] ++ after))[i]? = (before ++ (['y'] ++ after))[i]? → i ≠ before.length := by
    rintro i hi rfl
    simp at hi
  have hsame : a.length = before.length := by
    rcases Nat.lt_trichotomy a.length before.length with hlt | heq | hlt
    · refine absurd rfl (hget a.length ?_)
      rw [hx, hy, List.getElem?_append_left hlt, List.getElem?_append_left hlt]
    · exact heq
    · refine absurd rfl (hget' before.length ?_)
      rw [← hx, ← hy, List.getElem?_append_left hlt, List.getElem?_append_left hlt]
  have hcut := List.append_inj (h []) (by simpa using hsame)
  simpa using hcut

/-- A value that comes to stand in one place, whichever parameter it is passed for, is that of the only
parameter. -/
theorem pathParam_unique {before after : Str}
    (h : ∀ p ∈ ep.pathParams, ∀ value : Str,
      openApiPath ep (fun q => if q = p then value else placeholder) = before ++ value ++ after) :
    ∀ p ∈ ep.pathParams, ∀ q ∈ ep.pathParams, p = q := by
  intro p hp q hq
  by_contra hpq
  have hdiffer : ∀ r, (if r = p then ['x'] else placeholder) = (if r = q then ['x'] else placeholder) ∨
      ∃ c d u v, (if r = p then ['x'] else placeholder) = c :: u ∧
        (if r = q then ['x'] else placeholder) = d :: v ∧ c ≠ d := by
    intro r
    by_cases hrp : r = p
    · have hrq : r ≠ q := hrp ▸ hpq
      exact .inr ⟨'x', '{', [], ['}'], if_pos hrp, if_neg hrq, by decide⟩
    · by_cases hrq : r = q
      · exact .inr ⟨'{', 'x', ['}'], [], if_neg hrp, if_pos hrq, by decide⟩
      · exact .inl (by rw [if_neg hrp, if_neg hrq])
  have hslots := eq_of_fillTokens_eq hdiffer ((h p hp ['x']).trans (h q hq ['x']).symm)
  -- so the document asks for the value of `p` in no place
  have hconst : openApiPath ep (fun r => if r = p then ['x'] else placeholder) =
      openApiPath ep (fun r => if r = p then ['x', 'x'] else placeholder) := by
    refine fillTokens_congr fun r hr => ?_
    by_cases hrp : r = p
    · have hcontra := hslots r hr
      rw [hrp] at hcontra
      simp [hpq, placeholder] at hcontra
    · rw [if_neg hrp, if_neg hrp]
  rw [h p hp, h p hp] at hconst
  have hlen := congrArg List.length hconst
  simp at hlen

theorem only_slot_of_values {p : ClientParam} (hparams : ep.pathParams = [p]) {before after : Str}
    (h : ∀ value : Str, openApiPath ep (fun _ => value) = before ++ value ++ after) :
    cutAt (slot p.wire_name) ep.path = some (before, after) ∧ ¬ slot p.wire_name <:+: after := by
  have hslot : slot p.wire_name <:+: ep.path := by
    by_contra hno
    have hstay : ∀ value : Str, before ++ value ++ after = ep.path := fun value =>
      (h value).symm.trans (fillSlots_of_no_slots _ (by simpa [hparams] using hno))
    have hlen := congrArg List.length ((hstay []).trans (hstay ['x']).symm)
    simp at hlen
  obtain ⟨a, b, hfirst⟩ := exists_cutAt hslot
  have hsplit : ∀ value : Str,
      a ++ value ++ fillSlots (·.wire_name) [p] (fun _ => value) b = before ++ value ++ after := by
    intro value
    rw [← h, openApiPath, hparams]
    exact (fillSlots_of_cutAt (fun _ => value) hfirst).symm
  have hlast : ¬ slot p.wire_name <:+: b := by
    intro hb
    obtain ⟨c, d, hcd⟩ := exists_cutAt hb
    have hsecond : ∀ value : Str, fillSlots (·.wire_name) [p] (fun _ => value) b =
        c ++ value ++ fillSlots (·.wire_name) [p] (fun _ => value) d := fun value =>
      fillSlots_of_cutAt (fun _ => value) hcd
    -- a second slot makes the text grow too fast
    have hlong := congrArg List.length (hsplit (List.replicate (before.length + after.length + 1) 'x'))
    rw [hsecond] at hlong
    simp only [List.length_append, List.length_replicate] at hlong
    omega
  have hvalues : ∀ value : Str, a ++ value ++ b = before ++ value ++ after := by
    intro value
    rw [← hsplit, fillSlots_of_no_slots _ (by simpa using hlast)]
  obtain ⟨rfl, rfl⟩ := append_inj_of_values hvalues
  exact ⟨hfirst, hlast⟩

theorem length_sanitizeParamName (name : Str) : name.length ≤ (sanitizeParamName name).length := by
  rw [sanitizeParamName, List.length_map]
  split
  · rw [List.length_append]
    exact Nat.le_add_left ..
  · exact le_rfl

theorem oneSlot_of_pathsEqual (hparsed : ep.Parsed) (hne : ep.pathParams ≠ [])
    (hequal : ∀ vals : ClientParam → Str,
      ep.pathParams.foldl (fun path p => fillPlaceholder path (vals p)) ep.literalPath =
        openApiPath ep vals)
    {before after : Str} (hcut : cutAt placeholder ep.literalPath = some (before, after)) :
    ∃ p, OneSlot ep p before after := by
  have hnodup := pathParams_nodup hparsed
  obtain ⟨p, hp⟩ := List.exists_mem_of_ne_nil _ hne
  have honly := pathParam_unique fun p hp value => by
    rw [← hequal, foldl_fillPlaceholder_single hnodup hp, fillPlaceholder_of_cutAt hcut]
  have hparams : ep.pathParams = [p] := by
    have hall := List.eq_replicate_of_mem fun q hq => honly q hq p hp
    rw [hall] at hnodup hne ⊢
    have hle := List.nodup_replicate.mp hnodup
    have hpos : 0 < ep.pathParams.length := List.length_pos_of_mem hp
    rw [show ep.pathParams.length = 1 by omega]
    rfl
  obtain ⟨hfirst, hlast⟩ := only_slot_of_values hparams fun value => by
    rw [← hequal, hparams, List.foldl_cons, List.foldl_nil, fillPlaceholder_of_cutAt hcut]
  refine ⟨p, hparams, ?_, hfirst, hlast, not_infix_of_cutAt (by decide) hcut⟩
  have hliteral := literalPath_eq hparsed
  rw [hparams, List.map_singleton, List.foldl_cons, List.foldl_nil] at hliteral
  rw [hliteral] at hcut
  refine eq_of_emptySlots (sanitizeParamName_braceFree _).1 (length_sanitizeParamName _) ?_
    (cutAt_eq_some hfirst) hcut
  intro hnil
  rw [hnil]
  decide

theorem noSlots_of_pathsEqual (hparsed : ep.Parsed)
    (hequal : ∀ vals : ClientParam → Str,
      ep.pathParams.foldl (fun path p => fillPlaceholder path (vals p)) ep.literalPath =
        openApiPath ep vals)
    (hcut : cutAt placeholder ep.literalPath = none) : NoSlots ep := by
  have hnone := cutAt_eq_none.mp hcut
  have hliteral := literalPath_eq hparsed
  rw [hliteral] at hnone
  obtain ⟨hsame, hnames⟩ := foldl_emptySlots_of_no_braces hnone
  have hstay : ∀ (params : List ClientParam) (vals : ClientParam → Str),
      params.foldl (fun path p => fillPlaceholder path (vals p)) ep.literalPath = ep.literalPath := by
    intro params vals
    induction params with
    | nil => rfl
    | cons p params ih => rwa [List.foldl_cons, fillPlaceholder, hcut]
  refine ⟨?_, fun p hp hin => ?_, fun p hp => hnames _ (List.mem_map_of_mem hp)⟩
  · rwa [← hsame]
  · obtain ⟨q, hq⟩ := exists_slot_token ClientParam.wire_name hp hin
    have heq : openApiPath ep (fun _ => ['x']) = openApiPath ep (fun _ => ['y']) := by
      rw [← hequal, ← hequal, hstay, hstay]
    have := eq_of_fillTokens_eq (fun _ => .inr ⟨'x', 'y', [], [], rfl, rfl, by decide⟩) heq q hq
    simp at this

end

theorem pathsEqual_iff {ir : InvalidRead} {ho : HashOrders} {spec : JsonObject} {endpoints : List Endpoint}
    {ep : Endpoint} (hrun : parseEndpoints ir ho spec = .ok endpoints) (hep : ep ∈ endpoints) :
    PathsEqual ep ↔ PathFits ep := by
  have hparsed := parsed_of_mem_parseEndpoints hrun hep
  have hliteral := literalPath_eq hparsed
  by_cases hflags : ∀ p ∈ ep.pathParams, p.is_string_type = true
  · refine (pathsEqual_iff_of_flagged hflags).trans ⟨fun hequal => ⟨hflags, ?_⟩, ?_⟩
    · by_cases hnil : ep.pathParams = []
      · exact .inl hnil
      · cases hcut : cutAt placeholder ep.literalPath with
        | none => exact .inr (.inl (noSlots_of_pathsEqual hparsed hequal hcut))
        | some e =>
          obtain ⟨p, hp⟩ := oneSlot_of_pathsEqual hparsed hnil hequal hcut
          exact .inr (.inr ⟨p, e.1, e.2, hp⟩)
    · rintro ⟨-, hnil | hslots | ⟨p, before, after, hone⟩⟩ vals
      · rw [hnil] at hliteral
        rw [hliteral, openApiPath, hnil, fillSlots_of_no_slots vals (by simp)]
        rfl
      · have hsame : ep.literalPath = ep.path := by
          rw [hliteral]
          refine foldl_emptySlots_of_no_slots fun n hn => ?_
          obtain ⟨p, hp, rfl⟩ := List.mem_map.mp hn
          exact hslots.name p hp
        rw [hsame, openApiPath, fillSlots_of_no_slots vals hslots.wire_name]
        have hcut := cutAt_eq_none.mpr hslots.placeholder
        induction ep.pathParams with
        | nil => rfl
        | cons p params ih => rwa [List.foldl_cons, fillPlaceholder, hcut]
      · rw [hone.params, List.map_singleton, List.foldl_cons, List.foldl_nil, hone.name,
          emptySlots_of_cutAt hone.first, emptySlots_of_no_slot hone.last] at hliteral
        rw [hone.params, List.foldl_cons, List.foldl_nil, hliteral,
          fillPlaceholder_of_cutAt (cutAt_braces hone.placeholder after), openApiPath, hone.params,
          fillSlots_of_cutAt vals hone.first, fillSlots_of_no_slots vals (by simpa using hone.last)]
  · refine iff_of_false (fun h => ?_) fun h => hflags h.1
    obtain ⟨p, hflag⟩ := not_forall.mp hflags
    obtain ⟨hp, hflag⟩ := Classical.not_imp.mp hflag
    have hrun := h fun _ => []
    rw [methodPath, emitPathParams_unflagged hp (by simpa using hflag)] at hrun
    cases hrun

/-- The endpoint of a document with one path and required path parameters. -/
def pathEndpoint (path : Str) (names : List Str) : Endpoint :=
  (endpointsOf (getSpec path "path".toList names)).getD 0 {}

end Siesta
