import Siesta.Backend.Reachability

/-!
# The generated server as a router over segments

Over `match_path` and the two tables of `handle_request` stands a simpler machine: a path is a list of
segments, an endpoint accepts a list of values that agrees with its texts, and the first endpoint that does
gets the request, the static ones first.  `accepts_joined_iff` and `handle_request_eq_find` connect the two.
On documents whose paths are such lists `reachable_iff_unshadowed` says which endpoints are reached, and
`calls_reach_handlers` that the generated client reaches them.
-/

namespace Siesta

open Lib JsonObject

/-! ### Paths as lists of segments -/

/-- What stands between two slashes of a path: a text, or the slot of a parameter. -/
inductive PathSegment where
  | literal (text : Str)
  | param (name : Str)
  deriving DecidableEq

namespace PathSegment

/-- The segment with a value in the place of the slot. -/
def fill (vals : Str → Str) : PathSegment → Str
  | literal text => text
  | param name => vals name

def name? : PathSegment → Option Str
  | literal _ => none
  | param name => some name

/-- The segment of a request agrees with that of the path. -/
def Covers : PathSegment → Str → Prop
  | literal text, value => text = value
  | param _, _ => True

/-- Some value agrees with both. -/
def Meets : PathSegment → PathSegment → Prop
  | literal s, literal t => s = t
  | _, _ => True

instance : ∀ s t, Decidable (Meets s t)
  | literal s, literal t => inferInstanceAs (Decidable (s = t))
  | literal _, param _ => isTrue trivial
  | param _, literal _ => isTrue trivial
  | param _, param _ => isTrue trivial

end PathSegment

/-- The path with these segments. -/
def joined (pieces : List Str) : Str := if pieces = [] then ['/'] else pieces.flatMap ('/' :: ·)

/-- The path is a list of segments: its texts have no brace, and its slots are those of declared parameters
that keep their names, each of them once. -/
structure PlainPath (ep : Endpoint) (segs : List PathSegment) : Prop where
  path : ep.path = joined (segs.map (PathSegment.fill slot))
  literal : ∀ text, .literal text ∈ segs → SegmentValue text
  param : ∀ name, .param name ∈ segs → name ∈ ep.wireNames ∧ sanitizeParamName name = name
  distinct : (segs.filterMap PathSegment.name?).Nodup

/-- The endpoints as `handle_request` looks them up. -/
def lookupOrder (endpoints : List Endpoint) : List Endpoint :=
  endpoints.filter (·.isStatic) ++ endpoints.filter (!·.isStatic)

instance (ep : Endpoint) (path : Str) : Decidable (ep.Accepts path) :=
  inferInstanceAs (Decidable ((_ ∧ _) ∨ (_ ∧ _)))

/-! ### Joining and splitting -/

theorem joined_of_ne_nil {pieces : List Str} (h : pieces ≠ []) : joined pieces = pieces.flatMap ('/' :: ·) :=
  if_neg h

theorem joined_ne_nil (pieces : List Str) : joined pieces ≠ [] := by
  cases pieces with
  | nil => exact List.cons_ne_nil _ _
  | cons v vs =>
    rw [joined_of_ne_nil (List.cons_ne_nil _ _), List.flatMap_cons]
    exact List.cons_ne_nil _ _

theorem splitOn_slashed {v : Str} {vs : List Str} (hv : '/' ∉ v) (hvs : ∀ w ∈ vs, '/' ∉ w) :
    (v ++ vs.flatMap ('/' :: ·)).splitOn '/' = v :: vs := by
  induction vs generalizing v with
  | nil => simpa using splitOn_append_of_notMem hv (List.splitOn_nil '/')
  | cons w vs ih =>
    have hrest := ih (hvs w (List.mem_cons_self ..)) fun u hu => hvs u (List.mem_cons_of_mem _ hu)
    have hslash := splitOn_sep_cons '/' (w ++ vs.flatMap ('/' :: ·))
    rw [hrest] at hslash
    simpa using splitOn_append_of_notMem hv hslash

theorem splitOn_joined {vs : List Str} (h : ∀ v ∈ vs, '/' ∉ v) :
    (joined vs).splitOn '/' = [] :: if vs = [] then [[]] else vs := by
  by_cases hvs : vs = []
  · subst hvs
    rfl
  · rw [joined_of_ne_nil hvs, if_neg hvs]
    exact splitOn_slashed (v := []) List.not_mem_nil h

theorem joined_injective {vs ws : List Str} (hvs : ∀ v ∈ vs, v ≠ [] ∧ '/' ∉ v)
    (hws : ∀ w ∈ ws, w ≠ [] ∧ '/' ∉ w) (h : joined vs = joined ws) : vs = ws := by
  have hsplit := congrArg (List.splitOn '/') h
  rw [splitOn_joined fun v hv => (hvs v hv).2, splitOn_joined fun w hw => (hws w hw).2, List.cons.injEq] at hsplit
  have hsame := hsplit.2
  by_cases hv : vs = [] <;> by_cases hw : ws = []
  · rw [hv, hw]
  · rw [if_pos hv, if_neg hw] at hsame
    exact absurd rfl (hws [] (hsame ▸ List.mem_singleton_self _)).1
  · rw [if_neg hv, if_pos hw] at hsame
    exact absurd rfl (hvs [] (hsame ▸ List.mem_singleton_self _)).1
  · rwa [if_neg hv, if_neg hw] at hsame

theorem infix_joined {v : Str} {vs : List Str} (h : v ∈ vs) : v <:+: joined vs := by
  rw [joined_of_ne_nil (List.ne_nil_of_mem h)]
  obtain ⟨before, after, rfl⟩ := List.append_of_mem h
  exact ⟨before.flatMap ('/' :: ·) ++ ['/'], after.flatMap ('/' :: ·), by simp⟩

theorem lastSegment_joined {vs : List Str} (h : ∀ v ∈ vs, v ≠ [] ∧ '/' ∉ v) :
    lastSegment (joined vs) = some [] ↔ vs = [] := by
  rw [lastSegment, splitOn_joined fun v hv => (h v hv).2]
  constructor
  · intro hlast
    by_contra hvs
    rw [if_neg hvs] at hlast
    exact absurd rfl (h [] (List.mem_of_getLast? ((List.getLast?_cons_of_ne_nil hvs).symm.trans hlast))).1
  · rintro rfl
    rfl

/-- On paths without empty segments the comparison is one of the lists of segments. -/
theorem endsMatch_joined {ps vs : List Str} (hps : ∀ p ∈ ps, p ≠ [] ∧ '/' ∉ p) (hvs : ∀ v ∈ vs, v ≠ [] ∧ '/' ∉ v) :
    EndsMatch (joined ps) (joined vs) ↔ List.Forall₂ (fun p t => p = placeholder ∨ p = t) ps vs := by
  rw [EndsMatch, lastSegment_joined hps, lastSegment_joined hvs, TemplateMatches,
    splitOn_joined fun p hp => (hps p hp).2, splitOn_joined fun v hv => (hvs v hv).2, List.forall₂_cons,
    and_iff_right (Or.inr rfl : ([] : Str) = placeholder ∨ ([] : Str) = [])]
  by_cases hv : vs = []
  · subst hv
    rw [List.forall₂_nil_right_iff]
    refine ⟨fun h => h.2 rfl, ?_⟩
    rintro rfl
    exact ⟨.cons (.inr rfl) .nil, id⟩
  · rw [if_neg hv]
    by_cases hp : ps = []
    · -- the one segment of the root is empty
      subst hp
      have hnone : ¬ List.Forall₂ (fun p t => p = placeholder ∨ p = t) [[]] vs := by
        intro h
        obtain ⟨t, ht, hmatch⟩ := forall₂_exists_right h [] (List.mem_singleton_self _)
        rcases hmatch with hmatch | rfl
        · exact absurd hmatch (by decide)
        · exact (hvs [] ht).1 rfl
      rw [List.forall₂_nil_left_iff]
      exact ⟨fun h => absurd h.1 hnone, fun h => absurd h hv⟩
    · rw [if_neg hp]
      exact ⟨fun h => h.1, fun h => ⟨h, fun h => absurd h hv⟩⟩

theorem mem_joined {c : Char} (hc : c ≠ '/') {vs : List Str} (h : c ∈ joined vs) : ∃ v ∈ vs, c ∈ v := by
  unfold joined at h
  split at h
  · exact absurd (List.mem_singleton.mp h) hc
  · obtain ⟨v, hv, hcv⟩ := List.mem_flatMap.mp h
    exact ⟨v, hv, (List.mem_cons.mp hcv).resolve_left hc⟩

/-! ### The texts of a plain path -/

theorem fillSlots_joined {names : List Str} (hnames : ∀ n ∈ names, BraceFree n) (vals : Str → Str)
    {segs : List PathSegment} (hliteral : ∀ text, .literal text ∈ segs → '{' ∉ text)
    (hparam : ∀ name, .param name ∈ segs → name ∈ names) :
    fillSlots id names vals (joined (segs.map (PathSegment.fill slot))) =
      joined (segs.map (PathSegment.fill vals)) := by
  have hrest : ∀ segs : List PathSegment, (∀ text, .literal text ∈ segs → '{' ∉ text) →
      (∀ name, .param name ∈ segs → name ∈ names) →
      fillSlots id names vals ((segs.map (PathSegment.fill slot)).flatMap ('/' :: ·)) =
        (segs.map (PathSegment.fill vals)).flatMap ('/' :: ·) := by
    intro segs
    induction segs with
    | nil => exact fun _ _ => rfl
    | cons seg segs ih =>
      intro hliteral hparam
      have hsegs := ih (fun text h => hliteral text (List.mem_cons_of_mem _ h)) fun name h =>
        hparam name (List.mem_cons_of_mem _ h)
      simp only [List.map_cons, List.flatMap_cons]
      cases seg with
      | literal text =>
        have hslash : '{' ∉ '/' :: text := by
          simpa using hliteral text (List.mem_cons_self ..)
        exact (fillSlots_literal vals hslash _).trans (congrArg _ hsegs)
      | param name =>
        have hname := hparam name (List.mem_cons_self ..)
        have hslash : '{' ∉ ['/'] := by decide
        have hslot := fillSlots_slot_append hnames vals (hnames name hname)
          ((segs.map (PathSegment.fill slot)).flatMap ('/' :: ·))
        rw [if_pos hname, hsegs] at hslot
        exact (fillSlots_literal vals hslash _).trans (congrArg _ hslot)
  by_cases hnil : segs = []
  · subst hnil
    exact fillSlots_of_no_slots vals fun n _ h => by simp [joined, slot, List.infix_cons_iff] at h
  · rw [joined_of_ne_nil (by simpa using hnil), joined_of_ne_nil (by simpa using hnil)]
    exact hrest segs hliteral hparam

section

variable {ep : Endpoint} {segs : List PathSegment} {vals : Str → Str} (hparsed : ep.Parsed)
  (hplain : PlainPath ep segs)

include hplain

theorem PlainPath.brace_notMem {text : Str} (h : .literal text ∈ segs) : '{' ∉ text :=
  (hplain.literal text h).brace

theorem PlainPath.braceFree {name : Str} (h : .param name ∈ segs) : BraceFree name :=
  (hplain.param name h).2 ▸ sanitizeParamName_braceFree name

theorem PlainPath.mem_slotNames {name : Str} (h : .param name ∈ segs) : name ∈ slotNames ep.path := by
  refine Lib.mem_slotNames.mpr ⟨hplain.braceFree h, ?_⟩
  rw [hplain.path]
  exact infix_joined (List.mem_map.mpr ⟨_, h, rfl⟩)

theorem PlainPath.fillPath_eq (vals : Str → Str) :
    fillPath vals ep.path = joined (segs.map (PathSegment.fill vals)) := by
  rw [fillPath, hplain.path]
  refine fillSlots_joined braceFree_of_mem_slotNames vals (fun _ => hplain.brace_notMem) fun name h => ?_
  rw [← hplain.path]
  exact hplain.mem_slotNames h

theorem PlainPath.fill_segmentValue (hvals : ∀ name, .param name ∈ segs → SegmentValue (vals name)) :
    ∀ v ∈ segs.map (PathSegment.fill vals), SegmentValue v := by
  intro v hv
  obtain ⟨seg, hseg, rfl⟩ := List.mem_map.mp hv
  cases seg with
  | literal text => exact hplain.literal text hseg
  | param name => exact hvals name hseg

include hparsed

theorem PlainPath.path_template_eq :
    ep.path_template = joined (segs.map (PathSegment.fill fun _ => placeholder)) := by
  rw [hparsed.path_template_eq, emptyAll, hplain.path]
  exact fillSlots_joined braceFree_sanitized _ (fun _ => hplain.brace_notMem) fun name h =>
    List.mem_map.mpr ⟨name, hplain.param name h⟩

/-- An endpoint with a parameter in its path goes to the second table. -/
theorem PlainPath.isStatic_iff : ep.isStatic = true ↔ ∀ name, .param name ∉ segs := by
  rw [← not_iff_not, Bool.not_eq_true, isStatic_eq_false_iff, hplain.path_template_eq hparsed]
  push Not
  constructor
  · intro h
    have hbrace : '{' ∈ joined (segs.map (PathSegment.fill fun _ => placeholder)) :=
      h.subset (List.mem_cons_self ..)
    obtain ⟨v, hv, hmem⟩ := mem_joined (by decide) hbrace
    obtain ⟨seg, hseg, rfl⟩ := List.mem_map.mp hv
    cases seg with
    | literal text => exact absurd hmem (hplain.brace_notMem hseg)
    | param name => exact ⟨name, hseg⟩
  · rintro ⟨name, hname⟩
    exact infix_joined (List.mem_map.mpr ⟨_, hname, rfl⟩)

omit hparsed in
/-- Segment by segment, the template agrees with what the segments of the path do. -/
theorem PlainPath.forall₂_template {vs : List Str} :
    List.Forall₂ (fun p t => p = placeholder ∨ p = t) (segs.map (PathSegment.fill fun _ => placeholder)) vs ↔
      List.Forall₂ PathSegment.Covers segs vs := by
  rw [List.forall₂_map_left_iff]
  refine forall₂_congr_mem fun seg hseg v => ?_
  cases seg with
  | literal text =>
    have hne : text ≠ placeholder := fun h => hplain.brace_notMem hseg (h ▸ List.mem_cons_self ..)
    exact or_iff_right hne
  | param name => exact ⟨fun _ => trivial, fun _ => .inl rfl⟩

omit hparsed in
theorem PlainPath.template_ne_nil : ∀ p ∈ segs.map (PathSegment.fill fun _ => placeholder), p ≠ [] ∧ '/' ∉ p := by
  intro p hp
  obtain ⟨seg, hseg, rfl⟩ := List.mem_map.mp hp
  cases seg with
  | literal text => exact ⟨(hplain.literal text hseg).ne_nil, (hplain.literal text hseg).slash⟩
  | param name =>
    have hplaceholder : placeholder ≠ [] ∧ '/' ∉ placeholder := by decide
    exact hplaceholder

omit hparsed hplain in
theorem covers_iff_of_no_params (hnone : ∀ name, .param name ∉ segs) {vs : List Str} :
    List.Forall₂ PathSegment.Covers segs vs ↔ segs.map (PathSegment.fill slot) = vs := by
  rw [← List.forall₂_eq_eq_eq, List.forall₂_map_left_iff]
  refine forall₂_congr_mem fun seg hseg v => ?_
  cases seg with
  | literal text => exact Iff.rfl
  | param name => exact absurd hseg (hnone name)

/-- `match_path` is right about the templates of plain paths and paths without empty segments. -/
theorem PlainPath.match_path_iff {vs : List Str} (hvs : ∀ v ∈ vs, v ≠ [] ∧ '/' ∉ v) :
    match_path ep.path_template (joined vs) = true ↔ List.Forall₂ PathSegment.Covers segs vs := by
  rw [match_path_iff_endsMatch, hplain.path_template_eq hparsed, ← hplain.forall₂_template]
  exact endsMatch_joined hplain.template_ne_nil hvs

/-- **What a plain endpoint accepts**: the requests whose segments agree with those of its path. -/
theorem PlainPath.accepts_joined_iff {vs : List Str} (hvs : ∀ v ∈ vs, v ≠ [] ∧ '/' ∉ v) :
    ep.Accepts (joined vs) ↔ List.Forall₂ PathSegment.Covers segs vs := by
  rw [Endpoint.Accepts, hplain.match_path_iff hparsed hvs]
  cases hstatic : ep.isStatic with
  | false => simp
  | true =>
    have hnone := (hplain.isStatic_iff hparsed).mp hstatic
    have hpieces : ∀ v ∈ segs.map (PathSegment.fill slot), v ≠ [] ∧ '/' ∉ v := by
      intro v hv
      obtain ⟨seg, hseg, rfl⟩ := List.mem_map.mp hv
      cases seg with
      | literal text => exact ⟨(hplain.literal text hseg).ne_nil, (hplain.literal text hseg).slash⟩
      | param name => exact absurd hseg (hnone name)
    rw [covers_iff_of_no_params hnone, hplain.path]
    simp only [true_and, Bool.true_eq_false, false_and, or_false]
    exact ⟨joined_injective hpieces hvs, congrArg joined⟩

end

/-! ### The first endpoint that accepts -/

/-- **`handle_request` is one search**: the first endpoint in the order of the tables that has the method and
accepts the path is called. -/
theorem handle_request_eq_find (endpoints : List Endpoint) (target : Str) (method : Verb) :
    handle_request (emitServerCpp endpoints) ⟨target, method⟩ =
      ((lookupOrder endpoints).find? fun ep => ep.Accepts (cutQuery target) ∧ ep.verb = method).elim
        [.notFound] fun ep => [.call ep.function_name] := by
  have hstatic : ∀ ep : Endpoint, decide (ep.isStatic = true ∧
      decide (ep.Accepts (cutQuery target) ∧ ep.verb = method) = true) =
        (ep.isStatic && (ep.path = cutQuery target ∧ ep.verb = method)) := by
    intro ep
    by_cases h : ep.isStatic = true <;> simp [Endpoint.Accepts, h]
  have hparam : ∀ ep : Endpoint, decide ((!ep.isStatic) = true ∧
      decide (ep.Accepts (cutQuery target) ∧ ep.verb = method) = true) =
        (!ep.isStatic && (match_path ep.path_template (cutQuery target) && ep.verb = method)) := by
    intro ep
    by_cases h : ep.isStatic = true <;> simp [Endpoint.Accepts, h]
  rw [lookupOrder, List.find?_append, List.find?_filter, List.find?_filter]
  simp only [hstatic, hparam]
  unfold handle_request
  dsimp only
  rw [find_staticTable, find_paramPaths]
  cases endpoints.find? fun ep => ep.isStatic && (ep.path = cutQuery target ∧ ep.verb = method) with
  | some ep => rfl
  | none =>
    rw [Option.none_or, Option.map_none]
    cases endpoints.find? fun ep =>
      !ep.isStatic && (match_path ep.path_template (cutQuery target) && ep.verb = method) <;> rfl

theorem mem_lookupOrder {endpoints : List Endpoint} {ep : Endpoint} :
    ep ∈ lookupOrder endpoints ↔ ep ∈ endpoints := by
  rw [lookupOrder, List.mem_append, List.mem_filter, List.mem_filter]
  cases ep.isStatic <;> simp

/-! ### Which endpoints are reached -/

/-- Segments that meet have a request in common, if no name is given two values. -/
theorem exists_vals_of_meets {segs segs' : List PathSegment}
    (hmeet : List.Forall₂ PathSegment.Meets segs' segs) (hdistinct : (segs.filterMap PathSegment.name?).Nodup)
    (hliteral : ∀ text, .literal text ∈ segs' → SegmentValue text) :
    ∃ vals : Str → Str, (∀ n, SegmentValue (vals n)) ∧
      List.Forall₂ PathSegment.Covers segs' (segs.map (PathSegment.fill vals)) := by
  induction hmeet with
  | nil =>
    have hvalue : SegmentValue ['x'] := ⟨by decide, by decide, by decide, by decide⟩
    exact ⟨fun _ => ['x'], fun _ => hvalue, .nil⟩
  | @cons seg' seg segs' segs hfirst _ ih =>
    have hliteral' : ∀ text, .literal text ∈ segs' → SegmentValue text := fun text h =>
      hliteral text (List.mem_cons_of_mem _ h)
    cases seg with
    | literal text =>
      obtain ⟨vals, hvals, hcovers⟩ := ih hdistinct hliteral'
      refine ⟨vals, hvals, .cons ?_ hcovers⟩
      cases seg' with
      | literal text' => exact hfirst
      | param name' => trivial
    | param name =>
      have hdistinct : (name :: segs.filterMap PathSegment.name?).Nodup := hdistinct
      rw [List.nodup_cons] at hdistinct
      obtain ⟨vals, hvals, hcovers⟩ := ih hdistinct.2 hliteral'
      cases seg' with
      | param name' => exact ⟨vals, hvals, .cons trivial hcovers⟩
      | literal text' =>
        -- the slot takes the text that stands in its place, and stands nowhere else
        refine ⟨Function.update vals name text', fun n => ?_, .cons ?_ ?_⟩
        · by_cases hn : n = name
          · subst hn
            rw [Function.update_self]
            exact hliteral text' (List.mem_cons_self ..)
          · rw [Function.update_of_ne hn]
            exact hvals n
        · exact (Function.update_self name text' vals).symm
        · have hsame : segs.map (PathSegment.fill (Function.update vals name text')) =
              segs.map (PathSegment.fill vals) := by
            refine List.map_congr_left fun seg hseg => ?_
            cases seg with
            | literal text => rfl
            | param n =>
              refine Function.update_of_ne ?_ _ _
              rintro rfl
              exact hdistinct.1 (List.mem_filterMap.mpr ⟨_, hseg, rfl⟩)
          rw [hsame]
          exact hcovers

theorem meets_of_covers {segs segs' : List PathSegment} {vals : Str → Str}
    (h : List.Forall₂ PathSegment.Covers segs' (segs.map (PathSegment.fill vals))) :
    List.Forall₂ PathSegment.Meets segs' segs := by
  rw [List.forall₂_map_right_iff] at h
  refine h.imp fun seg' seg hcovers => ?_
  cases seg' <;> cases seg <;> first | exact hcovers | trivial

theorem covers_self (segs : List PathSegment) (vals : Str → Str) :
    List.Forall₂ PathSegment.Covers segs (segs.map (PathSegment.fill vals)) := by
  rw [List.forall₂_map_right_iff, List.forall₂_same]
  intro seg _
  cases seg <;> trivial

section

variable {ir : InvalidRead} {ho : HashOrders} {spec : JsonObject} {endpoints before after : List Endpoint}
  {ep : Endpoint} {segs : Endpoint → List PathSegment} {vals : Str → Str}

theorem cutQuery_request (hplain : PlainPath ep (segs ep))
    (hvals : ∀ name, .param name ∈ segs ep → SegmentValue (vals name)) :
    cutQuery (fillPath vals ep.path) = joined ((segs ep).map (PathSegment.fill vals)) := by
  rw [hplain.fillPath_eq]
  refine cutQuery_of_notMem fun h => ?_
  obtain ⟨v, hv, hmem⟩ := mem_joined (by decide) h
  exact (hplain.fill_segmentValue hvals v hv).question hmem

theorem accepts_request_iff {e : Endpoint} (hparsed : e.Parsed) (he : PlainPath e (segs e))
    (hplain : PlainPath ep (segs ep)) (hvals : ∀ name, .param name ∈ segs ep → SegmentValue (vals name)) :
    e.Accepts (cutQuery (fillPath vals ep.path)) ↔
      List.Forall₂ PathSegment.Covers (segs e) ((segs ep).map (PathSegment.fill vals)) := by
  rw [cutQuery_request hplain hvals]
  refine he.accepts_joined_iff hparsed fun v hv => ?_
  have hvalue := hplain.fill_segmentValue hvals v hv
  exact ⟨hvalue.ne_nil, hvalue.slash⟩

/-- A target with the path of a request of an endpoint that no earlier one meets is dispatched to it. -/
theorem handle_request_of_unshadowed (hrun : parseEndpoints ir ho spec = .ok endpoints)
    (hplain : ∀ e ∈ endpoints, PlainPath e (segs e)) (horder : lookupOrder endpoints = before ++ ep :: after)
    (hmeet : ∀ e ∈ before, e.verb = ep.verb → ¬ List.Forall₂ PathSegment.Meets (segs e) (segs ep))
    (hvals : ∀ name, .param name ∈ segs ep → SegmentValue (vals name)) {target : Str}
    (htarget : cutQuery target = cutQuery (fillPath vals ep.path)) :
    handle_request (emitServerCpp endpoints) ⟨target, ep.verb⟩ = [.call ep.function_name] := by
  have hmem : ∀ e ∈ before ++ ep :: after, e ∈ endpoints := fun e he => mem_lookupOrder.mp (horder ▸ he)
  have hep := hmem ep (by simp)
  have haccepts : ∀ e ∈ endpoints, e.Accepts (cutQuery target) ↔
      List.Forall₂ PathSegment.Covers (segs e) ((segs ep).map (PathSegment.fill vals)) := fun e he => by
    rw [htarget]
    exact accepts_request_iff (parsed_of_mem_parseEndpoints hrun he) (hplain e he) (hplain ep hep) hvals
  have hfind : (lookupOrder endpoints).find?
      (fun e => decide (e.Accepts (cutQuery target) ∧ e.verb = ep.verb)) = some ep := by
    refine List.find?_eq_some_iff_append.mpr
      ⟨decide_eq_true ⟨(haccepts ep hep).mpr (covers_self _ _), rfl⟩, before, after, horder, fun e he => ?_⟩
    rw [Bool.not_eq_true', decide_eq_false_iff_not]
    rintro ⟨he', hverb⟩
    exact hmeet e he hverb (meets_of_covers ((haccepts e (hmem e (List.mem_append_left _ he))).mp he'))
  rw [handle_request_eq_find, hfind]
  rfl

/-- **Which endpoints of a document are reached.**  Where the paths are lists of segments and the handlers have
different names, the requests for an endpoint are all dispatched to its handler exactly when no endpoint of the
same method that is looked up before it has a path that meets its own. -/
theorem reachable_iff_unshadowed (hrun : parseEndpoints ir ho spec = .ok endpoints)
    (hplain : ∀ e ∈ endpoints, PlainPath e (segs e)) (hnames : (endpoints.map (·.function_name)).Nodup)
    (horder : lookupOrder endpoints = before ++ ep :: after) :
    Reachable endpoints ep ↔
      ∀ e ∈ before, e.verb = ep.verb → ¬ List.Forall₂ PathSegment.Meets (segs e) (segs ep) := by
  have hmem : ∀ e ∈ before ++ ep :: after, e ∈ endpoints := fun e he => mem_lookupOrder.mp (horder ▸ he)
  have hep := hmem ep (by simp)
  constructor
  · intro hreach e he hverb hmeet
    have heplain := hplain e (hmem e (List.mem_append_left _ he))
    obtain ⟨vals, hvals, hcovers⟩ := exists_vals_of_meets hmeet (hplain ep hep).distinct heplain.literal
    have haccepts := (accepts_request_iff (parsed_of_mem_parseEndpoints hrun (hmem e (List.mem_append_left _ he)))
      heplain (hplain ep hep) fun n _ => hvals n).mpr hcovers
    have hcall := hreach vals fun n _ => hvals n
    -- the search ends before it comes to the endpoint
    have hsome : (before.find? fun e =>
        decide (e.Accepts (cutQuery (fillPath vals ep.path)) ∧ e.verb = ep.verb)).isSome = true :=
      List.find?_isSome.mpr ⟨e, he, decide_eq_true ⟨haccepts, hverb⟩⟩
    obtain ⟨found, hfound⟩ := Option.isSome_iff_exists.mp hsome
    rw [handle_request_eq_find, horder, List.find?_append, hfound] at hcall
    have hname : found.function_name = ep.function_name := by simpa using hcall
    have hperm : (lookupOrder endpoints).Perm endpoints := List.filter_append_perm _ _
    have hnodup : ((before ++ ep :: after).map (·.function_name)).Nodup := by
      rw [← horder]
      exact (hperm.map _).nodup_iff.mpr hnames
    rw [List.map_append, List.map_cons] at hnodup
    exact (List.nodup_append.mp hnodup).2.2 _ (List.mem_map_of_mem (List.mem_of_find?_eq_some hfound)) _
      (List.mem_cons_self ..) hname
  · intro hmeet vals hvals
    exact handle_request_of_unshadowed hrun hplain horder hmeet
      (fun name hname => hvals name ((hplain ep hep).mem_slotNames hname)) rfl

/-! ### The calls of the client -/

variable {args : Args}

theorem emitPathParams_joined {params : List ClientParam} {segs : List PathSegment} {u : Str}
    (hparams : ∀ p ∈ params, p.is_string_type = true ∧ '{' ∉ vals p.wire_name ∧
      args p = some (.scalar (.string (vals p.wire_name))))
    (horder : params.map (·.wire_name) = segs.filterMap PathSegment.name?)
    (hliteral : ∀ text, .literal text ∈ segs → '{' ∉ text) (hu : '{' ∉ u) :
    emitPathParams args params (u ++ (segs.map (PathSegment.fill fun _ => placeholder)).flatMap ('/' :: ·)) =
      some (u ++ (segs.map (PathSegment.fill vals)).flatMap ('/' :: ·)) := by
  induction segs generalizing params u with
  | nil =>
    obtain rfl := List.map_eq_nil_iff.mp horder
    rfl
  | cons seg segs ih =>
    have hliteral' : ∀ text, .literal text ∈ segs → '{' ∉ text := fun text h =>
      hliteral text (List.mem_cons_of_mem _ h)
    cases seg with
    | literal text =>
      have htext := hliteral text (List.mem_cons_self ..)
      have hnext := ih (u := u ++ '/' :: text) hparams horder hliteral' (by simp [hu, htext])
      simpa [PathSegment.fill] using hnext
    | param name =>
      obtain ⟨p, rest, rfl, hname, hrest⟩ := List.map_eq_cons_iff.mp horder
      obtain ⟨hflag, hvalue, harg⟩ := hparams p (List.mem_cons_self ..)
      have hclear : ¬ placeholder <:+: u ++ ['/'] := fun h => by
        have hbrace := h.subset (List.mem_cons_self ..)
        simp [hu] at hbrace
      have hcut := cutAt_braces hclear ((segs.map (PathSegment.fill fun _ => placeholder)).flatMap ('/' :: ·))
      have hfill := fillPlaceholder_of_cutAt hcut (vals name)
      have hstep : emitPathParam args (u ++ ((PathSegment.param name :: segs).map
          (PathSegment.fill fun _ => placeholder)).flatMap ('/' :: ·)) p =
            some (u ++ '/' :: vals name ++
              (segs.map (PathSegment.fill fun _ => placeholder)).flatMap ('/' :: ·)) := by
        rw [emitPathParam, harg, hflag, hname]
        simpa [PathSegment.fill, placeholder, Scalar.asString] using hfill
      have hnext := ih (u := u ++ '/' :: vals name) (fun q hq => hparams q (List.mem_cons_of_mem _ hq)) hrest
        hliteral' (by rw [← hname]; simp [hu, hvalue])
      rw [emitPathParams, List.foldlM_cons, hstep]
      simpa [PathSegment.fill, emitPathParams] using hnext

theorem methodPath_eq_fillPath (hparsed : ep.Parsed) (hplain : PlainPath ep (segs ep))
    (hparams : ep.pathParams.map (·.wire_name) = (segs ep).filterMap PathSegment.name?)
    (hargs : ∀ p ∈ ep.pathParams, p.is_string_type = true ∧ '{' ∉ vals p.wire_name ∧
      args p = some (.scalar (.string (vals p.wire_name)))) :
    methodPath ep args = some (fillPath vals ep.path) := by
  rw [methodPath, Endpoint.literalPath, readLiteral_escapeCppString, hplain.path_template_eq hparsed,
    hplain.fillPath_eq]
  by_cases hnil : segs ep = []
  · rw [hnil] at hparams ⊢
    rw [List.map_eq_nil_iff.mp hparams]
    rfl
  · rw [joined_of_ne_nil (by simpa using hnil), joined_of_ne_nil (by simpa using hnil)]
    exact emitPathParams_joined (u := []) hargs hparams (fun _ => hplain.brace_notMem) List.not_mem_nil

theorem exists_methodTarget {path query : Str} (hpath : methodPath ep args = some path)
    (hquery : emitQueryParams args ep.queryParams = some query) :
    ∃ target, methodTarget ep args = some target ∧ cutQuery target = cutQuery path := by
  by_cases hparams : ep.pathParams = []
  · obtain rfl : ep.literalPath = path := by
      rw [methodPath, hparams] at hpath
      exact Option.some.inj hpath
    by_cases hq : ep.queryParams = []
    · exact ⟨ep.literalPath, by simp [methodTarget, hparams, hq], rfl⟩
    · by_cases hask : ep.queryParams.all (·.required) = true ∨ query ≠ []
      · refine ⟨ep.literalPath ++ '?' :: query, ?_, cutQuery_append_query _ _⟩
        rcases hask with hask | hask
        · simp only [methodTarget, hparams, hask, hquery]
          simp [hq]
        · simp [methodTarget, hparams, hq, hask, hquery]
      · rw [not_or, not_not] at hask
        refine ⟨ep.literalPath, ?_, rfl⟩
        rw [hask.2] at hquery
        simp only [methodTarget, hparams, hask.1, hquery]
        simp [hq]
  · refine ⟨_, ?_, (target_facts path query).2⟩
    rw [methodTarget_of_pathParams hparams, hpath, hquery]
    rfl

theorem exists_query_of_methodTarget {target : Str} (h : methodTarget ep args = some target) :
    ∃ query, emitQueryParams args ep.queryParams = some query := by
  cases hquery : emitQueryParams args ep.queryParams with
  | some query => exact ⟨query, rfl⟩
  | none =>
    have hq : ep.queryParams ≠ [] := by
      intro hnil
      rw [hnil] at hquery
      cases hquery
    by_cases hparams : ep.pathParams = []
    · simp [methodTarget, hparams, hq, hquery] at h
    · simp [methodTarget, hparams, hq, hquery] at h

/-- **The calls of the client reach their handlers.**  When the parameters of an endpoint are declared in the
order of its path and no earlier path of the method meets that one, every call with strings that can be
segments builds a target with the path that is meant, and the server calls the handler of the endpoint. -/
theorem calls_reach_handlers (hrun : parseEndpoints ir ho spec = .ok endpoints)
    (hplain : ∀ e ∈ endpoints, PlainPath e (segs e)) (horder : lookupOrder endpoints = before ++ ep :: after)
    (hmeet : ∀ e ∈ before, e.verb = ep.verb → ¬ List.Forall₂ PathSegment.Meets (segs e) (segs ep))
    (hparams : ep.pathParams.map (·.wire_name) = (segs ep).filterMap PathSegment.name?)
    (hargs : ∀ p ∈ ep.pathParams, p.is_string_type = true ∧ SegmentValue (vals p.wire_name) ∧
      args p = some (.scalar (.string (vals p.wire_name))))
    (hquery : ∃ query, emitQueryParams args ep.queryParams = some query) :
    ∃ target, methodTarget ep args = some target ∧ cutQuery target = fillPath vals ep.path ∧
      handle_request (emitServerCpp endpoints) ⟨target, ep.verb⟩ = [.call ep.function_name] := by
  have hep : ep ∈ endpoints := mem_lookupOrder.mp (horder ▸ by simp)
  have hvals : ∀ name, .param name ∈ segs ep → SegmentValue (vals name) := by
    intro name hname
    have hmem : name ∈ ep.pathParams.map (·.wire_name) := by
      rw [hparams]
      exact List.mem_filterMap.mpr ⟨_, hname, rfl⟩
    obtain ⟨p, hp, rfl⟩ := List.mem_map.mp hmem
    exact (hargs p hp).2.1
  have hpath := methodPath_eq_fillPath (parsed_of_mem_parseEndpoints hrun hep) (hplain ep hep) hparams
    fun p hp => ⟨(hargs p hp).1, (hargs p hp).2.1.brace, (hargs p hp).2.2⟩
  obtain ⟨query, hquery⟩ := hquery
  obtain ⟨target, htarget, hcut⟩ := exists_methodTarget hpath hquery
  refine ⟨target, htarget, ?_, handle_request_of_unshadowed hrun hplain horder hmeet hvals hcut⟩
  rw [hcut, cutQuery_request (hplain ep hep) hvals, (hplain ep hep).fillPath_eq]

end

/-- Two paths of the method `get`, one of them with parameters. -/
def partsSpec : JsonObject :=
  pathsSpec [("/items/latest".toList, .obj [("get".toList, .obj [])]),
    ("/items/{id}/parts/{part}".toList, .obj [("get".toList, .obj [("parameters".toList,
      .arr [declaredParam "id".toList "path".toList, declaredParam "part".toList "path".toList])])])]

def partsSegs (ep : Endpoint) : List PathSegment :=
  if ep.isStatic then [.literal "items".toList, .literal "latest".toList]
  else [.literal "items".toList, .param "id".toList, .literal "parts".toList, .param "part".toList]

/-- What is read of the document. -/
structure PartsParsed (latest part : Endpoint) : Prop where
  run : parseEndpoints .crash (HashOrder.newestFirst _) partsSpec = .ok [latest, part]
  static_path : latest.isStatic = true
  param_path : part.isStatic = false
  path : latest.path = "/items/latest".toList
  path' : part.path = "/items/{id}/parts/{part}".toList
  names : part.wireNames = ["id".toList, "part".toList]
  params : part.pathParams.map (·.wire_name) = ["id".toList, "part".toList]
  flags : ∀ p ∈ part.pathParams, p.is_string_type = true
  functions : latest.function_name ≠ part.function_name

theorem partsParsed : ∃ latest part, PartsParsed latest part :=
  ⟨_, _, rfl, rfl, rfl, rfl, rfl, rfl, rfl, by decide, by decide⟩

theorem PartsParsed.order {latest part : Endpoint} (h : PartsParsed latest part) :
    lookupOrder [latest, part] = [latest] ++ part :: [] := by
  simp [lookupOrder, h.static_path, h.param_path]

theorem PartsParsed.plainPath {latest part : Endpoint} (h : PartsParsed latest part) :
    ∀ e ∈ [latest, part], PlainPath e (partsSegs e) := by
  have hvalue : ∀ text ∈ ["items".toList, "latest".toList, "parts".toList], SegmentValue text := by
    have hall : ∀ text ∈ ["items".toList, "latest".toList, "parts".toList],
        text ≠ [] ∧ '/' ∉ text ∧ '?' ∉ text ∧ '{' ∉ text := by decide
    exact fun text h => ⟨(hall text h).1, (hall text h).2.1, (hall text h).2.2.1, (hall text h).2.2.2⟩
  intro e he
  rcases List.mem_pair.mp he with rfl | rfl
  · rw [partsSegs, if_pos h.static_path]
    refine ⟨h.path, fun text ht => hvalue text ?_, fun name hn => ?_, by decide⟩
    · simp only [List.mem_cons, PathSegment.literal.injEq, List.not_mem_nil, or_false] at ht
      rcases ht with rfl | rfl <;> decide
    · simp at hn
  · rw [partsSegs, h.param_path, if_neg Bool.false_ne_true]
    refine ⟨h.path', fun text ht => hvalue text ?_, fun name hn => ?_, by decide⟩
    · simp only [List.mem_cons, PathSegment.literal.injEq, reduceCtorEq, List.not_mem_nil, or_false,
        false_or] at ht
      rcases ht with rfl | rfl <;> decide
    · rw [h.names]
      simp only [List.mem_cons, PathSegment.param.injEq, reduceCtorEq, List.not_mem_nil, or_false, false_or] at hn
      rcases hn with rfl | rfl <;> decide

theorem PartsParsed.not_meets {latest part : Endpoint} (h : PartsParsed latest part) :
    ∀ e ∈ [latest], e.verb = part.verb → ¬ List.Forall₂ PathSegment.Meets (partsSegs e) (partsSegs part) := by
  intro e he _
  obtain rfl := List.mem_singleton.mp he
  rw [partsSegs, partsSegs, h.static_path, h.param_path]
  decide

theorem reachable_iff_unshadowed_part :
    ∃ latest part, PartsParsed latest part ∧ (Reachable [latest, part] part ↔ ∀ e ∈ [latest], e.verb = part.verb →
        ¬ List.Forall₂ PathSegment.Meets (partsSegs e) (partsSegs part)) :=
  partsParsed.imp fun _ => Exists.imp fun _ h =>
    ⟨h, reachable_iff_unshadowed h.run h.plainPath (by simpa using h.functions) h.order⟩

end Siesta
