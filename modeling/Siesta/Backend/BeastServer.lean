import Siesta.IR.Endpoint
import Siesta.Lib.ListM

/-!
# The generated server: `generator/src/Backend/Beast/BeastServerGen.cpp`

`emitServerCpp` writes the endpoints into two tables, the static ones under their path and verb and
the parameterised ones in the order of the list; `handle_request` is the text it writes below the
tables.  `Dispatches` says which endpoint a request is for, and `handle_request_dispatches` that the
generated code calls it.
-/

namespace Siesta

open Lib

/-! ### The generated tables -/

/-- A constant of `boost::beast::http::verb`, by its name. -/
structure Verb where
  cpp_name : Str
  deriving DecidableEq

/-- What the generated `.cpp` file depends on: the rows of its two tables, paths and patterns as they
stand between the quotes of their literals. -/
structure ServerCpp where
  STATIC_PATHS : List ((Str × Verb) × Str)
  PARAM_PATHS : List (Str × Verb × Str)

def placeholder : Str := ['{', '}']

/-- `path_template.find("{}") == npos`. -/
def Endpoint.isStatic (ep : Endpoint) : Bool := (cutAt placeholder ep.path_template).isNone

def Endpoint.verb (ep : Endpoint) : Verb := ⟨ep.cpp_verb⟩

/-- `emitServerCpp`. -/
def emitServerCpp (endpoints : List Endpoint) : ServerCpp :=
  let static_eps := endpoints.filter fun ep => ep.isStatic
  let param_eps := endpoints.filter fun ep => !ep.isStatic
  { STATIC_PATHS := static_eps.map fun ep => ((escapeCppString ep.path, ep.verb), ep.function_name)
    PARAM_PATHS := param_eps.map fun ep =>
      (escapeCppString ep.path_template, ep.verb, ep.function_name) }

/-! ### The generated code -/

/-- A turn of `match_path` that drops a segment makes the pattern shorter: an empty segment of the
pattern only passes against an empty one of the target, and then both start with a slash. -/
theorem length_dropWhile_lt {p t : Char} {pattern target : Str} (hslash : ¬ (p = '/' ∧ t = '/'))
    (hseg : ¬ ((p :: pattern).takeWhile (· ≠ '/') ≠ placeholder ∧
      (p :: pattern).takeWhile (· ≠ '/') ≠ (t :: target).takeWhile (· ≠ '/'))) :
    ((p :: pattern).dropWhile (· ≠ '/')).length < (p :: pattern).length := by
  by_cases hp : p = '/'
  · subst hp
    have ht : t ≠ '/' := fun ht => hslash ⟨rfl, ht⟩
    simp [placeholder, ht] at hseg
  · have hle := (List.dropWhile_sublist (fun c => decide (c ≠ '/')) (l := pattern)).length_le
    rw [List.dropWhile_cons_of_pos (by simpa using hp), List.length_cons]
    omega

/-- `match_path`.  A turn of the loop takes a slash, or a segment, off the pattern. -/
def match_path (pattern target : Str) : Bool :=
  match pattern, target with
  | [], target => target.isEmpty
  | _ :: _, [] => false
  | p :: pattern, t :: target =>
    if p = '/' ∧ t = '/' then match_path pattern target
    else
      let ps := (p :: pattern).takeWhile (· ≠ '/')
      let ts := (t :: target).takeWhile (· ≠ '/')
      if ps ≠ placeholder ∧ ps ≠ ts then false
      else match_path ((p :: pattern).dropWhile (· ≠ '/')) ((t :: target).dropWhile (· ≠ '/'))
termination_by pattern.length
decreasing_by
  · simp
  · exact length_dropWhile_lt ‹_› ‹_›

/-- What the server does about a request. -/
inductive ServerAction where
  /-- A handler is called. -/
  | call (function_name : Str)
  /-- The response gets the status 404 and is written. -/
  | notFound
  deriving DecidableEq

structure Request where
  target : Str
  method : Verb

/-- `target.substr(0, target.find('?'))`. -/
def cutQuery (target : Str) : Str := target.takeWhile (· ≠ '?')

/-- `STATIC_PATHS`: the hash table its rows initialise. -/
def staticTable (server : ServerCpp) : Table (Str × Verb) Str :=
  server.STATIC_PATHS.foldl (fun table row => table.emplace (readLiteral row.1.1, row.1.2) row.2) ∅

/-- `handle_request`: the actions it takes. -/
def handle_request (server : ServerCpp) (req : Request) : List ServerAction :=
  let target := cutQuery req.target
  match (staticTable server).find (target, req.method) with
  | some fn => [.call fn]
  | none =>
    match server.PARAM_PATHS.find? fun row =>
        match_path (readLiteral row.1) target && row.2.1 = req.method with
    | some row => [.call row.2.2]
    | none => [.notFound]

theorem handle_request_of_none {server : ServerCpp} {req : Request}
    (hstatic : (staticTable server).find (cutQuery req.target, req.method) = none)
    (hparam : (server.PARAM_PATHS.find? fun row =>
      match_path (readLiteral row.1) (cutQuery req.target) && row.2.1 = req.method) = none) :
    handle_request server req = [.notFound] := by
  unfold handle_request
  simp only [hstatic, hparam]

/-! ### What a request is for -/

/-- The template agrees with the path on every segment that is not a placeholder. -/
def TemplateMatches (path_template path : Str) : Prop :=
  List.Forall₂ (fun p t => p = placeholder ∨ p = t) (path_template.splitOn '/') (path.splitOn '/')

/-- Which action a request for `path` asks for. -/
inductive Dispatches (endpoints : List Endpoint) (path : Str) (method : Verb) : ServerAction → Prop
  /-- A static endpoint with this very path. -/
  | static {ep : Endpoint} (hmem : ep ∈ endpoints) (hstatic : ep.isStatic = true)
      (hpath : ep.path = path) (hverb : ep.verb = method) :
      Dispatches endpoints path method (.call ep.function_name)
  /-- No static endpoint, and the first parameterised one that matches. -/
  | param {ep : Endpoint} {before after : List Endpoint}
      (hnone : ∀ e ∈ endpoints, e.isStatic = true → e.path = path → e.verb ≠ method)
      (hsplit : endpoints = before ++ ep :: after)
      (hparam : ep.isStatic = false) (hmatch : TemplateMatches ep.path_template path)
      (hverb : ep.verb = method)
      (hfirst : ∀ e ∈ before, e.isStatic = false → TemplateMatches e.path_template path →
        e.verb ≠ method) :
      Dispatches endpoints path method (.call ep.function_name)
  /-- No endpoint at all. -/
  | notFound
      (hnone : ∀ e ∈ endpoints, e.isStatic = true → e.path = path → e.verb ≠ method)
      (hunmatched : ∀ e ∈ endpoints, e.isStatic = false → TemplateMatches e.path_template path →
        e.verb ≠ method) :
      Dispatches endpoints path method .notFound

/-! ### `match_path` compares segment by segment -/

theorem match_path_slash (pattern target : Str) :
    match_path ('/' :: pattern) ('/' :: target) = match_path pattern target := by
  rw [match_path]
  simp

theorem match_path_segment {p t : Char} {pattern target : Str} (hslash : ¬ (p = '/' ∧ t = '/')) :
    match_path (p :: pattern) (t :: target) = true ↔
      ((p :: pattern).takeWhile (· ≠ '/') = placeholder ∨
        (p :: pattern).takeWhile (· ≠ '/') = (t :: target).takeWhile (· ≠ '/')) ∧
      match_path ((p :: pattern).dropWhile (· ≠ '/')) ((t :: target).dropWhile (· ≠ '/')) = true := by
  rw [match_path, if_neg hslash]
  dsimp only
  split
  · rename_i hseg
    simp only [Bool.false_eq_true, false_iff, not_and]
    exact fun h => absurd h (not_or.mpr hseg)
  · rename_i hseg
    simp only [not_and_or, not_not] at hseg
    exact ⟨fun h => ⟨hseg, h⟩, fun h => h.2⟩

def lastSegment (s : Str) : Option Str := (s.splitOn '/').getLast?

theorem lastSegment_of_rest {s rest : Str} (h : s.dropWhile (· ≠ '/') = '/' :: rest) :
    lastSegment s = lastSegment rest := by
  obtain ⟨x, xs, hx⟩ := List.exists_cons_of_ne_nil (List.splitOn_ne_nil '/' rest)
  rw [lastSegment, lastSegment, splitOn_eq_cons, h, segmentsAfter, hx]
  exact List.getLast?_cons_cons

theorem templateMatches_of_rest {pattern target p t : Str} (hp : pattern.dropWhile (· ≠ '/') = '/' :: p)
    (ht : target.dropWhile (· ≠ '/') = '/' :: t) :
    TemplateMatches pattern target ↔ (pattern.takeWhile (· ≠ '/') = placeholder ∨
      pattern.takeWhile (· ≠ '/') = target.takeWhile (· ≠ '/')) ∧ TemplateMatches p t := by
  rw [TemplateMatches, splitOn_eq_cons, splitOn_eq_cons '/' target, hp, ht, List.forall₂_cons]
  rfl

/-- The segments agree, and an empty one at the end of the target is one of the pattern. -/
def EndsMatch (pattern target : Str) : Prop :=
  TemplateMatches pattern target ∧ (lastSegment target = some [] → lastSegment pattern = some [])

theorem match_path_rest {p t : Char} {pattern target : Str} (hslash : ¬ (p = '/' ∧ t = '/'))
    (ih : ∀ p' t', (p :: pattern).dropWhile (· ≠ '/') = '/' :: p' →
      (match_path p' t' = true ↔ EndsMatch p' t')) :
    match_path (p :: pattern) (t :: target) = true ↔ EndsMatch (p :: pattern) (t :: target) := by
  rw [match_path_segment hslash]
  have hsplit := splitOn_eq_cons '/' (p :: pattern)
  have hsplit' := splitOn_eq_cons '/' (t :: target)
  rcases dropWhile_ne_cases '/' (p :: pattern) with hp | ⟨p', hp⟩ <;>
    rcases dropWhile_ne_cases '/' (t :: target) with ht | ⟨t', ht⟩
  · have hne : (t :: target).takeWhile (· ≠ '/') ≠ [] := by
      intro hnil
      have happend := List.takeWhile_append_dropWhile (p := (· ≠ '/')) (l := t :: target)
      rw [hnil, ht] at happend
      cases happend
    rw [hp, segmentsAfter] at hsplit
    rw [ht, segmentsAfter] at hsplit'
    rw [hp, ht, EndsMatch, TemplateMatches, lastSegment, hsplit, hsplit']
    simp only [match_path, List.isEmpty_nil, List.forall₂_cons, List.forall₂_nil_left_iff, and_true,
      List.getLast?_singleton, Option.some.injEq, hne, false_implies]
  · -- the target has a segment more
    rw [ht, segmentsAfter] at hsplit'
    rw [hp, segmentsAfter] at hsplit
    rw [hp, ht, EndsMatch, TemplateMatches, hsplit, hsplit']
    simp [match_path, List.splitOn_ne_nil]
  · -- the pattern has a segment more
    rw [ht, segmentsAfter] at hsplit'
    rw [hp, segmentsAfter] at hsplit
    rw [hp, ht, EndsMatch, TemplateMatches, hsplit, hsplit']
    simp [match_path, List.splitOn_ne_nil]
  · rw [hp, ht, match_path_slash, ih p' t' hp, EndsMatch, EndsMatch, templateMatches_of_rest hp ht,
      lastSegment_of_rest hp, lastSegment_of_rest ht, and_assoc]

/-- **`match_path` compares segment by segment.**  The induction is on the length of the pattern. -/
theorem match_path_iff_endsMatch (pattern target : Str) :
    match_path pattern target = true ↔ EndsMatch pattern target := by
  induction hlen : pattern.length using Nat.strong_induction_on generalizing pattern target with
  | h n ih =>
    cases pattern with
    | nil =>
      rw [match_path, EndsMatch, TemplateMatches, List.splitOn_nil, splitOn_eq_cons '/' target]
      cases target with
      | nil => simp [lastSegment, segmentsAfter]
      | cons t target =>
        by_cases ht : t = '/'
        · simp [ht, segmentsAfter, List.splitOn_ne_nil]
        · simp [ht, placeholder]
    | cons p pattern =>
      cases target with
      | nil =>
        -- the pattern would be an empty segment
        simp only [match_path, Bool.false_eq_true, false_iff]
        rintro ⟨hmatch, hlast⟩
        rw [TemplateMatches, List.splitOn_nil] at hmatch
        obtain ⟨x, hx⟩ := List.length_eq_one_iff.mp hmatch.length_eq
        have hnil := hlast (by simp [lastSegment])
        rw [lastSegment, hx, List.getLast?_singleton, Option.some.injEq] at hnil
        have hjoin : ['/'].intercalate ((p :: pattern).splitOn '/') = p :: pattern :=
          List.intercalate_splitOn '/'
        rw [hx, hnil] at hjoin
        cases hjoin
      | cons t target =>
        by_cases hslash : p = '/' ∧ t = '/'
        · obtain ⟨rfl, rfl⟩ := hslash
          have hp : ('/' :: pattern).dropWhile (· ≠ '/') = '/' :: pattern := by simp
          have ht : ('/' :: target).dropWhile (· ≠ '/') = '/' :: target := by simp
          have hrest := ih pattern.length (by simpa using hlen ▸ Nat.lt_succ_self _) pattern target rfl
          rw [match_path_slash, hrest, EndsMatch, EndsMatch, templateMatches_of_rest hp ht,
            lastSegment_of_rest hp, lastSegment_of_rest ht]
          simp
        · refine match_path_rest hslash fun p' t' hp' => ih p'.length ?_ p' t' rfl
          have hle := (List.dropWhile_sublist (fun c => decide (c ≠ '/')) (l := p :: pattern)).length_le
          rw [hp', List.length_cons] at hle
          omega

/-- On a path without empty segments, `match_path` is the comparison of segments. -/
theorem match_path_iff (pattern target : Str) (hsegs : ∀ seg ∈ target.splitOn '/', seg ≠ []) :
    match_path pattern ('/' :: target) = true ↔ TemplateMatches pattern ('/' :: target) := by
  have hlast : lastSegment ('/' :: target) ≠ some [] := by
    have hrest : ('/' :: target).dropWhile (· ≠ '/') = '/' :: target := by simp
    rw [lastSegment_of_rest hrest]
    intro hnil
    exact hsegs [] (List.mem_of_getLast? hnil) rfl
  rw [match_path_iff_endsMatch, EndsMatch]
  simp [hlast]

/-! ### `handle_request` dispatches -/

theorem find_staticTable (endpoints : List Endpoint) (path : Str) (method : Verb) :
    (staticTable (emitServerCpp endpoints)).find (path, method) =
      (endpoints.find? fun ep => ep.isStatic && (ep.path = path ∧ ep.verb = method)).map
        Endpoint.function_name := by
  unfold staticTable
  rw [Table.find_foldl_emplace (fun row : (Str × Verb) × Str => (readLiteral row.1.1, row.1.2))]
  simp [emitServerCpp, List.find?_map, List.find?_filter, Function.comp_def,
    readLiteral_escapeCppString]

theorem find_paramPaths (endpoints : List Endpoint) (path : Str) (method : Verb) :
    ((emitServerCpp endpoints).PARAM_PATHS.find? fun row =>
        match_path (readLiteral row.1) path && row.2.1 = method) =
      (endpoints.find? fun ep =>
          !ep.isStatic && (match_path ep.path_template path && ep.verb = method)).map fun ep =>
        (escapeCppString ep.path_template, ep.verb, ep.function_name) := by
  simp [emitServerCpp, List.find?_map, List.find?_filter, readLiteral_escapeCppString]

section

variable {endpoints : List Endpoint} {path : Str} {method : Verb}

theorem Dispatches.unique {a b : ServerAction}
    (hdistinct : (endpoints.map fun ep => (ep.method, ep.path)).Nodup)
    (hverbs : ∀ ep ∈ endpoints, isSupportedMethod ep.method ∧ ep.cpp_verb = cppVerb ep.method)
    (ha : Dispatches endpoints path method a) (hb : Dispatches endpoints path method b) : a = b := by
  cases ha with
  | @static e₁ hmem₁ hstatic₁ hpath₁ hverb₁ =>
    cases hb with
    | @static e₂ hmem₂ hstatic₂ hpath₂ hverb₂ =>
      obtain ⟨hs₁, hv₁⟩ := hverbs e₁ hmem₁
      obtain ⟨hs₂, hv₂⟩ := hverbs e₂ hmem₂
      have hcpp : e₁.cpp_verb = e₂.cpp_verb := congrArg Verb.cpp_name (hverb₁.trans hverb₂.symm)
      have hmethod : e₁.method = e₂.method := cppVerb_injective hs₁ hs₂ (hv₁ ▸ hv₂ ▸ hcpp)
      have hkey : (e₁.method, e₁.path) = (e₂.method, e₂.path) :=
        Prod.ext hmethod (hpath₁.trans hpath₂.symm)
      rw [List.inj_on_of_nodup_map hdistinct hmem₁ hmem₂ hkey]
    | param hnone => exact absurd hverb₁ (hnone e₁ hmem₁ hstatic₁ hpath₁)
    | notFound hnone => exact absurd hverb₁ (hnone e₁ hmem₁ hstatic₁ hpath₁)
  | @param e₁ before₁ after₁ hnone₁ hsplit₁ hparam₁ hmatch₁ hverb₁ hfirst₁ =>
    cases hb with
    | @static e₂ hmem₂ hstatic₂ hpath₂ hverb₂ => exact absurd hverb₂ (hnone₁ e₂ hmem₂ hstatic₂ hpath₂)
    | @param e₂ before₂ after₂ hnone₂ hsplit₂ hparam₂ hmatch₂ hverb₂ hfirst₂ =>
      have heq : e₁ = e₂ := by
        refine (first_unique (P := fun e => e.isStatic = false ∧
            TemplateMatches e.path_template path ∧ e.verb = method) (hsplit₁ ▸ hsplit₂)
          ⟨hparam₁, hmatch₁, hverb₁⟩ ⟨hparam₂, hmatch₂, hverb₂⟩ ?_ ?_).2.1
        · rintro e he ⟨hp, hm, hv⟩
          exact hfirst₁ e he hp hm hv
        · rintro e he ⟨hp, hm, hv⟩
          exact hfirst₂ e he hp hm hv
      rw [heq]
    | notFound hnone₂ hunmatched₂ =>
      exact absurd hverb₁ (hunmatched₂ e₁ (hsplit₁ ▸ by simp) hparam₁ hmatch₁)
  | notFound hnone₁ hunmatched₁ =>
    cases hb with
    | @static e₂ hmem₂ hstatic₂ hpath₂ hverb₂ => exact absurd hverb₂ (hnone₁ e₂ hmem₂ hstatic₂ hpath₂)
    | @param e₂ before₂ after₂ hnone₂ hsplit₂ hparam₂ hmatch₂ hverb₂ hfirst₂ =>
      exact absurd hverb₂ (hunmatched₁ e₂ (hsplit₂ ▸ by simp) hparam₂ hmatch₂)
    | notFound => rfl

theorem handle_request_sound (req : Request) (target : Str)
    (htarget : cutQuery req.target = '/' :: target)
    (hsegs : ∀ seg ∈ target.splitOn '/', seg ≠ []) :
    ∃ action, handle_request (emitServerCpp endpoints) req = [action] ∧
      Dispatches endpoints (cutQuery req.target) req.method action := by
  have hmatch : ∀ template, match_path template (cutQuery req.target) = true ↔
      TemplateMatches template (cutQuery req.target) := fun template =>
    htarget ▸ match_path_iff template target hsegs
  unfold handle_request
  dsimp only
  rw [find_staticTable, find_paramPaths]
  cases hs : endpoints.find? fun ep =>
      ep.isStatic && (ep.path = cutQuery req.target ∧ ep.verb = req.method) with
  | some ep =>
    have hep := List.find?_some hs
    simp only [Bool.and_eq_true, decide_eq_true_eq] at hep
    exact ⟨_, rfl, .static (List.mem_of_find?_eq_some hs) hep.1 hep.2.1 hep.2.2⟩
  | none =>
    have hnone : ∀ e ∈ endpoints, e.isStatic = true → e.path = cutQuery req.target →
        e.verb ≠ req.method := by
      intro e he hst hpath hverb
      have := List.find?_eq_none.mp hs e he
      simp [hst, hpath, hverb] at this
    cases hp : endpoints.find? fun ep => !ep.isStatic &&
        (match_path ep.path_template (cutQuery req.target) && ep.verb = req.method) with
    | some ep =>
      obtain ⟨hep, before, after, hsplit, hfirst⟩ := List.find?_eq_some_iff_append.mp hp
      simp only [Bool.and_eq_true, Bool.not_eq_true', decide_eq_true_eq, hmatch] at hep
      refine ⟨_, rfl, .param hnone hsplit hep.1 hep.2.1 hep.2.2 fun e he hpe hme hve => ?_⟩
      have := hfirst e he
      simp [hpe, (hmatch _).mpr hme, hve] at this
    | none =>
      refine ⟨_, rfl, .notFound hnone fun e he hpe hme hve => ?_⟩
      have := List.find?_eq_none.mp hp e he
      simp [hpe, (hmatch _).mpr hme, hve] at this

end

/-- **Every request is dispatched.**  The generated `handle_request` takes exactly one action, and
it is the only one the request asks for. -/
theorem handle_request_dispatches (endpoints : List Endpoint) (req : Request) (target : Str)
    (hdistinct : (endpoints.map fun ep => (ep.method, ep.path)).Nodup)
    (hverbs : ∀ ep ∈ endpoints, isSupportedMethod ep.method ∧ ep.cpp_verb = cppVerb ep.method)
    (htarget : cutQuery req.target = '/' :: target)
    (hsegs : ∀ seg ∈ target.splitOn '/', seg ≠ []) :
    ∃ action, handle_request (emitServerCpp endpoints) req = [action] ∧
      ∀ a, Dispatches endpoints (cutQuery req.target) req.method a ↔ a = action := by
  obtain ⟨action, hrun, hdisp⟩ := @handle_request_sound endpoints req target htarget hsegs
  refine ⟨action, hrun, fun a => ⟨fun ha => ha.unique hdistinct hverbs hdisp, ?_⟩⟩
  rintro rfl
  exact hdisp

/-- A static and a parameterised endpoint under one prefix. -/
def petEndpoints : List Endpoint :=
  [{ method := "get".toList, path := "/pets".toList, path_template := "/pets".toList,
     cpp_verb := "get".toList, function_name := "get__pets".toList },
   { method := "delete".toList, path := "/pets/{id}".toList, path_template := "/pets/{}".toList,
     cpp_verb := "delete_".toList, function_name := "delete__pets__id".toList }]

def petRequest : Request := ⟨"/pets/7?force=1".toList, ⟨"delete_".toList⟩⟩

theorem handle_request_dispatches_pets :
    ∃ action, handle_request (emitServerCpp petEndpoints) petRequest = [action] ∧
      ∀ a, Dispatches petEndpoints (cutQuery petRequest.target) petRequest.method a ↔ a = action :=
  handle_request_dispatches petEndpoints petRequest "pets/7".toList (by decide) (by decide)
    (by decide) (by decide)

end Siesta
