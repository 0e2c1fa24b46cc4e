import Siesta.Backend.ClientPaths

/-!
# From the client to the server

The target of a generated method on its way through `handle_request`, for an endpoint with one path
parameter that is a whole segment of its path.  `delivered_iff` says which values arrive.
-/

namespace Siesta

open Lib

/-! ### The request line -/

/-- The characters that a request line takes in its target. -/
def isTargetChar (c : Char) : Bool := ('!' ≤ c && c ≤ '~') || (128 ≤ c.toNat && c.toNat < 256)

def Sendable (s : Str) : Prop := ∀ c ∈ s, isTargetChar c = true

instance (s : Str) : Decidable (Sendable s) := inferInstanceAs (Decidable (∀ c ∈ s, _ = true))

/-- `received` is the target the server reads of a request that was sent with a target: the HTTP library
carries a target of such characters, and refuses any other. -/
def Carries (received : Str → Option Str) : Prop :=
  ∀ target ≠ [], received target = if Sendable target then some target else none

theorem Carries.eq_some {received : Str → Option Str} (h : Carries received) {target read : Str}
    (hne : target ≠ []) : received target = some read ↔ Sendable target ∧ target = read := by
  rw [h target hne, Option.ite_none_right_eq_some, Option.some.injEq]

/-! ### What it means that a value arrives -/

/-- The entry of the endpoint in the tables of the server accepts a path. -/
def Endpoint.Accepts (ep : Endpoint) (path : Str) : Prop :=
  (ep.isStatic = true ∧ ep.path = path) ∨
    (ep.isStatic = false ∧ match_path ep.path_template path = true)

/-- Where the path has the slot of a name as a segment, the path of the request has the value,
percent-encoded. -/
def Decodes (path name target value : Str) : Prop :=
  ∀ i : ℕ, (path.splitOn '/')[i]? = some (slot name) → ((target.splitOn '/')[i]?).map url_decode = some value

/-- The target the client builds is received, is dispatched to the endpoint, and has the value of the
parameter in its place. -/
def Delivered (v : Cpp.Vocabulary) (received : Str → Option Str) (endpoints : List Endpoint) (ep : Endpoint)
    (p : ClientParam) (args : Args) (value : Str) : Prop :=
  ∃ target, clientTarget v ep args = some target ∧ received target = some target ∧
    handle_request (emitServerCpp endpoints) ⟨target, ep.verb⟩ = [.call ep.function_name] ∧
    ep.Accepts (cutQuery target) ∧ Decodes ep.path p.wire_name (cutQuery target) value

/-! ### When it does -/

/-- The first slot of the parameter is a segment of its own, and no other segment is one; before it there is
no placeholder. -/
def OneSegment (path wire_name : Str) : Prop :=
  ∃ before after, path.splitOn '/' = before ++ slot wire_name :: after ∧
    (∀ seg ∈ before, ¬ placeholder <:+: seg ∧ ¬ slot wire_name <:+: seg) ∧ slot wire_name ∉ after

/-- A value without a separator that percent-decoding leaves as it is. -/
structure Plain (value : Str) : Prop where
  slash : '/' ∉ value
  question : '?' ∉ value
  percent : url_decode value = value

/-- The texts of a query parameter can be written, and sent. -/
def QuerySends (args : Args) (q : ClientParam) : Prop :=
  ∃ pieces, queryPieces args q = some pieces ∧ ∀ piece ∈ pieces, Sendable piece

/-- The path with the slots of the parameter emptied: what the client fills. -/
def emptied (ep : Endpoint) (p : ClientParam) : Str := emptySlots ep.path (sanitizeParamName p.wire_name)

structure Arrives (ep : Endpoint) (p : ClientParam) (args : Args) (value : Str) : Prop where
  flag : p.is_string_type = true
  query : ∀ q ∈ ep.queryParams, QuerySends args q
  path : (sanitizeParamName p.wire_name = p.wire_name ∧ Sendable (emptied ep p) ∧ '?' ∉ emptied ep p ∧
      Sendable value ∧ ((OneSegment ep.path p.wire_name ∧ Plain value) ∨ value = placeholder)) ∨
    -- the slot of a name that is rewritten stays in the target
    (sanitizeParamName p.wire_name ≠ p.wire_name ∧ value = url_decode (slot p.wire_name) ∧
      Sendable (fillPlaceholder (emptied ep p) value) ∧
      ep.Accepts (cutQuery (fillPlaceholder (emptied ep p) value)))

/-! ### The target and its path -/

theorem cutQuery_append {s : Str} (h : '?' ∉ s) (t : Str) : cutQuery (s ++ t) = s ++ cutQuery t := by
  refine List.takeWhile_append_of_pos fun c hc => ?_
  rw [decide_eq_true_eq]
  rintro rfl
  exact h hc

theorem cutQuery_of_notMem {s : Str} (h : '?' ∉ s) : cutQuery s = s := by
  have hcut := cutQuery_append h []
  rw [List.append_nil] at hcut
  rw [hcut]
  exact List.append_nil s

theorem cutQuery_append_query (s query : Str) : cutQuery (s ++ '?' :: query) = cutQuery s := by
  induction s with
  | nil => simp [cutQuery]
  | cons c s ih =>
    by_cases hc : c = '?'
    · simp [cutQuery, hc]
    · have hcons : ∀ u, cutQuery (c :: u) = c :: cutQuery u := fun u =>
        List.takeWhile_cons_of_pos (by simpa using hc)
      rw [List.cons_append, hcons, hcons, ih]

theorem question_notMem_cutQuery (s : Str) : '?' ∉ cutQuery s := by
  intro h
  simpa using List.mem_takeWhile_imp h

theorem cutQuery_of_question {s : Str} (h : '?' ∈ s) (t : Str) : cutQuery (s ++ t) = cutQuery s := by
  obtain ⟨a, b, rfl⟩ := List.append_of_mem h
  rw [List.append_assoc, List.cons_append, cutQuery_append_query, cutQuery_append_query]

theorem length_cutQuery_lt {s : Str} (h : '?' ∈ s) : (cutQuery s).length < s.length := by
  obtain ⟨a, b, rfl⟩ := List.append_of_mem h
  have hle := (List.takeWhile_sublist (fun c => decide (c ≠ '?')) (l := a)).length_le
  rw [cutQuery_append_query, List.length_append, List.length_cons]
  exact Nat.lt_of_le_of_lt hle (by omega)

theorem methodTarget_of_pathParams {ep : Endpoint} {args : Args} (h : ep.pathParams ≠ []) :
    methodTarget ep args = do
      let path ← methodPath ep args
      let query ← emitQueryParams args ep.queryParams
      return if query = [] then path else path ++ '?' :: query := by
  unfold methodTarget
  by_cases hq : ep.queryParams = []
  · have hnone : emitQueryParams args [] = some [] := rfl
    simp [h, hq, hnone]
  · cases methodPath ep args with
    | none => simp [h, hq]
    | some path =>
      cases emitQueryParams args ep.queryParams with
      | none => simp [h, hq]
      | some query => by_cases hquery : query = [] <;> simp [h, hq, hquery]

theorem exists_query_iff {args : Args} {params : List ClientParam} :
    (∃ query, emitQueryParams args params = some query ∧ Sendable query) ↔
      ∀ q ∈ params, QuerySends args q := by
  have hchars : ∀ pieces : List (List Str),
      Sendable ((pieces.flatten).foldl addPiece []) ↔ ∀ ps ∈ pieces, ∀ piece ∈ ps, Sendable piece := by
    intro pieces
    have hjoin := forall_mem_foldl_joinNext (c := '&') (Q := fun d => isTargetChar d = true) (by decide)
      pieces.flatten []
    refine hjoin.trans ⟨fun h ps hps piece hp => ?_, fun h => ⟨by simp, fun piece hp => ?_⟩⟩
    · exact h.2 piece (List.mem_flatten.mpr ⟨ps, hps, hp⟩)
    · obtain ⟨ps, hps, hp⟩ := List.mem_flatten.mp hp
      exact h ps hps piece hp
  simp only [emitQueryParams, foldlM_map_option, Option.map_eq_some_iff]
  constructor
  · rintro ⟨query, ⟨pieces, hpieces, rfl⟩, hsend⟩ q hq
    rw [← List.foldl_flatten] at hsend
    obtain ⟨ps, hps, hqps⟩ := forall₂_exists_right (mapM_eq_some.mp hpieces) q hq
    exact ⟨ps, hqps, (hchars pieces).mp hsend ps hps⟩
  · intro h
    obtain ⟨pieces, hpieces⟩ := exists_forall₂ h
    refine ⟨_, ⟨pieces, mapM_eq_some.mpr (hpieces.imp fun _ _ hq => hq.1), rfl⟩, ?_⟩
    rw [← List.foldl_flatten]
    refine (hchars pieces).mpr fun ps hps => ?_
    obtain ⟨q, -, hq⟩ := forall₂_exists_left hpieces ps hps
    exact hq.2

/-- The server calls the function of an endpoint whose entry accepts the path. -/
theorem handle_request_of_accepts {endpoints : List Endpoint} {ep : Endpoint} (hep : ep ∈ endpoints)
    (hnames : ∀ e ∈ endpoints, e.verb = ep.verb → e.function_name = ep.function_name) {target : Str}
    (h : ep.Accepts (cutQuery target)) :
    handle_request (emitServerCpp endpoints) ⟨target, ep.verb⟩ = [.call ep.function_name] := by
  unfold handle_request
  dsimp only
  rw [find_staticTable, find_paramPaths]
  cases hs : endpoints.find? fun e => e.isStatic && (e.path = cutQuery target ∧ e.verb = ep.verb) with
  | some e =>
    have he := List.find?_some hs
    simp only [Bool.and_eq_true, decide_eq_true_eq] at he
    have hname := hnames e (List.mem_of_find?_eq_some hs) he.2.2
    simp [hname]
  | none =>
    have hno := List.find?_eq_none.mp hs ep hep
    rcases h with ⟨hstatic, hpath⟩ | ⟨hparam, hmatch⟩
    · simp [hstatic, hpath] at hno
    · cases hp : endpoints.find? fun e =>
          !e.isStatic && (match_path e.path_template (cutQuery target) && e.verb = ep.verb) with
      | some e =>
        have he := List.find?_some hp
        simp only [Bool.and_eq_true, decide_eq_true_eq] at he
        have hname := hnames e (List.mem_of_find?_eq_some hp) he.2.2
        simp [hname]
      | none =>
        have hno := List.find?_eq_none.mp hp ep hep
        simp [hparam, hmatch] at hno

/-! ### A template, cut at its first placeholder -/

/-- A template that has a placeholder, with the segments around it, next to those of the path it was made
from. -/
structure TemplateCut (path name : Str) where
  (before after : Str)
  (xs ys : List Str)
  (x y : Str)
  (earlier later : List Str)
  (seg : Str)
  cut : cutAt placeholder (emptySlots path name) = some (before, after)
  before_eq : before.splitOn '/' = xs ++ [x]
  after_eq : after.splitOn '/' = y :: ys
  path_eq : path.splitOn '/' = earlier ++ seg :: later
  earlier_eq : earlier.map (emptySlots · name) = xs
  seg_eq : emptySlots seg name = x ++ (placeholder ++ y)
  later_eq : later.map (emptySlots · name) = ys

theorem exists_templateCut {path name : Str} (hslash : '/' ∉ slot name)
    (h : placeholder <:+: emptySlots path name) : Nonempty (TemplateCut path name) := by
  obtain ⟨before, after, hcut⟩ := exists_cutAt h
  obtain ⟨xs, x, hbefore⟩ : ∃ xs x, before.splitOn '/' = xs ++ [x] :=
    ⟨_, _, (List.dropLast_append_getLast (List.splitOn_ne_nil '/' before)).symm⟩
  obtain ⟨y, ys, hafter⟩ := List.exists_cons_of_ne_nil (List.splitOn_ne_nil '/' after)
  have hseam : (emptySlots path name).splitOn '/' = xs ++ (x ++ (placeholder ++ y)) :: ys := by
    have htail := splitOn_append_of_notMem (c := '/') (u := placeholder) (by decide) hafter
    rw [cutAt_eq_some hcut, List.append_assoc]
    exact splitOn_append hbefore htail
  rw [splitOn_emptySlots hslash] at hseam
  obtain ⟨earlier, rest, hpath, hearlier, hrest⟩ := List.map_eq_append_iff.mp hseam
  obtain ⟨seg, later, rfl, hseg, hlater⟩ := List.map_eq_cons_iff.mp hrest
  exact ⟨before, after, xs, ys, x, y, earlier, later, seg, hcut, hbefore, hafter, hpath, hearlier, hseg,
    hlater⟩

namespace TemplateCut

variable {path name : Str} (f : TemplateCut path name) {value : Str}

theorem template_eq : emptySlots path name = f.before ++ placeholder ++ f.after := cutAt_eq_some f.cut

theorem fill_eq (value : Str) :
    fillPlaceholder (emptySlots path name) value = f.before ++ value ++ f.after :=
  fillPlaceholder_of_cutAt f.cut value

theorem segments_fill (hvalue : '/' ∉ value) :
    (f.before ++ value ++ f.after).splitOn '/' = f.xs ++ (f.x ++ (value ++ f.y)) :: f.ys := by
  have htail := splitOn_append_of_notMem hvalue f.after_eq
  rw [List.append_assoc]
  exact splitOn_append f.before_eq htail

theorem segments :
    (emptySlots path name).splitOn '/' = f.xs ++ (f.x ++ (placeholder ++ f.y)) :: f.ys := by
  rw [f.template_eq]
  exact f.segments_fill (by decide)

theorem length_earlier : f.earlier.length = f.xs.length := by
  rw [← f.earlier_eq, List.length_map]

/-- Before the first placeholder there is no slot of the name, which would have become one. -/
theorem earlier_clear : ∀ z ∈ f.earlier, ¬ placeholder <:+: z ∧ ¬ slot name <:+: z := by
  intro z hz
  have hmem : emptySlots z name ∈ f.before.splitOn '/' := by
    rw [f.before_eq, ← f.earlier_eq]
    exact List.mem_append_left _ (List.mem_map_of_mem hz)
  have hclear : ¬ placeholder <:+: emptySlots z name := fun hin =>
    not_infix_of_cutAt (by decide) f.cut (hin.trans (infix_of_mem_splitOn hmem))
  exact ⟨fun hin => hclear (braces_emptySlots name hin), fun hin => hclear (braces_of_slot hin)⟩

theorem position {i : ℕ} (h : (path.splitOn '/')[i]? = some (slot name)) :
    (i = f.xs.length ∧ f.seg = slot name) ∨
      ∃ j, i = f.xs.length + (j + 1) ∧ f.later[j]? = some (slot name) := by
  rw [f.path_eq] at h
  rw [← f.length_earlier]
  exact getElem?_append_cons h fun hmem => (f.earlier_clear _ hmem).2 List.infix_rfl

theorem whole (h : f.seg = slot name) : f.x = [] ∧ f.y = [] := by
  have hseg := f.seg_eq
  rw [h, emptySlots_slot] at hseg
  have hlen := congrArg List.length hseg
  simp only [placeholder, List.length_append, List.length_cons, List.length_nil] at hlen
  exact ⟨List.length_eq_zero_iff.mp (by omega), List.length_eq_zero_iff.mp (by omega)⟩

end TemplateCut

/-! ### The values that arrive -/

theorem question_notMem_of_matches {template target : Str} (htarget : '?' ∉ target)
    (h : TemplateMatches template target) : '?' ∉ template := by
  intro hq
  obtain ⟨seg, hseg, hqs⟩ := exists_mem_splitOn (c := '/') (by decide) hq
  obtain ⟨t, ht, hmatch⟩ := forall₂_exists_right h seg hseg
  rcases hmatch with rfl | rfl
  · exact absurd hqs (by decide)
  · exact htarget ((infix_of_mem_splitOn ht).subset hqs)

namespace TemplateCut

variable {path name : Str} (f : TemplateCut path name) {value : Str}

/-- A `?` of the value cuts it, and what is left of it is too short to be decoded to it. -/
theorem question_notMem (htemplate : '?' ∉ emptySlots path name) (hslot : slot name ∈ path.splitOn '/')
    (h : Decodes path name (cutQuery (f.before ++ value ++ f.after)) value) : '?' ∉ value := by
  intro hq
  have hbefore : '?' ∉ f.before := fun hin => htemplate (by rw [f.template_eq]; simp [hin])
  rw [List.append_assoc, cutQuery_append hbefore, cutQuery_of_question hq] at h
  obtain ⟨z, zs, hsplit⟩ := List.exists_cons_of_ne_nil (List.splitOn_ne_nil '/' (cutQuery value))
  have hshort : ∀ s ∈ z :: zs, url_decode s ≠ value := by
    rintro s hs rfl
    have hle := (infix_of_mem_splitOn (hsplit ▸ hs)).length_le
    have hlt := length_cutQuery_lt hq
    have hdecode := length_url_decode_le s
    omega
  have hsegs : (f.before ++ cutQuery value).splitOn '/' = f.xs ++ (f.x ++ z) :: zs :=
    splitOn_append f.before_eq hsplit
  obtain ⟨i, hi⟩ := List.mem_iff_getElem?.mp hslot
  have hdec := h i hi
  rw [hsegs] at hdec
  rcases f.position hi with ⟨rfl, hseg⟩ | ⟨j, rfl, -⟩
  · rw [List.getElem?_append_right le_rfl, Nat.sub_self, (f.whole hseg).1] at hdec
    exact hshort z (List.mem_cons_self ..) (Option.some.inj hdec)
  · rw [List.getElem?_append_right (by omega), Nat.add_sub_cancel_left, List.getElem?_cons_succ] at hdec
    obtain ⟨s, hs, hvalue⟩ := Option.map_eq_some_iff.mp hdec
    exact hshort s (List.mem_cons_of_mem _ (List.mem_of_getElem? hs)) hvalue

/-- A slash of the value gives the path a segment that the template does not have. -/
theorem slash_notMem (h : TemplateMatches (emptySlots path name) (f.before ++ value ++ f.after)) :
    '/' ∉ value := by
  intro hslash
  have hlen := h.length_eq
  have hpos := List.count_pos_iff.mpr hslash
  have hnone : placeholder.count '/' = 0 := by decide
  rw [length_splitOn, length_splitOn, f.template_eq] at hlen
  simp only [List.count_append, hnone] at hlen
  omega

/-- The first placeholder is that of the only segment with the slot of the name. -/
theorem of_oneSegment (h : OneSegment path name) : f.seg = slot name ∧ slot name ∉ f.later := by
  obtain ⟨before, after, hpath, hbefore, hafter⟩ := h
  have hclear : ∀ z, ¬ placeholder <:+: z ∧ ¬ slot name <:+: z → ¬ placeholder <:+: emptySlots z name := by
    rintro z ⟨hplaceholder, hslot⟩
    rwa [emptySlots_of_no_slot hslot]
  have hseg : placeholder <:+: emptySlots f.seg name := by
    rw [f.seg_eq]
    exact ⟨f.x, f.y, by simp⟩
  have hslot : placeholder <:+: emptySlots (slot name) name := by
    rw [emptySlots_slot]
    exact List.infix_rfl
  obtain ⟨-, hfirst, hrest⟩ := first_unique (P := fun z => placeholder <:+: emptySlots z name)
    (f.path_eq.symm.trans hpath) hseg hslot (fun z hz => hclear z (f.earlier_clear z hz))
    fun z hz => hclear z (hbefore z hz)
  exact ⟨hfirst, hrest ▸ hafter⟩

theorem decodes_of_plain (hvalue : value ≠ []) (htemplate : '?' ∉ emptySlots path name)
    (hone : OneSegment path name) (hplain : Plain value) :
    EndsMatch (emptySlots path name) (cutQuery (f.before ++ value ++ f.after)) ∧
      Decodes path name (cutQuery (f.before ++ value ++ f.after)) value := by
  obtain ⟨hseg, hlater⟩ := f.of_oneSegment hone
  obtain ⟨hx, hy⟩ := f.whole hseg
  have hno : '?' ∉ f.before ++ value ++ f.after := by
    rw [f.template_eq] at htemplate
    simp only [List.mem_append, not_or] at htemplate ⊢
    exact ⟨⟨htemplate.1.1, hplain.question⟩, htemplate.2⟩
  have hsegs := f.segments_fill hplain.slash
  have htsegs := f.segments
  rw [hx, hy, List.nil_append, List.append_nil] at hsegs htsegs
  rw [cutQuery_of_notMem hno]
  refine ⟨⟨?_, ?_⟩, fun i hi => ?_⟩
  · have hsame : ∀ zs : List Str, List.Forall₂ (fun p t => p = placeholder ∨ p = t) zs zs := fun zs =>
      List.forall₂_same.mpr fun _ _ => .inr rfl
    rw [TemplateMatches, hsegs, htsegs]
    exact List.rel_append (hsame f.xs) (.cons (.inl rfl) (hsame f.ys))
  · -- the last segment is that of the template, or the value
    rw [lastSegment, lastSegment, hsegs, htsegs, List.getLast?_append, List.getLast?_append,
      List.getLast?_cons, List.getLast?_cons]
    cases f.ys.getLast? with
    | none => simp [hvalue]
    | some z => exact id
  · rcases f.position hi with ⟨rfl, -⟩ | ⟨j, -, hj⟩
    · rw [hsegs, List.getElem?_append_right le_rfl, Nat.sub_self]
      exact congrArg some hplain.percent
    · exact absurd (List.mem_of_getElem? hj) hlater

/-- **The values that arrive in the place of a parameter**, when its name is not rewritten. -/
theorem decodes_iff (hvalue : value ≠ []) (hslot : slot name ∈ path.splitOn '/') :
    EndsMatch (emptySlots path name) (cutQuery (f.before ++ value ++ f.after)) ∧
        Decodes path name (cutQuery (f.before ++ value ++ f.after)) value ↔
      '?' ∉ emptySlots path name ∧ ((OneSegment path name ∧ Plain value) ∨ value = placeholder) := by
  constructor
  · rintro ⟨⟨hmatch, -⟩, hdec⟩
    have htemplate := question_notMem_of_matches (question_notMem_cutQuery _) hmatch
    refine ⟨htemplate, ?_⟩
    have hquestion := f.question_notMem htemplate hslot hdec
    have hno : '?' ∉ f.before ++ value ++ f.after := by
      rw [f.template_eq] at htemplate
      simp only [List.mem_append, not_or] at htemplate ⊢
      exact ⟨⟨htemplate.1.1, hquestion⟩, htemplate.2⟩
    rw [cutQuery_of_notMem hno] at hmatch hdec
    have hslash := f.slash_notMem hmatch
    have hsegs := f.segments_fill hslash
    by_cases hlater : slot name ∈ f.later
    · -- a second segment, which stays a placeholder
      obtain ⟨j, hj⟩ := List.mem_iff_getElem?.mp hlater
      have hi : (path.splitOn '/')[f.xs.length + (j + 1)]? = some (slot name) := by
        rw [f.path_eq, ← f.length_earlier, List.getElem?_append_right (by omega), Nat.add_sub_cancel_left,
          List.getElem?_cons_succ, hj]
      have hdec := hdec _ hi
      rw [hsegs, List.getElem?_append_right (by omega), Nat.add_sub_cancel_left, List.getElem?_cons_succ,
        ← f.later_eq, List.getElem?_map, hj, Option.map_some, Option.map_some, emptySlots_slot,
        Option.some.injEq] at hdec
      exact .inr (hdec.symm.trans (by decide))
    · obtain ⟨i, hi⟩ := List.mem_iff_getElem?.mp hslot
      rcases f.position hi with ⟨rfl, hseg⟩ | ⟨j, rfl, hj⟩
      · obtain ⟨hx, hy⟩ := f.whole hseg
        have hdec := hdec _ hi
        rw [hsegs, hx, hy, List.getElem?_append_right le_rfl, Nat.sub_self, List.nil_append,
          List.append_nil] at hdec
        refine .inl ⟨⟨f.earlier, f.later, hseg ▸ f.path_eq, f.earlier_clear, hlater⟩, hslash, hquestion, ?_⟩
        exact Option.some.inj hdec
      · exact absurd (List.mem_of_getElem? hj) hlater
  · rintro ⟨htemplate, ⟨hone, hplain⟩ | rfl⟩
    · exact f.decodes_of_plain hvalue htemplate hone hplain
    · rw [← f.template_eq, cutQuery_of_notMem htemplate]
      refine ⟨⟨List.forall₂_same.mpr fun _ _ => .inr rfl, id⟩, fun i hi => ?_⟩
      rw [splitOn_emptySlots (notMem_of_mem_splitOn hslot), List.getElem?_map, hi, Option.map_some,
        Option.map_some, emptySlots_slot]
      decide

end TemplateCut

/-! ### One parameter, one path -/

section

variable {v : Cpp.Vocabulary} {received : Str → Option Str} {endpoints : List Endpoint} {ep : Endpoint} {p : ClientParam}
  {args : Args} {value : Str}

theorem methodPath_of_param (hparsed : ep.Parsed) (hparams : ep.pathParams = [p])
    (harg : args p = some (.scalar (.string value))) :
    methodPath ep args =
      if p.is_string_type then some (fillPlaceholder (emptied ep p) value) else none := by
  have hliteral := literalPath_eq hparsed
  rw [hparams, List.map_singleton, List.foldl_cons, List.foldl_nil] at hliteral
  rw [methodPath, hparams, hliteral, emitPathParams, List.foldlM_cons, emitPathParam, harg]
  cases p.is_string_type <;> rfl

theorem target_facts (path query : Str) :
    (Sendable (if query = [] then path else path ++ '?' :: query) ↔ Sendable path ∧ Sendable query) ∧
      cutQuery (if query = [] then path else path ++ '?' :: query) = cutQuery path := by
  by_cases hquery : query = []
  · rw [if_pos hquery, hquery]
    simp [Sendable]
  · have hquestion : isTargetChar '?' = true := by decide
    rw [if_neg hquery, cutQuery_append_query]
    simp only [Sendable, List.forall_mem_append, List.forall_mem_cons, hquestion, true_and, and_self]

theorem delivered_iff_path (hcarries : Carries received) (hparsed : ep.Parsed) (hep : ep ∈ endpoints)
    (hnames : ∀ e ∈ endpoints, e.verb = ep.verb → e.function_name = ep.function_name)
    (hparams : ep.pathParams = [p]) (hslot : slot p.wire_name ∈ ep.path.splitOn '/')
    (hvalue : value ≠ []) (harg : args p = some (.scalar (.string value))) :
    Delivered v received endpoints ep p args value ↔ NamesResolve v ep ∧
      p.is_string_type = true ∧ (∀ q ∈ ep.queryParams, QuerySends args q) ∧
        Sendable (fillPlaceholder (emptied ep p) value) ∧
        ep.Accepts (cutQuery (fillPlaceholder (emptied ep p) value)) ∧
        Decodes ep.path p.wire_name (cutQuery (fillPlaceholder (emptied ep p) value)) value := by
  have htarget := @methodTarget_of_pathParams ep args (by simp [hparams])
  rw [methodPath_of_param hparsed hparams harg] at htarget
  rw [← exists_query_iff]
  constructor
  · rintro ⟨target, hclient, hreceived, -, haccepts, hdec⟩
    obtain ⟨hresolve, hclient⟩ := clientTarget_eq_some.mp hclient
    rw [htarget] at hclient
    obtain ⟨path, hpath, hclient⟩ := Option.bind_eq_some_iff.mp hclient
    obtain ⟨query, hquery, hclient⟩ := Option.bind_eq_some_iff.mp hclient
    obtain rfl := Option.some.inj hclient
    obtain ⟨hflag, hpath⟩ := Option.ite_none_right_eq_some.mp hpath
    obtain rfl := Option.some.inj hpath
    obtain ⟨hsend, hcut⟩ := target_facts (fillPlaceholder (emptied ep p) value) query
    rw [hcut] at haccepts hdec
    have hsendable : Sendable (if query = [] then fillPlaceholder (emptied ep p) value
        else fillPlaceholder (emptied ep p) value ++ '?' :: query) := by
      by_cases hnil : (if query = [] then fillPlaceholder (emptied ep p) value
          else fillPlaceholder (emptied ep p) value ++ '?' :: query) = []
      · rw [hnil]
        exact fun _ hc => nomatch hc
      · exact ((hcarries.eq_some hnil).mp hreceived).1
    obtain ⟨hspath, hsquery⟩ := hsend.mp hsendable
    exact ⟨hresolve, hflag, ⟨query, hquery, hsquery⟩, hspath, haccepts, hdec⟩
  · rintro ⟨hresolve, hflag, ⟨query, hquery, hsquery⟩, hspath, haccepts, hdec⟩
    rw [if_pos hflag, hquery] at htarget
    obtain ⟨hsend, hcut⟩ := target_facts (fillPlaceholder (emptied ep p) value) query
    refine ⟨_, clientTarget_eq_some.mpr ⟨hresolve, htarget⟩,
      (hcarries.eq_some ?_).mpr ⟨hsend.mpr ⟨hspath, hsquery⟩, rfl⟩, ?_, hcut ▸ haccepts,
      hcut ▸ hdec⟩
    · -- the place of the value is not empty
      intro hnil
      obtain ⟨i, hi⟩ := List.mem_iff_getElem?.mp hslot
      obtain ⟨seg, hseg, hdecode⟩ := Option.map_eq_some_iff.mp (hdec i hi)
      rw [← hcut, hnil] at hseg
      have hmem := List.mem_of_getElem? hseg
      rw [show cutQuery [] = [] from rfl, List.splitOn_nil, List.mem_singleton] at hmem
      rw [hmem] at hdecode
      exact hvalue hdecode.symm
    · exact handle_request_of_accepts hep hnames (hcut ▸ haccepts)

theorem path_template_eq (hparsed : ep.Parsed) (hparams : ep.pathParams = [p]) :
    ep.path_template = emptied ep p := by
  have hliteral := literalPath_eq hparsed
  rwa [hparams, Endpoint.literalPath, readLiteral_escapeCppString] at hliteral

/-- The path with a value in the place of the placeholder can be sent when both can. -/
theorem sendable_fill {path name : Str} (f : TemplateCut path name) :
    Sendable (f.before ++ value ++ f.after) ↔ Sendable (emptySlots path name) ∧ Sendable value := by
  have hbraces : Sendable placeholder := by decide
  simp only [f.template_eq, Sendable, List.forall_mem_append] at hbraces ⊢
  constructor
  · rintro ⟨⟨hbefore, hval⟩, hafter⟩
    exact ⟨⟨⟨hbefore, hbraces⟩, hafter⟩, hval⟩
  · rintro ⟨⟨⟨hbefore, -⟩, hafter⟩, hval⟩
    exact ⟨⟨hbefore, hval⟩, hafter⟩

theorem slash_notMem_sanitizeParamName {name : Str} (h : '/' ∉ name) : '/' ∉ sanitizeParamName name := by
  intro hmem
  obtain ⟨c, hc, hcs⟩ := List.mem_map.mp hmem
  have hprefix : '/' ∉ "param_".toList ++ name := by
    rw [List.mem_append, not_or]
    exact ⟨by decide, h⟩
  split at hcs
  · exact absurd hcs (by decide)
  · subst hcs
    split at hc
    · exact hprefix hc
    · exact h hc

/-- A slot of a name that is rewritten stays in every path the endpoint accepts. -/
theorem slot_stays (hparsed : ep.Parsed) (hparams : ep.pathParams = [p])
    (hname : sanitizeParamName p.wire_name ≠ p.wire_name) {path : Str} (h : ep.Accepts path) {i : ℕ}
    (hi : (ep.path.splitOn '/')[i]? = some (slot p.wire_name)) :
    (path.splitOn '/')[i]? = some (slot p.wire_name) := by
  rcases h with ⟨-, rfl⟩ | ⟨-, hmatch⟩
  · exact hi
  · have hslash : '/' ∉ slot p.wire_name := notMem_of_mem_splitOn (List.mem_of_getElem? hi)
    have hslash' : '/' ∉ slot (sanitizeParamName p.wire_name) := by
      simp only [slot, List.mem_cons, List.mem_append, not_or] at hslash ⊢
      exact ⟨hslash.1, slash_notMem_sanitizeParamName hslash.2.1, hslash.2.2⟩
    have hnone : ¬ slot (sanitizeParamName p.wire_name) <:+: slot p.wire_name := by
      intro hin
      have hle := length_sanitizeParamName p.wire_name
      have heq := hin.eq_of_length (by
        have := hin.length_le
        simp only [slot, List.length_cons, List.length_append] at this ⊢
        omega)
      exact hname (by simpa [slot] using heq)
    rw [path_template_eq hparsed hparams, match_path_iff_endsMatch] at hmatch
    have hseg : ((emptied ep p).splitOn '/')[i]? = some (slot p.wire_name) := by
      rw [emptied, splitOn_emptySlots hslash', List.getElem?_map, hi, Option.map_some,
        emptySlots_of_no_slot hnone]
    obtain ⟨seg, hpath, hcases⟩ := forall₂_getElem? hmatch.1 hseg
    rcases hcases with hcases | rfl
    · have hnil : p.wire_name = [] := by simpa [slot, placeholder] using hcases
      rw [hnil] at hname
      exact absurd (by decide) hname
    · exact hpath

end

/-- A library that refuses a target it cannot carry. -/
def carried (target : Str) : Option Str := if Sendable target then some target else none

theorem carries_carried : Carries carried := fun _ _ => rfl

/-- The endpoint of `/pets/{id}`, and its parameter. -/
def petEndpoint : Endpoint := pathEndpoint "/pets/{id}".toList ["id".toList]

def petParam : ClientParam := petEndpoint.params.getD 0 {}

end Siesta
