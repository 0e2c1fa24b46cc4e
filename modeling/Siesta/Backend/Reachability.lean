import Siesta.Backend.ClientServer
import Siesta.Backend.PathTemplates
import Siesta.Backend.RouteMatching

/-!
# Which endpoints can be reached

A request for an endpoint has values in the place of the placeholders of its path.  `match_path` compares a
segment of the template that is more than a placeholder letter by letter, so the request is dispatched to
the endpoint exactly when each placeholder of the path is a segment of its own (`reachable_iff`).
-/

namespace Siesta

open Lib JsonObject

/-! ### Requests with values -/

def fillPath (vals : Str → Str) (path : Str) : Str := fillSlots id (slotNames path) vals path

/-- A value that is not empty and has none of the characters `/`, `?` and `{`. -/
structure SegmentValue (value : Str) : Prop where
  ne_nil : value ≠ []
  slash : '/' ∉ value
  question : '?' ∉ value
  brace : '{' ∉ value

/-- Whatever the values are, the request is dispatched to the handler of the endpoint. -/
def Reachable (endpoints : List Endpoint) (ep : Endpoint) : Prop :=
  ∀ vals : Str → Str, (∀ n ∈ slotNames ep.path, SegmentValue (vals n)) →
    handle_request (emitServerCpp endpoints) ⟨fillPath vals ep.path, ep.verb⟩ = [.call ep.function_name]

/-- The placeholders are segments of their own, with names that `buildTemplate` looks for, and outside of
them the path has no `?`. -/
structure PlaceholdersAlone (ep : Endpoint) : Prop where
  alone : SlotsAlone '/' (ep.wireNames.map sanitizeParamName) ep.path
  question : '?' ∉ emptyAll (slotNames ep.path) ep.path

/-! ### The template next to the path of the request -/

theorem first_segment_nil_iff {s x : Str} {xs : List Str} (h : s.splitOn '/' = x :: xs) :
    x = [] ↔ ∀ d ∈ s.head?, d = '/' := by
  rw [splitOn_eq_cons] at h
  rw [← (List.cons.inj h).1]
  cases s with
  | nil => simp
  | cons d s => by_cases hd : d = '/' <;> simp [hd]

theorem cons_slash_inj {s x : Str} {xs : List Str} (h : ('/' :: s).splitOn '/' = x :: xs) :
    x = [] ∧ s.splitOn '/' = xs := by
  rw [splitOn_sep_cons] at h
  obtain ⟨rfl, rfl⟩ := List.cons.inj h
  exact ⟨rfl, rfl⟩

theorem append_segment_inj {u s x : Str} {xs : List Str} (hu : '/' ∉ u)
    (h : (u ++ s).splitOn '/' = x :: xs) : ∃ x', s.splitOn '/' = x' :: xs ∧ x = u ++ x' := by
  obtain ⟨pieces, hs⟩ := exists_splitOn '/' s
  rw [splitOn_append_of_notMem hu hs] at h
  obtain ⟨rfl, rfl⟩ := List.cons.inj h
  exact ⟨_, hs, rfl⟩

theorem emptied_slot {names : List Str} {n : Str} (h : n ∈ names ∨ n = []) :
    (if n ∈ names then ['{', '}'] else slot n) = ['{', '}'] := by
  rcases h with hmem | rfl
  · rw [if_pos hmem]
  · rw [slot, List.nil_append, ite_self]

section

variable {names names' : List Str} {vals : Str → Str} (hnames : ∀ n ∈ names, BraceFree n)
  (hnames' : ∀ n ∈ names', BraceFree n) (hvals : ∀ n ∈ names', SegmentValue (vals n))

include hnames

theorem first_segment_placeholder {n s : Str} {xs : List Str} (hn : BraceFree n)
    (h : (emptyAll names (slot n ++ s)).splitOn '/' = placeholder :: xs) :
    (n ∈ names ∨ n = []) ∧ (emptyAll names s).splitOn '/' = [] :: xs := by
  rw [emptyAll, fillSlots_slot_append hnames _ hn, ← emptyAll] at h
  have hname : n ∈ names ∨ n = [] := by
    by_contra hno
    rw [not_or] at hno
    rw [if_neg hno.1] at h
    cases n with
    | nil => exact hno.2 rfl
    | cons c n =>
      -- the second character of the template is one of the name
      have hc : c ≠ '}' := fun hc => hn.2 (hc ▸ List.mem_cons_self ..)
      rw [slot_append, splitOn_eq_cons] at h
      have hfirst := (List.cons.inj h).1
      by_cases hslash : c = '/' <;> simp [placeholder, hc, hslash] at hfirst
  rw [emptied_slot hname] at h
  obtain ⟨x, hx, hplaceholder⟩ := append_segment_inj (by decide) h
  have hnil : x = [] := List.append_cancel_left (hplaceholder.symm.trans (List.append_nil placeholder).symm)
  exact ⟨hname, hnil ▸ hx⟩

theorem head_emptyAll {s : Str} :
    (∀ d ∈ (emptyAll names s).head?, d = '/') ↔ ∀ d ∈ s.head?, d = '/' := by
  induction s using slots_induction names with
  | nil => rfl
  | slot n hn s _ =>
    rw [emptyAll, fillSlots_slot_append hnames _ (hnames n hn), if_pos hn]
    simp [slot]
  | char c s hno _ =>
    rw [emptyAll, fillSlots_char _ hno]
    simp

/-- A character outside the slots is in both texts: a slash ends the first segments, any other belongs to
them. -/
theorem char_segments {c : Char} {s x y : Str} {xs ys : List Str}
    (hno : ∀ n ∈ names', ¬ slot n <+: c :: s) (hall : ∀ n, BraceFree n → slot n <:+: c :: s → n ∈ names')
    (hx : (emptyAll names (c :: s)).splitOn '/' = x :: xs)
    (hy : (fillSlots id names' vals (c :: s)).splitOn '/' = y :: ys) :
    (c = '/' ∧ x = [] ∧ y = [] ∧ ∃ x' xs' y' ys', xs = x' :: xs' ∧ ys = y' :: ys' ∧
      (emptyAll names s).splitOn '/' = x' :: xs' ∧ (fillSlots id names' vals s).splitOn '/' = y' :: ys') ∨
    (c ≠ '/' ∧ ∃ x' y', x = c :: x' ∧ y = c :: y' ∧
      (emptyAll names s).splitOn '/' = x' :: xs ∧ (fillSlots id names' vals s).splitOn '/' = y' :: ys) := by
  have hno' : ∀ n ∈ names, ¬ slot n <+: c :: s := fun n hn hpre =>
    hno n (hall n (hnames n hn) hpre.isInfix) hpre
  rw [emptyAll, fillSlots_char _ hno', ← emptyAll] at hx
  rw [fillSlots_char _ hno] at hy
  by_cases hc : c = '/'
  · subst hc
    obtain ⟨rfl, hx'⟩ := cons_slash_inj hx
    obtain ⟨rfl, hy'⟩ := cons_slash_inj hy
    obtain ⟨x', xs', rfl⟩ := List.exists_cons_of_ne_nil (hx' ▸ List.splitOn_ne_nil '/' _)
    obtain ⟨y', ys', rfl⟩ := List.exists_cons_of_ne_nil (hy' ▸ List.splitOn_ne_nil '/' _)
    exact .inl ⟨rfl, rfl, rfl, x', xs', y', ys', rfl, rfl, hx', hy'⟩
  · obtain ⟨x', hx', rfl⟩ := append_segment_inj (u := [c]) (by simpa using Ne.symm hc) hx
    obtain ⟨y', hy', rfl⟩ := append_segment_inj (u := [c]) (by simpa using Ne.symm hc) hy
    exact .inr ⟨hc, x', y', rfl, rfl, hx', hy'⟩

include hnames' hvals

/-- **The slots of a path whose template matches stand alone.**  In the middle of a segment, where the two
sides have to be the same letter by letter, there are none. -/
theorem slotsAlone_of_matches {s x y : Str} {xs ys : List Str}
    (hall : ∀ n, BraceFree n → slot n <:+: s → n ∈ names')
    (hx : (emptyAll names s).splitOn '/' = x :: xs)
    (hy : (fillSlots id names' vals s).splitOn '/' = y :: ys)
    (hrest : List.Forall₂ (fun p t => p = placeholder ∨ p = t) xs ys) :
    (x = y → SlotsAlone '/' names s ∧ NoSlotFirst s) ∧ (x = placeholder → SlotsAlone '/' names s) := by
  induction s using slots_induction names' generalizing x xs y ys with
  | nil =>
    have hnil : SlotsAlone '/' names [] := slotsAlone_nil
    exact ⟨fun _ => ⟨hnil, fun n _ h => by simp [slot] at h⟩, fun _ => hnil⟩
  | slot n hn s ih =>
    have hnfree := hnames' n hn
    rw [fillSlots_slot_append hnames' vals hnfree, if_pos hn] at hy
    obtain ⟨y', hy', rfl⟩ := append_segment_inj (hvals n hn).slash hy
    refine ⟨fun heq => ?_, fun heq => ?_⟩
    · -- a value does not start with a brace
      obtain ⟨d, v, hv⟩ := List.exists_cons_of_ne_nil (hvals n hn).ne_nil
      have hbrace : ∃ t, x = '{' :: t := by
        rw [emptyAll, fillSlots_slot_append hnames _ hnfree, splitOn_eq_cons] at hx
        rw [← (List.cons.inj hx).1]
        split <;> exact ⟨_, rfl⟩
      obtain ⟨t, rfl⟩ := hbrace
      rw [hv] at heq
      exact absurd (by rw [hv, (List.cons.inj heq).1]; exact List.mem_cons_self ..) (hvals n hn).brace
    · subst heq
      obtain ⟨hname, hx'⟩ := first_segment_placeholder hnames hnfree hx
      have hhead := (head_emptyAll hnames).mp ((first_segment_nil_iff hx').mp rfl)
      have hynil : y' = [] := by
        refine (first_segment_nil_iff hy').mpr ?_
        cases s with
        | nil => simp
        | cons d s =>
          rw [hhead d rfl, fillSlots_char vals fun m _ => not_slot_first (by decide)]
          simp
      have hs := (ih (fun m hm hin => hall m hm (hin.trans (List.suffix_append _ _).isInfix)) hx' hy' hrest).1
        hynil.symm
      exact (slotsAlone_slot (by decide) hnfree).mpr ⟨hname, hhead, hs.1⟩
  | char c s hno ih =>
    have hfirst : NoSlotFirst (c :: s) := fun n hn hpre => hno n (hall n hn hpre.isInfix) hpre
    have htail : ∀ n, BraceFree n → slot n <:+: s → n ∈ names' := fun n hn hin =>
      hall n hn (List.infix_cons hin)
    rcases char_segments hnames hno hall hx hy with
      ⟨rfl, rfl, rfl, x', xs', y', ys', rfl, rfl, hx', hy'⟩ | ⟨hc, x', y', rfl, rfl, hx', hy'⟩
    · obtain ⟨hsegment, hrest'⟩ := List.forall₂_cons.mp hrest
      obtain ⟨hsame, hslot⟩ := ih htail hx' hy' hrest'
      have hs : SlotsAlone '/' names s := hsegment.elim hslot fun h => (hsame h).1
      have hcons := (slotsAlone_separator (by decide)).mpr hs
      exact ⟨fun _ => ⟨hcons, hfirst⟩, fun _ => hcons⟩
    · refine ⟨fun heq => ?_, fun heq => ?_⟩
      · have hs := (ih htail hx' hy' hrest).1 (List.cons.inj heq).2
        exact ⟨(slotsAlone_char hc hfirst).mpr hs, hfirst⟩
      · -- an empty slot of the path
        obtain ⟨rfl, rfl⟩ := List.cons.inj heq
        have hclose : ['}'] <+: emptyAll names s := by
          rw [splitOn_eq_cons] at hx'
          rw [← (List.cons.inj hx').1]
          exact List.takeWhile_prefix _
        have hpre : slot [] <+: '{' :: s := List.cons_prefix_cons.mpr
          ⟨rfl, prefix_of_prefix_emptyAll hnames (by decide) hclose⟩
        exact absurd hpre (hfirst [] ⟨by simp, by simp⟩)

/-- **Slots that stand alone match.**  The rest of a segment behind its first character is the same in the
template and in the request. -/
theorem segmentsMatch_of_slotsAlone {s x y : Str} {xs ys : List Str}
    (hall : ∀ n, BraceFree n → slot n <:+: s → n ∈ names')
    (hx : (emptyAll names s).splitOn '/' = x :: xs)
    (hy : (fillSlots id names' vals s).splitOn '/' = y :: ys) (hs : SlotsAlone '/' names s) :
    List.Forall₂ SegmentMatches (x :: xs) (y :: ys) ∧ (NoSlotFirst s → x = y) := by
  induction s using slots_induction names' generalizing x xs y ys with
  | nil =>
    obtain ⟨rfl, rfl⟩ : x = [] ∧ xs = [] := by simpa [emptyAll, eq_comm] using hx
    obtain ⟨rfl, rfl⟩ : y = [] ∧ ys = [] := by simpa [eq_comm] using hy
    exact ⟨List.forall₂_same.mpr fun _ _ => .inl rfl, fun _ => rfl⟩
  | slot n hn s ih =>
    have hnfree := hnames' n hn
    obtain ⟨hname, hhead, hrest⟩ := (slotsAlone_slot (by decide) hnfree).mp hs
    rw [fillSlots_slot_append hnames' vals hnfree, if_pos hn] at hy
    rw [emptyAll, fillSlots_slot_append hnames _ hnfree, ← emptyAll, emptied_slot hname] at hx
    obtain ⟨x', hx', rfl⟩ := append_segment_inj (by decide) hx
    obtain ⟨y', hy', rfl⟩ := append_segment_inj (hvals n hn).slash hy
    obtain ⟨hmatch, hsame⟩ := ih (fun m hm hin => hall m hm (hin.trans (List.suffix_append _ _).isInfix)) hx'
      hy' hrest
    have hxnil : x' = [] := (first_segment_nil_iff hx').mpr ((head_emptyAll hnames).mpr hhead)
    obtain rfl : x' = y' := hsame (noSlotFirst_of_head (by decide) hhead)
    subst hxnil
    refine ⟨List.forall₂_cons.mpr ⟨.inr ⟨rfl, ?_⟩, (List.forall₂_cons.mp hmatch).2⟩, fun hfirst => ?_⟩
    · rw [List.append_nil]
      exact (hvals n hn).ne_nil
    · exact absurd (List.prefix_append _ _) (hfirst n hnfree)
  | char c s hno ih =>
    have hfirst : NoSlotFirst (c :: s) := fun n hn hpre => hno n (hall n hn hpre.isInfix) hpre
    have htail : ∀ n, BraceFree n → slot n <:+: s → n ∈ names' := fun n hn hin =>
      hall n hn (List.infix_cons hin)
    rcases char_segments hnames hno hall hx hy with
      ⟨rfl, rfl, rfl, x', xs', y', ys', rfl, rfl, hx', hy'⟩ | ⟨hc, x', y', rfl, rfl, hx', hy'⟩
    · obtain ⟨hmatch, -⟩ := ih htail hx' hy' ((slotsAlone_separator (by decide)).mp hs)
      exact ⟨.cons (.inl rfl) hmatch, fun _ => rfl⟩
    · obtain ⟨hs', hfirst'⟩ := (slotsAlone_char hc hfirst).mp hs
      obtain ⟨hmatch, hsame⟩ := ih htail hx' hy' hs'
      obtain rfl : x' = y' := hsame hfirst'
      exact ⟨.cons (.inl rfl) (List.forall₂_cons.mp hmatch).2, fun _ => rfl⟩

end

/-! ### What the endpoint accepts -/

section

variable {names : List Str} {vals : Str → Str}

theorem question_notMem_fillSlots (hnames : ∀ n ∈ names, BraceFree n)
    (hvals : ∀ n ∈ names, SegmentValue (vals n)) {s : Str} (h : '?' ∉ emptyAll names s) :
    '?' ∉ fillSlots id names vals s := by
  induction s using slots_induction names with
  | nil => exact List.not_mem_nil
  | slot n hn s ih =>
    rw [emptyAll, fillSlots_slot_append hnames _ (hnames n hn), if_pos hn, List.mem_append, not_or] at h
    rw [fillSlots_slot_append hnames _ (hnames n hn), if_pos hn, List.mem_append, not_or]
    exact ⟨(hvals n hn).question, ih h.2⟩
  | char c s hno ih =>
    rw [emptyAll, fillSlots_char _ hno, List.mem_cons, not_or] at h
    rw [fillSlots_char _ hno, List.mem_cons, not_or]
    exact ⟨h.1, ih h.2⟩

theorem question_mem_of_emptyAll {names' : List Str} (hnames : ∀ n ∈ names, BraceFree n)
    (hnames' : ∀ n ∈ names', BraceFree n) {s : Str}
    (hall : ∀ n ∈ names', slot n <:+: s → n ∈ names) (h : '?' ∈ emptyAll names s) : '?' ∈ emptyAll names' s := by
  induction s using slots_induction names with
  | nil => exact h
  | slot n hn s ih =>
    rw [emptyAll, fillSlots_slot_append hnames _ (hnames n hn), if_pos hn, List.mem_append] at h
    have hrest := h.resolve_left (by decide)
    rw [emptyAll, fillSlots_slot_append hnames' _ (hnames n hn), List.mem_append]
    exact .inr (ih (fun m hm hin => hall m hm (hin.trans (List.suffix_append _ _).isInfix)) hrest)
  | char c s hno ih =>
    have hno' : ∀ n ∈ names', ¬ slot n <+: c :: s := fun n hn hpre =>
      hno n (hall n hn hpre.isInfix) hpre
    rw [emptyAll, fillSlots_char _ hno, List.mem_cons] at h
    rw [emptyAll, fillSlots_char _ hno', List.mem_cons]
    exact h.imp id (ih fun m hm hin => hall m hm (List.infix_cons hin))

theorem braces_emptyAll (hnames : ∀ n ∈ names, BraceFree n) {s : Str} (h : ['{', '}'] <:+: s) :
    ['{', '}'] <:+: emptyAll names s := by
  rw [← foldl_emptySlots_eq hnames]
  clear hnames
  induction names generalizing s with
  | nil => exact h
  | cons n names ih => exact ih (braces_emptySlots n h)

end

section

variable {ep : Endpoint} {vals : Str → Str} (h : ep.Parsed)
  (hvals : ∀ n ∈ slotNames ep.path, SegmentValue (vals n))

include h

theorem slotNames_eq_nil_of_static (hstatic : ep.isStatic = true)
    (halone : SlotsAlone '/' (ep.wireNames.map sanitizeParamName) ep.path) : slotNames ep.path = [] := by
  refine List.eq_nil_iff_forall_not_mem.mpr fun n hn => ?_
  have hnone : ¬ ['{', '}'] <:+: ep.path_template := by
    rw [← isStatic_eq_false_iff, hstatic]
    simp
  obtain ⟨hfree, before, after, hpath⟩ := mem_slotNames.mp hn
  have hslot : slot n <:+: ep.path := ⟨before, after, hpath⟩
  rw [h.path_template_eq] at hnone
  rcases (halone before n after (by rw [← hpath, List.append_assoc]) hfree).1 with hmem | rfl
  · exact hnone (braces_infix_emptyAll braceFree_sanitized hmem hslot)
  · exact hnone (braces_emptyAll braceFree_sanitized hslot)

include hvals

/-- **What an endpoint accepts** does not depend on the values. -/
theorem accepts_fillPath_iff : ep.Accepts (cutQuery (fillPath vals ep.path)) ↔ PlaceholdersAlone ep := by
  have hall : ∀ n, BraceFree n → slot n <:+: ep.path → n ∈ slotNames ep.path := fun n hn hslot =>
    mem_slotNames.mpr ⟨hn, hslot⟩
  have hcut : '?' ∉ emptyAll (slotNames ep.path) ep.path →
      cutQuery (fillPath vals ep.path) = fillPath vals ep.path := fun hno =>
    cutQuery_of_notMem (question_notMem_fillSlots braceFree_of_mem_slotNames hvals hno)
  have hquestion : '?' ∉ ep.path_template → '?' ∉ emptyAll (slotNames ep.path) ep.path := by
    intro hno hmem
    rw [h.path_template_eq] at hno
    exact hno (question_mem_of_emptyAll braceFree_of_mem_slotNames braceFree_sanitized
      (fun n hn hslot => hall n (braceFree_sanitized n hn) hslot) hmem)
  obtain ⟨xs, hx⟩ := exists_splitOn '/' (emptyAll (ep.wireNames.map sanitizeParamName) ep.path)
  obtain ⟨ys, hy⟩ := exists_splitOn '/' (fillPath vals ep.path)
  constructor
  · rintro (⟨-, hpath⟩ | ⟨-, hmatch⟩)
    · have hnil : ∀ n ∈ ([] : List Str), BraceFree n := by simp
      have hsame : emptyAll [] ep.path = ep.path := fillSlots_of_no_slots _ (by simp)
      have hno : '?' ∉ emptyAll (slotNames ep.path) ep.path := by
        intro hmem
        have hpath' := question_mem_of_emptyAll braceFree_of_mem_slotNames hnil (by simp) hmem
        rw [hsame, hpath] at hpath'
        exact question_notMem_cutQuery _ hpath'
      rw [hcut hno] at hpath
      -- a value would not start with a brace
      have hnone := (not_slots_of_emptyAll_eq hnil braceFree_of_mem_slotNames (fun n hn => ?_)
        (hsame.trans hpath)).1
      · refine ⟨fun before n after hslot hn => ?_, hno⟩
        have hin : slot n <:+: ep.path := ⟨before, after, by rw [hslot, List.append_assoc]⟩
        exact absurd hin (hnone n (hall n hn hin))
      · obtain ⟨c, v, hv⟩ := List.exists_cons_of_ne_nil (hvals n hn).ne_nil
        refine ⟨c, v, hv, ?_⟩
        rintro rfl
        exact (hvals n hn).brace (hv ▸ List.mem_cons_self ..)
    · rw [match_path_iff_endsMatch] at hmatch
      have hno := hquestion (question_notMem_of_matches (question_notMem_cutQuery _) hmatch.1)
      refine ⟨?_, hno⟩
      have hsegments := hmatch.1
      rw [hcut hno, TemplateMatches, h.path_template_eq, hx, hy] at hsegments
      obtain ⟨hfirst, hrest⟩ := List.forall₂_cons.mp hsegments
      obtain ⟨hsame, hslot⟩ := slotsAlone_of_matches braceFree_sanitized braceFree_of_mem_slotNames hvals
        hall hx hy hrest
      exact hfirst.elim hslot fun heq => (hsame heq).1
  · rintro ⟨halone, hno⟩
    rw [Endpoint.Accepts, hcut hno]
    cases hstatic : ep.isStatic with
    | true =>
      have hnone := slotNames_eq_nil_of_static h hstatic halone
      refine .inl ⟨rfl, ?_⟩
      rw [fillPath, hnone]
      exact (fillSlots_of_no_slots vals (by simp)).symm
    | false =>
      refine .inr ⟨rfl, (match_path_iff_endsMatch _ _).mpr (endsMatch_of_segmentsMatch ?_)⟩
      rw [SegmentsMatch, h.path_template_eq, hx, hy]
      exact (segmentsMatch_of_slotsAlone braceFree_sanitized braceFree_of_mem_slotNames hvals hall hx hy
        halone).1

end

/-! ### Dispatching -/

theorem accepts_of_handle_request {endpoints : List Endpoint} {target function_name : Str} {method : Verb}
    (h : handle_request (emitServerCpp endpoints) ⟨target, method⟩ = [.call function_name]) :
    ∃ ep ∈ endpoints, ep.verb = method ∧ ep.function_name = function_name ∧ ep.Accepts (cutQuery target) := by
  unfold handle_request at h
  dsimp only at h
  rw [find_staticTable, find_paramPaths] at h
  cases hs : endpoints.find? fun e => e.isStatic && (e.path = cutQuery target ∧ e.verb = method) with
  | some ep =>
    have hep := List.find?_some hs
    simp only [Bool.and_eq_true, decide_eq_true_eq] at hep
    rw [hs] at h
    exact ⟨ep, List.mem_of_find?_eq_some hs, hep.2.2, by simpa using h, .inl ⟨hep.1, hep.2.1⟩⟩
  | none =>
    rw [hs] at h
    cases hp : endpoints.find? fun e =>
        !e.isStatic && (match_path e.path_template (cutQuery target) && e.verb = method) with
    | some ep =>
      have hep := List.find?_some hp
      simp only [Bool.and_eq_true, Bool.not_eq_true', decide_eq_true_eq] at hep
      rw [hp] at h
      exact ⟨ep, List.mem_of_find?_eq_some hp, hep.2.2, by simpa using h, .inr ⟨hep.1, hep.2.1⟩⟩
    | none =>
      rw [hp] at h
      simp at h

section

variable {ir : InvalidRead} {ho : HashOrders} {spec : JsonObject} {path : Str} {item : Json}
  {endpoints : List Endpoint} {ep : Endpoint}

theorem path_of_single (hpaths : mapField ir spec "paths".toList = .ok [(path, item)])
    (hrun : parseEndpoints ir ho spec = .ok endpoints) (hep : ep ∈ endpoints) : ep.path = path := by
  cases hctx : readContext ir spec with
  | error fault =>
    rw [parseEndpoints_eq, hctx] at hrun
    cases hrun
  | ok ctx =>
    rcases parseEndpoints_cases ho hctx hpaths with ⟨-, hparse⟩ | ⟨-, fault, hparse⟩
    · rw [hparse] at hrun
      obtain rfl := Except.ok.inj hrun
      obtain ⟨co, hco, rfl⟩ := List.mem_map.mp hep
      obtain ⟨entry, hentry, hmem⟩ := List.mem_flatMap.mp (List.mem_of_mem_filter hco)
      obtain rfl := List.mem_singleton.mp hentry
      exact path_of_mem_pathOperations hmem
    · rw [hparse] at hrun
      cases hrun

/-- **Which endpoints can be reached.**  In a document with one path, the requests for an endpoint are
dispatched to its handler exactly when, for an operation of the same method, the placeholders of the path
are segments of their own and parameters that keep their names. -/
theorem reachable_iff (hpaths : mapField ir spec "paths".toList = .ok [(path, item)])
    (hrun : parseEndpoints ir ho spec = .ok endpoints) (hep : ep ∈ endpoints) :
    Reachable endpoints ep ↔ ∃ e ∈ endpoints, e.method = ep.method ∧ PlaceholdersAlone e := by
  have hparsed := fun {e : Endpoint} (he : e ∈ endpoints) => parsed_of_mem_parseEndpoints hrun he
  have hpath : ∀ {e : Endpoint}, e ∈ endpoints → e.path = ep.path := fun he =>
    (path_of_single hpaths hrun he).trans (path_of_single hpaths hrun hep).symm
  have hmethod : ∀ {e : Endpoint}, e ∈ endpoints → e.verb = ep.verb → e.method = ep.method := by
    intro e he hverb
    have hcpp : cppVerb e.method = cppVerb ep.method := by
      rw [← (hparsed he).cpp_verb, ← (hparsed hep).cpp_verb]
      exact congrArg Verb.cpp_name hverb
    exact cppVerb_injective (hparsed he).method (hparsed hep).method hcpp
  constructor
  · intro h
    have hvals : ∀ n ∈ slotNames ep.path, SegmentValue "x".toList := fun n _ =>
      ⟨by decide, by decide, by decide, by decide⟩
    obtain ⟨e, he, hverb, -, haccepts⟩ := accepts_of_handle_request (h (fun _ => "x".toList) hvals)
    rw [← hpath he] at haccepts hvals
    exact ⟨e, he, hmethod he hverb, (accepts_fillPath_iff (hparsed he) hvals).mp haccepts⟩
  · rintro ⟨e, he, heq, halone⟩ vals hvals
    have hverb : e.verb = ep.verb := by
      rw [Endpoint.verb, Endpoint.verb, (hparsed he).cpp_verb, (hparsed hep).cpp_verb, heq]
    have hname : ∀ {e' : Endpoint}, e' ∈ endpoints → e'.verb = ep.verb → e'.function_name = ep.function_name := by
      intro e' he' hverb'
      rw [(hparsed he').function_name, (hparsed hep).function_name, hpath he', hmethod he' hverb']
    rw [← hpath he] at hvals ⊢
    have haccepts := (accepts_fillPath_iff (hparsed he) hvals).mpr halone
    have hcall := handle_request_of_accepts he (fun e' he' hverb' =>
      (hname he' (hverb'.trans hverb)).trans (hname he hverb).symm) haccepts
    rwa [hverb, hname he hverb] at hcall

end

theorem reachable_iff_item :
    ∃ ep, parseEndpoints .crash (HashOrder.newestFirst _) (oneParamSpec "/items/{id}" "id") = .ok [ep] ∧
      (Reachable [ep] ep ↔ ∃ e ∈ [ep], e.method = ep.method ∧ PlaceholdersAlone e) :=
  have hrun : ∃ ep, parseEndpoints .crash (HashOrder.newestFirst _) (oneParamSpec "/items/{id}" "id") =
      .ok [ep] := ⟨_, rfl⟩
  hrun.imp fun ep h => ⟨h, reachable_iff rfl h (List.mem_singleton_self ep)⟩

/-- No value reaches the endpoint of a path with text behind the placeholder. -/
theorem text_behind_not_reached :
    ∃ ep, parseEndpoints .crash (HashOrder.newestFirst _) (oneParamSpec "/reports/{id}.csv" "id") =
        .ok [ep] ∧
      handle_request (emitServerCpp [ep]) ⟨fillPath (fun _ => "7".toList) ep.path, ep.verb⟩ = [.notFound] ∧
      ¬ Reachable [ep] ep := by
  have hno : match_path "/reports/{}.csv".toList "/reports/7.csv".toList = false := by
    rw [← Bool.not_eq_true, match_path_iff_endsMatch]
    intro h
    have hsegments := h.1
    unfold TemplateMatches at hsegments
    exact absurd hsegments (by decide)
  have hnotFound : ∀ function_name : Str, handle_request
      ⟨[], [("/reports/{}.csv".toList, ⟨"get".toList⟩, function_name)]⟩
      ⟨"/reports/7.csv".toList, ⟨"get".toList⟩⟩ = [.notFound] := by
    intro function_name
    refine handle_request_of_none rfl ?_
    show (([("/reports/{}.csv".toList, ⟨"get".toList⟩, function_name)] : List (Str × Verb × Str)).find?
        fun row => match_path row.1 "/reports/7.csv".toList && row.2.1 = ⟨"get".toList⟩) = none
    rw [List.find?_cons, hno]
    rfl
  have hresult : ∃ ep, parseEndpoints .crash (HashOrder.newestFirst _) (oneParamSpec "/reports/{id}.csv" "id") =
      .ok [ep] ∧
      handle_request (emitServerCpp [ep]) ⟨fillPath (fun _ => "7".toList) ep.path, ep.verb⟩ = [.notFound] :=
    ⟨_, rfl, hnotFound _⟩
  obtain ⟨ep, hrun, hnot⟩ := hresult
  refine ⟨ep, hrun, hnot, fun h => ?_⟩
  have hcall := h (fun _ => "7".toList) fun n _ => ⟨by decide, by decide, by decide, by decide⟩
  rw [hnot] at hcall
  cases hcall

end Siesta
