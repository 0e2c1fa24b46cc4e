import Siesta.JsonSchema.KeyOrder
import Siesta.JsonSchema.Validator

/-!
# Values the parser takes

Arrays and objects that hold no more than others do are parsed if the others are (`Simpler`).
-/

namespace Siesta.JsonSchema

open Lib

/-! ### Arrays and objects -/

theorem integersFit_arr {items : List Json} : integersFit (.arr items) = true ↔ ∀ v ∈ items, integersFit v = true := by
  rw [integersFit]
  induction items with
  | nil => simp [itemsFit]
  | cons v items ih => rw [itemsFit, Bool.and_eq_true, ih, List.forall_mem_cons]

theorem integersFit_obj {members : List (Str × Json)} :
    integersFit (.obj members) = true ↔ ∀ m ∈ members, integersFit m.2 = true := by
  rw [integersFit]
  induction members with
  | nil => simp [membersFit]
  | cons m members ih => rw [membersFit, Bool.and_eq_true, ih, List.forall_mem_cons]

theorem itemsParseDepth_le {items : List Json} {depth : ℕ} :
    itemsParseDepth items ≤ depth ↔ ∀ v ∈ items, parseDepth v ≤ depth := by
  induction items with
  | nil => simp [itemsParseDepth]
  | cons v items ih => rw [itemsParseDepth, max_le_iff, ih, List.forall_mem_cons]

theorem membersParseDepth_le {members : List (Str × Json)} {depth : ℕ} :
    membersParseDepth members ≤ depth ↔ ∀ m ∈ members, parseDepth m.2 ≤ depth := by
  induction members with
  | nil => simp [membersParseDepth]
  | cons m members ih => rw [membersParseDepth, max_le_iff, ih, List.forall_mem_cons]

theorem parseDepth_arr {items : List Json} (h : items ≠ []) : parseDepth (.arr items) = itemsParseDepth items + 1 := by
  cases items with
  | nil => exact absurd rfl h
  | cons v items => rfl

theorem parseDepth_obj {members : List (Str × Json)} (h : members ≠ []) :
    parseDepth (.obj members) = membersParseDepth members + 1 := by
  cases members with
  | nil => exact absurd rfl h
  | cons m members => rfl

/-! ### Simpler values -/

/-- The first value is parsed wherever the second one is. -/
structure Simpler (v v' : Json) : Prop where
  fits : integersFit v' = true → integersFit v = true
  depth : parseDepth v ≤ parseDepth v'

theorem Simpler.refl (v : Json) : Simpler v v := ⟨id, le_rfl⟩

theorem Simpler.parses {v v' : Json} (h : Simpler v v') (hparses : parses v' = true) : parses v = true := by
  have hdepth := h.depth
  unfold JsonSchema.parses at *
  rw [Bool.and_eq_true, decide_eq_true_eq] at *
  exact ⟨h.fits hparses.1, by omega⟩

theorem simpler_arr {items items' : List Json} (h : ∀ v ∈ items, ∃ v' ∈ items', Simpler v v') :
    Simpler (.arr items) (.arr items') := by
  constructor
  · rw [integersFit_arr, integersFit_arr]
    intro hfits v hv
    obtain ⟨v', hv', hsimpler⟩ := h v hv
    exact hsimpler.fits (hfits v' hv')
  · by_cases hitems : items = []
    · rw [hitems]
      exact Nat.zero_le _
    obtain ⟨v, hv⟩ := List.exists_mem_of_ne_nil items hitems
    obtain ⟨v', hv', -⟩ := h v hv
    rw [parseDepth_arr hitems, parseDepth_arr (List.ne_nil_of_mem hv')]
    refine Nat.succ_le_succ (itemsParseDepth_le.mpr fun u hu => ?_)
    obtain ⟨u', hu', hsimpler⟩ := h u hu
    exact hsimpler.depth.trans (itemsParseDepth_le.mp le_rfl u' hu')

theorem simpler_obj {members members' : List (Str × Json)} (h : ∀ m ∈ members, ∃ m' ∈ members', Simpler m.2 m'.2) :
    Simpler (.obj members) (.obj members') := by
  constructor
  · rw [integersFit_obj, integersFit_obj]
    intro hfits m hm
    obtain ⟨m', hm', hsimpler⟩ := h m hm
    exact hsimpler.fits (hfits m' hm')
  · by_cases hmembers : members = []
    · rw [hmembers]
      exact Nat.zero_le _
    obtain ⟨m, hm⟩ := List.exists_mem_of_ne_nil members hmembers
    obtain ⟨m', hm', -⟩ := h m hm
    rw [parseDepth_obj hmembers, parseDepth_obj (List.ne_nil_of_mem hm')]
    refine Nat.succ_le_succ (membersParseDepth_le.mpr fun u hu => ?_)
    obtain ⟨u', hu', hsimpler⟩ := h u hu
    exact hsimpler.depth.trans (membersParseDepth_le.mp le_rfl u' hu')

/-- Values of a keyword with simpler schemas are simpler. -/
theorem HeldBy.simpler {R : Json → Json → Prop} (hR : ∀ v v', R v v' → Simpler v v') {kw : Keyword} {v v' : Json}
    (h : HeldBy R kw v v') : Simpler v v' := by
  unfold HeldBy at h
  cases hkw : holds kw <;> rw [hkw] at h
  case schema => exact hR v v' h
  case table =>
    rcases h with rfl | ⟨table, table', rfl, rfl, h⟩
    · exact .refl _
    · refine simpler_obj fun e he => ?_
      obtain ⟨e', he', h⟩ := forall₂_exists_right h e he
      exact ⟨e', he', hR _ _ h.2⟩
  case list =>
    rcases h with rfl | ⟨items, items', rfl, rfl, h⟩
    · exact .refl _
    · refine simpler_arr fun u hu => ?_
      obtain ⟨u', hu', h⟩ := forall₂_exists_right h u hu
      exact ⟨u', hu', hR _ _ h⟩
  case plain =>
    obtain rfl : v = v' := h
    exact .refl _

theorem HeldBy.swap {R : Json → Json → Prop} {kw : Keyword} {v v' : Json} (h : HeldBy R kw v v') :
    HeldBy (Function.swap R) kw v' v := by
  unfold HeldBy at *
  cases hkw : holds kw <;> rw [hkw] at h
  case schema => exact h
  case table =>
    rcases h with rfl | ⟨table, table', rfl, rfl, hentries⟩
    · exact .inl rfl
    · exact .inr ⟨table', table, rfl, rfl, hentries.flip.imp fun _ _ h => ⟨h.1.symm, h.2⟩⟩
  case list =>
    rcases h with rfl | ⟨items, items', rfl, rfl, hitems⟩
    · exact .inl rfl
    · exact .inr ⟨items', items, rfl, rfl, hitems.flip⟩
  case plain => exact h.symm

end Siesta.JsonSchema
