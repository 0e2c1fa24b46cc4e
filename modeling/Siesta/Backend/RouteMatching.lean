import Siesta.Backend.BeastServer

/-!
# Empty segments and placeholders

`match_path` stops with the shorter of its two views, so it compares the last segment of a target with
care, and any other as `TemplateMatches` says: a placeholder passes an empty segment in the middle of a
target, but not at its end.  `match_path_right_iff` says for which templates and targets that is the
comparison that is meant.
-/

namespace Siesta

open Lib

/-- The segment of the target is the one of the template, or stands in the place of a placeholder. -/
def SegmentMatches (p t : Str) : Prop := p = t ∨ p = placeholder ∧ t ≠ []

/-- The template and the target have as many segments, and they match one by one. -/
def SegmentsMatch (template target : Str) : Prop :=
  List.Forall₂ SegmentMatches (template.splitOn '/') (target.splitOn '/')

/-- The target agrees with the template, where an empty segment before the last one is let stand in the
place of a placeholder, and there is such a segment. -/
def PassesEmpty (template target : Str) : Prop :=
  ∃ before p before' t, template.splitOn '/' = before ++ [p] ∧ target.splitOn '/' = before' ++ [t] ∧
    List.Forall₂ (fun p t => p = placeholder ∨ p = t) before before' ∧ SegmentMatches p t ∧
    (placeholder, []) ∈ before.zip before'

theorem segmentMatches_iff {p t : Str} :
    SegmentMatches p t ↔ (p = placeholder ∨ p = t) ∧ (t = [] → p = []) := by
  have hne : placeholder ≠ [] := by decide
  constructor
  · rintro (rfl | ⟨rfl, ht⟩)
    · exact ⟨.inr rfl, id⟩
    · exact ⟨.inl rfl, fun h => absurd h ht⟩
  · rintro ⟨rfl | rfl, hlast⟩
    · exact .inr ⟨rfl, fun ht => hne (hlast ht)⟩
    · exact .inl rfl

theorem exists_last_segment (s : Str) : ∃ before last, s.splitOn '/' = before ++ [last] := by
  rcases List.eq_nil_or_concat (s.splitOn '/') with h | ⟨before, last, h⟩
  · exact absurd h (List.splitOn_ne_nil '/' s)
  · exact ⟨before, last, by simpa using h⟩

theorem mem_zip_of_not_forall₂ {α β : Type} {R S : α → β → Prop} {as : List α} {bs : List β}
    (h : List.Forall₂ R as bs) (hS : ¬ List.Forall₂ S as bs) : ∃ a b, (a, b) ∈ as.zip bs ∧ R a b ∧ ¬ S a b := by
  by_contra hnone
  refine hS (List.forall₂_iff_zip.mpr ⟨h.length_eq, fun {a b} hab => ?_⟩)
  by_contra hb
  exact hnone ⟨a, b, hab, (List.forall₂_iff_zip.mp h).2 hab, hb⟩

theorem endsMatch_of_segmentsMatch {template target : Str} (h : SegmentsMatch template target) :
    EndsMatch template target := by
  obtain ⟨before, p, hp⟩ := exists_last_segment template
  obtain ⟨before', t, ht⟩ := exists_last_segment target
  rw [SegmentsMatch, hp, ht, forall₂_concat_iff] at h
  rw [EndsMatch, TemplateMatches, lastSegment, lastSegment, hp, ht, forall₂_concat_iff]
  obtain ⟨hsegment, hlast⟩ := segmentMatches_iff.mp h.2
  refine ⟨⟨h.1.imp fun p t hpt => (segmentMatches_iff.mp hpt).1, hsegment⟩, ?_⟩
  simpa using hlast

/-- **When `match_path` is right.**  It compares a target with a template as meant, unless the target
agrees with the template but for an empty segment before the last one, in the place of a placeholder. -/
theorem match_path_right_iff (template target : Str) :
    (match_path template target = true ↔ SegmentsMatch template target) ↔ ¬ PassesEmpty template target := by
  obtain ⟨before, p, hp⟩ := exists_last_segment template
  obtain ⟨before', t, ht⟩ := exists_last_segment target
  have hmatch : match_path template target = true ↔
      List.Forall₂ (fun p t => p = placeholder ∨ p = t) before before' ∧ SegmentMatches p t := by
    rw [match_path_iff_endsMatch, EndsMatch, TemplateMatches, lastSegment, lastSegment, hp, ht,
      forall₂_concat_iff, segmentMatches_iff, and_assoc]
    simp
  have hmeant : SegmentsMatch template target ↔
      List.Forall₂ SegmentMatches before before' ∧ SegmentMatches p t := by
    rw [SegmentsMatch, hp, ht, forall₂_concat_iff]
  have hpasses : PassesEmpty template target ↔
      List.Forall₂ (fun p t => p = placeholder ∨ p = t) before before' ∧ SegmentMatches p t ∧
        (placeholder, []) ∈ before.zip before' := by
    constructor
    · rintro ⟨b, q, b', u, hq, hu, h⟩
      obtain ⟨rfl, rfl⟩ : before = b ∧ p = q := by simpa using hp.symm.trans hq
      obtain ⟨rfl, rfl⟩ : before' = b' ∧ t = u := by simpa using ht.symm.trans hu
      exact h
    · exact fun h => ⟨before, p, before', t, hp, ht, h⟩
  rw [hmatch, hmeant, hpasses]
  constructor
  · -- an empty segment would pass where a placeholder stands
    rintro h ⟨hbefore, hlast, hempty⟩
    have hstrict := (h.mp ⟨hbefore, hlast⟩).1
    rcases (List.forall₂_iff_zip.mp hstrict).2 hempty with h | ⟨-, h⟩
    · exact absurd h (by decide)
    · exact h rfl
  · intro hnone
    constructor
    · rintro ⟨hbefore, hlast⟩
      refine ⟨?_, hlast⟩
      by_contra hstrict
      obtain ⟨a, b, hab, hweak, hnot⟩ := mem_zip_of_not_forall₂ hbefore hstrict
      -- the two segments are a placeholder and an empty one
      rcases hweak with rfl | rfl
      · obtain rfl : b = [] := by
          by_contra hne
          exact hnot (.inr ⟨rfl, hne⟩)
        exact hnone ⟨hbefore, hlast, hab⟩
      · exact hnot (.inl rfl)
    · rintro ⟨hbefore, hlast⟩
      refine ⟨hbefore.imp ?_, hlast⟩
      rintro p t (rfl | ⟨rfl, -⟩)
      · exact .inr rfl
      · exact .inl rfl

/-- An identifier may be empty where the path goes on behind it, and only there. -/
theorem empty_identifier_passes :
    ¬ (match_path "/items/{}/tags".toList "/items//tags".toList = true ↔
        SegmentsMatch "/items/{}/tags".toList "/items//tags".toList) ∧
      match_path "/items/{}".toList "/items/".toList = false := by
  have hpasses : match_path "/items/{}/tags".toList "/items//tags".toList = true := by
    rw [match_path_iff_endsMatch]
    exact ⟨by unfold TemplateMatches; decide, by decide⟩
  constructor
  · intro h
    have hmeant := h.mp hpasses
    unfold SegmentsMatch SegmentMatches at hmeant
    exact absurd hmeant (by decide)
  · rw [← Bool.not_eq_true, match_path_iff_endsMatch]
    exact fun h => absurd (h.2 (by decide)) (by decide)

end Siesta
