import Mathlib.Data.List.Nodup
import Mathlib.Data.List.TakeWhile

/-!
# Addresses in a hierarchy

An address is a sequence of segments with a separator before each.  What lies within two segments of
one place is apart as soon as the segments differ (`Within.segment_inj`), so the addresses of a tree
are distinct when the segments at each of its places are.
-/

namespace Siesta.Lib

variable {α : Type} {sep : α} {place segment segment' address : List α}

/-- The address is the place itself, or starts with it and a separator. -/
def Within (sep : α) (place address : List α) : Prop :=
  address = place ∨ ∃ rest, address = place ++ sep :: rest

namespace Within

theorem refl : Within sep place place := .inl rfl

/-- What lies within a segment lies within its place. -/
theorem of_segment (h : Within sep (place ++ sep :: segment) address) : Within sep place address := by
  right
  rcases h with rfl | ⟨rest, rfl⟩
  · exact ⟨segment, rfl⟩
  · exact ⟨segment ++ sep :: rest, by simp⟩

theorem ne_place (h : Within sep (place ++ sep :: segment) address) : address ≠ place := by
  rintro rfl
  rcases h with h | ⟨rest, h⟩
  · have := congrArg List.length h
    simp at this
  · have := congrArg List.length h
    simp at this

theorem segment_eq [DecidableEq α] (h : Within sep (place ++ sep :: segment) address) (hsep : sep ∉ segment) :
    (address.drop (place.length + 1)).takeWhile (fun c => c ≠ sep) = segment := by
  have hall : segment.takeWhile (fun c => c ≠ sep) = segment := by
    apply List.takeWhile_eq_self_iff.mpr
    intro c hc
    simp only [ne_eq, decide_eq_true_eq]
    rintro rfl
    exact hsep hc
  rcases h with rfl | ⟨rest, rfl⟩
  · simpa using hall
  · have hdrop : ((place ++ sep :: segment) ++ sep :: rest).drop (place.length + 1) = segment ++ sep :: rest := by
      simp
    rw [hdrop, List.takeWhile_append_of_pos (List.takeWhile_eq_self_iff.mp hall),
      List.takeWhile_cons_of_neg (by simp), List.append_nil]

theorem segment_inj [DecidableEq α] (h : Within sep (place ++ sep :: segment) address)
    (h' : Within sep (place ++ sep :: segment') address) (hsep : sep ∉ segment) (hsep' : sep ∉ segment') :
    segment = segment' :=
  (h.segment_eq hsep).symm.trans (h'.segment_eq hsep')

end Within

/-! ### Addresses by segment -/

/-- Distinct addresses, each within one of the segments of the place. -/
structure Placed (sep : α) (place : List α) (segments addresses : List (List α)) : Prop where
  distinct : addresses.Nodup
  within : ∀ address ∈ addresses, ∃ segment ∈ segments, sep ∉ segment ∧ Within sep (place ++ sep :: segment) address

namespace Placed

variable {segments segments' addresses addresses' : List (List α)}

theorem nil : Placed sep place segments [] := ⟨List.nodup_nil, by simp⟩

theorem ne_place (h : Placed sep place segments addresses) : place ∉ addresses := by
  intro hmem
  obtain ⟨segment, -, -, hwithin⟩ := h.within place hmem
  exact hwithin.ne_place rfl

/-- Addresses within one segment, counted from the place above. -/
theorem lift (h : Placed sep (place ++ sep :: segment) segments addresses) (hsep : sep ∉ segment) :
    Placed sep place [segment] addresses := by
  refine ⟨h.distinct, fun address haddress => ?_⟩
  obtain ⟨below, -, -, hwithin⟩ := h.within address haddress
  exact ⟨segment, List.mem_singleton_self _, hsep, hwithin.of_segment⟩

theorem cons_place (h : Placed sep (place ++ sep :: segment) segments addresses) (hsep : sep ∉ segment) :
    Placed sep place [segment] ((place ++ sep :: segment) :: addresses) := by
  refine ⟨List.nodup_cons.mpr ⟨h.ne_place, h.distinct⟩, fun address haddress => ?_⟩
  rcases List.mem_cons.mp haddress with rfl | haddress
  · exact ⟨segment, List.mem_singleton_self _, hsep, .refl⟩
  · exact (h.lift hsep).within address haddress

theorem append [DecidableEq α] (h : Placed sep place segments addresses)
    (h' : Placed sep place segments' addresses') (hdisjoint : List.Disjoint segments segments') :
    Placed sep place (segments ++ segments') (addresses ++ addresses') := by
  constructor
  · refine List.Nodup.append h.distinct h'.distinct fun address haddress haddress' => ?_
    obtain ⟨segment, hsegment, hsep, hwithin⟩ := h.within address haddress
    obtain ⟨segment', hsegment', hsep', hwithin'⟩ := h'.within address haddress'
    obtain rfl := hwithin.segment_inj hwithin' hsep hsep'
    exact hdisjoint hsegment hsegment'
  · intro address haddress
    rcases List.mem_append.mp haddress with haddress | haddress
    · obtain ⟨segment, hsegment, hwithin⟩ := h.within address haddress
      exact ⟨segment, List.mem_append_left _ hsegment, hwithin⟩
    · obtain ⟨segment, hsegment, hwithin⟩ := h'.within address haddress
      exact ⟨segment, List.mem_append_right _ hsegment, hwithin⟩

end Placed

end Siesta.Lib
