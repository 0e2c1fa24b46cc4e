import Mathlib.Order.Defs.PartialOrder
import Mathlib.Data.List.Basic

/-!
# Trees of leaves, sequences and maps

The values of a data format whose objects are maps: an object is known by what each of its keys holds,
and the order in which its members were written is gone.  `s ≤ t` says that `t` is `s` with members
added to the objects in it; this is a partial order, so two trees that extend each other are one tree.
-/

namespace Siesta.Lib

/-- A leaf, a sequence, or a map from keys. -/
inductive DataTree (α κ : Type) where
  | leaf (a : α)
  | seq (items : List (DataTree α κ))
  | map (members : κ → Option (DataTree α κ))

namespace DataTree

variable {α κ : Type}

/-- Induction over what a tree is made of. -/
@[elab_as_elim, induction_eliminator]
theorem induct {motive : DataTree α κ → Prop} (leaf : ∀ a, motive (.leaf a))
    (seq : ∀ items, (∀ t ∈ items, motive t) → motive (.seq items))
    (map : ∀ members, (∀ k t, members k = some t → motive t) → motive (.map members)) :
    ∀ t, motive t := by
  refine @DataTree.rec α κ motive (fun items => ∀ t ∈ items, motive t) (fun o => ∀ t, o = some t → motive t)
    leaf seq (fun members ih => map members ih) ?_ ?_ ?_ ?_
  · exact fun t ht => absurd ht (by simp)
  · rintro t items ht ih u hu
    rcases List.mem_cons.mp hu with rfl | hu
    · exact ht
    · exact ih u hu
  · exact fun t ht => absurd ht (by simp)
  · rintro t ht u hu
    obtain rfl : t = u := by simpa using hu
    exact ht

/-- The second tree is the first one with members added to the maps in it. -/
inductive Extends : DataTree α κ → DataTree α κ → Prop
  | leaf (a : α) : Extends (.leaf a) (.leaf a)
  | seq {items items' : List (DataTree α κ)} (hlength : items.length = items'.length)
      (h : ∀ (i : ℕ) s t, items[i]? = some s → items'[i]? = some t → Extends s t) :
      Extends (.seq items) (.seq items')
  | map {members members' : κ → Option (DataTree α κ)} (hsome : ∀ k, (members k).isSome → (members' k).isSome)
      (h : ∀ k s t, members k = some s → members' k = some t → Extends s t) :
      Extends (.map members) (.map members')

instance : LE (DataTree α κ) := ⟨Extends⟩

@[simp] theorem leaf_le_leaf {a b : α} : (leaf a : DataTree α κ) ≤ leaf b ↔ a = b := by
  constructor
  · rintro ⟨⟩
    rfl
  · rintro rfl
    exact Extends.leaf a

/-- Nothing can be added to a leaf. -/
theorem leaf_le_iff {a : α} {t : DataTree α κ} : leaf a ≤ t ↔ t = leaf a := by
  constructor
  · rintro ⟨⟩
    rfl
  · rintro rfl
    exact leaf_le_leaf.mpr rfl

@[simp] theorem not_seq_le_leaf {items : List (DataTree α κ)} {a : α} : ¬ seq items ≤ leaf a := nofun

@[simp] theorem not_seq_le_map {items : List (DataTree α κ)} {members : κ → Option (DataTree α κ)} :
    ¬ seq items ≤ map members := nofun

@[simp] theorem not_map_le_leaf {members : κ → Option (DataTree α κ)} {a : α} :
    ¬ map members ≤ leaf a := nofun

@[simp] theorem not_map_le_seq {members : κ → Option (DataTree α κ)} {items : List (DataTree α κ)} :
    ¬ map members ≤ seq items := nofun

theorem seq_le_seq {items items' : List (DataTree α κ)} : seq items ≤ seq items' ↔
    items.length = items'.length ∧ ∀ (i : ℕ) s t, items[i]? = some s → items'[i]? = some t → s ≤ t := by
  constructor
  · rintro (_ | ⟨hlength, h⟩)
    exact ⟨hlength, h⟩
  · rintro ⟨hlength, h⟩
    exact Extends.seq hlength h

theorem map_le_map {members members' : κ → Option (DataTree α κ)} : map members ≤ map members' ↔
    ∀ k s, members k = some s → ∃ t, members' k = some t ∧ s ≤ t := by
  constructor
  · rintro (_ | _ | ⟨hsome, h⟩) k s hs
    obtain ⟨t, ht⟩ := Option.isSome_iff_exists.mp (hsome k (Option.isSome_iff_exists.mpr ⟨s, hs⟩))
    exact ⟨t, ht, h k s t hs ht⟩
  · intro h
    refine Extends.map (fun k hk => ?_) (fun k s t hs ht => ?_)
    · obtain ⟨s, hs⟩ := Option.isSome_iff_exists.mp hk
      obtain ⟨t, ht, -⟩ := h k s hs
      exact Option.isSome_iff_exists.mpr ⟨t, ht⟩
    · obtain ⟨t', ht', hle⟩ := h k s hs
      obtain rfl : t' = t := Option.some.inj (ht'.symm.trans ht)
      exact hle

/-- Sequences are compared item by item. -/
theorem seq_cons_le_seq_cons {s t : DataTree α κ} {items items' : List (DataTree α κ)} :
    seq (s :: items) ≤ seq (t :: items') ↔ s ≤ t ∧ seq items ≤ seq items' := by
  simp only [seq_le_seq, List.length_cons, Nat.add_right_cancel_iff]
  constructor
  · rintro ⟨hlength, h⟩
    exact ⟨h 0 s t rfl rfl, hlength, fun i => h (i + 1)⟩
  · rintro ⟨hst, hlength, h⟩
    refine ⟨hlength, fun i => ?_⟩
    cases i with
    | zero => rintro s' t' ⟨⟩ ⟨⟩; exact hst
    | succ i => exact h i

private theorem le_refl' (t : DataTree α κ) : t ≤ t := by
  induction t with
  | leaf a => exact Extends.leaf a
  | seq items ih =>
    refine seq_le_seq.mpr ⟨rfl, fun i s t hs ht => ?_⟩
    obtain rfl : s = t := Option.some.inj (hs.symm.trans ht)
    exact ih s (List.mem_of_getElem? hs)
  | map members ih => exact map_le_map.mpr fun k s hs => ⟨s, hs, ih k s hs⟩

private theorem le_trans' {s t u : DataTree α κ} (hst : s ≤ t) (htu : t ≤ u) : s ≤ u := by
  induction hst generalizing u with
  | leaf a => exact htu
  | @seq items items' hlength h ih =>
    obtain _ | ⟨hlength', h'⟩ | _ := htu
    refine Extends.seq (hlength.trans hlength') fun i s u hs hu => ?_
    -- the sequence between them has an item at the same place
    have hi : i < items'.length := hlength ▸ (List.getElem?_eq_some_iff.mp hs).1
    have ht : items'[i]? = some items'[i] := List.getElem?_eq_getElem hi
    exact ih i s items'[i] hs ht (h' i items'[i] u ht hu)
  | @map members members' hsome h ih =>
    obtain _ | _ | ⟨hsome', h'⟩ := htu
    refine Extends.map (fun k hk => hsome' k (hsome k hk)) fun k s u hs hu => ?_
    obtain ⟨t, ht⟩ := Option.isSome_iff_exists.mp (hsome k (Option.isSome_iff_exists.mpr ⟨s, hs⟩))
    exact ih k s t hs ht (h' k t u ht hu)

private theorem le_antisymm' {s t : DataTree α κ} (hst : s ≤ t) (hts : t ≤ s) : s = t := by
  induction hst with
  | leaf a => rfl
  | @seq items items' hlength h ih =>
    obtain ⟨-, h'⟩ := seq_le_seq.mp hts
    refine congrArg seq (List.ext_getElem? fun i => ?_)
    by_cases hi : i < items.length
    · have hs : items[i]? = some items[i] := List.getElem?_eq_getElem hi
      have ht : items'[i]? = some items'[i] := List.getElem?_eq_getElem (hlength ▸ hi)
      rw [hs, ht, ih i _ _ hs ht (h' i _ _ ht hs)]
    · rw [List.getElem?_eq_none (by omega), List.getElem?_eq_none (by omega)]
  | @map members members' hsome h ih =>
    have h' := map_le_map.mp hts
    refine congrArg map (funext fun k => ?_)
    cases ht : members' k with
    | none =>
      cases hs : members k with
      | none => rfl
      | some s => exact absurd (hsome k (by simp [hs])) (by simp [ht])
    | some t =>
      obtain ⟨s, hs, hts⟩ := h' k t ht
      rw [hs, ih k s t hs ht hts]

instance : PartialOrder (DataTree α κ) where
  le_refl := le_refl'
  le_trans _ _ _ := le_trans'
  le_antisymm _ _ := le_antisymm'

end DataTree

end Siesta.Lib
