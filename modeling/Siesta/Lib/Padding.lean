import Siesta.Lib.ListM

/-!
# Lists with something added

`Padding` relates two lists of which the second has further entries among those that correspond to the first.
-/

namespace Siesta.Lib

variable {α β : Type} {R R' : α → β → Prop} {Q Q' : β → Prop} {l l₁ l₂ : List α} {l' l₁' l₂' : List β}

/-- The second list consists of entries that are related to those of the first one by one, and of others,
in `Q`. -/
inductive Padding (R : α → β → Prop) (Q : β → Prop) : List α → List β → Prop
  | nil : Padding R Q [] []
  | keep {a : α} {b : β} {l : List α} {l' : List β} (h : R a b) (hrest : Padding R Q l l') :
      Padding R Q (a :: l) (b :: l')
  | add {b : β} {l : List α} {l' : List β} (h : Q b) (hrest : Padding R Q l l') : Padding R Q l (b :: l')

namespace Padding

theorem of_forall₂ (h : List.Forall₂ R l l') : Padding R Q l l' := by
  induction h with
  | nil => exact .nil
  | cons h _ ih => exact .keep h ih

theorem append (h₁ : Padding R Q l₁ l₁') (h₂ : Padding R Q l₂ l₂') : Padding R Q (l₁ ++ l₂) (l₁' ++ l₂') := by
  induction h₁ with
  | nil => exact h₂
  | keep h _ ih => exact .keep h ih
  | add h _ ih => exact .add h ih

theorem append_added (h₁ : ∀ b ∈ l₁', Q b) (h : Padding R Q l l') : Padding R Q l (l₁' ++ l') := by
  induction l₁' with
  | nil => exact h
  | cons b l₁' ih => exact .add (h₁ b (List.mem_cons_self ..)) (ih fun c hc => h₁ c (List.mem_cons_of_mem _ hc))

theorem imp (hR : ∀ a b, R a b → R' a b) (hQ : ∀ b, Q b → Q' b) (h : Padding R Q l l') : Padding R' Q' l l' := by
  induction h with
  | nil => exact .nil
  | keep h _ ih => exact .keep (hR _ _ h) ih
  | add h _ ih => exact .add (hQ _ h) ih

/-- Where what has been added is left out, the rest is related. -/
theorem filter {p : α → Bool} {q : β → Bool} (h : Padding R Q l l') (hR : ∀ a b, R a b → p a = q b)
    (hQ : ∀ b, Q b → q b = false) : List.Forall₂ R (l.filter p) (l'.filter q) := by
  induction h with
  | nil => exact .nil
  | @keep a b l l' h _ ih =>
    rw [List.filter_cons, List.filter_cons, hR a b h]
    split
    · exact .cons h ih
    · exact ih
  | @add b l l' h _ ih =>
    rw [List.filter_cons, hQ b h]
    exact ih

/-- Each entry of the first list has been kept. -/
theorem exists_kept (h : Padding R Q l l') {a : α} (ha : a ∈ l) : ∃ b ∈ l', R a b := by
  induction h with
  | nil => cases ha
  | keep h _ ih =>
    rcases List.mem_cons.mp ha with rfl | ha
    · exact ⟨_, List.mem_cons_self .., h⟩
    · exact (ih ha).imp fun b hb => ⟨List.mem_cons_of_mem _ hb.1, hb.2⟩
  | add _ _ ih => exact (ih ha).imp fun b hb => ⟨List.mem_cons_of_mem _ hb.1, hb.2⟩

theorem exists_or_added (h : Padding R Q l l') {b : β} (hb : b ∈ l') : (∃ a ∈ l, R a b) ∨ Q b := by
  induction h with
  | nil => cases hb
  | keep h _ ih =>
    rcases List.mem_cons.mp hb with rfl | hb
    · exact .inl ⟨_, List.mem_cons_self .., h⟩
    · exact (ih hb).imp_left fun ⟨a, ha, hR⟩ => ⟨a, List.mem_cons_of_mem _ ha, hR⟩
  | add h _ ih =>
    rcases List.mem_cons.mp hb with rfl | hb
    · exact .inr h
    · exact ih hb

end Padding

end Siesta.Lib
