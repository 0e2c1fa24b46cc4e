import Mathlib.Logic.Relation

/-!
# Runs of a transition system

What every step preserves holds along a run (`invariant`), and a system whose steps are matched by
those of another one only has runs that the other one has (`simulation`).
-/

namespace Siesta.Lib

open Relation

variable {σ τ : Type} {Step : σ → σ → Prop}

/-- **The invariant rule.** -/
theorem invariant {I : σ → Prop} (hstep : ∀ s s', I s → Step s s' → I s') {s₀ s : σ} (h₀ : I s₀)
    (hrun : ReflTransGen Step s₀ s) : I s := by
  induction hrun with
  | refl => exact h₀
  | tail _ hlast ih => exact hstep _ _ ih hlast

/-- **The simulation rule.**  Every step of the one system is a run of the other. -/
theorem simulation {Abs : τ → τ → Prop} {R : σ → τ → Prop}
    (hstep : ∀ s s' t, R s t → Step s s' → ∃ t', ReflTransGen Abs t t' ∧ R s' t') {s₀ s : σ} {t₀ : τ}
    (h₀ : R s₀ t₀) (hrun : ReflTransGen Step s₀ s) : ∃ t, ReflTransGen Abs t₀ t ∧ R s t := by
  refine invariant (I := fun s => ∃ t, ReflTransGen Abs t₀ t ∧ R s t) ?_ ⟨t₀, .refl, h₀⟩ hrun
  rintro s s' ⟨t, habs, hR⟩ hlast
  obtain ⟨t', habs', hR'⟩ := hstep s s' t hR hlast
  exact ⟨t', habs.trans habs', hR'⟩

end Siesta.Lib
