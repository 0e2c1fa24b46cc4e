import Mathlib.Data.List.Basic
import Mathlib.Data.List.Forall2

/-!
# Two programs in lockstep

`Lockstep R c d Q` relates two programs with states and errors: from states that `R` relates, both
return, with values that `Q` relates, or both fail, with the same error, and `R` relates the states
they end in.  A simple program that is in lockstep with a complicated one computes what it needs of the
other's state.
-/

namespace Siesta.Lib

variable {ε σ τ α β : Type}

/-- From related states, `c` and `d` end alike, in related states. -/
def Lockstep (R : σ → τ → Prop) (c : EStateM ε σ α) (d : EStateM ε τ β) (Q : α → β → Prop) : Prop :=
  ∀ s t, R s t →
    match c s, d t with
    | .ok a s', .ok b t' => R s' t' ∧ Q a b
    | .error e s', .error e' t' => R s' t' ∧ e = e'
    | _, _ => False

namespace Lockstep

variable {R : σ → τ → Prop} {c : EStateM ε σ α} {d : EStateM ε τ β} {Q : α → β → Prop}

/-! ### Reading a run off -/

theorem of_ok (h : Lockstep R c d Q) {s s' : σ} {t : τ} {a : α} (hR : R s t) (hrun : c s = .ok a s') :
    ∃ b t', d t = .ok b t' ∧ R s' t' ∧ Q a b := by
  have h := h s t hR
  rw [hrun] at h
  cases hd : d t with
  | ok b t' =>
    rw [hd] at h
    exact ⟨b, t', rfl, h⟩
  | error e t' =>
    rw [hd] at h
    exact h.elim

theorem of_error (h : Lockstep R c d Q) {s s' : σ} {t : τ} {e : ε} (hR : R s t)
    (hrun : c s = .error e s') : ∃ t', d t = .error e t' ∧ R s' t' := by
  have h := h s t hR
  rw [hrun] at h
  cases hd : d t with
  | ok b t' =>
    rw [hd] at h
    exact h.elim
  | error e' t' =>
    rw [hd] at h
    exact ⟨t', by rw [h.2], h.1⟩

theorem mk (hok : ∀ s t a s', R s t → c s = .ok a s' → ∃ b t', d t = .ok b t' ∧ R s' t' ∧ Q a b)
    (herror : ∀ s t e s', R s t → c s = .error e s' → ∃ t', d t = .error e t' ∧ R s' t') :
    Lockstep R c d Q := by
  intro s t hR
  cases hrun : c s with
  | ok a s' =>
    obtain ⟨b, t', hd, h⟩ := hok s t a s' hR hrun
    rw [hd]
    exact h
  | error e s' =>
    obtain ⟨t', hd, h⟩ := herror s t e s' hR hrun
    rw [hd]
    exact ⟨h, rfl⟩

theorem post (h : Lockstep R c d Q) {Q' : α → β → Prop} (hQ : ∀ a b, Q a b → Q' a b) :
    Lockstep R c d Q' :=
  mk (fun s t a s' hR hrun => by
      obtain ⟨b, t', hd, hR', hq⟩ := h.of_ok hR hrun
      exact ⟨b, t', hd, hR', hQ a b hq⟩)
    fun _ _ _ _ hR hrun => h.of_error hR hrun

/-- What two comparisons say holds together. -/
theorem and (h : Lockstep R c d Q) {Q' : α → β → Prop} (h' : Lockstep R c d Q') :
    Lockstep R c d fun a b => Q a b ∧ Q' a b := by
  refine mk (fun s t a s' hR hrun => ?_) fun _ _ _ _ hR hrun => h.of_error hR hrun
  obtain ⟨b, t', hd, hR', hq⟩ := h.of_ok hR hrun
  obtain ⟨b', t'', hd', -, hq'⟩ := h'.of_ok hR hrun
  cases hd.symm.trans hd'
  exact ⟨b, t', hd, hR', hq, hq'⟩

/-! ### Programs -/

theorem pure {a : α} {b : β} (h : Q a b) :
    Lockstep R (Pure.pure a : EStateM ε σ α) (Pure.pure b : EStateM ε τ β) Q := fun _ _ hR => ⟨hR, h⟩

theorem throw {e : ε} : Lockstep R (MonadExcept.throw e : EStateM ε σ α)
    (MonadExcept.throw e : EStateM ε τ β) Q := fun _ _ hR => ⟨hR, rfl⟩

theorem get {Q : σ → τ → Prop} (h : ∀ s t, R s t → Q s t) :
    Lockstep R (MonadState.get : EStateM ε σ σ) (MonadState.get : EStateM ε τ τ) Q :=
  fun s t hR => ⟨hR, h s t hR⟩

theorem bind {γ δ : Type} {f : α → EStateM ε σ γ} {g : β → EStateM ε τ δ} {Q' : γ → δ → Prop}
    (h : Lockstep R c d Q) (hf : ∀ a b, Q a b → Lockstep R (f a) (g b) Q') :
    Lockstep R (c >>= f) (d >>= g) Q' := by
  refine mk (fun s t a s' hR hrun => ?_) fun s t e s' hR hrun => ?_
  · change EStateM.bind c f s = _ at hrun
    unfold EStateM.bind at hrun
    cases hc : c s with
    | error e s₁ => rw [hc] at hrun; cases hrun
    | ok b s₁ =>
      rw [hc] at hrun
      obtain ⟨b', t₁, hd, hR₁, hq⟩ := h.of_ok hR hc
      obtain ⟨a', t', hg, hR', hq'⟩ := (hf b b' hq).of_ok hR₁ hrun
      refine ⟨a', t', ?_, hR', hq'⟩
      change EStateM.bind d g t = _
      unfold EStateM.bind
      rw [hd]
      exact hg
  · change EStateM.bind c f s = _ at hrun
    unfold EStateM.bind at hrun
    cases hc : c s with
    | error e' s₁ =>
      rw [hc] at hrun
      obtain ⟨rfl, rfl⟩ := EStateM.Result.error.inj hrun
      obtain ⟨t', hd, hR'⟩ := h.of_error hR hc
      refine ⟨t', ?_, hR'⟩
      change EStateM.bind d g t = _
      unfold EStateM.bind
      rw [hd]
    | ok b s₁ =>
      rw [hc] at hrun
      obtain ⟨b', t₁, hd, hR₁, hq⟩ := h.of_ok hR hc
      obtain ⟨t', hg, hR'⟩ := (hf b b' hq).of_error hR₁ hrun
      refine ⟨t', ?_, hR'⟩
      change EStateM.bind d g t = _
      unfold EStateM.bind
      rw [hd]
      exact hg

/-- A last step of one of the programs that only makes a value. -/
theorem map_left {γ : Type} (h : Lockstep R c d Q) {f : α → γ} {Q' : γ → β → Prop}
    (hf : ∀ a b, Q a b → Q' (f a) b) : Lockstep R (c >>= fun a => Pure.pure (f a)) d Q' := by
  have hbind := h.bind fun a b hq => (pure (hf a b hq) : Lockstep R (Pure.pure (f a)) (Pure.pure b) Q')
  rwa [bind_pure] at hbind

theorem map_right {δ : Type} (h : Lockstep R c d Q) {g : β → δ} {Q' : α → δ → Prop}
    (hg : ∀ a b, Q a b → Q' a (g b)) : Lockstep R c (d >>= fun b => Pure.pure (g b)) Q' := by
  have hbind := h.bind fun a b hq => (pure (hg a b hq) : Lockstep R (Pure.pure a) (Pure.pure (g b)) Q')
  rwa [bind_pure] at hbind

/-- The handlers start where the error was thrown. -/
theorem tryCatch {f : ε → EStateM ε σ α} {g : ε → EStateM ε τ β} (h : Lockstep R c d Q)
    (hf : ∀ e, Lockstep R (f e) (g e) Q) :
    Lockstep R (MonadExcept.tryCatch c f) (MonadExcept.tryCatch d g) Q := by
  intro s t hR
  change match EStateM.tryCatch c f s, EStateM.tryCatch d g t with
    | .ok a s', .ok b t' => R s' t' ∧ Q a b
    | .error e s', .error e' t' => R s' t' ∧ e = e'
    | _, _ => False
  unfold EStateM.tryCatch
  cases hc : c s with
  | ok a s' =>
    obtain ⟨b, t', hd, hR', hq⟩ := h.of_ok hR hc
    rw [hd]
    exact ⟨hR', hq⟩
  | error e s' =>
    obtain ⟨t', hd, hR'⟩ := h.of_error hR hc
    rw [hd]
    exact hf e s' t' hR'

/-! ### Loops -/

theorem foldlM {γ : Type} {l : List γ} {f : α → γ → EStateM ε σ α} {g : β → γ → EStateM ε τ β}
    (h : ∀ x ∈ l, ∀ a b, Q a b → Lockstep R (f a x) (g b x) Q) {a : α} {b : β} (hq : Q a b) :
    Lockstep R (l.foldlM f a) (l.foldlM g b) Q := by
  induction l generalizing a b with
  | nil => exact pure hq
  | cons x l ih =>
    rw [List.foldlM_cons, List.foldlM_cons]
    exact (h x (by simp) a b hq).bind fun a' b' hq' => ih (fun y hy => h y (by simp [hy])) hq'

theorem mapM_forall₂ {γ : Type} {l : List γ} {f : γ → EStateM ε σ α} {g : γ → EStateM ε τ β}
    (h : ∀ x ∈ l, Lockstep R (f x) (g x) Q) :
    Lockstep R (l.mapM f) (l.mapM g) (List.Forall₂ Q) := by
  induction l with
  | nil => exact pure .nil
  | cons x l ih =>
    rw [List.mapM_cons, List.mapM_cons]
    refine (h x (by simp)).bind fun a b hq => ?_
    exact (ih fun y hy => h y (by simp [hy])).bind fun _ _ hqs => pure (.cons hq hqs)

/-- Loops that collect their results, of which nothing is asked. -/
theorem mapM {γ : Type} {l : List γ} {f : γ → EStateM ε σ α} {g : γ → EStateM ε τ β}
    (h : ∀ x ∈ l, Lockstep R (f x) (g x) fun _ _ => True) :
    Lockstep R (l.mapM f) (l.mapM g) fun _ _ => True :=
  (mapM_forall₂ h).post fun _ _ _ => trivial

end Lockstep

end Siesta.Lib
