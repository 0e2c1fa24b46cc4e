import Mathlib.Order.Monotone.Basic
import Mathlib.Order.Basic
import Mathlib.Data.List.Forall2

/-!
# Programs whose state only grows

`Ensures P c Q E` is a triple for programs with a state and errors, over a preorder on the states:
`c` never leaves the states above the one it starts in.  A fact that is monotone in the state
therefore survives every program (`Ensures.frame`), and what a loop has established about its first
results still holds of its last state (`Ensures.mapM`).  `Maintains` is the triple of a program that
keeps an invariant and whose results are described without the state.
-/

namespace Siesta.Lib

variable {ε σ α β : Type} [Preorder σ]

/-- From a state where `P` holds, `c` ends in a state above it: with a value of which `Q` holds there,
or with an error of which `E` holds. -/
def Ensures (P : σ → Prop) (c : EStateM ε σ α) (Q : α → σ → Prop) (E : ε → σ → Prop) : Prop :=
  ∀ s, P s →
    match c s with
    | .ok a s' => s ≤ s' ∧ Q a s'
    | .error e s' => s ≤ s' ∧ E e s'

namespace Ensures

variable {P : σ → Prop} {c : EStateM ε σ α} {Q : α → σ → Prop} {E : ε → σ → Prop}

/-! ### Reading a triple off a run -/

theorem of_ok (h : Ensures P c Q E) {s s' : σ} {a : α} (hs : P s) (hrun : c s = .ok a s') :
    s ≤ s' ∧ Q a s' := by
  have := h s hs
  rwa [hrun] at this

theorem of_error (h : Ensures P c Q E) {s s' : σ} {e : ε} (hs : P s) (hrun : c s = .error e s') :
    s ≤ s' ∧ E e s' := by
  have := h s hs
  rwa [hrun] at this

theorem mk (hok : ∀ s a s', P s → c s = .ok a s' → s ≤ s' ∧ Q a s')
    (herror : ∀ s e s', P s → c s = .error e s' → s ≤ s' ∧ E e s') : Ensures P c Q E := by
  intro s hs
  cases hrun : c s with
  | ok a s' => exact hok s a s' hs hrun
  | error e s' => exact herror s e s' hs hrun

/-! ### Consequence and framing -/

theorem imp (h : Ensures P c Q E) {P' : σ → Prop} {Q' : α → σ → Prop} {E' : ε → σ → Prop}
    (hP : ∀ s, P' s → P s) (hQ : ∀ a s, Q a s → Q' a s) (hE : ∀ e s, E e s → E' e s) :
    Ensures P' c Q' E' :=
  mk (fun _ _ _ hs hrun => (h.of_ok (hP _ hs) hrun).imp_right (hQ _ _))
    fun _ _ _ hs hrun => (h.of_error (hP _ hs) hrun).imp_right (hE _ _)

theorem post (h : Ensures P c Q E) {Q' : α → σ → Prop} (hQ : ∀ a s, Q a s → Q' a s) :
    Ensures P c Q' E := h.imp (fun _ hs => hs) hQ fun _ _ he => he

theorem pre (h : Ensures P c Q E) {P' : σ → Prop} (hP : ∀ s, P' s → P s) : Ensures P' c Q E :=
  h.imp hP (fun _ _ hq => hq) fun _ _ he => he

/-- What is monotone in the state survives. -/
theorem frame (h : Ensures P c Q E) {F : σ → Prop} (hF : Monotone F) :
    Ensures (fun s => P s ∧ F s) c (fun a s => Q a s ∧ F s) fun e s => E e s ∧ F s := by
  refine mk (fun s a s' hs hrun => ?_) fun s e s' hs hrun => ?_
  · obtain ⟨hle, hq⟩ := h.of_ok hs.1 hrun
    exact ⟨hle, hq, hF hle hs.2⟩
  · obtain ⟨hle, he⟩ := h.of_error hs.1 hrun
    exact ⟨hle, he, hF hle hs.2⟩

/-! ### Programs -/

theorem pure {a : α} (h : ∀ s, P s → Q a s) : Ensures P (Pure.pure a : EStateM ε σ α) Q E :=
  fun s hs => ⟨le_rfl, h s hs⟩

theorem throw {e : ε} (h : ∀ s, P s → E e s) : Ensures P (MonadExcept.throw e : EStateM ε σ α) Q E :=
  fun s hs => ⟨le_rfl, h s hs⟩

theorem get {Q : σ → σ → Prop} (h : ∀ s, P s → Q s s) : Ensures P (MonadState.get : EStateM ε σ σ) Q E :=
  fun s hs => ⟨le_rfl, h s hs⟩

theorem bind {f : α → EStateM ε σ β} {R : β → σ → Prop} (hc : Ensures P c Q E)
    (hf : ∀ a, Ensures (Q a) (f a) R E) : Ensures P (c >>= f) R E := by
  intro s hs
  have h := hc s hs
  change match EStateM.bind c f s with
    | .ok b s' => s ≤ s' ∧ R b s' | .error e s' => s ≤ s' ∧ E e s'
  unfold EStateM.bind
  cases hrun : c s with
  | error e s' => rwa [hrun] at h
  | ok a s' =>
    rw [hrun] at h
    have h' := hf a s' h.2
    dsimp only
    cases hrun' : f a s' with
    | ok b s'' =>
      rw [hrun'] at h'
      exact ⟨h.1.trans h'.1, h'.2⟩
    | error e s'' =>
      rw [hrun'] at h'
      exact ⟨h.1.trans h'.1, h'.2⟩

/-- The handler starts where the error was thrown. -/
theorem tryCatch {handle : ε → EStateM ε σ α} {E' : ε → σ → Prop} (hc : Ensures P c Q E')
    (hh : ∀ e, Ensures (E' e) (handle e) Q E) :
    Ensures P (MonadExcept.tryCatch c handle) Q E := by
  intro s hs
  have h := hc s hs
  change match EStateM.tryCatch c handle s with
    | .ok a s' => s ≤ s' ∧ Q a s' | .error e s' => s ≤ s' ∧ E e s'
  unfold EStateM.tryCatch
  cases hrun : c s with
  | ok a s' => rwa [hrun] at h
  | error e s' =>
    rw [hrun] at h
    have h' := hh e s' h.2
    change match handle e s' with | .ok a s' => s ≤ s' ∧ Q a s' | .error e s' => s ≤ s' ∧ E e s'
    cases hrun' : handle e s' with
    | ok b s'' =>
      rw [hrun'] at h'
      exact ⟨h.1.trans h'.1, h'.2⟩
    | error e s'' =>
      rw [hrun'] at h'
      exact ⟨h.1.trans h'.1, h'.2⟩

/-! ### Loops -/

/-- A loop with an accumulator: `J done b` is what holds when the elements `done` have been met and
`b` is the accumulator. -/
theorem foldlM {l : List α} {f : β → α → EStateM ε σ β} {J : List α → β → σ → Prop}
    (h : ∀ done a rest b, l = done ++ a :: rest → Ensures (J done b) (f b a) (J (done ++ [a])) E)
    (b : β) : Ensures (J [] b) (l.foldlM f b) (J l) E := by
  have key : ∀ rest done b, l = done ++ rest → Ensures (J done b) (rest.foldlM f b) (J l) E := by
    intro rest
    induction rest with
    | nil =>
      intro done b heq
      rw [List.append_nil] at heq
      exact pure fun s hs => heq ▸ hs
    | cons a rest ih =>
      intro done b heq
      rw [List.foldlM_cons]
      exact (h done a rest b heq).bind fun b' => ih (done ++ [a]) b' (by simpa using heq)
  exact key l [] b rfl

/-- A loop that collects its results: each keeps what is monotone in the state. -/
theorem mapM {l : List α} {f : α → EStateM ε σ β} {R : β → σ → Prop} (hR : ∀ b, Monotone (R b))
    (h : ∀ a ∈ l, Ensures P (f a) (fun b s => P s ∧ R b s) E) :
    Ensures P (l.mapM f) (fun bs s => P s ∧ ∀ b ∈ bs, R b s) E := by
  induction l with
  | nil => exact pure fun s hs => ⟨hs, by simp⟩
  | cons a l ih =>
    rw [List.mapM_cons]
    refine (h a (by simp)).bind fun b => ?_
    have hrest := ((ih fun a' ha' => h a' (by simp [ha'])).frame (hR b)).imp (fun _ hs => hs)
      (fun _ _ hs => hs) fun _ _ he => he.1
    refine hrest.bind fun bs => pure fun s hs => ⟨hs.1.1, fun b' hb' => ?_⟩
    rcases List.mem_cons.mp hb' with rfl | hb'
    · exact hs.2
    · exact hs.1.2 b' hb'

end Ensures

/-! ### Programs that keep an invariant -/

/-- `c` keeps `P`, also when it fails, and `Q` holds of what it returns. -/
abbrev Maintains (P : σ → Prop) (c : EStateM ε σ α) (Q : α → Prop) : Prop :=
  Ensures P c (fun a s => P s ∧ Q a) fun _ s => P s

namespace Maintains

variable {P : σ → Prop} {c : EStateM ε σ α} {Q : α → Prop}

theorem pure {a : α} (h : Q a) : Maintains P (Pure.pure a : EStateM ε σ α) Q :=
  Ensures.pure fun _ hs => ⟨hs, h⟩

theorem get : Maintains P (MonadState.get : EStateM ε σ σ) fun _ => True :=
  Ensures.get fun _ hs => ⟨hs, trivial⟩

theorem post (h : Maintains P c Q) {Q' : α → Prop} (hQ : ∀ a, Q a → Q' a) : Maintains P c Q' :=
  Ensures.post h fun a _ hs => hs.imp_right (hQ a)

theorem bind {f : α → EStateM ε σ β} {R : β → Prop} (hc : Maintains P c Q)
    (hf : ∀ a, Q a → Maintains P (f a) R) : Maintains P (c >>= f) R :=
  Ensures.bind hc fun a s hs => hf a hs.2 s hs.1

/-- A loop that collects its results: `R` relates each to the element it was made of. -/
theorem mapM {l : List α} {f : α → EStateM ε σ β} {R : α → β → Prop}
    (h : ∀ a ∈ l, Maintains P (f a) (R a)) : Maintains P (l.mapM f) (List.Forall₂ R l) := by
  induction l with
  | nil => exact pure .nil
  | cons a l ih =>
    rw [List.mapM_cons]
    refine (h a (by simp)).bind fun b hb => ?_
    exact (ih fun a' ha' => h a' (by simp [ha'])).bind fun bs hbs => pure (.cons hb hbs)

theorem foldlM {l : List α} {f : β → α → EStateM ε σ β} {J : β → Prop}
    (h : ∀ a ∈ l, ∀ b, J b → Maintains P (f b a) J) {b : β} (hb : J b) :
    Maintains P (l.foldlM f b) J := by
  induction l generalizing b with
  | nil => exact pure hb
  | cons a l ih =>
    rw [List.foldlM_cons]
    exact (h a (by simp) b hb).bind fun b' hb' => ih (fun a' ha' => h a' (by simp [ha'])) hb'

end Maintains

end Siesta.Lib
