import Mathlib.Data.List.Basic

/-!
# Programs that add to a list

A program with states and errors adds to a list that it keeps in its state.  `Appends out c Q` says which
entries it adds on the way to its value.  For a loop these are the entries of its turns, one after the other,
each with the part of the result that its turn gives (`Threads`).
-/

namespace Siesta.Lib

/-! ### Lists that are made in step -/

/-- The elements of the one list give, in their order, the parts that the other two are made of. -/
inductive Threads {α β γ : Type} (step : α → List β → List γ → Prop) : List α → List β → List γ → Prop
  | nil : Threads step [] [] []
  | cons {a : α} {l : List α} {bs bs' : List β} {cs cs' : List γ} (h : step a bs cs)
      (hl : Threads step l bs' cs') : Threads step (a :: l) (bs ++ bs') (cs ++ cs')

namespace Threads

variable {α β γ δ : Type} {step : α → List β → List γ → Prop} {l : List α} {bs : List β} {cs : List γ}

/-- The entries are looked at through `f`; what holds of whole lists may be used for their parts. -/
theorem map_entries {f : γ → δ} {step' : α → List β → List δ → Prop} (h : Threads step l bs cs) :
    (∀ a ∈ l, ∀ bs' cs', bs' ⊆ bs → cs' ⊆ cs → step a bs' cs' → step' a bs' (cs'.map f)) →
      Threads step' l bs (cs.map f) := by
  induction h with
  | nil => exact fun _ => .nil
  | cons hstep _ ih =>
    intro hmap
    rw [List.map_append]
    refine .cons (hmap _ (List.mem_cons_self ..) _ _ (List.subset_append_left ..)
      (List.subset_append_left ..) hstep) (ih ?_)
    exact fun a ha bs' cs' hbs hcs => hmap a (List.mem_cons_of_mem _ ha) bs' cs'
      (List.Subset.trans hbs (List.subset_append_right ..)) (List.Subset.trans hcs (List.subset_append_right ..))

/-- What holds of the entries of every step holds of all entries. -/
theorem forall_entries {holds : γ → Prop} (h : Threads step l bs cs)
    (hstep : ∀ a ∈ l, ∀ bs' cs', step a bs' cs' → ∀ c ∈ cs', holds c) : ∀ c ∈ cs, holds c := by
  induction h with
  | nil => exact fun _ hc => absurd hc List.not_mem_nil
  | cons h _ ih =>
    intro c hc
    rcases List.mem_append.mp hc with hc | hc
    · exact hstep _ (List.mem_cons_self ..) _ _ h c hc
    · exact ih (fun a ha => hstep a (List.mem_cons_of_mem _ ha)) c hc

theorem eq_nil (h : Threads step l bs cs) (hstep : ∀ a ∈ l, ∀ bs' cs', step a bs' cs' → bs' = []) : bs = [] := by
  induction h with
  | nil => rfl
  | cons h _ ih =>
    rw [hstep _ (List.mem_cons_self ..) _ _ h, ih fun a ha => hstep a (List.mem_cons_of_mem _ ha)]
    rfl

theorem length_eq {β' γ' : Type} {step' : α → List β' → List γ' → Prop} {bs' : List β'} {cs' : List γ'}
    (h : Threads step l bs cs) (h' : Threads step' l bs' cs')
    (hstep : ∀ a ∈ l, ∀ b c b' c', step a b c → step' a b' c' → c.length = c'.length) :
    cs.length = cs'.length := by
  induction h generalizing bs' cs' with
  | nil =>
    cases h'
    rfl
  | cons hfirst _ ih =>
    cases h' with
    | cons hfirst' hrest' =>
      rw [List.length_append, List.length_append, hstep _ (List.mem_cons_self ..) _ _ _ _ hfirst hfirst',
        ih hrest' fun a ha => hstep a (List.mem_cons_of_mem _ ha)]

end Threads

/-! ### What a program adds -/

variable {ε σ α β γ : Type} {out : σ → List γ}

/-- On the way to a value, `c` adds entries to the list, and `Q` holds of the value and these entries. -/
def Appends (out : σ → List γ) (c : EStateM ε σ α) (Q : α → List γ → Prop) : Prop :=
  ∀ s a s', c s = .ok a s' → ∃ new, out s' = out s ++ new ∧ Q a new

namespace Appends

variable {c : EStateM ε σ α} {Q : α → List γ → Prop}

theorem post (h : Appends out c Q) {Q' : α → List γ → Prop} (hQ : ∀ a new, Q a new → Q' a new) :
    Appends out c Q' := by
  intro s a s' hrun
  obtain ⟨new, hnew, hq⟩ := h s a s' hrun
  exact ⟨new, hnew, hQ a new hq⟩

theorem run (h : Appends out c Q) : Appends out c fun a new => Q a new ∧ ∃ s s', c s = .ok a s' := by
  intro s a s' hrun
  obtain ⟨new, hnew, hq⟩ := h s a s' hrun
  exact ⟨new, hnew, hq, s, s', hrun⟩

theorem pure {a : α} (h : Q a []) : Appends out (Pure.pure a : EStateM ε σ α) Q := by
  intro s b s' hrun
  obtain ⟨rfl, rfl⟩ := EStateM.Result.ok.inj hrun
  exact ⟨[], (List.append_nil _).symm, h⟩

theorem throw {e : ε} : Appends out (MonadExcept.throw e : EStateM ε σ α) Q := fun _ _ _ hrun => nomatch hrun

theorem get {Q : σ → List γ → Prop} (h : ∀ s, Q s []) : Appends out (MonadState.get : EStateM ε σ σ) Q := by
  intro s b s' hrun
  obtain ⟨rfl, rfl⟩ := EStateM.Result.ok.inj hrun
  exact ⟨[], (List.append_nil _).symm, h _⟩

theorem bind {f : α → EStateM ε σ β} {Q' : β → List γ → Prop} (hc : Appends out c Q)
    (hf : ∀ a, Appends out (f a) fun b new' => ∀ new, Q a new → Q' b (new ++ new')) :
    Appends out (c >>= f) Q' := by
  intro s b s'' hrun
  change EStateM.bind c f s = _ at hrun
  unfold EStateM.bind at hrun
  cases hfirst : c s with
  | error e s' =>
    rw [hfirst] at hrun
    cases hrun
  | ok a s' =>
    rw [hfirst] at hrun
    obtain ⟨new, hnew, hq⟩ := hc s a s' hfirst
    obtain ⟨new', hnew', hq'⟩ := hf a s' b s'' hrun
    exact ⟨new ++ new', by rw [hnew', hnew, List.append_assoc], hq' new hq⟩

/-- The handler starts where the error was thrown, with what had been added before. -/
theorem tryCatch {handle : ε → EStateM ε σ α} (hc : Appends out c Q)
    (herror : ∀ s e s', c s = .error e s' → out s <+: out s')
    (hh : ∀ e, Appends out (handle e) fun a new' => ∀ new, Q a (new ++ new')) :
    Appends out (MonadExcept.tryCatch c handle) Q := by
  intro s a s'' hrun
  change EStateM.tryCatch c handle s = _ at hrun
  unfold EStateM.tryCatch at hrun
  cases hfirst : c s with
  | ok b s' =>
    rw [hfirst] at hrun
    exact hc s a s'' (hfirst.trans hrun)
  | error e s' =>
    rw [hfirst] at hrun
    obtain ⟨new, hnew⟩ := herror s e s' hfirst
    obtain ⟨new', hnew', hq⟩ := hh e s' a s'' hrun
    exact ⟨new ++ new', by rw [hnew', ← hnew, List.append_assoc], hq new⟩

theorem foldlM {l : List α} {f : List β → α → EStateM ε σ (List β)} {step : α → List β → List γ → Prop}
    (h : ∀ a ∈ l, ∀ bs, Appends out (f bs a) fun bs' new => ∃ added, bs' = bs ++ added ∧ step a added new) :
    ∀ bs, Appends out (l.foldlM f bs) fun bs' new => ∃ added, bs' = bs ++ added ∧ Threads step l added new := by
  induction l with
  | nil => exact fun bs => .pure ⟨[], (List.append_nil _).symm, .nil⟩
  | cons a l ih =>
    intro bs
    rw [List.foldlM_cons]
    refine (h a (List.mem_cons_self ..) bs).bind fun bs₁ => ?_
    refine (ih (fun b hb => h b (List.mem_cons_of_mem _ hb)) bs₁).post ?_
    rintro bs₂ new' ⟨added', rfl, hrest⟩ new ⟨added, rfl, hstep⟩
    exact ⟨added ++ added', List.append_assoc .., .cons hstep hrest⟩

theorem mapM {l : List α} {f : α → EStateM ε σ β} {step : α → List β → List γ → Prop}
    (h : ∀ a ∈ l, Appends out (f a) fun b new => step a [b] new) :
    Appends out (l.mapM f) fun bs new => Threads step l bs new := by
  induction l with
  | nil => exact .pure .nil
  | cons a l ih =>
    rw [List.mapM_cons]
    refine (h a (List.mem_cons_self ..)).bind fun b => ?_
    refine (ih fun a ha => h a (List.mem_cons_of_mem _ ha)).bind fun bs => .pure ?_
    intro new' hrest new hstep
    rw [List.append_nil]
    exact .cons hstep hrest

end Appends

end Siesta.Lib
