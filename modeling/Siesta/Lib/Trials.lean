import Siesta.Lib.Checks
import Siesta.Lib.Growing

/-!
# Trials on a list of errors

A program reports errors into a list, remembers the size of the list, and cuts the list back to a size
it remembers.  The journal of a run keeps, for each cut, the list whose size was remembered and the
list that was cut.  A program `Keeps` the list when, whatever it starts with, it never cuts into what was
there before; then each of its cuts gives back the remembered list (`Keeps.run`).  Keeping is built up
like the program; only a cut needs to know that it stands behind the place where its size was remembered
(`Keeps.remember`, `maintains_resizeTo`).

A program `Performs` a check of `Lib.Checks` when it runs alike, its cuts being the trials of the check.
-/

namespace Siesta.Lib

variable {ε κ δ α β : Type}

/-- One cut: the list whose size it was given, and the list it found. -/
structure Cut (ε : Type) where
  remembered : List ε
  found : List ε

/-- The list that was cut starts with the remembered one. -/
def Cut.Undoes (r : Cut ε) : Prop := r.remembered <+: r.found

/-- What such a cut drops has been added behind the remembered list, and it adds nothing. -/
theorem Cut.Undoes.resize_eq [Inhabited ε] {r : Cut ε} (h : r.Undoes) :
    r.remembered.length ≤ r.found.length ∧ resize r.remembered.length r.found = r.remembered := by
  obtain ⟨added, hadded⟩ := h
  rw [← hadded]
  exact ⟨by simp, resize_append _ _⟩

/-- The state of a run, with its cuts so far. -/
structure Journal (ε κ : Type) where
  errors : List ε
  notes : κ
  cuts : List (Cut ε) := []

instance : Preorder (Journal ε κ) where
  le s s' := s.cuts <+: s'.cuts
  le_refl s := List.prefix_refl _
  le_trans _ _ _ h h' := h.trans h'

/-- Programs on the list, which may end with `δ`. -/
abbrev TrialM (δ ε κ : Type) : Type → Type := EStateM δ (Journal ε κ)

namespace TrialM

/-- `emplace_back`. -/
def emplace_back (e : ε) : TrialM δ ε κ Unit := modify fun s => { s with errors := s.errors ++ [e] }

def note (u : κ → κ) : TrialM δ ε κ Unit := modify fun s => { s with notes := u s.notes }

def notes : TrialM δ ε κ κ := do return (← get).notes

/-- `size()`; what is remembered is the list of that size. -/
def remember : TrialM δ ε κ (List ε) := do return (← get).errors

/-- `size() == remembered`. -/
def sameSize (remembered : List ε) : TrialM δ ε κ Bool := do
  return (← get).errors.length = remembered.length

/-- `size() > remembered`. -/
def grown (remembered : List ε) : TrialM δ ε κ Bool := do
  return (← get).errors.length > remembered.length

/-- `resize(remembered)`. -/
def resizeTo [Inhabited ε] (remembered : List ε) : TrialM δ ε κ Unit := modify fun s =>
  { s with
    errors := resize remembered.length s.errors
    cuts := s.cuts ++ [⟨remembered, s.errors⟩] }

theorem remember_run (s : Journal ε κ) : (remember : TrialM δ ε κ (List ε)) s = .ok s.errors s := rfl

theorem sameSize_run (remembered : List ε) (s : Journal ε κ) :
    (sameSize remembered : TrialM δ ε κ Bool) s = .ok (decide (s.errors.length = remembered.length)) s := rfl

theorem grown_run (remembered : List ε) (s : Journal ε κ) :
    (grown remembered : TrialM δ ε κ Bool) s = .ok (decide (s.errors.length > remembered.length)) s := rfl

theorem resizeTo_run [Inhabited ε] (remembered : List ε) (s : Journal ε κ) :
    (resizeTo remembered : TrialM δ ε κ Unit) s =
      .ok () { s with
        errors := resize remembered.length s.errors
        cuts := s.cuts ++ [⟨remembered, s.errors⟩] } := rfl

theorem bind_of_ok {c : TrialM δ ε κ α} {f : α → TrialM δ ε κ β} {a : α} {s s' : Journal ε κ}
    (h : c s = .ok a s') : (c >>= f) s = f a s' := by
  show EStateM.bind c f s = _
  unfold EStateM.bind
  rw [h]

theorem bind_of_error {c : TrialM δ ε κ α} {f : α → TrialM δ ε κ β} {d : δ} {s s' : Journal ε κ}
    (h : c s = .error d s') : (c >>= f) s = .error d s' := by
  show EStateM.bind c f s = _
  unfold EStateM.bind
  rw [h]

end TrialM

open TrialM

/-! ### Programs that keep the list -/

/-- The list starts with `base`, and every cut so far has given back what was remembered. -/
structure Above (base : List ε) (s : Journal ε κ) : Prop where
  kept : base <+: s.errors
  undone : ∀ r ∈ s.cuts, r.Undoes

/-- Whatever the list starts with, the program does not cut into it. -/
def Keeps (c : TrialM δ ε κ α) : Prop := ∀ base, Maintains (Above base) c fun _ => True

/-- The cut is behind the place where its size was remembered. -/
theorem maintains_resizeTo [Inhabited ε] (remembered : List ε) :
    Maintains (Above remembered) (resizeTo remembered : TrialM δ ε κ Unit) fun _ => True := by
  intro s hs
  refine ⟨List.prefix_append _ _, ⟨?_, ?_⟩, trivial⟩
  · have hcut : (Cut.mk remembered s.errors).Undoes := hs.kept
    show remembered <+: resize remembered.length s.errors
    rw [hcut.resize_eq.2]
  · intro r hr
    rcases List.mem_append.mp hr with hr | hr
    · exact hs.undone r hr
    · obtain rfl := List.mem_singleton.mp hr
      exact hs.kept

namespace Keeps

variable {c : TrialM δ ε κ α} {f : α → TrialM δ ε κ β}

theorem pure (a : α) : Keeps (Pure.pure a : TrialM δ ε κ α) := fun _ => Maintains.pure trivial

theorem throw (d : δ) : Keeps (MonadExcept.throw d : TrialM δ ε κ α) := fun _ => Ensures.throw fun _ hs => hs

theorem bind (hc : Keeps c) (hf : ∀ a, Keeps (f a)) : Keeps (c >>= f) := fun base =>
  Maintains.bind (hc base) fun a _ => hf a base

theorem note (u : κ → κ) : Keeps (TrialM.note u : TrialM δ ε κ Unit) := fun _ _ hs =>
  ⟨List.prefix_refl _, ⟨hs.kept, hs.undone⟩, trivial⟩

theorem notes : Keeps (TrialM.notes : TrialM δ ε κ κ) := fun _ _ hs => ⟨List.prefix_refl _, hs, trivial⟩

theorem sameSize (remembered : List ε) : Keeps (TrialM.sameSize remembered : TrialM δ ε κ Bool) := fun _ _ hs =>
  ⟨List.prefix_refl _, hs, trivial⟩

theorem grown (remembered : List ε) : Keeps (TrialM.grown remembered : TrialM δ ε κ Bool) := fun _ _ hs =>
  ⟨List.prefix_refl _, hs, trivial⟩

/-- What is behind a remembered size may cut back to it. -/
theorem remember {body : List ε → TrialM δ ε κ α}
    (h : ∀ remembered, Maintains (Above remembered) (body remembered) fun _ => True) :
    Keeps (TrialM.remember >>= body) := by
  intro base
  refine Ensures.mk (fun s a s' hs hrun => ?_) fun s d s' hs hrun => ?_
  · have hbody : body s.errors s = .ok a s' := hrun
    obtain ⟨hle, habove, -⟩ := (h s.errors).of_ok ⟨List.prefix_refl _, hs.undone⟩ hbody
    exact ⟨hle, ⟨hs.kept.trans habove.kept, habove.undone⟩, trivial⟩
  · have hbody : body s.errors s = .error d s' := hrun
    obtain ⟨hle, habove⟩ := (h s.errors).of_error ⟨List.prefix_refl _, hs.undone⟩ hbody
    exact ⟨hle, ⟨hs.kept.trans habove.kept, habove.undone⟩⟩

theorem forM {l : List α} {f : α → TrialM δ ε κ Unit} (h : ∀ a ∈ l, Keeps (f a)) : Keeps (l.forM f) := by
  induction l with
  | nil => exact pure ()
  | cons a l ih =>
    have hrest := ih fun b hb => h b (List.mem_cons_of_mem _ hb)
    exact (h a (List.mem_cons_self ..)).bind fun _ => hrest

theorem foldlM {l : List α} {f : β → α → TrialM δ ε κ β} (h : ∀ a ∈ l, ∀ b, Keeps (f b a)) (b : β) :
    Keeps (l.foldlM f b) := by
  intro base
  refine (Maintains.foldlM (J := fun _ => True) (fun a ha b _ => ?_) trivial).post fun _ _ => trivial
  exact h a ha b base

/-- A run keeps what it starts with, and each of its cuts gives back what was remembered. -/
theorem run (h : Keeps c) {errors : List ε} {n : κ} {a : α} {s' : Journal ε κ}
    (hrun : c ⟨errors, n, []⟩ = .ok a s') : errors <+: s'.errors ∧ ∀ r ∈ s'.cuts, r.Undoes := by
  have habove := (Ensures.of_ok (h errors) ⟨List.prefix_refl _, by simp⟩ hrun).2.1
  exact ⟨habove.kept, habove.undone⟩

end Keeps

/-! ### Programs that perform a check -/

section Performs

variable {φ : Type} [Inhabited ε]

def outcome : EStateM.Result (Stop δ) (Journal ε κ) Unit → Except (Stop δ) (Tally ε κ)
  | .ok _ s => .ok ⟨s.errors, s.notes⟩
  | .error stop _ => .error stop

/-- From every state, the program runs like the check with those calls. -/
def Performs (call : φ → Tally ε κ → Except (Stop δ) (Tally ε κ)) (c : TrialM (Stop δ) ε κ Unit)
    (p : Check φ ε κ δ) : Prop :=
  ∀ s, outcome (c s) = p.run call ⟨s.errors, s.notes⟩

namespace Performs

variable {call : φ → Tally ε κ → Except (Stop δ) (Tally ε κ)} {c c' : TrialM (Stop δ) ε κ Unit}
  {p q : Check φ ε κ δ}

theorem done : Performs call (Pure.pure ()) .done := fun _ => rfl

theorem fault (d : δ) : Performs call (MonadExcept.throw (.fault d)) (.fault d) := fun _ => rfl

theorem note (u : κ → κ) : Performs call (TrialM.note u) (.note u) := fun _ => rfl

/-- What follows a program sees the state of the check. -/
theorem outcome_bind (hp : Performs call c p) {f : Unit → TrialM (Stop δ) ε κ Unit} {s : Journal ε κ}
    {next : Tally ε κ → Except (Stop δ) (Tally ε κ)}
    (hf : ∀ s', outcome (f () s') = next ⟨s'.errors, s'.notes⟩) :
    outcome ((c >>= f) s) = (p.run call ⟨s.errors, s.notes⟩).bind next := by
  rw [← hp s]
  show outcome (EStateM.bind c f s) = _
  unfold EStateM.bind
  cases c s with
  | ok a s' => exact hf s'
  | error stop s' => rfl

theorem seq (hp : Performs call c p) (hq : Performs call c' q) : Performs call (c >>= fun _ => c') (.seq p q) :=
  fun _ => outcome_bind hp hq

theorem forM {ι : Type} {f : ι → TrialM (Stop δ) ε κ Unit} {check : ι → Check φ ε κ δ} {l : List ι}
    (h : ∀ i ∈ l, Performs call (f i) (check i)) : Performs call (l.forM f) (.all (l.map check)) := by
  induction l with
  | nil => exact done
  | cons i l ih => exact (h i (List.mem_cons_self ..)).seq (ih fun j hj => h j (List.mem_cons_of_mem _ hj))

theorem skipIf (b : κ → Bool) (hp : Performs call c p) :
    Performs call (TrialM.notes >>= fun n => if b n then Pure.pure () else c) (.skipIf b p) := by
  intro s
  show outcome ((if b s.notes then Pure.pure () else c : TrialM (Stop δ) ε κ Unit) s) =
    if b s.notes then .ok ⟨s.errors, s.notes⟩ else p.run call ⟨s.errors, s.notes⟩
  split
  · rfl
  · exact hp s

/-- A trial: what follows the call goes by the sizes, and drops what a failed one has reported. -/
theorem attempt {f : List ε → Unit → TrialM (Stop δ) ε κ Unit} {k : Bool → Check φ ε κ δ}
    (hp : Performs call c p)
    (hf : ∀ remembered s, outcome (f remembered () s) =
      if s.errors.length = remembered.length then (k true).run call ⟨s.errors, s.notes⟩
      else (k false).run call ⟨resize remembered.length s.errors, s.notes⟩) :
    Performs call (TrialM.remember >>= fun remembered => c >>= f remembered) (.attempt p k) := by
  intro s
  let next (t : Tally ε κ) : Except (Stop δ) (Tally ε κ) :=
    if t.errors.length = s.errors.length then (k true).run call t
    else (k false).run call { t with errors := resize s.errors.length t.errors }
  have hnext : ∀ s', outcome (f s.errors () s') = next ⟨s'.errors, s'.notes⟩ := hf s.errors
  exact outcome_bind hp hnext

end Performs

end Performs

end Siesta.Lib
