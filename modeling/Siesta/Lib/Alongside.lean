import Siesta.Lib.CallChains

/-!
# Two runs at a time

Two checks, each with its own bodies for its calls, are run at the same time.  `Alongside` says to which
parts they come at corresponding points; the calls of two parts that need not keep their order (`loose`)
are paired whatever their order.  `Concurs` says that the one run returns exactly if the other does, and
that then both have reported something or neither has.

The notes of the two runs need have nothing to do with each other.  Where corresponding questions to the
notes are answered alike, or are about parts that pass anyway, and the bodies of corresponding calls do the
same as far as their calls do (`Likewise`), the runs concur (`concurs_of_likewise`).
-/

namespace Siesta.Lib

variable {φ ε κ δ : Type}

structure Point (φ ε κ δ : Type) where
  check : Check φ ε κ δ
  state : Tally ε κ

variable [Inhabited ε] {body body' : φ → Check φ ε κ δ}

/-- How it goes on after a trial: with which answer, and in which state. -/
def afterTrial (t v : Tally ε κ) : Bool × Tally ε κ :=
  if v.errors.length = t.errors.length then (true, v)
  else (false, { v with errors := resize t.errors.length v.errors })

theorem length_afterTrial (t v : Tally ε κ) : (afterTrial t v).2.errors.length = t.errors.length := by
  unfold afterTrial
  split
  · assumption
  · simp only [resize, List.length_append, List.length_take, List.length_replicate]
    omega

theorem afterTrial_fst {t v : Tally ε κ} : (afterTrial t v).1 = true ↔ v.errors.length = t.errors.length := by
  unfold afterTrial
  split <;> simp [*]

section Steps

variable {call : φ → Tally ε κ → Except (Stop δ) (Tally ε κ)} {p q : Check φ ε κ δ} {t w : Tally ε κ}

theorem seq_eq_ok :
    (Check.seq p q).run call t = .ok w ↔ ∃ v, p.run call t = .ok v ∧ q.run call v = .ok w := by
  rw [Check.run]
  cases p.run call t with
  | error s => simp [bind, Except.bind]
  | ok v => simp [bind, Except.bind]

theorem attempt_eq_ok {k : Bool → Check φ ε κ δ} : (Check.attempt p k).run call t = .ok w ↔
    ∃ v, p.run call t = .ok v ∧ (k (afterTrial t v).1).run call (afterTrial t v).2 = .ok w := by
  rw [Check.run]
  cases p.run call t with
  | error s => simp [bind, Except.bind]
  | ok v =>
    have hstep : (if v.errors.length = t.errors.length then (k true).run call v
        else (k false).run call { v with errors := resize t.errors.length v.errors }) =
        (k (afterTrial t v).1).run call (afterTrial t v).2 := by
      unfold afterTrial
      split <;> rfl
    simp [bind, Except.bind, hstep]

theorem settles_attempt_iff {k : Bool → Check φ ε κ δ} : Settles body (.attempt p k) t w ↔
    ∃ v, Settles body p t v ∧ Settles body (k (afterTrial t v).1) (afterTrial t v).2 w := by
  constructor
  · rintro ⟨depth, h⟩
    obtain ⟨v, hp, hk⟩ := attempt_eq_ok.mp h
    exact ⟨v, ⟨depth, hp⟩, depth, hk⟩
  · rintro ⟨v, ⟨d₁, hp⟩, d₂, hk⟩
    exact ⟨max d₁ d₂, attempt_eq_ok.mpr ⟨v, Check.run_mono (Nat.le_max_left ..) hp,
      Check.run_mono (Nat.le_max_right ..) hk⟩⟩

end Steps

/-- A sequence of checks that pass in every state passes. -/
theorem passes_all {ps : List (Check φ ε κ δ)} (h : ∀ p ∈ ps, ∀ t, Passes body p t) (t : Tally ε κ) :
    Passes body (.all ps) t := by
  induction ps generalizing t with
  | nil => exact ⟨t, Settles.done_iff.mpr rfl, rfl⟩
  | cons p ps ih =>
    obtain ⟨v, hv, hsame⟩ := h p (List.mem_cons_self ..) t
    exact passes_seq_iff.mpr ⟨v, hv, hsame, ih (fun q hq => h q (List.mem_cons_of_mem _ hq)) v⟩

theorem passes_skipIf {g : κ → Bool} {p : Check φ ε κ δ} {t : Tally ε κ} (h : Passes body p t) :
    Passes body (.skipIf g p) t := by
  cases hg : g t.notes with
  | true => exact ⟨t, ⟨0, by rw [Check.run, hg]; rfl⟩, rfl⟩
  | false =>
    obtain ⟨v, hv, hsame⟩ := h
    exact ⟨v, (Settles.skipIf_iff hg).mpr hv, hsame⟩

/-- A trial that passes goes on with `true`. -/
theorem passes_attempt {p : Check φ ε κ δ} {k : Bool → Check φ ε κ δ} {t : Tally ε κ} (h : Passes body p t)
    (hk : ∀ v, Passes body (k true) v) : Passes body (.attempt p k) t := by
  obtain ⟨v, hv, hsame⟩ := h
  obtain ⟨w, hw, hsame'⟩ := hk v
  exact ⟨w, Settles.attempt_iff.mpr ⟨v, hv, .inl ⟨hsame, hw⟩⟩, hsame'.trans hsame⟩

/-- All checks of a sequence are to be skipped in the state in which it begins. -/
def Skipped (ps : List (Check φ ε κ δ)) (t : Tally ε κ) : Prop :=
  ∀ p ∈ ps, ∃ g q, p = .skipIf g q ∧ g t.notes = true

/-- A sequence of checks that are all skipped passes. -/
theorem passes_all_skipped {ps : List (Check φ ε κ δ)} {t : Tally ε κ} (h : Skipped ps t) :
    Passes body (.all ps) t := by
  induction ps with
  | nil => exact ⟨t, Settles.done_iff.mpr rfl, rfl⟩
  | cons p ps ih =>
    obtain ⟨g, q, rfl, hg⟩ := h p (List.mem_cons_self ..)
    have hskipped : Settles body (.skipIf g q) t t := ⟨0, by rw [Check.run, hg]; rfl⟩
    exact passes_seq_iff.mpr ⟨t, hskipped, rfl, ih fun r hr => h r (List.mem_cons_of_mem _ hr)⟩

/-! ### Corresponding points -/

/-- The runs of two checks from two states come to two others at corresponding points. -/
inductive Alongside (body body' : φ → Check φ ε κ δ) (loose : Check φ ε κ δ → Check φ ε κ δ → Prop) :
    Point φ ε κ δ → Point φ ε κ δ → Point φ ε κ δ → Point φ ε κ δ → Prop
  | here {a a' : Point φ ε κ δ} : Alongside body body' loose a a' a a'
  | seqLeft {p q p' q' : Check φ ε κ δ} {t t' : Tally ε κ} {b b' : Point φ ε κ δ}
      (h : Alongside body body' loose ⟨p, t⟩ ⟨p', t'⟩ b b') :
      Alongside body body' loose ⟨.seq p q, t⟩ ⟨.seq p' q', t'⟩ b b'
  | seqRight {p q p' q' : Check φ ε κ δ} {t t' v v' : Tally ε κ} {b b' : Point φ ε κ δ}
      (hp : Settles body p t v) (hp' : Settles body' p' t' v')
      (h : Alongside body body' loose ⟨q, v⟩ ⟨q', v'⟩ b b') :
      Alongside body body' loose ⟨.seq p q, t⟩ ⟨.seq p' q', t'⟩ b b'
  | tried {p p' : Check φ ε κ δ} {k k' : Bool → Check φ ε κ δ} {t t' : Tally ε κ} {b b' : Point φ ε κ δ}
      (h : Alongside body body' loose ⟨p, t⟩ ⟨p', t'⟩ b b') :
      Alongside body body' loose ⟨.attempt p k, t⟩ ⟨.attempt p' k', t'⟩ b b'
  | after {p p' : Check φ ε κ δ} {k k' : Bool → Check φ ε κ δ} {t t' v v' : Tally ε κ} {b b' : Point φ ε κ δ}
      (hp : Settles body p t v) (hp' : Settles body' p' t' v') (hsame : (afterTrial t v).1 = (afterTrial t' v').1)
      (h : Alongside body body' loose ⟨k (afterTrial t v).1, (afterTrial t v).2⟩
        ⟨k' (afterTrial t' v').1, (afterTrial t' v').2⟩ b b') :
      Alongside body body' loose ⟨.attempt p k, t⟩ ⟨.attempt p' k', t'⟩ b b'
  | guarded {g g' : κ → Bool} {p p' : Check φ ε κ δ} {t t' : Tally ε κ} {b b' : Point φ ε κ δ}
      (hg : g t.notes = false) (hg' : g' t'.notes = false)
      (h : Alongside body body' loose ⟨p, t⟩ ⟨p', t'⟩ b b') :
      Alongside body body' loose ⟨.skipIf g p, t⟩ ⟨.skipIf g' p', t'⟩ b b'
  | loosely {p p' : Check φ ε κ δ} {t t' v v' : Tally ε κ} {f f' : φ} (hloose : loose p p')
      (h : Enters body p t f v) (h' : Enters body' p' t' f' v') :
      Alongside body body' loose ⟨p, t⟩ ⟨p', t'⟩ ⟨.call f, v⟩ ⟨.call f', v'⟩

variable {loose : Check φ ε κ δ → Check φ ε κ δ → Prop} {R : φ → φ → Prop} {depth : ℕ}

/-- The calls in two loose parts correspond, wherever these stand. -/
theorem Alongside.calls {a a' b b' : Point φ ε κ δ} (h : Alongside body body' loose a a' b b')
    (hloose : loose b.check b'.check) {f f' : φ} {v v' : Tally ε κ} (hf : Enters body b.check b.state f v)
    (hf' : Enters body' b'.check b'.state f' v') :
    Alongside body body' loose a a' ⟨.call f, v⟩ ⟨.call f', v'⟩ := by
  induction h with
  | here => exact .loosely hloose hf hf'
  | seqLeft _ ih => exact .seqLeft (ih hloose hf hf')
  | seqRight hp hp' _ ih => exact .seqRight hp hp' (ih hloose hf hf')
  | tried _ ih => exact .tried (ih hloose hf hf')
  | after hp hp' hsame _ ih => exact .after hp hp' hsame (ih hloose hf hf')
  | guarded hg hg' _ ih => exact .guarded hg hg' (ih hloose hf hf')
  | loosely hloose' h h' =>
    cases hf with
    | call =>
      cases hf' with
      | call => exact .loosely hloose' h h'

theorem Alongside.swap {a a' b b' : Point φ ε κ δ} (h : Alongside body body' loose a a' b b') :
    Alongside body' body (Function.swap loose) a' a b' b := by
  induction h with
  | here => exact .here
  | seqLeft _ ih => exact .seqLeft ih
  | seqRight hp hp' _ ih => exact .seqRight hp' hp ih
  | tried _ ih => exact .tried ih
  | after hp hp' hsame _ ih => exact .after hp' hp hsame.symm ih
  | guarded hg hg' _ ih => exact .guarded hg' hg ih
  | loosely hloose h h' => exact .loosely hloose h' h

/-- The calls a run comes to in a part of its check are calls it comes to. -/
theorem Alongside.enters {a a' b b' : Point φ ε κ δ} (h : Alongside body body' loose a a' b b') {f : φ}
    {u : Tally ε κ} (hf : Enters body b.check b.state f u) : Enters body a.check a.state f u := by
  induction h with
  | here => exact hf
  | seqLeft _ ih => exact .seqLeft (ih hf)
  | seqRight hp _ _ ih => exact .seqRight hp (ih hf)
  | tried _ ih => exact .tried (ih hf)
  | @after p p' k k' t t' v v' b b' hp hp' hsame _ ih =>
    have hk := ih hf
    by_cases hpassed : v.errors.length = t.errors.length
    · have hafter : afterTrial t v = (true, v) := if_pos hpassed
      rw [hafter] at hk
      exact .passed hp hpassed hk
    · have hafter : afterTrial t v = (false, { v with errors := resize t.errors.length v.errors }) :=
        if_neg hpassed
      rw [hafter] at hk
      exact .failed hp hpassed hk
  | guarded hg _ _ ih => exact .guarded hg (ih hf)
  | loosely _ h _ =>
    cases hf with
    | call => exact h

/-! ### Sequences that are skipped -/

theorem Skipped.settles {p : Check φ ε κ δ} {ps : List (Check φ ε κ δ)} {t v : Tally ε κ} (h : Skipped (p :: ps) t)
    (hv : Settles body p t v) : v = t := by
  obtain ⟨g, q, rfl, hg⟩ := h _ (List.mem_cons_self ..)
  exact hv.unique ⟨0, by rw [Check.run, hg]; rfl⟩

theorem Skipped.not_enters {ps : List (Check φ ε κ δ)} {t v : Tally ε κ} (h : Skipped ps t) {f : φ} :
    ¬ Enters body (.all ps) t f v := by
  intro hf
  induction ps with
  | nil => cases hf
  | cons p ps ih =>
    cases hf with
    | seqLeft hf =>
      obtain ⟨g, q, rfl, hg⟩ := h _ (List.mem_cons_self ..)
      cases hf with
      | guarded hg' _ => exact absurd hg (by rw [hg']; decide)
    | seqRight hp hf =>
      obtain rfl := h.settles hp
      exact ih (fun q hq => h q (List.mem_cons_of_mem _ hq)) hf

theorem Skipped.answer {ps : List (Check φ ε κ δ)} {t v : Tally ε κ} (h : Skipped ps t) {g : κ → Bool}
    {p : Check φ ε κ δ} {a' b' : Point φ ε κ δ}
    (halong : Alongside body body' loose ⟨.all ps, t⟩ a' ⟨.skipIf g p, v⟩ b') : g v.notes = true := by
  induction ps generalizing a' with
  | nil => cases halong
  | cons q ps ih =>
    cases halong with
    | seqLeft halong =>
      obtain ⟨g', q, rfl, hg⟩ := h _ (List.mem_cons_self ..)
      cases halong with
      | here => exact hg
      | guarded hg' _ _ => exact absurd hg (by rw [hg']; decide)
    | seqRight hp _ halong =>
      obtain rfl := h.settles hp
      exact ih (fun q hq => h q (List.mem_cons_of_mem _ hq)) halong

/-! ### Corresponding calls -/

/-- The calls to which two runs come together, from corresponding ones on. -/
inductive Together (body body' : φ → Check φ ε κ δ) (loose : Check φ ε κ δ → Check φ ε κ δ → Prop)
    (R : φ → φ → Prop) (a a' : φ × Tally ε κ) : φ × Tally ε κ → φ × Tally ε κ → Prop
  | start : Together body body' loose R a a' a a'
  | step {b b' c c' : φ × Tally ε κ} (h : Together body body' loose R a a' b b')
      (hcalls : Alongside body body' loose ⟨body b.1, b.2⟩ ⟨body' b'.1, b'.2⟩ ⟨.call c.1, c.2⟩ ⟨.call c'.1, c'.2⟩)
      (hR : R c.1 c'.1) : Together body body' loose R a a' c c'

theorem Together.calls {R : φ → φ → Prop} {a a' b b' : φ × Tally ε κ} (h : Together body body' loose R a a' b b') :
    Relation.ReflTransGen (Calls body) a b ∧ Relation.ReflTransGen (Calls body') a' b' := by
  induction h with
  | start => exact ⟨.refl, .refl⟩
  | step _ hcalls _ ih => exact ⟨ih.1.tail (hcalls.enters .call), ih.2.tail (hcalls.swap.enters .call)⟩

/-! ### Runs that concur -/

/-- If the first run returns, the second one does, and both have reported something or neither has. -/
def Follows (body body' : φ → Check φ ε κ δ) (depth : ℕ) (a a' : Point φ ε κ δ) : Prop :=
  ∀ w, a.check.run (runCalls body depth) a.state = .ok w → ∃ w', Settles body' a'.check a'.state w' ∧
    (w.errors.length = a.state.errors.length ↔ w'.errors.length = a'.state.errors.length)

/-- The one run returns if the other does, and both have reported something or neither has. -/
def Concurs (body body' : φ → Check φ ε κ δ) (depth : ℕ) (a a' : Point φ ε κ δ) : Prop :=
  Follows body body' depth a a' ∧ Follows body' body depth a' a

theorem Concurs.of_passes {p p' : Check φ ε κ δ} {t t' : Tally ε κ} (h : Passes body p t) (h' : Passes body' p' t') :
    Concurs body body' depth ⟨p, t⟩ ⟨p', t'⟩ := by
  obtain ⟨v, hv, hsame⟩ := h
  obtain ⟨v', hv', hsame'⟩ := h'
  refine ⟨fun w hrun => ⟨v', hv', ?_⟩, fun w' hrun => ⟨v, hv, ?_⟩⟩
  · obtain rfl := hv.unique ⟨depth, hrun⟩
    simp [hsame, hsame']
  · obtain rfl := hv'.unique ⟨depth, hrun⟩
    simp [hsame, hsame']

namespace Follows

variable {p q p' q' : Check φ ε κ δ} {t t' : Tally ε κ}

theorem seq (hp : Follows body body' depth ⟨p, t⟩ ⟨p', t'⟩)
    (hq : ∀ v v', Settles body p t v → Settles body' p' t' v' → Follows body body' depth ⟨q, v⟩ ⟨q', v'⟩) :
    Follows body body' depth ⟨.seq p q, t⟩ ⟨.seq p' q', t'⟩ := by
  intro w hrun
  obtain ⟨v, hv, hw⟩ := seq_eq_ok.mp hrun
  obtain ⟨v', hv', hsame⟩ := hp v hv
  obtain ⟨w', hw', hsame'⟩ := hq v v' ⟨depth, hv⟩ hv' w hw
  refine ⟨w', Settles.seq_iff.mpr ⟨v', hv', hw'⟩, ?_⟩
  -- what has been reported first is still there
  have hle := (show Settles body p t v from ⟨depth, hv⟩).grows.length_le
  have hle₁ := (show Settles body q v w from ⟨depth, hw⟩).grows.length_le
  have hle' := hv'.grows.length_le
  have hle₁' := hw'.grows.length_le
  dsimp only at *
  omega

theorem attempt {k k' : Bool → Check φ ε κ δ} (hp : Follows body body' depth ⟨p, t⟩ ⟨p', t'⟩)
    (hk : ∀ v v', Settles body p t v → Settles body' p' t' v' → (afterTrial t v).1 = (afterTrial t' v').1 →
      Follows body body' depth ⟨k (afterTrial t v).1, (afterTrial t v).2⟩
        ⟨k' (afterTrial t' v').1, (afterTrial t' v').2⟩) :
    Follows body body' depth ⟨.attempt p k, t⟩ ⟨.attempt p' k', t'⟩ := by
  intro w hrun
  obtain ⟨v, hv, hw⟩ := attempt_eq_ok.mp hrun
  obtain ⟨v', hv', hsame⟩ := hp v hv
  have hanswer : (afterTrial t v).1 = (afterTrial t' v').1 := by
    rw [Bool.eq_iff_iff, afterTrial_fst, afterTrial_fst]
    exact hsame
  obtain ⟨w', hw', hsame'⟩ := hk v v' ⟨depth, hv⟩ hv' hanswer w hw
  refine ⟨w', settles_attempt_iff.mpr ⟨v', hv', hw'⟩, ?_⟩
  simpa only [length_afterTrial] using hsame'

theorem skipIf {g g' : κ → Bool} (hg : g t.notes = g' t'.notes)
    (hp : g t.notes = false → g' t'.notes = false → Follows body body' depth ⟨p, t⟩ ⟨p', t'⟩) :
    Follows body body' depth ⟨.skipIf g p, t⟩ ⟨.skipIf g' p', t'⟩ := by
  intro w hrun
  cases hb : g t.notes with
  | true =>
    rw [Check.run, hb] at hrun
    obtain rfl := Except.ok.inj hrun
    refine ⟨t', ⟨0, ?_⟩, by simp⟩
    rw [Check.run, ← hg, hb]
    rfl
  | false =>
    rw [Check.run, hb] at hrun
    have hb' : g' t'.notes = false := hg ▸ hb
    obtain ⟨w', hw', hsame⟩ := hp hb hb' w hrun
    exact ⟨w', (Settles.skipIf_iff hb').mpr hw', hsame⟩

theorem call {f f' : φ} (h : Follows body body' depth ⟨body f, t⟩ ⟨body' f', t'⟩) :
    Follows body body' (depth + 1) ⟨.call f, t⟩ ⟨.call f', t'⟩ := by
  intro w hrun
  obtain ⟨w', hw', hsame⟩ := h w hrun
  exact ⟨w', Settles.call_iff.mpr hw', hsame⟩

end Follows

/-! ### Calls in any order -/

section Lists

variable {l l' : List φ} {t t' w : Tally ε κ}

abbrev callAll (l : List φ) : Check φ ε κ δ := .all (l.map .call)

/-- The run of a list comes to each call in it. -/
theorem exists_enters_callAll (h : Settles body (callAll l) t w) {f : φ} (hf : f ∈ l) :
    ∃ v, Enters body (callAll l) t f v := by
  induction l generalizing t with
  | nil => cases hf
  | cons g l ih =>
    rcases List.mem_cons.mp hf with rfl | hf
    · exact ⟨t, .seqLeft .call⟩
    · obtain ⟨v, hg, hl⟩ := Settles.seq_iff.mp h
      obtain ⟨v', hv'⟩ := ih hl hf
      exact ⟨v', .seqRight hg hv'⟩

theorem mem_of_enters_callAll {f : φ} {v : Tally ε κ} (h : Enters body (callAll l) t f v) : f ∈ l := by
  induction l generalizing t with
  | nil => cases h
  | cons g l ih =>
    cases h with
    | seqLeft h =>
      cases h with
      | call => exact List.mem_cons_self ..
    | seqRight _ h => exact List.mem_cons_of_mem _ (ih h)

/-- Where each call that a run comes to returns, the list does. -/
theorem exists_settles_callAll
    (h : ∀ f v, Enters body (callAll l) t f v → ∃ v', Settles body (.call f) v v') :
    ∃ w, Settles body (callAll l) t w := by
  induction l generalizing t with
  | nil => exact ⟨t, Settles.done_iff.mpr rfl⟩
  | cons g l ih =>
    obtain ⟨v, hv⟩ := h g t (.seqLeft .call)
    obtain ⟨w, hw⟩ := ih fun f v' hf => h f v' (.seqRight hv hf)
    exact ⟨w, Settles.seq_iff.mpr ⟨v, hv, hw⟩⟩

/-- A list reports nothing if none of its calls does. -/
theorem length_callAll_iff (h : Settles body (callAll l) t w) : w.errors.length = t.errors.length ↔
    ∀ f v v', Enters body (callAll l) t f v → Settles body (.call f) v v' →
      v'.errors.length = v.errors.length := by
  induction l generalizing t with
  | nil =>
    obtain rfl := Settles.done_iff.mp h
    exact iff_of_true rfl fun f v v' hf => nomatch hf
  | cons g l ih =>
    obtain ⟨v, hg, hl⟩ := Settles.seq_iff.mp h
    have hle := hg.grows.length_le
    have hle' := hl.grows.length_le
    constructor
    · intro hsame f u u' hf hu
      cases hf with
      | seqLeft hf =>
        cases hf with
        | call =>
          obtain rfl := hg.unique hu
          omega
      | seqRight hg' hf =>
        obtain rfl := hg.unique hg'
        exact (ih hl).mp (by omega) f u u' hf hu
    · intro hall
      have hhead := hall g t v (.seqLeft .call) hg
      have hrest := (ih hl).mpr fun f u u' hf hu => hall f u u' (.seqRight hg hf) hu
      omega

/-- A list that returns at a depth makes calls that return there. -/
theorem call_of_run_callAll (h : (callAll l).run (runCalls body depth) t = .ok w) {f : φ} {v : Tally ε κ}
    (hf : Enters body (callAll l) t f v) : ∃ v', runCalls body depth f v = .ok v' := by
  induction l generalizing t with
  | nil => cases hf
  | cons g l ih =>
    obtain ⟨u, hg, hl⟩ := seq_eq_ok.mp h
    cases hf with
    | seqLeft hf =>
      cases hf with
      | call => exact ⟨u, hg⟩
    | seqRight hg' hf =>
      obtain rfl := (show Settles body (.call g) t u from ⟨depth, hg⟩).unique hg'
      exact ih hl hf

/-- Each call of the first list has a partner in the second one, or does nothing where it is made. -/
def Partnered (R : φ → φ → Prop) (body : φ → Check φ ε κ δ) (l l' : List φ) (t : Tally ε κ) : Prop :=
  ∀ f ∈ l, (∃ f' ∈ l', R f f') ∨ ∀ v, Enters body (callAll l) t f v → Settles body (.call f) v v

/-- Lists of partners follow each other, whatever their order. -/
theorem follows_callAll (h : Partnered R body l l' t) (h' : Partnered (Function.swap R) body' l' l t')
    (hcalls : ∀ f f' v v', Enters body (callAll l) t f v → Enters body' (callAll l') t' f' v' → R f f' →
      Follows body body' depth ⟨.call f, v⟩ ⟨.call f', v'⟩) :
    Follows body body' depth ⟨callAll l, t⟩ ⟨callAll l', t'⟩ := by
  intro w hrun
  have hsettles : Settles body (callAll l) t w := ⟨depth, hrun⟩
  -- every call of the second list returns as its partner, or as it does nothing
  have hreturns : ∀ f' v', Enters body' (callAll l') t' f' v' →
      ∃ u', Settles body' (.call f') v' u' ∧ (w.errors.length = t.errors.length →
        u'.errors.length = v'.errors.length) := by
    intro f' v' hf'
    rcases h' f' (mem_of_enters_callAll hf') with ⟨f, hf, hR⟩ | hidle
    · obtain ⟨v, hv⟩ := exists_enters_callAll hsettles hf
      obtain ⟨u, hu⟩ := call_of_run_callAll hrun hv
      obtain ⟨u', hu', hsame⟩ := hcalls f f' v v' hv hf' hR u hu
      exact ⟨u', hu', fun hw => hsame.mp ((length_callAll_iff hsettles).mp hw f v u hv ⟨depth, hu⟩)⟩
    · exact ⟨v', hidle v' hf', fun _ => rfl⟩
  obtain ⟨w', hw'⟩ := exists_settles_callAll fun f' v' hf' => (hreturns f' v' hf').imp fun _ => And.left
  refine ⟨w', hw', ⟨fun hsame => ?_, fun hsame => ?_⟩⟩
  · refine (length_callAll_iff hw').mpr fun f' v' u' hf' hu' => ?_
    obtain ⟨u₁', hu₁', hnone⟩ := hreturns f' v' hf'
    obtain rfl := hu'.unique hu₁'
    exact hnone hsame
  · refine (length_callAll_iff hsettles).mpr fun f v u hf hu => ?_
    rcases h f (mem_of_enters_callAll hf) with ⟨f', hf', hR⟩ | hidle
    · obtain ⟨v', hv'⟩ := exists_enters_callAll hw' hf'
      obtain ⟨u₁, hu₁⟩ := call_of_run_callAll hrun hf
      obtain ⟨u', hu', hiff⟩ := hcalls f f' v v' hf hv' hR u₁ hu₁
      obtain rfl := (show Settles body (.call f) v u₁ from ⟨depth, hu₁⟩).unique hu
      exact hiff.mpr ((length_callAll_iff hw').mp hsame f' v' u' hv' hu')
    · obtain rfl := (hidle v hf).unique hu
      rfl

theorem concurs_callAll (h : Partnered R body l l' t) (h' : Partnered (Function.swap R) body' l' l t')
    (hcalls : ∀ f f' v v', Enters body (callAll l) t f v → Enters body' (callAll l') t' f' v' → R f f' →
      Concurs body body' depth ⟨.call f, v⟩ ⟨.call f', v'⟩) :
    Concurs body body' depth ⟨callAll l, t⟩ ⟨callAll l', t'⟩ :=
  ⟨follows_callAll h h' fun f f' v v' hf hf' hR => (hcalls f f' v v' hf hf' hR).1,
    follows_callAll h' h fun f' f v' v hf' hf hR => (hcalls f f' v v' hf hf' hR).2⟩

end Lists

/-! ### Checks that do the same but for their calls -/

/-- What two runs have to meet from corresponding points on: their questions are answered alike, or about parts
that pass anyway, the calls that `R` relates concur, and so do the loose parts. -/
structure Premises (body body' : φ → Check φ ε κ δ) (loose : Check φ ε κ δ → Check φ ε κ δ → Prop)
    (R : φ → φ → Prop) (depth : ℕ) (a a' : Point φ ε κ δ) : Prop where
  answers : ∀ g g' p p' v v', Alongside body body' loose a a' ⟨.skipIf g p, v⟩ ⟨.skipIf g' p', v'⟩ →
    g v.notes = g' v'.notes ∨ Passes body p v ∧ Passes body' p' v'
  calls : ∀ f f' v v', Alongside body body' loose a a' ⟨.call f, v⟩ ⟨.call f', v'⟩ → R f f' →
    Concurs body body' depth ⟨.call f, v⟩ ⟨.call f', v'⟩
  parts : ∀ p p' v v', loose p p' → Alongside body body' loose a a' ⟨p, v⟩ ⟨p', v'⟩ →
    Concurs body body' depth ⟨p, v⟩ ⟨p', v'⟩

theorem Premises.of_alongside {a a' b b' : Point φ ε κ δ} (h : Premises body body' loose R depth a a')
    (hstep : ∀ {c c'}, Alongside body body' loose b b' c c' → Alongside body body' loose a a' c c') :
    Premises body body' loose R depth b b' :=
  ⟨fun g g' p p' v v' hc => h.answers g g' p p' v v' (hstep hc), fun f f' v v' hc => h.calls f f' v v' (hstep hc),
    fun p p' v v' hloose hc => h.parts p p' v v' hloose (hstep hc)⟩

/-- A run comes to parts of its check only. -/
theorem Alongside.over {Q : φ → Prop} {N : (κ → κ) → Prop} {G : (κ → Bool) → Prop} {a a' b b' : Point φ ε κ δ}
    (h : Alongside body body' loose a a' b b') (ha : a.check.Over Q N G) : b.check.Over Q N G := by
  induction h with
  | here => exact ha
  | seqLeft _ ih => exact ih ha.1
  | seqRight _ _ _ ih => exact ih ha.2
  | tried _ ih => exact ih ha.1
  | after _ _ _ _ ih => exact ih (ha.2 _)
  | guarded _ _ _ ih => exact ih ha.2
  | loosely _ h _ => exact h.over ha

/-- The runs concur, if they meet the premises. -/
def Likewise (body body' : φ → Check φ ε κ δ) (loose : Check φ ε κ δ → Check φ ε κ δ → Prop)
    (R : φ → φ → Prop) (depth : ℕ) (a a' : Point φ ε κ δ) : Prop :=
  Premises body body' loose R depth a a' → Concurs body body' depth a a'

namespace Likewise

variable {p q p' q' : Check φ ε κ δ} {t t' : Tally ε κ}

theorem done : Likewise body body' loose R depth ⟨.done, t⟩ ⟨.done, t'⟩ := by
  refine fun _ => ⟨fun w hrun => ⟨t', ⟨0, rfl⟩, ?_⟩, fun w hrun => ⟨t, ⟨0, rfl⟩, ?_⟩⟩ <;>
    · obtain rfl := Except.ok.inj hrun
      simp

theorem report (e e' : ε) : Likewise body body' loose R depth ⟨.report e, t⟩ ⟨.report e', t'⟩ := by
  refine fun _ => ⟨fun w hrun => ⟨_, ⟨0, rfl⟩, ?_⟩, fun w hrun => ⟨_, ⟨0, rfl⟩, ?_⟩⟩ <;>
    · obtain rfl := Except.ok.inj hrun
      simp

theorem fault (d d' : δ) : Likewise body body' loose R depth ⟨.fault d, t⟩ ⟨.fault d', t'⟩ :=
  fun _ => ⟨fun _ hrun => (nomatch hrun), fun _ hrun => (nomatch hrun)⟩

theorem note (u u' : κ → κ) : Likewise body body' loose R depth ⟨.note u, t⟩ ⟨.note u', t'⟩ := by
  refine fun _ => ⟨fun w hrun => ⟨_, ⟨0, rfl⟩, ?_⟩, fun w hrun => ⟨_, ⟨0, rfl⟩, ?_⟩⟩ <;>
    · obtain rfl := Except.ok.inj hrun
      simp

theorem call {f f' : φ} (h : R f f') : Likewise body body' loose R depth ⟨.call f, t⟩ ⟨.call f', t'⟩ :=
  fun hpremises => hpremises.calls f f' t t' .here h

theorem part (h : loose p p') : Likewise body body' loose R depth ⟨p, t⟩ ⟨p', t'⟩ :=
  fun hpremises => hpremises.parts p p' t t' h .here

theorem seq (hp : Likewise body body' loose R depth ⟨p, t⟩ ⟨p', t'⟩)
    (hq : ∀ v v', Settles body p t v → Settles body' p' t' v' →
      Likewise body body' loose R depth ⟨q, v⟩ ⟨q', v'⟩) :
    Likewise body body' loose R depth ⟨.seq p q, t⟩ ⟨.seq p' q', t'⟩ := by
  intro hpremises
  have hp := hp (hpremises.of_alongside .seqLeft)
  have hq := fun v v' hv hv' => hq v v' hv hv' (hpremises.of_alongside (.seqRight hv hv'))
  exact ⟨hp.1.seq fun v v' hv hv' => (hq v v' hv hv').1, hp.2.seq fun v' v hv' hv => (hq v v' hv hv').2⟩

theorem attempt {k k' : Bool → Check φ ε κ δ} (hp : Likewise body body' loose R depth ⟨p, t⟩ ⟨p', t'⟩)
    (hk : ∀ v v', Settles body p t v → Settles body' p' t' v' → (afterTrial t v).1 = (afterTrial t' v').1 →
      Likewise body body' loose R depth ⟨k (afterTrial t v).1, (afterTrial t v).2⟩
        ⟨k' (afterTrial t' v').1, (afterTrial t' v').2⟩) :
    Likewise body body' loose R depth ⟨.attempt p k, t⟩ ⟨.attempt p' k', t'⟩ := by
  intro hpremises
  have hp := hp (hpremises.of_alongside .tried)
  have hk := fun v v' hv hv' hsame => hk v v' hv hv' hsame (hpremises.of_alongside (.after hv hv' hsame))
  exact ⟨hp.1.attempt fun v v' hv hv' hsame => (hk v v' hv hv' hsame).1,
    hp.2.attempt fun v' v hv' hv hsame => (hk v v' hv hv' hsame.symm).2⟩

theorem attempt_any {k k' : Bool → Check φ ε κ δ} (hp : Likewise body body' loose R depth ⟨p, t⟩ ⟨p', t'⟩)
    (hk : ∀ x v v', Likewise body body' loose R depth ⟨k x, v⟩ ⟨k' x, v'⟩) :
    Likewise body body' loose R depth ⟨.attempt p k, t⟩ ⟨.attempt p' k', t'⟩ :=
  hp.attempt fun _ _ _ _ hsame => hsame ▸ hk _ _ _

theorem skipIf {g g' : κ → Bool}
    (hp : g t.notes = false → g' t'.notes = false → Likewise body body' loose R depth ⟨p, t⟩ ⟨p', t'⟩) :
    Likewise body body' loose R depth ⟨.skipIf g p, t⟩ ⟨.skipIf g' p', t'⟩ := by
  intro hpremises
  have hp := fun hb hb' => hp hb hb' (hpremises.of_alongside (.guarded hb hb'))
  rcases hpremises.answers g g' p p' t t' .here with hg | ⟨hpass, hpass'⟩
  · exact ⟨.skipIf hg fun hb hb' => (hp hb hb').1, .skipIf hg.symm fun hb' hb => (hp hb hb').2⟩
  · exact .of_passes (passes_skipIf hpass) (passes_skipIf hpass')

theorem all {ι ι' : Type} {check : ι → Check φ ε κ δ} {check' : ι' → Check φ ε κ δ} {l : List ι} {l' : List ι'}
    (h : List.Forall₂ (fun i i' => ∀ v v', Likewise body body' loose R depth ⟨check i, v⟩ ⟨check' i', v'⟩) l l') :
    ∀ t t', Likewise body body' loose R depth ⟨.all (l.map check), t⟩ ⟨.all (l'.map check'), t'⟩ := by
  induction h with
  | nil => exact fun _ _ => .done
  | cons h _ ih => exact fun t t' => (h t t').seq fun _ _ _ _ => ih _ _

theorem all_same {ι : Type} {check check' : ι → Check φ ε κ δ} {l : List ι}
    (h : ∀ i ∈ l, ∀ v v', Likewise body body' loose R depth ⟨check i, v⟩ ⟨check' i, v'⟩) :
    ∀ t t', Likewise body body' loose R depth ⟨.all (l.map check), t⟩ ⟨.all (l.map check'), t'⟩ :=
  all (List.forall₂_same.mpr h)

theorem passes (h : Passes body p t) (h' : Passes body' p' t') :
    Likewise body body' loose R depth ⟨p, t⟩ ⟨p', t'⟩ := fun _ => .of_passes h h'

theorem judges {holds holds' : Prop} (h : ∀ d, Judges (p.run (runCalls body d)) holds)
    (h' : ∀ d, Judges (p'.run (runCalls body' d)) holds') (hiff : holds ↔ holds') :
    Likewise body body' loose R depth ⟨p, t⟩ ⟨p', t'⟩ := by
  obtain ⟨v, new, hv, herrors, hnew⟩ := h depth t
  obtain ⟨v', new', hv', herrors', hnew'⟩ := h' depth t'
  have hsame : v.errors.length = t.errors.length ↔ v'.errors.length = t'.errors.length := by
    rw [herrors, herrors', List.length_append, List.length_append, Nat.add_eq_left, Nat.add_eq_left,
      List.length_eq_zero_iff, List.length_eq_zero_iff, hnew, hnew', hiff]
  refine fun _ => ⟨fun w hrun => ⟨v', ⟨depth, hv'⟩, ?_⟩, fun w hrun => ⟨v, ⟨depth, hv⟩, ?_⟩⟩
  · obtain rfl := Except.ok.inj (hv.symm.trans hrun)
    exact hsame
  · obtain rfl := Except.ok.inj (hv'.symm.trans hrun)
    exact hsame.symm

theorem refl (hp : p.Over (fun _ => False) (fun _ => True) fun _ => True) :
    ∀ t t', Likewise body body' loose R depth ⟨p, t⟩ ⟨p, t'⟩ := by
  induction p with
  | done => exact fun _ _ => .done
  | report e => exact fun _ _ => .report e e
  | fault d => exact fun _ _ => .fault d d
  | call f => exact absurd hp id
  | note u => exact fun _ _ => .note u u
  | seq p q ihp ihq => exact fun t t' => (ihp hp.1 t t').seq fun v v' _ _ => ihq hp.2 v v'
  | attempt p k ihp ihk => exact fun t t' => (ihp hp.1 t t').attempt_any fun x => ihk x (hp.2 x)
  | skipIf b p ihp => exact fun t t' => .skipIf fun _ _ => ihp hp.2 t t'

end Likewise

/-- **Runs that concur.**  From corresponding calls on, questions are answered alike, the bodies do the same but
for their calls, and loose parts concur if their calls do. -/
theorem concurs_of_likewise {a a' : φ × Tally ε κ}
    (hanswers : ∀ b b', Together body body' loose R a a' b b' → ∀ g g' p p' v v',
      Alongside body body' loose ⟨body b.1, b.2⟩ ⟨body' b'.1, b'.2⟩ ⟨.skipIf g p, v⟩ ⟨.skipIf g' p', v'⟩ →
        g v.notes = g' v'.notes ∨ Passes body p v ∧ Passes body' p' v')
    (hparts : ∀ depth b b', Together body body' loose R a a' b b' → ∀ p p' v v', loose p p' →
      Alongside body body' loose ⟨body b.1, b.2⟩ ⟨body' b'.1, b'.2⟩ ⟨p, v⟩ ⟨p', v'⟩ →
        (∀ f f' u u', Enters body p v f u → Enters body' p' v' f' u' → R f f' →
          Concurs body body' depth ⟨.call f, u⟩ ⟨.call f', u'⟩) → Concurs body body' depth ⟨p, v⟩ ⟨p', v'⟩)
    (hbodies : ∀ depth b b', Together body body' loose R a a' b b' →
      Likewise body body' loose R depth ⟨body b.1, b.2⟩ ⟨body' b'.1, b'.2⟩) :
    ∀ depth b b', Together body body' loose R a a' b b' →
      Concurs body body' depth ⟨.call b.1, b.2⟩ ⟨.call b'.1, b'.2⟩ := by
  intro depth
  induction depth with
  | zero => exact fun b b' _ => ⟨fun _ hrun => (nomatch hrun), fun _ hrun => (nomatch hrun)⟩
  | succ depth ih =>
    intro b b' h
    have hcalls : ∀ f f' v v', Alongside body body' loose ⟨body b.1, b.2⟩ ⟨body' b'.1, b'.2⟩ ⟨.call f, v⟩
        ⟨.call f', v'⟩ → R f f' → Concurs body body' depth ⟨.call f, v⟩ ⟨.call f', v'⟩ :=
      fun f f' v v' hc hR => ih (f, v) (f', v') (.step h hc hR)
    have hbody := hbodies depth b b' h
      { answers := hanswers b b' h
        calls := hcalls
        parts := fun p p' v v' hloose hp => hparts depth b b' h p p' v v' hloose hp
          fun f f' u u' hf hf' hR => hcalls f f' u u' (hp.calls hloose hf hf') hR }
    exact ⟨hbody.1.call, hbody.2.call⟩

end Siesta.Lib
