import Mathlib.Data.List.Infix
import Mathlib.Data.Nat.Notation
import Mathlib.Order.Basic

/-!
# Checks that report errors into one list

A `Check` is what a recursive checker does with one argument: it reports errors into a list that all
calls share, calls itself, takes notes, and tries a part of itself, judging by whether the list grew
and dropping what the trial has reported (`attempt`).  `runCalls` closes the recursion up to a given
depth.

Reports are never taken back outside of a trial (`run_grows`), a deeper run finds the same
(`runCalls_mono`), and `Judges` reads a check as the proposition it decides.
-/

namespace Siesta.Lib

/-- A check that calls itself on arguments `φ`, reports errors `ε`, keeps notes `κ`, and may end with
a fault `δ`. -/
inductive Check (φ ε κ δ : Type) where
  | done
  | report (e : ε)
  | fault (d : δ)
  | call (f : φ)
  | note (u : κ → κ)
  | seq (p q : Check φ ε κ δ)
  /-- Try `p`: go on with `k true` if it reports nothing; otherwise drop what it has reported and go
  on with `k false`. -/
  | attempt (p : Check φ ε κ δ) (k : Bool → Check φ ε κ δ)
  /-- Skip `p` if the notes say so. -/
  | skipIf (b : κ → Bool) (p : Check φ ε κ δ)

/-- The state of a run. -/
structure Tally (ε κ : Type) where
  errors : List ε
  notes : κ

/-- Why a run does not return: the depth is used up, or there was a fault. -/
inductive Stop (δ : Type) where
  | depth
  | fault (d : δ)
  deriving DecidableEq

/-- `std::vector::resize`. -/
def resize {ε : Type} [Inhabited ε] (n : ℕ) (l : List ε) : List ε :=
  l.take n ++ List.replicate (n - l.length) default

theorem resize_append {ε : Type} [Inhabited ε] (l l' : List ε) : resize l.length (l ++ l') = l := by
  simp [resize]

variable {φ ε κ δ : Type} [Inhabited ε]

/-- The run of a check, with its calls as a parameter. -/
def Check.run (call : φ → Tally ε κ → Except (Stop δ) (Tally ε κ)) :
    Check φ ε κ δ → Tally ε κ → Except (Stop δ) (Tally ε κ)
  | .done, t => .ok t
  | .report e, t => .ok { t with errors := t.errors ++ [e] }
  | .fault d, _ => .error (.fault d)
  | .call f, t => call f t
  | .note u, t => .ok { t with notes := u t.notes }
  | .seq p q, t => do
    let t ← p.run call t
    q.run call t
  | .attempt p k, t => do
    let t' ← p.run call t
    if t'.errors.length = t.errors.length then (k true).run call t'
    else (k false).run call { t' with errors := resize t.errors.length t'.errors }
  | .skipIf b p, t => if b t.notes then .ok t else p.run call t

/-- The run of a call, up to the given depth of calls. -/
def runCalls (body : φ → Check φ ε κ δ) : ℕ → φ → Tally ε κ → Except (Stop δ) (Tally ε κ)
  | 0, _, _ => .error .depth
  | depth + 1, f, t => (body f).run (runCalls body depth) t

def Check.all (ps : List (Check φ ε κ δ)) : Check φ ε κ δ := ps.foldr .seq .done

omit [Inhabited ε] in
@[simp] theorem Check.all_nil : Check.all ([] : List (Check φ ε κ δ)) = .done := rfl

omit [Inhabited ε] in
@[simp] theorem Check.all_cons (p : Check φ ε κ δ) (ps : List (Check φ ε κ δ)) :
    Check.all (p :: ps) = .seq p (Check.all ps) := rfl

theorem Check.run_all_append (call : φ → Tally ε κ → Except (Stop δ) (Tally ε κ))
    (ps qs : List (Check φ ε κ δ)) (t : Tally ε κ) :
    (Check.all (ps ++ qs)).run call t = ((Check.all ps).run call t).bind ((Check.all qs).run call) := by
  induction ps generalizing t with
  | nil => rfl
  | cons p ps ih =>
    show (p.run call t).bind _ = ((p.run call t).bind _).bind _
    cases p.run call t with
    | error s => rfl
    | ok t₁ => exact ih t₁

/-! ### Reports are kept -/

/-- A call keeps what has been reported before it. -/
def Grows (call : φ → Tally ε κ → Except (Stop δ) (Tally ε κ)) : Prop :=
  ∀ f t t', call f t = .ok t' → t.errors <+: t'.errors

theorem Check.run_grows {call : φ → Tally ε κ → Except (Stop δ) (Tally ε κ)} (hcall : Grows call)
    (p : Check φ ε κ δ) : ∀ t t', p.run call t = .ok t' → t.errors <+: t'.errors := by
  induction p with
  | done =>
    intro t t' h
    obtain rfl := Except.ok.inj h
    exact List.prefix_refl _
  | report e =>
    intro t t' h
    obtain rfl := Except.ok.inj h
    exact List.prefix_append _ _
  | fault d => intro t t' h; exact absurd h (by simp [Check.run])
  | call f => exact hcall f
  | note u =>
    intro t t' h
    obtain rfl := Except.ok.inj h
    exact List.prefix_refl _
  | seq p q hp hq =>
    intro t t' h
    cases hrun : p.run call t with
    | error s => rw [Check.run, hrun] at h; exact absurd h (by simp [bind, Except.bind])
    | ok t₁ =>
      rw [Check.run, hrun] at h
      exact (hp t t₁ hrun).trans (hq t₁ t' h)
  | attempt p k hp hk =>
    intro t t' h
    cases hrun : p.run call t with
    | error s => rw [Check.run, hrun] at h; exact absurd h (by simp [bind, Except.bind])
    | ok t₁ =>
      rw [Check.run, hrun] at h
      have hgrown : t.errors <+: t₁.errors := hp t t₁ hrun
      change (if t₁.errors.length = t.errors.length then _ else _) = _ at h
      split at h
      · exact hgrown.trans (hk true t₁ t' h)
      · obtain ⟨new, hnew⟩ := hgrown
        have hback := hk false _ t' h
        rw [← hnew, resize_append] at hback
        exact hback
  | skipIf b p hp =>
    intro t t' h
    rw [Check.run] at h
    split at h
    · obtain rfl := Except.ok.inj h
      exact List.prefix_refl _
    · exact hp t t' h

theorem runCalls_grows (body : φ → Check φ ε κ δ) : ∀ depth, Grows (runCalls body depth) := by
  intro depth
  induction depth with
  | zero => intro f t t' h; exact absurd h (by simp [runCalls])
  | succ depth ih => intro f; exact Check.run_grows ih (body f)

/-! ### Deeper runs -/

/-- What the one kind of call finds, the other does. -/
def Extends (call call' : φ → Tally ε κ → Except (Stop δ) (Tally ε κ)) : Prop :=
  ∀ f t, call f t ≠ .error .depth → call' f t = call f t

theorem Check.run_extends {call call' : φ → Tally ε κ → Except (Stop δ) (Tally ε κ)}
    (hcall : Extends call call') (p : Check φ ε κ δ) :
    ∀ t, p.run call t ≠ .error .depth → p.run call' t = p.run call t := by
  induction p with
  | done => exact fun _ _ => rfl
  | report e => exact fun _ _ => rfl
  | fault d => exact fun _ _ => rfl
  | call f => exact hcall f
  | note u => exact fun _ _ => rfl
  | seq p q hp hq =>
    intro t h
    have hfirst : p.run call t ≠ .error .depth := fun he => h (by rw [Check.run, he]; rfl)
    rw [Check.run, Check.run, hp t hfirst]
    cases hrun : p.run call t with
    | error s => rfl
    | ok t₁ =>
      refine hq t₁ fun he => h ?_
      rw [Check.run, hrun]
      exact he
  | attempt p k hp hk =>
    intro t h
    have hfirst : p.run call t ≠ .error .depth := fun he => h (by rw [Check.run, he]; rfl)
    rw [Check.run, hp t hfirst]
    rw [Check.run] at h ⊢
    cases hrun : p.run call t with
    | error s => rfl
    | ok t₁ =>
      rw [hrun] at h
      change (if t₁.errors.length = t.errors.length then _ else _) ≠ _ at h
      change (if t₁.errors.length = t.errors.length then _ else _) =
        (if t₁.errors.length = t.errors.length then _ else _)
      split at h
      · rename_i hlen
        rw [if_pos hlen, if_pos hlen]
        exact hk true t₁ h
      · rename_i hlen
        rw [if_neg hlen, if_neg hlen]
        exact hk false _ h
  | skipIf b p hp =>
    intro t h
    rw [Check.run] at h ⊢
    rw [Check.run]
    split
    · rfl
    · rename_i hb
      rw [if_neg hb] at h
      exact hp t h

theorem runCalls_extends (body : φ → Check φ ε κ δ) :
    ∀ depth, Extends (runCalls body depth) (runCalls body (depth + 1)) := by
  intro depth
  induction depth with
  | zero => exact fun f t h => absurd rfl h
  | succ depth ih => exact fun f t h => Check.run_extends ih (body f) t h

/-- A run that has not used up its depth finds the same at any greater depth. -/
theorem runCalls_mono {body : φ → Check φ ε κ δ} {depth depth' : ℕ} (hle : depth ≤ depth') {f : φ}
    {t : Tally ε κ} (h : runCalls body depth f t ≠ .error .depth) :
    runCalls body depth' f t = runCalls body depth f t := by
  induction hle with
  | refl => rfl
  | step _ ih => exact (runCalls_extends body _ f t (by rwa [ih])).trans ih

/-- Two runs that return return the same. -/
theorem runCalls_unique {body : φ → Check φ ε κ δ} {depth depth' : ℕ} {f : φ} {t : Tally ε κ}
    (h : runCalls body depth f t ≠ .error .depth) (h' : runCalls body depth' f t ≠ .error .depth) :
    runCalls body depth f t = runCalls body depth' f t := by
  rcases Nat.le_total depth depth' with hle | hle
  · exact (runCalls_mono hle h).symm
  · exact runCalls_mono hle h'

/-! ### Runs that return -/

/-- With calls deep enough, the check ends in `t'`. -/
def Settles (body : φ → Check φ ε κ δ) (p : Check φ ε κ δ) (t t' : Tally ε κ) : Prop :=
  ∃ depth, p.run (runCalls body depth) t = .ok t'

theorem Check.run_mono {body : φ → Check φ ε κ δ} {p : Check φ ε κ δ} {depth depth' : ℕ}
    (hle : depth ≤ depth') {t t' : Tally ε κ} (h : p.run (runCalls body depth) t = .ok t') :
    p.run (runCalls body depth') t = .ok t' := by
  have hextends : Extends (runCalls body depth) (runCalls body depth') :=
    fun f t hf => runCalls_mono hle hf
  rw [Check.run_extends hextends p t (by rw [h]; simp), h]

namespace Settles

variable {body : φ → Check φ ε κ δ} {p q : Check φ ε κ δ} {t t' : Tally ε κ}

theorem unique {t₁ t₂ : Tally ε κ} (h₁ : Settles body p t t₁) (h₂ : Settles body p t t₂) : t₁ = t₂ := by
  obtain ⟨d₁, h₁⟩ := h₁
  obtain ⟨d₂, h₂⟩ := h₂
  have h₁ := Check.run_mono (Nat.le_max_left d₁ d₂) h₁
  rw [Check.run_mono (Nat.le_max_right d₁ d₂) h₂] at h₁
  exact (Except.ok.inj h₁).symm

theorem seq_iff : Settles body (.seq p q) t t' ↔ ∃ t₁, Settles body p t t₁ ∧ Settles body q t₁ t' := by
  constructor
  · rintro ⟨depth, h⟩
    cases hp : p.run (runCalls body depth) t with
    | error s => rw [Check.run, hp] at h; exact absurd h (by simp [bind, Except.bind])
    | ok t₁ =>
      rw [Check.run, hp] at h
      exact ⟨t₁, ⟨depth, hp⟩, depth, h⟩
  · rintro ⟨t₁, ⟨d₁, h₁⟩, d₂, h₂⟩
    refine ⟨max d₁ d₂, ?_⟩
    rw [Check.run, Check.run_mono (Nat.le_max_left d₁ d₂) h₁]
    exact Check.run_mono (Nat.le_max_right d₁ d₂) h₂

theorem call_iff {f : φ} : Settles body (.call f) t t' ↔ Settles body (body f) t t' := by
  constructor
  · rintro ⟨depth, h⟩
    cases depth with
    | zero => exact absurd h (by simp [Check.run, runCalls])
    | succ depth => exact ⟨depth, h⟩
  · rintro ⟨depth, h⟩
    exact ⟨depth + 1, h⟩

theorem grows (h : Settles body p t t') : t.errors <+: t'.errors := by
  obtain ⟨depth, h⟩ := h
  exact Check.run_grows (runCalls_grows body depth) p t t' h

theorem done_iff : Settles body .done t t' ↔ t' = t :=
  ⟨fun ⟨_, h⟩ => (Except.ok.inj h).symm, fun h => ⟨0, by rw [h]; rfl⟩⟩

theorem report_iff {e : ε} : Settles body (.report e) t t' ↔ t' = { t with errors := t.errors ++ [e] } :=
  ⟨fun ⟨_, h⟩ => (Except.ok.inj h).symm, fun h => ⟨0, by rw [h]; rfl⟩⟩

theorem note_iff {u : κ → κ} : Settles body (.note u) t t' ↔ t' = { t with notes := u t.notes } :=
  ⟨fun ⟨_, h⟩ => (Except.ok.inj h).symm, fun h => ⟨0, by rw [h]; rfl⟩⟩

theorem not_fault {d : δ} : ¬ Settles body (.fault d) t t' := by
  rintro ⟨depth, h⟩
  cases h

theorem skipIf_iff {b : κ → Bool} (hb : b t.notes = false) :
    Settles body (.skipIf b p) t t' ↔ Settles body p t t' :=
  exists_congr fun depth => by rw [Check.run, hb]; rfl

/-- A trial goes on by whether the tried check has reported something. -/
theorem attempt_iff {k : Bool → Check φ ε κ δ} : Settles body (.attempt p k) t t' ↔
    ∃ t₁, Settles body p t t₁ ∧ (t₁.errors = t.errors ∧ Settles body (k true) t₁ t' ∨
      t₁.errors ≠ t.errors ∧ Settles body (k false) { t₁ with errors := t.errors } t') := by
  have hlength : ∀ {t₁ : Tally ε κ}, t.errors <+: t₁.errors →
      (t₁.errors.length = t.errors.length ↔ t₁.errors = t.errors) :=
    fun h => ⟨fun hlength => (h.eq_of_length hlength.symm).symm, fun h => by rw [h]⟩
  have hback : ∀ {t₁ : Tally ε κ}, t.errors <+: t₁.errors → resize t.errors.length t₁.errors = t.errors := by
    rintro t₁ ⟨new, hnew⟩
    rw [← hnew, resize_append]
  constructor
  · rintro ⟨depth, h⟩
    cases hp : p.run (runCalls body depth) t with
    | error s => rw [Check.run, hp] at h; exact absurd h (by simp [bind, Except.bind])
    | ok t₁ =>
      have hsettles : Settles body p t t₁ := ⟨depth, hp⟩
      rw [Check.run, hp] at h
      change (if t₁.errors.length = t.errors.length then _ else _) = _ at h
      rw [hback hsettles.grows] at h
      refine ⟨t₁, hsettles, ?_⟩
      split at h
      · rename_i hsame
        exact .inl ⟨(hlength hsettles.grows).mp hsame, depth, h⟩
      · rename_i hgrown
        exact .inr ⟨fun hsame => hgrown ((hlength hsettles.grows).mpr hsame), depth, h⟩
  · rintro ⟨t₁, hsettles, hk⟩
    obtain ⟨d₁, h₁⟩ := hsettles
    have hgrows := (show Settles body p t t₁ from ⟨d₁, h₁⟩).grows
    rcases hk with ⟨hsame, d₂, h₂⟩ | ⟨hgrown, d₂, h₂⟩ <;> refine ⟨max d₁ d₂, ?_⟩ <;>
      rw [Check.run, Check.run_mono (Nat.le_max_left d₁ d₂) h₁] <;>
      change (if t₁.errors.length = t.errors.length then _ else _) = _
    · rw [if_pos ((hlength hgrows).mpr hsame)]
      exact Check.run_mono (Nat.le_max_right d₁ d₂) h₂
    · rw [if_neg fun h => hgrown ((hlength hgrows).mp h), hback hgrows]
      exact Check.run_mono (Nat.le_max_right d₁ d₂) h₂

theorem all_append_iff {ps qs : List (Check φ ε κ δ)} : Settles body (.all (ps ++ qs)) t t' ↔
    ∃ t₁, Settles body (.all ps) t t₁ ∧ Settles body (.all qs) t₁ t' := by
  induction ps generalizing t with
  | nil => simp [done_iff]
  | cons p ps ih =>
    rw [List.cons_append, Check.all_cons, Check.all_cons, seq_iff]
    simp only [ih, seq_iff]
    constructor
    · rintro ⟨t₁, hp, t₂, hps, hqs⟩
      exact ⟨t₂, ⟨t₁, hp, hps⟩, hqs⟩
    · rintro ⟨t₂, ⟨t₁, hp, hps⟩, hqs⟩
      exact ⟨t₁, hp, t₂, hps, hqs⟩

end Settles

/-- The check ends and reports nothing. -/
def Passes (body : φ → Check φ ε κ δ) (p : Check φ ε κ δ) (t : Tally ε κ) : Prop :=
  ∃ t', Settles body p t t' ∧ t'.errors = t.errors

/-- The check ends and reports something. -/
def Fails (body : φ → Check φ ε κ δ) (p : Check φ ε κ δ) (t : Tally ε κ) : Prop :=
  ∃ t', Settles body p t t' ∧ t'.errors ≠ t.errors

/-- A sequence passes exactly if its first check passes and the rest does after it. -/
theorem passes_seq_iff {body : φ → Check φ ε κ δ} {p q : Check φ ε κ δ} {t : Tally ε κ} :
    Passes body (.seq p q) t ↔ ∃ t₁, Settles body p t t₁ ∧ t₁.errors = t.errors ∧ Passes body q t₁ := by
  constructor
  · rintro ⟨t', hrun, hsame⟩
    obtain ⟨t₁, hp, hq⟩ := Settles.seq_iff.mp hrun
    -- the list has not grown in the end, so it has not grown in between
    have hsame₁ : t₁.errors = t.errors := by
      have hlength := hq.grows.length_le
      rw [hsame] at hlength
      exact (hp.grows.eq_of_length_le hlength).symm
    exact ⟨t₁, hp, hsame₁, t', hq, hsame.trans hsame₁.symm⟩
  · rintro ⟨t₁, hp, hsame, t', hq, hsame'⟩
    exact ⟨t', Settles.seq_iff.mpr ⟨t₁, hp, hq⟩, hsame'.trans hsame⟩

/-! ### The proposition a check decides -/

/-- Whatever the state, the run returns, and it reports nothing exactly if `holds`. -/
def Judges (run : Tally ε κ → Except (Stop δ) (Tally ε κ)) (holds : Prop) : Prop :=
  ∀ t, ∃ t' new, run t = .ok t' ∧ t'.errors = t.errors ++ new ∧ (new = [] ↔ holds)

namespace Judges

variable {call : φ → Tally ε κ → Except (Stop δ) (Tally ε κ)} {p q : Check φ ε κ δ} {a b : Prop}

omit [Inhabited ε] in
theorem congr {run : Tally ε κ → Except (Stop δ) (Tally ε κ)} (h : Judges run a) (hab : a ↔ b) :
    Judges run b := by
  intro t
  obtain ⟨t', new, hrun, herrors, hnew⟩ := h t
  exact ⟨t', new, hrun, herrors, hnew.trans hab⟩

theorem done : Judges ((Check.done : Check φ ε κ δ).run call) True :=
  fun t => ⟨t, [], rfl, by simp, by simp⟩

theorem report (e : ε) : Judges ((Check.report e : Check φ ε κ δ).run call) False :=
  fun t => ⟨_, [e], rfl, rfl, by simp⟩

theorem note (u : κ → κ) : Judges ((Check.note u : Check φ ε κ δ).run call) True :=
  fun t => ⟨_, [], rfl, by simp, by simp⟩

theorem seq (hp : Judges (p.run call) a) (hq : Judges (q.run call) b) :
    Judges ((Check.seq p q).run call) (a ∧ b) := by
  intro t
  obtain ⟨t₁, new₁, hrun₁, herrors₁, hnew₁⟩ := hp t
  obtain ⟨t₂, new₂, hrun₂, herrors₂, hnew₂⟩ := hq t₁
  refine ⟨t₂, new₁ ++ new₂, ?_, ?_, ?_⟩
  · rw [Check.run, hrun₁]; exact hrun₂
  · rw [herrors₂, herrors₁, List.append_assoc]
  · rw [List.append_eq_nil_iff, hnew₁, hnew₂]

/-- A sequence of checks decides all of them. -/
theorem all {ι : Type} {check : ι → Check φ ε κ δ} {holds : ι → Prop} :
    ∀ {l : List ι}, (∀ i ∈ l, Judges ((check i).run call) (holds i)) →
      Judges ((Check.all (l.map check)).run call) (∀ i ∈ l, holds i) := by
  intro l
  induction l with
  | nil => exact fun _ => done.congr (by simp)
  | cons i l ih =>
    intro h
    have hi : Judges ((check i).run call) (holds i) := h i (List.mem_cons_self ..)
    have hl := ih fun j hj => h j (List.mem_cons_of_mem _ hj)
    exact (hi.seq hl).congr (by simp)

end Judges

/-- A check that decides a proposition passes exactly if it holds. -/
theorem passes_iff_of_judges {body : φ → Check φ ε κ δ} {p : Check φ ε κ δ} {depth : ℕ} {holds : Prop}
    (h : Judges (p.run (runCalls body depth)) holds) (t : Tally ε κ) : Passes body p t ↔ holds := by
  obtain ⟨t', new, hrun, herrors, hnew⟩ := h t
  constructor
  · rintro ⟨t₁, hsettles, hsame⟩
    obtain rfl : t₁ = t' := hsettles.unique ⟨depth, hrun⟩
    rw [herrors] at hsame
    exact hnew.mp (List.append_right_eq_self.mp hsame)
  · intro hholds
    exact ⟨t', ⟨depth, hrun⟩, by rw [herrors, hnew.mpr hholds, List.append_nil]⟩

end Siesta.Lib
