import Siesta.Lib.Checks
import Siesta.Lib.Precedence
import Mathlib.Data.Nat.Find
import Mathlib.Data.Set.Finite.Basic
import Mathlib.Data.Finite.Prod

/-!
# The calls of a check, and when its recursion ends

`Enters` says which calls a run makes, and in which state.  A run that does not end makes a call that
does not end (`exists_entered`), so a run ends when no chain of calls is infinite (`ends_of_grounded`).

`Check.Within` says which calls a check can make and which notes it cannot tell apart.  What has been
reported before, and what cannot be told apart in the notes, makes no difference to a run
(`runCalls_alike`).
A call that is entered again while it is running, in a state that looks the same, therefore never ends
(`not_ends_of_return`).  Where there are finitely many calls and finitely many things to see, this is
the only way not to end (`ends_iff_no_return`).
-/

namespace Siesta.Lib

open Relation

variable {φ ε κ δ : Type} [Inhabited ε] {body : φ → Check φ ε κ δ}

/-- The recursion of a check is finite: with calls deep enough, it returns or ends with a fault. -/
def Ends (body : φ → Check φ ε κ δ) (p : Check φ ε κ δ) (t : Tally ε κ) : Prop :=
  ∃ depth, p.run (runCalls body depth) t ≠ .error .depth

/-- Started in `t`, the check comes to the call of `f` in `t'`. -/
inductive Enters (body : φ → Check φ ε κ δ) : Check φ ε κ δ → Tally ε κ → φ → Tally ε κ → Prop
  | call {f : φ} {t : Tally ε κ} : Enters body (.call f) t f t
  | seqLeft {p q : Check φ ε κ δ} {t t' : Tally ε κ} {f : φ} (h : Enters body p t f t') :
      Enters body (.seq p q) t f t'
  | seqRight {p q : Check φ ε κ δ} {t t₁ t' : Tally ε κ} {f : φ} (hp : Settles body p t t₁)
      (h : Enters body q t₁ f t') : Enters body (.seq p q) t f t'
  | tried {p : Check φ ε κ δ} {k : Bool → Check φ ε κ δ} {t t' : Tally ε κ} {f : φ}
      (h : Enters body p t f t') : Enters body (.attempt p k) t f t'
  | passed {p : Check φ ε κ δ} {k : Bool → Check φ ε κ δ} {t t₁ t' : Tally ε κ} {f : φ}
      (hp : Settles body p t t₁) (hsame : t₁.errors.length = t.errors.length)
      (h : Enters body (k true) t₁ f t') : Enters body (.attempt p k) t f t'
  | failed {p : Check φ ε κ δ} {k : Bool → Check φ ε κ δ} {t t₁ t' : Tally ε κ} {f : φ}
      (hp : Settles body p t t₁) (hgrown : t₁.errors.length ≠ t.errors.length)
      (h : Enters body (k false) { t₁ with errors := resize t.errors.length t₁.errors } f t') :
      Enters body (.attempt p k) t f t'
  | guarded {b : κ → Bool} {p : Check φ ε κ δ} {t t' : Tally ε κ} {f : φ} (hb : b t.notes = false)
      (h : Enters body p t f t') : Enters body (.skipIf b p) t f t'

/-- The one call, in its state, makes the other. -/
def Calls (body : φ → Check φ ε κ δ) (a b : φ × Tally ε κ) : Prop := Enters body (body a.1) a.2 b.1 b.2

theorem ends_call_iff {f : φ} {t : Tally ε κ} : Ends body (.call f) t ↔ Ends body (body f) t := by
  constructor
  · rintro ⟨depth, h⟩
    cases depth with
    | zero => exact absurd rfl h
    | succ depth => exact ⟨depth, h⟩
  · rintro ⟨depth, h⟩
    exact ⟨depth + 1, h⟩

theorem Ends.cases {p : Check φ ε κ δ} {t : Tally ε κ} (h : Ends body p t) :
    (∃ t', Settles body p t t') ∨ ∃ depth d, p.run (runCalls body depth) t = .error (.fault d) := by
  obtain ⟨depth, h⟩ := h
  cases hrun : p.run (runCalls body depth) t with
  | ok t' => exact .inl ⟨t', depth, hrun⟩
  | error s =>
    cases s with
    | depth => exact absurd hrun h
    | fault d => exact .inr ⟨depth, d, hrun⟩

/-- Where a check goes on as `q` once `p` has returned, it ends if `q` does. -/
theorem ends_of_rest {p q r : Check φ ε κ δ} {t t₁ t₂ : Tally ε κ} (hp : Settles body p t t₁)
    (hgoes : ∀ depth, p.run (runCalls body depth) t = .ok t₁ →
      r.run (runCalls body depth) t = q.run (runCalls body depth) t₂)
    (hq : Ends body q t₂) : Ends body r t := by
  obtain ⟨d₁, h₁⟩ := hp
  obtain ⟨d₂, h₂⟩ := hq
  refine ⟨max d₁ d₂, ?_⟩
  rw [hgoes _ (Check.run_mono (Nat.le_max_left d₁ d₂) h₁)]
  have hextends : Extends (runCalls body d₂) (runCalls body (max d₁ d₂)) :=
    fun f t hf => runCalls_mono (Nat.le_max_right d₁ d₂) hf
  rwa [Check.run_extends hextends q t₂ h₂]

theorem ends_of_fault {p r : Check φ ε κ δ} {t : Tally ε κ} {depth : ℕ} {d : δ}
    (hfault : p.run (runCalls body depth) t = .error (.fault d))
    (hfails : p.run (runCalls body depth) t = .error (.fault d) →
      r.run (runCalls body depth) t = .error (.fault d)) : Ends body r t := by
  refine ⟨depth, ?_⟩
  rw [hfails hfault]
  simp

theorem exists_entered (p : Check φ ε κ δ) : ∀ t, ¬ Ends body p t →
    ∃ f t', Enters body p t f t' ∧ ¬ Ends body (body f) t' := by
  induction p with
  | done => exact fun t h => absurd ⟨0, by simp [Check.run]⟩ h
  | report e => exact fun t h => absurd ⟨0, by simp [Check.run]⟩ h
  | fault d => exact fun t h => absurd ⟨0, by simp [Check.run]⟩ h
  | note u => exact fun t h => absurd ⟨0, by simp [Check.run]⟩ h
  | call f => exact fun t h => ⟨f, t, .call, fun hf => h (ends_call_iff.mpr hf)⟩
  | seq p q hp hq =>
    intro t h
    by_cases hends : Ends body p t
    · rcases hends.cases with ⟨t₁, hsettles⟩ | ⟨depth, d, hfault⟩
      · have hrest : ¬ Ends body q t₁ := by
          refine fun hq => h (ends_of_rest hsettles (fun depth hdepth => ?_) hq)
          rw [Check.run, hdepth]
          rfl
        obtain ⟨f, t', henters, hf⟩ := hq t₁ hrest
        exact ⟨f, t', .seqRight hsettles henters, hf⟩
      · refine absurd (ends_of_fault hfault fun hdepth => ?_) h
        rw [Check.run, hdepth]
        rfl
    · obtain ⟨f, t', henters, hf⟩ := hp t hends
      exact ⟨f, t', .seqLeft henters, hf⟩
  | attempt p k hp hk =>
    intro t h
    by_cases hends : Ends body p t
    · rcases hends.cases with ⟨t₁, hsettles⟩ | ⟨depth, d, hfault⟩
      · -- the branch that is taken does not end
        by_cases hsame : t₁.errors.length = t.errors.length
        · have hrest : ¬ Ends body (k true) t₁ := by
            refine fun hk => h (ends_of_rest hsettles (fun depth hdepth => ?_) hk)
            rw [Check.run, hdepth]
            exact if_pos hsame
          obtain ⟨f, t', henters, hf⟩ := hk true t₁ hrest
          exact ⟨f, t', .passed hsettles hsame henters, hf⟩
        · have hrest : ¬ Ends body (k false) { t₁ with errors := resize t.errors.length t₁.errors } := by
            refine fun hk => h (ends_of_rest hsettles (fun depth hdepth => ?_) hk)
            rw [Check.run, hdepth]
            exact if_neg hsame
          obtain ⟨f, t', henters, hf⟩ := hk false _ hrest
          exact ⟨f, t', .failed hsettles hsame henters, hf⟩
      · refine absurd (ends_of_fault hfault fun hdepth => ?_) h
        rw [Check.run, hdepth]
        rfl
    · obtain ⟨f, t', henters, hf⟩ := hp t hends
      exact ⟨f, t', .tried henters, hf⟩
  | skipIf b p hp =>
    intro t h
    cases hb : b t.notes with
    | true => exact absurd ⟨0, by simp [Check.run, hb]⟩ h
    | false =>
      have hp' : ¬ Ends body p t := by
        rintro ⟨depth, hdepth⟩
        exact h ⟨depth, by simpa [Check.run, hb] using hdepth⟩
      obtain ⟨f, t', henters, hf⟩ := hp t hp'
      exact ⟨f, t', .guarded hb henters, hf⟩

/-- Where no chain of calls is infinite, the recursion is finite. -/
theorem ends_of_grounded {a : φ × Tally ε κ} (h : Grounded (Calls body) a) : Ends body (body a.1) a.2 := by
  refine h.induction (C := fun a => Ends body (body a.1) a.2) fun a ih => ?_
  by_contra hdiverges
  obtain ⟨f, t, henters, hf⟩ := exists_entered _ _ hdiverges
  exact hf (ih (f, t) henters)

/-! ### What a check can call and see -/

/-- The check calls arguments in `Q`, takes notes in `N`, and asks the notes for conditions in `G`. -/
def Check.Over (Q : φ → Prop) (N : (κ → κ) → Prop) (G : (κ → Bool) → Prop) : Check φ ε κ δ → Prop
  | .done => True
  | .report _ => True
  | .fault _ => True
  | .call f => Q f
  | .note u => N u
  | .seq p q => p.Over Q N G ∧ q.Over Q N G
  | .attempt p k => p.Over Q N G ∧ ∀ x, (k x).Over Q N G
  | .skipIf b p => G b ∧ p.Over Q N G

namespace Check.Over

variable {Q Q' : φ → Prop} {N N' : (κ → κ) → Prop} {G G' : (κ → Bool) → Prop}

omit [Inhabited ε] in
theorem all {ps : List (Check φ ε κ δ)} (h : ∀ p ∈ ps, p.Over Q N G) : (Check.all ps).Over Q N G := by
  induction ps with
  | nil => trivial
  | cons p ps ih =>
    exact ⟨h p (List.mem_cons_self ..), ih fun q hq => h q (List.mem_cons_of_mem _ hq)⟩

omit [Inhabited ε] in
theorem all_map {ι : Type} {check : ι → Check φ ε κ δ} {l : List ι} (h : ∀ i ∈ l, (check i).Over Q N G) :
    (Check.all (l.map check)).Over Q N G := by
  refine all fun p hp => ?_
  obtain ⟨i, hi, rfl⟩ := List.mem_map.mp hp
  exact h i hi

omit [Inhabited ε] in
theorem mono (hQ : ∀ f, Q f → Q' f) (hN : ∀ u, N u → N' u) (hG : ∀ b, G b → G' b) {p : Check φ ε κ δ}
    (h : p.Over Q N G) : p.Over Q' N' G' := by
  induction p with
  | done | report | fault => trivial
  | call f => exact hQ f h
  | note u => exact hN u h
  | seq p q hp hq => exact ⟨hp h.1, hq h.2⟩
  | attempt p k hp hk => exact ⟨hp h.1, fun x => hk x (h.2 x)⟩
  | skipIf b p hp => exact ⟨hG b h.1, hp h.2⟩

omit [Inhabited ε] in
theorem everything (p : Check φ ε κ δ) : p.Over (fun _ => True) (fun _ => True) fun _ => True := by
  induction p with
  | done | report | fault | call | note => trivial
  | seq p q hp hq => exact ⟨hp, hq⟩
  | attempt p k hp hk => exact ⟨hp, hk⟩
  | skipIf b p hp => exact ⟨trivial, hp⟩

end Check.Over

/-- The check calls arguments in `Q` only, and cannot tell notes apart that `S` relates. -/
abbrev Check.Within (Q : φ → Prop) (S : κ → κ → Prop) (p : Check φ ε κ δ) : Prop :=
  p.Over Q (fun u => ∀ s s', S s s' → S (u s) (u s')) fun b => ∀ s s', S s s' → b s = b s'

/-- Two runs, started in `t` and in `t'`, find the same: they stop alike, or they report the same and
leave notes that `S` relates. -/
inductive Alike (S : κ → κ → Prop) (t t' : Tally ε κ) :
    Except (Stop δ) (Tally ε κ) → Except (Stop δ) (Tally ε κ) → Prop
  | stopped (s : Stop δ) : Alike S t t' (.error s) (.error s)
  | returned {u u' : Tally ε κ} (new : List ε) (h : u.errors = t.errors ++ new)
      (h' : u'.errors = t'.errors ++ new) (hnotes : S u.notes u'.notes) : Alike S t t' (.ok u) (.ok u')

omit [Inhabited ε] in
theorem Alike.depth_iff {S : κ → κ → Prop} {t t' : Tally ε κ} {r r' : Except (Stop δ) (Tally ε κ)}
    (h : Alike S t t' r r') : r = .error .depth ↔ r' = .error .depth := by
  cases h <;> simp

omit [Inhabited ε] in
theorem Alike.bind {S : κ → κ → Prop} {t t' : Tally ε κ} {r r' : Except (Stop δ) (Tally ε κ)}
    {next next' : Tally ε κ → Except (Stop δ) (Tally ε κ)} (h : Alike S t t' r r')
    (hnext : ∀ u u' new, u.errors = t.errors ++ new → u'.errors = t'.errors ++ new →
      S u.notes u'.notes → Alike S t t' (next u) (next' u')) :
    Alike S t t' (r.bind next) (r'.bind next') := by
  cases h with
  | stopped s => exact .stopped s
  | returned new h h' hnotes => exact hnext _ _ new h h' hnotes

omit [Inhabited ε] in
theorem Alike.append {S : κ → κ → Prop} {t t' u u' : Tally ε κ} {r r' : Except (Stop δ) (Tally ε κ)}
    {new : List ε} (hu : u.errors = t.errors ++ new) (hu' : u'.errors = t'.errors ++ new)
    (h : Alike S u u' r r') : Alike S t t' r r' := by
  cases h with
  | stopped s => exact .stopped s
  | returned new' h h' hnotes =>
    refine .returned (new ++ new') ?_ ?_ hnotes
    · rw [h, hu, List.append_assoc]
    · rw [h', hu', List.append_assoc]

omit [Inhabited ε] in
theorem Alike.of_errors_eq {S : κ → κ → Prop} {t t' u u' : Tally ε κ} {r r' : Except (Stop δ) (Tally ε κ)}
    (h : Alike S u u' r r') (hu : u.errors = t.errors) (hu' : u'.errors = t'.errors) :
    Alike S t t' r r' := by
  rw [← List.append_nil t.errors] at hu
  rw [← List.append_nil t'.errors] at hu'
  exact h.append hu hu'

omit [Inhabited ε] in
theorem Alike.eq {t : Tally ε κ} {r r' : Except (Stop δ) (Tally ε κ)} (h : Alike Eq t t r r') : r = r' := by
  cases h with
  | stopped s => rfl
  | @returned u u' new h h' hnotes =>
    obtain ⟨errors, notes⟩ := u
    obtain ⟨errors', notes'⟩ := u'
    obtain rfl : errors = errors' := h.trans h'.symm
    obtain rfl : notes = notes' := hnotes
    rfl

/-- Where related notes make no difference to the calls, they make none to the run. -/
theorem Check.Within.alike {Q : φ → Prop} {S : κ → κ → Prop}
    {call call' : φ → Tally ε κ → Except (Stop δ) (Tally ε κ)}
    (hcall : ∀ f, Q f → ∀ t t', S t.notes t'.notes → Alike S t t' (call f t) (call' f t'))
    {p : Check φ ε κ δ} (hp : p.Within Q S) :
    ∀ t t', S t.notes t'.notes → Alike S t t' (p.run call t) (p.run call' t') := by
  induction p with
  | done => exact fun t t' h => .returned [] (by simp) (by simp) h
  | report e => exact fun t t' h => .returned [e] rfl rfl h
  | fault d => exact fun t t' _ => .stopped (.fault d)
  | call f => exact hcall f hp
  | note u => exact fun t t' h => .returned [] (by simp) (by simp) (hp _ _ h)
  | seq p q ihp ihq =>
    intro t t' hsame
    refine (ihp hp.1 t t' hsame).bind fun u u' new hu hu' hnotes => ?_
    exact (ihq hp.2 u u' hnotes).append hu hu'
  | attempt p k ihp ihk =>
    intro t t' hsame
    refine (ihp hp.1 t t' hsame).bind fun u u' new hu hu' hnotes => ?_
    -- both trials have reported something, or neither has
    by_cases hnil : new = []
    · subst hnil
      rw [List.append_nil] at hu hu'
      rw [if_pos (by rw [hu]), if_pos (by rw [hu'])]
      exact (ihk true (hp.2 true) u u' hnotes).of_errors_eq hu hu'
    · have hpos := List.length_pos_of_ne_nil hnil
      have hlen : u.errors.length ≠ t.errors.length := by rw [hu, List.length_append]; omega
      have hlen' : u'.errors.length ≠ t'.errors.length := by rw [hu', List.length_append]; omega
      rw [if_neg hlen, if_neg hlen', hu, hu', resize_append, resize_append]
      have hrest := ihk false (hp.2 false) { u with errors := t.errors } { u' with errors := t'.errors } hnotes
      exact hrest.of_errors_eq rfl rfl
  | skipIf b p ihp =>
    intro t t' hsame
    rw [Check.run, Check.run, hp.1 _ _ hsame]
    split
    · exact .returned [] (by simp) (by simp) hsame
    · exact ihp hp.2 t t' hsame

theorem runCalls_alike {Q : φ → Prop} {S : κ → κ → Prop} (hbody : ∀ f, Q f → (body f).Within Q S) :
    ∀ depth f, Q f → ∀ t t', S t.notes t'.notes →
      Alike S t t' (runCalls body depth f t) (runCalls body depth f t') := by
  intro depth
  induction depth with
  | zero => exact fun f _ t t' _ => .stopped .depth
  | succ depth ih => exact fun f hf => (hbody f hf).alike ih

theorem Enters.over {Q : φ → Prop} {N : (κ → κ) → Prop} {G : (κ → Bool) → Prop} {p : Check φ ε κ δ}
    {t t' : Tally ε κ} {f : φ} (h : Enters body p t f t') (hp : p.Over Q N G) : Q f := by
  induction h with
  | call => exact hp
  | seqLeft h ih => exact ih hp.1
  | seqRight hs h ih => exact ih hp.2
  | tried h ih => exact ih hp.1
  | passed hs hsame h ih => exact ih (hp.2 true)
  | failed hs hgrown h ih => exact ih (hp.2 false)
  | guarded hb h ih => exact ih hp.2

/-! ### Calls that come back -/

theorem Settles.run_eq {p : Check φ ε κ δ} {t t₁ : Tally ε κ} {depth : ℕ} (h : Settles body p t t₁)
    (hdepth : p.run (runCalls body depth) t ≠ .error .depth) : p.run (runCalls body depth) t = .ok t₁ := by
  obtain ⟨d, h⟩ := h
  have hextends : Extends (runCalls body depth) (runCalls body (max depth d)) :=
    fun f t hf => runCalls_mono (Nat.le_max_left depth d) hf
  rw [← Check.run_extends hextends p t hdepth]
  exact Check.run_mono (Nat.le_max_right depth d) h

/-- A run that does not use up its depth comes back from the calls it makes. -/
theorem Enters.depth {p : Check φ ε κ δ} {t t' : Tally ε κ} {f : φ} {depth : ℕ} (h : Enters body p t f t')
    (hp : p.run (runCalls body depth) t ≠ .error .depth) : runCalls body depth f t' ≠ .error .depth := by
  induction h with
  | call => exact hp
  | seqLeft h ih =>
    refine ih fun hdepth => hp ?_
    rw [Check.run, hdepth]
    rfl
  | @seqRight p q t t₁ t' f hs h ih =>
    have hfirst : p.run (runCalls body depth) t ≠ .error .depth := fun hdepth => hp (by
      rw [Check.run, hdepth]
      rfl)
    rw [Check.run, hs.run_eq hfirst] at hp
    exact ih hp
  | tried h ih =>
    refine ih fun hdepth => hp ?_
    rw [Check.run, hdepth]
    rfl
  | @passed p k t t₁ t' f hs hsame h ih =>
    have hfirst : p.run (runCalls body depth) t ≠ .error .depth := fun hdepth => hp (by
      rw [Check.run, hdepth]
      rfl)
    rw [Check.run, hs.run_eq hfirst] at hp
    change (if t₁.errors.length = t.errors.length then _ else _) ≠ _ at hp
    rw [if_pos hsame] at hp
    exact ih hp
  | @failed p k t t₁ t' f hs hgrown h ih =>
    have hfirst : p.run (runCalls body depth) t ≠ .error .depth := fun hdepth => hp (by
      rw [Check.run, hdepth]
      rfl)
    rw [Check.run, hs.run_eq hfirst] at hp
    change (if t₁.errors.length = t.errors.length then _ else _) ≠ _ at hp
    rw [if_neg hgrown] at hp
    exact ih hp
  | guarded hb h ih =>
    rw [Check.run, hb] at hp
    exact ih hp

theorem Ends.calls {a b : φ × Tally ε κ} (h : Ends body (body a.1) a.2) (hab : Calls body a b) :
    Ends body (body b.1) b.2 := by
  obtain ⟨depth, h⟩ := h
  exact ends_call_iff.mp ⟨depth, Enters.depth hab h⟩

theorem Ends.reflTransGen {a b : φ × Tally ε κ} (h : Ends body (body a.1) a.2)
    (hab : ReflTransGen (Calls body) a b) : Ends body (body b.1) b.2 := by
  induction hab with
  | refl => exact h
  | tail _ hbc ih => exact ih.calls hbc

theorem depth_lt_of_transGen {a b : φ × Tally ε κ} (hab : TransGen (Calls body) a b) :
    ∀ depth, (body a.1).run (runCalls body depth) a.2 ≠ .error .depth →
      ∃ depth' < depth, (body b.1).run (runCalls body depth') b.2 ≠ .error .depth := by
  have hcall : ∀ {a b : φ × Tally ε κ}, Calls body a b → ∀ depth,
      (body a.1).run (runCalls body depth) a.2 ≠ .error .depth →
        ∃ depth' < depth, (body b.1).run (runCalls body depth') b.2 ≠ .error .depth := by
    intro a b hab depth h
    have hb := Enters.depth hab h
    cases depth with
    | zero => exact absurd rfl hb
    | succ depth => exact ⟨depth, Nat.lt_succ_self depth, hb⟩
  induction hab with
  | single hab => exact hcall hab
  | tail _ hbc ih =>
    intro depth h
    obtain ⟨d₁, hd₁, h₁⟩ := ih depth h
    obtain ⟨d₂, hd₂, h₂⟩ := hcall hbc d₁ h₁
    exact ⟨d₂, hd₂.trans hd₁, h₂⟩

/-- A call that is entered again while it is running, in a state that looks the same, does not end. -/
theorem not_ends_of_return {Q : φ → Prop} {S : κ → κ → Prop} (hbody : ∀ f, Q f → (body f).Within Q S)
    {f : φ} (hf : Q f) {t t' : Tally ε κ} (hsame : S t.notes t'.notes)
    (h : TransGen (Calls body) (f, t) (f, t')) : ¬ Ends body (body f) t := by
  classical
  intro hends
  -- the least depth with which the outer call ends would do for the inner one with some to spare
  obtain ⟨depth, hdepth, hinner⟩ := depth_lt_of_transGen h _ (Nat.find_spec hends)
  refine Nat.find_min hends hdepth fun houter => hinner ?_
  have halike := (hbody f hf).alike (runCalls_alike hbody depth) t t' hsame
  exact halike.depth_iff.mp houter

/-- **When the recursion ends.**  With finitely many calls and finitely many things to see of the notes,
a recursion ends exactly if no call in it is entered again while it is running, in a state that looks
the same. -/
theorem ends_iff_no_return {ν : Type} {Q : φ → Prop} {see : κ → ν}
    (hbody : ∀ f, Q f → (body f).Within Q (fun s s' => see s = see s')) (hQ : {f | Q f}.Finite)
    (hsee : (Set.range see).Finite) {a : φ × Tally ε κ} (ha : Q a.1) :
    Ends body (body a.1) a.2 ↔ ∀ b c, ReflTransGen (Calls body) a b → TransGen (Calls body) b c →
      ¬ (c.1 = b.1 ∧ see c.2.notes = see b.2.notes) := by
  have hwithin : ∀ b, ReflTransGen (Calls body) a b → Q b.1 := by
    intro b hab
    induction hab with
    | refl => exact ha
    | tail _ hbc ih => exact Enters.over hbc (hbody _ ih)
  constructor
  · rintro h ⟨f, t⟩ ⟨f', t'⟩ hab hbc ⟨hf, hnotes⟩
    obtain rfl : f' = f := hf
    exact not_ends_of_return hbody (hwithin _ hab) hnotes.symm hbc (h.reflTransGen hab)
  · intro h
    -- what can be called, in what looks different, are finitely many keys
    have hkeys : {k : φ × ν | Q k.1 ∧ k.2 ∈ Set.range see}.Finite := hQ.prod hsee
    refine ends_of_grounded (grounded_of_no_return (fun b => (b.1, see b.2.notes)) hkeys.toFinset.toList
      (fun b hab => ?_) fun b c hab hbc hkey => ?_)
    · rw [Finset.mem_toList, Set.Finite.mem_toFinset]
      exact ⟨hwithin b hab, b.2.notes, rfl⟩
    · exact h b c hab hbc (Prod.mk.inj hkey)

end Siesta.Lib
