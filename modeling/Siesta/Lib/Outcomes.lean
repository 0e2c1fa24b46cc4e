import Siesta.Lib.CallChains
import Siesta.Lib.ListM

/-!
# What the runs of a check come to

`Check.Yields` says which errors a check can report and which faults it can end with, and a run of checks
that call each other comes to nothing else (`runCalls_yielded`).  A run that ends with a fault has come,
through a chain of calls, to a check that has it (`exists_thrown`), so that a recursion returns exactly if
it is finite and comes to no such check (`returns_iff_ends`).  Where there are no faults and every call is
below the one that makes it, the run returns, within as many levels of calls (`runCalls_returns`).
-/

namespace Siesta.Lib

variable {φ ε κ δ : Type}

/-! ### Errors and faults -/

/-- The check reports errors in `E` and ends with faults in `D` only, its calls aside. -/
def Check.Yields (E : ε → Prop) (D : δ → Prop) : Check φ ε κ δ → Prop
  | .done => True
  | .report e => E e
  | .fault d => D d
  | .call _ => True
  | .note _ => True
  | .seq p q => p.Yields E D ∧ q.Yields E D
  | .attempt p k => p.Yields E D ∧ ∀ x, (k x).Yields E D
  | .skipIf _ p => p.Yields E D

namespace Check.Yields

variable {E E' : ε → Prop} {D D' : δ → Prop}

theorem all {ps : List (Check φ ε κ δ)} (h : ∀ p ∈ ps, p.Yields E D) : (Check.all ps).Yields E D := by
  induction ps with
  | nil => trivial
  | cons p ps ih =>
    exact ⟨h p (List.mem_cons_self ..), ih fun q hq => h q (List.mem_cons_of_mem _ hq)⟩

theorem all_map {ι : Type} {check : ι → Check φ ε κ δ} {l : List ι} (h : ∀ i ∈ l, (check i).Yields E D) :
    (Check.all (l.map check)).Yields E D := by
  refine all fun p hp => ?_
  obtain ⟨i, hi, rfl⟩ := List.mem_map.mp hp
  exact h i hi

theorem mono (hE : ∀ e, E e → E' e) (hD : ∀ d, D d → D' d) {p : Check φ ε κ δ} (h : p.Yields E D) :
    p.Yields E' D' := by
  induction p with
  | done | call | note => trivial
  | report e => exact hE e h
  | fault d => exact hD d h
  | seq p q hp hq => exact ⟨hp h.1, hq h.2⟩
  | attempt p k hp hk => exact ⟨hp h.1, fun x => hk x (h.2 x)⟩
  | skipIf b p hp => exact hp h

end Check.Yields

/-- A run, started in `t`, that adds errors in `E` to the list, or ends with a fault in `D`. -/
inductive Yielded (E : ε → Prop) (D : δ → Prop) (t : Tally ε κ) : Except (Stop δ) (Tally ε κ) → Prop
  | depth : Yielded E D t (.error .depth)
  | fault {d : δ} (h : D d) : Yielded E D t (.error (.fault d))
  | returned {t' : Tally ε κ} (new : List ε) (h : t'.errors = t.errors ++ new) (hnew : ∀ e ∈ new, E e) :
      Yielded E D t (.ok t')

namespace Yielded

variable {E : ε → Prop} {D : δ → Prop} {t u : Tally ε κ}

theorem append {new : List ε} (hu : u.errors = t.errors ++ new) (hnew : ∀ e ∈ new, E e)
    {r : Except (Stop δ) (Tally ε κ)} (h : Yielded E D u r) : Yielded E D t r := by
  cases h with
  | depth => exact .depth
  | fault h => exact .fault h
  | returned new' h hnew' =>
    refine .returned (new ++ new') (by rw [h, hu, List.append_assoc]) fun e he => ?_
    exact (List.mem_append.mp he).elim (hnew e) (hnew' e)

theorem of_errors_eq (hu : u.errors = t.errors) {r : Except (Stop δ) (Tally ε κ)} (h : Yielded E D u r) :
    Yielded E D t r := h.append (by rw [hu, List.append_nil]) fun _ he => absurd he List.not_mem_nil

theorem bind {r : Except (Stop δ) (Tally ε κ)} {next : Tally ε κ → Except (Stop δ) (Tally ε κ)}
    (h : Yielded E D t r)
    (hnext : ∀ u new, u.errors = t.errors ++ new → (∀ e ∈ new, E e) → Yielded E D t (next u)) :
    Yielded E D t (r.bind next) := by
  cases h with
  | depth => exact .depth
  | fault h => exact .fault h
  | returned new h hnew => exact hnext _ new h hnew

end Yielded

section Runs

variable [Inhabited ε] {E : ε → Prop} {D : δ → Prop} {Q : φ → Prop} {N : (κ → κ) → Prop} {G : (κ → Bool) → Prop}

theorem Check.run_yielded {call : φ → Tally ε κ → Except (Stop δ) (Tally ε κ)}
    (hcall : ∀ f, Q f → ∀ t, Yielded E D t (call f t)) {p : Check φ ε κ δ} (hover : p.Over Q N G)
    (hp : p.Yields E D) : ∀ t, Yielded E D t (p.run call t) := by
  induction p with
  | done => exact fun t => .returned [] (by simp) (by simp)
  | report e =>
    refine fun t => .returned [e] rfl fun e' he => ?_
    obtain rfl := List.mem_singleton.mp he
    exact hp
  | fault d => exact fun t => .fault hp
  | call f => exact hcall f hover
  | note u => exact fun t => .returned [] (by simp) (by simp)
  | seq p q ihp ihq =>
    intro t
    refine (ihp hover.1 hp.1 t).bind fun u new hu hnew => ?_
    exact (ihq hover.2 hp.2 u).append hu hnew
  | attempt p k ihp ihk =>
    intro t
    refine (ihp hover.1 hp.1 t).bind fun u new hu hnew => ?_
    split
    · exact (ihk true (hover.2 true) (hp.2 true) u).append hu hnew
    · -- the trial's errors are dropped, and the list is what it was
      have hback : resize t.errors.length u.errors = t.errors := by rw [hu, resize_append]
      refine (ihk false (hover.2 false) (hp.2 false) _).of_errors_eq ?_
      exact hback
  | skipIf b p ihp =>
    intro t
    rw [Check.run]
    split
    · exact .returned [] (by simp) (by simp)
    · exact ihp hover.2 hp t

/-- A recursion of checks that report errors in `E` and end with faults in `D` comes to nothing else. -/
theorem runCalls_yielded {body : φ → Check φ ε κ δ} (hover : ∀ f, Q f → (body f).Over Q N G)
    (hbody : ∀ f, Q f → (body f).Yields E D) :
    ∀ depth f, Q f → ∀ t, Yielded E D t (runCalls body depth f t) := by
  intro depth
  induction depth with
  | zero => exact fun f _ t => .depth
  | succ depth ih => exact fun f hf => Check.run_yielded ih (hover f hf) (hbody f hf)

end Runs

/-! ### Where a fault comes from -/

section Faults

variable [Inhabited ε] {body : φ → Check φ ε κ δ}

/-- Started in `t`, the check comes to the fault `d` of its own. -/
inductive Throws (body : φ → Check φ ε κ δ) : Check φ ε κ δ → Tally ε κ → δ → Prop
  | fault {d : δ} {t : Tally ε κ} : Throws body (.fault d) t d
  | seqLeft {p q : Check φ ε κ δ} {t : Tally ε κ} {d : δ} (h : Throws body p t d) : Throws body (.seq p q) t d
  | seqRight {p q : Check φ ε κ δ} {t t₁ : Tally ε κ} {d : δ} (hp : Settles body p t t₁)
      (h : Throws body q t₁ d) : Throws body (.seq p q) t d
  | tried {p : Check φ ε κ δ} {k : Bool → Check φ ε κ δ} {t : Tally ε κ} {d : δ} (h : Throws body p t d) :
      Throws body (.attempt p k) t d
  | passed {p : Check φ ε κ δ} {k : Bool → Check φ ε κ δ} {t t₁ : Tally ε κ} {d : δ}
      (hp : Settles body p t t₁) (hsame : t₁.errors.length = t.errors.length)
      (h : Throws body (k true) t₁ d) : Throws body (.attempt p k) t d
  | failed {p : Check φ ε κ δ} {k : Bool → Check φ ε κ δ} {t t₁ : Tally ε κ} {d : δ}
      (hp : Settles body p t t₁) (hgrown : t₁.errors.length ≠ t.errors.length)
      (h : Throws body (k false) { t₁ with errors := resize t.errors.length t₁.errors } d) :
      Throws body (.attempt p k) t d
  | guarded {b : κ → Bool} {p : Check φ ε κ δ} {t : Tally ε κ} {d : δ} (hb : b t.notes = false)
      (h : Throws body p t d) : Throws body (.skipIf b p) t d

theorem Throws.yields {E : ε → Prop} {D : δ → Prop} {p : Check φ ε κ δ} {t : Tally ε κ} {d : δ}
    (h : Throws body p t d) (hp : p.Yields E D) : D d := by
  induction h with
  | fault => exact hp
  | seqLeft _ ih => exact ih hp.1
  | seqRight _ _ ih => exact ih hp.2
  | tried _ ih => exact ih hp.1
  | passed _ _ _ ih => exact ih (hp.2 true)
  | failed _ _ _ ih => exact ih (hp.2 false)
  | guarded _ _ ih => exact ih hp

theorem Check.thrown_or_entered {depth : ℕ} {d : δ} (p : Check φ ε κ δ) : ∀ t,
    p.run (runCalls body depth) t = .error (.fault d) → Throws body p t d ∨
      ∃ f t', Enters body p t f t' ∧ runCalls body depth f t' = .error (.fault d) := by
  induction p with
  | done => exact fun t h => absurd h (by simp [Check.run])
  | report e => exact fun t h => absurd h (by simp [Check.run])
  | note u => exact fun t h => absurd h (by simp [Check.run])
  | fault d' =>
    intro t h
    obtain rfl : d' = d := by simpa [Check.run] using h
    exact .inl .fault
  | call f => exact fun t h => .inr ⟨f, t, .call, h⟩
  | seq p q ihp ihq =>
    intro t h
    rw [Check.run] at h
    cases hrun : p.run (runCalls body depth) t with
    | error s =>
      obtain rfl : s = .fault d := by simpa [hrun, bind, Except.bind] using h
      rcases ihp t hrun with h | ⟨f, t', henters, hf⟩
      · exact .inl (.seqLeft h)
      · exact .inr ⟨f, t', .seqLeft henters, hf⟩
    | ok t₁ =>
      rw [hrun] at h
      have hsettles : Settles body p t t₁ := ⟨depth, hrun⟩
      rcases ihq t₁ h with h | ⟨f, t', henters, hf⟩
      · exact .inl (.seqRight hsettles h)
      · exact .inr ⟨f, t', .seqRight hsettles henters, hf⟩
  | attempt p k ihp ihk =>
    intro t h
    rw [Check.run] at h
    cases hrun : p.run (runCalls body depth) t with
    | error s =>
      obtain rfl : s = .fault d := by simpa [hrun, bind, Except.bind] using h
      rcases ihp t hrun with h | ⟨f, t', henters, hf⟩
      · exact .inl (.tried h)
      · exact .inr ⟨f, t', .tried henters, hf⟩
    | ok t₁ =>
      rw [hrun] at h
      have hsettles : Settles body p t t₁ := ⟨depth, hrun⟩
      change (if t₁.errors.length = t.errors.length then _ else _) = _ at h
      split at h
      · rename_i hsame
        rcases ihk true _ h with h | ⟨f, t', henters, hf⟩
        · exact .inl (.passed hsettles hsame h)
        · exact .inr ⟨f, t', .passed hsettles hsame henters, hf⟩
      · rename_i hgrown
        rcases ihk false _ h with h | ⟨f, t', henters, hf⟩
        · exact .inl (.failed hsettles hgrown h)
        · exact .inr ⟨f, t', .failed hsettles hgrown henters, hf⟩
  | skipIf b p ihp =>
    intro t h
    rw [Check.run] at h
    split at h
    · cases h
    · rename_i hb
      rw [Bool.not_eq_true] at hb
      rcases ihp t h with h | ⟨f, t', henters, hf⟩
      · exact .inl (.guarded hb h)
      · exact .inr ⟨f, t', .guarded hb henters, hf⟩

/-- A recursion that ends with a fault has come, through a chain of calls, to a check with the fault. -/
theorem exists_thrown {d : δ} : ∀ (depth : ℕ) (a : φ × Tally ε κ),
    runCalls body depth a.1 a.2 = .error (.fault d) →
      ∃ b, Relation.ReflTransGen (Calls body) a b ∧ Throws body (body b.1) b.2 d := by
  intro depth
  induction depth with
  | zero => exact fun a h => absurd h (by simp [runCalls])
  | succ depth ih =>
    intro a h
    rcases Check.thrown_or_entered _ _ h with hthrown | ⟨f, t, henters, hf⟩
    · exact ⟨a, .refl, hthrown⟩
    · obtain ⟨b, hab, hb⟩ := ih (f, t) hf
      have hcalls : Calls body a (f, t) := henters
      exact ⟨b, .head hcalls hab, hb⟩

theorem Enters.settles {p : Check φ ε κ δ} {t t' u : Tally ε κ} {f : φ} (h : Enters body p t f t')
    (hp : Settles body p t u) : ∃ u', Settles body (body f) t' u' := by
  obtain ⟨depth, hp⟩ := hp
  have hcall : ∃ v, runCalls body depth f t' = .ok v := by
    induction h generalizing u with
    | call => exact ⟨u, hp⟩
    | seqLeft h ih =>
      rw [Check.run] at hp
      obtain ⟨v, hv, -⟩ := bind_eq_ok.mp hp
      exact ih hv
    | seqRight hs h ih =>
      rw [Check.run] at hp
      obtain ⟨v, hv, hq⟩ := bind_eq_ok.mp hp
      obtain rfl := hs.unique ⟨depth, hv⟩
      exact ih hq
    | tried h ih =>
      rw [Check.run] at hp
      obtain ⟨v, hv, -⟩ := bind_eq_ok.mp hp
      exact ih hv
    | passed hs hsame h ih =>
      rw [Check.run] at hp
      obtain ⟨v, hv, hk⟩ := bind_eq_ok.mp hp
      obtain rfl := hs.unique ⟨depth, hv⟩
      rw [if_pos hsame] at hk
      exact ih hk
    | failed hs hgrown h ih =>
      rw [Check.run] at hp
      obtain ⟨v, hv, hk⟩ := bind_eq_ok.mp hp
      obtain rfl := hs.unique ⟨depth, hv⟩
      rw [if_neg hgrown] at hk
      exact ih hk
    | guarded hb h ih =>
      rw [Check.run, hb] at hp
      exact ih hp
  obtain ⟨v, hv⟩ := hcall
  cases depth with
  | zero => cases hv
  | succ depth => exact ⟨v, depth, hv⟩

/-- **When a recursion returns.**  It returns exactly if it is finite and none of the calls it comes to has a
fault of its own. -/
theorem returns_iff_ends {F : φ → Prop}
    (hthrows : ∀ f t d, Throws body (body f) t d → F f)
    (hfails : ∀ f t t', F f → ¬ Settles body (body f) t t') {a : φ × Tally ε κ} :
    (∃ t', Settles body (body a.1) a.2 t') ↔
      Ends body (body a.1) a.2 ∧ ∀ b, Relation.ReflTransGen (Calls body) a b → ¬ F b.1 := by
  constructor
  · intro h
    have hreached : ∀ b, Relation.ReflTransGen (Calls body) a b →
        ∃ t', Settles body (body b.1) b.2 t' := by
      intro b hab
      induction hab with
      | refl => exact h
      | tail _ hbc ih =>
        obtain ⟨t', ht'⟩ := ih
        exact hbc.settles ht'
    refine ⟨?_, fun b hab hF => ?_⟩
    · obtain ⟨t', depth, hrun⟩ := h
      exact ⟨depth, by rw [hrun]; simp⟩
    · obtain ⟨t', ht'⟩ := hreached b hab
      exact hfails _ _ _ hF ht'
  · rintro ⟨hends, hsound⟩
    rcases hends.cases with h | ⟨depth, d, hfault⟩
    · exact h
    · obtain ⟨b, hab, hb⟩ := exists_thrown (depth + 1) a hfault
      exact absurd (hthrows _ _ _ hb) (hsound b hab)

end Faults

/-! ### Runs that return -/

section Depth

variable [Inhabited ε] {E : ε → Prop} {Q : φ → Prop} {N : (κ → κ) → Prop} {G : (κ → Bool) → Prop}

theorem Check.run_returns {call : φ → Tally ε κ → Except (Stop δ) (Tally ε κ)}
    (hcall : ∀ f, Q f → ∀ t, ∃ t', call f t = .ok t') {p : Check φ ε κ δ} (hover : p.Over Q N G)
    (hp : p.Yields E fun _ => False) : ∀ t, ∃ t', p.run call t = .ok t' := by
  induction p with
  | done => exact fun t => ⟨t, rfl⟩
  | report e => exact fun t => ⟨_, rfl⟩
  | fault d => exact absurd hp id
  | call f => exact hcall f hover
  | note u => exact fun t => ⟨_, rfl⟩
  | seq p q ihp ihq =>
    intro t
    obtain ⟨u, hu⟩ := ihp hover.1 hp.1 t
    obtain ⟨t', ht'⟩ := ihq hover.2 hp.2 u
    refine ⟨t', ?_⟩
    rw [Check.run, hu]
    exact ht'
  | attempt p k ihp ihk =>
    intro t
    obtain ⟨u, hu⟩ := ihp hover.1 hp.1 t
    rw [Check.run, hu]
    show ∃ t', (if u.errors.length = t.errors.length then _ else _) = _
    split
    · exact ihk true (hover.2 true) (hp.2 true) _
    · exact ihk false (hover.2 false) (hp.2 false) _
  | skipIf b p ihp =>
    intro t
    rw [Check.run]
    split
    · exact ⟨t, rfl⟩
    · exact ihp hover.2 hp t

/-- **Recursion that goes down.**  Without faults, and with every call below the one that makes it, the run
returns, and the calls are no deeper than the measure of the first. -/
theorem runCalls_returns {body : φ → Check φ ε κ δ} (measure : φ → ℕ)
    (hover : ∀ f, Q f → (body f).Over (fun g => Q g ∧ measure g < measure f) N G)
    (hbody : ∀ f, Q f → (body f).Yields E fun _ => False) :
    ∀ depth f, Q f → measure f < depth → ∀ t, ∃ t', runCalls body depth f t = .ok t' := by
  intro depth
  induction depth with
  | zero => exact fun f _ hlt => absurd hlt (Nat.not_lt_zero _)
  | succ depth ih =>
    intro f hf hlt
    refine Check.run_returns (fun g hg => ih g hg.1 ?_) (hover f hf) (hbody f hf)
    have hbelow : measure g < measure f := hg.2
    omega

end Depth

end Siesta.Lib
