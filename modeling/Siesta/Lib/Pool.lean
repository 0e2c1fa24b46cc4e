import Siesta.Lib.Runs
import Mathlib.Data.List.Induction

/-!
# Components side by side

A pool starts empty.  Each of its steps adds the next component, or is a step of one component that leaves
the others alone.  Whatever the order of the steps, the components are where each of them can come to on its
own, and every choice of such components is reached by some order (`pool_reachable_iff`).
-/

namespace Siesta.Lib

open Relation

variable {σ : Type}

/-- A step of a pool in which the component number `i` starts at `start i`. -/
inductive PoolStep (Step : σ → σ → Prop) (start : ℕ → σ) : List σ → List σ → Prop
  | add (pool : List σ) : PoolStep Step start pool (pool ++ [start pool.length])
  | move (before after : List σ) (s s' : σ) (h : Step s s') :
      PoolStep Step start (before ++ s :: after) (before ++ s' :: after)

def OnTheirOwn (Step : σ → σ → Prop) (start : ℕ → σ) (pool : List σ) : Prop :=
  ∀ i s, pool[i]? = some s → ReflTransGen Step (start i) s

variable {Step : σ → σ → Prop} {start : ℕ → σ}

theorem getElem?_concat_cases {l : List σ} {s t : σ} {i : ℕ} (h : (l ++ [s])[i]? = some t) :
    l[i]? = some t ∨ i = l.length ∧ t = s := by
  rcases Nat.lt_or_ge i l.length with hlt | hge
  · rw [List.getElem?_append_left hlt] at h
    exact .inl h
  · have hlength := (List.getElem?_eq_some_iff.mp h).1
    rw [List.length_append, List.length_singleton] at hlength
    obtain rfl : i = l.length := by omega
    rw [List.getElem?_concat_length] at h
    exact .inr ⟨rfl, (Option.some.inj h).symm⟩

theorem onTheirOwn_concat {pool : List σ} {s : σ} :
    OnTheirOwn Step start (pool ++ [s]) ↔
      OnTheirOwn Step start pool ∧ ReflTransGen Step (start pool.length) s := by
  constructor
  · intro h
    refine ⟨fun i t ht => h i t ?_, h pool.length s List.getElem?_concat_length⟩
    rwa [List.getElem?_append_left (List.getElem?_eq_some_iff.mp ht).1]
  · rintro ⟨hpool, hs⟩ i t ht
    rcases getElem?_concat_cases ht with ht | ⟨rfl, rfl⟩
    · exact hpool i t ht
    · exact hs

/-- A step of one component leaves the others where they are. -/
theorem onTheirOwn_move {before after : List σ} {s s' : σ} (hstep : Step s s')
    (h : OnTheirOwn Step start (before ++ s :: after)) : OnTheirOwn Step start (before ++ s' :: after) := by
  intro i t ht
  by_cases hi : i = before.length
  · subst hi
    have hs : (before ++ s :: after)[before.length]? = some s := by simp
    have ht' : some s' = some t := by simpa using ht
    obtain rfl := Option.some.inj ht'
    exact (h before.length s hs).tail hstep
  · refine h i t ?_
    rcases Nat.lt_or_gt_of_ne hi with hlt | hgt
    · rwa [List.getElem?_append_left hlt] at ht ⊢
    · obtain ⟨k, hk⟩ : ∃ k, i - before.length = k + 1 := ⟨i - before.length - 1, by omega⟩
      rw [List.getElem?_append_right (Nat.le_of_lt hgt), hk, List.getElem?_cons_succ] at ht ⊢
      exact ht

theorem onTheirOwn_step {pool pool' : List σ} (h : OnTheirOwn Step start pool)
    (hstep : PoolStep Step start pool pool') : OnTheirOwn Step start pool' := by
  cases hstep with
  | add => exact onTheirOwn_concat.mpr ⟨h, .refl⟩
  | move before after s s' hmove => exact onTheirOwn_move hmove h

theorem pool_run_of_component {before after : List σ} {s s' : σ} (hrun : ReflTransGen Step s s') :
    ReflTransGen (PoolStep Step start) (before ++ s :: after) (before ++ s' :: after) :=
  ReflTransGen.lift (fun t => before ++ t :: after) (fun s s' h => PoolStep.move before after s s' h) _ _ hrun

/-- **A pool is its components, each on its own.** -/
theorem pool_reachable_iff {pool : List σ} :
    ReflTransGen (PoolStep Step start) [] pool ↔ OnTheirOwn Step start pool := by
  constructor
  · exact invariant (I := OnTheirOwn Step start) (fun _ _ => onTheirOwn_step) fun i s h => by simp at h
  · intro h
    induction pool using List.reverseRecOn with
    | nil => exact .refl
    | append_singleton pool s ih =>
      obtain ⟨hpool, hs⟩ := onTheirOwn_concat.mp h
      exact ((ih hpool).tail (.add pool)).trans (pool_run_of_component hs)

end Siesta.Lib
