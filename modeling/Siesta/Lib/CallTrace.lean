import Siesta.Lib.Checks
import Mathlib.Data.List.Basic

/-!
# The calls that a run makes

`callsMade` lists the calls of a check in the order in which a run comes to them, without the calls that
these make in turn.  A check whose calls carry labels (`mapCalls` forgets them) says for each call what it
is made for.
-/

namespace Siesta.Lib.Check

variable {φ ψ ε κ δ : Type} [Inhabited ε]

/-! ### Labels -/

/-- The same check, which calls `g f` where the one calls `f`. -/
def mapCalls (g : φ → ψ) : Check φ ε κ δ → Check ψ ε κ δ
  | .done => .done
  | .report e => .report e
  | .fault d => .fault d
  | .call f => .call (g f)
  | .note u => .note u
  | .seq p q => .seq (p.mapCalls g) (q.mapCalls g)
  | .attempt p k => .attempt (p.mapCalls g) fun x => (k x).mapCalls g
  | .skipIf b p => .skipIf b (p.mapCalls g)

omit [Inhabited ε] in
theorem mapCalls_all (g : φ → ψ) (ps : List (Check φ ε κ δ)) :
    (Check.all ps).mapCalls g = Check.all (ps.map fun p => p.mapCalls g) := by
  induction ps with
  | nil => rfl
  | cons p ps ih =>
    rw [all_cons, mapCalls, ih]
    rfl

theorem run_mapCalls (call : ψ → Tally ε κ → Except (Stop δ) (Tally ε κ)) (g : φ → ψ) (p : Check φ ε κ δ) :
    (p.mapCalls g).run call = p.run fun f => call (g f) := by
  induction p with
  | done | report | fault | call | note => rfl
  | seq p q hp hq =>
    funext t
    rw [mapCalls, run, run, hp, hq]
  | attempt p k hp hk =>
    funext t
    rw [mapCalls, run, run, hp, hk, hk]
  | skipIf b p hp =>
    funext t
    rw [mapCalls, run, run, hp]

/-! ### The calls -/

variable {call : φ → Tally ε κ → Except (Stop δ) (Tally ε κ)}

def callsMade (call : φ → Tally ε κ → Except (Stop δ) (Tally ε κ)) : Check φ ε κ δ → Tally ε κ → List φ
  | .call f, _ => [f]
  | .seq p q, t =>
    p.callsMade call t ++
      match p.run call t with
      | .ok t' => q.callsMade call t'
      | .error _ => []
  | .attempt p k, t =>
    p.callsMade call t ++
      match p.run call t with
      | .ok t' =>
        if t'.errors.length = t.errors.length then (k true).callsMade call t'
        else (k false).callsMade call { t' with errors := resize t.errors.length t'.errors }
      | .error _ => []
  | .skipIf b p, t => if b t.notes then [] else p.callsMade call t
  | _, _ => []

theorem callsMade_seq {p : Check φ ε κ δ} {t t' : Tally ε κ} (h : p.run call t = .ok t') (q : Check φ ε κ δ) :
    (Check.seq p q).callsMade call t = p.callsMade call t ++ q.callsMade call t' := by
  rw [callsMade, h]

/-- What a sequence of checks calls that make the same calls in every state they return from. -/
theorem callsMade_all {ι : Type} {check : ι → Check φ ε κ δ} {calls : ι → List φ} {l : List ι}
    (h : ∀ i ∈ l, ∀ t t', (check i).run call t = .ok t' → (check i).callsMade call t = calls i) :
    ∀ {t t' : Tally ε κ}, (Check.all (l.map check)).run call t = .ok t' →
      (Check.all (l.map check)).callsMade call t = l.flatMap calls := by
  induction l with
  | nil => exact fun _ => rfl
  | cons i l ih =>
    intro t t' hrun
    rw [List.map_cons, all_cons] at hrun ⊢
    cases hfirst : (check i).run call t with
    | error s =>
      rw [run, hfirst] at hrun
      cases hrun
    | ok t₁ =>
      rw [run, hfirst] at hrun
      have hrest := ih (fun j hj => h j (List.mem_cons_of_mem _ hj)) hrun
      rw [callsMade_seq hfirst, h i (List.mem_cons_self ..) t t₁ hfirst, hrest]
      rfl

theorem callsMade_append {ps qs : List (Check φ ε κ δ)} {t t' : Tally ε κ} 
    (h : (Check.all ps).run call t = .ok t') :
    (Check.all (ps ++ qs)).callsMade call t =
      (Check.all ps).callsMade call t ++ (Check.all qs).callsMade call t' := by
  induction ps generalizing t with
  | nil =>
    obtain rfl := Except.ok.inj h
    rfl
  | cons p ps ih =>
    rw [all_cons, run] at h
    cases hfirst : p.run call t with
    | error s =>
      rw [hfirst] at h
      cases h
    | ok t₁ =>
      rw [hfirst] at h
      rw [List.cons_append, all_cons, all_cons, callsMade_seq hfirst, callsMade_seq hfirst, ih h,
        List.append_assoc]

end Siesta.Lib.Check
