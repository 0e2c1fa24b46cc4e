import Siesta.Lib.Text
import Mathlib.Data.List.Infix
import Mathlib.Algebra.Group.Nat.Defs

/-!
# Positions of separators: `include/siesta/tokenized_string.hpp`

The constructor cuts a pattern at its separators and stores where each piece ends, in 16 bits; `match`
cuts another text the same way and compares as it goes.  What is to be stored is `separatorEnds`.
-/

namespace Siesta

open Lib

/-- `find_first_of`. -/
def find_first_of (sv : Str) (sep : Char) : Option ℕ := sv.findIdx? fun c => c = sep

theorem find_first_of_lt {sv : Str} {sep : Char} {pos : ℕ} (h : find_first_of sv sep = some pos) :
    pos < sv.length := by
  obtain ⟨hlt, -⟩ := List.findIdx?_eq_some_iff_getElem.mp h
  exact hlt

/-- `tokenized_string`. -/
structure TokenizedString where
  _str : Str
  _token_pos : List UInt16
  _sep : Char
  deriving DecidableEq

namespace TokenizedString

def cut (sep : Char) (sv : Str) (_token_pos : List UInt16) : List UInt16 :=
  match h : find_first_of sv sep with
  | none => _token_pos
  | some pos =>
    let back := _token_pos.getLast?.elim 0 UInt16.toNat
    let _token_pos := _token_pos ++ [UInt16.ofNat (back + pos + 1)]
    if sv.drop (pos + 1) = [] then _token_pos else cut sep (sv.drop (pos + 1)) _token_pos
termination_by sv.length
decreasing_by
  have := find_first_of_lt h
  rw [List.length_drop]
  omega

def make (sv : Str) (sep : Char) : TokenizedString :=
  { _str := sv, _token_pos := cut sep sv [], _sep := sep }

/-- The loop of `match`, where `index` is the position of the iterator: nothing if the iterator is read at
the end. -/
def compare (t : TokenizedString) (index : ℕ) (sv : Str) : Option Bool :=
  match _h : find_first_of sv t._sep with
  | none => some true
  | some pos =>
    let prev := if index = 0 then 0 else (t._token_pos[index - 1]?).elim 0 UInt16.toNat
    match t._token_pos[index]? with
    | none => none
    | some stored =>
      if prev + (pos + 1) ≠ stored.toNat then some false
      else if sv.drop (pos + 1) = [] then some true
      else t.compare (index + 1) (sv.drop (pos + 1))
termination_by sv.length
decreasing_by
  have := find_first_of_lt _h
  rw [List.length_drop]
  omega

/-- `match`. -/
def match_ (t : TokenizedString) (sv : Str) : Option Bool := t.compare 0 sv

end TokenizedString

/-! ### The indices behind the separators -/

/-- The indices just behind the separators of a text that begins at the index `start`. -/
def endsFrom (sep : Char) : ℕ → Str → List ℕ
  | _, [] => []
  | start, c :: s => if c = sep then (start + 1) :: endsFrom sep (start + 1) s else endsFrom sep (start + 1) s

def separatorEnds (sep : Char) (s : Str) : List ℕ := endsFrom sep 0 s

theorem find_first_of_cons (c : Char) (s : Str) (sep : Char) :
    find_first_of (c :: s) sep = if c = sep then some 0 else (find_first_of s sep).map (· + 1) := by
  unfold find_first_of
  rw [List.findIdx?_cons]
  simp

theorem endsFrom_of_none {sep : Char} {sv : Str} (h : find_first_of sv sep = none) (start : ℕ) :
    endsFrom sep start sv = [] := by
  induction sv generalizing start with
  | nil => rfl
  | cons c sv ih =>
    rw [find_first_of_cons] at h
    by_cases hc : c = sep
    · rw [if_pos hc] at h
      cases h
    · rw [if_neg hc, Option.map_eq_none_iff] at h
      rw [endsFrom, if_neg hc]
      exact ih h _

theorem endsFrom_of_some {sep : Char} {sv : Str} {pos : ℕ} (h : find_first_of sv sep = some pos) (start : ℕ) :
    endsFrom sep start sv = (start + pos + 1) :: endsFrom sep (start + pos + 1) (sv.drop (pos + 1)) := by
  induction sv generalizing pos start with
  | nil => cases h
  | cons c sv ih =>
    rw [find_first_of_cons] at h
    by_cases hc : c = sep
    · rw [if_pos hc] at h
      obtain rfl : 0 = pos := Option.some.inj h
      rw [endsFrom, if_pos hc]
      rfl
    · rw [if_neg hc] at h
      obtain ⟨pos, hpos, rfl⟩ := Option.map_eq_some_iff.mp h
      rw [endsFrom, if_neg hc, ih hpos, List.drop_succ_cons, show start + 1 + pos + 1 = start + (pos + 1) + 1 by omega]

namespace TokenizedString

/-! ### The constructor -/

theorem ofNat_add (start d : ℕ) : UInt16.ofNat ((UInt16.ofNat start).toNat + d) = UInt16.ofNat (start + d) := by
  apply UInt16.toNat_inj.mp
  rw [UInt16.toNat_ofNat', UInt16.toNat_ofNat', UInt16.toNat_ofNat', Nat.mod_add_mod]

theorem cut_eq {sep : Char} : ∀ {sv : Str} (_token_pos : List UInt16) (start : ℕ),
    _token_pos.getLast?.elim 0 UInt16.toNat = (UInt16.ofNat start).toNat →
    cut sep sv _token_pos = _token_pos ++ (endsFrom sep start sv).map UInt16.ofNat := by
  intro sv
  induction hlen : sv.length using Nat.strong_induction_on generalizing sv with
  | _ len ih =>
    intro _token_pos start hback
    rw [cut]
    split
    · rename_i hnone
      rw [endsFrom_of_none hnone, List.map_nil, List.append_nil]
    · rename_i pos hsome
      have hlt := find_first_of_lt hsome
      dsimp only
      rw [endsFrom_of_some hsome, List.map_cons, hback, Nat.add_assoc _ pos 1, ofNat_add, ← Nat.add_assoc]
      split
      · rename_i hrest
        rw [hrest]
        rfl
      · rw [ih _ (by rw [List.length_drop]; omega) rfl _ (start + (pos + 1))
          (by rw [List.getLast?_append, List.getLast?_singleton]; rfl), List.append_assoc]
        rfl

/-- What the constructor stores are the indices behind the separators, in 16 bits. -/
theorem make_token_pos (str : Str) (sep : Char) :
    (make str sep)._token_pos = (separatorEnds sep str).map UInt16.ofNat := cut_eq [] 0 rfl

theorem toNat_token_pos (str : Str) (sep : Char) :
    (make str sep)._token_pos.map UInt16.toNat = (separatorEnds sep str).map (· % 2 ^ 16) := by
  rw [make_token_pos, List.map_map]
  exact List.map_congr_left fun p _ => UInt16.toNat_ofNat' ..

theorem token_pos_eq_iff {str : Str} {sep : Char} :
    (make str sep)._token_pos.map UInt16.toNat = separatorEnds sep str ↔
      ∀ p ∈ separatorEnds sep str, p < 2 ^ 16 := by
  have hsame : (separatorEnds sep str).map (· % 2 ^ 16) = (separatorEnds sep str).map id ↔ _ := List.map_inj_left
  rw [toNat_token_pos, ← hsame.trans (forall₂_congr fun p _ => Nat.mod_eq_iff_lt (by decide)), List.map_id]

/-! ### The matcher -/

/-- Two lists of positions, compared one by one: nothing, if the first is used up before the second. -/
def compared : List ℕ → List ℕ → Option Bool
  | _, [] => some true
  | [], _ :: _ => none
  | p :: stored, q :: ends => if q = p then compared stored ends else some false

theorem compared_eq (stored ends : List ℕ) : compared stored ends =
    if ends <+: stored then some true else if stored <+: ends then none else some false := by
  induction ends generalizing stored with
  | nil => simp [compared]
  | cons q ends ih =>
    cases stored with
    | nil => simp [compared]
    | cons p stored =>
      by_cases hq : q = p
      · subst hq
        simp only [compared, if_true, ih, List.cons_prefix_cons, true_and]
      · simp [compared, hq, Ne.symm hq]

/-- The matcher compares what is stored with the indices behind the separators of the text. -/
theorem compare_eq (t : TokenizedString) : ∀ {sv : Str} {index start : ℕ}, index ≤ t._token_pos.length →
    (if index = 0 then 0 else (t._token_pos[index - 1]?).elim 0 UInt16.toNat) = start →
    t.compare index sv = compared ((t._token_pos.map UInt16.toNat).drop index) (endsFrom t._sep start sv) := by
  intro sv
  induction hlen : sv.length using Nat.strong_induction_on generalizing sv with
  | _ len ih =>
    intro index start hindex hprev
    rw [compare]
    split
    · rename_i hnone
      rw [endsFrom_of_none hnone, compared]
    · rename_i pos hsome
      have hlt := find_first_of_lt hsome
      rw [endsFrom_of_some hsome]
      dsimp only
      split
      · rename_i hend
        rw [List.getElem?_eq_none_iff] at hend
        rw [List.drop_eq_nil_of_le (by rw [List.length_map]; exact hend)]
        rfl
      · rename_i stored hstored
        obtain ⟨hbound, rfl⟩ := List.getElem?_eq_some_iff.mp hstored
        have hbound' : index < (t._token_pos.map UInt16.toNat).length := by rwa [List.length_map]
        rw [List.drop_eq_getElem_cons hbound', List.getElem_map, compared, hprev, ← Nat.add_assoc]
        by_cases hsame : start + pos + 1 = t._token_pos[index].toNat
        · rw [if_neg (not_not.mpr hsame), if_pos hsame]
          split
          · rename_i hrest
            rw [hrest, endsFrom, compared]
          · refine ih _ (by rw [List.length_drop]; omega) rfl (by omega) ?_
            rw [if_neg (by omega), Nat.add_sub_cancel, hstored]
            exact hsame.symm
        · rw [if_pos hsame, if_neg hsame]

theorem match_eq (t : TokenizedString) (sv : Str) :
    t.match_ sv = compared (t._token_pos.map UInt16.toNat) (separatorEnds t._sep sv) := by
  rw [match_, compare_eq t (Nat.zero_le _) rfl]
  rfl

/-- **When positions are stored and matched as they should be.**  Every index behind a separator of the
pattern has 16 bits, and the separators of the two texts are at the same positions or neither list of
positions continues the other. -/
theorem stores_and_matches_iff (str sv : Str) (sep : Char) :
    ((make str sep)._token_pos.map UInt16.toNat = separatorEnds sep str ∧
      (make str sep).match_ sv = some (decide (separatorEnds sep sv = separatorEnds sep str))) ↔
    (∀ p ∈ separatorEnds sep str, p < 2 ^ 16) ∧
      (separatorEnds sep sv = separatorEnds sep str ∨
        ¬ separatorEnds sep sv <+: separatorEnds sep str ∧ ¬ separatorEnds sep str <+: separatorEnds sep sv) := by
  rw [← token_pos_eq_iff, match_eq]
  refine and_congr_right fun hstored => ?_
  have hsep : (make str sep)._sep = sep := rfl
  rw [hstored, hsep, compared_eq]
  by_cases hsame : separatorEnds sep sv = separatorEnds sep str
  · simp [hsame]
  · have hshorter : separatorEnds sep sv <+: separatorEnds sep str → ¬ separatorEnds sep str <+: separatorEnds sep sv :=
      fun h h' => hsame (h.eq_of_length_le h'.length_le)
    by_cases hpre : separatorEnds sep sv <+: separatorEnds sep str
    · simp [hsame, hpre]
    · by_cases hpre' : separatorEnds sep str <+: separatorEnds sep sv
      · simp [hsame, hpre, hpre']
      · simp [hsame, hpre, hpre']

theorem endsFrom_of_notMem {sep : Char} {s : Str} (h : sep ∉ s) (start : ℕ) (rest : Str) :
    endsFrom sep start (s ++ rest) = endsFrom sep (start + s.length) rest := by
  induction s generalizing start with
  | nil => rfl
  | cons c s ih =>
    obtain ⟨hc, hs⟩ := not_or.mp (mt List.mem_cons.mpr h)
    rw [List.cons_append, endsFrom, if_neg (Ne.symm hc), ih hs, List.length_cons]
    congr 1
    omega

/-- A text with fewer separators is accepted, one with more is compared past the last position, and the
index behind 65536 characters is stored as `1`. -/
theorem other_separators_matched :
    ((make "/a/b".toList '/').match_ "/a".toList = some true ∧
      separatorEnds '/' "/a".toList ≠ separatorEnds '/' "/a/b".toList) ∧
    (make "/a".toList '/').match_ "/a/b".toList = none ∧
    (make (List.replicate 65536 'a' ++ ['/']) '/')._token_pos = [1] ∧
      separatorEnds '/' (List.replicate 65536 'a' ++ ['/']) = [65537] := by
  have hlong : separatorEnds '/' (List.replicate 65536 'a' ++ ['/']) = [65537] := by
    have hfree : '/' ∉ List.replicate 65536 'a' := fun h => absurd (List.eq_of_mem_replicate h) (by decide)
    rw [separatorEnds, endsFrom_of_notMem hfree, List.length_replicate]
    rfl
  rw [make_token_pos, hlong, match_eq, match_eq, toNat_token_pos, toNat_token_pos]
  exact ⟨by decide, by decide, rfl, rfl⟩

end TokenizedString

end Siesta
