import Mathlib.Data.List.Basic
import Mathlib.Data.List.Infix

/-!
# Texts as lists of characters

The operations of `std::string` that the models use, on lists of characters: one list element is
one `char`, so every byte string is covered (its characters are then below `256`).
-/

namespace Siesta.Lib

/-- A `std::string`: its characters, first to last. -/
abbrev Str : Type := List Char

/-- What is said of the characters of a text is decided on these, and not on all characters there are. -/
instance (priority := 2000) decidableAllChars {p : Char → Prop} [DecidablePred p] (s : List Char) :
    Decidable (∀ c ∈ s, p c) := List.decidableBAll p s

instance lawfulBEqStr : LawfulBEq Str := inferInstance

/-! ### Cutting at a separator -/

/-- What follows the last `c`: `s.substr(s.rfind(c) + 1)`, or nothing when there is no `c`. -/
def afterLast (c : Char) (s : Str) : Option Str :=
  match s with
  | [] => none
  | a :: s => (afterLast c s).or (if a = c then some s else none)

theorem afterLast_eq_none {c : Char} {s : Str} : afterLast c s = none ↔ c ∉ s := by
  induction s with
  | nil => simp [afterLast]
  | cons a s ih =>
    by_cases h : a = c
    · subst h; simp [afterLast]
    · simp [afterLast, ih, h, Ne.symm h]

theorem afterLast_eq_some {c : Char} {s t : Str} :
    afterLast c s = some t ↔ ∃ p, s = p ++ c :: t ∧ c ∉ t := by
  induction s with
  | nil => simp [afterLast]
  | cons a s ih =>
    by_cases hs : c ∈ s
    · -- a later `c` decides
      obtain ⟨u, hu⟩ := Option.ne_none_iff_exists'.mp (mt afterLast_eq_none.mp (not_not.mpr hs))
      have hcut : afterLast c (a :: s) = afterLast c s := by simp [afterLast, hu]
      rw [hcut, ih]
      constructor
      · rintro ⟨p, rfl, ht⟩
        exact ⟨a :: p, rfl, ht⟩
      · rintro ⟨p, hp, ht⟩
        cases p with
        | nil =>
          obtain ⟨-, rfl⟩ := List.cons.inj hp
          exact absurd hs ht
        | cons b p =>
          obtain ⟨-, rfl⟩ := List.cons.inj hp
          exact ⟨p, rfl, ht⟩
    · have hn : afterLast c s = none := afterLast_eq_none.mpr hs
      constructor
      · intro h
        by_cases ha : a = c
        · simp only [afterLast, hn, ha, if_true, Option.none_or, Option.some.injEq] at h
          subst h ha
          exact ⟨[], rfl, hs⟩
        · simp [afterLast, hn, ha] at h
      · rintro ⟨p, hp, ht⟩
        cases p with
        | nil =>
          obtain ⟨rfl, rfl⟩ := List.cons.inj hp
          simp [afterLast, hn]
        | cons b p =>
          obtain ⟨-, rfl⟩ := List.cons.inj hp
          simp at hs

/-! ### Finding a substring -/

/-- The texts before and after the first occurrence of `needle`: `find` and two `substr`. -/
def cutAt (needle : Str) : Str → Option (Str × Str)
  | [] => if needle.isEmpty then some ([], []) else none
  | a :: s =>
    if needle.isPrefixOf (a :: s) then some ([], (a :: s).drop needle.length)
    else (cutAt needle s).map fun e => (a :: e.1, e.2)

theorem cutAt_eq_some {needle s p q : Str} (h : cutAt needle s = some (p, q)) :
    s = p ++ needle ++ q := by
  induction s generalizing p with
  | nil =>
    unfold cutAt at h
    split at h
    · rename_i hn
      obtain ⟨rfl, rfl⟩ := Prod.mk.inj (Option.some.inj h)
      rw [List.isEmpty_iff.mp hn]
      rfl
    · simp at h
  | cons a s ih =>
    unfold cutAt at h
    split at h
    · rename_i hn
      obtain ⟨t, ht⟩ := List.isPrefixOf_iff_prefix.mp hn
      obtain ⟨rfl, rfl⟩ := Prod.mk.inj (Option.some.inj h)
      rw [← ht]
      simp
    · obtain ⟨⟨p', q'⟩, he, heq⟩ := Option.map_eq_some_iff.mp h
      obtain ⟨rfl, rfl⟩ := Prod.mk.inj heq
      rw [ih he]
      rfl

theorem cutAt_eq_none {needle s : Str} : cutAt needle s = none ↔ ¬ needle <:+: s := by
  induction s with
  | nil => cases needle <;> simp [cutAt]
  | cons a s ih =>
    unfold cutAt
    rw [List.infix_cons_iff, ← List.isPrefixOf_iff_prefix]
    split
    · rename_i hn
      simp [hn]
    · rename_i hn
      simp [hn, ih]

theorem length_le_of_cutAt {needle s p q p' q' : Str} (h : cutAt needle s = some (p, q))
    (h' : s = p' ++ needle ++ q') : p.length ≤ p'.length := by
  induction s generalizing p p' with
  | nil =>
    have hs := cutAt_eq_some h
    have hlen := congrArg List.length hs
    simp only [List.length_append, List.length_nil] at hlen
    omega
  | cons a s ih =>
    unfold cutAt at h
    split at h
    · obtain ⟨rfl, -⟩ := Prod.mk.inj (Option.some.inj h)
      exact Nat.zero_le _
    · rename_i hno
      obtain ⟨⟨p₁, q₁⟩, he, heq⟩ := Option.map_eq_some_iff.mp h
      obtain ⟨rfl, rfl⟩ := Prod.mk.inj heq
      cases p' with
      | nil => exact absurd (List.isPrefixOf_iff_prefix.mpr ⟨q', by simp [h']⟩) hno
      | cons b p' =>
        have htail : s = p' ++ needle ++ q' := by simpa using (List.cons.inj h').2
        exact Nat.succ_le_succ (ih he htail)

theorem not_infix_of_cutAt {needle s p q : Str} (hne : needle ≠ []) (h : cutAt needle s = some (p, q)) :
    ¬ needle <:+: p := by
  rintro ⟨x, y, rfl⟩
  have hs : s = x ++ needle ++ (y ++ needle ++ q) := by simpa using cutAt_eq_some h
  have hle := length_le_of_cutAt h hs
  have hpos := List.length_pos_of_ne_nil hne
  simp only [List.length_append] at hle
  omega

theorem exists_cutAt {needle s : Str} (h : needle <:+: s) : ∃ p q, cutAt needle s = some (p, q) := by
  obtain ⟨⟨p, q⟩, hcut⟩ := Option.ne_none_iff_exists'.mp (mt cutAt_eq_none.mp (not_not.mpr h))
  exact ⟨p, q, hcut⟩

/-- The first occurrence of a character is behind what does not have it. -/
theorem cutAt_char {c : Char} {p : Str} (hp : c ∉ p) (q : Str) : cutAt [c] (p ++ c :: q) = some (p, q) := by
  induction p with
  | nil => simp [cutAt]
  | cons a p ih =>
    rw [List.mem_cons, not_or] at hp
    rw [List.cons_append, cutAt, ih hp.2]
    simp [hp.1]

theorem cutAt_char_eq_none {c : Char} {s : Str} (h : c ∉ s) : cutAt [c] s = none := by
  rw [cutAt_eq_none, List.singleton_infix_iff]
  exact h

/-- The loop that replaces one occurrence after the other, going on behind what it has written. -/
def replaceUpTo (needle sub : Str) : ℕ → Str → Str
  | 0, s => s
  | fuel + 1, s =>
    match cutAt needle s with
    | none => s
    | some (p, q) => p ++ sub ++ replaceUpTo needle sub fuel q

/-- Replaces every occurrence of `needle`, which is not empty, from left to right. -/
def replaceAll (needle sub s : Str) : Str := replaceUpTo needle sub (s.length + 1) s

theorem replaceUpTo_eq {needle : Str} (hne : needle ≠ []) (sub : Str) : ∀ (fuel fuel' : ℕ) (s : Str),
    s.length < fuel → s.length < fuel' → replaceUpTo needle sub fuel s = replaceUpTo needle sub fuel' s := by
  intro fuel
  induction fuel with
  | zero => exact fun fuel' s h => absurd h (by omega)
  | succ fuel ih =>
    intro fuel' s h h'
    cases fuel' with
    | zero => omega
    | succ fuel' =>
      unfold replaceUpTo
      cases hcut : cutAt needle s with
      | none => rfl
      | some e =>
        obtain ⟨p, q⟩ := e
        have hlen := congrArg List.length (cutAt_eq_some hcut)
        have hpos : 0 < needle.length := List.length_pos_of_ne_nil hne
        rw [List.length_append, List.length_append] at hlen
        dsimp only
        rw [ih fuel' q (by omega) (by omega)]

theorem replaceAll_eq {needle : Str} (hne : needle ≠ []) (sub s : Str) :
    replaceAll needle sub s =
      match cutAt needle s with
      | none => s
      | some (p, q) => p ++ sub ++ replaceAll needle sub q := by
  rw [replaceAll, replaceUpTo]
  cases hcut : cutAt needle s with
  | none => rfl
  | some e =>
    obtain ⟨p, q⟩ := e
    have hlen := congrArg List.length (cutAt_eq_some hcut)
    have hpos : 0 < needle.length := List.length_pos_of_ne_nil hne
    rw [List.length_append, List.length_append] at hlen
    dsimp only
    rw [replaceAll, replaceUpTo_eq hne sub s.length (q.length + 1) q (by omega) (by omega)]

theorem replaceAll_append {needle : Str} (hne : needle ≠ []) (sub s : Str) :
    replaceAll needle sub (needle ++ s) = sub ++ replaceAll needle sub s := by
  have hcut : cutAt needle (needle ++ s) = some ([], s) := by
    cases needle with
    | nil => exact absurd rfl hne
    | cons a needle =>
      have hpre : (a :: needle).isPrefixOf (a :: needle ++ s) = true :=
        List.isPrefixOf_iff_prefix.mpr (List.prefix_append _ _)
      rw [List.cons_append] at hpre ⊢
      rw [cutAt, if_pos hpre, ← List.cons_append, List.drop_left]
  rw [replaceAll_eq hne, hcut]
  rfl

theorem replaceAll_cons {needle : Str} (hne : needle ≠ []) (sub : Str) {a : Char} {s : Str}
    (h : ¬ needle <+: a :: s) : replaceAll needle sub (a :: s) = a :: replaceAll needle sub s := by
  have hpre : needle.isPrefixOf (a :: s) = false := by
    rwa [← Bool.not_eq_true, List.isPrefixOf_iff_prefix]
  rw [replaceAll_eq hne, replaceAll_eq hne sub s, cutAt, hpre]
  cases cutAt needle s with
  | none => rfl
  | some e => rfl

theorem replaceAll_of_no_occurrence {needle : Str} (hne : needle ≠ []) (sub : Str) {s : Str}
    (h : ¬ needle <:+: s) : replaceAll needle sub s = s := by
  rw [replaceAll_eq hne, cutAt_eq_none.mpr h]

@[simp] theorem replaceAll_nil {needle : Str} (hne : needle ≠ []) (sub : Str) :
    replaceAll needle sub [] = [] := by
  rw [replaceAll_eq hne, cutAt, if_neg (by simpa using hne)]

/-! ### The segments of a path -/

/-- The segments of what follows a first segment, where the rest is empty or starts with `c`. -/
def segmentsAfter (c : Char) : Str → List Str
  | [] => []
  | _ :: rest => rest.splitOn c

/-- The first segment is what stands before the first `c`. -/
theorem splitOn_eq_cons (c : Char) (s : Str) :
    s.splitOn c = s.takeWhile (· ≠ c) :: segmentsAfter c (s.dropWhile (· ≠ c)) := by
  induction s with
  | nil => rfl
  | cons a s ih =>
    rw [List.splitOn_eq_splitOnP, List.splitOnP_cons_eq_if_modifyHead, ← List.splitOn_eq_splitOnP]
    by_cases h : a = c
    · simp [h, segmentsAfter]
    · simp only [beq_iff_eq, h, if_false, ih, List.modifyHead_cons]
      simp [h]

@[simp] theorem splitOn_sep_cons (c : Char) (s : Str) : (c :: s).splitOn c = [] :: s.splitOn c := by
  rw [splitOn_eq_cons]
  simp [segmentsAfter]

/-- What follows the first segment is empty or starts with the separator. -/
theorem dropWhile_ne_cases (c : Char) (s : Str) :
    s.dropWhile (· ≠ c) = [] ∨ ∃ rest, s.dropWhile (· ≠ c) = c :: rest := by
  induction s with
  | nil => exact .inl rfl
  | cons a s ih =>
    by_cases h : a = c
    · exact .inr ⟨s, by simp [h]⟩
    · rw [List.dropWhile_cons_of_pos (by simpa using h)]
      exact ih

theorem splitOn_cons_of_ne {a c : Char} (h : a ≠ c) (s : Str) :
    (a :: s).splitOn c = (s.splitOn c).modifyHead (a :: ·) := by
  rw [List.splitOn_eq_splitOnP, List.splitOnP_cons_eq_if_modifyHead, ← List.splitOn_eq_splitOnP]
  simp [h]

theorem length_splitOn (c : Char) (s : Str) : (s.splitOn c).length = s.count c + 1 := by
  induction s with
  | nil => rfl
  | cons a s ih =>
    by_cases h : a = c
    · subst h
      rw [splitOn_sep_cons, List.length_cons, ih, List.count_cons_self]
    · rw [splitOn_cons_of_ne h, List.length_modifyHead, ih, List.count_cons_of_ne h]

/-- Every character that is no separator stands in a segment. -/
theorem exists_mem_splitOn {a c : Char} (hne : a ≠ c) {s : Str} (h : a ∈ s) :
    ∃ seg ∈ s.splitOn c, a ∈ seg := by
  induction s with
  | nil => cases h
  | cons b s ih =>
    by_cases hb : b = c
    · subst hb
      rcases List.mem_cons.mp h with rfl | h
      · exact absurd rfl hne
      · obtain ⟨seg, hseg, ha⟩ := ih h
        rw [splitOn_sep_cons]
        exact ⟨seg, List.mem_cons_of_mem _ hseg, ha⟩
    · rw [splitOn_cons_of_ne hb]
      obtain ⟨z, zs, hzs⟩ := List.exists_cons_of_ne_nil (List.splitOn_ne_nil c s)
      rw [hzs, List.modifyHead_cons]
      rcases List.mem_cons.mp h with rfl | h
      · exact ⟨_, List.mem_cons_self .., List.mem_cons_self ..⟩
      · obtain ⟨seg, hseg, ha⟩ := ih h
        rw [hzs] at hseg
        rcases List.mem_cons.mp hseg with rfl | hseg
        · exact ⟨_, List.mem_cons_self .., List.mem_cons_of_mem _ ha⟩
        · exact ⟨seg, List.mem_cons_of_mem _ hseg, ha⟩

/-- At the seam of two texts, a segment of each becomes one. -/
theorem splitOn_append {c : Char} {s t x y : Str} {xs ys : List Str} (hs : s.splitOn c = xs ++ [x])
    (ht : t.splitOn c = y :: ys) : (s ++ t).splitOn c = xs ++ (x ++ y) :: ys := by
  induction s generalizing xs x with
  | nil =>
    rw [List.splitOn_nil] at hs
    cases xs with
    | nil =>
      obtain rfl := List.singleton_inj.mp hs
      exact ht
    | cons z xs => simp at hs
  | cons a s ih =>
    by_cases h : a = c
    · subst h
      rw [splitOn_sep_cons] at hs
      cases xs with
      | nil => exact absurd (List.cons.inj hs).2 (List.splitOn_ne_nil a s)
      | cons z xs =>
        obtain ⟨hz, hrest⟩ := List.cons.inj hs
        rw [List.cons_append, splitOn_sep_cons, ih hrest, ← hz]
        rfl
    · rw [splitOn_cons_of_ne h] at hs
      rw [List.cons_append, splitOn_cons_of_ne h]
      obtain ⟨z, zs, hzs⟩ := List.exists_cons_of_ne_nil (List.splitOn_ne_nil c s)
      rw [hzs, List.modifyHead_cons] at hs
      cases xs with
      | nil =>
        obtain ⟨rfl, rfl⟩ := List.cons.inj hs
        have hseam : (s ++ t).splitOn c = [] ++ (z ++ y) :: ys := ih hzs
        rw [hseam]
        rfl
      | cons w xs =>
        obtain ⟨rfl, rfl⟩ := List.cons.inj hs
        have hseam : (s ++ t).splitOn c = (z :: xs) ++ (x ++ y) :: ys := ih hzs
        rw [hseam]
        rfl

theorem infix_of_mem_splitOn {c : Char} {s seg : Str} (h : seg ∈ s.splitOn c) : seg <:+: s := by
  induction s generalizing seg with
  | nil =>
    rw [List.splitOn_nil, List.mem_singleton] at h
    rw [h]
  | cons a s ih =>
    rw [splitOn_eq_cons, List.mem_cons] at h
    rcases h with rfl | h
    · exact (List.takeWhile_prefix _).isInfix
    · have hs : seg ∈ s.splitOn c := by
        by_cases ha : a = c
        · rw [List.dropWhile_cons_of_neg (by simpa using ha)] at h
          exact h
        · rw [List.dropWhile_cons_of_pos (by simpa using ha)] at h
          rw [splitOn_eq_cons]
          exact List.mem_cons_of_mem _ h
      exact List.infix_cons (ih hs)

/-! ### Pieces with a separator between them -/

/-- Appends a piece, behind a separator when something has been written. -/
def joinNext (c : Char) (s piece : Str) : Str := (if s.isEmpty then s else s ++ [c]) ++ piece

theorem intercalate_concat (c : Char) (piece : Str) {pieces : List Str} (h : pieces ≠ []) :
    [c].intercalate (pieces ++ [piece]) = [c].intercalate pieces ++ [c] ++ piece := by
  induction pieces with
  | nil => exact absurd rfl h
  | cons p pieces ih =>
    cases pieces with
    | nil => simp
    | cons q pieces =>
      have hrest := ih (List.cons_ne_nil _ _)
      rw [List.cons_append, List.cons_append, List.intercalate_cons_cons, ← List.cons_append, hrest,
        List.intercalate_cons_cons]
      simp

/-- Appending pieces that are not empty puts one separator between any two of them. -/
theorem foldl_joinNext {c : Char} {pieces : List Str} (h : ∀ piece ∈ pieces, piece ≠ []) :
    pieces.foldl (joinNext c) [] = [c].intercalate pieces := by
  induction pieces using List.reverseRecOn with
  | nil => rfl
  | append_singleton pieces piece ih =>
    have hfront := ih fun p hp => h p (List.mem_append_left _ hp)
    rw [List.foldl_append, List.foldl_cons, List.foldl_nil, hfront]
    cases pieces with
    | nil => simp [joinNext]
    | cons p pieces =>
      have hp : p ≠ [] := h p (by simp)
      have hne : [c].intercalate (p :: pieces) ≠ [] := by
        cases p with
        | nil => exact absurd rfl hp
        | cons a p => simp
      rw [intercalate_concat c piece (List.cons_ne_nil _ _), joinNext, if_neg (by simpa using hne)]

theorem forall_mem_foldl_joinNext {c : Char} {Q : Char → Prop} (hc : Q c) (pieces : List Str) (s : Str) :
    (∀ d ∈ pieces.foldl (joinNext c) s, Q d) ↔ (∀ d ∈ s, Q d) ∧ ∀ piece ∈ pieces, ∀ d ∈ piece, Q d := by
  induction pieces generalizing s with
  | nil => simp
  | cons piece pieces ih =>
    have hjoin : (∀ d ∈ joinNext c s piece, Q d) ↔ (∀ d ∈ s, Q d) ∧ ∀ d ∈ piece, Q d := by
      unfold joinNext
      split
      · rw [List.forall_mem_append]
      · rw [List.forall_mem_append, List.forall_mem_append]
        simp [hc]
    rw [List.foldl_cons, ih, hjoin, List.forall_mem_cons, and_assoc]

end Siesta.Lib
