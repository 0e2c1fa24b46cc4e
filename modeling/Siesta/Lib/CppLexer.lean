import Mathlib.Data.List.Chain
import Mathlib.Data.List.TakeWhile
import Siesta.Lib.Text

/-!
# Reading C++ source text

The first phases of translation, as C++23 has them: the line ends of the file become new-line
characters, a backslash at the end of a line joins the line to the next one, and then comments, string
literals and words are read.  What is read ends at a place of the source text: every function returns
the text that is left.
-/

namespace Siesta.Lib.Cpp

/-! ### Lines -/

/-- The whitespace that may stand between a backslash and the end of its line. -/
def blanks : List Char := [' ', '\t', '\x0b', '\x0c']

/-- The text behind a line end: a line feed, a carriage return, or the one after the other. -/
def afterLineEnd : Str → Option Str
  | '\n' :: s => some s
  | '\r' :: '\n' :: s => some s
  | '\r' :: s => some s
  | _ => none

/-- The text behind the line end that a backslash in front of the text takes away. -/
def afterSplice (s : Str) : Option Str := afterLineEnd (s.dropWhile (· ∈ blanks))

theorem length_afterLineEnd {s t : Str} (h : afterLineEnd s = some t) : t.length < s.length := by
  unfold afterLineEnd at h
  split at h
  · obtain rfl := Option.some.inj h
    simp
  · obtain rfl := Option.some.inj h
    simp only [List.length_cons]
    omega
  · obtain rfl := Option.some.inj h
    simp
  · cases h

theorem length_afterSplice {s t : Str} (h : afterSplice s = some t) : t.length < s.length := by
  have hdrop := (List.dropWhile_sublist (fun c => decide (c ∈ blanks)) (l := s)).length_le
  exact Nat.lt_of_lt_of_le (length_afterLineEnd h) hdrop

theorem afterLineEnd_of_ne {c : Char} (hn : c ≠ '\n') (hr : c ≠ '\r') (s : Str) :
    afterLineEnd (c :: s) = none := by
  rw [afterLineEnd.eq_def]
  split
  · rename_i h; exact absurd (List.cons.inj h).1 hn
  · rename_i h; exact absurd (List.cons.inj h).1 hr
  · rename_i h; exact absurd (List.cons.inj h).1 hr
  · rfl

theorem afterSplice_of_ne {c : Char} (hblank : c ∉ blanks) (hn : c ≠ '\n') (hr : c ≠ '\r') (s : Str) :
    afterSplice (c :: s) = none := by
  rw [afterSplice, List.dropWhile_cons_of_neg (by simpa using hblank), afterLineEnd_of_ne hn hr]

/-- A backslash joins no lines when something else follows in its own line. -/
theorem afterSplice_append_none {line : Str} (hline : '\n' ∉ line ∧ '\r' ∉ line)
    (h : ∃ c ∈ line, c ∉ blanks) (rest : Str) : afterSplice (line ++ rest) = none := by
  induction line with
  | nil => obtain ⟨d, hd, -⟩ := h; cases hd
  | cons d line ih =>
    simp only [List.mem_cons, not_or] at hline
    by_cases hd : d ∈ blanks
    · have hmore : ∃ c ∈ line, c ∉ blanks := by
        obtain ⟨x, hx, hnot⟩ := h
        rcases List.mem_cons.mp hx with rfl | hx
        · exact absurd hd hnot
        · exact ⟨x, hx, hnot⟩
      rw [List.cons_append, afterSplice, List.dropWhile_cons_of_pos (by simpa using hd)]
      exact ih ⟨hline.1.2, hline.2.2⟩ hmore
    · exact afterSplice_of_ne hd (Ne.symm hline.1.1) (Ne.symm hline.2.1) _

theorem afterSplice_append_lineEnd {line rest t : Str} (hline : ∀ c ∈ line, c ∈ blanks)
    (h : afterLineEnd rest = some t) : afterSplice (line ++ rest) = some t := by
  cases rest with
  | nil => cases h
  | cons d s =>
    have hd : d ∉ blanks := by
      intro hd
      have hplain : ∀ c ∈ blanks, c ≠ '\n' ∧ c ≠ '\r' := by decide
      rw [afterLineEnd_of_ne (hplain d hd).1 (hplain d hd).2] at h
      cases h
    rw [afterSplice, List.dropWhile_append_of_pos (by simpa using hline),
      List.dropWhile_cons_of_neg (by simpa using hd), h]

/-- The next character, and the source text behind it. -/
def next : Str → Option (Char × Str)
  | [] => none
  | c :: s =>
    if c = '\\' then
      match _h : afterSplice s with
      | some t => next t
      | none => some (c, s)
    else
      match afterLineEnd (c :: s) with
      | some t => some ('\n', t)
      | none => some (c, s)
termination_by s => s.length
decreasing_by
  have := length_afterSplice _h
  simp only [List.length_cons]
  omega

theorem next_of_splice {s t : Str} (h : afterSplice s = some t) : next ('\\' :: s) = next t := by
  rw [next, if_pos rfl]
  split
  · rename_i u hu
    rw [Option.some.inj (hu.symm.trans h)]
  · rename_i hu
    rw [h] at hu
    cases hu

theorem next_backslash {s : Str} (h : afterSplice s = none) : next ('\\' :: s) = some ('\\', s) := by
  rw [next, if_pos rfl]
  split
  · rename_i u hu
    rw [h] at hu
    cases hu
  · rfl

theorem next_lineEnd {c : Char} {s t : Str} (h : afterLineEnd (c :: s) = some t) :
    next (c :: s) = some ('\n', t) := by
  have hc : c ≠ '\\' := by
    rintro rfl
    rw [afterLineEnd_of_ne (by decide) (by decide)] at h
    cases h
  rw [next, if_neg hc, h]

/-- A character that ends no line and joins none is read as it stands. -/
theorem next_cons {c : Char} (hc : c ≠ '\\') (hn : c ≠ '\n') (hr : c ≠ '\r') (s : Str) :
    next (c :: s) = some (c, s) := by
  rw [next, if_neg hc, afterLineEnd_of_ne hn hr]

theorem length_next {s t : Str} {c : Char} (h : next s = some (c, t)) : t.length < s.length := by
  induction hlen : s.length using Nat.strong_induction_on generalizing s with
  | _ len ih =>
    cases s with
    | nil => rw [next] at h; cases h
    | cons d s =>
      simp only [List.length_cons] at hlen
      by_cases hd : d = '\\'
      · subst hd
        cases hsplice : afterSplice s with
        | some u =>
          have hshort := length_afterSplice hsplice
          have := ih u.length (by omega) (next_of_splice hsplice ▸ h) rfl
          omega
        | none =>
          obtain ⟨-, rfl⟩ := Prod.mk.inj (Option.some.inj ((next_backslash hsplice).symm.trans h))
          omega
      · cases hend : afterLineEnd (d :: s) with
        | some u =>
          obtain ⟨-, rfl⟩ := Prod.mk.inj (Option.some.inj ((next_lineEnd hend).symm.trans h))
          have := length_afterLineEnd hend
          simp only [List.length_cons] at this
          omega
        | none =>
          rw [next, if_neg hd, hend] at h
          obtain ⟨-, rfl⟩ := Prod.mk.inj (Option.some.inj h)
          omega

/-! ### Comments -/

/-- The text behind the line that a line comment ends with. -/
def lineCommentEnd (s : Str) : Str :=
  match _h : next s with
  | none => []
  | some (c, t) => if c = '\n' then t else lineCommentEnd t
termination_by s.length
decreasing_by exact length_next _h

/-- The text behind the `*/` that a block comment ends with. -/
def blockCommentEnd (s : Str) : Option Str :=
  match _h : next s with
  | none => none
  | some (c, t) =>
    if c = '*' ∧ (next t).map Prod.fst = some '/' then (next t).map Prod.snd
    else blockCommentEnd t
termination_by s.length
decreasing_by exact length_next _h

/-- The text behind a comment; a line comment takes the end of its line with it. -/
def afterComment (s : Str) : Option Str :=
  match next s with
  | some ('/', t) =>
    match next t with
    | some ('/', u) => some (lineCommentEnd u)
    | some ('*', u) => blockCommentEnd u
    | _ => none
  | _ => none

/-- A line ends in a backslash, up to whitespace. -/
def JoinsNext (line : Str) : Prop := (line.reverse.dropWhile (· ∈ blanks)).head? = some '\\'

instance : DecidablePred JoinsNext := fun line => by unfold JoinsNext; infer_instance

theorem joinsNext_cons_of_blank {line : Str} (h : ∀ c ∈ line, c ∈ blanks) (c : Char) :
    JoinsNext (c :: line) ↔ c = '\\' := by
  have hdrop : line.reverse.dropWhile (fun c => decide (c ∈ blanks)) = [] :=
    List.dropWhile_eq_nil_iff.mpr fun d hd => by simpa using h d (List.mem_reverse.mp hd)
  rw [JoinsNext, List.reverse_cons, List.dropWhile_append, hdrop]
  by_cases hc : c ∈ blanks
  · have hne : ∀ c ∈ blanks, c ≠ '\\' := by decide
    simp [hc, hne c hc]
  · simp [hc]

theorem joinsNext_cons {line : Str} (h : ∃ c ∈ line, c ∉ blanks) (c : Char) :
    JoinsNext (c :: line) ↔ JoinsNext line := by
  have hdrop : line.reverse.dropWhile (fun c => decide (c ∈ blanks)) ≠ [] := by
    obtain ⟨d, hd, hblank⟩ := h
    intro hnil
    exact hblank (by simpa using List.dropWhile_eq_nil_iff.mp hnil d (List.mem_reverse.mpr hd))
  rw [JoinsNext, JoinsNext, List.reverse_cons, List.dropWhile_append,
    if_neg (by simpa using hdrop), List.head?_append_of_ne_nil _ hdrop]

theorem lineCommentEnd_eq {s t : Str} {c : Char} (h : next s = some (c, t)) :
    lineCommentEnd s = if c = '\n' then t else lineCommentEnd t := by
  rw [lineCommentEnd]
  split <;> rename_i h' <;> rw [h] at h'
  · cases h'
  · obtain ⟨rfl, rfl⟩ := Prod.mk.inj (Option.some.inj h')
    rfl

theorem lineCommentEnd_of_none {s : Str} (h : next s = none) : lineCommentEnd s = [] := by
  rw [lineCommentEnd]
  split
  · rfl
  · rename_i h'
    rw [h] at h'
    cases h'

theorem lineCommentEnd_congr {s t : Str} (h : next s = next t) : lineCommentEnd s = lineCommentEnd t := by
  cases ht : next t with
  | none => rw [lineCommentEnd_of_none ht, lineCommentEnd_of_none (h.trans ht)]
  | some r => rw [lineCommentEnd_eq ht, lineCommentEnd_eq (h.trans ht)]

theorem length_lineCommentEnd (s : Str) : (lineCommentEnd s).length ≤ s.length - 1 := by
  induction hlen : s.length using Nat.strong_induction_on generalizing s with
  | _ len ih =>
    cases hnext : next s with
    | none => simp [lineCommentEnd_of_none hnext]
    | some r =>
      obtain ⟨c, t⟩ := r
      have hshort := length_next hnext
      rw [lineCommentEnd_eq hnext]
      split
      · omega
      · have := ih t.length (by omega) t rfl
        omega

/-- **One line of a comment.**  The comment ends with its line, or goes on with the next one when the
line ends in a backslash. -/
theorem lineCommentEnd_line {line rest t : Str} (hline : '\n' ∉ line ∧ '\r' ∉ line)
    (hend : afterLineEnd rest = some t) :
    lineCommentEnd (line ++ rest) = if JoinsNext line then lineCommentEnd t else t := by
  have hrest : ∃ c s, rest = c :: s ∧ next rest = some ('\n', t) := by
    cases rest with
    | nil => cases hend
    | cons c s => exact ⟨c, s, rfl, next_lineEnd hend⟩
  induction line with
  | nil =>
    obtain ⟨c, s, rfl, hnext⟩ := hrest
    have hnil : ¬ JoinsNext [] := by decide
    rw [List.nil_append, lineCommentEnd_eq hnext, if_pos rfl, if_neg hnil]
  | cons c line ih =>
    simp only [List.mem_cons, not_or] at hline
    have ih := ih ⟨hline.1.2, hline.2.2⟩
    by_cases hblank : ∀ d ∈ line, d ∈ blanks
    · -- only whitespace up to the end of the line
      simp only [joinsNext_cons_of_blank hblank]
      by_cases hc : c = '\\'
      · have hsplice := afterSplice_append_lineEnd hblank hend
        subst hc
        rw [List.cons_append, lineCommentEnd_congr (next_of_splice hsplice), if_pos rfl]
      · rw [List.cons_append, lineCommentEnd_eq (next_cons hc (Ne.symm hline.1.1) (Ne.symm hline.2.1) _),
          if_neg (Ne.symm hline.1.1), ih, if_neg hc, if_neg]
        cases line with
        | nil => decide
        | cons d line =>
          rw [joinsNext_cons_of_blank fun x hx => hblank x (by simp [hx])]
          rintro rfl
          exact absurd (hblank '\\' (by simp)) (by decide)
    · push Not at hblank
      simp only [joinsNext_cons hblank]
      by_cases hc : c = '\\'
      · have hsplice := afterSplice_append_none ⟨hline.1.2, hline.2.2⟩ hblank rest
        subst hc
        rw [List.cons_append, lineCommentEnd_eq (next_backslash hsplice), if_neg (by decide), ih]
      · rw [List.cons_append, lineCommentEnd_eq (next_cons hc (Ne.symm hline.1.1) (Ne.symm hline.2.1) _),
          if_neg (Ne.symm hline.1.1), ih]

/-- The lines of the source text that a text without line feeds is: every carriage return ends one, but
one at the end of the text belongs to the line feed behind it. -/
def physicalLines (text : Str) : List Str :=
  (if text.getLast? = some '\r' then text.dropLast else text).splitOn '\r'

/-- A line comment with this text ends where its line ends: what a carriage return cuts off is joined
again by a backslash, and nothing joins the next line to the text. -/
def EndsWithLine (text : Str) : Prop :=
  (∀ line ∈ (physicalLines text).dropLast, JoinsNext line) ∧
    ∀ line ∈ (physicalLines text).getLast?, ¬ JoinsNext line

instance : DecidablePred EndsWithLine := fun text => by unfold EndsWithLine; infer_instance

theorem exists_cut (text : Str) :
    '\r' ∉ text ∨ ∃ line rest, text = line ++ '\r' :: rest ∧ '\r' ∉ line := by
  by_cases h : '\r' ∈ text
  · obtain ⟨line, rest, htext, hline⟩ := List.eq_append_cons_of_mem h
    exact .inr ⟨line, rest, htext, hline⟩
  · exact .inl h

theorem physicalLines_ne_nil (text : Str) : physicalLines text ≠ [] := List.splitOn_ne_nil _ _

theorem physicalLines_of_notMem {text : Str} (h : '\r' ∉ text) : physicalLines text = [text] := by
  have hlast : text.getLast? ≠ some '\r' := fun hlast => h (List.mem_of_getLast? hlast)
  rw [physicalLines, if_neg hlast, List.splitOn_eq_singleton h]

theorem physicalLines_concat {line : Str} (h : '\r' ∉ line) : physicalLines (line ++ ['\r']) = [line] := by
  rw [physicalLines, if_pos (by simp), List.dropLast_concat, List.splitOn_eq_singleton h]

theorem physicalLines_append {line rest : Str} (h : '\r' ∉ line) (hrest : rest ≠ []) :
    physicalLines (line ++ '\r' :: rest) = line :: physicalLines rest := by
  have hlast : (line ++ '\r' :: rest).getLast? = rest.getLast? := by
    rw [List.append_cons, List.getLast?_append_of_ne_nil _ hrest]
  have hinit : (line ++ '\r' :: rest).dropLast = line ++ '\r' :: rest.dropLast := by
    rw [List.append_cons, List.dropLast_append_of_ne_nil hrest, List.append_assoc]
    rfl
  rw [physicalLines, physicalLines, hlast, hinit]
  split <;> exact List.splitOn_append_cons_self_of_not_mem h _

theorem endsWithLine_append {line rest : Str} (h : '\r' ∉ line) (hrest : rest ≠ []) :
    EndsWithLine (line ++ '\r' :: rest) ↔ JoinsNext line ∧ EndsWithLine rest := by
  have hne := physicalLines_ne_nil rest
  rw [EndsWithLine, EndsWithLine, physicalLines_append h hrest, List.dropLast_cons_of_ne_nil hne,
    List.forall_mem_cons, List.getLast?_cons_of_ne_nil hne, and_assoc]

/-- **A line comment ends where its line ends** on this condition alone. -/
theorem lineCommentEnd_iff {text rest : Str} (htext : '\n' ∉ text) (hrest : rest ≠ []) :
    lineCommentEnd (text ++ '\n' :: rest) = rest ↔ EndsWithLine text := by
  have hlong : lineCommentEnd rest ≠ rest := by
    intro h
    have hle := length_lineCommentEnd rest
    have hpos := List.length_pos_of_ne_nil hrest
    rw [h] at hle
    omega
  -- a line that is the last one
  have hone : ∀ {line tail : Str}, '\n' ∉ line ∧ '\r' ∉ line → afterLineEnd tail = some rest →
      (lineCommentEnd (line ++ tail) = rest ↔ ¬ JoinsNext line) := by
    intro line tail hline htail
    rw [lineCommentEnd_line hline htail]
    by_cases hjoin : JoinsNext line
    · rw [if_pos hjoin]
      exact iff_of_false hlong (not_not.mpr hjoin)
    · rw [if_neg hjoin]
      exact iff_of_true rfl hjoin
  induction hlen : text.length using Nat.strong_induction_on generalizing text with
  | _ len ih =>
    rcases exists_cut text with hr | ⟨line, more, rfl, hr⟩
    · rw [hone ⟨htext, hr⟩ rfl, EndsWithLine, physicalLines_of_notMem hr]
      simp
    · simp only [List.mem_append, List.mem_cons, not_or] at htext
      cases more with
      | nil =>
        rw [List.append_assoc, hone ⟨htext.1, hr⟩ rfl, EndsWithLine, physicalLines_concat hr]
        simp
      | cons c more =>
        have hc : c ≠ '\n' := fun hc => htext.2.2 (by simp [hc])
        have htail : afterLineEnd ('\r' :: ((c :: more) ++ '\n' :: rest)) = some ((c :: more) ++ '\n' :: rest) := by
          rw [afterLineEnd.eq_def]
          split <;> simp_all
        have hshort : (c :: more).length < len := by
          simp only [List.length_append, List.length_cons] at hlen ⊢
          omega
        rw [endsWithLine_append hr (by simp), List.append_assoc, List.cons_append,
          lineCommentEnd_line ⟨htext.1, hr⟩ htail]
        have hmore : lineCommentEnd ((c :: more) ++ '\n' :: rest) = rest ↔ EndsWithLine (c :: more) :=
          ih _ hshort htext.2.2 rfl
        by_cases hjoin : JoinsNext line
        · rw [if_pos hjoin, hmore]
          simp [hjoin]
        · rw [if_neg hjoin]
          refine iff_of_false (fun h => ?_) fun h => hjoin h.1
          have := congrArg List.length h
          simp only [List.length_append, List.length_cons] at this
          omega

theorem blockCommentEnd_close {s t u : Str} (h : next s = some ('*', t)) (hclose : next t = some ('/', u)) :
    blockCommentEnd s = some u := by
  rw [blockCommentEnd]
  split <;> rename_i h' <;> rw [h] at h'
  · cases h'
  · obtain ⟨rfl, rfl⟩ := Prod.mk.inj (Option.some.inj h')
    rw [hclose, if_pos ⟨rfl, rfl⟩]
    rfl

theorem blockCommentEnd_eq {s t : Str} {c : Char} (h : next s = some (c, t))
    (hclose : c = '*' → ∀ u, next t ≠ some ('/', u)) : blockCommentEnd s = blockCommentEnd t := by
  rw [blockCommentEnd]
  split <;> rename_i h' <;> rw [h] at h'
  · cases h'
  · obtain ⟨rfl, rfl⟩ := Prod.mk.inj (Option.some.inj h')
    refine if_neg fun ⟨hc, hslash⟩ => ?_
    obtain ⟨r, hr, hfst⟩ := Option.map_eq_some_iff.mp hslash
    exact hclose hc r.2 (hr.trans (by rw [← hfst]))

theorem afterLineEnd_star {u rest t : Str} (h : afterLineEnd (u ++ '*' :: rest) = some t) :
    ∃ v e w, u = v ++ e :: w ∧ (e = '\n' ∨ e = '\r') ∧ t = w ++ '*' :: rest := by
  cases u with
  | nil =>
    rw [List.nil_append, afterLineEnd_of_ne (by decide) (by decide)] at h
    cases h
  | cons d u =>
    rw [List.cons_append, afterLineEnd.eq_def] at h
    split at h
    · rename_i hline
      obtain ⟨rfl, rfl⟩ := List.cons.inj hline
      exact ⟨[], '\n', u, rfl, .inl rfl, (Option.some.inj h).symm⟩
    · rename_i hline
      obtain ⟨rfl, hrest⟩ := List.cons.inj hline
      cases u with
      | nil => exact absurd (List.cons.inj hrest).1 (by decide)
      | cons f u =>
        obtain ⟨rfl, rfl⟩ := List.cons.inj hrest
        exact ⟨['\r'], '\n', u, rfl, .inl rfl, (Option.some.inj h).symm⟩
    · rename_i hline
      obtain ⟨rfl, rfl⟩ := List.cons.inj hline
      exact ⟨[], '\r', u, rfl, .inr rfl, (Option.some.inj h).symm⟩
    · cases h

/-- What is read in front of a `*`: after a join, a character at the beginning of a line. -/
theorem afterSplice_star {u rest t : Str} (h : afterSplice (u ++ '*' :: rest) = some t) :
    ∃ v e w, u = v ++ e :: w ∧ (e = '\n' ∨ e = '\r') ∧ t = w ++ '*' :: rest := by
  induction u with
  | nil =>
    rw [List.nil_append, afterSplice_of_ne (by decide) (by decide) (by decide)] at h
    cases h
  | cons d u ih =>
    by_cases hd : d ∈ blanks
    · rw [List.cons_append, afterSplice, List.dropWhile_cons_of_pos (by simpa using hd)] at h
      obtain ⟨v, e, w, rfl, he, ht⟩ := ih h
      exact ⟨d :: v, e, w, rfl, he, ht⟩
    · rw [List.cons_append, afterSplice, List.dropWhile_cons_of_neg (by simpa using hd)] at h
      exact afterLineEnd_star h

/-- One character of a text in front of a `*`. -/
theorem next_star (u rest : Str) :
    next (u ++ '*' :: rest) = some ('*', rest) ∨
      ∃ c v w, next (u ++ '*' :: rest) = some (c, w ++ '*' :: rest) ∧ u = v ++ w ∧ v ≠ [] ∧
        (c = '*' → ∃ x, v = x ++ ['*']) ∧
        (c = '/' → v = ['/'] ∨ ∃ x e, v = x ++ [e, '/'] ∧ (e = '\n' ∨ e = '\r')) := by
  induction hlen : u.length using Nat.strong_induction_on generalizing u with
  | _ len ih =>
    cases u with
    | nil => exact .inl (next_cons (by decide) (by decide) (by decide) rest)
    | cons d u =>
      rw [List.cons_append]
      by_cases hd : d = '\\'
      · subst hd
        cases hsplice : afterSplice (u ++ '*' :: rest) with
        | none =>
          exact .inr ⟨'\\', ['\\'], u, next_backslash hsplice, rfl, by simp, by simp, by simp⟩
        | some t =>
          obtain ⟨v, e, w, rfl, he, rfl⟩ := afterSplice_star hsplice
          rw [next_of_splice hsplice]
          simp only [List.length_cons, List.length_append] at hlen
          rcases ih w.length (by omega) w rfl with hstar | ⟨c, x, y, hnext, rfl, -, hc, hc'⟩
          · exact .inl hstar
          · refine .inr ⟨c, '\\' :: v ++ e :: x, y, hnext, by simp, by simp, fun h => ?_, fun h => .inr ?_⟩
            · obtain ⟨x', rfl⟩ := hc h
              exact ⟨'\\' :: v ++ e :: x', by simp⟩
            · rcases hc' h with rfl | ⟨x', e', rfl, he'⟩
              · exact ⟨'\\' :: v, e, by simp, he⟩
              · exact ⟨'\\' :: v ++ e :: x', e', by simp, he'⟩
      · cases hend : afterLineEnd (d :: (u ++ '*' :: rest)) with
        | none =>
          have hnext : next (d :: (u ++ '*' :: rest)) = some (d, u ++ '*' :: rest) := by
            rw [next, if_neg hd, hend]
          exact .inr ⟨d, [d], u, hnext, rfl, by simp, fun hc => ⟨[], by simp [hc]⟩,
            fun hc => .inl (by simp [hc])⟩
        | some t =>
          obtain ⟨v, e, w, hu, -, rfl⟩ := afterLineEnd_star (u := d :: u) hend
          exact .inr ⟨'\n', v ++ [e], w, next_lineEnd hend, by simp [hu], by simp, by simp, by simp⟩

/-- A block comment ends with the first `*/`. -/
theorem length_blockCommentEnd (u rest : Str) :
    ∃ r, blockCommentEnd (u ++ '*' :: '/' :: rest) = some r ∧ rest.length ≤ r.length := by
  induction hlen : u.length using Nat.strong_induction_on generalizing u with
  | _ len ih =>
    have hslash : next ('/' :: rest) = some ('/', rest) := next_cons (by decide) (by decide) (by decide) rest
    rcases next_star u ('/' :: rest) with hstar | ⟨c, v, w, hnext, rfl, hv, -, -⟩
    · exact ⟨rest, blockCommentEnd_close hstar hslash, Nat.le_refl _⟩
    · have hpos := List.length_pos_of_ne_nil hv
      simp only [List.length_append] at hlen
      by_cases hclose : c = '*' ∧ ∃ r, next (w ++ '*' :: '/' :: rest) = some ('/', r)
      · obtain ⟨rfl, r, hr⟩ := hclose
        refine ⟨r, blockCommentEnd_close hnext hr, ?_⟩
        rcases next_star w ('/' :: rest) with hstar | ⟨d, x, y, hnext', -, -, -, -⟩
        · rw [hstar] at hr
          exact absurd (Prod.mk.inj (Option.some.inj hr)).1 (by decide)
        · rw [hnext'] at hr
          obtain ⟨-, rfl⟩ := Prod.mk.inj (Option.some.inj hr)
          simp only [List.length_append, List.length_cons]
          omega
      · obtain ⟨r, hr, hle⟩ := ih w.length (by omega) w rfl
        refine ⟨r, ?_, hle⟩
        rw [blockCommentEnd_eq hnext fun hc u hu => hclose ⟨hc, u, hu⟩, hr]

/-- **A block comment ends at the `*/` behind a text that holds none**, as long as no line of the text
begins with a `/`. -/
theorem blockCommentEnd_iff {u : Str} (hlines : u.IsChain fun a b => b = '/' → a ≠ '\n' ∧ a ≠ '\r')
    (rest : Str) : blockCommentEnd (u ++ '*' :: '/' :: rest) = some rest ↔ ¬ ['*', '/'] <:+: u := by
  constructor
  · rintro h ⟨v, w, rfl⟩
    obtain ⟨r, hr, hle⟩ := length_blockCommentEnd v (w ++ '*' :: '/' :: rest)
    have heq : v ++ ['*', '/'] ++ w ++ '*' :: '/' :: rest = v ++ '*' :: '/' :: (w ++ '*' :: '/' :: rest) := by
      simp
    rw [heq, hr] at h
    rw [Option.some.inj h] at hle
    simp only [List.length_append, List.length_cons] at hle
    omega
  · intro hfree
    induction hlen : u.length using Nat.strong_induction_on generalizing u with
    | _ len ih =>
      rcases next_star u ('/' :: rest) with hstar | ⟨c, v, w, hnext, rfl, hv, hc, -⟩
      · exact blockCommentEnd_close hstar (next_cons (by decide) (by decide) (by decide) rest)
      · have hpos := List.length_pos_of_ne_nil hv
        simp only [List.length_append] at hlen
        have hstep := ih w.length (by omega) (List.isChain_append.mp hlines).2.1
          (fun h => hfree (h.trans (List.suffix_append v w).isInfix)) rfl
        rw [blockCommentEnd_eq hnext fun hstar r hr => ?_, hstep]
        obtain ⟨x, rfl⟩ := hc hstar
        rcases next_star w ('/' :: rest) with h | ⟨d, y, z, h, rfl, -, -, hd⟩
        · rw [h] at hr
          exact absurd (Prod.mk.inj (Option.some.inj hr)).1 (by decide)
        · rw [h] at hr
          rcases hd (Prod.mk.inj (Option.some.inj hr)).1 with rfl | ⟨y', e, rfl, he⟩
          · exact hfree ⟨x, z, by simp⟩
          · have hchain := List.isChain_iff_forall_rel_of_append_cons_cons.mp hlines
            have := @hchain e '/' (x ++ ['*'] ++ y') z (by simp) rfl
            rcases he with rfl | rfl
            · exact this.1 rfl
            · exact this.2 rfl

/-! ### String literals -/

def simpleEscape : Char → Option Char
  | '\'' => some '\''
  | '"' => some '"'
  | '?' => some '?'
  | '\\' => some '\\'
  | 'a' => some '\x07'
  | 'b' => some '\x08'
  | 'f' => some '\x0c'
  | 'n' => some '\n'
  | 'r' => some '\r'
  | 't' => some '\t'
  | 'v' => some '\x0b'
  | _ => none

def digitValue (base : ℕ) (c : Char) : Option ℕ :=
  let n := if c.isDigit then c.toNat - '0'.toNat
    else if 'a' ≤ c ∧ c ≤ 'f' then c.toNat - 'a'.toNat + 10
    else if 'A' ≤ c ∧ c ≤ 'F' then c.toNat - 'A'.toNat + 10
    else base
  if n < base then some n else none

/-- Reads digits, at most as many as are allowed: how many there were, and the number they make. -/
def readDigits (base : ℕ) : ℕ → ℕ → Str → ℕ × ℕ × Str
  | 0, value, s => (0, value, s)
  | allowed + 1, value, s =>
    match next s with
    | none => (0, value, s)
    | some (c, t) =>
      match digitValue base c with
      | none => (0, value, s)
      | some d =>
        let r := readDigits base allowed (base * value + d) t
        (r.1 + 1, r.2)

/-- What follows a backslash in a literal: one character, three octal digits at most, or hexadecimal
digits behind `x`, `u` or `U`. -/
def readEscape (s : Str) : Option (Char × Str) :=
  match next s with
  | none => none
  | some (c, t) =>
    match simpleEscape c with
    | some d => some (d, t)
    | none =>
      match digitValue 8 c with
      | some d =>
        let r := readDigits 8 2 d t
        some (Char.ofNat r.2.1, r.2.2)
      | none =>
        let exactly := fun count =>
          let r := readDigits 16 count 0 t
          if r.1 = count then some (Char.ofNat r.2.1, r.2.2) else none
        match c with
        | 'x' =>
          let r := readDigits 16 t.length 0 t
          if r.1 = 0 then none else some (Char.ofNat r.2.1, r.2.2)
        | 'u' => exactly 4
        | 'U' => exactly 8
        | _ => none

theorem length_readDigits (base allowed value : ℕ) (s : Str) :
    (readDigits base allowed value s).2.2.length ≤ s.length := by
  induction allowed generalizing value s with
  | zero => exact Nat.le_refl _
  | succ allowed ih =>
    rw [readDigits]
    split
    · exact Nat.le_refl _
    · rename_i hnext
      split
      · exact Nat.le_refl _
      · exact Nat.le_of_lt (Nat.lt_of_le_of_lt (ih _ _) (length_next hnext))

theorem length_readEscape {s t : Str} {c : Char} (h : readEscape s = some (c, t)) :
    t.length < s.length := by
  unfold readEscape at h
  split at h
  · cases h
  rename_i d u hnext
  have hu := length_next hnext
  have hdigits : ∀ base allowed value, (readDigits base allowed value u).2.2.length < s.length :=
    fun base allowed value => Nat.lt_of_le_of_lt (length_readDigits base allowed value u) hu
  split at h
  · obtain ⟨-, rfl⟩ := Prod.mk.inj (Option.some.inj h)
    exact hu
  split at h
  · obtain ⟨-, rfl⟩ := Prod.mk.inj (Option.some.inj h)
    exact hdigits _ _ _
  have hexactly : ∀ count r, (if (readDigits 16 count 0 u).1 = r then
      some (Char.ofNat (readDigits 16 count 0 u).2.1, (readDigits 16 count 0 u).2.2) else none) =
      some (c, t) → t.length < s.length := by
    intro count r hr
    split at hr
    · obtain ⟨-, rfl⟩ := Prod.mk.inj (Option.some.inj hr)
      exact hdigits _ _ _
    · cases hr
  simp only at h
  split at h
  · split at h
    · cases h
    · obtain ⟨-, rfl⟩ := Prod.mk.inj (Option.some.inj h)
      exact hdigits _ _ _
  · exact hexactly _ _ h
  · exact hexactly _ _ h
  · cases h

/-- The characters of a literal, and the text behind the quote that closes it.  A literal does not go
over the end of its line. -/
def literalBody (s : Str) : Option (Str × Str) :=
  match _h : next s with
  | none => none
  | some (c, t) =>
    if c = '"' then some ([], t)
    else if c = '\n' then none
    else if c = '\\' then
      match _he : readEscape t with
      | none => none
      | some (d, u) => (literalBody u).map fun r => (d :: r.1, r.2)
    else (literalBody t).map fun r => (c :: r.1, r.2)
termination_by s.length
decreasing_by
  · exact Nat.lt_trans (length_readEscape _he) (length_next _h)
  · exact length_next _h

/-- A string literal: its value, and the text behind it. -/
def readLiteral (s : Str) : Option (Str × Str) :=
  match next s with
  | some ('"', t) => literalBody t
  | _ => none

theorem literalBody_quote (s : Str) : literalBody ('"' :: s) = some ([], s) := by
  have hnext : next ('"' :: s) = some ('"', s) := next_cons (by decide) (by decide) (by decide) s
  rw [literalBody]
  split <;> rename_i h <;> rw [hnext] at h
  · cases h
  · obtain ⟨rfl, rfl⟩ := Prod.mk.inj (Option.some.inj h)
    rfl

/-- A character that is neither a backslash nor a quote stands for itself. -/
theorem literalBody_cons {c : Char} (hc : c ≠ '\\') (hq : c ≠ '"') (hn : c ≠ '\n') (hr : c ≠ '\r')
    (s : Str) : literalBody (c :: s) = (literalBody s).map fun r => (c :: r.1, r.2) := by
  have hnext := next_cons hc hn hr s
  rw [literalBody]
  split <;> rename_i h <;> rw [hnext] at h
  · cases h
  · obtain ⟨rfl, rfl⟩ := Prod.mk.inj (Option.some.inj h)
    rw [if_neg hq, if_neg hn, if_neg hc]

/-- An escape of one character stands for that character. -/
theorem literalBody_escape {e d : Char} (he : simpleEscape e = some d) {s : Str}
    (hs : e = '\\' → afterSplice s = none) :
    literalBody ('\\' :: e :: s) = (literalBody s).map fun r => (d :: r.1, r.2) := by
  have hplain : e ∉ blanks ∧ e ≠ '\n' ∧ e ≠ '\r' := by
    refine ⟨fun h => ?_, ?_, ?_⟩
    · have : ∀ c ∈ blanks, simpleEscape c = none := by decide
      rw [this e h] at he
      cases he
    · rintro rfl; cases he
    · rintro rfl; cases he
  have hnext : next ('\\' :: e :: s) = some ('\\', e :: s) :=
    next_backslash (afterSplice_of_ne hplain.1 hplain.2.1 hplain.2.2 s)
  have hescaped : next (e :: s) = some (e, s) := by
    by_cases hslash : e = '\\'
    · subst hslash
      exact next_backslash (hs rfl)
    · exact next_cons hslash hplain.2.1 hplain.2.2 s
  have hread : readEscape (e :: s) = some (d, s) := by
    rw [readEscape, hescaped]
    simp only [he]
  rw [literalBody]
  split <;> rename_i h <;> rw [hnext] at h
  · cases h
  · obtain ⟨rfl, rfl⟩ := Prod.mk.inj (Option.some.inj h)
    rw [if_neg (by decide), if_neg (by decide), if_pos rfl]
    split <;> rename_i h' <;> rw [hread] at h'
    · cases h'
    · obtain ⟨rfl, rfl⟩ := Prod.mk.inj (Option.some.inj h')
      rfl

/-! ### Identifiers -/

def identifierChar (c : Char) : Bool := c.isAlphanum || c == '_'

/-- A letter or `_`, followed by letters, digits and `_`. -/
def IsIdentifier (s : Str) : Prop :=
  (∃ c ∈ s.head?, c.isAlpha = true ∨ c = '_') ∧ ∀ c ∈ s, identifierChar c = true

/-- The keywords, and the words that stand for operators. -/
def keywords : List Str :=
  ["alignas", "alignof", "asm", "auto", "bool", "break", "case", "catch", "char", "char8_t", "char16_t",
    "char32_t", "class", "concept", "const", "consteval", "constexpr", "constinit", "const_cast",
    "continue", "co_await", "co_return", "co_yield", "decltype", "default", "delete", "do", "double",
    "dynamic_cast", "else", "enum", "explicit", "export", "extern", "false", "float", "for", "friend",
    "goto", "if", "inline", "int", "long", "mutable", "namespace", "new", "noexcept", "nullptr",
    "operator", "private", "protected", "public", "register", "reinterpret_cast", "requires", "return",
    "short", "signed", "sizeof", "static", "static_assert", "static_cast", "struct", "switch",
    "template", "this", "thread_local", "throw", "true", "try", "typedef", "typeid", "typename",
    "union", "unsigned", "using", "virtual", "void", "volatile", "wchar_t", "while",
    "and", "and_eq", "bitand", "bitor", "compl", "not", "not_eq", "or", "or_eq", "xor",
    "xor_eq"].map String.toList

/-- An identifier that the language leaves free. -/
def IsName (s : Str) : Prop := IsIdentifier s ∧ s ∉ keywords

instance : DecidablePred IsIdentifier := fun s =>
  decidable_of_iff ((s.head?.any fun c => c.isAlpha || c == '_') = true ∧ s.all identifierChar = true)
    (and_congr (by simp [Option.any_eq_true]) List.all_eq_true)

instance : DecidablePred IsName := fun s => by unfold IsName; infer_instance

theorem not_isDigit_of_isAlpha {c : Char} (h : c.isAlpha = true) : c.isDigit = false := by
  have halpha : (c.val ≥ 'A'.val ∧ c.val ≤ 'Z'.val) ∨ (c.val ≥ 'a'.val ∧ c.val ≤ 'z'.val) := by
    have hranges : (decide (c.val ≥ 'A'.val ∧ c.val ≤ 'Z'.val) ||
        decide (c.val ≥ 'a'.val) && decide (c.val ≤ 'z'.val)) = true := h
    simpa only [Bool.or_eq_true, Bool.and_eq_true, decide_eq_true_eq] using hranges
  simp only [ge_iff_le, UInt32.le_iff_toNat_le] at halpha
  by_contra hd
  obtain ⟨-, hd⟩ := Char.isDigit_iff_toNat.mp (eq_true_of_ne_false hd)
  have hdigit : c.val.toNat ≤ 57 := hd
  have hupper : 'A'.val.toNat = 65 := rfl
  have hlower : 'a'.val.toNat = 97 := rfl
  omega

theorem isIdentifier_iff {s : Str} : IsIdentifier s ↔
    s ≠ [] ∧ (∀ c ∈ s.head?, c.isDigit = false) ∧ ∀ c ∈ s, identifierChar c = true := by
  cases s with
  | nil => simp [IsIdentifier]
  | cons c s =>
    have hstart : identifierChar c = true → ((c.isAlpha = true ∨ c = '_') ↔ c.isDigit = false) := by
      intro hc
      have hdisjoint : c.isAlpha = true ∨ c = '_' → c.isDigit = false := by
        rintro (h | rfl)
        · exact not_isDigit_of_isAlpha h
        · rfl
      simp only [identifierChar, Char.isAlphanum, Bool.or_eq_true, beq_iff_eq] at hc
      refine ⟨hdisjoint, fun hd => ?_⟩
      rcases hc with (h | h) | h
      · exact .inl h
      · rw [hd] at h; cases h
      · exact .inr h
    simp only [IsIdentifier, List.head?_cons, Option.mem_some_iff, exists_eq_left', forall_eq', ne_eq,
      reduceCtorEq, not_false_eq_true, true_and]
    exact ⟨fun h => ⟨(hstart (h.2 c (by simp))).mp h.1, h.2⟩, fun h => ⟨(hstart (h.2 c (by simp))).mpr h.1, h.2⟩⟩

end Siesta.Lib.Cpp
