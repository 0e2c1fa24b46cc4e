import Mathlib.Data.List.DropRight
import Siesta.Lib.Slots
import Siesta.Support.Literals

/-!
# The comments of the generated code: `Utils.cpp` and `DefsGenerator.cpp`

A summary stands in line comments, one for each of its lines, and a description in a block comment, in
one line of it.  Whether a comment ends where the generator ends it depends on the text: on the
backslashes at the ends of its lines in the one case, on `*/` in the other.
-/

namespace Siesta

open Lib

/-! ### Line comments -/

/-- `remove_prefix(1)` as long as the text begins with a space. -/
def trimFront (comment : Str) : Str := comment.dropWhile isSpace

/-- `remove_suffix(1)` as long as the text ends with a space. -/
def trimBack (comment : Str) : Str := comment.rdropWhile isSpace

def trim (comment : Str) : Str := trimBack (trimFront comment)

def Trimmed (s : Str) : Prop :=
  (∀ c ∈ s.head?, isSpace c = false) ∧ ∀ c ∈ s.getLast?, isSpace c = false

theorem trimFront_of_head {s : Str} (h : ∀ c ∈ s.head?, isSpace c = false) : trimFront s = s := by
  cases s with
  | nil => rfl
  | cons c s => exact List.dropWhile_cons_of_neg (by simp [h c rfl])

theorem head?_trimFront (s : Str) : ∀ c ∈ (trimFront s).head?, isSpace c = false := by
  intro c hc
  induction s with
  | nil => cases hc
  | cons d s ih =>
    by_cases hd : isSpace d = true
    · rw [trimFront, List.dropWhile_cons_of_pos hd] at hc
      exact ih hc
    · rw [trimFront, List.dropWhile_cons_of_neg hd] at hc
      obtain rfl : d = c := Option.some.inj hc
      simpa using hd

theorem trimBack_of_getLast {s : Str} (h : ∀ c ∈ s.getLast?, isSpace c = false) : trimBack s = s := by
  refine List.rdropWhile_eq_self_iff.mpr fun hne => ?_
  simp [h _ (List.getLast?_eq_some_getLast hne)]

theorem trimmed_trim (comment : Str) : Trimmed (trim comment) := by
  constructor
  · intro c hc
    obtain ⟨t, ht⟩ : trim comment <+: trimFront comment := List.rdropWhile_prefix isSpace _
    refine head?_trimFront comment c ?_
    rw [← ht, List.head?_append, Option.mem_def.mp hc]
    rfl
  · intro c hc
    have hne : trim comment ≠ [] := fun h => by rw [h] at hc; cases hc
    have hlast := List.rdropWhile_last_not isSpace (trimFront comment) hne
    obtain rfl : (trim comment).getLast hne = c :=
      Option.some.inj ((List.getLast?_eq_some_getLast hne).symm.trans hc)
    exact Bool.not_eq_true _ ▸ hlast

theorem length_trim (comment : Str) : (trim comment).length ≤ comment.length := by
  have hback : trim comment <+: trimFront comment := List.rdropWhile_prefix isSpace _
  exact Nat.le_trans hback.length_le (List.dropWhile_sublist _).length_le

/-- What is left behind the first line is shorter, as the first line is not empty. -/
theorem length_dropWhile_trim {comment : Str} (h : (trim comment).dropWhile (· ≠ '\n') ≠ []) :
    ((trim comment).dropWhile (· ≠ '\n')).length < comment.length := by
  have hle := length_trim comment
  have hhead := (trimmed_trim comment).1
  cases htrim : trim comment with
  | nil => rw [htrim] at h; exact absurd rfl h
  | cons c s =>
    rw [htrim] at hle hhead
    have hc : c ≠ '\n' := by
      rintro rfl
      exact absurd (hhead '\n' rfl) (by decide)
    have hdrop := (List.dropWhile_sublist (fun c => decide (c ≠ '\n')) (l := s)).length_le
    rw [List.dropWhile_cons_of_pos (by simpa using hc)]
    simp only [List.length_cons] at hle
    omega

/-- A line that `write_multiline_comment` writes. -/
def commentLine (indent line : Str) : Str := indent ++ "// ".toList ++ line ++ ['\n']

/-- `write_multiline_comment`: the lines it writes. -/
def write_multiline_comment (comment indent : Str) : List Str :=
  if comment = [] then []
  else
    let line := commentLine indent ((trim comment).takeWhile (· ≠ '\n'))
    if _h : (trim comment).dropWhile (· ≠ '\n') = [] then [line]
    else line :: write_multiline_comment ((trim comment).dropWhile (· ≠ '\n')) indent
termination_by comment.length
decreasing_by exact length_dropWhile_trim _h

/-- The lines of a text that are not blank, without the spaces in front of them. -/
def shownLines (text : Str) : List Str := ((text.splitOn '\n').map trimFront).filter (· ≠ [])

theorem shownLines_lineFeed (s : Str) : shownLines ('\n' :: s) = shownLines s := by
  rw [shownLines, splitOn_sep_cons, List.map_cons, List.filter_cons_of_neg (by simp [trimFront])]
  rfl

theorem shownLines_space {c : Char} (hc : isSpace c = true) (s : Str) :
    shownLines (c :: s) = shownLines s := by
  by_cases hn : c = '\n'
  · rw [hn, shownLines_lineFeed]
  · rw [shownLines, shownLines, splitOn_cons_of_ne hn]
    cases hs : s.splitOn '\n' with
    | nil => exact absurd hs (List.splitOn_ne_nil _ _)
    | cons line lines =>
      rw [List.modifyHead_cons, List.map_cons, List.map_cons, trimFront, List.dropWhile_cons_of_pos hc]
      rfl

theorem shownLines_trimFront (s : Str) : shownLines (trimFront s) = shownLines s := by
  induction s with
  | nil => rfl
  | cons c s ih =>
    by_cases hc : isSpace c = true
    · rw [shownLines_space hc, ← ih, trimFront, List.dropWhile_cons_of_pos hc]
      rfl
    · rw [trimFront, List.dropWhile_cons_of_neg hc]

theorem shownLines_of_trimmed {s : Str} (hs : Trimmed s) (hne : s ≠ []) :
    shownLines s = s.takeWhile (· ≠ '\n') :: shownLines (s.dropWhile (· ≠ '\n')) := by
  have hline : trimFront (s.takeWhile (· ≠ '\n')) = s.takeWhile (· ≠ '\n') ∧
      s.takeWhile (· ≠ '\n') ≠ [] := by
    cases s with
    | nil => exact absurd rfl hne
    | cons c s =>
      have hspace := hs.1 c rfl
      have hc : c ≠ '\n' := by rintro rfl; cases hspace
      rw [List.takeWhile_cons_of_pos (by simpa using hc)]
      exact ⟨trimFront_of_head (by simpa using hspace), by simp⟩
  rw [shownLines, splitOn_eq_cons, List.map_cons, hline.1, List.filter_cons_of_pos (by simpa using hline.2)]
  rcases dropWhile_ne_cases '\n' s with h | ⟨rest, h⟩
  · rw [h]; rfl
  · rw [h, shownLines_lineFeed]; rfl

/-- **What `write_multiline_comment` writes**: a line for each line of the text that is not blank, and
one empty comment for a text that is all spaces. -/
theorem write_multiline_comment_eq (comment indent : Str) :
    write_multiline_comment comment indent =
      if comment = [] then [] else if trim comment = [] then [commentLine indent []]
      else (shownLines (trim comment)).map (commentLine indent) := by
  induction hlen : comment.length using Nat.strong_induction_on generalizing comment with
  | _ len ih =>
    rw [write_multiline_comment]
    by_cases hnil : comment = []
    · rw [if_pos hnil, if_pos hnil]
    rw [if_neg hnil, if_neg hnil]
    by_cases htrim : trim comment = []
    · simp [htrim]
    rw [if_neg htrim, shownLines_of_trimmed (trimmed_trim comment) htrim]
    split
    · rename_i hend
      rw [hend]
      rfl
    · rename_i hmore
      obtain ⟨rest, hrest⟩ := (dropWhile_ne_cases '\n' (trim comment)).resolve_left hmore
      have hshort := length_dropWhile_trim hmore
      -- the rest ends as the text does, so only its front is trimmed
      have hlast : ∀ s, s <:+ '\n' :: rest → ∀ c ∈ s.getLast?, isSpace c = false := by
        rintro s ⟨v, hv⟩ c hc
        refine (trimmed_trim comment).2 c ?_
        obtain ⟨u, hu⟩ : ('\n' :: rest) <:+ trim comment := hrest ▸ List.dropWhile_suffix _
        rw [← hu, ← hv, ← List.append_assoc, List.getLast?_append, Option.mem_def.mp hc]
        rfl
      have hsame : trim ('\n' :: rest) = trimFront ('\n' :: rest) :=
        trimBack_of_getLast (hlast _ (List.dropWhile_suffix _))
      have hshown : trim ('\n' :: rest) ≠ [] := by
        intro hall
        have hspace := List.dropWhile_eq_nil_iff.mp (hsame.symm.trans hall)
        have hend := List.getLast?_eq_some_getLast (List.cons_ne_nil '\n' rest)
        have := hspace _ (List.getLast_mem (List.cons_ne_nil '\n' rest))
        rw [hlast _ List.suffix_rfl _ hend] at this
        cases this
      rw [hrest] at hshort ⊢
      rw [ih _ (hlen ▸ hshort) _ rfl, if_neg (by simp), if_neg hshown, hsame, shownLines_trimFront]
      rfl

/-! ### Block comments -/

/-- The documentation that `emitStruct` and `emitVariant` write. -/
def blockDocumentation (description : Str) : Str :=
  "/**\n * ".toList ++ escapeCppString description ++ "\n */".toList

/-- The documentation that `emitStruct` writes for a field. -/
def fieldDocumentation (description : Str) : Str :=
  "    /** ".toList ++ escapeCppString description ++ " */".toList

def quotedValue (enum_value : Str) : Str := '\x60' :: escapeCppString enum_value ++ ['\x60']

def allowedValues (enum_values : List Str) : Str :=
  if enum_values = [] then []
  else " * Allowed values: ".toList ++ ", ".toList.intercalate (enum_values.map quotedValue) ++ ['\n']

/-- The documentation that `emitEnumFromPrimitive` writes. -/
def enumDocumentation (description : Str) (enum_values : List Str) : Str :=
  "/**\n * ".toList ++ escapeCppString description ++ ['\n'] ++ allowedValues enum_values ++ " */".toList

/-- `*/` does not occur: nowhere does a `/` follow a `*`. -/
def NeverCloses (a b : Char) : Prop := a = '*' → b ≠ '/'

/-- No line begins with a `/`. -/
def NoSlashFirst (a b : Char) : Prop := b = '/' → a ≠ '\n' ∧ a ≠ '\r'

theorem isChain_neverCloses {s : Str} : s.IsChain NeverCloses ↔ ¬ ['*', '/'] <:+: s := by
  rw [List.isChain_iff_forall_rel_of_append_cons_cons]
  constructor
  · rintro h ⟨x, y, rfl⟩
    exact @h '*' '/' x y (by simp) rfl rfl
  · rintro h a b x y rfl rfl rfl
    exact h ⟨x, y, by simp⟩

/-- Where the second of two texts does not begin with a `/`, the two are apart. -/
theorem isChain_append_of_head {R : Char → Char → Prop} (hR : ∀ a b, b ≠ '/' → R a b) (u : Str) {v : Str}
    (hv : v.head? ≠ some '/') : (u ++ v).IsChain R ↔ u.IsChain R ∧ v.IsChain R := by
  rw [List.isChain_append]
  constructor
  · exact fun h => ⟨h.1, h.2.1⟩
  · refine fun h => ⟨h.1, h.2, fun a _ b hb => hR a b ?_⟩
    rintro rfl
    exact hv hb

/-- A text that is put together of parts, none of which begins with a `/`. -/
theorem isChain_flatten {R : Char → Char → Prop} (hR : ∀ a b, b ≠ '/' → R a b) {parts : List Str}
    (hparts : ∀ part ∈ parts, part.head? ≠ some '/') :
    parts.flatten.IsChain R ↔ ∀ part ∈ parts, part.IsChain R := by
  have hhead : ∀ ps : List Str, (∀ part ∈ ps, part.head? ≠ some '/') → ps.flatten.head? ≠ some '/' := by
    intro ps hps
    induction ps with
    | nil => simp
    | cons p ps ih =>
      rw [List.flatten_cons, List.head?_append]
      have hp := hps p (by simp)
      cases h : p.head? with
      | none => exact ih fun q hq => hps q (by simp [hq])
      | some c =>
        rw [h] at hp
        exact hp
  induction parts with
  | nil => simp
  | cons p ps ih =>
    have hps : ∀ part ∈ ps, part.head? ≠ some '/' := fun q hq => hparts q (by simp [hq])
    have hrest : ps.flatten.IsChain R ↔ ∀ part ∈ ps, part.IsChain R := ih hps
    rw [List.flatten_cons, isChain_append_of_head hR _ (hhead ps hps), hrest, List.forall_mem_cons]

theorem isChain_of_notMem {R : Char → Char → Prop} (hR : ∀ a b, b ≠ '/' → R a b) {s : Str} (h : '/' ∉ s) :
    s.IsChain R := by
  refine List.isChain_iff_forall_rel_of_append_cons_cons.mpr fun a b x y heq => hR a b ?_
  rintro rfl
  exact h (by simp [heq])

theorem neverCloses_of_ne (a b : Char) (h : b ≠ '/') : NeverCloses a b := fun _ => h

theorem noSlashFirst_of_ne (a b : Char) (h : b ≠ '/') : NoSlashFirst a b := fun hb => absurd hb h

theorem head?_escapeCppString (s : Str) : (escapeCppString s).head? = some '/' ↔ s.head? = some '/' := by
  cases s with
  | nil => rfl
  | cons c s =>
    rw [escapeCppString_cons]
    rcases escapeCppChar_cases c with ⟨e, he, hread⟩ | ⟨he, -⟩
    · have hc : c ≠ '/' := by
        rintro rfl
        cases he
      simp [he, hc]
    · simp [he]

theorem isChain_escapeCppString (s : Str) : (escapeCppString s).IsChain NeverCloses ↔ s.IsChain NeverCloses := by
  induction s with
  | nil => rfl
  | cons c s ih =>
    rw [escapeCppString_cons]
    rcases escapeCppChar_cases c with ⟨e, he, hread⟩ | ⟨he, -⟩
    · have hc : c ≠ '*' := by rintro rfl; cases he
      have hstar : e ≠ '*' := by rintro rfl; cases hread
      rw [he, List.cons_append, List.singleton_append, List.isChain_cons, List.isChain_cons, ih, List.isChain_cons]
      simp [NeverCloses, hc, hstar]
    · rw [he, List.singleton_append, List.isChain_cons, List.isChain_cons, ih]
      refine and_congr_left fun _ => ?_
      by_cases hc : c = '*'
      · have hhead := head?_escapeCppString s
        simp only [NeverCloses, hc, forall_const, Option.mem_def]
        exact ⟨fun h b hb hslash => h '/' (hhead.mpr (hslash ▸ hb)) rfl,
          fun h b hb hslash => h '/' (hhead.mp (hslash ▸ hb)) rfl⟩
      · simp [NeverCloses, hc]

theorem noSlashFirst_escapeCppString (s : Str) : (escapeCppString s).IsChain NoSlashFirst := by
  have hplain := lineEnd_notMem_escapeCppString s
  refine List.isChain_iff_forall_rel_of_append_cons_cons.mpr fun a b x y h _ => ⟨?_, ?_⟩
  · rintro rfl
    exact hplain.1 (by simp [h])
  · rintro rfl
    exact hplain.2 (by simp [h])

/-- A text of the document, behind a character that is neither `*` nor a line end. -/
theorem isChain_cons_escapeCppString {a : Char} (ha : a ≠ '*' ∧ a ≠ '\n' ∧ a ≠ '\r') (s : Str) :
    ((a :: escapeCppString s).IsChain NeverCloses ↔ ¬ ['*', '/'] <:+: s) ∧
      (a :: escapeCppString s).IsChain NoSlashFirst := by
  rw [List.isChain_cons, List.isChain_cons, isChain_escapeCppString, isChain_neverCloses]
  refine ⟨?_, fun b _ _ => ha.2, noSlashFirst_escapeCppString s⟩
  simp [NeverCloses, ha.1]

/-- A block comment whose text is put together so that no line begins with a `/`. -/
theorem afterComment_block {u : Str} (hlines : u.IsChain NoSlashFirst) (rest : Str) :
    Cpp.afterComment ('/' :: '*' :: (u ++ '*' :: '/' :: rest)) = some rest ↔ u.IsChain NeverCloses := by
  have hopen : Cpp.next ('/' :: '*' :: (u ++ '*' :: '/' :: rest)) =
      some ('/', '*' :: (u ++ '*' :: '/' :: rest)) := Cpp.next_cons (by decide) (by decide) (by decide) _
  have hstar : Cpp.next ('*' :: (u ++ '*' :: '/' :: rest)) = some ('*', u ++ '*' :: '/' :: rest) :=
    Cpp.next_cons (by decide) (by decide) (by decide) _
  rw [Cpp.afterComment, hopen]
  simp only [hstar]
  exact (Cpp.blockCommentEnd_iff hlines rest).trans isChain_neverCloses.symm

/-! ### The places of the documentation -/

/-- Where a summary or a description is written. -/
inductive DocSite where
  | summary
  | struct
  | field
  | «variant»
  | enumeration (enum_values : List Str)

/-- The comments that are written for a text: none for an empty one. -/
def DocSite.comments : DocSite → Str → List Str
  | .summary, text => write_multiline_comment text "\t".toList
  | .struct, text => if text = [] then [] else [blockDocumentation text]
  | .field, text => if text = [] then [] else [fieldDocumentation text]
  | .«variant», text => if text = [] then [] else [blockDocumentation text]
  | .enumeration enum_values, text => if text = [] then [] else [enumDocumentation text enum_values]

/-- What is written behind the last comment: a line comment has its line end with it. -/
def DocSite.behind : DocSite → Str
  | .summary => []
  | _ => ['\n']

/-- Comments one behind the other are read one by one, each up to where it was written to. -/
def ReadAsComments : List Str → Str → Prop
  | [], _ => True
  | comment :: comments, rest =>
    Cpp.afterComment ((comment ++ (comments.flatten ++ rest)).dropWhile (· ∈ Cpp.blanks)) =
        some (comments.flatten ++ rest) ∧
      ReadAsComments comments rest

/-- The texts that stay in their comments: in line comments those whose lines end with their line, in a
block comment those without `*/`. -/
def DocSite.Keeps : DocSite → Str → Prop
  | .summary, text => ∀ line ∈ shownLines (trim text), Cpp.EndsWithLine line
  | .enumeration enum_values, text => text = [] ∨ ∀ t ∈ text :: enum_values, ¬ ['*', '/'] <:+: t
  | _, text => ¬ ['*', '/'] <:+: text

theorem lineFeed_notMem_shownLines {text line : Str} (h : line ∈ shownLines text) : '\n' ∉ line := by
  obtain ⟨hmem, -⟩ := List.mem_filter.mp h
  obtain ⟨l, hl, rfl⟩ := List.mem_map.mp hmem
  intro hn
  exact absurd ((List.dropWhile_sublist _).subset hn) (notMem_of_mem_splitOn hl)

theorem afterComment_commentLine {line rest : Str} (hline : '\n' ∉ line) (hrest : rest ≠ []) :
    Cpp.afterComment ((commentLine "\t".toList line ++ rest).dropWhile (· ∈ Cpp.blanks)) = some rest ↔
      Cpp.EndsWithLine line := by
  have hplain : ∀ c s, c = '/' ∨ c = ' ' → Cpp.next (c :: s) = some (c, s) := by
    rintro c s (rfl | rfl) <;> exact Cpp.next_cons (by decide) (by decide) (by decide) s
  have htext : (commentLine "\t".toList line ++ rest).dropWhile (· ∈ Cpp.blanks) =
      '/' :: '/' :: ' ' :: (line ++ '\n' :: rest) := by
    rw [commentLine, List.append_assoc, List.append_assoc, List.append_assoc]
    rfl
  rw [htext, Cpp.afterComment, hplain _ _ (.inl rfl)]
  simp only [hplain _ _ (.inl rfl)]
  rw [Cpp.lineCommentEnd_eq (hplain _ _ (.inr rfl)), if_neg (by decide), Option.some_inj,
    Cpp.lineCommentEnd_iff hline hrest]

theorem readAsComments_lines {lines : List Str} (hlines : ∀ line ∈ lines, '\n' ∉ line) {rest : Str}
    (hrest : rest ≠ []) :
    ReadAsComments (lines.map (commentLine "\t".toList)) rest ↔ ∀ line ∈ lines, Cpp.EndsWithLine line := by
  induction lines with
  | nil => simp [ReadAsComments]
  | cons line lines ih =>
    rw [List.map_cons, ReadAsComments, List.forall_mem_cons, ih fun l hl => hlines l (by simp [hl]),
      afterComment_commentLine (hlines line (by simp)) (by simp [hrest])]

theorem readAsComments_block {comment u : Str} (hlines : u.IsChain NoSlashFirst) {rest : Str}
    (h : (comment ++ rest).dropWhile (· ∈ Cpp.blanks) = '/' :: '*' :: (u ++ '*' :: '/' :: rest)) :
    ReadAsComments [comment] rest ↔ u.IsChain NeverCloses := by
  rw [ReadAsComments, List.flatten_nil, List.nil_append, h, afterComment_block hlines]
  exact and_iff_left trivial

theorem head?_intercalate (sep w : Str) (values : List Str) :
    (sep.intercalate ((w :: values).map quotedValue)).head? = some '\x60' := by
  cases values <;> simp [List.intercalate_cons_cons, quotedValue]

theorem isChain_intercalate {R : Char → Char → Prop} (hR : ∀ a b, b ≠ '/' → R a b)
    (enum_values : List Str) :
    (", ".toList.intercalate (enum_values.map quotedValue)).IsChain R ↔
      ∀ v ∈ enum_values, (quotedValue v).IsChain R := by
  have hsep : ", ".toList.IsChain R := isChain_of_notMem hR (by decide)
  induction enum_values with
  | nil => simp
  | cons v values ih =>
    cases values with
    | nil => simp
    | cons w values =>
      have hhead := head?_intercalate ", ".toList w values
      have hrest : (", ".toList ++ ", ".toList.intercalate ((w :: values).map quotedValue)).IsChain R ↔
          ∀ x ∈ w :: values, (quotedValue x).IsChain R := by
        rw [isChain_append_of_head hR _ (by rw [hhead]; decide)]
        exact (and_iff_right hsep).trans ih
      rw [List.forall_mem_cons (a := v), ← hrest, List.map_cons, List.map_cons, List.intercalate_cons_cons,
        List.append_assoc, isChain_append_of_head hR _ (by simp)]

theorem isChain_quotedValue (v : Str) :
    ((quotedValue v).IsChain NeverCloses ↔ ¬ ['*', '/'] <:+: v) ∧ (quotedValue v).IsChain NoSlashFirst := by
  have hopen := isChain_cons_escapeCppString (a := '\x60') (by decide) v
  have hclose : (['\x60'] : Str).head? ≠ some '/' := by decide
  rw [quotedValue, isChain_append_of_head neverCloses_of_ne _ hclose,
    isChain_append_of_head noSlashFirst_of_ne _ hclose]
  exact ⟨by simp [hopen.1], hopen.2, List.isChain_singleton _⟩

/-- A comment that is put together of parts, none of which begins with a `/`, is read up to its end when
no part holds a `*/`. -/
theorem readAsComments_parts {comment rest : Str} (parts : List Str)
    (hparts : ∀ part ∈ parts, part.head? ≠ some '/') (hlines : ∀ part ∈ parts, part.IsChain NoSlashFirst)
    (h : (comment ++ rest).dropWhile (· ∈ Cpp.blanks) = '/' :: '*' :: (parts.flatten ++ '*' :: '/' :: rest)) :
    ReadAsComments [comment] rest ↔ ∀ part ∈ parts, part.IsChain NeverCloses :=
  (readAsComments_block ((isChain_flatten noSlashFirst_of_ne hparts).mpr hlines) h).trans
    (isChain_flatten neverCloses_of_ne hparts)

theorem readAsComments_text {comment rest description : Str} (before after : Str) (hbefore : '/' ∉ before)
    (hafter : '/' ∉ after) (h : (comment ++ rest).dropWhile (· ∈ Cpp.blanks) =
      '/' :: '*' :: (before ++ (' ' :: escapeCppString description) ++ after ++ '*' :: '/' :: rest)) :
    ReadAsComments [comment] rest ↔ ¬ ['*', '/'] <:+: description := by
  have htext := isChain_cons_escapeCppString (a := ' ') (by decide) description
  have hhead : ∀ {s : Str}, '/' ∉ s → s.head? ≠ some '/' := fun hs hh => hs (List.mem_of_head? hh)
  rw [readAsComments_parts [before, ' ' :: escapeCppString description, after]]
  · simp only [List.forall_mem_cons, htext.1]
    simp [isChain_of_notMem neverCloses_of_ne hbefore, isChain_of_notMem neverCloses_of_ne hafter]
  · simp [hhead hbefore, hhead hafter]
  · simp only [List.forall_mem_cons]
    simp [isChain_of_notMem noSlashFirst_of_ne hbefore, isChain_of_notMem noSlashFirst_of_ne hafter, htext.2]
  · rw [h]
    simp

/-- A comment cut into what stands before the text of the document, the text, and what follows it. -/
theorem comment_parts (before after text rest : Str) :
    '/' :: '*' :: (before ++ [' ']) ++ text ++ (after ++ ['*', '/']) ++ rest =
      '/' :: '*' :: (before ++ (' ' :: text) ++ after ++ '*' :: '/' :: rest) := by
  simp

theorem blockComment_opening : "/**\n * ".toList = '/' :: '*' :: ("*\n *".toList ++ [' ']) := by decide

theorem readAsComments_blockDocumentation (description rest : Str) :
    ReadAsComments [blockDocumentation description] rest ↔ ¬ ['*', '/'] <:+: description := by
  refine readAsComments_text "*\n *".toList "\n ".toList (by decide) (by decide) ?_
  have hclose : "\n */".toList = "\n ".toList ++ ['*', '/'] := by decide
  have htext : blockDocumentation description = '/' :: '*' :: ("*\n *".toList ++ [' ']) ++
      escapeCppString description ++ ("\n ".toList ++ ['*', '/']) :=
    congrArg₂ (fun opening closing => opening ++ escapeCppString description ++ closing)
      blockComment_opening hclose
  rw [htext, comment_parts]
  exact List.dropWhile_cons_of_neg (by decide)

theorem readAsComments_fieldDocumentation (description rest : Str) :
    ReadAsComments [fieldDocumentation description] rest ↔ ¬ ['*', '/'] <:+: description := by
  refine readAsComments_text ['*'] [' '] (by decide) (by decide) ?_
  have hopen : "    /** ".toList = "    ".toList ++ '/' :: '*' :: (['*'] ++ [' ']) := by decide
  have hclose : " */".toList = [' '] ++ ['*', '/'] := by decide
  have htext : fieldDocumentation description = "    ".toList ++ '/' :: '*' :: (['*'] ++ [' ']) ++
      escapeCppString description ++ ([' '] ++ ['*', '/']) :=
    congrArg₂ (fun opening closing => opening ++ escapeCppString description ++ closing) hopen hclose
  have hindent : ∀ indent x y z : Str, indent ++ x ++ y ++ z ++ rest = indent ++ (x ++ y ++ z ++ rest) := by
    simp
  rw [htext, hindent, comment_parts, List.dropWhile_append_of_pos (by decide)]
  exact List.dropWhile_cons_of_neg (by decide)

/-- The parts of the documentation of an enumeration, between its slashes. -/
def enumParts (description : Str) (enum_values : List Str) : List Str :=
  ["*\n *".toList, ' ' :: escapeCppString description, ['\n']] ++
    (if enum_values = [] then []
      else [" * Allowed values: ".toList, ", ".toList.intercalate (enum_values.map quotedValue), ['\n']]) ++
    [[' ']]

theorem flatten_enumParts (description : Str) (enum_values : List Str) :
    (enumParts description enum_values).flatten = "*\n *".toList ++ (' ' :: escapeCppString description) ++
      (['\n'] ++ allowedValues enum_values ++ [' ']) := by
  have hparts : ∀ (opening : Str) (more : List Str), ([opening, ' ' :: escapeCppString description, ['\n']] ++
      more ++ [[' ']]).flatten = opening ++ (' ' :: escapeCppString description) ++
        (['\n'] ++ more.flatten ++ [' ']) := by
    simp
  rw [enumParts, hparts, allowedValues]
  split <;> simp

theorem forall_mem_enumParts {P : Str → Prop} (description : Str) (enum_values : List Str)
    (hplain : ∀ s, '/' ∉ s → P s) :
    (∀ part ∈ enumParts description enum_values, P part) ↔ P (' ' :: escapeCppString description) ∧
      (enum_values ≠ [] → P (", ".toList.intercalate (enum_values.map quotedValue))) := by
  have hfixed : P "*\n *".toList ∧ P ['\n'] ∧ P " * Allowed values: ".toList ∧ P [' '] :=
    ⟨hplain _ (by decide), hplain _ (by decide), hplain _ (by decide), hplain _ (by decide)⟩
  rw [enumParts]
  split
  · rename_i hnil
    simp only [List.append_nil, List.cons_append, List.nil_append, List.forall_mem_cons, hfixed, hnil]
    simp
  · rename_i hne
    simp only [List.cons_append, List.nil_append, List.forall_mem_cons, hfixed]
    simp [hne]

theorem readAsComments_enumDocumentation (description : Str) (enum_values : List Str) (rest : Str) :
    ReadAsComments [enumDocumentation description enum_values] rest ↔
      ∀ t ∈ description :: enum_values, ¬ ['*', '/'] <:+: t := by
  have htext := isChain_cons_escapeCppString (a := ' ') (by decide) description
  have hvalues := isChain_intercalate neverCloses_of_ne enum_values
  rw [readAsComments_parts (enumParts description enum_values)]
  · rw [forall_mem_enumParts _ _ fun s => isChain_of_notMem neverCloses_of_ne, htext.1, hvalues,
      List.forall_mem_cons]
    simp only [(isChain_quotedValue _).1]
    refine and_congr_right fun _ => ⟨fun h v hv => ?_, fun h _ => h⟩
    exact h (List.ne_nil_of_mem hv) v hv
  · refine (forall_mem_enumParts _ _ fun s hs hhead => hs (List.mem_of_head? hhead)).mpr ⟨by simp, fun hne => ?_⟩
    obtain ⟨v, values, rfl⟩ := List.exists_cons_of_ne_nil hne
    rw [head?_intercalate]
    decide
  · refine (forall_mem_enumParts _ _ fun s => isChain_of_notMem noSlashFirst_of_ne).mpr ⟨htext.2, fun _ => ?_⟩
    exact (isChain_intercalate noSlashFirst_of_ne enum_values).mpr fun v _ => (isChain_quotedValue v).2
  · have hclose : " */".toList = [' '] ++ ['*', '/'] := by decide
    have htext : enumDocumentation description enum_values = '/' :: '*' :: ("*\n *".toList ++ [' ']) ++
        escapeCppString description ++ ['\n'] ++ allowedValues enum_values ++ ([' '] ++ ['*', '/']) :=
      congrArg₂ (fun opening closing => opening ++ escapeCppString description ++ ['\n'] ++
        allowedValues enum_values ++ closing) blockComment_opening hclose
    have hbehind : ∀ x y z : Str, x ++ y ++ ['\n'] ++ z ++ ([' '] ++ ['*', '/']) ++ rest =
        x ++ y ++ (['\n'] ++ z ++ [' '] ++ ['*', '/']) ++ rest := by
      simp
    rw [htext, hbehind, comment_parts, flatten_enumParts]
    exact List.dropWhile_cons_of_neg (by decide)

/-- **Which documentation stays in its comments.**  A text is read as the comments it was written in,
and what is written behind them as code, exactly when it keeps to them. -/
theorem documentation_stays (site : DocSite) (text : Str) (first : Char) (following : Str) :
    ReadAsComments (site.comments text) (site.behind ++ first :: following) ↔ site.Keeps text := by
  have hempty : ∀ {comment rest : Str} {P : Prop}, (text = [] → P) → (ReadAsComments [comment] rest ↔ P) →
      (ReadAsComments (if text = [] then [] else [comment]) rest ↔ P) := by
    intro comment rest P hnil h
    split
    · rename_i htext
      exact iff_of_true trivial (hnil htext)
    · exact h
  have hfree : text = [] → ¬ ['*', '/'] <:+: text := by
    rintro rfl h
    simp at h
  cases site with
  | summary =>
    rw [DocSite.comments, DocSite.Keeps, write_multiline_comment_eq]
    have hlines : ∀ l ∈ shownLines (trim text), '\n' ∉ l := fun l => lineFeed_notMem_shownLines
    split
    · rename_i hnil
      subst hnil
      have hnone : shownLines (trim []) = [] := by decide
      rw [hnone]
      exact iff_of_true trivial (List.forall_mem_nil _)
    split
    · rename_i hnil
      have hone : ReadAsComments ([[]].map (commentLine "\t".toList)) (first :: following) ↔ _ :=
        readAsComments_lines (by simp) (by simp)
      have hends : Cpp.EndsWithLine [] := by decide
      have hnone : shownLines [] = [] := by decide
      rw [hnil, hnone]
      exact iff_of_true (hone.mpr (by simpa using hends)) (List.forall_mem_nil _)
    · exact readAsComments_lines hlines (by simp)
  | struct => exact hempty hfree (readAsComments_blockDocumentation text _)
  | field => exact hempty hfree (readAsComments_fieldDocumentation text _)
  | «variant» => exact hempty hfree (readAsComments_blockDocumentation text _)
  | enumeration enum_values =>
    rw [DocSite.comments, DocSite.Keeps]
    split
    · rename_i hnil
      exact iff_of_true trivial (.inl hnil)
    · rename_i hne
      exact (readAsComments_enumDocumentation text enum_values _).trans (or_iff_right hne).symm

/-- A backslash at the end of a summary takes the next line into the comment, and a description with
`*/` ends its comment early. -/
theorem documentation_escapes :
    ¬ ReadAsComments (DocSite.summary.comments "C:\\".toList) (DocSite.summary.behind ++ "\tvoid f();\n".toList) ∧
      ¬ ReadAsComments (DocSite.struct.comments "*/ 1".toList) (DocSite.struct.behind ++ "struct A;\n".toList) := by
  constructor
  · have hlines : shownLines (trim "C:\\".toList) = ["C:\\".toList] := by decide
    have htext : trim "C:\\".toList ≠ [] := by decide
    have hends : ¬ Cpp.EndsWithLine "C:\\".toList := by decide
    rw [DocSite.comments, write_multiline_comment_eq, if_neg (by decide), if_neg htext, hlines,
      readAsComments_lines (by decide) (by decide)]
    simpa using hends
  · rw [DocSite.comments, if_neg (by decide), readAsComments_blockDocumentation]
    exact not_not.mpr ⟨[], " 1".toList, by decide⟩

end Siesta
