import Siesta.IR.Endpoint
import Siesta.Lib.CppScopes

/-!
# The words of the generated code: `Utils.cpp` and `EndpointIR.hpp`

Four functions turn texts of the document into words of the generated code: `sanitize`,
`sanitize_enum_identifier`, `sanitizeParamName` and `generateFunctionName`.  Each replaces characters of
its own and looks at words of its own, so each has its own texts that become names of C++.
-/

namespace Siesta

open Lib

/-- `sanitize_enum_identifier`. -/
def sanitize_enum_identifier (input : Str) : Str :=
  guardDigit ((sanitize input).map fun c => if c = '.' then '_' else c)

theorem isDigit_guardDigit (s : Str) : ∀ c ∈ (guardDigit s).head?, c.isDigit = false := by
  intro c hc
  unfold guardDigit at hc
  split at hc
  · cases hc
  · split at hc
    · obtain rfl : '_' = c := Option.some.inj hc
      rfl
    · rename_i hd
      obtain rfl := Option.some.inj hc
      simpa using hd

theorem isDigit_sanitize (input : Str) : ∀ c ∈ (sanitize input).head?, c.isDigit = false := by
  unfold sanitize
  split
  · intro c hc
    cases hc
  · exact isDigit_guardDigit _

/-- `sanitize` has done all that `sanitize_enum_identifier` does behind it. -/
theorem sanitize_enum_identifier_eq (input : Str) : sanitize_enum_identifier input = sanitize input := by
  have hdots : (sanitize input).map (fun c => if c = '.' then '_' else c) = (sanitize input).map id := by
    refine List.map_congr_left fun c hc => if_neg ?_
    rintro rfl
    exact mem_sanitize hc (by decide)
  rw [sanitize_enum_identifier, hdots, List.map_id]
  exact guardDigit_of_head (isDigit_sanitize input)

/-! ### `sanitize` -/

/-- Replacing characters by `_` leaves characters of an identifier when the others are such. -/
theorem forall_identifierChar_map {marks : List Char} {s : Str} :
    (∀ c ∈ s.map (fun c => if c ∈ marks then '_' else c), Cpp.identifierChar c = true) ↔
      ∀ c ∈ s, c ∈ marks ∨ Cpp.identifierChar c = true := by
  rw [List.forall_mem_map]
  refine forall₂_congr fun c _ => ?_
  split
  · rename_i hc
    simp [hc, Cpp.identifierChar]
  · rename_i hc
    simp [hc]

/-- The keywords of C++ that `Utils.cpp` does not list. -/
def UnlistedKeyword (w : Str) : Prop := w ∈ Cpp.keywords ∧ w ∉ RESERVED

instance : DecidablePred UnlistedKeyword := fun w => by unfold UnlistedKeyword; infer_instance

theorem forall_mem_guardDigit {P : Char → Prop} (hP : P '_') {s : Str} :
    (∀ c ∈ guardDigit s, P c) ↔ ∀ c ∈ s, P c := by
  unfold guardDigit
  split
  · rfl
  · split
    · rw [List.forall_mem_cons]
      exact and_iff_right hP
    · rfl

theorem isName_reserved {w : Str} (h : w ∈ RESERVED) :
    Cpp.IsName (guardDigit (w ++ ['_'])) ∧ Cpp.IsIdentifier w := by
  have hword : ∀ w ∈ RESERVED, Cpp.IsIdentifier w := by decide
  -- no keyword ends with an underscore
  have hends : ∀ k ∈ Cpp.keywords, k.getLast? ≠ some '_' := by decide
  have hhead := isDigit_guardDigit (w ++ ['_'])
  rw [guardDigit_reserved h] at hhead ⊢
  refine ⟨⟨Cpp.isIdentifier_iff.mpr ⟨List.append_ne_nil_of_right_ne_nil _ (List.cons_ne_nil _ _), hhead, ?_⟩,
    fun hk => hends _ hk List.getLast?_concat⟩, hword w h⟩
  exact List.forall_mem_append.mpr ⟨(hword w h).2, List.forall_mem_singleton.mpr rfl⟩

/-- No keyword begins with a digit, or with the `_` that is put in front of one. -/
theorem guardDigit_mem_keywords {word : Str} : guardDigit word ∈ Cpp.keywords ↔ word ∈ Cpp.keywords := by
  have hheads : ∀ w ∈ Cpp.keywords, w.head? ≠ some '_' ∧ w.head?.any Char.isDigit = false := by decide
  cases word with
  | nil => rfl
  | cons c word =>
    rw [guardDigit]
    split
    · rename_i hc
      refine iff_of_false (fun h => (hheads _ h).1 rfl) fun h => ?_
      rw [(Option.any_eq_false _ _).mp (hheads _ h).2 c rfl] at hc
      cases hc
    · rfl

structure SanitizesToName (v : Cpp.Vocabulary) (s : Str) : Prop where
  start : ∀ c ∈ s.head?, c ∈ sanitizedChars ∨ c.isDigit = true ∨ v.nameStart c = true
  chars : ∀ c ∈ s, c ∈ sanitizedChars ∨ v.nameChar c = true
  keyword : ¬ UnlistedKeyword (replaceChars s)
  no_macro : v.macros (sanitize s) = false

theorem isNameIn_sanitize {v : Cpp.Vocabulary} {s : Str} (hs : s ≠ []) :
    Cpp.IsNameIn v (sanitize s) ↔ SanitizesToName v s := by
  obtain ⟨c, rest, rfl⟩ := List.exists_cons_of_ne_nil hs
  by_cases hr : replaceChars (c :: rest) ∈ RESERVED
  · -- a listed word with `_` behind it
    have hsanitize : sanitize (c :: rest) = guardDigit (replaceChars (c :: rest) ++ ['_']) := by
      simp only [sanitize, if_neg hs, if_pos hr]
    obtain ⟨hname, hstart, hchars⟩ := isName_reserved hr
    refine ⟨fun h => ⟨fun d hd => ?_, fun d hd => ?_, fun h => h.2 hr, h.no_macro⟩, fun h =>
      Cpp.isNameIn_of_isName (hsanitize ▸ hname) h.no_macro⟩
    · obtain rfl := Option.some.inj hd
      by_cases hmark : c ∈ sanitizedChars
      · exact .inl hmark
      · obtain ⟨d, hd, halpha⟩ := hstart
        obtain rfl : c = d := by simpa [replaceChars, hmark] using hd
        exact .inr (.inr (by rcases halpha with h | rfl <;> simp [Cpp.Vocabulary.nameStart, *]))
    · rcases forall_identifierChar_map.mp hchars d hd with h | h
      · exact .inl h
      · exact .inr (by simp [Cpp.Vocabulary.nameChar, h])
  · have hsanitize : sanitize (c :: rest) = guardDigit (replaceChars (c :: rest)) := by
      simp only [sanitize, if_neg hs, if_neg hr]
    have hstart : (∃ d ∈ (sanitize (c :: rest)).head?, v.nameStart d = true) ↔
        c ∈ sanitizedChars ∨ c.isDigit = true ∨ v.nameStart c = true := by
      rw [hsanitize, replaceChars, List.map_cons, guardDigit]
      by_cases hmark : c ∈ sanitizedChars
      · have hunderscore : ('_').isDigit = false := rfl
        simp [hmark, hunderscore, Cpp.Vocabulary.nameStart]
      · cases hd : c.isDigit <;> simp [hmark, hd, Cpp.Vocabulary.nameStart]
    have hchars : (∀ d ∈ sanitize (c :: rest), v.nameChar d = true) ↔
        ∀ d ∈ c :: rest, d ∈ sanitizedChars ∨ v.nameChar d = true := by
      rw [hsanitize, @forall_mem_guardDigit (fun d => v.nameChar d = true) rfl, replaceChars, List.forall_mem_map]
      refine forall₂_congr fun d _ => ?_
      split
      · rename_i hd
        simp [hd, Cpp.Vocabulary.nameChar, Cpp.identifierChar]
      · rename_i hd
        simp [hd]
    have hkeyword : sanitize (c :: rest) ∉ Cpp.keywords ↔ ¬ UnlistedKeyword (replaceChars (c :: rest)) := by
      rw [hsanitize, guardDigit_mem_keywords, UnlistedKeyword, and_iff_left hr]
    exact ⟨fun h => ⟨fun d hd => Option.some.inj hd ▸ hstart.mp h.start, hchars.mp h.chars, hkeyword.mp h.keyword,
      h.no_macro⟩, fun h => ⟨hstart.mpr (h.start c rfl), hchars.mpr h.chars, hkeyword.mpr h.keyword, h.no_macro⟩⟩

theorem isName_sanitize {s : Str} (hs : s ≠ []) : Cpp.IsName (sanitize s) ↔
    (∀ c ∈ s, c ∈ sanitizedChars ∨ Cpp.identifierChar c = true) ∧ ¬ UnlistedKeyword (replaceChars s) := by
  rw [← Cpp.isNameIn_plain, isNameIn_sanitize hs]
  have hchar : ∀ c, Cpp.Vocabulary.plain.nameChar c = Cpp.identifierChar c := fun c => Bool.or_false _
  refine ⟨fun h => ⟨fun c hc => hchar c ▸ h.chars c hc, h.keyword⟩, fun h =>
    ⟨fun c hc => ?_, fun c hc => (hchar c).symm ▸ h.1 c hc, h.2, rfl⟩⟩
  rcases h.1 c (List.mem_of_mem_head? hc) with hmark | hchar
  · exact .inl hmark
  · refine .inr ?_
    simp only [Cpp.identifierChar, Char.isAlphanum, Bool.or_eq_true] at hchar
    simp only [Cpp.Vocabulary.nameStart, Bool.or_eq_true]
    rcases hchar with (halpha | hdigit) | hunderscore
    · exact .inr (.inl (.inl halpha))
    · exact .inl hdigit
    · exact .inr (.inl (.inr hunderscore))

/-! ### `sanitizeParamName` -/

/-- The characters `sanitizeParamName` rewrites. -/
def bracketChars : List Char := ['[', ']', '(', ')', '{', '}', '.', ',']

theorem isName_sanitizeParamName {s : Str} (hs : s ≠ []) : Cpp.IsName (sanitizeParamName s) ↔
    (∀ c ∈ s, c ∈ bracketChars ∨ Cpp.identifierChar c = true) ∧ (∀ c ∈ s.head?, c.isDigit = false) ∧
      s.map (fun c => if c ∈ bracketChars then '_' else c) ∉ Cpp.keywords := by
  by_cases hr : s ∈ renamedParams
  · have hrenamed : ∀ w ∈ renamedParams, Cpp.IsName (sanitizeParamName w) ∧ w.all Cpp.identifierChar = true ∧
        w.head?.any Char.isDigit = false ∧
        w.map (fun c => if c ∈ bracketChars then '_' else c) ∉ Cpp.keywords := by decide
    obtain ⟨hname, hchars, hdigit, hkeyword⟩ := hrenamed s hr
    exact iff_of_true hname ⟨fun c hc => .inr (List.all_eq_true.mp hchars c hc),
      (Option.any_eq_false _ _).mp hdigit, hkeyword⟩
  · have hname : sanitizeParamName s = s.map fun c => if c ∈ bracketChars then '_' else c := by
      rw [sanitizeParamName, if_neg hr]
      rfl
    have hhead : (∀ c ∈ (s.map fun c => if c ∈ bracketChars then '_' else c).head?, c.isDigit = false) ↔
        ∀ c ∈ s.head?, c.isDigit = false := by
      cases s with
      | nil => rfl
      | cons c s =>
        have hbrackets : ∀ c ∈ bracketChars, c.isDigit = false := by decide
        simp only [List.map_cons, List.head?_cons, Option.mem_some_iff, forall_eq']
        split
        · rename_i hc
          exact iff_of_true rfl (hbrackets c hc)
        · rfl
    rw [hname, Cpp.IsName, Cpp.isIdentifier_iff, hhead, forall_identifierChar_map]
    simp only [ne_eq, List.map_eq_nil_iff, hs, not_false_eq_true, true_and]
    tauto

/-! ### `generateFunctionName` -/

/-- The characters of a path that `generateFunctionName` does not copy. -/
def pathMarks : List Char := ['/', '{', '}', ':', '-']

/-- A closing brace is dropped and the other marks become `_`. -/
def copiedChars (s : Str) : Str := (s.filter (· ≠ '}')).map fun c => if c ∈ pathMarks then '_' else c

/-- What the path contributes to the name of its function: the slashes in front of the first character
that is copied are dropped as well. -/
def pathWord (path : Str) : Str :=
  copiedChars ((path.takeWhile (· ∈ pathMarks)).filter (· ≠ '/') ++ path.dropWhile (· ∈ pathMarks))

theorem copiedChars_cons (c : Char) (s : Str) : copiedChars (c :: s) =
    (if c = '}' then [] else if c ∈ pathMarks then ['_'] else [c]) ++ copiedChars s := by
  by_cases hc : c = '}'
  · rw [if_pos hc, copiedChars, List.filter_cons_of_neg (by simpa using hc)]
    rfl
  · rw [if_neg hc, copiedChars, List.filter_cons_of_pos (by simpa using hc), List.map_cons]
    split <;> rfl

theorem functionNameStep_false (c : Char) (acc : Str) : functionNameStep (false, acc) c =
    (false, acc ++ if c = '}' then [] else if c ∈ pathMarks then ['_'] else [c]) := by
  by_cases hc : c ∈ pathMarks
  · simp only [pathMarks, List.mem_cons, List.not_mem_nil, or_false] at hc
    rcases hc with rfl | rfl | rfl | rfl | rfl <;> simp [functionNameStep, pathMarks]
  · simp only [pathMarks, List.mem_cons, not_or, List.not_mem_nil, not_false_eq_true, and_true] at hc
    simp [functionNameStep, pathMarks, hc]

theorem foldl_functionNameStep_false (path acc : Str) :
    path.foldl functionNameStep (false, acc) = (false, acc ++ copiedChars path) := by
  induction path generalizing acc with
  | nil => simp [copiedChars]
  | cons c path ih =>
    rw [List.foldl_cons, functionNameStep_false, ih, copiedChars_cons, List.append_assoc]

theorem pathWord_mark {c : Char} (hc : c ∈ pathMarks) (path : Str) :
    pathWord (c :: path) = (if c = '/' ∨ c = '}' then [] else ['_']) ++ pathWord path := by
  rw [pathWord, List.takeWhile_cons_of_pos (by simpa using hc), List.dropWhile_cons_of_pos (by simpa using hc)]
  by_cases hslash : c = '/'
  · rw [List.filter_cons_of_neg (by simpa using hslash), if_pos (.inl hslash)]
    rfl
  · rw [List.filter_cons_of_pos (by simpa using hslash), List.cons_append, copiedChars_cons, if_pos hc]
    simp only [hslash, false_or]
    rfl

theorem pathWord_plain {c : Char} (hc : c ∉ pathMarks) (path : Str) :
    pathWord (c :: path) = c :: copiedChars path := by
  have hbrace : c ≠ '}' := by
    rintro rfl
    exact hc (by decide)
  rw [pathWord, List.takeWhile_cons_of_neg (by simpa using hc), List.dropWhile_cons_of_neg (by simpa using hc),
    List.filter_nil, List.nil_append, copiedChars_cons, if_neg hbrace, if_neg hc]
  rfl

theorem foldl_functionNameStep_true (path acc : Str) :
    (path.foldl functionNameStep (true, acc)).2 = acc ++ pathWord path := by
  induction path generalizing acc with
  | nil => simp [pathWord, copiedChars]
  | cons c path ih =>
    by_cases hc : c ∈ pathMarks
    · have hstep : functionNameStep (true, acc) c =
          (true, acc ++ if c = '/' ∨ c = '}' then [] else ['_']) := by
        simp only [pathMarks, List.mem_cons, List.not_mem_nil, or_false] at hc
        rcases hc with rfl | rfl | rfl | rfl | rfl <;> simp [functionNameStep]
      rw [List.foldl_cons, hstep, ih, pathWord_mark hc, List.append_assoc]
    · have hstep : functionNameStep (true, acc) c = (false, acc ++ [c]) := by
        simp only [pathMarks, List.mem_cons, not_or, List.not_mem_nil, not_false_eq_true, and_true] at hc
        simp [functionNameStep, hc]
      rw [List.foldl_cons, hstep, foldl_functionNameStep_false, pathWord_plain hc]
      simp

/-- **The name of a function**: its method, two underscores, and the word its path makes. -/
theorem generateFunctionName_eq (method path : Str) :
    generateFunctionName method path = method ++ "__".toList ++ pathWord path :=
  foldl_functionNameStep_true path _

theorem forall_mem_copiedChars {P : Char → Prop} (hP : P '_') (s : Str) :
    (∀ c ∈ copiedChars s, P c) ↔ ∀ c ∈ s, c ∈ pathMarks ∨ P c := by
  induction s with
  | nil => simp [copiedChars]
  | cons c s ih =>
    rw [copiedChars_cons, List.forall_mem_append, ih, List.forall_mem_cons]
    refine and_congr_left fun _ => ?_
    by_cases hc : c ∈ pathMarks
    · refine iff_of_true (fun d hd => ?_) (.inl hc)
      rw [if_pos hc] at hd
      split at hd
      · cases hd
      · rw [List.mem_singleton.mp hd]
        exact hP
    · have hbrace : c ≠ '}' := by
        rintro rfl
        exact hc (by decide)
      simp [hc, hbrace]

theorem forall_mem_pathWord {P : Char → Prop} (hP : P '_') (path : Str) :
    (∀ c ∈ pathWord path, P c) ↔ ∀ c ∈ path, c ∈ pathMarks ∨ P c := by
  induction path with
  | nil => simp [pathWord, copiedChars]
  | cons c path ih =>
    by_cases hc : c ∈ pathMarks
    · rw [pathWord_mark hc, List.forall_mem_append, ih, List.forall_mem_cons]
      refine and_congr_left fun _ => iff_of_true (fun d hd => ?_) (.inl hc)
      split at hd
      · cases hd
      · rw [List.mem_singleton.mp hd]
        exact hP
    · rw [pathWord_plain hc, List.forall_mem_cons, List.forall_mem_cons, forall_mem_copiedChars hP]
      simp [hc]

theorem isName_generateFunctionName {method : Str} (hmethod : isSupportedMethod method = true) (path : Str) :
    Cpp.IsName (generateFunctionName method path) ↔
      ∀ c ∈ path, c ∈ pathMarks ∨ Cpp.identifierChar c = true := by
  have hmethods : ∀ m ∈ supportedMethods, m ≠ [] ∧ m.head?.any Char.isDigit = false ∧
      (m ++ "__".toList).all Cpp.identifierChar = true := by decide
  obtain ⟨hne, hdigit, hplain⟩ := hmethods method (by simpa [isSupportedMethod] using hmethod)
  have hhead : ∀ c ∈ method.head?, c.isDigit = false := (Option.any_eq_false _ _).mp hdigit
  have hchars := List.all_eq_true.mp hplain
  -- no keyword holds two underscores in a row
  have hkeyword : method ++ "__".toList ++ pathWord path ∉ Cpp.keywords := by
    have hfree : ∀ w ∈ Cpp.keywords, ¬ "__".toList <:+: w := by decide
    exact fun h => hfree _ h ⟨method, pathWord path, rfl⟩
  rw [generateFunctionName_eq, Cpp.IsName, Cpp.isIdentifier_iff, List.forall_mem_append,
    forall_mem_pathWord (by decide)]
  have hfirst : ∀ c ∈ (method ++ "__".toList ++ pathWord path).head?, c.isDigit = false := by
    rw [List.append_assoc, List.head?_append_of_ne_nil _ hne]
    exact hhead
  constructor
  · exact fun h => h.1.2.2.2
  · exact fun h => ⟨⟨by simp [hne], hfirst, hchars, h⟩, hkeyword⟩

/-- **Which texts become names.**  Each of the four functions has its condition on the characters of the
text, and three of them one on the keywords that they let through. -/
theorem generated_names_are_names {s method path : Str} (hs : s ≠ [])
    (hmethod : isSupportedMethod method = true) :
    (Cpp.IsName (sanitize s) ↔ (∀ c ∈ s, c ∈ sanitizedChars ∨ Cpp.identifierChar c = true) ∧
        ¬ UnlistedKeyword (replaceChars s)) ∧
      (Cpp.IsName (sanitize_enum_identifier s) ↔
        (∀ c ∈ s, c ∈ sanitizedChars ∨ Cpp.identifierChar c = true) ∧
          ¬ UnlistedKeyword (replaceChars s)) ∧
      (Cpp.IsName (sanitizeParamName s) ↔
        (∀ c ∈ s, c ∈ bracketChars ∨ Cpp.identifierChar c = true) ∧
          (∀ c ∈ s.head?, c.isDigit = false) ∧
          s.map (fun c => if c ∈ bracketChars then '_' else c) ∉ Cpp.keywords) ∧
      (Cpp.IsName (generateFunctionName method path) ↔
        ∀ c ∈ path, c ∈ pathMarks ∨ Cpp.identifierChar c = true) :=
  ⟨isName_sanitize hs, sanitize_enum_identifier_eq s ▸ isName_sanitize hs, isName_sanitizeParamName hs,
    isName_generateFunctionName hmethod path⟩

theorem generated_names_are_names_class :
    (Cpp.IsName (sanitize "class".toList) ↔
        (∀ c ∈ "class".toList, c ∈ sanitizedChars ∨ Cpp.identifierChar c = true) ∧
          ¬ UnlistedKeyword (replaceChars "class".toList)) ∧
      (Cpp.IsName (sanitize_enum_identifier "class".toList) ↔
        (∀ c ∈ "class".toList, c ∈ sanitizedChars ∨ Cpp.identifierChar c = true) ∧
          ¬ UnlistedKeyword (replaceChars "class".toList)) ∧
      (Cpp.IsName (sanitizeParamName "class".toList) ↔
        (∀ c ∈ "class".toList, c ∈ bracketChars ∨ Cpp.identifierChar c = true) ∧
          (∀ c ∈ "class".toList.head?, c.isDigit = false) ∧
          "class".toList.map (fun c => if c ∈ bracketChars then '_' else c) ∉ Cpp.keywords) ∧
      (Cpp.IsName (generateFunctionName "get".toList "/pets/{id}".toList) ↔
        ∀ c ∈ "/pets/{id}".toList, c ∈ pathMarks ∨ Cpp.identifierChar c = true) :=
  generated_names_are_names (by decide) (by decide)

/-- A keyword that is not listed, a comma in an enum value, a parameter called `class`, and a dot in a
path. -/
theorem generated_names_not_names :
    ¬ Cpp.IsName (sanitize "using".toList) ∧ ¬ Cpp.IsName (sanitize_enum_identifier "a,b".toList) ∧
      ¬ Cpp.IsName (sanitizeParamName "class".toList) ∧
      ¬ Cpp.IsName (generateFunctionName "get".toList "/openapi.json".toList) := by
  decide

end Siesta
