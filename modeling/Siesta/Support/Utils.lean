import Siesta.Lib.Table
import Siesta.Lib.Text

/-!
# Names and literals: `generator/src/Support/Utils.cpp`, `Utils.hpp`

`sanitize` turns a name of the document into a word of the generated C++, `isSyntheticCppType`
tells the types of the C++ library from the types of the document, and `escapeCppString` writes a
text between the quotes of a string literal.
-/

namespace Siesta

open Lib

/-- The loops of the generator that walk an `unordered_map`. -/
inductive HashLoop where
  | validate
  | buildFromAST | detectCycles | reverseAdjacency | initInDegree | countInDegree | readyNodes
  | allTypes | missingTypes
  | seenAlternatives
  | pathParams | securitySchemes
  deriving DecidableEq

abbrev HashOrders : Type 1 := HashOrder HashLoop

/-- `std::isspace`. -/
def isSpace (c : Char) : Bool := c ∈ [' ', '\t', '\n', '\x0b', '\x0c', '\r']

/-- The reserved words of `Utils.cpp`, in its order. -/
def RESERVED : List Str :=
  ["operator", "long", "short", "public", "protected", "private", "default", "delete",
    "namespace", "template", "static", "const", "volatile", "virtual", "explicit", "friend",
    "typedef", "typename", "enum", "struct", "class", "union", "if", "else",
    "for", "while", "do", "switch", "case", "break", "continue", "return",
    "goto", "try", "catch", "throw", "new", "delete", "this", "sizeof",
    "alignof", "decltype", "noexcept", "nullptr", "true", "false", "bool", "char",
    "wchar_t", "char16_t", "char32_t", "signed", "unsigned", "int", "float", "double",
    "void", "auto", "register", "extern", "mutable", "inline", "constexpr", "consteval",
    "constinit", "concept", "requires", "co_await", "co_yield", "co_return", "module", "export",
    "import", "unix", "linux", "i386", "x86_64", "amd64", "arm", "aarch64", "__unix", "__linux",
    "__linux__", "__unix__", "unix__"].map String.toList

/-- The characters `sanitize` rewrites. -/
def sanitizedChars : List Char := ['/', '-', '.', ':', '+', ' ', '(', ')', '@']

/-- `std::replace_if` of the sanitized characters by `'_'`. -/
def replaceChars (input : Str) : Str :=
  input.map fun c => if c ∈ sanitizedChars then '_' else c

/-- `input.insert(0, 1, '_')` when the first character is a digit. -/
def guardDigit (input : Str) : Str :=
  match input with
  | [] => []
  | c :: s => if c.isDigit then '_' :: c :: s else c :: s

/-- `sanitize`: a name of the document as a C++ word. -/
def sanitize (input : Str) : Str :=
  if input = [] then []
  else
    let replaced := replaceChars input
    guardDigit (if replaced ∈ RESERVED then replaced ++ ['_'] else replaced)

/-- The built-in types `isSyntheticCppType` lists. -/
def builtinTypes : List Str :=
  ["int", "long", "short", "unsigned", "signed", "char", "wchar_t", "bool", "float", "double",
    "void"].map String.toList

/-- `isSyntheticCppType`: a type of the C++ library or language, not of the document. -/
def isSyntheticCppType (name : Str) : Bool :=
  "std::".toList.isPrefixOf name || builtinTypes.contains name

/-- `escapeCppString`: one character. -/
def escapeCppChar (c : Char) : Str :=
  match c with
  | '\\' => ['\\', '\\']
  | '"' => ['\\', '"']
  | '\n' => ['\\', 'n']
  | '\r' => ['\\', 'r']
  | '\t' => ['\\', 't']
  | c => [c]

/-- `escapeCppString`. -/
def escapeCppString (s : Str) : Str := s.flatMap escapeCppChar

/-- The text that the characters between the quotes of a literal denote, where the only escapes are
those `escapeCppString` writes. -/
def readLiteral : Str → Str
  | '\\' :: 'n' :: s => '\n' :: readLiteral s
  | '\\' :: 'r' :: s => '\r' :: readLiteral s
  | '\\' :: 't' :: s => '\t' :: readLiteral s
  | '\\' :: c :: s => c :: readLiteral s
  | c :: s => c :: readLiteral s
  | [] => []

/-- The literal written for a text denotes that text. -/
theorem readLiteral_escapeCppString (s : Str) : readLiteral (escapeCppString s) = s := by
  induction s with
  | nil => rfl
  | cons c s ih =>
    have hc : escapeCppString (c :: s) = escapeCppChar c ++ escapeCppString s := rfl
    rw [hc]
    unfold escapeCppChar
    split
    all_goals simp only [List.cons_append, List.nil_append]
    · rw [readLiteral, ih] <;> decide
    · rw [readLiteral, ih] <;> decide
    · rw [readLiteral, ih]
    · rw [readLiteral, ih]
    · rw [readLiteral, ih]
    · rename_i hslash _ _ _ _
      have hne : c ≠ '\\' := fun h => hslash h
      rw [readLiteral.eq_def]
      split <;> simp_all

/-! ### The texts of container types -/

def vectorPrefix : Str := "std::vector<".toList
def mapPrefix : Str := "std::map<std::string, ".toList

/-- `std::vector<x>`. -/
def vectorOf (x : Str) : Str := vectorPrefix ++ x ++ ['>']

/-- `std::map<std::string, x>`. -/
def mapOf (x : Str) : Str := mapPrefix ++ x ++ ['>']

/-- `name.substr(12)` without its last character: the element of a `std::vector<...>`. -/
def elementText (name : Str) : Str := (name.drop 12).dropLast

/-- `name.substr(22)` without its last character: the value of a `std::map<std::string, ...>`. -/
def valueText (name : Str) : Str := (name.drop 22).dropLast

/-! ### What `sanitize` returns -/

theorem mem_replaceChars {input : Str} {c : Char} (h : c ∈ replaceChars input) :
    c ∉ sanitizedChars := by
  obtain ⟨d, -, rfl⟩ := List.mem_map.mp h
  by_cases hd : d ∈ sanitizedChars
  · rw [if_pos hd]; decide
  · rw [if_neg hd]; exact hd

theorem mem_guardDigit {s : Str} {c : Char} (h : c ∈ guardDigit s) : c = '_' ∨ c ∈ s := by
  unfold guardDigit at h
  split at h
  · exact .inr h
  · split at h
    · exact List.mem_cons.mp h
    · exact .inr h

theorem guardDigit_of_head {s : Str} (h : ∀ c ∈ s.head?, c.isDigit = false) : guardDigit s = s := by
  cases s with
  | nil => rfl
  | cons c s =>
    rw [guardDigit, h c rfl]
    rfl

theorem isDigit_reserved {w : Str} (h : w ∈ RESERVED) : w ≠ [] ∧ ∀ c ∈ w.head?, c.isDigit = false := by
  have hall : ∀ w ∈ RESERVED, w ≠ [] ∧ w.head?.any Char.isDigit = false := by decide
  obtain ⟨hne, hdigit⟩ := hall w h
  exact ⟨hne, (Option.any_eq_false _ _).mp hdigit⟩

theorem guardDigit_reserved {w : Str} (h : w ∈ RESERVED) : guardDigit (w ++ ['_']) = w ++ ['_'] := by
  obtain ⟨hne, hdigit⟩ := isDigit_reserved h
  refine guardDigit_of_head ?_
  rw [List.head?_append_of_ne_nil _ hne]
  exact hdigit

/-- No character of a sanitized name is one of those `sanitize` rewrites. -/
theorem mem_sanitize {input : Str} {c : Char} (h : c ∈ sanitize input) : c ∉ sanitizedChars := by
  unfold sanitize at h
  split at h
  · simp at h
  · rcases mem_guardDigit h with rfl | h
    · decide
    · split at h
      · rcases List.mem_append.mp h with h | h
        · exact mem_replaceChars h
        · rw [List.mem_singleton.mp h]; decide
      · exact mem_replaceChars h

/-- A name that `sanitize` has nothing to do to: it holds no character that is rewritten, is no
reserved word and does not begin with a digit. -/
def PlainName (input : Str) : Prop :=
  (∀ c ∈ input, c ∉ sanitizedChars) ∧ input ∉ RESERVED ∧ ∀ c, input.head? = some c → c.isDigit = false

theorem replaceChars_eq_self {input : Str} :
    replaceChars input = input ↔ ∀ c ∈ input, c ∉ sanitizedChars := by
  constructor
  · intro h c hc
    exact mem_replaceChars (h.symm ▸ hc)
  · intro h
    have hid : input.map (fun c => if c ∈ sanitizedChars then '_' else c) = input.map id :=
      List.map_congr_left fun c hc => if_neg (h c hc)
    exact hid.trans (List.map_id _)

theorem length_le_guardDigit (s : Str) : s.length ≤ (guardDigit s).length := by
  unfold guardDigit
  split
  · simp
  · split <;> simp

theorem sanitize_eq_self {input : Str} : sanitize input = input ↔ PlainName input := by
  by_cases hne : input = []
  · subst hne
    have hreserved : ([] : Str) ∉ RESERVED := by decide
    exact iff_of_true rfl ⟨by simp, hreserved, by simp⟩
  unfold sanitize
  rw [if_neg hne]
  have hlen : (replaceChars input).length = input.length := List.length_map ..
  by_cases hr : replaceChars input ∈ RESERVED
  · -- a reserved word grows
    simp only [if_pos hr]
    have hlonger := length_le_guardDigit (replaceChars input ++ ['_'])
    have hlt : input.length < (guardDigit (replaceChars input ++ ['_'])).length := by
      rw [List.length_append, hlen, List.length_singleton] at hlonger
      omega
    constructor
    · intro h
      rw [h] at hlt
      omega
    · intro h
      rw [replaceChars_eq_self.mpr h.1] at hr
      exact absurd hr h.2.1
  · simp only [if_neg hr]
    cases hrep : replaceChars input with
    | nil => rw [hrep] at hlen; exact absurd (List.length_eq_zero_iff.mp hlen.symm) hne
    | cons c s =>
      unfold guardDigit
      by_cases hc : c.isDigit = true
      · -- and so does a word that begins with a digit
        simp only [hc, if_true]
        constructor
        · intro h
          rw [hrep, ← h, List.length_cons, List.length_cons] at hlen
          simp at hlen
        · intro h
          rw [replaceChars_eq_self.mpr h.1] at hrep
          have hhead := h.2.2 c (by rw [hrep]; rfl)
          rw [hhead] at hc
          cases hc
      · simp only [hc, if_false, Bool.false_eq_true]
        rw [← hrep, replaceChars_eq_self]
        constructor
        · intro h
          have hsame := replaceChars_eq_self.mpr h
          refine ⟨h, hsame ▸ hr, fun d hd => ?_⟩
          rw [← hsame, hrep] at hd
          obtain rfl := Option.some.inj hd
          simpa using hc
        · exact fun h => h.1

theorem colon_notMem_sanitize (input : Str) : ':' ∉ sanitize input := fun h =>
  mem_sanitize h (by decide)

theorem guardDigit_notMem_builtin {s : Str} (h : s ∉ builtinTypes) :
    guardDigit s ∉ builtinTypes := by
  unfold guardDigit
  split
  · exact h
  · split
    · intro hb
      have : ∀ w ∈ builtinTypes, w.head? ≠ some '_' := by decide
      exact this _ hb rfl
    · exact h

/-- A built-in type of the language is a reserved word, and `sanitize` returns no such word. -/
theorem sanitize_notMem_builtin (input : Str) : sanitize input ∉ builtinTypes := by
  unfold sanitize
  split
  · decide
  · refine guardDigit_notMem_builtin ?_
    split
    · rename_i hr
      have : ∀ w ∈ RESERVED, w ++ ['_'] ∉ builtinTypes := by decide
      exact this _ hr
    · rename_i hr
      have : ∀ w ∈ builtinTypes, w ∈ RESERVED := by decide
      exact fun hb => hr (this _ hb)

/-- A sanitized name is never taken for a type of the C++ library. -/
theorem isSyntheticCppType_sanitize (input : Str) : isSyntheticCppType (sanitize input) = false := by
  unfold isSyntheticCppType
  simp only [Bool.or_eq_false_iff]
  constructor
  · by_contra h
    obtain ⟨t, ht⟩ := List.isPrefixOf_iff_prefix.mp (Bool.not_eq_false _ ▸ h)
    exact colon_notMem_sanitize input (ht ▸ by simp)
  · simpa using sanitize_notMem_builtin input

end Siesta
