import Siesta.Lib.CppLexer
import Siesta.Support.Utils

/-!
# The literals of the generated code: `escapeCppString` of `generator/src/Support/Utils.cpp`

Names, paths and values of the document stand between quotes in the generated code, and the compiler
reads back what the document says (`escapeCppString_literal`).
-/

namespace Siesta

open Lib

/-- The escapes that `escapeCppString` writes are those of the language. -/
theorem escapeCppChar_cases (c : Char) :
    (∃ e, escapeCppChar c = ['\\', e] ∧ Cpp.simpleEscape e = some c) ∨
      (escapeCppChar c = [c] ∧ c ≠ '\\' ∧ c ≠ '"' ∧ c ≠ '\n' ∧ c ≠ '\r') := by
  unfold escapeCppChar
  split
  · exact .inl ⟨_, rfl, rfl⟩
  · exact .inl ⟨_, rfl, rfl⟩
  · exact .inl ⟨_, rfl, rfl⟩
  · exact .inl ⟨_, rfl, rfl⟩
  · exact .inl ⟨_, rfl, rfl⟩
  · rename_i hslash hquote hn hr _
    exact .inr ⟨rfl, hslash, hquote, hn, hr⟩

theorem escapeCppString_cons (c : Char) (s : Str) :
    escapeCppString (c :: s) = escapeCppChar c ++ escapeCppString s := rfl

theorem lineEnd_notMem_escapeCppString (s : Str) : '\n' ∉ escapeCppString s ∧ '\r' ∉ escapeCppString s := by
  induction s with
  | nil => simp [escapeCppString]
  | cons c s ih =>
    rw [escapeCppString_cons]
    rcases escapeCppChar_cases c with ⟨e, he, hread⟩ | ⟨he, -, -, hn, hr⟩
    · have hn : e ≠ '\n' := by rintro rfl; cases hread
      have hr : e ≠ '\r' := by rintro rfl; cases hread
      simp [he, ih, hn.symm, hr.symm]
    · simp [he, ih, hn.symm, hr.symm]

theorem literalBody_escapeCppString (s rest : Str) :
    Cpp.literalBody (escapeCppString s ++ '"' :: rest) = some (s, rest) := by
  induction s with
  | nil => exact Cpp.literalBody_quote rest
  | cons c s ih =>
    rw [escapeCppString_cons]
    rcases escapeCppChar_cases c with ⟨e, he, hread⟩ | ⟨he, hslash, hquote, hn, hr⟩
    · have hline : Cpp.afterSplice (escapeCppString s ++ '"' :: rest) = none := by
        have hplain := lineEnd_notMem_escapeCppString s
        rw [List.append_cons]
        exact Cpp.afterSplice_append_none (by simp [hplain]) ⟨'"', by simp, by decide⟩ rest
      have hstep := Cpp.literalBody_escape hread (s := escapeCppString s ++ '"' :: rest) fun _ => hline
      rw [he]
      exact hstep.trans (by rw [ih]; rfl)
    · have hstep := Cpp.literalBody_cons hslash hquote hn hr (escapeCppString s ++ '"' :: rest)
      rw [he]
      exact hstep.trans (by rw [ih]; rfl)

theorem readLiteral_quoted (s rest : Str) :
    Cpp.readLiteral ('"' :: escapeCppString s ++ '"' :: rest) = some (s, rest) := by
  have hopen : Cpp.next ('"' :: (escapeCppString s ++ '"' :: rest)) =
      some ('"', escapeCppString s ++ '"' :: rest) := Cpp.next_cons (by decide) (by decide) (by decide) _
  rw [List.cons_append, Cpp.readLiteral, hopen]
  exact literalBody_escapeCppString s rest

/-- **A literal is read back.**  The text between two quotes that `escapeCppString` writes has no end of
line; whatever follows, the compiler reads a literal that ends at the second quote and has the value
of the text. -/
theorem escapeCppString_literal (s rest : Str) :
    '\n' ∉ escapeCppString s ∧ '\r' ∉ escapeCppString s ∧
      Cpp.readLiteral ('"' :: escapeCppString s ++ '"' :: rest) = some (s, rest) :=
  ⟨(lineEnd_notMem_escapeCppString s).1, (lineEnd_notMem_escapeCppString s).2, readLiteral_quoted s rest⟩

end Siesta
