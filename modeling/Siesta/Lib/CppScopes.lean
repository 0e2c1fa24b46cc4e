import Siesta.Lib.CppLexer

/-!
# The names of a function of C++

A function is read line by line, and of each line only its names: what it declares for the lines behind it,
what it uses, and where the blocks inside of it declare names of their own.  The names resolve when each is
one, is declared once, and is found where it is meant.
-/

namespace Siesta.Lib.Cpp

/-! ### What may be a name -/

/-- What a compiler takes in names besides the letters, digits and `_`, and the macros that stand where a
name is read.  A name is spelled with its characters, and not with `\u`. -/
structure Vocabulary where
  start : Char → Bool
  later : Char → Bool
  macros : Str → Bool
  later_of_start : ∀ c, start c = true → later c = true
  foreign : ∀ c, later c = true → c = '$' ∨ 127 < c.toNat

/-- No other characters, and no macros. -/
def Vocabulary.plain : Vocabulary where
  start _ := false
  later _ := false
  macros _ := false
  later_of_start _ := nofun
  foreign _ := nofun

/-- A character that a name goes on with. -/
def Vocabulary.nameChar (v : Vocabulary) (c : Char) : Bool := identifierChar c || v.later c

/-- A character that a name begins with. -/
def Vocabulary.nameStart (v : Vocabulary) (c : Char) : Bool := c.isAlpha || c == '_' || v.start c

/-- A name for this compiler. -/
structure IsNameIn (v : Vocabulary) (s : Str) : Prop where
  start : ∃ c ∈ s.head?, v.nameStart c = true
  chars : ∀ c ∈ s, v.nameChar c = true
  keyword : s ∉ keywords
  no_macro : v.macros s = false

instance (v : Vocabulary) : DecidablePred (IsNameIn v) := fun s =>
  decidable_of_iff ((s.head?.any fun c => v.nameStart c) = true ∧ (s.all fun c => v.nameChar c) = true ∧
      s ∉ keywords ∧ v.macros s = false)
    ⟨fun h => ⟨by simpa [Option.any_eq_true] using h.1, List.all_eq_true.mp h.2.1, h.2.2.1, h.2.2.2⟩,
      fun h => ⟨by simpa [Option.any_eq_true] using h.start, List.all_eq_true.mpr h.chars, h.keyword, h.no_macro⟩⟩

variable {v : Vocabulary}

theorem isNameIn_of_isName {s : Str} (h : IsName s) (hfree : v.macros s = false) : IsNameIn v s where
  start := by
    obtain ⟨c, hc, hstart⟩ := h.1.1
    refine ⟨c, hc, ?_⟩
    rcases hstart with hstart | rfl
    · simp [Vocabulary.nameStart, hstart]
    · rfl
  chars c hc := by simp [Vocabulary.nameChar, h.1.2 c hc]
  keyword := h.2
  no_macro := hfree

theorem isNameIn_plain {s : Str} : IsNameIn .plain s ↔ IsName s := by
  refine ⟨fun h => ⟨⟨?_, fun c hc => ?_⟩, h.keyword⟩, fun h => isNameIn_of_isName h rfl⟩
  · obtain ⟨c, hc, hstart⟩ := h.start
    exact ⟨c, hc, by simpa [Vocabulary.nameStart, Vocabulary.plain] using hstart⟩
  · simpa [Vocabulary.nameChar, Vocabulary.plain] using h.chars c hc

/-! ### Lines -/

/-- A line of a function, by its names. -/
structure Line where
  /-- The names from outside of the function that it uses. -/
  outer : List Str := []
  /-- The names that its blocks declare. -/
  inner : List Str := []
  /-- The names of the function that it uses, in these blocks if there are any. -/
  own : List Str := []
  /-- The name it declares for the lines behind it. -/
  declares : Option Str := none

/-- The names of a line are found where they are meant, and what it declares is a name that is free. -/
structure Line.ResolvesIn (v : Vocabulary) (seen : List Str) (l : Line) : Prop where
  outer : ∀ n ∈ l.outer, n ∉ seen ∧ n ∉ l.inner
  own : ∀ n ∈ l.own, n ∈ seen ∧ n ∉ l.inner
  declares : ∀ n ∈ l.declares, IsNameIn v n ∧ n ∉ seen

instance (v : Vocabulary) (seen : List Str) (l : Line) : Decidable (l.ResolvesIn v seen) :=
  decidable_of_iff ((∀ n ∈ l.outer, n ∉ seen ∧ n ∉ l.inner) ∧ (∀ n ∈ l.own, n ∈ seen ∧ n ∉ l.inner) ∧
      ∀ n ∈ l.declares, IsNameIn v n ∧ n ∉ seen)
    ⟨fun h => ⟨h.1, h.2.1, h.2.2⟩, fun h => ⟨h.outer, h.own, h.declares⟩⟩

/-- The names of the lines resolve, where some are declared already. -/
def Resolves (v : Vocabulary) : List Str → List Line → Prop
  | _, [] => True
  | seen, l :: lines => l.ResolvesIn v seen ∧ Resolves v (l.declares.toList ++ seen) lines

instance Resolves.decidable (v : Vocabulary) : ∀ seen lines, Decidable (Resolves v seen lines)
  | _, [] => .isTrue trivial
  | seen, l :: lines =>
    have := Resolves.decidable v (l.declares.toList ++ seen) lines
    inferInstanceAs (Decidable (_ ∧ _))

/-- The names that the lines declare. -/
def declared (lines : List Line) : List Str := lines.filterMap (·.declares)

@[simp] theorem declared_append (lines lines' : List Line) :
    declared (lines ++ lines') = declared lines ++ declared lines' := List.filterMap_append

@[simp] theorem resolves_nil (seen : List Str) : Resolves v seen [] := trivial

theorem resolves_append {seen : List Str} {lines lines' : List Line} :
    Resolves v seen (lines ++ lines') ↔
      Resolves v seen lines ∧ Resolves v ((declared lines).reverse ++ seen) lines' := by
  induction lines generalizing seen with
  | nil => simp [Resolves, declared]
  | cons l lines ih =>
    rw [List.cons_append, Resolves, Resolves, ih, and_assoc]
    cases hl : l.declares <;> simp [declared, hl]

theorem declared_map_eq_nil {α : Type} {f : α → Line} (h : ∀ a, (f a).declares = none) (l : List α) :
    declared (l.map f) = [] := by
  rw [declared, List.filterMap_map]
  exact List.filterMap_eq_nil_iff.mpr fun a _ => h a

/-- Lines that declare nothing resolve one by one. -/
theorem resolves_of_declared_nil {seen : List Str} {lines : List Line} (h : declared lines = []) :
    Resolves v seen lines ↔ ∀ l ∈ lines, l.ResolvesIn v seen := by
  induction lines with
  | nil => simp
  | cons l lines ih =>
    cases hl : l.declares with
    | some n => simp [declared, hl] at h
    | none =>
      have hlines : declared lines = [] := by simpa [declared, hl] using h
      rw [Resolves, hl, List.forall_mem_cons]
      exact and_congr_right' (ih hlines)

end Siesta.Lib.Cpp
