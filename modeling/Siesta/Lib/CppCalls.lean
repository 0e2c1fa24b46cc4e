import Siesta.Lib.Text

/-!
# Brackets, arguments and statements of C++ source text

A text is scanned to tokens, a string literal to one token, and the tokens are read from the left with
the brackets that are open.  The reader stops at a bracket that closes another one, at a comma with
nothing in front of it and at a comma with nothing behind it.  What it has seen outside of all brackets
is the outline of the text: the outline of `f(a, b).g(c);` is `f().g();`.
-/

namespace Siesta.Lib.Cpp

/-! ### Tokens -/

def isBlank (c : Char) : Bool := c ∈ [' ', '\t', '\n', '\r', '\x0b', '\x0c']

/-- What a text is made of, besides blanks. -/
inductive Token where
  | char (c : Char)
  | literal
  /-- A word whose spelling does not matter. -/
  | name (s : Str)
  deriving DecidableEq

/-- The characters of a text without literals. -/
def charTokens (s : Str) : List Token := (s.filter (!isBlank ·)).map .char

/-- Where a character stands. -/
inductive Mode where
  | code
  | literal
  /-- Behind a backslash in a literal. -/
  | escape

/-- The tokens of a text.  A literal ends at the first quote that is not escaped, and in its own line;
comments, character literals and lines that are joined are not read. -/
def scan : Mode → Str → Option (List Token)
  | .code, [] => some []
  | .literal, [] | .escape, [] => none
  | .code, c :: s =>
    if c = '"' then scan .literal s
    else if c ∈ ['/', '\\', '\''] then none
    else (scan .code s).map (charTokens [c] ++ ·)
  | .literal, c :: s =>
    if c = '"' then (scan .code s).map (.literal :: ·)
    else if c = '\\' then scan .escape s
    else if c ∈ ['\n', '\r'] then none
    else scan .literal s
  | .escape, c :: s => if c ∈ ['\n', '\r'] then none else scan .literal s

/-- A text without quotes and the characters that are not read. -/
def Bare (s : Str) : Prop := ∀ c ∈ s, c ∉ ['"', '/', '\\', '\'']

instance (s : Str) : Decidable (Bare s) := inferInstanceAs (Decidable (∀ c ∈ s, _))

theorem scan_bare {s : Str} (h : Bare s) (rest : Str) :
    scan .code (s ++ rest) = (scan .code rest).map (charTokens s ++ ·) := by
  induction s with
  | nil => simp [charTokens]
  | cons c s ih =>
    have hc : c ∉ ['"', '/', '\\', '\''] := h c (List.mem_cons_self ..)
    simp only [List.mem_cons, not_or] at hc
    rw [List.cons_append, scan, if_neg hc.1, if_neg (by simp [hc.2]),
      ih fun d hd => h d (List.mem_cons_of_mem _ hd), Option.map_map]
    congr 1
    funext toks
    show charTokens [c] ++ (charTokens s ++ toks) = charTokens ([c] ++ s) ++ toks
    unfold charTokens
    rw [List.filter_append, List.map_append, List.append_assoc]

/-- Whatever follows, the text stands in a literal up to the quote behind it. -/
def Fills (s : Str) : Prop := ∀ rest, scan .literal (s ++ '"' :: rest) = (scan .code rest).map (.literal :: ·)

/-- Whatever follows, the literal that the text begins does not end. -/
def Breaks (s : Str) : Prop := ∀ rest, scan .literal (s ++ rest) = none

theorem fills_nil : Fills [] := fun rest => by
  rw [List.nil_append, scan, if_pos rfl]

/-- A character that is neither a quote nor a backslash nor a line end stands for itself. -/
theorem scan_literal_cons {c : Char} (hc : c ∉ ['"', '\\', '\n', '\r']) (s : Str) :
    scan .literal (c :: s) = scan .literal s := by
  simp only [List.mem_cons, not_or] at hc
  rw [scan, if_neg hc.1, if_neg hc.2.1, if_neg (by simp [hc.2.2])]

theorem scan_escape {c : Char} (hc : c ∉ ['\n', '\r']) (s : Str) :
    scan .literal ('\\' :: c :: s) = scan .literal s := by
  rw [scan, if_neg (by decide), if_pos rfl, scan, if_neg hc]

theorem scan_lineEnd {c : Char} (hc : c ∈ ['\n', '\r']) (s : Str) : scan .literal (c :: s) = none := by
  have hplain : ∀ d ∈ ['\n', '\r'], d ≠ '"' ∧ d ≠ '\\' := by decide
  rw [scan, if_neg (hplain c hc).1, if_neg (hplain c hc).2, if_pos hc]

/-- A text with nothing to escape. -/
theorem fills_of_plain {s : Str} (h : ∀ c ∈ s, c ∉ ['"', '\\', '\n', '\r']) : Fills s := by
  induction s with
  | nil => exact fills_nil
  | cons c s ih =>
    intro rest
    rw [List.cons_append, scan_literal_cons (h c (List.mem_cons_self ..))]
    exact ih (fun d hd => h d (List.mem_cons_of_mem _ hd)) rest

/-! ### Reading -/

/-- What stands in front of the next token. -/
inductive Last where
  | opened | comma | operand
  deriving DecidableEq

structure Reading where
  /-- The brackets that are open, the innermost first. -/
  pending : List Char := []
  last : Last := .opened
  outline : Str := []
  deriving DecidableEq

namespace Reading

/-- Text outside of all brackets goes to the outline. -/
def shown (pending : List Char) (outline s : Str) : Str := if pending = [] then outline ++ s else outline

/-- Something that is no bracket and no comma. -/
def operand (r : Reading) (s : Str) : Reading :=
  { r with last := .operand, outline := shown r.pending r.outline s }

/-- The bracket that a closing one closes. -/
def opening (c : Char) : Char := if c = ')' then '(' else '{'

def stepChar (r : Reading) (c : Char) : Option Reading :=
  if c = '(' ∨ c = '{' then
    some ⟨c :: r.pending, .opened, shown r.pending r.outline [c]⟩
  else if c = ')' ∨ c = '}' then
    match r.pending with
    | [] => none
    | b :: pending =>
      if b = opening c ∧ r.last ≠ .comma then some ⟨pending, .operand, shown pending r.outline [c]⟩ else none
  else if c = ',' then
    if r.last = .operand then some { r with last := .comma, outline := shown r.pending r.outline [c] } else none
  else some (r.operand [c])

def step (r : Reading) : Token → Option Reading
  | .char c => r.stepChar c
  | .literal => some (r.operand ['"'])
  | .name s => some (r.operand (s.filter (!isBlank ·)))

def read (r : Reading) (tokens : List Token) : Option Reading := tokens.foldlM step r

@[simp] theorem read_nil (r : Reading) : r.read [] = some r := rfl

theorem read_cons (r : Reading) (token : Token) (tokens : List Token) :
    r.read (token :: tokens) = (r.step token).bind (·.read tokens) := rfl

theorem read_append (r : Reading) (s t : List Token) : r.read (s ++ t) = (r.read s).bind (·.read t) :=
  List.foldlM_append ..

/-- The same reading inside of the brackets `base`, where nothing goes to the outline. -/
def under (base : List Char) (outline : Str) (r : Reading) : Reading :=
  ⟨r.pending ++ base, r.last, outline⟩

theorem shown_under {base : List Char} (hbase : base ≠ []) (pending : List Char) (outline s : Str) :
    shown (pending ++ base) outline s = outline :=
  if_neg fun h => hbase (List.append_eq_nil_iff.mp h).2

theorem step_under {base : List Char} (hbase : base ≠ []) (outline : Str) {r r' : Reading} {token : Token}
    (h : r.step token = some r') : (r.under base outline).step token = some (r'.under base outline) := by
  have hoperand : ∀ s, (r.under base outline).operand s = (r.operand s).under base outline := fun s => by
    simp only [operand, under, shown_under hbase]
  cases token with
  | literal =>
    obtain rfl := Option.some.inj h
    exact congrArg some (hoperand _)
  | name s =>
    obtain rfl := Option.some.inj h
    exact congrArg some (hoperand _)
  | char c =>
    change r.stepChar c = some r' at h
    show (r.under base outline).stepChar c = some (r'.under base outline)
    unfold stepChar at h ⊢
    split at h
    · obtain rfl := Option.some.inj h
      rw [if_pos ‹_›]
      simp only [under, shown_under hbase, List.cons_append]
    · rw [if_neg ‹_›]
      split at h
      · rw [if_pos ‹_›]
        split at h
        · cases h
        · rename_i b pending hpending
          split at h
          · rename_i hcloses
            obtain rfl := Option.some.inj h
            simp only [under, hpending, List.cons_append, shown_under hbase]
            rw [if_pos hcloses]
          · cases h
      · rw [if_neg ‹_›]
        split at h
        · rw [if_pos ‹_›]
          split at h
          · rename_i hlast
            obtain rfl := Option.some.inj h
            simp only [under, shown_under hbase]
            rw [if_pos hlast]
          · cases h
        · obtain rfl := Option.some.inj h
          rw [if_neg ‹_›]
          exact congrArg some (hoperand _)

/-- What is read on its own is read the same way inside of brackets. -/
theorem read_under {base : List Char} (hbase : base ≠ []) (outline : Str) {r r' : Reading}
    {tokens : List Token} (h : r.read tokens = some r') :
    (r.under base outline).read tokens = some (r'.under base outline) := by
  induction tokens generalizing r with
  | nil =>
    obtain rfl := Option.some.inj h
    rfl
  | cons token tokens ih =>
    obtain ⟨r₁, hstep, hrest⟩ := Option.bind_eq_some_iff.mp h
    rw [read_cons, step_under hbase outline hstep]
    exact ih hrest

/-- The same reading behind the outline `o`. -/
def behind (o : Str) (r : Reading) : Reading := { r with outline := o ++ r.outline }

theorem shown_behind (pending : List Char) (o outline s : Str) :
    shown pending (o ++ outline) s = o ++ shown pending outline s := by
  unfold shown
  split
  · exact List.append_assoc ..
  · rfl

theorem step_behind (o : Str) (r : Reading) (token : Token) :
    (r.behind o).step token = (r.step token).map (behind o) := by
  have hoperand : ∀ s, (r.behind o).operand s = (r.operand s).behind o := fun s => by
    simp only [operand, behind, shown_behind]
  cases token with
  | literal => exact congrArg some (hoperand _)
  | name s => exact congrArg some (hoperand _)
  | char c =>
    show (r.behind o).stepChar c = (r.stepChar c).map (behind o)
    unfold stepChar
    split
    · simp only [behind, shown_behind, Option.map_some]
    split
    · obtain ⟨pending, last, outline⟩ := r
      cases pending with
      | nil => rfl
      | cons b pending =>
        show (if b = opening c ∧ last ≠ .comma then some (Reading.mk pending .operand (shown pending (o ++ outline) [c]))
            else none) =
          (if b = opening c ∧ last ≠ .comma then some (Reading.mk pending .operand (shown pending outline [c]))
            else none).map (behind o)
        rw [shown_behind]
        split <;> rfl
    split
    · simp only [behind, shown_behind]
      split <;> rfl
    · exact congrArg some (hoperand _)

theorem read_behind (o : Str) (r : Reading) (tokens : List Token) :
    (r.behind o).read tokens = (r.read tokens).map (behind o) := by
  induction tokens generalizing r with
  | nil => rfl
  | cons token tokens ih =>
    rw [read_cons, read_cons, step_behind]
    cases r.step token with
    | none => rfl
    | some r' => exact ih r'

theorem operand_operand (r : Reading) (s t : Str) : (r.operand s).operand t = r.operand (s ++ t) := by
  unfold operand shown
  split <;> simp

/-- A character that is no bracket and no comma. -/
def Neutral (c : Char) : Prop := c ∉ ['(', ')', '{', '}', ',']

theorem stepChar_neutral {c : Char} (hc : Neutral c) (r : Reading) : r.stepChar c = some (r.operand [c]) := by
  simp only [Neutral, List.mem_cons, not_or] at hc
  unfold stepChar
  rw [if_neg (by simp [hc]), if_neg (by simp [hc]), if_neg (by simp [hc])]

/-- A word is read as a name. -/
theorem read_word {s : Str} (hs : ∀ c ∈ s, Neutral c) (hne : s.filter (!isBlank ·) ≠ []) (r : Reading) :
    r.read (charTokens s) = r.step (.name s) := by
  show r.read ((s.filter (!isBlank ·)).map .char) = some (r.operand (s.filter (!isBlank ·)))
  have hword : ∀ c ∈ s.filter (!isBlank ·), Neutral c := fun c hc => hs c (List.mem_of_mem_filter hc)
  generalize s.filter (!isBlank ·) = word at hne hword
  induction word generalizing r with
  | nil => exact absurd rfl hne
  | cons c word ih =>
    have hc : r.stepChar c = some (r.operand [c]) := stepChar_neutral (hword c (List.mem_cons_self ..)) r
    rw [List.map_cons, read_cons]
    show (r.stepChar c).bind _ = _
    rw [hc, Option.bind_some]
    cases word with
    | nil => rfl
    | cons d word =>
      rw [ih _ (List.cons_ne_nil d word) (fun e he => hword e (List.mem_cons_of_mem _ he)), operand_operand]
      rfl

end Reading

/-! ### Pieces of output -/

/-- What a generator writes at a time. -/
inductive Piece where
  /-- Its own text, outside of literals. -/
  | code (s : Str)
  /-- A name or a type. -/
  | name (s : Str)
  /-- A name between quotes. -/
  | quotedName (s : Str)
  /-- A text between quotes. -/
  | quoted (s : Str)

namespace Piece

def text : Piece → Str
  | .code s | .name s => s
  | .quotedName s | .quoted s => '"' :: s ++ ['"']

/-- The piece is read: a name as one token, and a text between quotes as the literal that it is. -/
def read (r : Reading) : Piece → Option Reading
  | .code s => r.read (charTokens s)
  | .name s => r.step (.name s)
  | .quotedName _ => r.step .literal
  | .quoted s => if (scan .literal (s ++ ['"'])).isSome then r.step .literal else none

/-- The spelling of the piece does not end it early or late. -/
def Plain : Piece → Prop
  | .code s => Bare s
  | .name s => Bare s ∧ (∀ c ∈ s, Reading.Neutral c) ∧ s.filter (!isBlank ·) ≠ []
  | .quotedName s => Fills s
  | .quoted s => Fills s ∨ Breaks s

theorem read_quoted_of_fills {s : Str} (h : Fills s) (r : Reading) : (quoted s).read r = r.step .literal :=
  if_pos (by rw [h []]; rfl)

theorem read_quoted_of_breaks {s : Str} (h : Breaks s) (r : Reading) : (quoted s).read r = none :=
  if_neg (by rw [h]; simp)

end Piece

def textOf (pieces : List Piece) : Str := pieces.flatMap Piece.text

def readPieces (r : Reading) (pieces : List Piece) : Option Reading := pieces.foldlM Piece.read r

/-- The text is scanned, and its tokens are read. -/
def readText (r : Reading) (s : Str) : Option Reading := (scan .code s).bind r.read

theorem readPieces_nil (r : Reading) : readPieces r [] = some r := rfl

theorem readPieces_cons (r : Reading) (p : Piece) (pieces : List Piece) :
    readPieces r (p :: pieces) = (p.read r).bind (readPieces · pieces) := rfl

theorem readPieces_append (r : Reading) (s t : List Piece) :
    readPieces r (s ++ t) = (readPieces r s).bind (readPieces · t) :=
  List.foldlM_append ..

theorem Piece.read_under {base : List Char} (hbase : base ≠ []) (outline : Str) {r r' : Reading} {p : Piece}
    (h : p.read r = some r') : p.read (r.under base outline) = some (r'.under base outline) := by
  cases p with
  | code s => exact Reading.read_under hbase outline h
  | name s => exact Reading.step_under hbase outline (show r.step (.name s) = some r' from h)
  | quotedName s => exact Reading.step_under hbase outline (show r.step .literal = some r' from h)
  | quoted s =>
    change (if (scan .literal (s ++ ['"'])).isSome then r.step .literal else none) = some r' at h
    show (if (scan .literal (s ++ ['"'])).isSome then (r.under base outline).step .literal else none) = _
    split at h
    · rw [if_pos ‹_›]
      exact Reading.step_under hbase outline h
    · cases h

/-- Pieces that are read on their own are read the same way inside of brackets. -/
theorem readPieces_under {base : List Char} (hbase : base ≠ []) (outline : Str) {r r' : Reading}
    {pieces : List Piece} (h : readPieces r pieces = some r') :
    readPieces (r.under base outline) pieces = some (r'.under base outline) := by
  induction pieces generalizing r with
  | nil =>
    obtain rfl := Option.some.inj h
    rfl
  | cons p pieces ih =>
    obtain ⟨r₁, hp, hrest⟩ := Option.bind_eq_some_iff.mp h
    rw [readPieces_cons, Piece.read_under hbase outline hp]
    exact ih hrest

/-- What has been read before stays in front of the outline. -/
theorem readPieces_behind (o : Str) (r : Reading) (pieces : List Piece) :
    readPieces (r.behind o) pieces = (readPieces r pieces).map (Reading.behind o) := by
  induction pieces generalizing r with
  | nil => rfl
  | cons p pieces ih =>
    have hp : p.read (r.behind o) = (p.read r).map (Reading.behind o) := by
      cases p with
      | code s => exact Reading.read_behind o r _
      | name s => exact Reading.step_behind o r (.name s)
      | quotedName s => exact Reading.step_behind o r .literal
      | quoted s =>
        show (if _ then (r.behind o).step .literal else none) = (if _ then r.step .literal else none).map _
        split
        · exact Reading.step_behind o r _
        · rfl
    rw [readPieces_cons, readPieces_cons, hp]
    cases p.read r with
    | none => rfl
    | some r' => exact ih r'

/-- Inside of any bracket, the pieces take the reader from one state to another.  The states are given by
the innermost brackets and by what has been read last. -/
def Takes (pieces : List Piece) (pending : List Char) (last : Last) (pending' : List Char) (last' : Last) : Prop :=
  ∀ base outline, base ≠ [] →
    readPieces ⟨pending ++ base, last, outline⟩ pieces = some ⟨pending' ++ base, last', outline⟩

namespace Takes

variable {pieces more : List Piece} {p p' p'' : List Char} {l l' l'' : Last}

theorem of_read (h : (readPieces ⟨p, l, []⟩ pieces).map (fun r => (r.pending, r.last)) = some (p', l')) :
    Takes pieces p l p' l' := by
  obtain ⟨⟨pending, last, outline⟩, hread, hr⟩ := Option.map_eq_some_iff.mp h
  obtain ⟨rfl, rfl⟩ := Prod.mk.inj hr
  exact fun base outline hbase => readPieces_under hbase outline hread

theorem nil : Takes [] p l p l := fun _ _ _ => rfl

theorem append (h : Takes pieces p l p' l') (h' : Takes more p' l' p'' l'') :
    Takes (pieces ++ more) p l p'' l'' := by
  intro base outline hbase
  rw [readPieces_append, h base outline hbase, Option.bind_some]
  exact h' base outline hbase

/-- Pieces that are written under a condition and leave everything as it was. -/
theorem optional {c : Prop} [Decidable c] (h : c → Takes pieces p l p l) :
    Takes (if c then pieces else []) p l p l := by
  split
  · exact h ‹_›
  · exact nil

/-- More brackets may be open. -/
theorem within (h : Takes pieces p l p' l') (q : List Char) : Takes pieces (p ++ q) l (p' ++ q) l' := by
  intro base outline hbase
  rw [List.append_assoc, List.append_assoc]
  exact h (q ++ base) outline (by simp [hbase])

theorem name (s : Str) : Takes [.name s] [] l [] .operand := by
  rintro (_ | ⟨b, base⟩) outline hbase
  · exact absurd rfl hbase
  · rfl

theorem quotedName (s : Str) : Takes [.quotedName s] [] l [] .operand := by
  rintro (_ | ⟨b, base⟩) outline hbase
  · exact absurd rfl hbase
  · rfl

theorem quoted {s : Str} (h : Fills s) : Takes [.quoted s] [] l [] .operand := by
  rintro (_ | ⟨b, base⟩) outline hbase
  · exact absurd rfl hbase
  · rw [readPieces_cons, Piece.read_quoted_of_fills h]
    rfl

end Takes

/-- A literal in the text is one token. -/
theorem readText_literal {s : Str} (h : Fills s) (r : Reading) (rest : Str) :
    readText r ('"' :: s ++ ['"'] ++ rest) = (r.step .literal).bind (readText · rest) := by
  have hscan : scan .code ('"' :: s ++ ['"'] ++ rest) = (scan .code rest).map (.literal :: ·) := by
    rw [List.append_assoc, List.cons_append, List.singleton_append, scan, if_pos rfl]
    exact h rest
  unfold readText
  rw [hscan, Option.bind_map]
  rfl

theorem readText_piece {p : Piece} (hp : p.Plain) (r : Reading) (rest : Str) :
    readText r (p.text ++ rest) = (p.read r).bind (readText · rest) := by
  have hbare : ∀ {s : Str}, Bare s → readText r (s ++ rest) = (r.read (charTokens s)).bind (readText · rest) := by
    intro s hs
    unfold readText
    rw [scan_bare hs, Option.bind_map]
    cases scan .code rest with
    | none => simp
    | some tokens => exact Reading.read_append r _ _
  cases p with
  | code s => exact hbare hp
  | name s =>
    obtain ⟨hs, hneutral, hne⟩ := hp
    show readText r (s ++ rest) = (r.step (.name s)).bind (readText · rest)
    rw [← Reading.read_word hneutral hne]
    exact hbare hs
  | quotedName s => exact readText_literal hp r rest
  | quoted s =>
    rcases hp with hfills | hbreaks
    · rw [Piece.read_quoted_of_fills hfills]
      exact readText_literal hfills r rest
    · rw [Piece.read_quoted_of_breaks hbreaks]
      have hscan : scan .code ('"' :: s ++ ['"'] ++ rest) = none := by
        rw [List.append_assoc, List.cons_append, scan, if_pos rfl]
        exact hbreaks _
      show readText r ('"' :: s ++ ['"'] ++ rest) = none
      unfold readText
      rw [hscan]
      rfl

/-- A text is read as the pieces that it was written of. -/
theorem readText_textOf {pieces : List Piece} (h : ∀ p ∈ pieces, p.Plain) (r : Reading) :
    readText r (textOf pieces) = readPieces r pieces := by
  induction pieces generalizing r with
  | nil =>
    unfold readText
    rw [textOf, List.flatMap_nil, scan]
    rfl
  | cons p pieces ih =>
    rw [textOf, List.flatMap_cons, readText_piece (h p (List.mem_cons_self ..)), readPieces_cons]
    congr 1
    funext r'
    exact ih (fun q hq => h q (List.mem_cons_of_mem _ hq)) r'

/-! ### Pieces whose spelling is plain -/

/-- A word that can stand in code and between quotes. -/
def IsWord (s : Str) : Prop :=
  (∀ c ∈ s, c ∉ ['"', '/', '\\', '\'', '(', ')', '{', '}', ',', '\n', '\r']) ∧
    s.filter (!isBlank ·) ≠ []

theorem IsWord.plain_name {s : Str} (h : IsWord s) : (Piece.name s).Plain := by
  refine ⟨fun c hc => ?_, fun c hc => ?_, h.2⟩
  · have := h.1 c hc
    simp only [List.mem_cons, not_or] at this ⊢
    tauto
  · have := h.1 c hc
    simp only [Reading.Neutral, List.mem_cons, not_or] at this ⊢
    tauto

theorem IsWord.plain_quotedName {s : Str} (h : IsWord s) : (Piece.quotedName s).Plain := by
  refine fills_of_plain fun c hc => ?_
  have := h.1 c hc
  simp only [List.mem_cons, not_or] at this ⊢
  tauto

def PlainPieces (pieces : List Piece) : Prop := ∀ p ∈ pieces, p.Plain

theorem PlainPieces.append {s t : List Piece} (hs : PlainPieces s) (ht : PlainPieces t) : PlainPieces (s ++ t) :=
  List.forall_mem_append.mpr ⟨hs, ht⟩

theorem PlainPieces.cons {p : Piece} {s : List Piece} (hp : p.Plain) (hs : PlainPieces s) : PlainPieces (p :: s) :=
  List.forall_mem_cons.mpr ⟨hp, hs⟩

theorem PlainPieces.nil : PlainPieces [] := fun _ h => absurd h List.not_mem_nil

theorem PlainPieces.ite {c : Prop} [Decidable c] {s t : List Piece} (hs : c → PlainPieces s)
    (ht : ¬ c → PlainPieces t) : PlainPieces (if c then s else t) := by
  split
  · exact hs ‹_›
  · exact ht ‹_›

theorem PlainPieces.flatMap {α : Type} {l : List α} {f : α → List Piece} (h : ∀ a ∈ l, PlainPieces (f a)) :
    PlainPieces (l.flatMap f) := by
  intro p hp
  obtain ⟨a, ha, hp⟩ := List.mem_flatMap.mp hp
  exact h a ha p hp

/-- A piece with nothing in it that would have to be escaped. -/
def Piece.fixed : Piece → Bool
  | .code s => decide (Bare s)
  | .name _ => false
  | .quotedName s | .quoted s => s.all fun c => c ∉ ['"', '\\', '\n', '\r']

theorem plainPieces_of_fixed {pieces : List Piece} (h : pieces.all Piece.fixed = true) : PlainPieces pieces := by
  intro p hp
  have hfixed : p.fixed = true := List.all_eq_true.mp h p hp
  have hfills : ∀ s : Str, (s.all fun c => c ∉ ['"', '\\', '\n', '\r']) = true → Fills s := fun s hs =>
    fills_of_plain fun c hc => decide_eq_true_iff.mp (List.all_eq_true.mp hs c hc)
  cases p with
  | code s => exact of_decide_eq_true (p := Bare s) hfixed
  | name s => cases hfixed
  | quotedName s => exact hfills s hfixed
  | quoted s => exact .inl (hfills s hfixed)

end Siesta.Lib.Cpp
