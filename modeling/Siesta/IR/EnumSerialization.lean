import Siesta.IR.UniqueNames
import Siesta.Support.Literals

/-!
# Enumerations: `emitEnumFromPrimitive` of `generator/src/IR/DefsGenerator.cpp`

A schema with an `enum` becomes an enumeration class, a function that writes its enumerators as JSON
strings and one that reads them back.  The two are inverse to each other when the values are strings
that become different names.
-/

namespace Siesta

open Lib JsonObject

/-- The generated code of an enumeration: the enumerators of the class, the cases of the `switch` and the
branches of the `if` chain, each with the text of a literal, and the enumerator that is returned when no
branch is taken. -/
structure EnumCode where
  enumerators : List Str
  cases : List (Str × Str)
  branches : List (Str × Str)
  default_enum : Str

def literalText (value : Str) : Str := '"' :: escapeCppString value ++ ['"']

/-- `emitEnumFromPrimitive` and `emitEnumFromPrimitiveSerialization`. -/
def emitEnumFromPrimitive (p : PrimitiveType) : EnumCode where
  enumerators := p.enum_values.map sanitize_enum_identifier
  cases := p.enum_values.map fun enum_val => (sanitize_enum_identifier enum_val, literalText enum_val)
  branches := p.enum_values.map fun enum_val => (literalText enum_val, sanitize_enum_identifier enum_val)
  default_enum :=
    match p.enum_values with
    | [] => "0".toList
    | enum_val :: _ => sanitize_enum_identifier enum_val

namespace EnumCode

/-- The text that a literal is for `boost::json`, which takes it as a `const char*`. -/
def cText (literal : Str) : Str :=
  match Cpp.readLiteral literal with
  | some (value, _) => value.takeWhile (· ≠ '\x00')
  | none => []

/-- The class compiles: its enumerators are different names. -/
def Compiles (voc : Cpp.Vocabulary) (code : EnumCode) : Prop :=
  (∀ e ∈ code.enumerators, Cpp.IsNameIn voc e) ∧ code.enumerators.Nodup

/-- The generated `value_from`. -/
def value_from (code : EnumCode) (val : Str) : Json :=
  match code.cases.find? fun c => c.1 = val with
  | some c => .str (cText c.2)
  | none => .str []

/-- The generated `value_to`; `as_string` throws when the value is no string. -/
def value_to (code : EnumCode) (jv : Json) : Option Str :=
  match jv.get_string with
  | none => none
  | some str =>
    if str = [] then some code.default_enum
    else
      match code.branches.find? fun b => cText b.1 = str with
      | some b => some b.2
      | none => some code.default_enum

end EnumCode

/-- The JSON values that an enumeration of this kind is about. -/
def OfKind : PrimitiveKind → Json → Prop
  | .Integer, v => ∃ i, v = .int i
  | _, v => ∃ s, v = .str s

/-- The generated code takes every enumerator to JSON and back, and every listed value to an enumerator
and back. -/
structure RoundTrips (voc : Cpp.Vocabulary) (p : PrimitiveType) (values : List Json) : Prop where
  compiles : (emitEnumFromPrimitive p).Compiles voc
  enumerators : ∀ e ∈ (emitEnumFromPrimitive p).enumerators,
    (emitEnumFromPrimitive p).value_to ((emitEnumFromPrimitive p).value_from e) = some e
  listed : ∀ v ∈ values, OfKind p.kind v →
    ∃ e, (emitEnumFromPrimitive p).value_to v = some e ∧ (emitEnumFromPrimitive p).value_from e = v

def NamesEnumerator (voc : Cpp.Vocabulary) (v : Str) : Prop := v ≠ [] ∧ SanitizesToName voc v

theorem isNameIn_enumerator (voc : Cpp.Vocabulary) (v : Str) :
    Cpp.IsNameIn voc (sanitize_enum_identifier v) ↔ NamesEnumerator voc v := by
  rw [sanitize_enum_identifier_eq, NamesEnumerator]
  by_cases hv : v = []
  · subst hv
    refine iff_of_false (fun h => ?_) fun h => h.1 rfl
    obtain ⟨c, hc, -⟩ := h.start
    cases hc
  · rw [isNameIn_sanitize hv]
    exact (and_iff_right hv).symm

theorem find?_eq_some_of_unique {l : List Str} {q : Str → Bool} {v : Str} (hv : v ∈ l) (hq : q v = true)
    (hunique : ∀ w ∈ l, q w = true → w = v) : l.find? q = some v := by
  obtain ⟨w, hw⟩ := Option.isSome_iff_exists.mp (List.find?_isSome.mpr ⟨v, hv, hq⟩)
  rw [hw, hunique w (List.mem_of_find?_eq_some hw) (List.find?_some hw)]

theorem enumValues_cases {ir : InvalidRead} {schema : JsonObject} {p : PrimitiveType} {values : List Json}
    (hparse : parsePrimitiveSchema ir schema = .ok (.primitive p)) (hvalues : schema.enum_ ir = .ok values)
    (henum : p.enum_values ≠ []) :
    p.kind = .String ∧ p.enum_values = stringEnumValues values ∨
      p.kind = .Integer ∧ p.enum_values = integerEnumValues values := by
  obtain ⟨type, -, hparse⟩ := bind_eq_ok.mp hparse
  obtain ⟨desc, -, hparse⟩ := bind_eq_ok.mp hparse
  have hnone : ∀ {q : PrimitiveType}, q.enum_values = [] → .primitive p ≠ SchemaType.primitive q := by
    intro q hq h
    exact henum (SchemaType.primitive.inj h ▸ hq)
  cases type with
  | string =>
    obtain ⟨format, -, hparse⟩ := bind_eq_ok.mp hparse
    obtain ⟨_, hlisted, hparse⟩ := bind_eq_ok.mp hparse
    obtain rfl := Except.ok.inj (hlisted.symm.trans hvalues)
    obtain rfl := SchemaType.primitive.inj (pure_eq_ok.mp hparse)
    exact .inl ⟨rfl, rfl⟩
  | integer =>
    obtain ⟨format, -, hparse⟩ := bind_eq_ok.mp hparse
    obtain ⟨_, hlisted, hparse⟩ := bind_eq_ok.mp hparse
    obtain rfl := Except.ok.inj (hlisted.symm.trans hvalues)
    obtain rfl := SchemaType.primitive.inj (pure_eq_ok.mp hparse)
    exact .inr ⟨rfl, rfl⟩
  | number =>
    obtain ⟨format, -, hparse⟩ := bind_eq_ok.mp hparse
    exact absurd (pure_eq_ok.mp hparse).symm (hnone rfl)
  | _ => exact absurd (pure_eq_ok.mp hparse).symm (hnone rfl)

section

variable {voc : Cpp.Vocabulary} {p : PrimitiveType}

theorem compiles_iff : (emitEnumFromPrimitive p).Compiles voc ↔
    (∀ v ∈ p.enum_values, NamesEnumerator voc v) ∧ p.enum_values.Pairwise fun v w => ¬ SanitizeClash v w := by
  have hclash : ∀ v w, sanitize_enum_identifier v ≠ sanitize_enum_identifier w ↔ ¬ SanitizeClash v w := by
    intro v w
    rw [sanitize_enum_identifier_eq, sanitize_enum_identifier_eq, ne_eq, sanitize_inj]
  simp only [EnumCode.Compiles, emitEnumFromPrimitive, List.forall_mem_map, isNameIn_enumerator, List.Nodup,
    List.pairwise_map, hclash]

/-- The literal of a value that becomes a name is that value: it holds no null character. -/
theorem cText_literalText {v : Str} (hv : NamesEnumerator voc v) : EnumCode.cText (literalText v) = v := by
  have hnull : ∀ c ∈ v, decide (c ≠ '\x00') = true := by
    intro c hc
    simp only [decide_eq_true_eq]
    rintro rfl
    rcases hv.2.chars _ hc with h | h
    · exact absurd h (by decide)
    · rcases voc.foreign _ h with h | h <;> exact absurd h (by decide)
  have hread : Cpp.readLiteral (literalText v) = some (v, []) := readLiteral_quoted v []
  rw [EnumCode.cText, hread]
  exact List.takeWhile_eq_self_iff.mpr hnull

variable (hcompiles : (emitEnumFromPrimitive p).Compiles voc)

include hcompiles

theorem namesEnumerator_of_mem {v : Str} (hv : v ∈ p.enum_values) : NamesEnumerator voc v :=
  (compiles_iff.mp hcompiles).1 v hv

theorem value_from_enumerator {v : Str} (hv : v ∈ p.enum_values) :
    (emitEnumFromPrimitive p).value_from (sanitize_enum_identifier v) = .str v := by
  have hfind : p.enum_values.find? (fun w => decide (sanitize_enum_identifier w = sanitize_enum_identifier v)) =
      some v :=
    find?_eq_some_of_unique hv (by simp) fun w hw h =>
      List.inj_on_of_nodup_map hcompiles.2 hw hv (of_decide_eq_true h)
  have hcase : (emitEnumFromPrimitive p).cases.find? (fun c => c.1 = sanitize_enum_identifier v) =
      some (sanitize_enum_identifier v, literalText v) := by
    rw [emitEnumFromPrimitive, List.find?_map]
    exact congrArg (Option.map _) hfind
  rw [EnumCode.value_from, hcase]
  exact congrArg Json.str (cText_literalText (namesEnumerator_of_mem hcompiles hv))

theorem value_to_value {v : Str} (hv : v ∈ p.enum_values) :
    (emitEnumFromPrimitive p).value_to (.str v) = some (sanitize_enum_identifier v) := by
  have hfind : p.enum_values.find? (fun w => decide (EnumCode.cText (literalText w) = v)) = some v := by
    refine find?_eq_some_of_unique hv ?_ fun w hw h => ?_
    · simpa using cText_literalText (namesEnumerator_of_mem hcompiles hv)
    · rw [cText_literalText (namesEnumerator_of_mem hcompiles hw)] at h
      exact of_decide_eq_true h
  have hbranch : (emitEnumFromPrimitive p).branches.find? (fun b => EnumCode.cText b.1 = v) =
      some (literalText v, sanitize_enum_identifier v) := by
    rw [emitEnumFromPrimitive, List.find?_map]
    exact congrArg (Option.map _) hfind
  have hne := (namesEnumerator_of_mem hcompiles hv).1
  simp only [EnumCode.value_to, Json.get_string, if_neg hne, hbranch]

end

/-- **Which enumerations round-trip.**  The generated code of an `enum` compiles and takes enumerators and
listed values to each other exactly when no integer is listed for an integer schema, every value becomes
a name, and no two values become the same one. -/
theorem enum_round_trips {voc : Cpp.Vocabulary} {ir : InvalidRead} {schema : JsonObject} {p : PrimitiveType}
    {values : List Json}
    (hparse : parsePrimitiveSchema ir schema = .ok (.primitive p)) (hvalues : schema.enum_ ir = .ok values)
    (henum : p.enum_values ≠ []) :
    RoundTrips voc p values ↔ (p.kind = .Integer → ∀ i, .int i ∉ values) ∧
      (∀ v ∈ p.enum_values, NamesEnumerator voc v) ∧
      p.enum_values.Pairwise fun v w => ¬ SanitizeClash v w := by
  have hcases := enumValues_cases hparse hvalues henum
  constructor
  · intro h
    refine ⟨fun hkind i hi => ?_, compiles_iff.mp h.compiles⟩
    -- an integer is no string for `as_string`
    obtain ⟨e, he, -⟩ := h.listed (.int i) hi (by rw [hkind]; exact ⟨i, rfl⟩)
    cases he
  · rintro ⟨hints, hnames⟩
    have hcompiles : (emitEnumFromPrimitive p).Compiles voc := compiles_iff.mpr hnames
    refine ⟨hcompiles, fun e he => ?_, fun v hv hkind => ?_⟩
    · obtain ⟨v, hv, rfl⟩ := List.mem_map.mp he
      rw [value_from_enumerator hcompiles hv, value_to_value hcompiles hv]
    · rcases hcases with ⟨hstring, heq⟩ | ⟨hinteger, -⟩
      · rw [hstring] at hkind
        obtain ⟨s, rfl⟩ := hkind
        have hs : s ∈ p.enum_values := heq ▸ List.mem_filterMap.mpr ⟨_, hv, rfl⟩
        exact ⟨_, value_to_value hcompiles hs, value_from_enumerator hcompiles hs⟩
      · rw [hinteger] at hkind
        obtain ⟨i, rfl⟩ := hkind
        exact absurd hv (hints hinteger i)

def enumSchema (type : Str) (values : List Json) : JsonObject :=
  some [("type".toList, .str type), ("enum".toList, .arr values)]

/-- The letters of Latin-1 besides those of ASCII. -/
def latin : Cpp.Vocabulary where
  start c := 192 ≤ c.toNat && c.toNat ≤ 255 && c ≠ '×' && c ≠ '÷'
  later c := 192 ≤ c.toNat && c.toNat ≤ 255 && c ≠ '×' && c ≠ '÷'
  macros _ := false
  later_of_start _ h := h
  foreign c h := by
    simp only [Bool.and_eq_true, decide_eq_true_eq] at h
    exact .inr (by omega)

theorem enum_round_trips_drinks :
    ∃ p, parsePrimitiveSchema .crash (enumSchema "string".toList
        [.str "café".toList, .str "iced-thé".toList]) = .ok (.primitive p) ∧
      RoundTrips latin p [.str "café".toList, .str "iced-thé".toList] :=
  ⟨_, rfl, (@enum_round_trips latin .crash
    (enumSchema "string".toList [.str "café".toList, .str "iced-thé".toList]) _ _ rfl rfl (by decide)).mpr
    ⟨nofun, compiles_iff.mp ⟨by decide, by decide⟩⟩⟩

/-- `value_to` throws on the integers of an integer schema, and two values that become one name do not
compile. -/
theorem enums_do_not_round_trip :
    (∃ p, parsePrimitiveSchema .crash (enumSchema "integer".toList [.int 1, .int 2]) = .ok (.primitive p) ∧
      ¬ RoundTrips .plain p [.int 1, .int 2]) ∧
    ∃ p, parsePrimitiveSchema .crash (enumSchema "string".toList [.str "a-b".toList, .str "a_b".toList]) =
        .ok (.primitive p) ∧
      ¬ RoundTrips .plain p [.str "a-b".toList, .str "a_b".toList] := by
  refine ⟨⟨_, rfl, fun h => ?_⟩, _, rfl, fun h => ?_⟩
  · obtain ⟨e, he, -⟩ := h.listed (.int 1) (by simp) ⟨1, rfl⟩
    cases he
  · have hclash := (compiles_iff.mp h.compiles).2
    have : SanitizeClash "a-b".toList "a_b".toList := .inl (by decide)
    exact absurd this (List.rel_of_pairwise_cons hclash (by decide))

end Siesta
