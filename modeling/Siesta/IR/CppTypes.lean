import Siesta.Frontend.AST
import Siesta.Lib.Definitions
import Siesta.Support.Json
import Mathlib.Algebra.Group.Int.Defs

/-!
# C++ types and values of the generated structs

The type references of the AST are the texts of C++ types.  `CppType.read` takes such a text apart,
and a set of generated structs is a list of `StructType`s in which each refers to structs behind it
(`StructSet`): the header defines them in the opposite order.
-/

namespace Siesta

open Lib

/-! ### Types -/

/-- The primitive C++ types whose conversions are those of the JSON library. -/
inductive CppPrimitive where
  | string
  | boolean
  | integer (format : IntegerFormat)
  deriving DecidableEq, Repr

inductive CppType where
  | prim (p : CppPrimitive)
  | vector (element : CppType)
  | named (name : Str)
  deriving DecidableEq, Repr

/-- The text `primitiveToCpp` writes. -/
def CppPrimitive.text : CppPrimitive → Str
  | .string => "std::string".toList
  | .boolean => "bool".toList
  | .integer .Int32 => "int32_t".toList
  | .integer .Int64 => "int64_t".toList
  | .integer .UInt32 => "uint32_t".toList
  | .integer .UInt64 => "uint64_t".toList

def CppPrimitive.all : List CppPrimitive :=
  [.string, .boolean, .integer .Int32, .integer .Int64, .integer .UInt32, .integer .UInt64]

/-- The type a text names; the depth bounds the vectors in it. -/
def CppType.readUpTo : ℕ → Str → CppType
  | depth, text =>
    match CppPrimitive.all.find? fun p => p.text = text with
    | some p => .prim p
    | none =>
      match depth with
      | 0 => .named text
      | depth + 1 =>
        if vectorPrefix.isPrefixOf text then .vector (readUpTo depth (elementText text))
        else .named text

/-- The type a text names. -/
def CppType.read (text : Str) : CppType := readUpTo text.length text

/-- The structs a type mentions. -/
def CppType.names : CppType → List Str
  | .prim _ => []
  | .vector t => t.names
  | .named n => [n]

/-- The type `cppTypeName(base)` names. -/
def baseType (base : TypeRef) : CppType := .read base.name

/-- The type `cppTypeName(field.type)` names. -/
def Member.cppType (field : Member) : CppType := .read field.type.name

/-! ### Sets of structs -/

/-- The structs a struct refers to, by inheritance or by a member. -/
def StructType.refs (s : StructType) : List Str :=
  s.allOf_bases.flatMap (fun base => (baseType base).names) ++
    s.fields.flatMap fun field => field.cppType.names

/-- An acyclic set of generated structs: each refers to structs behind it only, and its bases are
structs. -/
structure StructSet where
  structs : List StructType
  wellScoped : Scoped StructType.name StructType.refs structs
  bases : ∀ s ∈ structs, ∀ base ∈ s.allOf_bases, baseType base = .named base.name

namespace StructSet

variable (ss : StructSet)

/-- The definition of a struct. -/
def find (n : Str) : Option StructType := lookupDef StructType.name ss.structs n

/-- The names of the structs. -/
def names : List Str := ss.structs.map StructType.name

/-- A type whose structs are all in the set. -/
def Closed (t : CppType) : Prop := ∀ n ∈ t.names, n ∈ ss.names

instance (t : CppType) : Decidable (ss.Closed t) :=
  inferInstanceAs (Decidable (∀ n ∈ t.names, n ∈ ss.names))

/-- The members of a struct with their types, inherited ones first. -/
def members : Str → List (Str × CppType) :=
  define StructType.name
    (fun members s =>
      s.allOf_bases.flatMap (fun base => members base.name) ++
        s.fields.map fun field => (field.name, field.cppType))
    [] ss.structs

/-- The own and inherited member names of each struct are pairwise distinct. -/
def DistinctMembers : Prop := ∀ n ∈ ss.names, ((ss.members n).map Prod.fst).Nodup

instance : Decidable ss.DistinctMembers :=
  inferInstanceAs (Decidable (∀ n ∈ ss.names, ((ss.members n).map Prod.fst).Nodup))

variable {ss}

theorem closed_named {n : Str} : ss.Closed (.named n) ↔ n ∈ ss.names := by
  simp [Closed, CppType.names]

theorem base_names_refs {s : StructType} {base : TypeRef} (hb : base ∈ s.allOf_bases) :
    ∀ n ∈ (baseType base).names, n ∈ s.refs := fun _ hn =>
  List.mem_append_left _ (List.mem_flatMap.mpr ⟨base, hb, hn⟩)

theorem field_names_refs {s : StructType} {field : Member} (hf : field ∈ s.fields) :
    ∀ n ∈ field.cppType.names, n ∈ s.refs := fun _ hn =>
  List.mem_append_right _ (List.mem_flatMap.mpr ⟨field, hf, hn⟩)

theorem base_mem_refs {s : StructType} (hs : s ∈ ss.structs) {base : TypeRef}
    (hb : base ∈ s.allOf_bases) : base.name ∈ s.refs := by
  refine base_names_refs hb base.name ?_
  rw [ss.bases s hs base hb]
  exact List.mem_singleton_self _

theorem mem_of_find {n : Str} {s : StructType} (h : ss.find n = some s) : s ∈ ss.structs :=
  mem_of_lookupDef h

theorem name_of_find {n : Str} {s : StructType} (h : ss.find n = some s) : s.name = n :=
  name_of_lookupDef h

theorem find_of_mem {n : Str} (h : n ∈ ss.names) : ∃ s, ss.find n = some s := lookupDef_of_mem h

theorem names_of_find {n : Str} {s : StructType} (h : ss.find n = some s) : n ∈ ss.names :=
  List.mem_map.mpr ⟨s, mem_of_find h, name_of_find h⟩

theorem closed_field {s : StructType} (hs : s ∈ ss.structs) {field : Member}
    (hf : field ∈ s.fields) : ss.Closed field.cppType := fun n hn =>
  ss.wellScoped.refs_mem hs n (field_names_refs hf n hn)

theorem members_eq {n : Str} {s : StructType} (h : ss.find n = some s) :
    ss.members n = s.allOf_bases.flatMap (fun base => ss.members base.name) ++
      s.fields.map fun field => (field.name, field.cppType) := by
  refine define_eq (fun d hd f g hfg => ?_) ss.wellScoped h
  have hbases : d.allOf_bases.flatMap (fun base => f base.name) =
      d.allOf_bases.flatMap fun base => g base.name :=
    List.flatMap_congr fun base hb => hfg base.name (base_mem_refs hd hb)
  rw [hbases]

end StructSet

/-! ### Values -/

inductive PrimitiveValue where
  | string (s : Str)
  | boolean (b : Bool)
  | integer (i : ℤ)
  deriving DecidableEq

/-- A value of a generated type; a struct holds its base objects and its own members in the order
of their declarations. -/
inductive Value where
  | prim (x : PrimitiveValue)
  | vector (items : List Value)
  | struct (bases fields : List Value)

def IntegerFormat.min : IntegerFormat → ℤ
  | .Int32 => -2 ^ 31
  | .Int64 => -2 ^ 63
  | .UInt32 => 0
  | .UInt64 => 0

def IntegerFormat.max : IntegerFormat → ℤ
  | .Int32 => 2 ^ 31 - 1
  | .Int64 => 2 ^ 63 - 1
  | .UInt32 => 2 ^ 32 - 1
  | .UInt64 => 2 ^ 64 - 1

inductive PrimitiveValue.HasType : CppPrimitive → PrimitiveValue → Prop
  | string (s : Str) : HasType .string (.string s)
  | boolean (b : Bool) : HasType .boolean (.boolean b)
  | integer {format : IntegerFormat} {i : ℤ} (hmin : format.min ≤ i) (hmax : i ≤ format.max) :
      HasType (.integer format) (.integer i)

/-- `v` is a value of the C++ type. -/
inductive StructSet.HasType (ss : StructSet) : CppType → Value → Prop
  | prim {p : CppPrimitive} {x : PrimitiveValue} (h : x.HasType p) : HasType ss (.prim p) (.prim x)
  | vector {t : CppType} {items : List Value} (h : ∀ v ∈ items, HasType ss t v) :
      HasType ss (.vector t) (.vector items)
  | struct {n : Str} {s : StructType} {bases fields : List Value} (hs : ss.find n = some s)
      (hb : List.Forall₂ (fun base v => HasType ss (baseType base) v) s.allOf_bases bases)
      (hf : List.Forall₂ (fun field v => HasType ss field.cppType v) s.fields fields) :
      HasType ss (.named n) (.struct bases fields)

end Siesta
