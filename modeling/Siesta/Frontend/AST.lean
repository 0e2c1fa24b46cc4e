import Siesta.Support.Utils

/-!
# The normalized AST: `generator/src/Frontend/AST.hpp`, `AST.cpp`

A `TypeRef` is the text of a C++ type, and a flag that says that the text is no reference to a
named type of the document.  `NormalizedAST` is the table of named types, `validate` its check.
-/

namespace Siesta

open Lib

/-! ### The types of a document -/

/-- A reference to a named type, or (`is_inline`) the text of an anonymous one. -/
structure TypeRef where
  name : Str := []
  is_inline : Bool := false
  deriving DecidableEq, Repr

inductive PrimitiveKind where
  | String | Integer | Number | Boolean | Null
  deriving DecidableEq, Repr

inductive IntegerFormat where
  | Int32 | Int64 | UInt32 | UInt64
  deriving DecidableEq, Repr

inductive NumberFormat where
  | Float | Double
  deriving DecidableEq, Repr

inductive StringFormat where
  | Date | DateTime | Email | UUID | URI | Base64
  deriving DecidableEq, Repr

/-- A primitive type; a list of `enum_values` makes it an enumeration. -/
structure PrimitiveType where
  kind : PrimitiveKind
  int_format : Option IntegerFormat := none
  num_format : Option NumberFormat := none
  str_format : Option StringFormat := none
  enum_values : List Str := []
  description : Str := []
  deriving DecidableEq, Repr

structure ArrayType where
  element_type : TypeRef := {}
  description : Str := []
  deriving DecidableEq, Repr

structure MapType where
  value_type : TypeRef := {}
  description : Str := []
  deriving DecidableEq, Repr

structure EnumValue where
  name : Str
  value : Str
  description : Str := []
  deriving DecidableEq, Repr

structure EnumType where
  name : Str
  values : List EnumValue := []
  is_string : Bool := true
  description : Str := []
  deriving DecidableEq, Repr

structure Member where
  name : Str
  type : TypeRef := {}
  required : Bool := false
  default_value : Option Str := none
  description : Str := []
  deriving DecidableEq, Repr

/-- A struct: its own fields, and the base classes `allOf` gives it. -/
structure StructType where
  name : Str
  fields : List Member := []
  allOf_bases : List TypeRef := []
  description : Str := []
  deriving DecidableEq, Repr

/-- A `oneOf` / `anyOf`. -/
structure VariantType where
  name : Str
  alternatives : List TypeRef := []
  is_nullable : Bool := false
  discriminator_property : Option Str := none
  description : Str := []
  deriving DecidableEq, Repr

inductive SchemaType where
  | struct (t : StructType)
  | variant (t : VariantType)
  | array (t : ArrayType)
  | map (t : MapType)
  | enum (t : EnumType)
  | primitive (t : PrimitiveType)
  deriving DecidableEq, Repr

/-- The type references of a type, in the order of the source's data members. -/
def SchemaType.refs : SchemaType → List TypeRef
  | .struct t => t.fields.map Member.type ++ t.allOf_bases
  | .variant t => t.alternatives
  | .array t => [t.element_type]
  | .map t => [t.value_type]
  | .enum _ => []
  | .primitive _ => []

/-- The name field of a struct or a variant is `n`. -/
def SchemaType.NamedAs (n : Str) : SchemaType → Prop
  | .struct t => t.name = n
  | .variant t => t.name = n
  | _ => True

/-- `primitiveToCpp`: the C++ type of a primitive. -/
def primitiveToCpp (kind : PrimitiveKind) (fmt : Option IntegerFormat)
    (num_fmt : Option NumberFormat) : Str :=
  match kind with
  | .String => "std::string".toList
  | .Integer =>
    match fmt with
    | some .Int64 => "int64_t".toList
    | some .UInt64 => "uint64_t".toList
    | some .UInt32 => "uint32_t".toList
    | _ => "int32_t".toList
  | .Number =>
    match num_fmt with
    | some .Double => "double".toList
    | _ => "float".toList
  | .Boolean => "bool".toList
  | .Null => "std::nullptr_t".toList

/-- The primitive C++ types: all `primitiveToCpp` returns. -/
def primitiveCppTypes : List Str :=
  ["std::string", "int64_t", "uint64_t", "uint32_t", "int32_t", "double", "float", "bool",
    "std::nullptr_t"].map String.toList

theorem primitiveToCpp_mem (kind : PrimitiveKind) (fmt : Option IntegerFormat)
    (num_fmt : Option NumberFormat) : primitiveToCpp kind fmt num_fmt ∈ primitiveCppTypes := by
  unfold primitiveToCpp
  split
  · exact List.mem_map_of_mem (by simp)
  · split <;> exact List.mem_map_of_mem (by simp)
  · split <;> exact List.mem_map_of_mem (by simp)
  · exact List.mem_map_of_mem (by simp)
  · exact List.mem_map_of_mem (by simp)

/-! ### The table of types -/

/-- The named types of a document. -/
structure NormalizedAST where
  types_ : Table Str SchemaType := ∅

namespace NormalizedAST

/-- `addType`: a type of that name is replaced. -/
def addType (ast : NormalizedAST) (name : Str) (type : SchemaType) : NormalizedAST :=
  { types_ := ast.types_.set name type }

def getType (ast : NormalizedAST) (name : Str) : Option SchemaType := ast.types_.find name

def hasType (ast : NormalizedAST) (name : Str) : Bool := (ast.types_.find name).isSome

def getTypeCount (ast : NormalizedAST) : ℕ := ast.types_.entries.length

/-- The entries, in the order loop `i` meets them. -/
def getTypes (ho : HashOrders) (i : HashLoop) (ast : NormalizedAST) : List (Str × SchemaType) :=
  (ho.iter i ast.types_.entries).map fun e => (e.1, e.2)

/-- `name` is the name of a type of the AST. -/
instance : Membership Str NormalizedAST := ⟨fun ast name => name ∈ ast.types_⟩

instance (ast : NormalizedAST) (name : Str) : Decidable (name ∈ ast) :=
  inferInstanceAs (Decidable (name ∈ ast.types_))

theorem hasType_iff {ast : NormalizedAST} {name : Str} : ast.hasType name = true ↔ name ∈ ast := by
  rw [hasType, Option.isSome_iff_exists]
  exact Table.mem_iff_find.symm

theorem mem_iff_getType {ast : NormalizedAST} {name : Str} :
    name ∈ ast ↔ ∃ type, ast.getType name = some type := Table.mem_iff_find

theorem mem_of_getType {ast : NormalizedAST} {name : Str} {type : SchemaType}
    (h : ast.getType name = some type) : name ∈ ast := mem_iff_getType.mpr ⟨type, h⟩

theorem getType_addType (ast : NormalizedAST) (n m : Str) (type : SchemaType) :
    (ast.addType n type).getType m = if m = n then some type else ast.getType m :=
  Table.find_set ast.types_ n m type

@[simp] theorem mem_addType {ast : NormalizedAST} {n m : Str} {type : SchemaType} :
    m ∈ ast.addType n type ↔ m = n ∨ m ∈ ast := Table.mem_set

theorem mem_getTypes {ho : HashOrders} {i : HashLoop} {ast : NormalizedAST} {name : Str}
    {type : SchemaType} : (name, type) ∈ ast.getTypes ho i ↔ ast.getType name = some type := by
  unfold getTypes getType
  rw [Table.find_eq_some]
  constructor
  · intro h
    obtain ⟨e, he, heq⟩ := List.mem_map.mp h
    obtain ⟨rfl, rfl⟩ := Prod.mk.inj heq
    exact (ho.mem_iter i).mp he
  · intro h
    exact List.mem_map.mpr ⟨⟨name, type⟩, (ho.mem_iter i).mpr h, rfl⟩

/-- A loop over the types meets each name once. -/
theorem nodup_getTypes (ho : HashOrders) (i : HashLoop) (ast : NormalizedAST) :
    ((ast.getTypes ho i).map Prod.fst).Nodup := by
  have hk : (ast.types_.entries.map Sigma.fst).Nodup := ast.types_.keys_nodup
  have hp : ((ho.iter i ast.types_.entries).map Sigma.fst).Perm (ast.types_.entries.map Sigma.fst) :=
    (ho.perm i ast.types_.entries).map Sigma.fst
  unfold getTypes
  rw [List.map_map]
  exact hp.nodup_iff.mpr hk

theorem mem_getTypes_fst {ho : HashOrders} {i : HashLoop} {ast : NormalizedAST} {name : Str} :
    name ∈ (ast.getTypes ho i).map Prod.fst ↔ name ∈ ast := by
  rw [mem_iff_getType]
  constructor
  · intro h
    obtain ⟨⟨n, type⟩, he, rfl⟩ := List.mem_map.mp h
    exact ⟨type, mem_getTypes.mp he⟩
  · rintro ⟨type, h⟩
    exact List.mem_map.mpr ⟨(name, type), mem_getTypes.mpr h, rfl⟩

/-- The names of the AST are what `sanitize` returns. -/
def Sanitized (ast : NormalizedAST) : Prop := ∀ n ∈ ast, ∃ s, n = sanitize s

/-- A struct's or variant's name field is its key. -/
def NamedByKey (ast : NormalizedAST) : Prop :=
  ∀ n type, ast.getType n = some type → type.NamedAs n

/-! ### Validation -/

/-- The error `validate` writes about a reference of the type `context`. -/
inductive ValidationError where
  | unknownFieldType (context field type : Str)
  | baseNotFound (context base : Str)
  | alternativeNotFound (context alternative : Str)
  | elementNotFound (context element : Str)
  | valueNotFound (context value : Str)
  deriving DecidableEq, Repr

/-- The text of the error. -/
def ValidationError.text : ValidationError → Str
  | .unknownFieldType context field type =>
    context ++ ": field '".toList ++ field ++ "' references unknown type '".toList ++ type ++
      "'".toList
  | .baseNotFound context base => context ++ ": base type '".toList ++ base ++ "' not found".toList
  | .alternativeNotFound context alternative =>
    context ++ ": variant alternative '".toList ++ alternative ++ "' not found".toList
  | .elementNotFound context element =>
    context ++ ": array element type '".toList ++ element ++ "' not found".toList
  | .valueNotFound context value =>
    context ++ ": map value type '".toList ++ value ++ "' not found".toList

/-- A reference that is checked and names no type. -/
def unknown (ast : NormalizedAST) (ref : TypeRef) : Bool := !ref.is_inline && !ast.hasType ref.name

/-- `validateType`.  Base classes are looked up whatever their flag says. -/
def validateType (ast : NormalizedAST) (type : SchemaType) (context : Str) : List ValidationError :=
  match type with
  | .struct t =>
    (t.fields.filter fun field => ast.unknown field.type).map (fun field =>
        .unknownFieldType context field.name field.type.name) ++
      (t.allOf_bases.filter fun base => !ast.hasType base.name).map fun base =>
        .baseNotFound context base.name
  | .variant t =>
    (t.alternatives.filter ast.unknown).map fun alt => .alternativeNotFound context alt.name
  | .array t => if ast.unknown t.element_type then [.elementNotFound context t.element_type.name] else []
  | .map t => if ast.unknown t.value_type then [.valueNotFound context t.value_type.name] else []
  | .enum _ => []
  | .primitive _ => []

/-- `validate`: the errors of every type. -/
def validate (ho : HashOrders) (ast : NormalizedAST) : List ValidationError :=
  (ast.getTypes ho .validate).flatMap fun e => ast.validateType e.2 e.1

theorem unknown_eq_false {ast : NormalizedAST} {ref : TypeRef} :
    ast.unknown ref = false ↔ (ref.is_inline = false → ref.name ∈ ast) := by
  rw [← hasType_iff]
  cases h : ref.is_inline <;> simp [unknown, h]

/-- What the check of one type asks: every reference that is not inline names a type, and so does
every base class. -/
theorem validateType_eq_nil {ast : NormalizedAST} {type : SchemaType} {context : Str} :
    ast.validateType type context = [] ↔
      (∀ ref ∈ type.refs, ref.is_inline = false → ref.name ∈ ast) ∧
        ∀ t, type = .struct t → ∀ base ∈ t.allOf_bases, base.name ∈ ast := by
  cases type with
  | struct t =>
    have hb : ∀ base : TypeRef, (!ast.hasType base.name) = false ↔ base.name ∈ ast := fun base => by
      rw [← hasType_iff]; simp
    simp only [validateType, SchemaType.refs, List.append_eq_nil_iff, List.map_eq_nil_iff,
      List.filter_eq_nil_iff, Bool.not_eq_true, unknown_eq_false, hb, List.mem_append, List.mem_map,
      SchemaType.struct.injEq, forall_eq']
    constructor
    · rintro ⟨hf, hbases⟩
      refine ⟨?_, hbases⟩
      rintro ref (⟨field, hm, rfl⟩ | hm)
      · exact hf field hm
      · exact fun _ => hbases ref hm
    · rintro ⟨hr, hbases⟩
      exact ⟨fun field hm => hr field.type (.inl ⟨field, hm, rfl⟩), hbases⟩
  | variant t =>
    simp [validateType, SchemaType.refs, List.filter_eq_nil_iff, unknown_eq_false]
  | array t =>
    simp [validateType, SchemaType.refs, unknown_eq_false]
  | map t =>
    simp [validateType, SchemaType.refs, unknown_eq_false]
  | enum t => simp [validateType, SchemaType.refs]
  | primitive t => simp [validateType, SchemaType.refs]

theorem validate_eq_nil {ho : HashOrders} {ast : NormalizedAST} :
    ast.validate ho = [] ↔
      ∀ name type, ast.getType name = some type →
        (∀ ref ∈ type.refs, ref.is_inline = false → ref.name ∈ ast) ∧
          ∀ t, type = .struct t → ∀ base ∈ t.allOf_bases, base.name ∈ ast := by
  simp only [validate, List.flatMap_eq_nil_iff, validateType_eq_nil, Prod.forall, mem_getTypes]

end NormalizedAST

end Siesta
