import Siesta.Frontend.AST
import Siesta.Frontend.OpenApi

/-!
# The parser of schemas: `generator/src/Frontend/SchemaParser.cpp`

`parseSchema` turns a schema into a type.  On the way down it stores the structs of inline schemas in
the AST, under names it makes up.  The six functions of the source call each other through
`parseSchema`; here they take it as an argument, and `parseSchemaUpTo` closes the recursion, with a
bound on the nested calls that the depth of the document supplies.
-/

namespace Siesta

open Lib JsonObject

structure ParseState where
  ast : NormalizedAST := {}
  /-- The names the parser has made up. -/
  added_types : List Str := []
  /-- History, which nothing reads: each type that was to be stored, under its name. -/
  placed : List (Str × SchemaType) := []

/-- The ways the parser does not return; that the bound on nested calls was too low is the model's
own. -/
inductive Stop where
  | fault (f : Fault)
  | outOfFuel
  deriving DecidableEq, Repr

abbrev ParseM : Type → Type := EStateM Stop ParseState

instance : MonadLift (Except Fault) ParseM where
  monadLift x := fun s =>
    match x with
    | .ok a => .ok a s
    | .error f => .error (.fault f) s

/-! ### Formats and references -/

/-- `parseIntegerFormat`. -/
def parseIntegerFormat (format : Str) : Option IntegerFormat :=
  if format = "int32".toList then some .Int32
  else if format = "int64".toList then some .Int64
  else if format = "uint32".toList then some .UInt32
  else if format = "uint64".toList then some .UInt64
  else none

/-- `parseNumberFormat`. -/
def parseNumberFormat (format : Str) : Option NumberFormat :=
  if format = "float".toList then some .Float
  else if format = "double".toList then some .Double
  else none

/-- `parseStringFormat`. -/
def parseStringFormat (format : Str) : Option StringFormat :=
  if format = "date".toList then some .Date
  else if format = "date-time".toList then some .DateTime
  else if format = "email".toList then some .Email
  else if format = "uuid".toList then some .UUID
  else if format = "uri".toList then some .URI
  else if format = "byte".toList ∨ format = "base64".toList then some .Base64
  else none

/-- The type a `$ref` names: what follows its last slash. -/
def refTarget (ref : Str) : TypeRef :=
  match afterLast '/' ref with
  | some raw_name => ⟨sanitize raw_name, false⟩
  | none => {}

/-- `cppTypeFromTypeRef`. -/
def cppTypeFromTypeRef (ref : TypeRef) : Str :=
  if ref.name.isEmpty then "std::string".toList else ref.name

/-- Stores the struct of an inline schema under the name made of `raw`, unless the parser has made up
that name before, and returns the name. -/
def addInlineStruct (raw : Str) (t : StructType) : ParseM Str := fun s =>
  let mangled := sanitize raw
  let mutable_t : StructType := { t with name := mangled }
  let placed := s.placed ++ [(mangled, .struct mutable_t)]
  if mangled ∈ s.added_types then .ok mangled { s with placed }
  else
    .ok mangled ⟨s.ast.addType mangled (.struct mutable_t), mangled :: s.added_types, placed⟩

section

variable (ir : InvalidRead)

/-- `extractTypeRef`. -/
def extractTypeRef (schema : JsonObject) : Except Fault TypeRef := do
  if ← schema.isRef ir then
    let ref ← schema.ref ir
    return refTarget ref
  else return {}

/-! ### Primitive schemas -/

/-- The values of an `enum` of strings. -/
def stringEnumValues (values : List Json) : List Str := values.filterMap Json.get_string

/-- The values of an `enum` of integers; strings are kept as they are. -/
def integerEnumValues (values : List Json) : List Str :=
  values.filterMap fun v =>
    match v.get_int64 with
    | some i => some (toString i).toList
    | none => v.get_string

/-- `parsePrimitiveSchema`. -/
def parsePrimitiveSchema (schema : JsonObject) : Except Fault SchemaType := do
  let type ← schema.type_ ir
  let desc ← schema.description ir
  match type with
  | .string => do
    let format ← schema.format ir
    let values ← schema.enum_ ir
    return .primitive {
      kind := .String, str_format := parseStringFormat format,
      enum_values := stringEnumValues values, description := desc }
  | .integer => do
    let format ← schema.format ir
    let values ← schema.enum_ ir
    return .primitive {
      kind := .Integer, int_format := parseIntegerFormat format,
      enum_values := integerEnumValues values, description := desc }
  | .number => do
    let format ← schema.format ir
    return .primitive { kind := .Number, num_format := parseNumberFormat format, description := desc }
  | .boolean => return .primitive { kind := .Boolean, description := desc }
  | _ => return .primitive { kind := .String }

section

-- `parseSchema`, for the schemas inside.
variable (parseInner : JsonObject → Str → ParseM SchemaType)

/-! ### Properties -/

/-- The C++ type of an inline property: a struct is stored under the name made of `raw`. -/
def inlineMemberType (raw : Str) (type : SchemaType) : ParseM Str :=
  match type with
  | .primitive t => return primitiveToCpp t.kind t.int_format t.num_format
  | .array t => return vectorOf (cppTypeFromTypeRef t.element_type)
  | .map t => return mapOf (cppTypeFromTypeRef t.value_type)
  | .struct t => addInlineStruct raw t
  | _ => return "std::string".toList

/-- The type of a property: an inline schema is parsed under the name `inner`, and a struct is stored
under the name made of `raw`. -/
def propertyType (inner raw : Str) (prop_schema : JsonObject) : ParseM TypeRef := do
  if ← prop_schema.isRef ir then extractTypeRef ir prop_schema
  else
    let inline_schema_type ← parseInner prop_schema inner
    let cpp_type ← inlineMemberType raw inline_schema_type
    return ⟨cpp_type, true⟩

def parseProperty (inner raw : Str) (prop_name : Str) (prop_schema : JsonObject) : ParseM Member := do
  let description ← prop_schema.description ir
  let type ← propertyType ir parseInner inner raw prop_schema
  return { name := sanitize prop_name, type, required := false, description }

/-! ### Variants -/

/-- The references an inline alternative adds to the `n` before it: those of a variant are taken over. -/
def inlineAlternatives (name : Str) (n : ℕ) (type : SchemaType) : ParseM (List TypeRef) :=
  match type with
  | .primitive t => return [⟨primitiveToCpp t.kind t.int_format t.num_format, true⟩]
  | .array t => return [⟨vectorOf (cppTypeFromTypeRef t.element_type), true⟩]
  | .struct t => do
    let alt_type_name ← addInlineStruct (name ++ "_alt_".toList ++ (toString n).toList) t
    return if alt_type_name.isEmpty then [] else [⟨alt_type_name, true⟩]
  | .variant t => return t.alternatives
  | _ => return [⟨"std::string".toList, true⟩]

/-- One turn of the loop of `buildVariant`. -/
def parseAlternative (name : Str) (alternatives : List TypeRef) (item : Json) :
    ParseM (List TypeRef) := do
  let alt ← ofElement item
  let alt_ref ← extractTypeRef ir alt
  if !alt_ref.name.isEmpty then return alternatives ++ [alt_ref]
  else
    let alt_type ← parseInner alt (name ++ "_inline".toList)
    let added ← inlineAlternatives name alternatives.length alt_type
    return alternatives ++ added

/-- `buildVariant`. -/
def buildVariant (items : List Json) (name desc : Str) : ParseM SchemaType := do
  let alternatives ← items.foldlM (parseAlternative ir parseInner name) []
  return .variant { name, alternatives, description := desc }

/-! ### Objects -/

/-- One member of `allOf` in `parseObjectSchema`: an inline one is not looked at. -/
def refBase (bases : List TypeRef) (item : Json) : Except Fault (List TypeRef) := do
  let allOf_schema ← ofElement item
  if ← allOf_schema.isRef ir then
    let base_ref ← extractTypeRef ir allOf_schema
    return if base_ref.name.isEmpty then bases else bases ++ [base_ref]
  else return bases

/-- `parseObjectSchema`. -/
def parseObjectSchema (schema : JsonObject) (name : Str) : ParseM SchemaType := do
  let desc ← schema.description ir
  let oneOf ← schema.oneOf ir
  let anyOf ← schema.anyOf ir
  if !oneOf.isEmpty || !anyOf.isEmpty then
    buildVariant ir parseInner (if !oneOf.isEmpty then oneOf else anyOf) name desc
  else
    let allOf ← schema.allOf ir
    let allOf_bases ← (allOf.foldlM (refBase ir) [] : Except Fault (List TypeRef))
    let props ← schema.properties ir
    let fields ← props.mapM fun p =>
      let child := name ++ ['_'] ++ p.1
      parseProperty ir parseInner child child p.1 (ofMember p.2)
    return .struct { name, fields, allOf_bases, description := desc }

/-- One member of `allOf` in `parseImplicitObject`: the struct of an inline one becomes a base. -/
def parseBase (name : Str) (bases : List TypeRef) (item : Json) : ParseM (List TypeRef) := do
  let allOf_schema ← ofElement item
  if ← allOf_schema.isRef ir then
    let base_ref ← extractTypeRef ir allOf_schema
    return if base_ref.name.isEmpty then bases else bases ++ [base_ref]
  else
    let inline_name := name ++ "_base_".toList ++ (toString bases.length).toList
    match ← parseInner allOf_schema inline_name with
    | .struct t => do
      let mangled_name ← addInlineStruct t.name t
      return bases ++ [⟨mangled_name, false⟩]
    | _ => return bases

/-- `parseImplicitObject`: the schemas of the properties are parsed under the empty name. -/
def parseImplicitObject (obj : JsonObject) (name : Str) : ParseM SchemaType := do
  let description ← obj.description ir
  let allOf ← obj.allOf ir
  let allOf_bases ← allOf.foldlM (parseBase ir parseInner name) []
  let props ← obj.properties ir
  let fields ← props.mapM fun p =>
    parseProperty ir parseInner [] (name ++ ['_'] ++ p.1) p.1 (ofMember p.2)
  return .struct { name, fields, allOf_bases, description }

/-- `parseUnknownSchema`: a schema without a type. -/
def parseUnknownSchema (schema : JsonObject) (name : Str) : ParseM SchemaType := do
  let desc ← schema.description ir
  let oneOf ← schema.oneOf ir
  if !oneOf.isEmpty then buildVariant ir parseInner oneOf name desc
  else
    let anyOf ← schema.anyOf ir
    if !anyOf.isEmpty then buildVariant ir parseInner anyOf name desc
    else if (← schema.hasKey ir "properties".toList) || (← schema.hasKey ir "allOf".toList) ||
        (← schema.hasKey ir "additionalProperties".toList) then
      parseImplicitObject ir parseInner schema name
    else return .primitive { kind := .String, description := desc }

/-! ### Arrays -/

def inlineElementType (elem_name : Str) (type : SchemaType) : ParseM Str :=
  match type with
  | .primitive t => return primitiveToCpp t.kind t.int_format t.num_format
  | .struct t => addInlineStruct elem_name t
  | _ => return "std::string".toList

def elementName (name : Str) (typeCount : ℕ) : Str :=
  if name.isEmpty then "ArrayEntry_".toList ++ (toString typeCount).toList
  else name ++ "_entry".toList

/-- `parseArraySchema`. -/
def parseArraySchema (schema : JsonObject) (name : Str) : ParseM SchemaType := do
  let description ← schema.description ir
  let items ← schema.items ir
  if ← items.isRef ir then
    let element_type ← extractTypeRef ir items
    return .array { element_type, description }
  else
    let s ← get
    let elem_name := elementName name s.ast.getTypeCount
    let elem_schema_type ← parseInner items elem_name
    let elem_cpp_type ← inlineElementType elem_name elem_schema_type
    return .array { element_type := ⟨elem_cpp_type, true⟩, description }

/-! ### The dispatch -/

/-- The body of `parseSchema`. -/
def parseSchemaBody (schema : JsonObject) (name : Str) : ParseM SchemaType := do
  match ← schema.type_ ir with
  | .object => parseObjectSchema ir parseInner schema name
  | .array => parseArraySchema ir parseInner schema name
  | .string | .integer | .number | .boolean => parsePrimitiveSchema ir schema
  | .unknown => parseUnknownSchema ir parseInner schema name
  | .null => do
    let description ← schema.description ir
    return .primitive { kind := .String, description }

end

/-- `parseSchema`, for a bounded number of nested calls. -/
def parseSchemaUpTo : ℕ → JsonObject → Str → ParseM SchemaType
  | 0, _, _ => throw .outOfFuel
  | fuel + 1, schema, name => parseSchemaBody ir (parseSchemaUpTo fuel) schema name

/-- `parseSchema`. -/
def parseSchema (schema : JsonObject) (name : Str) : ParseM SchemaType :=
  parseSchemaUpTo ir (schema.depth + 1) schema name

/-! ### All the schemas of a document -/

def addComponent (safe_name : Str) (type : SchemaType) : ParseM Unit :=
  modify fun s =>
    { s with ast := s.ast.addType safe_name type, placed := s.placed ++ [(safe_name, type)] }

/-- One turn of the loop of `parseSchemas`; `failed` are the names it has warned about. -/
def parseComponent (failed : List Str) (entry : Str × Json) : ParseM (List Str) :=
  tryCatch
    (do
      let safe_name := sanitize entry.1
      let type ← parseSchema ir (ofMember entry.2) safe_name
      addComponent safe_name type
      return failed)
    fun
    | .fault .exception => return failed ++ [entry.1]
    | stop => throw stop

/-- `spec.components().schemas()`. -/
def componentSchemas (spec : JsonObject) : Except Fault (List (Str × Json)) := do
  let components ← objectField ir spec "components".toList
  mapField ir components "schemas".toList

/-- `parseSchemas`: the names of the schemas that did not parse. -/
def parseSchemas (spec : JsonObject) : ParseM (List Str) := do
  let schemas ← componentSchemas ir spec
  schemas.foldlM (parseComponent ir) []

end

theorem parsePrimitiveSchema_primitive {ir : InvalidRead} {schema : JsonObject} {type : SchemaType}
    (h : parsePrimitiveSchema ir schema = .ok type) : ∃ t, type = .primitive t := by
  unfold parsePrimitiveSchema at h
  simp only [bind, Except.bind, pure, Except.pure] at h
  repeat' split at h
  all_goals first
    | exact ⟨_, (Except.ok.inj h).symm⟩
    | cases h

end Siesta
