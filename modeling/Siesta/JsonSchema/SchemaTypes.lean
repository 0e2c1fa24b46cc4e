import Siesta.Lib.Checks
import Siesta.Lib.Table
import Siesta.Support.Json
import Mathlib.Data.Finset.Insert

/-!
# The types of the validator: `jsonschema/src/schema_types.hpp`

`parse_into_document` and `parse` are simdjson's; what `compile` and `validate` go on with is the value
they return.  The callback is left out, and with it the instance location, which reaches nothing
else.
-/

namespace Siesta.JsonSchema

open Lib

/-! ### Locations -/

/-- `SchemaURI`. -/
structure SchemaURI where
  base : Str := []
  fragment : Str := []
  deriving DecidableEq

/-- `SchemaURI::parse`: the fragment starts at the first `#`. -/
def SchemaURI.parse (uri : Str) : SchemaURI :=
  { base := uri.takeWhile (fun c => c ≠ '#'), fragment := uri.dropWhile (fun c => c ≠ '#') }

/-- `SchemaURI::to_string`. -/
def SchemaURI.to_string (uri : SchemaURI) : Str := uri.base ++ uri.fragment

@[simp] theorem SchemaURI.to_string_parse (uri : Str) : (SchemaURI.parse uri).to_string = uri :=
  List.takeWhile_append_dropWhile ..

/-! ### Keywords -/

inductive Keyword where
  | Unknown
  | Type_ | Enum | Const | MultipleOf | Maximum | Minimum | ExclusiveMaximum | ExclusiveMinimum
  | MaxLength | MinLength | Pattern | MaxItems | MinItems | UniqueItems | MaxContains | MinContains
  | MaxProperties | MinProperties | Required | DependentRequired
  | AllOf | AnyOf | OneOf | Not
  | Properties | PatternProperties | AdditionalProperties | PropertyNames | Items | PrefixItems
  | AdditionalItems | UnevaluatedItems | UnevaluatedProperties | Contains
  | Title | Description | Default | Deprecated | ReadOnly | WriteOnly
  | ContentEncoding | ContentMediaType | ContentSchema
  | Schema | ID | Anchor | Ref | DynamicRef | DynamicAnchor | Defs | Definitions
  | If | Then | Else | DependentSchemas
  deriving DecidableEq

/-- The keywords by their text, in the order `build_schema_tree` compares them. -/
def keywordTexts : List (Str × Keyword) :=
  [("$schema".toList, .Schema), ("$id".toList, .ID), ("$anchor".toList, .Anchor),
    ("$ref".toList, .Ref), ("$dynamicRef".toList, .DynamicRef),
    ("$dynamicAnchor".toList, .DynamicAnchor), ("$defs".toList, .Defs),
    ("definitions".toList, .Definitions), ("type".toList, .Type_), ("enum".toList, .Enum),
    ("const".toList, .Const), ("multipleOf".toList, .MultipleOf), ("maximum".toList, .Maximum),
    ("minimum".toList, .Minimum), ("exclusiveMaximum".toList, .ExclusiveMaximum),
    ("exclusiveMinimum".toList, .ExclusiveMinimum), ("maxLength".toList, .MaxLength),
    ("minLength".toList, .MinLength), ("pattern".toList, .Pattern), ("maxItems".toList, .MaxItems),
    ("minItems".toList, .MinItems), ("uniqueItems".toList, .UniqueItems),
    ("maxContains".toList, .MaxContains), ("minContains".toList, .MinContains),
    ("maxProperties".toList, .MaxProperties), ("minProperties".toList, .MinProperties),
    ("required".toList, .Required), ("dependentRequired".toList, .DependentRequired),
    ("properties".toList, .Properties), ("patternProperties".toList, .PatternProperties),
    ("additionalProperties".toList, .AdditionalProperties),
    ("unevaluatedProperties".toList, .UnevaluatedProperties),
    ("propertyNames".toList, .PropertyNames), ("items".toList, .Items),
    ("prefixItems".toList, .PrefixItems), ("additionalItems".toList, .AdditionalItems),
    ("unevaluatedItems".toList, .UnevaluatedItems), ("contains".toList, .Contains),
    ("allOf".toList, .AllOf), ("anyOf".toList, .AnyOf), ("oneOf".toList, .OneOf),
    ("not".toList, .Not), ("if".toList, .If), ("then".toList, .Then), ("else".toList, .Else),
    ("dependentSchemas".toList, .DependentSchemas), ("title".toList, .Title),
    ("description".toList, .Description), ("default".toList, .Default),
    ("deprecated".toList, .Deprecated), ("readOnly".toList, .ReadOnly),
    ("writeOnly".toList, .WriteOnly), ("contentEncoding".toList, .ContentEncoding),
    ("contentMediaType".toList, .ContentMediaType), ("contentSchema".toList, .ContentSchema)]

def keywordOf (key : Str) : Keyword := (keywordTexts.lookup key).getD .Unknown

/-! ### Nodes -/

/-- `SchemaNode::parent`.  `build_schema_tree` stores the address of the node it fills; except for the
root, that node is a local variable, which is moved from and destroyed before the pointer is read. -/
inductive Parent where
  | null
  | root
  | destroyed
  deriving DecidableEq

/-- `SchemaNode`. -/
structure SchemaNode where
  uri : SchemaURI
  id : Str := []
  anchor : Str := []
  dynamic_anchor : Str := []
  keyword : Keyword := .Unknown
  value : Json
  children : List SchemaNode := []
  parent : Parent := .null

/-- A `SchemaNode*`. -/
inductive NodePtr where
  | node (n : SchemaNode)
  /-- The address of a local variable of `build_schema_tree`. -/
  | destroyed

/-- `ValidationError`. -/
structure ValidationError where
  instance_location : List Str := []
  schema_uri : Str := []
  message : Str := []
  deriving DecidableEq, Inhabited

/-- `EvaluationContext`. -/
structure EvaluationContext where
  evaluated_items : List Bool := []
  evaluated_properties : Finset Str := ∅
  min_contains_count : ℕ := 0
  max_contains_count : ℕ := 0

inductive Abort where
  /-- A `simdjson_error` that nothing catches. -/
  | exception
  /-- A read through a pointer to a node that has been destroyed. -/
  | badPointer
  deriving DecidableEq

/-! ### What the validator calls -/

/-- Floating-point arithmetic, regular expressions, and `simdjson::minify`. -/
structure Platform where
  Double : Type
  /-- The conversion of an integer. -/
  ofInt : ℤ → Double
  /-- The value of a literal. -/
  ofText : Str → Double
  /-- `std::floor(d) == d`. -/
  floor_eq : Double → Bool
  /-- `std::abs(a - b) < 1e-10`. -/
  near : Double → Double → Bool
  lt : Double → Double → Bool
  le : Double → Double → Bool
  /-- `d != 0`. -/
  nonzero : Double → Bool
  /-- The remainder of the division by the second is neither near zero nor near the divisor. -/
  not_multiple : Double → Double → Bool
  /-- `std::to_string`. -/
  to_string : Double → Str
  /-- `ss << d`. -/
  stream : Double → Str
  /-- `std::regex_search` for a pattern; nothing when the pattern is a `regex_error`. -/
  regex_search : Str → Str → Option Bool
  minify : Json → Str

end Siesta.JsonSchema
