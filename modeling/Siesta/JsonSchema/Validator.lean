import Siesta.JsonSchema.SchemaCompiler
import Siesta.Lib.Record
import Mathlib.Algebra.Group.Nat.Defs

/-!
# Validating an instance: `validate`, `validate_node`

`validate_node` says what a node does with an instance, as a check in the sense of `Lib.Checks`: it
reports errors, calls itself, reads and writes the evaluation context, and tries subschemas.  The
trials of the source remember the size of the error list and shrink it again, which is `attempt`.
-/

namespace Siesta.JsonSchema

open Lib

/-! ### Elements -/

/-- `simdjson::dom::element_type`. -/
inductive ElementType where
  | ARRAY | OBJECT | INT64 | UINT64 | DOUBLE | STRING | BOOL | NULL_VALUE
  deriving DecidableEq

/-- `type()`. -/
def elementType : Json → ElementType
  | .arr _ => .ARRAY
  | .obj _ => .OBJECT
  | .int i => if i < 2 ^ 63 then .INT64 else .UINT64
  | .double _ => .DOUBLE
  | .str _ => .STRING
  | .bool _ => .BOOL
  | .null => .NULL_VALUE

/-- `get(double&)`. -/
def get_double (P : Platform) : Json → Option P.Double
  | .int i => some (P.ofInt i)
  | .double text => some (P.ofText text)
  | _ => none

/-- `static_cast<size_t>`. -/
def size_t (i : ℤ) : ℕ := (i % 2 ^ 64).toNat

/-- `std::to_string` of an integer. -/
def intText (i : ℤ) : Str := (Int.repr i).toList

def sizeText (n : ℕ) : Str := (Nat.repr n).toList

/-- The texts of a message, one after the other. -/
def quoted (s : Str) : Str := '"' :: s ++ ['"']

mutual

/-- `json_equal`. -/
def json_equal (P : Platform) : Json → Json → Bool
  | .arr items, b =>
    match b with
    | .arr items' => itemsEqual P items items'
    | _ => false
  | .obj members, b =>
    match b with
    | .obj members' => membersEqual P members members'
    | _ => false
  | .str s, b => b.get_string = some s
  | .bool x, b => b.get_bool = some x
  | .null, b => elementType b = .NULL_VALUE
  | .int i, b =>
    match b with
    | .int j => elementType (.int i) = elementType (.int j) && P.near (P.ofInt i) (P.ofInt j)
    | _ => false
  | .double t, b =>
    match b with
    | .double t' => P.near (P.ofText t) (P.ofText t')
    | _ => false

/-- The loop over two arrays. -/
def itemsEqual (P : Platform) : List Json → List Json → Bool
  | [], items' => items'.isEmpty
  | x :: items, items' =>
    match items' with
    | [] => false
    | y :: items' => json_equal P x y && itemsEqual P items items'

/-- The loop over the first of two objects, which looks its members up in the second. -/
def membersEqual (P : Platform) : List (Str × Json) → List (Str × Json) → Bool
  | [], _ => true
  | (key, x) :: members, members' =>
    match Record.find members' key with
    | none => false
    | some y => json_equal P x y && membersEqual P members members'

end

/-- `type_to_string`. -/
def type_to_string (x : Json) : Str :=
  match elementType x with
  | .ARRAY => "array".toList
  | .OBJECT => "object".toList
  | .INT64 | .UINT64 => "integer".toList
  | .DOUBLE => "number".toList
  | .STRING => "string".toList
  | .BOOL => "boolean".toList
  | .NULL_VALUE => "null".toList

/-- `check_type_match`. -/
def check_type_match (P : Platform) (x : Json) (type_str : Str) : Bool :=
  match x with
  | .arr _ => type_str = "array".toList
  | .obj _ => type_str = "object".toList
  | .str _ => type_str = "string".toList
  | .bool _ => type_str = "boolean".toList
  | .null => type_str = "null".toList
  | .int _ => type_str = "integer".toList || type_str = "number".toList
  | .double text =>
    type_str = "number".toList || (type_str = "integer".toList && P.floor_eq (P.ofText text))

/-- What the messages of `enum` and `const` show of a value. -/
def shown (P : Platform) (x : Json) : Str :=
  match x with
  | .str s => quoted s
  | .int i => intText i
  | .double text => P.stream (P.ofText text)
  | .bool b => if b then "true".toList else "false".toList
  | _ => '<' :: type_to_string x ++ ['>']

/-- What stands after the last slash of a node's URI. -/
def lastSegment (uri : SchemaURI) : Str := (afterLast '/' uri.to_string).getD uri.to_string

/-! ### The keywords that do not call -/

/-- A call of `validate_node`. -/
structure Call where
  node : SchemaNode
  element : Json
  schema_location : Str

abbrev Statement : Type := Check Call ValidationError EvaluationContext Abort

/-- `errors_.emplace_back(InstanceLocation(), schema_location, message)`. -/
def emplaceError (schema_location message : Str) : Statement :=
  .report { schema_uri := schema_location, message }

/-- An error unless a condition holds. -/
def require (ok : Bool) (schema_location message : Str) : Statement :=
  if ok then .done else emplaceError schema_location message

section Leaves

variable (P : Platform) (value x : Json) (loc : Str)

def validateType : Statement :=
  match value with
  | .str type_str =>
    require (check_type_match P x type_str) loc
      ("Type mismatch: expected ".toList ++ quoted type_str ++ ", got ".toList ++ quoted (type_to_string x))
  | .arr types =>
    require (types.any fun t => t.get_string.any (check_type_match P x)) loc
      ("Type mismatch: expected one of array types, got ".toList ++ quoted (type_to_string x))
  | _ => .done

def validateEnum : Statement :=
  match value with
  | .arr values =>
    require (values.any (json_equal P x)) loc
      ("Value not in enum: allowed values are [".toList ++
        List.intercalate ", ".toList (values.map (shown P)) ++ "]".toList)
  | _ => .fault .exception

def validateConst : Statement :=
  require (json_equal P x value) loc
    ("Value does not match const: expected ".toList ++ shown P value ++ ", got ".toList ++ type_to_string x)

def validateMultipleOf : Statement :=
  match get_double P value, get_double P x with
  | some divisor, some v =>
    require (!(P.nonzero divisor && P.not_multiple v divisor)) loc
      ("Value ".toList ++ P.to_string v ++ " is not a multiple of ".toList ++ P.to_string divisor)
  | _, _ => .done

/-- The bounds on a number: which values violate the bound, and how the message puts it. -/
def validateBound (violates : P.Double → P.Double → Bool) (text : String) : Statement :=
  match get_double P value, get_double P x with
  | some bound, some v =>
    require (!violates v bound) loc ("Value ".toList ++ P.to_string v ++ text.toList ++ P.to_string bound)
  | _, _ => .done

def validateMaximum : Statement :=
  validateBound P value x loc (fun v bound => P.lt bound v) " exceeds maximum of "

def validateMinimum : Statement :=
  validateBound P value x loc (fun v bound => P.lt v bound) " is below minimum of "

def validateExclusiveMaximum : Statement :=
  validateBound P value x loc (fun v bound => P.le bound v) " must be less than exclusiveMaximum of "

def validateExclusiveMinimum : Statement :=
  validateBound P value x loc (fun v bound => P.le v bound) " must be greater than exclusiveMinimum of "

def validateMaxLength : Statement :=
  match value.get_int64, x.get_string with
  | some limit, some str =>
    require (¬ (str.length : ℤ) > limit) loc
      ("String length ".toList ++ sizeText str.length ++ " exceeds maxLength of ".toList ++ intText limit)
  | _, _ => .done

def validateMinLength : Statement :=
  match value.get_int64, x.get_string with
  | some limit, some str =>
    require (¬ (str.length : ℤ) < limit) loc
      ("String length ".toList ++ sizeText str.length ++ " is below minLength of ".toList ++ intText limit)
  | _, _ => .done

/-- The message of `validate_pattern`, if there is one. -/
def patternError (pattern str : Str) : Option Str :=
  let matched := (P.regex_search pattern str).getD (pattern <:+: str)
  if matched then none
  else some ("String ".toList ++ quoted str ++ " does not match pattern /".toList ++ pattern ++ "/".toList)

def validatePattern : Statement :=
  match value.get_string, x.get_string with
  | some pattern, some str => (patternError P pattern str).elim .done (emplaceError loc)
  | _, _ => .done

/-- The bounds on the number of items or members. -/
def validateCount (count : Option ℕ) (exceeded : ℕ → ℕ → Bool) (subject text : String) (unit : String) :
    Statement :=
  match value.get_int64, count with
  | some limit, some count =>
    require (!exceeded count (size_t limit)) loc
      (subject.toList ++ sizeText count ++ unit.toList ++ text.toList ++ intText limit)
  | _, _ => .done

def validateMaxItems : Statement :=
  validateCount value loc (x.if_array.map List.length) (fun count limit => count > limit)
    "Array length " " exceeds maxItems of " ""

def validateMinItems : Statement :=
  validateCount value loc (x.if_array.map List.length) (fun count limit => count < limit)
    "Array length " " is below minItems of " ""

def validateMaxProperties : Statement :=
  validateCount value loc (x.if_object.map List.length) (fun count limit => count > limit)
    "Object has " ", exceeds maxProperties of " " properties"

def validateMinProperties : Statement :=
  validateCount value loc (x.if_object.map List.length) (fun count limit => count < limit)
    "Object has " ", below minProperties of " " properties"

/-- The index of the first text that has been seen before. -/
def firstDuplicate : List Str → List Str → ℕ → Option ℕ
  | _, [], _ => none
  | seen, s :: rest, index => if s ∈ seen then some index else firstDuplicate (s :: seen) rest (index + 1)

def validateUniqueItems : Statement :=
  match value, x with
  | .bool true, .arr items =>
    match firstDuplicate [] (items.map P.minify) 0 with
    | some index => emplaceError loc ("Array contains duplicate items at index ".toList ++ sizeText index)
    | none => .done
  | _, _ => .done

def noteMaxContains : Statement :=
  match value.get_int64 with
  | some limit => .note fun ctx => { ctx with max_contains_count := size_t limit }
  | none => .done

def noteMinContains : Statement :=
  match value.get_int64 with
  | some limit => .note fun ctx => { ctx with min_contains_count := size_t limit }
  | none => .done

/-- The error for a required name, when the instance does not have it. -/
def requireName (members : Record Str Json) (req : Json) : Statement :=
  match req.get_string with
  | some req_name =>
    require (members.find req_name).isSome loc ("Missing required property: ".toList ++ req_name)
  | none => .done

def validateRequired : Statement :=
  match x with
  | .obj members =>
    match value with
    | .arr names => .all (names.map (requireName loc members))
    | _ => .fault .exception
  | _ => .done

/-- `dependentRequired` for one of its nodes: the names are those of the nodes two levels below. -/
def dependentNames (members : Record Str Json) (child : SchemaNode) : Statement :=
  let dep_name := lastSegment child.uri
  match members.find dep_name, child.children with
  | some _, grandchild :: _ =>
    .all <| grandchild.children.map fun req_prop =>
      let req_name := lastSegment req_prop.uri
      require (members.find req_name).isSome loc
        ("Missing required property '".toList ++ req_name ++ "' due to dependency '".toList ++ dep_name ++
          "'".toList)
  | _, _ => .done

def validateDependentRequired (children : List SchemaNode) : Statement :=
  match x with
  | .obj members => .all (children.map (dependentNames loc members))
  | _ => .done

/-- What `propertyNames` checks for a member: a string `str` under `key`, against one node. -/
def nameErrors (key str : Str) (subchild : SchemaNode) : Except Abort (List ValidationError) :=
  let error (message : Str) : ValidationError := { schema_uri := subchild.uri.to_string, message }
  let name := "Property name ".toList ++ quoted key
  match subchild.keyword with
  | .Pattern =>
    match subchild.value.get_string with
    | some pattern => .ok ((patternError P pattern str).toList.map error)
    | none => .ok []
  | .MaxLength =>
    match subchild.value.get_int64 with
    | some limit =>
      .ok (if (str.length : ℤ) > limit then
        [error (name ++ " (length ".toList ++ sizeText str.length ++ ") exceeds maxLength of ".toList ++
          intText limit)]
        else [])
    | none => .ok []
  | .MinLength =>
    match subchild.value.get_int64 with
    | some limit =>
      .ok (if (str.length : ℤ) < limit then
        [error (name ++ " (length ".toList ++ sizeText str.length ++ ") is below minLength of ".toList ++
          intText limit)]
        else [])
    | none => .ok []
  | .Const =>
    match subchild.value.get_string with
    | some const_val =>
      .ok (if str ≠ const_val then [error (name ++ " does not match const ".toList ++ quoted const_val)] else [])
    | none => .ok []
  | .Enum =>
    match subchild.value with
    | .arr values =>
      .ok (if values.any fun v => v.get_string = some str then [] else [error (name ++ " not in enum".toList)])
    | _ => .error .exception
  | _ => .ok []

/-- `propertyNames` for one member. -/
def validateName (child : SchemaNode) (member : Str × Json) : Statement :=
  match member.2 with
  | .str str =>
    match child.children.mapM (nameErrors P member.1 str) with
    | .error a => .fault a
    | .ok errors =>
      let errors := errors.flatten
      .seq (.all (errors.map .report)) <|
        require errors.isEmpty loc
          ("Property name ".toList ++ quoted member.1 ++ " does not match propertyNames schema".toList)
  | _ => .done

def validatePropertyNames (children : List SchemaNode) : Statement :=
  match x, children with
  | .obj members, child :: _ => .all (members.map (validateName P loc child))
  | _, _ => .done

/-- The default case. -/
def validateDefault : Statement :=
  match value with
  | .bool accepts => require accepts loc "Value does not match schema (schema is false)".toList
  | _ => .done

end Leaves

/-! ### The keywords that call -/

/-- `validate_node(child, x, child.uri.to_string(), ..)`. -/
def visit (x : Json) (child : SchemaNode) : Statement := .call ⟨child, x, child.uri.to_string⟩

/-- The loop over all children. -/
def visitAll (x : Json) (children : List SchemaNode) : Statement := .all (children.map (visit x))

section Calls

variable (P : Platform) (c : SchemaCompiler) (x : Json) (loc : Str) (children : List SchemaNode)

/-- The alternatives in their order, up to the first that accepts.  The source drops the errors of the
failed ones together, after the loop. -/
def validateAnyOf : List SchemaNode → Statement
  | [] => emplaceError loc "Value does not match any of the anyOf schemas".toList
  | child :: children =>
    .attempt (visit x child) fun matched => if matched then .done else validateAnyOf children

/-- The alternatives, with the number of those that have accepted. -/
def validateOneOf : List SchemaNode → ℕ → Statement
  | [], found =>
    require (found = 1) loc
      ("Value must match exactly one of the oneOf schemas".toList ++ " (matched ".toList ++ sizeText found ++
        if found = 0 then ")".toList else ", expected 1)".toList)
  | child :: children, found =>
    .attempt (visit x child) fun matched => validateOneOf children (if matched then found + 1 else found)

def validateNot : Statement :=
  match children with
  | [] => .done
  | child :: _ =>
    .attempt (visit x child) fun matched =>
      if matched then emplaceError loc "Value must not match the \"not\" schema".toList else .done

/-- The last of the siblings with a keyword. -/
def lastWith (kw : Keyword) (siblings : List SchemaNode) : Option SchemaNode :=
  (siblings.filter fun n => n.keyword = kw).getLast?

/-- `if`, whose `then` and `else` are found through the parent. -/
def validateIf (parent : Parent) : Statement :=
  match children with
  | [] => .done
  | child :: _ =>
    .attempt (visit x child) fun if_matched =>
      match parent with
      | .null => .done
      | .destroyed => .fault .badPointer
      | .root =>
        match lastWith (if if_matched then .Then else .Else) c.root_node_.children with
        | some branch => visit x branch
        | none => .done

/-- A property of the instance has been evaluated. -/
def evaluateProperty (name : Str) : Statement :=
  .note fun ctx => { ctx with evaluated_properties := insert name ctx.evaluated_properties }

/-- An item of the instance has been evaluated. -/
def evaluateItem : Statement :=
  .note fun ctx => { ctx with evaluated_items := ctx.evaluated_items ++ [true] }

/-- `properties` for one of its nodes. -/
def validateProperty (members : Record Str Json) (child : SchemaNode) : Statement :=
  let prop_name := lastSegment child.uri
  match members.find prop_name with
  | none => .done
  | some prop_value => .seq (visitAll prop_value child.children) (evaluateProperty prop_name)

def validateProperties : Statement :=
  match x with
  | .obj members => .all (children.map (validateProperty members))
  | _ => .done

/-- `patternProperties` for one of its nodes and one member. -/
def validatePatternMember (child : SchemaNode) (member : Str × Json) : Statement :=
  let pattern_name := lastSegment child.uri
  if (P.regex_search pattern_name member.1).getD (pattern_name <:+: member.1) then
    .seq (visitAll member.2 child.children) (evaluateProperty member.1)
  else .done

def validatePatternProperties : Statement :=
  match x with
  | .obj members => .all (children.map fun child => .all (members.map (validatePatternMember P child)))
  | _ => .done

/-- `additionalProperties` and `unevaluatedProperties`. -/
def validateOtherProperties : Statement :=
  match x, children with
  | .obj members, child :: _ =>
    .all (members.map fun member =>
      .skipIf (fun ctx => member.1 ∈ ctx.evaluated_properties) (visit member.2 child))
  | _, _ => .done

def validateItems : Statement :=
  match x, children with
  | .arr items, child :: _ => .all (items.map fun item => .seq (visit item child) evaluateItem)
  | _, _ => .done

/-- `prefixItems`: the last node is taken for the items after it. -/
def validatePrefixItems : Statement :=
  match x with
  | .arr items =>
    .all (items.zipIdx.map fun (item, index) =>
      .seq ((children[index]?.or children.getLast?).elim .done (visit item)) evaluateItem)
  | _ => .done

/-- The loop of `contains`, with the number of items that have matched. -/
def countMatches (child : SchemaNode) : List Json → ℕ → Statement
  | [], match_count =>
    require (¬ match_count < 1) loc
      "Array does not contain any items matching the \"contains\" schema".toList
  | item :: items, match_count =>
    .attempt (visit item child) fun matched =>
      countMatches child items (if matched then match_count + 1 else match_count)

def validateContains : Statement :=
  match x, children with
  | .arr items, child :: _ => countMatches loc child items 0
  | _, _ => .done

def validateRef (value : Json) : Statement :=
  match value.get_string with
  | none => .done
  | some ref_target =>
    match c.find_ref ref_target with
    | some (.node target) => visit x target
    | some .destroyed => .fault .badPointer
    | none => emplaceError loc ("Cannot resolve $ref: ".toList ++ ref_target)

def validateDependentSchemas : Statement :=
  match x with
  | .obj members =>
    .all (children.map fun child =>
      if (Record.find members (lastSegment child.uri)).isSome then visitAll x child.children else .done)
  | _ => .done

/-- `additionalItems`, which counts the children of the parent. -/
def validateAdditionalItems (parent : Parent) : Statement :=
  match x, children with
  | .arr items, child :: _ =>
    .all (items.zipIdx.map fun (item, index) =>
      match parent with
      | .root => if index ≥ c.root_node_.children.length then visit item child else .done
      | _ => .fault .badPointer)
  | _, _ => .done

def validateUnevaluatedItems : Statement :=
  match x, children with
  | .arr items, child :: _ =>
    .all (items.zipIdx.map fun (item, index) =>
      .skipIf (fun ctx => ctx.evaluated_items.getD index false) (visit item child))
  | _, _ => .done

end Calls

/-- `validate_node`. -/
def validate_node (P : Platform) (c : SchemaCompiler) (f : Call) : Statement :=
  let node := f.node
  let x := f.element
  let loc := f.schema_location
  match node.keyword with
  | .Schema => visitAll x node.children
  | .Type_ => validateType P node.value x loc
  | .Enum => validateEnum P node.value x loc
  | .Const => validateConst P node.value x loc
  | .MultipleOf => validateMultipleOf P node.value x loc
  | .Maximum => validateMaximum P node.value x loc
  | .Minimum => validateMinimum P node.value x loc
  | .ExclusiveMaximum => validateExclusiveMaximum P node.value x loc
  | .ExclusiveMinimum => validateExclusiveMinimum P node.value x loc
  | .MaxLength => validateMaxLength node.value x loc
  | .MinLength => validateMinLength node.value x loc
  | .Pattern => validatePattern P node.value x loc
  | .MaxItems => validateMaxItems node.value x loc
  | .MinItems => validateMinItems node.value x loc
  | .UniqueItems => validateUniqueItems P node.value x loc
  | .MaxContains => noteMaxContains node.value
  | .MinContains => noteMinContains node.value
  | .MaxProperties => validateMaxProperties node.value x loc
  | .MinProperties => validateMinProperties node.value x loc
  | .Required => validateRequired node.value x loc
  | .AllOf => visitAll x node.children
  | .AnyOf => validateAnyOf x loc node.children
  | .OneOf => validateOneOf x loc node.children 0
  | .Not => validateNot x loc node.children
  | .If => validateIf c x node.children node.parent
  | .Properties => validateProperties x node.children
  | .AdditionalProperties => validateOtherProperties x node.children
  | .Items => validateItems x node.children
  | .PrefixItems => validatePrefixItems x node.children
  | .Contains => validateContains x loc node.children
  | .Ref => validateRef c x loc node.value
  | .PatternProperties => validatePatternProperties P x node.children
  | .DependentRequired => validateDependentRequired x loc node.children
  | .DependentSchemas => validateDependentSchemas x node.children
  | .PropertyNames => validatePropertyNames P x loc node.children
  | .AdditionalItems => validateAdditionalItems c x node.children node.parent
  | .UnevaluatedProperties => validateOtherProperties x node.children
  | .UnevaluatedItems => validateUnevaluatedItems x node.children
  | _ => validateDefault node.value loc

/-! ### `validate` -/

/-- The call for the root. -/
def rootCall (c : SchemaCompiler) (x : Json) : Call := ⟨c.root_node_, x, "#".toList⟩

/-- The root visits the nodes under it. -/
theorem validate_node_root {P : Platform} {c : SchemaCompiler} (h : c.root_node_.keyword = .Schema) (x : Json) :
    validate_node P c (rootCall c x) = visitAll x c.root_node_.children := by
  unfold validate_node rootCall
  simp only [h]

mutual

/-- Every integer is one of 64 bits; the parser refuses the others. -/
def integersFit : Json → Bool
  | .int i => -2 ^ 63 ≤ i && i < 2 ^ 64
  | .arr items => itemsFit items
  | .obj members => membersFit members
  | _ => true

def itemsFit : List Json → Bool
  | [] => true
  | x :: items => integersFit x && itemsFit items

def membersFit : List (Str × Json) → Bool
  | [] => true
  | (_, x) :: members => integersFit x && membersFit members

end

mutual

/-- How deep arrays and objects are nested; the parser does not count empty ones. -/
def parseDepth : Json → ℕ
  | .arr [] => 0
  | .arr (x :: items) => max (parseDepth x) (itemsParseDepth items) + 1
  | .obj [] => 0
  | .obj ((_, x) :: members) => max (parseDepth x) (membersParseDepth members) + 1
  | _ => 0

def itemsParseDepth : List Json → ℕ
  | [] => 0
  | x :: items => max (parseDepth x) (itemsParseDepth items)

def membersParseDepth : List (Str × Json) → ℕ
  | [] => 0
  | (_, x) :: members => max (parseDepth x) (membersParseDepth members)

end

/-- `parser_.parse` gives the value for its text; the parser's `max_depth` is 1024. -/
def parses (x : Json) : Bool := integersFit x && parseDepth x < 1024

/-- `validate`, of an instance that could be parsed, up to the given depth of calls. -/
def validate (P : Platform) (c : SchemaCompiler) (depth : ℕ) (x : Json) : Except (Stop Abort) Bool := do
  let t ← runCalls (validate_node P c) depth (rootCall c x) ⟨[], {}⟩
  .ok t.errors.isEmpty

/-- `validate`, from the text of the instance on: what cannot be parsed is an error. -/
def validateText (P : Platform) (c : SchemaCompiler) (depth : ℕ) (x : Json) : Except (Stop Abort) Bool :=
  if parses x then validate P c depth x else .ok false

/-- `validate` returns `verdict`, for an instance that could be parsed. -/
def Returns (P : Platform) (c : SchemaCompiler) (x : Json) (verdict : Bool) : Prop :=
  ∃ depth, validate P c depth x = .ok verdict

/-- The document is compiled, and `validate` returns `verdict` for the instance. -/
def HasVerdict (P : Platform) (schema x : Json) (verdict : Bool) : Prop :=
  ∃ c, compile schema = .ok c ∧ Returns P c x verdict

/-- `compile` and then `validate`, from the texts on: what cannot be parsed is not compiled, or not valid. -/
def TextVerdict (P : Platform) (schema x : Json) (verdict : Bool) : Prop :=
  parses schema = true ∧ ∃ c depth, compile schema = .ok c ∧ validateText P c depth x = .ok verdict

theorem textVerdict_iff {P : Platform} {schema x : Json} {verdict : Bool} : TextVerdict P schema x verdict ↔
    parses schema = true ∧ ∃ c, compile schema = .ok c ∧
      if parses x = true then Returns P c x verdict else verdict = false := by
  unfold TextVerdict validateText Returns
  by_cases hx : parses x = true
  · simp [hx]
  · refine and_congr_right' (exists_congr fun c => ?_)
    simp only [if_neg hx]
    exact ⟨fun ⟨_, hc, h⟩ => ⟨hc, (Except.ok.inj h).symm⟩, fun ⟨hc, h⟩ => ⟨0, hc, by rw [h]⟩⟩

/-- `compile`, and then `validate` up to the given depth of calls. -/
def verdictUpTo (P : Platform) (depth : ℕ) (schema x : Json) : Option Bool :=
  match compile schema with
  | .ok c => (validate P c depth x).toOption
  | .error _ => none

theorem validate_eq_ok {P : Platform} {c : SchemaCompiler} {depth : ℕ} {x : Json} {verdict : Bool} :
    validate P c depth x = .ok verdict ↔
      ∃ t, runCalls (validate_node P c) depth (rootCall c x) ⟨[], {}⟩ = .ok t ∧
        t.errors.isEmpty = verdict := by
  unfold validate
  cases runCalls (validate_node P c) depth (rootCall c x) ⟨[], {}⟩ with
  | error s => simp [bind, Except.bind]
  | ok t => simp [bind, Except.bind]

theorem Returns.unique {P : Platform} {c : SchemaCompiler} {x : Json} {b b' : Bool}
    (h : Returns P c x b) (h' : Returns P c x b') : b = b' := by
  obtain ⟨depth, h⟩ := h
  obtain ⟨depth', h'⟩ := h'
  obtain ⟨t, hrun, rfl⟩ := validate_eq_ok.mp h
  obtain ⟨t', hrun', rfl⟩ := validate_eq_ok.mp h'
  have hsame := runCalls_unique (show runCalls _ depth _ _ ≠ _ by rw [hrun]; simp)
    (show runCalls _ depth' _ _ ≠ _ by rw [hrun']; simp)
  rw [hrun, hrun'] at hsame
  rw [Except.ok.inj hsame]

theorem HasVerdict.unique {P : Platform} {schema x : Json} {b b' : Bool} (h : HasVerdict P schema x b)
    (h' : HasVerdict P schema x b') : b = b' := by
  obtain ⟨c, hc, h⟩ := h
  obtain ⟨c', hc', h'⟩ := h'
  obtain rfl : c = c' := by rw [hc] at hc'; exact Except.ok.inj hc'
  exact h.unique h'

theorem hasVerdict_of_verdictUpTo {P : Platform} {depth : ℕ} {schema x : Json} {verdict : Bool}
    (h : verdictUpTo P depth schema x = some verdict) : HasVerdict P schema x verdict := by
  unfold verdictUpTo at h
  cases hc : compile schema with
  | error a => rw [hc] at h; exact absurd h (by simp)
  | ok c =>
    rw [hc] at h
    dsimp only at h
    cases hv : validate P c depth x with
    | error s => rw [hv] at h; exact absurd h (by simp [Except.toOption])
    | ok b =>
      rw [hv] at h
      exact ⟨c, hc, depth, hv.trans (congrArg Except.ok (Option.some.inj h))⟩

theorem textVerdict_of_hasVerdict {P : Platform} {schema x : Json} {verdict : Bool}
    (hschema : parses schema = true) (hx : parses x = true) (h : HasVerdict P schema x verdict) :
    TextVerdict P schema x verdict := by
  obtain ⟨c, hc, h⟩ := h
  exact textVerdict_iff.mpr ⟨hschema, c, hc, by rwa [if_pos hx]⟩

theorem TextVerdict.unique {P : Platform} {schema x : Json} {b b' : Bool} (h : TextVerdict P schema x b)
    (h' : TextVerdict P schema x b') : b = b' := by
  obtain ⟨-, c, hc, h⟩ := textVerdict_iff.mp h
  obtain ⟨-, c', hc', h'⟩ := textVerdict_iff.mp h'
  obtain rfl : c = c' := by rw [hc] at hc'; exact Except.ok.inj hc'
  by_cases hx : parses x = true
  · rw [if_pos hx] at h h'
    exact h.unique h'
  · rw [if_neg hx] at h h'
    rw [h, h']

/-- A check of the root that decides a proposition gives the verdict. -/
theorem returns_of_judges {P : Platform} {c : SchemaCompiler} {x : Json} {depth : ℕ} {holds : Prop}
    (h : Judges (runCalls (validate_node P c) depth (rootCall c x)) holds) :
    ∃ verdict, Returns P c x verdict ∧ (verdict = true ↔ holds) := by
  obtain ⟨t, new, hrun, herrors, hnew⟩ := h ⟨[], {}⟩
  refine ⟨t.errors.isEmpty, ⟨depth, validate_eq_ok.mpr ⟨t, hrun, rfl⟩⟩, ?_⟩
  rw [herrors, List.nil_append, List.isEmpty_iff, hnew]

theorem judges_require {call : Call → Tally ValidationError EvaluationContext →
      Except (Stop Abort) (Tally ValidationError EvaluationContext)} (loc : Str) (ok : Bool) (message : Str) :
    Judges ((require ok loc message).run call) (ok = true) := by
  unfold require
  split
  · rename_i h
    exact Judges.done.congr (by simp [h])
  · rename_i h
    exact (Judges.report _).congr (by simp [h])

/-! ### Nodes that constrain nothing -/

/-- The node does nothing with any value. -/
def Silent (P : Platform) (c : SchemaCompiler) (node : SchemaNode) : Prop :=
  ∀ x, validate_node P c ⟨node, x, node.uri.to_string⟩ = .done

theorem run_visit (P : Platform) (c : SchemaCompiler) (depth : ℕ) (x : Json) (node : SchemaNode)
    (t : Tally ValidationError EvaluationContext) :
    (visit x node).run (runCalls (validate_node P c) (depth + 1)) t =
      (validate_node P c ⟨node, x, node.uri.to_string⟩).run (runCalls (validate_node P c) depth) t := rfl

theorem run_visitAll_silent {P : Platform} {c : SchemaCompiler} {nodes : List SchemaNode}
    (h : ∀ node ∈ nodes, Silent P c node) (depth : ℕ) (x : Json)
    (t : Tally ValidationError EvaluationContext) :
    (visitAll x nodes).run (runCalls (validate_node P c) (depth + 1)) t = .ok t := by
  induction nodes with
  | nil => rfl
  | cons node nodes ih =>
    have hnode : (visit x node).run (runCalls (validate_node P c) (depth + 1)) t = .ok t := by
      rw [run_visit, h node (List.mem_cons_self ..) x]
      rfl
    show ((visit x node).run _ t).bind (fun t => (visitAll x nodes).run _ t) = .ok t
    rw [hnode]
    exact ih fun n hn => h n (List.mem_cons_of_mem _ hn)

/-- A node of the default case is silent when its value is an object. -/
theorem silent_of_default {P : Platform} {c : SchemaCompiler} {node : SchemaNode} {members : List (Str × Json)}
    (hkeyword : node.keyword = .Unknown ∨ node.keyword = .Defs ∨ node.keyword = .Definitions ∨
      node.keyword = .Then ∨ node.keyword = .Else)
    (hvalue : node.value = .obj members) : Silent P c node := by
  intro x
  unfold validate_node
  rcases hkeyword with h | h | h | h | h <;> simp only [h, hvalue, validateDefault]

/-- A platform for documents without fractions and patterns: a double is an integer. -/
def wholeNumbers : Platform where
  Double := ℤ
  ofInt i := i
  ofText _ := 0
  floor_eq _ := true
  near a b := a = b
  lt a b := a < b
  le a b := a ≤ b
  nonzero d := d ≠ 0
  not_multiple a b := a % b ≠ 0
  to_string := intText
  stream := intText
  regex_search pattern str := some (pattern <:+: str)
  minify _ := []

end Siesta.JsonSchema
