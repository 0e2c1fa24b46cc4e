import Siesta.Frontend.OpenApi
import Siesta.IR.Endpoint
import Siesta.Lib.Slots
import Siesta.Lib.Table

/-!
# Reading the endpoints: `generator/src/IR/EndpointIR.cpp`

`parseEndpoints` walks the paths once and records every operation (`ColOp`), and collects the
parameters of the path items in one table.  Then it builds an endpoint from each recorded operation
and that table.
-/

namespace Siesta

open Lib JsonObject

/-! ### Parameters and their types -/

namespace JsonObject

section

variable (ir : InvalidRead)

def name (o : JsonObject) : Except Fault Str := stringField ir o "name".toList
def location (o : JsonObject) : Except Fault Str := stringField ir o "in".toList
def required (o : JsonObject) : Except Fault Bool := boolField ir o "required".toList
def schema (o : JsonObject) : Except Fault JsonObject := objectField ir o "schema".toList
def summary (o : JsonObject) : Except Fault Str := stringField ir o "summary".toList
def parameters (o : JsonObject) : Except Fault (List Json) := listField ir o "parameters".toList
def requestBody (o : JsonObject) : Except Fault JsonObject := objectField ir o "requestBody".toList
def content (o : JsonObject) : Except Fault (List (Str × Json)) := mapField ir o "content".toList

end

end JsonObject

section

variable (ir : InvalidRead)

/-- The C++ type `schemaToCppType` writes for a type and a format. -/
def cppTypeOf (type format : Str) : Str :=
  if type = "integer".toList then
    if format = "int32".toList then "int32_t".toList
    else if format = "uint32".toList then "uint32_t".toList
    else if format = "uint64".toList then "uint64_t".toList
    else "int64_t".toList
  else if type = "number".toList then
    if format = "float".toList then "float".toList else "double".toList
  else if type = "boolean".toList then "bool".toList
  else if type = "array".toList then "std::vector<boost::json::value>".toList
  else "std::string".toList

/-- `schemaToCppType`. -/
def schemaToCppType (schema : JsonObject) : Except Fault Str := do
  if ← schema.isRef ir then
    let ref ← schema.ref ir
    return refComponentName ref
  else
    let type ← schema.type ir
    let format ← schema.format ir
    return cppTypeOf type format

/-- A parameter of `components.parameters`. -/
def fetchParameter (p_obj : JsonObject) : Except Fault ClientParam := do
  let name ← p_obj.name ir
  let location ← p_obj.location ir
  let required ← p_obj.required ir
  let description ← p_obj.description ir
  let schema ← p_obj.schema ir
  let schema_type ← schema.type ir
  let format ← schema.format ir
  let cpp_type ← schemaToCppType ir schema
  return { name, wire_name := name, location, required, description, schema_type, format, cpp_type }

/-- What the `try` block of `resolveParameter` fills in; an exception keeps what has been read. -/
def readParameter (raw_param : JsonObject) : Except Fault ClientParam := do
  let name ← raw_param.name ir
  let description ← raw_param.description ir
  let schema ← raw_param.schema ir
  let cp : ClientParam := { name, wire_name := name, description }
  tryCatch
    (do
      let schema_type ← schema.type ir
      let format ← schema.format ir
      let cpp_type ← schemaToCppType ir schema
      let is_string_type := decide ("string".toList <:+: cpp_type)
      let is_vector_type := decide ("vector".toList <:+: cpp_type)
      return { cp with
        schema_type, format, cpp_type, is_string_type, is_vector_type
        is_vector_string_type := is_vector_type && is_string_type })
    fun
    | .exception => return cp
    | fault => throw fault

/-- `resolveParameter`: a `$ref` that is found in the components is taken as it was read there. -/
def resolveParameter (raw_param : JsonObject) (fetched_params : Table Str ClientParam) :
    Except Fault ClientParam := do
  let ref ← raw_param.ref ir
  match (if ref.isEmpty then none else fetched_params.find (refComponentName ref)) with
  | some cp => return cp
  | none =>
    let cp ← readParameter ir raw_param
    let location ← raw_param.location ir
    let required ← raw_param.required ir
    return { cp with location, required }

/-! ### The components -/

structure SchemeInfo where
  type : Str := []
  name : Str := []
  in_ : Str := []
  scheme : Str := []
  deriving DecidableEq, Repr

/-- What `parseEndpoints` has read when it comes to the paths. -/
structure EndpointContext where
  fetched_params : Table Str ClientParam
  body_schema_names : Table Str Str
  security_schemes : Table Str SchemeInfo
  has_global_security : Bool

/-- The C++ type of the first media type of a body of the components. -/
def bodySchemaName (b_obj : JsonObject) : Except Fault (Option Str) := do
  match ← b_obj.content ir with
  | [] => return none
  | (_, mt) :: _ =>
    let schema ← (ofMember mt).schema ir
    if ← schema.isRef ir then
      let ref ← schema.ref ir
      return some (refComponentName ref)
    else
      let cpp_type ← schemaToCppType ir schema
      return some cpp_type

def readScheme (scheme : JsonObject) : Except Fault SchemeInfo := do
  let type ← stringField ir scheme "type".toList
  if type = "apiKey".toList then
    let name ← scheme.name ir
    let in_ ← scheme.location ir
    return { type, name, in_ }
  else if type = "http".toList then
    let scheme ← stringField ir scheme "scheme".toList
    return { type, scheme }
  else return { type }

/-- The first half of `parseEndpoints`. -/
def readContext (spec : JsonObject) : Except Fault EndpointContext := do
  let components ← objectField ir spec "components".toList
  let comp_params_raw ← mapField ir components "parameters".toList
  let fetched_params ← comp_params_raw.foldlM (fun fetched p => do
    let cp ← fetchParameter ir (ofMember p.2)
    return fetched.set p.1 cp) (∅ : Table Str ClientParam)
  let comp_bodies_raw ← mapField ir components "requestBodies".toList
  let body_schema_names ← comp_bodies_raw.foldlM (fun names b => do
    match ← bodySchemaName ir (ofMember b.2) with
    | some name => return names.set b.1 name
    | none => return names) (∅ : Table Str Str)
  let schemes ← mapField ir components "securitySchemes".toList
  let security_schemes ← schemes.foldlM (fun schemes e => do
    let info ← readScheme ir (ofMember e.2)
    return schemes.set e.1 info) (∅ : Table Str SchemeInfo)
  let has_global_security ← spec.hasKey ir "security".toList
  return { fetched_params, body_schema_names, security_schemes, has_global_security }

/-! ### The paths -/

/-- What is recorded of an operation. -/
structure ColOp where
  path : Str
  method : Str
  summary : Str := []
  description : Str := []
  op_params : List ClientParam := []
  hasRequestBody : Bool := false
  bodyType : Str := []
  bodyContentType : Str := []
  /-- The component a `$ref` body names (`bodyRef`). -/
  bodyRef : Option Str := none
  hasOpSecurity : Bool := false
  deriving DecidableEq, Repr

/-- The request body of an operation, written into its record. -/
def readBody (req_body : JsonObject) (co : ColOp) : Except Fault ColOp := do
  if req_body.isNone then return co
  else
    let co := { co with hasRequestBody := true }
    let ref ← stringField ir req_body "$ref".toList
    if !ref.isEmpty then return { co with bodyRef := some (refComponentName ref) }
    else
      match ← req_body.content ir with
      | [] => return co
      | (ct, mt) :: _ =>
        let schema ← (ofMember mt).schema ir
        let bodyType ← if schema.isSome then schemaToCppType ir schema else pure []
        let bodyType := if bodyType.isEmpty then "std::string".toList else bodyType
        return { co with bodyContentType := ct, bodyType }

/-- The parameters of a list. -/
def resolveParameters (fetched_params : Table Str ClientParam) (items : List Json) :
    Except Fault (List ClientParam) :=
  items.mapM fun item => do
    let raw_param ← ofElement item
    resolveParameter ir raw_param fetched_params

/-- One member of a path item. -/
def readOperation (fetched_params : Table Str ClientParam) (path method : Str) (op_obj : JsonObject) :
    Except Fault ColOp := do
  let summary ← op_obj.summary ir
  let description ← op_obj.description ir
  let op_params_list ← op_obj.parameters ir
  let op_params ← resolveParameters ir fetched_params op_params_list
  let req_body ← op_obj.requestBody ir
  let co ← readBody ir req_body { path, method, summary, description, op_params }
  let hasOpSecurity ← op_obj.hasKey ir "security".toList
  return { co with hasOpSecurity }

/-- A path item: its parameters, and what `operations()` ranges over, which is every member. -/
def readPathItem (fetched_params : Table Str ClientParam) (entry : Str × Json) :
    Except Fault (List ClientParam × List ColOp) := do
  let path_obj := ofMember entry.2
  let path_params_list ← path_obj.parameters ir
  let path_params ← resolveParameters ir fetched_params path_params_list
  let ops ← (path_obj.getD []).mapM fun op =>
    readOperation ir fetched_params entry.1 op.1 (ofMember op.2)
  return (path_params, ops)

/-- One turn of the loop over the paths: the table of path parameters is that of all path items. -/
def collectPath (fetched_params : Table Str ClientParam) (acc : Table Str ClientParam × List ColOp)
    (entry : Str × Json) : Except Fault (Table Str ClientParam × List ColOp) := do
  let (path_params, ops) ← readPathItem ir fetched_params entry
  return (path_params.foldl (fun path_params_map cp => path_params_map.set cp.name cp) acc.1, acc.2 ++ ops)

end

/-! ### The endpoints -/

/-- `tolower`, on every character. -/
def toLower (s : Str) : Str := s.map Char.toLower

/-- The loop that fills `op_overrides`, the last parameter of each name, and `param_order`, the names of
the path items' parameters and then the new ones. -/
def mergeParams (ho : HashOrders) (path_params_map : Table Str ClientParam)
    (op_params : List ClientParam) : Table Str ClientParam × List Str :=
  op_params.foldl (fun acc cp =>
      (acc.1.set cp.name cp,
        if cp.name ∉ path_params_map ∧ cp.name ∉ acc.1 then acc.2 ++ [cp.name] else acc.2))
    (∅, (ho.iter .pathParams path_params_map.entries).map Sigma.fst)

/-- `lookup`: an operation's own parameter comes first. -/
def lookupParam (path_params_map op_overrides : Table Str ClientParam) (name : Str) :
    Option ClientParam :=
  (op_overrides.find name).or (path_params_map.find name)

/-- The locations of parameters that are kept, in their order. -/
def paramLocations : List Str := ["path", "query", "header"].map String.toList

/-- `ordered`. -/
def orderedParams (ho : HashOrders) (path_params_map : Table Str ClientParam)
    (op_params : List ClientParam) : List ClientParam :=
  let (op_overrides, param_order) := mergeParams ho path_params_map op_params
  paramLocations.flatMap fun location =>
    param_order.filterMap fun name =>
      (lookupParam path_params_map op_overrides name).filter (·.location = location)

/-- The path template: `{}` in place of every `{name}` of a path parameter. -/
def buildTemplate (path : Str) (params : List ClientParam) : Str :=
  (params.filter (·.location = "path".toList)).foldl (fun tmpl pp => emptySlots tmpl pp.name) path

/-- The authentication of an endpoint: that of the first security scheme the table is walked in. -/
def endpointAuth (ho : HashOrders) (ctx : EndpointContext) (hasOpSecurity : Bool) : AuthType × Str :=
  if hasOpSecurity || ctx.has_global_security then
    match ho.iter .securitySchemes ctx.security_schemes.entries with
    | [] => (.None, [])
    | ⟨_, info⟩ :: _ =>
      if info.type = "apiKey".toList ∧ info.in_ = "header".toList then (.ApiKey, info.name)
      else if info.type = "http".toList ∧ info.scheme = "bearer".toList then
        (.HttpBearer, "Authorization".toList)
      else (.None, [])
  else (.None, [])

/-- The request body of an endpoint: whether there is one, its type and its content type. -/
def endpointBody (ctx : EndpointContext) (co : ColOp) : Bool × Str × Str :=
  if co.hasRequestBody then
    match co.bodyRef with
    | some ref_comp =>
      match ctx.body_schema_names.find ref_comp with
      | some body_type => (true, body_type, [])
      | none => (false, [], [])
    | none => (true, co.bodyType, co.bodyContentType)
  else (false, [], [])

/-- The endpoint of a recorded operation. -/
def endpointOf (ho : HashOrders) (ctx : EndpointContext) (path_params_map : Table Str ClientParam)
    (co : ColOp) : Endpoint :=
  let method := toLower co.method
  let params := (orderedParams ho path_params_map co.op_params).map fun p =>
    { p with name := sanitizeParamName p.name }
  let (has_request_body, body_type, body_content_type) := endpointBody ctx co
  let (auth_type, auth_header_name) := endpointAuth ho ctx co.hasOpSecurity
  { method
    path := co.path
    path_template := buildTemplate co.path params
    function_name := generateFunctionName method co.path
    summary := co.summary
    description := co.description
    cpp_verb := cppVerb method
    params
    has_request_body
    body_type
    body_content_type
    auth_type
    auth_header_name }

/-- The operations that become endpoints. -/
def isEndpoint (co : ColOp) : Bool := isSupportedMethod (toLower co.method)

/-- `parseEndpoints`. -/
def parseEndpoints (ir : InvalidRead) (ho : HashOrders) (spec : JsonObject) :
    Except Fault (List Endpoint) := do
  let ctx ← readContext ir spec
  let paths ← mapField ir spec "paths".toList
  let (path_params_map, collected) ← paths.foldlM (collectPath ir ctx.fetched_params) (∅, [])
  return (collected.filter isEndpoint).map (endpointOf ho ctx path_params_map)

end Siesta
