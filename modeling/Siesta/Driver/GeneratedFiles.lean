import Siesta.Frontend.SchemaParser
import Siesta.IR.DefsGenerator
import Siesta.IR.EndpointParser

/-!
# The driver: `generator/src/Driver/Driver.cpp`

`generateFromOpenAPI` parses the document and hands the result to the emitters, by way of two
`CodegenArgs`.  Of the files, the model has the namespaces, the declarations and the types that are
written in them; the bodies of the methods are those of the modules on the backends.  The streams are left
out, and the table that `parsePaths` fills, which nothing reads.
-/

namespace Siesta

open Lib JsonObject

/-! ### The document -/

def readDigits : Str → ℕ → ℕ
  | [], n => n
  | c :: s, n => if c.isDigit then readDigits s (10 * n + (c.toNat - '0'.toNat)) else n

/-- `std::atoi`. -/
def atoi (s : Str) : ℤ :=
  match s.dropWhile isSpace with
  | '-' :: digits => -(readDigits digits 0 : ℤ)
  | '+' :: digits => readDigits digits 0
  | digits => readDigits digits 0

/-- `MajorVersion`. -/
def majorVersion (ir : InvalidRead) (spec : JsonObject) : Except Fault ℤ := do
  let version ← getObjectIfExist ir Json.get_string [] spec "swagger".toList
  if !version.isEmpty then return atoi version
  else
    let version ← getObjectIfExist ir Json.get_string [] spec "openapi".toList
    if !version.isEmpty then return atoi version else return -1

/-- `spec.info().title()`. -/
def title (ir : InvalidRead) (spec : JsonObject) : Except Fault Str := do
  let info ← objectField ir spec "info".toList
  stringField ir info "title".toList

/-! ### The emitters -/

/-- `CodegenArgs`. -/
structure CodegenArgs where
  ast : NormalizedAST
  order : TopologicalOrder
  module_name : Str := "siesta_bindings".toList
  ns : Str := "api".toList
  endpoints : List Endpoint

/-- A parameter as it is declared: `type name`, or `std::optional<type> name`. -/
structure DeclaredParam where
  type : Str
  optional : Bool
  name : Str
  deriving DecidableEq

/-- The part of a signature that comes from the endpoint; the body is declared as `const body& body`. -/
structure Signature where
  name : Str
  body : Option Str
  params : List DeclaredParam
  deriving DecidableEq

def signatureOf (ep : Endpoint) : Signature where
  name := ep.function_name
  body := if ep.has_request_body then some ep.body_type else none
  params := ep.params.map fun p => { type := p.cpp_type, optional := !p.required, name := p.name }

/-- `BeastClientGenerator::emitMethodSignature`. -/
def emitMethodSignature (ep : Endpoint) : Signature := signatureOf ep

/-- `BeastPythonGenerator::emitEndpointWrapper`: the parameters of the lambda. -/
def emitEndpointWrapper (ep : Endpoint) : Signature := signatureOf ep

/-- `openapi_defs.hpp`. -/
structure DefsHpp where
  ns : Str
  definitions : List Emitted

/-- `client.hpp`: the class `Client` in the namespace `ns`. -/
structure ClientHpp where
  ns : Str
  methods : List Signature

/-- `py_module.cpp`: the wrappers around `qualifier::Client`. -/
structure PyModule where
  module_name : Str
  qualifier : Str
  wrappers : List Signature

/-- `server.hpp`: the class `Server` in the namespace `ns`. -/
structure ServerHpp where
  ns : Str
  handlers : List Str

/-- `server_py.cpp`: the subclass of `qualifier::Server`. -/
structure ServerPy where
  module_name : Str
  qualifier : Str
  overrides : List Str

/-- `DefsGenerator::operator()`; it does not return where `generateDefsHpp` does not. -/
def defsGenerator (ho : HashOrders) (args : CodegenArgs) : Option DefsHpp :=
  (generateDefsHpp ho args.order args.ast).map fun definitions => { ns := args.ns, definitions }

/-- `BeastClientGenerator::operator()`. -/
def beastClientGenerator (args : CodegenArgs) : Option ClientHpp :=
  if args.endpoints.isEmpty then none
  else some { ns := args.ns, methods := args.endpoints.map emitMethodSignature }

/-- `BeastPythonGenerator::operator()`. -/
def beastPythonGenerator (args : CodegenArgs) : Option PyModule :=
  if args.endpoints.isEmpty then none
  else
    some {
      module_name := args.module_name, qualifier := args.ns
      wrappers := args.endpoints.map emitEndpointWrapper }

/-- `BeastServerGenerator::operator()`. -/
def beastServerGenerator (args : CodegenArgs) : Option ServerHpp :=
  if args.endpoints.isEmpty then none
  else some { ns := args.ns, handlers := args.endpoints.map Endpoint.function_name }

/-- `BeastServerPythonGenerator::operator()`. -/
def beastServerPythonGenerator (args : CodegenArgs) : Option ServerPy :=
  if args.endpoints.isEmpty then none
  else
    some {
      module_name := args.module_name, qualifier := args.ns
      overrides := args.endpoints.map Endpoint.function_name }

/-! ### `generateFromOpenAPI` -/

inductive GenMode where
  | client | server | both
  deriving DecidableEq

def GenMode.gen_client (mode : GenMode) : Bool := mode = .client || mode = .both
def GenMode.gen_server (mode : GenMode) : Bool := mode = .server || mode = .both

/-- The files that are written. -/
structure GeneratedFiles where
  defs_hpp : DefsHpp
  client_hpp : Option ClientHpp
  py_module : Option PyModule
  server_hpp : Option ServerHpp
  server_py : Option ServerPy
  /-- The two variables of `siesta_info.cmake`. -/
  client_module : Option Str
  server_module : Option Str

/-- `std::move` out of a string, which leaves it empty: what is taken, and what is left. -/
def moveOut (s : Str) : Str × Str := (s, [])

def returned {α : Type} : Option α → Except Stop α
  | some a => .ok a
  | none => .error .outOfFuel

def reading {α : Type} (x : Except Fault α) : Except Stop α := x.mapError .fault

/-- `operations()` ranges over every member of a path item, whatever its name. -/
def operations (ir : InvalidRead) (path_obj : JsonObject) : Except Fault (List (Str × Json)) :=
  match path_obj with
  | some members => .ok members
  | none =>
    match ir with
    | .crash => .error .crash
    | .noSuchField => .ok []

/-- `parsePaths`: what it reads of each operation, and how many it counts.  The accessors are `noexcept`, so that
there is nothing to catch. -/
def parsePaths (ir : InvalidRead) (spec : JsonObject) : Except Fault ℕ := do
  let paths ← mapField ir spec "paths".toList
  let counts ← paths.mapM fun path => do
    let path_ops ← operations ir (ofMember path.2)
    let read ← path_ops.mapM fun op => do
      let op_obj := ofMember op.2
      let summary ← op_obj.summary ir
      let op_id ← stringField ir op_obj "operationId".toList
      let description ← op_obj.description ir
      return (if op_id.isEmpty then summary else op_id, description)
    return read.length
  return counts.sum

/-- `buildAST`. -/
def buildAST (ir : InvalidRead) (spec : JsonObject) : Except Stop NormalizedAST :=
  match parseSchemas ir spec {} with
  | .ok _ s => do
    let _ ← reading (parsePaths ir spec)
    return s.ast
  | .error stop _ => .error stop

/-- The end of `generateFromOpenAPI`: the two `CodegenArgs`, and the files made from them. -/
def generateFiles (ho : HashOrders) (ast : NormalizedAST) (order : TopologicalOrder)
    (endpoints : List Endpoint) (mode : GenMode) (python : Bool) (ns_override title : Str) :
    Option GeneratedFiles := do
  let module_name := sanitize title
  let module_name := if module_name.isEmpty then "siesta_bindings".toList else module_name
  let ns := if ns_override.isEmpty then module_name else ns_override
  let server_module := module_name ++ "_server".toList
  let client_mod := module_name
  let server_mod := server_module
  let (arg_module_name, _) := moveOut module_name
  let (arg_ns, ns) := moveOut ns
  let args : CodegenArgs := { ast, order, module_name := arg_module_name, ns := arg_ns, endpoints }
  let defs_hpp ← defsGenerator ho args
  let server_args : CodegenArgs := { ast, order, module_name := server_module, ns, endpoints }
  some {
    defs_hpp
    client_hpp := if mode.gen_client then beastClientGenerator args else none
    py_module := if python && mode.gen_client then beastPythonGenerator args else none
    server_hpp := if mode.gen_server then beastServerGenerator args else none
    server_py := if python && mode.gen_server then beastServerPythonGenerator server_args else none
    client_module := if python && mode.gen_client then some client_mod else none
    server_module := if python && mode.gen_server then some server_mod else none }

/-- `generateFromOpenAPI`, for a document that has been loaded: nothing, where it returns `false`. -/
def generateFromOpenAPI (ir : InvalidRead) (ho : HashOrders) (spec : JsonObject) (mode : GenMode)
    (python : Bool) (backend ns_override : Str) : Except Stop (Option GeneratedFiles) := do
  if backend ≠ "beast".toList then return none
  else
    let major_version ← reading (majorVersion ir spec)
    if major_version ≠ 3 then return none
    else
      let ast ← buildAST ir spec
      if !(ast.validate ho).isEmpty then return none
      else
        let order ← returned (sortTypes ho ast)
        if order.has_cycles then return none
        else
          -- one of `gen_client` and `gen_server` is always set
          let endpoints ← reading (parseEndpoints ir ho spec)
          let title ← reading (title ir spec)
          let files ← returned (generateFiles ho ast order endpoints mode python ns_override title)
          return some files

end Siesta
