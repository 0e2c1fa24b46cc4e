import Siesta.Support.Utils

/-!
# Endpoints: `generator/src/IR/EndpointIR.hpp`

The record every backend reads, and the pure helpers that fill it.
-/

namespace Siesta

open Lib

/-- `ClientParam`: a parameter of an endpoint.  `wire_name` is its name in the document. -/
structure ClientParam where
  name : Str := []
  wire_name : Str := []
  cpp_type : Str := []
  required : Bool := false
  description : Str := []
  location : Str := []
  schema_type : Str := []
  format : Str := []
  is_string_type : Bool := false
  is_vector_type : Bool := false
  is_vector_string_type : Bool := false
  deriving DecidableEq, Repr

inductive AuthType where
  | None | ApiKey | HttpBearer
  deriving DecidableEq, Repr

/-- `Endpoint`. -/
structure Endpoint where
  method : Str := []
  path : Str := []
  path_template : Str := []
  function_name : Str := []
  summary : Str := []
  description : Str := []
  cpp_verb : Str := []
  params : List ClientParam := []
  has_request_body : Bool := false
  body_type : Str := []
  body_content_type : Str := []
  auth_type : AuthType := .None
  auth_header_name : Str := []
  deriving DecidableEq, Repr

/-- The methods `parseEndpoints` keeps. -/
def supportedMethods : List Str :=
  ["get", "post", "put", "delete", "patch", "head", "options"].map String.toList

def isSupportedMethod (method : Str) : Bool := supportedMethods.contains method

/-- `cpp_verb`: the name of the method in `boost::beast::http::verb`. -/
def cppVerb (method : Str) : Str := if method = "delete".toList then "delete_".toList else method

/-- `refComponentName`: the last component of a reference. -/
def refComponentName (ref : Str) : Str := (afterLast '/' ref).getD ref

/-- The parameter names `sanitizeParamName` moves out of the way. -/
def renamedParams : List Str :=
  ["token", "result", "error", "next", "type", "metadata", "include", "order",
    "event_types"].map String.toList

/-- `sanitizeParamName`. -/
def sanitizeParamName (name : Str) : Str :=
  (if name ∈ renamedParams then "param_".toList ++ name else name).map fun c =>
    if c ∈ ['[', ']', '(', ')', '{', '}', '.', ','] then '_' else c

/-- One turn of the loop of `generateFunctionName` over the path: whether only slashes have been
seen, and the text written so far. -/
def functionNameStep (st : Bool × Str) (c : Char) : Bool × Str :=
  if c = '/' then (st.1, if st.1 then st.2 else st.2 ++ ['_'])
  else if c = '{' then (st.1, st.2 ++ ['_'])
  else if c = '}' then st
  else if c = ':' ∨ c = '-' then (st.1, st.2 ++ ['_'])
  else (false, st.2 ++ [c])

/-- `generateFunctionName`. -/
def generateFunctionName (method path : Str) : Str :=
  (path.foldl functionNameStep (true, method ++ ['_', '_'])).2

theorem cppVerb_injective {m n : Str} (hm : isSupportedMethod m) (hn : isSupportedMethod n)
    (h : cppVerb m = cppVerb n) : m = n := by
  have hall : ∀ a ∈ supportedMethods, ∀ b ∈ supportedMethods, cppVerb a = cppVerb b → a = b := by
    decide
  exact hall m (by simpa [isSupportedMethod] using hm) n (by simpa [isSupportedMethod] using hn) h

end Siesta
