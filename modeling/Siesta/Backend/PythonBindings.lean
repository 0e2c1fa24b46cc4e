import Siesta.IR.Endpoint
import Siesta.Lib.CppCalls

/-!
# The Python bindings: `generator/src/Backend/Beast/BeastPythonGen.cpp`

`emitModuleBody` writes one `.def(...)` for every endpoint into the statement that binds the client
class.  The brackets and commas behind the lambda of an endpoint depend on its arguments, on its
documentation and on its place in the list.
-/

namespace Siesta

open Lib Cpp

/-! ### What is written -/

/-- `AuthInfo`. -/
structure AuthInfo where
  type : AuthType := .None
  name : Str := []
  deriving DecidableEq, Repr

/-- `detectAuth`: the first endpoint that has one decides. -/
def detectAuth : List Endpoint → AuthInfo
  | [] => {}
  | ep :: endpoints =>
    if ep.auth_type ≠ .None then
      { type := ep.auth_type
        name := if ep.auth_type = .HttpBearer then "bearer_token".toList else "api_key".toList }
    else detectAuth endpoints

/-- `out << s`. -/
def out (s : String) : Piece := .code s.toList

/-- `nb::arg("...")`. -/
def nbArg (name : Piece) : List Piece := [out "nb::arg(", name, out ")"]

/-- A parameter of the lambda, with the comma in front of it. -/
def lambdaParam (param : ClientParam) : List Piece :=
  out ", " :: if !param.required then
    [out "std::optional<", .name param.cpp_type, out "> ", .name param.name]
  else [.name param.cpp_type, out " ", .name param.name]

/-- The loop that hands the parameters over, with `has_previous`. -/
def passedParams : Bool → List ClientParam → List Piece
  | _, [] => []
  | has_previous, param :: params =>
    (if has_previous then [out ", "] else []) ++ .name param.name :: passedParams true params

/-- The loop over the keyword arguments, with `first`. -/
def keywordParams : Bool → List ClientParam → List Piece
  | _, [] => []
  | first, param :: params =>
    (if !first then [out ", "] else []) ++ nbArg (.quotedName param.name) ++
      (if !param.required then [out " = nb::none()"] else []) ++ keywordParams false params

/-- `doc`. -/
def Endpoint.doc (ep : Endpoint) : Str := if ep.description.isEmpty then ep.summary else ep.description

/-- `ep.has_request_body || !ep.params.empty()`. -/
def Endpoint.hasArguments (ep : Endpoint) : Bool := ep.has_request_body || !ep.params.isEmpty

/-- `has_trailing`. -/
def Endpoint.has_trailing (ep : Endpoint) : Bool := ep.hasArguments || !ep.doc.isEmpty

def escapeDocChar (c : Char) : Str :=
  if c = '"' then ['\\', '"']
  else if c = '\\' then ['\\', '\\']
  else if c = '\n' then ['\\', 'n']
  else [c]

/-- `escaped_doc`. -/
def escapeDoc (doc : Str) : Str := doc.flatMap escapeDocChar

/-- The head of the lambda and its body, up to the brace that closes it. -/
def emitLambda (ep : Endpoint) : List Piece :=
  [out "[](ClientWrapper& self"] ++
  (if ep.has_request_body then [out ", const ", .name ep.body_type, out "& body"] else []) ++
  ep.params.flatMap lambdaParam ++
  [out ") -> nb::object \x7b\n",
    out "\t\tboost::asio::io_context& ctx = self.ctx;\n",
    out "\t\ttry \x7b\n",
    out "\t\t\tauto future = self.client->", .name ep.function_name, out "("] ++
  (if ep.has_request_body then [out "body"] else []) ++
  passedParams ep.has_request_body ep.params ++
  (if ep.hasArguments then [out ", "] else []) ++
  [out "boost::asio::use_future);\n",
    out "\t\t\tctx.restart();\n",
    out "\t\t\tctx.run();\n",
    out "\t\t\tauto outcome = future.get();\n",
    out "\t\t\treturn extract_response_json(outcome);\n",
    out "\t\t\x7d catch (const std::exception& e) \x7b\n",
    out "\t\t\tnb::dict err;\n",
    out "\t\t\terr[", .quoted "error".toList, out "] = nb::str(e.what());\n",
    out "\t\t\treturn err;\n",
    out "\t\t\x7d\n"]

/-- The keyword arguments, each list of them with a comma behind it. -/
def emitKeywords (ep : Endpoint) : List Piece :=
  if ep.hasArguments then
    out "\t\t" :: (if ep.has_request_body then nbArg (.quoted "body".toList) else []) ++
      keywordParams (!ep.has_request_body) ep.params ++ [out ",\n"]
  else []

/-- What is written behind the body of the lambda. -/
def emitTrailing (ep : Endpoint) (is_last : Bool) : List Piece :=
  (if ep.has_trailing then [out "\t\t\x7d,\n"]
    else if is_last then [out "\t\t\x7d);\n"]
    else [out "\t\t),\n"]) ++
  emitKeywords ep ++
  (if !ep.doc.isEmpty then [out "\t\t", .quoted (escapeDoc ep.doc), out "\n"] else []) ++
  (if ep.has_trailing then if is_last then [out "\t\t);\n"] else [out "\t\t)\n"] else [])

/-- `emitEndpointWrapper`. -/
def BeastPythonGenerator.emitEndpointWrapper (ep : Endpoint) (is_last : Bool) : List Piece :=
  [out "\t\t.def(", .quotedName ep.function_name, out ",\n", out "\t\t\t"] ++ emitLambda ep ++
    emitTrailing ep is_last

def emitEndpoints : List Endpoint → List Piece
  | [] => []
  | ep :: endpoints =>
    out "\n" :: BeastPythonGenerator.emitEndpointWrapper ep endpoints.isEmpty ++ emitEndpoints endpoints

/-- The first lines of the statement that binds the class. -/
def emitClassHead (auth : AuthInfo) : List Piece :=
  [out "\tnb::class_<ClientWrapper>(m, ", .quoted "Client".toList, out ")\n"] ++
  (if auth.type ≠ .None then
    [out "\t\t.def(nb::init<std::string, uint16_t, std::string>(), "] ++ nbArg (.quoted "host".toList) ++
      [out " = std::string(", .quoted "localhost".toList, out "), "] ++ nbArg (.quoted "port".toList) ++
      [out " = 443, "] ++ nbArg (.quotedName auth.name) ++ [out " = std::string(", .quoted [], out "))\n"]
  else
    [out "\t\t.def(nb::init<std::string, uint16_t>(), "] ++ nbArg (.quoted "host".toList) ++
      [out " = std::string(", .quoted "localhost".toList, out "), "] ++ nbArg (.quoted "port".toList) ++
      [out " = 443)\n"]) ++
  [out "\t\t.def(", .quoted "start".toList, out ", &ClientWrapper::start, "] ++ nbArg (.quoted "host".toList) ++
  [out ", "] ++ nbArg (.quoted "port".toList) ++ [out ")\n"] ++
  [out "\t\t.def(", .quoted "stop".toList, out ", &ClientWrapper::stop)\n"]

def emitClassBinding (endpoints : List Endpoint) : List Piece :=
  emitClassHead (detectAuth endpoints) ++ emitEndpoints endpoints

/-- The struct that the module wraps the client in. -/
def emitClientWrapper (ns_ : Str) (auth : AuthInfo) : List Piece :=
  [out "// Python extension module definition\n",
    out "// The module name should match the shared library name (e.g., Echo_API.so -> Echo_API)\n",
    out "\n",
    out "struct ClientWrapper \x7b\n",
    out "\tboost::asio::io_context ctx;\n",
    out "\tstd::shared_ptr<", .name ns_, out "::Client> client;\n"] ++
  (if auth.type ≠ .None then
    [out "\tClientWrapper(std::string host = ", .quoted "localhost".toList, out ", uint16_t port = 443, std::string ",
      .name auth.name, out " = ", .quoted [], out ")\n",
      out "\t\t: client(std::make_shared<", .name ns_, out "::Client>(ctx, std::move(", .name auth.name,
      out "))) \x7b\n"]
  else
    [out "\tClientWrapper(std::string host = ", .quoted "localhost".toList, out ", uint16_t port = 443)\n",
      out "\t\t: client(std::make_shared<", .name ns_, out "::Client>(ctx)) \x7b\n"]) ++
  [out "\t\tclient->start(boost::asio::ip::make_address(host), port);\n",
    out "\t\tctx.run();\n",
    out "\t\x7d\n",
    out "\t~ClientWrapper() \x7b client->stop(); \x7d\n",
    out "\tauto& context() \x7b return ctx; \x7d\n",
    out "\tvoid start(std::string host, uint16_t port) \x7b\n",
    out "\t\tclient->stop();\n",
    out "\t\tclient->start(boost::asio::ip::make_address(host), port);\n",
    out "\t\tctx.restart();\n",
    out "\t\tctx.run();\n",
    out "\t\x7d\n",
    out "\tvoid stop() \x7b client->stop(); \x7d\n",
    out "\x7d;\n",
    out "\n"]

/-- `emitModuleBody`. -/
def BeastPythonGenerator.emitModuleBody (ns_ module_name_ : Str) (endpoints : List Endpoint) : List Piece :=
  emitClientWrapper ns_ (detectAuth endpoints) ++
  [out "NB_MODULE(", .name module_name_, out ", m) \x7b\n",
    out "\tm.doc() = ", .quoted "Siesta-generated Python bindings for OpenAPI client".toList, out ";\n",
    out "\n",
    out "\t// Client class wrapping the C++ siesta client\n"] ++
  emitClassBinding endpoints ++ [out "\x7d\n"]

/-! ### The lambda -/

theorem takes_comma : Takes [out ", "] [] .operand [] .comma := .of_read (by decide)

theorem takes_lambdaParam (param : ClientParam) : Takes (lambdaParam param) [] .operand [] .operand := by
  have hopen : Takes [out "std::optional<"] [] .comma [] .operand := .of_read (by decide)
  have hclose : Takes [out "> "] [] .operand [] .operand := .of_read (by decide)
  have hblank : Takes [out " "] [] .operand [] .operand := .of_read (by decide)
  unfold lambdaParam
  split
  · exact takes_comma.append (hopen.append ((Takes.name _).append (hclose.append (Takes.name _))))
  · exact takes_comma.append ((Takes.name _).append (hblank.append (Takes.name _)))

theorem takes_lambdaParams (params : List ClientParam) :
    Takes (params.flatMap lambdaParam) [] .operand [] .operand := by
  induction params with
  | nil => exact Takes.nil
  | cons param params ih => exact (takes_lambdaParam param).append ih

/-- Behind an argument, every further one has a comma in front of it. -/
theorem takes_passedParams_true (params : List ClientParam) :
    Takes (passedParams true params) [] .operand [] .operand := by
  induction params with
  | nil => exact Takes.nil
  | cons param params ih => exact takes_comma.append ((Takes.name _).append ih)

/-- The arguments of the call, with a comma behind them if there are any. -/
theorem takes_arguments (ep : Endpoint) :
    Takes ((if ep.has_request_body then [out "body"] else []) ++
      passedParams ep.has_request_body ep.params ++ (if ep.hasArguments then [out ", "] else []))
      [] .opened [] (if ep.hasArguments then .comma else .opened) := by
  have hbody : Takes [out "body"] [] .opened [] .operand := .of_read (by decide)
  unfold Endpoint.hasArguments
  cases ep.has_request_body with
  | true => exact (hbody.append (takes_passedParams_true ep.params)).append takes_comma
  | false =>
    cases ep.params with
    | nil => exact Takes.nil
    | cons param params =>
      exact ((Takes.name _).append (takes_passedParams_true params)).append takes_comma

theorem takes_emitLambda (ep : Endpoint) : Takes (emitLambda ep) [] .comma ['\x7b'] .operand := by
  have hhead : Takes [out "[](ClientWrapper& self"] [] .comma ['('] .operand := .of_read (by decide)
  have hbody : Takes (if ep.has_request_body then [out ", const ", .name ep.body_type, out "& body"] else [])
      [] .operand [] .operand := by
    have hconst : Takes [out ", const "] [] .operand [] .operand := .of_read (by decide)
    have hend : Takes [out "& body"] [] .operand [] .operand := .of_read (by decide)
    exact Takes.optional fun _ => hconst.append ((Takes.name _).append hend)
  have hcall : Takes [out ") -> nb::object \x7b\n",
      out "\t\tboost::asio::io_context& ctx = self.ctx;\n",
      out "\t\ttry \x7b\n",
      out "\t\t\tauto future = self.client->", .name ep.function_name, out "("]
      ['('] .operand ['(', '\x7b', '\x7b'] .opened := by
    have hbefore : Takes [out ") -> nb::object \x7b\n",
        out "\t\tboost::asio::io_context& ctx = self.ctx;\n",
        out "\t\ttry \x7b\n",
        out "\t\t\tauto future = self.client->"] ['('] .operand ['\x7b', '\x7b'] .operand := .of_read (by decide)
    have hopen : Takes [out "("] ['\x7b', '\x7b'] .operand ['(', '\x7b', '\x7b'] .opened := .of_read (by decide)
    exact hbefore.append (((Takes.name ep.function_name).within _).append hopen)
  have hlast : Takes [out "boost::asio::use_future);\n"] ['(', '\x7b', '\x7b']
      (if ep.hasArguments then .comma else .opened) ['\x7b', '\x7b'] .operand := by
    split <;> exact .of_read (by decide)
  have hrest : Takes [out "\t\t\tctx.restart();\n",
      out "\t\t\tctx.run();\n",
      out "\t\t\tauto outcome = future.get();\n",
      out "\t\t\treturn extract_response_json(outcome);\n",
      out "\t\t\x7d catch (const std::exception& e) \x7b\n",
      out "\t\t\tnb::dict err;\n",
      out "\t\t\terr[", .quoted "error".toList, out "] = nb::str(e.what());\n",
      out "\t\t\treturn err;\n",
      out "\t\t\x7d\n"] ['\x7b', '\x7b'] .operand ['\x7b'] .operand := .of_read (by decide)
  have hparams := (takes_lambdaParams ep.params).within ['(']
  have harguments := (takes_arguments ep).within ['(', '\x7b', '\x7b']
  unfold emitLambda
  have hlambda :=
    ((((hhead.append (hbody.within ['('])).append hparams).append hcall).append harguments).append (hlast.append hrest)
  simpa only [List.append_assoc, List.singleton_append] using hlambda

/-! ### What stands behind the lambda -/

theorem takes_nbArg {name : Piece} (hname : Takes [name] [] .opened [] .operand) :
    Takes (nbArg name) [] .comma [] .operand := by
  have hopen : Takes [out "nb::arg("] [] .comma ['('] .opened := .of_read (by decide)
  have hclose : Takes [out ")"] ['('] .operand [] .operand := .of_read (by decide)
  exact hopen.append ((hname.within ['(']).append hclose)

theorem takes_keywordParam (param : ClientParam) :
    Takes (nbArg (.quotedName param.name) ++ if !param.required then [out " = nb::none()"] else [])
      [] .comma [] .operand := by
  have hnone : Takes [out " = nb::none()"] [] .operand [] .operand := .of_read (by decide)
  exact (takes_nbArg (Takes.quotedName _)).append (Takes.optional fun _ => hnone)

/-- Behind an argument, every further one has a comma in front of it. -/
theorem takes_keywordParams_false (params : List ClientParam) :
    Takes (keywordParams false params) [] .operand [] .operand := by
  induction params with
  | nil => exact Takes.nil
  | cons param params ih =>
    rw [keywordParams, List.append_assoc (if !false then [out ", "] else [])]
    exact (takes_comma.append (takes_keywordParam param)).append ih

theorem takes_keywordParams_true (param : ClientParam) (params : List ClientParam) :
    Takes (keywordParams true (param :: params)) [] .comma [] .operand :=
  (takes_keywordParam param).append (takes_keywordParams_false params)

theorem takes_emitKeywords (ep : Endpoint) : Takes (emitKeywords ep) [] .comma [] .comma := by
  have hindent : Takes [out "\t\t"] [] .comma [] .comma := .of_read (by decide)
  have hcomma : Takes [out ",\n"] [] .operand [] .comma := .of_read (by decide)
  have hbody : Takes (nbArg (.quoted "body".toList)) [] .comma [] .operand :=
    takes_nbArg (Takes.quoted (fills_of_plain (by decide)))
  unfold emitKeywords Endpoint.hasArguments
  cases ep.has_request_body with
  | true => exact hindent.append ((hbody.append (takes_keywordParams_false ep.params)).append hcomma)
  | false =>
    cases ep.params with
    | nil => exact Takes.nil
    | cons param params => exact hindent.append ((takes_keywordParams_true param params).append hcomma)

/-- Every character but the carriage return stays within the literal. -/
theorem scan_escapeDocChar {c : Char} (hc : c ≠ '\r') (rest : Str) :
    scan .literal (escapeDocChar c ++ rest) = scan .literal rest := by
  unfold escapeDocChar
  split
  · exact scan_escape (by decide) _
  split
  · exact scan_escape (by decide) _
  split
  · exact scan_escape (by decide) _
  · rename_i hquote hslash hn
    exact scan_literal_cons (by simp [hquote, hslash, hn, hc]) _

theorem fills_escapeDoc {doc : Str} (h : '\r' ∉ doc) : Fills (escapeDoc doc) := by
  induction doc with
  | nil => exact fills_nil
  | cons c doc ih =>
    intro rest
    have hc : c ≠ '\r' := fun hc => h (hc ▸ List.mem_cons_self ..)
    have hrest := ih (fun hr => h (List.mem_cons_of_mem _ hr)) rest
    show scan .literal (escapeDocChar c ++ escapeDoc doc ++ '"' :: rest) = _
    rw [List.append_assoc, scan_escapeDocChar hc, hrest]

theorem breaks_escapeDoc {doc : Str} (h : '\r' ∈ doc) : Breaks (escapeDoc doc) := by
  induction doc with
  | nil => cases h
  | cons c doc ih =>
    intro rest
    show scan .literal (escapeDocChar c ++ escapeDoc doc ++ rest) = none
    rw [List.append_assoc]
    by_cases hc : c = '\r'
    · subst hc
      exact scan_lineEnd (by decide) _
    · have hrest := ih ((List.mem_cons.mp h).resolve_left (Ne.symm hc)) rest
      rw [scan_escapeDocChar hc, hrest]

def Endpoint.Bound (ep : Endpoint) (is_last : Bool) : Prop :=
  '\r' ∉ ep.doc ∧ (ep.doc ≠ [] ∨ (is_last = true ∧ ep.hasArguments = false))

instance (ep : Endpoint) (is_last : Bool) : Decidable (ep.Bound is_last) :=
  inferInstanceAs (Decidable (_ ∧ _))

def callEnd (is_last : Bool) : Str := if is_last then ");".toList else ")".toList

theorem readPieces_close (o : Str) (is_last : Bool) :
    readPieces ⟨['('], .operand, o⟩ (if is_last then [out "\t\t);\n"] else [out "\t\t)\n"]) =
      some ⟨[], .operand, o ++ callEnd is_last⟩ := by
  cases is_last with
  | true =>
    show some _ = _
    rw [callEnd, if_pos rfl]
    exact congrArg some (congrArg _ (List.append_assoc ..))
  | false => rfl

/-- With a documentation, the call is closed if the documentation stays in its line. -/
theorem readPieces_trailing_doc {ep : Endpoint} (hdoc : ep.doc ≠ []) (is_last : Bool) (o : Str) :
    readPieces ⟨['\x7b', '('], .operand, o⟩ (emitTrailing ep is_last) =
      if '\r' ∈ ep.doc then none else some ⟨[], .operand, o ++ callEnd is_last⟩ := by
  have hdoc : ep.doc.isEmpty = false := by simpa using hdoc
  have hbrace : Takes [out "\t\t\x7d,\n"] ['\x7b'] .operand [] .comma := .of_read (by decide)
  have hindent : Takes [out "\t\t"] [] .comma [] .comma := .of_read (by decide)
  have hsplit : emitTrailing ep is_last = ([out "\t\t\x7d,\n"] ++ emitKeywords ep ++ [out "\t\t"]) ++
      .quoted (escapeDoc ep.doc) :: out "\n" ::
        (if is_last then [out "\t\t);\n"] else [out "\t\t)\n"]) := by
    simp [emitTrailing, Endpoint.has_trailing, hdoc]
  have hbefore := ((hbrace.append (takes_emitKeywords ep)).append hindent) ['('] o (by decide)
  rw [hsplit, readPieces_append, show ['\x7b', '('] = ['\x7b'] ++ ['('] from rfl, hbefore, Option.bind_some,
    readPieces_cons]
  by_cases hr : '\r' ∈ ep.doc
  · rw [if_pos hr, Piece.read_quoted_of_breaks (breaks_escapeDoc hr)]
    rfl
  · rw [if_neg hr, Piece.read_quoted_of_fills (fills_escapeDoc hr)]
    exact readPieces_close o is_last

/-- Without a documentation, the comma behind the keyword arguments has nothing behind it; with no keyword
arguments either, the brace of the lambda is closed at the last endpoint only. -/
theorem readPieces_trailing_no_doc {ep : Endpoint} (hdoc : ep.doc = []) (is_last : Bool) (o : Str) :
    readPieces ⟨['\x7b', '('], .operand, o⟩ (emitTrailing ep is_last) =
      if is_last = true ∧ ep.hasArguments = false then some ⟨[], .operand, o ++ callEnd is_last⟩ else none := by
  have hbrace : Takes [out "\t\t\x7d,\n"] ['\x7b'] .operand [] .comma := .of_read (by decide)
  cases harguments : ep.hasArguments with
  | true =>
    have hsplit : emitTrailing ep is_last = ([out "\t\t\x7d,\n"] ++ emitKeywords ep) ++
        (if is_last then [out "\t\t);\n"] else [out "\t\t)\n"]) := by
      simp [emitTrailing, Endpoint.has_trailing, hdoc, harguments]
    have hbefore := (hbrace.append (takes_emitKeywords ep)) ['('] o (by decide)
    rw [hsplit, readPieces_append, show ['\x7b', '('] = ['\x7b'] ++ ['('] from rfl, hbefore, Option.bind_some]
    cases is_last <;> rfl
  | false =>
    have hsplit : emitTrailing ep is_last = if is_last then [out "\t\t\x7d);\n"] else [out "\t\t),\n"] := by
      simp [emitTrailing, emitKeywords, Endpoint.has_trailing, hdoc, harguments]
    rw [hsplit]
    cases is_last with
    | false => rfl
    | true =>
      rw [if_pos (And.intro rfl rfl), callEnd, if_pos rfl]
      exact congrArg some (congrArg _ (List.append_assoc ..))

theorem readPieces_head (o name : Str) :
    readPieces ⟨[], .operand, o⟩ [out "\t\t.def(", .quotedName name, out ",\n", out "\t\t\t"] =
      some ⟨['('], .comma, o ++ ".def(".toList⟩ := by
  have hfirst : readPieces ⟨[], .operand, []⟩
      [out "\t\t.def(", .quotedName name, out ",\n", out "\t\t\t"] =
        some ⟨['('], .comma, ".def(".toList⟩ := rfl
  have hbehind := readPieces_behind o ⟨[], .operand, []⟩
    [out "\t\t.def(", .quotedName name, out ",\n", out "\t\t\t"]
  rw [hfirst] at hbehind
  rwa [Reading.behind, List.append_nil] at hbehind

/-- The wrapper of an endpoint is one call if it is bound, and otherwise it cannot be read. -/
theorem readPieces_wrapper (ep : Endpoint) (is_last : Bool) (o : Str) :
    readPieces ⟨[], .operand, o⟩ (BeastPythonGenerator.emitEndpointWrapper ep is_last) =
      if ep.Bound is_last then some ⟨[], .operand, o ++ ".def(".toList ++ callEnd is_last⟩ else none := by
  have hhead := readPieces_head o ep.function_name
  generalize o ++ ".def(".toList = outline at hhead ⊢
  have hlambda : readPieces ⟨['('], .comma, outline⟩ (emitLambda ep) = some ⟨['\x7b', '('], .operand, outline⟩ :=
    takes_emitLambda ep ['('] outline (by decide)
  rw [BeastPythonGenerator.emitEndpointWrapper, readPieces_append, readPieces_append, hhead, Option.bind_some,
    hlambda, Option.bind_some]
  by_cases hdoc : ep.doc = []
  · have hbound : ep.Bound is_last ↔ is_last = true ∧ ep.hasArguments = false := by simp [Endpoint.Bound, hdoc]
    rw [readPieces_trailing_no_doc hdoc]
    simp only [hbound]
  · rw [readPieces_trailing_doc hdoc]
    by_cases hr : '\r' ∈ ep.doc
    · rw [if_pos hr, if_neg fun h : ep.Bound is_last => h.1 hr]
    · have hbound : ep.Bound is_last := ⟨hr, .inl hdoc⟩
      rw [if_neg hr, if_pos hbound]

/-! ### The statement -/

/-- Every endpoint is bound by one closed call. -/
def AllBound : List Endpoint → Prop
  | [] => True
  | ep :: endpoints => ep.Bound endpoints.isEmpty ∧ AllBound endpoints

instance decidableAllBound : (endpoints : List Endpoint) → Decidable (AllBound endpoints)
  | [] => inferInstanceAs (Decidable True)
  | _ :: endpoints => @instDecidableAnd _ _ _ (decidableAllBound endpoints)

def defCalls (n : ℕ) : Str := (List.replicate n ".def()".toList).flatten

theorem defCalls_succ (n : ℕ) : defCalls (n + 1) = ".def(".toList ++ (")".toList ++ defCalls n) := by
  have hcall : ".def()".toList = ".def(".toList ++ ")".toList := by decide
  show ".def()".toList ++ defCalls n = _
  rw [hcall, List.append_assoc]

/-- The calls of the endpoints, and the semicolon behind the last one. -/
theorem readPieces_emitEndpoints (endpoints : List Endpoint) (o : Str) :
    readPieces ⟨[], .operand, o⟩ (emitEndpoints endpoints) =
      if AllBound endpoints then
        some ⟨[], .operand, o ++ defCalls endpoints.length ++ if endpoints.isEmpty then [] else [';']⟩
      else none := by
  induction endpoints generalizing o with
  | nil => simp [emitEndpoints, AllBound, readPieces_nil, defCalls]
  | cons ep endpoints ih =>
    have hblank : (out "\n").read ⟨[], .operand, o⟩ = some ⟨[], .operand, o⟩ := rfl
    rw [emitEndpoints, List.cons_append, readPieces_cons, hblank, Option.bind_some, readPieces_append,
      readPieces_wrapper]
    by_cases hbound : ep.Bound endpoints.isEmpty
    · rw [if_pos hbound, Option.bind_some, ih]
      have hall : AllBound (ep :: endpoints) ↔ AllBound endpoints := and_iff_right hbound
      simp only [hall]
      congr 3
      rw [List.length_cons, defCalls_succ]
      cases endpoints with
      | nil =>
        have hend : ");".toList = ")".toList ++ [';'] := by decide
        simp [callEnd, defCalls, hend]
      | cons ep' endpoints => simp [callEnd]
    · rw [if_neg hbound, if_neg fun h : AllBound (ep :: endpoints) => hbound h.1]
      rfl

theorem allBound_iff (endpoints : List Endpoint) : AllBound endpoints ↔
    (∀ ep ∈ endpoints, '\r' ∉ ep.doc) ∧ (∀ ep ∈ endpoints.dropLast, ep.doc ≠ []) ∧
      ∀ ep ∈ endpoints.getLast?, ep.doc ≠ [] ∨ ep.hasArguments = false := by
  induction endpoints with
  | nil => simp [AllBound]
  | cons ep endpoints ih =>
    cases endpoints with
    | nil => simp [AllBound, Endpoint.Bound]
    | cons ep' endpoints =>
      have hbound : ep.Bound false ↔ '\r' ∉ ep.doc ∧ ep.doc ≠ [] := by simp [Endpoint.Bound]
      rw [AllBound, ih]
      show ep.Bound false ∧ _ ↔ _
      rw [hbound, List.dropLast_cons_cons, List.getLast?_cons_cons, List.forall_mem_cons (l := ep' :: endpoints),
        List.forall_mem_cons (l := (ep' :: endpoints).dropLast)]
      tauto

set_option maxRecDepth 8000 in
theorem readPieces_emitClassHead (auth : AuthInfo) : readPieces {} (emitClassHead auth) =
    some ⟨[], .operand, "nb::class_<ClientWrapper>()".toList ++ defCalls 3⟩ := by
  unfold emitClassHead
  split <;> rfl

/-- A class binding of `n` calls that the semicolon ends. -/
def bindingOutline (n : ℕ) : Str := "nb::class_<ClientWrapper>()".toList ++ defCalls n ++ [';']

/-- Every bracket is closed, no argument is empty, and outside of the brackets stands nothing but the
class, `n` calls of `def`, and one semicolon behind them. -/
def WellFormedBinding (reading : Option Reading) (n : ℕ) : Prop :=
  ∃ last, reading = some ⟨[], last, bindingOutline n⟩

theorem defCalls_add (m n : ℕ) : defCalls (m + n) = defCalls m ++ defCalls n := by
  unfold defCalls
  rw [List.replicate_add, List.flatten_append]

theorem readPieces_emitClassBinding (endpoints : List Endpoint) : readPieces {} (emitClassBinding endpoints) =
    if AllBound endpoints then
      some ⟨[], .operand, "nb::class_<ClientWrapper>()".toList ++ defCalls (3 + endpoints.length) ++
        if endpoints.isEmpty then [] else [';']⟩
    else none := by
  rw [emitClassBinding, readPieces_append, readPieces_emitClassHead, Option.bind_some, readPieces_emitEndpoints,
    defCalls_add, List.append_assoc _ (defCalls 3)]

theorem wellFormedBinding_iff (endpoints : List Endpoint) :
    WellFormedBinding (readPieces {} (emitClassBinding endpoints)) (3 + endpoints.length) ↔
      endpoints ≠ [] ∧ AllBound endpoints := by
  unfold WellFormedBinding bindingOutline
  rw [readPieces_emitClassBinding]
  generalize "nb::class_<ClientWrapper>()".toList ++ defCalls (3 + endpoints.length) = calls
  by_cases hall : AllBound endpoints
  · rw [if_pos hall]
    cases endpoints with
    | nil =>
      -- there is no semicolon
      refine iff_of_false (fun ⟨_, h⟩ => ?_) fun h => h.1 rfl
      have houtline : calls ++ [] = calls ++ [';'] := congrArg Reading.outline (Option.some.inj h)
      simp at houtline
    | cons ep endpoints => exact iff_of_true ⟨.operand, rfl⟩ ⟨List.cons_ne_nil _ _, hall⟩
  · rw [if_neg hall]
    exact iff_of_false (fun ⟨_, h⟩ => Option.some_ne_none _ h.symm) fun h => hall h.2

/-! ### The text of the statement -/

/-- The names and types of the endpoint are words. -/
def Endpoint.HasWords (ep : Endpoint) : Prop :=
  IsWord ep.function_name ∧ (ep.has_request_body = true → IsWord ep.body_type) ∧
    ∀ param ∈ ep.params, IsWord param.name ∧ IsWord param.cpp_type

theorem plain_nbArg {name : Piece} (h : name.Plain) : PlainPieces (nbArg name) := by
  have hopen : PlainPieces [out "nb::arg("] := plainPieces_of_fixed (by decide)
  exact hopen.append (.cons h (plainPieces_of_fixed (by decide)))

theorem plain_lambdaParam {param : ClientParam} (h : IsWord param.name ∧ IsWord param.cpp_type) :
    PlainPieces (lambdaParam param) := by
  have hcomma : PlainPieces [out ", "] := plainPieces_of_fixed (by decide)
  have hopen : PlainPieces [out "std::optional<"] := plainPieces_of_fixed (by decide)
  have hclose : PlainPieces [out "> "] := plainPieces_of_fixed (by decide)
  have hblank : PlainPieces [out " "] := plainPieces_of_fixed (by decide)
  have hname : PlainPieces [.name param.name] := .cons h.1.plain_name .nil
  unfold lambdaParam
  split
  · exact hcomma.append (hopen.append (.cons h.2.plain_name (hclose.append hname)))
  · exact hcomma.append (.cons h.2.plain_name (hblank.append hname))

theorem plain_passedParams {params : List ClientParam} (h : ∀ param ∈ params, IsWord param.name)
    (has_previous : Bool) : PlainPieces (passedParams has_previous params) := by
  induction params generalizing has_previous with
  | nil => exact .nil
  | cons param params ih =>
    have hcomma : PlainPieces (if has_previous then [out ", "] else []) :=
      .ite (fun _ => plainPieces_of_fixed (by decide)) fun _ => .nil
    have hrest := ih (fun q hq => h q (List.mem_cons_of_mem _ hq)) true
    exact hcomma.append (.cons (h param (List.mem_cons_self ..)).plain_name hrest)

theorem plain_keywordParams {params : List ClientParam} (h : ∀ param ∈ params, IsWord param.name)
    (first : Bool) : PlainPieces (keywordParams first params) := by
  induction params generalizing first with
  | nil => exact .nil
  | cons param params ih =>
    have hcomma : PlainPieces (if !first then [out ", "] else []) :=
      .ite (fun _ => plainPieces_of_fixed (by decide)) fun _ => .nil
    have hnone : PlainPieces (if !param.required then [out " = nb::none()"] else []) :=
      .ite (fun _ => plainPieces_of_fixed (by decide)) fun _ => .nil
    have harg := plain_nbArg (h param (List.mem_cons_self ..)).plain_quotedName
    have hrest := ih (fun q hq => h q (List.mem_cons_of_mem _ hq)) false
    exact ((hcomma.append harg).append hnone).append hrest

theorem plain_emitLambda {ep : Endpoint} (h : ep.HasWords) : PlainPieces (emitLambda ep) := by
  obtain ⟨hfunction, hbody, hparams⟩ := h
  have hself : PlainPieces [out "[](ClientWrapper& self"] := plainPieces_of_fixed (by decide)
  have hbodyParam : PlainPieces (if ep.has_request_body then
      [out ", const ", .name ep.body_type, out "& body"] else []) := by
    have hconst : PlainPieces [out ", const "] := plainPieces_of_fixed (by decide)
    exact .ite (fun hhas => hconst.append (.cons (hbody hhas).plain_name (plainPieces_of_fixed (by decide))))
      fun _ => .nil
  have hcall : PlainPieces [out ") -> nb::object \x7b\n",
      out "\t\tboost::asio::io_context& ctx = self.ctx;\n",
      out "\t\ttry \x7b\n",
      out "\t\t\tauto future = self.client->", .name ep.function_name, out "("] := by
    have hbefore : PlainPieces [out ") -> nb::object \x7b\n",
      out "\t\tboost::asio::io_context& ctx = self.ctx;\n",
      out "\t\ttry \x7b\n",
      out "\t\t\tauto future = self.client->"] := plainPieces_of_fixed (by decide)
    exact hbefore.append (.cons hfunction.plain_name (plainPieces_of_fixed (by decide)))
  have hpassedBody : PlainPieces (if ep.has_request_body then [out "body"] else []) :=
    .ite (fun _ => plainPieces_of_fixed (by decide)) fun _ => .nil
  have hcomma : PlainPieces (if ep.hasArguments then [out ", "] else []) :=
    .ite (fun _ => plainPieces_of_fixed (by decide)) fun _ => .nil
  have hpassed := plain_passedParams (fun p hp => (hparams p hp).1) ep.has_request_body
  unfold emitLambda
  exact ((((((hself.append hbodyParam).append (.flatMap fun p hp => plain_lambdaParam (hparams p hp))).append
    hcall).append hpassedBody).append hpassed).append hcomma).append (plainPieces_of_fixed (by decide))

theorem plain_escapeDoc (doc : Str) : (Piece.quoted (escapeDoc doc)).Plain := by
  by_cases hr : '\r' ∈ doc
  · exact .inr (breaks_escapeDoc hr)
  · exact .inl (fills_escapeDoc hr)

theorem plain_emitTrailing {ep : Endpoint} (h : ep.HasWords) (is_last : Bool) :
    PlainPieces (emitTrailing ep is_last) := by
  have hbrace : PlainPieces (if ep.has_trailing then [out "\t\t\x7d,\n"]
      else if is_last then [out "\t\t\x7d);\n"] else [out "\t\t),\n"]) :=
    .ite (fun _ => plainPieces_of_fixed (by decide)) fun _ =>
      .ite (fun _ => plainPieces_of_fixed (by decide)) fun _ => plainPieces_of_fixed (by decide)
  have hkeywords : PlainPieces (emitKeywords ep) := by
    have hindent : (out "\t\t").Plain := by
      show Bare _
      decide
    have hbody : PlainPieces (if ep.has_request_body then nbArg (.quoted "body".toList) else []) :=
      .ite (fun _ => plainPieces_of_fixed (by decide)) fun _ => .nil
    have hparams := plain_keywordParams (fun p hp => (h.2.2 p hp).1) (!ep.has_request_body)
    exact .ite (fun _ => ((PlainPieces.cons hindent hbody).append hparams).append
      (plainPieces_of_fixed (by decide))) fun _ => .nil
  have hdoc : PlainPieces (if !ep.doc.isEmpty then [out "\t\t", .quoted (escapeDoc ep.doc), out "\n"] else []) := by
    have hindent : PlainPieces [out "\t\t"] := plainPieces_of_fixed (by decide)
    exact .ite (fun _ => hindent.append (.cons (plain_escapeDoc ep.doc) (plainPieces_of_fixed (by decide))))
      fun _ => .nil
  have hclose : PlainPieces (if ep.has_trailing then
      if is_last then [out "\t\t);\n"] else [out "\t\t)\n"] else []) :=
    .ite (fun _ => .ite (fun _ => plainPieces_of_fixed (by decide)) fun _ => plainPieces_of_fixed (by decide))
      fun _ => .nil
  exact ((hbrace.append hkeywords).append hdoc).append hclose

theorem plain_emitEndpoints {endpoints : List Endpoint} (h : ∀ ep ∈ endpoints, ep.HasWords) :
    PlainPieces (emitEndpoints endpoints) := by
  induction endpoints with
  | nil => exact .nil
  | cons ep endpoints ih =>
    have hep := h ep (List.mem_cons_self ..)
    have hblank : PlainPieces [out "\n"] := plainPieces_of_fixed (by decide)
    have hdef : PlainPieces [out "\t\t.def("] := plainPieces_of_fixed (by decide)
    have hname : PlainPieces [.quotedName ep.function_name, out ",\n", out "\t\t\t"] :=
      .cons hep.1.plain_quotedName (plainPieces_of_fixed (by decide))
    have hwrapper : PlainPieces (BeastPythonGenerator.emitEndpointWrapper ep endpoints.isEmpty) :=
      ((hdef.append hname).append (plain_emitLambda hep)).append (plain_emitTrailing hep _)
    exact (hblank.append hwrapper).append (ih fun q hq => h q (List.mem_cons_of_mem _ hq))

theorem detectAuth_cases (endpoints : List Endpoint) : detectAuth endpoints ∈
    [⟨.None, []⟩, ⟨.ApiKey, "api_key".toList⟩, (⟨.HttpBearer, "bearer_token".toList⟩ : AuthInfo)] := by
  induction endpoints with
  | nil => exact List.mem_cons_self ..
  | cons ep endpoints ih =>
    rw [detectAuth]
    cases htype : ep.auth_type with
    | None => exact ih
    | ApiKey => exact List.mem_cons_of_mem _ (List.mem_cons_self ..)
    | HttpBearer => exact List.mem_cons_of_mem _ (List.mem_cons_of_mem _ (List.mem_cons_self ..))

set_option maxRecDepth 8000 in
theorem plain_emitClassHead (endpoints : List Endpoint) : PlainPieces (emitClassHead (detectAuth endpoints)) := by
  have hall : ∀ auth ∈ [⟨.None, []⟩, ⟨.ApiKey, "api_key".toList⟩,
      (⟨.HttpBearer, "bearer_token".toList⟩ : AuthInfo)], (emitClassHead auth).all Piece.fixed = true := by
    decide
  exact plainPieces_of_fixed (hall _ (detectAuth_cases endpoints))

theorem readText_emitClassBinding {endpoints : List Endpoint} (h : ∀ ep ∈ endpoints, ep.HasWords) :
    readText {} (textOf (emitClassBinding endpoints)) = readPieces {} (emitClassBinding endpoints) :=
  readText_textOf ((plain_emitClassHead endpoints).append (plain_emitEndpoints h)) {}

/-- **When the class binding is well formed.**  Every bracket of the binding is closed, no argument is empty,
and one semicolon ends the calls, exactly if there is an endpoint, no documentation has a carriage return,
every endpoint but the last has a documentation, and the last one has a documentation or no argument.
The text of the binding is read so when the names and types in it are words. -/
theorem class_binding_well_formed_iff (endpoints : List Endpoint) :
    (WellFormedBinding (readPieces {} (emitClassBinding endpoints)) (3 + endpoints.length) ↔
      endpoints ≠ [] ∧ (∀ ep ∈ endpoints, '\r' ∉ ep.doc) ∧ (∀ ep ∈ endpoints.dropLast, ep.doc ≠ []) ∧
        ∀ ep ∈ endpoints.getLast?, ep.doc ≠ [] ∨ ep.hasArguments = false) ∧
    ((∀ ep ∈ endpoints, ep.HasWords) →
      readText {} (textOf (emitClassBinding endpoints)) = readPieces {} (emitClassBinding endpoints)) := by
  refine ⟨?_, readText_emitClassBinding⟩
  rw [wellFormedBinding_iff, allBound_iff]

/-- An operation with a parameter, and one without. -/
def getUser (summary : Str) : Endpoint :=
  { method := "get".toList, path := "/user".toList, function_name := "get__user".toList, summary
    params := [{ name := "id".toList, wire_name := "id".toList, cpp_type := "int64_t".toList, required := true }] }

def getPing : Endpoint := { method := "get".toList, path := "/ping".toList, function_name := "get__ping".toList }

theorem hasWords_getUser (summary : Str) : (getUser summary).HasWords := by
  have hword : ∀ s ∈ ["get__user".toList, "id".toList, "int64_t".toList], IsWord s := by
    unfold IsWord
    decide
  have hname : IsWord "get__user".toList := hword _ (by decide)
  have hparam : IsWord "id".toList ∧ IsWord "int64_t".toList := ⟨hword _ (by decide), hword _ (by decide)⟩
  exact ⟨hname, nofun, fun param hmem => List.mem_singleton.mp hmem ▸ hparam⟩

theorem hasWords_getPing : getPing.HasWords := by
  have hword : IsWord "get__ping".toList := by
    unfold IsWord
    decide
  exact ⟨hword, nofun, nofun⟩

theorem class_binding_well_formed_iff_getUser :
    readText {} (textOf (emitClassBinding [getUser "Reads a user".toList])) =
      readPieces {} (emitClassBinding [getUser "Reads a user".toList]) := by
  have hwords : ∀ ep ∈ [getUser "Reads a user".toList], ep.HasWords :=
    List.forall_mem_singleton.mpr (hasWords_getUser _)
  exact (class_binding_well_formed_iff [getUser "Reads a user".toList]).2 hwords

/-- Without a documentation, the comma behind the parameter is the last thing in the call; without
parameters, the brace of a lambda that is not the last one stays open. -/
theorem class_binding_not_well_formed :
    (readText {} (textOf (emitClassBinding [getUser []])) = none ∧
      ¬ WellFormedBinding (readPieces {} (emitClassBinding [getUser []])) 4) ∧
    readText {} (textOf (emitClassBinding [getPing, getPing])) = none ∧
      ¬ WellFormedBinding (readPieces {} (emitClassBinding [getPing, getPing])) 5 := by
  have hnot : ∀ {endpoints : List Endpoint} {n : ℕ}, (∀ ep ∈ endpoints, ep.HasWords) → ¬ AllBound endpoints →
      readText {} (textOf (emitClassBinding endpoints)) = none ∧
        ¬ WellFormedBinding (readPieces {} (emitClassBinding endpoints)) n := by
    intro endpoints n hwords hall
    rw [readText_emitClassBinding hwords, readPieces_emitClassBinding, if_neg hall]
    exact ⟨rfl, fun ⟨_, h⟩ => Option.some_ne_none _ h.symm⟩
  have huser := List.forall_mem_singleton.mpr (hasWords_getUser [])
  have hping : ∀ ep ∈ [getPing, getPing], ep.HasWords := by simp [hasWords_getPing]
  exact ⟨hnot huser (by decide), hnot hping (by decide)⟩

end Siesta
