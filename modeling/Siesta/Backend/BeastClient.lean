import Siesta.Backend.BeastServer
import Siesta.Backend.MethodNames
import Siesta.IR.EndpointParams
import Siesta.Lib.ListM
import Siesta.Runtime.Encoding

/-!
# The generated client: `generator/src/Backend/Beast/BeastClientGen.cpp`

`methodTarget` is what the statements of `emitMethodBody` build for `req.target` when the method is called with
`args`, and `clientTarget` what the method builds: it cannot be compiled when its names do not resolve.  The types
of its parameters are taken to be declared, and no text to have a NUL character, at which a literal would end.
-/

namespace Siesta

open Lib

/-! ### The arguments of a method -/

/-- A value, by the overloads of `std::to_string` and `query_value` that are chosen for it. -/
inductive Scalar where
  | string (s : Str)
  | integer (i : ℤ)
  /-- A floating-point number, by what `std::to_string` writes for it. -/
  | number (text : Str)
  | boolean (b : Bool)
  /-- A value of another type, by what the `query_value` of its enumeration writes for it, if it is
  one. -/
  | named (text : Option Str)
  deriving DecidableEq

/-- An argument: a value, or a vector of values. -/
inductive ArgValue where
  | scalar (v : Scalar)
  | vector (vs : List Scalar)
  deriving DecidableEq

/-- The arguments of a call; an optional parameter may have none. -/
abbrev Args : Type := ClientParam → Option ArgValue

namespace Scalar

/-- The value where a `std::string` is expected. -/
def asString : Scalar → Option Str
  | .string s => some s
  | _ => none

/-- `std::to_string`. -/
def toString : Scalar → Option Str
  | .integer i => some (to_string i)
  | .number text => some text
  | .boolean b => some [if b then '1' else '0']
  | _ => none

/-- `url_encode`, which takes strings only. -/
def urlEncode (v : Scalar) : Option Str := v.asString.map url_encode

/-- `query_value`. -/
def queryValue : Scalar → Option Str
  | .string s => some (url_encode s)
  | .integer i => some (to_string i)
  | .number text => some text
  | .boolean b => some (if b then "true".toList else "false".toList)
  | .named text => text

end Scalar

/-! ### Literals -/

def readEscape (c : Char) : Option Char :=
  if c ∈ ['\\', '"', '\'', '?'] then some c
  else if c = 'n' then some '\n'
  else if c = 'r' then some '\r'
  else if c = 't' then some '\t'
  else if c = 'a' then some '\x07'
  else if c = 'b' then some '\x08'
  else if c = 'f' then some '\x0c'
  else if c = 'v' then some '\x0b'
  else none

/-- The text of a literal between whose quotes a text stands as it is.  Numeric escapes are not read. -/
def readUnescaped : Str → Option Str
  | [] => some []
  | '\\' :: c :: s => do
    let d ← readEscape c
    let t ← readUnescaped s
    return d :: t
  | c :: s => if c ∈ ['\\', '"', '\n', '\r'] then none else (readUnescaped s).map (c :: ·)

/-! ### `emitPathParams` -/

/-- `target_path.replace(_p, 2, value)` at the first placeholder that is left, if there is one. -/
def fillPlaceholder (target_path value : Str) : Str :=
  match cutAt placeholder target_path with
  | some (before, after) => before ++ value ++ after
  | none => target_path

/-- `emitPathParams`: one parameter. -/
def emitPathParam (args : Args) (target_path : Str) (p : ClientParam) : Option Str :=
  match args p with
  | none => if p.required then none else some target_path
  | some (.scalar v) =>
    (if p.is_string_type then v.asString else v.toString).map (fillPlaceholder target_path)
  | some (.vector _) => none

/-- `emitPathParams`. -/
def emitPathParams (args : Args) (path_params : List ClientParam) (target_path : Str) : Option Str :=
  path_params.foldlM (emitPathParam args) target_path

/-! ### `emitQueryParams` -/

/-- `_sep(); query += piece`. -/
def addPiece (query piece : Str) : Str := joinNext '&' query piece

def queryTexts (p : ClientParam) : ArgValue → Option (List Str)
  | .vector vs =>
    if p.is_vector_string_type then vs.mapM Scalar.urlEncode
    else if p.is_vector_type then vs.mapM Scalar.queryValue
    else none
  | .scalar v =>
    if p.is_vector_string_type ∨ p.is_vector_type then none
    else (if p.is_string_type then v.urlEncode else v.queryValue).map fun text => [text]

/-- The pieces that `emitQueryParams` writes for a parameter. -/
def queryPieces (args : Args) (p : ClientParam) : Option (List Str) := do
  let key ← readUnescaped (p.wire_name ++ ['='])
  match args p with
  | none => if p.required then none else return []
  | some v =>
    let texts ← queryTexts p v
    return texts.map (key ++ ·)

/-- `emitQueryParams`, from an empty query. -/
def emitQueryParams (args : Args) (params : List ClientParam) : Option Str :=
  params.foldlM (fun query p => (queryPieces args p).map (·.foldl addPiece query)) []

/-! ### `emitMethodBody` -/

/-- `path`. -/
def Endpoint.literalPath (ep : Endpoint) : Str := readLiteral (escapeCppString ep.path_template)

/-- `target_path`, before the query is appended. -/
def methodPath (ep : Endpoint) (args : Args) : Option Str :=
  emitPathParams args ep.pathParams ep.literalPath

/-- `emitMethodBody`: the target of the request. -/
def methodTarget (ep : Endpoint) (args : Args) : Option Str :=
  let has_path := !ep.pathParams.isEmpty
  let has_query := !ep.queryParams.isEmpty
  let all_query_required := has_query && ep.queryParams.all (·.required)
  if !has_path && !has_query then some ep.literalPath
  else if !has_path && has_query then do
    let query ← emitQueryParams args ep.queryParams
    if all_query_required then return ep.literalPath ++ '?' :: query
    else if !query.isEmpty then return ep.literalPath ++ '?' :: query
    else return ep.literalPath
  else if has_path && !has_query then methodPath ep args
  else do
    let target_path ← methodPath ep args
    let query ← emitQueryParams args ep.queryParams
    if !query.isEmpty then return target_path ++ '?' :: query
    else return target_path

section

variable (v : Cpp.Vocabulary)

/-- `target_path`, in a method that can be compiled. -/
def clientPath (ep : Endpoint) (args : Args) : Option Str :=
  if NamesResolve v ep then methodPath ep args else none

/-- The target of the request, in a method that can be compiled. -/
def clientTarget (ep : Endpoint) (args : Args) : Option Str :=
  if NamesResolve v ep then methodTarget ep args else none

end

theorem clientPath_eq_some {v : Cpp.Vocabulary} {ep : Endpoint} {args : Args} {path : Str} :
    clientPath v ep args = some path ↔ NamesResolve v ep ∧ methodPath ep args = some path :=
  Option.ite_none_right_eq_some

theorem clientTarget_eq_some {v : Cpp.Vocabulary} {ep : Endpoint} {args : Args} {target : Str} :
    clientTarget v ep args = some target ↔ NamesResolve v ep ∧ methodTarget ep args = some target :=
  Option.ite_none_right_eq_some

/-! ### Reading a query back -/

def readPair (piece : Str) : Str × Str :=
  match cutAt ['='] piece with
  | some (name, value) => (name, url_decode value)
  | none => (piece, [])

/-- The pairs of a target: what follows its first `?`, cut at every `&`. -/
def queryPairs (target : Str) : List (Str × Str) :=
  match cutAt ['?'] target with
  | some (_, query) => (query.splitOn '&').map readPair
  | none => []

def Scalar.text : Scalar → Str
  | .string s => s
  | .integer i => to_string i
  | .number text => text
  | .boolean b => if b then "true".toList else "false".toList
  | .named text => text.getD []

/-- The wire name of a parameter and the text of its value, if it has one. -/
def givenPair (args : Args) (p : ClientParam) : List (Str × Str) :=
  match args p with
  | some (.scalar v) => [(p.wire_name, v.text)]
  | _ => []

def integerTypes : List Str := ["int32_t", "int64_t", "uint32_t", "uint64_t"].map String.toList

/-- The values of the types string, integer and bool; a string is one of bytes. -/
inductive Scalar.HasType : Scalar → Str → Prop
  | string {s : Str} (hs : IsBytes s) : (Scalar.string s).HasType "std::string".toList
  | integer {cpp_type : Str} (i : ℤ) (h : cpp_type ∈ integerTypes) : (Scalar.integer i).HasType cpp_type
  | boolean (b : Bool) : (Scalar.boolean b).HasType "bool".toList

def ClientParam.Takes (p : ClientParam) : Option ArgValue → Prop
  | none => p.required = false
  | some (.scalar v) => v.HasType p.cpp_type
  | some (.vector _) => False

/-! ### What is written for one parameter -/

theorem readUnescaped_of_unreserved {s : Str} (h : ∀ c ∈ s, isUnreserved c = true ∨ c = '=') :
    readUnescaped s = some s := by
  induction s with
  | nil => rfl
  | cons c s ih =>
    have hc : c ∉ ['\\', '"', '\n', '\r'] := by
      have hnone : ∀ d ∈ ['\\', '"', '\n', '\r'], ¬ (isUnreserved d = true ∨ d = '=') := by decide
      exact fun hd => hnone c hd (h c (List.mem_cons_self ..))
    have hslash : c ≠ '\\' := fun hd => hc (hd ▸ List.mem_cons_self ..)
    have hs := ih fun d hd => h d (List.mem_cons_of_mem _ hd)
    rw [readUnescaped, if_neg hc, hs]
    · rfl
    · rintro _ _ rfl
      exact absurd rfl hslash

/-- A value is written in unreserved characters and `%`, and decoded again. -/
structure Encodes (v : Scalar) (text : Str) : Prop where
  chars : ∀ c ∈ text, c = '%' ∨ isUnreserved c = true
  decode : url_decode text = v.text

theorem encodes_of_unreserved {v : Scalar} (h : ∀ c ∈ v.text, isUnreserved c = true) :
    Encodes v v.text where
  chars c hc := .inr (h c hc)
  decode := url_decode_of_notMem fun hp => by
    have hpercent := h _ hp
    rw [percent_reserved] at hpercent
    cases hpercent

/-- What is written for a value of one of the three types, whatever flags the parameter has. -/
theorem queryTexts_scalar {p : ClientParam} (hflags : p.FlagsFit) {v : Scalar}
    (htype : v.HasType p.cpp_type) : ∃ text, queryTexts p (.scalar v) = some [text] ∧ Encodes v text := by
  have hscalar : ∀ t ∈ "std::string".toList :: "bool".toList :: integerTypes,
      ¬ "vector".toList <:+: t := by decide
  have hnovector : p.cpp_type ∈ "std::string".toList :: "bool".toList :: integerTypes →
      ¬ (p.is_vector_string_type = true ∨ p.is_vector_type = true) := by
    intro hmem hvec
    have hv : p.is_vector_type = true := by
      rcases hvec with hvec | hvec
      · rw [hflags.vector_string, Bool.and_eq_true] at hvec
        exact hvec.1
      · exact hvec
    exact hscalar _ hmem (hflags.vector hv)
  have hnostring : p.cpp_type ∈ "bool".toList :: integerTypes → p.is_string_type = false := by
    have hother : ∀ t ∈ "bool".toList :: integerTypes, ¬ "string".toList <:+: t := by decide
    intro hmem
    rw [← Bool.not_eq_true]
    exact fun hs => hother _ hmem (hflags.string hs)
  cases v with
  | string s =>
    obtain ⟨hbytes, hcpp⟩ : IsBytes s ∧ p.cpp_type = "std::string".toList := by
      generalize p.cpp_type = t at htype
      cases htype with
      | string hs => exact ⟨hs, rfl⟩
    refine ⟨url_encode s, ?_, fun c hc => mem_url_encode hc, url_decode_url_encode hbytes⟩
    rw [queryTexts, if_neg (hnovector (by simp [hcpp]))]
    split <;> rfl
  | integer i =>
    have hcpp : p.cpp_type ∈ integerTypes := by
      generalize p.cpp_type = t at htype
      cases htype with
      | integer _ h => exact h
    have hstring := hnostring (List.mem_cons_of_mem _ hcpp)
    refine ⟨to_string i, ?_, encodes_of_unreserved fun c hc => mem_to_string hc⟩
    rw [queryTexts, if_neg (hnovector (by simp [hcpp])), hstring]
    rfl
  | boolean b =>
    have hcpp : p.cpp_type = "bool".toList := by
      generalize p.cpp_type = t at htype
      cases htype with
      | boolean => rfl
    have hstring := hnostring (by simp [hcpp])
    refine ⟨(Scalar.boolean b).text, ?_, encodes_of_unreserved ?_⟩
    · rw [queryTexts, if_neg (hnovector (by simp [hcpp])), hstring]
      rfl
    · cases b <;> decide
  | number text => cases htype
  | named text => cases htype

/-- A piece that is cut at its first `=` and at no separator. -/
structure Piece (piece : Str) : Prop where
  ne_nil : piece ≠ []
  no_amp : '&' ∉ piece
  no_question : '?' ∉ piece

theorem piece_of_encodes {name text : Str} {v : Scalar} (hname : ∀ c ∈ name, isUnreserved c = true)
    (h : Encodes v text) :
    Piece (name ++ '=' :: text) ∧ readPair (name ++ '=' :: text) = (name, v.text) := by
  have hno : ∀ d ∈ ['&', '?'], d ∉ name ++ '=' :: text := by
    have hreserved : ∀ d ∈ ['&', '?'], isUnreserved d = false ∧ d ≠ '=' ∧ d ≠ '%' := by decide
    intro d hd hmem
    obtain ⟨hres, heq, hpercent⟩ := hreserved d hd
    rcases List.mem_append.mp hmem with hmem | hmem
    · exact Bool.false_ne_true (hres ▸ hname d hmem)
    · rcases List.mem_cons.mp hmem with rfl | hmem
      · exact heq rfl
      · rcases h.chars d hmem with rfl | hunres
        · exact hpercent rfl
        · exact Bool.false_ne_true (hres ▸ hunres)
  have hequal : '=' ∉ name := by
    have hres : isUnreserved '=' = false := by decide
    exact fun hmem => Bool.false_ne_true (hres ▸ hname _ hmem)
  refine ⟨⟨by simp, hno _ (by simp), hno _ (by simp)⟩, ?_⟩
  rw [readPair, cutAt_char hequal]
  simp only [h.decode]

theorem queryPieces_eq {args : Args} {p : ClientParam} (hflags : p.FlagsFit)
    (hname : ∀ c ∈ p.wire_name, isUnreserved c = true) (hargs : p.Takes (args p)) :
    ∃ pieces, queryPieces args p = some pieces ∧ (∀ piece ∈ pieces, Piece piece) ∧
      pieces.map readPair = givenPair args p := by
  have hkey : ∀ c ∈ p.wire_name ++ ['='], isUnreserved c = true ∨ c = '=' := by
    intro c hc
    rcases List.mem_append.mp hc with hc | hc
    · exact .inl (hname c hc)
    · exact .inr (List.mem_singleton.mp hc)
  rw [queryPieces, readUnescaped_of_unreserved hkey, givenPair]
  cases harg : args p with
  | none =>
    rw [harg] at hargs
    have hopt : p.required = false := hargs
    exact ⟨[], by simp [hopt], by simp, rfl⟩
  | some a =>
    rw [harg] at hargs
    cases a with
    | vector vs => exact hargs.elim
    | scalar v =>
      obtain ⟨text, htexts, henc⟩ := queryTexts_scalar hflags hargs
      obtain ⟨hpiece, hread⟩ := piece_of_encodes hname henc
      refine ⟨[p.wire_name ++ '=' :: text], ?_, by simpa using hpiece, by simp [hread]⟩
      simp only [Option.bind_eq_bind, Option.bind_some, htexts]
      simp

/-! ### The query of a target -/

theorem emitQueryParams_eq_some {args : Args} {params : List ClientParam} {pieces : List (List Str)}
    (h : params.mapM (queryPieces args) = some pieces)
    (hpieces : ∀ piece ∈ pieces.flatten, piece ≠ []) :
    emitQueryParams args params = some (['&'].intercalate pieces.flatten) := by
  rw [emitQueryParams, foldlM_map_option, h, Option.map_some, ← foldl_joinNext hpieces,
    List.foldl_flatten]
  rfl

theorem queryPairs_of_pieces {path : Str} (hpath : '?' ∉ path) {pieces : List Str}
    (hpieces : ∀ piece ∈ pieces, Piece piece) (hne : pieces ≠ []) :
    queryPairs (path ++ '?' :: ['&'].intercalate pieces) = pieces.map readPair := by
  have hsplit := List.splitOn_intercalate '&' (fun piece h => (hpieces piece h).no_amp) hne
  rw [queryPairs, cutAt_char hpath]
  simp only [hsplit]

theorem queryPairs_of_no_query {path : Str} (hpath : '?' ∉ path) : queryPairs path = [] := by
  rw [queryPairs, cutAt_char_eq_none hpath]

theorem intercalate_ne_nil {pieces : List Str} (hpieces : ∀ piece ∈ pieces, Piece piece)
    (hne : pieces ≠ []) : ['&'].intercalate pieces ≠ [] := by
  cases pieces with
  | nil => exact absurd rfl hne
  | cons piece pieces =>
    have hpiece := (hpieces piece (List.mem_cons_self ..)).ne_nil
    cases piece with
    | nil => exact absurd rfl hpiece
    | cons c piece => simp

/-- The target of a method without path parameters: both branches of `emitMethodBody` write a query
exactly when there is a pair. -/
theorem methodTarget_of_query {ep : Endpoint} {args : Args} {pieces : List (List Str)}
    (hpath : ep.pathParams = []) (h : ep.queryParams.mapM (queryPieces args) = some pieces)
    (hpieces : ∀ piece ∈ pieces.flatten, Piece piece)
    (hrequired : ep.queryParams ≠ [] → (∀ p ∈ ep.queryParams, p.required = true) → pieces.flatten ≠ []) :
    methodTarget ep args = some (if pieces.flatten = [] then ep.literalPath
      else ep.literalPath ++ '?' :: ['&'].intercalate pieces.flatten) := by
  have hquery := emitQueryParams_eq_some h fun piece hp => (hpieces piece hp).ne_nil
  rw [methodTarget, hpath, hquery]
  by_cases hnone : ep.queryParams = []
  · rw [hnone] at h
    obtain rfl := Option.some.inj h
    simp [hnone]
  · by_cases hflat : pieces.flatten = []
    · have hall : ep.queryParams.all (·.required) = false := by
        rw [← Bool.not_eq_true]
        intro hall
        exact hrequired hnone (fun p hp => List.all_eq_true.mp hall p hp) hflat
      simp [hnone, hall, hflat]
    · have hjoined := intercalate_ne_nil hpieces hflat
      simp [hnone, hflat, hjoined]

section

variable {ir : InvalidRead} {ho : HashOrders}

theorem queryPairs_methodTarget {spec : JsonObject} {endpoints : List Endpoint} {ep : Endpoint}
    (hrun : parseEndpoints ir ho spec = .ok endpoints) (hep : ep ∈ endpoints)
    (hpath : ep.pathParams = []) (hquestion : '?' ∉ ep.path)
    (hnames : ∀ p ∈ ep.queryParams, ∀ c ∈ p.wire_name, isUnreserved c = true)
    {args : Args} (hargs : ∀ p ∈ ep.queryParams, p.Takes (args p)) :
    ∃ target, methodTarget ep args = some target ∧
      queryPairs target = ep.queryParams.flatMap (givenPair args) ∧
      ('?' ∈ target → ep.queryParams.flatMap (givenPair args) ≠ []) := by
  have hparsed := parsed_of_mem_parseEndpoints hrun hep
  have hmem : ∀ p ∈ ep.queryParams, p ∈ ep.params := fun p hp => List.mem_of_mem_filter hp
  -- the pieces, parameter by parameter
  have hall : ∀ p ∈ ep.queryParams, ∃ pieces, queryPieces args p = some pieces ∧
      (∀ piece ∈ pieces, Piece piece) ∧ pieces.map readPair = givenPair args p := fun p hp =>
    queryPieces_eq (hparsed.flags p (hmem p hp)) (hnames p hp) (hargs p hp)
  obtain ⟨pieces, hpieces⟩ := exists_forall₂ hall
  have hrun := mapM_eq_some.mpr (hpieces.imp fun _ _ h => h.1)
  have hgood : ∀ piece ∈ pieces.flatten, Piece piece := by
    intro piece hpiece
    obtain ⟨ps, hps, hpiece⟩ := List.mem_flatten.mp hpiece
    obtain ⟨p, -, hp⟩ := forall₂_exists_left hpieces ps hps
    exact hp.2.1 piece hpiece
  have hread : pieces.flatten.map readPair = ep.queryParams.flatMap (givenPair args) := by
    have hmaps := hpieces.imp fun _ _ h => h.2.2
    clear hpieces hrun hgood hall
    generalize ep.queryParams = params at hmaps ⊢
    induction hmaps with
    | nil => rfl
    | cons h _ ih => rw [List.flatten_cons, List.map_append, List.flatMap_cons, h, ih]
  have hlit : '?' ∉ ep.literalPath := by
    have htemplate : ep.path_template = ep.path := by
      rw [hparsed.path_template, buildTemplate]
      show ep.pathParams.foldl _ ep.path = ep.path
      rw [hpath]
      rfl
    rw [Endpoint.literalPath, readLiteral_escapeCppString, htemplate]
    exact hquestion
  have hrequired : ep.queryParams ≠ [] → (∀ p ∈ ep.queryParams, p.required = true) →
      pieces.flatten ≠ [] := by
    intro hne hreq hnil
    obtain ⟨p, hp⟩ := List.exists_mem_of_ne_nil _ hne
    rw [hnil, List.map_nil] at hread
    have hnone := List.flatMap_eq_nil_iff.mp hread.symm p hp
    have htakes := hargs p hp
    unfold givenPair at hnone
    unfold ClientParam.Takes at htakes
    split at htakes
    · rw [hreq p hp] at htakes
      cases htakes
    · simp_all
    · exact htakes
  refine ⟨_, methodTarget_of_query hpath hrun hgood hrequired, ?_⟩
  rw [← hread]
  by_cases hflat : pieces.flatten = []
  · rw [if_pos hflat, hflat]
    exact ⟨queryPairs_of_no_query hlit, fun hq => absurd hq hlit⟩
  · rw [if_neg hflat]
    exact ⟨queryPairs_of_pieces hlit hgood hflat, fun _ => by simpa using hflat⟩

end

/-- A document with one path, one operation, and parameters of type string. -/
def getSpec (path : Str) (location : Str) (names : List Str) : JsonObject :=
  pathsSpec [(path, .obj [("get".toList, .obj [("parameters".toList,
    .arr (names.map fun name => declaredParam name location))])])]

/-- `/pets`, with a query parameter. -/
def searchSpec : JsonObject := getSpec "/pets".toList "query".toList ["q".toList]

def endpointsOf (spec : JsonObject) : List Endpoint :=
  match parseEndpoints .crash (HashOrder.newestFirst _) spec with
  | .ok endpoints => endpoints
  | .error _ => []

end Siesta
