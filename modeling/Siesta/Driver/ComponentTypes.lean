import Siesta.Driver.GeneratedFiles
import Siesta.IR.References
import Siesta.Runtime.Encoding

/-!
# The types written for references to components

`schemaToCppType` writes the last component of a `$ref` as it stands (`refComponentName`), while
`parseSchemas` stores a component under its sanitized name.  `Asks` says where a document has such a
reference, in a parameter or a request body of an endpoint, and `asks_written` what is written for it.
-/

namespace Siesta

open Lib JsonObject

/-! ### References to components -/

/-- A reference token of a JSON pointer: `~1` is a slash and `~0` a tilde. -/
def readTilde : Str → Str
  | '~' :: '1' :: s => '/' :: readTilde s
  | '~' :: '0' :: s => '~' :: readTilde s
  | c :: s => c :: readTilde s
  | [] => []

/-- The name a token in the fragment of a URI stands for. -/
def readToken (token : Str) : Str := readTilde (url_decode token)

/-- The reference is to the component `n`, which it writes as `token`. -/
structure RefersTo (ref token n : Str) : Prop where
  pointer : ref = "#/components/schemas/".toList ++ token
  whole : '/' ∉ token
  names : readToken token = n

theorem RefersTo.refComponentName_eq {ref token n : Str} (h : RefersTo ref token n) :
    refComponentName ref = token := by
  have hslash : "#/components/schemas/".toList = "#/components/schemas".toList ++ ['/'] := by decide
  have hcut : ref = "#/components/schemas".toList ++ '/' :: token := by
    rw [h.pointer, hslash, List.append_assoc, List.singleton_append]
  rw [refComponentName, afterLast_eq_some.mpr ⟨_, hcut, h.whole⟩, Option.getD_some]

theorem RefersTo.ne_nil {ref token n : Str} (h : RefersTo ref token n) : ref ≠ [] := by
  rw [h.pointer]
  simp

/-! ### Tokens and sanitized names -/

theorem readTilde_cons {c : Char} (h : c ≠ '~') (s : Str) : readTilde (c :: s) = c :: readTilde s := by
  rw [readTilde]
  · rintro s rfl
    exact absurd rfl h
  · rintro s rfl
    exact absurd rfl h

theorem readTilde_of_notMem {s : Str} (h : '~' ∉ s) : readTilde s = s := by
  induction s with
  | nil => rfl
  | cons c s ih =>
    rw [List.mem_cons, not_or] at h
    rw [readTilde_cons (Ne.symm h.1), ih h.2]

theorem readToken_of_notMem {s : Str} (hpercent : '%' ∉ s) (htilde : '~' ∉ s) : readToken s = s := by
  rw [readToken, url_decode_of_notMem hpercent, readTilde_of_notMem htilde]

theorem readToken_cons {c : Char} (hpercent : c ≠ '%') (htilde : c ≠ '~') (s : Str) :
    readToken (c :: s) = c :: readToken s := by
  rw [readToken, url_decode_cons hpercent, readTilde_cons htilde, readToken]

theorem readTilde_eq_or (s : Str) : readTilde s = s ∨ (readTilde s).length < s.length := by
  induction s using readTilde.induct with
  | case1 s ih =>
    right
    have hle : (readTilde s).length ≤ s.length := ih.elim (fun h => by rw [h]) le_of_lt
    simp only [readTilde, List.length_cons]
    omega
  | case2 s ih =>
    right
    have hle : (readTilde s).length ≤ s.length := ih.elim (fun h => by rw [h]) le_of_lt
    simp only [readTilde, List.length_cons]
    omega
  | case3 c s h₁ h₂ ih =>
    rw [readTilde]
    · rcases ih with ih | ih
      · exact .inl (by rw [ih])
      · exact .inr (by simpa using ih)
    · exact h₁
    · exact h₂
  | case4 => exact .inl rfl

theorem url_decode_eq_or (s : Str) : url_decode s = s ∨ (url_decode s).length < s.length := by
  induction s using url_decode.induct with
  | case1 hi lo s c h ih =>
    right
    have hle := length_url_decode_le s
    rw [url_decode_escape h]
    simp only [List.length_cons]
    omega
  | case2 hi lo s h ih =>
    rw [url_decode, h]
    rcases ih with ih | ih
    · exact .inl (by rw [ih])
    · exact .inr (by simpa using ih)
  | case3 c s hno ih =>
    rw [url_decode]
    · rcases ih with ih | ih
      · exact .inl (by rw [ih])
      · exact .inr (by simpa using ih)
    · exact hno
  | case4 => exact .inl rfl

theorem eq_of_readToken {token n : Str} (h : readToken token = n) (hlength : token.length ≤ n.length) :
    token = n := by
  unfold readToken at h
  rcases url_decode_eq_or token with hdecode | hdecode
  · rw [hdecode] at h
    rcases readTilde_eq_or token with htilde | htilde
    · rw [← h, htilde]
    · rw [h] at htilde
      omega
  · have hle : (readTilde (url_decode token)).length ≤ (url_decode token).length :=
      (readTilde_eq_or (url_decode token)).elim (fun h => by rw [h]) le_of_lt
    rw [h] at hle
    omega

theorem eq_nil_of_readToken {token : Str} (h : readToken token = []) : token = [] := by
  have htilde : ∀ s, readTilde s = [] → s = [] := by
    intro s hs
    induction s using readTilde.induct with
    | case1 s _ => rw [readTilde] at hs; cases hs
    | case2 s _ => rw [readTilde] at hs; cases hs
    | case3 c s h₁ h₂ _ =>
      rw [readTilde] at hs
      · cases hs
      · exact h₁
      · exact h₂
    | case4 => rfl
  have hdecode : ∀ s, url_decode s = [] → s = [] := by
    intro s hs
    induction s using url_decode.induct with
    | case1 hi lo s c hbyte _ => rw [url_decode_escape hbyte] at hs; cases hs
    | case2 hi lo s hbyte _ => rw [url_decode, hbyte] at hs; cases hs
    | case3 c s hno _ =>
      rw [url_decode] at hs
      · cases hs
      · exact hno
    | case4 => rfl
  exact hdecode token (htilde _ h)

/-- A name that the sanitized name stands for is left as it is by `sanitize`. -/
theorem sanitize_eq_of_readToken {n : Str} (h : readToken (sanitize n) = n) : sanitize n = n := by
  by_cases hn : n = []
  · rw [hn]
    rfl
  by_cases hreserved : replaceChars n ∈ RESERVED
  · -- a reserved word gets an underscore, which the name would have to have too
    have hwords : ∀ w ∈ RESERVED, '%' ∉ w ++ ['_'] ∧ '~' ∉ w ++ ['_'] ∧
        ∀ c ∈ w ++ ['_'], c ∉ sanitizedChars := by decide +kernel
    have hguard := guardDigit_reserved hreserved
    obtain ⟨hpercent, htilde, hclean⟩ := hwords _ hreserved
    have hsan : sanitize n = replaceChars n ++ ['_'] := by
      unfold sanitize
      simp only [hn, if_false, hreserved, if_true, hguard]
    rw [hsan, readToken_of_notMem hpercent htilde] at h
    have hsame : replaceChars n = n := by
      rw [← h]
      exact replaceChars_eq_self.mpr hclean
    rw [hsame] at h
    have hlength := congrArg List.length h
    rw [List.length_append, List.length_singleton] at hlength
    omega
  · have hsan : sanitize n = guardDigit (replaceChars n) := by
      unfold sanitize
      simp only [hn, if_false, hreserved]
    have hlength : (replaceChars n).length = n.length := List.length_map _
    cases n with
    | nil => exact absurd rfl hn
    | cons c s =>
      have hcons : replaceChars (c :: s) = (if c ∈ sanitizedChars then '_' else c) :: replaceChars s := rfl
      cases hdigit : (if c ∈ sanitizedChars then '_' else c).isDigit with
      | true =>
        -- a digit gets an underscore before it, with which the name would have to begin
        have hunderscore : sanitize (c :: s) = '_' :: replaceChars (c :: s) := by
          rw [hsan, hcons, guardDigit, hdigit, if_pos rfl]
        rw [hunderscore, readToken_cons (by decide) (by decide)] at h
        obtain ⟨rfl, -⟩ := List.cons.inj h
        exact absurd hdigit (by decide)
      | false =>
        have hsame : sanitize (c :: s) = replaceChars (c :: s) := by
          rw [hsan, hcons, guardDigit, hdigit]
          rfl
        exact eq_of_readToken h (by rw [hsame, hlength])

/-! ### Where a document refers to a component -/

section

variable (ir : InvalidRead) (ho : HashOrders) (spec : JsonObject)

inductive ParameterOf : JsonObject → Prop
  | component {components : JsonObject} {params : List (Str × Json)} {e : Str × Json}
      (hcomponents : objectField ir spec "components".toList = .ok components)
      (hparams : mapField ir components "parameters".toList = .ok params) (he : e ∈ params) :
      ParameterOf (ofMember e.2)
  | pathItem {paths : List (Str × Json)} {entry : Str × Json} {items : List Json} {item : Json}
      {o : JsonObject} (hpaths : mapField ir spec "paths".toList = .ok paths) (hentry : entry ∈ paths)
      (hitems : JsonObject.parameters ir (ofMember entry.2) = .ok items) (hitem : item ∈ items)
      (ho : ofElement item = .ok o) : ParameterOf o
  | operation {paths : List (Str × Json)} {entry op : Str × Json} {items : List Json} {item : Json}
      {o : JsonObject} (hpaths : mapField ir spec "paths".toList = .ok paths) (hentry : entry ∈ paths)
      (hop : op ∈ (ofMember entry.2).getD [])
      (hitems : JsonObject.parameters ir (ofMember op.2) = .ok items) (hitem : item ∈ items)
      (ho : ofElement item = .ok o) : ParameterOf o

/-- What is read of a parameter object: among the components, or in place. -/
inductive ReadsParameter (o : JsonObject) : ClientParam → Prop
  | fetched {cp : ClientParam} (h : fetchParameter ir o = .ok cp) : ReadsParameter o cp
  | inPlace {cp : ClientParam} {location : Str} {required : Bool} (h : readParameter ir o = .ok cp) :
      ReadsParameter o { cp with location, required }

/-- The endpoint is made from the operation `op` of the document. -/
def OperationOf (op : JsonObject) (ep : Endpoint) : Prop :=
  ∃ ctx paths entry method v co path_params_map, readContext ir spec = .ok ctx ∧
    mapField ir spec "paths".toList = .ok paths ∧ entry ∈ paths ∧
    (method, v) ∈ (ofMember entry.2).getD [] ∧ op = ofMember v ∧
    readOperation ir ctx.fetched_params entry.1 method op = .ok co ∧
    ep = endpointOf ho ctx path_params_map co

def ContentSchema (b schema : JsonObject) : Prop :=
  ∃ ct mt rest, content ir b = .ok ((ct, mt) :: rest) ∧ JsonObject.schema ir (ofMember mt) = .ok schema

/-- The schema of an operation's request body, which stands in the operation or is the last one with
content that the components have under the name. -/
inductive BodySchema (op : JsonObject) : Bool → JsonObject → Prop
  | inPlace {b schema : JsonObject} (hbody : JsonObject.requestBody ir op = .ok b)
      (href : JsonObject.ref ir b = .ok []) (hschema : ContentSchema ir b schema) :
      BodySchema op true schema
  | component {b components schema : JsonObject} {ref : Str} {bodies before after : List (Str × Json)}
      {v : Json} (hbody : JsonObject.requestBody ir op = .ok b) (href : JsonObject.ref ir b = .ok ref)
      (hne : ref ≠ []) (hcomponents : objectField ir spec "components".toList = .ok components)
      (hbodies : mapField ir components "requestBodies".toList = .ok bodies)
      (hsplit : bodies = before ++ (refComponentName ref, v) :: after)
      (hschema : ContentSchema ir (ofMember v) schema)
      (hlast : ∀ e ∈ after, e.1 = refComponentName ref → content ir (ofMember e.2) = .ok []) :
      BodySchema op false schema

/-- Where a type is written in a signature; a body is written in the operation or among the
components. -/
inductive Use where
  | param (i : ℕ)
  | body (in_place : Bool)

/-- For `use`, the document has a schema that is a `$ref` to the component `n`. -/
inductive Asks (ep : Endpoint) : Use → JsonObject → Str → Str → Prop
  | param {i : ℕ} {o schema : JsonObject} {cp : ClientParam} {ref token n : Str}
      (hparam : ep.params[i]? = some (sanitizedParam cp)) (hobject : ParameterOf ir spec o)
      (hread : ReadsParameter ir o cp) (hschema : JsonObject.schema ir o = .ok schema)
      (href : JsonObject.ref ir schema = .ok ref) (hrefers : RefersTo ref token n) :
      Asks ep (.param i) schema token n
  | body {op schema : JsonObject} {in_place : Bool} {ref token n : Str}
      (hop : OperationOf ir ho spec op ep) (hschema : BodySchema ir spec op in_place schema)
      (href : JsonObject.ref ir schema = .ok ref) (hrefers : RefersTo ref token n) :
      Asks ep (.body in_place) schema token n

/-- The type that is written for `use`: the token, unless the parameter's schema has a list for its type
that does not begin with a text, or the body's token is empty. -/
def writtenType (schema : JsonObject) (token : Str) : Use → Str
  | .param _ => if (JsonObject.type ir schema).isOk then token else []
  | .body in_place => if in_place && token.isEmpty then "std::string".toList else token

end

def Signature.typeAt (sig : Signature) : Use → Option Str
  | .param i => (sig.params[i]?).map DeclaredParam.type
  | .body _ => sig.body

/-! ### What is written there -/

section

variable {ir : InvalidRead} {ho : HashOrders} {spec : JsonObject}

theorem schemaToCppType_ref {schema : JsonObject} {ref : Str} (href : JsonObject.ref ir schema = .ok ref)
    (hne : ref ≠ []) : schema.isSome ∧ schemaToCppType ir schema = .ok (refComponentName ref) ∧
      ∃ format, JsonObject.format ir schema = .ok format := by
  cases schema with
  | none =>
    -- an invalid view has no reference
    cases ir with
    | crash => cases href
    | noSuchField =>
      obtain rfl := Except.ok.inj href
      exact absurd rfl hne
  | some members =>
    have hempty : ref.isEmpty = false := by simpa using hne
    refine ⟨rfl, ?_, _, rfl⟩
    unfold schemaToCppType isRef
    rw [href]
    simp only [bind, Except.bind, pure, Except.pure, hempty, Bool.not_false, if_true]

theorem cpp_type_of_fetchParameter {o schema : JsonObject} {cp : ClientParam} {ref : Str}
    (h : fetchParameter ir o = .ok cp) (hschema : JsonObject.schema ir o = .ok schema)
    (href : JsonObject.ref ir schema = .ok ref) (hne : ref ≠ []) :
    cp.cpp_type = refComponentName ref ∧ ∃ t, JsonObject.type ir schema = .ok t := by
  obtain ⟨name, -, h⟩ := bind_eq_ok.mp h
  obtain ⟨location, -, h⟩ := bind_eq_ok.mp h
  obtain ⟨required, -, h⟩ := bind_eq_ok.mp h
  obtain ⟨description, -, h⟩ := bind_eq_ok.mp h
  obtain ⟨schema', hschema', h⟩ := bind_eq_ok.mp h
  obtain rfl := Except.ok.inj (hschema.symm.trans hschema')
  obtain ⟨schema_type, htype, h⟩ := bind_eq_ok.mp h
  obtain ⟨format, -, h⟩ := bind_eq_ok.mp h
  obtain ⟨cpp_type, hcpp, h⟩ := bind_eq_ok.mp h
  obtain rfl := pure_eq_ok.mp h
  obtain ⟨-, hwritten, -⟩ := schemaToCppType_ref href hne
  exact ⟨Except.ok.inj (hcpp.symm.trans hwritten), schema_type, htype⟩

/-- A parameter that is read in place: where the type of its schema cannot be read, none is written. -/
theorem cpp_type_of_readParameter {o schema : JsonObject} {cp : ClientParam} {ref : Str}
    (h : readParameter ir o = .ok cp) (hschema : JsonObject.schema ir o = .ok schema)
    (href : JsonObject.ref ir schema = .ok ref) (hne : ref ≠ []) :
    cp.cpp_type = if (JsonObject.type ir schema).isOk then refComponentName ref else [] := by
  obtain ⟨-, hwritten, format, hformat⟩ := schemaToCppType_ref href hne
  obtain ⟨name, -, h⟩ := bind_eq_ok.mp h
  obtain ⟨description, -, h⟩ := bind_eq_ok.mp h
  obtain ⟨schema', hschema', h⟩ := bind_eq_ok.mp h
  obtain rfl := Except.ok.inj (hschema.symm.trans hschema')
  cases htype : JsonObject.type ir schema with
  | ok t =>
    simp only [htype, hformat, hwritten, bind, Except.bind] at h
    obtain rfl := pure_eq_ok.mp h
    rfl
  | error fault =>
    simp only [htype, bind, Except.bind] at h
    cases fault with
    | exception =>
      obtain rfl := pure_eq_ok.mp h
      rfl
    | _ => cases h

theorem cpp_type_of_readsParameter {o schema : JsonObject} {cp : ClientParam} {ref : Str}
    (h : ReadsParameter ir o cp) (hschema : JsonObject.schema ir o = .ok schema)
    (href : JsonObject.ref ir schema = .ok ref) (hne : ref ≠ []) :
    cp.cpp_type = if (JsonObject.type ir schema).isOk then refComponentName ref else [] := by
  cases h with
  | fetched h =>
    obtain ⟨hcpp, t, ht⟩ := cpp_type_of_fetchParameter h hschema href hne
    rw [hcpp, ht]
    rfl
  | inPlace h =>
    have hcpp := cpp_type_of_readParameter h hschema href hne
    exact hcpp

theorem find_keeps {k t : Str} {m' : Table Str Str} :
    ∀ {after : List (Str × Json)} {m : Table Str Str},
      (∀ e ∈ after, e.1 = k → content ir (ofMember e.2) = .ok []) → m.find k = some t →
      after.foldlM (fun names b => do
        match ← bodySchemaName ir (ofMember b.2) with
        | some name => return names.set b.1 name
        | none => return names) m = .ok m' → m'.find k = some t := by
  intro after
  induction after with
  | nil =>
    intro m _ hfind h
    obtain rfl := pure_eq_ok.mp h
    exact hfind
  | cons e after ih =>
    intro m hlast hfind h
    rw [List.foldlM_cons] at h
    obtain ⟨m₁, hstep, h⟩ := bind_eq_ok.mp h
    refine ih (fun e' he' => hlast e' (List.mem_cons_of_mem _ he')) ?_ h
    obtain ⟨r, hr, hstep⟩ := bind_eq_ok.mp hstep
    cases r with
    | none =>
      obtain rfl := pure_eq_ok.mp hstep
      exact hfind
    | some name =>
      obtain rfl := pure_eq_ok.mp hstep
      rw [Table.find_set, if_neg, hfind]
      -- a body that is stored has content
      rintro rfl
      have hnil := hlast e (List.mem_cons_self ..) rfl
      rcases bodySchemaName_cases hr with ⟨-, hnone⟩ | ⟨_, _, _, _, _, hcons, -, -, -⟩
      · cases hnone
      · exact absurd (Except.ok.inj (hnil.symm.trans hcons)) (by simp)

/-- What is stored for a body of the components: the last one with content decides. -/
theorem find_body_schema_names {ctx : EndpointContext} (hctx : readContext ir spec = .ok ctx)
    {components schema : JsonObject} {bodies before after : List (Str × Json)} {k t : Str} {v : Json}
    (hcomponents : objectField ir spec "components".toList = .ok components)
    (hbodies : mapField ir components "requestBodies".toList = .ok bodies)
    (hsplit : bodies = before ++ (k, v) :: after) (hschema : ContentSchema ir (ofMember v) schema)
    (ht : schemaToCppType ir schema = .ok t)
    (hlast : ∀ e ∈ after, e.1 = k → content ir (ofMember e.2) = .ok []) :
    ctx.body_schema_names.find k = some t := by
  unfold readContext at hctx
  rw [hcomponents] at hctx
  obtain ⟨components', hc, h⟩ := bind_eq_ok.mp hctx
  obtain rfl := Except.ok.inj hc
  obtain ⟨params, -, h⟩ := bind_eq_ok.mp h
  obtain ⟨fetched, -, h⟩ := bind_eq_ok.mp h
  obtain ⟨bodies', hb, h⟩ := bind_eq_ok.mp h
  obtain rfl := Except.ok.inj (hbodies.symm.trans hb)
  obtain ⟨names, hnames, h⟩ := bind_eq_ok.mp h
  obtain ⟨schemes, -, h⟩ := bind_eq_ok.mp h
  obtain ⟨infos, -, h⟩ := bind_eq_ok.mp h
  obtain ⟨global, -, h⟩ := bind_eq_ok.mp h
  obtain rfl := pure_eq_ok.mp h
  show names.find k = some t
  rw [hsplit, List.foldlM_append] at hnames
  obtain ⟨m₁, -, hnames⟩ := bind_eq_ok.mp hnames
  rw [List.foldlM_cons] at hnames
  obtain ⟨m₂, hstep, hnames⟩ := bind_eq_ok.mp hnames
  -- the body itself
  have hfind : m₂.find k = some t := by
    obtain ⟨r, hr, hstep⟩ := bind_eq_ok.mp hstep
    obtain ⟨ct, mt, rest, hcontent, hread⟩ := hschema
    rcases bodySchemaName_cases hr with ⟨hnil, -⟩ | ⟨ct', mt', rest', schema', t', hcons, hread', ht', rfl⟩
    · exact absurd (Except.ok.inj (hcontent.symm.trans hnil)) (by simp)
    · obtain ⟨hfirst, -⟩ := List.cons.inj (Except.ok.inj (hcontent.symm.trans hcons))
      obtain ⟨-, rfl⟩ := Prod.mk.inj hfirst
      obtain rfl := Except.ok.inj (hread.symm.trans hread')
      obtain rfl := Except.ok.inj (ht.symm.trans ht')
      obtain rfl := pure_eq_ok.mp hstep
      rw [Table.find_set, if_pos rfl]
  exact find_keeps hlast hfind hnames

theorem readOperation_body {fetched_params : Table Str ClientParam} {path method : Str}
    {op b : JsonObject} {co : ColOp} (h : readOperation ir fetched_params path method op = .ok co)
    (hbody : JsonObject.requestBody ir op = .ok b) :
    ∃ co₀ co₁, co₀.hasRequestBody = false ∧ co₀.bodyRef = none ∧ readBody ir b co₀ = .ok co₁ ∧
      co.hasRequestBody = co₁.hasRequestBody ∧ co.bodyRef = co₁.bodyRef ∧ co.bodyType = co₁.bodyType := by
  obtain ⟨summary, -, h⟩ := bind_eq_ok.mp h
  obtain ⟨description, -, h⟩ := bind_eq_ok.mp h
  obtain ⟨items, -, h⟩ := bind_eq_ok.mp h
  obtain ⟨op_params, -, h⟩ := bind_eq_ok.mp h
  obtain ⟨b', hb', h⟩ := bind_eq_ok.mp h
  obtain rfl := Except.ok.inj (hbody.symm.trans hb')
  obtain ⟨co₁, hread, h⟩ := bind_eq_ok.mp h
  obtain ⟨hasOpSecurity, -, h⟩ := bind_eq_ok.mp h
  obtain rfl := pure_eq_ok.mp h
  exact ⟨_, co₁, rfl, rfl, hread, rfl, rfl, rfl⟩

theorem body_written {op schema : JsonObject} {ep : Endpoint} {in_place : Bool} {ref : Str}
    (hop : OperationOf ir ho spec op ep) (hschema : BodySchema ir spec op in_place schema)
    (href : JsonObject.ref ir schema = .ok ref) (hne : ref ≠ []) :
    (signatureOf ep).body = some (if in_place && (refComponentName ref).isEmpty then "std::string".toList
      else refComponentName ref) := by
  obtain ⟨ctx, paths, entry, method, v, co, path_params_map, hctx, -, -, -, rfl, hco, rfl⟩ := hop
  obtain ⟨hsome, hwritten, -⟩ := schemaToCppType_ref href hne
  -- the body of an endpoint is that of the record
  have hsig : ∀ t content_type, endpointBody ctx co = (true, t, content_type) →
      (signatureOf (endpointOf ho ctx path_params_map co)).body = some t := by
    intro t content_type h
    unfold signatureOf endpointOf
    simp only [h, if_true]
  cases hschema with
  | inPlace hbody hbref hcontent =>
    obtain ⟨co₀, co₁, -, hnoref, hread, hhas, hbodyRef, htype⟩ := readOperation_body hco hbody
    obtain ⟨ct, mt, rest, hcontent, hschema⟩ := hcontent
    rename_i b
    cases b with
    | none =>
      -- an invalid view has no content
      cases ir with
      | crash => cases hcontent
      | noSuchField => cases hcontent
    | some members =>
      have hco₁ : readBody ir (some members) co₀ = .ok { co₀ with
          hasRequestBody := true, bodyContentType := ct
          bodyType := if (refComponentName ref).isEmpty then "std::string".toList
            else refComponentName ref } := by
        unfold readBody
        have hbref : stringField ir (some members) "$ref".toList = .ok [] := hbref
        simp only [Option.isNone_some, Bool.false_eq_true, if_false, hbref, bind, Except.bind,
          List.isEmpty_nil, Bool.not_true, hcontent, hschema, hsome, if_true, hwritten]
        rfl
      obtain rfl := Except.ok.inj (hread.symm.trans hco₁)
      refine hsig _ co.bodyContentType ?_
      rw [endpointBody_place hhas (hbodyRef.trans hnoref), htype]
      rfl
  | component hbody hbref hbne hcomponents hbodies hsplit hcontent hlast =>
    obtain ⟨co₀, co₁, -, -, hread, hhas, hbodyRef, -⟩ := readOperation_body hco hbody
    have hfind := find_body_schema_names hctx hcomponents hbodies hsplit hcontent hwritten hlast
    rename_i b components bref bodies before after v
    cases b with
    | none =>
      cases ir with
      | crash => cases hbref
      | noSuchField =>
        obtain rfl := Except.ok.inj hbref
        exact absurd rfl hbne
    | some members =>
      have hempty : bref.isEmpty = false := by simpa using hbne
      have hco₁ : readBody ir (some members) co₀ =
          .ok { co₀ with hasRequestBody := true, bodyRef := some (refComponentName bref) } := by
        unfold readBody
        have hbref : stringField ir (some members) "$ref".toList = .ok bref := hbref
        simp only [Option.isNone_some, Bool.false_eq_true, if_false, hbref, bind, Except.bind, hempty,
          Bool.not_false, if_true]
        rfl
      obtain rfl := Except.ok.inj (hread.symm.trans hco₁)
      refine hsig _ [] ?_
      unfold endpointBody
      simp only [hhas, if_true, hbodyRef, hfind, Bool.false_and, Bool.false_eq_true, if_false]

theorem Asks.names {ep : Endpoint} {u : Use} {schema : JsonObject} {token n : Str}
    (h : Asks ir ho spec ep u schema token n) : readToken token = n := by
  cases h with
  | param _ _ _ _ _ hrefers => exact hrefers.names
  | body _ _ _ hrefers => exact hrefers.names

/-- **What is written for a reference to a component.** -/
theorem asks_written {ep : Endpoint} {u : Use} {schema : JsonObject} {token n : Str}
    (h : Asks ir ho spec ep u schema token n) :
    (signatureOf ep).typeAt u = some (writtenType ir schema token u) := by
  cases h with
  | param hparam hobject hread hschema href hrefers =>
    have hcpp := cpp_type_of_readsParameter hread hschema href hrefers.ne_nil
    rw [hrefers.refComponentName_eq] at hcpp
    unfold Signature.typeAt signatureOf writtenType
    simp only [List.getElem?_map, hparam, Option.map_some, sanitizedParam, hcpp]
  | body hop hschema href hrefers =>
    have hbody := body_written hop hschema href hrefers.ne_nil
    rw [hrefers.refComponentName_eq] at hbody
    exact hbody

/-! ### Every type comes from the document -/

theorem fetched_rows {params : List (Str × Json)} {m m' : Table Str ClientParam}
    (h : params.foldlM (fun fetched p => do
      let cp ← fetchParameter ir (ofMember p.2)
      return fetched.set p.1 cp) m = .ok m') :
    ∀ k cp, m'.find k = some cp →
      m.find k = some cp ∨ ∃ e ∈ params, fetchParameter ir (ofMember e.2) = .ok cp := by
  induction params generalizing m with
  | nil =>
    obtain rfl := pure_eq_ok.mp h
    exact fun k cp hk => .inl hk
  | cons e params ih =>
    intro k cp hk
    rw [List.foldlM_cons] at h
    obtain ⟨m₁, hstep, h⟩ := bind_eq_ok.mp h
    obtain ⟨cp₁, hcp₁, hstep⟩ := bind_eq_ok.mp hstep
    obtain rfl := pure_eq_ok.mp hstep
    rcases ih h k cp hk with hfind | ⟨e', he', hread⟩
    · rw [Table.find_set] at hfind
      split at hfind
      · obtain rfl := Option.some.inj hfind
        exact .inr ⟨e, List.mem_cons_self .., hcp₁⟩
      · exact .inl hfind
    · exact .inr ⟨e', List.mem_cons_of_mem _ he', hread⟩

theorem parameterOf_of_find {ctx : EndpointContext} (hctx : readContext ir spec = .ok ctx) {k : Str}
    {cp : ClientParam} (hfind : ctx.fetched_params.find k = some cp) :
    ∃ o, ParameterOf ir spec o ∧ ReadsParameter ir o cp := by
  obtain ⟨components, hcomponents, h⟩ := bind_eq_ok.mp hctx
  obtain ⟨params, hparams, h⟩ := bind_eq_ok.mp h
  obtain ⟨fetched, hfetched, h⟩ := bind_eq_ok.mp h
  obtain ⟨bodies, -, h⟩ := bind_eq_ok.mp h
  obtain ⟨names, -, h⟩ := bind_eq_ok.mp h
  obtain ⟨schemes, -, h⟩ := bind_eq_ok.mp h
  obtain ⟨infos, -, h⟩ := bind_eq_ok.mp h
  obtain ⟨global, -, h⟩ := bind_eq_ok.mp h
  obtain rfl := pure_eq_ok.mp h
  have hall : ∀ k cp, fetched.find k = some cp → ∃ e ∈ params, fetchParameter ir (ofMember e.2) = .ok cp := by
    have hrows := fetched_rows hfetched
    intro k cp hk
    exact (hrows k cp hk).resolve_left (by simp)
  obtain ⟨e, he, hread⟩ := hall k cp hfind
  exact ⟨_, .component hcomponents hparams he, .fetched hread⟩

/-- The parameters of a list are read in place or among the components. -/
theorem parameterOf_of_resolveParameters {ctx : EndpointContext} (hctx : readContext ir spec = .ok ctx)
    {items : List Json} {params : List ClientParam}
    (h : resolveParameters ir ctx.fetched_params items = .ok params)
    (hitems : ∀ item ∈ items, ∀ o, ofElement item = .ok o → ParameterOf ir spec o) :
    ∀ cp ∈ params, ∃ o, ParameterOf ir spec o ∧ ReadsParameter ir o cp := by
  intro cp hcp
  obtain ⟨item, hitem, hread⟩ := forall₂_exists_left (mapM_eq_ok.mp h) cp hcp
  obtain ⟨raw_param, hraw, h⟩ := bind_eq_ok.mp hread
  obtain ⟨ref, -, h⟩ := bind_eq_ok.mp h
  split at h
  · rename_i found hfound
    obtain rfl := pure_eq_ok.mp h
    split at hfound
    · cases hfound
    · exact parameterOf_of_find hctx hfound
  · obtain ⟨cp', hcp', h⟩ := bind_eq_ok.mp h
    obtain ⟨location, -, h⟩ := bind_eq_ok.mp h
    obtain ⟨required, -, h⟩ := bind_eq_ok.mp h
    obtain rfl := pure_eq_ok.mp h
    exact ⟨raw_param, hitems item hitem raw_param hraw, .inPlace hcp'⟩

/-- **The endpoints come from the document**: each is made from an operation, and each of its parameters
is what is read of a parameter object. -/
theorem endpoint_of_document {endpoints : List Endpoint} {ep : Endpoint}
    (h : parseEndpoints ir ho spec = .ok endpoints) (hep : ep ∈ endpoints) :
    (∃ op, OperationOf ir ho spec op ep) ∧
      ∀ p ∈ ep.params, ∃ o cp, ParameterOf ir spec o ∧ ReadsParameter ir o cp ∧ p = sanitizedParam cp := by
  rw [parseEndpoints_eq] at h
  obtain ⟨ctx, hctx, h⟩ := bind_eq_ok.mp h
  obtain ⟨paths, hpaths, h⟩ := bind_eq_ok.mp h
  obtain ⟨reads, hreads, h⟩ := bind_eq_ok.mp h
  obtain rfl := pure_eq_ok.mp h
  obtain ⟨co, hco, rfl⟩ := List.mem_map.mp hep
  -- an item of the loop over the paths: the parameters of the item, and its operations
  have hitem : ∀ r ∈ reads, (∀ cp ∈ r.1, ∃ o, ParameterOf ir spec o ∧ ReadsParameter ir o cp) ∧
      ∀ co ∈ r.2, (∃ entry ∈ paths, ∃ op ∈ (ofMember entry.2).getD [],
          readOperation ir ctx.fetched_params entry.1 op.1 (ofMember op.2) = .ok co) ∧
        ∀ cp ∈ co.op_params, ∃ o, ParameterOf ir spec o ∧ ReadsParameter ir o cp := by
    intro r hr
    obtain ⟨entry, hentry, hread⟩ := forall₂_exists_left (mapM_eq_ok.mp hreads) r hr
    obtain ⟨items, hitems, hread⟩ := bind_eq_ok.mp hread
    obtain ⟨path_params, hparams, hread⟩ := bind_eq_ok.mp hread
    obtain ⟨ops, hops, hread⟩ := bind_eq_ok.mp hread
    obtain rfl := pure_eq_ok.mp hread
    constructor
    · exact parameterOf_of_resolveParameters hctx hparams fun item hitem o ho =>
        .pathItem hpaths hentry hitems hitem ho
    · intro co hco
      obtain ⟨op, hop, hread⟩ := forall₂_exists_left (mapM_eq_ok.mp hops) co hco
      refine ⟨⟨entry, hentry, op, hop, hread⟩, ?_⟩
      obtain ⟨summary, -, h⟩ := bind_eq_ok.mp hread
      obtain ⟨description, -, h⟩ := bind_eq_ok.mp h
      obtain ⟨items, hitems, h⟩ := bind_eq_ok.mp h
      obtain ⟨op_params, hop_params, h⟩ := bind_eq_ok.mp h
      obtain ⟨req_body, -, h⟩ := bind_eq_ok.mp h
      obtain ⟨co', hbody, h⟩ := bind_eq_ok.mp h
      obtain ⟨hasOpSecurity, -, h⟩ := bind_eq_ok.mp h
      obtain rfl := pure_eq_ok.mp h
      show ∀ cp ∈ co'.op_params, _
      rw [(readBody_path hbody).2]
      exact parameterOf_of_resolveParameters hctx hop_params fun item hitem o ho =>
        .operation hpaths hentry hop hitems hitem ho
  obtain ⟨r, hr, hcor⟩ := List.mem_flatMap.mp (List.mem_of_mem_filter hco)
  obtain ⟨⟨entry, hentry, op, hop, hread⟩, hop_params⟩ := (hitem r hr).2 co hcor
  constructor
  · exact ⟨_, ctx, paths, entry, op.1, op.2, co, _, hctx, hpaths, hentry, hop, rfl, hread, rfl⟩
  · intro p hp
    obtain ⟨cp, hcp, rfl⟩ := List.mem_map.mp hp
    have hsource : ∃ o, ParameterOf ir spec o ∧ ReadsParameter ir o cp := by
      rcases Option.or_eq_some_iff.mp (mem_orderedParams.mp hcp).1 with hfound | ⟨-, hfound⟩
      · exact hop_params cp (mem_of_lastNamed hfound)
      · obtain ⟨r', hr', hcp'⟩ := List.mem_flatMap.mp (mem_of_lastNamed hfound)
        exact (hitem r' hr').1 cp hcp'
    obtain ⟨o, ho, hread⟩ := hsource
    exact ⟨o, cp, ho, hread, rfl⟩

end

end Siesta
