import Siesta.Backend.BeastClient
import Siesta.Backend.PythonBindings
import Siesta.Runtime.ServerSession

/-!
# The requests of the generated client: `generator/src/Backend/Beast/BeastClientGen.cpp`

`clientRequest` is what a generated method passes to `async_submit_request`: the statements of
`emitMethodBody` in their order.  The class has one credential, of the kind `detectAuth` finds; every endpoint
of a document that has any has the same (`authTypes_eq`), so each method finds the member it writes unless a
parameter hides it, and its request carries the credential and the header parameters it is given
(`request_of_call`).
-/

namespace Siesta

open Lib JsonObject

/-! ### What is written -/

/-- A request of `boost::beast::http`; its field names stand in lower case, and `set` leaves one value of
each. -/
structure ClientRequest where
  method : Verb := ⟨"get".toList⟩
  target : Str := []
  body : Str := []
  fields : Str → Option Str := fun _ => none

/-- `req.set(name, value)`. -/
def ClientRequest.set (req : ClientRequest) (name value : Str) : ClientRequest :=
  { req with fields := Function.update req.fields (toLower name) (some value) }

/-- What is documented of `prepare_payload`: it writes the fields that frame the body, and changes nothing
else. -/
structure FramesBody (prepare_payload : ClientRequest → ClientRequest) : Prop where
  method : ∀ req, (prepare_payload req).method = req.method
  target : ∀ req, (prepare_payload req).target = req.target
  body : ∀ req, (prepare_payload req).body = req.body
  fields : ∀ req n, n ≠ contentLength → n ≠ transferEncoding → (prepare_payload req).fields n = req.fields n

/-- `auth_member_name_` or `auth_value_member_`: the member that a method writes as the credential. -/
def credentialMember (auth : AuthInfo) (ep : Endpoint) : Str :=
  if ep.auth_type = .HttpBearer then "_auth_header".toList else '_' :: auth.name

/-- The text behind the name of a member; a parameter of that name hides it, and `set` takes strings only. -/
def memberValue (ep : Endpoint) (args : Args) (name : Str) (member : Option Str) : Option Str :=
  match ep.params.find? (·.name = name) with
  | some p =>
    match args p with
    | some (.scalar v) => if p.required then v.asString else none
    | _ => none
  | none => member

section

variable (v : Cpp.Vocabulary) (prepare_payload : ClientRequest → ClientRequest) (auth : AuthInfo)
  (credential : Str)

/-- `_api_key` or `_bearer_token`, if the class has such a member. -/
def authMember : Option Str := if auth.type ≠ .None then some credential else none

/-- `_auth_header`, which the class has only with bearer tokens. -/
def authHeader : Option Str :=
  if auth.type = .HttpBearer then some ("Bearer ".toList ++ credential) else none

/-- `emitRequestBody`, for a body that is serialized as `body`. -/
def emitRequestBody (ep : Endpoint) (body : Str) (req : ClientRequest) : Option ClientRequest :=
  if ep.has_request_body then do
    let content_type ← readUnescaped ep.body_content_type
    return prepare_payload ({ req with body }.set contentType content_type)
  else some req

/-- `emitMethodBody`: the authentication. -/
def emitAuth (ep : Endpoint) (args : Args) (req : ClientRequest) : Option ClientRequest :=
  match ep.auth_type with
  | .ApiKey => do
    let name ← readUnescaped ep.auth_header_name
    let value ← memberValue ep args (credentialMember auth ep) (authMember auth credential)
    return req.set name value
  | .HttpBearer => do
    let name ← readUnescaped ep.auth_header_name
    let value ← memberValue ep args (credentialMember auth ep) (authHeader auth credential)
    return req.set name value
  | .None => some req

/-- `emitHeaderParams`: one parameter.  `set` takes strings only. -/
def emitHeaderParam (args : Args) (req : ClientRequest) (p : ClientParam) : Option ClientRequest := do
  let name ← readUnescaped p.wire_name
  match args p with
  | none => if p.required then none else return req
  | some (.scalar v) => v.asString.map (req.set name)
  | some (.vector _) => none

/-- `emitMethodBody`: the request, if the method can be compiled and called with these arguments. -/
def clientRequest (ep : Endpoint) (args : Args) (body : Str) : Option ClientRequest := do
  let target ← clientTarget v ep args
  let req ← emitRequestBody prepare_payload ep body { target }
  let req ← emitAuth auth credential ep args { req with method := ep.verb }
  ep.headerParams.foldlM (emitHeaderParam args) req

end

/-! ### One credential for all endpoints -/

section

variable {ir : InvalidRead} {ho : HashOrders} {spec : JsonObject} {endpoints : List Endpoint} {ep e : Endpoint}

/-- An endpoint has no authentication, or that of the document. -/
theorem exists_documentAuth (hrun : parseEndpoints ir ho spec = .ok endpoints) :
    ∃ auth : AuthType × Str, ∀ ep ∈ endpoints,
      ep.auth_type = .None ∨ (ep.auth_type, ep.auth_header_name) = auth := by
  obtain ⟨ctx, -, hrun⟩ := bind_eq_ok.mp hrun
  obtain ⟨paths, -, hrun⟩ := bind_eq_ok.mp hrun
  obtain ⟨⟨params, collected⟩, -, hrun⟩ := bind_eq_ok.mp hrun
  obtain rfl := pure_eq_ok.mp hrun
  refine ⟨endpointAuth ho ctx true, fun ep hep => ?_⟩
  obtain ⟨co, -, rfl⟩ := List.mem_map.mp hep
  have hauth : ((endpointOf ho ctx params co).auth_type, (endpointOf ho ctx params co).auth_header_name) =
      endpointAuth ho ctx co.hasOpSecurity := rfl
  by_cases hown : (co.hasOpSecurity || ctx.has_global_security) = true
  · right
    rw [hauth, endpointAuth, endpointAuth, if_pos hown, Bool.true_or, if_pos rfl]
  · left
    rw [endpointAuth, if_neg hown] at hauth
    exact congrArg Prod.fst hauth

theorem detectAuth_type (endpoints : List Endpoint) :
    (detectAuth endpoints).type = .None ∧ (∀ ep ∈ endpoints, ep.auth_type = .None) ∨
    ∃ ep ∈ endpoints, ep.auth_type ≠ .None ∧ (detectAuth endpoints).type = ep.auth_type := by
  induction endpoints with
  | nil => exact .inl ⟨rfl, by simp⟩
  | cons ep endpoints ih =>
    rw [detectAuth]
    by_cases hep : ep.auth_type = .None
    · rw [if_neg (not_not.mpr hep)]
      rcases ih with ⟨hnone, hall⟩ | ⟨e, he, h⟩
      · exact .inl ⟨hnone, List.forall_mem_cons.mpr ⟨hep, hall⟩⟩
      · exact .inr ⟨e, List.mem_cons_of_mem _ he, h⟩
    · rw [if_pos hep]
      exact .inr ⟨ep, List.mem_cons_self .., hep, rfl⟩

/-- The endpoints of a document that have authentication have the kind of the class, and one header. -/
theorem authTypes_eq (hrun : parseEndpoints ir ho spec = .ok endpoints) (hep : ep ∈ endpoints)
    (hauth : ep.auth_type ≠ .None) :
    (detectAuth endpoints).type = ep.auth_type ∧
      ∀ e ∈ endpoints, e.auth_type ≠ .None →
        e.auth_type = ep.auth_type ∧ e.auth_header_name = ep.auth_header_name := by
  obtain ⟨auth, hall⟩ := exists_documentAuth hrun
  have hsame : ∀ e ∈ endpoints, e.auth_type ≠ .None →
      e.auth_type = ep.auth_type ∧ e.auth_header_name = ep.auth_header_name := fun e he hne =>
    Prod.mk.inj (((hall e he).resolve_left hne).trans ((hall ep hep).resolve_left hauth).symm)
  refine ⟨?_, hsame⟩
  rcases detectAuth_type endpoints with ⟨-, hnone⟩ | ⟨e, he, hne, htype⟩
  · exact absurd (hnone ep hep) hauth
  · rw [htype]
    exact (hsame e he hne).1

end

/-! ### What a request carries -/

/-- A text that stands between quotes as it is. -/
def PlainLiteral (s : Str) : Prop := ∀ c ∈ s, c ∉ ['\\', '"', '\n', '\r']

theorem readUnescaped_of_plain {s : Str} (h : PlainLiteral s) : readUnescaped s = some s := by
  induction s with
  | nil => rfl
  | cons c s ih =>
    have hc := h c (List.mem_cons_self ..)
    have hslash : c ≠ '\\' := fun hd => hc (hd ▸ List.mem_cons_self ..)
    have hs := ih fun d hd => h d (List.mem_cons_of_mem _ hd)
    rw [readUnescaped, if_neg hc, hs]
    · rfl
    · rintro _ _ rfl
      exact absurd rfl hslash

def HeaderArg (args : Args) (p : ClientParam) : Prop :=
  (args p = none ∧ p.required = false) ∨ ∃ s, args p = some (.scalar (.string s))

def authText (auth_type : AuthType) (credential : Str) : Option Str :=
  match auth_type with
  | .None => none
  | .ApiKey => some credential
  | .HttpBearer => some ("Bearer ".toList ++ credential)

@[simp] theorem ClientRequest.set_self (req : ClientRequest) (name value : Str) :
    (req.set name value).fields (toLower name) = some value := Function.update_self ..

theorem ClientRequest.set_of_ne (req : ClientRequest) {name n : Str} (h : toLower name ≠ n) (value : Str) :
    (req.set name value).fields n = req.fields n := Function.update_of_ne (Ne.symm h) ..

section

variable {prepare_payload : ClientRequest → ClientRequest} {args : Args}

theorem emitHeaderParam_eq {p : ClientParam} (hname : PlainLiteral p.wire_name) (req : ClientRequest) :
    (args p = none → p.required = false → emitHeaderParam args req p = some req) ∧
      ∀ s, args p = some (.scalar (.string s)) → emitHeaderParam args req p = some (req.set p.wire_name s) := by
  unfold emitHeaderParam
  rw [readUnescaped_of_plain hname]
  constructor
  · intro harg hrequired
    rw [harg]
    simp [hrequired]
  · intro s harg
    rw [harg]
    rfl

/-- What the header parameters leave of the fields, and what they add. -/
structure HeadersSent (args : Args) (params : List ClientParam) (req req' : ClientRequest) : Prop where
  keeps : ∀ n, (∀ p ∈ params, args p ≠ none → toLower p.wire_name ≠ n) → req'.fields n = req.fields n
  sent : (params.map fun p => toLower p.wire_name).Nodup → ∀ p ∈ params, ∀ s,
    args p = some (.scalar (.string s)) → req'.fields (toLower p.wire_name) = some s

theorem emitHeaderParams_run {params : List ClientParam}
    (hargs : ∀ p ∈ params, PlainLiteral p.wire_name ∧ HeaderArg args p) (req : ClientRequest) :
    ∃ req', params.foldlM (emitHeaderParam args) req = some req' ∧ HeadersSent args params req req' := by
  induction params generalizing req with
  | nil => exact ⟨req, rfl, fun _ _ => rfl, by simp⟩
  | cons p params ih =>
    obtain ⟨hname, harg⟩ := hargs p (List.mem_cons_self ..)
    have hrest : ∀ q ∈ params, PlainLiteral q.wire_name ∧ HeaderArg args q := fun q hq =>
      hargs q (List.mem_cons_of_mem _ hq)
    rw [List.foldlM_cons]
    rcases harg with ⟨hnone, hrequired⟩ | ⟨s, hs⟩
    · obtain ⟨req', hrun, h⟩ := ih hrest req
      rw [(emitHeaderParam_eq hname req).1 hnone hrequired]
      refine ⟨req', hrun, fun n hn => h.keeps n fun q hq => hn q (List.mem_cons_of_mem _ hq),
        fun hnodup q hq t ht => ?_⟩
      rcases List.mem_cons.mp hq with rfl | hq
      · rw [hnone] at ht
        cases ht
      · exact h.sent (List.nodup_cons.mp hnodup).2 q hq t ht
    · obtain ⟨req', hrun, h⟩ := ih hrest (req.set p.wire_name s)
      rw [(emitHeaderParam_eq hname req).2 s hs]
      refine ⟨req', hrun, fun n hn => ?_, fun hnodup q hq t ht => ?_⟩
      · rw [h.keeps n fun q hq => hn q (List.mem_cons_of_mem _ hq)]
        exact req.set_of_ne (hn p (List.mem_cons_self ..) (by simp [hs])) s
      · rcases List.mem_cons.mp hq with rfl | hq
        · -- no later parameter has the name
          rw [hs] at ht
          cases ht
          rw [h.keeps _ fun r hr _ heq => (List.nodup_cons.mp hnodup).1 (List.mem_map.mpr ⟨r, hr, heq⟩)]
          exact req.set_self ..
        · exact h.sent (List.nodup_cons.mp hnodup).2 q hq t ht

theorem readMember_of_free {ep : Endpoint} {name : Str} (h : ∀ p ∈ ep.params, p.name ≠ name)
    (member : Option Str) : memberValue ep args name member = member := by
  have hnone : ep.params.find? (fun p => decide (p.name = name)) = none :=
    List.find?_eq_none.mpr fun p hp => by simpa using h p hp
  rw [memberValue, hnone]

theorem emitAuth_run {auth : AuthInfo} {ep : Endpoint} (credential : Str)
    (htype : ep.auth_type ≠ .None → auth.type = ep.auth_type) (hname : PlainLiteral ep.auth_header_name)
    (hmember : ep.auth_type ≠ .None → ∀ p ∈ ep.params, p.name ≠ credentialMember auth ep) (req : ClientRequest) :
    ∃ req', emitAuth auth credential ep args req = some req' ∧ (ep.auth_type ≠ .None →
      req'.fields (toLower ep.auth_header_name) = authText ep.auth_type credential) := by
  unfold emitAuth
  rw [readUnescaped_of_plain hname]
  cases hauth : ep.auth_type with
  | None => exact ⟨req, rfl, fun h => absurd rfl h⟩
  | ApiKey =>
    have hcredential : authMember auth credential = some credential := by
      rw [authMember, htype (by simp [hauth]), hauth]
      rfl
    dsimp only
    rw [readMember_of_free (hmember (by simp [hauth])), hcredential]
    exact ⟨_, rfl, fun _ => req.set_self ..⟩
  | HttpBearer =>
    have hheader : authHeader auth credential = some ("Bearer ".toList ++ credential) := by
      rw [authHeader, htype (by simp [hauth]), hauth]
      rfl
    dsimp only
    rw [readMember_of_free (hmember (by simp [hauth])), hheader]
    exact ⟨_, rfl, fun _ => req.set_self ..⟩

theorem exists_emitRequestBody {ep : Endpoint} (htype : PlainLiteral ep.body_content_type) (body : Str)
    (req : ClientRequest) : ∃ req', emitRequestBody prepare_payload ep body req = some req' := by
  unfold emitRequestBody
  rw [readUnescaped_of_plain htype]
  split
  · exact ⟨_, rfl⟩
  · exact ⟨req, rfl⟩

structure ClientRequest.SameMessage (req req' : ClientRequest) : Prop where
  method : req'.method = req.method
  target : req'.target = req.target
  body : req'.body = req.body

theorem sameMessage_emitHeaderParam {req req' : ClientRequest} {p : ClientParam}
    (h : emitHeaderParam args req p = some req') : req.SameMessage req' := by
  obtain ⟨name, -, h⟩ := Option.bind_eq_some_iff.mp h
  split at h
  · split at h
    · cases h
    · obtain rfl := Option.some.inj h
      exact ⟨rfl, rfl, rfl⟩
  · obtain ⟨s, -, rfl⟩ := Option.map_eq_some_iff.mp h
    exact ⟨rfl, rfl, rfl⟩
  · cases h

theorem sameMessage_emitAuth {auth : AuthInfo} {credential : Str} {ep : Endpoint} {req req' : ClientRequest}
    (h : emitAuth auth credential ep args req = some req') : req.SameMessage req' := by
  unfold emitAuth at h
  split at h
  · obtain ⟨name, -, h⟩ := Option.bind_eq_some_iff.mp h
    obtain ⟨value, -, h⟩ := Option.bind_eq_some_iff.mp h
    obtain rfl := Option.some.inj h
    exact ⟨rfl, rfl, rfl⟩
  · obtain ⟨name, -, h⟩ := Option.bind_eq_some_iff.mp h
    obtain ⟨value, -, h⟩ := Option.bind_eq_some_iff.mp h
    obtain rfl := Option.some.inj h
    exact ⟨rfl, rfl, rfl⟩
  · obtain rfl := Option.some.inj h
    exact ⟨rfl, rfl, rfl⟩

/-- What a method passes on, whatever its header parameters and its credential are. -/
theorem clientRequest_eq_some {v : Cpp.Vocabulary} (hprepare : FramesBody prepare_payload) {auth : AuthInfo}
    {credential body : Str} {ep : Endpoint} {req : ClientRequest}
    (h : clientRequest v prepare_payload auth credential ep args body = some req) :
    clientTarget v ep args = some req.target ∧ req.method = ep.verb ∧
      req.body = if ep.has_request_body then body else [] := by
  obtain ⟨target, htarget, h⟩ := Option.bind_eq_some_iff.mp h
  obtain ⟨req₁, hbody, h⟩ := Option.bind_eq_some_iff.mp h
  obtain ⟨req₂, hauth, h⟩ := Option.bind_eq_some_iff.mp h
  have hfirst : req₁.target = target ∧ req₁.body = if ep.has_request_body then body else [] := by
    unfold emitRequestBody at hbody
    split at hbody
    · rename_i hhas
      obtain ⟨content_type, -, hbody⟩ := Option.bind_eq_some_iff.mp hbody
      obtain rfl := Option.some.inj hbody
      exact ⟨hprepare.target _, by rw [hprepare.body, if_pos hhas]; rfl⟩
    · rename_i hhas
      obtain rfl := Option.some.inj hbody
      exact ⟨rfl, (if_neg hhas).symm⟩
  have hsecond := sameMessage_emitAuth hauth
  have hlast : req₂.SameMessage req := foldlM_some_rule (J := fun _ req' => req₂.SameMessage req')
    (fun _ p r r' hr hstep =>
      have hp := sameMessage_emitHeaderParam hstep
      ⟨hp.method.trans hr.method, hp.target.trans hr.target, hp.body.trans hr.body⟩)
    ⟨rfl, rfl, rfl⟩ h
  refine ⟨?_, hlast.method.trans hsecond.method, hlast.body.trans (hsecond.body.trans hfirst.2)⟩
  rw [htarget, hlast.target, hsecond.target]
  exact congrArg some hfirst.1.symm

end

section

variable {v : Cpp.Vocabulary} {ir : InvalidRead} {ho : HashOrders} {spec : JsonObject} {endpoints : List Endpoint}
  {ep : Endpoint} {prepare_payload : ClientRequest → ClientRequest} {args : Args}

/-- **What the request of a call carries**: its target, its body and the header parameters that have a value;
and the credential, in the form its endpoint asks for, exactly when no header parameter writes something else
into its field. -/
theorem request_of_call (hprepare : FramesBody prepare_payload)
    (hrun : parseEndpoints ir ho spec = .ok endpoints) (hep : ep ∈ endpoints) {target : Str}
    (htarget : clientTarget v ep args = some target)
    (hheaders : ∀ p ∈ ep.headerParams, PlainLiteral p.wire_name ∧ HeaderArg args p)
    (hdistinct : (ep.headerParams.map fun p => toLower p.wire_name).Nodup)
    (hauth : PlainLiteral ep.auth_header_name) (htype : PlainLiteral ep.body_content_type)
    (hmember : ep.auth_type ≠ .None → ∀ p ∈ ep.params, p.name ≠ credentialMember (detectAuth endpoints) ep)
    (credential body : Str) :
    ∃ req, clientRequest v prepare_payload (detectAuth endpoints) credential ep args body = some req ∧
      req.method = ep.verb ∧ req.target = target ∧ req.body = (if ep.has_request_body then body else []) ∧
      (∀ p ∈ ep.headerParams, ∀ s, args p = some (.scalar (.string s)) →
        req.fields (toLower p.wire_name) = some s) ∧
      (ep.auth_type ≠ .None →
        (req.fields (toLower ep.auth_header_name) = authText ep.auth_type credential ↔
          ∀ p ∈ ep.headerParams, ∀ s, args p = some (.scalar (.string s)) →
            toLower p.wire_name = toLower ep.auth_header_name → some s = authText ep.auth_type credential)) := by
  obtain ⟨req₁, hbody⟩ := exists_emitRequestBody htype body { target }
  obtain ⟨req₂, hauth₂, hcredential⟩ := emitAuth_run credential
    (fun hne => (authTypes_eq hrun hep hne).1) hauth hmember { req₁ with method := ep.verb }
  obtain ⟨req, hparams, h⟩ := emitHeaderParams_run hheaders req₂
  have hreq : clientRequest v prepare_payload (detectAuth endpoints) credential ep args body = some req := by
    unfold clientRequest
    rw [htarget]
    dsimp only [Option.bind_eq_bind, Option.bind_some]
    rw [hbody]
    dsimp only [Option.bind_some]
    rw [hauth₂]
    exact hparams
  obtain ⟨htarget', hmethod', hbody'⟩ := clientRequest_eq_some hprepare hreq
  refine ⟨req, hreq, hmethod', Option.some.inj (htarget'.symm.trans htarget), hbody', h.sent hdistinct,
    fun hne => ⟨?_, fun hall => ?_⟩⟩
  · intro hfield p hp s hs heq
    rw [← heq, h.sent hdistinct p hp s hs] at hfield
    exact hfield
  · by_cases hgiven : ∃ p ∈ ep.headerParams, args p ≠ none ∧ toLower p.wire_name = toLower ep.auth_header_name
    · obtain ⟨p, hp, harg, heq⟩ := hgiven
      obtain ⟨s, hs⟩ := (hheaders p hp).2.resolve_left fun hnone => harg hnone.1
      rw [← hall p hp s hs heq, ← heq]
      exact h.sent hdistinct p hp s hs
    · rw [h.keeps _ fun p hp harg heq => hgiven ⟨p, hp, harg, heq⟩]
      exact hcredential hne

end

def traceSpec : JsonObject :=
  some [("components".toList, .obj [("securitySchemes".toList, .obj [("token".toList,
      .obj [("type".toList, .str "http".toList), ("scheme".toList, .str "bearer".toList)])])]),
    ("paths".toList, .obj [("/trace".toList, .obj [("get".toList, .obj
      [("parameters".toList, .arr [declaredParam "trace".toList "header".toList]),
        ("security".toList, .arr [.obj [("token".toList, .arr [])]])])])])]

/-- The length of the body, as `prepare_payload` writes it. -/
def writeLength (req : ClientRequest) : ClientRequest :=
  req.set contentLength (Nat.repr req.body.length).toList

theorem framesBody_writeLength : FramesBody writeLength where
  method _ := rfl
  target _ := rfl
  body _ := rfl
  fields req n hlength _ := by
    have hlower : toLower contentLength = contentLength := by decide
    exact req.set_of_ne (hlower ▸ Ne.symm hlength) _

def traceEndpoint : Endpoint := (endpointsOf traceSpec).getD 0 {}

/-- Every argument is the text `7`. -/
def sevens : Args := fun _ => some (.scalar (.string "7".toList))

theorem request_of_call_trace :
    ∃ req, clientRequest .plain writeLength (detectAuth [traceEndpoint]) "secret".toList traceEndpoint sevens [] =
        some req ∧
      req.fields "trace".toList = some "7".toList ∧
      req.fields "authorization".toList = some "Bearer secret".toList := by
  have hrun : parseEndpoints .crash (HashOrder.newestFirst _) traceSpec = .ok [traceEndpoint] := rfl
  have htarget : clientTarget .plain traceEndpoint sevens = some "/trace".toList := rfl
  have hparams : traceEndpoint.headerParams.map (·.wire_name) = ["trace".toList] := rfl
  have hplain : PlainLiteral "trace".toList ∧ PlainLiteral traceEndpoint.auth_header_name ∧
      PlainLiteral traceEndpoint.body_content_type := by
    unfold PlainLiteral
    decide
  have hname : ∀ p ∈ traceEndpoint.headerParams, p.wire_name = "trace".toList := fun p hp =>
    List.mem_singleton.mp (hparams ▸ List.mem_map_of_mem hp)
  obtain ⟨req, hreq, -, -, -, hsent, hauth⟩ := request_of_call framesBody_writeLength hrun
    (List.mem_singleton_self _) htarget (fun p hp => ⟨hname p hp ▸ hplain.1, .inr ⟨_, rfl⟩⟩) (by decide)
    hplain.2.1 hplain.2.2 (fun _ => by decide) "secret".toList []
  refine ⟨req, hreq, hsent _ (List.mem_singleton_self _) _ rfl, (hauth (by decide)).mpr fun p hp s _ heq => ?_⟩
  rw [hname p hp] at heq
  exact absurd heq (by decide)

end Siesta
