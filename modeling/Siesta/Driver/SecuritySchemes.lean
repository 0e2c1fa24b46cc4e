import Mathlib.Data.List.Rotate
import Siesta.Driver.ComponentTypes

/-!
# The authentication of an endpoint

A document asks for the schemes that the security requirement of an operation names, or that of the
document; `endpointAuth` only looks whether there is such a requirement, and takes the scheme the hash table
is walked in first.  `auth_follows_iff` says for which documents the two agree.
-/

namespace Siesta

open Lib JsonObject

/-! ### What the document asks for -/

/-- The authentication of a scheme that is of a supported kind. -/
def supportedAuth (info : SchemeInfo) : Option (AuthType × Str) :=
  if info.type = "apiKey".toList ∧ info.in_ = "header".toList then some (.ApiKey, info.name)
  else if info.type = "http".toList ∧ info.scheme = "bearer".toList then
    some (.HttpBearer, "Authorization".toList)
  else none

def requirementNames : Json → List Str
  | .arr items => items.flatMap fun
    | .obj members => members.map Prod.fst
    | _ => []
  | _ => []

section

variable (ir : InvalidRead) (spec : JsonObject)

/-- The security requirement of an operation: its own, if it has the key, and else the document's. -/
def effectiveSecurity (op : JsonObject) : Except Fault (Option Json) := do
  match ← atKey ir op "security".toList with
  | some v => return some v
  | none => atKey ir spec "security".toList

/-- The scheme that the document has under a name: the last one. -/
def SchemeOf (n : Str) (info : SchemeInfo) : Prop :=
  ∃ components schemes e, objectField ir spec "components".toList = .ok components ∧
    mapField ir components "securitySchemes".toList = .ok schemes ∧
    schemes.reverse.find? (·.1 = n) = some e ∧ readScheme ir (ofMember e.2) = .ok info

/-- The document has a scheme of a supported kind under a name. -/
def AuthOf (n : Str) (auth : AuthType × Str) : Prop :=
  ∃ info, SchemeOf ir spec n info ∧ supportedAuth info = some auth

def NamesSupported (v : Json) : Prop := ∃ n ∈ requirementNames v, ∃ auth, AuthOf ir spec n auth

/-- The endpoint has the authentication that the document asks for. -/
structure AuthFollows (op : JsonObject) (ep : Endpoint) : Prop where
  named : ∀ v, effectiveSecurity ir spec op = .ok (some v) → NamesSupported ir spec v →
    ∃ n ∈ requirementNames v, AuthOf ir spec n (ep.auth_type, ep.auth_header_name)
  absent : effectiveSecurity ir spec op = .ok none → ep.auth_type = .None
  empty : effectiveSecurity ir spec op = .ok (some (.arr [])) → ep.auth_type = .None

/-! ### What the table of schemes has to be -/

/-- The scheme that is first in the order of the hash table. -/
def FirstScheme (ho : HashOrders) (info : SchemeInfo) : Prop :=
  ∃ ctx n, readContext ir spec = .ok ctx ∧
    (ho.iter .securitySchemes ctx.security_schemes.entries).head? = some ⟨n, info⟩

/-- The first scheme is as good as one that is named, and none is of a supported kind where the requirement
is empty. -/
structure FirstSchemeFits (ho : HashOrders) (op : JsonObject) : Prop where
  named : ∀ v, effectiveSecurity ir spec op = .ok (some v) → NamesSupported ir spec v →
    ∃ info auth, FirstScheme ir spec ho info ∧ supportedAuth info = some auth ∧
      ∃ n ∈ requirementNames v, AuthOf ir spec n auth
  empty : effectiveSecurity ir spec op = .ok (some (.arr [])) →
    ∀ info, FirstScheme ir spec ho info → supportedAuth info = none

structure AllSchemesFit (op : JsonObject) : Prop where
  named : ∀ v, effectiveSecurity ir spec op = .ok (some v) → NamesSupported ir spec v →
    ∀ m info, SchemeOf ir spec m info →
      ∃ auth, supportedAuth info = some auth ∧ ∃ n ∈ requirementNames v, AuthOf ir spec n auth
  empty : effectiveSecurity ir spec op = .ok (some (.arr [])) →
    ∀ m info, SchemeOf ir spec m info → supportedAuth info = none

end

/-! ### The table of schemes -/

/-- The order that starts with entry `k`, and then goes around. -/
def startingAt (k : ℕ) : HashOrders where
  iter _ _ l := l.rotate k
  perm _ _ l := List.rotate_perm l k

/-- What a loop over the members of a map has stored: what is read of the last member of a name. -/
theorem find_foldlM_set {ν : Type} (read : Json → Except Fault ν) {members : List (Str × Json)}
    {t : Table Str ν}
    (h : members.foldlM (fun (t : Table Str ν) e => do let r ← read e.2; return t.set e.1 r) ∅ = .ok t)
    {n : Str} {r : ν} :
    t.find n = some r ↔ ∃ e, members.reverse.find? (·.1 = n) = some e ∧ read e.2 = .ok r := by
  induction members using List.reverseRecOn generalizing t with
  | nil =>
    obtain rfl := pure_eq_ok.mp h
    simp
  | append_singleton members e ih =>
    rw [List.foldlM_append] at h
    obtain ⟨t₁, h₁, hlast⟩ := bind_eq_ok.mp h
    rw [List.foldlM_cons] at hlast
    obtain ⟨t₂, h₂, hnil⟩ := bind_eq_ok.mp hlast
    obtain rfl := pure_eq_ok.mp hnil
    obtain ⟨r', hread, hset⟩ := bind_eq_ok.mp h₂
    obtain rfl := pure_eq_ok.mp hset
    rw [Table.find_set, List.reverse_concat, List.find?_cons]
    by_cases hn : n = e.1
    · simp [hn, hread]
    · rw [if_neg hn, ih h₁]
      simp [Ne.symm hn]

section

variable {ir : InvalidRead} {spec : JsonObject} {ctx : EndpointContext}
  (hctx : readContext ir spec = .ok ctx)

include hctx

theorem find_security_schemes {n : Str} {info : SchemeInfo} :
    ctx.security_schemes.find n = some info ↔ SchemeOf ir spec n info := by
  obtain ⟨components, hcomponents, h⟩ := bind_eq_ok.mp hctx
  obtain ⟨params, -, h⟩ := bind_eq_ok.mp h
  obtain ⟨fetched, -, h⟩ := bind_eq_ok.mp h
  obtain ⟨bodies, -, h⟩ := bind_eq_ok.mp h
  obtain ⟨names, -, h⟩ := bind_eq_ok.mp h
  obtain ⟨schemes, hschemes, h⟩ := bind_eq_ok.mp h
  obtain ⟨infos, hinfos, h⟩ := bind_eq_ok.mp h
  obtain ⟨global, -, h⟩ := bind_eq_ok.mp h
  obtain rfl := pure_eq_ok.mp h
  rw [find_foldlM_set (fun v => readScheme ir (ofMember v)) hinfos]
  constructor
  · rintro ⟨e, he, hread⟩
    exact ⟨components, schemes, e, hcomponents, hschemes, he, hread⟩
  · rintro ⟨components', schemes', e, hcomponents', hschemes', he, hread⟩
    obtain rfl := Except.ok.inj (hcomponents.symm.trans hcomponents')
    obtain rfl := Except.ok.inj (hschemes.symm.trans hschemes')
    exact ⟨e, he, hread⟩

theorem mem_security_schemes {n : Str} {info : SchemeInfo} :
    (⟨n, info⟩ : Σ _ : Str, SchemeInfo) ∈ ctx.security_schemes.entries ↔ SchemeOf ir spec n info := by
  rw [← find_security_schemes hctx, Table.find_eq_some]

theorem firstScheme_iff {ho : HashOrders} {info : SchemeInfo} :
    FirstScheme ir spec ho info ↔
      ∃ n, (ho.iter .securitySchemes ctx.security_schemes.entries).head? = some ⟨n, info⟩ := by
  constructor
  · rintro ⟨ctx', n, hctx', hfirst⟩
    obtain rfl := Except.ok.inj (hctx.symm.trans hctx')
    exact ⟨n, hfirst⟩
  · rintro ⟨n, hfirst⟩
    exact ⟨ctx, n, hctx, hfirst⟩

theorem firstScheme_unique {ho : HashOrders} {info info' : SchemeInfo} (h : FirstScheme ir spec ho info)
    (h' : FirstScheme ir spec ho info') : info = info' := by
  obtain ⟨n, hn⟩ := (firstScheme_iff hctx).mp h
  obtain ⟨m, hm⟩ := (firstScheme_iff hctx).mp h'
  cases hn.symm.trans hm
  rfl

theorem schemeOf_of_firstScheme {ho : HashOrders} {info : SchemeInfo} (h : FirstScheme ir spec ho info) :
    ∃ n, SchemeOf ir spec n info := by
  obtain ⟨n, hfirst⟩ := (firstScheme_iff hctx).mp h
  have hmem := (ho.mem_iter .securitySchemes).mp (List.mem_of_mem_head? hfirst)
  exact ⟨n, (mem_security_schemes hctx).mp hmem⟩

theorem exists_firstScheme (ho : HashOrders) {n : Str} {info : SchemeInfo} (h : SchemeOf ir spec n info) :
    ∃ info, FirstScheme ir spec ho info := by
  have hmem := (ho.mem_iter .securitySchemes).mpr ((mem_security_schemes hctx).mpr h)
  obtain ⟨⟨m, info'⟩, rest, hcons⟩ := List.exists_cons_of_ne_nil (List.ne_nil_of_mem hmem)
  exact ⟨info', (firstScheme_iff hctx).mpr ⟨m, by rw [hcons]; rfl⟩⟩

theorem firstScheme_of_schemeOf {n : Str} {info : SchemeInfo} (h : SchemeOf ir spec n info) :
    ∃ ho, FirstScheme ir spec ho info := by
  obtain ⟨k, hk⟩ := List.mem_iff_getElem?.mp ((mem_security_schemes hctx).mpr h)
  obtain ⟨hlt, -⟩ := List.getElem?_eq_some_iff.mp hk
  refine ⟨startingAt k, (firstScheme_iff hctx).mpr ⟨n, ?_⟩⟩
  exact (List.head?_rotate hlt).trans hk

end

/-! ### What the endpoint gets -/

theorem effectiveSecurity_flags {ir : InvalidRead} {spec op : JsonObject} {own glob : Bool}
    (hown : op.hasKey ir "security".toList = .ok own) (hglob : spec.hasKey ir "security".toList = .ok glob) :
    ∃ v, effectiveSecurity ir spec op = .ok v ∧ v.isSome = (own || glob) := by
  obtain ⟨u, hu, h⟩ := bind_eq_ok.mp hown
  obtain rfl := pure_eq_ok.mp h
  obtain ⟨w, hw, h⟩ := bind_eq_ok.mp hglob
  obtain rfl := pure_eq_ok.mp h
  rw [effectiveSecurity, hu]
  cases u with
  | some u => exact ⟨some u, rfl, rfl⟩
  | none => exact ⟨w, hw, rfl⟩

theorem endpointAuth_eq (ho : HashOrders) (ctx : EndpointContext) (own : Bool) :
    endpointAuth ho ctx own =
      if own || ctx.has_global_security then
        ((ho.iter .securitySchemes ctx.security_schemes.entries).head?.bind fun e =>
          supportedAuth e.2).getD (.None, [])
      else (.None, []) := by
  unfold endpointAuth supportedAuth
  cases ho.iter .securitySchemes ctx.security_schemes.entries with
  | nil => rfl
  | cons e rest =>
    obtain ⟨n, info⟩ := e
    dsimp only [List.head?_cons, Option.bind_some]
    split
    · split
      · rfl
      · split <;> rfl
    · rfl

section

variable {ir : InvalidRead} {ho : HashOrders} {spec op : JsonObject} {ep : Endpoint}

/-- Without a requirement the endpoint has no authentication, and else that of the first scheme, if it is of
a supported kind. -/
theorem endpoint_auth (hop : OperationOf ir ho spec op ep) :
    ∃ v ctx, effectiveSecurity ir spec op = .ok v ∧ readContext ir spec = .ok ctx ∧
      (v = none → ep.auth_type = .None) ∧
      (v ≠ none → (ep.auth_type, ep.auth_header_name) =
        ((ho.iter .securitySchemes ctx.security_schemes.entries).head?.bind fun e =>
          supportedAuth e.2).getD (.None, [])) := by
  obtain ⟨ctx, paths, entry, method, value, co, path_params_map, hctx, -, -, -, -, hread, rfl⟩ := hop
  have hown : op.hasKey ir "security".toList = .ok co.hasOpSecurity := by
    obtain ⟨summary, -, h⟩ := bind_eq_ok.mp hread
    obtain ⟨description, -, h⟩ := bind_eq_ok.mp h
    obtain ⟨items, -, h⟩ := bind_eq_ok.mp h
    obtain ⟨op_params, -, h⟩ := bind_eq_ok.mp h
    obtain ⟨req_body, -, h⟩ := bind_eq_ok.mp h
    obtain ⟨co', -, h⟩ := bind_eq_ok.mp h
    obtain ⟨hasOpSecurity, hkey, h⟩ := bind_eq_ok.mp h
    obtain rfl := pure_eq_ok.mp h
    exact hkey
  have hglob : spec.hasKey ir "security".toList = .ok ctx.has_global_security := by
    obtain ⟨components, -, h⟩ := bind_eq_ok.mp hctx
    obtain ⟨params, -, h⟩ := bind_eq_ok.mp h
    obtain ⟨fetched, -, h⟩ := bind_eq_ok.mp h
    obtain ⟨bodies, -, h⟩ := bind_eq_ok.mp h
    obtain ⟨names, -, h⟩ := bind_eq_ok.mp h
    obtain ⟨schemes, -, h⟩ := bind_eq_ok.mp h
    obtain ⟨infos, -, h⟩ := bind_eq_ok.mp h
    obtain ⟨glob, hkey, h⟩ := bind_eq_ok.mp h
    obtain rfl := pure_eq_ok.mp h
    exact hkey
  obtain ⟨v, hv, hflags⟩ := effectiveSecurity_flags hown hglob
  have hauth : ((endpointOf ho ctx path_params_map co).auth_type,
      (endpointOf ho ctx path_params_map co).auth_header_name) = endpointAuth ho ctx co.hasOpSecurity := rfl
  rw [endpointAuth_eq, ← hflags] at hauth
  refine ⟨v, ctx, hv, hctx, ?_, fun hne => ?_⟩
  · rintro rfl
    exact congrArg Prod.fst hauth
  · rw [hauth, if_pos (Option.isSome_iff_ne_none.mpr hne)]

theorem endpoint_auth_cases (hop : OperationOf ir ho spec op ep) {v : Json}
    (hv : effectiveSecurity ir spec op = .ok (some v)) :
    (∃ info auth, FirstScheme ir spec ho info ∧ supportedAuth info = some auth ∧
        (ep.auth_type, ep.auth_header_name) = auth) ∨
      ((∀ info, FirstScheme ir spec ho info → supportedAuth info = none) ∧ ep.auth_type = .None) := by
  obtain ⟨v', ctx, hv', hctx, -, hsome⟩ := endpoint_auth hop
  obtain rfl := Except.ok.inj (hv.symm.trans hv')
  have hauth := hsome (by simp)
  cases hfirst : (ho.iter .securitySchemes ctx.security_schemes.entries).head? with
  | none =>
    rw [hfirst] at hauth
    refine .inr ⟨fun info h => ?_, congrArg Prod.fst hauth⟩
    obtain ⟨n, hn⟩ := (firstScheme_iff hctx).mp h
    rw [hfirst] at hn
    cases hn
  | some e =>
    obtain ⟨n, info⟩ := e
    rw [hfirst, Option.bind_some] at hauth
    have hinfo : FirstScheme ir spec ho info := (firstScheme_iff hctx).mpr ⟨n, hfirst⟩
    cases hsupported : supportedAuth info with
    | some auth =>
      rw [hsupported] at hauth
      exact .inl ⟨info, auth, hinfo, hsupported, hauth⟩
    | none =>
      rw [hsupported] at hauth
      refine .inr ⟨fun info' h => ?_, congrArg Prod.fst hauth⟩
      obtain ⟨m, hm⟩ := (firstScheme_iff hctx).mp h
      rw [hfirst] at hm
      cases hm
      exact hsupported

theorem supportedAuth_ne_none {info : SchemeInfo} {auth : AuthType × Str}
    (h : supportedAuth info = some auth) : auth.1 ≠ .None := by
  unfold supportedAuth at h
  split at h
  · cases h
    simp
  · split at h
    · cases h
      simp
    · cases h

theorem authFollows_iff (hop : OperationOf ir ho spec op ep) :
    AuthFollows ir spec op ep ↔ FirstSchemeFits ir spec ho op := by
  constructor
  · intro h
    refine ⟨fun v hv hnamed => ?_, fun hv info hinfo => ?_⟩
    · obtain ⟨n, hn, hauth⟩ := h.named v hv hnamed
      rcases endpoint_auth_cases hop hv with ⟨info, auth, hinfo, hsupported, rfl⟩ | ⟨-, hnone⟩
      · exact ⟨info, _, hinfo, hsupported, n, hn, hauth⟩
      · obtain ⟨info, -, hsupported⟩ := hauth
        exact absurd hnone (supportedAuth_ne_none hsupported)
    · rcases endpoint_auth_cases hop hv with ⟨info', auth, -, hsupported, rfl⟩ | ⟨hall, -⟩
      · exact absurd (h.empty hv) (supportedAuth_ne_none hsupported)
      · exact hall info hinfo
  · intro h
    refine ⟨fun v hv hnamed => ?_, fun hv => ?_, fun hv => ?_⟩
    · obtain ⟨info, auth, hinfo, hsupported, n, hn, hauth⟩ := h.named v hv hnamed
      rcases endpoint_auth_cases hop hv with ⟨info', auth', hinfo', hsupported', rfl⟩ | ⟨hall, -⟩
      · obtain ⟨-, ctx, -, hctx, -, -⟩ := endpoint_auth hop
        obtain rfl := firstScheme_unique hctx hinfo hinfo'
        obtain rfl := Option.some.inj (hsupported.symm.trans hsupported')
        exact ⟨n, hn, hauth⟩
      · rw [hall info hinfo] at hsupported
        cases hsupported
    · obtain ⟨v, ctx, hv', -, hnone, -⟩ := endpoint_auth hop
      exact hnone (Except.ok.inj (hv'.symm.trans hv))
    · rcases endpoint_auth_cases hop hv with ⟨info, auth, hinfo, hsupported, -⟩ | ⟨-, hnone⟩
      · rw [h.empty hv info hinfo] at hsupported
        cases hsupported
      · exact hnone

theorem forall_firstSchemeFits_iff {ctx : EndpointContext} (hctx : readContext ir spec = .ok ctx) :
    (∀ ho, FirstSchemeFits ir spec ho op) ↔ AllSchemesFit ir spec op := by
  constructor
  · intro h
    refine ⟨fun v hv hnamed m info hscheme => ?_, fun hv m info hscheme => ?_⟩
    · obtain ⟨ho, hinfo⟩ := firstScheme_of_schemeOf hctx hscheme
      obtain ⟨info', auth, hinfo', hsupported, hauth⟩ := (h ho).named v hv hnamed
      obtain rfl := firstScheme_unique hctx hinfo hinfo'
      exact ⟨auth, hsupported, hauth⟩
    · obtain ⟨ho, hinfo⟩ := firstScheme_of_schemeOf hctx hscheme
      exact (h ho).empty hv info hinfo
  · intro h ho
    refine ⟨fun v hv hnamed => ?_, fun hv info hinfo => ?_⟩
    · obtain ⟨n, -, auth, info₀, hscheme₀, -⟩ := id hnamed
      obtain ⟨info, hinfo⟩ := exists_firstScheme hctx ho hscheme₀
      obtain ⟨m, hscheme⟩ := schemeOf_of_firstScheme hctx hinfo
      obtain ⟨auth, hsupported, hauth⟩ := h.named v hv hnamed m info hscheme
      exact ⟨info, auth, hinfo, hsupported, hauth⟩
    · obtain ⟨m, hscheme⟩ := schemeOf_of_firstScheme hctx hinfo
      exact h.empty hv m info hscheme

/-- **When the authentication follows the document.**  An endpoint has the authentication its operation asks
for exactly when the scheme that the table is walked in first fits the requirement; that is so in every
order of the table exactly when all schemes of the document do. -/
theorem auth_follows_iff {endpoints : List Endpoint} (hrun : parseEndpoints ir ho spec = .ok endpoints)
    (hep : ep ∈ endpoints) :
    (∃ op, OperationOf ir ho spec op ep) ∧ ∀ op, OperationOf ir ho spec op ep →
      (AuthFollows ir spec op ep ↔ FirstSchemeFits ir spec ho op) ∧
        ((∀ ho, FirstSchemeFits ir spec ho op) ↔ AllSchemesFit ir spec op) := by
  refine ⟨(endpoint_of_document hrun hep).1, fun op hop => ⟨authFollows_iff hop, ?_⟩⟩
  obtain ⟨-, ctx, -, hctx, -, -⟩ := endpoint_auth hop
  exact forall_firstSchemeFits_iff hctx

end

/-! ### An operation for everyone -/

/-- A document with one scheme, of bearer tokens, and one operation with a requirement. -/
def bearerSpec (security : Json) : JsonObject :=
  some [("components".toList, .obj [("securitySchemes".toList, .obj [("token".toList,
      .obj [("type".toList, .str "http".toList), ("scheme".toList, .str "bearer".toList)])])]),
    ("paths".toList, .obj [("/login".toList, .obj [("get".toList, .obj [("security".toList, security)])])])]

def loginSpec : JsonObject := bearerSpec (.arr [.obj [("token".toList, .arr [])]])

theorem auth_follows_iff_login :
    ∃ ep op, parseEndpoints .crash (HashOrder.newestFirst _) loginSpec = .ok [ep] ∧
      OperationOf .crash (HashOrder.newestFirst _) loginSpec op ep ∧
      (AuthFollows .crash loginSpec op ep ↔ FirstSchemeFits .crash loginSpec (HashOrder.newestFirst _) op) := by
  have hrun : ∃ ep, parseEndpoints .crash (HashOrder.newestFirst _) loginSpec = .ok [ep] := ⟨_, rfl⟩
  obtain ⟨ep, hep⟩ := hrun
  obtain ⟨⟨op, hop⟩, hall⟩ := auth_follows_iff hep (List.mem_singleton_self ep)
  exact ⟨ep, op, hep, hop, (hall op hop).1⟩

/-- An operation that asks for no authentication gets that of the only scheme. -/
theorem empty_requirement_ignored :
    ∃ op ep, parseEndpoints .crash (HashOrder.newestFirst _) (bearerSpec (.arr [])) = .ok [ep] ∧
      OperationOf .crash (HashOrder.newestFirst _) (bearerSpec (.arr [])) op ep ∧
      ep.auth_type = .HttpBearer ∧ ¬ AuthFollows .crash (bearerSpec (.arr [])) op ep := by
  refine ⟨some [("security".toList, .arr [])], _, rfl, ?_, rfl, fun h => absurd (h.empty rfl) (by decide)⟩
  exact ⟨_, _, _, "get".toList, .obj [("security".toList, .arr [])], _, _, rfl, rfl, List.mem_singleton_self _,
    List.mem_singleton_self _, rfl, rfl, rfl⟩

end Siesta
