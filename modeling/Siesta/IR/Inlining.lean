import Siesta.IR.References
import Mathlib.Data.List.Find

/-!
# Whether references are transparent: `parseEndpoints`

A document and the same with references replaced are read side by side.  The endpoints are the same
exactly when every parameter that takes effect and was replaced has a type without flags, and every
body that was replaced is read alike (`references_transparent_iff`).
-/

namespace Siesta

open Lib JsonObject

/-! ### The parameters of an operation depend on what is in effect -/

section

variable {ho : HashOrders}

theorem keys_foldl_set {params params' : List ClientParam}
    (h : params.map (·.name) = params'.map (·.name)) {m m' : Table Str ClientParam} (hm : m.keys = m'.keys) :
    (params.foldl (fun m cp => m.set cp.name cp) m).keys =
      (params'.foldl (fun m cp => m.set cp.name cp) m').keys := by
  induction params generalizing params' m m' with
  | nil =>
    obtain rfl := List.map_eq_nil_iff.mp h.symm
    exact hm
  | cons cp params ih =>
    cases params' with
    | nil => cases h
    | cons cp' params' =>
      have hname : cp.name = cp'.name := (List.cons.inj h).1
      refine ih (List.cons.inj h).2 ?_
      rw [Table.keys_set, Table.keys_set, hm, hname]

/-- The names of the parameters decide in which order they are met. -/
theorem order_mergeParams (hkeys : ho.ByKey) {params params' op_params op_params' : List ClientParam}
    (hparams : params.map (·.name) = params'.map (·.name))
    (hop : op_params.map (·.name) = op_params'.map (·.name)) :
    (mergeParams ho (pathParamsMap params) op_params).2 =
      (mergeParams ho (pathParamsMap params') op_params').2 := by
  have hmem : ∀ name, name ∈ pathParamsMap params ↔ name ∈ pathParamsMap params' := fun name => by
    rw [AList.mem_keys, AList.mem_keys, pathParamsMap, pathParamsMap, keys_foldl_set hparams rfl]
  have hloop : ∀ {ops ops' : List ClientParam} {acc acc' : Table Str ClientParam × List Str},
      ops.map (·.name) = ops'.map (·.name) → (∀ name, name ∈ acc.1 ↔ name ∈ acc'.1) → acc.2 = acc'.2 →
      (ops.foldl (fun acc cp => (acc.1.set cp.name cp,
        if cp.name ∉ pathParamsMap params ∧ cp.name ∉ acc.1 then acc.2 ++ [cp.name] else acc.2)) acc).2 =
      (ops'.foldl (fun acc cp => (acc.1.set cp.name cp,
        if cp.name ∉ pathParamsMap params' ∧ cp.name ∉ acc.1 then acc.2 ++ [cp.name] else acc.2)) acc').2 := by
    intro ops
    induction ops with
    | nil =>
      intro ops' acc acc' h _ horder
      obtain rfl := List.map_eq_nil_iff.mp h.symm
      exact horder
    | cons cp ops ih =>
      intro ops' acc acc' h hacc horder
      cases ops' with
      | nil => cases h
      | cons cp' ops' =>
        have hname : cp.name = cp'.name := (List.cons.inj h).1
        rw [List.foldl_cons, List.foldl_cons]
        refine ih (List.cons.inj h).2 (fun name => ?_) ?_
        · simp only [Table.mem_set, hname, hacc]
        · simp only [hname, hmem, hacc, horder]
  refine hloop hop (fun name => Iff.rfl) ?_
  exact hkeys .pathParams _ _ (keys_foldl_set hparams rfl)

/-- The parameters of two operations are the same when the same parameters are in effect. -/
theorem orderedParams_congr (hkeys : ho.ByKey) {params params' op_params op_params' : List ClientParam}
    (hparams : params.map (·.name) = params'.map (·.name))
    (hop : op_params.map (·.name) = op_params'.map (·.name))
    (heffective : ∀ name, ∀ location ∈ paramLocations,
      (effectiveParam params op_params name).filter (·.location = location) =
        (effectiveParam params' op_params' name).filter (·.location = location)) :
    orderedParams ho (pathParamsMap params) op_params =
      orderedParams ho (pathParamsMap params') op_params' := by
  unfold orderedParams
  dsimp only
  rw [order_mergeParams hkeys hparams hop]
  refine List.flatMap_congr fun location hlocation => ?_
  refine List.filterMap_congr fun name _ => ?_
  rw [lookupParam_eq, lookupParam_eq]
  exact heffective name location hlocation

end

/-! ### The declaration that takes effect -/

section

variable (ir : InvalidRead) (fetched_params : Table Str ClientParam)

/-- The last declaration of a name, with what stands in its place. -/
def lastDeclared (sites : List (Json × Json)) (name : Str) : Option (Json × Json) :=
  sites.reverse.find? fun s => (paramOf ir fetched_params s.1).name = name

/-- The declaration of a name that takes effect: the last of the operation, or else the last of the path
items. -/
def effectiveDeclaration (sites op_sites : List (Json × Json)) (name : Str) : Option (Json × Json) :=
  (lastDeclared ir fetched_params op_sites name).or (lastDeclared ir fetched_params sites name)

/-- Every parameter that takes effect in an endpoint and was replaced has a type without flags. -/
def ParamsNeutral (sites op_sites : List (Json × Json)) : Prop :=
  ∀ name s, effectiveDeclaration ir fetched_params sites op_sites name = some s → s.2 ≠ s.1 →
    (paramOf ir fetched_params s.1).location ∈ paramLocations →
      PlainType (paramOf ir fetched_params s.1).cpp_type

end

section

variable {ir : InvalidRead} {fetched_params : Table Str ClientParam} {sites op_sites : List (Json × Json)}

def Readings (ir : InvalidRead) (fetched_params : Table Str ClientParam) (sites : List (Json × Json)) :
    Prop :=
  ∀ s ∈ sites, ParamReadings ir fetched_params s.1 s.2

theorem ParamReadings.name {item item' : Json} (h : ParamReadings ir fetched_params item item') :
    (paramOf ir fetched_params item').name = (paramOf ir fetched_params item).name := by
  rcases h with rfl | ⟨-, -, heq⟩
  · rfl
  · rw [heq]
    rfl

theorem ParamReadings.location {item item' : Json} (h : ParamReadings ir fetched_params item item') :
    (paramOf ir fetched_params item').location = (paramOf ir fetched_params item).location := by
  rcases h with rfl | ⟨-, -, heq⟩
  · rfl
  · rw [heq]
    rfl

theorem names_readings (h : Readings ir fetched_params sites) :
    (sites.map fun s => paramOf ir fetched_params s.1).map (·.name) =
      (sites.map fun s => paramOf ir fetched_params s.2).map (·.name) := by
  rw [List.map_map, List.map_map]
  exact List.map_congr_left fun s hs => (h s hs).name.symm

theorem lastNamed_map (f : Json × Json → ClientParam) (sites : List (Json × Json)) (name : Str) :
    lastNamed (sites.map f) name = (sites.reverse.find? fun s => (f s).name = name).map f := by
  rw [lastNamed, ← List.map_reverse, List.find?_map]
  rfl

theorem lastNamed_fst (name : Str) :
    lastNamed (sites.map fun s => paramOf ir fetched_params s.1) name =
      (lastDeclared ir fetched_params sites name).map fun s => paramOf ir fetched_params s.1 :=
  lastNamed_map _ sites name

theorem lastNamed_snd (h : Readings ir fetched_params sites) (name : Str) :
    lastNamed (sites.map fun s => paramOf ir fetched_params s.2) name =
      (lastDeclared ir fetched_params sites name).map fun s => paramOf ir fetched_params s.2 := by
  rw [lastNamed_map]
  have hfind : (sites.reverse.find? fun s => (paramOf ir fetched_params s.2).name = name) =
      lastDeclared ir fetched_params sites name :=
    List.find?_congr fun s hs => by rw [(h s (List.mem_reverse.mp hs)).name]
  rw [hfind]

variable (ir fetched_params sites op_sites) in
theorem effectiveParam_fst (name : Str) :
    effectiveParam (sites.map fun s => paramOf ir fetched_params s.1)
        (op_sites.map fun s => paramOf ir fetched_params s.1) name =
      (effectiveDeclaration ir fetched_params sites op_sites name).map fun s =>
        paramOf ir fetched_params s.1 := by
  rw [effectiveParam, lastNamed_fst, lastNamed_fst, effectiveDeclaration]
  cases lastDeclared ir fetched_params op_sites name <;> rfl

theorem effectiveParam_snd (h : Readings ir fetched_params sites) (hop : Readings ir fetched_params op_sites)
    (name : Str) :
    effectiveParam (sites.map fun s => paramOf ir fetched_params s.2)
        (op_sites.map fun s => paramOf ir fetched_params s.2) name =
      (effectiveDeclaration ir fetched_params sites op_sites name).map fun s =>
        paramOf ir fetched_params s.2 := by
  rw [effectiveParam, lastNamed_snd h, lastNamed_snd hop, effectiveDeclaration]
  cases lastDeclared ir fetched_params op_sites name <;> rfl

theorem readings_of_effective (h : Readings ir fetched_params sites)
    (hop : Readings ir fetched_params op_sites) {name : Str} {s : Json × Json}
    (hs : effectiveDeclaration ir fetched_params sites op_sites name = some s) :
    ParamReadings ir fetched_params s.1 s.2 := by
  rcases Option.or_eq_some_iff.mp hs with hs | ⟨-, hs⟩
  · exact hop s (List.mem_reverse.mp (List.mem_of_find?_eq_some hs))
  · exact h s (List.mem_reverse.mp (List.mem_of_find?_eq_some hs))

/-- The parameters of an operation are the same when what was replaced among them has no flags. -/
theorem orderedParams_of_neutral {ho : HashOrders} (hkeys : ho.ByKey) (h : Readings ir fetched_params sites)
    (hop : Readings ir fetched_params op_sites) (hneutral : ParamsNeutral ir fetched_params sites op_sites) :
    orderedParams ho (pathParamsMap (sites.map fun s => paramOf ir fetched_params s.1))
        (op_sites.map fun s => paramOf ir fetched_params s.1) =
      orderedParams ho (pathParamsMap (sites.map fun s => paramOf ir fetched_params s.2))
        (op_sites.map fun s => paramOf ir fetched_params s.2) := by
  refine orderedParams_congr hkeys (names_readings h) (names_readings hop) fun name location hlocation => ?_
  rw [effectiveParam_fst ir fetched_params, effectiveParam_snd h hop]
  cases hs : effectiveDeclaration ir fetched_params sites op_sites name with
  | none => rfl
  | some s =>
    rw [Option.map_some, Option.map_some]
    have hreadings := readings_of_effective h hop hs
    by_cases hloc : (paramOf ir fetched_params s.1).location = location
    · -- the parameter is kept: its two readings are the same
      rcases hreadings with heq | ⟨hne, hflags, heq⟩
      · rw [heq]
      · have hplain := hneutral name s hs hne (hloc ▸ hlocation)
        rw [heq, (withFlags_eq_self hflags).mpr hplain]
    · have hloc' : (paramOf ir fetched_params s.2).location ≠ location := hreadings.location ▸ hloc
      simp [Option.filter, hloc, hloc']

/-- The same parameters in the endpoints mean that what was replaced has no flags. -/
theorem neutral_of_orderedParams {ho : HashOrders} (h : Readings ir fetched_params sites)
    (hop : Readings ir fetched_params op_sites)
    (hsame : ∀ cp, cp ∈ orderedParams ho (pathParamsMap (sites.map fun s => paramOf ir fetched_params s.1))
        (op_sites.map fun s => paramOf ir fetched_params s.1) →
      cp ∈ orderedParams ho (pathParamsMap (sites.map fun s => paramOf ir fetched_params s.2))
        (op_sites.map fun s => paramOf ir fetched_params s.2)) :
    ParamsNeutral ir fetched_params sites op_sites := by
  intro name s hs hne hlocation
  have heffective := effectiveParam_fst ir fetched_params sites op_sites name
  have heffective' := effectiveParam_snd h hop name
  rw [hs, Option.map_some] at heffective heffective'
  have hname := name_of_effectiveParam heffective
  have hmem := mem_orderedParams.mp (hsame _ (mem_orderedParams.mpr ⟨hname.symm ▸ heffective, hlocation⟩))
  have hcp := hmem.1
  rw [hname, heffective'] at hcp
  rcases readings_of_effective h hop hs with heq | ⟨-, hflags, heq⟩
  · exact absurd heq hne
  · exact (withFlags_eq_self hflags).mp (heq ▸ Option.some.inj hcp)

end

/-! ### The endpoint of an operation -/

/-- An operation of a document, and what stands in its place. -/
structure OperationSite where
  method : Str
  op : JsonObject
  op' : JsonObject

namespace OperationSite

variable (ir : InvalidRead) (s : OperationSite)

def params : List (Json × Json) := (paramItems ir s.op).zip (paramItems ir s.op')

end OperationSite

section

variable {ir : InvalidRead} {ho : HashOrders} {ctx : EndpointContext}

theorem endpointOf_eq_iff {path_params_map path_params_map' : Table Str ClientParam} {co co' : ColOp}
    (hpath : co'.path = co.path) (hmethod : co'.method = co.method) (hsummary : co'.summary = co.summary)
    (hdescription : co'.description = co.description) (hsecurity : co'.hasOpSecurity = co.hasOpSecurity) :
    endpointOf ho ctx path_params_map co = endpointOf ho ctx path_params_map' co' ↔
      (orderedParams ho path_params_map co.op_params).map sanitizedParam =
          (orderedParams ho path_params_map' co'.op_params).map sanitizedParam ∧
        endpointBody ctx co = endpointBody ctx co' := by
  constructor
  · intro h
    refine ⟨congrArg Endpoint.params h, ?_⟩
    have hbody : (endpointBody ctx co).1 = (endpointBody ctx co').1 := congrArg Endpoint.has_request_body h
    have htype : (endpointBody ctx co).2.1 = (endpointBody ctx co').2.1 := congrArg Endpoint.body_type h
    have hcontent : (endpointBody ctx co).2.2 = (endpointBody ctx co').2.2 :=
      congrArg Endpoint.body_content_type h
    exact Prod.ext hbody (Prod.ext htype hcontent)
  · rintro ⟨hparams, hbody⟩
    have hrest : ∀ (m : Table Str ClientParam) (c : ColOp), endpointOf ho ctx m c =
        { method := toLower c.method
          path := c.path
          path_template := buildTemplate c.path ((orderedParams ho m c.op_params).map sanitizedParam)
          function_name := generateFunctionName (toLower c.method) c.path
          summary := c.summary
          description := c.description
          cpp_verb := cppVerb (toLower c.method)
          params := (orderedParams ho m c.op_params).map sanitizedParam
          has_request_body := (endpointBody ctx c).1
          body_type := (endpointBody ctx c).2.1
          body_content_type := (endpointBody ctx c).2.2
          auth_type := (endpointAuth ho ctx c.hasOpSecurity).1
          auth_header_name := (endpointAuth ho ctx c.hasOpSecurity).2 } := fun m c => rfl
    rw [hrest, hrest, hpath, hmethod, hsummary, hdescription, hsecurity, hparams, hbody]

variable {sites : List (Json × Json)} {s : OperationSite} {co co' : ColOp}

theorem paramSites_fst (h : OperationRel ir ctx s.op s.op' co co') :
    co.op_params = (s.params ir).map fun e => paramOf ir ctx.fetched_params e.1 := by
  have hfst : (s.params ir).map Prod.fst = paramItems ir s.op :=
    List.map_fst_zip h.readings.length_eq.le
  rw [h.params, ← hfst, List.map_map]
  rfl

theorem paramSites_snd (h : OperationRel ir ctx s.op s.op' co co') :
    co'.op_params = (s.params ir).map fun e => paramOf ir ctx.fetched_params e.2 := by
  have hsnd : (s.params ir).map Prod.snd = paramItems ir s.op' :=
    List.map_snd_zip h.readings.length_eq.ge
  rw [h.params', ← hsnd, List.map_map]
  rfl

theorem readings_of_operationRel (h : OperationRel ir ctx s.op s.op' co co') :
    Readings ir ctx.fetched_params (s.params ir) := fun _ he =>
  (List.forall₂_iff_zip.mp h.readings).2 he

/-- The name of a parameter has not been rewritten when it is read. -/
theorem wireNamed_map_paramOf {fetched_params : Table Str ClientParam}
    (hfetched : ∀ k cp, fetched_params.find k = some cp → cp.wire_name = cp.name) (f : Json × Json → Json)
    (sites : List (Json × Json)) : WireNamed (sites.map fun e => paramOf ir fetched_params (f e)) := by
  refine List.forall_mem_map.mpr fun e _ => ?_
  cases hcp : resolveItem ir fetched_params (f e) with
  | error fault =>
    rw [paramOf, hcp]
  | ok cp =>
    have hone : resolveParameters ir fetched_params [f e] = .ok [cp] :=
      mapM_eq_ok.mpr (.cons hcp .nil)
    rw [paramOf_eq hcp]
    exact namedRule.resolveParameters hfetched hone cp (List.mem_singleton_self cp)

/-- **The endpoint of one operation**, before and after its references, and those of the path items, are
replaced. -/
theorem endpointOf_site_iff (hkeys : ho.ByKey) (hfetched : ∀ k cp, ctx.fetched_params.find k = some cp →
      cp.wire_name = cp.name) (hsites : Readings ir ctx.fetched_params sites)
    (h : OperationRel ir ctx s.op s.op' co co') :
    endpointOf ho ctx (pathParamsMap (sites.map fun e => paramOf ir ctx.fetched_params e.1)) co =
        endpointOf ho ctx (pathParamsMap (sites.map fun e => paramOf ir ctx.fetched_params e.2)) co' ↔
      ParamsNeutral ir ctx.fetched_params sites (s.params ir) ∧
        BodyNeutral ir (bodyOf ir s.op) (bodyOf ir s.op') := by
  rw [endpointOf_eq_iff h.path h.method h.summary h.description h.security, h.body,
    paramSites_fst h, paramSites_snd h]
  refine and_congr_left fun _ => ?_
  have hop := readings_of_operationRel h
  constructor
  · intro heq
    have hperm := (map_sanitizedParam_perm_iff
      (wireNamed_orderedParams (wireNamed_map_paramOf hfetched Prod.fst sites)
        (wireNamed_map_paramOf hfetched Prod.fst (s.params ir)))
      (wireNamed_orderedParams (wireNamed_map_paramOf hfetched Prod.snd sites)
        (wireNamed_map_paramOf hfetched Prod.snd (s.params ir)))
      (orderedParams_nodup ..) (orderedParams_nodup ..)).mp (List.Perm.of_eq heq)
    exact neutral_of_orderedParams hsites hop fun cp hcp => hperm.mem_iff.mp hcp
  · intro hneutral
    rw [orderedParams_of_neutral hkeys hsites hop hneutral]

end

/-! ### Two documents side by side -/

section

variable (ir : InvalidRead)

/-- The parameters of a path item, with what stands in their place. -/
def pathParamSites (e : (Str × Json) × (Str × Json)) : List (Json × Json) :=
  (paramItems ir (ofMember e.1.2)).zip (paramItems ir (ofMember e.2.2))

/-- The operations of a path item, with what stands in their place. -/
def pathOperationSites (e : (Str × Json) × (Str × Json)) : List OperationSite :=
  (((ofMember e.1.2).getD []).zip ((ofMember e.2.2).getD [])).map fun o =>
    ⟨o.1.1, ofMember o.1.2, ofMember o.2.2⟩

/-- In every operation that becomes an endpoint, what was replaced is read alike. -/
def Neutral (fetched_params : Table Str ClientParam) (paths paths' : List (Str × Json)) : Prop :=
  ∀ s ∈ (paths.zip paths').flatMap pathOperationSites, isSupportedMethod (toLower s.method) = true →
    ParamsNeutral ir fetched_params ((paths.zip paths').flatMap (pathParamSites ir)) (s.params ir) ∧
      BodyNeutral ir (bodyOf ir s.op) (bodyOf ir s.op')

end

section

variable {ir : InvalidRead} {ctx : EndpointContext} {params bodies : List (Str × Json)}
  (hread : ComponentsRead ir params bodies ctx)

structure PathItemRel (ir : InvalidRead) (ctx : EndpointContext) (e e' : Str × Json)
    (r r' : List ClientParam × List ColOp) : Prop where
  readings : Readings ir ctx.fetched_params (pathParamSites ir (e, e'))
  params : r.1 = (pathParamSites ir (e, e')).map fun s => paramOf ir ctx.fetched_params s.1
  params' : r'.1 = (pathParamSites ir (e, e')).map fun s => paramOf ir ctx.fetched_params s.2
  operations : ∃ cs : List (ColOp × ColOp), r.2 = cs.map Prod.fst ∧ r'.2 = cs.map Prod.snd ∧
    List.Forall₂ (fun s c => OperationRel ir ctx s.op s.op' c.1 c.2 ∧ c.1.method = s.method)
      (pathOperationSites (e, e')) cs

include hread

theorem readPathItem_rel {e e' : Str × Json} (hpath : e'.1 = e.1)
    (h : MembersRel (PathItemMember params bodies) e.2 e'.2) :
    OkRel (PathItemRel ir ctx e e') (readPathItem ir ctx.fetched_params e)
      (readPathItem ir ctx.fetched_params e') := by
  -- the parameters and the members of the two items
  have hparameters : OkRel (List.Forall₂ (Inlined params)) (JsonObject.parameters ir (ofMember e.2))
      (JsonObject.parameters ir (ofMember e'.2)) := by
    generalize e.2 = v at h
    generalize e'.2 = v' at h
    cases h with
    | same =>
      have hrefl : OperationViews ir params bodies (ofMember v) (ofMember v) := .refl _
      exact hrefl.parameters
    | obj h => exact listField_rel .same h (if_pos rfl)
  have hmembers : List.Forall₂ (fun m m' => m'.1 = m.1 ∧
      OperationViews ir params bodies (ofMember m.2) (ofMember m'.2))
        ((ofMember e.2).getD []) ((ofMember e'.2).getD []) := by
    generalize e.2 = v at h
    generalize e'.2 = v' at h
    cases h with
    | same => exact List.forall₂_same.mpr fun m _ => ⟨rfl, .refl _⟩
    | obj h => exact h.imp fun m m' hm => ⟨hm.1, operationViews_of_pathItem hm.2⟩
  intro r hr
  obtain ⟨items, hitems, hr⟩ := bind_eq_ok.mp hr
  obtain ⟨path_params, hparams, hr⟩ := bind_eq_ok.mp hr
  obtain ⟨ops, hops, hr⟩ := bind_eq_ok.mp hr
  obtain rfl := pure_eq_ok.mp hr
  obtain ⟨items', hitems', hinlined⟩ := hparameters items hitems
  obtain ⟨path_params', hparams', hreadings⟩ := resolveParameters_rel hread hinlined path_params hparams
  have hloop : List.Forall₂ (fun m m' => OkRel
      (fun co co' => OperationRel ir ctx (ofMember m.2) (ofMember m'.2) co co' ∧ co.method = m.1)
      (readOperation ir ctx.fetched_params e.1 m.1 (ofMember m.2))
      (readOperation ir ctx.fetched_params e'.1 m'.1 (ofMember m'.2)))
      ((ofMember e.2).getD []) ((ofMember e'.2).getD []) := by
    refine hmembers.imp fun m m' hm co hco => ?_
    obtain ⟨co', hco', hrel⟩ := readOperation_rel hread hm.2 e.1 m.1 co hco
    rw [hpath, hm.1]
    exact ⟨co', hco', hrel, readOperation_method hco⟩
  obtain ⟨cs, rfl, hops', hcs⟩ := OkRel.mapM_zip hloop hops
  have hsites : pathParamSites ir (e, e') = items.zip items' := by
    rw [pathParamSites, paramItems_eq hitems, paramItems_eq hitems']
  have hfst : (items.zip items').map Prod.fst = items := List.map_fst_zip hreadings.length_eq.le
  have hsnd : (items.zip items').map Prod.snd = items' := List.map_snd_zip hreadings.length_eq.ge
  refine ⟨(path_params', cs.map Prod.snd), ?_, ?_, ?_, ?_, cs, rfl, rfl, ?_⟩
  · exact bind_eq_ok.mpr ⟨items', hitems', bind_eq_ok.mpr ⟨path_params', hparams',
      bind_eq_ok.mpr ⟨_, hops', rfl⟩⟩⟩
  · rw [hsites]
    exact fun s hs => (List.forall₂_iff_zip.mp hreadings).2 hs
  · rw [hsites, resolveParameters_eq hparams]
    conv_lhs => rw [← hfst, List.map_map]
    rfl
  · rw [hsites, resolveParameters_eq hparams']
    conv_lhs => rw [← hsnd, List.map_map]
    rfl
  · rw [pathOperationSites, List.forall₂_map_left_iff]
    exact hcs

omit hread in
/-- What a list of path items gives, before and after. -/
structure PathItemsRel (ir : InvalidRead) (ctx : EndpointContext) (l : List ((Str × Json) × (Str × Json)))
    (reads reads' : List (List ClientParam × List ColOp)) : Prop where
  readings : Readings ir ctx.fetched_params (l.flatMap (pathParamSites ir))
  params : reads.flatMap Prod.fst =
    (l.flatMap (pathParamSites ir)).map fun s => paramOf ir ctx.fetched_params s.1
  params' : reads'.flatMap Prod.fst =
    (l.flatMap (pathParamSites ir)).map fun s => paramOf ir ctx.fetched_params s.2
  operations : ∃ cs : List (ColOp × ColOp), reads.flatMap Prod.snd = cs.map Prod.fst ∧
    reads'.flatMap Prod.snd = cs.map Prod.snd ∧
    List.Forall₂ (fun s c => OperationRel ir ctx s.op s.op' c.1 c.2 ∧ c.1.method = s.method)
      (l.flatMap pathOperationSites) cs

omit hread in
theorem pathItemsRel_of_forall₂ {l : List ((Str × Json) × (Str × Json))}
    {pairs : List ((List ClientParam × List ColOp) × (List ClientParam × List ColOp))}
    (h : List.Forall₂ (fun e p => PathItemRel ir ctx e.1 e.2 p.1 p.2) l pairs) :
    PathItemsRel ir ctx l (pairs.map Prod.fst) (pairs.map Prod.snd) := by
  induction h with
  | nil => exact ⟨nofun, rfl, rfl, [], rfl, rfl, .nil⟩
  | @cons e p l pairs he _ ih =>
    obtain ⟨cs, hops, hops', hcs⟩ := ih.operations
    obtain ⟨own, hown, hown', howns⟩ := he.operations
    refine ⟨?_, ?_, ?_, own ++ cs, ?_, ?_, ?_⟩
    · intro s hs
      rw [List.flatMap_cons, List.mem_append] at hs
      exact hs.elim (he.readings s) (ih.readings s)
    · simp only [List.map_cons, List.flatMap_cons, List.map_append, ih.params, he.params]
    · simp only [List.map_cons, List.flatMap_cons, List.map_append, ih.params', he.params']
    · simp only [List.map_cons, List.flatMap_cons, List.map_append, hops, hown]
    · simp only [List.map_cons, List.flatMap_cons, List.map_append, hops', hown']
    · rw [List.flatMap_cons]
      exact List.rel_append howns hcs

theorem mapM_readPathItem_rel {paths paths' : List (Str × Json)}
    (h : List.Forall₂ (fun e e' => e'.1 = e.1 ∧ MembersRel (PathItemMember params bodies) e.2 e'.2) paths paths') :
    OkRel (PathItemsRel ir ctx (paths.zip paths')) (paths.mapM (readPathItem ir ctx.fetched_params))
      (paths'.mapM (readPathItem ir ctx.fetched_params)) := by
  intro reads hreads
  have hloop := h.imp fun e e' he => readPathItem_rel hread he.1 he.2
  obtain ⟨pairs, rfl, hrun, hpairs⟩ := OkRel.mapM_zip hloop hreads
  exact ⟨_, hrun, pathItemsRel_of_forall₂ hpairs⟩

end

section

variable {ir : InvalidRead} {ho : HashOrders} {ctx : EndpointContext}

theorem endpoints_eq_iff (hkeys : ho.ByKey)
    (hfetched : ∀ k cp, ctx.fetched_params.find k = some cp → cp.wire_name = cp.name)
    {paths paths' : List (Str × Json)} {reads reads' : List (List ClientParam × List ColOp)}
    (h : PathItemsRel ir ctx (paths.zip paths') reads reads') :
    ((reads.flatMap Prod.snd).filter isEndpoint).map
        (endpointOf ho ctx (pathParamsMap (reads.flatMap Prod.fst))) =
      ((reads'.flatMap Prod.snd).filter isEndpoint).map
        (endpointOf ho ctx (pathParamsMap (reads'.flatMap Prod.fst))) ↔
      Neutral ir ctx.fetched_params paths paths' := by
  obtain ⟨cs, hops, hops', hcs⟩ := h.operations
  rw [hops, hops', h.params, h.params']
  have hmethod : ∀ c ∈ cs, isEndpoint c.1 = isEndpoint c.2 := by
    intro c hc
    obtain ⟨s, -, hrel, -⟩ := forall₂_exists_left hcs c hc
    rw [isEndpoint, isEndpoint, hrel.method]
  rw [map_filter_eq_iff hmethod]
  constructor
  · intro heq s hs hsupported
    obtain ⟨c, hc, hrel, hname⟩ := forall₂_exists_right hcs s hs
    have hendpoint : isEndpoint c.1 = true := by rw [isEndpoint, hname, hsupported]
    exact (endpointOf_site_iff hkeys hfetched h.readings hrel).mp (heq c hc hendpoint)
  · intro hneutral c hc hendpoint
    obtain ⟨s, hs, hrel, hname⟩ := forall₂_exists_left hcs c hc
    rw [isEndpoint, hname] at hendpoint
    exact (endpointOf_site_iff hkeys hfetched h.readings hrel).mpr (hneutral s hs hendpoint)

theorem paths_rel {spec spec' : JsonObject} {members members' : Record Str Json}
    {params bodies : List (Str × Json)} (hspec : spec = some members) (hspec' : spec' = some members')
    (h : List.Forall₂ (fun m m' => m'.1 = m.1 ∧ SpecMember params bodies m.1 m.2 m'.2) members members') :
    OkRel (List.Forall₂ fun e e' => e'.1 = e.1 ∧ MembersRel (PathItemMember params bodies) e.2 e'.2)
      (mapField ir spec "paths".toList) (mapField ir spec' "paths".toList) := by
  subst hspec hspec'
  refine (atKey_rel h _).bind fun v v' hv => ?_
  cases hv with
  | none => exact .pure .nil
  | @some v v' hv =>
    rw [SpecMember, if_pos rfl] at hv
    cases hv with
    | same =>
      exact fun paths hpaths => ⟨paths, hpaths, List.forall₂_same.mpr fun e _ => ⟨rfl, .same _⟩⟩
    | obj h => exact .pure h

end

/-- **When references are transparent.**  A document with any number of the references in its paths
replaced by what they name has the same endpoints if and only if, in every operation that becomes an
endpoint, the parameters that take effect and were replaced have types without flags, and the request
body was not replaced, or by one whose first content type is the empty text. -/
theorem references_transparent_iff (ir : InvalidRead) (ho : HashOrders) (hkeys : ho.ByKey)
    {spec spec' : JsonObject} (hinlined : ReferencesInlined ir spec spec') {endpoints : List Endpoint}
    (hrun : parseEndpoints ir ho spec = .ok endpoints) :
    parseEndpoints ir ho spec' = .ok endpoints ↔
      ∀ ctx paths paths', readContext ir spec = .ok ctx → mapField ir spec "paths".toList = .ok paths →
        mapField ir spec' "paths".toList = .ok paths' → Neutral ir ctx.fetched_params paths paths' := by
  obtain ⟨members, members', components, params, bodies, hspec, hspec', hcomponents, hparams, hbodies, h⟩ :=
    hinlined
  have hother : ∀ key, key ≠ "paths".toList → atKey ir spec key = atKey ir spec' key := by
    intro key hkey
    subst hspec hspec'
    refine (atKey_same h fun v v' hv => ?_).symm
    rwa [SpecMember, if_neg hkey] at hv
  have hcontext : readContext ir spec = readContext ir spec' := by
    refine readContext_congr (hother _ (by decide)) ?_
    rw [hasKey, hasKey, hother _ (by decide)]
  rw [parseEndpoints_eq] at hrun ⊢
  obtain ⟨ctx, hctx, hrun⟩ := bind_eq_ok.mp hrun
  obtain ⟨paths, hpaths, hrun⟩ := bind_eq_ok.mp hrun
  obtain ⟨reads, hreads, hrun⟩ := bind_eq_ok.mp hrun
  obtain rfl := pure_eq_ok.mp hrun
  obtain ⟨paths', hpaths', hrel⟩ := paths_rel hspec hspec' h paths hpaths
  have hread := readContext_components hcomponents hparams hbodies hctx
  obtain ⟨reads', hreads', hitems⟩ := mapM_readPathItem_rel hread hrel reads hreads
  have hrun' : (do
      let ctx ← readContext ir spec'
      let paths ← mapField ir spec' "paths".toList
      let reads ← paths.mapM (readPathItem ir ctx.fetched_params)
      return ((reads.flatMap Prod.snd).filter isEndpoint).map
        (endpointOf ho ctx (pathParamsMap (reads.flatMap Prod.fst))) : Except Fault (List Endpoint)) =
      .ok (((reads'.flatMap Prod.snd).filter isEndpoint).map
        (endpointOf ho ctx (pathParamsMap (reads'.flatMap Prod.fst)))) :=
    bind_eq_ok.mpr ⟨ctx, hcontext ▸ hctx, bind_eq_ok.mpr ⟨paths', hpaths',
      bind_eq_ok.mpr ⟨reads', hreads', rfl⟩⟩⟩
  rw [hrun', Except.ok.injEq, eq_comm, endpoints_eq_iff hkeys (namedRule.readContext hctx) hitems]
  simp only [hctx, hpaths, hpaths', Except.ok.injEq]
  constructor
  · rintro hneutral _ _ _ rfl rfl rfl
    exact hneutral
  · exact fun hneutral => hneutral ctx paths paths' rfl rfl rfl

/-- The component `limit`, a query parameter. -/
def limitParam (type : Str) : Json :=
  .obj [("name".toList, .str "limit".toList), ("in".toList, .str "query".toList),
    ("schema".toList, .obj [("type".toList, .str type)])]

def limitRef : Json := .obj [("$ref".toList, .str "#/components/parameters/limit".toList)]

/-- A document with one operation, which has the parameter `param`. -/
def limitSpec (type : Str) (param : Json) : JsonObject :=
  some [("components".toList, .obj [("parameters".toList, .obj [("limit".toList, limitParam type)])]),
    ("paths".toList, .obj [("/pets".toList, .obj [("get".toList,
      .obj [("parameters".toList, .arr [param])])])])]

theorem limitSpec_inlined (type : Str) :
    ReferencesInlined .crash (limitSpec type limitRef) (limitSpec type (limitParam type)) := by
  have hparam : Inlined [("limit".toList, limitParam type)] limitRef (limitParam type) := by
    refine .component rfl (by decide) (List.mem_singleton_self _) (fun q hq => ?_) (fun s hs => ?_)
    · exact (Prod.mk.inj (List.mem_singleton.mp hq)).2
    · cases hs
  have hop : OperationMember [("limit".toList, limitParam type)] [] "parameters".toList (.arr [limitRef])
      (.arr [limitParam type]) := by
    rw [OperationMember, if_pos rfl]
    exact .arr (.cons hparam .nil)
  have hitem : PathItemMember [("limit".toList, limitParam type)] [] "get".toList
      (.obj [("parameters".toList, .arr [limitRef])])
      (.obj [("parameters".toList, .arr [limitParam type])]) := by
    rw [PathItemMember, if_neg (by decide)]
    exact .obj (.cons ⟨rfl, hop⟩ .nil)
  refine ⟨_, _, _, _, _, rfl, rfl, rfl, rfl, rfl, .cons ⟨rfl, ?_⟩ (.cons ⟨rfl, ?_⟩ .nil)⟩
  · show SpecMember _ _ "components".toList _ _
    rw [SpecMember, if_neg (by decide)]
  · rw [SpecMember, if_pos rfl]
    exact .obj (.cons ⟨rfl, .obj (.cons ⟨rfl, hitem⟩ .nil)⟩ .nil)

theorem newestFirst_byKey (ι : Type) : (HashOrder.newestFirst ι).ByKey := fun _ _ _ _ _ h => h

theorem references_transparent_iff_limit :
    ∃ endpoints, parseEndpoints .crash (HashOrder.newestFirst _) (limitSpec "integer".toList limitRef) =
        .ok endpoints ∧
      (parseEndpoints .crash (HashOrder.newestFirst _)
          (limitSpec "integer".toList (limitParam "integer".toList)) = .ok endpoints ↔
        ∀ ctx paths paths', readContext .crash (limitSpec "integer".toList limitRef) = .ok ctx →
          mapField .crash (limitSpec "integer".toList limitRef) "paths".toList = .ok paths →
          mapField .crash (limitSpec "integer".toList (limitParam "integer".toList)) "paths".toList = .ok paths' →
            Neutral .crash ctx.fetched_params paths paths') :=
  ⟨_, rfl, references_transparent_iff .crash (HashOrder.newestFirst _) (newestFirst_byKey _)
    (limitSpec_inlined "integer".toList) rfl⟩

/-- A query parameter of type string is flagged as a string when it is written in place, and not when it is
a reference. -/
theorem reference_loses_flags :
    ReferencesInlined .crash (limitSpec "string".toList limitRef)
        (limitSpec "string".toList (limitParam "string".toList)) ∧
      ∃ endpoints endpoints',
        parseEndpoints .crash (HashOrder.newestFirst _) (limitSpec "string".toList limitRef) = .ok endpoints ∧
        parseEndpoints .crash (HashOrder.newestFirst _)
          (limitSpec "string".toList (limitParam "string".toList)) = .ok endpoints' ∧
        endpoints ≠ endpoints' :=
  ⟨limitSpec_inlined "string".toList, _, _, rfl, rfl, by decide⟩

end Siesta
