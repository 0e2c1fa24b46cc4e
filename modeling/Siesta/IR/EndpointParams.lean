import Siesta.IR.PathItems

/-!
# The parameters of an endpoint

What every endpoint of `parseEndpoints` has in common, for the backends: its template is made from its
path, and its parameters have the names, the locations and the flags that the parser gives them.
-/

namespace Siesta

open Lib JsonObject

/-- The flags of a parameter say something of its C++ type; that a flag is not set says nothing, since
the parameters of the components are read without them. -/
structure ClientParam.FlagsFit (p : ClientParam) : Prop where
  string : p.is_string_type = true → "string".toList <:+: p.cpp_type
  vector : p.is_vector_type = true → "vector".toList <:+: p.cpp_type
  vector_string : p.is_vector_string_type = (p.is_vector_type && p.is_string_type)

/-- What `parseEndpoints` ensures of an endpoint; the verb and the function name are those the server needs
to tell endpoints apart. -/
structure Endpoint.Parsed (ep : Endpoint) : Prop where
  path_template : ep.path_template = buildTemplate ep.path ep.params
  method : isSupportedMethod ep.method = true
  cpp_verb : ep.cpp_verb = cppVerb ep.method
  function_name : ep.function_name = generateFunctionName ep.method ep.path
  names : ∀ p ∈ ep.params, p.name = sanitizeParamName p.wire_name
  wire_names : (ep.params.map (·.wire_name)).Nodup
  locations : ∀ p ∈ ep.params, p.location ∈ paramLocations
  flags : ∀ p ∈ ep.params, p.FlagsFit

section

variable {ir : InvalidRead} {ho : HashOrders}

theorem flagsRule : ParamRule ir ClientParam.FlagsFit where
  fetched h := by
    obtain ⟨_, _, _, _, _, _, _, rfl⟩ := fetchParameter_cases h
    exact ⟨nofun, nofun, rfl⟩
  read h := by
    obtain ⟨_, _, rfl | ⟨_, _, _, rfl⟩⟩ := readParameter_cases h
    · exact ⟨nofun, nofun, rfl⟩
    · exact ⟨of_decide_eq_true, of_decide_eq_true, rfl⟩

theorem orderedParams_names_nodup (params op_params : List ClientParam) :
    ((orderedParams ho (pathParamsMap params) op_params).map (·.name)).Nodup := by
  refine List.Nodup.map_on (fun p hp q hq hname => ?_) (orderedParams_nodup params op_params)
  have hp := (mem_orderedParams.mp hp).1
  have hq := (mem_orderedParams.mp hq).1
  rw [← hname, hp] at hq
  exact Option.some.inj hq

/-- An endpoint is made from an operation whose parameters, and those of the path items, have been
read. -/
theorem mem_parseEndpoints {spec : JsonObject} {endpoints : List Endpoint} {ep : Endpoint}
    (hrun : parseEndpoints ir ho spec = .ok endpoints) (hep : ep ∈ endpoints) :
    ∃ ctx params co, ep = endpointOf ho ctx (pathParamsMap params) co ∧ isEndpoint co = true ∧
      ∀ {P : ClientParam → Prop}, ParamRule ir P →
        (∀ p ∈ params, P p) ∧ ∀ p ∈ co.op_params, P p := by
  rw [parseEndpoints_eq] at hrun
  obtain ⟨ctx, hctx, hrun⟩ := bind_eq_ok.mp hrun
  obtain ⟨paths, -, hrun⟩ := bind_eq_ok.mp hrun
  obtain ⟨reads, hreads, hrun⟩ := bind_eq_ok.mp hrun
  obtain rfl := pure_eq_ok.mp hrun
  obtain ⟨co, hco, rfl⟩ := List.mem_map.mp hep
  have hcases : ∀ r ∈ reads, ∃ entry, readPathItem ir ctx.fetched_params entry = .ok r := by
    intro r hr
    obtain ⟨entry, -, hentry⟩ := forall₂_exists_left (mapM_eq_ok.mp hreads) r hr
    exact ⟨entry, hentry⟩
  refine ⟨ctx, _, co, rfl, (List.mem_filter.mp hco).2, fun hP => ⟨fun p hp => ?_, fun p hp => ?_⟩⟩
  · obtain ⟨r, hr, hp⟩ := List.mem_flatMap.mp hp
    obtain ⟨entry, hentry⟩ := hcases r hr
    obtain ⟨items, hitems⟩ := (readPathItem_cases hentry).1
    exact hP.resolveParameters (hP.readContext hctx) hitems p hp
  · obtain ⟨r, hr, hco⟩ := List.mem_flatMap.mp (List.mem_of_mem_filter hco)
    obtain ⟨entry, hentry⟩ := hcases r hr
    obtain ⟨-, items, hitems⟩ := (readPathItem_cases hentry).2 co hco
    exact hP.resolveParameters (hP.readContext hctx) hitems p hp

/-- **The endpoints of a document.** -/
theorem parsed_of_mem_parseEndpoints {spec : JsonObject} {endpoints : List Endpoint} {ep : Endpoint}
    (hrun : parseEndpoints ir ho spec = .ok endpoints) (hep : ep ∈ endpoints) : ep.Parsed := by
  obtain ⟨ctx, params, co, rfl, hmethod, hrule⟩ := mem_parseEndpoints hrun hep
  have hread : ∀ {P : ClientParam → Prop}, ParamRule ir P →
      ∀ p ∈ orderedParams ho (pathParamsMap params) co.op_params, P p := by
    intro P hP p hp
    obtain ⟨hparams, hop⟩ := hrule hP
    rcases Option.or_eq_some_iff.mp (mem_orderedParams.mp hp).1 with h | ⟨-, h⟩
    · exact hop p (mem_of_lastNamed h)
    · exact hparams p (mem_of_lastNamed h)
  have hwire : (endpointOf ho ctx (pathParamsMap params) co).params.map (·.wire_name) =
      (orderedParams ho (pathParamsMap params) co.op_params).map (·.name) := by
    show List.map _ (List.map sanitizedParam _) = _
    rw [List.map_map]
    exact List.map_congr_left fun p hp => hread namedRule p hp
  have hall : ∀ {Q : ClientParam → Prop},
      (∀ p ∈ orderedParams ho (pathParamsMap params) co.op_params, Q (sanitizedParam p)) →
      ∀ p ∈ (endpointOf ho ctx (pathParamsMap params) co).params, Q p :=
    fun h => List.forall_mem_map.mpr h
  exact
    { path_template := rfl
      method := hmethod
      cpp_verb := rfl
      function_name := rfl
      names := hall fun p hp => congrArg sanitizeParamName (hread namedRule p hp).symm
      wire_names := hwire ▸ orderedParams_names_nodup params co.op_params
      locations := hall fun p hp => (mem_orderedParams.mp hp).2
      flags := hall fun p hp =>
        have hfit := hread flagsRule p hp
        ⟨hfit.string, hfit.vector, hfit.vector_string⟩ }

end

end Siesta
