import Siesta.IR.PathItems

/-!
# Which declarations of a parameter are kept

A parameter is declared by its name and its location, and `mergeParams` looks it up by its name alone:
the last declaration of a name stands for all of them.  So the parameters of an operation are merged as
declared exactly when the declarations of each name have one location (`params_merged_iff`).
-/

namespace Siesta

open Lib JsonObject

def paramsAt (location : Str) (params : List ClientParam) : List ClientParam :=
  params.filter (·.location = location)

/-- The declaration of a name at a location: the operation's, if it has one, and else the path item's. -/
def declarationAt (params op_params : List ClientParam) (name location : Str) : Option ClientParam :=
  effectiveParam (paramsAt location params) (paramsAt location op_params) name

/-- The parameters `kept` of an endpoint are those that the path item and the operation declare. -/
structure MergedAsDeclared (params op_params kept : List ClientParam) : Prop where
  mem : ∀ p, p ∈ kept ↔ ∃ q, q.location ∈ paramLocations ∧
    declarationAt params op_params q.name q.location = some q ∧ p = sanitizedParam q
  /-- No name is kept twice at a location. -/
  once : (kept.map fun p => (p.wire_name, p.location)).Nodup
  ordered : kept.Pairwise fun p q => paramLocations.idxOf p.location ≤ paramLocations.idxOf q.location

/-- A declaration at one of the kept locations has the location of the one its name stands for. -/
def LocationsAgree (params op_params : List ClientParam) : Prop :=
  ∀ q ∈ params ++ op_params, q.location ∈ paramLocations →
    ∀ e, effectiveParam params op_params q.name = some e → e.location = q.location

section

variable {params op_params : List ClientParam}

theorem mem_paramsAt {location : Str} {p : ClientParam} :
    p ∈ paramsAt location params ↔ p ∈ params ∧ p.location = location := by
  simp [paramsAt]

theorem lastNamed_paramsAt {name : Str} {e : ClientParam} (h : lastNamed params name = some e) :
    lastNamed (paramsAt e.location params) name = some e := by
  induction params using List.reverseRecOn with
  | nil => cases h
  | append_singleton params cp ih =>
    rw [lastNamed_concat] at h
    rw [paramsAt, List.filter_append]
    split at h
    · rename_i hname
      obtain rfl := Option.some.inj h
      have hlast : [cp].filter (fun p => p.location = cp.location) = [cp] := by simp
      rw [hlast, lastNamed_concat, if_pos hname]
    · rename_i hname
      by_cases hloc : cp.location = e.location
      · have hlast : [cp].filter (fun p => p.location = e.location) = [cp] := by simp [hloc]
        rw [hlast, lastNamed_concat, if_neg hname]
        exact ih h
      · have hlast : [cp].filter (fun p => p.location = e.location) = [] := by simp [hloc]
        rw [hlast, List.append_nil]
        exact ih h

theorem lastNamed_paramsAt_eq_none {name : Str} (h : lastNamed params name = none) (location : Str) :
    lastNamed (paramsAt location params) name = none := by
  rw [lastNamed_eq_none] at h ⊢
  intro hmem
  obtain ⟨p, hp, rfl⟩ := List.mem_map.mp hmem
  exact h (List.mem_map_of_mem (mem_paramsAt.mp hp).1)

theorem declarationAt_of_effective {name : Str} {e : ClientParam}
    (h : effectiveParam params op_params name = some e) :
    declarationAt params op_params name e.location = some e := by
  rcases Option.or_eq_some_iff.mp h with h | ⟨hnone, h⟩
  · exact Option.or_eq_some_iff.mpr (.inl (lastNamed_paramsAt h))
  · exact Option.or_eq_some_iff.mpr
      (.inr ⟨lastNamed_paramsAt_eq_none hnone e.location, lastNamed_paramsAt h⟩)

theorem mem_of_declarationAt {name location : Str} {d : ClientParam}
    (h : declarationAt params op_params name location = some d) :
    d ∈ params ++ op_params ∧ d.name = name ∧ d.location = location := by
  have hname := name_of_effectiveParam h
  rcases Option.or_eq_some_iff.mp h with h | ⟨-, h⟩
  · obtain ⟨hd, hloc⟩ := mem_paramsAt.mp (mem_of_lastNamed h)
    exact ⟨List.mem_append_right _ hd, hname, hloc⟩
  · obtain ⟨hd, hloc⟩ := mem_paramsAt.mp (mem_of_lastNamed h)
    exact ⟨List.mem_append_left _ hd, hname, hloc⟩

theorem exists_effective {q : ClientParam} (hq : q ∈ params ++ op_params) :
    ∃ e, effectiveParam params op_params q.name = some e := by
  have hsome : ∀ {ps : List ClientParam}, q ∈ ps → ∃ e, lastNamed ps q.name = some e := fun hq =>
    Option.ne_none_iff_exists'.mp fun hnone => lastNamed_eq_none.mp hnone (List.mem_map_of_mem hq)
  rcases List.mem_append.mp hq with hq | hq
  · obtain ⟨e, he⟩ := hsome hq
    cases hop : lastNamed op_params q.name with
    | some e' => exact ⟨e', by rw [effectiveParam, hop]; rfl⟩
    | none => exact ⟨e, by rw [effectiveParam, hop]; exact he⟩
  · obtain ⟨e, he⟩ := hsome hq
    exact ⟨e, by rw [effectiveParam, he]; rfl⟩

theorem exists_declarationAt {q : ClientParam} (hq : q ∈ params ++ op_params) :
    ∃ d, declarationAt params op_params q.name q.location = some d := by
  refine exists_effective (List.mem_append.mpr ?_)
  rcases List.mem_append.mp hq with hq | hq
  · exact .inl (mem_paramsAt.mpr ⟨hq, rfl⟩)
  · exact .inr (mem_paramsAt.mpr ⟨hq, rfl⟩)

theorem orderedParams_pairwise (ho : HashOrders) (path_params_map : Table Str ClientParam)
    (op_params : List ClientParam) :
    (orderedParams ho path_params_map op_params).Pairwise fun p q =>
      paramLocations.idxOf p.location ≤ paramLocations.idxOf q.location := by
  have hlocation : ∀ {location : Str} {p : ClientParam} {names : List Str} {f : Str → Option ClientParam},
      p ∈ names.filterMap (fun name => (f name).filter (·.location = location)) →
        p.location = location := by
    intro location p names f hp
    obtain ⟨name, -, hp⟩ := List.mem_filterMap.mp hp
    simpa using (Option.filter_eq_some_iff.mp hp).2
  have hsorted : paramLocations.Pairwise fun a b => paramLocations.idxOf a ≤ paramLocations.idxOf b := by
    decide
  simp only [orderedParams]
  refine List.pairwise_flatMap.mpr ⟨fun location _ => ?_, hsorted.imp fun hle p hp q hq => ?_⟩
  · refine List.pairwise_of_forall_mem_list fun p hp q hq => ?_
    rw [hlocation hp, hlocation hq]
  · rw [hlocation hp, hlocation hq]
    exact hle

variable {ho : HashOrders}

/-- A name that is declared at one location only stands for its declaration there. -/
theorem effective_iff_declarationAt (hagree : LocationsAgree params op_params) {e : ClientParam}
    (hkept : e.location ∈ paramLocations) :
    effectiveParam params op_params e.name = some e ↔
      declarationAt params op_params e.name e.location = some e := by
  refine ⟨declarationAt_of_effective, fun h => ?_⟩
  obtain ⟨hmem, -, -⟩ := mem_of_declarationAt h
  obtain ⟨e', he'⟩ := exists_effective hmem
  have hdecl := declarationAt_of_effective he'
  rw [hagree e hmem hkept e' he', h] at hdecl
  obtain rfl := Option.some.inj hdecl
  exact he'

theorem mergedAsDeclared_iff (hparams : WireNamed params) (hop : WireNamed op_params) :
    MergedAsDeclared params op_params
        ((orderedParams ho (pathParamsMap params) op_params).map sanitizedParam) ↔
      LocationsAgree params op_params := by
  have hwire : WireNamed (orderedParams ho (pathParamsMap params) op_params) :=
    wireNamed_orderedParams hparams hop
  have hdeclared : WireNamed (params ++ op_params) := fun q hq =>
    (List.mem_append.mp hq).elim (hparams q) (hop q)
  constructor
  · intro h q hq hkept e he
    -- the declaration of `q` is kept, so it is what the name stands for
    obtain ⟨d, hd⟩ := exists_declarationAt hq
    obtain ⟨hmem, hname, hloc⟩ := mem_of_declarationAt hd
    have hkeptd : sanitizedParam d ∈ (orderedParams ho (pathParamsMap params) op_params).map
        sanitizedParam := (h.mem _).mpr ⟨d, hloc ▸ hkept, by rw [hname, hloc]; exact hd, rfl⟩
    obtain ⟨e', he', heq⟩ := List.mem_map.mp hkeptd
    obtain rfl := sanitizedParam_inj (hwire e' he') (hdeclared d hmem) heq
    have heffective := (mem_orderedParams.mp he').1
    rw [hname, he] at heffective
    rw [Option.some.inj heffective, hloc]
  · intro hagree
    refine ⟨fun p => ?_, ?_, ?_⟩
    · rw [List.mem_map]
      constructor
      · rintro ⟨e, he, rfl⟩
        obtain ⟨heffective, hkept⟩ := mem_orderedParams.mp he
        exact ⟨e, hkept, declarationAt_of_effective heffective, rfl⟩
      · rintro ⟨e, hkept, hdecl, rfl⟩
        exact ⟨e, mem_orderedParams.mpr ⟨(effective_iff_declarationAt hagree hkept).mpr hdecl, hkept⟩, rfl⟩
    · rw [List.map_map]
      refine List.Nodup.map_on (fun p hp q hq heq => ?_) (orderedParams_nodup params op_params)
      have hname : p.name = q.name := by
        rw [← hwire p hp, ← hwire q hq]
        exact (Prod.mk.inj heq).1
      have hp' := (mem_orderedParams.mp hp).1
      have hq' := (mem_orderedParams.mp hq).1
      rw [← hname, hp'] at hq'
      exact Option.some.inj hq'
    · exact List.pairwise_map.mpr (orderedParams_pairwise ho _ op_params)

end

/-- The operations of a document with one path item, when it can be read. -/
theorem forall₂_mergedAsDeclared {ir : InvalidRead} {ho : HashOrders} {spec : JsonObject} {ctx : EndpointContext}
    {path : Str} {item : Json} {params : List ClientParam} {ops : List ColOp}
    (hctx : readContext ir spec = .ok ctx)
    (hpaths : mapField ir spec "paths".toList = .ok [(path, item)])
    (hitem : readPathItem ir ctx.fetched_params (path, item) = .ok (params, ops)) :
    ∃ endpoints, parseEndpoints ir ho spec = .ok endpoints ∧
      (List.Forall₂ (fun co ep => MergedAsDeclared params co.op_params ep.params) (ops.filter isEndpoint) endpoints ↔
        ∀ co ∈ ops.filter isEndpoint, LocationsAgree params co.op_params) := by
  have hreads : [(path, item)].mapM (readPathItem ir ctx.fetched_params) = .ok [(params, ops)] :=
    mapM_eq_ok.mpr (.cons hitem .nil)
  refine ⟨(ops.filter isEndpoint).map (endpointOf ho ctx (pathParamsMap params)), ?_, ?_⟩
  · rw [parseEndpoints_eq, hctx, hpaths]
    simp only [bind, Except.bind, hreads]
    simp [pure, Except.pure]
  · rw [List.forall₂_map_right_iff, List.forall₂_same]
    refine forall₂_congr fun co hco => ?_
    have hfetched := namedRule.readContext hctx
    obtain ⟨⟨items, hitems⟩, hops⟩ := readPathItem_cases hitem
    obtain ⟨-, items', hitems'⟩ := hops co (List.mem_of_mem_filter hco)
    exact mergedAsDeclared_iff (namedRule.resolveParameters hfetched hitems)
      (namedRule.resolveParameters hfetched hitems')

/-- The run reads the path item, and each of its operations has the parameters that it and the path item
declare. -/
def RunMerges (ho : HashOrders) (spec : JsonObject) (path : Str) (item : Json) : Prop :=
  ∃ ctx params ops endpoints, readContext .crash spec = .ok ctx ∧
    readPathItem .crash ctx.fetched_params (path, item) = .ok (params, ops) ∧
    parseEndpoints .crash ho spec = .ok endpoints ∧
    List.Forall₂ (fun co ep => MergedAsDeclared params co.op_params ep.params) (ops.filter isEndpoint) endpoints

/-- **When parameters are merged as declared.**  In a document with one path item, the run comes to its end and
gives every operation the parameters that it and the path item declare, each once and in the order of their
locations, exactly when the path item can be read without parameters of its own, and in no operation a name is
declared at a kept location and stands for a declaration at another one. -/
theorem params_merged_iff (ho : HashOrders) {spec : JsonObject} {path : Str} {item : Json}
    (hpaths : mapField .crash spec "paths".toList = .ok [(path, item)]) :
    RunMerges ho spec path item ↔
      ∃ ctx ops, readContext .crash spec = .ok ctx ∧
        readPathItem .crash ctx.fetched_params (path, item) = .ok ([], ops) ∧
        ∀ co ∈ ops.filter isEndpoint, LocationsAgree [] co.op_params := by
  constructor
  · rintro ⟨ctx, params, ops, endpoints, hctx, hitem, hrun, hmerged⟩
    obtain rfl : params = [] := params_eq_nil_of_read hitem
    obtain ⟨endpoints', hrun', hiff⟩ := @forall₂_mergedAsDeclared _ ho _ _ _ _ _ _ hctx hpaths hitem
    obtain rfl := Except.ok.inj (hrun.symm.trans hrun')
    exact ⟨ctx, ops, hctx, hitem, hiff.mp hmerged⟩
  · rintro ⟨ctx, ops, hctx, hitem, hagree⟩
    obtain ⟨endpoints, hrun, hiff⟩ := @forall₂_mergedAsDeclared _ ho _ _ _ _ _ _ hctx hpaths hitem
    exact ⟨ctx, [], ops, endpoints, hctx, hitem, hrun, hiff.mpr hagree⟩

/-! ### A name at two locations -/

/-- One operation of `/items/{id}`, with its parameters. -/
def itemsSpec (params : List Json) : JsonObject :=
  pathsSpec [("/items/{id}".toList, .obj [("get".toList, .obj [("parameters".toList, .arr params)])])]

/-- What is read of the parameter `id`. -/
def idParam (location : Str) : ClientParam :=
  { name := "id".toList, wire_name := "id".toList, cpp_type := "std::string".toList, required := true
    location, schema_type := "string".toList, is_string_type := true }

theorem params_merged_iff_items :
    RunMerges (HashOrder.newestFirst _) (itemsSpec [declaredParam "id".toList "path".toList])
      "/items/{id}".toList (.obj [("get".toList, .obj [("parameters".toList,
        .arr [declaredParam "id".toList "path".toList])])]) := by
  refine (params_merged_iff (HashOrder.newestFirst _) rfl).mpr ⟨_, _, rfl, rfl, fun co hco => ?_⟩
  obtain rfl := List.mem_singleton.mp hco
  intro q hq _ e he
  obtain rfl := List.mem_singleton.mp hq
  obtain rfl := Option.some.inj he
  rfl

/-- The declaration in the query is kept, and the one in the path is gone. -/
theorem declaration_lost :
    mapField .crash (itemsSpec [declaredParam "id".toList "path".toList, declaredParam "id".toList "query".toList])
        "paths".toList = .ok [("/items/{id}".toList, .obj [("get".toList, .obj [("parameters".toList,
          .arr [declaredParam "id".toList "path".toList, declaredParam "id".toList "query".toList])])])] ∧
      ¬ RunMerges (HashOrder.newestFirst _)
        (itemsSpec [declaredParam "id".toList "path".toList, declaredParam "id".toList "query".toList])
        "/items/{id}".toList (.obj [("get".toList, .obj [("parameters".toList,
          .arr [declaredParam "id".toList "path".toList, declaredParam "id".toList "query".toList])])]) := by
  refine ⟨rfl, ?_⟩
  rintro ⟨ctx, params, ops, endpoints, hctx, hitem, hrun, hmerged⟩
  obtain rfl := Except.ok.inj hctx
  obtain ⟨rfl, rfl⟩ := Prod.mk.inj (Except.ok.inj hitem)
  obtain rfl := Except.ok.inj hrun
  have h := (List.forall₂_cons.mp hmerged).1
  have hkept := (h.mem (sanitizedParam (idParam "path".toList))).mpr
    ⟨idParam "path".toList, by decide, rfl, rfl⟩
  have hlocation := congrArg ClientParam.location (List.mem_singleton.mp hkept)
  exact absurd hlocation (by decide)

end Siesta
