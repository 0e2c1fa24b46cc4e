import Siesta.IR.EndpointParser
import Siesta.Lib.ListM

/-!
# The path items of a document

`parseEndpoints` reads the path items one by one (`parseEndpoints_eq`) but collects their parameters
in one table that it never clears.  A name's entry in that table is its last declaration in the whole
document, and every operation that does not declare the name itself gets it
(`mem_orderedParams`).  So the endpoints of a path depend on the other paths
(`parseEndpoints_isolated_iff`).
-/

namespace Siesta

open Lib JsonObject

/-! ### The last parameter of a name -/

def lastNamed (params : List ClientParam) (name : Str) : Option ClientParam :=
  params.reverse.find? (·.name = name)

theorem lastNamed_concat (params : List ClientParam) (cp : ClientParam) (name : Str) :
    lastNamed (params ++ [cp]) name = if cp.name = name then some cp else lastNamed params name := by
  unfold lastNamed
  rw [List.reverse_concat, List.find?_cons]
  by_cases h : cp.name = name <;> simp [h]

theorem name_of_lastNamed {params : List ClientParam} {name : Str} {cp : ClientParam}
    (h : lastNamed params name = some cp) : cp.name = name := by
  simpa using List.find?_some h

theorem mem_of_lastNamed {params : List ClientParam} {name : Str} {cp : ClientParam}
    (h : lastNamed params name = some cp) : cp ∈ params := by
  simpa using List.mem_of_find?_eq_some h

theorem lastNamed_eq_none {params : List ClientParam} {name : Str} :
    lastNamed params name = none ↔ name ∉ params.map (·.name) := by
  simp [lastNamed]

/-- The table `path_params_map` after the parameters of all path items. -/
def pathParamsMap (params : List ClientParam) : Table Str ClientParam :=
  params.foldl (fun path_params_map cp => path_params_map.set cp.name cp) ∅

theorem find_foldl_set (params : List ClientParam) (m : Table Str ClientParam) (name : Str) :
    (params.foldl (fun m cp => m.set cp.name cp) m).find name =
      (lastNamed params name).or (m.find name) := by
  induction params using List.reverseRecOn with
  | nil => rfl
  | append_singleton params cp ih =>
    rw [List.foldl_append, lastNamed_concat]
    show Table.find (Table.set _ _ _) _ = _
    rw [Table.find_set, ih]
    by_cases h : name = cp.name
    · simp [h]
    · simp [h, Ne.symm h]

theorem find_pathParamsMap (params : List ClientParam) (name : Str) :
    (pathParamsMap params).find name = lastNamed params name := by
  rw [pathParamsMap, find_foldl_set, Table.find_empty, Option.or_none]

/-! ### The parameters of an operation -/

section

variable {ho : HashOrders} {path_params_map : Table Str ClientParam}

/-- What the loop over the parameters of an operation has done. -/
structure Merged (path_params_map : Table Str ClientParam) (op_params : List ClientParam)
    (acc : Table Str ClientParam × List Str) : Prop where
  overrides : ∀ name, acc.1.find name = lastNamed op_params name
  mem_order : ∀ name, name ∈ acc.2 ↔ name ∈ path_params_map ∨ name ∈ op_params.map (·.name)
  nodup : acc.2.Nodup

variable (ho path_params_map) in
theorem mergeParams_merged (op_params : List ClientParam) :
    Merged path_params_map op_params (mergeParams ho path_params_map op_params) := by
  induction op_params using List.reverseRecOn with
  | nil =>
    have hkeys : ((ho.iter .pathParams path_params_map.entries).map Sigma.fst).Nodup :=
      ((ho.perm .pathParams path_params_map.entries).map Sigma.fst).nodup_iff.mpr
        path_params_map.keys_nodup
    refine ⟨fun name => Table.find_empty name, fun name => ?_, hkeys⟩
    have hmem := ((ho.perm .pathParams path_params_map.entries).map Sigma.fst).mem_iff (a := name)
    show name ∈ (ho.iter .pathParams path_params_map.entries).map Sigma.fst ↔ _
    rw [hmem]
    exact ⟨fun h => .inl (AList.mem_keys.mpr h), fun h => h.elim AList.mem_keys.mp (by simp)⟩
  | append_singleton op_params cp ih =>
    obtain ⟨hover, horder, hnodup⟩ := ih
    have hmap : cp.name ∈ (mergeParams ho path_params_map op_params).1 ↔
        cp.name ∈ op_params.map (·.name) := by
      rw [← not_iff_not, ← lastNamed_eq_none, ← hover, Table.find_eq_none]
    have hnew : (cp.name ∉ path_params_map ∧ cp.name ∉ (mergeParams ho path_params_map op_params).1) ↔
        cp.name ∉ (mergeParams ho path_params_map op_params).2 := by
      rw [horder, hmap, not_or]
    have hstep : mergeParams ho path_params_map (op_params ++ [cp]) =
        ((mergeParams ho path_params_map op_params).1.set cp.name cp,
          if cp.name ∉ (mergeParams ho path_params_map op_params).2 then
            (mergeParams ho path_params_map op_params).2 ++ [cp.name]
          else (mergeParams ho path_params_map op_params).2) := by
      rw [mergeParams, List.foldl_append, ← mergeParams]
      simp only [List.foldl_cons, List.foldl_nil, hnew]
    rw [hstep]
    refine ⟨fun name => ?_, fun name => ?_, ?_⟩
    · rw [Table.find_set, hover, lastNamed_concat]
      by_cases h : name = cp.name
      · simp [h]
      · simp [h, Ne.symm h]
    · dsimp only
      rw [List.map_append, List.mem_append, ← or_assoc, ← horder]
      split
      · simp
      · rename_i hin
        have hin' := not_not.mp hin
        simp only [List.map_cons, List.map_nil, List.mem_singleton]
        exact ⟨.inl, fun h => h.elim id fun he => he ▸ hin'⟩
    · dsimp only
      split
      · rename_i hout
        exact List.nodup_append.mpr ⟨hnodup, by simp, fun a ha b hb => by
          rw [List.mem_singleton.mp hb]
          rintro rfl
          exact hout ha⟩
      · exact hnodup

/-- The parameter a name stands for in an operation: its own, or the one of the path items. -/
def effectiveParam (params op_params : List ClientParam) (name : Str) : Option ClientParam :=
  (lastNamed op_params name).or (lastNamed params name)

theorem name_of_effectiveParam {params op_params : List ClientParam} {name : Str} {cp : ClientParam}
    (h : effectiveParam params op_params name = some cp) : cp.name = name := by
  rcases Option.or_eq_some_iff.mp h with h | ⟨-, h⟩
  · exact name_of_lastNamed h
  · exact name_of_lastNamed h

theorem lookupParam_eq (params op_params : List ClientParam) (name : Str) :
    lookupParam (pathParamsMap params) (mergeParams ho (pathParamsMap params) op_params).1 name =
      effectiveParam params op_params name := by
  rw [lookupParam, (mergeParams_merged ho _ op_params).overrides, find_pathParamsMap, effectiveParam]

/-- **The parameters of an operation.**  Every name stands for one parameter, kept when its location is
one of the three. -/
theorem mem_orderedParams {params op_params : List ClientParam} {cp : ClientParam} :
    cp ∈ orderedParams ho (pathParamsMap params) op_params ↔
      effectiveParam params op_params cp.name = some cp ∧ cp.location ∈ paramLocations := by
  have hmerged := mergeParams_merged ho (pathParamsMap params) op_params
  simp only [orderedParams, List.mem_flatMap, List.mem_filterMap, lookupParam_eq,
    Option.filter_eq_some_iff, decide_eq_true_eq]
  constructor
  · rintro ⟨location, hloc, name, -, hcp, rfl⟩
    exact ⟨name_of_effectiveParam hcp ▸ hcp, hloc⟩
  · rintro ⟨hcp, hloc⟩
    refine ⟨cp.location, hloc, cp.name, ?_, hcp, rfl⟩
    rw [hmerged.mem_order]
    rcases Option.or_eq_some_iff.mp hcp with h | ⟨-, h⟩
    · exact .inr (List.mem_map_of_mem (mem_of_lastNamed h))
    · exact .inl (Table.mem_of_find (find_pathParamsMap params cp.name ▸ h))

theorem orderedParams_nodup (params op_params : List ClientParam) :
    (orderedParams ho (pathParamsMap params) op_params).Nodup := by
  have hmerged := mergeParams_merged ho (pathParamsMap params) op_params
  have hlocations : paramLocations.Nodup := by decide
  simp only [orderedParams, lookupParam_eq]
  rw [List.nodup_flatMap]
  constructor
  · intro location _
    refine hmerged.nodup.filterMap fun name name' cp h h' => ?_
    have hname := (Option.filter_eq_some_iff.mp h).1
    have hname' := (Option.filter_eq_some_iff.mp h').1
    rw [← name_of_effectiveParam hname, ← name_of_effectiveParam hname']
  · refine hlocations.imp fun {location location'} hne cp h h' => ?_
    obtain ⟨name, -, h⟩ := List.mem_filterMap.mp h
    obtain ⟨name', -, h'⟩ := List.mem_filterMap.mp h'
    have hloc := (Option.filter_eq_some_iff.mp h).2
    have hloc' := (Option.filter_eq_some_iff.mp h').2
    simp only [decide_eq_true_eq] at hloc hloc'
    exact hne (hloc.symm.trans hloc')

end

/-! ### Reading the path items one by one -/

section

variable {ir : InvalidRead} {fetched_params : Table Str ClientParam}

theorem foldl_collect (reads : List (List ClientParam × List ColOp))
    (acc : Table Str ClientParam × List ColOp) :
    reads.foldl (fun acc r => (r.1.foldl (fun path_params_map cp => path_params_map.set cp.name cp) acc.1,
        acc.2 ++ r.2)) acc =
      ((reads.flatMap Prod.fst).foldl (fun path_params_map cp => path_params_map.set cp.name cp) acc.1,
        acc.2 ++ reads.flatMap Prod.snd) := by
  induction reads generalizing acc with
  | nil => simp
  | cons r reads ih => simp [ih]

/-- **The endpoints of a document**: every path item is read by itself, and an endpoint is made from an
operation and the parameters of all path items. -/
theorem parseEndpoints_eq (ho : HashOrders) (spec : JsonObject) :
    parseEndpoints ir ho spec = (do
      let ctx ← readContext ir spec
      let paths ← mapField ir spec "paths".toList
      let reads ← paths.mapM (readPathItem ir ctx.fetched_params)
      return ((reads.flatMap Prod.snd).filter isEndpoint).map
        (endpointOf ho ctx (pathParamsMap (reads.flatMap Prod.fst)))) := by
  unfold parseEndpoints
  refine bind_congr fun ctx => bind_congr fun paths => ?_
  have hloop : paths.foldlM (collectPath ir ctx.fetched_params) (∅, []) =
      (do let reads ← paths.mapM (readPathItem ir ctx.fetched_params)
          return (pathParamsMap (reads.flatMap Prod.fst), reads.flatMap Prod.snd)) := by
    rw [show collectPath ir ctx.fetched_params = fun acc entry => (do
        let r ← readPathItem ir ctx.fetched_params entry
        return (r.1.foldl (fun path_params_map cp => path_params_map.set cp.name cp) acc.1,
          acc.2 ++ r.2)) from rfl,
      foldlM_eq_mapM]
    refine bind_congr fun reads => ?_
    rw [foldl_collect, List.nil_append, pathParamsMap]
  rw [hloop]
  cases paths.mapM (readPathItem ir ctx.fetched_params) <;> rfl

theorem readBody_path {req_body : JsonObject} {co co' : ColOp} (h : readBody ir req_body co = .ok co') :
    co'.path = co.path ∧ co'.op_params = co.op_params := by
  unfold readBody at h
  split at h
  · obtain rfl := pure_eq_ok.mp h
    exact ⟨rfl, rfl⟩
  · obtain ⟨ref, -, h⟩ := bind_eq_ok.mp h
    split at h
    · obtain rfl := pure_eq_ok.mp h
      exact ⟨rfl, rfl⟩
    · obtain ⟨content, -, h⟩ := bind_eq_ok.mp h
      split at h
      · obtain rfl := pure_eq_ok.mp h
        exact ⟨rfl, rfl⟩
      · obtain ⟨schema, -, h⟩ := bind_eq_ok.mp h
        dsimp only at h
        split at h
        all_goals
          obtain ⟨bodyType, -, h⟩ := bind_eq_ok.mp h
          obtain rfl := pure_eq_ok.mp h
          exact ⟨rfl, rfl⟩

/-- What is known of a recorded operation: its path, and where its parameters come from. -/
theorem readOperation_cases {path method : Str} {op_obj : JsonObject} {co : ColOp}
    (h : readOperation ir fetched_params path method op_obj = .ok co) :
    co.path = path ∧ ∃ items, resolveParameters ir fetched_params items = .ok co.op_params := by
  obtain ⟨summary, -, h⟩ := bind_eq_ok.mp h
  obtain ⟨description, -, h⟩ := bind_eq_ok.mp h
  obtain ⟨items, -, h⟩ := bind_eq_ok.mp h
  obtain ⟨op_params, hparams, h⟩ := bind_eq_ok.mp h
  obtain ⟨req_body, -, h⟩ := bind_eq_ok.mp h
  obtain ⟨co', hbody, h⟩ := bind_eq_ok.mp h
  obtain ⟨hasOpSecurity, -, h⟩ := bind_eq_ok.mp h
  obtain rfl := pure_eq_ok.mp h
  obtain ⟨hpath, hop⟩ := readBody_path hbody
  exact ⟨hpath, items, hop ▸ hparams⟩

theorem readPathItem_cases {entry : Str × Json} {r : List ClientParam × List ColOp}
    (h : readPathItem ir fetched_params entry = .ok r) :
    (∃ items, resolveParameters ir fetched_params items = .ok r.1) ∧
      ∀ co ∈ r.2, co.path = entry.1 ∧
        ∃ items, resolveParameters ir fetched_params items = .ok co.op_params := by
  obtain ⟨items, -, h⟩ := bind_eq_ok.mp h
  obtain ⟨path_params, hparams, h⟩ := bind_eq_ok.mp h
  obtain ⟨ops, hops, h⟩ := bind_eq_ok.mp h
  obtain rfl := pure_eq_ok.mp h
  refine ⟨⟨items, hparams⟩, fun co hco => ?_⟩
  obtain ⟨op, -, hop⟩ := forall₂_exists_left (mapM_eq_ok.mp hops) co hco
  exact readOperation_cases hop

/-! ### The parameters that are read -/

variable {P : ClientParam → Prop}

variable (ir P) in
/-- A property that parameters have as they are read, from the components or in place. -/
structure ParamRule : Prop where
  fetched : ∀ {p_obj cp}, fetchParameter ir p_obj = .ok cp → P cp
  read : ∀ {raw_param cp location required}, readParameter ir raw_param = .ok cp →
    P { cp with location, required }

theorem ParamRule.resolveParameters (hP : ParamRule ir P)
    (hfetched : ∀ k cp, fetched_params.find k = some cp → P cp) {items : List Json}
    {params : List ClientParam} (h : resolveParameters ir fetched_params items = .ok params) :
    ∀ cp ∈ params, P cp := by
  intro cp hcp
  obtain ⟨item, -, hitem⟩ := forall₂_exists_left (mapM_eq_ok.mp h) cp hcp
  obtain ⟨raw_param, -, h⟩ := bind_eq_ok.mp hitem
  obtain ⟨ref, -, h⟩ := bind_eq_ok.mp h
  split at h
  · rename_i found hfound
    obtain rfl := pure_eq_ok.mp h
    split at hfound
    · cases hfound
    · exact hfetched _ _ hfound
  · obtain ⟨cp', hcp', h⟩ := bind_eq_ok.mp h
    obtain ⟨location, -, h⟩ := bind_eq_ok.mp h
    obtain ⟨required, -, h⟩ := bind_eq_ok.mp h
    obtain rfl := pure_eq_ok.mp h
    exact hP.read hcp'

theorem ParamRule.readContext (hP : ParamRule ir P) {spec : JsonObject} {ctx : EndpointContext}
    (h : readContext ir spec = .ok ctx) : ∀ k cp, ctx.fetched_params.find k = some cp → P cp := by
  obtain ⟨components, -, h⟩ := bind_eq_ok.mp h
  obtain ⟨comp_params_raw, -, h⟩ := bind_eq_ok.mp h
  obtain ⟨fetched, hfetched, h⟩ := bind_eq_ok.mp h
  obtain ⟨comp_bodies_raw, -, h⟩ := bind_eq_ok.mp h
  obtain ⟨names, -, h⟩ := bind_eq_ok.mp h
  obtain ⟨schemes, -, h⟩ := bind_eq_ok.mp h
  obtain ⟨infos, -, h⟩ := bind_eq_ok.mp h
  obtain ⟨global, -, h⟩ := bind_eq_ok.mp h
  obtain rfl := pure_eq_ok.mp h
  refine foldlM_ok_rule (J := fun t : Table Str ClientParam => ∀ k cp, t.find k = some cp → P cp)
    ?_ (by simp) hfetched
  intro p t t' ht hstep k cp hk
  obtain ⟨read, hread, hstep⟩ := bind_eq_ok.mp hstep
  obtain rfl := pure_eq_ok.mp hstep
  rw [Table.find_set] at hk
  split at hk
  · obtain rfl := Option.some.inj hk
    exact hP.fetched hread
  · exact ht k cp hk

theorem fetchParameter_cases {p_obj : JsonObject} {cp : ClientParam}
    (h : fetchParameter ir p_obj = .ok cp) :
    ∃ name location required description schema_type format cpp_type, cp =
      { name, wire_name := name, location, required, description, schema_type, format, cpp_type } := by
  obtain ⟨name, -, h⟩ := bind_eq_ok.mp h
  obtain ⟨location, -, h⟩ := bind_eq_ok.mp h
  obtain ⟨required, -, h⟩ := bind_eq_ok.mp h
  obtain ⟨description, -, h⟩ := bind_eq_ok.mp h
  obtain ⟨schema, -, h⟩ := bind_eq_ok.mp h
  obtain ⟨schema_type, -, h⟩ := bind_eq_ok.mp h
  obtain ⟨format, -, h⟩ := bind_eq_ok.mp h
  obtain ⟨cpp_type, -, h⟩ := bind_eq_ok.mp h
  exact ⟨_, _, _, _, _, _, _, (pure_eq_ok.mp h).symm⟩

/-- What `readParameter` returns: the fields read before an exception, or all of them. -/
theorem readParameter_cases {raw_param : JsonObject} {cp : ClientParam}
    (h : readParameter ir raw_param = .ok cp) :
    ∃ name description, cp = { name, wire_name := name, description } ∨
      ∃ schema_type format cpp_type, cp =
        { name, wire_name := name, description, schema_type, format, cpp_type
          is_string_type := decide ("string".toList <:+: cpp_type)
          is_vector_type := decide ("vector".toList <:+: cpp_type)
          is_vector_string_type := decide ("vector".toList <:+: cpp_type) &&
            decide ("string".toList <:+: cpp_type) } := by
  obtain ⟨name, -, h⟩ := bind_eq_ok.mp h
  obtain ⟨description, -, h⟩ := bind_eq_ok.mp h
  obtain ⟨schema, -, h⟩ := bind_eq_ok.mp h
  refine ⟨name, description, ?_⟩
  rcases tryCatch_eq_ok.mp h with h | ⟨fault, -, h⟩
  · obtain ⟨schema_type, -, h⟩ := bind_eq_ok.mp h
    obtain ⟨format, -, h⟩ := bind_eq_ok.mp h
    obtain ⟨cpp_type, -, h⟩ := bind_eq_ok.mp h
    exact .inr ⟨schema_type, format, cpp_type, (pure_eq_ok.mp h).symm⟩
  · cases fault with
    | exception => exact .inl (pure_eq_ok.mp h).symm
    | _ => cases h

theorem namedRule : ParamRule ir fun cp => cp.wire_name = cp.name where
  fetched h := by
    obtain ⟨_, _, _, _, _, _, _, rfl⟩ := fetchParameter_cases h
    rfl
  read h := by
    obtain ⟨_, _, rfl | ⟨_, _, _, rfl⟩⟩ := readParameter_cases h
    · rfl
    · rfl

/-- Parameters whose names have not been rewritten. -/
def WireNamed (params : List ClientParam) : Prop := ∀ cp ∈ params, cp.wire_name = cp.name

end

/-! ### The endpoint of an operation, and the parameters it gets from the path items -/

/-- Two endpoints that differ at most in the order of their parameters, which is that of a hash table. -/
def SameEndpoint (e e' : Endpoint) : Prop :=
  { e with params := [] } = { e' with params := [] } ∧ e.params.Perm e'.params

/-- What the path items leave to every operation for a name: its last declaration, if it is kept. -/
def leftOver (params : List ClientParam) (name : Str) : Option ClientParam :=
  (lastNamed params name).filter (·.location ∈ paramLocations)

/-- The parameters of all path items are the same for an operation. -/
def SameLeftOvers (params params' op_params : List ClientParam) : Prop :=
  ∀ name ∉ op_params.map (·.name), leftOver params name = leftOver params' name

/-- The parameters of an endpoint: their names are rewritten. -/
def sanitizedParam (p : ClientParam) : ClientParam := { p with name := sanitizeParamName p.name }

theorem sanitizeParamName_braceFree (name : Str) :
    '{' ∉ sanitizeParamName name ∧ '}' ∉ sanitizeParamName name := by
  have hno : ∀ b ∈ ['{', '}'], b ∉ sanitizeParamName name := by
    intro b hb h
    obtain ⟨c, -, hc⟩ := List.mem_map.mp h
    have hb' : b ∈ ['[', ']', '(', ')', '{', '}', '.', ','] ∧ b ≠ '_' := by
      rcases List.mem_cons.mp hb with rfl | hb
      · decide
      · rw [List.mem_singleton.mp hb]
        decide
    split at hc
    · exact hb'.2 hc.symm
    · rename_i hout
      exact hout (hc ▸ hb'.1)
  exact ⟨hno _ (by simp), hno _ (by simp)⟩

theorem buildTemplate_perm (path : Str) {params params' : List ClientParam} (h : params.Perm params')
    (hnames : ∀ p ∈ params, '{' ∉ p.name ∧ '}' ∉ p.name) :
    buildTemplate path params = buildTemplate path params' := by
  have hnames' : ∀ n ∈ (params.filter (·.location = "path".toList)).map (·.name), '{' ∉ n ∧ '}' ∉ n := by
    intro n hn
    obtain ⟨p, hp, rfl⟩ := List.mem_map.mp hn
    exact hnames p (List.mem_of_mem_filter hp)
  have hperm := (h.filter (·.location = "path".toList)).map (·.name)
  have key := foldl_emptySlots_perm hperm hnames' path
  rwa [List.foldl_map, List.foldl_map] at key

section

variable {ho : HashOrders} {params params' op_params : List ClientParam}

theorem mem_orderedParams_of_notMem {cp : ClientParam} (h : cp.name ∉ op_params.map (·.name)) :
    cp ∈ orderedParams ho (pathParamsMap params) op_params ↔ leftOver params cp.name = some cp := by
  rw [mem_orderedParams, effectiveParam, lastNamed_eq_none.mpr h, Option.none_or, leftOver,
    Option.filter_eq_some_iff]
  simp

variable (ho) in
theorem orderedParams_perm_iff :
    (orderedParams ho (pathParamsMap params) op_params).Perm
        (orderedParams ho (pathParamsMap params') op_params) ↔
      SameLeftOvers params params' op_params := by
  constructor
  · intro h name hname
    have hmem : ∀ cp, leftOver params name = some cp ↔ leftOver params' name = some cp := by
      have hnamed : ∀ {ps : List ClientParam} {cp : ClientParam}, leftOver ps name = some cp → cp.name = name :=
        fun h => name_of_lastNamed (Option.filter_eq_some_iff.mp h).1
      intro cp
      constructor
      · intro hcp
        obtain rfl := hnamed hcp
        exact (mem_orderedParams_of_notMem hname).mp
          (h.mem_iff.mp ((mem_orderedParams_of_notMem hname).mpr hcp))
      · intro hcp
        obtain rfl := hnamed hcp
        exact (mem_orderedParams_of_notMem hname).mp
          (h.mem_iff.mpr ((mem_orderedParams_of_notMem hname).mpr hcp))
    exact Option.ext hmem
  · intro h
    rw [List.perm_ext_iff_of_nodup (orderedParams_nodup ..) (orderedParams_nodup ..)]
    intro cp
    by_cases hown : cp.name ∈ op_params.map (·.name)
    · -- the operation's own parameter comes first in both
      obtain ⟨own, hlast⟩ := Option.ne_none_iff_exists'.mp (mt lastNamed_eq_none.mp (not_not.mpr hown))
      simp only [mem_orderedParams, effectiveParam, hlast, Option.some_or]
    · rw [mem_orderedParams_of_notMem hown, mem_orderedParams_of_notMem hown, h _ hown]

theorem wireNamed_orderedParams (hparams : WireNamed params) (hop : WireNamed op_params) :
    WireNamed (orderedParams ho (pathParamsMap params) op_params) := by
  intro cp hcp
  rcases Option.or_eq_some_iff.mp (mem_orderedParams.mp hcp).1 with h | ⟨-, h⟩
  · exact hop cp (mem_of_lastNamed h)
  · exact hparams cp (mem_of_lastNamed h)

theorem sanitizedParam_inj {p q : ClientParam} (hp : p.wire_name = p.name) (hq : q.wire_name = q.name)
    (h : sanitizedParam p = sanitizedParam q) : p = q := by
  have hwire : (sanitizedParam p).wire_name = (sanitizedParam q).wire_name := congrArg _ h
  have hname : p.name = q.name := by
    rw [← hp, ← hq]
    exact hwire
  calc p = { sanitizedParam p with name := p.name } := rfl
    _ = { sanitizedParam q with name := q.name } := by rw [h, hname]
    _ = q := rfl

theorem map_sanitizedParam_perm_iff {ps qs : List ClientParam} (hps : WireNamed ps) (hqs : WireNamed qs)
    (hpn : ps.Nodup) (hqn : qs.Nodup) :
    (ps.map sanitizedParam).Perm (qs.map sanitizedParam) ↔ ps.Perm qs := by
  constructor
  · intro h
    rw [List.perm_ext_iff_of_nodup hpn hqn]
    intro cp
    have hmem := h.mem_iff (a := sanitizedParam cp)
    constructor
    · intro hcp
      obtain ⟨q, hq, heq⟩ := List.mem_map.mp (hmem.mp (List.mem_map_of_mem hcp))
      exact sanitizedParam_inj (hqs q hq) (hps cp hcp) heq ▸ hq
    · intro hcp
      obtain ⟨p, hp, heq⟩ := List.mem_map.mp (hmem.mpr (List.mem_map_of_mem hcp))
      exact sanitizedParam_inj (hps p hp) (hqs cp hcp) heq ▸ hp
  · exact fun h => h.map sanitizedParam

/-- An operation gives the same endpoint in two documents when the path items leave it the same. -/
theorem sameEndpoint_iff {ctx : EndpointContext} {co : ColOp} (hparams : WireNamed params)
    (hparams' : WireNamed params') (hop : WireNamed co.op_params) :
    SameEndpoint (endpointOf ho ctx (pathParamsMap params) co)
        (endpointOf ho ctx (pathParamsMap params') co) ↔
      SameLeftOvers params params' co.op_params := by
  have hperm : (endpointOf ho ctx (pathParamsMap params) co).params.Perm
      (endpointOf ho ctx (pathParamsMap params') co).params ↔ SameLeftOvers params params' co.op_params := by
    refine Iff.trans ?_ (orderedParams_perm_iff ho)
    exact map_sanitizedParam_perm_iff (wireNamed_orderedParams hparams hop)
      (wireNamed_orderedParams hparams' hop) (orderedParams_nodup ..) (orderedParams_nodup ..)
  rw [← hperm]
  refine ⟨And.right, fun h => ⟨?_, h⟩⟩
  have htemplate := buildTemplate_perm co.path h fun p hp => by
    obtain ⟨q, -, rfl⟩ := List.mem_map.mp hp
    exact sanitizeParamName_braceFree q.name
  have hrest : ∀ ps, { endpointOf ho ctx (pathParamsMap ps) co with params := [] } =
      { endpointOf ho ctx (pathParamsMap []) co with
        params := []
        path_template := buildTemplate co.path (endpointOf ho ctx (pathParamsMap ps) co).params } :=
    fun ps => rfl
  rw [hrest params, hrest params', htemplate]

end

/-! ### Two documents with one path item in common -/

section

variable (ir : InvalidRead) (fetched_params : Table Str ClientParam)

def pathLevelParams (entry : Str × Json) : List ClientParam :=
  match readPathItem ir fetched_params entry with
  | .ok r => r.1
  | .error _ => []

def pathOperations (entry : Str × Json) : List ColOp :=
  match readPathItem ir fetched_params entry with
  | .ok r => r.2
  | .error _ => []

def Readable (paths : List (Str × Json)) : Prop :=
  ∀ entry ∈ paths, ∃ r, readPathItem ir fetched_params entry = .ok r

/-- Two lists of path items are the same to the path item `entry`. -/
structure PathsAgree (entry : Str × Json) (paths paths' : List (Str × Json)) : Prop where
  readable : Readable ir fetched_params paths ↔ Readable ir fetched_params paths'
  leftOvers : Readable ir fetched_params paths → Readable ir fetched_params paths' →
    ∀ co ∈ pathOperations ir fetched_params entry, isEndpoint co →
      SameLeftOvers (paths.flatMap (pathLevelParams ir fetched_params))
        (paths'.flatMap (pathLevelParams ir fetched_params)) co.op_params

/-- Two runs make the same endpoints for a path, or neither makes any. -/
def SameEndpoints (P : Str) (run run' : Except Fault (List Endpoint)) : Prop :=
  match run, run' with
  | .ok eps, .ok eps' =>
    List.Forall₂ SameEndpoint (eps.filter (·.path = P)) (eps'.filter (·.path = P))
  | .error _, .error _ => True
  | _, _ => False

end

section

variable {ir : InvalidRead} {fetched_params : Table Str ClientParam} {paths : List (Str × Json)}

theorem mapM_readPathItem_eq_ok {reads : List (List ClientParam × List ColOp)}
    (h : paths.mapM (readPathItem ir fetched_params) = .ok reads) :
    reads.flatMap Prod.fst = paths.flatMap (pathLevelParams ir fetched_params) ∧
      reads.flatMap Prod.snd = paths.flatMap (pathOperations ir fetched_params) := by
  induction mapM_eq_ok.mp h with
  | nil => exact ⟨rfl, rfl⟩
  | @cons entry r paths reads hread hreads ih =>
    obtain ⟨hparams, hops⟩ := ih (mapM_eq_ok.mpr hreads)
    simp only [List.flatMap_cons, hparams, hops, pathLevelParams, pathOperations, hread, and_self]

/-- A run that has come to the paths ends when every path item can be read. -/
theorem parseEndpoints_cases {ctx : EndpointContext} {spec : JsonObject} (ho : HashOrders)
    (hctx : readContext ir spec = .ok ctx) (hpaths : mapField ir spec "paths".toList = .ok paths) :
    (Readable ir ctx.fetched_params paths ∧ parseEndpoints ir ho spec =
      .ok (((paths.flatMap (pathOperations ir ctx.fetched_params)).filter isEndpoint).map
        (endpointOf ho ctx (pathParamsMap (paths.flatMap (pathLevelParams ir ctx.fetched_params)))))) ∨
    (¬ Readable ir ctx.fetched_params paths ∧ ∃ fault, parseEndpoints ir ho spec = .error fault) := by
  rw [parseEndpoints_eq, hctx, hpaths]
  cases hreads : paths.mapM (readPathItem ir ctx.fetched_params) with
  | ok reads =>
    obtain ⟨hparams, hops⟩ := mapM_readPathItem_eq_ok hreads
    refine .inl ⟨exists_mapM_eq_ok.mp ⟨reads, hreads⟩, ?_⟩
    rw [← hparams, ← hops]
    simp only [bind, Except.bind, hreads]
    rfl
  | error fault =>
    refine .inr ⟨fun h => ?_, fault, ?_⟩
    · obtain ⟨reads, hok⟩ := exists_mapM_eq_ok.mpr h
      rw [hok] at hreads
      cases hreads
    · simp only [bind, Except.bind, hreads]

theorem path_of_mem_pathOperations {entry : Str × Json} {co : ColOp}
    (h : co ∈ pathOperations ir fetched_params entry) : co.path = entry.1 := by
  unfold pathOperations at h
  split at h
  · rename_i r hr
    exact ((readPathItem_cases hr).2 co h).1
  · simp at h

theorem operations_of_path {P : Str} {item : Json} {before after : List (Str × Json)}
    (hP : P ∉ (before ++ after).map Prod.fst) :
    ((before ++ (P, item) :: after).flatMap (pathOperations ir fetched_params)).filter (·.path = P) =
      pathOperations ir fetched_params (P, item) := by
  have hother : ∀ part : List (Str × Json), P ∉ part.map Prod.fst →
      (part.flatMap (pathOperations ir fetched_params)).filter (·.path = P) = [] := by
    intro part hpart
    rw [List.filter_eq_nil_iff]
    intro co hco
    obtain ⟨entry, hentry, hco⟩ := List.mem_flatMap.mp hco
    have hne : entry.1 ≠ P := fun h => hpart (h ▸ List.mem_map_of_mem hentry)
    simpa [path_of_mem_pathOperations hco] using hne
  have hown : (pathOperations ir fetched_params (P, item)).filter (·.path = P) =
      pathOperations ir fetched_params (P, item) := by
    rw [List.filter_eq_self]
    intro co hco
    simpa using path_of_mem_pathOperations hco
  rw [List.map_append, List.mem_append, not_or] at hP
  rw [List.flatMap_append, List.flatMap_cons, List.filter_append, List.filter_append,
    hother before hP.1, hother after hP.2, hown, List.nil_append, List.append_nil]

/-- The endpoints of a path are made from the operations of its item. -/
theorem endpoints_of_path {f : ColOp → Endpoint} (hf : ∀ co, (f co).path = co.path) {P : Str} {item : Json}
    {before after : List (Str × Json)} (hP : P ∉ (before ++ after).map Prod.fst) :
    ((((before ++ (P, item) :: after).flatMap (pathOperations ir fetched_params)).filter isEndpoint).map
        f).filter (·.path = P) =
      ((pathOperations ir fetched_params (P, item)).filter isEndpoint).map f := by
  rw [List.filter_map, ← operations_of_path hP, List.filter_filter, List.filter_filter]
  congr 2
  funext co
  simp [hf, Bool.and_comm]

theorem wireNamed_pathLevelParams
    (hfetched : ∀ k cp, fetched_params.find k = some cp → cp.wire_name = cp.name) :
    WireNamed (paths.flatMap (pathLevelParams ir fetched_params)) := by
  intro cp hcp
  obtain ⟨entry, -, hcp⟩ := List.mem_flatMap.mp hcp
  unfold pathLevelParams at hcp
  split at hcp
  · rename_i r hr
    obtain ⟨⟨items, hitems⟩, -⟩ := readPathItem_cases hr
    exact namedRule.resolveParameters hfetched hitems cp hcp
  · simp at hcp

theorem wireNamed_pathOperations
    (hfetched : ∀ k cp, fetched_params.find k = some cp → cp.wire_name = cp.name)
    {entry : Str × Json} {co : ColOp} (h : co ∈ pathOperations ir fetched_params entry) :
    WireNamed co.op_params := by
  unfold pathOperations at h
  split at h
  · rename_i r hr
    obtain ⟨items, hitems⟩ := ((readPathItem_cases hr).2 co h).2
    exact namedRule.resolveParameters hfetched hitems
  · simp at h

theorem sameEndpoint_operation_iff {ho : HashOrders} {ctx : EndpointContext}
    (hfetched : ∀ k cp, fetched_params.find k = some cp → cp.wire_name = cp.name)
    {entry : Str × Json} {paths' : List (Str × Json)} {co : ColOp}
    (hco : co ∈ pathOperations ir fetched_params entry) :
    SameEndpoint
        (endpointOf ho ctx (pathParamsMap (paths.flatMap (pathLevelParams ir fetched_params))) co)
        (endpointOf ho ctx (pathParamsMap (paths'.flatMap (pathLevelParams ir fetched_params))) co) ↔
      SameLeftOvers (paths.flatMap (pathLevelParams ir fetched_params))
        (paths'.flatMap (pathLevelParams ir fetched_params)) co.op_params :=
  sameEndpoint_iff (wireNamed_pathLevelParams hfetched) (wireNamed_pathLevelParams hfetched)
    (wireNamed_pathOperations hfetched hco)

theorem readContext_congr {spec spec' : JsonObject}
    (hcomponents : atKey ir spec "components".toList = atKey ir spec' "components".toList)
    (hsecurity : hasKey ir spec "security".toList = hasKey ir spec' "security".toList) :
    readContext ir spec = readContext ir spec' := by
  unfold readContext
  rw [hsecurity, objectField, getObjectIfExist, hcomponents]
  rfl

end

/-! ### Path items with a list of parameters -/

/-- `operations()` ranges over every member of a path item, and `summary()` reads each of them: a path item
that declares parameters ends the program. -/
theorem params_eq_nil_of_read {fetched_params : Table Str ClientParam} {entry : Str × Json}
    {r : List ClientParam × List ColOp} (h : readPathItem .crash fetched_params entry = .ok r) : r.1 = [] := by
  obtain ⟨items, hitems, h⟩ := bind_eq_ok.mp h
  obtain ⟨params, hparams, h⟩ := bind_eq_ok.mp h
  obtain ⟨ops, hops, h⟩ := bind_eq_ok.mp h
  obtain rfl := pure_eq_ok.mp h
  obtain ⟨found, hfound, hitems⟩ := bind_eq_ok.mp hitems
  cases hobj : ofMember entry.2 with
  | none =>
    rw [hobj] at hfound
    cases hfound
  | some members =>
    rw [hobj] at hfound hops
    obtain rfl := Except.ok.inj hfound
    cases hfind : Record.find members "parameters".toList with
    | none =>
      rw [hfind] at hitems
      obtain rfl := pure_eq_ok.mp hitems
      obtain rfl := pure_eq_ok.mp hparams
      rfl
    | some v =>
      rw [hfind] at hitems
      cases v with
      | arr items =>
        -- the list is no object
        obtain ⟨co, -, hco⟩ := forall₂_exists_right (mapM_eq_ok.mp hops) _ (Record.mem_of_find hfind)
        cases hco
      | _ => cases hitems

/-- Where no path item leaves a parameter to others, only those that cannot be read matter. -/
theorem pathsAgree_crash_iff {fetched_params : Table Str ClientParam} {entry : Str × Json}
    {paths paths' : List (Str × Json)} :
    PathsAgree .crash fetched_params entry paths paths' ↔
      (Readable .crash fetched_params paths ↔ Readable .crash fetched_params paths') := by
  have hnone : ∀ paths : List (Str × Json), paths.flatMap (pathLevelParams .crash fetched_params) = [] := by
    intro paths
    refine List.flatMap_eq_nil_iff.mpr fun e _ => ?_
    unfold pathLevelParams
    split
    · rename_i r hr
      exact params_eq_nil_of_read hr
    · rfl
  refine ⟨fun h => h.readable, fun h => ⟨h, fun _ _ co _ _ => ?_⟩⟩
  rw [hnone, hnone]
  exact fun _ _ => rfl

/-- **When a path item is isolated from the others.**  Two documents with the same components and global
security make the same endpoints for a path item they share exactly when the other path items leave
no parameter to its operations that differs, and can be read in both or in neither. -/
theorem parseEndpoints_isolated_iff (ir : InvalidRead) (ho : HashOrders) {spec spec' : JsonObject} {P : Str}
    {item : Json} {before after before' after' : List (Str × Json)}
    (hcomponents : atKey ir spec "components".toList = atKey ir spec' "components".toList)
    (hsecurity : hasKey ir spec "security".toList = hasKey ir spec' "security".toList)
    (hpaths : mapField ir spec "paths".toList = .ok (before ++ (P, item) :: after))
    (hpaths' : mapField ir spec' "paths".toList = .ok (before' ++ (P, item) :: after'))
    (hP : P ∉ (before ++ after).map Prod.fst) (hP' : P ∉ (before' ++ after').map Prod.fst) :
    SameEndpoints P (parseEndpoints ir ho spec) (parseEndpoints ir ho spec') ↔
      ∀ ctx, readContext ir spec = .ok ctx →
        PathsAgree ir ctx.fetched_params (P, item) (before ++ (P, item) :: after)
          (before' ++ (P, item) :: after') := by
  have hcongr := readContext_congr hcomponents hsecurity
  cases hctx : readContext ir spec with
  | error fault =>
    have herror : ∀ {s : JsonObject}, readContext ir s = .error fault → parseEndpoints ir ho s = .error fault :=
      fun h => by rw [parseEndpoints_eq, h]; rfl
    rw [herror hctx, herror (hcongr ▸ hctx)]
    simp [SameEndpoints]
  | ok ctx =>
    have hfetched := namedRule.readContext hctx
    simp only [Except.ok.injEq, forall_eq']
    rcases parseEndpoints_cases ho hctx hpaths with ⟨hread, hrun⟩ | ⟨hread, fault, hrun⟩ <;>
      rcases parseEndpoints_cases ho (hcongr ▸ hctx) hpaths' with ⟨hread', hrun'⟩ | ⟨hread', fault', hrun'⟩ <;>
      rw [hrun, hrun']
    · -- both runs end: the endpoints are compared one by one
      show List.Forall₂ SameEndpoint _ _ ↔ _
      rw [endpoints_of_path (fun co => rfl) hP, endpoints_of_path (fun co => rfl) hP',
        List.forall₂_map_left_iff, List.forall₂_map_right_iff, List.forall₂_same]
      constructor
      · exact fun h => ⟨iff_of_true hread hread', fun _ _ co hco hep =>
          (sameEndpoint_operation_iff hfetched hco).mp (h co (List.mem_filter.mpr ⟨hco, hep⟩))⟩
      · intro h co hco
        obtain ⟨hco, hep⟩ := List.mem_filter.mp hco
        exact (sameEndpoint_operation_iff hfetched hco).mpr (h.leftOvers hread hread' co hco hep)
    · exact iff_of_false id fun h => hread' (h.readable.mp hread)
    · exact iff_of_false id fun h => hread (h.readable.mpr hread')
    · exact iff_of_true trivial ⟨iff_of_false hread hread', fun h => absurd h hread⟩

/-- A parameter of a path item, as it is written in the document. -/
def declaredParam (name location : Str) : Json :=
  .obj [("name".toList, .str name), ("in".toList, .str location), ("required".toList, .bool true),
    ("schema".toList, .obj [("type".toList, .str "string".toList)])]

/-- The path item of `/ping`: one operation, without parameters. -/
def pingItem : Str × Json := ("/ping".toList, .obj [("get".toList, .obj [])])

/-- The path item of `/pets/{id}`, with the parameters it declares for all its operations, if it does. -/
def petItem (params : Option (List Json)) : Str × Json :=
  ("/pets/{id}".toList, .obj ((params.map fun params => ("parameters".toList, .arr params)).toList ++
    [("get".toList, .obj [])]))

def pathsSpec (paths : List (Str × Json)) : JsonObject :=
  some [("components".toList, .obj []), ("paths".toList, .obj paths)]

theorem parseEndpoints_isolated_iff_pet :
    SameEndpoints pingItem.1
      (parseEndpoints .crash (HashOrder.newestFirst _) (pathsSpec [pingItem, petItem none]))
      (parseEndpoints .crash (HashOrder.newestFirst _) (pathsSpec [pingItem])) := by
  have hcomponents : atKey .crash (pathsSpec [pingItem, petItem none]) "components".toList =
      atKey .crash (pathsSpec [pingItem]) "components".toList := rfl
  have hpaths : mapField .crash (pathsSpec [pingItem, petItem none]) "paths".toList =
      .ok ([] ++ (pingItem.1, pingItem.2) :: [petItem none]) := rfl
  have hpaths' : mapField .crash (pathsSpec [pingItem]) "paths".toList =
      .ok ([] ++ (pingItem.1, pingItem.2) :: []) := rfl
  refine (parseEndpoints_isolated_iff .crash (HashOrder.newestFirst _) hcomponents rfl hpaths hpaths'
    (by decide) (by decide)).mpr fun ctx hctx => ?_
  obtain rfl := Except.ok.inj hctx
  have hping : ∃ r, readPathItem .crash ∅ pingItem = .ok r := ⟨_, rfl⟩
  have hpet : ∃ r, readPathItem .crash ∅ (petItem none) = .ok r := ⟨_, rfl⟩
  have hread : Readable .crash ∅ [pingItem, petItem none] :=
    List.forall_mem_cons.mpr ⟨hping, List.forall_mem_singleton.mpr hpet⟩
  have hread' : Readable .crash ∅ [pingItem] := List.forall_mem_singleton.mpr hping
  exact ⟨iff_of_true hread hread', fun _ _ _ _ _ _ _ => rfl⟩

/-- The parameters of `/pets/{id}` end the run that is to give the endpoint of `/ping`. -/
theorem path_params_crash :
    parseEndpoints .crash (HashOrder.newestFirst _)
        (pathsSpec [pingItem, petItem (some [declaredParam "id".toList "path".toList])]) = .error .crash ∧
      (∃ ep, parseEndpoints .crash (HashOrder.newestFirst _) (pathsSpec [pingItem]) = .ok [ep]) ∧
      ¬ SameEndpoints pingItem.1
        (parseEndpoints .crash (HashOrder.newestFirst _)
          (pathsSpec [pingItem, petItem (some [declaredParam "id".toList "path".toList])]))
        (parseEndpoints .crash (HashOrder.newestFirst _) (pathsSpec [pingItem])) :=
  ⟨rfl, ⟨_, rfl⟩, id⟩

end Siesta
