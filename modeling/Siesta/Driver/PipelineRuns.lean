import Siesta.Driver.NamesAgree

/-!
# What a run of the generator comes to

`generateFromOpenAPI` ends on every document (`generator_ends`): with an exception from a read of the
document, with a refusal, or with files.  Which of the three does not depend on the orders of the hash tables
(`outcome_whatever_order`).  The header of a run that writes files has every type of the AST once, each behind
the types its definition writes (`header_in_order`), and the other files have a function for every operation
of the document (`operations_in_files`); its path items have only objects as members (`path_items_of_files`).
-/

namespace Siesta

open Lib JsonObject

section

variable {ir : InvalidRead} {ho ho' : HashOrders} {spec : JsonObject} {ast : NormalizedAST}
  {order : TopologicalOrder}

/-! ### The phases, one by one -/

theorem reading_ne_outOfFuel {α : Type} (x : Except Fault α) : reading x ≠ .error .outOfFuel := by
  cases x <;> simp [reading, Except.mapError]

theorem buildAST_ne_outOfFuel : buildAST ir spec ≠ .error .outOfFuel := by
  unfold buildAST
  cases hrun : parseSchemas ir spec {} with
  | ok failed s => exact bind_ne_error (reading_ne_outOfFuel _) fun count _ => by simp [pure, Except.pure]
  | error stop s =>
    intro h
    obtain rfl : stop = .outOfFuel := Except.error.inj h
    exact parseSchemas_ne_outOfFuel hrun

theorem defsHpp_of_buildAST (hast : buildAST ir spec = .ok ast) (hsort : sortTypes ho ast = some order)
    (hacyclic : order.has_cycles = false) :
    ∃ defs, generateDefsHpp ho order ast = some defs ∧ DefinedInOrder ast order.ordered_types defs := by
  obtain ⟨failed, s, -, hrun, -, rfl⟩ := buildAST_eq_ok.mp hast
  have inv : ParseInv sanitizedNames s := parseSchemas_inv hrun
  exact generateDefsHpp_run ho inv.sanitized inv.named (fun x hx => bare_of_knownName inv hx)
    (fun n type h => shapedType_of_knownType (fun _ hx => hx) (inv.types n type h)) hsort hacyclic

theorem dependsOn_iff_of_orders {t u : Str} :
    (DependencyGraph.buildFromAST ho ast).DependsOn t u ↔
      (DependencyGraph.buildFromAST ho' ast).DependsOn t u := by
  simp only [DependencyGraph.dependsOn_iff, DependencyGraph.mem_dependencies_buildFromAST]

theorem hasCycle_iff_of_orders :
    (DependencyGraph.buildFromAST ho ast).HasCycle ↔ (DependencyGraph.buildFromAST ho' ast).HasCycle := by
  have hsame : (DependencyGraph.buildFromAST ho ast).DependsOn =
      (DependencyGraph.buildFromAST ho' ast).DependsOn :=
    funext fun _ => funext fun _ => propext dependsOn_iff_of_orders
  rw [DependencyGraph.HasCycle, DependencyGraph.HasCycle, hsame]

theorem exists_sortTypes (ho : HashOrders) (ast : NormalizedAST) :
    ∃ order, sortTypes ho ast = some order ∧
      (order.has_cycles = true ↔ (DependencyGraph.buildFromAST ho ast).HasCycle) := by
  obtain ⟨order, hsort, -⟩ := sortTypes_order ho ast
  refine ⟨order, hsort, ?_⟩
  obtain ⟨cycles, hcycles⟩ := (DependencyGraph.buildFromAST ho ast).detectCycles_isSome ho
  rw [← DependencyGraph.detectCycles_ne_nil_iff hcycles]
  unfold sortTypes at hsort
  simp only [hcycles, Option.bind_eq_bind, Option.bind_some] at hsort
  cases cycles with
  | cons c cs =>
    obtain rfl := Option.some.inj hsort
    simp
  | nil =>
    obtain ⟨sorted, -, hsort⟩ := Option.bind_eq_some_iff.mp hsort
    obtain rfl := Option.some.inj hsort
    simp

theorem validate_isEmpty_of_orders (ho ho' : HashOrders) :
    (ast.validate ho).isEmpty = (ast.validate ho').isEmpty := by
  rw [Bool.eq_iff_iff, List.isEmpty_iff, List.isEmpty_iff, NormalizedAST.validate_eq_nil,
    NormalizedAST.validate_eq_nil]

theorem map_parseEndpoints_of_orders :
    (reading (parseEndpoints ir ho spec)).map (fun _ => ()) =
      (reading (parseEndpoints ir ho' spec)).map (fun _ => ()) := by
  rw [parseEndpoints_eq, parseEndpoints_eq]
  cases readContext ir spec with
  | error fault => rfl
  | ok ctx =>
    cases mapField ir spec "paths".toList with
    | error fault => rfl
    | ok paths =>
      simp only [bind, Except.bind]
      cases paths.mapM (readPathItem ir ctx.fetched_params) <;> rfl

theorem exists_generateFiles (hast : buildAST ir spec = .ok ast) (hsort : sortTypes ho ast = some order)
    (hacyclic : order.has_cycles = false) (endpoints : List Endpoint) (mode : GenMode) (python : Bool)
    (ns_override title : Str) :
    ∃ files, generateFiles ho ast order endpoints mode python ns_override title = some files := by
  obtain ⟨defs, hdefs, -⟩ := defsHpp_of_buildAST hast hsort hacyclic
  dsimp only [generateFiles, moveOut, defsGenerator]
  rw [hdefs]
  exact ⟨_, rfl⟩

/-! ### The outcome -/

/-- **The orders of the hash tables do not decide what a run comes to**: whether it throws, and what, whether
it is refused, and whether it writes files. -/
theorem outcome_whatever_order (ir : InvalidRead) (ho ho' : HashOrders) (spec : JsonObject) (mode : GenMode)
    (python : Bool) (backend ns_override : Str) :
    (generateFromOpenAPI ir ho spec mode python backend ns_override).map Option.isSome =
      (generateFromOpenAPI ir ho' spec mode python backend ns_override).map Option.isSome := by
  unfold generateFromOpenAPI
  split
  · rfl
  refine map_bind_congr_left fun version _ => ?_
  split
  · rfl
  refine map_bind_congr_left fun ast hast => ?_
  rw [validate_isEmpty_of_orders ho ho']
  split
  · rfl
  obtain ⟨order, hsort, hcycles⟩ := exists_sortTypes ho ast
  obtain ⟨order', hsort', hcycles'⟩ := exists_sortTypes ho' ast
  have hsame : order.has_cycles = order'.has_cycles := by
    rw [Bool.eq_iff_iff, hcycles, hcycles', hasCycle_iff_of_orders]
  rw [hsort, hsort']
  refine map_bind_congr rfl fun o o' ho_eq ho_eq' => ?_
  obtain rfl := Except.ok.inj ho_eq
  obtain rfl := Except.ok.inj ho_eq'
  rw [hsame]
  split
  · rfl
  rename_i hacyclic
  have hacyclic' : order'.has_cycles = false := by simpa using hacyclic
  refine map_bind_congr map_parseEndpoints_of_orders fun endpoints endpoints' _ _ => ?_
  refine map_bind_congr_left fun title _ => ?_
  obtain ⟨files, hfiles⟩ := exists_generateFiles hast hsort (hsame.trans hacyclic') endpoints mode python
    ns_override title
  obtain ⟨files', hfiles'⟩ := exists_generateFiles hast hsort' hacyclic' endpoints' mode python ns_override title
  rw [hfiles, hfiles']
  rfl

/-- **A run ends**, whatever the document and the orders are: the calls of the parser go no deeper than the
document, the searches of the graph come to an end, and so do the loops that resolve names. -/
theorem generator_ends (ir : InvalidRead) (ho : HashOrders) (spec : JsonObject) (mode : GenMode)
    (python : Bool) (backend ns_override : Str) :
    generateFromOpenAPI ir ho spec mode python backend ns_override ≠ .error .outOfFuel := by
  unfold generateFromOpenAPI
  split
  · nofun
  refine bind_ne_error (reading_ne_outOfFuel _) fun version _ => ?_
  split
  · nofun
  refine bind_ne_error buildAST_ne_outOfFuel fun ast hast => ?_
  split
  · nofun
  obtain ⟨order, hsort, -⟩ := exists_sortTypes ho ast
  rw [hsort]
  refine bind_ne_error nofun fun o ho_eq => ?_
  obtain rfl := Except.ok.inj ho_eq
  split
  · nofun
  rename_i hacyclic
  refine bind_ne_error (reading_ne_outOfFuel _) fun endpoints _ => ?_
  refine bind_ne_error (reading_ne_outOfFuel _) fun title _ => ?_
  obtain ⟨files, hfiles⟩ := exists_generateFiles hast hsort (by simpa using hacyclic) endpoints mode python
    ns_override title
  rw [hfiles]
  nofun

/-- **The header of a run.**  It has every type of the AST once, and every component that could be parsed is
one of them; each stands behind the types its definition writes. -/
theorem header_in_order {mode : GenMode} {python : Bool} {backend ns_override : Str} {files : GeneratedFiles}
    (hrun : generateFromOpenAPI ir ho spec mode python backend ns_override = .ok (some files)) :
    ∃ failed s, parseSchemas ir spec {} = .ok failed s ∧
      (files.defs_hpp.definitions.map Emitted.key).Nodup ∧
      (∀ n, n ∈ files.defs_hpp.definitions.map Emitted.key ↔ n ∈ s.ast) ∧
      (∀ schemas, componentSchemas ir spec = .ok schemas → ∀ e ∈ schemas, e.1 ∈ failed ∨
        sanitize e.1 ∈ files.defs_hpp.definitions.map Emitted.key) ∧
      ∀ before e after, files.defs_hpp.definitions = before ++ e :: after →
        ∀ text ∈ e.definition.references, ∀ n ∈ s.ast, Writes text n →
          ∃ e' ∈ before, e'.key = n ∧ Declares s.ast n e'.definition := by
  obtain ⟨ast, order, endpoints, title, hast, hsort, hacyclic, -, hfiles⟩ := generateFromOpenAPI_cases hrun
  obtain ⟨defs, hdefs, hin⟩ := defsHpp_of_buildAST hast hsort hacyclic
  obtain rfl := Option.some.inj (hdefs.symm.trans (generateFiles_cases hfiles).1)
  obtain ⟨failed, s, -, hparse, -, rfl⟩ := buildAST_eq_ok.mp hast
  obtain ⟨order', hsort', horder⟩ := sortTypes_order ho s.ast
  obtain rfl := Option.some.inj (hsort'.symm.trans hsort)
  obtain ⟨hnodup, hmem, -⟩ := horder hacyclic
  refine ⟨failed, s, hparse, hin.keys ▸ hnodup, fun n => by rw [hin.keys]; exact hmem n,
    fun schemas hschemas e he => ?_, fun before e after heq text htext n hn hw => ?_⟩
  · have hkeeps := parseSchemas_keeps hschemas fun e _ => targetsIn_sanitizedNames (ofMember e.2)
    have hadded := (hkeeps.of_ok ⟨ParseInv.init _, trivial⟩ hparse).2.2
    rw [hin.keys, hmem]
    exact hadded e he
  · obtain ⟨e', he', rfl⟩ := List.mem_map.mp (hin.before before e after heq text htext n hn hw)
    exact ⟨e', he', rfl, hin.declares e' (heq ▸ List.mem_append_left _ he')⟩

end

theorem header_in_order_store :
    ∃ files, generateFromOpenAPI .crash (HashOrder.newestFirst _) (storeSpec "Item") .client false
        "beast".toList [] = .ok (some files) ∧
      (files.defs_hpp.definitions.map Emitted.key).Nodup ∧
        ("Item".toList ∈ files.defs_hpp.definitions.map Emitted.key ↔
          ∃ failed s, parseSchemas .crash (storeSpec "Item") {} = .ok failed s ∧ "Item".toList ∈ s.ast) := by
  have hrun : ∃ files, generateFromOpenAPI .crash (HashOrder.newestFirst _) (storeSpec "Item") .client false
      "beast".toList [] = .ok (some files) := ⟨_, rfl⟩
  obtain ⟨files, h⟩ := hrun
  obtain ⟨failed, s, hparse, hnodup, hmem, -, -⟩ := header_in_order h
  refine ⟨files, h, hnodup, (hmem _).trans ⟨fun hs => ⟨failed, s, hparse, hs⟩, ?_⟩⟩
  rintro ⟨failed', s', hparse', hs'⟩
  rw [hparse] at hparse'
  cases hparse'
  exact hs'

/-! ### The path items -/

section

variable {ho : HashOrders} {spec : JsonObject}

/-- A path item whose members are all objects. -/
def ReadableItem (item : Json) : Prop :=
  ∃ members, item = .obj members ∧ ∀ op ∈ members, ∃ fields, op.2 = .obj fields

theorem operations_eq_ok {item : Json} {members : Record Str Json} :
    operations .crash (ofMember item) = .ok members ↔ item = .obj members := by
  cases item <;> simp [operations, ofMember, Json.if_object]

theorem exists_stringField_eq_ok {value : Json} {key : Str} :
    (∃ s, stringField .crash (ofMember value) key = .ok s) ↔ ∃ fields, value = .obj fields := by
  cases value <;>
    simp [stringField, getValueIfExist, atKey, ofMember, Json.if_object, bind, Except.bind, pure, Except.pure]

/-- **What `parsePaths` can read**: path items that are objects, and whose members are all objects.  Any other
member ends the program, such as a list of parameters that the operations of a path share. -/
theorem parsePaths_iff {paths : List (Str × Json)}
    (hpaths : mapField .crash spec "paths".toList = .ok paths) :
    (∃ count, parsePaths .crash spec = .ok count) ↔ ∀ path ∈ paths, ReadableItem path.2 := by
  have hpure {α β : Type} (f : α → β) (a : α) : ∃ b, (pure (f a) : Except Fault β) = .ok b := ⟨f a, rfl⟩
  have hfields (op : Str × Json) : (∃ summary, (ofMember op.2).summary .crash = .ok summary ∧
      ∃ op_id, stringField .crash (ofMember op.2) "operationId".toList = .ok op_id ∧
        ∃ description, (ofMember op.2).description .crash = .ok description) ↔
          ∃ fields, op.2 = .obj fields := by
    simp only [exists_and_right, summary, description, exists_stringField_eq_ok, and_self]
  unfold parsePaths
  rw [hpaths]
  simp only [exists_bind_eq_ok, Except.ok.injEq, exists_eq_left', hpure, and_true, exists_mapM_eq_ok,
    operations_eq_ok, hfields, ReadableItem]

/-- So the operations of a path that share parameters end the program before a file is written. -/
theorem path_items_of_files {mode : GenMode} {python : Bool} {backend ns_override : Str}
    {files : GeneratedFiles}
    (hrun : generateFromOpenAPI .crash ho spec mode python backend ns_override = .ok (some files)) :
    ∃ paths, mapField .crash spec "paths".toList = .ok paths ∧ ∀ path ∈ paths, ReadableItem path.2 := by
  obtain ⟨ast, order, endpoints, title, hast, -⟩ := generateFromOpenAPI_cases hrun
  obtain ⟨failed, s, count, -, hcount, -⟩ := buildAST_eq_ok.mp hast
  obtain ⟨paths, hpaths, -⟩ := bind_eq_ok.mp hcount
  exact ⟨paths, hpaths, (parsePaths_iff hpaths).mp ⟨count, hcount⟩⟩

end

/-! ### The operations of the document -/

/-- The operations a document has code for, each with its path: the members of the path items that are named
like a method, in the order of the document. -/
def documentOperations (paths : List (Str × Json)) : List (Str × Str) :=
  (paths.flatMap fun entry => ((ofMember entry.2).getD []).map fun op => (toLower op.1, entry.1)).filter
    fun op => isSupportedMethod op.1

def operationNames (paths : List (Str × Json)) : List Str :=
  (documentOperations paths).map fun op => generateFunctionName op.1 op.2

/-- The files that are asked for have functions with the given names, in this order; where there is nothing to
call, none of them is written. -/
structure CallsIn (names : List Str) (mode : GenMode) (python : Bool) (files : GeneratedFiles) : Prop where
  client_hpp : files.client_hpp.map (fun file => file.methods.map Signature.name) =
    if mode.gen_client && !names.isEmpty then some names else none
  py_module : files.py_module.map (fun file => file.wrappers.map Signature.name) =
    if python && mode.gen_client && !names.isEmpty then some names else none
  server_hpp : files.server_hpp.map ServerHpp.handlers =
    if mode.gen_server && !names.isEmpty then some names else none
  server_py : files.server_py.map ServerPy.overrides =
    if python && mode.gen_server && !names.isEmpty then some names else none

section

variable {ir : InvalidRead} {ho : HashOrders} {spec : JsonObject}

theorem readPathItem_operations {fetched_params : Table Str ClientParam} {entry : Str × Json}
    {r : List ClientParam × List ColOp} (h : readPathItem ir fetched_params entry = .ok r) :
    r.2.map (fun co => (toLower co.method, co.path)) =
      ((ofMember entry.2).getD []).map fun op => (toLower op.1, entry.1) := by
  obtain ⟨items, -, h⟩ := bind_eq_ok.mp h
  obtain ⟨path_params, -, h⟩ := bind_eq_ok.mp h
  obtain ⟨ops, hops, h⟩ := bind_eq_ok.mp h
  obtain rfl := pure_eq_ok.mp h
  rw [← List.forall₂_eq_eq_eq, List.forall₂_map_left_iff, List.forall₂_map_right_iff]
  refine (mapM_eq_ok.mp hops).flip.imp fun co op hco => ?_
  rw [readOperation_method hco, (readOperation_cases hco).1]

theorem parseEndpoints_operations {paths : List (Str × Json)} {endpoints : List Endpoint}
    (hpaths : mapField ir spec "paths".toList = .ok paths) (h : parseEndpoints ir ho spec = .ok endpoints) :
    endpoints.map Endpoint.function_name = operationNames paths := by
  rw [parseEndpoints_eq] at h
  obtain ⟨ctx, -, h⟩ := bind_eq_ok.mp h
  obtain ⟨paths', hpaths', h⟩ := bind_eq_ok.mp h
  obtain rfl := Except.ok.inj (hpaths'.symm.trans hpaths)
  obtain ⟨reads, hreads, h⟩ := bind_eq_ok.mp h
  obtain rfl := pure_eq_ok.mp h
  have hall : (reads.flatMap Prod.snd).map (fun co => (toLower co.method, co.path)) =
      paths'.flatMap fun entry => ((ofMember entry.2).getD []).map fun op => (toLower op.1, entry.1) := by
    rw [List.map_flatMap, List.flatMap_def, List.flatMap_def]
    refine congrArg List.flatten ?_
    rw [← List.forall₂_eq_eq_eq, List.forall₂_map_left_iff, List.forall₂_map_right_iff]
    exact (mapM_eq_ok.mp hreads).flip.imp fun r entry hr => readPathItem_operations hr
  rw [operationNames, documentOperations, ← hall, List.filter_map, List.map_map, List.map_map]
  rfl

theorem map_of_written {α β : Type} {file : Option α} {asked empty : Bool} {made : α} (f : α → β)
    (h : ∀ x, file = some x ↔ asked = true ∧ empty = false ∧ made = x) :
    file.map f = if asked && !empty then some (f made) else none := by
  cases file with
  | some x =>
    obtain ⟨hasked, hempty, rfl⟩ := (h x).mp rfl
    simp [hasked, hempty]
  | none =>
    have hnot : ¬(asked = true ∧ empty = false) := fun hand => by simpa using (h made).mpr ⟨hand.1, hand.2, rfl⟩
    simpa using hnot

/-- **Every operation of the document is in the files.**  The client, the server and the bindings of both have
one function for each, in the order of the document and named after its method and path, and no others. -/
theorem operations_in_files {mode : GenMode} {python : Bool} {backend ns_override : Str} {files : GeneratedFiles}
    (hrun : generateFromOpenAPI ir ho spec mode python backend ns_override = .ok (some files)) :
    ∃ paths, mapField ir spec "paths".toList = .ok paths ∧ CallsIn (operationNames paths) mode python files := by
  obtain ⟨ast, order, endpoints, title, -, -, -, hendpoints, hfiles⟩ := generateFromOpenAPI_cases hrun
  obtain ⟨-, ns, hwritten⟩ := generateFiles_cases hfiles
  obtain ⟨paths, hpaths⟩ : ∃ paths, mapField ir spec "paths".toList = .ok paths := by
    have h := hendpoints
    rw [parseEndpoints_eq] at h
    obtain ⟨ctx, -, h⟩ := bind_eq_ok.mp h
    obtain ⟨paths, hpaths, -⟩ := bind_eq_ok.mp h
    exact ⟨paths, hpaths⟩
  have hnames := parseEndpoints_operations hpaths hendpoints
  have hsignatures : (endpoints.map signatureOf).map Signature.name = operationNames paths := by
    rw [← hnames, List.map_map]
    rfl
  have hempty : endpoints.isEmpty = (operationNames paths).isEmpty := by rw [← hnames, List.isEmpty_map]
  obtain ⟨client_module, hpy_module⟩ := hwritten.py_module
  obtain ⟨server_module, hserver_py⟩ := hwritten.server_py
  refine ⟨paths, hpaths, ?_, ?_, ?_, ?_⟩
  · rw [map_of_written _ hwritten.client_hpp, hsignatures, hempty]
  · rw [map_of_written _ hpy_module, hsignatures, hempty]
  · rw [map_of_written _ hwritten.server_hpp, hnames, hempty]
  · rw [map_of_written _ hserver_py, hnames, hempty]

end

theorem operations_in_files_store :
    ∃ files, generateFromOpenAPI .crash (HashOrder.newestFirst _) (storeSpec "Item") .both true
        "beast".toList [] = .ok (some files) ∧
      files.server_hpp.map ServerHpp.handlers = some [generateFunctionName "post".toList "/items".toList] ∧
      files.server_py.map ServerPy.overrides = some [generateFunctionName "post".toList "/items".toList] := by
  have hrun : ∃ files, generateFromOpenAPI .crash (HashOrder.newestFirst _) (storeSpec "Item") .both true
      "beast".toList [] = .ok (some files) := ⟨_, rfl⟩
  obtain ⟨files, h⟩ := hrun
  obtain ⟨paths, hpaths, hcalls⟩ := operations_in_files h
  obtain rfl := Except.ok.inj hpaths
  exact ⟨files, h, hcalls.server_hpp, hcalls.server_py⟩

end Siesta
