import Siesta.Driver.ComponentTypes
import Siesta.Frontend.Naming
import Siesta.IR.UndefinedNames

/-!
# Names across the generated files

A reference to a component is written under the same name in every file exactly if the component keeps
its name under `sanitize` and the reference writes it as it is (`asks_written`, `definesAs_iff`).  The
namespace that `server_py.cpp` qualifies with is the string that has been moved out of, so it is never
the one of `server.hpp`.
-/

namespace Siesta

open Lib JsonObject

/-! ### What is asked of the files -/

/-- The header defines the component `n` under the name `x`. -/
def DefsHpp.DefinesAs (defs : DefsHpp) (n x : Str) : Prop :=
  ∃ e ∈ defs.definitions, e.key = sanitize n ∧ e.definition.name = x

/-- The types in the signatures are the names under which the header defines the components. -/
def TypesAgree (ir : InvalidRead) (ho : HashOrders) (spec : JsonObject) (defs : DefsHpp)
    (endpoints : List Endpoint) (sigs : List Signature) : Prop :=
  List.Forall₂ (fun ep sig => ∀ u schema token n x, Asks ir ho spec ep u schema token n →
    defs.DefinesAs n x → sig.typeAt u = some x) endpoints sigs

/-- Names agree across the files. -/
structure NamesAgree (ir : InvalidRead) (ho : HashOrders) (spec : JsonObject) (files : GeneratedFiles) :
    Prop where
  client_types : ∀ endpoints client, parseEndpoints ir ho spec = .ok endpoints →
    files.client_hpp = some client → TypesAgree ir ho spec files.defs_hpp endpoints client.methods
  python_types : ∀ endpoints py, parseEndpoints ir ho spec = .ok endpoints →
    files.py_module = some py → TypesAgree ir ho spec files.defs_hpp endpoints py.wrappers
  client_ns : ∀ client py, files.client_hpp = some client → files.py_module = some py →
    py.qualifier = client.ns
  server_ns : ∀ server py, files.server_hpp = some server → files.server_py = some py →
    py.qualifier = server.ns

/-- The component is one of those that `buildAST` has stored. -/
def IsComponent (ir : InvalidRead) (spec : JsonObject) (n : Str) : Prop :=
  ∃ ast, buildAST ir spec = .ok ast ∧ sanitize n ∈ ast

/-- The component keeps its name: `sanitize` leaves it as it is, and so does the reference.  The type of
a parameter's schema must be readable, and the body in an operation must not be a component without a
name. -/
def KeepsName (ir : InvalidRead) (u : Use) (schema : JsonObject) (token n : Str) : Prop :=
  token = n ∧ sanitize n = n ∧
    match u with
    | .param _ => n ≠ [] → (JsonObject.type ir schema).isOk = true
    | .body in_place => in_place = true → n ≠ []

/-! ### The names of the definitions -/

section

variable {ir : InvalidRead} {ho : HashOrders} {spec : JsonObject}

theorem reading_eq_ok {α : Type} {x : Except Fault α} {a : α} : reading x = .ok a ↔ x = .ok a := by
  cases x with
  | ok b => simp [reading, Except.mapError]
  | error fault => simp [reading, Except.mapError]

theorem generateFromOpenAPI_cases {mode : GenMode} {python : Bool} {backend ns_override : Str}
    {files : GeneratedFiles}
    (h : generateFromOpenAPI ir ho spec mode python backend ns_override = .ok (some files)) :
    ∃ ast order endpoints title, buildAST ir spec = .ok ast ∧ sortTypes ho ast = some order ∧
      order.has_cycles = false ∧ parseEndpoints ir ho spec = .ok endpoints ∧
      generateFiles ho ast order endpoints mode python ns_override title = some files := by
  have hreturned : ∀ {α : Type} {x : Option α} {a : α}, returned x = .ok a → x = some a := by
    intro α x a hx
    cases x with
    | some b => exact congrArg some (Except.ok.inj hx)
    | none => cases hx
  unfold generateFromOpenAPI at h
  split at h
  · cases h
  · obtain ⟨major_version, -, h⟩ := bind_eq_ok.mp h
    split at h
    · cases h
    · obtain ⟨ast, hast, h⟩ := bind_eq_ok.mp h
      split at h
      · cases h
      · obtain ⟨order, horder, h⟩ := bind_eq_ok.mp h
        split at h
        · cases h
        · rename_i hacyclic
          obtain ⟨endpoints, hendpoints, h⟩ := bind_eq_ok.mp h
          obtain ⟨title, -, h⟩ := bind_eq_ok.mp h
          obtain ⟨files', hfiles, h⟩ := bind_eq_ok.mp h
          obtain rfl := Option.some.inj (pure_eq_ok.mp h)
          exact ⟨ast, order, endpoints, title, hast, hreturned horder, by simpa using hacyclic,
            reading_eq_ok.mp hendpoints, hreturned hfiles⟩

theorem buildAST_eq_ok {ast : NormalizedAST} :
    buildAST ir spec = .ok ast ↔ ∃ failed s count, parseSchemas ir spec {} = .ok failed s ∧
      parsePaths ir spec = .ok count ∧ s.ast = ast := by
  unfold buildAST
  cases parseSchemas ir spec {} with
  | error stop s => simp
  | ok failed s =>
    dsimp only
    constructor
    · intro h
      obtain ⟨count, hcount, h⟩ := bind_eq_ok.mp h
      exact ⟨failed, s, count, rfl, reading_eq_ok.mp hcount, pure_eq_ok.mp h⟩
    · rintro ⟨_, _, count, hs, hcount, rfl⟩
      cases hs
      exact bind_eq_ok.mpr ⟨count, reading_eq_ok.mpr hcount, rfl⟩

theorem written_iff {α : Type} {asked empty : Bool} {file x : α} :
    (if asked then (if empty then none else some file) else none) = some x ↔
      asked = true ∧ empty = false ∧ file = x := by
  cases asked <;> cases empty <;> simp

/-- Which files a run has written, and what they say: there is no namespace left for `server_py.cpp`. -/
structure WrittenFor (endpoints : List Endpoint) (mode : GenMode) (python : Bool) (ns : Str)
    (files : GeneratedFiles) : Prop where
  ns_ne_nil : ns ≠ []
  client_hpp : ∀ client, files.client_hpp = some client ↔
    mode.gen_client = true ∧ endpoints.isEmpty = false ∧ ⟨ns, endpoints.map signatureOf⟩ = client
  py_module : ∃ module_name, ∀ py, files.py_module = some py ↔
    (python && mode.gen_client) = true ∧ endpoints.isEmpty = false ∧
      ⟨module_name, ns, endpoints.map signatureOf⟩ = py
  server_hpp : ∀ server, files.server_hpp = some server ↔
    mode.gen_server = true ∧ endpoints.isEmpty = false ∧
      ⟨ns, endpoints.map Endpoint.function_name⟩ = server
  server_py : ∃ module_name, ∀ py, files.server_py = some py ↔
    (python && mode.gen_server) = true ∧ endpoints.isEmpty = false ∧
      ⟨module_name, [], endpoints.map Endpoint.function_name⟩ = py

theorem generateFiles_cases {ast : NormalizedAST} {order : TopologicalOrder} {endpoints : List Endpoint}
    {mode : GenMode} {python : Bool} {ns_override title : Str} {files : GeneratedFiles}
    (h : generateFiles ho ast order endpoints mode python ns_override title = some files) :
    generateDefsHpp ho order ast = some files.defs_hpp.definitions ∧
      ∃ ns, WrittenFor endpoints mode python ns files := by
  obtain ⟨defs_hpp, hdefs, h⟩ := Option.bind_eq_some_iff.mp h
  obtain rfl := Option.some.inj h
  obtain ⟨definitions, hdefinitions, rfl⟩ := Option.map_eq_some_iff.mp hdefs
  refine ⟨hdefinitions, _, ?_, fun _ => written_iff, ⟨_, fun _ => written_iff⟩, fun _ => written_iff,
    ⟨_, fun _ => written_iff⟩⟩
  -- the name of the module is not empty, and neither is an override that is taken
  have hmodule : ∀ name : Str, (if name.isEmpty then "siesta_bindings".toList else name) ≠ [] := by
    intro name
    split
    · decide
    · rename_i hne
      simpa using hne
  show (if ns_override.isEmpty then _ else ns_override) ≠ []
  split
  · exact hmodule _
  · rename_i hne
    simpa using hne

/-- The definitions have the names of the types they are emitted for, and no type is left out. -/
theorem definesAs_iff {ast : NormalizedAST} {order : TopologicalOrder} {defs : DefsHpp}
    (hast : buildAST ir spec = .ok ast) (hsort : sortTypes ho ast = some order)
    (hacyclic : order.has_cycles = false) (hdefs : generateDefsHpp ho order ast = some defs.definitions)
    {n x : Str} : defs.DefinesAs n x ↔ x = sanitize n ∧ sanitize n ∈ ast := by
  obtain ⟨failed, s, -, hrun, -, rfl⟩ := buildAST_eq_ok.mp hast
  have inv : ParseInv sanitizedNames s := parseSchemas_inv hrun
  obtain ⟨definitions, hdefs', hin⟩ := generateDefsHpp_run ho inv.sanitized inv.named
    (fun x hx => bare_of_knownName inv hx)
    (fun n type h => shapedType_of_knownType (fun _ hx => hx) (inv.types n type h)) hsort hacyclic
  obtain rfl := Option.some.inj (hdefs.symm.trans hdefs')
  -- the parser stores no type that is named otherwise
  have hname : ∀ e ∈ defs.definitions, e.definition.name = e.key := by
    intro e he
    rcases hin.declares e he with h | ⟨t, htype, -⟩
    · exact h
    · exact (inv.types _ _ htype).elim
  have hkeys : ∀ n, (∃ e ∈ defs.definitions, e.key = n) ↔ n ∈ s.ast := by
    intro n
    obtain ⟨order', hsort', horder⟩ := sortTypes_order ho s.ast
    obtain rfl := Option.some.inj (hsort'.symm.trans hsort)
    rw [← (horder hacyclic).2.1 n, ← hin.keys, List.mem_map]
  constructor
  · rintro ⟨e, he, hkey, rfl⟩
    exact ⟨(hname e he).trans hkey, (hkeys _).mp ⟨e, he, hkey⟩⟩
  · rintro ⟨rfl, hmem⟩
    obtain ⟨e, he, hkey⟩ := (hkeys _).mpr hmem
    exact ⟨e, he, hkey, (hname e he).trans hkey⟩

theorem writtenType_eq_iff {schema : JsonObject} {token n : Str} (hnames : readToken token = n) (u : Use) :
    writtenType ir schema token u = sanitize n ↔ KeepsName ir u schema token n := by
  have hkept : token = sanitize n ↔ token = n ∧ sanitize n = n := by
    constructor
    · rintro rfl
      have hsan := sanitize_eq_of_readToken hnames
      exact ⟨hsan, hsan⟩
    · rintro ⟨rfl, hsan⟩
      exact hsan.symm
  have hnil : sanitize n = [] ↔ n = [] := by
    constructor
    · intro h
      by_contra hne
      exact sanitize_ne_nil hne h
    · rintro rfl
      rfl
  unfold KeepsName
  rw [← and_assoc, ← hkept]
  cases u with
  | param i =>
    unfold writtenType
    cases hok : (JsonObject.type ir schema).isOk with
    | true => simp
    | false =>
      simp only [Bool.false_eq_true, if_false, imp_false, not_not]
      rw [eq_comm, hnil]
      constructor
      · rintro rfl
        exact ⟨eq_nil_of_readToken hnames, rfl⟩
      · exact fun h => h.2
  | body in_place =>
    have hcolon : "std::string".toList ≠ sanitize n := fun h =>
      mem_sanitize (h ▸ by decide : ':' ∈ sanitize n) (by decide)
    by_cases hplace : in_place = true ∧ token = []
    · obtain ⟨rfl, rfl⟩ := hplace
      obtain rfl : [] = n := hnames
      exact iff_of_false hcolon fun h => h.2 rfl rfl
    · have hwritten : writtenType ir schema token (.body in_place) = token := if_neg (by simpa using hplace)
      rw [hwritten]
      constructor
      · intro h
        refine ⟨h, fun hin hn => hplace ⟨hin, ?_⟩⟩
        rw [h, hn]
        rfl
      · exact fun h => h.1

/-! ### When the names agree -/

theorem typesAgree_iff {ast : NormalizedAST} {defs : DefsHpp}
    (hdefs : ∀ n x, defs.DefinesAs n x ↔ x = sanitize n ∧ sanitize n ∈ ast) (endpoints : List Endpoint) :
    TypesAgree ir ho spec defs endpoints (endpoints.map signatureOf) ↔
      ∀ ep ∈ endpoints, ∀ u schema token n, Asks ir ho spec ep u schema token n → sanitize n ∈ ast →
        KeepsName ir u schema token n := by
  unfold TypesAgree
  rw [List.forall₂_map_right_iff, List.forall₂_same]
  refine forall₂_congr fun ep _ => forall₂_congr fun u schema => forall₂_congr fun token n => ?_
  constructor
  · intro h hasks hmem
    have hwritten := h (sanitize n) hasks ((hdefs n _).mpr ⟨rfl, hmem⟩)
    rw [asks_written hasks] at hwritten
    exact (writtenType_eq_iff hasks.names u).mp (Option.some.inj hwritten)
  · intro h x hasks hx
    obtain ⟨rfl, hmem⟩ := (hdefs n x).mp hx
    rw [asks_written hasks, (writtenType_eq_iff hasks.names u).mpr (h hasks hmem)]

theorem server_ns_iff {endpoints : List Endpoint} {mode : GenMode} {python : Bool} {ns : Str}
    {files : GeneratedFiles} (hwritten : WrittenFor endpoints mode python ns files) :
    (∀ server py, files.server_hpp = some server → files.server_py = some py → py.qualifier = server.ns) ↔
      (python = true → mode.gen_server = true → endpoints = []) := by
  obtain ⟨module_name, hserver_py⟩ := hwritten.server_py
  constructor
  · intro h hpython hmode
    by_contra hne
    have hempty : endpoints.isEmpty = false := by simpa using hne
    -- both files are written, and the qualifier of the second is empty
    have hsame := h _ _ ((hwritten.server_hpp _).mpr ⟨hmode, hempty, rfl⟩)
      ((hserver_py _).mpr ⟨by rw [hpython, hmode]; rfl, hempty, rfl⟩)
    exact hwritten.ns_ne_nil hsame.symm
  · intro h server py _ hpy
    obtain ⟨hmode, hempty, -⟩ := (hserver_py py).mp hpy
    obtain ⟨hpython, hmode⟩ := Bool.and_eq_true_iff.mp hmode
    rw [h hpython hmode] at hempty
    cases hempty

/-- **When names agree.**  In a run that writes files the names agree across them exactly if
- every component that a parameter or a body of the client refers to keeps its name, and
- `server_py.cpp` is not written. -/
theorem names_agree_iff {mode : GenMode} {python : Bool} {backend ns_override : Str}
    {files : GeneratedFiles}
    (h : generateFromOpenAPI ir ho spec mode python backend ns_override = .ok (some files)) :
    NamesAgree ir ho spec files ↔
      (mode.gen_client = true → ∀ endpoints, parseEndpoints ir ho spec = .ok endpoints →
        ∀ ep ∈ endpoints, ∀ u schema token n, Asks ir ho spec ep u schema token n →
          IsComponent ir spec n → KeepsName ir u schema token n) ∧
      (python = true → mode.gen_server = true → parseEndpoints ir ho spec = .ok []) := by
  obtain ⟨ast, order, endpoints, title, hast, hsort, hacyclic, hendpoints, hfiles⟩ :=
    generateFromOpenAPI_cases h
  obtain ⟨hdefs, ns, hwritten⟩ := generateFiles_cases hfiles
  have hdefines : ∀ n x, files.defs_hpp.DefinesAs n x ↔ x = sanitize n ∧ sanitize n ∈ ast :=
    fun n x => definesAs_iff hast hsort hacyclic hdefs
  have hcomponent : ∀ n, IsComponent ir spec n ↔ sanitize n ∈ ast := by
    intro n
    constructor
    · rintro ⟨ast', hast', hmem⟩
      rwa [Except.ok.inj (hast.symm.trans hast')]
    · exact fun hmem => ⟨ast, hast, hmem⟩
  have hunique : ∀ endpoints', parseEndpoints ir ho spec = .ok endpoints' → endpoints' = endpoints :=
    fun endpoints' h' => Except.ok.inj (h'.symm.trans hendpoints)
  have htypes : TypesAgree ir ho spec files.defs_hpp endpoints (endpoints.map signatureOf) ↔
      ∀ ep ∈ endpoints, ∀ u schema token n, Asks ir ho spec ep u schema token n → sanitize n ∈ ast →
        KeepsName ir u schema token n := typesAgree_iff hdefines endpoints
  have hserver := server_ns_iff hwritten
  constructor
  · intro hagree
    constructor
    · intro hmode endpoints' h' ep hep u schema token n hasks hn
      obtain rfl := hunique endpoints' h'
      have hclient := (hwritten.client_hpp _).mpr ⟨hmode, by simpa using List.ne_nil_of_mem hep, rfl⟩
      exact htypes.mp (hagree.client_types _ _ h' hclient) ep hep u schema token n hasks ((hcomponent n).mp hn)
    · intro hpython hmode
      rw [hendpoints, hserver.mp hagree.server_ns hpython hmode]
  · rintro ⟨hkeeps, hnone⟩
    have hkept : mode.gen_client = true → TypesAgree ir ho spec files.defs_hpp endpoints
        (endpoints.map signatureOf) := fun hmode =>
      htypes.mpr fun ep hep u schema token n hasks hn =>
        hkeeps hmode endpoints hendpoints ep hep u schema token n hasks ((hcomponent n).mpr hn)
    obtain ⟨module_name, hpy⟩ := hwritten.py_module
    refine ⟨?_, ?_, ?_, hserver.mpr fun hpython hmode => (hunique [] (hnone hpython hmode)).symm⟩
    · intro endpoints' client h' hsome
      obtain rfl := hunique endpoints' h'
      obtain ⟨hmode, -, rfl⟩ := (hwritten.client_hpp client).mp hsome
      exact hkept hmode
    · intro endpoints' py h' hsome
      obtain rfl := hunique endpoints' h'
      obtain ⟨hmode, -, rfl⟩ := (hpy py).mp hsome
      exact hkept (Bool.and_eq_true_iff.mp hmode).2
    · intro client py hsome hsome_py
      obtain ⟨-, -, rfl⟩ := (hwritten.client_hpp client).mp hsome
      obtain ⟨-, -, rfl⟩ := (hpy py).mp hsome_py
      rfl

end

/-- A document with one component, and an operation whose body is of that component. -/
def storeSpec (component : String) : JsonObject :=
  some [("openapi".toList, .str "3.0.0".toList),
    ("info".toList, .obj [("title".toList, .str "Store".toList)]),
    ("components".toList, .obj [("schemas".toList, .obj
      [(component.toList, .obj [("type".toList, .str "object".toList)])])]),
    ("paths".toList, .obj [("/items".toList, .obj [("post".toList, .obj
      [("requestBody".toList, .obj [("content".toList, .obj [("application/json".toList, .obj
        [("schema".toList, .obj
          [("$ref".toList, .str ("#/components/schemas/".toList ++ component.toList))])])])])])])])]

theorem names_agree_iff_store :
    ∃ files, generateFromOpenAPI .crash (HashOrder.newestFirst _) (storeSpec "Item") .client true
        "beast".toList "shop".toList = .ok (some files) ∧
      (NamesAgree .crash (HashOrder.newestFirst _) (storeSpec "Item") files ↔
        ∀ endpoints, parseEndpoints .crash (HashOrder.newestFirst _) (storeSpec "Item") = .ok endpoints →
          ∀ ep ∈ endpoints, ∀ u schema token n,
            Asks .crash (HashOrder.newestFirst _) (storeSpec "Item") ep u schema token n →
              IsComponent .crash (storeSpec "Item") n → KeepsName .crash u schema token n) := by
  have hrun : ∃ files, generateFromOpenAPI .crash (HashOrder.newestFirst _) (storeSpec "Item") .client true
      "beast".toList "shop".toList = .ok (some files) := ⟨_, rfl⟩
  obtain ⟨files, h⟩ := hrun
  refine ⟨files, h, (names_agree_iff h).trans ?_⟩
  simp [GenMode.gen_client, GenMode.gen_server]

/-- The client has a `line-item` for the body, which the header defines as `line_item`; and with
bindings for the server, `::Server` stands for the `Store::Server` of the header. -/
theorem names_disagree :
    (∃ files, generateFromOpenAPI .crash (HashOrder.newestFirst _) (storeSpec "line-item") .client false
        "beast".toList [] = .ok (some files) ∧
      ¬ NamesAgree .crash (HashOrder.newestFirst _) (storeSpec "line-item") files) ∧
    ∃ files, generateFromOpenAPI .crash (HashOrder.newestFirst _) (storeSpec "Item") .both true
        "beast".toList [] = .ok (some files) ∧
      ¬ NamesAgree .crash (HashOrder.newestFirst _) (storeSpec "Item") files := by
  refine ⟨⟨_, rfl, fun h => ?_⟩, _, rfl, fun h => ?_⟩
  · obtain ⟨hpost, -⟩ := List.forall₂_cons.mp (h.client_types _ _ rfl rfl)
    have hwritten := hpost (.body true) _ "line-item".toList "line-item".toList "line_item".toList
      (.body ⟨_, _, _, _, _, _, _, rfl, rfl, List.mem_singleton_self _, List.mem_singleton_self _, rfl, rfl,
        rfl⟩ (.inPlace rfl rfl ⟨_, _, _, rfl, rfl⟩) rfl ⟨rfl, by decide, rfl⟩)
      ⟨_, List.mem_singleton_self _, rfl, rfl⟩
    exact absurd (Option.some.inj hwritten) (by decide)
  · have hsame := h.server_ns _ _ rfl rfl
    exact absurd hsame (by decide)

end Siesta
