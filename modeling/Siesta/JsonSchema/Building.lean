import Siesta.JsonSchema.SchemaCompiler
import Siesta.Lib.ListM

/-!
# The nodes that `build_schema_tree` builds

`buildMember` is what the loop over the members of a schema does with one of them.  The tables that
`build_schema_tree` fills have no influence on the nodes it builds (`stateFree_tree`), so that the nodes of
a schema are those of its members, one after the other (`built_keywords_cons`).
-/

namespace Siesta.JsonSchema

open Lib

/-! ### One member of a schema -/

/-- How `build_schema_tree` reads the value of a keyword. -/
inductive Reading where
  | skipped | definitions | table | list | tree
  deriving DecidableEq

def reading : Keyword → Reading
  | .Unknown => .skipped
  | .Defs | .Definitions => .definitions
  | .Properties | .PatternProperties | .DependentRequired | .DependentSchemas => .table
  | .AllOf | .AnyOf | .OneOf | .PrefixItems => .list
  | _ => .tree

/-- What the loop over the members of a schema does with one of them. -/
def buildMember (filled : Filled) (m : Str × Json) (uri : SchemaURI) (st : BuildState) :
    Except Abort (List SchemaNode × BuildState) :=
  let kw := keywordOf m.1
  let child := keywordNode filled kw m.1 m.2 uri
  let uri := nextUri kw m.2 uri
  let st := enterId filled kw m.2 st
  match reading kw with
  | .skipped => .ok ([], st)
  | .definitions =>
    match m.2 with
    | .obj defs => buildDefinitions filled child m.1 defs uri st
    | _ => .error .exception
  | .table =>
    match m.2 with
    | .obj props => do
      let kw_uri := SchemaURI.parse (uri.to_string ++ '/' :: m.1)
      let (children, st) ← buildProperties kw_uri props st
      .ok ([{ uri := kw_uri, keyword := kw, value := m.2, children }], st)
    | _ => .error .exception
  | .list =>
    match m.2 with
    | .arr items => buildItems (uri.to_string ++ '/' :: m.1) 0 items st
    | _ => .error .exception
  | .tree => do
    let (children, st) ← build_schema_tree ⟨.destroyed, false⟩ m.2 child.uri st
    .ok ([{ child with children }], st)

theorem buildKeywords_cons (filled : Filled) (m : Str × Json) (rest : List (Str × Json)) (uri : SchemaURI)
    (st : BuildState) :
    buildKeywords filled (m :: rest) uri st = (do
      let (nodes, st) ← buildMember filled m uri st
      let (nodes', st) ← buildKeywords filled rest (nextUri (keywordOf m.1) m.2 uri) st
      .ok (nodes ++ nodes', st)) := by
  obtain ⟨key, value⟩ := m
  rw [buildKeywords]
  unfold buildMember
  dsimp only
  by_cases hkw : keywordOf key = .Unknown
  · rw [if_pos hkw, hkw]
    show _ = (buildKeywords filled rest uri st).bind _
    cases buildKeywords filled rest uri st <;> rfl
  · rw [if_neg hkw]
    cases h : keywordOf key
    case Unknown => exact absurd h hkw
    case Defs | Definitions => cases value <;> rfl
    case AllOf | AnyOf | OneOf | PrefixItems => cases value <;> rfl
    case Properties | PatternProperties | DependentRequired | DependentSchemas =>
      cases value with
      | obj props =>
        dsimp only [reading]
        rw [bind_assoc]
      | _ => rfl
    all_goals
      dsimp only [reading]
      rw [bind_assoc]

theorem buildKeywords_singleton (filled : Filled) (m : Str × Json) (uri : SchemaURI) (st : BuildState) :
    buildKeywords filled [m] uri st = buildMember filled m uri st := by
  rw [buildKeywords_cons]
  show (buildMember filled m uri st).bind _ = _
  cases buildMember filled m uri st with
  | error a => rfl
  | ok r => exact congrArg (fun nodes => Except.ok (nodes, r.2)) (List.append_nil r.1)

theorem nextUri_of_ne {kw : Keyword} (h : kw ≠ .ID) (value : Json) (uri : SchemaURI) :
    nextUri kw value uri = uri := by
  unfold nextUri
  split
  · exact absurd rfl h
  · rfl

theorem enterId_of_ne {kw : Keyword} (h : kw ≠ .ID) (filled : Filled) (value : Json) (st : BuildState) :
    enterId filled kw value st = st := by
  unfold enterId
  split
  · exact absurd rfl h
  · rfl

theorem keywordNode_keyword (filled : Filled) (kw : Keyword) (key : Str) (value : Json) (uri : SchemaURI) :
    (keywordNode filled kw key value uri).keyword = kw := by
  unfold keywordNode
  split <;> rfl

theorem keywordNode_parent (filled : Filled) (kw : Keyword) (key : Str) (value : Json) (uri : SchemaURI) :
    (keywordNode filled kw key value uri).parent = filled.address := by
  unfold keywordNode
  split <;> rfl

/-! ### Nodes and tables -/

/-- What a function builds. -/
def built (build : BuildState → Except Abort (List SchemaNode × BuildState)) : Except Abort (List SchemaNode) :=
  (build {}).map Prod.fst

/-- The nodes do not depend on the tables. -/
def StateFree (build : BuildState → Except Abort (List SchemaNode × BuildState)) : Prop :=
  ∀ st, (build st).map Prod.fst = built build

namespace StateFree

variable {build build' : BuildState → Except Abort (List SchemaNode × BuildState)}

theorem nodes (nodes : List SchemaNode) : StateFree fun st => .ok (nodes, st) := fun _ => rfl

theorem error (a : Abort) : StateFree fun _ => .error a := fun _ => rfl

/-- Something is entered in the tables before. -/
theorem after (h : StateFree build) (enter : BuildState → BuildState) : StateFree fun st => build (enter st) :=
  fun st => (h (enter st)).trans (h (enter {})).symm

theorem built_after (h : StateFree build) (enter : BuildState → BuildState) :
    built (fun st => build (enter st)) = built build := h (enter {})

theorem map_fst (h : StateFree build) (f : List SchemaNode → List SchemaNode) (st : BuildState) :
    Except.map Prod.fst ((build st).bind fun a => .ok (f a.1, a.2)) =
      (built build).bind fun nodes => .ok (f nodes) := by
  rw [← h st]
  cases build st <;> rfl

theorem map (h : StateFree build) (f : List SchemaNode → List SchemaNode) :
    StateFree fun st => (build st).bind fun a => .ok (f a.1, a.2) := fun st =>
  (h.map_fst f st).trans (h.map_fst f {}).symm

theorem built_map (h : StateFree build) (f : List SchemaNode → List SchemaNode) :
    built (fun st => (build st).bind fun a => .ok (f a.1, a.2)) = (built build).bind fun nodes => .ok (f nodes) :=
  h.map_fst f {}

/-- What is built first, and then. -/
theorem map_bind (h : StateFree build) (h' : StateFree build')
    (f : List SchemaNode → List SchemaNode → List SchemaNode) (st : BuildState) :
    Except.map Prod.fst ((build st).bind fun a => (build' a.2).bind fun b => .ok (f a.1 b.1, b.2)) =
      (built build).bind fun nodes => (built build').bind fun nodes' => .ok (f nodes nodes') := by
  rw [← h st]
  cases build st with
  | error a => rfl
  | ok r =>
    show _ = (built build').bind _
    rw [← h' r.2]
    show Except.map Prod.fst ((build' r.2).bind _) = _
    cases build' r.2 <;> rfl

theorem map₂ (h : StateFree build) (h' : StateFree build')
    (f : List SchemaNode → List SchemaNode → List SchemaNode) :
    StateFree fun st => (build st).bind fun a => (build' a.2).bind fun b => .ok (f a.1 b.1, b.2) := fun st =>
  (h.map_bind h' f st).trans (h.map_bind h' f {}).symm

theorem built_map₂ (h : StateFree build) (h' : StateFree build')
    (f : List SchemaNode → List SchemaNode → List SchemaNode) :
    built (fun st => (build st).bind fun a => (build' a.2).bind fun b => .ok (f a.1 b.1, b.2)) =
      (built build).bind fun nodes => (built build').bind fun nodes' => .ok (f nodes nodes') :=
  h.map_bind h' f {}

end StateFree

mutual

theorem stateFree_tree (filled : Filled) (uri : SchemaURI) :
    ∀ value : Json, StateFree (build_schema_tree filled value uri)
  | .obj members => stateFree_keywords filled uri members
  | .null | .bool _ | .int _ | .double _ | .str _ | .arr _ => .nodes []

theorem stateFree_keywords (filled : Filled) (uri : SchemaURI) :
    ∀ members : List (Str × Json), StateFree (buildKeywords filled members uri)
  | [] => .nodes []
  | (key, value) :: rest => by
    have hmember : StateFree (buildMember filled (key, value) uri) := by
      unfold buildMember
      dsimp only
      cases reading (keywordOf key) with
      | skipped => exact (StateFree.nodes []).after _
      | definitions =>
        cases value with
        | obj table => exact (stateFree_definitions filled _ key _ table).after _
        | _ => exact .error _
      | table =>
        cases value with
        | obj table =>
          let kw_uri := SchemaURI.parse ((nextUri (keywordOf key) (.obj table) uri).to_string ++ '/' :: key)
          exact ((stateFree_properties kw_uri table).map fun children =>
            [{ uri := kw_uri, keyword := keywordOf key, value := .obj table, children }]).after _
        | _ => exact .error _
      | list =>
        cases value with
        | arr items => exact (stateFree_items _ 0 items).after _
        | _ => exact .error _
      | tree =>
        exact ((stateFree_tree _ _ value).map fun children =>
          [{ keywordNode filled (keywordOf key) key value uri with children }]).after _
    intro st
    show Except.map Prod.fst (buildKeywords filled ((key, value) :: rest) uri st) =
      Except.map Prod.fst (buildKeywords filled ((key, value) :: rest) uri {})
    rw [buildKeywords_cons, buildKeywords_cons]
    exact hmember.map₂ (stateFree_keywords filled _ rest) (fun nodes nodes' => nodes ++ nodes') st

theorem stateFree_definitions (filled : Filled) (child : SchemaNode) (key : Str) (uri : SchemaURI) :
    ∀ table : List (Str × Json), StateFree (buildDefinitions filled child key table uri)
  | [] => .nodes []
  | (def_name, value) :: rest =>
    .map₂ (stateFree_tree _ _ value) (stateFree_definitions filled child key uri rest) fun children nodes =>
      { child with uri := .parse (definitionUri filled key def_name uri), children } :: nodes

theorem stateFree_properties (kw_uri : SchemaURI) :
    ∀ table : List (Str × Json), StateFree (buildProperties kw_uri table)
  | [] => .nodes []
  | (prop_name, value) :: rest =>
    .map₂ (stateFree_tree _ _ value) (stateFree_properties kw_uri rest) fun children nodes =>
      { uri := .parse (kw_uri.to_string ++ '/' :: prop_name), value, children } :: nodes

theorem stateFree_items (list_uri : Str) (index : ℕ) :
    ∀ items : List Json, StateFree (buildItems list_uri index items)
  | [] => .nodes []
  | value :: rest =>
    .map₂ (stateFree_tree _ _ value) (stateFree_items list_uri (index + 1) rest) fun children nodes =>
      { uri := .parse (list_uri ++ '/' :: (Nat.repr index).toList), value, children } :: nodes

end

/-! ### What is built -/

section Built

variable {filled : Filled} {uri : SchemaURI}

theorem stateFree_member (filled : Filled) (m : Str × Json) (uri : SchemaURI) :
    StateFree (buildMember filled m uri) := by
  intro st
  unfold built
  rw [← buildKeywords_singleton, ← buildKeywords_singleton]
  exact stateFree_keywords filled uri [m] st

/-- A schema is built member by member. -/
theorem built_keywords_cons (m : Str × Json) (rest : List (Str × Json)) :
    built (buildKeywords filled (m :: rest) uri) = (built (buildMember filled m uri)).bind fun nodes =>
      (built (buildKeywords filled rest (nextUri (keywordOf m.1) m.2 uri))).bind fun nodes' =>
        .ok (nodes ++ nodes') := by
  show Except.map Prod.fst (buildKeywords filled (m :: rest) uri {}) = _
  rw [buildKeywords_cons]
  exact (stateFree_member filled m uri).built_map₂ (stateFree_keywords filled _ rest)
    fun nodes nodes' => nodes ++ nodes'

theorem built_definitions_cons {child : SchemaNode} {key : Str} (e : Str × Json) (rest : List (Str × Json)) :
    built (buildDefinitions filled child key (e :: rest) uri) =
      (built (build_schema_tree ⟨.destroyed, false⟩ e.2 (.parse (definitionUri filled key e.1 uri)))).bind
        fun children => (built (buildDefinitions filled child key rest uri)).bind fun nodes =>
          .ok ({ child with uri := .parse (definitionUri filled key e.1 uri), children } :: nodes) :=
  (stateFree_tree _ _ e.2).built_map₂ (stateFree_definitions filled child key uri rest) fun children nodes =>
    { child with uri := .parse (definitionUri filled key e.1 uri), children } :: nodes

theorem built_properties_cons (e : Str × Json) (rest : List (Str × Json)) :
    built (buildProperties uri (e :: rest)) =
      (built (build_schema_tree ⟨.destroyed, true⟩ e.2 (.parse (uri.to_string ++ '/' :: e.1)))).bind
        fun children => (built (buildProperties uri rest)).bind fun nodes =>
          .ok ({ uri := .parse (uri.to_string ++ '/' :: e.1), value := e.2, children } :: nodes) :=
  (stateFree_tree _ _ e.2).built_map₂ (stateFree_properties uri rest) fun children nodes =>
    { uri := .parse (uri.to_string ++ '/' :: e.1), value := e.2, children } :: nodes

theorem built_items_cons {list_uri : Str} {index : ℕ} (v : Json) (rest : List Json) :
    built (buildItems list_uri index (v :: rest)) =
      (built (build_schema_tree ⟨.destroyed, true⟩ v (.parse (list_uri ++ '/' :: (Nat.repr index).toList)))).bind
        fun children => (built (buildItems list_uri (index + 1) rest)).bind fun nodes =>
          .ok ({ uri := .parse (list_uri ++ '/' :: (Nat.repr index).toList), value := v, children } :: nodes) :=
  (stateFree_tree _ _ v).built_map₂ (stateFree_items list_uri (index + 1) rest) fun children nodes =>
    { uri := .parse (list_uri ++ '/' :: (Nat.repr index).toList), value := v, children } :: nodes

/-- Only `$id` is read in another way. -/
theorem ne_id_of_reading {kw : Keyword} (h : reading kw ≠ .tree) : kw ≠ .ID := by
  rintro rfl
  exact h rfl

theorem built_member_tree {key : Str} {v : Json} (hread : reading (keywordOf key) = .tree) :
    built (buildMember filled (key, v) uri) =
      (built (build_schema_tree ⟨.destroyed, false⟩ v (keywordNode filled (keywordOf key) key v uri).uri)).bind
        fun children => .ok [{ keywordNode filled (keywordOf key) key v uri with children }] := by
  unfold buildMember
  simp only [hread]
  let nodes (children : List SchemaNode) : List SchemaNode :=
    [{ keywordNode filled (keywordOf key) key v uri with children }]
  have htree := stateFree_tree ⟨.destroyed, false⟩ (keywordNode filled (keywordOf key) key v uri).uri v
  exact ((htree.map nodes).built_after _).trans (htree.built_map nodes)

theorem built_member_definitions {key : Str} {table : List (Str × Json)}
    (hread : reading (keywordOf key) = .definitions) :
    built (buildMember filled (key, .obj table) uri) =
      built (buildDefinitions filled (keywordNode filled (keywordOf key) key (.obj table) uri) key table uri) := by
  have hid : keywordOf key ≠ .ID := ne_id_of_reading (by rw [hread]; decide)
  unfold buildMember built
  simp only [nextUri_of_ne hid, enterId_of_ne hid, hread]

theorem built_member_table {key : Str} {table : List (Str × Json)} (hread : reading (keywordOf key) = .table) :
    built (buildMember filled (key, .obj table) uri) =
      (built (buildProperties (.parse (uri.to_string ++ '/' :: key)) table)).bind fun children =>
        .ok [{ uri := .parse (uri.to_string ++ '/' :: key), keyword := keywordOf key, value := .obj table,
               children }] := by
  have hid : keywordOf key ≠ .ID := ne_id_of_reading (by rw [hread]; decide)
  unfold buildMember
  simp only [nextUri_of_ne hid, enterId_of_ne hid, hread]
  exact (stateFree_properties _ table).built_map fun children =>
    [{ uri := .parse (uri.to_string ++ '/' :: key), keyword := keywordOf key, value := .obj table, children }]

theorem built_member_list {key : Str} {items : List Json} (hread : reading (keywordOf key) = .list) :
    built (buildMember filled (key, .arr items) uri) =
      built (buildItems (uri.to_string ++ '/' :: key) 0 items) := by
  have hid : keywordOf key ≠ .ID := ne_id_of_reading (by rw [hread]; decide)
  unfold buildMember built
  simp only [nextUri_of_ne hid, enterId_of_ne hid, hread]

/-- The nodes under the root of a compiled document. -/
theorem built_of_compile {schema : Json} {c : SchemaCompiler} (hc : compile schema = .ok c) :
    built (build_schema_tree ⟨.root, true⟩ schema (.parse "#".toList)) = .ok c.root_node_.children := by
  obtain ⟨⟨children, st⟩, htree, hc⟩ := bind_eq_ok.mp hc
  obtain rfl := Except.ok.inj hc
  unfold built
  rw [htree]
  rfl

end Built

/-! ### All nodes that are built -/

theorem preorders_append : ∀ nodes nodes' : List SchemaNode,
    preorders (nodes ++ nodes') = preorders nodes ++ preorders nodes'
  | [], nodes' => rfl
  | node :: nodes, nodes' => by
    rw [List.cons_append, preorders, preorders, preorders_append, List.append_assoc]

theorem preorders_singleton (node : SchemaNode) : preorders [node] = node :: preorders node.children := by
  cases node
  simp [preorders, SchemaNode.preorder]

/-- `ids_` points to no node yet. -/
def Unbound (st : BuildState) : Prop := ∀ uri node, st.ids_.find uri ≠ some (.node node)

theorem unbound_empty : Unbound {} := by
  intro uri node
  show Table.find (∅ : Table Str NodePtr) uri ≠ _
  simp

theorem Unbound.enterId {st : BuildState} (h : Unbound st) (filled : Filled) (kw : Keyword) (value : Json) :
    Unbound (enterId filled kw value st) := by
  intro uri node
  unfold JsonSchema.enterId
  split
  · show Table.find (st.ids_.emplace _ .destroyed) uri ≠ _
    rw [Table.find_emplace]
    split
    · simp
    · exact h uri node
  · exact h uri node

section All

variable {N : SchemaNode → Prop}

/-- Every node that is built, at any depth, satisfies `N`, and `ids_` points to none of them. -/
def BuildsAll (N : SchemaNode → Prop) (build : BuildState → Except Abort (List SchemaNode × BuildState)) : Prop :=
  ∀ st st' nodes, Unbound st → build st = .ok (nodes, st') → Unbound st' ∧ ∀ node ∈ preorders nodes, N node

/-- The nodes that stand for a member of a schema satisfy `N`. -/
structure MemberRule (N : SchemaNode → Prop) (filled : Filled) (key : Str) : Prop where
  node : reading (keywordOf key) = .tree ∨ reading (keywordOf key) = .definitions → ∀ value uri node_uri children,
    N { keywordNode filled (keywordOf key) key value uri with uri := node_uri, children }
  table : reading (keywordOf key) = .table → ∀ uri table children st st',
    buildProperties uri table st = .ok (children, st') →
      N { uri, keyword := keywordOf key, value := .obj table, children }

/-- The nodes below the root's own satisfy `N`, if the ones under them do. -/
structure NodeRule (N : SchemaNode → Prop) : Prop where
  entry : ∀ uri value children, N { uri, value, children }
  member : ∀ no_parent key, MemberRule N ⟨.destroyed, no_parent⟩ key

theorem buildsAll_nil : BuildsAll N fun st => .ok ([], st) := by
  intro st st' nodes hst h
  obtain ⟨rfl, rfl⟩ := Prod.mk.inj (Except.ok.inj h)
  exact ⟨hst, fun node hnode => by cases hnode⟩

/-- A node over nodes, and nodes behind it. -/
theorem all_preorders_cons {node : SchemaNode} {nodes : List SchemaNode} (h : N node)
    (hchildren : ∀ n ∈ preorders node.children, N n) (hnodes : ∀ n ∈ preorders nodes, N n) :
    ∀ n ∈ preorders (node :: nodes), N n := by
  intro n hn
  rw [show node :: nodes = [node] ++ nodes from rfl, preorders_append, preorders_singleton] at hn
  rcases List.mem_append.mp hn with hn | hn
  · rcases List.mem_cons.mp hn with rfl | hn
    · exact h
    · exact hchildren n hn
  · exact hnodes n hn

/-- A loop builds a node and goes on. -/
theorem BuildsAll.entry {build build' : BuildState → Except Abort (List SchemaNode × BuildState)}
    {node : List SchemaNode → SchemaNode} (h : BuildsAll N build) (h' : BuildsAll N build')
    (hnode : ∀ children, N (node children)) (hchildren : ∀ children, (node children).children = children) :
    BuildsAll N fun st => (build st).bind fun a => (build' a.2).bind fun b => .ok (node a.1 :: b.1, b.2) := by
  intro st st' nodes hst hrun
  obtain ⟨⟨children, st₁⟩, hbuild, hrun⟩ := bind_eq_ok.mp hrun
  obtain ⟨⟨others, st₂⟩, hbuild', hrun⟩ := bind_eq_ok.mp hrun
  obtain ⟨rfl, rfl⟩ := Prod.mk.inj (Except.ok.inj hrun)
  obtain ⟨hst₁, hunder⟩ := h _ _ _ hst hbuild
  obtain ⟨hst₂, hothers⟩ := h' _ _ _ hst₁ hbuild'
  refine ⟨hst₂, all_preorders_cons (hnode children) ?_ hothers⟩
  rw [hchildren]
  exact hunder

mutual

theorem buildsAll_tree (h : NodeRule N) (no_parent : Bool) (uri : SchemaURI) :
    ∀ value : Json, BuildsAll N (build_schema_tree ⟨.destroyed, no_parent⟩ value uri)
  | .obj members => buildsAll_keywords h _ uri members fun m _ => h.member no_parent m.1
  | .null | .bool _ | .int _ | .double _ | .str _ | .arr _ => buildsAll_nil

/-- The rule for the members of a schema, which may be the root. -/
theorem buildsAll_keywords (h : NodeRule N) (filled : Filled) (uri : SchemaURI) :
    ∀ members : List (Str × Json), (∀ m ∈ members, MemberRule N filled m.1) →
      BuildsAll N (buildKeywords filled members uri)
  | [], _ => buildsAll_nil
  | (key, value) :: rest, hmembers => by
    have hkey : MemberRule N filled key := hmembers _ (List.mem_cons_self ..)
    have hmember : BuildsAll N (buildMember filled (key, value) uri) := by
      intro st st' nodes hst hrun
      have hst := hst.enterId filled (keywordOf key) value
      unfold buildMember at hrun
      dsimp only at hrun
      cases hreading : reading (keywordOf key) with
      | skipped =>
        rw [hreading] at hrun
        exact buildsAll_nil _ _ _ hst hrun
      | definitions =>
        rw [hreading] at hrun
        cases value with
        | obj table =>
          exact buildsAll_definitions h filled (hkey.node (.inr hreading) _ _) key _ table _ _ _ hst hrun
        | _ => cases hrun
      | table =>
        rw [hreading] at hrun
        cases value with
        | obj table =>
          obtain ⟨⟨children, st₁⟩, hchildren, hrun⟩ := bind_eq_ok.mp hrun
          obtain ⟨rfl, rfl⟩ := Prod.mk.inj (Except.ok.inj hrun)
          obtain ⟨hst₁, hunder⟩ := buildsAll_properties h _ table _ _ _ hst hchildren
          exact ⟨hst₁, all_preorders_cons (hkey.table hreading _ _ _ _ _ hchildren) hunder (by simp [preorders])⟩
        | _ => cases hrun
      | list =>
        rw [hreading] at hrun
        cases value with
        | arr items => exact buildsAll_items h _ 0 items _ _ _ hst hrun
        | _ => cases hrun
      | tree =>
        rw [hreading] at hrun
        obtain ⟨⟨children, st₁⟩, hchildren, hrun⟩ := bind_eq_ok.mp hrun
        obtain ⟨rfl, rfl⟩ := Prod.mk.inj (Except.ok.inj hrun)
        obtain ⟨hst₁, hunder⟩ := buildsAll_tree h _ _ value _ _ _ hst hchildren
        exact ⟨hst₁, all_preorders_cons (hkey.node (.inl hreading) value uri _ _) hunder (by simp [preorders])⟩
    intro st st' nodes hst hrun
    rw [buildKeywords_cons] at hrun
    obtain ⟨⟨first, st₁⟩, hfirst, hrun⟩ := bind_eq_ok.mp hrun
    obtain ⟨⟨others, st₂⟩, hothers, hrun⟩ := bind_eq_ok.mp hrun
    obtain ⟨rfl, rfl⟩ := Prod.mk.inj (Except.ok.inj hrun)
    obtain ⟨hst₁, hfirst⟩ := hmember _ _ _ hst hfirst
    obtain ⟨hst₂, hothers⟩ := buildsAll_keywords h filled _ rest (fun m hm => hmembers m (List.mem_cons_of_mem _ hm))
      _ _ _ hst₁ hothers
    refine ⟨hst₂, fun node hnode => ?_⟩
    rw [preorders_append] at hnode
    exact (List.mem_append.mp hnode).elim (hfirst node) (hothers node)

theorem buildsAll_definitions (h : NodeRule N) (filled : Filled) {child : SchemaNode}
    (hchild : ∀ uri children, N { child with uri, children }) (key : Str) (uri : SchemaURI) :
    ∀ table : List (Str × Json), BuildsAll N (buildDefinitions filled child key table uri)
  | [] => buildsAll_nil
  | (_, value) :: rest =>
    .entry (buildsAll_tree h _ _ value) (buildsAll_definitions h filled hchild key uri rest) (hchild _) fun _ => rfl

theorem buildsAll_properties (h : NodeRule N) (kw_uri : SchemaURI) :
    ∀ table : List (Str × Json), BuildsAll N (buildProperties kw_uri table)
  | [] => buildsAll_nil
  | (_, value) :: rest =>
    .entry (buildsAll_tree h _ _ value) (buildsAll_properties h kw_uri rest) (h.entry _ value) fun _ => rfl

theorem buildsAll_items (h : NodeRule N) (list_uri : Str) (index : ℕ) :
    ∀ items : List Json, BuildsAll N (buildItems list_uri index items)
  | [] => buildsAll_nil
  | value :: rest =>
    .entry (buildsAll_tree h _ _ value) (buildsAll_items h list_uri (index + 1) rest) (h.entry _ value) fun _ => rfl

end

theorem all_of_build (h : NodeRule N) {schema : Json}
    (hmembers : ∀ members, schema = .obj members → ∀ m ∈ members, MemberRule N ⟨.root, true⟩ m.1) (uri : SchemaURI) :
    BuildsAll N (build_schema_tree ⟨.root, true⟩ schema uri) := by
  cases schema with
  | obj members => exact buildsAll_keywords h _ _ members (hmembers members rfl)
  | _ => exact buildsAll_nil

/-- Building leaves `ids_` without nodes. -/
theorem unbound_of_build {schema : Json} {uri : SchemaURI} {st st' : BuildState} {nodes : List SchemaNode}
    (hbuild : build_schema_tree ⟨.root, true⟩ schema uri st = .ok (nodes, st')) (hst : Unbound st) : Unbound st' := by
  have hmember : ∀ filled key, MemberRule (fun _ => True) filled key := fun _ _ => ⟨by simp, by simp⟩
  have hrule : NodeRule fun _ => True := ⟨fun _ _ _ => trivial, fun _ key => hmember _ key⟩
  exact (all_of_build hrule (fun _ _ m _ => hmember _ m.1) uri _ _ _ hst hbuild).1

/-- All nodes of a compiled document, except for the root. -/
theorem all_of_compile (h : NodeRule N) {schema : Json} {c : SchemaCompiler} (hc : compile schema = .ok c)
    (hmembers : ∀ members, schema = .obj members → ∀ m ∈ members, MemberRule N ⟨.root, true⟩ m.1) :
    ∀ node ∈ preorders c.root_node_.children, N node := by
  obtain ⟨⟨children, st⟩, htree, hc⟩ := bind_eq_ok.mp hc
  obtain rfl := Except.ok.inj hc
  exact (all_of_build h hmembers _ _ _ _ unbound_empty htree).2

end All

/-! ### When a schema is built -/

mutual

/-- In a value that is read so, tables are objects and lists are arrays. -/
def readableIn : Reading → Json → Bool
  | .tree, .obj members => readableMembers members
  | .definitions, .obj table => readableTable table
  | .table, .obj table => readableTable table
  | .list, .arr items => readableItems items
  | .definitions, _ | .table, _ | .list, _ => false
  | .tree, _ | .skipped, _ => true

def readableMembers : List (Str × Json) → Bool
  | [] => true
  | (key, value) :: rest => readableIn (reading (keywordOf key)) value && readableMembers rest

def readableTable : List (Str × Json) → Bool
  | [] => true
  | (_, value) :: rest => readableIn .tree value && readableTable rest

def readableItems : List Json → Bool
  | [] => true
  | value :: rest => readableIn .tree value && readableItems rest

end

/-- In a schema, tables are objects and lists are arrays. -/
def Readable (schema : Json) : Prop := readableIn .tree schema

instance (schema : Json) : Decidable (Readable schema) := inferInstanceAs (Decidable (readableIn .tree schema = true))

theorem isOk_bind_ok {r : Except Abort (List SchemaNode)} {f : List SchemaNode → List SchemaNode} :
    (r.bind fun nodes => .ok (f nodes)).isOk = r.isOk := by
  cases r <;> rfl

theorem isOk_bind₂ {r r' : Except Abort (List SchemaNode)}
    {f : List SchemaNode → List SchemaNode → List SchemaNode} :
    (r.bind fun nodes => r'.bind fun nodes' => .ok (f nodes nodes')).isOk = (r.isOk && r'.isOk) := by
  cases r <;> cases r' <;> rfl

mutual

theorem isOk_tree : ∀ (value : Json) (filled : Filled) (uri : SchemaURI),
    (built (build_schema_tree filled value uri)).isOk = readableIn .tree value
  | .obj members, filled, uri => isOk_keywords members filled uri
  | .null, _, _ | .bool _, _, _ | .int _, _, _ | .double _, _, _ | .str _, _, _ | .arr _, _, _ => rfl

theorem isOk_keywords : ∀ (members : List (Str × Json)) (filled : Filled) (uri : SchemaURI),
    (built (buildKeywords filled members uri)).isOk = readableMembers members
  | [], _, _ => rfl
  | (key, value) :: rest, filled, uri => by
    have hmember : (built (buildMember filled (key, value) uri)).isOk =
        readableIn (reading (keywordOf key)) value := by
      cases hread : reading (keywordOf key) with
      | skipped => simp [built, buildMember, hread, readableIn, Except.map, Except.isOk, Except.toBool]
      | definitions =>
        cases value with
        | obj table =>
          rw [built_member_definitions hread, isOk_definitions table]
          rfl
        | _ => simp [built, buildMember, hread, readableIn, Except.map, Except.isOk, Except.toBool]
      | table =>
        cases value with
        | obj table =>
          rw [built_member_table hread, isOk_bind_ok, isOk_properties table]
          rfl
        | _ => simp [built, buildMember, hread, readableIn, Except.map, Except.isOk, Except.toBool]
      | list =>
        cases value with
        | arr items =>
          rw [built_member_list hread, isOk_items items]
          rfl
        | _ => simp [built, buildMember, hread, readableIn, Except.map, Except.isOk, Except.toBool]
      | tree => rw [built_member_tree hread, isOk_bind_ok, isOk_tree value]
    rw [built_keywords_cons, isOk_bind₂, hmember, isOk_keywords rest, readableMembers]

theorem isOk_definitions : ∀ (table : List (Str × Json)) {filled : Filled} {child : SchemaNode} {key : Str}
    {uri : SchemaURI}, (built (buildDefinitions filled child key table uri)).isOk = readableTable table
  | [], _, _, _, _ => rfl
  | (_, value) :: rest, _, _, _, _ => by
    rw [built_definitions_cons, isOk_bind₂, isOk_tree value, isOk_definitions rest, readableTable]

theorem isOk_properties : ∀ (table : List (Str × Json)) {kw_uri : SchemaURI},
    (built (buildProperties kw_uri table)).isOk = readableTable table
  | [], _ => rfl
  | (_, value) :: rest, _ => by
    rw [built_properties_cons, isOk_bind₂, isOk_tree value, isOk_properties rest, readableTable]

theorem isOk_items : ∀ (items : List Json) {list_uri : Str} {index : ℕ},
    (built (buildItems list_uri index items)).isOk = readableItems items
  | [], _, _ => rfl
  | value :: rest, _, _ => by
    rw [built_items_cons, isOk_bind₂, isOk_tree value, isOk_items rest, readableItems]

end

/-- **When a schema can be compiled**: all that can go wrong is a table that is no object, or a list that is
no array. -/
theorem exists_compile_iff {schema : Json} : (∃ c, compile schema = .ok c) ↔ Readable schema := by
  unfold Readable compile
  rw [← isOk_tree schema ⟨.root, true⟩ (.parse "#".toList), built]
  show (∃ c, Except.bind (build_schema_tree ⟨.root, true⟩ schema (.parse "#".toList) {}) _ = .ok c) ↔ _
  cases build_schema_tree ⟨.root, true⟩ schema (.parse "#".toList) {} with
  | error a => exact iff_of_false (fun ⟨_, h⟩ => by cases h) (fun h => by cases h)
  | ok r => exact iff_of_true ⟨_, rfl⟩ rfl

end Siesta.JsonSchema
