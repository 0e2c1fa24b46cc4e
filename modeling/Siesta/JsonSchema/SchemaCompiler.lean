import Siesta.JsonSchema.SchemaTypes

/-!
# Compiling a schema: `compile`, `build_schema_tree`, `collect_anchors`, `find_ref`

`build_schema_tree` makes a node of every known keyword of a schema, except that the alternatives of
`allOf`, `anyOf`, `oneOf` and `prefixItems` become nodes themselves, without one for the keyword, and
so do the definitions.
-/

namespace Siesta.JsonSchema

open Lib

/-- The members of the compiler that `build_schema_tree` writes to besides the node it fills. -/
structure BuildState where
  ids_ : Table Str NodePtr := ∅
  /-- `root_node_.uri.base`. -/
  root_base : Str := []

/-- The node `build_schema_tree` fills: the address its children get, and whether it has no parent
itself. -/
structure Filled where
  address : Parent
  no_parent : Bool

def keywordNode (filled : Filled) (kw : Keyword) (key : Str) (value : Json) (uri : SchemaURI) : SchemaNode :=
  let child : SchemaNode :=
    { uri := .parse (uri.to_string ++ '/' :: key), keyword := kw, value, parent := filled.address }
  match kw, value with
  | .ID, .str id_value => { child with id := id_value }
  | .Anchor, .str anchor_value =>
    { child with
      anchor := '#' :: anchor_value
      uri := { child.uri with fragment := '#' :: anchor_value } }
  | .DynamicAnchor, .str anchor_value => { child with dynamic_anchor := '#' :: anchor_value }
  | _, _ => child

/-- The URI the rest of a schema is read under, after one of its keywords. -/
def nextUri (kw : Keyword) (value : Json) (uri : SchemaURI) : SchemaURI :=
  match kw, value with
  | .ID, .str id_value => .parse id_value
  | _, _ => uri

/-- What `$id` writes. -/
def enterId (filled : Filled) (kw : Keyword) (value : Json) (st : BuildState) : BuildState :=
  match kw, value with
  | .ID, .str id_value =>
    { ids_ := st.ids_.emplace id_value .destroyed
      root_base := if filled.no_parent then id_value else st.root_base }
  | _, _ => st

def definitionUri (filled : Filled) (key def_name : Str) (uri : SchemaURI) : Str :=
  if !uri.base.isEmpty && uri.fragment.isEmpty && filled.no_parent then
    uri.base ++ "#/definitions/".toList ++ def_name
  else uri.to_string ++ '/' :: key ++ '/' :: def_name

mutual

/-- `build_schema_tree`: the children it adds to the node it fills. -/
def build_schema_tree (filled : Filled) : Json → SchemaURI → BuildState →
    Except Abort (List SchemaNode × BuildState)
  | .obj members, uri, st => buildKeywords filled members uri st
  | _, _, st => .ok ([], st)

def buildKeywords (filled : Filled) : List (Str × Json) → SchemaURI → BuildState →
    Except Abort (List SchemaNode × BuildState)
  | [], _, st => .ok ([], st)
  | (key, value) :: rest, uri, st =>
    let kw := keywordOf key
    if kw = .Unknown then buildKeywords filled rest uri st
    else do
      let child := keywordNode filled kw key value uri
      let uri := nextUri kw value uri
      let st := enterId filled kw value st
      let (nodes, st) ←
        match kw with
        | .Defs | .Definitions =>
          match value with
          | .obj defs => buildDefinitions filled child key defs uri st
          | _ => .error .exception
        | .Properties | .PatternProperties | .DependentRequired | .DependentSchemas =>
          match value with
          | .obj props => do
            let kw_uri := SchemaURI.parse (uri.to_string ++ '/' :: key)
            let (children, st) ← buildProperties kw_uri props st
            .ok ([{ uri := kw_uri, keyword := kw, value, children }], st)
          | _ => .error .exception
        | .AllOf | .AnyOf | .OneOf | .PrefixItems =>
          match value with
          | .arr items => buildItems (uri.to_string ++ '/' :: key) 0 items st
          | _ => .error .exception
        | _ => do
          -- the applicators test for an object, the other keywords do the same
          let (children, st) ← build_schema_tree ⟨.destroyed, false⟩ value child.uri st
          .ok ([{ child with children }], st)
      let (nodes', st) ← buildKeywords filled rest uri st
      .ok (nodes ++ nodes', st)

/-- The loop over definitions.  They are moved out of one `child`, so that each has its keyword and
its value. -/
def buildDefinitions (filled : Filled) (child : SchemaNode) (key : Str) :
    List (Str × Json) → SchemaURI → BuildState → Except Abort (List SchemaNode × BuildState)
  | [], _, st => .ok ([], st)
  | (def_name, value) :: rest, uri, st => do
    let def_uri := SchemaURI.parse (definitionUri filled key def_name uri)
    let (children, st) ← build_schema_tree ⟨.destroyed, false⟩ value def_uri st
    let (nodes, st) ← buildDefinitions filled child key rest uri st
    .ok ({ child with uri := def_uri, children } :: nodes, st)

/-- The loop over the members of `properties` and its like. -/
def buildProperties (kw_uri : SchemaURI) : List (Str × Json) → BuildState →
    Except Abort (List SchemaNode × BuildState)
  | [], st => .ok ([], st)
  | (prop_name, value) :: rest, st => do
    let uri := SchemaURI.parse (kw_uri.to_string ++ '/' :: prop_name)
    let (children, st) ← build_schema_tree ⟨.destroyed, true⟩ value uri st
    let (nodes, st) ← buildProperties kw_uri rest st
    .ok ({ uri, value, children } :: nodes, st)

def buildItems (list_uri : Str) (index : ℕ) : List Json → BuildState →
    Except Abort (List SchemaNode × BuildState)
  | [], st => .ok ([], st)
  | value :: rest, st => do
    let uri := SchemaURI.parse (list_uri ++ '/' :: (Nat.repr index).toList)
    let (children, st) ← build_schema_tree ⟨.destroyed, true⟩ value uri st
    let (nodes, st) ← buildItems list_uri (index + 1) rest st
    .ok ({ uri, value, children } :: nodes, st)

end

/-! ### The tables -/

mutual

/-- A node and all nodes under it, in the order `collect_anchors` comes to them. -/
def SchemaNode.preorder : SchemaNode → List SchemaNode
  | ⟨uri, id, anchor, dynamic_anchor, keyword, value, children, parent⟩ =>
    ⟨uri, id, anchor, dynamic_anchor, keyword, value, children, parent⟩ :: preorders children

def preorders : List SchemaNode → List SchemaNode
  | [] => []
  | n :: ns => n.preorder ++ preorders ns

end

/-- `anchors_` and `ids_`. -/
structure Anchors where
  anchors_ : Table Str SchemaNode := ∅
  ids_ : Table Str NodePtr := ∅

/-- What `collect_anchors` enters for one node. -/
def collectNode (tables : Anchors) (node : SchemaNode) : Anchors :=
  let uri := node.uri.to_string
  let anchors_ := if node.anchor ≠ [] then tables.anchors_.emplace uri node else tables.anchors_
  let ids_ := if node.id ≠ [] then tables.ids_.emplace node.id (.node node) else tables.ids_
  let anchors_ := if node.dynamic_anchor ≠ [] then anchors_.emplace node.dynamic_anchor node else anchors_
  { anchors_ := anchors_.emplace uri node, ids_ }

/-- `collect_anchors`. -/
def collect_anchors (node : SchemaNode) (tables : Anchors) : Anchors :=
  node.preorder.foldl collectNode tables

/-- A `SchemaCompiler` whose schema has been compiled. -/
structure SchemaCompiler where
  root_node_ : SchemaNode
  tables : Anchors

/-- `compile`, of a document that could be parsed. -/
def compile (root : Json) : Except Abort SchemaCompiler := do
  let uri := SchemaURI.parse "#".toList
  let (children, st) ← build_schema_tree ⟨.root, true⟩ root uri {}
  let root_node_ : SchemaNode :=
    { uri := { uri with base := st.root_base }, keyword := .Schema, value := root, children }
  .ok { root_node_, tables := collect_anchors root_node_ { ids_ := st.ids_ } }

theorem compile_of_build {root : Json} {nodes : List SchemaNode} {st : BuildState}
    (h : build_schema_tree ⟨.root, true⟩ root (.parse "#".toList) {} = .ok (nodes, st)) :
    ∃ c, compile root = .ok c ∧ c.root_node_.keyword = .Schema ∧ c.root_node_.children = nodes := by
  unfold compile
  simp only [h]
  exact ⟨_, rfl, rfl, rfl⟩

namespace SchemaCompiler

/-- `find_ref`. -/
def find_ref (c : SchemaCompiler) (ref_uri : Str) : Option NodePtr :=
  ((c.tables.anchors_.find ref_uri).map .node).or <|
  (c.tables.ids_.find ref_uri).or <|
  if '#' ∈ ref_uri then
    let fragment := ref_uri.dropWhile (fun c => c ≠ '#')
    ((c.tables.anchors_.find fragment).map .node).or <|
    if c.root_node_.uri.base ≠ [] then
      (c.tables.anchors_.find (c.root_node_.uri.base ++ fragment)).map .node
    else none
  else none

end SchemaCompiler

end Siesta.JsonSchema
