import Siesta.JsonSchema.KeyOrder
import Siesta.Lib.Hierarchy
import Std.Data.String.ToNat
import Mathlib.Data.List.Range

/-!
# The URIs of nodes

Without `$id` and `$anchor`, the URI of a node is the URI of the node above it, a keyword, and the name or
the position of its schema, with a `/` before each.  So the nodes of a document lie in a hierarchy
(`placed_tree`), and `find_ref` finds each of them under its URI (`find_ref_uri`).
-/

namespace Siesta.JsonSchema

open Lib

/-! ### Documents without identifiers and slashes -/

/-- The keywords that give a node another name than its place. -/
def identifiers : List Keyword := [.ID, .Anchor, .DynamicAnchor]

mutual

/-- In a value that is read so, `build_schema_tree` comes across no identifier, no object with a key twice,
and no name with a `/`. -/
def addressableIn : Reading → Json → Bool
  | .tree, .obj members => (Record.keys members).Nodup && addressableMembers members
  | .definitions, .obj table => (Record.keys table).Nodup && addressableTable table
  | .table, .obj table => (Record.keys table).Nodup && addressableTable table
  | .list, .arr items => addressableItems items
  | _, _ => true

def addressableMembers : List (Str × Json) → Bool
  | [] => true
  | (key, value) :: rest =>
    keywordOf key ∉ identifiers && addressableIn (reading (keywordOf key)) value && addressableMembers rest

def addressableTable : List (Str × Json) → Bool
  | [] => true
  | (name, value) :: rest => '/' ∉ name && addressableIn .tree value && addressableTable rest

def addressableItems : List Json → Bool
  | [] => true
  | value :: rest => addressableIn .tree value && addressableItems rest

end

/-- A schema without `$id`, `$anchor` and `$dynamicAnchor`, whose names have no `/`. -/
def Addressable (schema : Json) : Prop := addressableIn .tree schema

theorem addressableMembers_cons {m : Str × Json} {rest : List (Str × Json)} (h : addressableMembers (m :: rest)) :
    keywordOf m.1 ∉ identifiers ∧ addressableIn (reading (keywordOf m.1)) m.2 ∧ addressableMembers rest := by
  rw [addressableMembers, Bool.and_eq_true, Bool.and_eq_true, decide_eq_true_eq] at h
  exact ⟨h.1.1, h.1.2, h.2⟩

theorem addressableTable_cons {name : Str} {value : Json} {rest : List (Str × Json)}
    (h : addressableTable ((name, value) :: rest)) :
    '/' ∉ name ∧ addressableIn .tree value ∧ addressableTable rest := by
  rw [addressableTable, Bool.and_eq_true, Bool.and_eq_true, decide_eq_true_eq] at h
  exact ⟨h.1.1, h.1.2, h.2⟩

theorem addressable_obj {r : Reading} (hr : r = .definitions ∨ r = .table) {table : List (Str × Json)}
    (h : addressableIn r (.obj table)) : (Record.keys table).Nodup ∧ addressableTable table := by
  rcases hr with rfl | rfl <;> rwa [addressableIn, Bool.and_eq_true, decide_eq_true_eq] at h

/-! ### Segments -/

theorem slash_notMem_keyword {key : Str} (h : keywordOf key ≠ .Unknown) : '/' ∉ key := by
  have htexts : ∀ e ∈ keywordTexts, '/' ∉ e.1 := by decide
  unfold keywordOf at h
  cases hlookup : keywordTexts.lookup key with
  | none =>
    rw [hlookup] at h
    exact absurd rfl h
  | some kw =>
    obtain ⟨e, he, hkey⟩ : ∃ e ∈ keywordTexts, key = e.1 := by
      obtain ⟨l₁, l₂, hl, -⟩ := List.lookup_eq_some_iff.mp hlookup
      exact ⟨(key, kw), by rw [hl]; simp, rfl⟩
    rw [hkey]
    exact htexts e he

/-- The segment of a position in a list. -/
def indexText (index : ℕ) : Str := (Nat.repr index).toList

theorem indexText_injective : Function.Injective indexText := fun _ _ h =>
  Nat.repr_injective (String.toList_injective h)

theorem slash_notMem_indexText (index : ℕ) : '/' ∉ indexText index := by
  intro h
  have hdigit : ('/' : Char).isDigit := Nat.isDigit_of_mem_toDigits (b := 10) (by omega) (by omega)
    (by simpa [indexText, Nat.repr] using h)
  exact absurd hdigit (by decide)

/-! ### Nodes with their addresses -/

/-- The URIs of the nodes and of all nodes under them. -/
def addresses (nodes : List SchemaNode) : List Str := (preorders nodes).map fun node => node.uri.to_string

/-- A node that is registered under its URI only. -/
def Unnamed (node : SchemaNode) : Prop := node.anchor = [] ∧ node.dynamic_anchor = []

/-- The nodes lie within segments of a place, each under a URI of its own and no other name. -/
structure Located (place : Str) (segments : List Str) (nodes : List SchemaNode) : Prop where
  placed : Placed '/' place segments (addresses nodes)
  unnamed : ∀ node ∈ preorders nodes, Unnamed node

namespace Located

variable {place segment : Str} {segments segments' : List Str} {nodes nodes' : List SchemaNode}

theorem nil : Located place segments [] := ⟨.nil, by simp [preorders]⟩

theorem lift (h : Located (place ++ '/' :: segment) segments nodes) (hslash : '/' ∉ segment) :
    Located place [segment] nodes := ⟨h.placed.lift hslash, h.unnamed⟩

theorem node {node : SchemaNode} (huri : node.uri.to_string = place ++ '/' :: segment) (hslash : '/' ∉ segment)
    (hnode : Unnamed node) (h : Located node.uri.to_string segments node.children) :
    Located place [segment] [node] := by
  have hpreorder : preorders [node] = node :: preorders node.children := preorders_singleton node
  constructor
  · unfold addresses
    rw [hpreorder, List.map_cons, huri]
    rw [huri] at h
    exact h.placed.cons_place hslash
  · rw [hpreorder]
    intro n hn
    rcases List.mem_cons.mp hn with rfl | hn
    · exact hnode
    · exact h.unnamed n hn

theorem append (h : Located place segments nodes) (h' : Located place segments' nodes')
    (hdisjoint : List.Disjoint segments segments') : Located place (segments ++ segments') (nodes ++ nodes') := by
  constructor
  · unfold addresses
    rw [preorders_append, List.map_append]
    exact h.placed.append h'.placed hdisjoint
  · rw [preorders_append]
    intro n hn
    rcases List.mem_append.mp hn with hn | hn
    · exact h.unnamed n hn
    · exact h'.unnamed n hn

/-- The nodes of one more segment, before the others. -/
theorem cons (h : Located place [segment] nodes) (h' : Located place segments nodes') (hnotMem : segment ∉ segments) :
    Located place (segment :: segments) (nodes ++ nodes') := by
  refine h.append h' fun s hs hs' => ?_
  obtain rfl := List.mem_singleton.mp hs
  exact hnotMem hs'

end Located

/-! ### The URIs of a tree -/

def Local (uri : SchemaURI) : Prop := ∃ rest, uri = .parse ('#' :: rest)

theorem Local.below {uri : SchemaURI} (h : Local uri) (rest : Str) : Local (.parse (uri.to_string ++ rest)) := by
  obtain ⟨fragment, rfl⟩ := h
  rw [SchemaURI.to_string_parse]
  exact ⟨fragment ++ rest, rfl⟩

theorem Local.definitionUri {uri : SchemaURI} (h : Local uri) (filled : Filled) (key def_name : Str) :
    definitionUri filled key def_name uri = uri.to_string ++ '/' :: key ++ '/' :: def_name := by
  obtain ⟨fragment, rfl⟩ := h
  rfl

theorem keywordNode_located {kw : Keyword} (h : kw ∉ identifiers) (filled : Filled) (key : Str) (value : Json)
    (uri : SchemaURI) :
    (keywordNode filled kw key value uri).uri = .parse (uri.to_string ++ '/' :: key) ∧
      Unnamed (keywordNode filled kw key value uri) := by
  unfold keywordNode
  split
  · exact absurd (by simp [identifiers]) h
  · exact absurd (by simp [identifiers]) h
  · exact absurd (by simp [identifiers]) h
  · exact ⟨rfl, rfl, rfl⟩

/-- A program of `build_schema_tree` leaves the tables as they are and builds nodes within the segments. -/
def Locates (place : Str) (segments : List Str)
    (build : BuildState → Except Abort (List SchemaNode × BuildState)) : Prop :=
  ∀ st st' nodes, build st = .ok (nodes, st') → st' = st ∧ Located place segments nodes

theorem locates_nil (place : Str) (segments : List Str) : Locates place segments fun st => .ok ([], st) := by
  intro st st' nodes h
  obtain ⟨rfl, rfl⟩ := Prod.mk.inj (Except.ok.inj h)
  exact ⟨rfl, .nil⟩

theorem locates_error (place : Str) (segments : List Str) (a : Abort) :
    Locates place segments fun _ => .error a := by
  intro st st' nodes h
  cases h

/-- What is built for one segment, and then for the others. -/
theorem Locates.cons {place segment : Str} {segments : List Str}
    {build build' : BuildState → Except Abort (List SchemaNode × BuildState)}
    (h : Locates place [segment] build) (h' : Locates place segments build') (hnotMem : segment ∉ segments) :
    Locates place (segment :: segments) fun st =>
      (build st).bind fun a => (build' a.2).bind fun b => .ok (a.1 ++ b.1, b.2) := by
  intro st st' nodes hrun
  obtain ⟨⟨first, st₁⟩, hfirst, hrun⟩ := bind_eq_ok.mp hrun
  obtain ⟨⟨rest, st₂⟩, hrest, hrun⟩ := bind_eq_ok.mp hrun
  obtain ⟨rfl, rfl⟩ := Prod.mk.inj (Except.ok.inj hrun)
  obtain ⟨rfl, hlocated⟩ := h _ _ _ hfirst
  obtain ⟨rfl, hlocated'⟩ := h' _ _ _ hrest
  exact ⟨rfl, hlocated.cons hlocated' hnotMem⟩

/-- A node at a segment, around the nodes that are built for it. -/
theorem Locates.node {place segment : Str} {segments : List Str}
    {build : BuildState → Except Abort (List SchemaNode × BuildState)} (node : SchemaNode)
    (huri : node.uri.to_string = place ++ '/' :: segment) (hslash : '/' ∉ segment) (hnode : Unnamed node)
    (h : Locates node.uri.to_string segments build) :
    Locates place [segment] fun st => (build st).bind fun a => .ok ([{ node with children := a.1 }], a.2) := by
  intro st st' nodes hrun
  obtain ⟨⟨children, st₁⟩, hchildren, hrun⟩ := bind_eq_ok.mp hrun
  obtain ⟨rfl, rfl⟩ := Prod.mk.inj (Except.ok.inj hrun)
  obtain ⟨rfl, hlocated⟩ := h _ _ _ hchildren
  exact ⟨rfl, .node huri hslash hnode hlocated⟩

/-- The same, with the nodes of the other segments behind it. -/
theorem Locates.cons_node {place segment : Str} {segments segments' : List Str}
    {build build' : BuildState → Except Abort (List SchemaNode × BuildState)} (node : SchemaNode)
    (huri : node.uri.to_string = place ++ '/' :: segment) (hslash : '/' ∉ segment) (hnode : Unnamed node)
    (h : Locates node.uri.to_string segments build) (h' : Locates place segments' build')
    (hnotMem : segment ∉ segments') :
    Locates place (segment :: segments') fun st => (build st).bind fun a =>
      (build' a.2).bind fun b => .ok ({ node with children := a.1 } :: b.1, b.2) := by
  intro st st' nodes hrun
  obtain ⟨⟨children, st₁⟩, hchildren, hrun⟩ := bind_eq_ok.mp hrun
  obtain ⟨⟨rest, st₂⟩, hrest, hrun⟩ := bind_eq_ok.mp hrun
  obtain ⟨rfl, rfl⟩ := Prod.mk.inj (Except.ok.inj hrun)
  obtain ⟨rfl, hlocated⟩ := h _ _ _ hchildren
  obtain ⟨rfl, hlocated'⟩ := h' _ _ _ hrest
  have hfirst : Located place [segment] [{ node with children }] := .node huri hslash hnode hlocated
  exact ⟨rfl, hfirst.cons hlocated' hnotMem⟩

theorem Locates.lift {place segment : Str} {segments : List Str}
    {build : BuildState → Except Abort (List SchemaNode × BuildState)}
    (h : Locates (place ++ '/' :: segment) segments build) (hslash : '/' ∉ segment) :
    Locates place [segment] build := by
  intro st st' nodes hrun
  obtain ⟨rfl, hlocated⟩ := h _ _ _ hrun
  exact ⟨rfl, hlocated.lift hslash⟩

mutual

theorem locates_tree (filled : Filled) {uri : SchemaURI} (huri : Local uri) :
    ∀ {value : Json}, addressableIn .tree value →
      ∃ segments, Locates uri.to_string segments (build_schema_tree filled value uri)
  | .obj members, h => by
    rw [addressableIn, Bool.and_eq_true, decide_eq_true_eq] at h
    exact ⟨Record.keys members, locates_keywords filled huri h.1 h.2⟩
  | .null, _ | .bool _, _ | .int _, _ | .double _, _ | .str _, _ | .arr _, _ => ⟨[], locates_nil _ _⟩

theorem locates_keywords (filled : Filled) {uri : SchemaURI} (huri : Local uri) :
    ∀ {members : List (Str × Json)}, (Record.keys members).Nodup → addressableMembers members →
      Locates uri.to_string (Record.keys members) (buildKeywords filled members uri)
  | [], _, _ => locates_nil _ _
  | (key, value) :: rest, hkeys, h => by
    obtain ⟨hid, hvalue, hrest⟩ := addressableMembers_cons h
    rw [Record.keys_cons, List.nodup_cons] at hkeys
    have hne : keywordOf key ≠ .ID := fun h => hid (by simp [h, identifiers])
    obtain ⟨hnode, hunnamed⟩ := keywordNode_located hid filled key value uri
    have hplace : (keywordNode filled (keywordOf key) key value uri).uri.to_string = uri.to_string ++ '/' :: key := by
      rw [hnode, SchemaURI.to_string_parse]
    have hmember : Locates uri.to_string [key] (buildMember filled (key, value) uri) := by
      unfold buildMember
      simp only [nextUri_of_ne hne, enterId_of_ne hne]
      by_cases hknown : keywordOf key = .Unknown
      · rw [hknown]
        exact locates_nil _ _
      have hslash : '/' ∉ key := slash_notMem_keyword hknown
      cases hreading : reading (keywordOf key) with
      | skipped => exact locates_nil _ _
      | definitions =>
        rw [hreading] at hvalue
        cases value with
        | obj table =>
          obtain ⟨hnames, htable⟩ := addressable_obj (.inl rfl) hvalue
          exact (locates_definitions filled huri hunnamed hnames htable).lift hslash
        | _ => exact locates_error _ _ _
      | table =>
        rw [hreading] at hvalue
        cases value with
        | obj table =>
          obtain ⟨hnames, htable⟩ := addressable_obj (.inr rfl) hvalue
          exact Locates.node { uri := .parse (uri.to_string ++ '/' :: key), keyword := _, value := _ }
            (SchemaURI.to_string_parse _) hslash ⟨rfl, rfl⟩
            (locates_properties (huri.below ('/' :: key)) hnames htable)
        | _ => exact locates_error _ _ _
      | list =>
        rw [hreading] at hvalue
        cases value with
        | arr items => exact (locates_items (huri.below ('/' :: key)) 0 hvalue).lift hslash
        | _ => exact locates_error _ _ _
      | tree =>
        rw [hreading] at hvalue
        have hlocal : Local (keywordNode filled (keywordOf key) key value uri).uri := by
          rw [hnode]
          exact huri.below _
        obtain ⟨segments, htree⟩ := locates_tree ⟨.destroyed, false⟩ hlocal hvalue
        exact Locates.node _ hplace hslash hunnamed htree
    have hkeywords := hmember.cons (locates_keywords filled huri hkeys.2 hrest) hkeys.1
    intro st st' nodes hrun
    rw [buildKeywords_cons, nextUri_of_ne hne] at hrun
    exact hkeywords st st' nodes hrun

theorem locates_definitions (filled : Filled) {uri : SchemaURI} (huri : Local uri) {child : SchemaNode}
    (hchild : Unnamed child) {key : Str} :
    ∀ {table : List (Str × Json)}, (Record.keys table).Nodup → addressableTable table →
      Locates (uri.to_string ++ '/' :: key) (Record.keys table) (buildDefinitions filled child key table uri)
  | [], _, _ => locates_nil _ _
  | (def_name, value) :: rest, hnames, h => by
    obtain ⟨hslash, hvalue, hrest⟩ := addressableTable_cons h
    rw [Record.keys_cons, List.nodup_cons] at hnames
    have hplace := huri.definitionUri filled key def_name
    have hlocal : Local (.parse (definitionUri filled key def_name uri)) := by
      rw [hplace, List.append_assoc]
      exact huri.below _
    obtain ⟨segments, htree⟩ := locates_tree ⟨.destroyed, false⟩ hlocal hvalue
    exact Locates.cons_node { child with uri := .parse (definitionUri filled key def_name uri) }
      ((SchemaURI.to_string_parse _).trans hplace) hslash hchild htree
      (locates_definitions filled huri hchild hnames.2 hrest) hnames.1

theorem locates_properties {kw_uri : SchemaURI} (huri : Local kw_uri) :
    ∀ {table : List (Str × Json)}, (Record.keys table).Nodup → addressableTable table →
      Locates kw_uri.to_string (Record.keys table) (buildProperties kw_uri table)
  | [], _, _ => locates_nil _ _
  | (prop_name, value) :: rest, hnames, h => by
    obtain ⟨hslash, hvalue, hrest⟩ := addressableTable_cons h
    rw [Record.keys_cons, List.nodup_cons] at hnames
    obtain ⟨segments, htree⟩ := locates_tree ⟨.destroyed, true⟩ (huri.below ('/' :: prop_name)) hvalue
    exact Locates.cons_node { uri := .parse (kw_uri.to_string ++ '/' :: prop_name), value }
      (SchemaURI.to_string_parse _) hslash ⟨rfl, rfl⟩ htree (locates_properties huri hnames.2 hrest) hnames.1

theorem locates_items {list_uri : Str} (huri : Local (.parse list_uri)) :
    ∀ {items : List Json} (index : ℕ), addressableItems items →
      Locates list_uri ((List.range' index items.length).map indexText) (buildItems list_uri index items)
  | [], index, _ => locates_nil _ _
  | value :: rest, index, h => by
    rw [addressableItems, Bool.and_eq_true] at h
    have hlocal : Local (.parse (list_uri ++ '/' :: indexText index)) := by
      have hbelow := huri.below ('/' :: indexText index)
      rwa [SchemaURI.to_string_parse] at hbelow
    obtain ⟨segments, htree⟩ := locates_tree ⟨.destroyed, true⟩ hlocal h.1
    have hnotMem : indexText index ∉ (List.range' (index + 1) rest.length).map indexText := by
      intro hmem
      obtain ⟨later, hlater, heq⟩ := List.mem_map.mp hmem
      have hlt := (List.mem_range'_1.mp hlater).1
      have := indexText_injective heq
      omega
    exact Locates.cons_node { uri := .parse (list_uri ++ '/' :: indexText index), value }
      (SchemaURI.to_string_parse _) (slash_notMem_indexText index) ⟨rfl, rfl⟩ htree
      (locates_items huri (index + 1) h.2) hnotMem

end

/-! ### Registration -/

/-- Unnamed nodes are only entered under their URIs. -/
theorem anchors_collected : ∀ (nodes : List SchemaNode) (tables : Anchors), (∀ node ∈ nodes, Unnamed node) →
    (nodes.foldl collectNode tables).anchors_ =
      nodes.foldl (fun m node => m.emplace node.uri.to_string node) tables.anchors_ := by
  intro nodes
  induction nodes with
  | nil => exact fun _ _ => rfl
  | cons node nodes ih =>
    intro tables hunnamed
    obtain ⟨hanchor, hdynamic⟩ := hunnamed node (List.mem_cons_self ..)
    rw [List.foldl_cons, ih _ fun n hn => hunnamed n (List.mem_cons_of_mem _ hn)]
    simp [collectNode, hanchor, hdynamic]

/-- Nodes with distinct URIs are each found under theirs. -/
theorem find_collected {nodes : List SchemaNode} (hdistinct : (nodes.map fun node => node.uri.to_string).Nodup)
    (hunnamed : ∀ node ∈ nodes, Unnamed node) (ids_ : Table Str NodePtr) {node : SchemaNode} (hnode : node ∈ nodes) :
    (nodes.foldl collectNode { ids_ }).anchors_.find node.uri.to_string = some node := by
  rw [anchors_collected nodes _ hunnamed, 
    Table.find_foldl_emplace (fun n : SchemaNode => n.uri.to_string) fun n => n]
  have hsome : (nodes.find? fun n => n.uri.to_string = node.uri.to_string).isSome :=
    List.find?_isSome.mpr ⟨node, hnode, by simp⟩
  obtain ⟨found, hfound⟩ := Option.isSome_iff_exists.mp hsome
  have huri : found.uri.to_string = node.uri.to_string := by simpa using List.find?_some hfound
  have hsame : found = node := List.inj_on_of_nodup_map hdistinct (List.mem_of_find?_eq_some hfound) hnode huri
  simp [hfound, hsame]

/-- **Every node is found under its URI.**  In a document without identifiers whose names have no `/`, the
nodes have distinct URIs, and `find_ref` gives each of them back. -/
theorem find_ref_uri {schema : Json} {c : SchemaCompiler} (hschema : Addressable schema)
    (hc : compile schema = .ok c) :
    (c.root_node_.preorder.map fun node => node.uri.to_string).Nodup ∧
      ∀ node ∈ c.root_node_.preorder, c.find_ref node.uri.to_string = some (.node node) := by
  obtain ⟨⟨children, st⟩, htree, hc⟩ := bind_eq_ok.mp hc
  obtain rfl := Except.ok.inj hc
  obtain ⟨segments, hlocates⟩ := locates_tree ⟨.root, true⟩ (show Local (.parse "#".toList) from ⟨[], rfl⟩) hschema
  obtain ⟨rfl, hlocated⟩ := hlocates _ _ _ htree
  set root : SchemaNode := { uri := .parse "#".toList, keyword := .Schema, value := schema, children }
  have hdistinct : (root.preorder.map fun node => node.uri.to_string).Nodup :=
    List.nodup_cons.mpr ⟨hlocated.placed.ne_place, hlocated.placed.distinct⟩
  have hunnamed : ∀ node ∈ root.preorder, Unnamed node := by
    intro node hnode
    rcases List.mem_cons.mp hnode with rfl | hnode
    · exact ⟨rfl, rfl⟩
    · exact hlocated.unnamed node hnode
  refine ⟨hdistinct, fun node hnode => ?_⟩
  have hfind := find_collected hdistinct hunnamed ∅ hnode
  unfold SchemaCompiler.find_ref
  show (((root.preorder.foldl collectNode { ids_ := ∅ }).anchors_.find node.uri.to_string).map NodePtr.node).or _ = _
  rw [hfind]
  rfl

/-- A document with a definition, a list, and a property. -/
def personSchema : Json := .obj
  [("$defs".toList, .obj [("name".toList, .obj [("type".toList, .str "string".toList)])]),
    ("allOf".toList, .arr [.obj [("$ref".toList, .str "#/$defs/name".toList)]]),
    ("properties".toList, .obj [("a".toList, .bool true)])]

theorem find_ref_uri_person : ∃ c, compile personSchema = .ok c ∧
    (c.root_node_.preorder.map fun node => node.uri.to_string).Nodup ∧
      ∀ node ∈ c.root_node_.preorder, c.find_ref node.uri.to_string = some (.node node) :=
  ⟨_, rfl, find_ref_uri (show addressableIn .tree personSchema by decide) rfl⟩

end Siesta.JsonSchema
