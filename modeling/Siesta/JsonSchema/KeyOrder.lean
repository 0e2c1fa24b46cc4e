import Siesta.JsonSchema.Building
import Mathlib.Data.List.Perm.Basic

/-!
# Schemas with their keys in another order

A document without `$id` is built the same way whatever the order of its keys: member by member, each
under the same URI (`built_keywords`).  Reordering the keys of its schema objects
therefore reorders the nodes and changes nothing else (`compile_reordered`).
-/

namespace Siesta.JsonSchema

open Lib

/-! ### Documents without identifiers -/

mutual

/-- `build_schema_tree` comes across no `$id` in a value that is read so. -/
def noIdsIn : Reading → Json → Bool
  | .tree, .obj members => noIdsMembers members
  | .definitions, .obj table => noIdsTable table
  | .table, .obj table => noIdsTable table
  | .list, .arr items => noIdsItems items
  | _, _ => true

def noIdsMembers : List (Str × Json) → Bool
  | [] => true
  | (key, value) :: rest =>
    keywordOf key ≠ .ID && noIdsIn (reading (keywordOf key)) value && noIdsMembers rest

def noIdsTable : List (Str × Json) → Bool
  | [] => true
  | (_, value) :: rest => noIdsIn .tree value && noIdsTable rest

def noIdsItems : List Json → Bool
  | [] => true
  | value :: rest => noIdsIn .tree value && noIdsItems rest

end

/-- A schema without `$id`. -/
def NoIds (schema : Json) : Prop := noIdsIn .tree schema

/-- The function builds the same nodes whatever the tables are, and leaves them as they are. -/
def Builds (build : BuildState → Except Abort (List SchemaNode × BuildState))
    (r : Except Abort (List SchemaNode)) : Prop :=
  ∀ st, build st = r.map fun nodes => (nodes, st)

theorem builds_ok (nodes : List SchemaNode) : Builds (fun st => .ok (nodes, st)) (.ok nodes) := fun _ => rfl

theorem Builds.map {build : BuildState → Except Abort (List SchemaNode × BuildState)}
    {r : Except Abort (List SchemaNode)} (f : List SchemaNode → List SchemaNode) (h : Builds build r) :
    Builds (fun st => (build st).bind fun a => .ok (f a.1, a.2)) (r.bind fun nodes => .ok (f nodes)) := by
  intro st
  show (build st).bind _ = _
  rw [h st]
  cases r <;> rfl

theorem Builds.map₂ {build build' : BuildState → Except Abort (List SchemaNode × BuildState)}
    {r r' : Except Abort (List SchemaNode)} (f : List SchemaNode → List SchemaNode → List SchemaNode)
    (h : Builds build r) (h' : Builds build' r') :
    Builds (fun st => (build st).bind fun a => (build' a.2).bind fun b => .ok (f a.1 b.1, b.2))
      (r.bind fun nodes => r'.bind fun nodes' => .ok (f nodes nodes')) := by
  intro st
  show (build st).bind _ = _
  rw [h st]
  cases r with
  | error a => rfl
  | ok nodes =>
    show (build' st).bind _ = _
    rw [h' st]
    cases r' <;> rfl

theorem noIdsMembers_cons {m : Str × Json} {rest : List (Str × Json)} (h : noIdsMembers (m :: rest)) :
    keywordOf m.1 ≠ .ID ∧ noIdsIn (reading (keywordOf m.1)) m.2 ∧ noIdsMembers rest := by
  rw [noIdsMembers, Bool.and_eq_true, Bool.and_eq_true, decide_eq_true_eq] at h
  exact ⟨h.1.1, h.1.2, h.2⟩

mutual

theorem builds_tree (filled : Filled) (uri : SchemaURI) :
    ∀ {value : Json}, noIdsIn .tree value → ∃ r, Builds (build_schema_tree filled value uri) r
  | .obj members, h => builds_keywords filled uri (show noIdsMembers members from h)
  | .null, _ | .bool _, _ | .int _, _ | .double _, _ | .str _, _ | .arr _, _ => ⟨.ok [], fun _ => rfl⟩

theorem builds_keywords (filled : Filled) (uri : SchemaURI) :
    ∀ {members : List (Str × Json)}, noIdsMembers members → ∃ r, Builds (buildKeywords filled members uri) r
  | [], _ => ⟨.ok [], fun _ => rfl⟩
  | (key, value) :: rest, h => by
    obtain ⟨hid, hvalue, hrest⟩ := noIdsMembers_cons h
    obtain ⟨r', hr'⟩ := builds_keywords filled uri hrest
    have hmember : ∃ r, Builds (buildMember filled (key, value) uri) r := by
      unfold buildMember
      simp only [nextUri_of_ne hid, enterId_of_ne hid]
      cases hreading : reading (keywordOf key) with
      | skipped => exact ⟨_, builds_ok []⟩
      | definitions =>
        rw [hreading] at hvalue
        cases value with
        | obj table => exact builds_definitions filled _ key uri hvalue
        | _ => exact ⟨.error .exception, fun _ => rfl⟩
      | table =>
        rw [hreading] at hvalue
        cases value with
        | obj table =>
          obtain ⟨r, hr⟩ := builds_properties (.parse (uri.to_string ++ '/' :: key)) hvalue
          exact ⟨_, hr.map fun children =>
            [{ uri := .parse (uri.to_string ++ '/' :: key), keyword := keywordOf key, value := .obj table,
               children }]⟩
        | _ => exact ⟨.error .exception, fun _ => rfl⟩
      | list =>
        rw [hreading] at hvalue
        cases value with
        | arr items => exact builds_items _ 0 hvalue
        | _ => exact ⟨.error .exception, fun _ => rfl⟩
      | tree =>
        rw [hreading] at hvalue
        obtain ⟨r, hr⟩ := builds_tree ⟨.destroyed, false⟩ (keywordNode filled (keywordOf key) key value uri).uri
          hvalue
        exact ⟨_, hr.map fun children => [{ keywordNode filled (keywordOf key) key value uri with children }]⟩
    obtain ⟨r, hr⟩ := hmember
    refine ⟨r.bind fun nodes => r'.bind fun nodes' => .ok (nodes ++ nodes'), fun st => ?_⟩
    rw [buildKeywords_cons, nextUri_of_ne hid]
    exact hr.map₂ (fun nodes nodes' => nodes ++ nodes') hr' st

theorem builds_definitions (filled : Filled) (child : SchemaNode) (key : Str) (uri : SchemaURI) :
    ∀ {table : List (Str × Json)}, noIdsTable table →
      ∃ r, Builds (buildDefinitions filled child key table uri) r
  | [], _ => ⟨.ok [], fun _ => rfl⟩
  | (def_name, value) :: rest, h => by
    rw [noIdsTable, Bool.and_eq_true] at h
    obtain ⟨r, hr⟩ := builds_tree ⟨.destroyed, false⟩ (.parse (definitionUri filled key def_name uri)) h.1
    obtain ⟨r', hr'⟩ := builds_definitions filled child key uri h.2
    exact ⟨_, hr.map₂ (fun children nodes =>
      { child with uri := .parse (definitionUri filled key def_name uri), children } :: nodes) hr'⟩

theorem builds_properties (kw_uri : SchemaURI) :
    ∀ {table : List (Str × Json)}, noIdsTable table → ∃ r, Builds (buildProperties kw_uri table) r
  | [], _ => ⟨.ok [], fun _ => rfl⟩
  | (prop_name, value) :: rest, h => by
    rw [noIdsTable, Bool.and_eq_true] at h
    obtain ⟨r, hr⟩ := builds_tree ⟨.destroyed, true⟩ (.parse (kw_uri.to_string ++ '/' :: prop_name)) h.1
    obtain ⟨r', hr'⟩ := builds_properties kw_uri h.2
    exact ⟨_, hr.map₂ (fun children nodes =>
      { uri := .parse (kw_uri.to_string ++ '/' :: prop_name), value, children } :: nodes) hr'⟩

theorem builds_items (list_uri : Str) :
    ∀ {items : List Json} (index : ℕ), noIdsItems items → ∃ r, Builds (buildItems list_uri index items) r
  | [], index, _ => ⟨.ok [], fun _ => rfl⟩
  | value :: rest, index, h => by
    rw [noIdsItems, Bool.and_eq_true] at h
    obtain ⟨r, hr⟩ := builds_tree ⟨.destroyed, true⟩ (.parse (list_uri ++ '/' :: (Nat.repr index).toList)) h.1
    obtain ⟨r', hr'⟩ := builds_items list_uri (index + 1) h.2
    exact ⟨_, hr.map₂ (fun children nodes =>
      { uri := .parse (list_uri ++ '/' :: (Nat.repr index).toList), value, children } :: nodes) hr'⟩

end

theorem Builds.built_eq {build : BuildState → Except Abort (List SchemaNode × BuildState)}
    {r : Except Abort (List SchemaNode)} (h : Builds build r) : built build = r := by
  unfold built
  rw [h]
  cases r <;> rfl

/-! ### Reordered documents -/

inductive Holds where
  | schema | table | list | plain
  deriving DecidableEq

/-- The keywords whose value is a schema, a table of schemas, or a list of schemas. -/
def holds : Keyword → Holds
  | .Not | .If | .Then | .Else | .Items | .Contains | .AdditionalProperties | .AdditionalItems
  | .UnevaluatedItems | .UnevaluatedProperties | .PropertyNames | .ContentSchema => .schema
  | .Properties | .PatternProperties | .DependentSchemas | .Defs | .Definitions => .table
  | .AllOf | .AnyOf | .OneOf | .PrefixItems => .list
  | _ => .plain

/-- Two values of a keyword, whose schemas are related by `R`. -/
def HeldBy (R : Json → Json → Prop) (kw : Keyword) (v v' : Json) : Prop :=
  match holds kw with
  | .schema => R v v'
  | .table => v = v' ∨ ∃ table table', v = .obj table ∧ v' = .obj table' ∧
      List.Forall₂ (fun e e' => e.1 = e'.1 ∧ R e.2 e'.2) table table'
  | .list => v = v' ∨ ∃ items items', v = .arr items ∧ v' = .arr items' ∧ List.Forall₂ R items items'
  | .plain => v = v'

theorem HeldBy.refl {R : Json → Json → Prop} (hR : ∀ v, R v v) (kw : Keyword) (v : Json) : HeldBy R kw v v := by
  unfold HeldBy
  cases holds kw with
  | schema => exact hR v
  | table | list => exact .inl rfl
  | plain => rfl

/-- The schemas differ in the order of the keys of schema objects, at most `depth` levels deep.  (A list
may stand where a schema is expected, as for `items`.) -/
def ReorderedTo : ℕ → Json → Json → Prop
  | 0, v, v' => v = v'
  | depth + 1, v, v' =>
    v = v' ∨
    (∃ items items', v = .arr items ∧ v' = .arr items' ∧ List.Forall₂ (ReorderedTo depth) items items') ∨
    ∃ members mid members', v = .obj members ∧ v' = .obj members' ∧
      List.Forall₂ (fun m m' => m.1 = m'.1 ∧ HeldBy (ReorderedTo depth) (keywordOf m.1) m.2 m'.2) members mid ∧
      mid.Perm members'

/-- The schemas differ in the order of the keys of schema objects only. -/
def Reordered (schema schema' : Json) : Prop := ∃ depth, ReorderedTo depth schema schema'

/-! ### Reordered nodes -/

/-- The keywords whose value `validate_node` does not read, except for a boolean one. -/
def valueUnread (kw : Keyword) : Bool := kw = .Unknown || kw = .Schema || holds kw ≠ .plain

/-- Two nodes of one kind, whose children are related by `R`; where the children stand for the entries of
a table or a list, they are in the same order. -/
structure SameBy (R : SchemaNode → SchemaNode → Prop) (n n' : SchemaNode) : Prop where
  uri : n.uri = n'.uri
  keyword : n.keyword = n'.keyword
  parent : n.parent = n'.parent
  value : n.value = n'.value ∨ (valueUnread n.keyword ∧ n.value.get_bool = n'.value.get_bool)
  children : ∃ mid, List.Forall₂ R n.children mid ∧ mid.Perm n'.children
  inOrder : reading n.keyword = .table ∨ reading n.keyword = .list → List.Forall₂ R n.children n'.children

/-- The nodes differ in the order of the nodes under them, at most `depth` levels deep. -/
def SameTo : ℕ → SchemaNode → SchemaNode → Prop
  | 0, n, n' => n = n'
  | depth + 1, n, n' => SameBy (SameTo depth) n n'

def Same (n n' : SchemaNode) : Prop := ∃ depth, SameTo depth n n'

theorem SameBy.refl {R : SchemaNode → SchemaNode → Prop} (hR : ∀ n, R n n) (n : SchemaNode) : SameBy R n n where
  uri := rfl
  keyword := rfl
  parent := rfl
  value := .inl rfl
  children := ⟨n.children, List.forall₂_same.mpr fun n _ => hR n, .refl _⟩
  inOrder _ := List.forall₂_same.mpr fun n _ => hR n

theorem SameTo.refl : ∀ depth n, SameTo depth n n := by
  intro depth
  induction depth with
  | zero => exact fun _ => rfl
  | succ depth ih => exact SameBy.refl ih

theorem SameBy.imp {R R' : SchemaNode → SchemaNode → Prop} (hR : ∀ n n', R n n' → R' n n')
    {n n' : SchemaNode} (h : SameBy R n n') : SameBy R' n n' := by
  obtain ⟨huri, hkeyword, hparent, hvalue, ⟨mid, hmid, hperm⟩, hinOrder⟩ := h
  exact ⟨huri, hkeyword, hparent, hvalue, ⟨mid, hmid.imp fun _ _ => hR _ _, hperm⟩,
    fun h => (hinOrder h).imp fun _ _ => hR _ _⟩

theorem SameTo.succ : ∀ {depth n n'}, SameTo depth n n' → SameTo (depth + 1) n n' := by
  intro depth
  induction depth with
  | zero =>
    rintro n _ rfl
    exact SameTo.refl 1 n
  | succ depth ih => exact fun h => SameBy.imp (fun _ _ => ih) h

/-- Related nodes are of one kind, and their children are related. -/
theorem Same.sameBy {n n' : SchemaNode} (h : Same n n') : SameBy Same n n' := by
  obtain ⟨depth, h⟩ := h
  cases depth with
  | zero =>
    obtain rfl : n = n' := h
    exact SameBy.refl (fun m => ⟨0, rfl⟩) n
  | succ depth => exact SameBy.imp (fun _ _ h => ⟨depth, h⟩) h

/-! ### Building reordered schemas -/

theorem built_keywords {filled : Filled} {uri : SchemaURI} : ∀ {members : List (Str × Json)},
    noIdsMembers members → built (buildKeywords filled members uri) =
      (members.mapM fun m => built (buildMember filled m uri)).map List.flatten := by
  intro members
  induction members with
  | nil => exact fun _ => rfl
  | cons m rest ih =>
    intro h
    obtain ⟨hid, -, hrest⟩ := noIdsMembers_cons h
    rw [built_keywords_cons, nextUri_of_ne hid, ih hrest, List.mapM_cons]
    cases built (buildMember filled m uri) with
    | error a => rfl
    | ok nodes => cases rest.mapM fun m => built (buildMember filled m uri) <;> rfl

/-- The one list comes from the other by replacing entries by related ones and putting them in another
order. -/
def Permuted (R : SchemaNode → SchemaNode → Prop) (l l' : List SchemaNode) : Prop :=
  ∃ mid, List.Forall₂ R l mid ∧ mid.Perm l'

theorem reading_of_schema {kw : Keyword} (h : holds kw = .schema) : reading kw = .tree := by
  cases kw <;> first | rfl | exact absurd h (by decide)

theorem reading_of_table {kw : Keyword} (h : holds kw = .table) :
    reading kw = .table ∨ reading kw = .definitions := by
  cases kw <;> first | exact .inl rfl | exact .inr rfl | exact absurd h (by decide)

theorem reading_of_list {kw : Keyword} (h : holds kw = .list) : reading kw = .list := by
  cases kw <;> first | rfl | exact absurd h (by decide)

theorem keywordNode_of_holds {filled : Filled} {kw : Keyword} (h : holds kw ≠ .plain) (key : Str) (value : Json)
    (uri : SchemaURI) : keywordNode filled kw key value uri =
      { uri := .parse (uri.to_string ++ '/' :: key), keyword := kw, value, parent := filled.address } := by
  unfold keywordNode
  split <;> first | rfl | exact absurd rfl h

/-- Reordering turns no value into a boolean. -/
theorem ReorderedTo.get_bool {depth : ℕ} {v v' : Json} (h : ReorderedTo depth v v') :
    v.get_bool = v'.get_bool := by
  cases depth with
  | zero =>
    obtain rfl : v = v' := h
    rfl
  | succ depth =>
    rcases h with rfl | ⟨items, items', rfl, rfl, -⟩ | ⟨members, mid, members', rfl, rfl, -, -⟩
    · rfl
    · rfl
    · rfl

theorem noIdsMembers_iff {members : List (Str × Json)} : noIdsMembers members ↔
    ∀ m ∈ members, keywordOf m.1 ≠ .ID ∧ noIdsIn (reading (keywordOf m.1)) m.2 := by
  induction members with
  | nil => simp [noIdsMembers]
  | cons m rest ih =>
    rw [noIdsMembers, Bool.and_eq_true, Bool.and_eq_true, decide_eq_true_eq, ih, List.forall_mem_cons]

theorem noIdsTable_iff {table : List (Str × Json)} : noIdsTable table ↔ ∀ e ∈ table, noIdsIn .tree e.2 := by
  induction table with
  | nil => simp [noIdsTable]
  | cons e rest ih => rw [noIdsTable, Bool.and_eq_true, ih, List.forall_mem_cons]

theorem noIdsItems_iff {items : List Json} : noIdsItems items ↔ ∀ v ∈ items, noIdsIn .tree v := by
  induction items with
  | nil => simp [noIdsItems]
  | cons v rest ih => rw [noIdsItems, Bool.and_eq_true, ih, List.forall_mem_cons]

theorem ReorderedTo.noIds : ∀ {depth : ℕ} {v v' : Json}, ReorderedTo depth v v' → noIdsIn .tree v →
    noIdsIn .tree v' := by
  intro depth
  induction depth with
  | zero =>
    rintro v _ rfl h
    exact h
  | succ depth ih =>
    rintro v v' (rfl | ⟨items, items', rfl, rfl, -⟩ | ⟨members, mid, members', rfl, rfl, hmid, hperm⟩) h
    · exact h
    · rfl
    have hheld : ∀ kw (v v' : Json), HeldBy (ReorderedTo depth) kw v v' → noIdsIn (reading kw) v →
        noIdsIn (reading kw) v' := by
      intro kw v v' hv hids
      unfold HeldBy at hv
      cases hkw : holds kw with
      | schema =>
        rw [hkw] at hv
        rw [reading_of_schema hkw] at hids ⊢
        exact ih hv hids
      | table =>
        rw [hkw] at hv
        rcases hv with rfl | ⟨table, table', rfl, rfl, htable⟩
        · exact hids
        have hread : ∀ t, noIdsIn (reading kw) (.obj t) = noIdsTable t := by
          intro t
          rcases reading_of_table hkw with h | h <;> rw [h, noIdsIn]
        rw [hread, noIdsTable_iff] at hids ⊢
        intro e' he'
        obtain ⟨e, he, -, hv⟩ := forall₂_exists_left htable e' he'
        exact ih hv (hids e he)
      | list =>
        rw [hkw] at hv
        rcases hv with rfl | ⟨items, items', rfl, rfl, hitems⟩
        · exact hids
        rw [reading_of_list hkw, noIdsIn, noIdsItems_iff] at hids ⊢
        intro v' hv'
        obtain ⟨v, hv, hvv'⟩ := forall₂_exists_left hitems v' hv'
        exact ih hvv' (hids v hv)
      | plain =>
        rw [hkw] at hv
        obtain rfl : v = v' := hv
        exact hids
    rw [noIdsIn, noIdsMembers_iff] at h ⊢
    intro m' hm'
    obtain ⟨m, hm, hkey, hv⟩ := forall₂_exists_left hmid m' (hperm.mem_iff.mpr hm')
    obtain ⟨hid, hin⟩ := h m hm
    rw [← hkey]
    exact ⟨hid, hheld _ _ _ hv hin⟩

/-! ### The nodes of reordered schemas -/

section Nodes

variable {filled : Filled} {uri : SchemaURI} {V : Json → Json → Prop} {R : SchemaNode → SchemaNode → Prop}

/-- Values that `V` relates have no `$id`, are alike as boolean schemas, and are built alike. -/
structure BuiltAlike (V : Json → Json → Prop) (R : SchemaNode → SchemaNode → Prop) : Prop where
  noIds : ∀ v v', V v v' → noIdsIn .tree v ∧ noIdsIn .tree v'
  get_bool : ∀ v v', V v v' → v.get_bool = v'.get_bool
  tree : ∀ v v', V v v' → ∀ filled uri, Both (Permuted R) (built (build_schema_tree filled v uri))
    (built (build_schema_tree filled v' uri))

/-- The nodes that stand for subschemas are related. -/
theorem sameBy_subschema {node node' : SchemaNode} (huri : node.uri = node'.uri)
    (hkeyword : node.keyword = node'.keyword) (hparent : node.parent = node'.parent)
    (hread : reading node.keyword ≠ .table ∧ reading node.keyword ≠ .list)
    (hunread : valueUnread node.keyword) (hbool : node.value.get_bool = node'.value.get_bool)
    (hchildren : Permuted R node.children node'.children) : SameBy R node node' where
  uri := huri
  keyword := hkeyword
  parent := hparent
  value := .inr ⟨hunread, hbool⟩
  children := hchildren
  inOrder h := h.elim (fun h => absurd h hread.1) fun h => absurd h hread.2

/-- A loop builds the node of its first value and goes on. -/
theorem both_entry (hV : BuiltAlike V R) {v v' : Json} (hv : V v v') {r r' : Except Abort (List SchemaNode)}
    (hrest : Both (List.Forall₂ (SameBy R)) r r') {node node' : List SchemaNode → SchemaNode}
    (hnode : ∀ children children', Permuted R children children' → SameBy R (node children) (node' children')) :
    Both (List.Forall₂ (SameBy R))
      ((built (build_schema_tree filled v uri)).bind fun children => r.bind fun nodes =>
        .ok (node children :: nodes))
      ((built (build_schema_tree filled v' uri)).bind fun children => r'.bind fun nodes =>
        .ok (node' children :: nodes)) := by
  refine (hV.tree v v' hv filled uri).bind fun children children' hchildren => ?_
  exact hrest.bind fun nodes nodes' hnodes => .returned (.cons (hnode _ _ hchildren) hnodes)

/-- The nodes of two tables of definitions. -/
theorem both_definitions (hV : BuiltAlike V R) {child child' : SchemaNode}
    (hkeyword : child.keyword = child'.keyword) (hparent : child.parent = child'.parent)
    (hread : reading child.keyword = .definitions) (hunread : valueUnread child.keyword)
    (hbool : child.value.get_bool = child'.value.get_bool) (key : Str) {table table' : List (Str × Json)}
    (h : List.Forall₂ (fun e e' => e.1 = e'.1 ∧ V e.2 e'.2) table table') :
    Both (List.Forall₂ (SameBy R)) (built (buildDefinitions filled child key table uri))
      (built (buildDefinitions filled child' key table' uri)) := by
  induction h with
  | nil => exact .returned .nil
  | @cons e e' rest rest' h hrest ih =>
    obtain ⟨hkey, hv⟩ := h
    rw [built_definitions_cons, built_definitions_cons, hkey]
    refine both_entry hV hv ih fun children children' hchildren => ?_
    exact sameBy_subschema rfl hkeyword hparent (by rw [hread]; decide) hunread hbool hchildren

theorem reading_unknown : reading .Unknown ≠ .table ∧ reading .Unknown ≠ .list := by decide

/-- The nodes of two tables of subschemas. -/
theorem both_properties (hV : BuiltAlike V R) {table table' : List (Str × Json)}
    (h : List.Forall₂ (fun e e' => e.1 = e'.1 ∧ V e.2 e'.2) table table') :
    Both (List.Forall₂ (SameBy R)) (built (buildProperties uri table)) (built (buildProperties uri table')) := by
  induction h with
  | nil => exact .returned .nil
  | @cons e e' rest rest' h hrest ih =>
    obtain ⟨hkey, hv⟩ := h
    rw [built_properties_cons, built_properties_cons, hkey]
    refine both_entry hV hv ih fun children children' hchildren => ?_
    exact sameBy_subschema rfl rfl rfl reading_unknown rfl (hV.get_bool _ _ hv) hchildren

theorem both_items (hV : BuiltAlike V R) (list_uri : Str) {items items' : List Json}
    (h : List.Forall₂ V items items') :
    ∀ index, Both (List.Forall₂ (SameBy R)) (built (buildItems list_uri index items))
      (built (buildItems list_uri index items')) := by
  induction h with
  | nil => exact fun _ => .returned .nil
  | @cons v v' rest rest' hv hrest ih =>
    intro index
    rw [built_items_cons, built_items_cons]
    refine both_entry hV hv (ih (index + 1)) fun children children' hchildren => ?_
    exact sameBy_subschema rfl rfl rfl reading_unknown rfl (hV.get_bool _ _ hv) hchildren

theorem valueUnread_of_holds {kw : Keyword} (h : holds kw ≠ .plain) : valueUnread kw := by
  simp [valueUnread, h]

/-- The nodes of two members with one key. -/
theorem both_member (hV : BuiltAlike V R) (hR : ∀ n, R n n) (hup : ∀ n n', R n n' → SameBy R n n')
    {m m' : Str × Json} (hkey : m.1 = m'.1) (hv : HeldBy V (keywordOf m.1) m.2 m'.2) :
    Both (List.Forall₂ (SameBy (SameBy R))) (built (buildMember filled m uri))
      (built (buildMember filled m' uri)) := by
  have hrefl : ∀ nodes, List.Forall₂ (SameBy (SameBy R)) nodes nodes := fun nodes =>
    List.forall₂_same.mpr fun n _ => SameBy.refl (SameBy.refl hR) n
  have hlift : ∀ nodes nodes', List.Forall₂ (SameBy R) nodes nodes' →
      List.Forall₂ (SameBy (SameBy R)) nodes nodes' := fun nodes nodes' h =>
    h.imp fun _ _ h => h.imp hup
  obtain ⟨key, v⟩ := m
  obtain ⟨_, v'⟩ := m'
  obtain rfl := hkey
  unfold HeldBy at hv
  cases hkw : holds (keywordOf key) with
  | plain =>
    rw [hkw] at hv
    obtain rfl : v = v' := hv
    exact .refl hrefl _
  | schema =>
    rw [hkw] at hv
    have hread := reading_of_schema hkw
    have hplain : holds (keywordOf key) ≠ .plain := by rw [hkw]; decide
    rw [built_member_tree hread, built_member_tree hread, keywordNode_of_holds hplain, keywordNode_of_holds hplain]
    refine (hV.tree v v' hv _ _).bind fun children children' hchildren => .returned (.cons ?_ .nil)
    refine SameBy.imp hup ?_
    exact sameBy_subschema rfl rfl rfl ⟨by simp [hread], by simp [hread]⟩ (valueUnread_of_holds hplain)
      (hV.get_bool _ _ hv) hchildren
  | table =>
    rw [hkw] at hv
    have hplain : holds (keywordOf key) ≠ .plain := by rw [hkw]; decide
    rcases hv with rfl | ⟨table, table', rfl, rfl, htable⟩
    · exact .refl hrefl _
    rcases reading_of_table hkw with hread | hread
    · rw [built_member_table hread, built_member_table hread]
      refine (both_properties hV htable).bind fun children children' hchildren => .returned (.cons ?_ .nil)
      exact
        { uri := rfl
          keyword := rfl
          parent := rfl
          value := .inr ⟨valueUnread_of_holds hplain, rfl⟩
          children := ⟨children', hchildren, .refl _⟩
          inOrder := fun _ => hchildren }
    · rw [built_member_definitions hread, built_member_definitions hread, keywordNode_of_holds hplain,
        keywordNode_of_holds hplain]
      refine Both.imp hlift ?_
      refine both_definitions hV ?_ ?_ ?_ ?_ ?_ key htable
      · rfl
      · rfl
      · exact hread
      · exact valueUnread_of_holds hplain
      · rfl
  | list =>
    rw [hkw] at hv
    rcases hv with rfl | ⟨items, items', rfl, rfl, hitems⟩
    · exact .refl hrefl _
    have hread := reading_of_list hkw
    rw [built_member_list hread, built_member_list hread]
    exact (both_items hV _ hitems 0).imp hlift

end Nodes

/-- A value without `$id` holds schemas without `$id`. -/
theorem HeldBy.noIds {V : Json → Json → Prop} {kw : Keyword} {v v' : Json} (h : HeldBy V kw v v')
    (hids : noIdsIn (reading kw) v) : HeldBy (fun v v' => V v v' ∧ noIdsIn .tree v) kw v v' := by
  unfold HeldBy at h ⊢
  cases hkw : holds kw with
  | plain =>
    rw [hkw] at h
    exact h
  | schema =>
    rw [hkw] at h
    rw [reading_of_schema hkw] at hids
    exact ⟨h, hids⟩
  | table =>
    rw [hkw] at h
    rcases h with rfl | ⟨table, table', rfl, rfl, htable⟩
    · exact .inl rfl
    have htableIds : noIdsTable table := by
      rcases reading_of_table hkw with hread | hread <;> rw [hread, noIdsIn] at hids <;> exact hids
    refine .inr ⟨table, table', rfl, rfl, forall₂_imp_mem htable ?_⟩
    exact fun e he e' _ hee' => ⟨hee'.1, hee'.2, noIdsTable_iff.mp htableIds e he⟩
  | list =>
    rw [hkw] at h
    rcases h with rfl | ⟨items, items', rfl, rfl, hitems⟩
    · exact .inl rfl
    rw [reading_of_list hkw, noIdsIn] at hids
    refine .inr ⟨items, items', rfl, rfl, forall₂_imp_mem hitems ?_⟩
    exact fun v hv v' _ hvv' => ⟨hvv', noIdsItems_iff.mp hids v hv⟩

theorem built_reordered : ∀ depth, BuiltAlike
    (fun v v' => ReorderedTo depth v v' ∧ noIdsIn .tree v) (SameTo (2 * depth)) := by
  intro depth
  induction depth with
  | zero =>
    refine ⟨?_, ?_, ?_⟩
    · rintro v _ ⟨rfl, hids⟩
      exact ⟨hids, hids⟩
    · rintro v _ ⟨rfl, -⟩
      rfl
    · rintro v _ ⟨rfl, -⟩ filled uri
      exact .refl (fun nodes => ⟨nodes, List.forall₂_same.mpr fun _ _ => rfl, .refl _⟩) _
  | succ depth ih =>
    refine ⟨fun v v' h => ⟨h.2, h.1.noIds h.2⟩, fun v v' h => h.1.get_bool, ?_⟩
    rintro v v' ⟨rfl | ⟨items, items', rfl, rfl, -⟩ | ⟨members, mid, members', rfl, rfl, hmid, hperm⟩, hids⟩
      filled uri
    · exact .refl (fun nodes => ⟨nodes, List.forall₂_same.mpr fun n _ => SameTo.refl _ n, .refl _⟩) _
    · exact .returned ⟨[], .nil, .nil⟩
    have hreordered : ReorderedTo (depth + 1) (.obj members) (.obj members') :=
      .inr (.inr ⟨members, mid, members', rfl, rfl, hmid, hperm⟩)
    have hids' : noIdsMembers members' := hreordered.noIds hids
    rw [show 2 * (depth + 1) = 2 * depth + 1 + 1 by omega]
    show Both _ (built (buildKeywords filled members uri)) (built (buildKeywords filled members' uri))
    rw [built_keywords hids, built_keywords hids']
    -- first the values are replaced, then the members are put in another order
    have hvalues : Both (List.Forall₂ (List.Forall₂ (SameTo (2 * depth + 1 + 1))))
        (members.mapM fun m => built (buildMember filled m uri))
        (mid.mapM fun m => built (buildMember filled m uri)) := by
      refine Both.mapM (forall₂_imp_mem hmid fun m hm m' _ hmm' => ?_)
      obtain ⟨-, hin⟩ := noIdsMembers_iff.mp hids m hm
      exact both_member ih (SameTo.refl _) (fun _ _ => SameTo.succ) hmm'.1 (hmm'.2.noIds hin)
    have horder := Both.mapM_perm (fun m => built (buildMember filled m uri)) hperm
    have hboth := hvalues.trans (T := fun l l' => Permuted (SameTo (2 * depth + 1 + 1)) l.flatten l'.flatten)
      (fun a b c hab hbc => ⟨b.flatten, List.rel_flatten hab, hbc.flatten⟩) horder
    exact hboth.bind fun a b h => .returned h

/-- **Compiling reordered schemas.**  Both are compiled or neither is, and the nodes differ in their order
only. -/
theorem compile_reordered {schema schema' : Json} (hids : NoIds schema) (h : Reordered schema schema') :
    Both (fun c c' => Same c.root_node_ c'.root_node_) (compile schema) (compile schema') := by
  obtain ⟨depth, h⟩ := h
  have hids' : NoIds schema' := h.noIds hids
  have htree := (built_reordered depth).tree schema schema' ⟨h, hids⟩ ⟨.root, true⟩ (.parse "#".toList)
  obtain ⟨r, hr⟩ := builds_tree ⟨.root, true⟩ (.parse "#".toList) hids
  obtain ⟨r', hr'⟩ := builds_tree ⟨.root, true⟩ (.parse "#".toList) hids'
  rw [hr.built_eq, hr'.built_eq] at htree
  unfold compile
  dsimp only
  rw [hr, hr']
  cases htree with
  | failed a a' => exact .failed a a'
  | returned hchildren =>
    have hread : reading .Schema ≠ .table ∧ reading .Schema ≠ .list := by decide
    refine .returned ⟨2 * depth + 1, ?_⟩
    exact sameBy_subschema rfl rfl rfl hread rfl h.get_bool hchildren

end Siesta.JsonSchema
