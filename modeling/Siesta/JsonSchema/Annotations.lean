import Siesta.JsonSchema.KeyOrder
import Siesta.Lib.Padding

/-!
# Schemas with annotations added

`Annotated` relates a schema to one with titles, descriptions, defaults and the like added to any of its
schema objects, or a `then` or `else` without an `if`.  Whatever the values of these members, the nodes of
the one document are those of the other with further nodes in between (`compile_annotated`).
-/

namespace Siesta.JsonSchema

open Lib

/-! ### Annotated documents -/

def isAnnotation : Keyword → Bool
  | .Title | .Description | .Default | .Deprecated | .ReadOnly | .WriteOnly | .ContentEncoding
  | .ContentMediaType => true
  | _ => false

/-- What may be added to a schema: an annotation, and without an `if` also `then` and `else`. -/
def Addable (members : List (Str × Json)) (m : Str × Json) : Prop :=
  isAnnotation (keywordOf m.1) ∨
    ((keywordOf m.1 = .Then ∨ keywordOf m.1 = .Else) ∧ ∀ e ∈ members, keywordOf e.1 ≠ .If)

/-- The second schema is the first one with annotations and inactive branches added to schema objects, at
most `depth` levels deep.  (A list may stand where a schema is expected, as for `items`.) -/
def AnnotatedTo : ℕ → Json → Json → Prop
  | 0, v, v' => v = v'
  | depth + 1, v, v' =>
    v = v' ∨
    (∃ items items', v = .arr items ∧ v' = .arr items' ∧ List.Forall₂ (AnnotatedTo depth) items items') ∨
    ∃ members members', v = .obj members ∧ v' = .obj members' ∧
      Padding (fun m m' => m.1 = m'.1 ∧ HeldBy (AnnotatedTo depth) (keywordOf m.1) m.2 m'.2) (Addable members)
        members members'

/-- The second schema is the first one with annotations and inactive branches added. -/
def Annotated (schema schema' : Json) : Prop := ∃ depth, AnnotatedTo depth schema schema'

theorem AnnotatedTo.get_bool {depth : ℕ} {v v' : Json} (h : AnnotatedTo depth v v') :
    v.get_bool = v'.get_bool := by
  cases depth with
  | zero =>
    obtain rfl : v = v' := h
    rfl
  | succ depth =>
    rcases h with rfl | ⟨items, items', rfl, rfl, -⟩ | ⟨members, members', rfl, rfl, -⟩
    · rfl
    · rfl
    · rfl

theorem Annotated.members {members : List (Str × Json)} {schema' : Json} (h : Annotated (.obj members) schema') :
    ∃ depth members', schema' = .obj members' ∧
      Padding (fun m m' => m.1 = m'.1 ∧ HeldBy (AnnotatedTo depth) (keywordOf m.1) m.2 m'.2) (Addable members)
        members members' := by
  have hrefl : Padding (fun m m' => m.1 = m'.1 ∧ HeldBy (AnnotatedTo 0) (keywordOf m.1) m.2 m'.2) (Addable members)
      members members :=
    .of_forall₂ (List.forall₂_same.mpr fun m _ => ⟨rfl, .refl (fun _ => rfl) _ _⟩)
  obtain ⟨depth, h⟩ := h
  cases depth with
  | zero =>
    obtain rfl : Json.obj members = schema' := h
    exact ⟨0, members, rfl, hrefl⟩
  | succ depth =>
    rcases h with rfl | ⟨_, _, h, -⟩ | ⟨_, members', h, rfl, hpadding⟩
    · exact ⟨0, members, rfl, hrefl⟩
    · cases h
    · obtain rfl := Json.obj.inj h
      exact ⟨depth, members', rfl, hpadding⟩

/-! ### Their nodes -/

def Inert (node : SchemaNode) : Prop :=
  isAnnotation node.keyword ∨ node.keyword = .Then ∨ node.keyword = .Else

def AtPlaceBy (R : SchemaNode → SchemaNode → Prop) (n n' : SchemaNode) : Prop := n.uri = n'.uri ∧ R n n'

/-- Two nodes of one kind, of which the second has inert nodes under it besides; where the children stand
for the entries of a table or a list, there are none. -/
structure GrownBy (R : SchemaNode → SchemaNode → Prop) (n n' : SchemaNode) : Prop where
  uri : n.keyword ≠ .Schema → n.uri = n'.uri
  keyword : n.keyword = n'.keyword
  parent : n.parent = n'.parent
  plain : valueUnread n.keyword = false → n = n'
  bool : n.value.get_bool = n'.value.get_bool
  children : Padding R Inert n.children n'.children
  inOrder : reading n.keyword = .table ∨ reading n.keyword = .list →
    List.Forall₂ (AtPlaceBy R) n.children n'.children

/-- The second node has inert nodes under it besides, at most `depth` levels deep. -/
def GrownTo : ℕ → SchemaNode → SchemaNode → Prop
  | 0, n, n' => n = n'
  | depth + 1, n, n' => GrownBy (GrownTo depth) n n'

/-- The second node has inert nodes under it besides. -/
def Grown (n n' : SchemaNode) : Prop := ∃ depth, GrownTo depth n n'

theorem GrownBy.refl {R : SchemaNode → SchemaNode → Prop} (hR : ∀ n, R n n) (n : SchemaNode) : GrownBy R n n where
  uri _ := rfl
  keyword := rfl
  parent := rfl
  plain _ := rfl
  bool := rfl
  children := .of_forall₂ (List.forall₂_same.mpr fun n _ => hR n)
  inOrder _ := List.forall₂_same.mpr fun n _ => ⟨rfl, hR n⟩

theorem GrownTo.refl : ∀ depth n, GrownTo depth n n := by
  intro depth
  induction depth with
  | zero => exact fun _ => rfl
  | succ depth ih => exact GrownBy.refl ih

theorem GrownBy.imp {R R' : SchemaNode → SchemaNode → Prop} (hR : ∀ n n', R n n' → R' n n')
    {n n' : SchemaNode} (h : GrownBy R n n') : GrownBy R' n n' := by
  obtain ⟨huri, hkeyword, hparent, hplain, hbool, hchildren, hinOrder⟩ := h
  exact ⟨huri, hkeyword, hparent, hplain, hbool, hchildren.imp hR fun _ h => h,
    fun h => (hinOrder h).imp fun _ _ h => ⟨h.1, hR _ _ h.2⟩⟩

theorem GrownTo.succ : ∀ {depth n n'}, GrownTo depth n n' → GrownTo (depth + 1) n n' := by
  intro depth
  induction depth with
  | zero =>
    rintro n _ rfl
    exact GrownTo.refl 1 n
  | succ depth ih => exact fun h => GrownBy.imp (fun _ _ => ih) h

theorem Grown.refl (n : SchemaNode) : Grown n n := ⟨0, rfl⟩

theorem Grown.grownBy {n n' : SchemaNode} (h : Grown n n') : GrownBy Grown n n' := by
  obtain ⟨depth, h⟩ := h
  cases depth with
  | zero =>
    obtain rfl : n = n' := h
    exact GrownBy.refl Grown.refl n
  | succ depth => exact GrownBy.imp (fun _ _ h => ⟨depth, h⟩) h

/-! ### Building annotated schemas -/

section Nodes

variable {filled : Filled} {uri : SchemaURI} {V : Json → Json → Prop} {R : SchemaNode → SchemaNode → Prop}

/-- If the second is built, the first is, and its nodes are related to those of the second. -/
abbrev BuiltFrom (L : List SchemaNode → List SchemaNode → Prop) (r r' : Except Abort (List SchemaNode)) : Prop :=
  OkRel (fun nodes' nodes => L nodes nodes') r' r

/-- Values that `V` relates are alike as boolean schemas, and the second has inert nodes besides. -/
structure BuiltGrown (V : Json → Json → Prop) (R : SchemaNode → SchemaNode → Prop) : Prop where
  get_bool : ∀ v v', V v v' → v.get_bool = v'.get_bool
  tree : ∀ v v', V v v' → ∀ filled uri, BuiltFrom (Padding R Inert) (built (build_schema_tree filled v uri))
    (built (build_schema_tree filled v' uri))

theorem builtFrom_refl {L : List SchemaNode → List SchemaNode → Prop} (hL : ∀ nodes, L nodes nodes)
    (r : Except Abort (List SchemaNode)) : BuiltFrom L r r := fun nodes h => ⟨nodes, h, hL nodes⟩

theorem builtFrom_ok {L : List SchemaNode → List SchemaNode → Prop} {nodes nodes' : List SchemaNode}
    (h : L nodes nodes') : BuiltFrom L (.ok nodes) (.ok nodes') := OkRel.pure h

theorem grownBy_subschema {node node' : SchemaNode} (huri : node.uri = node'.uri)
    (hkeyword : node.keyword = node'.keyword) (hparent : node.parent = node'.parent)
    (hread : reading node.keyword ≠ .table ∧ reading node.keyword ≠ .list)
    (hunread : valueUnread node.keyword) (hbool : node.value.get_bool = node'.value.get_bool)
    (hchildren : Padding R Inert node.children node'.children) : GrownBy R node node' where
  uri _ := huri
  keyword := hkeyword
  parent := hparent
  plain h := absurd (hunread.symm.trans h) (by decide)
  bool := hbool
  children := hchildren
  inOrder h := h.elim (fun h => absurd h hread.1) fun h => absurd h hread.2

theorem builtFrom_entry (hV : BuiltGrown V R) {v v' : Json} (hv : V v v') {r r' : Except Abort (List SchemaNode)}
    (hrest : BuiltFrom (List.Forall₂ (AtPlaceBy (GrownBy R))) r r') {node node' : List SchemaNode → SchemaNode}
    (hnode : ∀ children children', Padding R Inert children children' →
      AtPlaceBy (GrownBy R) (node children) (node' children')) :
    BuiltFrom (List.Forall₂ (AtPlaceBy (GrownBy R)))
      ((built (build_schema_tree filled v uri)).bind fun children => r.bind fun nodes =>
        .ok (node children :: nodes))
      ((built (build_schema_tree filled v' uri)).bind fun children => r'.bind fun nodes =>
        .ok (node' children :: nodes)) := by
  refine (hV.tree v v' hv filled uri).bind fun children' children hchildren => ?_
  exact hrest.bind fun nodes' nodes hnodes => builtFrom_ok (.cons (hnode _ _ hchildren) hnodes)

theorem builtFrom_definitions (hV : BuiltGrown V R) {child child' : SchemaNode}
    (hkeyword : child.keyword = child'.keyword) (hparent : child.parent = child'.parent)
    (hread : reading child.keyword = .definitions) (hunread : valueUnread child.keyword)
    (hbool : child.value.get_bool = child'.value.get_bool) (key : Str) {table table' : List (Str × Json)}
    (h : List.Forall₂ (fun e e' => e.1 = e'.1 ∧ V e.2 e'.2) table table') :
    BuiltFrom (List.Forall₂ (AtPlaceBy (GrownBy R))) (built (buildDefinitions filled child key table uri))
      (built (buildDefinitions filled child' key table' uri)) := by
  induction h with
  | nil => exact builtFrom_ok .nil
  | @cons e e' rest rest' h _ ih =>
    rw [built_definitions_cons, built_definitions_cons, h.1]
    refine builtFrom_entry hV h.2 ih fun children children' hchildren => ?_
    exact ⟨rfl, grownBy_subschema rfl hkeyword hparent (by rw [hread]; decide) hunread hbool hchildren⟩

theorem builtFrom_properties (hV : BuiltGrown V R) {table table' : List (Str × Json)}
    (h : List.Forall₂ (fun e e' => e.1 = e'.1 ∧ V e.2 e'.2) table table') :
    BuiltFrom (List.Forall₂ (AtPlaceBy (GrownBy R))) (built (buildProperties uri table))
      (built (buildProperties uri table')) := by
  induction h with
  | nil => exact builtFrom_ok .nil
  | @cons e e' rest rest' h _ ih =>
    rw [built_properties_cons, built_properties_cons, h.1]
    refine builtFrom_entry hV h.2 ih fun children children' hchildren => ?_
    exact ⟨rfl, grownBy_subschema rfl rfl rfl reading_unknown rfl (hV.get_bool _ _ h.2) hchildren⟩

theorem builtFrom_items (hV : BuiltGrown V R) (list_uri : Str) {items items' : List Json}
    (h : List.Forall₂ V items items') :
    ∀ index, BuiltFrom (List.Forall₂ (AtPlaceBy (GrownBy R))) (built (buildItems list_uri index items))
      (built (buildItems list_uri index items')) := by
  induction h with
  | nil => exact fun _ => builtFrom_ok .nil
  | @cons v v' rest rest' hv _ ih =>
    intro index
    rw [built_items_cons, built_items_cons]
    refine builtFrom_entry hV hv (ih (index + 1)) fun children children' hchildren => ?_
    exact ⟨rfl, grownBy_subschema rfl rfl rfl reading_unknown rfl (hV.get_bool _ _ hv) hchildren⟩

theorem builtFrom_member (hV : BuiltGrown V R) (hR : ∀ n, R n n) (hup : ∀ n n', R n n' → GrownBy R n n')
    {m m' : Str × Json} (hkey : m.1 = m'.1) (hv : HeldBy V (keywordOf m.1) m.2 m'.2) :
    BuiltFrom (List.Forall₂ (GrownBy (GrownBy R))) (built (buildMember filled m uri))
      (built (buildMember filled m' uri)) := by
  have hrefl : ∀ nodes, List.Forall₂ (GrownBy (GrownBy R)) nodes nodes := fun nodes =>
    List.forall₂_same.mpr fun n _ => GrownBy.refl (GrownBy.refl hR) n
  have hlift : ∀ {r r' : Except Abort (List SchemaNode)}, BuiltFrom (List.Forall₂ (AtPlaceBy (GrownBy R))) r r' →
      BuiltFrom (List.Forall₂ (GrownBy (GrownBy R))) r r' := by
    intro r r' h nodes' hnodes'
    obtain ⟨nodes, hnodes, hrelated⟩ := h nodes' hnodes'
    exact ⟨nodes, hnodes, hrelated.imp fun _ _ h => h.2.imp hup⟩
  obtain ⟨key, v⟩ := m
  obtain ⟨_, v'⟩ := m'
  obtain rfl := hkey
  unfold HeldBy at hv
  cases hkw : holds (keywordOf key) with
  | plain =>
    rw [hkw] at hv
    obtain rfl : v = v' := hv
    exact builtFrom_refl hrefl _
  | schema =>
    rw [hkw] at hv
    have hread := reading_of_schema hkw
    have hplain : holds (keywordOf key) ≠ .plain := by rw [hkw]; decide
    rw [built_member_tree hread, built_member_tree hread, keywordNode_of_holds hplain, keywordNode_of_holds hplain]
    refine hlift ((hV.tree v v' hv _ _).bind fun children' children hchildren => builtFrom_ok (.cons ?_ .nil))
    refine ⟨rfl, ?_⟩
    exact grownBy_subschema rfl rfl rfl ⟨by simp [hread], by simp [hread]⟩ (valueUnread_of_holds hplain)
      (hV.get_bool _ _ hv) hchildren
  | table =>
    rw [hkw] at hv
    have hplain : holds (keywordOf key) ≠ .plain := by rw [hkw]; decide
    rcases hv with rfl | ⟨table, table', rfl, rfl, htable⟩
    · exact builtFrom_refl hrefl _
    rcases reading_of_table hkw with hread | hread
    · rw [built_member_table hread, built_member_table hread]
      refine (builtFrom_properties hV htable).bind fun children' children hchildren => builtFrom_ok (.cons ?_ .nil)
      exact
        { uri := fun _ => rfl
          keyword := rfl
          parent := rfl
          plain := fun h => absurd ((valueUnread_of_holds hplain).symm.trans h) (by decide)
          bool := rfl
          children := .of_forall₂ (hchildren.imp fun _ _ h => h.2)
          inOrder := fun _ => hchildren }
    · rw [built_member_definitions hread, built_member_definitions hread, keywordNode_of_holds hplain,
        keywordNode_of_holds hplain]
      refine hlift (builtFrom_definitions hV ?_ ?_ ?_ ?_ ?_ key htable)
      · rfl
      · rfl
      · exact hread
      · exact valueUnread_of_holds hplain
      · rfl
  | list =>
    rw [hkw] at hv
    rcases hv with rfl | ⟨items, items', rfl, rfl, hitems⟩
    · exact builtFrom_refl hrefl _
    have hread := reading_of_list hkw
    rw [built_member_list hread, built_member_list hread]
    exact hlift (builtFrom_items hV _ hitems 0)

theorem Addable.inert {members : List (Str × Json)} {m : Str × Json} (h : Addable members m) :
    isAnnotation (keywordOf m.1) ∨ keywordOf m.1 = .Then ∨ keywordOf m.1 = .Else :=
  h.imp_right And.left

/-- Such a keyword gets a node of its own, and does not name its schema. -/
theorem reading_of_inert {kw : Keyword} (h : isAnnotation kw ∨ kw = .Then ∨ kw = .Else) :
    reading kw = .tree ∧ kw ≠ .ID := by
  rcases h with h | rfl | rfl
  · cases kw <;> first | exact ⟨rfl, by decide⟩ | exact absurd h (by decide)
  · exact ⟨rfl, by decide⟩
  · exact ⟨rfl, by decide⟩

theorem keyword_of_built {m : Str × Json} (h : isAnnotation (keywordOf m.1) ∨ keywordOf m.1 = .Then ∨ keywordOf m.1 = .Else)
    {nodes : List SchemaNode} (hbuilt : built (buildMember filled m uri) = .ok nodes) :
    ∀ node ∈ nodes, node.keyword = keywordOf m.1 := by
  obtain ⟨hread, -⟩ := reading_of_inert h
  rw [built_member_tree hread] at hbuilt
  obtain ⟨children, -, hnodes⟩ := bind_eq_ok.mp hbuilt
  obtain rfl := Except.ok.inj hnodes
  intro node hnode
  obtain rfl := List.mem_singleton.mp hnode
  exact keywordNode_keyword filled (keywordOf m.1) m.1 m.2 uri

/-- The URI the rest of a schema is read under is not the added members'. -/
theorem nextUri_of_heldBy {m m' : Str × Json} (hkey : m.1 = m'.1) (hv : HeldBy V (keywordOf m.1) m.2 m'.2) :
    nextUri (keywordOf m.1) m.2 uri = nextUri (keywordOf m'.1) m'.2 uri := by
  rw [← hkey]
  by_cases hid : keywordOf m.1 = .ID
  · unfold HeldBy at hv
    rw [hid] at hv
    rw [show m.2 = m'.2 from hv]
  · rw [nextUri_of_ne hid, nextUri_of_ne hid]

/-- The nodes that stand for members in `Q`. -/
def NodeOf (Q : Str × Json → Prop) (node : SchemaNode) : Prop := ∃ m, Q m ∧ node.keyword = keywordOf m.1

theorem NodeOf.inert {members : List (Str × Json)} {node : SchemaNode} (h : NodeOf (Addable members) node) :
    Inert node := by
  obtain ⟨m, hm, hkeyword⟩ := h
  unfold Inert
  rw [hkeyword]
  exact hm.inert

/-- The nodes of a schema, and those of the schema with members added. -/
theorem builtFrom_keywords (hV : BuiltGrown V R) (hR : ∀ n, R n n) (hup : ∀ n n', R n n' → GrownBy R n n')
    {Q : Str × Json → Prop} (hQ : ∀ m, Q m → isAnnotation (keywordOf m.1) ∨ keywordOf m.1 = .Then ∨ keywordOf m.1 = .Else)
    {members members' : List (Str × Json)}
    (h : Padding (fun m m' => m.1 = m'.1 ∧ HeldBy V (keywordOf m.1) m.2 m'.2) Q members members') :
    ∀ uri, BuiltFrom (Padding (GrownBy (GrownBy R)) (NodeOf Q)) (built (buildKeywords filled members uri))
      (built (buildKeywords filled members' uri)) := by
  induction h with
  | nil => exact fun _ => builtFrom_ok .nil
  | @keep m m' rest rest' h _ ih =>
    intro uri
    rw [built_keywords_cons, built_keywords_cons, nextUri_of_heldBy h.1 h.2]
    refine (builtFrom_member hV hR hup h.1 h.2).bind fun nodes' nodes hnodes => ?_
    exact (ih _).bind fun others' others hothers => builtFrom_ok ((Padding.of_forall₂ hnodes).append hothers)
  | @add m' rest rest' h _ ih =>
    intro uri
    obtain ⟨-, hid⟩ := reading_of_inert (hQ m' h)
    rw [built_keywords_cons, nextUri_of_ne hid]
    intro nodes' hnodes'
    obtain ⟨added, hadded, hnodes'⟩ := bind_eq_ok.mp hnodes'
    obtain ⟨others', hothers', hnodes'⟩ := bind_eq_ok.mp hnodes'
    obtain rfl := Except.ok.inj hnodes'
    obtain ⟨others, hothers, hpadding⟩ := ih uri others' hothers'
    refine ⟨others, hothers, .append_added (fun n hn => ⟨m', h, ?_⟩) hpadding⟩
    exact keyword_of_built (hQ m' h) hadded n hn

end Nodes

/-- The nodes of a schema, and those of the schema with members added. -/
theorem built_members {depth : ℕ} (ih : BuiltGrown (AnnotatedTo depth) (GrownTo (2 * depth)))
    {members members' : List (Str × Json)}
    (h : Padding (fun m m' => m.1 = m'.1 ∧ HeldBy (AnnotatedTo depth) (keywordOf m.1) m.2 m'.2) (Addable members)
      members members') (filled : Filled) (uri : SchemaURI) :
    BuiltFrom (Padding (GrownTo (2 * (depth + 1))) (NodeOf (Addable members)))
      (built (build_schema_tree filled (.obj members) uri)) (built (build_schema_tree filled (.obj members') uri)) :=
  builtFrom_keywords ih (GrownTo.refl _) (fun _ _ => GrownTo.succ) (fun _ => Addable.inert) h uri

/-- Annotated schemas have the nodes of the schemas without annotations. -/
theorem built_annotated : ∀ depth, BuiltGrown (AnnotatedTo depth) (GrownTo (2 * depth)) := by
  intro depth
  induction depth with
  | zero =>
    refine ⟨fun v v' h => h.get_bool, ?_⟩
    rintro v _ rfl filled uri
    exact builtFrom_refl (fun nodes => .of_forall₂ (List.forall₂_same.mpr fun _ _ => rfl)) _
  | succ depth ih =>
    refine ⟨fun v v' h => h.get_bool, ?_⟩
    rintro v v' (rfl | ⟨items, items', rfl, rfl, -⟩ | ⟨members, members', rfl, rfl, hpadding⟩) filled uri
    · exact builtFrom_refl (fun nodes => .of_forall₂ (List.forall₂_same.mpr fun n _ => GrownTo.refl _ n)) _
    · exact builtFrom_ok .nil
    · intro nodes' hnodes'
      obtain ⟨nodes, hnodes, h⟩ := built_members ih hpadding filled uri nodes' hnodes'
      exact ⟨nodes, hnodes, h.imp (fun _ _ h => h) fun _ h => h.inert⟩

/-- **Compiling annotated schemas.**  If the annotated schema is compiled, the other is, and the nodes of the
one are those of the other and inert nodes. -/
theorem compile_annotated {schema schema' : Json} (h : Annotated schema schema') {c' : SchemaCompiler}
    (hc' : compile schema' = .ok c') : ∃ c, compile schema = .ok c ∧ Grown c.root_node_ c'.root_node_ := by
  obtain ⟨depth, h⟩ := h
  have hbuilt' := built_of_compile hc'
  obtain ⟨children, hbuilt, hchildren⟩ := (built_annotated depth).tree schema schema' h _ _ _ hbuilt'
  obtain ⟨r', -, hc'⟩ := bind_eq_ok.mp hc'
  obtain rfl := Except.ok.inj hc'
  unfold built at hbuilt
  cases htree : build_schema_tree ⟨.root, true⟩ schema (.parse "#".toList) {} with
  | error a =>
    rw [htree] at hbuilt
    cases hbuilt
  | ok r =>
    obtain ⟨_, st⟩ := r
    rw [htree] at hbuilt
    obtain rfl := Except.ok.inj hbuilt
    refine ⟨_, bind_eq_ok.mpr ⟨_, htree, rfl⟩, 2 * depth + 1, ?_⟩
    exact
      { uri := fun h => absurd rfl h
        keyword := rfl
        parent := rfl
        plain := fun h => absurd (show valueUnread .Schema = false from h) (by decide)
        bool := h.get_bool
        children := hchildren
        inOrder := fun h => absurd (show reading .Schema = .table ∨ reading .Schema = .list from h) (by decide) }

end Siesta.JsonSchema
