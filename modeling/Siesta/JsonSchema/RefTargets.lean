import Siesta.JsonSchema.Validator
import Siesta.Lib.ListM

/-!
# References to definitions

A definition becomes a node with the keyword of its table and the whole table as its value, and
`validate_node` treats it like an annotation.  A `$ref` to it therefore accepts every instance.  Where
`$id`, `$anchor` or `$dynamicAnchor` register another node under the same URI first, the `$ref` means
that node.
-/

namespace Siesta.JsonSchema

open Lib

/-! ### The documents -/

/-- The two keywords for a table of definitions. -/
inductive Definitions where
  | defs | definitions

namespace Definitions

def key : Definitions → Str
  | defs => "$defs".toList
  | definitions => "definitions".toList

def keyword : Definitions → Keyword
  | defs => .Defs
  | definitions => .Definitions

/-- The reference to a definition. -/
def pointer (k : Definitions) (name : Str) : Str := "#".toList ++ '/' :: k.key ++ '/' :: name

/-- A table of definitions and a reference to one of them, in either order. -/
def document (k : Definitions) (ref_first : Bool) (table : List (Str × Json)) (name : Str) : Json :=
  let definitions := (k.key, Json.obj table)
  let ref := ("$ref".toList, Json.str (k.pointer name))
  .obj (if ref_first then [ref, definitions] else [definitions, ref])

def IsDefinition (k : Definitions) (table : List (Str × Json)) (node : SchemaNode) : Prop :=
  node.keyword = k.keyword ∧ node.value = .obj table

end Definitions

/-! ### The nodes of the definitions -/

/-- Every definition has a node under its URI, and there are no others. -/
theorem buildDefinitions_nodes {filled : Filled} {child : SchemaNode} {key : Str} {uri : SchemaURI} :
    ∀ {table : List (Str × Json)} {st st' : BuildState} {nodes : List SchemaNode},
      buildDefinitions filled child key table uri st = .ok (nodes, st') →
      (∀ node ∈ nodes, node.keyword = child.keyword ∧ node.value = child.value) ∧
        ∀ e ∈ table, ∃ node ∈ nodes, node.uri.to_string = definitionUri filled key e.1 uri := by
  intro table
  induction table with
  | nil =>
    intro st st' nodes h
    obtain ⟨rfl, -⟩ := Prod.mk.inj (Except.ok.inj h)
    exact ⟨by simp, by simp⟩
  | cons e table ih =>
    intro st st' nodes h
    obtain ⟨name, value⟩ := e
    obtain ⟨⟨children, st₁⟩, -, h⟩ := bind_eq_ok.mp h
    obtain ⟨⟨nodes₁, st₂⟩, htable, h⟩ := bind_eq_ok.mp h
    obtain ⟨rfl, -⟩ := Prod.mk.inj (Except.ok.inj h)
    obtain ⟨hkind, hnodes⟩ := ih htable
    constructor
    · intro node hnode
      rcases List.mem_cons.mp hnode with rfl | hnode
      · exact ⟨rfl, rfl⟩
      · exact hkind node hnode
    · intro e he
      rcases List.mem_cons.mp he with rfl | he
      · exact ⟨_, List.mem_cons_self .., SchemaURI.to_string_parse _⟩
      · obtain ⟨node, hnode, huri⟩ := hnodes e he
        exact ⟨node, List.mem_cons_of_mem _ hnode, huri⟩

/-- The node of the `$ref`. -/
def refNode (target : Str) : SchemaNode :=
  { uri := .parse "#/$ref".toList, keyword := .Ref, value := .str target, parent := .root }

/-- The node the definitions are moved out of. -/
def definitionsNode (k : Definitions) (table : List (Str × Json)) : SchemaNode :=
  { uri := .parse ("#".toList ++ '/' :: k.key), keyword := k.keyword, value := .obj table, parent := .root }

/-- Both orders build the definitions under `#` and add the node of the `$ref`. -/
theorem build_document (k : Definitions) (ref_first : Bool) (table : List (Str × Json)) (name : Str) :
    build_schema_tree ⟨.root, true⟩ (k.document ref_first table name) (.parse "#".toList) {} =
      (buildDefinitions ⟨.root, true⟩ (definitionsNode k table) k.key table (.parse "#".toList) {}).bind
        fun r => .ok (if ref_first then refNode (k.pointer name) :: (r.1 ++ [])
          else r.1 ++ [refNode (k.pointer name)], r.2) := by
  cases ref_first with
  | false => cases k <;> rfl
  | true =>
    have hnested : build_schema_tree ⟨.root, true⟩ (k.document true table name) (.parse "#".toList) {} =
        ((buildDefinitions ⟨.root, true⟩ (definitionsNode k table) k.key table (.parse "#".toList) {}).bind
          fun r => .ok (r.1 ++ [], r.2)).bind fun r => .ok (refNode (k.pointer name) :: r.1, r.2) := by
      cases k <;> rfl
    rw [hnested]
    cases buildDefinitions ⟨.root, true⟩ (definitionsNode k table) k.key table (.parse "#".toList) {} <;> rfl

/-- The children of the root: the nodes of the definitions, with the `$ref` before or after them. -/
theorem compile_document {k : Definitions} {ref_first : Bool} {table : List (Str × Json)} {name : Str}
    {c : SchemaCompiler} (hc : compile (k.document ref_first table name) = .ok c) :
    c.root_node_.keyword = .Schema ∧ ∃ before after, c.root_node_.children =
        before ++ refNode (k.pointer name) :: after ∧
      (∀ node ∈ before ++ after, k.IsDefinition table node) ∧
      ∀ e ∈ table, ∃ node ∈ before ++ after, node.uri.to_string = k.pointer e.1 := by
  obtain ⟨⟨children, st⟩, htree, hc⟩ := bind_eq_ok.mp hc
  obtain rfl := Except.ok.inj hc
  refine ⟨rfl, ?_⟩
  rw [build_document] at htree
  obtain ⟨⟨nodes, st'⟩, hdefs, htree⟩ := bind_eq_ok.mp htree
  obtain ⟨hchildren, -⟩ := Prod.mk.inj (Except.ok.inj htree)
  obtain ⟨hkind, hnodes⟩ := buildDefinitions_nodes hdefs
  have huri : ∀ e : Str × Json, definitionUri ⟨.root, true⟩ k.key e.1 (.parse "#".toList) = k.pointer e.1 :=
    fun _ => rfl
  cases ref_first with
  | true =>
    refine ⟨[], nodes, ?_, fun node hnode => hkind node hnode, fun e he => ?_⟩
    · show children = _
      rw [← hchildren]
      simp
    · rw [← huri]
      exact hnodes e he
  | false =>
    refine ⟨nodes, [], ?_, fun node hnode => ?_, fun e he => ?_⟩
    · exact hchildren.symm
    · rw [List.append_nil] at hnode
      exact hkind node hnode
    · rw [← huri, List.append_nil]
      exact hnodes e he

/-! ### The node a reference finds -/

theorem self_mem_collectNode (tables : Anchors) (node : SchemaNode) :
    node.uri.to_string ∈ (collectNode tables node).anchors_ := by
  unfold collectNode
  exact Table.mem_emplace.mpr (.inl rfl)

theorem mem_collectNode {tables : Anchors} {uri : Str} (h : uri ∈ tables.anchors_) (node : SchemaNode) :
    uri ∈ (collectNode tables node).anchors_ := by
  unfold collectNode
  apply Table.mem_emplace.mpr
  right
  split <;> split <;> simp [Table.mem_emplace, h]

theorem mem_foldl_collectNode : ∀ (nodes : List SchemaNode) (tables : Anchors) (uri : Str),
    uri ∈ tables.anchors_ ∨ (∃ node ∈ nodes, node.uri.to_string = uri) →
      uri ∈ (nodes.foldl collectNode tables).anchors_ := by
  intro nodes
  induction nodes with
  | nil =>
    rintro tables uri (h | ⟨node, hnode, -⟩)
    · exact h
    · simp at hnode
  | cons node nodes ih =>
    intro tables uri h
    apply ih
    rcases h with h | ⟨n, hn, rfl⟩
    · exact .inl (mem_collectNode h node)
    · rcases List.mem_cons.mp hn with rfl | hn
      · exact .inl (self_mem_collectNode tables n)
      · exact .inr ⟨n, hn, rfl⟩

theorem self_mem_preorder (node : SchemaNode) : node ∈ node.preorder := by
  cases node
  rw [SchemaNode.preorder]
  exact List.mem_cons_self ..

theorem mem_preorders : ∀ {nodes : List SchemaNode} {node : SchemaNode}, node ∈ nodes → node ∈ preorders nodes
  | n :: nodes, node, h => by
    rw [preorders]
    rcases List.mem_cons.mp h with rfl | h
    · exact List.mem_append_left _ (self_mem_preorder _)
    · exact List.mem_append_right _ (mem_preorders h)

theorem child_mem_preorder {node child : SchemaNode} (h : child ∈ node.children) : child ∈ node.preorder := by
  cases node
  rw [SchemaNode.preorder]
  exact List.mem_cons_of_mem _ (mem_preorders h)

theorem find_ref_pointer {k : Definitions} {ref_first : Bool} {table : List (Str × Json)} {name : Str}
    {d : Json} {c : SchemaCompiler} (hc : compile (k.document ref_first table name) = .ok c)
    (hmem : (name, d) ∈ table) : ∃ target, c.find_ref (k.pointer name) = some (.node target) := by
  obtain ⟨-, before, after, hchildren, -, hnodes⟩ := compile_document hc
  obtain ⟨node, hnode, huri⟩ := hnodes _ hmem
  have hchild : node ∈ c.root_node_.children := by
    rw [hchildren]
    rcases List.mem_append.mp hnode with h | h
    · exact List.mem_append_left _ h
    · exact List.mem_append_right _ (List.mem_cons_of_mem _ h)
  have htables : ∃ ids_, c.tables = collect_anchors c.root_node_ { ids_ } := by
    obtain ⟨⟨children, st⟩, -, hc⟩ := bind_eq_ok.mp hc
    obtain rfl := Except.ok.inj hc
    exact ⟨_, rfl⟩
  obtain ⟨ids_, htables⟩ := htables
  have hregistered : k.pointer name ∈ c.tables.anchors_ := by
    rw [htables]
    exact mem_foldl_collectNode _ _ _ (.inr ⟨node, child_mem_preorder hchild, huri⟩)
  obtain ⟨target, hfind⟩ := Table.mem_iff_find.mp hregistered
  refine ⟨target, ?_⟩
  unfold SchemaCompiler.find_ref
  rw [hfind]
  rfl

/-! ### The verdict of a reference -/

/-- A call for a node ends, with no error exactly if `verdict`. -/
def NodeVerdict (P : Platform) (c : SchemaCompiler) (node : SchemaNode) (x : Json) (verdict : Bool) : Prop :=
  ∃ depth t, runCalls (validate_node P c) depth ⟨node, x, node.uri.to_string⟩ ⟨[], {}⟩ = .ok t ∧
    t.errors.isEmpty = verdict

theorem Definitions.IsDefinition.silent {k : Definitions} {table : List (Str × Json)} {node : SchemaNode}
    (h : k.IsDefinition table node) (P : Platform) (c : SchemaCompiler) : Silent P c node := by
  obtain ⟨hkeyword, hvalue⟩ := h
  refine silent_of_default ?_ hvalue
  cases k
  · exact .inr (.inl hkeyword)
  · exact .inr (.inr (.inl hkeyword))

theorem nodeVerdict_definition {P : Platform} {c : SchemaCompiler} {k : Definitions}
    {table : List (Str × Json)} {node : SchemaNode} (h : k.IsDefinition table node) (x : Json) (b : Bool) :
    NodeVerdict P c node x b ↔ b = true := by
  have hrun : ∀ depth, runCalls (validate_node P c) (depth + 1) ⟨node, x, node.uri.to_string⟩ ⟨[], {}⟩ =
      .ok ⟨[], {}⟩ := by
    intro depth
    show (validate_node P c ⟨node, x, node.uri.to_string⟩).run _ _ = _
    rw [h.silent P c x]
    rfl
  constructor
  · rintro ⟨depth, t, ht, rfl⟩
    cases depth with
    | zero => exact absurd ht (by simp [runCalls])
    | succ depth =>
      rw [hrun] at ht
      obtain rfl := Except.ok.inj ht
      rfl
  · rintro rfl
    exact ⟨1, _, hrun 0, rfl⟩

theorem hasVerdict_document {P : Platform} {k : Definitions} {ref_first : Bool}
    {table : List (Str × Json)} {name : Str} {c : SchemaCompiler} {target : SchemaNode} {x : Json} {b : Bool}
    (hc : compile (k.document ref_first table name) = .ok c)
    (hfind : c.find_ref (k.pointer name) = some (.node target)) :
    HasVerdict P (k.document ref_first table name) x b ↔ NodeVerdict P c target x b := by
  obtain ⟨hkeyword, before, after, hchildren, hdefinitions, -⟩ := compile_document hc
  have hbefore : ∀ node ∈ before, Silent P c node := fun node hnode =>
    (hdefinitions node (List.mem_append_left _ hnode)).silent P c
  have hafter : ∀ node ∈ after, Silent P c node := fun node hnode =>
    (hdefinitions node (List.mem_append_right _ hnode)).silent P c
  -- the definitions do nothing, and the `$ref` calls for its target two levels down
  have hrun : ∀ depth t, runCalls (validate_node P c) (depth + 2) (rootCall c x) t =
      runCalls (validate_node P c) depth ⟨target, x, target.uri.to_string⟩ t := by
    intro depth t
    have href : validate_node P c ⟨refNode (k.pointer name), x, (refNode (k.pointer name)).uri.to_string⟩ =
        visit x target := by
      show validateRef c x _ (.str (k.pointer name)) = _
      unfold validateRef
      simp only [Json.get_string, hfind]
    have hvisit : ∀ t, (visit x (refNode (k.pointer name))).run (runCalls (validate_node P c) (depth + 1)) t =
        runCalls (validate_node P c) depth ⟨target, x, target.uri.to_string⟩ t := by
      intro t
      rw [run_visit, href]
      rfl
    show (validate_node P c (rootCall c x)).run (runCalls (validate_node P c) (depth + 1)) t = _
    rw [validate_node_root hkeyword, hchildren, visitAll, List.map_append, Check.run_all_append]
    have hfirst := run_visitAll_silent hbefore depth x t
    unfold visitAll at hfirst
    rw [hfirst]
    show ((visit x (refNode (k.pointer name))).run (runCalls (validate_node P c) (depth + 1)) t).bind
      (fun t => (visitAll x after).run (runCalls (validate_node P c) (depth + 1)) t) = _
    rw [hvisit]
    cases runCalls (validate_node P c) depth ⟨target, x, target.uri.to_string⟩ t with
    | error s => rfl
    | ok t' => exact run_visitAll_silent hafter depth x t'
  constructor
  · rintro ⟨c', hc', depth, hdepth⟩
    obtain rfl : c = c' := by rw [hc] at hc'; exact Except.ok.inj hc'
    obtain ⟨t, ht, hb⟩ := validate_eq_ok.mp hdepth
    have hdeeper : runCalls (validate_node P c) (depth + 2) (rootCall c x) ⟨[], {}⟩ = .ok t := by
      rw [runCalls_mono (Nat.le_add_right depth 2) (by rw [ht]; simp), ht]
    rw [hrun] at hdeeper
    exact ⟨depth, t, hdeeper, hb⟩
  · rintro ⟨depth, t, ht, hb⟩
    exact ⟨c, hc, depth + 2, validate_eq_ok.mpr ⟨t, by rw [hrun, ht], hb⟩⟩

/-- **When a reference means its definition.**  The document with a reference has the verdict of the
definition exactly if the definition accepts the instance, provided the reference finds a definition;
where another node is registered for it, exactly if that node has the verdict of the definition. -/
theorem ref_right_iff {P : Platform} {k : Definitions} {ref_first : Bool} {table : List (Str × Json)}
    {name : Str} {d x : Json} {c : SchemaCompiler}
    (hc : compile (k.document ref_first table name) = .ok c) (hmem : (name, d) ∈ table) :
    ∃ target, c.find_ref (k.pointer name) = some (.node target) ∧
      ((∀ b, HasVerdict P (k.document ref_first table name) x b ↔ HasVerdict P d x b) ↔
        (k.IsDefinition table target → HasVerdict P d x true) ∧
          (¬ k.IsDefinition table target → ∀ b, NodeVerdict P c target x b ↔ HasVerdict P d x b)) := by
  obtain ⟨target, hfind⟩ := find_ref_pointer hc hmem
  refine ⟨target, hfind, ?_⟩
  have hverdict : ∀ b, HasVerdict P (k.document ref_first table name) x b ↔ NodeVerdict P c target x b :=
    fun b => hasVerdict_document hc hfind
  constructor
  · intro h
    constructor
    · intro hdefinition
      exact (h true).mp ((hverdict true).mpr ((nodeVerdict_definition hdefinition x true).mpr rfl))
    · exact fun _ b => (hverdict b).symm.trans (h b)
  · rintro ⟨hdefinition, hother⟩ b
    rw [hverdict]
    by_cases h : k.IsDefinition table target
    · rw [nodeVerdict_definition h]
      constructor
      · rintro rfl
        exact hdefinition h
      · exact fun hb => hb.unique (hdefinition h)
    · exact hother h b

/-- A definition that asks for a string. -/
def nameTable : List (Str × Json) := [("name".toList, .obj [("type".toList, .str "string".toList)])]

theorem ref_right_iff_name :
    ∃ c target, compile (Definitions.defs.document false nameTable "name".toList) = .ok c ∧
      c.find_ref (Definitions.defs.pointer "name".toList) = some (.node target) ∧
      ((∀ b, HasVerdict wholeNumbers (Definitions.defs.document false nameTable "name".toList) (.int 1) b ↔
          HasVerdict wholeNumbers (.obj [("type".toList, .str "string".toList)]) (.int 1) b) ↔
        (Definitions.defs.IsDefinition nameTable target →
            HasVerdict wholeNumbers (.obj [("type".toList, .str "string".toList)]) (.int 1) true) ∧
          (¬ Definitions.defs.IsDefinition nameTable target → ∀ b,
            NodeVerdict wholeNumbers c target (.int 1) b ↔
              HasVerdict wholeNumbers (.obj [("type".toList, .str "string".toList)]) (.int 1) b)) := by
  have hcompile : ∃ c, compile (Definitions.defs.document false nameTable "name".toList) = .ok c := ⟨_, rfl⟩
  obtain ⟨c, hc⟩ := hcompile
  obtain ⟨target, hfind, hiff⟩ := ref_right_iff (P := wholeNumbers) (x := .int 1) hc (List.mem_cons_self ..)
  exact ⟨c, target, hc, hfind, hiff⟩

/-- The reference accepts a number that its definition rejects. -/
theorem ref_accepts_number :
    ¬ ∀ b, HasVerdict wholeNumbers (Definitions.defs.document false nameTable "name".toList) (.int 1) b ↔
      HasVerdict wholeNumbers (.obj [("type".toList, .str "string".toList)]) (.int 1) b := by
  intro h
  have hroot : HasVerdict wholeNumbers (Definitions.defs.document false nameTable "name".toList) (.int 1) true :=
    hasVerdict_of_verdictUpTo (show verdictUpTo wholeNumbers 3 _ _ = some true by decide)
  have hdefinition : HasVerdict wholeNumbers (.obj [("type".toList, .str "string".toList)]) (.int 1) false :=
    hasVerdict_of_verdictUpTo (show verdictUpTo wholeNumbers 2 _ _ = some false by decide)
  exact absurd (((h true).mp hroot).unique hdefinition) (by decide)

end Siesta.JsonSchema
