import Siesta.JsonSchema.PlainSchemas

/-!
# `allOf`, `anyOf` and `oneOf`

`validate_node` has a case for each of the three, but `build_schema_tree` makes no node with these
keywords: the alternatives hang on the node of the schema itself, as nodes without a keyword, which
constrain nothing.  A combination therefore accepts every instance (`combination_accepts`).
-/

namespace Siesta.JsonSchema

open Lib

/-- The combinators. -/
inductive Combinator where
  | allOf | anyOf | oneOf

namespace Combinator

def key : Combinator → Str
  | allOf => "allOf".toList
  | anyOf => "anyOf".toList
  | oneOf => "oneOf".toList

/-- The verdict that a combinator makes of those of its alternatives. -/
def Combines : Combinator → List Prop → Prop
  | allOf, verdicts => ∀ v ∈ verdicts, v
  | anyOf, verdicts => ∃ v ∈ verdicts, v
  | oneOf, verdicts => ∃ before v after, verdicts = before ++ v :: after ∧ v ∧ ∀ w ∈ before ++ after, ¬ w

end Combinator

/-- Combinations of schemas of the fragment, nested to any depth. -/
inductive Combination where
  | plain (s : PlainSchema)
  | combine (k : Combinator) (items : List Combination)

mutual

/-- The document of a combination. -/
def Combination.toJson : Combination → Json
  | .plain s => s.toJson
  | .combine k items => .obj [(k.key, .arr (Combination.documents items))]

def Combination.documents : List Combination → List Json
  | [] => []
  | c :: items => c.toJson :: Combination.documents items

end

/-! ### The tree of a combination -/

/-- A node without a keyword of its own, for an object. -/
def Idle (node : SchemaNode) : Prop := node.keyword = .Unknown ∧ ∃ members, node.value = .obj members

/-- `build_schema_tree` turns the alternatives of a combinator into children, and adds nothing else. -/
theorem build_combine (filled : Filled) (k : Combinator) (items : List Json) (uri : SchemaURI)
    (st : BuildState) : build_schema_tree filled (.obj [(k.key, .arr items)]) uri st =
      (buildItems (uri.to_string ++ '/' :: k.key) 0 items st).bind fun r => .ok (r.1 ++ [], r.2) := by
  cases k <;> rfl

mutual

theorem Combination.build : ∀ (s : Combination) filled uri st,
    ∃ nodes, build_schema_tree filled s.toJson uri st = .ok (nodes, st)
  | .plain s, filled, uri, st => by
    obtain ⟨nodes, hbuild, -⟩ := PlainSchema.build wholeNumbers s filled uri st
    exact ⟨nodes, hbuild⟩
  | .combine k items, filled, uri, st => by
    obtain ⟨nodes, hbuild, -⟩ := Combination.buildAll items (uri.to_string ++ '/' :: k.key) 0 st
    refine ⟨nodes ++ [], ?_⟩
    rw [Combination.toJson, build_combine, hbuild]
    rfl

theorem Combination.buildAll : ∀ (items : List Combination) list_uri index st,
    ∃ nodes, buildItems list_uri index (Combination.documents items) st = .ok (nodes, st) ∧
      ∀ node ∈ nodes, Idle node
  | [], _, _, st => ⟨[], rfl, by simp⟩
  | s :: items, list_uri, index, st => by
    obtain ⟨children, hchildren⟩ := Combination.build s ⟨.destroyed, true⟩
      (.parse (list_uri ++ '/' :: (Nat.repr index).toList)) st
    obtain ⟨nodes, hbuild, hidle⟩ := Combination.buildAll items list_uri (index + 1) st
    obtain ⟨members, hmembers⟩ : ∃ members, s.toJson = .obj members := by
      cases s with
      | plain s => exact ⟨_, rfl⟩
      | combine k items => exact ⟨_, rfl⟩
    refine ⟨{ uri := .parse (list_uri ++ '/' :: (Nat.repr index).toList), value := s.toJson, children } :: nodes,
      ?_, fun node hnode => ?_⟩
    · simp only [Combination.documents, buildItems, hchildren, bind, Except.bind, hbuild]
    · rcases List.mem_cons.mp hnode with rfl | hnode
      · exact ⟨rfl, members, hmembers⟩
      · exact hidle node hnode

end

theorem combination_accepts (P : Platform) (k : Combinator) (items : List Combination) (x : Json) :
    HasVerdict P (Combination.combine k items).toJson x true := by
  obtain ⟨nodes, hbuild, hidle⟩ := Combination.buildAll items ("#".toList ++ '/' :: k.key) 0 {}
  have htree : build_schema_tree ⟨.root, true⟩ (Combination.combine k items).toJson (.parse "#".toList) {} =
      .ok (nodes ++ [], {}) := by
    rw [Combination.toJson, build_combine, SchemaURI.to_string_parse, hbuild]
    rfl
  obtain ⟨c, hc, hkeyword, hchildren⟩ := compile_of_build htree
  have hsilent : ∀ node ∈ nodes, Silent P c node := by
    intro node hnode
    obtain ⟨hidle, members, hvalue⟩ := hidle node hnode
    exact silent_of_default (.inl hidle) hvalue
  have hrun : runCalls (validate_node P c) 2 (rootCall c x) ⟨[], {}⟩ = .ok ⟨[], {}⟩ := by
    show (validate_node P c (rootCall c x)).run _ _ = _
    rw [validate_node_root hkeyword, hchildren, List.append_nil]
    exact run_visitAll_silent hsilent 0 x _
  exact ⟨c, hc, 2, validate_eq_ok.mpr ⟨_, hrun, rfl⟩⟩

/-! ### When a combination is right -/

/-- What `validate` finds for an alternative: a combination is accepted whatever it consists of. -/
def Combination.Accepted (P : Platform) (x : Json) : Combination → Prop
  | .plain s => HasVerdict P s.toJson x true
  | .combine _ _ => True

theorem Combination.accepted_iff (P : Platform) (x : Json) (s : Combination) :
    HasVerdict P s.toJson x true ↔ s.Accepted P x := by
  cases s with
  | plain s => exact Iff.rfl
  | combine k items => exact ⟨fun _ => trivial, fun _ => combination_accepts P k items x⟩

/-- **When a combination is right.**  The verdict of a combination is the one its combinator makes of the
verdicts of its alternatives if and only if that one is to accept, where alternatives that are combinations
themselves count as accepted. -/
theorem combination_right_iff (P : Platform) (k : Combinator) (items : List Combination) (x : Json) :
    (HasVerdict P (Combination.combine k items).toJson x true ↔
        k.Combines (items.map fun s => HasVerdict P s.toJson x true)) ↔
      k.Combines (items.map (Combination.Accepted P x)) := by
  have haccepts : HasVerdict P (Combination.combine k items).toJson x true :=
    combination_accepts P k items x
  have hverdicts : items.map (fun s => HasVerdict P s.toJson x true) = items.map (Combination.Accepted P x) :=
    List.map_congr_left fun s _ => propext (s.accepted_iff P x)
  rw [hverdicts]
  constructor
  · exact fun h => h.mp haccepts
  · exact fun h => ⟨fun _ => h, fun _ => haccepts⟩

/-- One schema in an `allOf`: a string is asked for, a number is accepted. -/
theorem allOf_accepts_number :
    ¬ (HasVerdict wholeNumbers (Combination.combine .allOf [.plain [.type_ "string".toList]]).toJson (.int 1)
        true ↔
      Combinator.allOf.Combines ([Combination.plain [.type_ "string".toList]].map
        fun s => HasVerdict wholeNumbers s.toJson (.int 1) true)) := by
  intro h
  have haccepts : HasVerdict wholeNumbers (PlainSchema.toJson [.type_ "string".toList]) (.int 1) true :=
    h.mp (hasVerdict_of_verdictUpTo (show verdictUpTo wholeNumbers 2 _ _ = some true by decide)) _ (by
      simp [Combination.toJson])
  have hrejects : HasVerdict wholeNumbers (PlainSchema.toJson [.type_ "string".toList]) (.int 1) false :=
    hasVerdict_of_verdictUpTo (show verdictUpTo wholeNumbers 2 _ _ = some false by decide)
  exact absurd (haccepts.unique hrejects) (by decide)

end Siesta.JsonSchema
