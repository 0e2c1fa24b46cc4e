import Siesta.JsonSchema.PlainSchemas

/-!
# Required names: `required` and `dependentRequired`

`dependentRequired` looks for the names of a dependency two levels below the node of its entry, but
`build_schema_tree` makes no nodes of a list of names.  So the keyword asks for nothing
(`judges_dependentRequired`), and a schema of both keywords is right exactly where no dependency is missed
that would have to be noticed (`requirements_right_iff`).
-/

namespace Siesta.JsonSchema

open Lib

/-- `required`, with its names, and `dependentRequired`, with a list of names under each key. -/
inductive Requirement where
  | required (names : List Str)
  | dependentRequired (table : List (Str × List Str))

namespace Requirement

/-- A list of names in a schema. -/
def nameList (names : List Str) : Json := .arr (names.map .str)

/-- The requirement as a member of a schema. -/
def member : Requirement → Str × Json
  | .required names => ("required".toList, nameList names)
  | .dependentRequired table =>
    ("dependentRequired".toList, .obj (table.map fun e => (e.1, nameList e.2)))

def document (requirements : List Requirement) : Json := .obj (requirements.map member)

/-- What the requirement means for an object. -/
def Met (members : List (Str × Json)) : Requirement → Prop
  | .required names => ∀ name ∈ names, name ∈ Record.keys members
  | .dependentRequired table =>
    ∀ e ∈ table, e.1 ∈ Record.keys members → ∀ name ∈ e.2, name ∈ Record.keys members

instance (members : List (Str × Json)) : DecidablePred (Met members) := fun r => by
  cases r <;> unfold Met <;> infer_instance

/-- What `validate_node` checks of it. -/
def Checked (members : List (Str × Json)) : Requirement → Prop
  | .required names => (required names).Met members
  | .dependentRequired _ => True

end Requirement

/-! ### The nodes of requirements -/

theorem build_nameLists (kw_uri : SchemaURI) (table : List (Str × List Str)) (st : BuildState) :
    ∃ nodes, buildProperties kw_uri (table.map fun e => (e.1, Requirement.nameList e.2)) st = .ok (nodes, st) ∧
      ∀ node ∈ nodes, node.children = [] := by
  induction table with
  | nil => exact ⟨[], rfl, by simp⟩
  | cons e table ih =>
    obtain ⟨nodes, hbuild, hnodes⟩ := ih
    refine ⟨{ uri := .parse (kw_uri.to_string ++ '/' :: e.1), value := Requirement.nameList e.2 } :: nodes, ?_,
      List.forall_mem_cons.mpr ⟨rfl, hnodes⟩⟩
    have htree : ∀ uri, build_schema_tree ⟨.destroyed, true⟩ (Requirement.nameList e.2) uri st = .ok ([], st) :=
      fun _ => rfl
    simp only [List.map_cons, buildProperties, htree, bind, Except.bind, hbuild]

theorem judges_dependentRequired {call : Call → Tally ValidationError EvaluationContext →
      Except (Stop Abort) (Tally ValidationError EvaluationContext)} (x : Json) (loc : Str)
    {nodes : List SchemaNode} (h : ∀ node ∈ nodes, node.children = []) :
    Judges ((validateDependentRequired x loc nodes).run call) True := by
  unfold validateDependentRequired
  cases x with
  | obj members =>
    have hentry : ∀ node ∈ nodes, Judges ((dependentNames loc members node).run call) True := by
      intro node hnode
      unfold dependentNames
      rw [h node hnode]
      dsimp only
      cases Record.find members (lastSegment node.uri) <;> exact Judges.done
    exact (Judges.all hentry).congr (by simp)
  | _ => exact Judges.done

theorem Requirement.build (P : Platform) (r : Requirement) (filled : Filled) (uri : SchemaURI) (st : BuildState) :
    ∃ node, AddsNode filled r.member uri st node ∧ ∀ c depth members,
      Judges ((visit (.obj members) node).run (runCalls (validate_node P c) (depth + 1))) (r.Checked members) := by
  cases r with
  | required names =>
    have hkw : keywordOf "required".toList = .Required := rfl
    refine ⟨{
        uri := .parse (uri.to_string ++ '/' :: "required".toList), keyword := .Required
        value := nameList names, parent := filled.address },
      fun rest => ?_, ?_⟩
    · show buildKeywords filled (("required".toList, nameList names) :: rest) uri st = _
      simp only [buildKeywords, hkw, reduceCtorEq, if_false, nextUri, enterId]
      rfl
    · intro c depth members
      have hnames : Judges ((validateRequired (nameList names) (.obj members)
          (SchemaURI.parse (uri.to_string ++ '/' :: "required".toList)).to_string).run
          (runCalls (validate_node P c) depth)) ((required names).Checked members) :=
        (judges_required (.obj members) _ names).congr (by simp [Checked, Met])
      exact hnames
  | dependentRequired table =>
    have hkw : keywordOf "dependentRequired".toList = .DependentRequired := rfl
    obtain ⟨nodes, hbuild, hnodes⟩ := build_nameLists
      (SchemaURI.parse (uri.to_string ++ '/' :: "dependentRequired".toList)) table st
    refine ⟨{
        uri := .parse (uri.to_string ++ '/' :: "dependentRequired".toList), keyword := .DependentRequired
        value := .obj (table.map fun e => (e.1, nameList e.2)), children := nodes },
      fun rest => ?_, ?_⟩
    · show buildKeywords filled (("dependentRequired".toList, .obj (table.map fun e => (e.1, nameList e.2))) ::
        rest) uri st = _
      simp only [buildKeywords, hkw, reduceCtorEq, if_false, nextUri, enterId, hbuild]
      rfl
    · intro c depth members
      exact judges_dependentRequired (.obj members) _ hnodes

theorem build_requirements (P : Platform) (requirements : List Requirement) (filled : Filled) (uri : SchemaURI)
    (st : BuildState) :
    ∃ nodes, buildKeywords filled (requirements.map Requirement.member) uri st = .ok (nodes, st) ∧
      ∀ c depth members, Judges ((visitAll (.obj members) nodes).run (runCalls (validate_node P c) (depth + 1)))
        (∀ r ∈ requirements, r.Checked members) := by
  induction requirements with
  | nil => exact ⟨[], rfl, fun _ _ _ => Judges.done.congr (by simp)⟩
  | cons r requirements ih =>
    obtain ⟨node, hadds, hnode⟩ := r.build P filled uri st
    obtain ⟨nodes, hbuild, hnodes⟩ := ih
    refine ⟨node :: nodes, ?_, fun c depth members => ?_⟩
    · rw [List.map_cons, hadds, hbuild]
      rfl
    · exact ((hnode c depth members).seq (hnodes c depth members)).congr (by simp)

/-! ### The verdict -/

theorem requirements_verdict (P : Platform) (requirements : List Requirement) (members : List (Str × Json)) :
    ∃ verdict, HasVerdict P (Requirement.document requirements) (.obj members) verdict ∧
      (verdict = true ↔ ∀ r ∈ requirements, r.Checked members) := by
  obtain ⟨nodes, hbuild, hnodes⟩ := build_requirements P requirements ⟨.root, true⟩ (.parse "#".toList) {}
  obtain ⟨c, hc, hkeyword, hchildren⟩ :=
    compile_of_build (show build_schema_tree _ (Requirement.document requirements) _ _ = _ from hbuild)
  have hroot : Judges (runCalls (validate_node P c) 2 (rootCall c (.obj members)))
      (∀ r ∈ requirements, r.Checked members) := by
    intro t
    have hroot := hnodes c 0 members t
    rwa [← hchildren, ← validate_node_root hkeyword] at hroot
  obtain ⟨verdict, hreturns, hverdict⟩ := returns_of_judges hroot
  exact ⟨verdict, ⟨c, hc, hreturns⟩, hverdict⟩

/-- **When requirements are checked as they should be.**  `validate` accepts exactly the objects that meet
every requirement, if and only if the object meets every dependency or misses a required name. -/
theorem requirements_right_iff (P : Platform) (requirements : List Requirement) (members : List (Str × Json)) :
    (HasVerdict P (Requirement.document requirements) (.obj members) true ↔
        ∀ r ∈ requirements, r.Met members) ↔
      (∀ table, .dependentRequired table ∈ requirements → (Requirement.dependentRequired table).Met members) ∨
        ∃ names, .required names ∈ requirements ∧ ¬ (Requirement.required names).Met members := by
  obtain ⟨verdict, hreturns, hverdict⟩ := requirements_verdict P requirements members
  have haccepts : HasVerdict P (Requirement.document requirements) (.obj members) true ↔
      ∀ r ∈ requirements, r.Checked members := by
    rw [← hverdict]
    exact ⟨fun h => hreturns.unique h, fun h => h ▸ hreturns⟩
  have hmet : (∀ r ∈ requirements, r.Met members) ↔
      (∀ r ∈ requirements, r.Checked members) ∧ ∀ table, .dependentRequired table ∈ requirements →
        (Requirement.dependentRequired table).Met members := by
    constructor
    · refine fun h => ⟨fun r hr => ?_, fun table ht => h _ ht⟩
      cases r with
      | required names => exact h _ hr
      | dependentRequired table => trivial
    · rintro ⟨hchecked, htables⟩ r hr
      cases r with
      | required names => exact hchecked _ hr
      | dependentRequired table => exact htables table hr
  have hmissed : (∃ names, .required names ∈ requirements ∧ ¬ (Requirement.required names).Met members) ↔
      ¬ ∀ r ∈ requirements, r.Checked members := by
    constructor
    · exact fun ⟨names, hmem, hnot⟩ h => hnot (h _ hmem)
    · intro h
      push Not at h
      obtain ⟨r, hr, hnot⟩ := h
      cases r with
      | required names => exact ⟨names, hr, hnot⟩
      | dependentRequired table => exact absurd trivial hnot
  rw [haccepts, hmet, hmissed]
  tauto

/-- A card needs an address: the object with a card and no address is accepted. -/
theorem dependency_not_checked :
    ¬ (HasVerdict wholeNumbers
        (Requirement.document [.required ["name".toList],
          .dependentRequired [("card".toList, ["address".toList])]])
        (.obj [("name".toList, .str "a".toList), ("card".toList, .int 1)]) true ↔
      ∀ r ∈ [Requirement.required ["name".toList],
          .dependentRequired [("card".toList, ["address".toList])]],
        r.Met [("name".toList, .str "a".toList), ("card".toList, .int 1)]) := by
  intro h
  have haccepts : HasVerdict wholeNumbers
      (Requirement.document [.required ["name".toList], .dependentRequired [("card".toList, ["address".toList])]])
      (.obj [("name".toList, .str "a".toList), ("card".toList, .int 1)]) true :=
    hasVerdict_of_verdictUpTo (show verdictUpTo wholeNumbers 4 _ _ = some true by decide)
  exact absurd (h.mp haccepts) (by decide)

end Siesta.JsonSchema
