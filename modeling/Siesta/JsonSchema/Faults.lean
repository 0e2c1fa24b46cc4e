import Siesta.JsonSchema.TreeNodes
import Siesta.Lib.Outcomes

/-!
# What `validate` comes to

`validate_node` takes the values of some keywords for arrays without looking, and reads the parent of a node
through a pointer that is good for the root's nodes only (`Faulty`).  A validation returns exactly if none of
its calls comes back to itself and none does one of these (`returns_iff`); and the errors it reports name
nodes of the schema (`reported_by_nodes`).

For a compiled document that has nothing of this and no reference to follow, `validate` returns for every
instance, and how deep its calls are does not depend on the instance (`returns_of_sound`).
-/

namespace Siesta.JsonSchema

open Lib Relation

/-! ### Errors and faults of the keywords -/

/-- Where `validate_node` throws, or reads through a bad pointer, if it gets there. -/
inductive Faulty (c : SchemaCompiler) (f : Call) : Abort → Prop
  | enum (hkeyword : f.node.keyword = .Enum) (hvalue : f.node.value.if_array = none) : Faulty c f .exception
  | required (hkeyword : f.node.keyword = .Required) (hvalue : f.node.value.if_array = none)
      (hx : f.element.if_object.isSome) : Faulty c f .exception
  | names (hkeyword : f.node.keyword = .PropertyNames) {child subchild : SchemaNode}
      (hchild : f.node.children.head? = some child) (hsubchild : subchild ∈ child.children)
      (henum : subchild.keyword = .Enum) (hvalue : subchild.value.if_array = none)
      {members : List (Str × Json)} (hx : f.element = .obj members) {key str : Str}
      (hmember : (key, .str str) ∈ members) : Faulty c f .exception
  | condition (hkeyword : f.node.keyword = .If) (hchildren : f.node.children ≠ [])
      (hparent : f.node.parent = .destroyed) : Faulty c f .badPointer
  | additional (hkeyword : f.node.keyword = .AdditionalItems) (hchildren : f.node.children ≠ [])
      (hparent : f.node.parent ≠ .root) {item : Json} {items : List Json}
      (hx : f.element = .arr (item :: items)) : Faulty c f .badPointer
  | ref (hkeyword : f.node.keyword = .Ref)
      (hvalue : f.node.value.get_string.bind c.find_ref = some .destroyed) : Faulty c f .badPointer

/-- The errors of a call name its node, or for `propertyNames` a node two levels below. -/
def ErrorOf (f : Call) (e : ValidationError) : Prop :=
  e.schema_uri = f.schema_location ∨
    ∃ n ∈ f.node.children.flatMap SchemaNode.children, e.schema_uri = n.uri.to_string

section Keywords

variable {E : ValidationError → Prop} {D : Abort → Prop} {P : Platform} {c : SchemaCompiler} {value x : Json}
  {loc : Str} {children : List SchemaNode}

/-- `E` holds of the errors that are reported there. -/
def Admits (E : ValidationError → Prop) (loc : Str) : Prop := ∀ message, E { schema_uri := loc, message }

theorem if_array_eq_none {value : Json} (h : ∀ items, value ≠ .arr items) : value.if_array = none := by
  cases value with
  | arr items => exact absurd rfl (h items)
  | _ => rfl

theorem yields_require (hE : Admits E loc) {ok : Bool} {message : Str} :
    (require ok loc message).Yields E D := by
  unfold require
  split
  · trivial
  · exact hE message

theorem yields_validateType (hE : Admits E loc) : (validateType P value x loc).Yields E D := by
  unfold validateType
  split
  · exact yields_require hE
  · exact yields_require hE
  · trivial

theorem yields_validateEnum (hE : Admits E loc) (hD : value.if_array = none → D .exception) :
    (validateEnum P value x loc).Yields E D := by
  unfold validateEnum
  split
  · exact yields_require hE
  · rename_i hvalue
    exact hD (if_array_eq_none hvalue)

theorem yields_validateMultipleOf (hE : Admits E loc) : (validateMultipleOf P value x loc).Yields E D := by
  unfold validateMultipleOf
  split
  · exact yields_require hE
  · trivial

theorem yields_validateBound (hE : Admits E loc) {violates : P.Double → P.Double → Bool} {text : String} :
    (validateBound P value x loc violates text).Yields E D := by
  unfold validateBound
  split
  · exact yields_require hE
  · trivial

theorem yields_validateMaxLength (hE : Admits E loc) : (validateMaxLength value x loc).Yields E D := by
  unfold validateMaxLength
  split
  · exact yields_require hE
  · trivial

theorem yields_validateMinLength (hE : Admits E loc) : (validateMinLength value x loc).Yields E D := by
  unfold validateMinLength
  split
  · exact yields_require hE
  · trivial

theorem yields_validatePattern (hE : Admits E loc) : (validatePattern P value x loc).Yields E D := by
  unfold validatePattern
  split
  · rename_i pattern str _ _
    cases patternError P pattern str with
    | none => trivial
    | some message => exact hE message
  · trivial

theorem yields_validateCount (hE : Admits E loc) {count : Option ℕ} {exceeded : ℕ → ℕ → Bool}
    {subject text unit : String} : (validateCount value loc count exceeded subject text unit).Yields E D := by
  unfold validateCount
  split
  · exact yields_require hE
  · trivial

theorem yields_validateUniqueItems (hE : Admits E loc) : (validateUniqueItems P value x loc).Yields E D := by
  unfold validateUniqueItems
  split
  · split
    · exact hE _
    · trivial
  · trivial

theorem yields_noteMaxContains : (noteMaxContains value).Yields E D := by
  unfold noteMaxContains
  split <;> trivial

theorem yields_noteMinContains : (noteMinContains value).Yields E D := by
  unfold noteMinContains
  split <;> trivial

theorem yields_validateRequired (hE : Admits E loc)
    (hD : value.if_array = none → x.if_object.isSome → D .exception) :
    (validateRequired value x loc).Yields E D := by
  unfold validateRequired
  split
  · split
    · refine .all_map fun req _ => ?_
      unfold requireName
      split
      · exact yields_require hE
      · trivial
    · rename_i hvalue
      exact hD (if_array_eq_none hvalue) rfl
  · trivial

theorem yields_validateDependentRequired (hE : Admits E loc) :
    (validateDependentRequired x loc children).Yields E D := by
  unfold validateDependentRequired
  split
  · refine .all_map fun child _ => ?_
    unfold dependentNames
    dsimp only
    split
    · exact .all_map fun _ _ => yields_require hE
    · trivial
  · trivial

/-- What `propertyNames` finds against a node names it, and only an `enum` that is no array throws. -/
theorem nameErrors_cases (P : Platform) (key str : Str) (subchild : SchemaNode) :
    (∃ errors, nameErrors P key str subchild = .ok errors ∧
        ∀ e ∈ errors, ∃ message, e = { schema_uri := subchild.uri.to_string, message }) ∨
      nameErrors P key str subchild = .error .exception ∧ subchild.keyword = .Enum ∧
        subchild.value.if_array = none := by
  unfold nameErrors
  dsimp only
  split
  · left
    split
    · exact ⟨_, rfl, by simp⟩
    · exact ⟨_, rfl, by simp⟩
  · left
    split
    · refine ⟨_, rfl, ?_⟩
      split <;> simp
    · exact ⟨_, rfl, by simp⟩
  · left
    split
    · refine ⟨_, rfl, ?_⟩
      split <;> simp
    · exact ⟨_, rfl, by simp⟩
  · left
    split
    · refine ⟨_, rfl, ?_⟩
      split <;> simp
    · exact ⟨_, rfl, by simp⟩
  · rename_i hkeyword
    split
    · left
      refine ⟨_, rfl, ?_⟩
      split <;> simp
    · rename_i hvalue
      exact .inr ⟨rfl, hkeyword, if_array_eq_none hvalue⟩
  · exact .inl ⟨_, rfl, by simp⟩

theorem yields_validatePropertyNames (hE : Admits E loc)
    (hsub : ∀ n ∈ children.flatMap SchemaNode.children, Admits E n.uri.to_string)
    (hD : ∀ child subchild members key str, children.head? = some child → subchild ∈ child.children →
      subchild.keyword = .Enum → subchild.value.if_array = none → x = .obj members → (key, .str str) ∈ members →
        D .exception) : (validatePropertyNames P x loc children).Yields E D := by
  unfold validatePropertyNames
  split
  · rename_i members child rest
    refine .all_map ?_
    rintro ⟨key, y⟩ hmember
    unfold validateName
    dsimp only
    split
    · rename_i str
      split
      · rename_i a hfault
        obtain ⟨subchild, hsubchild, hname⟩ := exists_of_mapM_error hfault
        rcases nameErrors_cases P key str subchild with
          ⟨errors, hok, -⟩ | ⟨herror, henum, hvalue⟩
        · rw [hok] at hname
          cases hname
        · obtain rfl := Except.error.inj (herror.symm.trans hname)
          exact hD child subchild members key str rfl hsubchild henum hvalue rfl hmember
      · rename_i found hfound
        have hnames := mapM_eq_ok.mp hfound
        refine ⟨.all_map fun e he => ?_, yields_require hE⟩
        obtain ⟨errors, herrors, he⟩ := List.mem_flatten.mp he
        obtain ⟨subchild, hsubchild, hname⟩ := forall₂_exists_left hnames errors herrors
        have hmem : subchild ∈ (child :: rest).flatMap SchemaNode.children :=
          List.mem_flatMap.mpr ⟨child, List.mem_cons_self .., hsubchild⟩
        rcases nameErrors_cases P key str subchild with
          ⟨errors', hok, huri⟩ | ⟨herror, -, -⟩
        · obtain rfl := Except.ok.inj (hok.symm.trans hname)
          obtain ⟨message, rfl⟩ := huri e he
          exact hsub subchild hmem message
        · rw [herror] at hname
          cases hname
    · trivial
  · trivial

/-! ### The keywords that call -/

theorem yields_visitAll : (visitAll x children).Yields E D := .all_map fun _ _ => trivial

theorem yields_validateAnyOf (hE : Admits E loc) : (validateAnyOf x loc children).Yields E D := by
  induction children with
  | nil => exact hE _
  | cons child children ih =>
    refine ⟨trivial, fun matched => ?_⟩
    cases matched with
    | true => trivial
    | false => exact ih

theorem yields_validateOneOf (hE : Admits E loc) :
    ∀ found, (validateOneOf x loc children found).Yields E D := by
  induction children with
  | nil => exact fun _ => yields_require hE
  | cons child children ih => exact fun found => ⟨trivial, fun _ => ih _⟩

theorem yields_validateNot (hE : Admits E loc) : (validateNot x loc children).Yields E D := by
  cases children with
  | nil => trivial
  | cons child children =>
    refine ⟨trivial, fun matched => ?_⟩
    cases matched with
    | true => exact hE _
    | false => trivial

theorem yields_validateIf {parent : Parent} (hD : children ≠ [] → parent = .destroyed → D .badPointer) :
    (validateIf c x children parent).Yields E D := by
  cases children with
  | nil => trivial
  | cons child children =>
    refine ⟨trivial, fun matched => ?_⟩
    cases parent with
    | null => trivial
    | destroyed => exact hD (List.cons_ne_nil _ _) rfl
    | root =>
      dsimp only
      split <;> trivial

theorem yields_validateContains (hE : Admits E loc) : (validateContains x loc children).Yields E D := by
  unfold validateContains
  split
  · rename_i items child rest
    have hcount : ∀ (items : List Json) (n : ℕ), (countMatches loc child items n).Yields E D := by
      intro items
      induction items with
      | nil => exact fun _ => yields_require hE
      | cons item items ih => exact fun n => ⟨trivial, fun _ => ih _⟩
    exact hcount items 0
  · trivial

theorem yields_validateRef (hE : Admits E loc)
    (hD : value.get_string.bind c.find_ref = some .destroyed → D .badPointer) :
    (validateRef c x loc value).Yields E D := by
  unfold validateRef
  split
  · trivial
  · rename_i ref_target href
    split
    · trivial
    · rename_i htarget
      exact hD (by rw [href]; exact htarget)
    · exact hE _

theorem yields_validateDependentSchemas : (validateDependentSchemas x children).Yields E D := by
  unfold validateDependentSchemas
  split
  · refine .all_map fun child _ => ?_
    split
    · exact yields_visitAll
    · trivial
  · trivial

theorem yields_validateAdditionalItems {parent : Parent}
    (hD : children ≠ [] → parent ≠ .root → ∀ item items, x = .arr (item :: items) → D .badPointer) :
    (validateAdditionalItems c x children parent).Yields E D := by
  unfold validateAdditionalItems
  split
  · rename_i items child rest
    refine .all_map ?_
    rintro ⟨item, index⟩ hp
    have hitem : item ∈ items := List.fst_mem_of_mem_zipIdx hp
    obtain ⟨first, others, rfl⟩ := List.exists_cons_of_ne_nil (List.ne_nil_of_mem hitem)
    cases parent with
    | root =>
      dsimp only
      split <;> trivial
    | null => exact hD (List.cons_ne_nil _ _) (by decide) first others rfl
    | destroyed => exact hD (List.cons_ne_nil _ _) (by decide) first others rfl
  · trivial

theorem yields_validateProperties : (validateProperties x children).Yields E D := by
  unfold validateProperties
  split
  · refine .all_map fun child _ => ?_
    unfold validateProperty
    dsimp only
    split
    · trivial
    · exact ⟨yields_visitAll, trivial⟩
  · trivial

theorem yields_validatePatternProperties : (validatePatternProperties P x children).Yields E D := by
  unfold validatePatternProperties
  split
  · refine .all_map fun child _ => .all_map fun member _ => ?_
    unfold validatePatternMember
    dsimp only
    split
    · exact ⟨yields_visitAll, trivial⟩
    · trivial
  · trivial

theorem yields_validateOtherProperties : (validateOtherProperties x children).Yields E D := by
  unfold validateOtherProperties
  split
  · exact .all_map fun _ _ => trivial
  · trivial

theorem yields_validateItems : (validateItems x children).Yields E D := by
  unfold validateItems
  split
  · exact .all_map fun _ _ => ⟨trivial, trivial⟩
  · trivial

theorem yields_validatePrefixItems : (validatePrefixItems x children).Yields E D := by
  unfold validatePrefixItems
  split
  · refine .all_map ?_
    rintro ⟨item, index⟩ -
    refine ⟨?_, trivial⟩
    cases children[index]?.or children.getLast? <;> trivial
  · trivial

theorem yields_validateUnevaluatedItems : (validateUnevaluatedItems x children).Yields E D := by
  unfold validateUnevaluatedItems
  split
  · exact .all_map fun _ _ => trivial
  · trivial

theorem yields_validateDefault (hE : Admits E loc) : (validateDefault value loc).Yields E D := by
  unfold validateDefault
  split
  · exact yields_require hE
  · trivial

end Keywords

/-- The errors of `validate_node` name the node, and its faults are as `Faulty` says. -/
theorem yields_validate_node {P : Platform} {c : SchemaCompiler} {f : Call} :
    (validate_node P c f).Yields (ErrorOf f) (Faulty c f) := by
  have hE : Admits (ErrorOf f) f.schema_location := fun _ => .inl rfl
  have hsub : ∀ n ∈ f.node.children.flatMap SchemaNode.children, Admits (ErrorOf f) n.uri.to_string :=
    fun n hn _ => .inr ⟨n, hn, rfl⟩
  unfold validate_node
  dsimp only
  cases hkeyword : f.node.keyword <;> simp only
  case Schema | AllOf => exact yields_visitAll
  case Type_ => exact yields_validateType hE
  case Enum => exact yields_validateEnum hE (.enum hkeyword)
  case Const => exact yields_require hE
  case MultipleOf => exact yields_validateMultipleOf hE
  case Maximum | Minimum | ExclusiveMaximum | ExclusiveMinimum => exact yields_validateBound hE
  case MaxLength => exact yields_validateMaxLength hE
  case MinLength => exact yields_validateMinLength hE
  case Pattern => exact yields_validatePattern hE
  case MaxItems | MinItems | MaxProperties | MinProperties => exact yields_validateCount hE
  case UniqueItems => exact yields_validateUniqueItems hE
  case MaxContains => exact yields_noteMaxContains
  case MinContains => exact yields_noteMinContains
  case Required => exact yields_validateRequired hE (.required hkeyword)
  case AnyOf => exact yields_validateAnyOf hE
  case OneOf => exact yields_validateOneOf hE 0
  case Not => exact yields_validateNot hE
  case If => exact yields_validateIf (.condition hkeyword)
  case Properties => exact yields_validateProperties
  case AdditionalProperties | UnevaluatedProperties => exact yields_validateOtherProperties
  case Items => exact yields_validateItems
  case PrefixItems => exact yields_validatePrefixItems
  case Contains => exact yields_validateContains hE
  case Ref => exact yields_validateRef hE (.ref hkeyword)
  case PatternProperties => exact yields_validatePatternProperties
  case DependentRequired => exact yields_validateDependentRequired hE
  case DependentSchemas => exact yields_validateDependentSchemas
  case PropertyNames =>
    exact yields_validatePropertyNames hE hsub fun _ _ _ _ _ hchild hsubchild henum hvalue hx hmember =>
      .names hkeyword hchild hsubchild henum hvalue hx hmember
  case AdditionalItems =>
    exact yields_validateAdditionalItems fun hchildren hparent _ _ hx =>
      .additional hkeyword hchildren hparent hx
  case UnevaluatedItems => exact yields_validateUnevaluatedItems
  all_goals exact yields_validateDefault hE

/-! ### Validations that return -/

section Returning

variable {P : Platform} {c : SchemaCompiler}

theorem not_settles_fault {t t' : Tally ValidationError EvaluationContext} {a : Abort} :
    ¬ Settles (validate_node P c) (.fault a) t t' := by
  rintro ⟨depth, h⟩
  cases h

/-- Checks one after the other return only if each of them does. -/
theorem Settles.of_all {ps : List Statement} {t t' : Tally ValidationError EvaluationContext}
    (h : Settles (validate_node P c) (.all ps) t t') :
    ∀ p ∈ ps, ∃ u u', Settles (validate_node P c) p u u' := by
  induction ps generalizing t with
  | nil => exact fun p hp => absurd hp List.not_mem_nil
  | cons q ps ih =>
    obtain ⟨t₁, hq, hps⟩ := Settles.seq_iff.mp h
    intro p hp
    rcases List.mem_cons.mp hp with rfl | hp
    · exact ⟨t, t₁, hq⟩
    · exact ih hps p hp

/-- A call that is at fault does not return. -/
theorem not_settles_of_faulty {f : Call} {a : Abort} (h : Faulty c f a)
    (t t' : Tally ValidationError EvaluationContext) :
    ¬ Settles (validate_node P c) (validate_node P c f) t t' := by
  unfold validate_node
  dsimp only
  cases h with
  | enum hkeyword hvalue =>
    simp only [hkeyword]
    unfold validateEnum
    split
    · rename_i values hvalues
      rw [hvalues] at hvalue
      cases hvalue
    · exact not_settles_fault
  | required hkeyword hvalue hx =>
    simp only [hkeyword]
    unfold validateRequired
    split
    · split
      · rename_i names hnames
        rw [hnames] at hvalue
        cases hvalue
      · exact not_settles_fault
    · rename_i hother
      cases helement : f.element with
      | obj members => exact absurd helement (hother members)
      | _ => simp [helement, Json.if_object] at hx
  | @names hkeyword child subchild hchild hsubchild henum hvalue members hx key str hmember =>
    simp only [hkeyword]
    intro hsettles
    obtain ⟨rest, hrest⟩ := List.head?_eq_some_iff.mp hchild
    rw [hx, hrest] at hsettles
    obtain ⟨u, u', hname⟩ := Settles.of_all hsettles _ (List.mem_map_of_mem hmember)
    have hthrows : nameErrors P key str subchild = .error .exception := by
      unfold nameErrors
      simp only [henum]
      cases hcase : subchild.value with
      | arr values => simp [hcase, Json.if_array] at hvalue
      | _ => rfl
    unfold validateName at hname
    dsimp only at hname
    split at hname
    · exact not_settles_fault hname
    · rename_i found hfound
      obtain ⟨errors, -, herrors⟩ := forall₂_exists_right (mapM_eq_ok.mp hfound) subchild hsubchild
      rw [hthrows] at herrors
      cases herrors
  | condition hkeyword hchildren hparent =>
    simp only [hkeyword]
    obtain ⟨child, rest, hrest⟩ := List.exists_cons_of_ne_nil hchildren
    rintro ⟨depth, hrun⟩
    rw [hrest, hparent] at hrun
    obtain ⟨t₁, -, hrun⟩ := bind_eq_ok.mp hrun
    split at hrun <;> cases hrun
  | @additional hkeyword hchildren hparent item items hx =>
    simp only [hkeyword]
    intro hsettles
    obtain ⟨child, rest, hrest⟩ := List.exists_cons_of_ne_nil hchildren
    rw [hx, hrest] at hsettles
    obtain ⟨u, u', hitem⟩ := Settles.of_all hsettles _ (List.mem_map_of_mem
      (show (item, 0) ∈ (item :: items).zipIdx by simp [List.zipIdx_cons]))
    cases hp : f.node.parent with
    | root => exact hparent hp
    | null | destroyed =>
      rw [hp] at hitem
      exact not_settles_fault hitem
  | ref hkeyword hvalue =>
    simp only [hkeyword]
    obtain ⟨ref_target, href, htarget⟩ := Option.bind_eq_some_iff.mp hvalue
    unfold validateRef
    simp only [href, htarget]
    exact not_settles_fault

/-- **When `validate` returns.**  It returns a verdict exactly if no call comes back to itself, and no call
that is made throws or reads through a bad pointer. -/
theorem returns_iff (P : Platform) (c : SchemaCompiler) (x : Json) :
    (∃ verdict, Returns P c x verdict) ↔
      ¬ ComesBack P c x ∧
        ∀ f t, ReflTransGen (Calls (validate_node P c)) (rootCall c x, ⟨[], {}⟩) (f, t) →
          ∀ a, ¬ Faulty c f a := by
  have hreturns : (∃ verdict, Returns P c x verdict) ↔
      ∃ t', Settles (validate_node P c) (validate_node P c (rootCall c x)) ⟨[], {}⟩ t' := by
    constructor
    · rintro ⟨verdict, depth, h⟩
      obtain ⟨t', hrun, -⟩ := validate_eq_ok.mp h
      exact ⟨t', Settles.call_iff.mp ⟨depth, hrun⟩⟩
    · rintro ⟨t', h⟩
      obtain ⟨depth, hrun⟩ := Settles.call_iff.mpr h
      exact ⟨_, depth, validate_eq_ok.mpr ⟨t', hrun, rfl⟩⟩
  let start : Call × Tally ValidationError EvaluationContext := (rootCall c x, ⟨[], {}⟩)
  have hthrows : ∀ f t a, Throws (validate_node P c) (validate_node P c f) t a → ∃ a, Faulty c f a :=
    fun f t a h => ⟨a, h.yields yields_validate_node⟩
  have hends : (∃ t', Settles (validate_node P c) (validate_node P c start.1) start.2 t') ↔ _ :=
    returns_iff_ends hthrows fun f t t' h => not_settles_of_faulty h.choose_spec t t'
  rw [hreturns, hends, ends_iff_not_comesBack]
  simp only [Prod.forall, not_exists, start]

/-- **Errors name nodes.**  Every error a validation reports has the URI of a node of the schema. -/
theorem reported_by_nodes {schema : Json} (hc : compile schema = .ok c) {depth : ℕ} {x : Json}
    {t : Tally ValidationError EvaluationContext}
    (h : runCalls (validate_node P c) depth (rootCall c x) ⟨[], {}⟩ = .ok t) :
    ∀ e ∈ t.errors, ∃ node ∈ c.root_node_.preorder, e.schema_uri = node.uri.to_string := by
  let E (e : ValidationError) : Prop := ∃ node ∈ c.root_node_.preorder, e.schema_uri = node.uri.to_string
  have hroot : c.root_node_.keyword = .Schema := by
    obtain ⟨r, -, hc⟩ := bind_eq_ok.mp hc
    obtain rfl := Except.ok.inj hc
    rfl
  have hbody : ∀ f, Possible c x f → (validate_node P c f).Yields E fun _ => True := by
    rintro f (rfl | ⟨hnode, -, hlocation⟩)
    · -- the root itself reports nothing
      rw [validate_node_root hroot]
      exact yields_visitAll
    · refine yields_validate_node.mono (fun e he => ?_) fun _ _ => trivial
      rcases he with he | ⟨n, hn, he⟩
      · exact ⟨f.node, mem_preorder_of_mem_nodes hc hnode, he.trans hlocation⟩
      · obtain ⟨child, hchild, hn⟩ := List.mem_flatMap.mp hn
        have hmem := SchemaCompiler.child_mem_nodes (SchemaCompiler.child_mem_nodes hnode hchild) hn
        exact ⟨n, mem_preorder_of_mem_nodes hc hmem, he⟩
  have hover : ∀ f, Possible c x f → (validate_node P c f).Over (Possible c x) (fun _ => True) fun _ => True :=
    fun f hf => over_validate_node.mono (fun _ => Follows.possible hf) (fun _ _ => trivial) fun _ _ => trivial
  have hrun := runCalls_yielded hover hbody depth (rootCall c x) (.inl rfl) ⟨[], {}⟩
  rw [h] at hrun
  cases hrun with
  | returned new hnew hE =>
    rw [List.nil_append] at hnew
    rw [hnew]
    exact hE

theorem reported_by_nodes_type : ∃ (c : SchemaCompiler) (t : Tally ValidationError EvaluationContext),
    compile (.obj [("type".toList, .str "string".toList)]) = .ok c ∧ t.errors ≠ [] ∧
      ∀ e ∈ t.errors, ∃ node ∈ c.root_node_.preorder, e.schema_uri = node.uri.to_string := by
  have hrun : ∃ c t, compile (.obj [("type".toList, .str "string".toList)]) = .ok c ∧
      runCalls (validate_node wholeNumbers c) 2 (rootCall c .null) ⟨[], {}⟩ = .ok t ∧ t.errors ≠ [] :=
    ⟨_, _, rfl, rfl, by decide⟩
  obtain ⟨c, t, hc, hrun, herrors⟩ := hrun
  exact ⟨c, t, hc, herrors, reported_by_nodes hc hrun⟩

end Returning

end Siesta.JsonSchema
