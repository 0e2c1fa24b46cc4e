import Siesta.JsonSchema.Validator
import Siesta.Lib.Trials

/-!
# The error list of `validate_node`

`validate_node` once more, now over nodes that refer to each other in any way, and with the error list as
the source handles it: sizes are remembered and the list is resized where the source does so.  A call
that returns has kept what it was started with, and each resize has given back the list whose size was
remembered (`validate_node_keeps`).
-/

namespace Siesta.JsonSchema

open Lib TrialM

/-! ### Nodes by address -/

/-- Nodes and what is read through their addresses; a pointer to a destroyed node may not be read. -/
structure NodeGraph (ν : Type) where
  keyword : ν → Keyword
  value : ν → Json
  uri : ν → SchemaURI
  children : ν → List ν
  parent : ν → Except Abort (Option ν)
  find_ref : Str → Except Abort (Option ν)

/-- What `validate_node` does with the error list and the context. -/
abbrev ValidateM : Type → Type := TrialM (Stop Abort) ValidationError EvaluationContext

/-- A keyword without calls. -/
def leaf (p : Statement) : ValidateM Unit := fun s =>
  match p.run (fun _ t => .ok t) ⟨s.errors, s.notes⟩ with
  | .ok t => .ok () { s with errors := t.errors, notes := t.notes }
  | .error stop => .error stop s

/-- A read through a pointer. -/
def deref {α : Type} : Except Abort α → ValidateM α
  | .ok a => pure a
  | .error a => throw (.fault a)

namespace NodeGraph

variable {ν : Type} (P : Platform) (G : NodeGraph ν) (call : ν → Json → Str → ValidateM Unit)

/-- `validate_node(child, x, child.uri.to_string(), ..)`. -/
def visit (x : Json) (child : ν) : ValidateM Unit := call child x (G.uri child).to_string

/-- The name a node is for. -/
def nameOf (node : ν) : Str := lastSegment (G.uri node)

section Keywords

variable (x : Json) (loc : Str) (children : List ν)

def validateAll : ValidateM Unit := children.forM (G.visit call x)

/-- The loop of `anyOf`, until a schema accepts. -/
def anyOfLoop : List ν → ValidateM Bool
  | [] => pure false
  | child :: children => do
    let current_errors ← remember
    G.visit call x child
    if ← sameSize current_errors then pure true else anyOfLoop children

def validateAnyOf : ValidateM Unit := do
  let prev_errors ← remember
  let matched ← G.anyOfLoop call x children
  resizeTo prev_errors
  leaf (require matched loc "Value does not match any of the anyOf schemas".toList)

/-- The loop of `oneOf` for one schema, with the number of those that have accepted. -/
def oneOfStep (found : ℕ) (child : ν) : ValidateM ℕ := do
  let current_errors ← remember
  G.visit call x child
  if ← sameSize current_errors then pure (found + 1)
  else do
    resizeTo current_errors
    pure found

def validateOneOf : ValidateM Unit := do
  let prev_errors ← remember
  let found ← children.foldlM (G.oneOfStep call x) 0
  resizeTo prev_errors
  leaf <| require (found = 1) loc
    ("Value must match exactly one of the oneOf schemas".toList ++ " (matched ".toList ++ sizeText found ++
      if found = 0 then ")".toList else ", expected 1)".toList)

def validateNot : ValidateM Unit :=
  match children with
  | [] => pure ()
  | child :: _ => do
    let prev_errors ← remember
    G.visit call x child
    if ← sameSize prev_errors then leaf (emplaceError loc "Value must not match the \"not\" schema".toList)
    else resizeTo prev_errors

/-- The last node with a keyword. -/
def lastWith (kw : Keyword) (siblings : List ν) : Option ν := (siblings.filter fun n => G.keyword n = kw).getLast?

/-- What `if` goes on with: the `then` or `else` beside it. -/
def validateBranch (node : ν) (if_matched : Bool) : ValidateM Unit := do
  match ← deref (G.parent node) with
  | none => pure ()
  | some parent =>
    match G.lastWith (if if_matched then .Then else .Else) (G.children parent) with
    | some branch => G.visit call x branch
    | none => pure ()

def validateIf (node : ν) : ValidateM Unit :=
  match G.children node with
  | [] => pure ()
  | child :: _ => do
    let prev_errors ← remember
    G.visit call x child
    let if_matched ← sameSize prev_errors
    resizeTo prev_errors
    G.validateBranch call x node if_matched

/-- `evaluated_properties.emplace(name)`. -/
def emplaceProperty (name : Str) : ValidateM Unit :=
  note fun ctx => { ctx with evaluated_properties := insert name ctx.evaluated_properties }

/-- `evaluated_items.push_back(true)`. -/
def pushItem : ValidateM Unit := note fun ctx => { ctx with evaluated_items := ctx.evaluated_items ++ [true] }

def validateProperty (members : Record Str Json) (child : ν) : ValidateM Unit :=
  match members.find (G.nameOf child) with
  | none => pure ()
  | some prop_value => do
    G.validateAll call prop_value (G.children child)
    emplaceProperty (G.nameOf child)

def validateProperties : ValidateM Unit :=
  match x with
  | .obj members => children.forM (G.validateProperty call members)
  | _ => pure ()

def validatePatternMember (child : ν) (member : Str × Json) : ValidateM Unit :=
  if (P.regex_search (G.nameOf child) member.1).getD (G.nameOf child <:+: member.1) then do
    G.validateAll call member.2 (G.children child)
    emplaceProperty member.1
  else pure ()

def validatePatternProperties : ValidateM Unit :=
  match x with
  | .obj members => children.forM fun child => members.forM (G.validatePatternMember P call child)
  | _ => pure ()

/-- `additionalProperties` and `unevaluatedProperties`. -/
def validateOtherProperties : ValidateM Unit :=
  match x, children with
  | .obj members, child :: _ =>
    members.forM fun member => do
      let ctx ← notes
      if member.1 ∈ ctx.evaluated_properties then pure () else G.visit call member.2 child
  | _, _ => pure ()

def validateItems : ValidateM Unit :=
  match x, children with
  | .arr items, child :: _ =>
    items.forM fun item => do
      G.visit call item child
      pushItem
  | _, _ => pure ()

/-- The loop of `prefixItems`, with the schemas that are left. -/
def validatePrefixItems : ValidateM Unit :=
  match x with
  | .arr items =>
    items.zipIdx.forM fun (item, index) => do
      match children[index]?.or children.getLast? with
      | some child => G.visit call item child
      | none => pure ()
      pushItem
  | _ => pure ()

/-- The loop of `contains` for one item, with the number of those that have matched. -/
def containsStep (child : ν) (match_count : ℕ) (item : Json) : ValidateM ℕ := do
  let prev_errors ← remember
  G.visit call item child
  if ← sameSize prev_errors then pure (match_count + 1)
  else do
    resizeTo prev_errors
    pure match_count

def validateContains : ValidateM Unit :=
  match x, children with
  | .arr items, child :: _ => do
    let match_count ← items.foldlM (G.containsStep call child) 0
    leaf <| require (¬ match_count < 1) loc
      "Array does not contain any items matching the \"contains\" schema".toList
  | _, _ => pure ()

def validateRef (value : Json) : ValidateM Unit :=
  match value.get_string with
  | none => pure ()
  | some ref_target => do
    match ← deref (G.find_ref ref_target) with
    | some target => G.visit call x target
    | none => leaf (emplaceError loc ("Cannot resolve $ref: ".toList ++ ref_target))

/-- `dependentRequired` for one of its nodes. -/
def dependentNames (members : Record Str Json) (child : ν) : ValidateM Unit :=
  match members.find (G.nameOf child), G.children child with
  | some _, grandchild :: _ =>
    (G.children grandchild).forM fun req_prop =>
      leaf <| require (members.find (G.nameOf req_prop)).isSome loc
        ("Missing required property '".toList ++ G.nameOf req_prop ++ "' due to dependency '".toList ++
          G.nameOf child ++ "'".toList)
  | _, _ => pure ()

def validateDependentRequired : ValidateM Unit :=
  match x with
  | .obj members => children.forM (G.dependentNames loc members)
  | _ => pure ()

def validateDependentSchemas : ValidateM Unit :=
  match x with
  | .obj members =>
    children.forM fun child =>
      if (Record.find members (G.nameOf child)).isSome then G.validateAll call x (G.children child) else pure ()
  | _ => pure ()

/-- `propertyNames` for one member: a string `str` under `key`, against one node. -/
def checkName (key str : Str) (subchild : ν) : ValidateM Unit :=
  let error := emplaceError (G.uri subchild).to_string
  let name := "Property name ".toList ++ quoted key
  match G.keyword subchild with
  | .Pattern =>
    match (G.value subchild).get_string with
    | some pattern => leaf ((patternError P pattern str).elim .done error)
    | none => pure ()
  | .MaxLength =>
    match (G.value subchild).get_int64 with
    | some limit =>
      if (str.length : ℤ) > limit then
        leaf <| error (name ++ " (length ".toList ++ sizeText str.length ++ ") exceeds maxLength of ".toList ++
          intText limit)
      else pure ()
    | none => pure ()
  | .MinLength =>
    match (G.value subchild).get_int64 with
    | some limit =>
      if (str.length : ℤ) < limit then
        leaf <| error (name ++ " (length ".toList ++ sizeText str.length ++ ") is below minLength of ".toList ++
          intText limit)
      else pure ()
    | none => pure ()
  | .Const =>
    match (G.value subchild).get_string with
    | some const_val =>
      if str ≠ const_val then leaf (error (name ++ " does not match const ".toList ++ quoted const_val))
      else pure ()
    | none => pure ()
  | .Enum =>
    match G.value subchild with
    | .arr values =>
      if values.any fun v => v.get_string = some str then pure () else leaf (error (name ++ " not in enum".toList))
    | _ => throw (.fault .exception)
  | _ => pure ()

/-- `propertyNames` for one member. -/
def validateName (child : ν) (member : Str × Json) : ValidateM Unit := do
  let prev_errors ← remember
  match member.2 with
  | .str str => (G.children child).forM (G.checkName P member.1 str)
  | _ => pure ()
  leaf <| require (!(← grown prev_errors)) loc
    ("Property name ".toList ++ quoted member.1 ++ " does not match propertyNames schema".toList)

def validatePropertyNames : ValidateM Unit :=
  match x, children with
  | .obj members, child :: _ => members.forM (G.validateName P loc child)
  | _, _ => pure ()

/-- `additionalItems`, which counts the children of the parent. -/
def validateAdditionalItems (node : ν) : ValidateM Unit :=
  match x, G.children node with
  | .arr items, child :: _ =>
    items.zipIdx.forM fun (item, index) => do
      match ← deref (G.parent node) with
      | some parent => if index ≥ (G.children parent).length then G.visit call item child else pure ()
      | none => throw (.fault .badPointer)
  | _, _ => pure ()

def validateUnevaluatedItems : ValidateM Unit :=
  match x, children with
  | .arr items, child :: _ =>
    items.zipIdx.forM fun (item, index) => do
      let ctx ← notes
      if ctx.evaluated_items.getD index false then pure () else G.visit call item child
  | _, _ => pure ()

end Keywords

/-- The body of `validate_node`. -/
def validateWith (node : ν) (x : Json) (loc : Str) : ValidateM Unit :=
  let value := G.value node
  let children := G.children node
  match G.keyword node with
  | .Schema => G.validateAll call x children
  | .Type_ => leaf (validateType P value x loc)
  | .Enum => leaf (validateEnum P value x loc)
  | .Const => leaf (validateConst P value x loc)
  | .MultipleOf => leaf (validateMultipleOf P value x loc)
  | .Maximum => leaf (validateMaximum P value x loc)
  | .Minimum => leaf (validateMinimum P value x loc)
  | .ExclusiveMaximum => leaf (validateExclusiveMaximum P value x loc)
  | .ExclusiveMinimum => leaf (validateExclusiveMinimum P value x loc)
  | .MaxLength => leaf (validateMaxLength value x loc)
  | .MinLength => leaf (validateMinLength value x loc)
  | .Pattern => leaf (validatePattern P value x loc)
  | .MaxItems => leaf (validateMaxItems value x loc)
  | .MinItems => leaf (validateMinItems value x loc)
  | .UniqueItems => leaf (validateUniqueItems P value x loc)
  | .MaxContains => leaf (noteMaxContains value)
  | .MinContains => leaf (noteMinContains value)
  | .MaxProperties => leaf (validateMaxProperties value x loc)
  | .MinProperties => leaf (validateMinProperties value x loc)
  | .Required => leaf (validateRequired value x loc)
  | .AllOf => G.validateAll call x children
  | .AnyOf => G.validateAnyOf call x loc children
  | .OneOf => G.validateOneOf call x loc children
  | .Not => G.validateNot call x loc children
  | .If => G.validateIf call x node
  | .Properties => G.validateProperties call x children
  | .AdditionalProperties => G.validateOtherProperties call x children
  | .Items => G.validateItems call x children
  | .PrefixItems => G.validatePrefixItems call x children
  | .Contains => G.validateContains call x loc children
  | .Ref => G.validateRef call x loc value
  | .PatternProperties => G.validatePatternProperties P call x children
  | .DependentRequired => G.validateDependentRequired x loc children
  | .DependentSchemas => G.validateDependentSchemas call x children
  | .PropertyNames => G.validatePropertyNames P x loc children
  | .AdditionalItems => G.validateAdditionalItems call x node
  | .UnevaluatedProperties => G.validateOtherProperties call x children
  | .UnevaluatedItems => G.validateUnevaluatedItems call x children
  | _ => leaf (validateDefault value loc)

/-- `validate_node`, up to the given depth of calls. -/
def validate_node : ℕ → ν → Json → Str → ValidateM Unit
  | 0 => fun _ _ _ => throw .depth
  | depth + 1 => G.validateWith P (validate_node depth)

end NodeGraph

/-! ### The list is kept -/

/-- A keyword without calls only adds to the list. -/
theorem keeps_leaf (p : Statement) : Keeps (leaf p) := by
  intro base
  have hcall : Grows (fun (_ : Call) (t : Tally ValidationError EvaluationContext) =>
      (.ok t : Except (Stop Abort) _)) := by
    intro f t t' h
    obtain rfl := Except.ok.inj h
    exact List.prefix_refl _
  refine Ensures.mk (fun s _ s' hs hrun => ?_) fun s stop s' hs hrun => ?_
  · unfold leaf at hrun
    split at hrun
    · rename_i t hp
      obtain rfl := (EStateM.Result.ok.inj hrun).2
      exact ⟨List.prefix_refl _, ⟨hs.kept.trans (p.run_grows hcall _ _ hp), hs.undone⟩, trivial⟩
    · cases hrun
  · unfold leaf at hrun
    split at hrun
    · cases hrun
    · obtain rfl := (EStateM.Result.error.inj hrun).2
      exact ⟨List.prefix_refl _, hs⟩

theorem keeps_deref {α : Type} (r : Except Abort α) : Keeps (deref r) := by
  cases r with
  | ok a => exact .pure a
  | error a => exact .throw _

namespace NodeGraph

variable {ν : Type} {P : Platform} {G : NodeGraph ν} {call : ν → Json → Str → ValidateM Unit}

section Keywords

variable (hcall : ∀ node y l, Keeps (call node y l)) (x : Json) (loc : Str) (children : List ν)

include hcall

theorem keeps_visit (child : ν) : Keeps (G.visit call x child) := hcall _ _ _

theorem keeps_validateAll : Keeps (G.validateAll call x children) :=
  .forM fun _ _ => keeps_visit hcall x _

/-! #### Trials -/

theorem keeps_anyOfLoop : Keeps (G.anyOfLoop call x children) := by
  induction children with
  | nil => exact .pure false
  | cons child children ih =>
    unfold anyOfLoop
    refine .remember fun current_errors => ?_
    refine ((keeps_visit hcall x child).bind fun _ => (Keeps.sameSize _).bind fun same => ?_) current_errors
    split
    · exact .pure true
    · exact ih

theorem keeps_validateAnyOf : Keeps (G.validateAnyOf call x loc children) := by
  refine .remember fun prev_errors => ?_
  refine (keeps_anyOfLoop hcall x children prev_errors).bind fun matched _ => ?_
  refine (maintains_resizeTo prev_errors).bind fun _ _ => ?_
  exact keeps_leaf _ prev_errors

/-- A trial that counts: what a rejecting schema has reported is dropped. -/
theorem keeps_counted {child : ν} {y : Json} (found : ℕ) : Keeps (do
    let current_errors ← remember
    G.visit call y child
    if ← sameSize current_errors then pure (found + 1)
    else do
      resizeTo current_errors
      pure found : ValidateM ℕ) := by
  refine .remember fun current_errors => ?_
  refine (keeps_visit hcall y child current_errors).bind fun _ _ => ?_
  refine (Keeps.sameSize _ current_errors).bind fun same _ => ?_
  split
  · exact Keeps.pure _ current_errors
  · exact (maintains_resizeTo current_errors).bind fun _ _ => Keeps.pure _ current_errors

theorem keeps_validateOneOf : Keeps (G.validateOneOf call x loc children) := by
  refine .remember fun prev_errors => ?_
  have hloop : Keeps (children.foldlM (G.oneOfStep call x) 0) := .foldlM (fun _ _ found => keeps_counted hcall found) 0
  refine (hloop prev_errors).bind fun found _ => ?_
  refine (maintains_resizeTo prev_errors).bind fun _ _ => ?_
  exact keeps_leaf _ prev_errors

theorem keeps_validateNot : Keeps (G.validateNot call x loc children) := by
  unfold validateNot
  split
  · exact .pure ()
  · refine .remember fun prev_errors => ?_
    refine (keeps_visit hcall x _ prev_errors).bind fun _ _ => ?_
    refine (Keeps.sameSize _ prev_errors).bind fun same _ => ?_
    split
    · exact keeps_leaf _ prev_errors
    · exact maintains_resizeTo prev_errors

theorem keeps_validateBranch (node : ν) (if_matched : Bool) : Keeps (G.validateBranch call x node if_matched) := by
  refine (keeps_deref _).bind fun parent => ?_
  split
  · exact .pure ()
  · split
    · exact keeps_visit hcall x _
    · exact .pure ()

theorem keeps_validateIf (node : ν) : Keeps (G.validateIf call x node) := by
  unfold validateIf
  split
  · exact .pure ()
  · refine .remember fun prev_errors => ?_
    refine (keeps_visit hcall x _ prev_errors).bind fun _ _ => ?_
    refine (Keeps.sameSize _ prev_errors).bind fun if_matched _ => ?_
    refine (maintains_resizeTo prev_errors).bind fun _ _ => ?_
    exact keeps_validateBranch hcall x node if_matched prev_errors

theorem keeps_validateContains : Keeps (G.validateContains call x loc children) := by
  unfold validateContains
  split
  · refine (Keeps.foldlM (fun _ _ match_count => ?_) 0).bind fun match_count => keeps_leaf _
    exact keeps_counted hcall match_count
  · exact .pure ()

/-! #### Objects -/

theorem keeps_validateProperties : Keeps (G.validateProperties call x children) := by
  unfold validateProperties
  split
  · refine .forM fun child _ => ?_
    unfold validateProperty
    split
    · exact .pure ()
    · exact (keeps_validateAll hcall _ _).bind fun _ => .note _
  · exact .pure ()

theorem keeps_validatePatternProperties : Keeps (G.validatePatternProperties P call x children) := by
  unfold validatePatternProperties
  split
  · refine .forM fun child _ => .forM fun member _ => ?_
    unfold validatePatternMember
    split
    · exact (keeps_validateAll hcall _ _).bind fun _ => .note _
    · exact .pure ()
  · exact .pure ()

theorem keeps_validateOtherProperties : Keeps (G.validateOtherProperties call x children) := by
  unfold validateOtherProperties
  split
  · refine .forM fun member _ => Keeps.notes.bind fun ctx => ?_
    split
    · exact .pure ()
    · exact keeps_visit hcall _ _
  · exact .pure ()

theorem keeps_validateDependentSchemas : Keeps (G.validateDependentSchemas call x children) := by
  unfold validateDependentSchemas
  split
  · refine .forM fun child _ => ?_
    split
    · exact keeps_validateAll hcall _ _
    · exact .pure ()
  · exact .pure ()

/-! #### Arrays and references -/

theorem keeps_validateItems : Keeps (G.validateItems call x children) := by
  unfold validateItems
  split
  · exact .forM fun item _ => (keeps_visit hcall _ _).bind fun _ => .note _
  · exact .pure ()

theorem keeps_validatePrefixItems : Keeps (G.validatePrefixItems call x children) := by
  unfold validatePrefixItems
  split
  · refine .forM fun entry _ => ?_
    dsimp only
    split
    · exact (keeps_visit hcall _ _).bind fun _ => .note _
    · exact .note _
  · exact .pure ()

theorem keeps_validateAdditionalItems (node : ν) : Keeps (G.validateAdditionalItems call x node) := by
  unfold validateAdditionalItems
  split
  · refine .forM fun entry _ => (keeps_deref _).bind fun parent => ?_
    split
    · split
      · exact keeps_visit hcall _ _
      · exact .pure ()
    · exact .throw _
  · exact .pure ()

theorem keeps_validateUnevaluatedItems : Keeps (G.validateUnevaluatedItems call x children) := by
  unfold validateUnevaluatedItems
  split
  · refine .forM fun entry _ => Keeps.notes.bind fun ctx => ?_
    split
    · exact .pure ()
    · exact keeps_visit hcall _ _
  · exact .pure ()

theorem keeps_validateRef (value : Json) : Keeps (G.validateRef call x loc value) := by
  unfold validateRef
  split
  · exact .pure ()
  · refine (keeps_deref _).bind fun target => ?_
    split
    · exact keeps_visit hcall x _
    · exact keeps_leaf _

omit hcall

/-! #### Names -/

theorem keeps_validateDependentRequired : Keeps (G.validateDependentRequired x loc children) := by
  unfold validateDependentRequired
  split
  · refine .forM fun child _ => ?_
    unfold dependentNames
    split
    · exact .forM fun _ _ => keeps_leaf _
    · exact .pure ()
  · exact .pure ()

theorem keeps_checkName (key str : Str) (subchild : ν) : Keeps (G.checkName P key str subchild) := by
  unfold checkName
  dsimp only
  split
  · split
    · exact keeps_leaf _
    · exact .pure ()
  · split
    · split
      · exact keeps_leaf _
      · exact .pure ()
    · exact .pure ()
  · split
    · split
      · exact keeps_leaf _
      · exact .pure ()
    · exact .pure ()
  · split
    · split
      · exact keeps_leaf _
      · exact .pure ()
    · exact .pure ()
  · split
    · split
      · exact .pure ()
      · exact keeps_leaf _
    · exact .throw _
  · exact .pure ()

theorem keeps_validatePropertyNames : Keeps (G.validatePropertyNames P x loc children) := by
  unfold validatePropertyNames
  split
  · refine .forM fun member _ => .remember fun prev_errors => ?_
    have hreport : ∀ message, Keeps (do
        let grew ← grown prev_errors
        leaf (require (!grew) loc message) : ValidateM Unit) :=
      fun message => (Keeps.grown _).bind fun _ => keeps_leaf _
    split
    · exact ((Keeps.forM fun subchild _ => keeps_checkName _ _ subchild).bind fun _ => hreport _) prev_errors
    · exact hreport _ prev_errors
  · exact .pure ()

end Keywords

/-- A call keeps the list when the calls it makes do. -/
theorem keeps_validateWith (hcall : ∀ node y l, Keeps (call node y l)) (node : ν) (x : Json) (loc : Str) :
    Keeps (G.validateWith P call node x loc) := by
  unfold validateWith
  dsimp only
  cases G.keyword node
  case Schema | AllOf => exact keeps_validateAll hcall x _
  case AnyOf => exact keeps_validateAnyOf hcall x loc _
  case OneOf => exact keeps_validateOneOf hcall x loc _
  case Not => exact keeps_validateNot hcall x loc _
  case If => exact keeps_validateIf hcall x node
  case Properties => exact keeps_validateProperties hcall x _
  case AdditionalProperties | UnevaluatedProperties => exact keeps_validateOtherProperties hcall x _
  case Items => exact keeps_validateItems hcall x _
  case PrefixItems => exact keeps_validatePrefixItems hcall x _
  case Contains => exact keeps_validateContains hcall x loc _
  case Ref => exact keeps_validateRef hcall x loc _
  case PatternProperties => exact keeps_validatePatternProperties hcall x _
  case DependentRequired => exact keeps_validateDependentRequired x loc _
  case DependentSchemas => exact keeps_validateDependentSchemas hcall x _
  case PropertyNames => exact keeps_validatePropertyNames x loc _
  case AdditionalItems => exact keeps_validateAdditionalItems hcall x node
  case UnevaluatedItems => exact keeps_validateUnevaluatedItems hcall x _
  all_goals exact keeps_leaf _

theorem keeps_validate_node (P : Platform) (G : NodeGraph ν) :
    ∀ depth node x loc, Keeps (G.validate_node P depth node x loc) := by
  intro depth
  induction depth with
  | zero => exact fun _ _ _ => .throw _
  | succ depth ih => exact fun node x loc => keeps_validateWith ih node x loc

/-- **Errors are not lost.**  Whatever the nodes are, a call that returns has kept the errors it was
started with, and each resize on the way has given back the list whose size was remembered: it dropped
what had been added since, and nothing else. -/
theorem validate_node_keeps {depth : ℕ} {node : ν} {x : Json} {loc : Str} {errors : List ValidationError}
    {ctx : EvaluationContext} {s : Journal ValidationError EvaluationContext}
    (h : G.validate_node P depth node x loc ⟨errors, ctx, []⟩ = .ok () s) :
    errors <+: s.errors ∧
      ∀ cut ∈ s.cuts, cut.remembered <+: cut.found ∧ cut.remembered.length ≤ cut.found.length ∧
        resize cut.remembered.length cut.found = cut.remembered := by
  obtain ⟨hkept, hcuts⟩ := (keeps_validate_node P G depth node x loc).run h
  exact ⟨hkept, fun cut hcut => ⟨hcuts cut hcut, (hcuts cut hcut).resize_eq⟩⟩

/-- An `anyOf` of a string and an integer. -/
def stringOrInteger : NodeGraph ℕ where
  keyword n := if n = 0 then .AnyOf else .Type_
  value n := .str (if n = 1 then "string".toList else "integer".toList)
  uri _ := .parse "#".toList
  children n := if n = 0 then [1, 2] else []
  parent _ := .ok none
  find_ref _ := .ok none

/-- The integer is rejected by the first schema, whose error is dropped again. -/
theorem validate_node_keeps_integer : ∃ s,
    stringOrInteger.validate_node wholeNumbers 2 0 (.int 1) [] ⟨[{ message := "earlier".toList }], {}, []⟩ = .ok () s ∧
      [{ message := "earlier".toList }] <+: s.errors ∧
        ∀ cut ∈ s.cuts, cut.remembered <+: cut.found ∧ cut.remembered.length ≤ cut.found.length ∧
          resize cut.remembered.length cut.found = cut.remembered := by
  have hreturns : ∃ s, stringOrInteger.validate_node wholeNumbers 2 0 (.int 1) []
      ⟨[{ message := "earlier".toList }], {}, []⟩ = .ok () s := ⟨_, rfl⟩
  obtain ⟨s, hs⟩ := hreturns
  exact ⟨s, hs, validate_node_keeps hs⟩

end NodeGraph

end Siesta.JsonSchema
