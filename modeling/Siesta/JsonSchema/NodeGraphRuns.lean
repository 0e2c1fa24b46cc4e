import Siesta.JsonSchema.NodeGraph
import Siesta.JsonSchema.Termination

/-!
# The two readings of `validate_node`

On the nodes of a compiled schema, the `validate_node` that resizes the error list performs the one that
tries subschemas (`performs_validate_node`): the places where the source resizes are the trials, since a
call reports the same whatever has been reported before it.
-/

namespace Siesta.JsonSchema

open Lib TrialM

/-- The nodes of a compiled schema, with what their pointers lead to. -/
def SchemaCompiler.graph (c : SchemaCompiler) : NodeGraph SchemaNode where
  keyword := SchemaNode.keyword
  value := SchemaNode.value
  uri := SchemaNode.uri
  children := SchemaNode.children
  parent node :=
    match node.parent with
    | .null => .ok none
    | .root => .ok (some c.root_node_)
    | .destroyed => .error .badPointer
  find_ref ref_uri :=
    match c.find_ref ref_uri with
    | some (.node target) => .ok (some target)
    | some .destroyed => .error .badPointer
    | none => .ok none

section Performs

variable {P : Platform} {c : SchemaCompiler} {lit : SchemaNode → Json → Str → ValidateM Unit}
  {call : Call → Tally ValidationError EvaluationContext → Except (Stop Abort) (Tally ValidationError EvaluationContext)}

/-- A keyword without calls is performed as it is. -/
theorem performs_leaf {p : Statement} (h : p.Over (fun _ => False) (fun _ => True) fun _ => True) :
    Performs call (leaf p) p := by
  have hwithin : p.Within (fun _ => False) Eq :=
    h.mono (fun _ h => h) (fun u _ s s' heq => congrArg u heq) fun b _ s s' heq => congrArg b heq
  intro s
  have hsame : p.run (fun _ t => .ok t) ⟨s.errors, s.notes⟩ = p.run call ⟨s.errors, s.notes⟩ :=
    (hwithin.alike (fun _ h => h.elim) _ _ rfl).eq
  unfold leaf
  rw [hsame]
  cases p.run call ⟨s.errors, s.notes⟩ <;> rfl

theorem performs_require {ok : Bool} {loc message : Str} :
    Performs call (leaf (require ok loc message)) (require ok loc message) := performs_leaf over_require

/-! ### Calls and loops -/

section Calls

variable (hlit : ∀ node y l, Performs call (lit node y l) (.call ⟨node, y, l⟩)) (x : Json) (loc : Str)
  (children : List SchemaNode)

include hlit

theorem performs_visit (child : SchemaNode) : Performs call (c.graph.visit lit x child) (visit x child) :=
  hlit _ _ _

theorem performs_validateAll : Performs call (c.graph.validateAll lit x children) (visitAll x children) :=
  .forM fun _ _ => performs_visit hlit x _

theorem performs_validateProperties :
    Performs call (c.graph.validateProperties lit x children) (validateProperties x children) := by
  cases x with
  | obj members =>
    refine .forM fun child _ => ?_
    have hname : c.graph.nameOf child = lastSegment child.uri := rfl
    unfold NodeGraph.validateProperty validateProperty
    dsimp only
    rw [hname]
    cases Record.find members (lastSegment child.uri) with
    | none => exact .done
    | some prop_value => exact (performs_validateAll hlit _ _).seq (.note _)
  | _ => exact .done

theorem performs_validatePatternProperties :
    Performs call (c.graph.validatePatternProperties P lit x children) (validatePatternProperties P x children) := by
  cases x with
  | obj members =>
    refine .forM fun child _ => .forM fun member _ => ?_
    unfold NodeGraph.validatePatternMember validatePatternMember
    show Performs call (if (P.regex_search (lastSegment child.uri) member.1).getD
      (lastSegment child.uri <:+: member.1) then _ else _) _
    dsimp only
    cases (P.regex_search (lastSegment child.uri) member.1).getD (lastSegment child.uri <:+: member.1) with
    | true => exact (performs_validateAll hlit _ _).seq (.note _)
    | false => exact .done
  | _ => exact .done

theorem performs_validateOtherProperties :
    Performs call (c.graph.validateOtherProperties lit x children) (validateOtherProperties x children) := by
  cases x with
  | obj members =>
    cases children with
    | nil => exact .done
    | cons child children =>
      refine .forM fun member _ => ?_
      have hskip := Performs.skipIf (fun ctx : EvaluationContext => member.1 ∈ ctx.evaluated_properties)
        (performs_visit (c := c) hlit member.2 child)
      simpa using hskip
  | _ => exact .done

theorem performs_validateDependentSchemas :
    Performs call (c.graph.validateDependentSchemas lit x children) (validateDependentSchemas x children) := by
  cases x with
  | obj members =>
    refine .forM fun child _ => ?_
    show Performs call (if (Record.find members (lastSegment child.uri)).isSome then _ else _) _
    split
    · exact performs_validateAll hlit _ _
    · exact .done
  | _ => exact .done

theorem performs_validateItems : Performs call (c.graph.validateItems lit x children) (validateItems x children) := by
  cases x with
  | arr items =>
    cases children with
    | nil => exact .done
    | cons child children => exact .forM fun item _ => (performs_visit hlit _ _).seq (.note _)
  | _ => exact .done

theorem performs_validatePrefixItems :
    Performs call (c.graph.validatePrefixItems lit x children) (validatePrefixItems x children) := by
  cases x with
  | arr items =>
    refine .forM fun entry _ => ?_
    obtain ⟨item, index⟩ := entry
    dsimp only
    cases children[index]?.or children.getLast? with
    | none =>
      show Performs call (pure () >>= fun _ => NodeGraph.pushItem) (.seq .done evaluateItem)
      exact Performs.done.seq (.note _)
    | some child => exact (performs_visit hlit _ _).seq (.note _)
  | _ => exact .done

theorem performs_validateUnevaluatedItems :
    Performs call (c.graph.validateUnevaluatedItems lit x children) (validateUnevaluatedItems x children) := by
  cases x with
  | arr items =>
    cases children with
    | nil => exact .done
    | cons child children =>
      exact .forM fun entry _ =>
        .skipIf (fun ctx : EvaluationContext => ctx.evaluated_items.getD entry.2 false) (performs_visit hlit _ _)
  | _ => exact .done

theorem performs_validateAdditionalItems (node : SchemaNode) :
    Performs call (c.graph.validateAdditionalItems lit x node)
      (validateAdditionalItems c x node.children node.parent) := by
  unfold NodeGraph.validateAdditionalItems validateAdditionalItems
  have hchildren : c.graph.children node = node.children := rfl
  rw [hchildren]
  cases x with
  | arr items =>
    cases node.children with
    | nil => exact .done
    | cons child children =>
      refine .forM fun entry _ => ?_
      show Performs call (deref (match node.parent with | .null => _ | .root => _ | .destroyed => _) >>= _) _
      cases node.parent with
      | null => exact .fault _
      | destroyed => exact .fault _
      | root =>
        show Performs call (if entry.2 ≥ c.root_node_.children.length then _ else _) _
        dsimp only
        split
        · exact performs_visit hlit _ _
        · exact .done
  | _ => exact .done

theorem performs_validateRef (value : Json) :
    Performs call (c.graph.validateRef lit x loc value) (validateRef c x loc value) := by
  unfold NodeGraph.validateRef validateRef
  cases value.get_string with
  | none => exact .done
  | some ref_target =>
    show Performs call (deref (match c.find_ref ref_target with
      | some (.node target) => _ | some .destroyed => _ | none => _) >>= _) _
    dsimp only
    cases c.find_ref ref_target with
    | none => exact performs_leaf (p := emplaceError _ _) trivial
    | some target =>
      cases target with
      | node target => exact performs_visit hlit _ _
      | destroyed => exact .fault _

/-! ### Trials -/

theorem performs_validateNot :
    Performs call (c.graph.validateNot lit x loc children) (validateNot x loc children) := by
  cases children with
  | nil => exact .done
  | cons child children =>
    refine (performs_visit hlit x child).attempt fun prev_errors s => ?_
    show outcome ((if decide (s.errors.length = prev_errors.length) = true then _ else _ : ValidateM Unit) s) = _
    simp only [decide_eq_true_eq]
    split
    · exact performs_leaf (p := emplaceError _ _) trivial s
    · rfl

omit hlit in
theorem resize_length (l : List ValidationError) : resize l.length l = l := by simp [resize]

theorem outcome_validateBranch (node : SchemaNode) (if_matched : Bool)
    (s : Journal ValidationError EvaluationContext) :
    outcome (c.graph.validateBranch lit x node if_matched s) =
      match node.parent with
      | .null => .ok ⟨s.errors, s.notes⟩
      | .destroyed => .error (.fault .badPointer)
      | .root =>
        match lastWith (if if_matched then .Then else .Else) c.root_node_.children with
        | some branch => (visit x branch).run call ⟨s.errors, s.notes⟩
        | none => .ok ⟨s.errors, s.notes⟩ := by
  have hlast : ∀ kw, c.graph.lastWith kw (c.graph.children c.root_node_) = lastWith kw c.root_node_.children :=
    fun _ => rfl
  unfold NodeGraph.validateBranch
  cases hparent : node.parent with
  | null =>
    have hgraph : c.graph.parent node = .ok none := by simp [SchemaCompiler.graph, hparent]
    rw [hgraph]
    rfl
  | destroyed =>
    have hgraph : c.graph.parent node = .error .badPointer := by simp [SchemaCompiler.graph, hparent]
    rw [hgraph]
    rfl
  | root =>
    have hgraph : c.graph.parent node = .ok (some c.root_node_) := by simp [SchemaCompiler.graph, hparent]
    rw [hgraph]
    simp only [deref, pure_bind, hlast]
    cases lastWith (if if_matched then .Then else .Else) c.root_node_.children with
    | none => rfl
    | some branch => exact performs_visit hlit x branch s

theorem performs_validateIf (node : SchemaNode) :
    Performs call (c.graph.validateIf lit x node) (validateIf c x node.children node.parent) := by
  unfold NodeGraph.validateIf validateIf
  have hchildren : c.graph.children node = node.children := rfl
  rw [hchildren]
  cases node.children with
  | nil => exact .done
  | cons child children =>
    refine (performs_visit hlit x child).attempt fun prev_errors s => ?_
    show outcome (c.graph.validateBranch lit x node (decide (s.errors.length = prev_errors.length))
      ⟨resize prev_errors.length s.errors, s.notes, _⟩) = _
    rw [outcome_validateBranch hlit]
    by_cases hsize : s.errors.length = prev_errors.length
    · -- the list keeps its size when the schema has accepted
      rw [if_pos hsize, decide_eq_true hsize, ← hsize, resize_length]
      cases node.parent with
      | null | destroyed => rfl
      | root => cases hbranch : lastWith .Then c.root_node_.children <;> simp [hbranch, Check.run]
    · rw [if_neg hsize, decide_eq_false hsize]
      cases node.parent with
      | null | destroyed => rfl
      | root => cases hbranch : lastWith .Else c.root_node_.children <;> simp [hbranch, Check.run]

/-! ### Trials of several schemas -/

section Alternatives

abbrev Blind (call : Call → Tally ValidationError EvaluationContext →
    Except (Stop Abort) (Tally ValidationError EvaluationContext)) : Prop :=
  ∀ f t t', t.notes = t'.notes → Alike Eq t t' (call f t) (call f t')

variable (hblind : Blind call)

include hblind

/-- A visit behind other errors: it stops like the one without them, or it adds the same errors to both. -/
theorem visit_behind (child : SchemaNode) (before junk : List ValidationError) (ctx : EvaluationContext)
    (cuts : List (Cut ValidationError)) :
    (∃ stop s', c.graph.visit lit x child ⟨before ++ junk, ctx, cuts⟩ = .error stop s' ∧
        (visit x child).run call ⟨before, ctx⟩ = .error stop) ∨
      ∃ new ctx' cuts', c.graph.visit lit x child ⟨before ++ junk, ctx, cuts⟩ =
          .ok () ⟨before ++ junk ++ new, ctx', cuts'⟩ ∧
        (visit x child).run call ⟨before, ctx⟩ = .ok ⟨before ++ new, ctx'⟩ := by
  have hperforms := performs_visit (c := c) hlit x child ⟨before ++ junk, ctx, cuts⟩
  have halike := hblind ⟨child, x, child.uri.to_string⟩ ⟨before ++ junk, ctx⟩ ⟨before, ctx⟩ rfl
  change outcome _ = call _ _ at hperforms
  change _ ∨ ∃ new ctx' cuts', _ ∧ call _ _ = _
  rw [← hperforms] at halike
  cases hrun : c.graph.visit lit x child ⟨before ++ junk, ctx, cuts⟩ with
  | error stop s' =>
    left
    rw [hrun] at halike
    generalize hcall : call ⟨child, x, child.uri.to_string⟩ ⟨before, ctx⟩ = r at halike
    cases halike
    exact ⟨stop, s', rfl, hcall⟩
  | ok _ s' =>
    right
    rw [hrun] at halike
    generalize hcall : call ⟨child, x, child.uri.to_string⟩ ⟨before, ctx⟩ = r at halike
    obtain ⟨errors, ctx', cuts'⟩ := s'
    cases halike with
    | @returned _ u' new h h' hnotes =>
      obtain ⟨errors', _⟩ := u'
      obtain rfl : errors = before ++ junk ++ new := h
      obtain rfl : errors' = before ++ new := h'
      obtain rfl : ctx' = _ := hnotes
      exact ⟨new, _, cuts', rfl, rfl⟩

/-- `anyOf` behind the errors of the schemas that have rejected, which the source drops together. -/
theorem outcome_anyOf (before : List ValidationError) : ∀ (children : List SchemaNode)
    (junk : List ValidationError) (ctx : EvaluationContext) (cuts : List (Cut ValidationError)),
    outcome ((do
      let matched ← c.graph.anyOfLoop lit x children
      resizeTo before
      leaf (require matched loc "Value does not match any of the anyOf schemas".toList) : ValidateM Unit)
        ⟨before ++ junk, ctx, cuts⟩) = (validateAnyOf x loc children).run call ⟨before, ctx⟩ := by
  have hreport : ∀ (matched : Bool) (junk : List ValidationError) (ctx : EvaluationContext)
      (cuts : List (Cut ValidationError)),
      outcome ((do
        resizeTo before
        leaf (require matched loc "Value does not match any of the anyOf schemas".toList) : ValidateM Unit)
          ⟨before ++ junk, ctx, cuts⟩) =
        (require matched loc "Value does not match any of the anyOf schemas".toList).run call ⟨before, ctx⟩ := by
    intro matched junk ctx cuts
    rw [bind_of_ok (resizeTo_run before _)]
    dsimp only
    rw [resize_append]
    exact performs_require _
  intro children
  induction children with
  | nil => exact fun junk ctx cuts => hreport false junk ctx cuts
  | cons child children ih =>
    intro junk ctx cuts
    unfold NodeGraph.anyOfLoop validateAnyOf
    simp only [bind_assoc]
    rw [bind_of_ok (remember_run _)]
    rcases visit_behind (c := c) hlit x hblind child before junk ctx cuts with
      ⟨stop, s', hrun, hcheck⟩ | ⟨new, ctx', cuts', hrun, hcheck⟩
    · rw [bind_of_error hrun, Check.run, hcheck]
      rfl
    · rw [bind_of_ok hrun, bind_of_ok (sameSize_run _ _), Check.run, hcheck]
      show outcome ((_ >>= _ : ValidateM Unit) _) = if (before ++ new).length = before.length then _ else _
      by_cases hnil : new = []
      · rw [hnil, List.append_nil, List.append_nil, decide_eq_true rfl, if_pos rfl, if_pos rfl]
        exact hreport true junk ctx' cuts'
      · have hgrown : (before ++ new).length ≠ before.length := by
          have := List.length_pos_of_ne_nil hnil
          rw [List.length_append]
          omega
        have hgrown' : ((before ++ junk) ++ new).length ≠ (before ++ junk).length := by
          have := List.length_pos_of_ne_nil hnil
          rw [List.length_append]
          omega
        rw [decide_eq_false hgrown', if_neg hgrown, resize_append, List.append_assoc]
        exact ih (junk ++ new) ctx' cuts'

theorem performs_validateAnyOf :
    Performs call (c.graph.validateAnyOf lit x loc children) (validateAnyOf x loc children) := by
  intro s
  have hloop := outcome_anyOf (c := c) hlit x loc hblind s.errors children [] s.notes s.cuts
  rw [List.append_nil] at hloop
  exact hloop

/-- A trial that counts, for `oneOf` and `contains`: the check goes on with what it has found. -/
theorem counted_trial (child : SchemaNode) (found : ℕ) (before : List ValidationError) (ctx : EvaluationContext)
    (cuts : List (Cut ValidationError)) :
    (∃ stop s', c.graph.oneOfStep lit x found child ⟨before, ctx, cuts⟩ = .error stop s' ∧
        ∀ k, (Check.attempt (visit x child) k).run call ⟨before, ctx⟩ = .error stop) ∨
      ∃ matched ctx' cuts', c.graph.oneOfStep lit x found child ⟨before, ctx, cuts⟩ =
          .ok (if matched then found + 1 else found) ⟨before, ctx', cuts'⟩ ∧
        ∀ k, (Check.attempt (visit x child) k).run call ⟨before, ctx⟩ = (k matched).run call ⟨before, ctx'⟩ := by
  unfold NodeGraph.oneOfStep
  rw [bind_of_ok (remember_run _)]
  have hvisit := visit_behind (c := c) hlit x hblind child before [] ctx cuts
  simp only [List.append_nil] at hvisit
  rcases hvisit with ⟨stop, s', hrun, hcheck⟩ | ⟨new, ctx', cuts', hrun, hcheck⟩
  · refine .inl ⟨stop, s', bind_of_error hrun, fun k => ?_⟩
    rw [Check.run, hcheck]
    rfl
  · right
    rw [bind_of_ok hrun, bind_of_ok (sameSize_run _ _)]
    have hattempt : ∀ k, (Check.attempt (visit x child) k).run call ⟨before, ctx⟩ =
        if (before ++ new).length = before.length then (k true).run call ⟨before ++ new, ctx'⟩
        else (k false).run call ⟨resize before.length (before ++ new), ctx'⟩ := by
      intro k
      rw [Check.run, hcheck]
      rfl
    by_cases hnil : new = []
    · subst hnil
      refine ⟨true, ctx', cuts', ?_, fun k => ?_⟩
      · rw [List.append_nil, decide_eq_true rfl]
        rfl
      · rw [hattempt, List.append_nil, if_pos rfl]
    · have hgrown : (before ++ new).length ≠ before.length := by
        have := List.length_pos_of_ne_nil hnil
        rw [List.length_append]
        omega
      refine ⟨false, ctx', cuts' ++ [⟨before, before ++ new⟩], ?_, fun k => ?_⟩
      · rw [decide_eq_false hgrown, if_neg (by decide), bind_of_ok (resizeTo_run _ _)]
        dsimp only
        rw [resize_append]
        rfl
      · rw [hattempt, if_neg hgrown, resize_append]

theorem outcome_oneOf (before : List ValidationError) : ∀ (children : List SchemaNode) (found : ℕ)
    (ctx : EvaluationContext) (cuts : List (Cut ValidationError)),
    outcome ((do
      let found ← children.foldlM (c.graph.oneOfStep lit x) found
      resizeTo before
      leaf <| require (found = 1) loc
        ("Value must match exactly one of the oneOf schemas".toList ++ " (matched ".toList ++ sizeText found ++
          if found = 0 then ")".toList else ", expected 1)".toList) : ValidateM Unit) ⟨before, ctx, cuts⟩) =
      (validateOneOf x loc children found).run call ⟨before, ctx⟩ := by
  intro children
  induction children with
  | nil =>
    intro found ctx cuts
    rw [List.foldlM_nil, pure_bind, bind_of_ok (resizeTo_run before _)]
    dsimp only
    rw [resize_length]
    exact performs_require _
  | cons child children ih =>
    intro found ctx cuts
    rw [List.foldlM_cons, bind_assoc]
    rcases counted_trial (c := c) hlit x hblind child found before ctx cuts with
      ⟨stop, s', hrun, hcheck⟩ | ⟨matched, ctx', cuts', hrun, hcheck⟩
    · rw [bind_of_error hrun]
      exact (hcheck _).symm
    · rw [bind_of_ok hrun]
      rw [validateOneOf, hcheck]
      exact ih _ ctx' cuts'

theorem performs_validateOneOf :
    Performs call (c.graph.validateOneOf lit x loc children) (validateOneOf x loc children 0) := fun s =>
  outcome_oneOf hlit x loc hblind s.errors children 0 s.notes s.cuts

theorem outcome_contains (child : SchemaNode) : ∀ (items : List Json) (match_count : ℕ)
    (s : Journal ValidationError EvaluationContext),
    outcome ((do
      let match_count ← items.foldlM (c.graph.containsStep lit child) match_count
      leaf <| require (¬ match_count < 1) loc
        "Array does not contain any items matching the \"contains\" schema".toList : ValidateM Unit) s) =
      (countMatches loc child items match_count).run call ⟨s.errors, s.notes⟩ := by
  intro items
  induction items with
  | nil =>
    intro match_count s
    rw [List.foldlM_nil, pure_bind]
    exact performs_require s
  | cons item items ih =>
    intro match_count s
    rw [List.foldlM_cons, bind_assoc]
    -- `contains` counts items as `oneOf` counts schemas
    have hstep : c.graph.containsStep lit child match_count item = c.graph.oneOfStep lit item match_count child := rfl
    rw [hstep]
    rcases counted_trial (c := c) hlit item hblind child match_count s.errors s.notes s.cuts with
      ⟨stop, s', hrun, hcheck⟩ | ⟨matched, ctx', cuts', hrun, hcheck⟩
    · rw [bind_of_error hrun]
      exact (hcheck _).symm
    · rw [bind_of_ok hrun]
      rw [countMatches, hcheck]
      exact ih _ ⟨s.errors, ctx', cuts'⟩

theorem performs_validateContains :
    Performs call (c.graph.validateContains lit x loc children) (validateContains x loc children) := by
  cases x with
  | arr items =>
    cases children with
    | nil => exact .done
    | cons child children => exact fun s => outcome_contains hlit loc hblind child items 0 s
  | _ => exact .done

end Alternatives

end Calls

/-! ### Names -/

theorem performs_validateDependentRequired {x : Json} {loc : Str} {children : List SchemaNode} :
    Performs call (c.graph.validateDependentRequired x loc children) (validateDependentRequired x loc children) := by
  cases x with
  | obj members =>
    refine .forM fun child _ => ?_
    unfold NodeGraph.dependentNames dependentNames
    have hname : c.graph.nameOf child = lastSegment child.uri := rfl
    have hchildren : c.graph.children child = child.children := rfl
    rw [hname, hchildren]
    dsimp only
    cases Record.find members (lastSegment child.uri) with
    | none => exact .done
    | some _ =>
      cases child.children with
      | nil => exact .done
      | cons grandchild _ => exact .forM fun req_prop _ => performs_require
  | _ => exact .done

/-- What `propertyNames` reports for one node. -/
theorem checkName_run (key str : Str) (subchild : SchemaNode) (s : Journal ValidationError EvaluationContext) :
    c.graph.checkName P key str subchild s =
      match nameErrors P key str subchild with
      | .ok errors => .ok () { s with errors := s.errors ++ errors }
      | .error a => .error (.fault a) s := by
  have hnothing : (pure () : ValidateM Unit) s = .ok () { s with errors := s.errors ++ [] } := by
    rw [List.append_nil]
    rfl
  unfold NodeGraph.checkName nameErrors
  have hkeyword : c.graph.keyword subchild = subchild.keyword := rfl
  have hvalue : c.graph.value subchild = subchild.value := rfl
  have huri : c.graph.uri subchild = subchild.uri := rfl
  rw [hkeyword, hvalue, huri]
  cases subchild.keyword
  case Pattern =>
    cases subchild.value.get_string with
    | none => exact hnothing
    | some pattern =>
      dsimp only
      cases patternError P pattern str with
      | none => exact hnothing
      | some message => rfl
  case MaxLength | MinLength =>
    cases subchild.value.get_int64 with
    | none => exact hnothing
    | some limit =>
      dsimp only
      split
      · rfl
      · exact hnothing
  case Const =>
    cases subchild.value.get_string with
    | none => exact hnothing
    | some const_val =>
      dsimp only
      split
      · rfl
      · exact hnothing
  case Enum =>
    cases subchild.value with
    | arr values =>
      dsimp only
      split
      · exact hnothing
      · rfl
    | _ => rfl
  all_goals exact hnothing

theorem outcome_checkNames (key str : Str) : ∀ (subchildren : List SchemaNode)
    (s : Journal ValidationError EvaluationContext),
    match subchildren.mapM (nameErrors P key str) with
    | .ok errors =>
      subchildren.forM (c.graph.checkName P key str) s = .ok () { s with errors := s.errors ++ errors.flatten }
    | .error a => ∃ s', subchildren.forM (c.graph.checkName P key str) s = .error (.fault a) s' := by
  intro subchildren
  induction subchildren with
  | nil =>
    intro s
    show (pure () : ValidateM Unit) s = .ok () { s with errors := s.errors ++ [] }
    rw [List.append_nil]
    rfl
  | cons subchild subchildren ih =>
    intro s
    have hfirst := checkName_run (P := P) (c := c) key str subchild s
    rw [List.mapM_cons]
    cases herrors : nameErrors P key str subchild with
    | error a =>
      rw [herrors] at hfirst
      exact ⟨s, bind_of_error hfirst⟩
    | ok errors =>
      rw [herrors] at hfirst
      have hrest := ih { s with errors := s.errors ++ errors }
      show match (subchildren.mapM (nameErrors P key str)).bind fun rest => .ok (errors :: rest) with
        | .ok errors => ((c.graph.checkName P key str subchild >>= fun _ =>
            subchildren.forM (c.graph.checkName P key str)) s) = .ok () { s with errors := s.errors ++ errors.flatten }
        | .error a => ∃ s', ((c.graph.checkName P key str subchild >>= fun _ =>
            subchildren.forM (c.graph.checkName P key str)) s) = .error (.fault a) s'
      rw [bind_of_ok hfirst]
      cases hmap : subchildren.mapM (nameErrors P key str) with
      | error a =>
        rw [hmap] at hrest
        exact hrest
      | ok rest =>
        rw [hmap] at hrest
        show _ = EStateM.Result.ok () { s with errors := s.errors ++ (errors :: rest).flatten }
        rw [List.flatten_cons, ← List.append_assoc]
        exact hrest

theorem run_all_report (errors : List ValidationError) (t : Tally ValidationError EvaluationContext) :
    (Check.all (errors.map .report) : Statement).run call t = .ok { t with errors := t.errors ++ errors } := by
  induction errors generalizing t with
  | nil => rw [List.append_nil]; rfl
  | cons e errors ih =>
    rw [List.map_cons, Check.all_cons, Check.run]
    refine (ih { t with errors := t.errors ++ [e] }).trans ?_
    rw [List.append_assoc]
    rfl

theorem performs_validatePropertyNames {x : Json} {loc : Str} {children : List SchemaNode} :
    Performs call (c.graph.validatePropertyNames P x loc children) (validatePropertyNames P x loc children) := by
  cases x with
  | obj members =>
    cases children with
    | nil => exact .done
    | cons child children =>
      refine .forM fun member _ => ?_
      obtain ⟨key, value⟩ := member
      intro s
      have hreport : ∀ (new : List ValidationError) (message : Str),
          outcome ((do
            let grew ← grown s.errors
            leaf (require (!grew) loc message) : ValidateM Unit) { s with errors := s.errors ++ new }) =
            (require new.isEmpty loc message).run call ⟨s.errors ++ new, s.notes⟩ := by
        intro new message
        have hgrown : (!decide ((s.errors ++ new).length > s.errors.length)) = new.isEmpty := by
          cases new <;> simp
        rw [bind_of_ok (grown_run _ _), hgrown]
        exact performs_require _
      unfold NodeGraph.validateName validateName
      rw [bind_of_ok (remember_run _)]
      cases value with
      | str text =>
        have hnames := outcome_checkNames (P := P) (c := c) key text child.children s
        dsimp only
        cases hmap : child.children.mapM (nameErrors P key text) with
        | error a =>
          rw [hmap] at hnames
          obtain ⟨s', hrun⟩ := hnames
          exact congrArg outcome (bind_of_error hrun)
        | ok errors =>
          rw [hmap] at hnames
          show _ = (Check.run call _ _).bind _
          rw [run_all_report]
          exact (congrArg outcome (bind_of_ok hnames)).trans (hreport errors.flatten _)
      | _ =>
        have hnone := hreport [] ("Property name ".toList ++ quoted key ++ " does not match propertyNames schema".toList)
        rw [List.append_nil] at hnone
        exact hnone
  | _ => exact .done

/-! ### The body and its calls -/

theorem performs_validateWith (hlit : ∀ node y l, Performs call (lit node y l) (.call ⟨node, y, l⟩))
    (hblind : Blind call) (node : SchemaNode) (x : Json) (loc : Str) :
    Performs call (c.graph.validateWith P lit node x loc) (validate_node P c ⟨node, x, loc⟩) := by
  unfold NodeGraph.validateWith validate_node
  have hkeyword : c.graph.keyword node = node.keyword := rfl
  rw [hkeyword]
  dsimp only
  cases node.keyword
  case Schema | AllOf => exact performs_validateAll hlit x _
  case AnyOf => exact performs_validateAnyOf hlit x loc _ hblind
  case OneOf => exact performs_validateOneOf hlit x loc _ hblind
  case Not => exact performs_validateNot hlit x loc _
  case If => exact performs_validateIf hlit x node
  case Properties => exact performs_validateProperties hlit x _
  case AdditionalProperties | UnevaluatedProperties => exact performs_validateOtherProperties hlit x _
  case Items => exact performs_validateItems hlit x _
  case PrefixItems => exact performs_validatePrefixItems hlit x _
  case Contains => exact performs_validateContains hlit x loc _ hblind
  case Ref => exact performs_validateRef hlit x loc _
  case PatternProperties => exact performs_validatePatternProperties hlit x _
  case DependentRequired => exact performs_validateDependentRequired
  case DependentSchemas => exact performs_validateDependentSchemas hlit x _
  case PropertyNames => exact performs_validatePropertyNames
  case AdditionalItems => exact performs_validateAdditionalItems hlit x node
  case UnevaluatedItems => exact performs_validateUnevaluatedItems hlit x _
  case Type_ => exact performs_leaf over_validateType
  case Enum => exact performs_leaf over_validateEnum
  case Const => exact performs_require
  case MultipleOf => exact performs_leaf over_validateMultipleOf
  case Maximum | Minimum | ExclusiveMaximum | ExclusiveMinimum => exact performs_leaf over_validateBound
  case MaxLength => exact performs_leaf over_validateMaxLength
  case MinLength => exact performs_leaf over_validateMinLength
  case Pattern => exact performs_leaf over_validatePattern
  case MaxItems | MinItems | MaxProperties | MinProperties => exact performs_leaf over_validateCount
  case UniqueItems => exact performs_leaf over_validateUniqueItems
  case MaxContains =>
    exact performs_leaf (over_noteMaxContains.mono (fun _ h => h) (fun _ _ => trivial) fun _ h => h)
  case MinContains =>
    exact performs_leaf (over_noteMinContains.mono (fun _ h => h) (fun _ _ => trivial) fun _ h => h)
  case Required => exact performs_leaf over_validateRequired
  all_goals exact performs_leaf over_validateDefault

end Performs

/-- What a call reports does not depend on what has been reported before it. -/
theorem blind_runCalls (P : Platform) (c : SchemaCompiler) (depth : ℕ) :
    Blind (runCalls (validate_node P c) depth) := by
  have hbody : ∀ f : Call, True → (validate_node P c f).Within (fun _ => True) Eq := fun f _ =>
    Check.Over.mono (fun _ h => h) (fun u _ s s' heq => congrArg u heq) (fun b _ s s' heq => congrArg b heq)
      (.everything _)
  exact fun f t t' h => runCalls_alike hbody depth f trivial t t' h

/-- **The resizes are trials.**  On the nodes of a compiled schema, the `validate_node` that resizes the
error list where the source does runs like the one that drops what a trial has reported. -/
theorem performs_validate_node (P : Platform) (c : SchemaCompiler) : ∀ depth node x loc,
    Performs (runCalls (validate_node P c) depth) (c.graph.validate_node P depth node x loc)
      (.call ⟨node, x, loc⟩) := by
  intro depth
  induction depth with
  | zero => exact fun _ _ _ _ => rfl
  | succ depth ih => exact fun node x loc s => performs_validateWith ih (blind_runCalls P c depth) node x loc s

end Siesta.JsonSchema
