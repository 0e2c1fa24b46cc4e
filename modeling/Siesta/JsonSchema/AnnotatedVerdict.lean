import Siesta.JsonSchema.Annotations
import Siesta.JsonSchema.SameVerdict
import Siesta.JsonSchema.TreeNodes

/-!
# When annotations make no difference

The nodes of annotations and of branches without an `if` fall into the default case, which takes a value
`false` for the schema that accepts nothing; and they take part wherever nodes are counted, or the first
one is taken.  Where two validations meet none of this, the annotated schema has the same verdict
(`annotated_verdict`).
-/

namespace Siesta.JsonSchema

open Lib

/-! ### The branches of an `if` -/

theorem lastWith_annotated {members : List (Str × Json)} {schema' : Json} (h : Annotated (.obj members) schema')
    {c c' : SchemaCompiler} (hc : compile (.obj members) = .ok c) (hc' : compile schema' = .ok c')
    (hif : ∃ m ∈ members, keywordOf m.1 = .If) {kw : Keyword} (hkw : kw = .Then ∨ kw = .Else) :
    Option.Rel Grown (lastWith kw c.root_node_.children) (lastWith kw c'.root_node_.children) := by
  obtain ⟨depth, members', rfl, hadded⟩ := h.members
  obtain ⟨children, hbuilt, hpadding⟩ := built_members (built_annotated depth) hadded _ _ _ (built_of_compile hc')
  obtain rfl : c.root_node_.children = children := Except.ok.inj ((built_of_compile hc).symm.trans hbuilt)
  have hpadding : Padding Grown (NodeOf (Addable members)) c.root_node_.children c'.root_node_.children :=
    hpadding.imp (fun _ _ h => ⟨_, h⟩) fun _ h => h
  refine getLast?_forall₂ (hpadding.filter (fun n n' h => by rw [h.grownBy.keyword]) fun n hn => ?_)
  obtain ⟨m, hm, hkeyword⟩ := hn
  obtain ⟨e, he, hthere⟩ := hif
  have hannotation : isAnnotation n.keyword := by
    rw [hkeyword]
    exact hm.resolve_right fun h => h.2 e he hthere
  rw [decide_eq_false_iff_not]
  rintro hn
  rw [hn] at hannotation
  rcases hkw with rfl | rfl
  · exact absurd hannotation (by decide)
  · exact absurd hannotation (by decide)

/-! ### Corresponding calls -/

abbrev WithInert : List SchemaNode → List SchemaNode → Prop := Padding Grown Inert

/-- The nodes that have been added, where they are visited, do not have the value `false`. -/
def AddedAccept (P : Platform) (c' : SchemaCompiler) (y : Json) (nodes nodes' : List SchemaNode) (v' : State) : Prop :=
  Padding Grown (fun n => Inert n ∧ ((∃ u', Enters (validate_node P c') (visitAll y nodes') v' (visitCall y n) u') →
    n.value.get_bool ≠ some false)) nodes nodes'

/-- In two corresponding calls, what has been added makes no difference. -/
structure Undisturbed (P : Platform) (c c' : SchemaCompiler) (a a' : Call × State) : Prop where
  /-- Nodes that have been added to a schema and are visited do not have the value `false`. -/
  added : ∀ y nodes nodes' v v', WithInert nodes nodes' →
    ComeTo WithInert P c c' a a' (visitAll y nodes) v (visitAll y nodes') v' → AddedAccept P c' y nodes nodes' v'
  /-- A value that is handed to the first node of a subschema gets to the same node, or no first node does
  anything with it. -/
  first : handsOn c a.1.node a.1.element a.2.notes ∨ handsOn c' a'.1.node a.1.element a'.2.notes →
    FirstBy (Kin Grown) a.1.node.children a'.1.node.children ∨
      MaySkip c c' a.1.node ∧ FirstBlank a.1.node.children ∧ FirstBlank a'.1.node.children
  /-- A subschema of `contains` without nodes has none added, where the array is empty. -/
  contains : a.1.node.keyword = .Contains → a.1.element = .arr [] →
    (a.1.node.children = [] ↔ a'.1.node.children = [])
  /-- The same for `additionalItems`, where it asks for the parent and has none. -/
  additional : a.1.node.keyword = .AdditionalItems → a.1.node.parent ≠ .root → ∀ items, a.1.element = .arr items →
    items ≠ [] → (a.1.node.children = [] ↔ a'.1.node.children = [])
  /-- Under the root it leaves out the same items, or no first node does anything with them. -/
  count : a.1.node.keyword = .AdditionalItems → a.1.node.parent = .root →
    FirstBlank a.1.node.children ∧ FirstBlank a'.1.node.children ∨ ∀ items, a.1.element = .arr items →
      ∀ index < items.length, (index ≥ c.root_node_.children.length ↔ index ≥ c'.root_node_.children.length)
  /-- A `$ref` finds the same node. -/
  target : a.1.node.keyword = .Ref → ∀ uri, a.1.node.value.get_string = some uri →
    Option.Rel (PtrBy (Kin Grown)) (c.find_ref uri) (c'.find_ref uri)
  /-- `propertyNames` reads the names' schemas from under the same first node, or finds nothing for names there. -/
  names : a.1.node.keyword = .PropertyNames → ∀ members, a.1.element = .obj members →
    (∃ m ∈ members, m.2.get_string.isSome) → FirstBy Grown a.1.node.children a'.1.node.children ∨
      FirstMute a.1.node.children ∧ FirstMute a'.1.node.children
  /-- Each question to the evaluation context is answered alike, unless it is about a visit to a node that does
  nothing. -/
  answers : ∀ g g' p p' v v', ComeTo WithInert P c c' a a' (.skipIf g p) v (.skipIf g' p') v' →
    g v.notes = g' v'.notes ∨ BlankVisit p ∧ BlankVisit p'

/-- In the validation of `x`, what has been added makes no difference. -/
def AnnotationsQuiet (P : Platform) (c c' : SchemaCompiler) (x : Json) : Prop :=
  ∀ a a', VisitedBy Grown WithInert P c c' x a a' → Undisturbed P c c' a a'

/-! ### Inert nodes -/

theorem Inert.blank {node : SchemaNode} (h : Inert node) (haccepts : node.value.get_bool ≠ some false) :
    Blank node := by
  intro P c x loc
  have hdefault : validateDefault node.value loc = .done := by
    cases hvalue : node.value with
    | bool accepts =>
      rw [hvalue] at haccepts
      cases accepts with
      | true => rfl
      | false => exact absurd rfl haccepts
    | _ => rfl
  unfold validate_node
  dsimp only
  rcases h with h | h | h
  · cases hkw : node.keyword <;> rw [hkw] at h <;> first | exact hdefault | exact absurd h (by decide)
  · rw [h]
    exact hdefault
  · rw [h]
    exact hdefault

theorem AddedAccept.counterparts {P : Platform} {c' : SchemaCompiler} {y : Json} {nodes nodes' : List SchemaNode}
    {v' : State} (h : AddedAccept P c' y nodes nodes' v') : Counterparts Grown P c' y nodes nodes' v' := by
  constructor
  · exact fun n hn => h.exists_kept hn
  · intro n' hn'
    rcases h.exists_or_added hn' with hkept | ⟨hinert, haccepts⟩
    · exact .inl hkept
    · exact .inr fun u' hu' => hinert.blank (haccepts ⟨u', hu'⟩)

section

variable {P : Platform}

theorem nameErrors_grown {key str : Str} {n n' : SchemaNode} (h : Grown n n') :
    nameErrors P key str n = nameErrors P key str n' := by
  have hgrown := h.grownBy
  cases hread : valueUnread n.keyword with
  | false => rw [hgrown.plain hread]
  | true =>
    unfold nameErrors
    rw [← hgrown.keyword]
    cases hkw : n.keyword <;> rw [hkw] at hread <;> first | rfl | exact absurd hread (by decide)

theorem nameErrors_inert {key str : Str} {n : SchemaNode} (h : Inert n) : nameErrors P key str n = .ok [] := by
  unfold nameErrors
  rcases h with h | h | h
  · cases hkw : n.keyword <;> rw [hkw] at h <;> first | rfl | exact absurd h (by decide)
  · rw [h]
  · rw [h]

theorem nameErrors_padding {l l' : List SchemaNode} (h : Padding Grown Inert l l') (key str : Str) :
    Both (fun a a' => a.flatten.length = a'.flatten.length) (l.mapM (nameErrors P key str))
      (l'.mapM (nameErrors P key str)) := by
  induction h with
  | nil => exact .returned rfl
  | keep h _ ih =>
    rw [List.mapM_cons, List.mapM_cons, ← nameErrors_grown h]
    refine (Both.refl (fun _ => rfl) _).bind fun errors errors' herrors => ?_
    obtain rfl : errors = errors' := herrors
    refine ih.bind fun rest rest' hrest => .returned ?_
    simp [hrest]
  | add h _ ih =>
    rw [List.mapM_cons, nameErrors_inert h]
    revert ih
    generalize List.mapM (nameErrors P key str) _ = r
    generalize List.mapM (nameErrors P key str) _ = r'
    rintro (⟨a, a'⟩ | @⟨errors, errors', hlength⟩)
    · exact .failed a a'
    · exact .returned (by simpa using hlength)

theorem Grown.namesAlike {n n' : SchemaNode} (h : Grown n n') : NamesAlike P n n' :=
  fun key str => nameErrors_padding h.grownBy.children key str

end

/-! ### Corresponding nodes -/

/-- Where what has been added makes no difference, nodes correspond to each other. -/
theorem aligned_of_undisturbed {P : Platform} {c c' : SchemaCompiler} {a a' : Call × State}
    (hnode : Grown a.1.node a'.1.node) (h : Undisturbed P c c' a a')
    (hbranch : a.1.node.keyword = .If → a.1.node.parent = .root → ∀ kw, kw = .Then ∨ kw = .Else →
      Option.Rel Grown (lastWith kw c.root_node_.children) (lastWith kw c'.root_node_.children)) :
    Aligned Grown WithInert P c c' a.1.node a'.1.node a.1.element a.2 a'.2 := by
  have hgrown := hnode.grownBy
  exact
    { keyword := hgrown.keyword
      parent := hgrown.parent
      value := fun hread => by rw [← hgrown.plain hread]
      bool := hgrown.bool
      schema := fun _ => hgrown.children
      list := fun h => (hgrown.inOrder (.inr h)).imp fun _ _ h => h.2
      entries := by
        refine fun h => (hgrown.inOrder (.inl h)).imp fun e e' he => ?_
        exact ⟨congrArg lastSegment he.1, he.2.grownBy.children⟩
      first := h.first
      contains := h.contains
      additional := h.additional
      count := h.count
      branch := by
        intro hif hparent _ _ v _
        have hlast := hbranch hif hparent (if (afterTrial a.2 v).1 then .Then else .Else) (by
          split
          · exact .inl rfl
          · exact .inr rfl)
        revert hlast
        generalize lastWith _ c.root_node_.children = b
        generalize lastWith _ c'.root_node_.children = b'
        rintro (hn | _)
        · exact .some (.inl hn)
        · exact .none
      target := h.target
      names := by
        intro hkw
        by_cases htext : ∃ members, a.1.element = .obj members ∧ ∃ m ∈ members, m.2.get_string.isSome
        · obtain ⟨members, hy, hm⟩ := htext
          rcases h.names hkw members hy hm with hfirst | hmute
          · exact .inl (FirstBy.imp (fun _ _ => Grown.namesAlike) hfirst)
          · exact .inr (.inl hmute)
        · refine .inr (.inr fun members hy m hm => ?_)
          by_contra hsome
          exact htext ⟨members, hy, m, hm, Option.isSome_iff_ne_none.mpr hsome⟩
      dependent := by
        intro hkw loc depth
        rw [← hgrown.plain (by rw [hkw]; rfl)]
        exact .refl over_validateDependentRequired _ _ }

/-! ### The verdict -/

theorem returns_grown {P : Platform} {schema schema' x : Json} (hannotated : Annotated schema schema')
    {c c' : SchemaCompiler} (hc : compile schema = .ok c) (hc' : compile schema' = .ok c')
    (hroot : Grown c.root_node_ c'.root_node_) (hquiet : AnnotationsQuiet P c c' x) (b : Bool) :
    Returns P c x b ↔ Returns P c' x b := by
  refine returns_alongside (fun _ _ h hkw => h.grownBy.uri hkw) hroot (fun a a' h => (hquiet a a' h).answers)
    (fun a a' h y nodes nodes' v v' hnodes hcome =>
      ((hquiet a a' h).added y nodes nodes' v v' hnodes hcome).counterparts) (fun a a' h hnode => ?_) b
  refine aligned_of_undisturbed hnode (hquiet a a' h) fun hif hparent kw hkw => ?_
  obtain ⟨members, rfl, m, hm, hmember⟩ :=
    keyword_of_parent_root hc (possible_of_calls (.inl rfl) h.calls.1).node hparent
  exact lastWith_annotated hannotated hc hc' ⟨m, hm, hmember.trans hif⟩ hkw

theorem AnnotatedTo.simpler : ∀ {depth : ℕ} {v v' : Json}, AnnotatedTo depth v v' → Simpler v v' := by
  intro depth
  induction depth with
  | zero =>
    rintro v _ rfl
    exact .refl v
  | succ depth ih =>
    rintro v v' (rfl | ⟨items, items', rfl, rfl, h⟩ | ⟨members, members', rfl, rfl, h⟩)
    · exact .refl v
    · exact simpler_arr fun u hu => (forall₂_exists_right h u hu).imp fun u' hu' => ⟨hu'.1, ih hu'.2⟩
    · refine simpler_obj fun m hm => ?_
      obtain ⟨m', hm', -, hheld⟩ := h.exists_kept hm
      exact ⟨m', hm', hheld.simpler fun _ _ => ih⟩

theorem Closed.not_inert {a : Call × State} (h : Closed a) : ¬ Inert a.1.node := by
  rintro (hinert | hkw | hkw)
  · cases hkw : a.1.node.keyword <;> rw [hkw] at hinert <;>
      first | exact absurd hinert (by decide) | exact h.keyword_ne (by decide) hkw
  · exact h.keyword_ne (by decide) hkw
  · exact h.keyword_ne (by decide) hkw

/-- What has been added makes no difference to calls that hand nothing on and call no others. -/
theorem Closed.undisturbed {P : Platform} {c c' : SchemaCompiler} {a a' : Call × State} (h : Closed a)
    (h' : Closed a') (helement : a.1.element = a'.1.element)
    (hcalls : ∀ b', Calls (validate_node P c') a' b' → Closed b') : Undisturbed P c c' a a' where
  added y nodes nodes' v v' hnodes hcome := by
    refine hnodes.imp (fun _ _ h => h) fun n hinert => ⟨hinert, ?_⟩
    rintro ⟨u', hu'⟩
    exact absurd hinert (hcalls (visitCall y n, u') (hcome.swap.enters hu')).not_inert
  first hon := by
    rw [h.handsOn c, helement, h'.handsOn c'] at hon
    exact absurd hon (by simp)
  contains hkw := absurd hkw (h.keyword_ne (by decide))
  additional hkw := absurd hkw (h.keyword_ne (by decide))
  count hkw := absurd hkw (h.keyword_ne (by decide))
  target hkw := absurd hkw (h.keyword_ne (by decide))
  names hkw := absurd hkw (h.keyword_ne (by decide))
  answers g g' p p' v v' halong := by
    have hg := h.answer halong
    have hg' := h'.answer halong.swap
    exact .inl (hg.trans hg'.symm)

/-! ### The documents -/

theorem annotated_of_padding {members members' : List (Str × Json)}
    (h : Padding (· = ·) (Addable members) members members') : Annotated (.obj members) (.obj members') := by
  refine ⟨1, .inr (.inr ⟨members, members', rfl, rfl, h.imp ?_ fun _ h => h⟩)⟩
  rintro m _ rfl
  exact ⟨rfl, .refl (fun _ => rfl) _ _⟩

theorem annotated_textAnd {keys keys' : List (Str × Json)} (h : Padding (· = ·) (Addable keys) keys keys') :
    Annotated (textAnd keys) (textAnd keys') := by
  obtain ⟨depth, hkeys⟩ := annotated_of_padding h
  have hsame : ∀ v, AnnotatedTo depth v v := fun v => by
    cases depth with
    | zero => rfl
    | succ depth => exact .inl rfl
  refine ⟨depth + 1, .inr (.inr ⟨_, [_, ("additionalProperties".toList, .obj keys')], rfl, rfl,
    .keep ⟨rfl, ?_⟩ (.keep ⟨rfl, hkeys⟩ .nil)⟩)⟩
  exact .refl hsame _ _

/-- A title in front of `numberKeys`, and an inactive branch behind. -/
def titledKeys : List (Str × Json) :=
  [("title".toList, .str "number".toList), ("type".toList, .str "integer".toList), ("minimum".toList, .int 3),
    ("then".toList, .bool false)]

end Siesta.JsonSchema
