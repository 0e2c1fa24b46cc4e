import Siesta.JsonSchema.ParsedValues
import Siesta.JsonSchema.RelatedNodes

/-!
# When the order of keys makes no difference

`validate_node` visits the nodes of a schema in the order of its keys.  The order can make a difference in
three ways: a value is handed to the first node of a subschema and gets to another node (`Kept.first`), a
`$ref` or an `if` finds another node (`Kept.target`, `Kept.branch`), or a question to the evaluation context
is answered otherwise, since a node that writes to it has changed sides with one that asks
(`Kept.answers`).  Where two validations meet none of these, they have the same verdict (`same_verdict`).
-/

namespace Siesta.JsonSchema

open Lib

/-! ### Corresponding calls -/

/-- The calls to which the validations with a schema and a reordered one come at corresponding points. -/
abbrev Visited : Platform → SchemaCompiler → SchemaCompiler → Json → Call × State → Call × State → Prop :=
  VisitedBy Same (Permuted Same)

/-- In two corresponding calls, the order of keys makes no difference. -/
structure Kept (P : Platform) (c c' : SchemaCompiler) (a a' : Call × State) : Prop where
  /-- A value that is handed to the first node of a subschema gets to the same node. -/
  first : handsOn c a.1.node a.1.element a.2.notes ∨ handsOn c' a'.1.node a.1.element a'.2.notes →
    FirstBy (Kin Same) a.1.node.children a'.1.node.children
  /-- `if` finds the same `then` or `else`, whichever it takes. -/
  branch : a.1.node.keyword = .If → a.1.node.parent = .root → ∀ n ∈ a.1.node.children.head?, ∀ v,
    Settles (validate_node P c) (visit a.1.element n) a.2 v →
      Option.Rel (Kin Same) (lastWith (if (afterTrial a.2 v).1 then .Then else .Else) c.root_node_.children)
        (lastWith (if (afterTrial a.2 v).1 then .Then else .Else) c'.root_node_.children)
  /-- A `$ref` finds the same node. -/
  target : a.1.node.keyword = .Ref → ∀ uri, a.1.node.value.get_string = some uri →
    Option.Rel (PtrBy (Kin Same)) (c.find_ref uri) (c'.find_ref uri)
  /-- `propertyNames` reads the names' schemas from under the same first node, or finds nothing for names there. -/
  names : a.1.node.keyword = .PropertyNames → ∀ members, a.1.element = .obj members →
    (∃ m ∈ members, m.2.get_string.isSome) → FirstBy Same a.1.node.children a'.1.node.children ∨
      FirstMute a.1.node.children ∧ FirstMute a'.1.node.children
  /-- So does `dependentRequired` with the names of an entry whose property is there. -/
  dependent : a.1.node.keyword = .DependentRequired → ∀ members, a.1.element = .obj members →
    ∀ e ∈ a.1.node.children.zip a'.1.node.children, (Record.find members (lastSegment e.1.uri)).isSome →
      FirstBy Same e.1.children e.2.children ∨ FirstBare e.1.children ∧ FirstBare e.2.children
  /-- Each question to the evaluation context is answered alike, unless it is about a visit to a node that does
  nothing. -/
  answers : ∀ g g' p p' v v', ComeTo (Permuted Same) P c c' a a' (.skipIf g p) v (.skipIf g' p') v' →
    g v.notes = g' v'.notes ∨ BlankVisit p ∧ BlankVisit p'

/-- In the validation of `x`, the order of keys makes no difference. -/
def OrderKept (P : Platform) (c c' : SchemaCompiler) (x : Json) : Prop :=
  ∀ a a', Visited P c c' x a a' → Kept P c c' a a'

/-! ### Nodes that differ in their order -/

theorem Same.uri {n n' : SchemaNode} (h : Same n n') : n.uri = n'.uri := h.sameBy.uri

theorem Same.lastSegment {n n' : SchemaNode} (h : Same n n') : lastSegment n.uri = lastSegment n'.uri := by
  rw [h.sameBy.uri]

theorem Same.permuted {n n' : SchemaNode} (h : Same n n') : Permuted Same n.children n'.children :=
  h.sameBy.children

/-- A node of a schema for names reports the same, wherever it stands. -/
theorem nameErrors_congr {P : Platform} {key str : Str} {n n' : SchemaNode} (h : Same n n') :
    nameErrors P key str n = nameErrors P key str n' := by
  obtain ⟨huri, hkeyword, -, hvalue, -, -⟩ := h.sameBy
  unfold nameErrors
  rw [← hkeyword, ← huri]
  have hread : valueUnread n.keyword = false → n.value = n'.value := by
    intro hkw
    rcases hvalue with hvalue | ⟨hunread, -⟩
    · exact hvalue
    · rw [hkw] at hunread
      exact absurd hunread (by decide)
  cases hkeyword : n.keyword <;> rw [hkeyword] at hread <;> first | rfl | rw [hread rfl]

/-- The nodes below a schema for names report as much in another order. -/
theorem Same.namesAlike {P : Platform} {n n' : SchemaNode} (h : Same n n') : NamesAlike P n n' := by
  intro key str
  obtain ⟨mid, hmid, hperm⟩ := h.sameBy.children
  have hvalues : Both Eq (n.children.mapM (nameErrors P key str)) (mid.mapM (nameErrors P key str)) := by
    refine Both.imp (fun l l' h => List.forall₂_eq_eq_eq ▸ h) (Both.mapM (R := Eq) (hmid.imp ?_))
    exact fun m m' h => nameErrors_congr h ▸ Both.refl (fun _ => rfl) _
  have herrors := hvalues.trans (fun a b c (h : a = b) (h' : List.Perm b c) => h ▸ h')
    (Both.mapM_perm (nameErrors P key str) hperm)
  exact herrors.imp fun l l' hperm => hperm.flatten.length_eq

theorem dependentNames_of_bare {loc : Str} {members : Record Str Json} {e : SchemaNode} (h : FirstBare e.children) :
    dependentNames loc members e = .done := by
  unfold dependentNames
  dsimp only
  split
  · rename_i n rest _ hcons
    rw [h n (by rw [hcons]; rfl)]
    rfl
  · rfl

theorem alike_validateDependentRequired {P : Platform} {c c' : SchemaCompiler}
    {L : List SchemaNode → List SchemaNode → Prop} {depth : ℕ} {y : Json} {loc : Str}
    {children children' : List SchemaNode} {t t' : State} (h : List.Forall₂ Same children children')
    (hnames : ∀ members, y = .obj members → ∀ e ∈ children.zip children',
      (Record.find members (lastSegment e.1.uri)).isSome → FirstBy Same e.1.children e.2.children ∨
        FirstBare e.1.children ∧ FirstBare e.2.children) :
    DoAlike P c c' Same L depth (validateDependentRequired y loc children) t
      (validateDependentRequired y loc children') t' := by
  cases y with
  | obj members =>
    obtain ⟨hlength, hzip⟩ := List.forall₂_iff_zip.mp h
    refine Likewise.all (List.forall₂_iff_zip.mpr ⟨hlength, fun {e e'} he v v' => ?_⟩) _ _
    have hsame : Same e e' := hzip he
    have hfirst := hnames members rfl (e, e') he
    cases hfind : Record.find members (lastSegment e.uri) with
    | none =>
      unfold dependentNames
      dsimp only
      rw [← hsame.lastSegment, hfind]
      exact .done
    | some z =>
      rcases hfirst (by rw [hfind]; rfl) with hfirst | ⟨hbare, hbare'⟩
      · unfold dependentNames
        dsimp only at hfirst ⊢
        rw [← hsame.lastSegment, hfind]
        rcases hfirst.cases with ⟨hnil, hnil'⟩ | ⟨n, rest, n', rest', hcons, hcons', hn⟩
        · rw [hnil, hnil']
          exact .done
        rw [hcons, hcons']
        refine .judges (fun d => .all fun m _ => judges_require _ _ _)
          (fun d => .all fun m _ => judges_require _ _ _) ?_
        -- the same names are required, in another order
        obtain ⟨mid, hmid, hperm⟩ := hn.sameBy.children
        have hnames : (n.children.map fun m => lastSegment m.uri).Perm
            (n'.children.map fun m => lastSegment m.uri) := by
          have hmap : List.Forall₂ Eq (n.children.map fun m => lastSegment m.uri)
              (mid.map fun m => lastSegment m.uri) :=
            List.forall₂_map_left_iff.mpr (List.forall₂_map_right_iff.mpr (hmid.imp fun _ _ hm => hm.lastSegment))
          have hsegments := List.forall₂_eq_eq_eq (α := Str) ▸ hmap
          rw [hsegments]
          exact hperm.map _
        have hrequired : ∀ nodes : List SchemaNode,
            (∀ m ∈ nodes, (Record.find members (lastSegment m.uri)).isSome = true) ↔
              ∀ name ∈ nodes.map fun m => lastSegment m.uri, (Record.find members name).isSome = true := by
          intro nodes
          rw [List.forall_mem_map]
        rw [hrequired, hrequired]
        exact ⟨fun h name hname => h name (hnames.mem_iff.mpr hname), fun h name hname =>
          h name (hnames.mem_iff.mp hname)⟩
      · rw [dependentNames_of_bare hbare, dependentNames_of_bare hbare']
        exact .done
  | _ => exact .done

/-! ### Corresponding nodes -/

/-- Where the order makes no difference, nodes correspond to each other. -/
theorem aligned_of_kept {P : Platform} {c c' : SchemaCompiler} (hroot : Same c.root_node_ c'.root_node_)
    {a a' : Call × State} (hnode : Same a.1.node a'.1.node) (hkept : Kept P c c' a a') :
    Aligned Same (Permuted Same) P c c' a.1.node a'.1.node a.1.element a.2 a'.2 := by
  obtain ⟨-, hkeyword, hparent, hvalue, hpermuted, hinOrder⟩ := hnode.sameBy
  have hlength : ∀ {n n' : SchemaNode}, Same n n' → n.children.length = n'.children.length := by
    intro n n' h
    obtain ⟨mid, hmid, hperm⟩ := h.sameBy.children
    exact hmid.length_eq.trans hperm.length_eq
  have hempty : a.1.node.children = [] ↔ a'.1.node.children = [] := by
    rw [← List.length_eq_zero_iff, ← List.length_eq_zero_iff, hlength hnode]
  exact
    { keyword := hkeyword
      parent := hparent
      value := by
        intro hkw
        rcases hvalue with hvalue | ⟨hunread, -⟩
        · exact hvalue.symm
        · rw [hkw] at hunread
          exact absurd hunread (by decide)
      bool := by
        rcases hvalue with hvalue | ⟨-, hbool⟩
        · rw [hvalue]
        · exact hbool
      schema := fun _ => hpermuted
      list := fun h => hinOrder (.inr h)
      entries := fun h => (hinOrder (.inl h)).imp fun _ _ he => ⟨he.lastSegment, he.permuted⟩
      first := fun h => .inl (hkept.first h)
      contains := fun _ _ => hempty
      additional := fun _ _ _ _ _ => hempty
      count := by
        intro _ _
        refine .inr fun _ _ _ _ => ?_
        rw [hlength hroot]
      branch := hkept.branch
      target := hkept.target
      names := by
        intro hkw
        by_cases htext : ∃ members, a.1.element = .obj members ∧ ∃ m ∈ members, m.2.get_string.isSome
        · obtain ⟨members, hy, hm⟩ := htext
          rcases hkept.names hkw members hy hm with h | h
          · exact .inl (FirstBy.imp (fun _ _ => Same.namesAlike) h)
          · exact .inr (.inl h)
        · refine .inr (.inr fun members hy m hm => ?_)
          by_contra hsome
          exact htext ⟨members, hy, m, hm, Option.isSome_iff_ne_none.mpr hsome⟩
      dependent := fun hkw _ _ =>
        alike_validateDependentRequired (hinOrder (.inl (by rw [hkw]; rfl))) (hkept.dependent hkw) }

/-! ### The verdict -/

theorem counterparts_permuted {P : Platform} {c' : SchemaCompiler} {nodes nodes' : List SchemaNode}
    (h : Permuted Same nodes nodes') (y : Json) (t' : State) : Counterparts Same P c' y nodes nodes' t' := by
  obtain ⟨mid, hmid, hperm⟩ := h
  constructor
  · intro n hn
    obtain ⟨m, hm, h⟩ := forall₂_exists_right hmid n hn
    exact ⟨m, hperm.mem_iff.mp hm, h⟩
  · intro n' hn'
    obtain ⟨n, hn, h⟩ := forall₂_exists_left hmid n' (hperm.mem_iff.mpr hn')
    exact .inl ⟨n, hn, h⟩

theorem returns_same {P : Platform} {c c' : SchemaCompiler} {x : Json} (hroot : Same c.root_node_ c'.root_node_)
    (hkept : OrderKept P c c' x) (b : Bool) : Returns P c x b ↔ Returns P c' x b := by
  exact returns_alongside (fun _ _ h _ => h.uri) hroot (fun a a' h => (hkept a a' h).answers)
    (fun _ _ _ y _ _ _ v' h _ => counterparts_permuted h y v')
    (fun a a' h hnode => aligned_of_kept hroot hnode (hkept a a' h)) b

/-! ### What can be parsed -/

theorem ReorderedTo.simpler : ∀ {depth : ℕ} {v v' : Json}, ReorderedTo depth v v' → Simpler v v' ∧ Simpler v' v := by
  intro depth
  induction depth with
  | zero =>
    rintro v _ rfl
    exact ⟨.refl v, .refl v⟩
  | succ depth ih =>
    rintro v v' (rfl | ⟨items, items', rfl, rfl, h⟩ | ⟨members, mid, members', rfl, rfl, hmid, hperm⟩)
    · exact ⟨.refl v, .refl v⟩
    · constructor
      · exact simpler_arr fun u hu => (forall₂_exists_right h u hu).imp fun u' hu' => ⟨hu'.1, (ih hu'.2).1⟩
      · exact simpler_arr fun u' hu' => (forall₂_exists_left h u' hu').imp fun u hu => ⟨hu.1, (ih hu.2).2⟩
    · constructor
      · refine simpler_obj fun m hm => ?_
        obtain ⟨m', hm', -, hheld⟩ := forall₂_exists_right hmid m hm
        exact ⟨m', hperm.mem_iff.mp hm', hheld.simpler fun _ _ h => (ih h).1⟩
      · refine simpler_obj fun m' hm' => ?_
        obtain ⟨m, hm, -, hheld⟩ := forall₂_exists_left hmid m' (hperm.mem_iff.mpr hm')
        exact ⟨m, hm, hheld.swap.simpler fun _ _ h => (ih h).2⟩

theorem Reordered.parses_iff {schema schema' : Json} (h : Reordered schema schema') :
    parses schema = true ↔ parses schema' = true := by
  obtain ⟨depth, h⟩ := h
  exact ⟨h.simpler.2.parses, h.simpler.1.parses⟩

/-- **When the order of keys makes no difference.**  A schema without `$id` and a reordered one have the
same verdict on an instance, if in the two validations values that are handed to first nodes, branches and
references get to the same nodes, and questions to the evaluation context are answered alike. -/
theorem same_verdict {P : Platform} {schema schema' x : Json} (hids : NoIds schema)
    (h : Reordered schema schema')
    (hkept : ∀ c c', compile schema = .ok c → compile schema' = .ok c' → OrderKept P c c' x) (b : Bool) :
    TextVerdict P schema x b ↔ TextVerdict P schema' x b := by
  have hcompiled := compile_reordered hids h
  rw [textVerdict_iff, textVerdict_iff, h.parses_iff]
  refine and_congr_right' ?_
  revert hcompiled hkept
  generalize compile schema = r
  generalize compile schema' = r'
  rintro hkept (⟨a, a'⟩ | @⟨c, c', hroot⟩)
  · simp
  · have hsame := returns_same hroot (hkept c c' rfl rfl) b
    simp [hsame]

/-! ### Schemas without a question left open -/

def isAssertion : Keyword → Bool
  | .Type_ | .Enum | .Const | .MultipleOf | .Maximum | .Minimum | .ExclusiveMaximum | .ExclusiveMinimum
  | .MaxLength | .MinLength | .Pattern | .MaxItems | .MinItems | .UniqueItems | .MaxProperties
  | .MinProperties | .Required => true
  | _ => false

theorem over_of_assertion {P : Platform} {c : SchemaCompiler} {f : Call} (h : isAssertion f.node.keyword) :
    (validate_node P c f).Over (fun _ => False) (fun _ => False) fun _ => False := by
  unfold validate_node
  dsimp only
  cases hkw : f.node.keyword <;> rw [hkw] at h
  case Type_ => exact over_validateType
  case Enum => exact over_validateEnum
  case Const => exact over_require
  case MultipleOf => exact over_validateMultipleOf
  case Maximum | Minimum | ExclusiveMaximum | ExclusiveMinimum => exact over_validateBound
  case MaxLength => exact over_validateMaxLength
  case MinLength => exact over_validateMinLength
  case Pattern => exact over_validatePattern
  case MaxItems | MinItems | MaxProperties | MinProperties => exact over_validateCount
  case UniqueItems => exact over_validateUniqueItems
  case Required => exact over_validateRequired
  all_goals exact absurd h (by decide)

/-- A call that hands nothing to a first node: of a keyword that does not, or of `additionalProperties` for a value
whose members have all been evaluated. -/
inductive Closed (a : Call × State) : Prop
  | plain (h : isAssertion a.1.node.keyword ∨ a.1.node.keyword = .Schema ∨ a.1.node.keyword = .Properties)
  | evaluated (hkw : a.1.node.keyword = .AdditionalProperties) (h : ∀ members, a.1.element = .obj members →
      ∀ m ∈ members, m.1 ∈ a.2.notes.evaluated_properties)

theorem Closed.handsOn {a : Call × State} (h : Closed a) (c : SchemaCompiler) :
    handsOn c a.1.node a.1.element a.2.notes = false := by
  unfold JsonSchema.handsOn
  cases h with
  | plain h => cases hkw : a.1.node.keyword <;> rw [hkw] at h <;> first | rfl | exact absurd h (by decide)
  | evaluated hkw h =>
    rw [hkw]
    cases hx : a.1.element with
    | obj members => simpa using h members hx
    | _ => rfl

theorem skipped_of_evaluated {n : SchemaNode} {t : State} {members : List (Str × Json)}
    (h : ∀ m ∈ members, m.1 ∈ t.notes.evaluated_properties) :
    Skipped (members.map fun m => (.skipIf (fun ctx => m.1 ∈ ctx.evaluated_properties) (visit m.2 n) : Statement)) t := by
  intro p hp
  obtain ⟨m, hm, rfl⟩ := List.mem_map.mp hp
  exact ⟨_, _, rfl, by simpa using h m hm⟩

theorem Closed.answer {P : Platform} {c c' : SchemaCompiler} {loose : Statement → Statement → Prop}
    {a : Call × State} (h : Closed a) {a' b' : Point Call ValidationError EvaluationContext Abort}
    {g : EvaluationContext → Bool} {p : Statement} {v : State}
    (halong : Alongside (validate_node P c) (validate_node P c') loose ⟨validate_node P c a.1, a.2⟩ a'
      ⟨.skipIf g p, v⟩ b') : g v.notes = true := by
  cases h with
  | plain h =>
    have hover : (validate_node P c a.1).Over (fun _ => True) (fun _ => True) fun _ => False := by
      rcases h with h | h | h
      · exact (over_of_assertion h).mono (fun _ h => h.elim) (fun _ h => h.elim) fun _ h => h
      · unfold validate_node
        dsimp only
        rw [h]
        exact over_visitAll fun _ _ => trivial
      · unfold validate_node
        dsimp only
        rw [h]
        exact (over_validateProperties (Q := fun _ => True) fun _ _ _ _ => trivial).mono (fun _ h => h)
          (fun _ _ => trivial) fun _ h => h
    exact absurd (halong.over hover).1 id
  | evaluated hkw h =>
    unfold validate_node at halong
    dsimp only at halong
    rw [hkw] at halong
    have hnone : ¬ Alongside (validate_node P c) (validate_node P c') loose ⟨.done, a.2⟩ a' ⟨.skipIf g p, v⟩ b' :=
      fun h => nomatch h
    cases hx : a.1.element with
    | obj members =>
      rw [hx] at halong
      cases hchildren : a.1.node.children with
      | nil =>
        rw [hchildren] at halong
        exact absurd halong hnone
      | cons n rest =>
        rw [hchildren] at halong
        exact (skipped_of_evaluated (h members hx)).answer halong
    | _ =>
      rw [hx] at halong
      exact absurd halong hnone

theorem Closed.keyword_ne {a : Call × State} (h : Closed a) {kw : Keyword}
    (hkw : isAssertion kw = false ∧ kw ≠ .Schema ∧ kw ≠ .Properties ∧ kw ≠ .AdditionalProperties) :
    a.1.node.keyword ≠ kw := by
  rintro rfl
  obtain ⟨h₁, h₂, h₃, h₄⟩ := hkw
  rcases h with (h | h | h) | ⟨h, -⟩
  · rw [h] at h₁
    exact absurd h₁ (by decide)
  · exact h₂ h
  · exact h₃ h
  · exact h₄ h

theorem Closed.kept {P : Platform} {c c' : SchemaCompiler} {a a' : Call × State} (h : Closed a) (h' : Closed a')
    (helement : a.1.element = a'.1.element) : Kept P c c' a a' where
  first hon := by
    rw [h.handsOn c, helement, h'.handsOn c'] at hon
    exact absurd hon (by simp)
  branch hkw := absurd hkw (h.keyword_ne (by decide))
  target hkw := absurd hkw (h.keyword_ne (by decide))
  names hkw := absurd hkw (h.keyword_ne (by decide))
  dependent hkw := absurd hkw (h.keyword_ne (by decide))
  answers g g' p p' v v' halong := by
    have hg := h.answer halong
    have hg' := h'.answer halong.swap
    exact .inl (hg.trans hg'.symm)

/-- The root calls `properties` with assertions in its entries, which evaluates all members, and then
`additionalProperties`. -/
theorem closed_of_calls {P : Platform} {c : SchemaCompiler} {p q : SchemaNode} {members : List (Str × Json)}
    (hroot : c.root_node_.keyword = .Schema) (hchildren : c.root_node_.children = [p, q])
    (hp : p.keyword = .Properties) (hentries : ∀ n ∈ p.children.flatMap SchemaNode.children, isAssertion n.keyword)
    (hq : q.keyword = .AdditionalProperties)
    (hevaluated : ∀ v, Settles (validate_node P c) (visit (.obj members) p) ⟨[], {}⟩ v →
      ∀ m ∈ members, m.1 ∈ v.notes.evaluated_properties)
    {b : Call × State}
    (h : Relation.ReflTransGen (Calls (validate_node P c)) (rootCall c (.obj members), ⟨[], {}⟩) b) :
    Closed b := by
  have hreached : b = (rootCall c (.obj members), ⟨[], {}⟩) ∨ b.1 = visitCall (.obj members) p ∨
      isAssertion b.1.node.keyword ∨ b.1 = visitCall (.obj members) q ∧
        ∀ m ∈ members, m.1 ∈ b.2.notes.evaluated_properties := by
    induction h with
    | refl => exact .inl rfl
    | @tail b b' _ hcall ih =>
      obtain ⟨f, t⟩ := b
      obtain ⟨f', t'⟩ := b'
      have hcall : Enters (validate_node P c) (validate_node P c f) t f' t' := hcall
      rcases ih with hstart | hstart | hstart | ⟨hstart, hall⟩
      · obtain ⟨rfl, rfl⟩ := Prod.mk.inj hstart
        rw [validate_node_root hroot, hchildren] at hcall
        cases hcall with
        | seqLeft hcall =>
          cases hcall with
          | call => exact .inr (.inl rfl)
        | seqRight hv hcall =>
          cases hcall with
          | seqLeft hcall =>
            cases hcall with
            | call => exact .inr (.inr (.inr ⟨rfl, hevaluated _ hv⟩))
          | seqRight _ hcall => cases hcall
      · obtain rfl : f = visitCall (.obj members) p := hstart
        refine .inr (.inr (.inl ?_))
        have hover : (validateProperties (.obj members) p.children).Over (fun f => isAssertion f.node.keyword)
            ContextNote fun _ => False := over_validateProperties fun _ _ n hn => hentries n hn
        unfold validate_node at hcall
        dsimp only [visitCall] at hcall
        rw [hp] at hcall
        exact hcall.over hover
      · exact absurd (hcall.over (over_of_assertion hstart)) id
      · obtain rfl : f = visitCall (.obj members) q := hstart
        unfold validate_node at hcall
        dsimp only [visitCall] at hcall
        rw [hq] at hcall
        cases hchildren : q.children with
        | nil =>
          rw [hchildren] at hcall
          cases hcall
        | cons n rest =>
          rw [hchildren] at hcall
          exact absurd hcall (skipped_of_evaluated hall).not_enters
  rcases hreached with rfl | hb | hb | ⟨hb, hall⟩
  · exact .plain (.inr (.inl hroot))
  · exact .plain (.inr (.inr (hb ▸ hp)))
  · exact .plain (.inl hb)
  · refine .evaluated (hb ▸ hq) fun members' hmembers => ?_
    rw [hb] at hmembers
    obtain rfl := Json.obj.inj hmembers
    exact hall

/-! ### The documents -/

theorem reordered_of_perm {members members' : List (Str × Json)} (h : members.Perm members') :
    Reordered (.obj members) (.obj members') := by
  refine ⟨1, .inr (.inr ⟨members, members, members', rfl, rfl, List.forall₂_same.mpr fun m _ => ⟨rfl, ?_⟩, h⟩)⟩
  exact .refl (fun _ => rfl) _ _

/-- An object with a text `a`, and with other values that the keywords `keys` allow. -/
def textAnd (keys : List (Str × Json)) : Json :=
  .obj [("properties".toList, .obj [("a".toList, .obj [("type".toList, .str "string".toList)])]),
    ("additionalProperties".toList, .obj keys)]

theorem reordered_textAnd {keys keys' : List (Str × Json)} (h : keys.Perm keys') :
    Reordered (textAnd keys) (textAnd keys') := by
  obtain ⟨depth, hkeys⟩ := reordered_of_perm h
  have hsame : ∀ v, ReorderedTo depth v v := fun v => by
    cases depth with
    | zero => rfl
    | succ depth => exact .inl rfl
  refine ⟨depth + 1, .inr (.inr ⟨_, [_, ("additionalProperties".toList, .obj keys')], _, rfl, rfl,
    .cons ⟨rfl, ?_⟩ (.cons ⟨rfl, hkeys⟩ .nil), .refl _⟩)⟩
  exact .refl hsame _ _

/-- The value of `additionalProperties`, which nothing is checked against here. -/
def numberKeys : List (Str × Json) := [("type".toList, .str "integer".toList), ("minimum".toList, .int 3)]

theorem same_verdict_textAnd :
    TextVerdict wholeNumbers (textAnd numberKeys) (.obj [("a".toList, .str "x".toList)]) true ↔
      TextVerdict wholeNumbers (textAnd numberKeys.reverse) (.obj [("a".toList, .str "x".toList)]) true := by
  have hreordered := reordered_textAnd (List.reverse_perm numberKeys).symm
  refine same_verdict (show noIdsIn .tree _ = true by decide) hreordered ?_ true
  intro c c' hc hc' a a' h
  obtain rfl := Except.ok.inj hc
  obtain rfl := Except.ok.inj hc'
  have hcalls := h.calls
  have helement := visitedBy_element h
  -- `properties` has evaluated the only member, whatever the order of `numberKeys`
  refine Closed.kept (closed_of_calls rfl rfl rfl ?_ rfl ?_ hcalls.1) (closed_of_calls rfl rfl rfl ?_ rfl ?_ hcalls.2)
    helement
  · decide
  · intro v hv
    rw [hv.unique ⟨3, rfl⟩]
    decide
  · decide
  · intro v hv
    rw [hv.unique ⟨3, rfl⟩]
    decide

/-- The three keywords of an object with a text `a` and numbers besides. -/
def recordKeys : List (Str × Json) :=
  [("type".toList, .str "object".toList),
    ("properties".toList, .obj [("a".toList, .obj [("type".toList, .str "string".toList)])]),
    ("additionalProperties".toList, .obj [("type".toList, .str "integer".toList)])]

/-- With the keys reversed, `additionalProperties` asks for the evaluated properties before `properties`
has evaluated any. -/
theorem order_changes_verdict :
    NoIds (.obj recordKeys) ∧ Reordered (.obj recordKeys) (.obj recordKeys.reverse) ∧
      ¬ (TextVerdict wholeNumbers (.obj recordKeys) (.obj [("a".toList, .str "x".toList)]) true ↔
        TextVerdict wholeNumbers (.obj recordKeys.reverse) (.obj [("a".toList, .str "x".toList)]) true) := by
  have haccepted : TextVerdict wholeNumbers (.obj recordKeys) (.obj [("a".toList, .str "x".toList)]) true :=
    textVerdict_of_hasVerdict (by decide) (by decide)
      (hasVerdict_of_verdictUpTo (show verdictUpTo wholeNumbers 4 _ _ = some true by decide))
  have hrejected : TextVerdict wholeNumbers (.obj recordKeys.reverse) (.obj [("a".toList, .str "x".toList)]) false :=
    textVerdict_of_hasVerdict (by decide) (by decide)
      (hasVerdict_of_verdictUpTo (show verdictUpTo wholeNumbers 4 _ _ = some false by decide))
  refine ⟨show noIdsIn .tree _ = true by decide, reordered_of_perm (List.reverse_perm _).symm, ?_⟩
  intro hsame
  exact absurd ((hsame.mp haccepted).unique hrejected) (by decide)

end Siesta.JsonSchema
