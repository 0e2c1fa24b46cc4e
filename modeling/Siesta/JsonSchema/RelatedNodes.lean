import Siesta.JsonSchema.KeyOrder
import Siesta.JsonSchema.Termination
import Siesta.Lib.Alongside

/-!
# Nodes that do the same

Two schemas are run on one instance, and their nodes correspond to each other by a relation `R`.
`Aligned` says of two nodes and the states in which they are visited, for each keyword, what of their
children has to correspond for them to do the same with a value.  That is asked only where a value is
handed on: to the first node of a subschema (`handsOn`), to a branch of an `if`, to the target of a `$ref`.
The two nodes then do the same but for the nodes they visit (`Aligned.validate_node`).
-/

namespace Siesta.JsonSchema

open Lib

abbrev State : Type := Tally ValidationError EvaluationContext

/-- The keyword hands the value, or something in it, to the first node of its subschema. -/
def handsOn (c : SchemaCompiler) (node : SchemaNode) (x : Json) (ctx : EvaluationContext) : Bool :=
  match node.keyword, x with
  | .Not, _ | .If, _ => true
  | .Items, .arr items | .Contains, .arr items => !items.isEmpty
  | .AdditionalItems, .arr items => node.parent = .root && c.root_node_.children.length < items.length
  | .UnevaluatedItems, .arr items => items.zipIdx.any fun item => !ctx.evaluated_items.getD item.2 false
  | .AdditionalProperties, .obj members | .UnevaluatedProperties, .obj members =>
    members.any fun m => m.1 ∉ ctx.evaluated_properties
  | _, _ => false

/-- A node that does nothing with any value. -/
def Blank (node : SchemaNode) : Prop :=
  ∀ (P : Platform) (c : SchemaCompiler) (x : Json) (loc : Str), validate_node P c ⟨node, x, loc⟩ = .done

/-- Nodes that `R` relates, or that both do nothing. -/
def Kin (R : SchemaNode → SchemaNode → Prop) (n n' : SchemaNode) : Prop := R n n' ∨ Blank n ∧ Blank n'

/-- Lists whose first entries are related, if they have any. -/
def FirstBy (R : SchemaNode → SchemaNode → Prop) (nodes nodes' : List SchemaNode) : Prop :=
  Option.Rel R nodes.head? nodes'.head?

inductive PtrBy (R : SchemaNode → SchemaNode → Prop) : NodePtr → NodePtr → Prop
  | node {n n' : SchemaNode} (h : R n n') : PtrBy R (.node n) (.node n')
  | destroyed : PtrBy R .destroyed .destroyed

/-- The nodes of a subschema begin with one that does nothing, if there are any. -/
def FirstBlank (nodes : List SchemaNode) : Prop := ∀ n ∈ nodes.head?, Blank n

def BlankVisit (p : Statement) : Prop := ∃ y n, p = visit y n ∧ Blank n

/-- No `then` does anything. -/
def ThenBlank (c : SchemaCompiler) : Prop := ∀ n ∈ lastWith .Then c.root_node_.children, Blank n

/-- Calls with one value, for nodes that correspond to each other. -/
structure CallBy (R : SchemaNode → SchemaNode → Prop) (f f' : Call) : Prop where
  node : Kin R f.node f'.node
  element : f.element = f'.element
  schema_location : R f.node f'.node → f.node.keyword ≠ .Schema → f.schema_location = f'.schema_location

/-- The nodes of a schema are visited in whatever order. -/
def Loose (L : List SchemaNode → List SchemaNode → Prop) (p p' : Statement) : Prop :=
  ∃ y nodes nodes', p = visitAll y nodes ∧ p' = visitAll y nodes' ∧ L nodes nodes'

/-- The two statements do the same but for the nodes they visit. -/
abbrev DoAlike (P : Platform) (c c' : SchemaCompiler) (R : SchemaNode → SchemaNode → Prop)
    (L : List SchemaNode → List SchemaNode → Prop) (depth : ℕ) (p : Statement) (t : State) (p' : Statement)
    (t' : State) : Prop :=
  Likewise (validate_node P c) (validate_node P c') (Loose L) (CallBy R) depth ⟨p, t⟩ ⟨p', t'⟩

theorem FirstBy.cases {R : SchemaNode → SchemaNode → Prop} {children children' : List SchemaNode}
    (h : FirstBy R children children') : (children = [] ∧ children' = []) ∨
      ∃ n rest n' rest', children = n :: rest ∧ children' = n' :: rest' ∧ R n n' := by
  unfold FirstBy at h
  cases children with
  | nil =>
    cases children' with
    | nil => exact .inl ⟨rfl, rfl⟩
    | cons n' rest' => exact absurd h (by rintro ⟨⟩)
  | cons n rest =>
    cases children' with
    | nil => exact absurd h (by rintro ⟨⟩)
    | cons n' rest' =>
      cases h with
      | some h => exact .inr ⟨n, rest, n', rest', rfl, rfl, h⟩

theorem FirstBy.imp {R R' : SchemaNode → SchemaNode → Prop} {children children' : List SchemaNode}
    (hR : ∀ n n', R n n' → R' n n') (h : FirstBy R children children') : FirstBy R' children children' := by
  rcases h.cases with ⟨rfl, rfl⟩ | ⟨n, rest, n', rest', rfl, rfl, hn⟩
  · exact .none
  · exact .some (hR n n' hn)

/-! ### The keywords -/

section

variable {P : Platform} {c c' : SchemaCompiler} {R : SchemaNode → SchemaNode → Prop}
  {L : List SchemaNode → List SchemaNode → Prop} {depth : ℕ} {y : Json} {loc : Str}
  {children children' : List SchemaNode} {t t' : State}

/-- A visit to a node that does nothing passes. -/
theorem Blank.passes {n : SchemaNode} (h : Blank n) (y : Json) (t : State) :
    Passes (validate_node P c) (visit y n) t :=
  ⟨t, Settles.call_iff.mpr (by rw [h]; exact Settles.done_iff.mpr rfl), rfl⟩

theorem alike_require (ok : Bool) (message message' : Str) :
    DoAlike P c c' R L depth (require ok loc message) t (require ok loc message') t' := by
  unfold require
  split
  · exact .done
  · exact .report _ _

variable (hR : ∀ n n', R n n' → n.keyword ≠ .Schema → n.uri = n'.uri)

include hR

theorem alike_visit {n n' : SchemaNode} (h : Kin R n n') (y : Json) (t t' : State) :
    DoAlike P c c' R L depth (visit y n) t (visit y n') t' :=
  .call ⟨h, rfl, fun hn hkw => congrArg SchemaURI.to_string (hR _ _ hn hkw)⟩

theorem alike_visitAll (h : List.Forall₂ R children children') (y : Json) :
    ∀ t t', DoAlike P c c' R L depth (visitAll y children) t (visitAll y children') t' :=
  Likewise.all (h.imp fun _ _ h => alike_visit hR (.inl h) y)

theorem alike_validateAnyOf (h : List.Forall₂ R children children') :
    ∀ t t', DoAlike P c c' R L depth (validateAnyOf y loc children) t (validateAnyOf y loc children') t' := by
  induction h with
  | nil => exact fun _ _ => .report _ _
  | cons h _ ih =>
    refine fun t t' => Likewise.attempt_any (alike_visit hR (.inl h) y t t') fun matched => ?_
    cases matched with
    | true => exact fun _ _ => .done
    | false => exact ih

theorem alike_validateOneOf (h : List.Forall₂ R children children') : ∀ found t t',
    DoAlike P c c' R L depth (validateOneOf y loc children found) t (validateOneOf y loc children' found) t' := by
  induction h with
  | nil => exact fun _ _ _ => alike_require _ _ _
  | cons h _ ih =>
    exact fun found t t' => Likewise.attempt_any (alike_visit hR (.inl h) y t t') fun _ => ih _

theorem alike_validateNot (h : FirstBy (Kin R) children children') :
    DoAlike P c c' R L depth (validateNot y loc children) t (validateNot y loc children') t' := by
  rcases h.cases with ⟨rfl, rfl⟩ | ⟨n, rest, n', rest', rfl, rfl, hn⟩
  · exact .done
  · refine Likewise.attempt_any (alike_visit hR hn y _ _) fun matched _ _ => ?_
    cases matched with
    | true => exact .report _ _
    | false => exact .done

theorem alike_validateIf {parent : Parent} (h : FirstBy (Kin R) children children')
    (hbranch : parent = .root → ∀ n ∈ children.head?, ∀ v, Settles (validate_node P c) (visit y n) t v →
      Option.Rel (Kin R) (lastWith (if (afterTrial t v).1 then .Then else .Else) c.root_node_.children)
        (lastWith (if (afterTrial t v).1 then .Then else .Else) c'.root_node_.children)) :
    DoAlike P c c' R L depth (validateIf c y children parent) t (validateIf c' y children' parent) t' := by
  rcases h.cases with ⟨rfl, rfl⟩ | ⟨n, rest, n', rest', rfl, rfl, hn⟩
  · exact .done
  refine Likewise.attempt (alike_visit hR hn y _ _) fun v v' hv _ hsame => ?_
  rw [← hsame]
  cases parent with
  | null => exact .done
  | destroyed => exact .fault _ _
  | root =>
    have hlast := hbranch rfl n rfl v hv
    dsimp only
    revert hlast
    generalize lastWith _ c.root_node_.children = b
    generalize lastWith _ c'.root_node_.children = b'
    rintro (h | _)
    · exact alike_visit hR h y _ _
    · exact .done

omit hR in
/-- An `if` under the root whose first node does nothing goes on with `then`. -/
theorem passes_validateIf (h : FirstBlank children) (hthen : ThenBlank c) (t : State) :
    Passes (validate_node P c) (validateIf c y children .root) t := by
  cases children with
  | nil => exact ⟨t, Settles.done_iff.mpr rfl, rfl⟩
  | cons n rest =>
    refine passes_attempt ((h n rfl).passes y t) fun v => ?_
    dsimp only
    rw [if_pos rfl]
    cases hlast : lastWith .Then c.root_node_.children with
    | none => exact ⟨v, Settles.done_iff.mpr rfl, rfl⟩
    | some branch => exact (hthen branch hlast).passes y v

omit hR in
/-- The values of a member, an item and so on go to a first node that does nothing. -/
theorem passes_visits {ι : Type} {n : SchemaNode} (h : Blank n) {l : List ι} {check : ι → Statement}
    (hcheck : ∀ i ∈ l, check i = .done ∨ ∃ z g, check i = visit z n ∨ check i = .skipIf g (visit z n) ∨
      ∃ u, check i = .seq (visit z n) (.note u)) (t : State) :
    Passes (validate_node P c) (.all (l.map check)) t := by
  refine passes_all (fun p hp v => ?_) t
  obtain ⟨i, hi, rfl⟩ := List.mem_map.mp hp
  rcases hcheck i hi with hdone | ⟨z, g, hvisit | hskip | ⟨u, hseq⟩⟩
  · rw [hdone]
    exact ⟨v, Settles.done_iff.mpr rfl, rfl⟩
  · rw [hvisit]
    exact h.passes z v
  · rw [hskip]
    exact passes_skipIf (h.passes z v)
  · rw [hseq]
    obtain ⟨w, hw, hsame⟩ := h.passes (P := P) (c := c) z v
    exact passes_seq_iff.mpr ⟨w, hw, hsame, _, Settles.note_iff.mpr rfl, rfl⟩

omit hR in
/-- Nothing is reported where no first node does anything. -/
theorem passes_validateItems (h : FirstBlank children) (t : State) :
    Passes (validate_node P c) (validateItems y children) t := by
  cases y with
  | arr items =>
    cases children with
    | nil => exact ⟨t, Settles.done_iff.mpr rfl, rfl⟩
    | cons n rest => exact passes_visits (h n rfl) (fun z _ => .inr ⟨z, fun _ => true, .inr (.inr ⟨_, rfl⟩)⟩) t
  | _ => exact ⟨t, Settles.done_iff.mpr rfl, rfl⟩

omit hR in
theorem passes_validateUnevaluatedItems (h : FirstBlank children ∨ ∀ items, y = .arr items →
      ∀ item ∈ items.zipIdx, t.notes.evaluated_items.getD item.2 false = true) :
    Passes (validate_node P c) (validateUnevaluatedItems y children) t := by
  cases y with
  | arr items =>
    cases children with
    | nil => exact ⟨t, Settles.done_iff.mpr rfl, rfl⟩
    | cons n rest =>
      rcases h with h | h
      · exact passes_visits (h n rfl) (fun z _ => .inr ⟨z.1, _, .inr (.inl rfl)⟩) t
      · refine passes_all_skipped fun p hp => ?_
        obtain ⟨item, hitem, rfl⟩ := List.mem_map.mp hp
        exact ⟨_, _, rfl, h items rfl item hitem⟩
  | _ => exact ⟨t, Settles.done_iff.mpr rfl, rfl⟩

omit hR in
theorem passes_validateOtherProperties (h : FirstBlank children ∨ ∀ members, y = .obj members →
      ∀ m ∈ members, m.1 ∈ t.notes.evaluated_properties) :
    Passes (validate_node P c) (validateOtherProperties y children) t := by
  cases y with
  | obj members =>
    cases children with
    | nil => exact ⟨t, Settles.done_iff.mpr rfl, rfl⟩
    | cons n rest =>
      rcases h with h | h
      · exact passes_visits (h n rfl) (fun m _ => .inr ⟨m.2, _, .inr (.inl rfl)⟩) t
      · refine passes_all_skipped fun p hp => ?_
        obtain ⟨m, hm, rfl⟩ := List.mem_map.mp hp
        exact ⟨_, _, rfl, by simpa using h members rfl m hm⟩
  | _ => exact ⟨t, Settles.done_iff.mpr rfl, rfl⟩

omit hR in
theorem passes_validateAdditionalItems (h : FirstBlank children ∨ ∀ items, y = .arr items →
      items.length ≤ c.root_node_.children.length) (t : State) :
    Passes (validate_node P c) (validateAdditionalItems c y children .root) t := by
  cases y with
  | arr items =>
    cases children with
    | nil => exact ⟨t, Settles.done_iff.mpr rfl, rfl⟩
    | cons n rest =>
      rcases h with h | h
      · refine passes_visits (h n rfl) (fun z _ => ?_) t
        dsimp only
        split
        · exact .inr ⟨z.1, fun _ => true, .inl rfl⟩
        · exact .inl rfl
      · refine passes_all (fun p hp v => ?_) t
        obtain ⟨⟨z, index⟩, hz, rfl⟩ := List.mem_map.mp hp
        have hindex := List.mem_zipIdx hz
        have hle := h items rfl
        dsimp only
        rw [if_neg (by omega)]
        exact ⟨v, Settles.done_iff.mpr rfl, rfl⟩
  | _ => exact ⟨t, Settles.done_iff.mpr rfl, rfl⟩

theorem alike_validateItems (h : FirstBy (Kin R) children children' ∨ FirstBlank children ∧ FirstBlank children' ∨
      ∀ items, y = .arr items → items = []) :
    DoAlike P c c' R L depth (validateItems y children) t (validateItems y children') t' := by
  rcases h with h | ⟨h, h'⟩ | h
  · rcases h.cases with ⟨rfl, rfl⟩ | ⟨n, rest, n', rest', rfl, rfl, hn⟩
    · cases y <;> exact .done
    · cases y with
      | arr items =>
        exact Likewise.all_same (fun z _ v v' => (alike_visit hR hn z v v').seq fun _ _ _ _ => .note _ _) _ _
      | _ => exact .done
  · exact .passes (passes_validateItems h _) (passes_validateItems h' _)
  · cases y with
    | arr items =>
      obtain rfl := h items rfl
      cases children <;> cases children' <;> exact .done
    | _ => exact .done

theorem alike_validateUnevaluatedItems (h : FirstBy (Kin R) children children' ∨
      FirstBlank children ∧ FirstBlank children' ∨ ∀ s ∈ [t, t'], ∀ items, y = .arr items →
        ∀ item ∈ items.zipIdx, s.notes.evaluated_items.getD item.2 false = true) :
    DoAlike P c c' R L depth (validateUnevaluatedItems y children) t (validateUnevaluatedItems y children') t' := by
  rcases h with h | ⟨h, h'⟩ | h
  · rcases h.cases with ⟨rfl, rfl⟩ | ⟨n, rest, n', rest', rfl, rfl, hn⟩
    · cases y <;> exact .done
    · cases y with
      | arr items =>
        exact Likewise.all_same (fun z _ v v' => .skipIf fun _ _ => alike_visit hR hn z.1 v v') _ _
      | _ => exact .done
  · exact .passes (passes_validateUnevaluatedItems (.inl h)) (passes_validateUnevaluatedItems (.inl h'))
  · exact .passes (passes_validateUnevaluatedItems (.inr (h t (by simp))))
      (passes_validateUnevaluatedItems (.inr (h t' (by simp))))

theorem alike_validateOtherProperties (h : FirstBy (Kin R) children children' ∨
      FirstBlank children ∧ FirstBlank children' ∨ ∀ s ∈ [t, t'], ∀ members, y = .obj members →
        ∀ m ∈ members, m.1 ∈ s.notes.evaluated_properties) :
    DoAlike P c c' R L depth (validateOtherProperties y children) t (validateOtherProperties y children') t' := by
  rcases h with h | ⟨h, h'⟩ | h
  · rcases h.cases with ⟨rfl, rfl⟩ | ⟨n, rest, n', rest', rfl, rfl, hn⟩
    · cases y <;> exact .done
    · cases y with
      | obj members =>
        exact Likewise.all_same (fun m _ v v' => .skipIf fun _ _ => alike_visit hR hn m.2 v v') _ _
      | _ => exact .done
  · exact .passes (passes_validateOtherProperties (.inl h)) (passes_validateOtherProperties (.inl h'))
  · exact .passes (passes_validateOtherProperties (.inr (h t (by simp))))
      (passes_validateOtherProperties (.inr (h t' (by simp))))

theorem alike_validateAdditionalItems_root (h : FirstBlank children ∧ FirstBlank children' ∨
      (∀ items, y = .arr items → ∀ index < items.length,
        (index ≥ c.root_node_.children.length ↔ index ≥ c'.root_node_.children.length)) ∧
      (FirstBy (Kin R) children children' ∨ ∀ items, y = .arr items →
        items.length ≤ c.root_node_.children.length)) :
    DoAlike P c c' R L depth (validateAdditionalItems c y children .root) t
      (validateAdditionalItems c' y children' .root) t' := by
  rcases h with ⟨h, h'⟩ | ⟨hcount, h | h⟩
  · exact .passes (passes_validateAdditionalItems (.inl h) _) (passes_validateAdditionalItems (.inl h') _)
  · rcases h.cases with ⟨rfl, rfl⟩ | ⟨n, rest, n', rest', rfl, rfl, hn⟩
    · cases y <;> exact .done
    cases y with
    | arr items =>
      refine Likewise.all_same ?_ _ _
      rintro ⟨z, index⟩ hz v v'
      have hindex : index < items.length := by
        have := List.mem_zipIdx hz
        omega
      dsimp only
      by_cases hge : index ≥ c.root_node_.children.length
      · rw [if_pos hge, if_pos ((hcount items rfl index hindex).mp hge)]
        exact alike_visit hR hn z v v'
      · rw [if_neg hge, if_neg fun h => hge ((hcount items rfl index hindex).mpr h)]
        exact .done
    | _ => exact .done
  · refine .passes (passes_validateAdditionalItems (.inr h) _)
      (passes_validateAdditionalItems (.inr fun items hy => ?_) _)
    -- the other root leaves out as many items
    by_contra hlt
    have hle := h items hy
    have hlast := (hcount items hy c'.root_node_.children.length (by omega)).mpr le_rfl
    omega

omit hR in
/-- Under another schema `additionalItems` reads a pointer to nowhere. -/
theorem alike_validateAdditionalItems_other {parent : Parent} (hparent : parent ≠ .root)
    (h : ∀ items, y = .arr items → items ≠ [] → (children = [] ↔ children' = [])) :
    DoAlike P c c' R L depth (validateAdditionalItems c y children parent) t
      (validateAdditionalItems c' y children' parent) t' := by
  cases y with
  | arr items =>
    cases items with
    | nil => cases children <;> cases children' <;> exact .done
    | cons item items =>
      have hboth := h _ rfl (List.cons_ne_nil _ _)
      cases children with
      | nil =>
        obtain rfl := hboth.mp rfl
        exact .done
      | cons n rest =>
        cases children' with
        | nil => exact absurd (hboth.mpr rfl) (List.cons_ne_nil _ _)
        | cons n' rest' =>
          refine Likewise.all_same (fun z _ _ _ => ?_) _ _
          cases parent with
          | root => exact absurd rfl hparent
          | null => exact .fault _ _
          | destroyed => exact .fault _ _
  | _ => exact .done

omit hR in
theorem passes_validateContains (h : FirstBlank children) {items : List Json} (hitems : items ≠ []) (t : State) :
    Passes (validate_node P c) (validateContains (.arr items) loc children) t := by
  cases children with
  | nil => exact ⟨t, Settles.done_iff.mpr rfl, rfl⟩
  | cons n rest =>
    have hcount : ∀ (items : List Json) (count : ℕ), 1 ≤ count + items.length → ∀ v,
        Passes (validate_node P c) (countMatches loc n items count) v := by
      intro items
      induction items with
      | nil =>
        intro count hle v
        have hmatched : ¬ count < 1 := by
          rw [List.length_nil] at hle
          omega
        unfold countMatches require
        rw [if_pos (decide_eq_true hmatched)]
        exact ⟨v, Settles.done_iff.mpr rfl, rfl⟩
      | cons item items ih =>
        refine fun count _ v => passes_attempt ((h n rfl).passes item v) fun v' => ih _ ?_ v'
        rw [if_pos rfl]
        omega
    exact hcount items 0 (by have := List.length_pos_iff.mpr hitems; omega) t

theorem alike_validateContains (hempty : y = .arr [] → (children = [] ↔ children' = []))
    (hfirst : ∀ items, y = .arr items → items ≠ [] → FirstBy (Kin R) children children' ∨
      FirstBlank children ∧ FirstBlank children') :
    DoAlike P c c' R L depth (validateContains y loc children) t (validateContains y loc children') t' := by
  cases y with
  | arr items =>
    by_cases hitems : items = []
    · subst hitems
      have hboth := hempty rfl
      cases children with
      | nil =>
        obtain rfl := hboth.mp rfl
        exact .done
      | cons n rest =>
        cases children' with
        | nil => exact absurd (hboth.mpr rfl) (List.cons_ne_nil _ _)
        | cons n' rest' => exact .report _ _
    rcases hfirst items rfl hitems with h | ⟨h, h'⟩
    · rcases h.cases with ⟨rfl, rfl⟩ | ⟨n, rest, n', rest', rfl, rfl, hn⟩
      · exact .done
      have hcount : ∀ (items : List Json) (count : ℕ) v v',
          DoAlike P c c' R L depth (countMatches loc n items count) v (countMatches loc n' items count) v' := by
        intro items
        induction items with
        | nil => exact fun _ _ _ => alike_require _ _ _
        | cons item items ih =>
          exact fun count v v' => Likewise.attempt_any (alike_visit hR hn item v v') fun _ => ih _
      exact hcount items 0 _ _
    · exact .passes (passes_validateContains h hitems _) (passes_validateContains h' hitems _)
  | _ => exact .done

theorem alike_validateRef {value : Json} (h : ∀ uri, value.get_string = some uri →
    Option.Rel (PtrBy (Kin R)) (c.find_ref uri) (c'.find_ref uri)) :
    DoAlike P c c' R L depth (validateRef c y loc value) t (validateRef c' y loc value) t' := by
  unfold validateRef
  cases hvalue : value.get_string with
  | none => exact .done
  | some uri =>
    have hfound := h uri hvalue
    dsimp only
    revert hfound
    generalize c.find_ref uri = r
    generalize c'.find_ref uri = r'
    rintro (hptr | _)
    · cases hptr with
      | node h => exact alike_visit hR h y _ _
      | destroyed => exact .fault _ _
    · exact .report _ _

theorem alike_validatePrefixItems (h : List.Forall₂ R children children') :
    DoAlike P c c' R L depth (validatePrefixItems y children) t (validatePrefixItems y children') t' := by
  cases y with
  | arr items =>
    refine Likewise.all_same ?_ _ _
    rintro ⟨item, index⟩ - v v'
    refine Likewise.seq ?_ fun _ _ _ _ => .note _ _
    have hget : ∀ i : ℕ, Option.Rel R children[i]? children'[i]? := by
      intro i
      cases hi : children[i]? with
      | some n =>
        obtain ⟨n', hn', hn⟩ := forall₂_getElem? h hi
        rw [hn']
        exact .some hn
      | none =>
        have hlength := h.length_eq
        have hnone : children'[i]? = none := by
          rw [List.getElem?_eq_none_iff] at hi ⊢
          omega
        rw [hnone]
        exact .none
    rw [List.getLast?_eq_getElem?, List.getLast?_eq_getElem?, ← h.length_eq]
    have hchild := hget index
    have hlast := hget (children.length - 1)
    revert hchild hlast
    generalize children[index]? = r
    generalize children'[index]? = r'
    generalize children[children.length - 1]? = b
    generalize children'[children.length - 1]? = b'
    rintro (hn | _) hlast
    · exact alike_visit hR (.inl hn) item v v'
    · rcases hlast with hn | _
      · exact alike_visit hR (.inl hn) item v v'
      · exact .done
  | _ => exact .done

omit hR

/-- Entries of tables with the same names, whose nodes correspond to each other. -/
def EntryBy (L : List SchemaNode → List SchemaNode → Prop) (e e' : SchemaNode) : Prop :=
  lastSegment e.uri = lastSegment e'.uri ∧ L e.children e'.children

theorem alike_part (h : L children children') (y : Json) (t t' : State) :
    DoAlike P c c' R L depth (visitAll y children) t (visitAll y children') t' :=
  .part ⟨y, children, children', rfl, rfl, h⟩

theorem alike_validateProperties (h : List.Forall₂ (EntryBy L) children children') :
    DoAlike P c c' R L depth (validateProperties y children) t (validateProperties y children') t' := by
  cases y with
  | obj members =>
    refine Likewise.all (h.imp fun e e' he v v' => ?_) _ _
    obtain ⟨hname, hnodes⟩ := he
    unfold validateProperty
    rw [← hname]
    dsimp only
    cases Record.find members (lastSegment e.uri) with
    | none => exact .done
    | some z => exact (alike_part hnodes z v v').seq fun _ _ _ _ => .note _ _
  | _ => exact .done

theorem alike_validatePatternProperties (h : List.Forall₂ (EntryBy L) children children') :
    DoAlike P c c' R L depth (validatePatternProperties P y children) t
      (validatePatternProperties P y children') t' := by
  cases y with
  | obj members =>
    refine Likewise.all (h.imp fun e e' he => Likewise.all_same fun member _ v v' => ?_) _ _
    obtain ⟨hname, hnodes⟩ := he
    unfold validatePatternMember
    rw [← hname]
    dsimp only
    split
    · exact (alike_part hnodes member.2 v v').seq fun _ _ _ _ => .note _ _
    · exact .done
  | _ => exact .done

theorem alike_validateDependentSchemas (h : List.Forall₂ (EntryBy L) children children') :
    DoAlike P c c' R L depth (validateDependentSchemas y children) t (validateDependentSchemas y children') t' := by
  cases y with
  | obj members =>
    refine Likewise.all (h.imp fun e e' he v v' => ?_) _ _
    obtain ⟨hname, hnodes⟩ := he
    rw [← hname]
    split
    · exact alike_part hnodes _ v v'
    · exact .done
  | _ => exact .done

theorem alike_reports {errors errors' : List ValidationError} (h : errors.length = errors'.length) (t t' : State) :
    DoAlike P c c' R L depth (.all (errors.map .report)) t (.all (errors'.map .report)) t' := by
  refine Likewise.all (List.forall₂_iff_zip.mpr ⟨h, fun _ v v' => .report _ _⟩) t t'

/-- The nodes under the one and under the other report as much for every name. -/
def NamesAlike (P : Platform) (n n' : SchemaNode) : Prop :=
  ∀ key str, Both (fun l l' => l.flatten.length = l'.flatten.length) (n.children.mapM (nameErrors P key str))
    (n'.children.mapM (nameErrors P key str))

def FirstBare (nodes : List SchemaNode) : Prop := ∀ n ∈ nodes.head?, n.children = []

/-- No node under the first one has anything to say about a name. -/
def FirstMute (nodes : List SchemaNode) : Prop :=
  ∀ n ∈ nodes.head?, ∀ m ∈ n.children, ∀ (P : Platform) (key str : Str), nameErrors P key str m = .ok []

theorem mapM_of_mute {nodes : List SchemaNode} (h : ∀ m ∈ nodes, ∀ (P : Platform) (key str : Str),
    nameErrors P key str m = .ok []) (key str : Str) :
    nodes.mapM (nameErrors P key str) = .ok (nodes.map fun _ => []) := by
  induction nodes with
  | nil => rfl
  | cons m nodes ih =>
    rw [List.mapM_cons, h m (List.mem_cons_self ..), ih fun n hn => h n (List.mem_cons_of_mem _ hn)]
    rfl

theorem passes_validatePropertyNames (h : FirstMute children ∨ ∀ members, y = .obj members →
      ∀ m ∈ members, m.2.get_string = none) (t : State) :
    Passes (validate_node P c) (validatePropertyNames P y loc children) t := by
  have hdone : ∀ v, Passes (validate_node P c) .done v := fun v => ⟨v, Settles.done_iff.mpr rfl, rfl⟩
  cases y with
  | obj members =>
    cases children with
    | nil => exact hdone t
    | cons n rest =>
      refine passes_all (fun p hp v => ?_) t
      obtain ⟨⟨key, z⟩, hm, rfl⟩ := List.mem_map.mp hp
      cases z with
      | str str =>
        rcases h with h | h
        · have hnone : ((n.children.map fun _ => []) : List (List ValidationError)).flatten = [] := by simp
          unfold validateName
          dsimp only
          rw [mapM_of_mute (h n rfl) key str]
          dsimp only
          rw [hnone]
          exact passes_seq_iff.mpr ⟨v, Settles.done_iff.mpr rfl, rfl, hdone v⟩
        · exact absurd (h members rfl _ hm) (by simp [Json.get_string])
      | _ => exact hdone v
  | _ => exact hdone t

/-- `propertyNames`, where the nodes below the first one report as much for every name. -/
theorem alike_validatePropertyNames (h : FirstBy (NamesAlike P) children children' ∨
      FirstMute children ∧ FirstMute children' ∨
      ∀ members, y = .obj members → ∀ m ∈ members, m.2.get_string = none) :
    DoAlike P c c' R L depth (validatePropertyNames P y loc children) t
      (validatePropertyNames P y loc children') t' := by
  rcases h with h | ⟨h, h'⟩ | h
  · rcases h.cases with ⟨rfl, rfl⟩ | ⟨n, rest, n', rest', rfl, rfl, hn⟩
    · cases y <;> exact .done
    cases y with
    | obj members =>
      refine Likewise.all_same ?_ _ _
      rintro ⟨key, z⟩ - v v'
      cases z with
      | str str =>
        have herrors := hn key str
        unfold validateName
        dsimp only
        revert herrors
        generalize n.children.mapM (nameErrors P key str) = r
        generalize n'.children.mapM (nameErrors P key str) = r'
        rintro (⟨a, a'⟩ | @⟨errors, errors', hlength⟩)
        · exact .fault a a'
        · have hempty : errors.flatten.isEmpty = errors'.flatten.isEmpty := by
            rw [Bool.eq_iff_iff, List.isEmpty_iff_length_eq_zero, List.isEmpty_iff_length_eq_zero, hlength]
          refine (alike_reports hlength v v').seq fun _ _ _ _ => ?_
          rw [hempty]
          exact alike_require _ _ _
      | _ => exact .done
    | _ => exact .done
  · exact .passes (passes_validatePropertyNames (.inl h) _) (passes_validatePropertyNames (.inl h') _)
  · exact .passes (passes_validatePropertyNames (.inr h) _) (passes_validatePropertyNames (.inr h) _)

end

theorem validateDefault_congr {value value' : Json} (h : value.get_bool = value'.get_bool) (loc : Str) :
    validateDefault value loc = validateDefault value' loc := by
  have hbool : ∀ v : Json, validateDefault v loc =
      match v.get_bool with
      | some accepts => require accepts loc "Value does not match schema (schema is false)".toList
      | none => .done := by
    intro v
    cases v <;> rfl
  rw [hbool, hbool, h]

/-! ### The node -/

/-- It makes no difference to the keyword whether there is a first node that does nothing, or none. -/
def MaySkip (c c' : SchemaCompiler) (node : SchemaNode) : Prop :=
  node.keyword ≠ .Not ∧ (node.keyword = .If → node.parent = .root ∧ ThenBlank c ∧ ThenBlank c')

/-- Two nodes, visited in two states, correspond to each other where the keyword looks. -/
structure Aligned (R : SchemaNode → SchemaNode → Prop) (L : List SchemaNode → List SchemaNode → Prop)
    (P : Platform) (c c' : SchemaCompiler) (node node' : SchemaNode) (y : Json) (t t' : State) : Prop where
  keyword : node.keyword = node'.keyword
  parent : node.parent = node'.parent
  value : valueUnread node.keyword = false → node'.value = node.value
  bool : node.value.get_bool = node'.value.get_bool
  schema : node.keyword = .Schema → L node.children node'.children
  list : reading node.keyword = .list → List.Forall₂ R node.children node'.children
  entries : reading node.keyword = .table → List.Forall₂ (EntryBy L) node.children node'.children
  first : handsOn c node y t.notes ∨ handsOn c' node' y t'.notes → FirstBy (Kin R) node.children node'.children ∨
    MaySkip c c' node ∧ FirstBlank node.children ∧ FirstBlank node'.children
  contains : node.keyword = .Contains → y = .arr [] → (node.children = [] ↔ node'.children = [])
  additional : node.keyword = .AdditionalItems → node.parent ≠ .root → ∀ items, y = .arr items → items ≠ [] →
    (node.children = [] ↔ node'.children = [])
  count : node.keyword = .AdditionalItems → node.parent = .root →
    FirstBlank node.children ∧ FirstBlank node'.children ∨ ∀ items, y = .arr items → ∀ index < items.length,
      (index ≥ c.root_node_.children.length ↔ index ≥ c'.root_node_.children.length)
  branch : node.keyword = .If → node.parent = .root → ∀ n ∈ node.children.head?, ∀ v,
    Settles (validate_node P c) (visit y n) t v →
      Option.Rel (Kin R) (lastWith (if (afterTrial t v).1 then .Then else .Else) c.root_node_.children)
        (lastWith (if (afterTrial t v).1 then .Then else .Else) c'.root_node_.children)
  target : node.keyword = .Ref → ∀ uri, node.value.get_string = some uri →
    Option.Rel (PtrBy (Kin R)) (c.find_ref uri) (c'.find_ref uri)
  names : node.keyword = .PropertyNames → FirstBy (NamesAlike P) node.children node'.children ∨
    FirstMute node.children ∧ FirstMute node'.children ∨
      ∀ members, y = .obj members → ∀ m ∈ members, m.2.get_string = none
  dependent : node.keyword = .DependentRequired → ∀ (loc : Str) (depth : ℕ),
    DoAlike P c c' R L depth (validateDependentRequired y loc node.children) t
      (validateDependentRequired y loc node'.children) t'

/-- Nodes that correspond to each other do the same. -/
theorem Aligned.validate_node {R : SchemaNode → SchemaNode → Prop}
    {L : List SchemaNode → List SchemaNode → Prop} {P : Platform} {c c' : SchemaCompiler}
    {node node' : SchemaNode} {y : Json} {loc : Str} {t t' : State} {depth : ℕ}
    (hR : ∀ n n', R n n' → n.keyword ≠ .Schema → n.uri = n'.uri) (h : Aligned R L P c c' node node' y t t') :
    DoAlike P c c' R L depth (validate_node P c ⟨node, y, loc⟩) t (validate_node P c' ⟨node', y, loc⟩) t' := by
  obtain ⟨hkeyword, hparent, hread, hbool, hschema, hlist, hentries, hfirst, hcontains, hadditional, hcount, hbranch,
    htarget, hnames, hdependent⟩ := h
  have hdefault := validateDefault_congr hbool loc
  unfold handsOn at hfirst
  unfold JsonSchema.validate_node
  dsimp only
  rw [← hkeyword, ← hparent]
  rw [← hkeyword, ← hparent] at hfirst
  cases hkw : node.keyword <;>
    rw [hkw] at hread hschema hlist hentries hfirst hcontains hadditional hcount hbranch htarget hnames hdependent
  case Schema => exact alike_part (hschema rfl) y _ _
  case AllOf => exact alike_visitAll hR (hlist rfl) y _ _
  case AnyOf => exact alike_validateAnyOf hR (hlist rfl) _ _
  case OneOf => exact alike_validateOneOf hR (hlist rfl) 0 _ _
  case PrefixItems => exact alike_validatePrefixItems hR (hlist rfl)
  case Not =>
    rcases hfirst (.inl rfl) with h | ⟨h, -⟩
    · exact alike_validateNot hR h
    · exact absurd hkw h.1
  case If =>
    rcases hfirst (.inl rfl) with h | ⟨⟨-, hblank⟩, h, h'⟩
    · exact alike_validateIf hR h (hbranch rfl)
    · obtain ⟨hroot, hthen, hthen'⟩ := hblank hkw
      rw [hroot]
      exact .passes (passes_validateIf h hthen _) (passes_validateIf h' hthen' _)
  case Properties => exact alike_validateProperties (hentries rfl)
  case PatternProperties => exact alike_validatePatternProperties (hentries rfl)
  case DependentSchemas => exact alike_validateDependentSchemas (hentries rfl)
  case DependentRequired => exact hdependent rfl loc depth
  case AdditionalProperties | UnevaluatedProperties =>
    refine alike_validateOtherProperties hR ?_
    by_cases huses : ∃ s ∈ [t, t'], ∃ members, y = .obj members ∧
        ∃ m ∈ members, m.1 ∉ s.notes.evaluated_properties
    · obtain ⟨s, hs, members, rfl, m, hm, hnew⟩ := huses
      refine (hfirst ?_).imp_right fun h => .inl h.2
      simp only [List.any_eq_true, decide_eq_true_eq]
      rcases List.mem_pair.mp hs with rfl | rfl
      · exact .inl ⟨m, hm, hnew⟩
      · exact .inr ⟨m, hm, hnew⟩
    · exact .inr (.inr fun s hs members hy m hm => by_contra fun hnew => huses ⟨s, hs, members, hy, m, hm, hnew⟩)
  case Items =>
    refine alike_validateItems hR ?_
    by_cases huses : ∃ items, y = .arr items ∧ items ≠ []
    · obtain ⟨items, rfl, hne⟩ := huses
      exact (hfirst (.inl (by simpa using hne))).imp_right fun h => .inl h.2
    · exact .inr (.inr fun items hy => by_contra fun hne => huses ⟨items, hy, hne⟩)
  case Contains =>
    refine alike_validateContains hR (hcontains rfl) fun items hy hne => ?_
    subst hy
    exact (hfirst (.inl (by simpa using hne))).imp_right fun h => h.2
  case UnevaluatedItems =>
    refine alike_validateUnevaluatedItems hR ?_
    by_cases huses : ∃ s ∈ [t, t'], ∃ items, y = .arr items ∧
        ∃ item ∈ items.zipIdx, s.notes.evaluated_items.getD item.2 false = false
    · obtain ⟨s, hs, items, rfl, item, hitem, hnew⟩ := huses
      refine (hfirst ?_).imp_right fun h => .inl h.2
      simp only [List.any_eq_true, Bool.not_eq_true']
      rcases List.mem_pair.mp hs with rfl | rfl
      · exact .inl ⟨item, hitem, hnew⟩
      · exact .inr ⟨item, hitem, hnew⟩
    · refine .inr (.inr fun s hs items hy item hitem => by_contra fun hnew => ?_)
      exact huses ⟨s, hs, items, hy, item, hitem, by simpa using hnew⟩
  case AdditionalItems =>
    by_cases hroot : node.parent = .root
    · rw [hroot] at hfirst ⊢
      refine alike_validateAdditionalItems_root hR ?_
      rcases hcount rfl hroot with h | hsame
      · exact .inl h
      by_cases huses : ∃ items, y = .arr items ∧ c.root_node_.children.length < items.length
      · obtain ⟨items, rfl, hlt⟩ := huses
        rcases hfirst (.inl (by simpa using hlt)) with h | ⟨-, h⟩
        · exact .inr ⟨hsame, .inl h⟩
        · exact .inl h
      · refine .inr ⟨hsame, .inr fun items hy => by_contra fun hlt => huses ⟨items, hy, by omega⟩⟩
    · exact alike_validateAdditionalItems_other hroot (hadditional rfl hroot)
  case PropertyNames => exact alike_validatePropertyNames (hnames rfl)
  case Ref =>
    rw [hread rfl]
    exact alike_validateRef hR (htarget rfl)
  case Type_ => rw [hread rfl]; exact .refl over_validateType _ _
  case Enum => rw [hread rfl]; exact .refl over_validateEnum _ _
  case Const => rw [hread rfl]; exact .refl over_require _ _
  case MultipleOf => rw [hread rfl]; exact .refl over_validateMultipleOf _ _
  case Maximum | Minimum | ExclusiveMaximum | ExclusiveMinimum =>
    rw [hread rfl]
    exact .refl over_validateBound _ _
  case MaxLength => rw [hread rfl]; exact .refl over_validateMaxLength _ _
  case MinLength => rw [hread rfl]; exact .refl over_validateMinLength _ _
  case Pattern => rw [hread rfl]; exact .refl over_validatePattern _ _
  case MaxItems | MinItems | MaxProperties | MinProperties =>
    rw [hread rfl]
    exact .refl over_validateCount _ _
  case UniqueItems => rw [hread rfl]; exact .refl over_validateUniqueItems _ _
  case MaxContains =>
    rw [hread rfl]
    exact .refl (over_noteMaxContains.mono (fun _ h => h) (fun _ _ => trivial) fun _ h => h) _ _
  case MinContains =>
    rw [hread rfl]
    exact .refl (over_noteMinContains.mono (fun _ h => h) (fun _ _ => trivial) fun _ h => h) _ _
  case Required => rw [hread rfl]; exact .refl over_validateRequired _ _
  all_goals
    show DoAlike P c c' R L depth (validateDefault node.value loc) t (validateDefault node'.value loc) t'
    rw [hdefault]
    exact .refl over_validateDefault _ _

/-- So do calls that correspond to each other. -/
theorem Aligned.call {R : SchemaNode → SchemaNode → Prop} {L : List SchemaNode → List SchemaNode → Prop}
    {P : Platform} {c c' : SchemaCompiler} {f f' : Call} {t t' : State} {depth : ℕ}
    (hR : ∀ n n', R n n' → n.keyword ≠ .Schema → n.uri = n'.uri)
    (h : Aligned R L P c c' f.node f'.node f.element t t') (hcall : CallBy R f f') (hnode : R f.node f'.node) :
    DoAlike P c c' R L depth (JsonSchema.validate_node P c f) t (JsonSchema.validate_node P c' f') t' := by
  obtain ⟨node, y, loc⟩ := f
  obtain ⟨node', y', loc'⟩ := f'
  obtain rfl : y = y' := hcall.element
  by_cases hschema : node.keyword = .Schema
  · -- the location is not looked at
    have hkeyword : node'.keyword = .Schema := h.keyword ▸ hschema
    unfold JsonSchema.validate_node
    dsimp only
    rw [hschema, hkeyword]
    exact alike_part (h.schema hschema) y _ _
  · obtain rfl : loc = loc' := hcall.schema_location hnode hschema
    exact h.validate_node hR

/-! ### The verdict -/

def visitCall (y : Json) (n : SchemaNode) : Call := ⟨n, y, n.uri.to_string⟩

theorem visitAll_eq (y : Json) (nodes : List SchemaNode) : visitAll y nodes = callAll (nodes.map (visitCall y)) := by
  unfold visitAll callAll
  rw [List.map_map]
  rfl

/-- Each node of the first schema has its partner in the second, and the others there do nothing where they are
visited. -/
structure Counterparts (R : SchemaNode → SchemaNode → Prop) (P : Platform) (c' : SchemaCompiler) (y : Json)
    (nodes nodes' : List SchemaNode) (t' : State) : Prop where
  partner : ∀ n ∈ nodes, ∃ n' ∈ nodes', R n n'
  others : ∀ n' ∈ nodes', (∃ n ∈ nodes, R n n') ∨
    ∀ v', Enters (validate_node P c') (visitAll y nodes') t' (visitCall y n') v' → Blank n'

section

variable {P : Platform} {c c' : SchemaCompiler} {R : SchemaNode → SchemaNode → Prop}
  {L : List SchemaNode → List SchemaNode → Prop}
  (hR : ∀ n n', R n n' → n.keyword ≠ .Schema → n.uri = n'.uri)

include hR

theorem callBy_visitCall {n n' : SchemaNode} (h : Kin R n n') (y : Json) :
    CallBy R (visitCall y n) (visitCall y n') :=
  ⟨h, rfl, fun hn hkw => congrArg SchemaURI.to_string (hR _ _ hn hkw)⟩

/-- Schemas whose nodes are counterparts concur if these do, whatever their order. -/
theorem concurs_visitAll {y : Json} {nodes nodes' : List SchemaNode} {t t' : State} {depth : ℕ}
    (h : Counterparts R P c' y nodes nodes' t')
    (hcalls : ∀ f f' v v', Enters (validate_node P c) (visitAll y nodes) t f v →
      Enters (validate_node P c') (visitAll y nodes') t' f' v' → CallBy R f f' →
        Concurs (validate_node P c) (validate_node P c') depth ⟨.call f, v⟩ ⟨.call f', v'⟩) :
    Concurs (validate_node P c) (validate_node P c') depth ⟨visitAll y nodes, t⟩ ⟨visitAll y nodes', t'⟩ := by
  obtain ⟨hpartner, hothers⟩ := h
  rw [visitAll_eq, visitAll_eq] at *
  refine concurs_callAll ?_ ?_ hcalls
  · intro f hf
    obtain ⟨n, hn, rfl⟩ := List.mem_map.mp hf
    obtain ⟨n', hn', h⟩ := hpartner n hn
    exact .inl ⟨_, List.mem_map_of_mem hn', callBy_visitCall hR (.inl h) y⟩
  · intro f' hf'
    obtain ⟨n', hn', rfl⟩ := List.mem_map.mp hf'
    rcases hothers n' hn' with ⟨n, hn, h⟩ | hblank
    · exact .inl ⟨_, List.mem_map_of_mem hn, callBy_visitCall hR (.inl h) y⟩
    · refine .inr fun v' hv' => Settles.call_iff.mpr ?_
      rw [show validate_node P c' (visitCall y n') = .done from hblank v' hv' P c' y _]
      exact Settles.done_iff.mpr rfl

/-- The calls to which the validations with two schemas come at corresponding points. -/
abbrev VisitedBy (R : SchemaNode → SchemaNode → Prop) (L : List SchemaNode → List SchemaNode → Prop) (P : Platform)
    (c c' : SchemaCompiler) (x : Json) : Call × State → Call × State → Prop :=
  Together (validate_node P c) (validate_node P c') (Loose L) (CallBy R) (rootCall c x, ⟨[], {}⟩)
    (rootCall c' x, ⟨[], {}⟩)

omit hR in
theorem visitedBy_element {x : Json} {a a' : Call × State} (h : VisitedBy R L P c c' x a a') :
    a.1.element = a'.1.element := by
  cases h with
  | start => rfl
  | step _ _ h => exact h.element

/-- The runs of two calls come to two statements at corresponding points. -/
abbrev ComeTo (L : List SchemaNode → List SchemaNode → Prop) (P : Platform) (c c' : SchemaCompiler)
    (a a' : Call × State) (p : Statement) (v : State) (p' : Statement) (v' : State) : Prop :=
  Alongside (validate_node P c) (validate_node P c') (Loose L) ⟨validate_node P c a.1, a.2⟩
    ⟨validate_node P c' a'.1, a'.2⟩ ⟨p, v⟩ ⟨p', v'⟩

/-- **Two validations.**  Where at corresponding points questions to the evaluation context are answered alike,
the nodes of schemas are counterparts, and related nodes correspond to each other where they look, the verdicts
are the same. -/
theorem returns_alongside {x : Json} (hroot : R c.root_node_ c'.root_node_)
    (hanswers : ∀ a a', VisitedBy R L P c c' x a a' → ∀ g g' p p' v v',
      ComeTo L P c c' a a' (.skipIf g p) v (.skipIf g' p') v' →
        g v.notes = g' v'.notes ∨ BlankVisit p ∧ BlankVisit p')
    (hnodes : ∀ a a', VisitedBy R L P c c' x a a' → ∀ y nodes nodes' v v', L nodes nodes' →
      ComeTo L P c c' a a' (visitAll y nodes) v (visitAll y nodes') v' →
        Counterparts R P c' y nodes nodes' v')
    (hbodies : ∀ a a', VisitedBy R L P c c' x a a' → R a.1.node a'.1.node →
      Aligned R L P c c' a.1.node a'.1.node a.1.element a.2 a'.2) (b : Bool) :
    Returns P c x b ↔ Returns P c' x b := by
  have hcallBy : ∀ a a', VisitedBy R L P c c' x a a' → CallBy R a.1 a'.1 := by
    intro a a' h
    cases h with
    | start => exact ⟨.inl hroot, rfl, fun _ _ => rfl⟩
    | step _ _ h => exact h
  have hconcurs : ∀ depth a a', VisitedBy R L P c c' x a a' → Concurs (validate_node P c) (validate_node P c') depth
      ⟨.call a.1, a.2⟩ ⟨.call a'.1, a'.2⟩ := by
    refine concurs_of_likewise (fun a a' h g g' p p' v v' hcome => ?_) ?_ ?_
    · refine (hanswers a a' h g g' p p' v v' hcome).imp_right ?_
      rintro ⟨⟨y, n, rfl, hblank⟩, y', n', rfl, hblank'⟩
      exact ⟨hblank.passes y v, hblank'.passes y' v'⟩
    · rintro depth a a' h p p' v v' ⟨y, nodes, nodes', rfl, rfl, hL⟩ hcome hcalls
      exact concurs_visitAll hR (hnodes a a' h y nodes nodes' v v' hL hcome) hcalls
    · intro depth a a' h
      have hcall := hcallBy a a' h
      rcases hcall.node with hrelated | ⟨hblank, hblank'⟩
      · exact (hbodies a a' h hrelated).call hR hcall hrelated
      · rw [show validate_node P c a.1 = .done from hblank P c _ _,
          show validate_node P c' a'.1 = .done from hblank' P c' _ _]
        exact .done
  have hverdict : ∀ {t t' : State}, (t.errors.length = 0 ↔ t'.errors.length = 0) →
      t.errors.isEmpty = t'.errors.isEmpty := by
    intro t t' h
    rw [Bool.eq_iff_iff, List.isEmpty_iff_length_eq_zero, List.isEmpty_iff_length_eq_zero, h]
  constructor
  · rintro ⟨depth, hvalidate⟩
    obtain ⟨t, hrun, rfl⟩ := validate_eq_ok.mp hvalidate
    obtain ⟨t', ⟨depth', hrun'⟩, hsame⟩ := (hconcurs depth _ _ .start).1 t hrun
    exact ⟨depth', validate_eq_ok.mpr ⟨t', hrun', (hverdict hsame).symm⟩⟩
  · rintro ⟨depth, hvalidate⟩
    obtain ⟨t', hrun', rfl⟩ := validate_eq_ok.mp hvalidate
    obtain ⟨t, ⟨depth', hrun⟩, hsame⟩ := (hconcurs depth _ _ .start).2 t' hrun'
    exact ⟨depth', validate_eq_ok.mpr ⟨t, hrun, (hverdict hsame).symm⟩⟩

end

end Siesta.JsonSchema
