import Siesta.JsonSchema.NodeUris
import Siesta.JsonSchema.Termination
import Siesta.Lib.CallTrace
import Mathlib.Algebra.Order.BigOperators.Group.List
import Mathlib.Algebra.Order.Group.Nat

/-!
# Which subschema a member is checked against

`validate_node` finds the member of an entry of `properties` by what stands after the last slash of the
entry's URI, and takes those members for additional whose names have not been noted in the evaluation
context by then.  The names are noted by every object of the instance in one set.

`Routed` says that the members of an object are checked as the schema object says, each against the
subschemas under its own name, and against `additionalProperties` if there is none.  `members_routed_iff`
says when they are.
-/

namespace Siesta.JsonSchema

open Lib

/-! ### The names of entries -/

def lastPart (name : Str) : Str := (afterLast '/' name).getD name

theorem slash_notMem_lastPart (name : Str) : '/' ∉ lastPart name := by
  unfold lastPart
  cases h : afterLast '/' name with
  | none => exact afterLast_eq_none.mp h
  | some part =>
    obtain ⟨-, -, hpart⟩ := afterLast_eq_some.mp h
    exact hpart

theorem lastPart_of_notMem {name : Str} (h : '/' ∉ name) : lastPart name = name := by
  unfold lastPart
  rw [afterLast_eq_none.mpr h, Option.getD_none]

theorem lastSegment_entry (u name : Str) : lastSegment (.parse (u ++ '/' :: name)) = lastPart name := by
  unfold lastSegment lastPart
  rw [SchemaURI.to_string_parse]
  cases h : afterLast '/' name with
  | none => rw [afterLast_eq_some.mpr ⟨u, rfl, afterLast_eq_none.mp h⟩, Option.getD_some, Option.getD_none]
  | some part =>
    obtain ⟨p, hname, hpart⟩ := afterLast_eq_some.mp h
    rw [afterLast_eq_some.mpr ⟨u ++ '/' :: p, by rw [hname]; simp, hpart⟩, Option.getD_some, Option.getD_some]

/-- The names in the value of `properties`. -/
def tableNames : Json → List Str
  | .obj table => Record.keys table
  | _ => []

/-- A node of `properties` has a node for each of its names, in their order. -/
def Tabled (node : SchemaNode) : Prop :=
  node.keyword = .Properties →
    List.Forall₂ (fun name child => child.uri = .parse (node.uri.to_string ++ '/' :: name)) (tableNames node.value)
      node.children

theorem tabled_of_ne {node : SchemaNode} (h : node.keyword ≠ .Properties) : Tabled node := fun hkeyword =>
  absurd hkeyword h

/-- The loop over the members of `properties` builds a node for each name. -/
theorem buildProperties_names {kw_uri : SchemaURI} : ∀ {table : List (Str × Json)} {st st' : BuildState}
    {nodes : List SchemaNode}, buildProperties kw_uri table st = .ok (nodes, st') →
      List.Forall₂ (fun name child => child.uri = .parse (kw_uri.to_string ++ '/' :: name)) (Record.keys table)
        nodes := by
  intro table
  induction table with
  | nil =>
    intro st st' nodes h
    obtain ⟨rfl, -⟩ := Prod.mk.inj (Except.ok.inj h)
    exact .nil
  | cons e table ih =>
    intro st st' nodes h
    obtain ⟨⟨children, st₁⟩, -, h⟩ := bind_eq_ok.mp h
    obtain ⟨⟨rest, st₂⟩, hrest, h⟩ := bind_eq_ok.mp h
    obtain ⟨rfl, -⟩ := Prod.mk.inj (Except.ok.inj h)
    exact .cons rfl (ih hrest)

theorem tabled_rule (filled : Filled) (key : Str) : MemberRule Tabled filled key where
  node := by
    intro hread value uri node_uri children
    refine tabled_of_ne ?_
    show (keywordNode filled (keywordOf key) key value uri).keyword ≠ .Properties
    rw [keywordNode_keyword]
    intro hkeyword
    rw [hkeyword] at hread
    exact absurd hread (by decide)
  table := fun _ _ _ _ _ _ hchildren _ => buildProperties_names hchildren

theorem tabled_of_compile {schema : Json} {c : SchemaCompiler} (hc : compile schema = .ok c) :
    ∀ node ∈ c.root_node_.preorder, Tabled node := by
  have hrule : NodeRule Tabled := ⟨fun _ _ _ => tabled_of_ne (by simp), fun _ key => tabled_rule _ key⟩
  have hall := all_of_compile hrule hc fun _ _ m _ => tabled_rule _ m.1
  obtain ⟨r, -, hc⟩ := bind_eq_ok.mp hc
  obtain rfl := Except.ok.inj hc
  intro node hnode
  rcases List.mem_cons.mp hnode with rfl | hnode
  · exact tabled_of_ne (by simp)
  · exact hall node hnode

/-! ### The checks of the members -/

/-- A check of the member `name`, against a subschema under `listed`, or else against
`additionalProperties`. -/
structure MemberCheck where
  name : Str
  listed : Option Str
  call : Call

abbrev MemberStatement : Type := Check MemberCheck ValidationError EvaluationContext Abort

def checkBy (member : Str × Json) (listed : Option Str) (child : SchemaNode) : MemberCheck :=
  ⟨member.1, listed, child, member.2, child.uri.to_string⟩

section Members

variable (members : List (Str × Json))

/-- `validateProperty` for the node of an entry. -/
def checkProperty (e : Str × SchemaNode) : MemberStatement :=
  let prop_name := lastSegment e.2.uri
  match Record.find members prop_name with
  | none => .done
  | some prop_value =>
    .seq (.all (e.2.children.map fun child => .call (checkBy (prop_name, prop_value) (some e.1) child))) <|
      .note fun ctx => { ctx with evaluated_properties := insert prop_name ctx.evaluated_properties }

/-- `validateProperties`. -/
def checkProperties (entries : List (Str × SchemaNode)) : MemberStatement :=
  .all (entries.map (checkProperty members))

/-- `validateOtherProperties` for one member. -/
def checkOther (child : SchemaNode) (member : Str × Json) : MemberStatement :=
  .skipIf (fun ctx => member.1 ∈ ctx.evaluated_properties) (.call (checkBy member none child))

/-- `validateOtherProperties`. -/
def checkOthers : List SchemaNode → MemberStatement
  | [] => .done
  | child :: _ => .all (members.map (checkOther child))

end Members

theorem forget_checkProperties (members : List (Str × Json)) (entries : List (Str × SchemaNode)) :
    (checkProperties members entries).mapCalls MemberCheck.call =
      validateProperties (.obj members) (entries.map Prod.snd) := by
  unfold checkProperties validateProperties
  dsimp only
  rw [Check.mapCalls_all, List.map_map, List.map_map]
  congr 1
  refine List.map_congr_left fun e _ => ?_
  show (checkProperty members e).mapCalls MemberCheck.call = validateProperty members e.2
  unfold checkProperty validateProperty
  dsimp only
  cases Record.find members (lastSegment e.2.uri) with
  | none => rfl
  | some prop_value =>
    dsimp only
    rw [Check.mapCalls, Check.mapCalls_all, List.map_map]
    rfl

theorem forget_checkOthers (members : List (Str × Json)) (children : List SchemaNode) :
    (checkOthers members children).mapCalls MemberCheck.call =
      validateOtherProperties (.obj members) children := by
  cases children with
  | nil => rfl
  | cons child rest =>
    unfold checkOthers validateOtherProperties
    rw [Check.mapCalls_all, List.map_map]
    rfl

/-! ### Where the nodes of a schema object are -/

/-- The nodes of a schema object with `properties`, and `additionalProperties` behind it. -/
structure Listing (nodes : List SchemaNode) where
  before : List SchemaNode
  listed : SchemaNode
  between : List SchemaNode
  other : SchemaNode
  after : List SchemaNode
  nodes_eq : nodes = before ++ listed :: (between ++ other :: after)
  properties : listed.keyword = .Properties
  additional : other.keyword = .AdditionalProperties

namespace Listing

variable {nodes : List SchemaNode} (s : Listing nodes)

theorem listed_mem : s.listed ∈ nodes := by
  obtain ⟨before, listed, between, other, after, rfl, -, -⟩ := s
  simp

/-- The names in `properties`. -/
def names : List Str := tableNames s.listed.value

/-- The names in `properties`, with their nodes. -/
def entries : List (Str × SchemaNode) := s.names.zip s.listed.children

section Runs

variable (P : Platform) (c : SchemaCompiler) (depth : ℕ) (members : List (Str × Json))
  (t : Tally ValidationError EvaluationContext)

/-- The calls a statement makes once the nodes in front of it have been visited. -/
def madeAfter (front : List SchemaNode) (p : MemberStatement) : List MemberCheck :=
  match (visitAll (.obj members) front).run (runCalls (validate_node P c) depth) t with
  | .ok t' => p.callsMade (fun m => runCalls (validate_node P c) depth m.call) t'
  | .error _ => []

/-- The checks of the members by the two nodes, in a run over the nodes of the schema object. -/
def made : List MemberCheck :=
  madeAfter P c depth members t s.before (checkProperties members s.entries) ++
    madeAfter P c depth members t (s.before ++ s.listed :: s.between) (checkOthers members s.other.children)

/-- The checks of the members as the schema object says: against all that stands under the member's own
name, or against `additionalProperties`. -/
def expected : List MemberCheck :=
  (s.entries.flatMap fun e => (members.filter fun m => m.1 = e.1).flatMap fun m =>
      e.2.children.map (checkBy m (some e.1))) ++
    (members.filter fun m => m.1 ∉ s.names).flatMap fun m => s.other.children.map (checkBy m none)

/-- The members are checked as the schema object says. -/
def Routed : Prop := (s.made P c depth members t).Perm (s.expected members)

/-- Whenever `additionalProperties` comes to a member, its name has been noted exactly if it is listed. -/
def InTurn : Prop :=
  ∀ pre m post t₁ t₂, members = pre ++ m :: post →
    (visitAll (.obj members) (s.before ++ s.listed :: s.between)).run (runCalls (validate_node P c) depth) t =
      .ok t₁ →
    (validateOtherProperties (.obj pre) s.other.children).run (runCalls (validate_node P c) depth) t₁ = .ok t₂ →
      (m.1 ∈ t₂.notes.evaluated_properties ↔ m.1 ∈ s.names)

end Runs

end Listing

/-- The member of that name, and no other, is found by what stands after the name's last slash. -/
def Recovered (members : List (Str × Json)) (name : Str) : Prop :=
  if '/' ∈ name then name ∉ Record.keys members ∧ lastPart name ∉ Record.keys members
  else (members.filter fun m => m.1 = name).length ≤ 1

/-! ### The members of the entries -/

section Entries

variable {members : List (Str × Json)}

def entryChecks (members : List (Str × Json)) (e : Str × SchemaNode) : List MemberCheck :=
  match Record.find members (lastPart e.1) with
  | none => []
  | some prop_value => e.2.children.map (checkBy (lastPart e.1, prop_value) (some e.1))

def entryExpected (members : List (Str × Json)) (e : Str × SchemaNode) : List MemberCheck :=
  (members.filter fun m => m.1 = e.1).flatMap fun m => e.2.children.map (checkBy m (some e.1))

theorem callsMade_checkProperties {call : MemberCheck → Tally ValidationError EvaluationContext →
      Except (Stop Abort) (Tally ValidationError EvaluationContext)} {entries : List (Str × SchemaNode)}
    (hnames : ∀ e ∈ entries, lastSegment e.2.uri = lastPart e.1) {t t' : Tally ValidationError EvaluationContext}
    (hrun : (checkProperties members entries).run call t = .ok t') :
    (checkProperties members entries).callsMade call t = entries.flatMap (entryChecks members) := by
  refine Check.callsMade_all (fun e he t t' hentry => ?_) hrun
  unfold checkProperty entryChecks at *
  simp only [hnames e he] at hentry ⊢
  cases hfind : Record.find members (lastPart e.1) with
  | none => rfl
  | some prop_value =>
    simp only [hfind] at hentry ⊢
    set visits : MemberStatement :=
      .all (e.2.children.map fun child => .call (checkBy (lastPart e.1, prop_value) (some e.1) child))
    cases hvisits : visits.run call t with
    | error a =>
      rw [Check.run, hvisits] at hentry
      cases hentry
    | ok t₁ =>
      have hcalls : visits.callsMade call t =
          e.2.children.flatMap fun child => [checkBy (lastPart e.1, prop_value) (some e.1) child] :=
        Check.callsMade_all (fun _ _ _ _ _ => rfl) hvisits
      rw [Check.callsMade_seq hvisits, hcalls, ← List.map_eq_flatMap]
      exact List.append_nil _

theorem entryChecks_of_nil {e : Str × SchemaNode} (h : e.2.children = []) :
    entryChecks members e = entryExpected members e := by
  unfold entryChecks entryExpected
  rw [h]
  cases Record.find members (lastPart e.1) <;> simp

theorem entryChecks_eq {e : Str × SchemaNode} (h : Recovered members e.1) :
    entryChecks members e = entryExpected members e := by
  unfold Recovered at h
  unfold entryChecks entryExpected
  split at h
  · rename_i hslash
    have hnone : (members.filter fun m => m.1 = e.1) = [] := by
      refine List.filter_eq_nil_iff.mpr fun m hm hname => h.1 ?_
      rw [← of_decide_eq_true hname]
      exact List.mem_map_of_mem hm
    rw [Record.find_eq_none.mpr h.2, hnone, List.flatMap_nil]
  · rename_i hslash
    rw [lastPart_of_notMem hslash, Record.filter_key h]
    cases Record.find members e.1 with
    | none => rfl
    | some prop_value => exact (List.append_nil _).symm

theorem entryChecks_labels {e : Str × SchemaNode} {k : MemberCheck} (h : k ∈ entryChecks members e) :
    k.listed = some e.1 ∧ k.name = lastPart e.1 := by
  unfold entryChecks at h
  cases hfind : Record.find members (lastPart e.1) with
  | none =>
    rw [hfind] at h
    cases h
  | some prop_value =>
    rw [hfind] at h
    obtain ⟨child, -, rfl⟩ := List.mem_map.mp h
    exact ⟨rfl, rfl⟩

theorem entryExpected_labels {e : Str × SchemaNode} {k : MemberCheck} (h : k ∈ entryExpected members e) :
    k.listed = some e.1 ∧ k.name = e.1 := by
  obtain ⟨m, hm, hk⟩ := List.mem_flatMap.mp h
  obtain ⟨child, -, rfl⟩ := List.mem_map.mp hk
  exact ⟨rfl, of_decide_eq_true (List.mem_filter.mp hm).2⟩

theorem length_entryChecks_le (members : List (Str × Json)) (e : Str × SchemaNode) :
    (entryChecks members e).length ≤ e.2.children.length := by
  unfold entryChecks
  cases Record.find members (lastPart e.1) with
  | none => exact Nat.zero_le _
  | some prop_value => exact (List.length_map ..).le

theorem length_entryExpected (members : List (Str × Json)) (e : Str × SchemaNode) :
    (entryExpected members e).length = (members.filter fun m => m.1 = e.1).length * e.2.children.length := by
  unfold entryExpected
  rw [List.length_flatMap]
  simp

/-- How many of the calls for one entry are labelled with a name. -/
theorem countP_listed {l : List MemberCheck} {name name' : Str} (h : ∀ k ∈ l, k.listed = some name') :
    l.countP (fun k => k.listed = some name) = if name' = name then l.length else 0 := by
  split
  · rename_i hname
    exact List.countP_eq_length.mpr fun k hk => by simp [h k hk, hname]
  · rename_i hname
    exact List.countP_eq_zero.mpr fun k hk => by simp [h k hk, hname]

/-- Where the members are checked as they should be, the names are recovered. -/
theorem recovered_of_perm {entries : List (Str × SchemaNode)}
    (h : (entries.flatMap (entryChecks members)).Perm (entries.flatMap (entryExpected members)))
    {e : Str × SchemaNode} (he : e ∈ entries) (hchildren : e.2.children ≠ []) : Recovered members e.1 := by
  obtain ⟨child, hchild⟩ := List.exists_mem_of_ne_nil _ hchildren
  unfold Recovered
  split
  · rename_i hslash
    have hne : lastPart e.1 ≠ e.1 := by
      intro heq
      have hnotMem := slash_notMem_lastPart e.1
      rw [heq] at hnotMem
      exact hnotMem hslash
    constructor
    · -- the member should be checked, and no check is made for it
      intro hmem
      obtain ⟨v, hv⟩ := Record.mem_of_mem_keys hmem
      have hexpected : checkBy (e.1, v) (some e.1) child ∈ entries.flatMap (entryExpected members) := by
        refine List.mem_flatMap.mpr ⟨e, he, List.mem_flatMap.mpr ⟨(e.1, v), ?_, List.mem_map_of_mem hchild⟩⟩
        exact List.mem_filter.mpr ⟨hv, by simp⟩
      obtain ⟨e', -, hmade⟩ := List.mem_flatMap.mp (h.mem_iff.mpr hexpected)
      obtain ⟨hlisted, hname⟩ := entryChecks_labels hmade
      rw [← Option.some.inj hlisted] at hname
      exact hne hname.symm
    · -- another member is checked in its place
      intro hmem
      obtain ⟨v, hv⟩ := Option.ne_none_iff_exists'.mp fun hnone => Record.find_eq_none.mp hnone hmem
      have hmade : checkBy (lastPart e.1, v) (some e.1) child ∈ entries.flatMap (entryChecks members) := by
        refine List.mem_flatMap.mpr ⟨e, he, ?_⟩
        rw [entryChecks, hv]
        exact List.mem_map_of_mem hchild
      obtain ⟨e', -, hexpected⟩ := List.mem_flatMap.mp (h.mem_iff.mp hmade)
      obtain ⟨hlisted, hname⟩ := entryExpected_labels hexpected
      rw [← Option.some.inj hlisted] at hname
      exact hne hname
  · -- of two members with the name, one is not checked
    by_contra hmany
    have hpos : 0 < e.2.children.length := List.length_pos_of_mem hchild
    have hcount := h.countP_eq fun k => k.listed = some e.1
    rw [List.countP_flatMap, List.countP_flatMap] at hcount
    refine absurd hcount (List.sum_lt_sum _ _ (fun e' _ => ?_) ⟨e, he, ?_⟩).ne
    · show (entryChecks members e').countP _ ≤ (entryExpected members e').countP _
      rw [countP_listed fun k hk => (entryChecks_labels hk).1, countP_listed fun k hk => (entryExpected_labels hk).1]
      split
      · rename_i hname
        rw [length_entryExpected, hname]
        refine (length_entryChecks_le members e').trans (Nat.le_mul_of_pos_left _ (by omega))
      · exact le_rfl
    · show (entryChecks members e).countP _ < (entryExpected members e).countP _
      rw [countP_listed fun k hk => (entryChecks_labels hk).1, countP_listed fun k hk => (entryExpected_labels hk).1,
        if_pos rfl, if_pos rfl, length_entryExpected]
      refine (length_entryChecks_le members e).trans_lt ?_
      calc e.2.children.length
        _ < 2 * e.2.children.length := by omega
        _ ≤ _ := Nat.mul_le_mul_right _ (by omega)

end Entries

/-! ### The other members -/

section Others

variable {call : MemberCheck → Tally ValidationError EvaluationContext →
    Except (Stop Abort) (Tally ValidationError EvaluationContext)} {child : SchemaNode} {names : List Str}

theorem callsMade_checkOther (m : Str × Json) (t : Tally ValidationError EvaluationContext) :
    (checkOther child m).callsMade call t =
      if m.1 ∈ t.notes.evaluated_properties then [] else [checkBy m none child] := by
  unfold checkOther
  rw [Check.callsMade]
  simp only [decide_eq_true_eq]
  split <;> rfl

/-- Members that are not noted are checked in their order. -/
theorem sublist_checkOther (members : List (Str × Json)) (t : Tally ValidationError EvaluationContext) :
    ((Check.all (members.map (checkOther child))).callsMade call t).Sublist
      (members.map fun m => checkBy m none child) := by
  induction members generalizing t with
  | nil => exact .refl _
  | cons m rest ih =>
    rw [List.map_cons, List.map_cons, Check.all_cons, Check.callsMade, callsMade_checkOther]
    show List.Sublist _ ([checkBy m none child] ++ rest.map fun m => checkBy m none child)
    refine List.Sublist.append ?_ ?_
    · split
      · exact List.nil_sublist _
      · exact .refl _
    · cases (checkOther child m).run call t with
      | error a => exact List.nil_sublist _
      | ok t' => exact ih t'

theorem checkOthers_label {members : List (Str × Json)} {children : List SchemaNode}
    {t : Tally ValidationError EvaluationContext} {k : MemberCheck}
    (h : k ∈ (checkOthers members children).callsMade call t) : k.listed = none := by
  cases children with
  | nil => cases h
  | cons child rest =>
    obtain ⟨m, -, rfl⟩ := List.mem_map.mp ((sublist_checkOther members t).subset h)
    rfl

/-- Where each name has been noted exactly if it is listed, the members that are not listed are checked. -/
theorem callsMade_of_inTurn : ∀ {members : List (Str × Json)} {t t' : Tally ValidationError EvaluationContext},
    (∀ pre m post t₁, members = pre ++ m :: post →
      (Check.all (pre.map (checkOther child))).run call t = .ok t₁ →
        (m.1 ∈ t₁.notes.evaluated_properties ↔ m.1 ∈ names)) →
      (Check.all (members.map (checkOther child))).run call t = .ok t' →
        (Check.all (members.map (checkOther child))).callsMade call t =
          (members.filter fun m => m.1 ∉ names).map fun m => checkBy m none child := by
  intro members
  induction members with
  | nil => exact fun _ _ => rfl
  | cons m rest ih =>
    intro t t' hturn hrun
    have hfirst := hturn [] m rest t rfl rfl
    rw [List.map_cons, Check.all_cons] at hrun ⊢
    cases hm : (checkOther child m).run call t with
    | error a =>
      rw [Check.run, hm] at hrun
      cases hrun
    | ok t₁ =>
      rw [Check.run, hm] at hrun
      have hlater : ∀ pre m' post t₂, rest = pre ++ m' :: post →
          (Check.all (pre.map (checkOther child))).run call t₁ = .ok t₂ →
            (m'.1 ∈ t₂.notes.evaluated_properties ↔ m'.1 ∈ names) := by
        intro pre m' post t₂ heq hpre
        refine hturn (m :: pre) m' post t₂ (by rw [heq]; rfl) ?_
        rw [List.map_cons, Check.all_cons, Check.run, hm]
        exact hpre
      have hrest := ih hlater hrun
      rw [Check.callsMade_seq hm, hrest, callsMade_checkOther]
      by_cases hlisted : m.1 ∈ names
      · rw [if_pos (hfirst.mpr hlisted), List.filter_cons_of_neg (by simpa using hlisted)]
        rfl
      · rw [if_neg fun h => hlisted (hfirst.mp h), List.filter_cons_of_pos (by simpa using hlisted)]
        rfl

theorem sublist_flatMap_cons {α β : Type} (l : List α) (f : α → β) (g : α → List β) :
    (l.map f).Sublist (l.flatMap fun a => f a :: g a) := by
  induction l with
  | nil => exact .refl _
  | cons a l ih => exact .cons_cons _ (ih.trans (List.sublist_append_right _ _))

/-- Where the members that are not listed are checked, and no others, each name has been noted exactly if it
is listed. -/
theorem inTurn_of_perm {members : List (Str × Json)} {rest : List SchemaNode}
    {t : Tally ValidationError EvaluationContext}
    (h : ((Check.all (members.map (checkOther child))).callsMade call t).Perm
      ((members.filter fun m => m.1 ∉ names).flatMap fun m => (child :: rest).map (checkBy m none)))
    {pre post : List (Str × Json)} {m : Str × Json} {t₁ : Tally ValidationError EvaluationContext}
    (hmembers : members = pre ++ m :: post)
    (hpre : (Check.all (pre.map (checkOther child))).run call t = .ok t₁) :
    m.1 ∈ t₁.notes.evaluated_properties ↔ m.1 ∈ names := by
  have hcalls : (Check.all (members.map (checkOther child))).callsMade call t =
      (Check.all (pre.map (checkOther child))).callsMade call t ++
        (Check.all ((m :: post).map (checkOther child))).callsMade call t₁ := by
    rw [hmembers, List.map_append]
    exact Check.callsMade_append hpre
  rw [List.map_cons, Check.all_cons, Check.callsMade, callsMade_checkOther] at hcalls
  constructor
  · -- the member itself would be missing
    intro hnoted
    by_contra hlisted
    rw [if_pos hnoted, List.nil_append] at hcalls
    have hrun : (checkOther child m).run call t₁ = .ok t₁ := by
      unfold checkOther
      rw [Check.run, if_pos (by simpa using hnoted)]
    rw [hrun] at hcalls
    have hsub : ((Check.all (members.map (checkOther child))).callsMade call t).Sublist
        ((pre ++ post).map fun m => checkBy m none child) := by
      rw [hcalls, List.map_append]
      exact (sublist_checkOther pre t).append (sublist_checkOther post t₁)
    have hfewer : _ ≤ _ := hsub.countP_le (p := fun k => k.name = m.1)
    have hmore : _ ≤ _ := (sublist_flatMap_cons (members.filter fun m => m.1 ∉ names) (fun m => checkBy m none child)
      fun m => rest.map (checkBy m none)).countP_le (p := fun k => k.name = m.1)
    have hunlisted : (members.filter fun m => m.1 ∉ names).countP (fun m' => m'.1 = m.1) =
        members.countP fun m' => m'.1 = m.1 := by
      rw [List.countP_filter]
      refine List.countP_congr fun m' _ => ?_
      simp only [Bool.and_eq_true, decide_eq_true_eq]
      exact ⟨fun h => h.1, fun hname => ⟨hname, by rwa [hname]⟩⟩
    have hcount := h.countP_eq fun k => k.name = m.1
    rw [List.countP_map] at hfewer hmore
    have hsame : ((fun k : MemberCheck => decide (k.name = m.1)) ∘ fun m => checkBy m none child) =
        fun m' => decide (m'.1 = m.1) := rfl
    rw [hsame] at hfewer hmore
    have hmember : members.countP (fun m' => m'.1 = m.1) =
        pre.countP (fun m' => m'.1 = m.1) + (post.countP (fun m' => m'.1 = m.1) + 1) := by
      rw [hmembers, List.countP_append, List.countP_cons_of_pos (by simp)]
    rw [hunlisted, hmember] at hmore
    rw [List.countP_append] at hfewer
    simp only [List.map_cons] at hcount
    omega
  · -- a listed member would be checked
    intro hlisted
    by_contra hnoted
    rw [if_neg hnoted] at hcalls
    have hmade : checkBy m none child ∈ (Check.all (members.map (checkOther child))).callsMade call t := by
      rw [hcalls]
      simp
    obtain ⟨m', hm', hk⟩ := List.mem_flatMap.mp (h.mem_iff.mp hmade)
    obtain ⟨child', -, hk⟩ := List.mem_map.mp hk
    have hname : m'.1 = m.1 := congrArg MemberCheck.name hk
    have hnot := of_decide_eq_true (List.mem_filter.mp hm').2
    rw [hname] at hnot
    exact hnot hlisted

theorem perm_others_iff {members : List (Str × Json)} {children : List SchemaNode}
    {t t' : Tally ValidationError EvaluationContext} (hrun : (checkOthers members children).run call t = .ok t') :
    ((checkOthers members children).callsMade call t).Perm
        ((members.filter fun m => m.1 ∉ names).flatMap fun m => children.map (checkBy m none)) ↔
      children = [] ∨
        (∀ pre m post t₁, members = pre ++ m :: post → (checkOthers pre children).run call t = .ok t₁ →
            (m.1 ∈ t₁.notes.evaluated_properties ↔ m.1 ∈ names)) ∧
          (children.length = 1 ∨ ∀ m ∈ members, m.1 ∈ names) := by
  cases children with
  | nil =>
    constructor
    · exact fun _ => .inl rfl
    · intro _
      have hnone : ((members.filter fun m => m.1 ∉ names).flatMap fun m => ([] : List SchemaNode).map
          (checkBy m none)) = [] := by
        simp
      rw [hnone]
      exact .refl _
  | cons child rest =>
    constructor
    · intro h
      have hturn : ∀ pre m post t₁, members = pre ++ m :: post →
          (checkOthers pre (child :: rest)).run call t = .ok t₁ →
            (m.1 ∈ t₁.notes.evaluated_properties ↔ m.1 ∈ names) :=
        fun pre m post t₁ hmembers hpre => inTurn_of_perm h hmembers hpre
      refine .inr ⟨hturn, ?_⟩
      -- a further node under `additionalProperties` would be missing
      have hlength := h.length_eq
      rw [show (checkOthers members (child :: rest)).callsMade call t = _ from callsMade_of_inTurn hturn hrun,
        List.length_map, List.length_flatMap] at hlength
      by_cases hall : ∀ m ∈ members, m.1 ∈ names
      · exact .inr hall
      push Not at hall
      obtain ⟨m, hm, hunlisted⟩ := hall
      have hpos : 0 < (members.filter fun m => m.1 ∉ names).length :=
        List.length_pos_of_mem (List.mem_filter.mpr ⟨hm, by simpa using hunlisted⟩)
      left
      simp only [List.length_map, List.map_const', List.sum_replicate_nat] at hlength
      exact Nat.eq_of_mul_eq_mul_left hpos (by rw [Nat.mul_one, ← hlength])
    · rintro (h | ⟨hturn, hone⟩)
      · cases h
      rw [show (checkOthers members (child :: rest)).callsMade call t = _ from callsMade_of_inTurn hturn hrun]
      rcases hone with hone | hall
      · obtain rfl := List.length_eq_zero_iff.mp (Nat.succ_injective hone)
        simp only [List.map_singleton, ← List.map_eq_flatMap]
        exact .refl _
      · have hnone : (members.filter fun m => m.1 ∉ names) = [] :=
          List.filter_eq_nil_iff.mpr fun m hm => by simpa using hall m hm
        rw [hnone]
        exact .refl _

end Others

/-! ### Routing -/

theorem perm_labels {l₁ l₂ l₁' l₂' : List MemberCheck} (h₁ : ∀ k ∈ l₁, k.listed.isSome)
    (h₂ : ∀ k ∈ l₂, k.listed = none) (h₁' : ∀ k ∈ l₁', k.listed.isSome) (h₂' : ∀ k ∈ l₂', k.listed = none) :
    (l₁ ++ l₂).Perm (l₁' ++ l₂') ↔ l₁.Perm l₁' ∧ l₂.Perm l₂' := by
  have hsome : ∀ {l l' : List MemberCheck}, (∀ k ∈ l, k.listed.isSome) → (∀ k ∈ l', k.listed = none) →
      (l ++ l').filter (fun k => k.listed.isSome) = l := by
    intro l l' h h'
    rw [List.filter_append, List.filter_eq_self.mpr h,
      List.filter_eq_nil_iff.mpr fun k hk => by simp [h' k hk], List.append_nil]
  have hnone : ∀ {l l' : List MemberCheck}, (∀ k ∈ l, k.listed.isSome) → (∀ k ∈ l', k.listed = none) →
      (l ++ l').filter (fun k => k.listed.isNone) = l' := by
    intro l l' h h'
    rw [List.filter_append, List.filter_eq_nil_iff.mpr fun k hk => by simp [← Option.not_isSome, h k hk],
      List.filter_eq_self.mpr fun k hk => by simp [h' k hk], List.nil_append]
  constructor
  · intro h
    have hl := h.filter fun k => k.listed.isSome
    have hr := h.filter fun k => k.listed.isNone
    rw [hsome h₁ h₂, hsome h₁' h₂'] at hl
    rw [hnone h₁ h₂, hnone h₁' h₂'] at hr
    exact ⟨hl, hr⟩
  · exact fun ⟨hl, hr⟩ => hl.append hr

theorem run_visitAll_append {P : Platform} {c : SchemaCompiler} {depth : ℕ} (x : Json) (nodes nodes' : List SchemaNode)
    (t : Tally ValidationError EvaluationContext) :
    (visitAll x (nodes ++ nodes')).run (runCalls (validate_node P c) depth) t =
      ((visitAll x nodes).run (runCalls (validate_node P c) depth) t).bind
        ((visitAll x nodes').run (runCalls (validate_node P c) depth)) := by
  unfold visitAll
  rw [List.map_append, Check.run_all_append]

theorem run_of_visit {P : Platform} {c : SchemaCompiler} {depth : ℕ} {x : Json} {node : SchemaNode}
    {t t' : Tally ValidationError EvaluationContext}
    (h : (visit x node).run (runCalls (validate_node P c) depth) t = .ok t') :
    (validate_node P c ⟨node, x, node.uri.to_string⟩).run (runCalls (validate_node P c) depth) t = .ok t' := by
  cases depth with
  | zero => cases h
  | succ depth => exact Check.run_mono (Nat.le_succ depth) h

theorem Listing.entries_of_tabled {nodes : List SchemaNode} (s : Listing nodes)
    (h : List.Forall₂ (fun name child => child.uri = .parse (s.listed.uri.to_string ++ '/' :: name)) s.names
      s.listed.children) :
    (∀ e ∈ s.entries, lastSegment e.2.uri = lastPart e.1) ∧ s.entries.map Prod.snd = s.listed.children := by
  refine ⟨fun e he => ?_, List.map_snd_zip h.length_eq.ge⟩
  rw [List.forall₂_iff_zip] at h
  rw [h.2 he, lastSegment_entry]

/-- What a returning run over the nodes comes to: the two nodes, each in its state. -/
theorem Listing.runs {nodes : List SchemaNode} (s : Listing nodes) {P : Platform} {c : SchemaCompiler} {depth : ℕ}
    {members : List (Str × Json)} {t t' : Tally ValidationError EvaluationContext}
    (hrun : (visitAll (.obj members) nodes).run (runCalls (validate_node P c) depth) t = .ok t') :
    ∃ t₁ t₁' t₂ t₂',
      (visitAll (.obj members) s.before).run (runCalls (validate_node P c) depth) t = .ok t₁ ∧
      (validateProperties (.obj members) s.listed.children).run (runCalls (validate_node P c) depth) t₁ = .ok t₁' ∧
      (visitAll (.obj members) (s.before ++ s.listed :: s.between)).run (runCalls (validate_node P c) depth) t =
        .ok t₂ ∧
      (validateOtherProperties (.obj members) s.other.children).run (runCalls (validate_node P c) depth) t₂ =
        .ok t₂' := by
  rw [s.nodes_eq, show s.before ++ s.listed :: (s.between ++ s.other :: s.after) =
    (s.before ++ s.listed :: s.between) ++ (s.other :: s.after) by simp, run_visitAll_append] at hrun
  obtain ⟨t₂, hfront, hrun⟩ := bind_eq_ok.mp hrun
  obtain ⟨t₂', hother, -⟩ := bind_eq_ok.mp hrun
  have hfront' := hfront
  rw [run_visitAll_append] at hfront'
  obtain ⟨t₁, hbefore, hlisted⟩ := bind_eq_ok.mp hfront'
  obtain ⟨t₁', hlisted, -⟩ := bind_eq_ok.mp hlisted
  have hlisted := run_of_visit hlisted
  have hother := run_of_visit hother
  unfold validate_node at hlisted hother
  simp only [s.properties] at hlisted
  simp only [s.additional] at hother
  exact ⟨t₁, t₁', t₂, t₂', hbefore, hlisted, hfront, hother⟩

/-- **When members are checked against their own subschemas.**  In a run over the nodes of a schema object,
each member is checked as the schema object says, if and only if the names in `properties` are recovered,
and the members have been noted that are listed, and no others, whenever `additionalProperties` comes to
one. -/
theorem members_routed_iff {schema : Json} {c : SchemaCompiler} (hc : compile schema = .ok c) {node : SchemaNode}
    (hnode : node ∈ c.root_node_.preorder) (s : Listing node.children) {P : Platform} {depth : ℕ}
    {members : List (Str × Json)} {t t' : Tally ValidationError EvaluationContext}
    (hrun : (visitAll (.obj members) node.children).run (runCalls (validate_node P c) depth) t = .ok t') :
    s.Routed P c depth members t ↔
      (∀ e ∈ s.entries, e.2.children = [] ∨ Recovered members e.1) ∧
        (s.other.children = [] ∨
          s.InTurn P c depth members t ∧ (s.other.children.length = 1 ∨ ∀ m ∈ members, m.1 ∈ s.names)) := by
  have htabled := tabled_of_compile hc s.listed
    (child_mem_preorder_of_mem hnode s.listed_mem) s.properties
  obtain ⟨hnames, hentries⟩ := s.entries_of_tabled htabled
  obtain ⟨t₁, t₁', t₂, t₂', hbefore, hlisted, hfront, hother⟩ := s.runs hrun
  set call := fun m : MemberCheck => runCalls (validate_node P c) depth m.call
  have hothers : ∀ pre, (checkOthers pre s.other.children).run call =
      (validateOtherProperties (.obj pre) s.other.children).run (runCalls (validate_node P c) depth) := by
    intro pre
    rw [← forget_checkOthers, Check.run_mapCalls]
  rw [← hentries, ← forget_checkProperties, Check.run_mapCalls] at hlisted
  rw [← hothers] at hother
  have hinTurn : s.InTurn P c depth members t ↔ ∀ pre m post t₁, members = pre ++ m :: post →
      (checkOthers pre s.other.children).run call t₂ = .ok t₁ →
        (m.1 ∈ t₁.notes.evaluated_properties ↔ m.1 ∈ s.names) := by
    unfold Listing.InTurn
    constructor
    · intro h pre m post t₁ hmembers hpre
      rw [hothers] at hpre
      exact h pre m post t₂ t₁ hmembers hfront hpre
    · intro h pre m post u u' hmembers hu hpre
      obtain rfl : t₂ = u := by
        rw [hfront] at hu
        exact Except.ok.inj hu
      rw [← hothers] at hpre
      exact h pre m post u' hmembers hpre
  have hmade : s.made P c depth members t =
      s.entries.flatMap (entryChecks members) ++ (checkOthers members s.other.children).callsMade call t₂ := by
    unfold Listing.made Listing.madeAfter
    rw [hbefore, hfront]
    exact congrArg (· ++ _) (callsMade_checkProperties hnames hlisted)
  unfold Listing.Routed
  rw [hmade, hinTurn, ← perm_others_iff hother]
  refine (perm_labels ?_ ?_ ?_ ?_).trans (and_congr_left fun _ => ?_)
  · intro k hk
    obtain ⟨e, -, hk⟩ := List.mem_flatMap.mp hk
    rw [(entryChecks_labels hk).1]
    rfl
  · exact fun k hk => checkOthers_label hk
  · intro k hk
    obtain ⟨e, -, hk⟩ := List.mem_flatMap.mp hk
    rw [(entryExpected_labels hk).1]
    rfl
  · intro k hk
    obtain ⟨m, -, hk⟩ := List.mem_flatMap.mp hk
    obtain ⟨child, -, rfl⟩ := List.mem_map.mp hk
    rfl
  constructor
  · intro h e he
    by_cases hchildren : e.2.children = []
    · exact .inl hchildren
    · exact .inr (recovered_of_perm h he hchildren)
  · intro h
    have hsame : s.entries.flatMap (entryChecks members) = s.entries.flatMap (entryExpected members) := by
      refine List.flatMap_congr fun e he => ?_
      rcases h e he with hchildren | hrecovered
      · exact entryChecks_of_nil hchildren
      · exact entryChecks_eq hrecovered
    rw [hsame]
    exact .refl _

/-! ### A schema object -/

def Listing.pair {listed other : SchemaNode} (properties : listed.keyword = .Properties)
    (additional : other.keyword = .AdditionalProperties) : Listing [listed, other] :=
  ⟨[], listed, [], other, [], rfl, properties, additional⟩

/-- An object `a` with a text `b`, and integers besides. -/
def nestedSchema : Json := .obj
  [("properties".toList, .obj
      [("a".toList, .obj [("properties".toList, .obj [("b".toList, .obj [("type".toList, .str "string".toList)])])])]),
    ("additionalProperties".toList, .obj [("type".toList, .str "integer".toList)])]

/-- The object has a text `b` itself. -/
def nestedInstance : List (Str × Json) :=
  [("a".toList, .obj [("b".toList, .str "s".toList)]), ("b".toList, .str "x".toList)]

/-- The text `b` is not listed, and it is accepted. -/
theorem nested_members_missed : ∃ c listed other, compile nestedSchema = .ok c ∧
    c.root_node_.children = [listed, other] ∧
    validate wholeNumbers c 6 (.obj nestedInstance) = .ok true ∧
    ∃ (properties : listed.keyword = .Properties) (additional : other.keyword = .AdditionalProperties),
      ¬ (Listing.pair properties additional).Routed wholeNumbers c 6 nestedInstance ⟨[], {}⟩ := by
  refine ⟨_, _, _, rfl, rfl, by decide, rfl, rfl, fun h => ?_⟩
  have hlength := h.length_eq
  revert hlength
  decide

/-- With another name, it is checked. -/
theorem nested_members_routed : ∃ c listed other, compile nestedSchema = .ok c ∧
    c.root_node_.children = [listed, other] ∧
    ∃ (properties : listed.keyword = .Properties) (additional : other.keyword = .AdditionalProperties),
      (Listing.pair properties additional).Routed wholeNumbers c 6
        [("a".toList, .obj [("b".toList, .str "s".toList)]), ("c".toList, .int 1)] ⟨[], {}⟩ := by
  refine ⟨_, _, _, rfl, rfl, rfl, rfl, ?_⟩
  refine (@members_routed_iff nestedSchema _ rfl _ (self_mem_preorder _) (Listing.pair rfl rfl) wholeNumbers 6 _
    ⟨[], {}⟩ _ rfl).mpr ⟨?_, .inr ⟨?_, .inl rfl⟩⟩
  · intro e he
    obtain rfl := List.mem_singleton.mp he
    exact .inr (by unfold Recovered; decide)
  · intro pre m post t₁ t₂ hmembers hfront hpre
    obtain rfl := Except.ok.inj hfront
    rcases pre with _ | ⟨first, pre⟩
    · obtain ⟨rfl, -⟩ := List.cons.inj hmembers
      obtain rfl := Except.ok.inj hpre
      decide
    obtain ⟨rfl, hrest⟩ := List.cons.inj hmembers
    rcases pre with _ | ⟨second, pre⟩
    · obtain ⟨rfl, -⟩ := List.cons.inj hrest
      obtain rfl := Except.ok.inj hpre
      decide
    · simp at hrest

end Siesta.JsonSchema
