import Siesta.JsonSchema.PlainSchemas
import Siesta.Lib.DataTree

/-!
# Which values `json_equal` takes for equal

`json_equal` looks the members of its first object up in the second, and not the other way round: on
values whose numbers are exact it decides the order of `Lib.DataTree`, in which a value lies below
another that has more members.  `uniqueItems` compares the texts of the items instead, which differ
when the members stand in another order.
-/

namespace Siesta.JsonSchema

open Lib

/-! ### Values with exact numbers -/

mutual

/-- The numbers in the value are integers below `2 ^ 53` in magnitude. -/
def Integral : Json → Prop
  | .int i => -2 ^ 53 < i ∧ i < 2 ^ 53
  | .double _ => False
  | .arr items => ItemsIntegral items
  | .obj members => MembersIntegral members
  | _ => True

def ItemsIntegral : List Json → Prop
  | [] => True
  | x :: items => Integral x ∧ ItemsIntegral items

def MembersIntegral : List (Str × Json) → Prop
  | [] => True
  | (_, x) :: members => Integral x ∧ MembersIntegral members

end

theorem MembersIntegral.of_find {k : Str} {y : Json} : ∀ {members : List (Str × Json)},
    MembersIntegral members → Record.find members k = some y → Integral y
  | [], _, hfind => by simp [Record.find] at hfind
  | (key, x) :: members, h, hfind => by
    rw [Record.find_cons] at hfind
    split at hfind
    · exact Option.some.inj hfind ▸ h.1
    · exact MembersIntegral.of_find h.2 hfind

/-- A value with exact numbers, in which no object writes a key twice. -/
structure ExactValue where
  val : Json
  integral : Integral val
  distinct : DistinctKeys val

/-- Integers below `2 ^ 53` in magnitude are doubles of their own, at least `1` apart. -/
def ExactIntegers (P : Platform) : Prop :=
  ∀ i j : ℤ, -2 ^ 53 < i → i < 2 ^ 53 → -2 ^ 53 < j → j < 2 ^ 53 →
    (P.near (P.ofInt i) (P.ofInt j) = true ↔ i = j)

/-! ### What a value means -/

/-- A value that is no array and no object. -/
inductive Scalar where
  | null
  | bool (b : Bool)
  | int (i : ℤ)
  | double (text : Str)
  | str (s : Str)

mutual

/-- The value, with its objects as maps. -/
def meaning : Json → DataTree Scalar Str
  | .null => .leaf .null
  | .bool b => .leaf (.bool b)
  | .int i => .leaf (.int i)
  | .double text => .leaf (.double text)
  | .str s => .leaf (.str s)
  | .arr items => .seq (itemMeanings items)
  | .obj members => .map (memberMeaning members)

def itemMeanings : List Json → List (DataTree Scalar Str)
  | [] => []
  | x :: items => meaning x :: itemMeanings items

def memberMeaning : List (Str × Json) → Str → Option (DataTree Scalar Str)
  | [], _ => none
  | (key, x) :: members, k => if k = key then some (meaning x) else memberMeaning members k

end

theorem memberMeaning_eq (k : Str) (members : List (Str × Json)) :
    memberMeaning members k = (Record.find members k).map meaning := by
  induction members with
  | nil => rfl
  | cons member members ih =>
    rw [Record.find_cons, memberMeaning, ih]
    split <;> rfl

/-- One object lies below another if the other has all of its members, with at least these values. -/
theorem meaning_obj_le {members members' : List (Str × Json)} (hnodup : (Record.keys members).Nodup) :
    meaning (.obj members) ≤ meaning (.obj members') ↔ ∀ k x, (k, x) ∈ members →
      ∃ y, Record.find members' k = some y ∧ meaning x ≤ meaning y := by
  show DataTree.map (memberMeaning members) ≤ .map (memberMeaning members') ↔ _
  simp only [DataTree.map_le_map, memberMeaning_eq, Option.map_eq_some_iff]
  constructor
  · intro h k x hx
    obtain ⟨-, ⟨y, hy, rfl⟩, hle⟩ := h k _ ⟨x, Record.find_of_mem hnodup hx, rfl⟩
    exact ⟨y, hy, hle⟩
  · rintro h k - ⟨x, hx, rfl⟩
    obtain ⟨y, hy, hle⟩ := h k x (Record.mem_of_find hx)
    exact ⟨_, ⟨y, hy, rfl⟩, hle⟩

/-! ### `json_equal` decides the order -/

theorem json_equal_int_iff {P : Platform} (hexact : ExactIntegers P) {i : ℤ} (hi : Integral (.int i)) {b : Json}
    (hb : Integral b) : json_equal P (.int i) b = true ↔ meaning b = .leaf (.int i) := by
  cases b with
  | int j =>
    obtain ⟨hi₁, hi₂⟩ : -2 ^ 53 < i ∧ i < 2 ^ 53 := hi
    obtain ⟨hj₁, hj₂⟩ : -2 ^ 53 < j ∧ j < 2 ^ 53 := hb
    have htype : ∀ {k : ℤ}, k < 2 ^ 53 → elementType (.int k) = .INT64 := fun hk => if_pos (by omega)
    simp only [json_equal, htype hi₂, htype hj₂, decide_true, Bool.true_and, meaning, DataTree.leaf.injEq, Scalar.int.injEq,
      hexact i j hi₁ hi₂ hj₁ hj₂]
    exact eq_comm
  | _ => simp [json_equal, meaning]

mutual

/-- `json_equal` holds if the second value is the first one, with members added to its objects. -/
theorem json_equal_iff_le {P : Platform} (hexact : ExactIntegers P) : ∀ {a b : Json}, Integral a → DistinctKeys a →
    Integral b → (json_equal P a b = true ↔ meaning a ≤ meaning b)
  | .null, b, _, _, _ => by
    rw [meaning, DataTree.leaf_le_iff]
    cases b <;> simp [json_equal, elementType, meaning]
    split <;> simp
  | .bool x, b, _, _, _ => by
    rw [meaning, DataTree.leaf_le_iff]
    cases b <;> simp [json_equal, Json.get_bool, meaning]
  | .int i, b, ha, _, hb => by
    rw [json_equal_int_iff hexact ha hb, meaning, DataTree.leaf_le_iff]
  | .double _, _, ha, _, _ => absurd ha (by simp [Integral])
  | .str s, b, _, _, _ => by
    rw [meaning, DataTree.leaf_le_iff]
    cases b <;> simp [json_equal, Json.get_string, meaning]
  | .arr items, b, ha, hdistinct, hb => by
    cases b with
    | arr items' => exact itemsEqual_iff_le hexact ha hdistinct hb
    | _ => simp [json_equal, meaning]
  | .obj members, b, ha, hdistinct, hb => by
    cases b with
    | obj members' =>
      exact (membersEqual_iff_le hexact ha hdistinct.2 hb).trans (meaning_obj_le hdistinct.1).symm
    | _ => simp [json_equal, meaning]

theorem itemsEqual_iff_le {P : Platform} (hexact : ExactIntegers P) : ∀ {items items' : List Json},
    ItemsIntegral items → ItemsDistinct items → ItemsIntegral items' →
      (itemsEqual P items items' = true ↔ DataTree.seq (itemMeanings items) ≤ .seq (itemMeanings items'))
  | [], items', _, _, _ => by
    cases items' <;> simp [itemsEqual, itemMeanings, DataTree.seq_le_seq]
  | x :: items, [], _, _, _ => by
    simp [itemsEqual, itemMeanings, DataTree.seq_le_seq]
  | x :: items, y :: items', h, hdistinct, h' => by
    have hx := json_equal_iff_le hexact h.1 hdistinct.1 h'.1
    have hrest := itemsEqual_iff_le hexact h.2 hdistinct.2 h'.2
    rw [itemsEqual, Bool.and_eq_true, hx, hrest, itemMeanings, itemMeanings, DataTree.seq_cons_le_seq_cons]

theorem membersEqual_iff_le {P : Platform} (hexact : ExactIntegers P) : ∀ {members members' : List (Str × Json)},
    MembersIntegral members → MembersDistinct members → MembersIntegral members' →
      (membersEqual P members members' = true ↔ ∀ k x, (k, x) ∈ members →
        ∃ y, Record.find members' k = some y ∧ meaning x ≤ meaning y)
  | [], _, _, _, _ => by simp [membersEqual]
  | (key, x) :: members, members', h, hdistinct, h' => by
    have hrest := membersEqual_iff_le hexact h.2 hdistinct.2 h'
    simp only [List.mem_cons, Prod.mk.injEq, or_imp, and_imp, forall_and, forall_eq_apply_imp_iff, forall_eq]
    rw [membersEqual, ← hrest]
    cases hfind : Record.find members' key with
    | none => simp
    | some y =>
      have hx := json_equal_iff_le hexact h.1 hdistinct.1 (MembersIntegral.of_find h' hfind)
      simp [hx]

end

/-! ### `uniqueItems` -/

/-- The relation holds between two items at different places. -/
def HoldsForTwo (R : Json → Json → Prop) (items : List Json) : Prop :=
  ∃ (i j : ℕ) (x y : Json), i ≠ j ∧ items[i]? = some x ∧ items[j]? = some y ∧ R x y

theorem HoldsForTwo.mono {R S : Json → Json → Prop} {items : List Json} (h : HoldsForTwo R items)
    (hRS : ∀ x ∈ items, ∀ y ∈ items, R x y → S x y) : HoldsForTwo S items := by
  obtain ⟨i, j, x, y, hne, hx, hy, hR⟩ := h
  exact ⟨i, j, x, y, hne, hx, hy, hRS x (List.mem_of_getElem? hx) y (List.mem_of_getElem? hy) hR⟩

theorem holdsForTwo_eq_iff {items : List Json} : HoldsForTwo (· = ·) items ↔ ¬ items.Nodup := by
  rw [List.nodup_iff_getElem?_ne_getElem?]
  constructor
  · rintro ⟨i, j, x, _, hne, hx, hy, rfl⟩ h
    have hi : i < items.length := (List.getElem?_eq_some_iff.mp hx).1
    have hj : j < items.length := (List.getElem?_eq_some_iff.mp hy).1
    rcases Nat.lt_or_gt_of_ne hne with hlt | hlt
    · exact h i j hlt hj (hx.trans hy.symm)
    · exact h j i hlt hi (hy.trans hx.symm)
  · intro h
    simp only [not_forall, not_not] at h
    obtain ⟨i, j, hlt, hj, heq⟩ := h
    have hy : items[j]? = some items[j] := List.getElem?_eq_getElem hj
    exact ⟨i, j, _, _, by omega, heq.trans hy, hy, rfl⟩

theorem firstDuplicate_eq_none : ∀ {seen texts : List Str} {index : ℕ},
    firstDuplicate seen texts index = none ↔ (∀ s ∈ texts, s ∉ seen) ∧ texts.Nodup
  | seen, [], index => by simp [firstDuplicate]
  | seen, s :: texts, index => by
    rw [firstDuplicate]
    split
    · next hseen => simp [hseen]
    · next hseen =>
      rw [firstDuplicate_eq_none]
      simp only [List.mem_cons, not_or, List.nodup_cons]
      grind

theorem judges_uniqueItems {P : Platform} {items : List Json}
    (hminify : ∀ x ∈ items, ∀ y ∈ items, P.minify x = P.minify y → x = y) (loc : Str)
    (call : Call → Tally ValidationError EvaluationContext →
      Except (Stop Abort) (Tally ValidationError EvaluationContext)) :
    Judges ((validateUniqueItems P (.bool true) (.arr items) loc).run call) (¬ HoldsForTwo (· = ·) items) := by
  have hnodup : (items.map P.minify).Nodup ↔ items.Nodup :=
    ⟨List.Nodup.of_map _, fun h => h.map_on hminify⟩
  rw [holdsForTwo_eq_iff, not_not, ← hnodup]
  unfold validateUniqueItems
  simp only
  cases hfirst : firstDuplicate [] (items.map P.minify) 0 with
  | none => exact Judges.done.congr (by simpa using (firstDuplicate_eq_none.mp hfirst).2)
  | some index =>
    refine (Judges.report _).congr (iff_of_false id fun h => ?_)
    have hnone : firstDuplicate [] (items.map P.minify) 0 = none :=
      firstDuplicate_eq_none.mpr ⟨fun s _ => List.not_mem_nil, h⟩
    exact absurd (hfirst.symm.trans hnone) (by simp)

/-! ### The verdicts -/

theorem ExactValue.json_equal_iff {P : Platform} (hexact : ExactIntegers P) (a b : ExactValue) :
    json_equal P a.val b.val = true ↔ meaning a.val ≤ meaning b.val :=
  json_equal_iff_le hexact a.integral a.distinct b.integral

mutual

/-- The text without blanks of a value without fractions, whose texts have nothing to escape. -/
def minified : Json → Str
  | .null => "null".toList
  | .bool b => if b then "true".toList else "false".toList
  | .int i => intText i
  | .double text => text
  | .str s => quoted s
  | .arr items => '[' :: minifiedItems items ++ [']']
  | .obj members => '\x7b' :: minifiedMembers members ++ ['\x7d']

def minifiedItems : List Json → Str
  | [] => []
  | [x] => minified x
  | x :: items => minified x ++ ',' :: minifiedItems items

def minifiedMembers : List (Str × Json) → Str
  | [] => []
  | [(key, x)] => quoted key ++ ':' :: minified x
  | (key, x) :: members => quoted key ++ ':' :: minified x ++ ',' :: minifiedMembers members

end

/-- Whole numbers, with texts. -/
def compact : Platform := { wholeNumbers with minify := minified }

theorem exactIntegers_compact : ExactIntegers compact :=
  fun i j _ _ _ _ => decide_eq_true_iff (p := i = j)

/-- One object, with its members in the two orders. -/
def ab : Json := .obj [("a".toList, .int 1), ("b".toList, .int 2)]

def ba : Json := .obj [("b".toList, .int 2), ("a".toList, .int 1)]

def abExact : ExactValue :=
  ⟨ab, by simp [ab, Integral, MembersIntegral], by simp [ab, DistinctKeys, MembersDistinct]⟩

def baExact : ExactValue :=
  ⟨ba, by simp [ba, Integral, MembersIntegral], by simp [ba, DistinctKeys, MembersDistinct]⟩

def uniqueItemsNode : SchemaNode := { uri := {}, keyword := .UniqueItems, value := .bool true }

/-- **When `json_equal` and `uniqueItems` decide equality.**  `json_equal` is reflexive and transitive.  It
decides whether two values are equal unless the second is the first with members added, and it is symmetric
unless one of them is the other with members added.  `uniqueItems` reports exactly the arrays in which
`json_equal` holds for two items if two items write the same members in the same order, or no item lies
below another. -/
theorem json_equal_uniqueItems_iff {P : Platform} (hexact : ExactIntegers P) {items : List ExactValue}
    (hminify : ∀ x ∈ items, ∀ y ∈ items, P.minify x.val = P.minify y.val → x.val = y.val) :
    (∀ a : ExactValue, json_equal P a.val a.val = true) ∧
    (∀ a b c : ExactValue, json_equal P a.val b.val = true → json_equal P b.val c.val = true →
      json_equal P a.val c.val = true) ∧
    (∀ a b : ExactValue, (json_equal P a.val b.val = true ↔ json_equal P b.val a.val = true) ↔
      ¬ meaning a.val < meaning b.val ∧ ¬ meaning b.val < meaning a.val) ∧
    (∀ a b : ExactValue, (json_equal P a.val b.val = true ↔ meaning a.val = meaning b.val) ↔
      ¬ meaning a.val < meaning b.val) ∧
    ∀ (c : SchemaCompiler) (node : SchemaNode), node.keyword = .UniqueItems → node.value = .bool true →
      ∀ loc call t, ∃ t' new,
        (validate_node P c ⟨node, .arr (items.map (·.val)), loc⟩).run call t = .ok t' ∧
        t'.errors = t.errors ++ new ∧
        ((new ≠ [] ↔ HoldsForTwo (fun x y => json_equal P x y = true) (items.map (·.val))) ↔
          HoldsForTwo (· = ·) (items.map (·.val)) ∨
            ¬ HoldsForTwo (fun x y => meaning x ≤ meaning y) (items.map (·.val))) := by
  have hle := ExactValue.json_equal_iff hexact
  refine ⟨fun a => (hle a a).mpr le_rfl, fun a b c hab hbc => ?_, fun a b => ?_, fun a b => ?_,
    fun c node hkeyword hvalue loc call t => ?_⟩
  · rw [hle] at hab hbc ⊢
    exact hab.trans hbc
  · rw [hle, hle, lt_iff_le_not_ge, lt_iff_le_not_ge]
    tauto
  · rw [hle, lt_iff_le_and_ne, eq_iff_le_not_lt, lt_iff_le_and_ne]
    tauto
  · have htexts : ∀ x ∈ items.map (·.val), ∀ y ∈ items.map (·.val), P.minify x = P.minify y → x = y := by
      simpa using hminify
    have htwo : HoldsForTwo (fun x y => json_equal P x y = true) (items.map (·.val)) ↔
        HoldsForTwo (fun x y => meaning x ≤ meaning y) (items.map (·.val)) := by
      have hsame : ∀ x ∈ items.map (·.val), ∀ y ∈ items.map (·.val),
          (json_equal P x y = true ↔ meaning x ≤ meaning y) := by
        simpa using fun x _ y _ => hle x y
      exact ⟨fun h => h.mono fun x hx y hy => (hsame x hx y hy).mp,
        fun h => h.mono fun x hx y hy => (hsame x hx y hy).mpr⟩
    -- the very same item twice is also equal twice
    have hequal : HoldsForTwo (· = ·) (items.map (·.val)) →
        HoldsForTwo (fun x y => meaning x ≤ meaning y) (items.map (·.val)) :=
      fun h => h.mono fun x _ y _ hxy => hxy ▸ le_rfl
    obtain ⟨t', new, hrun, herrors, hnew⟩ := judges_uniqueItems htexts loc call t
    refine ⟨t', new, ?_, herrors, ?_⟩
    · rw [← hrun, ← hvalue]
      unfold validate_node
      simp only [hkeyword]
    · rw [ne_eq, hnew, not_not, htwo]
      tauto

theorem json_equal_uniqueItems_iff_ab : json_equal compact ab ab = true ∧ ∀ c call t, ∃ t' new,
    (validate_node compact c ⟨uniqueItemsNode, .arr [ab, ba], []⟩).run call t = .ok t' ∧
    t'.errors = t.errors ++ new ∧
    ((new ≠ [] ↔ HoldsForTwo (fun x y => json_equal compact x y = true) [ab, ba]) ↔
      HoldsForTwo (· = ·) [ab, ba] ∨ ¬ HoldsForTwo (fun x y => meaning x ≤ meaning y) [ab, ba]) := by
  have hab : compact.minify ab ≠ compact.minify ba := by decide
  have htexts : ∀ x ∈ [abExact, baExact], ∀ y ∈ [abExact, baExact],
      compact.minify x.val = compact.minify y.val → x.val = y.val := by
    simp only [List.forall_mem_cons]
    exact ⟨⟨fun _ => trivial, fun h => absurd h hab, by simp⟩,
      ⟨fun h => absurd h.symm hab, fun _ => trivial, by simp⟩, by simp⟩
  have h := json_equal_uniqueItems_iff exactIntegers_compact htexts
  exact ⟨h.1 abExact, fun c => h.2.2.2.2 c uniqueItemsNode rfl rfl []⟩

/-- The empty object is equal to every object, and no object with a member is equal to it; two equal items
are not reported when their members stand in another order. -/
theorem json_equal_not_symmetric :
    (json_equal compact (.obj []) ab = true ∧ json_equal compact ab (.obj []) = false ∧
      meaning (.obj []) ≠ meaning ab) ∧
    json_equal compact ab ba = true ∧
      ∀ c call t, (validate_node compact c ⟨uniqueItemsNode, .arr [ab, ba], []⟩).run call t = .ok t := by
  refine ⟨⟨rfl, rfl, fun h => ?_⟩, ?_, fun c call t => ?_⟩
  · have hempty := congrFun (DataTree.map.inj h) "a".toList
    simp [memberMeaning] at hempty
  · decide
  · have hnone : firstDuplicate [] ([ab, ba].map compact.minify) 0 = none := by decide
    show (validateUniqueItems compact (.bool true) (.arr [ab, ba]) []).run call t = .ok t
    unfold validateUniqueItems
    simp only [hnone]
    rfl

end Siesta.JsonSchema
