import Siesta.IR.HeaderAndSource

/-!
# The order of the alternatives

The decoder of a variant tries the alternatives in the order in which `processVariantAlternatives` leaves
them, and the signature prints them in it.  That is the order in which the loop over a hash table meets
the resolved names, so it is the order of the document only when there are no two of them
(`inSchemaOrder_iff`).
-/

namespace Siesta

open Lib

/-- The alternatives of `v` are processed to the distinct resolved names in the order of their first
occurrence, and have the signature of these. -/
def InSchemaOrder (ho : HashOrders) (ast : NormalizedAST) (chain : Table Str Str) (v : VariantType) : Prop :=
  ∃ names processed collapse, v.alternatives.mapM (resolveAlternative ast chain) = some names ∧
    processVariantAlternatives ast ho chain v = some (processed, collapse) ∧
    processed.map TypeRef.name = names.eraseDups ∧
    getVariantSignature ast chain processed = some (signatureText names.eraseDups)

theorem length_le_one_of_palindrome {α : Type} {l : List α} (hnd : l.Nodup) (h : l.reverse = l) :
    l.length ≤ 1 := by
  match l, hnd, h with
  | [], _, _ => simp
  | [_], _, _ => simp
  | a :: b :: l, hnd, h =>
    have hlast : (a :: b :: l).getLast (by simp) = a := by
      have := congrArg List.head? h
      rw [List.head?_reverse, List.getLast?_eq_some_getLast (by simp), List.head?_cons] at this
      exact Option.some.inj this
    have hmem : a ∈ b :: l := by
      rw [← hlast, List.getLast_cons (by simp)]
      exact List.getLast_mem (by simp)
    exact absurd hmem (List.nodup_cons.mp hnd).1

theorem eraseDups_of_forall_eq {x : Str} : ∀ {l : List Str}, (∀ y ∈ l, y = x) → l ≠ [] →
    l.eraseDups = [x] := by
  intro l hl hne
  cases l with
  | nil => exact absurd rfl hne
  | cons a l =>
    obtain rfl := hl a (by simp)
    have hfilter : l.filter (fun b => !b == a) = [] :=
      List.filter_eq_nil_iff.mpr fun b hb => by simp [hl b (by simp [hb])]
    rw [List.eraseDups_cons, hfilter]
    rfl

section

variable {ast : NormalizedAST} {chain : Table Str Str} {v : VariantType}

theorem mapM_resolveAlternative_of_oneName {x : Str}
    (hx : ∀ alt ∈ v.alternatives, resolveAlternative ast chain alt = some x) :
    v.alternatives.mapM (resolveAlternative ast chain) = some (v.alternatives.map fun _ => x) := by
  generalize v.alternatives = alts at hx
  induction alts with
  | nil => rfl
  | cons alt alts ih =>
    rw [List.mapM_cons, hx alt (by simp), ih fun a ha => hx a (by simp [ha])]
    rfl

theorem inSchemaOrder_of_oneName (ho : HashOrders) (h : OneName ast chain v) :
    InSchemaOrder ho ast chain v := by
  obtain ⟨x, hx⟩ := h
  obtain ⟨⟨processed, collapse⟩, hproc⟩ := processVariantAlternatives_isSome ho fun alt halt =>
    ⟨x, hx alt halt⟩
  have hinline := (processVariantAlternatives_spec hproc).2.2.2.1
  have hnames : processed.map TypeRef.name = (v.alternatives.map fun _ => x).eraseDups := by
    by_cases hne : v.alternatives = []
    · have hmem := (processVariantAlternatives_spec hproc).2.1
      have hnil : processed.map TypeRef.name = [] :=
        List.eq_nil_iff_forall_not_mem.mpr fun y hy => by simpa [hne] using (hmem y).mp hy
      rw [hnil, hne]
      rfl
    · rw [names_of_oneName hproc hne hx]
      refine (eraseDups_of_forall_eq (fun y hy => ?_) (by simpa using hne)).symm
      obtain ⟨-, -, rfl⟩ := List.mem_map.mp hy
      rfl
  exact ⟨_, processed, collapse, mapM_resolveAlternative_of_oneName hx, hproc, hnames,
    by rw [getVariantSignature_inline ast chain hinline, hnames]⟩

theorem oneName_of_inSchemaOrder (hnew : InSchemaOrder (HashOrder.newestFirst _) ast chain v)
    (hold : InSchemaOrder (HashOrder.oldestFirst _) ast chain v) : OneName ast chain v := by
  obtain ⟨names, processed, collapse, hnames, hproc, horder, -⟩ := hnew
  obtain ⟨names', processed', collapse', hnames', hproc', horder', -⟩ := hold
  obtain rfl := Option.some.inj (hnames.symm.trans hnames')
  obtain ⟨-, hmem, hnd, -⟩ := processVariantAlternatives_spec hproc
  have hreverse : (processed.map TypeRef.name).reverse = processed.map TypeRef.name := by
    have hprocessed' : processed' = processed.reverse := by
      unfold processVariantAlternatives at hproc hproc'
      obtain ⟨seen, hseen, hproc⟩ := Option.bind_eq_some_iff.mp hproc
      obtain ⟨seen', hseen', hproc'⟩ := Option.bind_eq_some_iff.mp hproc'
      obtain rfl := Option.some.inj (hseen.symm.trans hseen')
      obtain ⟨rfl, -⟩ := Prod.mk.inj (Option.some.inj hproc)
      obtain ⟨rfl, -⟩ := Prod.mk.inj (Option.some.inj hproc')
      exact List.map_reverse
    rw [← List.map_reverse, ← hprocessed', horder', horder]
  have hlen := length_le_one_of_palindrome hnd hreverse
  have hall := (processVariantAlternatives_spec hproc).1
  match hprocessed : processed.map TypeRef.name with
  | [] =>
    refine ⟨[], fun alt halt => ?_⟩
    obtain ⟨x, hx⟩ := hall alt halt
    have hin := (hmem x).mpr ⟨alt, halt, hx⟩
    rw [hprocessed] at hin
    cases hin
  | [x] => exact ⟨x, oneName_of_names hproc hprocessed⟩
  | x :: y :: l =>
    rw [hprocessed] at hlen
    simp at hlen

end

/-- **When alternatives keep the order of the document.**  Whatever the order of the hash table, the
alternatives of a variant come in the order of the document, when they all resolve to one name; with two
names, some order of the hash table is another one. -/
theorem inSchemaOrder_iff (ast : NormalizedAST) (chain : Table Str Str) (v : VariantType) :
    (∀ ho, InSchemaOrder ho ast chain v) ↔ OneName ast chain v :=
  ⟨fun h => oneName_of_inSchemaOrder (h _) (h _), fun h ho => inSchemaOrder_of_oneName ho h⟩

/-- The second alternative comes first, when the hash table puts new entries in front. -/
theorem alternatives_swapped :
    ∃ s v, parseSchemas .crash (animalSpec [("Pet", ["Cat", "Dog"])]) {} = .ok [] s ∧
      s.ast.getType "Pet".toList = some (.variant v) ∧
      ¬ InSchemaOrder (HashOrder.newestFirst _) s.ast ({} : DefsEmitState).typedef_chain v := by
  refine ⟨_, _, rfl, rfl, ?_⟩
  rintro ⟨names, processed, collapse, hnames, hproc, horder, -⟩
  obtain rfl : ["Cat".toList, "Dog".toList] = names := Option.some.inj hnames
  obtain ⟨rfl, -⟩ : [⟨"Dog".toList, true⟩, ⟨"Cat".toList, true⟩] = processed ∧ false = collapse :=
    Prod.mk.inj (Option.some.inj hproc)
  exact absurd horder (by decide)

end Siesta
