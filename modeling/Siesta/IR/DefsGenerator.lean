import Siesta.IR.SortTypes
import Siesta.IR.TypeTexts
import Siesta.Lib.ListM

/-!
# The definitions of the header: `generator/src/IR/DefsGenerator.cpp`

`generateDefsHpp` walks the sorted types and emits one definition for each.  Variants are emitted
through a state: a variant with the signature of an earlier one becomes an alias of it, one whose
alternatives all resolve to one type an alias of that type, and both are remembered in
`typedef_chain`, through which `resolveTypeName` sends the alternatives of later variants.
`generateDefsCpp` walks the same types and emits their serializations, with a state of its own.
-/

namespace Siesta

open Lib

/-! ### The emission state -/

structure Preprocessed where
  alternatives : List TypeRef := []
  should_collapse : Bool := false
  signature : Str := []

structure DefsEmitState where
  /-- The first variant with a signature. -/
  variant_signatures : Table Str Str := ∅
  /-- What a variant emitted as an alias stands for. -/
  typedef_chain : Table Str Str := ∅
  preprocessed : Table Str Preprocessed := ∅

/-! ### Resolving alternatives -/

/-- The loop of `resolveTypeName`: it follows the chain from `current`, and stops at a name that is
not in the chain, that stands for itself, or that it has seen. -/
def followChain (chain : Table Str Str) : ℕ → List Str → Str → Option Str
  | 0, _, _ => none
  | fuel + 1, visited, current =>
    match chain.find current with
    | none => some current
    | some next =>
      if current ∈ visited then some current
      else if next = current then some current
      else followChain chain fuel (current :: visited) next

section

variable (ast : NormalizedAST)

/-- `resolveTypeName`, for a bounded number of nested calls.  The loop meets no key of the chain twice,
so the number of keys bounds it. -/
def resolveTypeNameUpTo (chain : Table Str Str) : ℕ → Str → Option Str
  | 0, _ => none
  | fuel + 1, name => do
    let current ← followChain chain (chain.entries.length + 1) [] name
    match ast.getType current with
    | none => some current
    | some (.primitive t) => if !t.enum_values.isEmpty then some current else some "std::string".toList
    | some (.variant t) =>
      match t.alternatives with
      | [alt] =>
        if !t.is_nullable then
          if !alt.is_inline then resolveTypeNameUpTo chain fuel alt.name else some alt.name
        else some current
      | _ => some current
    | some _ => some current

/-- `resolveTypeName`. -/
def resolveTypeName (chain : Table Str Str) (name : Str) : Option Str :=
  resolveTypeNameUpTo ast chain (ast.getTypeCount + 1) name

def resolveAlternative (chain : Table Str Str) (alt : TypeRef) : Option Str :=
  if alt.is_inline then some alt.name else resolveTypeName ast chain alt.name

/-- `getVariantSignature`. -/
def getVariantSignature (chain : Table Str Str) (alternatives : List TypeRef) : Option Str := do
  let names ← alternatives.mapM (resolveAlternative ast chain)
  some ("variant<".toList ++ [','].intercalate names ++ ['>'])

/-- `seen`: the resolved alternatives, each with its first occurrence. -/
def seenAlternatives (chain : Table Str Str) (v : VariantType) : Option (Table Str TypeRef) :=
  v.alternatives.foldlM (fun seen alt => do
    let resolved ← resolveAlternative ast chain alt
    some (seen.emplace resolved alt)) ∅

/-- `processVariantAlternatives`: the distinct resolved alternatives, in the order of the hash table,
and whether there is only one. -/
def processVariantAlternatives (ho : HashOrders) (chain : Table Str Str) (v : VariantType) :
    Option (List TypeRef × Bool) := do
  let seen ← seenAlternatives ast chain v
  let processed : List TypeRef := (ho.iter .seenAlternatives seen.entries).map fun e => ⟨e.1, true⟩
  some (processed, processed.length == 1 && !v.is_nullable)

end

/-! ### The definitions -/

inductive CppDefinition where
  /-- `struct name : bases { fields };` -/
  | struct (s : StructType)
  /-- `using name = std::monostate;` -/
  | monostate (name : Str)
  /-- `using name = target;` for a variant with the signature of an earlier one. -/
  | duplicate (name target : Str)
  /-- `using name = target;` for a variant with one alternative. -/
  | collapsed (name target : Str)
  /-- `using name = std::variant<...>;` -/
  | variant (name : Str) (alternatives : List TypeRef) (is_nullable : Bool)
  /-- `enum class name : int { ... };` -/
  | enumClass (name : Str) (enumerators : List Str)
  /-- `using name = type;` for a primitive. -/
  | typedef (name type : Str)
  /-- `using name = std::vector<element>;` -/
  | arrayAlias (name element : Str)
  /-- `using name = std::map<std::string, value>;` -/
  | mapAlias (name value : Str)

def CppDefinition.name : CppDefinition → Str
  | .struct s => s.name
  | .monostate n | .duplicate n _ | .collapsed n _ | .variant n _ _ | .enumClass n _ | .typedef n _
  | .arrayAlias n _ | .mapAlias n _ => n

/-- The references written in a definition: bases, field types, alternatives, elements and targets.
The definition of a primitive refers to no type. -/
def CppDefinition.references : CppDefinition → List Str
  | .struct s => s.allOf_bases.map TypeRef.name ++ s.fields.map fun field => field.type.name
  | .monostate _ => []
  | .duplicate _ target | .collapsed _ target => [target]
  | .variant _ alternatives _ => alternatives.map TypeRef.name
  | .enumClass _ _ => []
  | .typedef _ _ => []
  | .arrayAlias _ element => [vectorOf element]
  | .mapAlias _ value => [mapOf value]

/-- A definition, and the key of the type of the AST it was emitted for. -/
structure Emitted where
  key : Str
  definition : CppDefinition

/-- `emitVariant`. -/
def emitVariant (ho : HashOrders) (ast : NormalizedAST) (v : VariantType) (state : DefsEmitState) :
    Option (CppDefinition × DefsEmitState) :=
  if v.alternatives.isEmpty && !v.is_nullable then some (.monostate v.name, state)
  else do
    let (processed, should_collapse) ← processVariantAlternatives ast ho state.typedef_chain v
    let sig ← getVariantSignature ast state.typedef_chain processed
    let state := { state with
      preprocessed := state.preprocessed.set v.name ⟨processed, should_collapse, sig⟩ }
    match state.variant_signatures.find sig with
    | some target =>
      some (.duplicate v.name target,
        { state with typedef_chain := state.typedef_chain.set v.name target })
    | none =>
      let state := { state with variant_signatures := state.variant_signatures.set sig v.name }
      match processed, should_collapse with
      | alt :: _, true =>
        some (.collapsed v.name alt.name,
          { state with typedef_chain := state.typedef_chain.set v.name alt.name })
      | _, _ => some (.variant v.name processed v.is_nullable, state)

/-- The definition of one type: the body of the loop of `generateDefsHpp`. -/
def emitType (ho : HashOrders) (ast : NormalizedAST) (name : Str) (type : SchemaType)
    (state : DefsEmitState) : Option (CppDefinition × DefsEmitState) :=
  match type with
  | .struct t => some (.struct t, state)
  | .variant t => emitVariant ho ast t state
  | .enum t => some (.enumClass t.name (t.values.map EnumValue.name), state)
  | .primitive t =>
    if !t.enum_values.isEmpty then some (.enumClass name t.enum_values, state)
    else some (.typedef name (primitiveToCpp t.kind t.int_format t.num_format), state)
  | .array t => some (.arrayAlias name t.element_type.name, state)
  | .map t => some (.mapAlias name t.value_type.name, state)

/-- One turn of the loop: a name that is no type of the AST is skipped. -/
def emitNext (ho : HashOrders) (ast : NormalizedAST) (acc : List Emitted × DefsEmitState) (name : Str) :
    Option (List Emitted × DefsEmitState) :=
  match ast.getType name with
  | none => some acc
  | some type => do
    let (definition, state) ← emitType ho ast name type acc.2
    some (acc.1 ++ [⟨name, definition⟩], state)

/-- The definitions `generateDefsHpp` emits, in their order. -/
def generateDefsHpp (ho : HashOrders) (order : TopologicalOrder) (ast : NormalizedAST) :
    Option (List Emitted) := do
  let acc ← order.ordered_types.foldlM (emitNext ho ast) ([], {})
  some acc.1

/-! ### The serializations -/

/-- A `value_from` / `value_to` pair of the source file. -/
inductive CppSerialization where
  | struct (s : StructType)
  /-- The decoder tries the alternatives in their order. -/
  | variant (name : Str) (alternatives : List TypeRef)
  | enum (e : EnumType)
  | enumFromPrimitive (name : Str) (p : PrimitiveType)

/-- `emitVariantSerialization`: what `emitVariant` has left in the state, if anything, and else the
same computation once more. -/
def emitVariantSerialization (ho : HashOrders) (ast : NormalizedAST) (v : VariantType)
    (state : DefsEmitState) : Option (Option CppSerialization) := do
  let pp ← match state.preprocessed.find v.name with
    | some pp => some pp
    | none => do
      let (alternatives, should_collapse) ← processVariantAlternatives ast ho state.typedef_chain v
      let signature ← getVariantSignature ast state.typedef_chain alternatives
      some (Preprocessed.mk alternatives should_collapse signature)
  let duplicate := match state.variant_signatures.find pp.signature with
    | some name => name != v.name
    | none => false
  if duplicate then some none
  else if pp.should_collapse then some none
  else some (some (.variant v.name pp.alternatives))

/-- The pairs of one type: the body of the loop of `generateDefsCpp`. -/
def emitSerialization (ho : HashOrders) (ast : NormalizedAST) (name : Str) (type : SchemaType)
    (state : DefsEmitState) : Option (List CppSerialization) :=
  match type with
  | .struct t => some [.struct t]
  | .variant t => (emitVariantSerialization ho ast t state).map Option.toList
  | .enum t => some [.enum t]
  | .primitive t => if !t.enum_values.isEmpty then some [.enumFromPrimitive name t] else some []
  | .array _ => some []
  | .map _ => some []

/-- One turn of the loop.  Nothing writes to the state, which stays the one the function starts with. -/
def emitNextSerialization (ho : HashOrders) (ast : NormalizedAST) (acc : List CppSerialization)
    (name : Str) : Option (List CppSerialization) :=
  match ast.getType name with
  | none => some acc
  | some type => do
    let pairs ← emitSerialization ho ast name type {}
    some (acc ++ pairs)

/-- The pairs `generateDefsCpp` emits, in their order. -/
def generateDefsCpp (ho : HashOrders) (order : TopologicalOrder) (ast : NormalizedAST) :
    Option (List CppSerialization) :=
  order.ordered_types.foldlM (emitNextSerialization ho ast) []

/-! ### What the functions return -/

section

variable {ast : NormalizedAST} {ho : HashOrders} {chain : Table Str Str} {v : VariantType}

theorem seenAlternatives_spec : ∀ (alts : List TypeRef) (seen seen' : Table Str TypeRef),
    alts.foldlM (fun seen alt => do
      let resolved ← resolveAlternative ast chain alt
      some (seen.emplace resolved alt)) seen = some seen' →
    (∀ alt ∈ alts, ∃ x, resolveAlternative ast chain alt = some x) ∧
      ∀ x, x ∈ seen' ↔ x ∈ seen ∨ ∃ alt ∈ alts, resolveAlternative ast chain alt = some x := by
  intro alts
  induction alts with
  | nil =>
    intro seen seen' h
    obtain rfl : seen = seen' := by simpa using h
    simp
  | cons alt alts ih =>
    intro seen seen' h
    rw [List.foldlM_cons] at h
    obtain ⟨seen₁, h₁, h⟩ := Option.bind_eq_some_iff.mp h
    obtain ⟨r, hr, h₁⟩ := Option.bind_eq_some_iff.mp h₁
    obtain rfl := Option.some.inj h₁
    obtain ⟨hall, hmem⟩ := ih _ _ h
    refine ⟨?_, fun x => ?_⟩
    · intro a ha
      rcases List.mem_cons.mp ha with rfl | ha
      · exact ⟨r, hr⟩
      · exact hall a ha
    · rw [hmem, Table.mem_emplace]
      simp only [List.mem_cons, exists_eq_or_imp, hr, Option.some.injEq]
      tauto

/-- The processed alternatives are the distinct resolved names, as inline references. -/
theorem processVariantAlternatives_spec {processed : List TypeRef} {collapse : Bool}
    (h : processVariantAlternatives ast ho chain v = some (processed, collapse)) :
    (∀ alt ∈ v.alternatives, ∃ x, resolveAlternative ast chain alt = some x) ∧
      (∀ x, x ∈ processed.map TypeRef.name ↔
        ∃ alt ∈ v.alternatives, resolveAlternative ast chain alt = some x) ∧
      (processed.map TypeRef.name).Nodup ∧ (∀ ref ∈ processed, ref.is_inline = true) ∧
      collapse = (processed.length == 1 && !v.is_nullable) := by
  unfold processVariantAlternatives at h
  obtain ⟨seen, hseen, h⟩ := Option.bind_eq_some_iff.mp h
  obtain ⟨rfl, rfl⟩ := Prod.mk.inj (Option.some.inj h)
  obtain ⟨hall, hmem⟩ := seenAlternatives_spec v.alternatives ∅ seen hseen
  have hkeys : (((ho.iter .seenAlternatives seen.entries).map fun e => (⟨e.1, true⟩ : TypeRef)).map
      TypeRef.name) = (ho.iter .seenAlternatives seen.entries).map Sigma.fst := by
    rw [List.map_map]
    rfl
  have hperm : ((ho.iter .seenAlternatives seen.entries).map Sigma.fst).Perm
      (seen.entries.map Sigma.fst) := (ho.perm .seenAlternatives seen.entries).map Sigma.fst
  refine ⟨hall, fun x => ?_, ?_, ?_, rfl⟩
  · rw [hkeys, hperm.mem_iff]
    have : x ∈ seen.entries.map Sigma.fst ↔ x ∈ seen := AList.mem_keys
    rw [this, hmem]
    simp
  · rw [hkeys, hperm.nodup_iff]
    exact seen.keys_nodup
  · intro ref href
    obtain ⟨e, -, rfl⟩ := List.mem_map.mp href
    rfl

theorem length_processed_of_single {processed : List TypeRef} {collapse : Bool} {alt : TypeRef}
    (h : processVariantAlternatives ast ho chain v = some (processed, collapse))
    (hv : v.alternatives = [alt]) : processed.length = 1 := by
  obtain ⟨hall, hmem, hnd, -, -⟩ := processVariantAlternatives_spec h
  obtain ⟨x, hx⟩ := hall alt (by simp [hv])
  have hperm : (processed.map TypeRef.name).Perm [x] := by
    refine (List.perm_ext_iff_of_nodup hnd (List.nodup_singleton x)).mpr fun y => ?_
    rw [hmem, hv]
    simp [hx, eq_comm]
  simpa using hperm.length_eq

variable (ho) in
theorem processVariantAlternatives_isSome
    (h : ∀ alt ∈ v.alternatives, ∃ x, resolveAlternative ast chain alt = some x) :
    ∃ r, processVariantAlternatives ast ho chain v = some r := by
  have hseen : ∀ (alts : List TypeRef) (seen : Table Str TypeRef),
      (∀ alt ∈ alts, ∃ x, resolveAlternative ast chain alt = some x) →
      ∃ seen', alts.foldlM (fun seen alt => do
        let resolved ← resolveAlternative ast chain alt
        some (seen.emplace resolved alt)) seen = some seen' := by
    intro alts
    induction alts with
    | nil => exact fun seen _ => ⟨seen, rfl⟩
    | cons alt alts ih =>
      intro seen hall
      obtain ⟨x, hx⟩ := hall alt (by simp)
      obtain ⟨seen', hseen'⟩ := ih (seen.emplace x alt) fun a ha => hall a (by simp [ha])
      exact ⟨seen', by rw [List.foldlM_cons, hx]; exact hseen'⟩
  obtain ⟨seen, hs⟩ := hseen v.alternatives ∅ h
  exact ⟨_, by rw [processVariantAlternatives, seenAlternatives, hs]; rfl⟩

def signatureText (names : List Str) : Str := "variant<".toList ++ [','].intercalate names ++ ['>']

variable (ast chain) in
theorem getVariantSignature_inline {alternatives : List TypeRef}
    (h : ∀ ref ∈ alternatives, ref.is_inline = true) :
    getVariantSignature ast chain alternatives = some (signatureText (alternatives.map TypeRef.name)) := by
  have hnames : alternatives.mapM (resolveAlternative ast chain) =
      some (alternatives.map TypeRef.name) := by
    induction alternatives with
    | nil => rfl
    | cons ref alternatives ih =>
      have href : resolveAlternative ast chain ref = some ref.name := by
        simp [resolveAlternative, h ref (by simp)]
      rw [List.mapM_cons, href, ih fun ref' href' => h ref' (by simp [href'])]
      rfl
  rw [getVariantSignature, hnames]
  rfl

/-- **The ways a variant is emitted.** -/
inductive EmitsVariant (ho : HashOrders) (ast : NormalizedAST) (v : VariantType) (st : DefsEmitState) :
    CppDefinition → DefsEmitState → Prop
  | monostate (hempty : v.alternatives = []) (hnull : v.is_nullable = false) :
      EmitsVariant ho ast v st (.monostate v.name) st
  /-- The signature is that of an earlier variant. -/
  | duplicate {processed : List TypeRef} {collapse : Bool} {target : Str} {st' : DefsEmitState}
      (hproc : processVariantAlternatives ast ho st.typedef_chain v = some (processed, collapse))
      (hsig : st.variant_signatures.find (signatureText (processed.map TypeRef.name)) = some target)
      (hsigs : st'.variant_signatures = st.variant_signatures)
      (hchain : st'.typedef_chain = st.typedef_chain.set v.name target) :
      EmitsVariant ho ast v st (.duplicate v.name target) st'
  | collapsed {alt : TypeRef} {st' : DefsEmitState}
      (hproc : processVariantAlternatives ast ho st.typedef_chain v = some ([alt], true))
      (hsigs : st'.variant_signatures = st.variant_signatures.set (signatureText [alt.name]) v.name)
      (hchain : st'.typedef_chain = st.typedef_chain.set v.name alt.name) :
      EmitsVariant ho ast v st (.collapsed v.name alt.name) st'
  | variant {processed : List TypeRef} {st' : DefsEmitState}
      (hproc : processVariantAlternatives ast ho st.typedef_chain v = some (processed, false))
      (hsigs : st'.variant_signatures =
        st.variant_signatures.set (signatureText (processed.map TypeRef.name)) v.name)
      (hchain : st'.typedef_chain = st.typedef_chain) :
      EmitsVariant ho ast v st (.variant v.name processed v.is_nullable) st'

theorem emitVariant_cases {st st' : DefsEmitState} {d : CppDefinition}
    (h : emitVariant ho ast v st = some (d, st')) : EmitsVariant ho ast v st d st' := by
  unfold emitVariant at h
  split at h
  · rename_i hempty
    obtain ⟨rfl, rfl⟩ := Prod.mk.inj (Option.some.inj h)
    simp only [Bool.and_eq_true, List.isEmpty_iff, Bool.not_eq_true'] at hempty
    exact .monostate hempty.1 hempty.2
  · obtain ⟨⟨processed, collapse⟩, hproc, h⟩ := Option.bind_eq_some_iff.mp h
    obtain ⟨sig, hsig, h⟩ := Option.bind_eq_some_iff.mp h
    have hspec := processVariantAlternatives_spec hproc
    rw [getVariantSignature_inline ast st.typedef_chain hspec.2.2.2.1] at hsig
    obtain rfl := Option.some.inj hsig
    dsimp only at h
    cases hfind : st.variant_signatures.find (signatureText (processed.map TypeRef.name)) with
    | some target =>
      rw [hfind] at h
      obtain ⟨rfl, rfl⟩ := Prod.mk.inj (Option.some.inj h)
      exact .duplicate hproc hfind rfl rfl
    | none =>
      rw [hfind] at h
      dsimp only at h
      have hcollapse := hspec.2.2.2.2
      split at h
      · rename_i alt rest _
        obtain ⟨rfl, rfl⟩ := Prod.mk.inj (Option.some.inj h)
        -- what is collapsed is a single alternative
        obtain rfl : rest = [] := by
          have hlen : (alt :: rest).length = 1 := by
            have := hcollapse.symm
            simp only [Bool.and_eq_true, beq_iff_eq] at this
            exact this.1
          simpa using hlen
        exact .collapsed hproc rfl rfl
      · rename_i hno
        obtain ⟨rfl, rfl⟩ := Prod.mk.inj (Option.some.inj h)
        -- a single alternative is there to collapse to
        have hfalse : collapse = false := by
          cases collapse with
          | false => rfl
          | true =>
            cases processed with
            | nil => simp at hcollapse
            | cons alt rest => exact absurd rfl (hno alt rest rfl)
        subst hfalse
        exact .variant hproc rfl rfl

/-- In the state `generateDefsCpp` starts with, only a variant that collapses is passed over. -/
theorem emitVariantSerialization_initial {processed : List TypeRef} {collapse : Bool}
    (h : processVariantAlternatives ast ho ∅ v = some (processed, collapse)) :
    emitVariantSerialization ho ast v {} =
      some (if collapse then none else some (.variant v.name processed)) := by
  have hsig := getVariantSignature_inline ast ∅ (processVariantAlternatives_spec h).2.2.2.1
  unfold emitVariantSerialization
  simp only [Table.find_empty, h, hsig, Option.bind_eq_bind, Option.bind_some]
  cases collapse <;> rfl

variable (ho) in
theorem emitVariant_isSome {st : DefsEmitState}
    (h : ∀ alt ∈ v.alternatives, ∃ x, resolveAlternative ast st.typedef_chain alt = some x) :
    ∃ r, emitVariant ho ast v st = some r := by
  obtain ⟨⟨processed, collapse⟩, hproc⟩ := processVariantAlternatives_isSome ho h
  have hsig := getVariantSignature_inline ast st.typedef_chain
    (processVariantAlternatives_spec hproc).2.2.2.1
  unfold emitVariant
  split
  · exact ⟨_, rfl⟩
  · simp only [hproc, hsig, Option.bind_eq_bind, Option.bind_some]
    split
    · exact ⟨_, rfl⟩
    · split <;> exact ⟨_, rfl⟩

end

end Siesta
