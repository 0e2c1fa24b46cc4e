import Siesta.IR.UndefinedNames

/-!
# The serializations of variants

`generateDefsHpp` decides from a state whether a variant is a `std::variant` of its own, and
`generateDefsCpp` from a state that stays empty whether it gets a `value_from` / `value_to` pair.
`HeaderAgrees` says that the two files fit together, with the aliases of the header expanded by
`HeaderType.read`.  They do when every variant of the run meets `StepAgrees`
(`header_and_source_agree`), and not when two variants have one signature.
-/

namespace Siesta

open Lib

/-! ### The C++ types of the header -/

/-- The C++ type a text names, when the aliases of the header are expanded. -/
inductive HeaderType where
  | named (name : Str)
  | vector (element : HeaderType)
  | map (value : HeaderType)
  | variant (alternatives : List HeaderType)

namespace HeaderType

section

variable (aliases : Table Str HeaderType)

def readUpTo : ℕ → Str → HeaderType
  | 0, text => .named text
  | depth + 1, text =>
    if text = vectorOf (elementText text) then .vector (readUpTo depth (elementText text))
    else if text = mapOf (valueText text) then .map (readUpTo depth (valueText text))
    else (aliases.find text).getD (.named text)

def read (text : Str) : HeaderType := readUpTo aliases (text.length + 1) text

/-- The types of the alternatives of a `std::variant`. -/
def readAlternatives (alternatives : List TypeRef) (is_nullable : Bool) : List HeaderType :=
  alternatives.map (fun alt => read aliases alt.name) ++
    if is_nullable then [.named "std::nullptr_t".toList] else []

end

theorem readUpTo_congr {aliases aliases' : Table Str HeaderType} : ∀ (depth : ℕ) (text : Str),
    (∀ m, Writes text m → aliases.find m = aliases'.find m) →
      readUpTo aliases depth text = readUpTo aliases' depth text := by
  intro depth
  induction depth with
  | zero => exact fun text _ => rfl
  | succ depth ih =>
    intro text h
    unfold readUpTo
    split
    · rename_i hvector
      exact congrArg HeaderType.vector (ih _ fun m hm => h m (hvector ▸ .element hm))
    · split
      · rename_i hmap
        exact congrArg HeaderType.map (ih _ fun m hm => h m (hmap ▸ .value hm))
      · rw [h text (.name text)]

theorem read_congr {aliases aliases' : Table Str HeaderType} {text : Str}
    (h : ∀ m, Writes text m → aliases.find m = aliases'.find m) : read aliases text = read aliases' text :=
  readUpTo_congr _ text h

theorem read_bare {aliases : Table Str HeaderType} {text : Str} (h : Bare text) :
    read aliases text = (aliases.find text).getD (.named text) := by
  have hvector : text ≠ vectorOf (elementText text) := fun heq =>
    h.1 (heq ▸ vectorPrefix_vectorOf (elementText text))
  have hmap : text ≠ mapOf (valueText text) := fun heq => h.2 (heq ▸ mapPrefix_mapOf (valueText text))
  rw [read, readUpTo, if_neg hvector, if_neg hmap]

end HeaderType

open HeaderType

/-- The type a definition gives its name, when it is no type of its own. -/
def CppDefinition.aliased (aliases : Table Str HeaderType) : CppDefinition → Option HeaderType
  | .struct _ => none
  | .monostate _ => some (.named "std::monostate".toList)
  | .duplicate _ target | .collapsed _ target => some (read aliases target)
  | .variant _ alternatives is_nullable => some (.variant (readAlternatives aliases alternatives is_nullable))
  | .enumClass _ _ => none
  | .typedef _ type => some (read aliases type)
  | .arrayAlias _ element => some (.vector (read aliases element))
  | .mapAlias _ value => some (.map (read aliases value))

def declare (aliases : Table Str HeaderType) (e : Emitted) : Table Str HeaderType :=
  match e.definition.aliased aliases with
  | none => aliases
  | some type => aliases.set e.definition.name type

def aliasesOf (defs : List Emitted) : Table Str HeaderType := defs.foldl declare ∅

theorem aliasesOf_snoc (defs : List Emitted) (e : Emitted) :
    aliasesOf (defs ++ [e]) = declare (aliasesOf defs) e := by
  rw [aliasesOf, List.foldl_append]
  rfl

/-! ### What the two files promise each other -/

def CppSerialization.variantName : CppSerialization → Option Str
  | .variant name _ => some name
  | _ => none

/-- The name of a `std::variant`. -/
def CppDefinition.variantName : CppDefinition → Option Str
  | .variant name _ _ => some name
  | _ => none

/-- The variants of the header and the pairs of the source file fit together. -/
structure HeaderAgrees (defs : List Emitted) (pairs : List CppSerialization) : Prop where
  /-- A pair is emitted for a name exactly when it is that of a `std::variant`. -/
  emitted : ∀ n, (∃ tried, .variant n tried ∈ pairs) ↔
    ∃ e ∈ defs, ∃ alternatives is_nullable, e.definition = .variant n alternatives is_nullable
  /-- Its decoder tries the types of the alternatives, and no other. -/
  tried : ∀ n tried, .variant n tried ∈ pairs → ∀ e ∈ defs, ∀ alternatives is_nullable,
    e.definition = .variant n alternatives is_nullable →
      ∀ t, t ∈ readAlternatives (aliasesOf defs) tried false ↔
        t ∈ readAlternatives (aliasesOf defs) alternatives is_nullable
  /-- No two pairs are for the same C++ type. -/
  overloads : (pairs.filterMap CppSerialization.variantName).Pairwise fun m n =>
    read (aliasesOf defs) m ≠ read (aliasesOf defs) n

/-! ### The steps that go well -/

/-- The alternatives of `v` resolve to one and the same name. -/
def OneName (ast : NormalizedAST) (chain : Table Str Str) (v : VariantType) : Prop :=
  ∃ x, ∀ alt ∈ v.alternatives, resolveAlternative ast chain alt = some x

/-- The variant `v` is emitted as both files see it, after the definitions `acc.1` in the state `acc.2`
of the header. -/
structure StepAgrees (ho : HashOrders) (ast : NormalizedAST) (acc : List Emitted × DefsEmitState)
    (v : VariantType) : Prop where
  nonempty : v.alternatives ≠ []
  not_nullable : v.is_nullable = false
  /-- An inline alternative is taken as it is, so it has to be no alias. -/
  inline : ∀ alt ∈ v.alternatives, alt.is_inline = true →
    resolveTypeName ast acc.2.typedef_chain alt.name = some alt.name
  /-- The alternatives become one name without the aliases, when they do with them. -/
  collapse : OneName ast acc.2.typedef_chain v → OneName ast ∅ v
  /-- The signature is new, or that of an alias of the one name the alternatives become. -/
  signature : ∀ processed collapse,
    processVariantAlternatives ast ho acc.2.typedef_chain v = some (processed, collapse) →
    ∀ target, acc.2.variant_signatures.find (signatureText (processed.map TypeRef.name)) = some target →
      ∃ x, processed.map TypeRef.name = [x] ∧ acc.2.typedef_chain.find target = some x
  /-- No `std::variant` so far has these alternatives in this order. -/
  fresh : ∀ processed collapse,
    processVariantAlternatives ast ho acc.2.typedef_chain v = some (processed, collapse) →
    ∀ e ∈ acc.1, ∀ n alternatives is_nullable, e.definition = .variant n alternatives is_nullable →
      readAlternatives (aliasesOf acc.1) alternatives is_nullable ≠
        readAlternatives (aliasesOf acc.1) processed v.is_nullable

/-- Every variant the loop meets from `acc` on goes well. -/
def StepsAgree (ho : HashOrders) (ast : NormalizedAST) : List Str → List Emitted × DefsEmitState → Prop
  | [], _ => True
  | n :: rest, acc =>
    (∀ v, ast.getType n = some (.variant v) → StepAgrees ho ast acc v) ∧
      ∀ acc', emitNext ho ast acc n = some acc' → StepsAgree ho ast rest acc'

/-! ### Names of earlier definitions -/

section

variable {ast : NormalizedAST} {done : List Str} {st st' : DefsEmitState} {n : Str}

theorem ne_of_written (hn : n ∈ ast) (hnew : n ∉ done) {name m : Str} (hw : Written ast done name)
    (hm : Writes name m) : m ≠ n := by
  rintro rfl
  exact hnew (hw m hn hm)

theorem Written.append {name : Str} (hw : Written ast done name) (rest : List Str) :
    Written ast (done ++ rest) name := fun m hm hwm => List.mem_append_left _ (hw m hm hwm)

variable (inv : EmitInv ast done st) (hn : n ∈ ast) (hnew : n ∉ done)
  (hchain : ∀ k, k ≠ n → st'.typedef_chain.find k = st.typedef_chain.find k)

include inv hn hnew hchain

/-- An entry for a new name does not lengthen the chains of the earlier ones. -/
theorem Ends.keep {name e : Str} (hw : Written ast done name) (h : Ends st.typedef_chain name e) :
    Ends st'.typedef_chain name e := by
  obtain ⟨hreach, hend⟩ := h
  induction hreach using Relation.ReflTransGen.head_induction_on with
  | refl =>
    refine ⟨.refl, fun hmem => hend ?_⟩
    obtain ⟨target, htarget⟩ := Table.mem_iff_find.mp hmem
    rw [hchain e (ne_of_written hn hnew hw (.name e))] at htarget
    exact Table.mem_of_find htarget
  | @head a c hac _ ih =>
    have hkeep := ih (inv.written_target hac)
    have hstep : st'.typedef_chain.find a = some c :=
      (hchain a (ne_of_written hn hnew hw (.name a))).trans hac
    exact ⟨.head hstep hkeep.1, hkeep.2⟩

theorem resolveTypeName_keep (inv' : EmitInv ast (done ++ [n]) st') {name : Str}
    (hw : Written ast done name) :
    resolveTypeName ast st'.typedef_chain name = resolveTypeName ast st.typedef_chain name := by
  obtain ⟨e, -, hends, -⟩ := exists_ends inv hw
  have hends' := hends.keep inv hn hnew hchain hw
  rw [resolveTypeName_eq inv hw hends, resolveTypeName_eq inv' (hw.append [n]) hends']

theorem resolveAlternative_keep (inv' : EmitInv ast (done ++ [n]) st') {alt : TypeRef}
    (hw : Written ast done alt.name) :
    resolveAlternative ast st'.typedef_chain alt = resolveAlternative ast st.typedef_chain alt := by
  unfold resolveAlternative
  split
  · rfl
  · exact resolveTypeName_keep inv hn hnew hchain inv' hw

end

theorem resolveTypeName_idem {ast : NormalizedAST} {done : List Str} {st : DefsEmitState}
    (hsan : ast.Sanitized) (inv : EmitInv ast done st) {name r : Str} (hw : Written ast done name)
    (h : resolveTypeName ast st.typedef_chain name = some r) :
    resolveTypeName ast st.typedef_chain r = some r := by
  obtain ⟨e, -, hends, he⟩ := exists_ends inv hw
  obtain rfl : endName ast e = r := Option.some.inj ((resolveTypeName_eq inv hw hends).symm.trans h)
  have hstring : "std::string".toList ∉ ast := fun hmem => absurd (hsan.colon_notMem hmem) (by decide)
  have hself : Ends st.typedef_chain e e := ⟨.refl, hends.2⟩
  have hnone : ∀ {x : Str}, x ∉ ast → endName ast x = x := by
    intro x hx
    have hget : ast.getType x = none := Table.find_eq_none.mpr hx
    rw [endName, hget]
  -- the end is either kept, or replaced by the name of the C++ string
  have hcases : endName ast e = e ∨ endName ast e = "std::string".toList := by
    unfold endName
    split
    · split
      · exact .inl rfl
      · exact .inr rfl
    · exact .inl rfl
  rcases hcases with heq | heq
  · rw [heq]
    exact (resolveTypeName_eq inv he hself).trans (congrArg some heq)
  · rw [heq]
    have hends' : Ends st.typedef_chain "std::string".toList "std::string".toList :=
      ⟨.refl, fun hmem => by
        obtain ⟨t, ht⟩ := Table.mem_iff_find.mp hmem
        exact hstring (inv.mem _ (inv.chain _ t ht).1)⟩
    exact (resolveTypeName_eq inv (written_string hsan) hends').trans (congrArg some (hnone hstring))

/-! ### Aliases of earlier definitions -/

section

variable {ho : HashOrders} {ast : NormalizedAST} {done : List Str} {n : Str}

theorem emitsVariant_name {v : VariantType} {st st' : DefsEmitState} {d : CppDefinition}
    (h : EmitsVariant ho ast v st d st') : d.name = v.name := by
  cases h with
  | monostate => rfl
  | duplicate => rfl
  | collapsed => rfl
  | variant => rfl

theorem emitType_aliased (hnames : ast.NamedByKey) {type : SchemaType}
    (htype : ast.getType n = some type) {st st' : DefsEmitState} {d : CppDefinition}
    (h : emitType ho ast n type st = some (d, st')) (aliases : Table Str HeaderType) :
    d.aliased aliases = none ∨ d.name = n := by
  cases type with
  | struct t =>
    obtain ⟨rfl, -⟩ := Prod.mk.inj (Option.some.inj h)
    exact .inl rfl
  | variant v => exact .inr ((emitsVariant_name (emitVariant_cases h)).trans (hnames n _ htype))
  | array t =>
    obtain ⟨rfl, -⟩ := Prod.mk.inj (Option.some.inj h)
    exact .inr rfl
  | map t =>
    obtain ⟨rfl, -⟩ := Prod.mk.inj (Option.some.inj h)
    exact .inr rfl
  | enum t =>
    obtain ⟨rfl, -⟩ := Prod.mk.inj (Option.some.inj h)
    exact .inl rfl
  | primitive t =>
    unfold emitType at h
    dsimp only at h
    split at h
    · obtain ⟨rfl, -⟩ := Prod.mk.inj (Option.some.inj h)
      exact .inl rfl
    · obtain ⟨rfl, -⟩ := Prod.mk.inj (Option.some.inj h)
      exact .inr rfl

theorem find_declare {aliases : Table Str HeaderType} {d : CppDefinition} {key : Str}
    (h : d.aliased aliases = none ∨ d.name = n) {k : Str} (hk : k ≠ n) :
    (declare aliases ⟨key, d⟩).find k = aliases.find k := by
  unfold declare
  split
  · rfl
  · rename_i type htype
    have hname : d.name = n := h.resolve_left (by simp [htype])
    rw [Table.find_set, if_neg (hname ▸ hk)]

theorem read_keep {aliases aliases' : Table Str HeaderType} (hn : n ∈ ast) (hnew : n ∉ done)
    (haliases : ∀ k, k ≠ n → aliases'.find k = aliases.find k) {text : Str} (hw : Written ast done text) :
    read aliases' text = read aliases text :=
  read_congr fun m hm => haliases m (ne_of_written hn hnew hw hm)

theorem readAlternatives_keep {aliases aliases' : Table Str HeaderType} (hn : n ∈ ast) (hnew : n ∉ done)
    (haliases : ∀ k, k ≠ n → aliases'.find k = aliases.find k) {alternatives : List TypeRef}
    (hw : ∀ alt ∈ alternatives, Written ast done alt.name) (is_nullable : Bool) :
    readAlternatives aliases' alternatives is_nullable =
      readAlternatives aliases alternatives is_nullable := by
  have hmap : alternatives.map (fun alt => read aliases' alt.name) =
      alternatives.map fun alt => read aliases alt.name :=
    List.map_congr_left fun alt halt => read_keep hn hnew haliases (hw alt halt)
  rw [readAlternatives, readAlternatives, hmap]

/-- A definition that makes an alias of its name is what the name is read as. -/
theorem read_declare {aliases : Table Str HeaderType} {d : CppDefinition} {key : Str} {type : HeaderType}
    (hbare : Bare d.name) (h : d.aliased aliases = some type) :
    read (declare aliases ⟨key, d⟩) d.name = type := by
  rw [read_bare hbare, declare, h]
  dsimp only
  rw [Table.find_set, if_pos rfl, Option.getD_some]

end

/-! ### What a run that goes well keeps -/

/-- The variant `x`, whose alternatives all became `r`, was emitted as an alias of it. -/
structure IsAlias (ast : NormalizedAST) (aliases : Table Str HeaderType) (chain : Table Str Str)
    (x r : Str) (v : VariantType) : Prop where
  type : ast.getType x = some (.variant v)
  resolves : resolveTypeName ast chain x = some r
  final : resolveTypeName ast chain r = some r
  alternatives : ∀ alt ∈ v.alternatives, resolveAlternative ast chain alt = some r
  read_eq : read aliases x = read aliases r

/-- The variant `n` was emitted as a `std::variant` of its resolved alternatives. -/
structure IsVariant (ast : NormalizedAST) (done : List Str) (aliases : Table Str HeaderType)
    (chain : Table Str Str) (n : Str) (alternatives : List TypeRef) (is_nullable : Bool)
    (v : VariantType) : Prop where
  type : ast.getType n = some (.variant v)
  mem : n ∈ done
  not_nullable : is_nullable = false
  written : ∀ alt ∈ alternatives, Written ast done alt.name
  names : ∀ x, x ∈ alternatives.map TypeRef.name ↔ ∃ alt ∈ v.alternatives,
    resolveAlternative ast chain alt = some x
  read_eq : read aliases n = .variant (readAlternatives aliases alternatives is_nullable)

/-- The definitions `acc.1` and the pairs `pairs`, when the types `done` have been emitted. -/
structure AgreeInv (ast : NormalizedAST) (done : List Str) (acc : List Emitted × DefsEmitState)
    (pairs : List CppSerialization) : Prop where
  emit : EmitInv ast done acc.2
  before : ∀ x ∈ done, ∀ type, ast.getType x = some type → ∀ ref ∈ type.refs, ∀ m ∈ ast,
    Writes ref.name m → StandsBefore done m x
  chain : ∀ x ∈ acc.2.typedef_chain, ∃ r v, IsAlias ast (aliasesOf acc.1) acc.2.typedef_chain x r v
  variants : ∀ e ∈ acc.1, ∀ n alternatives is_nullable,
    e.definition = .variant n alternatives is_nullable →
      ∃ v, IsVariant ast done (aliasesOf acc.1) acc.2.typedef_chain n alternatives is_nullable v
  names : pairs.filterMap CppSerialization.variantName =
    acc.1.filterMap fun e => e.definition.variantName
  tried : ∀ n tried, .variant n tried ∈ pairs → ∃ v, ast.getType n = some (.variant v) ∧
    ∀ x, x ∈ tried.map TypeRef.name ↔ ∃ alt ∈ v.alternatives, resolveAlternative ast ∅ alt = some x
  distinct : (acc.1.filterMap fun e => e.definition.variantName).Pairwise fun m k =>
    read (aliasesOf acc.1) m ≠ read (aliasesOf acc.1) k

theorem CppDefinition.variantName_eq_some {d : CppDefinition} {n : Str} :
    d.variantName = some n ↔ ∃ alternatives is_nullable, d = .variant n alternatives is_nullable := by
  cases d <;> simp [CppDefinition.variantName]

theorem CppSerialization.variantName_eq_some {s : CppSerialization} {n : Str} :
    s.variantName = some n ↔ ∃ tried, s = .variant n tried := by
  cases s <;> simp [CppSerialization.variantName]

theorem AgreeInv.init (ast : NormalizedAST) : AgreeInv ast [] ([], {}) [] where
  emit := EmitInv.init
  before := by simp
  chain x hx := by
    obtain ⟨t, ht⟩ := Table.mem_iff_find.mp hx
    simp at ht
  variants := by simp
  names := rfl
  tried := by simp
  distinct := List.Pairwise.nil

section

variable {ast : NormalizedAST} {done : List Str} {acc : List Emitted × DefsEmitState}
  {pairs : List CppSerialization} (inv : AgreeInv ast done acc pairs)

include inv

theorem AgreeInv.written_ref {x : Str} (hx : x ∈ done) {type : SchemaType}
    (htype : ast.getType x = some type) {ref : TypeRef} (href : ref ∈ type.refs) :
    Written ast done ref.name := fun m hm hw => (inv.before x hx type htype ref href m hm hw).mem_left

theorem AgreeInv.step (hsan : ast.Sanitized) {n : Str} (hn : n ∈ ast) (hnew : n ∉ done)
    {st' : DefsEmitState} {d : CppDefinition} {pairs' : List CppSerialization}
    (hemit : EmitInv ast (done ++ [n]) st')
    (hrefs : ∀ type, ast.getType n = some type → ∀ ref ∈ type.refs, Written ast done ref.name)
    (hchain : ∀ k, k ≠ n → st'.typedef_chain.find k = acc.2.typedef_chain.find k)
    (haliased : d.aliased (aliasesOf acc.1) = none ∨ d.name = n)
    (halias : n ∈ st'.typedef_chain →
      ∃ r v, IsAlias ast (aliasesOf (acc.1 ++ [⟨n, d⟩])) st'.typedef_chain n r v)
    (hvariant : ∀ m alternatives is_nullable, d = .variant m alternatives is_nullable →
      (∃ v, IsVariant ast (done ++ [n]) (aliasesOf (acc.1 ++ [⟨n, d⟩])) st'.typedef_chain m alternatives
        is_nullable v) ∧
      ∀ e ∈ acc.1, ∀ k, e.definition.variantName = some k →
        read (aliasesOf (acc.1 ++ [⟨n, d⟩])) k ≠ read (aliasesOf (acc.1 ++ [⟨n, d⟩])) m)
    (hnames : pairs'.filterMap CppSerialization.variantName = d.variantName.toList)
    (htried : ∀ m tried, .variant m tried ∈ pairs' → ∃ v, ast.getType m = some (.variant v) ∧
      ∀ x, x ∈ tried.map TypeRef.name ↔ ∃ alt ∈ v.alternatives, resolveAlternative ast ∅ alt = some x) :
    AgreeInv ast (done ++ [n]) (acc.1 ++ [⟨n, d⟩], st') (pairs ++ pairs') := by
  have haliases : ∀ k, k ≠ n →
      (aliasesOf (acc.1 ++ [⟨n, d⟩])).find k = (aliasesOf acc.1).find k := fun k hk => by
    rw [aliasesOf_snoc]
    exact find_declare haliased hk
  have hread : ∀ {text}, Written ast done text →
      read (aliasesOf (acc.1 ++ [⟨n, d⟩])) text = read (aliasesOf acc.1) text :=
    fun hw => read_keep hn hnew haliases hw
  have hresolve : ∀ {name}, Written ast done name →
      resolveTypeName ast st'.typedef_chain name = resolveTypeName ast acc.2.typedef_chain name :=
    fun hw => resolveTypeName_keep inv.emit hn hnew hchain hemit hw
  have hname : ∀ x ∈ done, Written ast done x := fun x hx => written_of_mem hsan inv.emit.mem hx
  have halternative : ∀ {x v}, x ∈ done → ast.getType x = some (.variant v) → ∀ alt ∈ v.alternatives,
      resolveAlternative ast st'.typedef_chain alt = resolveAlternative ast acc.2.typedef_chain alt :=
    fun hx htype alt halt => resolveAlternative_keep inv.emit hn hnew hchain hemit
      (inv.written_ref hx htype halt)
  have hvariants : ∀ e ∈ acc.1, ∀ k, e.definition.variantName = some k → k ∈ done := by
    intro e he k hk
    obtain ⟨alternatives, is_nullable, hd⟩ := CppDefinition.variantName_eq_some.mp hk
    obtain ⟨v, hv⟩ := inv.variants e he k alternatives is_nullable hd
    exact hv.mem
  refine ⟨hemit, ?_, ?_, ?_, ?_, ?_, ?_⟩
  · intro x hx type htype ref href m hm hw
    rcases List.mem_append.mp hx with hx | hx
    · exact (inv.before x hx type htype ref href m hm hw).append_right _
    · obtain rfl := List.mem_singleton.mp hx
      exact standsBefore_of_mem (hrefs type htype ref href m hm hw)
  · intro x hx
    by_cases hxn : x = n
    · exact hxn ▸ halias (hxn ▸ hx)
    · obtain ⟨target, htarget⟩ := Table.mem_iff_find.mp hx
      rw [hchain x hxn] at htarget
      have hdone : x ∈ done := (inv.emit.chain x target htarget).1
      obtain ⟨r, v, h⟩ := inv.chain x (Table.mem_of_find htarget)
      obtain ⟨r', hr', hw⟩ := resolveTypeName_spec hsan inv.emit (hname x hdone)
      obtain rfl : r = r' := Option.some.inj (h.resolves.symm.trans hr')
      refine ⟨r, v, h.type, (hresolve (hname x hdone)).trans h.resolves, (hresolve hw).trans h.final,
        fun alt halt => (halternative hdone h.type alt halt).trans (h.alternatives alt halt), ?_⟩
      rw [hread (hname x hdone), hread hw, h.read_eq]
  · intro e he m alternatives is_nullable hd
    rcases List.mem_append.mp he with he | he
    · obtain ⟨v, h⟩ := inv.variants e he m alternatives is_nullable hd
      refine ⟨v, h.type, List.mem_append_left _ h.mem, h.not_nullable,
        fun alt halt => (h.written alt halt).append [n], fun x => ?_, ?_⟩
      · rw [h.names]
        exact exists_congr fun alt => and_congr_right fun halt => by
          rw [halternative h.mem h.type alt halt]
      · rw [hread (hname m h.mem), h.read_eq, readAlternatives_keep hn hnew haliases h.written]
    · obtain rfl := List.mem_singleton.mp he
      exact (hvariant m alternatives is_nullable hd).1
  · rw [List.filterMap_append, List.filterMap_append, inv.names, hnames]
    cases hd : d.variantName with
    | none => simp [hd]
    | some m => simp [hd]
  · intro m tried hm
    rcases List.mem_append.mp hm with hm | hm
    · exact inv.tried m tried hm
    · exact htried m tried hm
  · rw [List.filterMap_append, List.pairwise_append]
    refine ⟨inv.distinct.imp_of_mem fun {a b} ha hb hab => ?_, ?_, fun k hk m hm => ?_⟩
    · obtain ⟨e, he, ha⟩ := List.mem_filterMap.mp ha
      obtain ⟨e', he', hb⟩ := List.mem_filterMap.mp hb
      rw [hread (hname a (hvariants e he a ha)), hread (hname b (hvariants e' he' b hb))]
      exact hab
    · cases hd : d.variantName with
      | none => simp [hd]
      | some m => simp [hd]
    · obtain ⟨e, he, hk⟩ := List.mem_filterMap.mp hk
      obtain ⟨e', he', hm⟩ := List.mem_filterMap.mp hm
      obtain rfl := List.mem_singleton.mp he'
      obtain ⟨alternatives, is_nullable, hd⟩ := CppDefinition.variantName_eq_some.mp hm
      exact (hvariant m alternatives is_nullable hd).2 e he k hk

end

/-! ### Resolving without the aliases -/

section

variable {ast : NormalizedAST} {done : List Str} {acc : List Emitted × DefsEmitState}
  {pairs : List CppSerialization} (inv : AgreeInv ast done acc pairs)

include inv

/-- A name that is resolved without the aliases still stands for what the header resolves it to. -/
theorem AgreeInv.resolve_initial (hsan : ast.Sanitized) : ∀ (fuel : ℕ) (name : Str),
    Written ast done name → 0 < fuel → (name ∈ ast → done.idxOf name + 1 < fuel) →
      ∃ r₀ r, resolveTypeNameUpTo ast ∅ fuel name = some r₀ ∧
        resolveTypeName ast acc.2.typedef_chain name = some r ∧
        resolveTypeName ast acc.2.typedef_chain r₀ = some r ∧
        read (aliasesOf acc.1) r₀ = read (aliasesOf acc.1) r := by
  intro fuel
  induction fuel with
  | zero => exact fun name _ hfuel => absurd hfuel (by simp)
  | succ fuel ih =>
    intro name hw _ hfuel
    have hfollow : followChain ∅ ((∅ : Table Str Str).entries.length + 1) [] name = some name := by
      simp [followChain]
    by_cases hsingle : SingleVariant ast name
    · -- a variant that is its only alternative: the header has made an alias of it
      obtain ⟨v, alt, htype, halts, hnull⟩ := hsingle
      have hast : name ∈ ast := NormalizedAST.mem_of_getType htype
      have hdone : name ∈ done := hw name hast (.name name)
      obtain ⟨r, v', h⟩ := inv.chain name (inv.emit.single name hdone ⟨v, alt, htype, halts, hnull⟩)
      obtain rfl : v = v' := by simpa using htype.symm.trans h.type
      have halt : alt ∈ v.alternatives := by simp [halts]
      have hr := h.alternatives alt halt
      unfold resolveTypeNameUpTo
      rw [hfollow, Option.bind_eq_bind, Option.bind_some, htype]
      simp only [halts, hnull, Bool.not_false, if_true]
      cases hinline : alt.is_inline with
      | true =>
        simp only [resolveAlternative, hinline, if_true, Option.some.injEq] at hr
        exact ⟨alt.name, r, rfl, h.resolves, hr ▸ h.final, by rw [hr]⟩
      | false =>
        simp only [resolveAlternative, hinline, Bool.false_eq_true, if_false] at hr
        have hwalt : Written ast done alt.name := inv.written_ref hdone htype halt
        have hlt : alt.name ∈ ast → done.idxOf alt.name + 1 < fuel := fun hmem => by
          have hbefore := inv.before name hdone _ htype alt halt alt.name hmem (.name alt.name)
          have hlt := hbefore.idxOf_lt inv.emit.nodup
          have := hfuel hast
          omega
        have hpos : 0 < fuel := by
          have := hfuel hast
          omega
        obtain ⟨r₀, r', h₀, hr', hfinal, hread⟩ := ih alt.name hwalt hpos hlt
        obtain rfl : r = r' := Option.some.inj (hr.symm.trans hr')
        exact ⟨r₀, r, h₀, h.resolves, hfinal, hread⟩
    · -- any other name is kept, but for the name of a primitive type
      have h₀ : resolveTypeNameUpTo ast ∅ (fuel + 1) name = some (endName ast name) :=
        resolveTypeNameUpTo_end fuel hfollow hsingle
      by_cases hmem : name ∈ acc.2.typedef_chain
      · obtain ⟨r, v, h⟩ := inv.chain name hmem
        have hend : endName ast name = name := by rw [endName, h.type]
        exact ⟨name, r, by rw [h₀, hend], h.resolves, h.resolves, h.read_eq⟩
      · have hr := resolveTypeName_eq inv.emit hw ⟨.refl, hmem⟩
        exact ⟨endName ast name, endName ast name, h₀, hr, resolveTypeName_idem hsan inv.emit hw hr, rfl⟩

theorem AgreeInv.idxOf_lt {name : Str} (hname : name ∈ done) : done.idxOf name + 1 < ast.getTypeCount + 1 := by
  have hsub : done.length ≤ ast.types_.keys.length :=
    (List.subperm_of_subset inv.emit.nodup fun x hx =>
      AList.mem_keys.mpr (inv.emit.mem x hx)).length_le
  have hkeys : ast.types_.keys.length = ast.getTypeCount := List.length_map _
  have hlt : done.idxOf name < done.length := List.idxOf_lt_length_of_mem hname
  omega

theorem AgreeInv.alternative_initial (hsan : ast.Sanitized) {alt : TypeRef}
    (hw : Written ast done alt.name) :
    ∃ r₀ r, resolveAlternative ast ∅ alt = some r₀ ∧
      resolveAlternative ast acc.2.typedef_chain alt = some r ∧
      read (aliasesOf acc.1) r₀ = read (aliasesOf acc.1) r ∧
      ((alt.is_inline = true → resolveTypeName ast acc.2.typedef_chain alt.name = some alt.name) →
        resolveTypeName ast acc.2.typedef_chain r₀ = some r) := by
  unfold resolveAlternative
  cases hinline : alt.is_inline with
  | true => exact ⟨alt.name, alt.name, rfl, rfl, rfl, fun h => h rfl⟩
  | false =>
    obtain ⟨r₀, r, h₀, hr, hfinal, hread⟩ := inv.resolve_initial hsan (ast.getTypeCount + 1) alt.name hw
      (by omega) fun hmem => inv.idxOf_lt (hw alt.name hmem (.name alt.name))
    exact ⟨r₀, r, h₀, hr, hread, fun _ => hfinal⟩

/-- Alternatives that become one name without the aliases do so with them. -/
theorem AgreeInv.oneName_of_initial (hsan : ast.Sanitized) {v : VariantType} (hne : v.alternatives ≠ [])
    (hw : ∀ alt ∈ v.alternatives, Written ast done alt.name)
    (hinline : ∀ alt ∈ v.alternatives, alt.is_inline = true →
      resolveTypeName ast acc.2.typedef_chain alt.name = some alt.name)
    (h : OneName ast ∅ v) : OneName ast acc.2.typedef_chain v := by
  obtain ⟨x, hx⟩ := h
  have hstep : ∀ alt ∈ v.alternatives,
      resolveAlternative ast acc.2.typedef_chain alt = resolveTypeName ast acc.2.typedef_chain x := by
    intro alt halt
    obtain ⟨r₀, r, h₀, hr, -, hfinal⟩ := inv.alternative_initial hsan (hw alt halt)
    obtain rfl : x = r₀ := Option.some.inj ((hx alt halt).symm.trans h₀)
    rw [hr, hfinal (hinline alt halt)]
  obtain ⟨alt, halt⟩ := List.exists_mem_of_ne_nil _ hne
  obtain ⟨-, r, -, hr, -⟩ := inv.alternative_initial hsan (hw alt halt)
  refine ⟨r, fun alt' halt' => ?_⟩
  rw [hstep alt' halt', ← hstep alt halt, hr]

end

/-! ### What collapses -/

section

variable {ast : NormalizedAST} {ho : HashOrders} {chain : Table Str Str} {v : VariantType}
  {processed : List TypeRef} {collapse : Bool}
  (h : processVariantAlternatives ast ho chain v = some (processed, collapse))

include h

theorem oneName_of_names {x : Str} (hx : processed.map TypeRef.name = [x]) :
    ∀ alt ∈ v.alternatives, resolveAlternative ast chain alt = some x := by
  obtain ⟨hall, hmem, -⟩ := processVariantAlternatives_spec h
  intro alt halt
  obtain ⟨y, hy⟩ := hall alt halt
  have hin : y ∈ processed.map TypeRef.name := (hmem y).mpr ⟨alt, halt, hy⟩
  rw [hx, List.mem_singleton] at hin
  rw [hy, hin]

theorem names_of_oneName (hne : v.alternatives ≠ []) {x : Str}
    (hx : ∀ alt ∈ v.alternatives, resolveAlternative ast chain alt = some x) :
    processed.map TypeRef.name = [x] := by
  obtain ⟨-, hmem, hnd, -⟩ := processVariantAlternatives_spec h
  have hperm : (processed.map TypeRef.name).Perm [x] := by
    refine (List.perm_ext_iff_of_nodup hnd (List.nodup_singleton x)).mpr fun y => ?_
    rw [hmem, List.mem_singleton]
    constructor
    · rintro ⟨alt, halt, hy⟩
      exact Option.some.inj (hy.symm.trans (hx alt halt))
    · rintro rfl
      obtain ⟨alt, halt⟩ := List.exists_mem_of_ne_nil _ hne
      exact ⟨alt, halt, hx alt halt⟩
  exact List.perm_singleton.mp hperm

/-- A variant with alternatives, none of them null, collapses when they become one name. -/
theorem collapse_iff_oneName (hne : v.alternatives ≠ []) (hnull : v.is_nullable = false) :
    collapse = true ↔ OneName ast chain v := by
  have hcollapse := (processVariantAlternatives_spec h).2.2.2.2
  rw [hcollapse, hnull]
  simp only [Bool.not_false, Bool.and_true, beq_iff_eq]
  constructor
  · intro hlen
    obtain ⟨x, hx⟩ := List.length_eq_one_iff.mp ((List.length_map TypeRef.name).trans hlen)
    exact ⟨x, oneName_of_names h hx⟩
  · rintro ⟨x, hx⟩
    have hlen := congrArg List.length (names_of_oneName h hne hx)
    rwa [List.length_map] at hlen

end

/-! ### One turn of both loops -/

section

variable {ho : HashOrders} {ast : NormalizedAST} {done : List Str} {acc : List Emitted × DefsEmitState}
  {pairs : List CppSerialization} (inv : AgreeInv ast done acc pairs)

include inv

theorem AgreeInv.resolve_next {x target : Str} (h : acc.2.typedef_chain.find x = some target)
    (hx : Written ast done x) :
    resolveTypeName ast acc.2.typedef_chain x = resolveTypeName ast acc.2.typedef_chain target := by
  have htarget := inv.emit.written_target h
  obtain ⟨e, -, hends, -⟩ := exists_ends inv.emit htarget
  rw [resolveTypeName_eq inv.emit htarget hends,
    resolveTypeName_eq inv.emit hx ⟨.head h hends.1, hends.2⟩]

/-- The name that all alternatives become is resolved as far as it goes. -/
theorem AgreeInv.final_of_oneName (hsan : ast.Sanitized) {v : VariantType} (hgood : StepAgrees ho ast acc v)
    (hw : ∀ alt ∈ v.alternatives, Written ast done alt.name) {x : Str}
    (hx : ∀ alt ∈ v.alternatives, resolveAlternative ast acc.2.typedef_chain alt = some x) :
    resolveTypeName ast acc.2.typedef_chain x = some x ∧ Written ast done x := by
  obtain ⟨alt, halt⟩ := List.exists_mem_of_ne_nil _ hgood.nonempty
  have hxalt := hx alt halt
  have hinline := hgood.inline alt halt
  have hwalt := hw alt halt
  unfold resolveAlternative at hxalt
  cases hflag : alt.is_inline with
  | true =>
    rw [hflag, if_pos rfl] at hxalt
    obtain rfl := Option.some.inj hxalt
    exact ⟨hinline hflag, hwalt⟩
  | false =>
    rw [hflag, if_neg (by simp)] at hxalt
    obtain ⟨r, hr, hwr⟩ := resolveTypeName_spec hsan inv.emit hwalt
    obtain rfl : x = r := Option.some.inj (hxalt.symm.trans hr)
    exact ⟨resolveTypeName_idem hsan inv.emit hwalt hxalt, hwr⟩

theorem AgreeInv.alias_step (hsan : ast.Sanitized) {n : Str} {v : VariantType}
    (hv : ast.getType n = some (.variant v)) (hnew : n ∉ done) (hgood : StepAgrees ho ast acc v)
    (hw : ∀ alt ∈ v.alternatives, Written ast done alt.name) {x : Str}
    (hx : ∀ alt ∈ v.alternatives, resolveAlternative ast acc.2.typedef_chain alt = some x)
    {target : Str} (hwtarget : Written ast done target)
    (htarget : resolveTypeName ast acc.2.typedef_chain target = some x)
    (hread : read (aliasesOf acc.1) target = read (aliasesOf acc.1) x)
    {d : CppDefinition} {st' : DefsEmitState} (hemit : EmitInv ast (done ++ [n]) st')
    (hd : d = .duplicate n target ∨ d = .collapsed n target)
    (hchain : st'.typedef_chain = acc.2.typedef_chain.set n target) :
    AgreeInv ast (done ++ [n]) (acc.1 ++ [⟨n, d⟩], st') pairs := by
  have hn : n ∈ ast := NormalizedAST.mem_of_getType hv
  have hname : d.name = n := by rcases hd with rfl | rfl <;> rfl
  have hnone : d.variantName = none := by rcases hd with rfl | rfl <;> rfl
  have haliased : d.aliased (aliasesOf acc.1) = some (read (aliasesOf acc.1) target) := by
    rcases hd with rfl | rfl <;> rfl
  have hother : ∀ k, k ≠ n → st'.typedef_chain.find k = acc.2.typedef_chain.find k := fun k hk => by
    rw [hchain, Table.find_set, if_neg hk]
  have hfind : st'.typedef_chain.find n = some target := by rw [hchain, Table.find_set, if_pos rfl]
  have hresolve : ∀ {name}, Written ast done name →
      resolveTypeName ast st'.typedef_chain name = resolveTypeName ast acc.2.typedef_chain name :=
    fun hw => resolveTypeName_keep inv.emit hn hnew hother hemit hw
  obtain ⟨hfinal, hwx⟩ := inv.final_of_oneName hsan hgood hw hx
  have halias : IsAlias ast (aliasesOf (acc.1 ++ [⟨n, d⟩])) st'.typedef_chain n x v := by
    have hnext : resolveTypeName ast st'.typedef_chain n = resolveTypeName ast st'.typedef_chain target := by
      have hwn : Written ast (done ++ [n]) n := written_of_mem hsan hemit.mem (by simp)
      obtain ⟨e, -, hends, -⟩ := exists_ends hemit (hwtarget.append [n])
      rw [resolveTypeName_eq hemit (hwtarget.append [n]) hends,
        resolveTypeName_eq hemit hwn ⟨.head hfind hends.1, hends.2⟩]
    have hbare : Bare n := bare_of_colon_notMem (hsan.colon_notMem hn)
    refine ⟨hv, ?_, (hresolve hwx).trans hfinal, fun alt halt => ?_, ?_⟩
    · rw [hnext, hresolve hwtarget, htarget]
    · rw [resolveAlternative_keep inv.emit hn hnew hother hemit (hw alt halt)]
      exact hx alt halt
    · have hself : read (aliasesOf (acc.1 ++ [⟨n, d⟩])) n = read (aliasesOf acc.1) target := by
        rw [aliasesOf_snoc, ← hname]
        exact read_declare (hname ▸ hbare) haliased
      have hkeep : read (aliasesOf (acc.1 ++ [⟨n, d⟩])) x = read (aliasesOf acc.1) x := by
        rw [aliasesOf_snoc]
        exact read_keep hn hnew (fun k hk => find_declare (.inr hname) hk) hwx
      rw [hself, hkeep, hread]
  have hrefs : ∀ type, ast.getType n = some type → ∀ ref ∈ type.refs, Written ast done ref.name := by
    intro type htype ref href
    obtain rfl := Option.some.inj (hv.symm.trans htype)
    exact hw ref href
  have hnames : ([] : List CppSerialization).filterMap CppSerialization.variantName =
      d.variantName.toList := by simp [hnone]
  have hstep := inv.step hsan hn hnew hemit hrefs hother (.inr hname) (fun _ => ⟨x, v, halias⟩)
    (fun m alternatives is_nullable hm => absurd (CppDefinition.variantName_eq_some.mpr
      ⟨alternatives, is_nullable, hm⟩) (by simp [hnone])) hnames (by simp)
  rwa [List.append_nil] at hstep

theorem AgreeInv.variant_step (hsan : ast.Sanitized) {n : Str} {v : VariantType}
    (hv : ast.getType n = some (.variant v)) (hname : v.name = n) (hnew : n ∉ done)
    (hgood : StepAgrees ho ast acc v) (hw : ∀ alt ∈ v.alternatives, Written ast done alt.name)
    {processed tried : List TypeRef} {collapse collapse' : Bool}
    (hproc : processVariantAlternatives ast ho acc.2.typedef_chain v = some (processed, collapse))
    (htried : processVariantAlternatives ast ho ∅ v = some (tried, collapse'))
    (hwritten : ∀ alt ∈ processed, Written ast done alt.name) {st' : DefsEmitState}
    (hemit : EmitInv ast (done ++ [n]) st') (hchain : st'.typedef_chain = acc.2.typedef_chain) :
    AgreeInv ast (done ++ [n]) (acc.1 ++ [⟨n, .variant n processed v.is_nullable⟩], st')
      (pairs ++ [.variant n tried]) := by
  have hn : n ∈ ast := NormalizedAST.mem_of_getType hv
  have hbare : Bare n := bare_of_colon_notMem (hsan.colon_notMem hn)
  set d : CppDefinition := .variant n processed v.is_nullable with hd
  have haliases : ∀ k, k ≠ n → (aliasesOf (acc.1 ++ [⟨n, d⟩])).find k = (aliasesOf acc.1).find k :=
    fun k hk => by
      rw [aliasesOf_snoc]
      exact find_declare (.inr rfl) hk
  have hself : read (aliasesOf (acc.1 ++ [⟨n, d⟩])) n =
      .variant (readAlternatives (aliasesOf acc.1) processed v.is_nullable) := by
    rw [aliasesOf_snoc]
    exact read_declare hbare rfl
  have hrefs : ∀ type, ast.getType n = some type → ∀ ref ∈ type.refs, Written ast done ref.name := by
    intro type htype ref href
    obtain rfl := Option.some.inj (hv.symm.trans htype)
    exact hw ref href
  have hnochain : n ∉ acc.2.typedef_chain := fun hmem => by
    obtain ⟨target, htarget⟩ := Table.mem_iff_find.mp hmem
    exact hnew (inv.emit.chain n target htarget).1
  refine inv.step hsan hn hnew hemit hrefs (fun k _ => by rw [hchain]) (.inr rfl)
    (fun hmem => absurd (hchain ▸ hmem) hnochain) ?_ rfl ?_
  · intro m alternatives is_nullable hm
    obtain ⟨rfl, rfl, rfl⟩ := CppDefinition.variant.inj hm
    refine ⟨⟨v, hv, by simp, hgood.not_nullable, fun alt halt => (hwritten alt halt).append [n], ?_, ?_⟩, ?_⟩
    · rw [hchain]
      exact (processVariantAlternatives_spec hproc).2.1
    · rw [hself, readAlternatives_keep hn hnew haliases hwritten]
    · -- an earlier `std::variant` has other alternatives, or the same in another order
      intro e he k hk
      obtain ⟨alternatives, is_nullable, he'⟩ := CppDefinition.variantName_eq_some.mp hk
      obtain ⟨w, hvariant⟩ := inv.variants e he k alternatives is_nullable he'
      have hwk : Written ast done k := written_of_mem hsan inv.emit.mem hvariant.mem
      rw [hself, read_keep hn hnew haliases hwk, hvariant.read_eq]
      intro heq
      exact hgood.fresh processed collapse hproc e he k alternatives is_nullable he'
        (HeaderType.variant.inj heq)
  · intro m tried' hm
    obtain ⟨rfl, rfl⟩ := CppSerialization.variant.inj (List.mem_singleton.mp hm)
    exact ⟨v, hv, (processVariantAlternatives_spec htried).2.1⟩

theorem AgreeInv.emitVariant_step (hsan : ast.Sanitized) {n : Str} {v : VariantType}
    (hv : ast.getType n = some (.variant v)) (hname : v.name = n) (hnew : n ∉ done)
    (hgood : StepAgrees ho ast acc v) (hw : ∀ alt ∈ v.alternatives, Written ast done alt.name) :
    ∃ d st' pairs', emitVariant ho ast v acc.2 = some (d, st') ∧
      (emitVariantSerialization ho ast v {}).map Option.toList = some pairs' ∧
        AgreeInv ast (done ++ [n]) (acc.1 ++ [⟨n, d⟩], st') (pairs ++ pairs') := by
  subst hname
  obtain ⟨d, st', hrun, hemit, hreferences, -⟩ := emitVariant_spec ho hsan inv.emit hv rfl hnew hw
  obtain ⟨⟨tried, collapse'⟩, htried⟩ := processVariantAlternatives_isSome ho fun alt halt =>
    (inv.alternative_initial hsan (hw alt halt)).imp fun r₀ h => h.choose_spec.1
  have hone₀ := collapse_iff_oneName htried hgood.nonempty hgood.not_nullable
  have hpairs := emitVariantSerialization_initial htried
  -- the source file passes over the variants that the header makes aliases of
  have hnone : OneName ast acc.2.typedef_chain v →
      (emitVariantSerialization ho ast v {}).map Option.toList = some [] := fun hone => by
    rw [hpairs, hone₀.mpr (hgood.collapse hone)]
    rfl
  have hsome : ¬ OneName ast acc.2.typedef_chain v →
      (emitVariantSerialization ho ast v {}).map Option.toList = some [.variant v.name tried] := fun hone => by
    have hfalse : collapse' = false := by
      rw [← Bool.not_eq_true, hone₀]
      exact fun h => hone (inv.oneName_of_initial hsan hgood.nonempty hw hgood.inline h)
    rw [hpairs, hfalse]
    rfl
  cases emitVariant_cases hrun with
  | monostate hempty => exact absurd hempty hgood.nonempty
  | @duplicate processed collapse target _ hproc hsig hsigs hchain =>
    obtain ⟨x, hnames, htarget⟩ := hgood.signature processed collapse hproc target hsig
    have hx := oneName_of_names hproc hnames
    obtain ⟨r, w, h⟩ := inv.chain target (Table.mem_of_find htarget)
    have hwtarget : Written ast done target :=
      written_of_mem hsan inv.emit.mem (inv.emit.signatures _ target hsig)
    -- the earlier alias stands for the same name
    obtain ⟨hfinal, -⟩ := inv.final_of_oneName hsan hgood hw hx
    obtain rfl : r = x := by
      have hnext := inv.resolve_next htarget hwtarget
      rw [h.resolves, hfinal] at hnext
      exact Option.some.inj hnext
    have hinv := inv.alias_step hsan hv hnew hgood hw hx hwtarget h.resolves h.read_eq hemit
      (.inl rfl) hchain
    exact ⟨_, _, [], hrun, hnone ⟨r, hx⟩, by rwa [List.append_nil]⟩
  | @collapsed alt _ hproc hsigs hchain =>
    have hx := oneName_of_names hproc (rfl : [alt].map TypeRef.name = [alt.name])
    obtain ⟨hfinal, hwalt⟩ := inv.final_of_oneName hsan hgood hw hx
    have hinv := inv.alias_step hsan hv hnew hgood hw hx hwalt hfinal rfl hemit
      (.inr rfl) hchain
    exact ⟨_, _, [], hrun, hnone ⟨alt.name, hx⟩, by rwa [List.append_nil]⟩
  | @variant processed _ hproc hsigs hchain =>
    have hone : ¬ OneName ast acc.2.typedef_chain v := fun hone =>
      absurd ((collapse_iff_oneName hproc hgood.nonempty hgood.not_nullable).mpr hone) (by simp)
    have hwritten : ∀ alt ∈ processed, Written ast done alt.name := fun alt halt =>
      hreferences alt.name (List.mem_map_of_mem halt)
    have hinv := inv.variant_step hsan hv rfl hnew hgood hw hproc htried hwritten hemit hchain
    exact ⟨_, _, [.variant v.name tried], hrun, hsome hone, hinv⟩

omit inv in
/-- A type that is no variant leaves the state alone, and is no variant in either file. -/
theorem emitType_other {n : Str} {type : SchemaType} {st st' : DefsEmitState} {d : CppDefinition}
    (hne : ∀ v, type ≠ .variant v) (h : emitType ho ast n type st = some (d, st')) :
    st' = st ∧ d.variantName = none ∧
      ∃ pairs', emitSerialization ho ast n type {} = some pairs' ∧
        pairs'.filterMap CppSerialization.variantName = [] := by
  cases type with
  | variant v => exact absurd rfl (hne v)
  | struct t =>
    obtain ⟨rfl, rfl⟩ := Prod.mk.inj (Option.some.inj h)
    exact ⟨rfl, rfl, _, rfl, rfl⟩
  | array t =>
    obtain ⟨rfl, rfl⟩ := Prod.mk.inj (Option.some.inj h)
    exact ⟨rfl, rfl, _, rfl, rfl⟩
  | map t =>
    obtain ⟨rfl, rfl⟩ := Prod.mk.inj (Option.some.inj h)
    exact ⟨rfl, rfl, _, rfl, rfl⟩
  | enum t =>
    obtain ⟨rfl, rfl⟩ := Prod.mk.inj (Option.some.inj h)
    exact ⟨rfl, rfl, _, rfl, rfl⟩
  | primitive t =>
    unfold emitType at h
    unfold emitSerialization
    dsimp only at h ⊢
    split at h
    · rename_i henum
      obtain ⟨rfl, rfl⟩ := Prod.mk.inj (Option.some.inj h)
      exact ⟨rfl, rfl, [.enumFromPrimitive n t], if_pos henum, rfl⟩
    · rename_i hplain
      obtain ⟨rfl, rfl⟩ := Prod.mk.inj (Option.some.inj h)
      exact ⟨rfl, rfl, [], if_neg hplain, rfl⟩

theorem AgreeInv.next (hsan : ast.Sanitized) (hnames : ast.NamedByKey) {n : Str} {type : SchemaType}
    (htype : ast.getType n = some type) (hnew : n ∉ done)
    (hrefs : ∀ ref ∈ type.refs, Written ast done ref.name)
    (hgood : ∀ v, type = .variant v → StepAgrees ho ast acc v) :
    ∃ acc' pairs', emitNext ho ast acc n = some acc' ∧
      emitNextSerialization ho ast pairs n = some pairs' ∧ AgreeInv ast (done ++ [n]) acc' pairs' := by
  have hn : n ∈ ast := NormalizedAST.mem_of_getType htype
  have hkey : ∀ v, type = .variant v → v.name = n := by
    rintro v rfl
    exact hnames n _ htype
  by_cases hvariant : ∃ v, type = .variant v
  · obtain ⟨v, rfl⟩ := hvariant
    obtain ⟨d, st', pairs', hrun, hpairs, hinv⟩ :=
      inv.emitVariant_step hsan htype (hkey v rfl) hnew (hgood v rfl) hrefs
    refine ⟨_, _, ?_, ?_, hinv⟩
    · simp [emitNext, htype, emitType, hrun]
    · simp [emitNextSerialization, htype, emitSerialization, hpairs]
  · obtain ⟨d, st', hrun, hemit, -⟩ := emitType_spec ho hsan hnames inv.emit htype hnew hrefs
    have haliased := emitType_aliased hnames htype hrun (aliasesOf acc.1)
    obtain ⟨rfl, hd, pairs', hpairs, hnone⟩ := emitType_other (fun v hv => hvariant ⟨v, hv⟩) hrun
    have hrefs' : ∀ type', ast.getType n = some type' → ∀ ref ∈ type'.refs, Written ast done ref.name := by
      intro type' htype' ref href
      obtain rfl := Option.some.inj (htype.symm.trans htype')
      exact hrefs ref href
    have hnochain : n ∉ acc.2.typedef_chain := fun hmem => by
      obtain ⟨target, htarget⟩ := Table.mem_iff_find.mp hmem
      exact hnew (inv.emit.chain n target htarget).1
    have hnotried : ∀ m tried, .variant m tried ∉ pairs' := fun m tried hmem => by
      have hin : m ∈ pairs'.filterMap CppSerialization.variantName :=
        List.mem_filterMap.mpr ⟨_, hmem, rfl⟩
      simp [hnone] at hin
    have hinv := inv.step hsan hn hnew hemit hrefs' (fun k _ => rfl) haliased
      (fun hmem => absurd hmem hnochain) (fun m alternatives is_nullable hm => absurd
        (CppDefinition.variantName_eq_some.mpr ⟨alternatives, is_nullable, hm⟩) (by simp [hd]))
      (by rw [hnone, hd]; rfl) fun m tried hm => absurd hm (hnotried m tried)
    refine ⟨_, _, ?_, ?_, hinv⟩
    · simp [emitNext, htype, hrun]
    · simp [emitNextSerialization, htype, hpairs]

end

/-! ### The whole run -/

theorem AgreeInv.agrees {ast : NormalizedAST} {done : List Str} {acc : List Emitted × DefsEmitState}
    {pairs : List CppSerialization} (inv : AgreeInv ast done acc pairs) (hsan : ast.Sanitized) :
    HeaderAgrees acc.1 pairs := by
  refine ⟨fun n => ?_, fun n tried htried e he alternatives is_nullable hd t => ?_, ?_⟩
  · have hpair : (∃ tried, .variant n tried ∈ pairs) ↔
        n ∈ pairs.filterMap CppSerialization.variantName := by
      simp only [List.mem_filterMap, CppSerialization.variantName_eq_some]
      constructor
      · rintro ⟨tried, h⟩
        exact ⟨_, h, tried, rfl⟩
      · rintro ⟨_, h, tried, rfl⟩
        exact ⟨tried, h⟩
    have hdef : n ∈ acc.1.filterMap (fun e => e.definition.variantName) ↔
        ∃ e ∈ acc.1, ∃ alternatives is_nullable, e.definition = .variant n alternatives is_nullable := by
      simp only [List.mem_filterMap, CppDefinition.variantName_eq_some]
    rw [hpair, inv.names, hdef]
  · obtain ⟨v, hv, htriedNames⟩ := inv.tried n tried htried
    obtain ⟨v', h⟩ := inv.variants e he n alternatives is_nullable hd
    obtain rfl : v = v' := by simpa using hv.symm.trans h.type
    have hread : ∀ (refs : List TypeRef), t ∈ readAlternatives (aliasesOf acc.1) refs false ↔
        ∃ x ∈ refs.map TypeRef.name, read (aliasesOf acc.1) x = t := by
      simp [readAlternatives]
    rw [h.not_nullable, hread, hread]
    have hw : ∀ alt ∈ v.alternatives, Written ast done alt.name := fun alt halt =>
      inv.written_ref h.mem h.type halt
    constructor
    · rintro ⟨r₀, hr₀, rfl⟩
      obtain ⟨alt, halt, hres⟩ := (htriedNames r₀).mp hr₀
      obtain ⟨r₀', r, h₀, hr, heq, -⟩ := inv.alternative_initial hsan (hw alt halt)
      obtain rfl : r₀ = r₀' := Option.some.inj (hres.symm.trans h₀)
      exact ⟨r, (h.names r).mpr ⟨alt, halt, hr⟩, heq.symm⟩
    · rintro ⟨r, hr, rfl⟩
      obtain ⟨alt, halt, hres⟩ := (h.names r).mp hr
      obtain ⟨r₀, r', h₀, hr', heq, -⟩ := inv.alternative_initial hsan (hw alt halt)
      obtain rfl : r = r' := Option.some.inj (hres.symm.trans hr')
      exact ⟨r₀, (htriedNames r₀).mpr ⟨alt, halt, h₀⟩, heq⟩
  · rw [inv.names]
    exact inv.distinct

theorem agree_run {ho : HashOrders} {ast : NormalizedAST} (hsan : ast.Sanitized)
    (hnames : ast.NamedByKey) {order : TopologicalOrder} (horder : order.Sorts ast) :
    ∀ (rest done : List Str) (acc : List Emitted × DefsEmitState) (pairs : List CppSerialization),
      order.ordered_types = done ++ rest → AgreeInv ast done acc pairs → StepsAgree ho ast rest acc →
      ∃ acc' pairs', rest.foldlM (emitNext ho ast) acc = some acc' ∧
        rest.foldlM (emitNextSerialization ho ast) pairs = some pairs' ∧
          AgreeInv ast order.ordered_types acc' pairs' := by
  intro rest
  induction rest with
  | nil =>
    intro done acc pairs heq inv _
    rw [List.append_nil] at heq
    exact ⟨acc, pairs, rfl, rfl, heq ▸ inv⟩
  | cons n rest ih =>
    intro done acc pairs heq inv hsteps
    have hn : n ∈ ast := horder.mem n (heq ▸ by simp)
    have hnew : n ∉ done := fun hd =>
      (List.nodup_append.mp (heq ▸ horder.nodup)).2.2 n hd n (List.mem_cons_self ..) rfl
    obtain ⟨type, htype⟩ := NormalizedAST.mem_iff_getType.mp hn
    obtain ⟨hgood, hrest⟩ := hsteps
    obtain ⟨acc₁, pairs₁, hdefs, hpairs, hinv⟩ := inv.next hsan hnames htype hnew
      (horder.before done n rest type heq htype) fun v hv => hgood v (hv ▸ htype)
    rw [List.foldlM_cons, List.foldlM_cons, hdefs, hpairs]
    exact ih (done ++ [n]) acc₁ pairs₁ (by simpa using heq) hinv (hrest acc₁ hdefs)

/-- **Header and source agree on the variants of a run that goes well.**  When every variant meets
`StepAgrees` in its turn, a pair is emitted for the `std::variant`s of the header and for nothing
else, it tries their alternatives, and no two pairs are for one C++ type. -/
theorem header_and_source_agree (ho : HashOrders) (ast : NormalizedAST) (order : TopologicalOrder)
    (hsan : ast.Sanitized) (hnames : ast.NamedByKey) (horder : order.Sorts ast)
    (hsteps : StepsAgree ho ast order.ordered_types ([], {})) :
    ∃ defs pairs, generateDefsHpp ho order ast = some defs ∧ generateDefsCpp ho order ast = some pairs ∧
      HeaderAgrees defs pairs := by
  obtain ⟨acc, pairs, hdefs, hpairs, inv⟩ := agree_run hsan hnames horder order.ordered_types []
    ([], {}) [] rfl (AgreeInv.init ast) hsteps
  exact ⟨acc.1, pairs, by rw [generateDefsHpp, hdefs]; rfl, hpairs, inv.agrees hsan⟩

/-! ### Documents with variants -/

section

variable {ho : HashOrders} {ast : NormalizedAST} {n : Str} {rest : List Str}
  {acc : List Emitted × DefsEmitState}

theorem StepsAgree.struct {t : StructType} (htype : ast.getType n = some (.struct t))
    (h : StepsAgree ho ast rest (acc.1 ++ [⟨n, .struct t⟩], acc.2)) : StepsAgree ho ast (n :: rest) acc := by
  refine ⟨fun v hv => absurd (htype.symm.trans hv) (by simp), fun acc' hacc => ?_⟩
  obtain rfl : (acc.1 ++ [⟨n, .struct t⟩], acc.2) = acc' := by
    simpa [emitNext, htype, emitType] using hacc
  exact h

theorem StepsAgree.variant {v : VariantType} (htype : ast.getType n = some (.variant v))
    (hgood : StepAgrees ho ast acc v) {d : CppDefinition} {st' : DefsEmitState}
    (hemit : emitVariant ho ast v acc.2 = some (d, st'))
    (h : StepsAgree ho ast rest (acc.1 ++ [⟨n, d⟩], st')) : StepsAgree ho ast (n :: rest) acc := by
  refine ⟨fun w hw => ?_, fun acc' hacc => ?_⟩
  · obtain rfl : v = w := by simpa using htype.symm.trans hw
    exact hgood
  · obtain rfl : (acc.1 ++ [⟨n, d⟩], st') = acc' := by
      simpa [emitNext, htype, emitType, hemit] using hacc
    exact h

/-- The parts of `StepAgrees` for alternatives that are no inline texts, when the signature is new and
no `std::variant` has been emitted. -/
theorem StepAgrees.first {v : VariantType} (hne : v.alternatives ≠ []) (hnull : v.is_nullable = false)
    (hinline : ∀ alt ∈ v.alternatives, alt.is_inline = false)
    (hcollapse : OneName ast acc.2.typedef_chain v → OneName ast ∅ v) {processed : List TypeRef}
    {collapse : Bool}
    (hproc : processVariantAlternatives ast ho acc.2.typedef_chain v = some (processed, collapse))
    (hsig : acc.2.variant_signatures.find (signatureText (processed.map TypeRef.name)) = none)
    (hfresh : ∀ e ∈ acc.1, e.definition.variantName = none) : StepAgrees ho ast acc v where
  nonempty := hne
  not_nullable := hnull
  inline alt halt hflag := absurd (hflag.symm.trans (hinline alt halt)) (by simp)
  collapse := hcollapse
  signature processed' collapse' hproc' target htarget := by
    obtain ⟨rfl, -⟩ := Prod.mk.inj (Option.some.inj (hproc.symm.trans hproc'))
    exact absurd (hsig.symm.trans htarget) (by simp)
  fresh _ _ _ e he n alternatives is_nullable hd := absurd
    (CppDefinition.variantName_eq_some.mpr ⟨alternatives, is_nullable, hd⟩) (by simp [hfresh e he])

end

/-- Two structs, and `oneOf`s over references. -/
def animalSpec (variants : List (String × List String)) : JsonObject :=
  let ref (n : String) : Json :=
    .obj [("$ref".toList, .str ("#/components/schemas/".toList ++ n.toList))]
  some [("components".toList, .obj [("schemas".toList, .obj
    ([("Cat".toList, .obj [("type".toList, .str "object".toList)]),
      ("Dog".toList, .obj [("type".toList, .str "object".toList)])] ++
      variants.map fun v => (v.1.toList, .obj [("oneOf".toList, .arr (v.2.map ref))])))])]

theorem parsed_sorts {ir : InvalidRead} {ho : HashOrders} {spec : JsonObject} {failed : List Str}
    {s : ParseState} (hrun : parseSchemas ir spec {} = .ok failed s) {order : TopologicalOrder}
    (hsort : sortTypes ho s.ast = some order) (hacyclic : order.has_cycles = false) :
    s.ast.Sanitized ∧ s.ast.NamedByKey ∧ order.Sorts s.ast := by
  have inv : ParseInv sanitizedNames s := parseSchemas_inv hrun
  exact ⟨inv.sanitized, inv.named, sorts_of_sortTypes inv.sanitized (fun x hx => bare_of_knownName inv hx)
    (fun n type h => shapedType_of_knownType (fun _ hx => hx) (inv.types n type h)) hsort hacyclic⟩

/-- `Kitten` is an alias of `Cat` for both files, and `Pet` a `std::variant` of `Cat` and `Dog`. -/
theorem header_and_source_agree_kitten :
    ∃ s order, parseSchemas .crash (animalSpec [("Kitten", ["Cat"]), ("Pet", ["Kitten", "Dog"])]) {} =
        .ok [] s ∧
      sortTypes (HashOrder.newestFirst _) s.ast = some order ∧
      ∃ defs pairs, generateDefsHpp (HashOrder.newestFirst _) order s.ast = some defs ∧
        generateDefsCpp (HashOrder.newestFirst _) order s.ast = some pairs ∧ HeaderAgrees defs pairs := by
  have hsorts : ∀ s order, parseSchemas .crash
      (animalSpec [("Kitten", ["Cat"]), ("Pet", ["Kitten", "Dog"])]) {} = .ok [] s →
      sortTypes (HashOrder.newestFirst _) s.ast = some order → order.has_cycles = false →
      s.ast.Sanitized ∧ s.ast.NamedByKey ∧ order.Sorts s.ast :=
    fun _ _ hrun hsort hacyclic => parsed_sorts hrun hsort hacyclic
  refine ⟨_, _, rfl, rfl, ?_⟩
  obtain ⟨hsan, hnames, horder⟩ := hsorts _ _ rfl rfl rfl
  refine header_and_source_agree _ _ _ hsan hnames horder ?_
  refine StepsAgree.struct rfl (StepsAgree.struct rfl (StepsAgree.variant rfl (StepAgrees.first
    (by decide) rfl (by decide) (fun _ => ⟨"Cat".toList, by decide⟩) rfl rfl (by decide)) rfl ?_))
  -- with the alias, the two alternatives of `Pet` are still two names
  refine StepsAgree.variant rfl (StepAgrees.first (by decide) rfl (by decide) (fun hone => ?_) rfl rfl
    (by decide)) rfl trivial
  obtain ⟨x, hx⟩ := hone
  have hcat := hx ⟨"Kitten".toList, false⟩ (by decide)
  have hdog := hx ⟨"Dog".toList, false⟩ (by decide)
  have hsame : "Cat".toList = "Dog".toList := Option.some.inj (hcat.trans hdog.symm)
  exact absurd hsame (by decide)

/-- Two variants with the same alternatives: the header makes the second an alias of the first, and the
source file defines the conversions of both, which are conversions of one type. -/
theorem twin_variants_disagree :
    ∃ s order defs pairs,
      parseSchemas .crash (animalSpec [("Pet", ["Cat", "Dog"]), ("Animal", ["Cat", "Dog"])]) {} =
        .ok [] s ∧
      sortTypes (HashOrder.newestFirst _) s.ast = some order ∧ order.has_cycles = false ∧
      generateDefsHpp (HashOrder.newestFirst _) order s.ast = some defs ∧
      generateDefsCpp (HashOrder.newestFirst _) order s.ast = some pairs ∧ ¬ HeaderAgrees defs pairs := by
  refine ⟨_, _, _, _, rfl, rfl, rfl, rfl, rfl, fun h => ?_⟩
  have hoverloads := (List.pairwise_cons.mp h.overloads).1 "Animal".toList (by decide)
  exact hoverloads rfl

end Siesta
