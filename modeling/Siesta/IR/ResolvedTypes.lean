import Siesta.IR.HeaderAndSource

/-!
# The types that resolved names stand for

While the header is written, an alternative is replaced by the name it resolves to, and a variant by the
name of another type.  With the aliases of the definitions so far expanded (`HeaderType.read`), an entry
of the chain and its target are one type (`DenoteInv`), whatever is emitted.  So a step keeps the meaning
of the alternatives and of the variant when it is `Plain`: no chain ends at a primitive other than a
string, and the variant found under the signature was built from the same things
(`resolution_keeps_types`).
-/

namespace Siesta

open Lib HeaderType

/-! ### What a step should keep -/

/-- The type of a variant whose alternatives have these types: a single one stands for itself. -/
def builtType (types : List HeaderType) (is_nullable : Bool) : HeaderType :=
  match types, is_nullable with
  | [type], false => type
  | types, is_nullable => .variant (types ++ if is_nullable then [.named "std::nullptr_t".toList] else [])

theorem builtType_of_length {types : List HeaderType} {is_nullable : Bool}
    (h : types.length = 1 → is_nullable = true) :
    builtType types is_nullable =
      .variant (types ++ if is_nullable then [.named "std::nullptr_t".toList] else []) := by
  unfold builtType
  split
  · exact absurd (h rfl) (by simp)
  · rfl

def readNames (aliases : Table Str HeaderType) (names : List Str) : List HeaderType :=
  names.map (read aliases)

/-- The variant `v`, emitted after the definitions `acc.1` in the state `acc.2`, keeps its meaning. -/
structure KeepsTypes (ho : HashOrders) (ast : NormalizedAST) (acc : List Emitted × DefsEmitState)
    (v : VariantType) : Prop where
  /-- An alternative resolves to a name of its own type. -/
  alternatives : ∀ alt ∈ v.alternatives, ∃ r,
    resolveAlternative ast acc.2.typedef_chain alt = some r ∧
      read (aliasesOf acc.1) r = read (aliasesOf acc.1) alt.name
  /-- A name that `v` is emitted as an alias of has the type that is built from `v`. -/
  aliased : ∀ d st' target, emitVariant ho ast v acc.2 = some (d, st') →
    d = .duplicate v.name target ∨ d = .collapsed v.name target →
      ∃ names : List Str, names.Nodup ∧
        (∀ x, x ∈ names ↔ ∃ alt ∈ v.alternatives,
          resolveAlternative ast acc.2.typedef_chain alt = some x) ∧
        read (aliasesOf acc.1) target = builtType (readNames (aliasesOf acc.1) names) v.is_nullable

/-- The steps at which nothing is mistaken for something else. -/
structure PlainStep (ho : HashOrders) (ast : NormalizedAST) (st : DefsEmitState) (v : VariantType) :
    Prop where
  /-- A chain that ends at a primitive type without values ends at a string. -/
  strings : ∀ alt ∈ v.alternatives, alt.is_inline = false → ∀ e t, Ends st.typedef_chain alt.name e →
    ast.getType e = some (.primitive t) → t.enum_values = [] → t.kind = .String
  /-- The variant found under the signature of `v` has the same alternatives, and is nullable if `v` is. -/
  signature : (v.alternatives ≠ [] ∨ v.is_nullable = true) → ∀ processed collapse,
    processVariantAlternatives ast ho st.typedef_chain v = some (processed, collapse) →
    ∀ target, st.variant_signatures.find (signatureText (processed.map TypeRef.name)) = some target →
    ∀ pp w, st.preprocessed.find target = some pp → ast.getType target = some (.variant w) →
      pp.alternatives = processed ∧ w.is_nullable = v.is_nullable

/-! ### What every step keeps -/

/-- The definitions `acc.1`, when the types `done` have been emitted. -/
structure DenoteInv (ast : NormalizedAST) (done : List Str) (acc : List Emitted × DefsEmitState) :
    Prop where
  emit : EmitInv ast done acc.2
  undefined : ∀ k, k ∉ done → (aliasesOf acc.1).find k = none
  chain : ∀ k target, acc.2.typedef_chain.find k = some target →
    read (aliasesOf acc.1) k = read (aliasesOf acc.1) target
  strings : ∀ k ∈ done, ∀ t, ast.getType k = some (.primitive t) → t.enum_values = [] →
    t.kind = .String → read (aliasesOf acc.1) k = .named "std::string".toList
  /-- The variant under a signature has the type that is built from what is recorded of it. -/
  signatures : ∀ sig target, acc.2.variant_signatures.find sig = some target →
    ∃ pp w, acc.2.preprocessed.find target = some pp ∧ ast.getType target = some (.variant w) ∧
      (∀ alt ∈ pp.alternatives, Written ast done alt.name) ∧
      read (aliasesOf acc.1) target =
        builtType (readNames (aliasesOf acc.1) (pp.alternatives.map TypeRef.name)) w.is_nullable

theorem DenoteInv.init (ast : NormalizedAST) : DenoteInv ast [] ([], {}) where
  emit := EmitInv.init
  undefined k _ := Table.find_empty k
  chain k target h := by simp at h
  strings := by simp
  signatures sig target h := by simp at h

theorem readNames_keep {ast : NormalizedAST} {done : List Str} {n : Str}
    {aliases aliases' : Table Str HeaderType} (hn : n ∈ ast) (hnew : n ∉ done)
    (haliases : ∀ k, k ≠ n → aliases'.find k = aliases.find k) {refs : List TypeRef}
    (hw : ∀ ref ∈ refs, Written ast done ref.name) :
    readNames aliases' (refs.map TypeRef.name) = readNames aliases (refs.map TypeRef.name) := by
  refine List.map_congr_left fun x hx => ?_
  obtain ⟨ref, href, rfl⟩ := List.mem_map.mp hx
  exact read_keep hn hnew haliases (hw ref href)

section

variable {ast : NormalizedAST} {done : List Str} {acc : List Emitted × DefsEmitState}
  (inv : DenoteInv ast done acc)

include inv

theorem DenoteInv.read_string (hsan : ast.Sanitized) :
    read (aliasesOf acc.1) "std::string".toList = .named "std::string".toList := by
  have hnone : "std::string".toList ∉ done := fun h =>
    absurd (hsan.colon_notMem (inv.emit.mem _ h)) (by decide)
  have hbare : Bare "std::string".toList := by
    have hdec : ¬ vectorPrefix <+: "std::string".toList ∧ ¬ mapPrefix <+: "std::string".toList := by
      decide
    exact hdec
  rw [read_bare hbare, inv.undefined _ hnone]
  rfl

theorem DenoteInv.step (hsan : ast.Sanitized) {n : Str} (hn : n ∈ ast) (hnew : n ∉ done)
    {st' : DefsEmitState} {d : CppDefinition} (hemit : EmitInv ast (done ++ [n]) st')
    (hchain : ∀ k, k ≠ n → st'.typedef_chain.find k = acc.2.typedef_chain.find k)
    (hpre : ∀ k, k ≠ n → st'.preprocessed.find k = acc.2.preprocessed.find k)
    (haliased : d.aliased (aliasesOf acc.1) = none ∨ d.name = n)
    (halias : ∀ target, st'.typedef_chain.find n = some target →
      Written ast done target ∧ d.name = n ∧
        d.aliased (aliasesOf acc.1) = some (read (aliasesOf acc.1) target))
    (hstring : ∀ t, ast.getType n = some (.primitive t) → t.enum_values = [] → t.kind = .String →
      d.name = n ∧ d.aliased (aliasesOf acc.1) = some (.named "std::string".toList))
    (hsigs : ∀ sig target, st'.variant_signatures.find sig = some target →
      acc.2.variant_signatures.find sig = some target ∨ target = n ∧ d.name = n ∧
        ∃ pp w, st'.preprocessed.find n = some pp ∧ ast.getType n = some (.variant w) ∧
          (∀ alt ∈ pp.alternatives, Written ast done alt.name) ∧
          d.aliased (aliasesOf acc.1) = some
            (builtType (readNames (aliasesOf acc.1) (pp.alternatives.map TypeRef.name)) w.is_nullable)) :
    DenoteInv ast (done ++ [n]) (acc.1 ++ [⟨n, d⟩], st') := by
  have haliases : ∀ k, k ≠ n →
      (aliasesOf (acc.1 ++ [⟨n, d⟩])).find k = (aliasesOf acc.1).find k := fun k hk => by
    rw [aliasesOf_snoc]
    exact find_declare haliased hk
  have hread : ∀ {text}, Written ast done text →
      read (aliasesOf (acc.1 ++ [⟨n, d⟩])) text = read (aliasesOf acc.1) text :=
    fun hw => read_keep hn hnew haliases hw
  have hname : ∀ k ∈ done, Written ast done k := fun k hk => written_of_mem hsan inv.emit.mem hk
  have hne : ∀ k ∈ done, k ≠ n := fun k hk heq => hnew (heq ▸ hk)
  have hself : ∀ {type}, d.name = n → d.aliased (aliasesOf acc.1) = some type →
      read (aliasesOf (acc.1 ++ [⟨n, d⟩])) n = type := by
    intro type hd htype
    have hbare : Bare n := bare_of_colon_notMem (hsan.colon_notMem hn)
    subst hd
    rw [aliasesOf_snoc]
    exact read_declare hbare htype
  refine ⟨hemit, fun k hk => ?_, fun k target h => ?_, fun k hk t htype henum hkind => ?_,
    fun sig target h => ?_⟩
  · have hkn : k ≠ n := by
      rintro rfl
      exact hk (by simp)
    rw [haliases k hkn]
    exact inv.undefined k fun hd => hk (List.mem_append_left _ hd)
  · by_cases hkn : k = n
    · subst hkn
      obtain ⟨hw, hd, htype⟩ := halias target h
      rw [hself hd htype, hread hw]
    · rw [hchain k hkn] at h
      rw [hread (hname k (inv.emit.chain k target h).1), hread (inv.emit.written_target h)]
      exact inv.chain k target h
  · rcases List.mem_append.mp hk with hk | hk
    · rw [hread (hname k hk)]
      exact inv.strings k hk t htype henum hkind
    · obtain rfl := List.mem_singleton.mp hk
      obtain ⟨hd, htype'⟩ := hstring t htype henum hkind
      exact hself hd htype'
  · rcases hsigs sig target h with h | ⟨rfl, hd, pp, w, hpp, hw, hwritten, htype⟩
    · obtain ⟨pp, w, hpp, hw, hwritten, htype⟩ := inv.signatures sig target h
      have htarget : target ∈ done := inv.emit.signatures sig target h
      refine ⟨pp, w, (hpre target (hne target htarget)).trans hpp, hw,
        fun alt halt => (hwritten alt halt).append [n], ?_⟩
      rw [hread (hname target htarget), readNames_keep hn hnew haliases hwritten]
      exact htype
    · refine ⟨pp, w, hpp, hw, fun alt halt => (hwritten alt halt).append [target], ?_⟩
      rw [hself hd htype, readNames_keep hn hnew haliases hwritten]

end

/-! ### One turn of the loop -/

section

variable {ho : HashOrders} {ast : NormalizedAST} {done : List Str} {acc : List Emitted × DefsEmitState}
  {v : VariantType}

theorem emitVariant_preprocessed {st st' : DefsEmitState} {d : CppDefinition}
    (h : emitVariant ho ast v st = some (d, st')) :
    (v.alternatives = [] ∧ v.is_nullable = false ∧ st' = st) ∨
      ∃ processed collapse,
        processVariantAlternatives ast ho st.typedef_chain v = some (processed, collapse) ∧
        st'.preprocessed =
          st.preprocessed.set v.name ⟨processed, collapse, signatureText (processed.map TypeRef.name)⟩ := by
  unfold emitVariant at h
  split at h
  · rename_i hempty
    obtain ⟨rfl, rfl⟩ := Prod.mk.inj (Option.some.inj h)
    simp only [Bool.and_eq_true, List.isEmpty_iff, Bool.not_eq_true'] at hempty
    exact .inl ⟨hempty.1, hempty.2, rfl⟩
  · obtain ⟨⟨processed, collapse⟩, hproc, h⟩ := Option.bind_eq_some_iff.mp h
    obtain ⟨sig, hsig, h⟩ := Option.bind_eq_some_iff.mp h
    have hspec := processVariantAlternatives_spec hproc
    rw [getVariantSignature_inline ast st.typedef_chain hspec.2.2.2.1] at hsig
    obtain rfl := Option.some.inj hsig
    refine .inr ⟨processed, collapse, hproc, ?_⟩
    dsimp only at h
    split at h
    · obtain ⟨-, rfl⟩ := Prod.mk.inj (Option.some.inj h)
      rfl
    · split at h
      · obtain ⟨-, rfl⟩ := Prod.mk.inj (Option.some.inj h)
        rfl
      · obtain ⟨-, rfl⟩ := Prod.mk.inj (Option.some.inj h)
        rfl

/-- Only a variant without alternatives is a `std::monostate`. -/
theorem nonempty_of_emitVariant {st st' : DefsEmitState} {d : CppDefinition}
    (h : emitVariant ho ast v st = some (d, st')) (hd : d ≠ .monostate v.name) :
    v.alternatives ≠ [] ∨ v.is_nullable = true := by
  by_contra hno
  simp only [ne_eq, not_or, not_not, Bool.not_eq_true] at hno
  have hmonostate : emitVariant ho ast v st = some (.monostate v.name, st) := by simp [emitVariant, hno]
  exact hd (Prod.mk.inj (Option.some.inj (hmonostate.symm.trans h))).1.symm

theorem builtType_of_not_collapse {processed : List TypeRef} {chain : Table Str Str}
    (hproc : processVariantAlternatives ast ho chain v = some (processed, false))
    (aliases : Table Str HeaderType) :
    HeaderType.variant (readAlternatives aliases processed v.is_nullable) =
      builtType (readNames aliases (processed.map TypeRef.name)) v.is_nullable := by
  have hcollapse := (processVariantAlternatives_spec hproc).2.2.2.2
  have htypes : readNames aliases (processed.map TypeRef.name) =
      processed.map fun alt => read aliases alt.name := List.map_map
  rw [htypes, readAlternatives]
  refine (builtType_of_length fun hlen => ?_).symm
  -- a single type and no null would have been collapsed
  simpa [(List.length_map _).symm.trans hlen] using hcollapse

variable (inv : DenoteInv ast done acc)

include inv

variable (ho) in
theorem DenoteInv.emitVariant_step (hsan : ast.Sanitized) {n : Str}
    (hv : ast.getType n = some (.variant v)) (hname : v.name = n) (hnew : n ∉ done)
    (hw : ∀ alt ∈ v.alternatives, Written ast done alt.name) :
    ∃ d st', emitVariant ho ast v acc.2 = some (d, st') ∧
      DenoteInv ast (done ++ [n]) (acc.1 ++ [⟨n, d⟩], st') := by
  subst hname
  obtain ⟨d, st', hrun, hemit, hreferences, -⟩ := emitVariant_spec ho hsan inv.emit hv rfl hnew hw
  have hn : v.name ∈ ast := NormalizedAST.mem_of_getType hv
  have hcases := emitVariant_cases hrun
  have hd : d.name = v.name := emitsVariant_name hcases
  have hpre : ∀ k, k ≠ v.name → st'.preprocessed.find k = acc.2.preprocessed.find k := by
    intro k hk
    rcases emitVariant_preprocessed hrun with ⟨-, -, rfl⟩ | ⟨processed, collapse, -, hset⟩
    · rfl
    · rw [hset, Table.find_set, if_neg hk]
  have hrecord : (v.alternatives ≠ [] ∨ v.is_nullable = true) → ∀ {processed collapse},
      processVariantAlternatives ast ho acc.2.typedef_chain v = some (processed, collapse) →
      st'.preprocessed.find v.name =
        some ⟨processed, collapse, signatureText (processed.map TypeRef.name)⟩ := by
    intro hne processed collapse hproc
    rcases emitVariant_preprocessed hrun with ⟨hempty, hnull, -⟩ | ⟨processed', collapse', hproc', hset⟩
    · simp [hempty, hnull] at hne
    · obtain ⟨rfl, rfl⟩ := Prod.mk.inj (Option.some.inj (hproc.symm.trans hproc'))
      rw [hset, Table.find_set, if_pos rfl]
  have hnochain : v.name ∉ acc.2.typedef_chain := fun hmem => by
    obtain ⟨target, htarget⟩ := Table.mem_iff_find.mp hmem
    exact hnew (inv.emit.chain v.name target htarget).1
  have hnoprimitive : ∀ t, ast.getType v.name ≠ some (.primitive t) := fun t ht =>
    absurd (hv.symm.trans ht) (by simp)
  refine ⟨d, st', hrun, ?_⟩
  cases hcases with
  | monostate =>
    exact inv.step hsan hn hnew hemit (fun k _ => rfl) hpre (.inr hd)
      (fun target h => absurd (Table.mem_of_find h) hnochain)
      (fun t ht => absurd ht (hnoprimitive t)) fun sig target h => .inl h
  | @duplicate processed collapse target _ hproc hsig hsigs hchain =>
    refine inv.step hsan hn hnew hemit (fun k hk => by rw [hchain, Table.find_set, if_neg hk]) hpre
      (.inr hd) (fun target' h => ?_) (fun t ht => absurd ht (hnoprimitive t)) fun sig t h => ?_
    · rw [hchain, Table.find_set, if_pos rfl] at h
      obtain rfl := Option.some.inj h
      exact ⟨hreferences target (by simp [CppDefinition.references]), rfl, rfl⟩
    · exact .inl (hsigs ▸ h)
  | @collapsed alt _ hproc hsigs hchain =>
    have hwalt : Written ast done alt.name :=
      hreferences alt.name (by simp [CppDefinition.references])
    have hcollapse := (processVariantAlternatives_spec hproc).2.2.2.2
    have hnull : v.is_nullable = false := by simpa using hcollapse
    have hne : v.alternatives ≠ [] := fun hempty => by
      obtain ⟨a, ha, -⟩ := ((processVariantAlternatives_spec hproc).2.1 alt.name).mp (by simp)
      simp [hempty] at ha
    refine inv.step hsan hn hnew hemit (fun k hk => by rw [hchain, Table.find_set, if_neg hk]) hpre
      (.inr hd) (fun target' h => ?_) (fun t ht => absurd ht (hnoprimitive t)) fun sig t h => ?_
    · rw [hchain, Table.find_set, if_pos rfl] at h
      obtain rfl := Option.some.inj h
      exact ⟨hwalt, rfl, rfl⟩
    · rw [hsigs, Table.find_set] at h
      split at h
      · refine .inr ⟨(Option.some.inj h).symm, rfl, _, v, hrecord (.inl hne) hproc, hv, ?_, ?_⟩
        · simpa using hwalt
        · rw [hnull]
          rfl
      · exact .inl h
  | @variant processed _ hproc hsigs hchain =>
    have hne := nonempty_of_emitVariant hrun (by simp)
    refine inv.step hsan hn hnew hemit (fun k _ => by rw [hchain]) hpre (.inr hd)
      (fun target h => absurd (Table.mem_of_find (hchain ▸ h)) hnochain)
      (fun t ht => absurd ht (hnoprimitive t)) fun sig t h => ?_
    rw [hsigs, Table.find_set] at h
    split at h
    · refine .inr ⟨(Option.some.inj h).symm, rfl, _, v, hrecord hne hproc, hv, ?_, ?_⟩
      · exact fun ref href => hreferences ref.name (List.mem_map_of_mem href)
      · exact congrArg some (builtType_of_not_collapse hproc _)
    · exact .inl h

theorem DenoteInv.next (ho : HashOrders) (hsan : ast.Sanitized) (hnames : ast.NamedByKey) {n : Str}
    {type : SchemaType} (htype : ast.getType n = some type) (hnew : n ∉ done)
    (hrefs : ∀ ref ∈ type.refs, Written ast done ref.name) :
    ∃ acc', emitNext ho ast acc n = some acc' ∧ DenoteInv ast (done ++ [n]) acc' := by
  have hn : n ∈ ast := NormalizedAST.mem_of_getType htype
  by_cases hvariant : ∃ v, type = .variant v
  · obtain ⟨v, rfl⟩ := hvariant
    obtain ⟨d, st', hrun, hinv⟩ := inv.emitVariant_step ho hsan htype (hnames n _ htype) hnew hrefs
    exact ⟨_, by simp [emitNext, htype, emitType, hrun], hinv⟩
  · obtain ⟨d, st', hrun, hemit, -⟩ := emitType_spec ho hsan hnames inv.emit htype hnew hrefs
    have haliased := emitType_aliased hnames htype hrun (aliasesOf acc.1)
    obtain ⟨rfl, -⟩ := emitType_other (fun v hv => hvariant ⟨v, hv⟩) hrun
    have hnochain : n ∉ acc.2.typedef_chain := fun hmem => by
      obtain ⟨target, htarget⟩ := Table.mem_iff_find.mp hmem
      exact hnew (inv.emit.chain n target htarget).1
    refine ⟨_, by simp [emitNext, htype, hrun], inv.step hsan hn hnew hemit (fun k _ => rfl)
      (fun k _ => rfl) haliased (fun target h => absurd (Table.mem_of_find h) hnochain) ?_
      fun sig target h => .inl h⟩
    intro t ht henum hkind
    obtain rfl : type = .primitive t := Option.some.inj (htype.symm.trans ht)
    -- a primitive type is the typedef of its kind
    simp only [emitType, henum, List.isEmpty_nil, Bool.not_true, Bool.false_eq_true, if_false, hkind,
      Option.some.injEq, Prod.mk.injEq] at hrun
    obtain ⟨rfl, -⟩ := hrun
    exact ⟨rfl, congrArg some (inv.read_string hsan)⟩

theorem DenoteInv.read_ends {name e : Str} (h : Ends acc.2.typedef_chain name e) :
    read (aliasesOf acc.1) e = read (aliasesOf acc.1) name := by
  obtain ⟨hreach, -⟩ := h
  induction hreach with
  | refl => rfl
  | @tail a b _ hab ih => rw [← inv.chain a b hab, ih]

/-- What is written for the end of a chain has its type, unless it is some other primitive type. -/
theorem DenoteInv.read_endName (hsan : ast.Sanitized) {e : Str} (hw : Written ast done e)
    (hstring : ∀ t, ast.getType e = some (.primitive t) → t.enum_values = [] → t.kind = .String) :
    read (aliasesOf acc.1) (endName ast e) = read (aliasesOf acc.1) e := by
  unfold endName
  split
  · rename_i t htype
    split
    · rfl
    · rename_i henum
      have henum' : t.enum_values = [] := by simpa using henum
      have hdone : e ∈ done := hw e (NormalizedAST.mem_of_getType htype) (.name e)
      rw [inv.strings e hdone t htype henum' (hstring t htype henum'), inv.read_string hsan]
  · rfl

theorem DenoteInv.keepsTypes (hsan : ast.Sanitized) (hw : ∀ alt ∈ v.alternatives, Written ast done alt.name)
    (hplain : PlainStep ho ast acc.2 v) : KeepsTypes ho ast acc v where
  alternatives alt halt := by
    cases hinline : alt.is_inline with
    | true => exact ⟨alt.name, by simp [resolveAlternative, hinline], rfl⟩
    | false =>
      obtain ⟨e, -, hends, he⟩ := exists_ends inv.emit (hw alt halt)
      refine ⟨endName ast e, ?_, ?_⟩
      · simpa [resolveAlternative, hinline] using resolveTypeName_eq inv.emit (hw alt halt) hends
      · rw [inv.read_endName hsan he fun t => hplain.strings alt halt hinline e t hends, inv.read_ends hends]
  aliased d st' target hrun hd := by
    have hne := nonempty_of_emitVariant hrun (by rcases hd with rfl | rfl <;> simp)
    have hcases := emitVariant_cases hrun
    rcases hd with rfl | rfl
    · cases hcases with
      | @duplicate processed collapse _ _ hproc hsig =>
        -- the other variant was built from the same names
        obtain ⟨-, hmem, hnodup, -⟩ := processVariantAlternatives_spec hproc
        obtain ⟨pp, w, hpp, hw', -, htype⟩ := inv.signatures _ target hsig
        obtain ⟨halts, hnull⟩ := hplain.signature hne processed collapse hproc target hsig pp w hpp hw'
        exact ⟨processed.map TypeRef.name, hnodup, hmem, by rw [htype, halts, hnull]⟩
    · cases hcases with
      | @collapsed alt _ hproc =>
        obtain ⟨-, hmem, hnodup, -, hcollapse⟩ := processVariantAlternatives_spec hproc
        have hnull : v.is_nullable = false := by simpa using hcollapse
        exact ⟨[alt.name], hnodup, hmem, by rw [hnull]; rfl⟩

end

/-! ### The whole run -/

theorem denote_run (ho : HashOrders) {ast : NormalizedAST} (hsan : ast.Sanitized)
    (hnames : ast.NamedByKey) {order : TopologicalOrder} (horder : order.Sorts ast) :
    ∀ (done rest : List Str), order.ordered_types = done ++ rest →
      ∃ acc, done.foldlM (emitNext ho ast) ([], {}) = some acc ∧ DenoteInv ast done acc := by
  intro done
  induction done using List.reverseRecOn with
  | nil => exact fun rest _ => ⟨_, rfl, DenoteInv.init ast⟩
  | append_singleton done n ih =>
    intro rest heq
    rw [List.append_assoc] at heq
    obtain ⟨acc, hrun, inv⟩ := ih ([n] ++ rest) heq
    have hn : n ∈ ast := horder.mem n (heq ▸ by simp)
    have hnew : n ∉ done := fun hd =>
      (List.nodup_append.mp (heq ▸ horder.nodup)).2.2 n hd n (List.mem_cons_self ..) rfl
    obtain ⟨type, htype⟩ := NormalizedAST.mem_iff_getType.mp hn
    obtain ⟨acc', hstep, inv'⟩ := inv.next ho hsan hnames htype hnew
      (horder.before done n rest type heq htype)
    refine ⟨acc', ?_, inv'⟩
    rw [List.foldlM_append, hrun]
    simpa using hstep

/-- **Resolving keeps the types of a plain step.**  The loop over the sorted types reaches each variant,
and when its step is plain, its alternatives resolve to names of their own types, and a name it is
emitted as an alias of has the type that is built from it. -/
theorem resolution_keeps_types (ho : HashOrders) (ast : NormalizedAST) (order : TopologicalOrder)
    (hsan : ast.Sanitized) (hnames : ast.NamedByKey)
    {L : Str → Prop} (hL : ∀ x, L x → Bare x)
    (hshape : ∀ n type, ast.getType n = some type → ShapedType L type)
    (hsort : sortTypes ho ast = some order) (hacyclic : order.has_cycles = false)
    (before : List Str) (n : Str) (after : List Str) (v : VariantType)
    (hpoint : order.ordered_types = before ++ n :: after) (hv : ast.getType n = some (.variant v)) :
    ∃ acc, before.foldlM (emitNext ho ast) ([], {}) = some acc ∧
      (PlainStep ho ast acc.2 v → KeepsTypes ho ast acc v) := by
  have horder := sorts_of_sortTypes hsan hL hshape hsort hacyclic
  obtain ⟨acc, hrun, inv⟩ := denote_run ho hsan hnames horder before (n :: after) hpoint
  exact ⟨acc, hrun, inv.keepsTypes hsan (horder.before before n after _ hpoint hv)⟩

/-! ### Documents with aliases -/

/-- `Pets` becomes an alias of a vector, which is the type that is built from it. -/
theorem resolution_keeps_types_petTypes :
    ∃ acc, ["Cat".toList].foldlM (emitNext (HashOrder.newestFirst _) petTypes) ([], {}) = some acc ∧
      KeepsTypes (HashOrder.newestFirst _) petTypes acc
        ⟨"Pets".toList, [⟨vectorOf "Cat".toList, true⟩], false, none, []⟩ := by
  obtain ⟨acc, hrun, hkeeps⟩ := resolution_keeps_types (HashOrder.newestFirst _) petTypes
    ⟨["Cat".toList, "Pets".toList], false, []⟩ petTypes_sanitized petTypes_namedByKey
    (fun x hx => bare_of_leafText petTypes_sanitized hx) petTypes_shaped (by rfl) rfl
    ["Cat".toList] "Pets".toList [] _ rfl rfl
  refine ⟨acc, hrun, hkeeps ⟨fun alt halt hinline => ?_, fun _ processed collapse _ target hsig => ?_⟩⟩
  · rw [List.mem_singleton.mp halt] at hinline
    cases hinline
  · -- no variant has been emitted yet
    obtain rfl := Option.some.inj hrun
    cases hsig

def refTo (n : String) : Json :=
  .obj [("$ref".toList, .str ("#/components/schemas/".toList ++ n.toList))]

/-- An alternative that is an alias of an integer becomes a string, and so does the variant. -/
def yearsSpec : JsonObject :=
  some [("components".toList, .obj [("schemas".toList, .obj
    [("Age".toList, .obj [("type".toList, .str "integer".toList)]),
      ("Years".toList, .obj [("oneOf".toList, .arr [refTo "Age"])])])])]

theorem integer_alias_becomes_string :
    ∃ s order acc v, parseSchemas .crash yearsSpec {} = .ok [] s ∧
      s.ast.validate (HashOrder.newestFirst _) = [] ∧
      sortTypes (HashOrder.newestFirst _) s.ast = some order ∧ order.has_cycles = false ∧
      order.ordered_types = ["Age".toList] ++ "Years".toList :: [] ∧
      s.ast.getType "Years".toList = some (.variant v) ∧
      ["Age".toList].foldlM (emitNext (HashOrder.newestFirst _) s.ast) ([], {}) = some acc ∧
      ¬ KeepsTypes (HashOrder.newestFirst _) s.ast acc v := by
  refine ⟨_, _, _, _, rfl, rfl, rfl, rfl, rfl, rfl, rfl, fun h => ?_⟩
  obtain ⟨r, hr, hread⟩ := h.alternatives ⟨"Age".toList, false⟩ (by decide)
  obtain rfl : "std::string".toList = r := Option.some.inj hr
  have hname : "std::string".toList = "int32_t".toList := HeaderType.named.inj hread
  exact absurd hname (by decide)

end Siesta
