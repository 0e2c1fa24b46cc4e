import Siesta.IR.Emission
import Siesta.IR.ParsedAST

/-!
# Names that no type defines

`validate` looks up the references that are not inline.  An array that stands in a property or an
alternative is written into an inline reference as `std::vector<X>`, and nobody looks `X` up.  What is
emitted for a valid AST names only its types exactly when these elements are types of it
(`emitted_names_defined_iff`).
-/

namespace Siesta

open Lib

def SchemaType.texts : SchemaType → List Str
  | .array t => [vectorOf t.element_type.name]
  | .map t => [mapOf t.value_type.name]
  | type => type.refs.map TypeRef.name

/-! ### Texts on their way into the definitions -/

section

variable {ast : NormalizedAST} {chain : Table Str Str} {G : Str → Prop}

theorem followChain_text (hchain : ∀ n target, chain.find n = some target → G target) :
    ∀ (fuel : ℕ) (visited : List Str) (current r : Str), G current →
      followChain chain fuel visited current = some r → G r := by
  intro fuel
  induction fuel with
  | zero => exact fun visited current r _ h => absurd h (by simp [followChain])
  | succ fuel ih =>
    intro visited current r hG h
    unfold followChain at h
    cases hfind : chain.find current with
    | none =>
      rw [hfind] at h
      exact Option.some.inj h ▸ hG
    | some next =>
      rw [hfind] at h
      dsimp only at h
      split at h
      · exact Option.some.inj h ▸ hG
      · split at h
        · exact Option.some.inj h ▸ hG
        · exact ih (current :: visited) next r (hchain current next hfind) h

variable (hstring : G "std::string".toList)
  (htexts : ∀ n type, ast.getType n = some type → ∀ text ∈ type.texts, G text)

include hstring htexts

/-- What is true of every text of the AST, and of every target of the chain, is true of what a name
resolves to. -/
theorem resolveTypeName_text (hchain : ∀ n target, chain.find n = some target → G target) :
    ∀ (fuel : ℕ) (name r : Str), G name → resolveTypeNameUpTo ast chain fuel name = some r → G r := by
  intro fuel
  induction fuel with
  | zero => exact fun name r _ h => absurd h (by simp [resolveTypeNameUpTo])
  | succ fuel ih =>
    intro name r hG h
    unfold resolveTypeNameUpTo at h
    obtain ⟨current, hfollow, h⟩ := Option.bind_eq_some_iff.mp h
    have hcurrent : G current := followChain_text hchain _ _ _ _ hG hfollow
    cases htype : ast.getType current with
    | none =>
      rw [htype] at h
      exact Option.some.inj h ▸ hcurrent
    | some type =>
      rw [htype] at h
      cases type with
      | primitive t =>
        dsimp only at h
        split at h
        · exact Option.some.inj h ▸ hcurrent
        · exact Option.some.inj h ▸ hstring
      | variant t =>
        dsimp only at h
        split at h
        · rename_i alt halts
          have halt : G alt.name := htexts current _ htype alt.name (by simp [SchemaType.texts,
            SchemaType.refs, halts])
          split at h
          · split at h
            · exact ih alt.name r halt h
            · exact Option.some.inj h ▸ halt
          · exact Option.some.inj h ▸ hcurrent
        · exact Option.some.inj h ▸ hcurrent
      | struct t => exact Option.some.inj h ▸ hcurrent
      | array t => exact Option.some.inj h ▸ hcurrent
      | map t => exact Option.some.inj h ▸ hcurrent
      | enum t => exact Option.some.inj h ▸ hcurrent

theorem processed_text {ho : HashOrders} {v : VariantType} {processed : List TypeRef} {collapse : Bool}
    (hchain : ∀ n target, chain.find n = some target → G target)
    (hv : ∀ alt ∈ v.alternatives, G alt.name)
    (h : processVariantAlternatives ast ho chain v = some (processed, collapse)) :
    ∀ text ∈ processed.map TypeRef.name, G text := by
  intro text htext
  obtain ⟨alt, halt, hres⟩ := ((processVariantAlternatives_spec h).2.1 text).mp htext
  unfold resolveAlternative at hres
  split at hres
  · exact Option.some.inj hres ▸ hv alt halt
  · exact resolveTypeName_text hstring htexts hchain _ alt.name text (hv alt halt) hres

end

/-! ### What every text of the definitions inherits -/

/-- `G` holds of every text that has been emitted, and of every text the state may still emit. -/
structure TextInv (G : Str → Prop) (acc : List Emitted × DefsEmitState) : Prop where
  chain : ∀ n target, acc.2.typedef_chain.find n = some target → G target
  signatures : ∀ sig target, acc.2.variant_signatures.find sig = some target → G target
  texts : ∀ e ∈ acc.1, ∀ text ∈ e.definition.references, G text

theorem TextInv.snoc {G : Str → Prop} {defs : List Emitted} {st st' : DefsEmitState}
    (inv : TextInv G (defs, st)) {n : Str} {d : CppDefinition}
    (hchain : ∀ n target, st'.typedef_chain.find n = some target → G target)
    (hsigs : ∀ sig target, st'.variant_signatures.find sig = some target → G target)
    (hd : ∀ text ∈ d.references, G text) : TextInv G (defs ++ [⟨n, d⟩], st') where
  chain := hchain
  signatures := hsigs
  texts e he := by
    rcases List.mem_append.mp he with he | he
    · exact inv.texts e he
    · rw [List.mem_singleton.mp he]
      exact hd

section

variable {ho : HashOrders} {ast : NormalizedAST} {G : Str → Prop}

theorem emitNext_cases {acc acc' : List Emitted × DefsEmitState} {n : Str}
    (h : emitNext ho ast acc n = some acc') :
    (ast.getType n = none ∧ acc' = acc) ∨
      ∃ type d st', ast.getType n = some type ∧ emitType ho ast n type acc.2 = some (d, st') ∧
        acc' = (acc.1 ++ [⟨n, d⟩], st') := by
  unfold emitNext at h
  cases htype : ast.getType n with
  | none =>
    rw [htype] at h
    exact .inl ⟨rfl, (Option.some.inj h).symm⟩
  | some type =>
    rw [htype] at h
    obtain ⟨⟨d, st'⟩, hemit, h⟩ := Option.bind_eq_some_iff.mp h
    exact .inr ⟨type, d, st', rfl, hemit, (Option.some.inj h).symm⟩

/-- A type that is no variant leaves the state alone, and is written with its own texts. -/
theorem emitType_references {n : Str} {type : SchemaType} {st st' : DefsEmitState} {d : CppDefinition}
    (h : emitType ho ast n type st = some (d, st')) (hne : ∀ v, type ≠ .variant v) :
    st' = st ∧ ∀ text, text ∈ d.references ↔ text ∈ type.texts := by
  cases type with
  | variant v => exact absurd rfl (hne v)
  | struct t =>
    obtain ⟨rfl, rfl⟩ := Prod.mk.inj (Option.some.inj h)
    refine ⟨rfl, fun text => ?_⟩
    simp only [CppDefinition.references, SchemaType.texts, SchemaType.refs, List.map_append,
      List.map_map, List.mem_append]
    exact or_comm
  | array t =>
    obtain ⟨rfl, rfl⟩ := Prod.mk.inj (Option.some.inj h)
    exact ⟨rfl, fun text => Iff.rfl⟩
  | map t =>
    obtain ⟨rfl, rfl⟩ := Prod.mk.inj (Option.some.inj h)
    exact ⟨rfl, fun text => Iff.rfl⟩
  | enum t =>
    obtain ⟨rfl, rfl⟩ := Prod.mk.inj (Option.some.inj h)
    exact ⟨rfl, fun text => Iff.rfl⟩
  | primitive t =>
    unfold emitType at h
    dsimp only at h
    split at h
    · obtain ⟨rfl, rfl⟩ := Prod.mk.inj (Option.some.inj h)
      exact ⟨rfl, fun text => Iff.rfl⟩
    · obtain ⟨rfl, rfl⟩ := Prod.mk.inj (Option.some.inj h)
      exact ⟨rfl, fun text => Iff.rfl⟩

variable (hnames : ast.NamedByKey) (hkeys : ∀ n ∈ ast, G n) (hstring : G "std::string".toList)
  (htexts : ∀ n type, ast.getType n = some type → ∀ text ∈ type.texts, G text)

include hnames hkeys hstring htexts

theorem emitVariant_text {acc : List Emitted × DefsEmitState} (inv : TextInv G acc) {n : Str}
    {v : VariantType} (hv : ast.getType n = some (.variant v)) {d : CppDefinition} {st' : DefsEmitState}
    (h : emitVariant ho ast v acc.2 = some (d, st')) : TextInv G (acc.1 ++ [⟨n, d⟩], st') := by
  have hname : G v.name := hnames n _ hv ▸ hkeys n (NormalizedAST.mem_of_getType hv)
  have halts : ∀ alt ∈ v.alternatives, G alt.name := fun alt ha =>
    htexts n _ hv alt.name (List.mem_map_of_mem ha)
  have hset : ∀ {t : Table Str Str} {k x : Str}, (∀ m y, t.find m = some y → G y) → G x →
      ∀ m y, (t.set k x).find m = some y → G y := by
    intro t k x ht hx m y hy
    rw [Table.find_set] at hy
    split at hy
    · exact Option.some.inj hy ▸ hx
    · exact ht m y hy
  cases emitVariant_cases h with
  | monostate hempty hnull =>
    exact inv.snoc inv.chain inv.signatures (by simp [CppDefinition.references])
  | @duplicate processed collapse target _ hproc hsig hsigs hchain =>
    have htarget := inv.signatures _ target hsig
    refine inv.snoc (hchain ▸ hset inv.chain htarget) (hsigs ▸ inv.signatures) fun text htext => ?_
    rw [List.mem_singleton.mp htext]
    exact htarget
  | @collapsed alt _ hproc hsigs hchain =>
    have halt : G alt.name :=
      processed_text hstring htexts inv.chain halts hproc alt.name (by simp)
    refine inv.snoc (hchain ▸ hset inv.chain halt) (hsigs ▸ hset inv.signatures hname) fun text htext => ?_
    rw [List.mem_singleton.mp htext]
    exact halt
  | @variant processed _ hproc hsigs hchain =>
    exact inv.snoc (hchain ▸ inv.chain) (hsigs ▸ hset inv.signatures hname)
      (processed_text hstring htexts inv.chain halts hproc)

theorem emitNext_text {acc acc' : List Emitted × DefsEmitState} (inv : TextInv G acc) {n : Str}
    (h : emitNext ho ast acc n = some acc') : TextInv G acc' := by
  rcases emitNext_cases h with ⟨-, rfl⟩ | ⟨type, d, st', htype, hemit, rfl⟩
  · exact inv
  · by_cases hvariant : ∃ v, type = .variant v
    · obtain ⟨v, rfl⟩ := hvariant
      exact emitVariant_text hnames hkeys hstring htexts inv htype hemit
    · obtain ⟨rfl, hrefs⟩ := emitType_references hemit fun v hv => hvariant ⟨v, hv⟩
      exact inv.snoc inv.chain inv.signatures fun text htext =>
        htexts n type htype text ((hrefs text).mp htext)

/-- **Every text of the definitions has what all texts of the AST have.** -/
theorem generateDefsHpp_text {order : TopologicalOrder} {defs : List Emitted}
    (h : generateDefsHpp ho order ast = some defs) :
    ∀ e ∈ defs, ∀ text ∈ e.definition.references, G text := by
  obtain ⟨acc, hrun, hdefs⟩ := Option.bind_eq_some_iff.mp h
  obtain rfl := Option.some.inj hdefs
  have hinit : TextInv G (([], {}) : List Emitted × DefsEmitState) :=
    ⟨fun n t hf => by simp at hf, fun sig t hf => by simp at hf, by simp⟩
  exact (foldlM_some_rule (J := fun _ acc => TextInv G acc)
    (fun done n acc acc' inv hstep => emitNext_text hnames hkeys hstring htexts inv hstep) hinit hrun).texts

end

/-! ### No text is lost to an earlier signature -/

theorem mem_of_signatureText_eq {names names' : List Str} (h : signatureText names = signatureText names')
    (hnames : ∀ n ∈ names, ',' ∉ n) (hnames' : ∀ n ∈ names', ',' ∉ n) {x : Str} (hx : x ∈ names)
    (hne : x ≠ []) : x ∈ names' := by
  have hjoin : [','].intercalate names = [','].intercalate names' := by
    unfold signatureText at h
    exact List.append_cancel_left (List.append_cancel_right h)
  have hsplit : ([','].intercalate names).splitOn ',' = names :=
    List.splitOn_intercalate ',' hnames (List.ne_nil_of_mem hx)
  by_cases hnil : names' = []
  · -- the other list is empty, so this one holds the empty text only
    rw [hjoin, hnil, show [','].intercalate ([] : List Str) = [] from rfl] at hsplit
    have hsingle : names = [[]] := by
      rw [← hsplit]
      rfl
    rw [hsingle, List.mem_singleton] at hx
    exact absurd hx hne
  · have hsplit' : ([','].intercalate names').splitOn ',' = names' :=
      List.splitOn_intercalate ',' hnames' hnil
    rwa [← hsplit', ← hjoin, hsplit]

/-- Every inline reference of the types `done` is written in a definition. -/
structure KeptInv (ast : NormalizedAST) (done : List Str) (acc : List Emitted × DefsEmitState) : Prop where
  text : TextInv (',' ∉ ·) acc
  signatures : ∀ sig target, acc.2.variant_signatures.find sig = some target →
    ∃ e ∈ acc.1, sig = signatureText e.definition.references
  kept : ∀ n ∈ done, ∀ type, ast.getType n = some type → ∀ ref ∈ type.refs, ref.is_inline = true →
    ref.name ≠ [] → ∃ e ∈ acc.1, ∃ text ∈ e.definition.references, Writes text ref.name

theorem exists_text_of_ref {type : SchemaType} {ref : TypeRef} (h : ref ∈ type.refs) :
    ∃ text ∈ type.texts, Writes text ref.name := by
  cases type with
  | array t =>
    rw [List.mem_singleton.mp h]
    exact ⟨vectorOf t.element_type.name, by simp [SchemaType.texts], .element (.name _)⟩
  | map t =>
    rw [List.mem_singleton.mp h]
    exact ⟨mapOf t.value_type.name, by simp [SchemaType.texts], .value (.name _)⟩
  | struct t => exact ⟨ref.name, List.mem_map_of_mem h, .name _⟩
  | variant t => exact ⟨ref.name, List.mem_map_of_mem h, .name _⟩
  | enum t => simp [SchemaType.refs] at h
  | primitive t => simp [SchemaType.refs] at h

theorem KeptInv.snoc {ast : NormalizedAST} {done : List Str} {acc : List Emitted × DefsEmitState}
    {st' : DefsEmitState} {n : Str} {d : CppDefinition} (inv : KeptInv ast done acc)
    (htext : TextInv (',' ∉ ·) (acc.1 ++ [⟨n, d⟩], st'))
    (hsigs : ∀ sig target, st'.variant_signatures.find sig = some target →
      acc.2.variant_signatures.find sig = some target ∨ sig = signatureText d.references)
    (hkept : ∀ type, ast.getType n = some type → ∀ ref ∈ type.refs, ref.is_inline = true →
      ref.name ≠ [] → (∃ text ∈ d.references, Writes text ref.name) ∨
        ∃ e ∈ acc.1, ∃ text ∈ e.definition.references, Writes text ref.name) :
    KeptInv ast (done ++ [n]) (acc.1 ++ [⟨n, d⟩], st') where
  text := htext
  signatures sig target h := by
    rcases hsigs sig target h with h | h
    · obtain ⟨e, he, hsig⟩ := inv.signatures sig target h
      exact ⟨e, List.mem_append_left _ he, hsig⟩
    · exact ⟨⟨n, d⟩, by simp, h⟩
  kept m hm type htype ref href hinline hne := by
    have hold : (∃ e ∈ acc.1, ∃ text ∈ e.definition.references, Writes text ref.name) →
        ∃ e ∈ acc.1 ++ [(⟨n, d⟩ : Emitted)], ∃ text ∈ e.definition.references, Writes text ref.name :=
      fun ⟨e, he, hw⟩ => ⟨e, List.mem_append_left _ he, hw⟩
    rcases List.mem_append.mp hm with hm | hm
    · exact hold (inv.kept m hm type htype ref href hinline hne)
    · obtain rfl := List.mem_singleton.mp hm
      rcases hkept type htype ref href hinline hne with h | h
      · exact ⟨⟨m, d⟩, by simp, h⟩
      · exact hold h

section

variable {ho : HashOrders} {ast : NormalizedAST}

/-- A variant: an inline alternative is written in its definition, or, when the variant is a duplicate,
in the definition whose signature it has. -/
theorem emitVariant_kept {done : List Str} {acc : List Emitted × DefsEmitState}
    (inv : KeptInv ast done acc) {n : Str} {v : VariantType} (hv : ast.getType n = some (.variant v))
    {d : CppDefinition} {st' : DefsEmitState} (h : emitVariant ho ast v acc.2 = some (d, st'))
    (htext : TextInv (',' ∉ ·) (acc.1 ++ [⟨n, d⟩], st'))
    (hprocessed : ∀ {processed collapse}, processVariantAlternatives ast ho acc.2.typedef_chain v =
      some (processed, collapse) → ∀ text ∈ processed.map TypeRef.name, ',' ∉ text) :
    KeptInv ast (done ++ [n]) (acc.1 ++ [⟨n, d⟩], st') := by
  have hmem : ∀ {processed collapse}, processVariantAlternatives ast ho acc.2.typedef_chain v =
      some (processed, collapse) → ∀ ref ∈ v.alternatives, ref.is_inline = true →
        ref.name ∈ processed.map TypeRef.name := fun hproc ref href hinline =>
    ((processVariantAlternatives_spec hproc).2.1 ref.name).mpr ⟨ref, href, by
      simp [resolveAlternative, hinline]⟩
  have hset : ∀ {sig sig' name target : Str},
      (acc.2.variant_signatures.set sig name).find sig' = some target →
        acc.2.variant_signatures.find sig' = some target ∨ sig' = sig := by
    intro sig sig' name target hfind
    rw [Table.find_set] at hfind
    split at hfind
    · exact .inr ‹_›
    · exact .inl hfind
  cases emitVariant_cases h with
  | monostate hempty hnull =>
    refine inv.snoc htext (fun sig target hs => .inl hs) fun type htype ref href => ?_
    obtain rfl := Option.some.inj (hv.symm.trans htype)
    simp [SchemaType.refs, hempty] at href
  | @duplicate processed collapse target _ hproc hsig hsigs hchain =>
    refine inv.snoc htext (fun sig target hs => .inl (hsigs ▸ hs)) fun type htype ref href hinline hne => ?_
    obtain rfl := Option.some.inj (hv.symm.trans htype)
    obtain ⟨e, he, hsame⟩ := inv.signatures _ target hsig
    have hwritten := mem_of_signatureText_eq hsame (hprocessed hproc) (inv.text.texts e he)
      (hmem hproc ref href hinline) hne
    exact .inr ⟨e, he, ref.name, hwritten, .name _⟩
  | @collapsed alt _ hproc hsigs hchain =>
    refine inv.snoc htext (fun sig target hs => hset (hsigs ▸ hs)) fun type htype ref href hinline _ => ?_
    obtain rfl := Option.some.inj (hv.symm.trans htype)
    exact .inl ⟨ref.name, hmem hproc ref href hinline, .name _⟩
  | @variant processed _ hproc hsigs hchain =>
    refine inv.snoc htext (fun sig target hs => hset (hsigs ▸ hs)) fun type htype ref href hinline _ => ?_
    obtain rfl := Option.some.inj (hv.symm.trans htype)
    exact .inl ⟨ref.name, hmem hproc ref href hinline, .name _⟩

def CommaFree (ast : NormalizedAST) : Prop :=
  (∀ n ∈ ast, ',' ∉ n) ∧ ∀ n type, ast.getType n = some type → ∀ text ∈ type.texts, ',' ∉ text

theorem emitNext_kept (hnames : ast.NamedByKey) (hcomma : CommaFree ast) {done : List Str}
    {acc acc' : List Emitted × DefsEmitState} (inv : KeptInv ast done acc) {n : Str}
    (h : emitNext ho ast acc n = some acc') : KeptInv ast (done ++ [n]) acc' := by
  have hstring : ',' ∉ "std::string".toList := by decide
  have htext := emitNext_text (G := (',' ∉ ·)) hnames hcomma.1 hstring hcomma.2 inv.text h
  rcases emitNext_cases h with ⟨hnone, rfl⟩ | ⟨type, d, st', htype, hemit, rfl⟩
  · refine ⟨htext, inv.signatures, fun m hm type htype => ?_⟩
    rcases List.mem_append.mp hm with hm | hm
    · exact inv.kept m hm type htype
    · rw [List.mem_singleton.mp hm, hnone] at htype
      cases htype
  · by_cases hvariant : ∃ v, type = .variant v
    · obtain ⟨v, rfl⟩ := hvariant
      refine emitVariant_kept inv htype hemit htext fun hproc => ?_
      exact processed_text hstring hcomma.2 inv.text.chain
        (fun alt ha => hcomma.2 n _ htype alt.name (List.mem_map_of_mem ha)) hproc
    · obtain ⟨rfl, hrefs⟩ := emitType_references hemit fun v hv => hvariant ⟨v, hv⟩
      refine inv.snoc htext (fun sig target hs => .inl hs) fun type' htype' ref href _ _ => ?_
      obtain rfl := Option.some.inj (htype.symm.trans htype')
      obtain ⟨text, htext', hw⟩ := exists_text_of_ref href
      exact .inl ⟨text, (hrefs text).mpr htext', hw⟩

/-- **Every inline reference is written in a definition**, when no comma blurs the signatures. -/
theorem generateDefsHpp_kept {order : TopologicalOrder} {defs : List Emitted} (hnames : ast.NamedByKey)
    (hcomma : CommaFree ast) (h : generateDefsHpp ho order ast = some defs) {n : Str}
    (hn : n ∈ order.ordered_types) {type : SchemaType} (htype : ast.getType n = some type)
    {ref : TypeRef} (href : ref ∈ type.refs) (hinline : ref.is_inline = true) (hne : ref.name ≠ []) :
    ∃ e ∈ defs, ∃ text ∈ e.definition.references, Writes text ref.name := by
  obtain ⟨acc, hrun, hdefs⟩ := Option.bind_eq_some_iff.mp h
  obtain rfl := Option.some.inj hdefs
  have hinit : KeptInv ast [] (([], {}) : List Emitted × DefsEmitState) :=
    ⟨⟨fun n t hf => by simp at hf, fun sig t hf => by simp at hf, by simp⟩, fun sig t hf => by simp at hf,
      by simp⟩
  exact (foldlM_some_rule (J := KeptInv ast)
    (fun done n acc acc' inv hstep => emitNext_kept hnames hcomma inv hstep) hinit hrun).kept
    n hn type htype ref href hinline hne

end

/-! ### What the validator does not see -/

/-- Every name that stands in a definition is a primitive type or a type of the AST. -/
def NamesDefined (ast : NormalizedAST) (defs : List Emitted) : Prop :=
  ∀ e ∈ defs, ∀ text ∈ e.definition.references, ∀ x, Writes text x → Bare x → LeafText ast x

/-- The element of every inline vector or map is a primitive type or a type of the AST. -/
def InlineElementsDefined (ast : NormalizedAST) : Prop :=
  ∀ n type, ast.getType n = some type → ∀ ref ∈ type.refs, ref.is_inline = true →
    ∀ x, ref.name = vectorOf x ∨ ref.name = mapOf x → LeafText ast x

theorem Writes.trans {a b c : Str} (h : Writes a b) (h' : Writes b c) : Writes a c := by
  induction h with
  | name => exact h'
  | element _ ih => exact .element (ih h')
  | value _ ih => exact .value (ih h')

section

variable {s : ParseState} (inv : ParseInv sanitizedNames s)

include inv

theorem bare_of_knownName {x : Str} (h : KnownName sanitizedNames s x) : Bare x := by
  rcases h with h | h | ⟨raw, rfl⟩
  · exact bare_of_leafText inv.sanitized (.inr h)
  · exact bare_of_leafText inv.sanitized (.inl (inv.added x h))
  · exact bare_of_colon_notMem (colon_notMem_sanitize raw)

theorem bare_of_inlineElement {n : Str} {type : SchemaType} (htype : s.ast.getType n = some type)
    {ref : TypeRef} (href : ref ∈ type.refs) {x : Str} (hx : ref.name = vectorOf x ∨ ref.name = mapOf x) :
    Bare x := by
  rcases knownRef_of_mem (inv.types n type htype) href with h | ⟨-, y, hy, -, htext⟩
  · have hbare := bare_of_knownName inv (knownName_of_plainRef h)
    rcases hx with hx | hx
    · exact absurd (hx ▸ vectorPrefix_vectorOf x) hbare.1
    · exact absurd (hx ▸ mapPrefix_mapOf x) hbare.2
  · rcases hx with hx | hx
    · exact vectorOf_injective (htext.symm.trans hx) ▸ bare_of_knownName inv hy
    · exact absurd (htext.symm.trans hx) (vectorOf_ne_mapOf y x)

variable {ho : HashOrders} (hvalid : s.ast.validate ho = []) (helements : InlineElementsDefined s.ast)

include hvalid

theorem leafText_of_plainRef {n : Str} {type : SchemaType} (htype : s.ast.getType n = some type)
    {ref : TypeRef} (href : ref ∈ type.refs) (h : PlainRef sanitizedNames s ref) :
    LeafText s.ast ref.name := by
  rcases h with ⟨-, h | h⟩ | ⟨hinline, -⟩
  · exact .inr h
  · exact .inl (inv.added _ h)
  · exact .inl ((NormalizedAST.validate_eq_nil.mp hvalid n type htype).1 ref href hinline)

include helements

theorem writes_leafText_of_knownRef {n : Str} {type : SchemaType}
    (htype : s.ast.getType n = some type) {ref : TypeRef} (href : ref ∈ type.refs)
    (h : KnownRef sanitizedNames s ref) {x : Str} (hw : Writes ref.name x) (hx : Bare x) :
    LeafText s.ast x := by
  rcases h with h | ⟨hinline, y, hy, -, htext⟩
  · have hleaf := leafText_of_plainRef inv hvalid htype href h
    rw [writes_bare (bare_of_leafText inv.sanitized hleaf) hw]
    exact hleaf
  · rw [htext] at hw
    rcases writes_vectorOf.mp hw with rfl | hw
    · exact absurd (vectorPrefix_vectorOf y) hx.1
    · rw [writes_bare (bare_of_knownName inv hy) hw]
      exact helements n type htype ref href hinline y (.inl htext)

theorem writes_leafText_of_texts {n : Str} {type : SchemaType} (htype : s.ast.getType n = some type)
    {text : Str} (htext : text ∈ type.texts) {x : Str} (hw : Writes text x) (hx : Bare x) :
    LeafText s.ast x := by
  have hknown := inv.types n type htype
  cases type with
  | struct t =>
    obtain ⟨ref, href, rfl⟩ := List.mem_map.mp htext
    exact writes_leafText_of_knownRef inv hvalid helements htype href (knownRef_of_mem hknown href) hw hx
  | variant t =>
    obtain ⟨ref, href, rfl⟩ := List.mem_map.mp htext
    exact writes_leafText_of_knownRef inv hvalid helements htype href (knownRef_of_mem hknown href) hw hx
  | array t =>
    rw [List.mem_singleton.mp htext] at hw
    rcases writes_vectorOf.mp hw with rfl | hw
    · exact absurd (vectorPrefix_vectorOf _) hx.1
    · have href : t.element_type ∈ (SchemaType.array t).refs := List.mem_singleton_self _
      exact writes_leafText_of_knownRef inv hvalid helements htype href (knownRef_of_mem hknown href) hw hx
  | map t => exact hknown.elim
  | enum t => exact hknown.elim
  | primitive t => simp [SchemaType.texts, SchemaType.refs] at htext

end

/-- **What `validate` does not see.**  An AST the parser builds and `validate` passes is emitted, and
the definitions name only its types, if the element of every inline vector is one; and only if, when
no comma stands in a name. -/
theorem emitted_names_defined_iff (ir : InvalidRead) (ho : HashOrders) (spec : JsonObject)
    (failed : List Str) (s : ParseState) (hrun : parseSchemas ir spec {} = .ok failed s)
    (hvalid : s.ast.validate ho = []) (order : TopologicalOrder)
    (hsort : sortTypes ho s.ast = some order) (hacyclic : order.has_cycles = false) :
    ∃ defs, generateDefsHpp ho order s.ast = some defs ∧
      (InlineElementsDefined s.ast → NamesDefined s.ast defs) ∧
      (CommaFree s.ast → NamesDefined s.ast defs → InlineElementsDefined s.ast) := by
  have inv : ParseInv sanitizedNames s := parseSchemas_inv hrun
  obtain ⟨defs, hdefs, -⟩ := generateDefsHpp_run ho inv.sanitized inv.named
    (fun x hx => bare_of_knownName inv hx)
    (fun n type h => shapedType_of_knownType (fun _ hx => hx) (inv.types n type h)) hsort hacyclic
  refine ⟨defs, hdefs, fun helements e he text htext x hw hx => ?_, ?_⟩
  · -- each text of the AST only writes names that are defined, so each text of the definitions does
    have hkeys : ∀ n ∈ s.ast, ∀ x, Writes n x → Bare x → LeafText s.ast x := fun n hn x hw hx => by
      rw [writes_bare (bare_of_leafText inv.sanitized (.inl hn)) hw]
      exact .inl hn
    have hstring : ∀ x, Writes "std::string".toList x → Bare x → LeafText s.ast x := fun x hw hx => by
      have hprim : "std::string".toList ∈ primitiveCppTypes := List.mem_map_of_mem (by simp)
      rw [writes_bare (bare_of_leafText inv.sanitized (.inr hprim)) hw]
      exact .inr hprim
    exact generateDefsHpp_text (G := fun text => ∀ x, Writes text x → Bare x → LeafText s.ast x)
      inv.named hkeys hstring (fun n type htype text htext x hw hx =>
        writes_leafText_of_texts inv hvalid helements htype htext hw hx) hdefs e he text htext x hw hx
  · intro hcomma hdefined n type htype ref href hinline x hx
    have hn : n ∈ order.ordered_types := by
      obtain ⟨order', hsort', horder⟩ := sortTypes_order ho s.ast
      obtain rfl := Option.some.inj (hsort'.symm.trans hsort)
      exact ((horder hacyclic).2.1 n).mpr (NormalizedAST.mem_of_getType htype)
    have hne : ref.name ≠ [] := by
      rcases hx with hx | hx
      · rw [hx, vectorOf]; simp
      · rw [hx, mapOf]; simp
    obtain ⟨e, he, text, htext, hw⟩ := generateDefsHpp_kept inv.named hcomma hdefs hn htype href hinline hne
    have hxw : Writes ref.name x := by
      rcases hx with hx | hx
      · exact hx ▸ .element (.name x)
      · exact hx ▸ .value (.name x)
    exact hdefined e he text htext x (hw.trans hxw) (bare_of_inlineElement inv htype href hx)

theorem emitted_names_defined_iff_shelter :
    ∃ s order, parseSchemas .crash shelterSpec {} = .ok [] s ∧
      sortTypes (HashOrder.newestFirst _) s.ast = some order ∧
      ∃ defs, generateDefsHpp (HashOrder.newestFirst _) order s.ast = some defs ∧
        (InlineElementsDefined s.ast → NamesDefined s.ast defs) ∧
        (CommaFree s.ast → NamesDefined s.ast defs → InlineElementsDefined s.ast) :=
  ⟨_, _, rfl, rfl, emitted_names_defined_iff .crash (HashOrder.newestFirst _) shelterSpec [] _ rfl
    (by rfl) _ rfl rfl⟩

/-- `Pet` has a property that is an array of a type that does not exist. -/
def strayTagSpec : JsonObject :=
  some [("components".toList, .obj [("schemas".toList, .obj
    [("Pet".toList, .obj [("type".toList, .str "object".toList),
      ("properties".toList, .obj [("tags".toList, .obj [("type".toList, .str "array".toList),
        ("items".toList, .obj [("$ref".toList, .str "#/components/schemas/Tag".toList)])])])])])])]

/-- The validator passes `strayTagSpec`, and `std::vector<Tag>` is emitted. -/
theorem validate_misses_inline_element :
    ∃ s order defs, parseSchemas .crash strayTagSpec {} = .ok [] s ∧
      s.ast.validate (HashOrder.newestFirst _) = [] ∧
      sortTypes (HashOrder.newestFirst _) s.ast = some order ∧ order.has_cycles = false ∧
      generateDefsHpp (HashOrder.newestFirst _) order s.ast = some defs ∧ ¬ NamesDefined s.ast defs := by
  refine ⟨_, _, _, rfl, by rfl, rfl, rfl, rfl, fun h => ?_⟩
  have htag := h _ (List.mem_singleton_self _) (vectorOf "Tag".toList) (by decide) "Tag".toList
    (.element (.name _)) (bare_of_colon_notMem (by decide))
  rcases htag with htag | htag
  · exact absurd htag (by decide)
  · exact absurd htag (by decide)

end Siesta
