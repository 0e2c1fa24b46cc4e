import Siesta.IR.DefsGenerator

/-!
# The definitions stand in order

`EmitInv` links the emission state to the names emitted so far: variants are found under their
signatures only once they are emitted, and an entry of the chain goes to names emitted before its
own.  So following the chain ends (`followChain_spec`), at a name whose definition is there
(`resolveTypeName_spec`), and every definition only writes names that were defined before it
(`generateDefsHpp_spec`).
-/

namespace Siesta

open Lib

/-- Every name of the AST that `text` writes has been emitted. -/
def Written (ast : NormalizedAST) (done : List Str) (text : Str) : Prop :=
  ∀ m ∈ ast, Writes text m → m ∈ done

/-- `n` is a variant that is always emitted as an alias. -/
def SingleVariant (ast : NormalizedAST) (n : Str) : Prop :=
  ∃ v alt, ast.getType n = some (.variant v) ∧ v.alternatives = [alt] ∧ v.is_nullable = false

/-- The emission state, when the definitions of `done` have been emitted. -/
structure EmitInv (ast : NormalizedAST) (done : List Str) (st : DefsEmitState) : Prop where
  mem : ∀ n ∈ done, n ∈ ast
  nodup : done.Nodup
  signatures : ∀ sig target, st.variant_signatures.find sig = some target → target ∈ done
  chain : ∀ n target, st.typedef_chain.find n = some target →
    n ∈ done ∧ ∀ m ∈ ast, Writes target m → StandsBefore done m n
  single : ∀ n ∈ done, SingleVariant ast n → n ∈ st.typedef_chain

/-! ### Following the chain -/

/-- When the chain goes down in some rank, the loop ends at a name that is not in it.  `P` is what an
entry of the chain passes on. -/
theorem followChain_spec {chain : Table Str Str} {P : Str → Prop} {rank : Str → ℕ}
    (hP : ∀ n target, P n → chain.find n = some target → P target)
    (hrank : ∀ n target, chain.find n = some target → target ∈ chain → rank target < rank n) :
    ∀ (fuel : ℕ) (visited : List Str) (current : Str), P current → visited.Nodup →
      (∀ x ∈ visited, x ∈ chain ∧ (current ∈ chain → rank current < rank x)) →
      chain.entries.length < fuel + visited.length →
      ∃ r, followChain chain fuel visited current = some r ∧ P r ∧ r ∉ chain := by
  intro fuel
  induction fuel with
  | zero =>
    intro visited current _ hnd hvis hlen
    -- more names visited than the chain has keys
    have hsub : visited.length ≤ chain.keys.length :=
      (List.subperm_of_subset hnd fun x hx => AList.mem_keys.mpr (hvis x hx).1).length_le
    have hkeys : chain.keys.length = chain.entries.length := List.length_map _
    omega
  | succ fuel ih =>
    intro visited current hcur hnd hvis hlen
    unfold followChain
    cases hfind : chain.find current with
    | none => exact ⟨current, rfl, hcur, Table.find_eq_none.mp hfind⟩
    | some next =>
      have hmem : current ∈ chain := Table.mem_of_find hfind
      have hnew : current ∉ visited := fun hv => by
        have := (hvis current hv).2 hmem
        omega
      have hne : next ≠ current := by
        rintro rfl
        have := hrank next next hfind hmem
        omega
      simp only [hnew, hne, if_false]
      refine ih (current :: visited) next (hP current next hcur hfind)
        (List.nodup_cons.mpr ⟨hnew, hnd⟩) (fun x hx => ?_) (by rw [List.length_cons]; omega)
      rcases List.mem_cons.mp hx with rfl | hx
      · exact ⟨hmem, fun hn => hrank x next hfind hn⟩
      · refine ⟨(hvis x hx).1, fun hn => ?_⟩
        have h₁ := hrank current next hfind hn
        have h₂ := (hvis x hx).2 hmem
        omega

section

variable {ast : NormalizedAST} {done : List Str} {st : DefsEmitState}

theorem written_string (hsan : ast.Sanitized) : Written ast done "std::string".toList := by
  intro m hm hw
  have hbare : Bare "std::string".toList := by
    have hdec : ¬ vectorPrefix <+: "std::string".toList ∧ ¬ mapPrefix <+: "std::string".toList := by
      decide
    exact hdec
  rw [writes_bare hbare hw] at hm
  exact absurd (hsan.colon_notMem hm) (by decide)

theorem written_of_mem (hsan : ast.Sanitized) (hmem : ∀ n ∈ done, n ∈ ast) {n : Str} (hn : n ∈ done) :
    Written ast done n := fun m _ hw => by
  rw [writes_bare (bare_of_colon_notMem (hsan.colon_notMem (hmem n hn))) hw]
  exact hn

/-- The chain leads from `a` to `e`, and no further. -/
def Ends (chain : Table Str Str) (a e : Str) : Prop :=
  Relation.ReflTransGen (fun x y => chain.find x = some y) a e ∧ e ∉ chain

theorem Ends.unique {chain : Table Str Str} {a e e' : Str} (h : Ends chain a e) (h' : Ends chain a e') :
    e = e' := by
  have hstop : ∀ {x y : Str}, x ∉ chain →
      Relation.ReflTransGen (fun x y => chain.find x = some y) x y → y = x := by
    intro x y hx hxy
    rcases hxy.cases_head with rfl | ⟨z, hz, -⟩
    · rfl
    · exact absurd (Table.mem_of_find hz) hx
  have hfun : Relator.RightUnique fun x y => chain.find x = some y := fun x y z hy hz =>
    Option.some.inj (hy.symm.trans hz)
  rcases Relation.ReflTransGen.total_of_right_unique hfun h.1 h'.1 with hle | hle
  · exact (hstop h.2 hle).symm
  · exact hstop h'.2 hle

/-- The name of the type at which the chain ends: a primitive type that is no enumeration is written as
`std::string`, whatever its kind. -/
def endName (ast : NormalizedAST) (e : Str) : Str :=
  match ast.getType e with
  | some (.primitive t) => if !t.enum_values.isEmpty then e else "std::string".toList
  | _ => e

theorem EmitInv.written_target (inv : EmitInv ast done st) {n target : Str}
    (h : st.typedef_chain.find n = some target) : Written ast done target := fun m hm hw =>
  ((inv.chain n target h).2 m hm hw).mem_left

theorem exists_ends (inv : EmitInv ast done st) {name : Str} (hw : Written ast done name) :
    ∃ e, followChain st.typedef_chain (st.typedef_chain.entries.length + 1) [] name = some e ∧
      Ends st.typedef_chain name e ∧ Written ast done e := by
  have hP : ∀ n target, (Written ast done n ∧
      Relation.ReflTransGen (fun x y => st.typedef_chain.find x = some y) name n) →
      st.typedef_chain.find n = some target → Written ast done target ∧
        Relation.ReflTransGen (fun x y => st.typedef_chain.find x = some y) name target :=
    fun n target hn hfind => ⟨inv.written_target hfind, hn.2.tail hfind⟩
  have hrank : ∀ n target, st.typedef_chain.find n = some target → target ∈ st.typedef_chain →
      done.idxOf target < done.idxOf n := by
    intro n target hfind htarget
    obtain ⟨t, ht⟩ := Table.mem_iff_find.mp htarget
    have hast := inv.mem target (inv.chain target t ht).1
    exact ((inv.chain n target hfind).2 target hast (.name target)).idxOf_lt inv.nodup
  obtain ⟨e, hfollow, ⟨he, hreach⟩, hchain⟩ := followChain_spec hP hrank
    (st.typedef_chain.entries.length + 1) [] name ⟨hw, .refl⟩ List.nodup_nil (by simp) (by simp)
  exact ⟨e, hfollow, ⟨hreach, hchain⟩, he⟩

/-- What is done at the end of the chain, unless there is a variant that is its only alternative. -/
theorem resolveTypeNameUpTo_end {chain : Table Str Str} (fuel : ℕ) {name e : Str}
    (hfollow : followChain chain (chain.entries.length + 1) [] name = some e)
    (hsingle : ¬ SingleVariant ast e) :
    resolveTypeNameUpTo ast chain (fuel + 1) name = some (endName ast e) := by
  unfold resolveTypeNameUpTo endName
  rw [hfollow, Option.bind_eq_bind, Option.bind_some]
  cases htype : ast.getType e with
  | none => rfl
  | some type =>
    cases type with
    | primitive t =>
      dsimp only
      split
      · rfl
      · rfl
    | variant t =>
      dsimp only
      split
      · rename_i alt halts
        split
        · rename_i hnull
          exact absurd ⟨t, alt, htype, halts, by simpa using hnull⟩ hsingle
        · rfl
      · rfl
    | struct t => rfl
    | array t => rfl
    | map t => rfl
    | enum t => rfl

theorem resolveTypeName_eq (inv : EmitInv ast done st) {name e : Str} (hw : Written ast done name)
    (hends : Ends st.typedef_chain name e) :
    resolveTypeName ast st.typedef_chain name = some (endName ast e) := by
  obtain ⟨r, hfollow, hr, hwr⟩ := exists_ends inv hw
  obtain rfl := hr.unique hends
  refine resolveTypeNameUpTo_end ast.getTypeCount hfollow fun hsingle => ?_
  -- a variant of this kind has been emitted as an alias, so it is in the chain
  obtain ⟨v, -, htype, -⟩ := id hsingle
  have hdone : r ∈ done := hwr r (NormalizedAST.mem_of_getType htype) (.name r)
  exact hr.2 (inv.single r hdone hsingle)

theorem written_endName (hsan : ast.Sanitized) {e : Str} (he : Written ast done e) :
    Written ast done (endName ast e) := by
  unfold endName
  split
  · split
    · exact he
    · exact written_string hsan
  · exact he

/-- A name that writes emitted names only resolves, and to a text of which the same is true. -/
theorem resolveTypeName_spec (hsan : ast.Sanitized) (inv : EmitInv ast done st) {name : Str}
    (hw : Written ast done name) :
    ∃ r, resolveTypeName ast st.typedef_chain name = some r ∧ Written ast done r := by
  obtain ⟨e, -, hends, he⟩ := exists_ends inv hw
  exact ⟨endName ast e, resolveTypeName_eq inv hw hends, written_endName hsan he⟩

/-! ### One turn of the loop -/

theorem EmitInv.init : EmitInv ast [] {} where
  mem := by simp
  nodup := List.nodup_nil
  signatures sig target h := by simp at h
  chain n target h := by simp at h
  single := by simp

theorem EmitInv.step (inv : EmitInv ast done st) {st' : DefsEmitState} {n : Str} (hn : n ∈ ast)
    (hnew : n ∉ done)
    (hsigs : ∀ sig target, st'.variant_signatures.find sig = some target → target ∈ done ∨ target = n)
    (hchain : ∀ k target, st'.typedef_chain.find k = some target →
      st.typedef_chain.find k = some target ∨ (k = n ∧ Written ast done target))
    (hkeep : ∀ k ∈ st.typedef_chain, k ∈ st'.typedef_chain)
    (hsingle : SingleVariant ast n → n ∈ st'.typedef_chain) : EmitInv ast (done ++ [n]) st' where
  mem m hm := by
    rcases List.mem_append.mp hm with hm | hm
    · exact inv.mem m hm
    · exact List.mem_singleton.mp hm ▸ hn
  nodup := by
    refine List.nodup_append.mpr ⟨inv.nodup, List.nodup_singleton n, fun a ha b hb => ?_⟩
    rintro rfl
    exact hnew (List.mem_singleton.mp hb ▸ ha)
  signatures sig target h := by
    rcases hsigs sig target h with h | rfl
    · exact List.mem_append_left _ h
    · simp
  chain k target h := by
    rcases hchain k target h with h | ⟨rfl, hw⟩
    · obtain ⟨hk, hbefore⟩ := inv.chain k target h
      exact ⟨List.mem_append_left _ hk, fun m hm hwm => (hbefore m hm hwm).append_right _⟩
    · exact ⟨by simp, fun m hm hwm => standsBefore_of_mem (hw m hm hwm)⟩
  single m hm hs := by
    rcases List.mem_append.mp hm with hm | hm
    · exact hkeep m (inv.single m hm hs)
    · obtain rfl := List.mem_singleton.mp hm
      exact hsingle hs

/-- A turn that leaves the state as it is, and emits no variant that has to be an alias. -/
theorem EmitInv.skip (inv : EmitInv ast done st) {n : Str} (hn : n ∈ ast) (hnew : n ∉ done)
    (hsingle : ¬ SingleVariant ast n) : EmitInv ast (done ++ [n]) st :=
  inv.step hn hnew (fun sig target h => .inl (inv.signatures sig target h)) (fun _ _ h => .inl h)
    (fun _ h => h) fun hs => absurd hs hsingle

/-- `d` is a definition of the type `n`: an enumeration is declared under the name it holds. -/
def Declares (ast : NormalizedAST) (n : Str) (d : CppDefinition) : Prop :=
  d.name = n ∨ ∃ t, ast.getType n = some (.enum t) ∧ d.name = t.name

theorem emitVariant_spec (ho : HashOrders) (hsan : ast.Sanitized) (inv : EmitInv ast done st) {n : Str}
    {v : VariantType} (hv : ast.getType n = some (.variant v)) (hname : v.name = n) (hnew : n ∉ done)
    (hrefs : ∀ alt ∈ v.alternatives, Written ast done alt.name) :
    ∃ d st', emitVariant ho ast v st = some (d, st') ∧ EmitInv ast (done ++ [n]) st' ∧
      (∀ text ∈ d.references, Written ast done text) ∧ d.name = n := by
  have hn : n ∈ ast := NormalizedAST.mem_of_getType hv
  have hresolve : ∀ alt ∈ v.alternatives, ∃ x, resolveAlternative ast st.typedef_chain alt = some x ∧
      Written ast done x := by
    intro alt halt
    unfold resolveAlternative
    split
    · exact ⟨alt.name, rfl, hrefs alt halt⟩
    · exact resolveTypeName_spec hsan inv (hrefs alt halt)
  obtain ⟨⟨d, st'⟩, hemit⟩ := emitVariant_isSome ho fun alt halt =>
    (hresolve alt halt).imp fun _ h => h.1
  have hprocessed : ∀ {processed collapse},
      processVariantAlternatives ast ho st.typedef_chain v = some (processed, collapse) →
      ∀ ref ∈ processed, Written ast done ref.name := by
    intro processed collapse hproc ref href
    obtain ⟨alt, halt, hx⟩ := ((processVariantAlternatives_spec hproc).2.1 ref.name).mp
      (List.mem_map_of_mem href)
    obtain ⟨x, hx', hw⟩ := hresolve alt halt
    obtain rfl := Option.some.inj (hx.symm.trans hx')
    exact hw
  refine ⟨d, st', hemit, ?_⟩
  cases emitVariant_cases hemit with
  | monostate hempty hnull =>
    refine ⟨inv.skip hn hnew ?_, by simp [CppDefinition.references], hname⟩
    rintro ⟨v', alt, hv', halts, -⟩
    obtain rfl : v = v' := by simpa using hv.symm.trans hv'
    simp [hempty] at halts
  | @duplicate processed collapse target _ hproc hsig hsigs hchain =>
    have htarget : Written ast done target :=
      written_of_mem hsan inv.mem (inv.signatures _ target hsig)
    refine ⟨inv.step hn hnew (fun s t h => .inl ?_) (fun k t h => ?_) (fun k hk => ?_) fun _ => ?_,
      ?_, hname⟩
    · rw [hsigs] at h
      exact inv.signatures s t h
    · rw [hchain, Table.find_set, hname] at h
      split at h
      · rename_i hk
        exact .inr ⟨hk, Option.some.inj h ▸ htarget⟩
      · exact .inl h
    · rw [hchain]
      exact Table.mem_set.mpr (.inr hk)
    · rw [hchain, hname]
      exact Table.mem_set.mpr (.inl rfl)
    · intro text htext
      rw [List.mem_singleton.mp htext]
      exact htarget
  | @collapsed alt _ hproc hsigs hchain =>
    have htarget : Written ast done alt.name := hprocessed hproc alt (List.mem_cons_self ..)
    refine ⟨inv.step hn hnew (fun s t h => ?_) (fun k t h => ?_) (fun k hk => ?_) fun _ => ?_,
      ?_, hname⟩
    · rw [hsigs, Table.find_set, hname] at h
      split at h
      · exact .inr (Option.some.inj h).symm
      · exact .inl (inv.signatures s t h)
    · rw [hchain, Table.find_set, hname] at h
      split at h
      · rename_i hk
        exact .inr ⟨hk, Option.some.inj h ▸ htarget⟩
      · exact .inl h
    · rw [hchain]
      exact Table.mem_set.mpr (.inr hk)
    · rw [hchain, hname]
      exact Table.mem_set.mpr (.inl rfl)
    · intro text htext
      rw [List.mem_singleton.mp htext]
      exact htarget
  | @variant processed _ hproc hsigs hchain =>
    refine ⟨inv.step hn hnew (fun s t h => ?_) (fun k t h => .inl (hchain ▸ h)) (fun k hk => hchain ▸ hk)
      fun hs => ?_, ?_, hname⟩
    · rw [hsigs, Table.find_set, hname] at h
      split at h
      · exact .inr (Option.some.inj h).symm
      · exact .inl (inv.signatures s t h)
    · -- a single alternative resolves to a single name, which would have been collapsed
      obtain ⟨v', alt, hv', halts, hnull⟩ := hs
      obtain rfl : v = v' := by simpa using hv.symm.trans hv'
      have hcollapse := (processVariantAlternatives_spec hproc).2.2.2.2
      simp [length_processed_of_single hproc halts, hnull] at hcollapse
    · intro text htext
      obtain ⟨ref, href, rfl⟩ := List.mem_map.mp htext
      exact hprocessed hproc ref href

theorem not_singleVariant {n : Str} {type : SchemaType} (htype : ast.getType n = some type)
    (hne : ∀ v, type ≠ .variant v) : ¬ SingleVariant ast n := by
  rintro ⟨v, alt, hv, -⟩
  exact hne v (Option.some.inj (htype.symm.trans hv))

/-- One type: when everything it writes has been emitted, so has everything its definition writes. -/
theorem emitType_spec (ho : HashOrders) (hsan : ast.Sanitized) (hnames : ast.NamedByKey)
    (inv : EmitInv ast done st) {n : Str} {type : SchemaType} (htype : ast.getType n = some type)
    (hnew : n ∉ done) (hrefs : ∀ ref ∈ type.refs, Written ast done ref.name) :
    ∃ d st', emitType ho ast n type st = some (d, st') ∧ EmitInv ast (done ++ [n]) st' ∧
      (∀ text ∈ d.references, Written ast done text) ∧ Declares ast n d := by
  have hn : n ∈ ast := NormalizedAST.mem_of_getType htype
  cases type with
  | struct t =>
    refine ⟨.struct t, st, rfl, inv.skip hn hnew (not_singleVariant htype (by simp)), ?_,
      .inl (hnames n _ htype)⟩
    intro text htext
    rcases List.mem_append.mp htext with htext | htext
    · obtain ⟨base, hbase, rfl⟩ := List.mem_map.mp htext
      exact hrefs base (List.mem_append_right _ hbase)
    · obtain ⟨field, hfield, rfl⟩ := List.mem_map.mp htext
      exact hrefs field.type (List.mem_append_left _ (List.mem_map_of_mem hfield))
  | variant v =>
    obtain ⟨d, st', hemit, hinv, hreferences, hd⟩ :=
      emitVariant_spec ho hsan inv htype (hnames n _ htype) hnew hrefs
    exact ⟨d, st', hemit, hinv, hreferences, .inl hd⟩
  | array t =>
    refine ⟨.arrayAlias n t.element_type.name, st, rfl,
      inv.skip hn hnew (not_singleVariant htype (by simp)), ?_, .inl rfl⟩
    intro text htext m hm hw
    rw [List.mem_singleton.mp htext] at hw
    rcases writes_vectorOf.mp hw with rfl | hw
    · exact absurd hm (vectorOf_notMem hsan _)
    · exact hrefs t.element_type (List.mem_singleton_self _) m hm hw
  | map t =>
    refine ⟨.mapAlias n t.value_type.name, st, rfl,
      inv.skip hn hnew (not_singleVariant htype (by simp)), ?_, .inl rfl⟩
    intro text htext m hm hw
    rw [List.mem_singleton.mp htext] at hw
    rcases writes_mapOf.mp hw with rfl | hw
    · exact absurd hm (mapOf_notMem hsan _)
    · exact hrefs t.value_type (List.mem_singleton_self _) m hm hw
  | enum t =>
    exact ⟨.enumClass t.name (t.values.map EnumValue.name), st, rfl,
      inv.skip hn hnew (not_singleVariant htype (by simp)), by simp [CppDefinition.references],
      .inr ⟨t, htype, rfl⟩⟩
  | primitive t =>
    have hinv := inv.skip hn hnew (not_singleVariant htype (by simp))
    unfold emitType
    dsimp only
    split
    · exact ⟨_, st, rfl, hinv, by simp [CppDefinition.references], .inl rfl⟩
    · exact ⟨_, st, rfl, hinv, by simp [CppDefinition.references], .inl rfl⟩

end

/-! ### The whole loop -/

/-- The definitions `defs` are those of the names `done`, each after what it refers to. -/
structure DefinedInOrder (ast : NormalizedAST) (done : List Str) (defs : List Emitted) : Prop where
  keys : defs.map Emitted.key = done
  declares : ∀ e ∈ defs, Declares ast e.key e.definition
  before : ∀ before e after, defs = before ++ e :: after →
    ∀ text ∈ e.definition.references, Written ast (before.map Emitted.key) text

theorem DefinedInOrder.snoc {ast : NormalizedAST} {done : List Str} {defs : List Emitted}
    (h : DefinedInOrder ast done defs) {n : Str} {d : CppDefinition} (hd : Declares ast n d)
    (hw : ∀ text ∈ d.references, Written ast done text) :
    DefinedInOrder ast (done ++ [n]) (defs ++ [⟨n, d⟩]) where
  keys := by rw [List.map_append, h.keys]; rfl
  declares e he := by
    rcases List.mem_append.mp he with he | he
    · exact h.declares e he
    · rw [List.mem_singleton.mp he]
      exact hd
  before before e after heq text htext := by
    rcases List.eq_nil_or_concat after with rfl | ⟨after, last, rfl⟩
    · obtain ⟨rfl, he⟩ := List.append_inj' heq rfl
      obtain rfl : (⟨n, d⟩ : Emitted) = e := List.head_eq_of_cons_eq he
      rw [h.keys]
      exact hw text htext
    · have heq : defs ++ [(⟨n, d⟩ : Emitted)] = (before ++ e :: after) ++ [last] := by simpa using heq
      exact h.before before e after (List.append_inj' heq rfl).1 text htext

theorem emit_run (ho : HashOrders) {ast : NormalizedAST} (hsan : ast.Sanitized)
    (hnames : ast.NamedByKey) {ordered : List Str} (hmem : ∀ n ∈ ordered, n ∈ ast)
    (hnd : ordered.Nodup)
    (hrefs : ∀ done n rest type, ordered = done ++ n :: rest → ast.getType n = some type →
      ∀ ref ∈ type.refs, Written ast done ref.name) :
    ∀ (rest done : List Str) (acc : List Emitted × DefsEmitState), ordered = done ++ rest →
      EmitInv ast done acc.2 → DefinedInOrder ast done acc.1 →
      ∃ acc', rest.foldlM (emitNext ho ast) acc = some acc' ∧ DefinedInOrder ast ordered acc'.1 := by
  intro rest
  induction rest with
  | nil =>
    intro done acc heq _ hdefs
    rw [List.append_nil] at heq
    exact ⟨acc, rfl, heq ▸ hdefs⟩
  | cons n rest ih =>
    intro done acc heq hinv hdefs
    have hn : n ∈ ast := hmem n (heq ▸ by simp)
    have hnew : n ∉ done := fun hd =>
      (List.nodup_append.mp (heq ▸ hnd)).2.2 n hd n (List.mem_cons_self ..) rfl
    obtain ⟨type, htype⟩ := NormalizedAST.mem_iff_getType.mp hn
    obtain ⟨d, st', hemit, hinv', hw, hd⟩ :=
      emitType_spec ho hsan hnames hinv htype hnew (hrefs done n rest type heq htype)
    have hstep : emitNext ho ast acc n = some (acc.1 ++ [⟨n, d⟩], st') := by
      simp [emitNext, htype, hemit]
    rw [List.foldlM_cons, hstep]
    exact ih (done ++ [n]) _ (by simpa using heq) hinv' (hdefs.snoc hd hw)

/-- The order lists types of the AST once, each behind everything it writes. -/
structure TopologicalOrder.Sorts (order : TopologicalOrder) (ast : NormalizedAST) : Prop where
  nodup : order.ordered_types.Nodup
  mem : ∀ n ∈ order.ordered_types, n ∈ ast
  before : ∀ done n rest type, order.ordered_types = done ++ n :: rest → ast.getType n = some type →
    ∀ ref ∈ type.refs, Written ast done ref.name

theorem sorts_of_sortTypes {ho : HashOrders} {ast : NormalizedAST} {order : TopologicalOrder}
    (hsan : ast.Sanitized) {L : Str → Prop} (hL : ∀ x, L x → Bare x)
    (hshape : ∀ n type, ast.getType n = some type → ShapedType L type)
    (hsort : sortTypes ho ast = some order) (hacyclic : order.has_cycles = false) : order.Sorts ast := by
  obtain ⟨order', hsort', horder⟩ := sortTypes_order ho ast
  obtain rfl : order' = order := Option.some.inj (hsort'.symm.trans hsort)
  obtain ⟨hnd, hmem, hdeps⟩ := horder hacyclic
  refine ⟨hnd, fun n hn => (hmem n).mp hn, fun done n rest type heq htype ref href m hm hw => ?_⟩
  have hedge : (DependencyGraph.buildFromAST ho ast).DependsOn n m :=
    dependsOn_of_writes hsan hL hm htype (hshape n type htype) href hw
  have hbefore := hdeps n m hedge hm
  rw [heq] at hbefore hnd
  exact hbefore.mem_prefix hnd

theorem generateDefsHpp_of_sorts (ho : HashOrders) {ast : NormalizedAST} {order : TopologicalOrder}
    (hsan : ast.Sanitized) (hnames : ast.NamedByKey) (horder : order.Sorts ast) :
    ∃ defs, generateDefsHpp ho order ast = some defs ∧ DefinedInOrder ast order.ordered_types defs := by
  have hstart : DefinedInOrder ast [] ([] : List Emitted) :=
    ⟨rfl, by simp, fun before e after h => by simp at h⟩
  obtain ⟨acc, hrun, hdefs⟩ := emit_run ho hsan hnames horder.mem horder.nodup horder.before
    order.ordered_types [] ([], {}) rfl EmitInv.init hstart
  exact ⟨acc.1, by rw [generateDefsHpp, hrun]; rfl, hdefs⟩

/-- Types that are sorted without a cycle are emitted, each after what it refers to.  The leaves of
their references need not all be names of the AST or primitive types. -/
theorem generateDefsHpp_run (ho : HashOrders) {ast : NormalizedAST} {order : TopologicalOrder}
    (hsan : ast.Sanitized) (hnames : ast.NamedByKey) {L : Str → Prop} (hL : ∀ x, L x → Bare x)
    (hshape : ∀ n type, ast.getType n = some type → ShapedType L type)
    (hsort : sortTypes ho ast = some order) (hacyclic : order.has_cycles = false) :
    ∃ defs, generateDefsHpp ho order ast = some defs ∧ DefinedInOrder ast order.ordered_types defs :=
  generateDefsHpp_of_sorts ho hsan hnames (sorts_of_sortTypes hsan hL hshape hsort hacyclic)

/-- **Definitions are emitted before they are used.**  When the types are sorted without a cycle,
`generateDefsHpp` emits their definitions, and each name of the AST that a definition writes is the
key of an earlier definition, which declares it. -/
theorem generateDefsHpp_defined_before_use (ho : HashOrders) (ast : NormalizedAST)
    (order : TopologicalOrder) (hsan : ast.Sanitized) (hnames : ast.NamedByKey)
    (hshape : ∀ n type, ast.getType n = some type → ShapedType (LeafText ast) type)
    (hsort : sortTypes ho ast = some order) (hacyclic : order.has_cycles = false) :
    ∃ defs, generateDefsHpp ho order ast = some defs ∧
      ∀ before e after, defs = before ++ e :: after → ∀ text ∈ e.definition.references,
        ∀ n ∈ ast, Writes text n → ∃ e' ∈ before, e'.key = n ∧ Declares ast n e'.definition := by
  obtain ⟨defs, hrun, hdefs⟩ := generateDefsHpp_run ho hsan hnames
    (fun x hx => bare_of_leafText hsan hx) hshape hsort hacyclic
  refine ⟨defs, hrun, fun before e after heq text htext n hn hw => ?_⟩
  obtain ⟨e', he', rfl⟩ := List.mem_map.mp (hdefs.before before e after heq text htext n hn hw)
  exact ⟨e', he', rfl, hdefs.declares e' (heq ▸ List.mem_append_left _ he')⟩

/-! ### A document with a variant -/

/-- `Pets` is a variant over a vector of `Cat`, and is emitted as an alias of it. -/
def petTypes : NormalizedAST :=
  (({} : NormalizedAST).addType "Pets".toList
      (.variant ⟨"Pets".toList, [⟨vectorOf "Cat".toList, true⟩], false, none, []⟩)).addType
    "Cat".toList (.struct ⟨"Cat".toList, [⟨"lives".toList, ⟨"int32_t".toList, true⟩, true, none, []⟩], [], []⟩)

theorem getType_petTypes {n : Str} {type : SchemaType} (h : petTypes.getType n = some type) :
    (n = "Cat".toList ∧ type = .struct
        ⟨"Cat".toList, [⟨"lives".toList, ⟨"int32_t".toList, true⟩, true, none, []⟩], [], []⟩) ∨
      (n = "Pets".toList ∧ type = .variant
        ⟨"Pets".toList, [⟨vectorOf "Cat".toList, true⟩], false, none, []⟩) := by
  rw [petTypes, NormalizedAST.getType_addType, NormalizedAST.getType_addType] at h
  split at h
  · exact .inl ⟨‹_›, (Option.some.inj h).symm⟩
  · split at h
    · exact .inr ⟨‹_›, (Option.some.inj h).symm⟩
    · exact absurd h (by simp [NormalizedAST.getType])

theorem petTypes_sanitized : petTypes.Sanitized := by
  intro n hn
  obtain ⟨type, htype⟩ := NormalizedAST.mem_iff_getType.mp hn
  rcases getType_petTypes htype with ⟨rfl, -⟩ | ⟨rfl, -⟩
  · exact ⟨"Cat".toList, by decide⟩
  · exact ⟨"Pets".toList, by decide⟩

theorem petTypes_namedByKey : petTypes.NamedByKey := by
  intro n type h
  rcases getType_petTypes h with ⟨rfl, rfl⟩ | ⟨rfl, rfl⟩
  · rfl
  · rfl

theorem petTypes_shaped (n : Str) (type : SchemaType) (h : petTypes.getType n = some type) :
    ShapedType (LeafText petTypes) type := by
  rcases getType_petTypes h with ⟨-, rfl⟩ | ⟨-, rfl⟩
  · refine ⟨fun field hfield => ?_, by simp⟩
    rw [List.mem_singleton.mp hfield]
    exact .leaf (.inr (by decide))
  · intro alt halt
    rw [List.mem_singleton.mp halt]
    exact .vector (.inl (by decide)) (by decide)

theorem generateDefsHpp_defined_before_use_petTypes :
    ∃ defs, generateDefsHpp (HashOrder.newestFirst _) ⟨["Cat".toList, "Pets".toList], false, []⟩
        petTypes = some defs ∧
      ∀ before e after, defs = before ++ e :: after → ∀ text ∈ e.definition.references,
        ∀ n ∈ petTypes, Writes text n →
          ∃ e' ∈ before, e'.key = n ∧ Declares petTypes n e'.definition :=
  generateDefsHpp_defined_before_use (HashOrder.newestFirst _) petTypes
    ⟨["Cat".toList, "Pets".toList], false, []⟩ petTypes_sanitized petTypes_namedByKey petTypes_shaped
    (by rfl) rfl

end Siesta
