import Siesta.IR.Emission

/-!
# Resolving a name comes to an end

`resolveTypeName` follows the chain in a loop and then calls itself for the alternative of a variant that
has only one.  The position of a name in the order of the types bounds both: an entry of the chain goes to
an earlier type (`ChainInv`), and so does the alternative of a variant.  So the loop of every nested call
leaves the chain where it ends, and never because a name comes up twice (`resolveTypeName_terminates`).
-/

namespace Siesta

open Lib

/-! ### The ways out of the loop -/

/-- Where the loop of `resolveTypeName` breaks. -/
inductive ChainExit where
  /-- The name is not in the chain. -/
  | offChain
  /-- The name was met before. -/
  | visited
  /-- The name stands for itself. -/
  | itself
  deriving DecidableEq, Repr

/-- The loop of `resolveTypeName`, with the exit it takes. -/
def followChainExit (chain : Table Str Str) : ℕ → List Str → Str → Option (Str × ChainExit)
  | 0, _, _ => none
  | fuel + 1, visited, current =>
    match chain.find current with
    | none => some (current, .offChain)
    | some next =>
      if current ∈ visited then some (current, .visited)
      else if next = current then some (current, .itself)
      else followChainExit chain fuel (current :: visited) next

theorem followChain_eq_exit (chain : Table Str Str) : ∀ (fuel : ℕ) (visited : List Str) (current : Str),
    followChain chain fuel visited current = (followChainExit chain fuel visited current).map Prod.fst := by
  intro fuel
  induction fuel with
  | zero => exact fun visited current => rfl
  | succ fuel ih =>
    intro visited current
    unfold followChain followChainExit
    cases hfind : chain.find current with
    | none => rfl
    | some next =>
      by_cases hvisited : current ∈ visited
      · simp [hvisited]
      · by_cases hself : next = current
        · simp [hvisited, hself]
        · simpa [hvisited, hself] using ih (current :: visited) next

theorem offChain_of_notMem {chain : Table Str Str} : ∀ (fuel : ℕ) (visited : List Str) (current e : Str)
    (exit : ChainExit), followChainExit chain fuel visited current = some (e, exit) → e ∉ chain →
      exit = .offChain := by
  intro fuel
  induction fuel with
  | zero => exact fun visited current e exit h => absurd h (by simp [followChainExit])
  | succ fuel ih =>
    intro visited current e exit h he
    unfold followChainExit at h
    split at h
    · exact (Prod.mk.inj (Option.some.inj h)).2.symm
    · rename_i next hfind
      have hmem : current ∈ chain := Table.mem_of_find hfind
      split at h
      · obtain ⟨rfl, -⟩ := Prod.mk.inj (Option.some.inj h)
        exact absurd hmem he
      · split at h
        · obtain ⟨rfl, -⟩ := Prod.mk.inj (Option.some.inj h)
          exact absurd hmem he
        · exact ih _ _ e exit h he

/-- `resolveTypeName` calls itself with `name'`, when it is called with `name`. -/
def NestedCall (ast : NormalizedAST) (chain : Table Str Str) (name name' : Str) : Prop :=
  ∃ current t alt, followChain chain (chain.entries.length + 1) [] name = some current ∧
    ast.getType current = some (.variant t) ∧ t.alternatives = [alt] ∧ t.is_nullable = false ∧
    alt.is_inline = false ∧ name' = alt.name

/-- A call returns, and its loop and those of the calls inside it end where the chain does. -/
structure Resolves (ast : NormalizedAST) (chain : Table Str Str) (name : Str) : Prop where
  returns : ∃ r, resolveTypeName ast chain name = some r
  exits : ∀ m, Relation.ReflTransGen (NestedCall ast chain) name m →
    ∃ e, followChainExit chain (chain.entries.length + 1) [] m = some (e, .offChain)

/-! ### Positions in the order -/

/-- The chain, when the types `done` have been emitted: it only goes back in the order. -/
structure ChainInv (ast : NormalizedAST) (done : List Str) (chain : Table Str Str) : Prop where
  nodup : done.Nodup
  mem : ∀ n ∈ done, n ∈ ast
  before : ∀ n ∈ done, ∀ v, ast.getType n = some (.variant v) → ∀ alt ∈ v.alternatives,
    alt.name ∈ ast → StandsBefore done alt.name n
  chain : ∀ n target, chain.find n = some target →
    n ∈ done ∧ (target ∈ ast → StandsBefore done target n)

/-- If `x` is a type, it is one of the first `bound` of `done`. -/
def Within (ast : NormalizedAST) (done : List Str) (bound : ℕ) (x : Str) : Prop :=
  x ∈ ast → x ∈ done ∧ done.idxOf x < bound

section

variable {ast : NormalizedAST} {done : List Str} {chain : Table Str Str}

theorem within_length {x : Str} (h : x ∈ ast → x ∈ done) : Within ast done done.length x := fun hx =>
  ⟨h hx, List.idxOf_lt_length_of_mem (h hx)⟩

variable (inv : ChainInv ast done chain)

include inv

theorem ChainInv.initial : ChainInv ast done ∅ :=
  ⟨inv.nodup, inv.mem, inv.before, fun n target h => by simp at h⟩

theorem ChainInv.length_le : done.length ≤ ast.getTypeCount := by
  have hsub : done.length ≤ ast.types_.keys.length :=
    (List.subperm_of_subset inv.nodup fun x hx => AList.mem_keys.mpr (inv.mem x hx)).length_le
  have hkeys : ast.types_.keys.length = ast.getTypeCount := List.length_map _
  omega

/-- The loop does not go forward in the order, and ends where the chain does. -/
theorem ChainInv.follow {bound : ℕ} {name : Str} (hname : Within ast done bound name) :
    ∃ e, followChainExit chain (chain.entries.length + 1) [] name = some (e, .offChain) ∧
      followChain chain (chain.entries.length + 1) [] name = some e ∧ Within ast done bound e := by
  have hP : ∀ n target, Within ast done bound n → chain.find n = some target →
      Within ast done bound target := by
    intro n target hn hfind htarget
    obtain ⟨hdone, hbefore⟩ := inv.chain n target hfind
    have hlt := (hbefore htarget).idxOf_lt inv.nodup
    have hbound := (hn (inv.mem n hdone)).2
    exact ⟨(hbefore htarget).mem_left, by omega⟩
  have hrank : ∀ n target, chain.find n = some target → target ∈ chain →
      done.idxOf target < done.idxOf n := by
    intro n target hfind hmem
    obtain ⟨t, ht⟩ := Table.mem_iff_find.mp hmem
    have htarget : target ∈ ast := inv.mem target (inv.chain target t ht).1
    exact ((inv.chain n target hfind).2 htarget).idxOf_lt inv.nodup
  obtain ⟨e, hfollow, he, hend⟩ := followChain_spec hP hrank (chain.entries.length + 1) [] name hname
    List.nodup_nil (by simp) (by simp)
  rw [followChain_eq_exit] at hfollow
  obtain ⟨⟨e', exit⟩, hexit, rfl⟩ := Option.map_eq_some_iff.mp hfollow
  obtain rfl := offChain_of_notMem _ _ _ _ _ hexit hend
  refine ⟨e', hexit, ?_, he⟩
  rw [followChain_eq_exit, hexit]
  rfl

/-- The induction is on the bound: the alternative of a variant stands before it. -/
theorem ChainInv.resolves_within (hsan : ast.Sanitized) : ∀ (fuel bound : ℕ) (name : Str), bound < fuel →
    Within ast done bound name →
      (∃ r, resolveTypeNameUpTo ast chain fuel name = some r ∧ Within ast done bound r) ∧
        ∀ m, Relation.ReflTransGen (NestedCall ast chain) name m →
          ∃ e, followChainExit chain (chain.entries.length + 1) [] m = some (e, .offChain) := by
  intro fuel
  induction fuel with
  | zero => exact fun bound name h => absurd h (by simp)
  | succ fuel ih =>
    intro bound name hbound hname
    obtain ⟨e, hexit, hfollow, he⟩ := inv.follow hname
    -- a variant at the end of the chain sends the call on to an earlier name
    have hback : ∀ t, ast.getType e = some (.variant t) → ∀ alt ∈ t.alternatives,
        done.idxOf e < bound ∧ Within ast done (done.idxOf e) alt.name := by
      intro t htype alt halt
      obtain ⟨hdone, hlt⟩ := he (NormalizedAST.mem_of_getType htype)
      refine ⟨hlt, fun hmem => ?_⟩
      have hbefore := inv.before e hdone t htype alt halt hmem
      exact ⟨hbefore.mem_left, hbefore.idxOf_lt inv.nodup⟩
    have hmono : ∀ {x}, done.idxOf e < bound → Within ast done (done.idxOf e) x →
        Within ast done bound x := fun hlt hx hmem => ⟨(hx hmem).1, (hx hmem).2.trans hlt⟩
    constructor
    · unfold resolveTypeNameUpTo
      rw [hfollow, Option.bind_eq_bind, Option.bind_some]
      cases htype : ast.getType e with
      | none => exact ⟨e, rfl, he⟩
      | some type =>
        cases type with
        | primitive t =>
          dsimp only
          split
          · exact ⟨e, rfl, he⟩
          · exact ⟨_, rfl, fun hmem => absurd (hsan.colon_notMem hmem) (by decide)⟩
        | variant t =>
          dsimp only
          split
          · rename_i alt halts
            obtain ⟨hlt, halt⟩ := hback t htype alt (by simp [halts])
            split
            · split
              · obtain ⟨⟨r, hr, hwithin⟩, -⟩ := ih (done.idxOf e) alt.name (by omega) halt
                exact ⟨r, hr, hmono hlt hwithin⟩
              · exact ⟨alt.name, rfl, hmono hlt halt⟩
            · exact ⟨e, rfl, he⟩
          · exact ⟨e, rfl, he⟩
        | struct t => exact ⟨e, rfl, he⟩
        | array t => exact ⟨e, rfl, he⟩
        | map t => exact ⟨e, rfl, he⟩
        | enum t => exact ⟨e, rfl, he⟩
    · intro m hm
      rcases hm.cases_head with rfl | ⟨next, ⟨current, t, alt, hcurrent, htype, halts, -, -, rfl⟩, hm⟩
      · exact ⟨e, hexit⟩
      · obtain rfl : e = current := Option.some.inj (hfollow.symm.trans hcurrent)
        obtain ⟨hlt, halt⟩ := hback t htype alt (by simp [halts])
        exact (ih (done.idxOf e) alt.name (by omega) halt).2 m hm

/-- A name that is no type, or has been emitted, resolves, and to such a name. -/
theorem ChainInv.resolves (hsan : ast.Sanitized) {name : Str} (hname : name ∈ ast → name ∈ done) :
    Resolves ast chain name ∧ ∀ r, resolveTypeName ast chain name = some r → r ∈ ast → r ∈ done := by
  have hlt : done.length < ast.getTypeCount + 1 := Nat.lt_succ_of_le inv.length_le
  obtain ⟨⟨r, hr, hwithin⟩, hexits⟩ :=
    inv.resolves_within hsan (ast.getTypeCount + 1) done.length name hlt (within_length hname)
  refine ⟨⟨⟨r, hr⟩, hexits⟩, fun r' hr' hmem => ?_⟩
  obtain rfl : r = r' := Option.some.inj (hr.symm.trans hr')
  exact (hwithin hmem).1

theorem ChainInv.step {n : Str} (hn : n ∈ ast) (hnew : n ∉ done) {chain' : Table Str Str}
    (halts : ∀ v, ast.getType n = some (.variant v) → ∀ alt ∈ v.alternatives, alt.name ∈ ast →
      alt.name ∈ done)
    (hchain : ∀ k target, chain'.find k = some target →
      chain.find k = some target ∨ k = n ∧ (target ∈ ast → target ∈ done)) :
    ChainInv ast (done ++ [n]) chain' where
  nodup := by
    refine List.nodup_append.mpr ⟨inv.nodup, List.nodup_singleton n, fun a ha b hb => ?_⟩
    rintro rfl
    exact hnew (List.mem_singleton.mp hb ▸ ha)
  mem m hm := by
    rcases List.mem_append.mp hm with hm | hm
    · exact inv.mem m hm
    · exact List.mem_singleton.mp hm ▸ hn
  before m hm v hv alt halt hmem := by
    rcases List.mem_append.mp hm with hm | hm
    · exact (inv.before m hm v hv alt halt hmem).append_right _
    · obtain rfl := List.mem_singleton.mp hm
      exact standsBefore_of_mem (halts v hv alt halt hmem)
  chain k target h := by
    rcases hchain k target h with h | ⟨rfl, htarget⟩
    · obtain ⟨hk, hbefore⟩ := inv.chain k target h
      exact ⟨List.mem_append_left _ hk, fun hmem => (hbefore hmem).append_right _⟩
    · exact ⟨by simp, fun hmem => standsBefore_of_mem (htarget hmem)⟩

end

/-! ### One turn of the loops -/

/-- The state of the header, when the types `done` have been emitted. -/
structure StateInv (ast : NormalizedAST) (done : List Str) (st : DefsEmitState) : Prop where
  chain : ChainInv ast done st.typedef_chain
  signatures : ∀ sig target, st.variant_signatures.find sig = some target → target ∈ done

theorem StateInv.init (ast : NormalizedAST) : StateInv ast [] {} where
  chain := ⟨List.nodup_nil, by simp, by simp, fun n target h => by simp at h⟩
  signatures sig target h := by simp at h

/-- The alternatives of the variant `n` are earlier types, or no types at all. -/
def AlternativesIn (ast : NormalizedAST) (done : List Str) (n : Str) : Prop :=
  ∀ v, ast.getType n = some (.variant v) → ∀ alt ∈ v.alternatives, alt.name ∈ ast → alt.name ∈ done

theorem emitNext_other (ho : HashOrders) {ast : NormalizedAST} (acc : List Emitted × DefsEmitState)
    {n : Str} {type : SchemaType} (htype : ast.getType n = some type) (hne : ∀ v, type ≠ .variant v) :
    ∃ d, emitNext ho ast acc n = some (acc.1 ++ [⟨n, d⟩], acc.2) := by
  have hemit : ∃ d, emitType ho ast n type acc.2 = some (d, acc.2) := by
    cases type with
    | variant v => exact absurd rfl (hne v)
    | primitive t =>
      unfold emitType
      dsimp only
      split
      · exact ⟨_, rfl⟩
      · exact ⟨_, rfl⟩
    | struct t => exact ⟨_, rfl⟩
    | array t => exact ⟨_, rfl⟩
    | map t => exact ⟨_, rfl⟩
    | enum t => exact ⟨_, rfl⟩
  obtain ⟨d, hd⟩ := hemit
  exact ⟨d, by simp [emitNext, htype, hd]⟩

section

variable {ast : NormalizedAST} {done : List Str} {n : Str}

theorem ChainInv.resolveAlternative {chain : Table Str Str} (inv : ChainInv ast done chain)
    (hsan : ast.Sanitized) {v : VariantType} (hv : ast.getType n = some (.variant v))
    (halts : AlternativesIn ast done n) {alt : TypeRef} (halt : alt ∈ v.alternatives) :
    ∃ x, resolveAlternative ast chain alt = some x ∧ (x ∈ ast → x ∈ done) := by
  unfold Siesta.resolveAlternative
  split
  · exact ⟨alt.name, rfl, halts v hv alt halt⟩
  · obtain ⟨hresolves, hdone⟩ := inv.resolves hsan (halts v hv alt halt)
    obtain ⟨r, hr⟩ := hresolves.returns
    exact ⟨r, hr, hdone r hr⟩

theorem StateInv.next (ho : HashOrders) (hsan : ast.Sanitized) (hnames : ast.NamedByKey)
    {acc : List Emitted × DefsEmitState} (inv : StateInv ast done acc.2) (hn : n ∈ ast) (hnew : n ∉ done)
    (halts : AlternativesIn ast done n) :
    ∃ acc', emitNext ho ast acc n = some acc' ∧ StateInv ast (done ++ [n]) acc'.2 := by
  obtain ⟨type, htype⟩ := NormalizedAST.mem_iff_getType.mp hn
  by_cases hvariant : ∃ v, type = .variant v
  · obtain ⟨v, rfl⟩ := hvariant
    have hname : v.name = n := hnames n _ htype
    have hresolve : ∀ alt ∈ v.alternatives, ∃ x,
        Siesta.resolveAlternative ast acc.2.typedef_chain alt = some x ∧ (x ∈ ast → x ∈ done) :=
      fun alt halt => inv.chain.resolveAlternative hsan htype halts halt
    obtain ⟨⟨d, st'⟩, hemit⟩ := emitVariant_isSome ho fun alt halt =>
      (hresolve alt halt).imp fun _ h => h.1
    refine ⟨(acc.1 ++ [⟨n, d⟩], st'), by simp [emitNext, htype, emitType, hemit], ?_⟩
    have hset : ∀ {sigs : Table Str Str} {sig s target : Str},
        (∀ s t, sigs.find s = some t → t ∈ done) → (sigs.set sig v.name).find s = some target →
          target ∈ done ++ [n] := by
      intro sigs sig s target hsigs h
      rw [Table.find_set, hname] at h
      split at h
      · simp [(Option.some.inj h).symm]
      · exact List.mem_append_left _ (hsigs s target h)
    have hchainSet : ∀ {x : Str}, (x ∈ ast → x ∈ done) → ∀ k target,
        (acc.2.typedef_chain.set v.name x).find k = some target →
          acc.2.typedef_chain.find k = some target ∨ k = n ∧ (target ∈ ast → target ∈ done) := by
      intro x hx k target h
      rw [Table.find_set, hname] at h
      split at h
      · rename_i hk
        exact .inr ⟨hk, Option.some.inj h ▸ hx⟩
      · exact .inl h
    cases emitVariant_cases hemit with
    | monostate =>
      exact ⟨inv.chain.step hn hnew halts fun k target h => .inl h,
        fun sig target h => List.mem_append_left _ (inv.signatures sig target h)⟩
    | @duplicate processed collapse target _ hproc hsig hsigs hchain =>
      refine ⟨inv.chain.step hn hnew halts ?_, fun sig t h => ?_⟩
      · rw [hchain]
        exact hchainSet fun _ => inv.signatures _ target hsig
      · exact List.mem_append_left _ (inv.signatures sig t (hsigs ▸ h))
    | @collapsed ref _ hproc hsigs hchain =>
      refine ⟨inv.chain.step hn hnew halts ?_, fun sig t h => ?_⟩
      · rw [hchain]
        refine hchainSet ?_
        obtain ⟨alt, halt, hx⟩ := ((processVariantAlternatives_spec hproc).2.1 ref.name).mp (by simp)
        obtain ⟨x, hx', hdone⟩ := hresolve alt halt
        obtain rfl := Option.some.inj (hx.symm.trans hx')
        exact hdone
      · exact hset inv.signatures (hsigs ▸ h)
    | variant hproc hsigs hchain =>
      refine ⟨inv.chain.step hn hnew halts fun k target h => .inl (hchain ▸ h), fun sig t h => ?_⟩
      exact hset inv.signatures (hsigs ▸ h)
  · obtain ⟨d, hd⟩ := emitNext_other ho acc htype fun v hv => hvariant ⟨v, hv⟩
    exact ⟨_, hd, inv.chain.step hn hnew halts fun k target h => .inl h,
      fun sig target h => List.mem_append_left _ (inv.signatures sig target h)⟩

theorem emitNextSerialization_isSome (ho : HashOrders) (hsan : ast.Sanitized) (inv : ChainInv ast done ∅)
    (pairs : List CppSerialization) (hn : n ∈ ast) (halts : AlternativesIn ast done n) :
    ∃ pairs', emitNextSerialization ho ast pairs n = some pairs' := by
  obtain ⟨type, htype⟩ := NormalizedAST.mem_iff_getType.mp hn
  have hemit : ∃ new, emitSerialization ho ast n type {} = some new := by
    cases type with
    | variant v =>
      obtain ⟨⟨processed, collapse⟩, hproc⟩ := processVariantAlternatives_isSome ho fun alt halt =>
        (inv.resolveAlternative hsan htype halts halt).imp fun _ h => h.1
      unfold emitSerialization
      dsimp only
      rw [emitVariantSerialization_initial hproc]
      exact ⟨_, rfl⟩
    | primitive t =>
      unfold emitSerialization
      dsimp only
      split
      · exact ⟨_, rfl⟩
      · exact ⟨_, rfl⟩
    | struct t => exact ⟨_, rfl⟩
    | array t => exact ⟨_, rfl⟩
    | map t => exact ⟨_, rfl⟩
    | enum t => exact ⟨_, rfl⟩
  obtain ⟨new, hnew⟩ := hemit
  exact ⟨pairs ++ new, by simp [emitNextSerialization, htype, hnew]⟩

end

/-! ### The whole run -/

/-- What a sort without a cycle says of the alternatives of variants. -/
structure VariantsSorted (ast : NormalizedAST) (ordered : List Str) : Prop where
  nodup : ordered.Nodup
  mem : ∀ n ∈ ordered, n ∈ ast
  before : ∀ done n rest, ordered = done ++ n :: rest → AlternativesIn ast done n

/-- A name of the AST is no type of the C++ library, so an alternative with this name is an edge. -/
theorem variantsSorted_of_sortTypes {ho : HashOrders} {ast : NormalizedAST} {order : TopologicalOrder}
    (hsan : ast.Sanitized) (hsort : sortTypes ho ast = some order) (hacyclic : order.has_cycles = false) :
    VariantsSorted ast order.ordered_types := by
  obtain ⟨order', hsort', horder⟩ := sortTypes_order ho ast
  obtain rfl : order' = order := Option.some.inj (hsort'.symm.trans hsort)
  obtain ⟨hnd, hmem, hdeps⟩ := horder hacyclic
  refine ⟨hnd, fun n hn => (hmem n).mp hn, fun done n rest heq v hv alt halt haltmem => ?_⟩
  have hedge : (alt, DepKind.Variant) ∈ DependencyGraph.dependenciesOf (.variant v) := by
    refine List.mem_filterMap.mpr ⟨alt, halt, ?_⟩
    simp [DependencyGraph.alternativeDependency, hsan.not_synthetic haltmem]
  have hbefore := hdeps n alt.name (DependencyGraph.dependsOn_of_mem hv hedge) haltmem
  rw [heq] at hbefore hnd
  exact hbefore.mem_prefix hnd

theorem chain_run (ho : HashOrders) {ast : NormalizedAST} (hsan : ast.Sanitized)
    (hnames : ast.NamedByKey) {ordered : List Str} (hsorted : VariantsSorted ast ordered) :
    ∀ (done rest : List Str), ordered = done ++ rest →
      ∃ acc pairs, done.foldlM (emitNext ho ast) ([], {}) = some acc ∧
        done.foldlM (emitNextSerialization ho ast) [] = some pairs ∧ StateInv ast done acc.2 := by
  intro done
  induction done using List.reverseRecOn with
  | nil => exact fun rest _ => ⟨_, _, rfl, rfl, StateInv.init ast⟩
  | append_singleton done n ih =>
    intro rest heq
    rw [List.append_assoc] at heq
    obtain ⟨acc, pairs, hdefs, hpairs, inv⟩ := ih ([n] ++ rest) heq
    have hn : n ∈ ast := hsorted.mem n (heq ▸ by simp)
    have hnew : n ∉ done := fun hd =>
      (List.nodup_append.mp (heq ▸ hsorted.nodup)).2.2 n hd n (List.mem_cons_self ..) rfl
    have halts : AlternativesIn ast done n := hsorted.before done n rest heq
    obtain ⟨acc', hstep, inv'⟩ := inv.next ho hsan hnames hn hnew halts
    obtain ⟨pairs', hstep'⟩ := emitNextSerialization_isSome ho hsan inv.chain.initial pairs hn halts
    refine ⟨acc', pairs', ?_, ?_, inv'⟩
    · rw [List.foldlM_append, hdefs]
      simpa using hstep
    · rw [List.foldlM_append, hpairs]
      simpa using hstep'

/-- **`resolveTypeName` always ends, and never in a circle.**  When the types are sorted without a cycle,
both loops reach every variant, and in the state they are then in (`generateDefsCpp` always in the one it
starts with) each alternative resolves, and no loop in it breaks because a name comes up again. -/
theorem resolveTypeName_terminates (ho : HashOrders) (ast : NormalizedAST) (order : TopologicalOrder)
    (hsan : ast.Sanitized) (hnames : ast.NamedByKey) (hsort : sortTypes ho ast = some order)
    (hacyclic : order.has_cycles = false) (before : List Str) (n : Str) (after : List Str)
    (v : VariantType) (hpoint : order.ordered_types = before ++ n :: after)
    (hv : ast.getType n = some (.variant v)) (alt : TypeRef) (halt : alt ∈ v.alternatives) :
    ∃ acc pairs, before.foldlM (emitNext ho ast) ([], {}) = some acc ∧
      before.foldlM (emitNextSerialization ho ast) [] = some pairs ∧
      Resolves ast acc.2.typedef_chain alt.name ∧
      Resolves ast ({} : DefsEmitState).typedef_chain alt.name := by
  have hsorted := variantsSorted_of_sortTypes hsan hsort hacyclic
  obtain ⟨acc, pairs, hdefs, hpairs, inv⟩ := chain_run ho hsan hnames hsorted before (n :: after) hpoint
  have hdone := hsorted.before before n after hpoint v hv alt halt
  exact ⟨acc, pairs, hdefs, hpairs, (inv.chain.resolves hsan hdone).1,
    (inv.chain.initial.resolves hsan hdone).1⟩

/-- `Kitten` is an alias of `Cat`, which `Pet` goes on from. -/
def kittenTypes : NormalizedAST :=
  (((({} : NormalizedAST).addType "Pet".toList
    (.variant ⟨"Pet".toList, [⟨"Kitten".toList, false⟩, ⟨vectorOf "Cat".toList, true⟩], false, none, []⟩)).addType
    "Kitten".toList (.variant ⟨"Kitten".toList, [⟨"Cat".toList, false⟩], false, none, []⟩)).addType
    "Cat".toList (.struct ⟨"Cat".toList, [⟨"lives".toList, ⟨"int32_t".toList, true⟩, true, none, []⟩], [], []⟩))

theorem named_kittenTypes {n : Str} {type : SchemaType} (h : kittenTypes.getType n = some type) :
    n ∈ ["Cat".toList, "Kitten".toList, "Pet".toList] ∧ type.NamedAs n := by
  rw [kittenTypes, NormalizedAST.getType_addType, NormalizedAST.getType_addType,
    NormalizedAST.getType_addType] at h
  split_ifs at h with hcat hkitten hpet
  · obtain rfl := hcat
    obtain rfl := Option.some.inj h
    exact ⟨by decide, rfl⟩
  · obtain rfl := hkitten
    obtain rfl := Option.some.inj h
    exact ⟨by decide, rfl⟩
  · obtain rfl := hpet
    obtain rfl := Option.some.inj h
    exact ⟨by decide, rfl⟩
  · exact absurd h (by simp [NormalizedAST.getType])

theorem kittenTypes_sanitized : kittenTypes.Sanitized := by
  intro n hn
  obtain ⟨type, htype⟩ := NormalizedAST.mem_iff_getType.mp hn
  have hkept : ∀ n ∈ ["Cat".toList, "Kitten".toList, "Pet".toList], n = sanitize n := by decide
  exact ⟨n, hkept n (named_kittenTypes htype).1⟩

theorem resolveTypeName_terminates_kittenTypes :
    ∃ acc pairs, ["Cat".toList, "Kitten".toList].foldlM (emitNext (HashOrder.newestFirst _) kittenTypes) ([], {}) =
        some acc ∧
      ["Cat".toList, "Kitten".toList].foldlM (emitNextSerialization (HashOrder.newestFirst _) kittenTypes) [] =
        some pairs ∧
      acc.2.typedef_chain.find "Kitten".toList = some "Cat".toList ∧
      Resolves kittenTypes acc.2.typedef_chain "Kitten".toList ∧
      Resolves kittenTypes ({} : DefsEmitState).typedef_chain "Kitten".toList := by
  obtain ⟨acc, pairs, hdefs, hpairs, hresolves⟩ := resolveTypeName_terminates (HashOrder.newestFirst _) kittenTypes
    ⟨["Cat".toList, "Kitten".toList, "Pet".toList], false, []⟩ kittenTypes_sanitized
    (fun _ _ h => (named_kittenTypes h).2) (by rfl) rfl ["Cat".toList, "Kitten".toList] "Pet".toList []
    ⟨"Pet".toList, [⟨"Kitten".toList, false⟩, ⟨vectorOf "Cat".toList, true⟩], false, none, []⟩ rfl rfl
    ⟨"Kitten".toList, false⟩ (List.mem_cons_self ..)
  refine ⟨acc, pairs, hdefs, hpairs, ?_, hresolves⟩
  obtain rfl := Option.some.inj hdefs
  rfl

end Siesta
