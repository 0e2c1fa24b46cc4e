import Siesta.IR.Endpoint
import Siesta.Lib.CppScopes

/-!
# The names of a generated method: `generator/src/Backend/Beast/BeastClientGen.cpp`

A method of the generated client has its parameters under the names of `sanitizeParamName`, beside names of
its own.  `methodLines` is what `emitMethodSignature` and `emitMethodBody` write, by the names of its lines;
the method is the one that is meant when they resolve, and `namesResolve_iff` says for which parameters they
do.  The member that holds the credential is no name of these lines: a parameter of its name is sent in its
place.
-/

namespace Siesta

open Lib

def Endpoint.pathParams (ep : Endpoint) : List ClientParam :=
  ep.params.filter (·.location = "path".toList)

def Endpoint.queryParams (ep : Endpoint) : List ClientParam :=
  ep.params.filter (·.location = "query".toList)

def Endpoint.headerParams (ep : Endpoint) : List ClientParam :=
  ep.params.filter (·.location = "header".toList)

/-- `all_query_required`. -/
def Endpoint.allQueryRequired (ep : Endpoint) : Bool :=
  !ep.queryParams.isEmpty && ep.queryParams.all (·.required)

/-! ### The lines of a method -/

/-- `emitMethodSignature`. -/
def signatureLines (ep : Endpoint) : List Cpp.Line :=
  (if ep.has_request_body then [{ outer := [ep.body_type], declares := some "body".toList }] else []) ++
    ep.params.map (fun p => { outer := [p.cpp_type], declares := some p.name }) ++
    [{ outer := ["outcome_type".toList], declares := some "token".toList }]

/-- `emitPathParams`: one parameter.  The place that is filled is a name of the `if` statement, which a
parameter of this name would be taken for. -/
def pathParamLine (p : ClientParam) : Cpp.Line where
  inner := ["_p".toList]
  own := ["target_path".toList, p.name]

/-- `emitQueryParams`: one parameter, with a loop for a vector. -/
def queryParamLine (p : ClientParam) : Cpp.Line where
  outer :=
    if p.is_vector_string_type then ["size_t".toList, "url_encode".toList]
    else if p.is_vector_type then ["size_t".toList, "query_value".toList]
    else if p.is_string_type then ["url_encode".toList]
    else ["query_value".toList]
  inner := if p.is_vector_string_type ∨ p.is_vector_type then ["_i".toList] else []
  own := ["_sep".toList, "query".toList, p.name]

/-- `std::string target_path(path);`. -/
def targetPathLine : Cpp.Line where
  own := ["path".toList]
  declares := some "target_path".toList

/-- `query`, the lambda that separates its pieces, and the pieces. -/
def queryLines (params : List ClientParam) : List Cpp.Line :=
  [{ declares := some "query".toList }, { own := ["query".toList], declares := some "_sep".toList }] ++
    params.map queryParamLine

/-- `emitMethodBody`: the lines that build the target. -/
def targetLines (ep : Endpoint) : List Cpp.Line :=
  let has_path := !ep.pathParams.isEmpty
  let has_query := !ep.queryParams.isEmpty
  if !has_path && !has_query then [{ own := ["req".toList, "path".toList] }]
  else if !has_path && has_query then
    queryLines ep.queryParams ++
      if ep.allQueryRequired then
        [targetPathLine, { own := ["req".toList, "target_path".toList, "query".toList] }]
      else
        -- `target_path` is a name of the block behind `if (!query.empty())`
        [{ inner := ["target_path".toList], own := ["req".toList, "path".toList, "query".toList] }]
  else if has_path && !has_query then
    targetPathLine :: ep.pathParams.map pathParamLine ++ [{ own := ["req".toList, "target_path".toList] }]
  else
    targetPathLine :: ep.pathParams.map pathParamLine ++ queryLines ep.queryParams ++
      [{ own := ["req".toList, "target_path".toList, "query".toList] }]

/-- `emitEndpoint`: the lines of the method. -/
def methodLines (ep : Endpoint) : List Cpp.Line :=
  signatureLines ep ++
    [{ declares := some "path".toList }, { outer := ["request_type".toList], declares := some "req".toList }] ++
    targetLines ep ++ (if ep.has_request_body then [{ own := ["req".toList, "body".toList] }] else []) ++
    ep.headerParams.map (fun p => { own := ["req".toList, p.name] }) ++
    [{ own := ["req".toList, "token".toList] }]

def NamesResolve (v : Cpp.Vocabulary) (ep : Endpoint) : Prop := Cpp.Resolves v [] (methodLines ep)

instance (v : Cpp.Vocabulary) (ep : Endpoint) : Decidable (NamesResolve v ep) :=
  inferInstanceAs (Decidable (Cpp.Resolves ..))

/-! ### When they do -/

/-- The names that both kinds of query declare. -/
def queryWords : List Str := ["query", "_sep"].map String.toList

/-- The names that the lines of the target declare. -/
def targetWords (ep : Endpoint) : List Str :=
  (if ep.pathParams ≠ [] ∨ ep.allQueryRequired = true then ["target_path".toList] else []) ++
    if ep.queryParams ≠ [] then queryWords else []

/-- The name of the body, if there is one. -/
def bodyWords (ep : Endpoint) : List Str := if ep.has_request_body then ["body".toList] else []

/-- The names of its own that a method has beside those of its parameters. -/
def methodLocals (ep : Endpoint) : List Str :=
  bodyWords ep ++ ["token", "path", "req"].map String.toList ++ targetWords ep

/-- The names from outside that a method uses besides the types of its parameters. -/
def methodUses (ep : Endpoint) : List Str :=
  ["outcome_type", "request_type"].map String.toList ++
    ep.queryParams.flatMap fun p => (queryParamLine p).outer

/-- What the names of the parameters have to be. -/
structure NamesFit (v : Cpp.Vocabulary) (ep : Endpoint) : Prop where
  names : ∀ p ∈ ep.params, Cpp.IsNameIn v p.name
  distinct : (ep.params.map (·.name)).Nodup
  locals : ∀ p ∈ ep.params, p.name ∉ methodLocals ep
  uses : ∀ p ∈ ep.params, p.name ∉ methodUses ep
  types : ep.params.Pairwise fun p q => p.name ≠ q.cpp_type
  body : ∀ p ∈ ep.params, p.cpp_type ∉ bodyWords ep
  position : ∀ p ∈ ep.pathParams, p.name ≠ "_p".toList
  index : ∀ p ∈ ep.queryParams, p.is_vector_string_type = true ∨ p.is_vector_type = true → p.name ≠ "_i".toList
  macros : ∀ n ∈ methodLocals ep, v.macros n = false

variable {v : Cpp.Vocabulary}

theorem resolves_params {seen : List Str} {params : List ClientParam} :
    Cpp.Resolves v seen (params.map fun p => { outer := [p.cpp_type], declares := some p.name }) ↔
      (∀ p ∈ params, Cpp.IsNameIn v p.name ∧ p.name ∉ seen ∧ p.cpp_type ∉ seen) ∧
        (params.map (·.name)).Nodup ∧ params.Pairwise fun p q => p.name ≠ q.cpp_type := by
  induction params generalizing seen with
  | nil => simp
  | cons p params ih =>
    have hline : Cpp.Line.ResolvesIn v seen { outer := [p.cpp_type], declares := some p.name } ↔
        Cpp.IsNameIn v p.name ∧ p.name ∉ seen ∧ p.cpp_type ∉ seen :=
      ⟨fun h => ⟨(h.declares _ rfl).1, (h.declares _ rfl).2, (h.outer _ (by simp)).1⟩,
        fun h => ⟨by simpa using h.2.2, by simp, by simpa using ⟨h.1, h.2.1⟩⟩⟩
    rw [List.map_cons, Cpp.Resolves, hline, ih, List.forall_mem_cons, List.map_cons, List.nodup_cons,
      List.pairwise_cons]
    have hcons : (∀ q ∈ params, Cpp.IsNameIn v q.name ∧ q.name ∉ (some p.name).toList ++ seen ∧
        q.cpp_type ∉ (some p.name).toList ++ seen) ↔
        (∀ q ∈ params, Cpp.IsNameIn v q.name ∧ q.name ∉ seen ∧ q.cpp_type ∉ seen) ∧
          p.name ∉ params.map (·.name) ∧ ∀ q ∈ params, p.name ≠ q.cpp_type := by
      simp only [Option.toList_some, List.singleton_append, List.mem_cons, List.mem_map]
      constructor
      · refine fun h => ⟨fun q hq => ?_, ?_, fun q hq heq => (h q hq).2.2 (.inl heq.symm)⟩
        · have := h q hq
          tauto
        · rintro ⟨q, hq, heq⟩
          exact (h q hq).2.1 (.inl heq)
      · rintro ⟨h, hname, htype⟩ q hq
        have hne : q.name ≠ p.name := fun heq => hname ⟨q, hq, heq⟩
        have := h q hq
        have := (htype q hq).symm
        tauto
    rw [hcons]
    tauto

/-- A word of the generator is a name unless it is a macro. -/
theorem isNameIn_word {n : Str} (h : Cpp.IsName n) : Cpp.IsNameIn v n ↔ v.macros n = false :=
  ⟨fun hn => hn.no_macro, Cpp.isNameIn_of_isName h⟩

theorem resolvesIn_declares {seen own : List Str} {n : Str} (hn : Cpp.IsName n) (hown : ∀ m ∈ own, m ∈ seen) :
    Cpp.Line.ResolvesIn v seen { own, declares := some n } ↔ v.macros n = false ∧ n ∉ seen := by
  rw [← isNameIn_word hn]
  exact ⟨fun h => h.declares n rfl, fun h => ⟨by simp, by simpa using hown, by simpa using h⟩⟩

theorem resolves_pathParams {seen : List Str} {params : List ClientParam} (htarget : "target_path".toList ∈ seen)
    (hnames : ∀ p ∈ params, p.name ∈ seen) :
    Cpp.Resolves v seen (params.map pathParamLine) ↔ ∀ p ∈ params, p.name ≠ "_p".toList := by
  rw [Cpp.resolves_of_declared_nil (Cpp.declared_map_eq_nil (fun _ => rfl) params), List.forall_mem_map]
  refine forall₂_congr fun p hp => ?_
  refine ⟨fun h heq => ?_, fun h => ⟨by simp [pathParamLine], fun n hn => ?_, by simp [pathParamLine]⟩⟩
  · exact (h.own p.name (by simp [pathParamLine])).2 (heq ▸ List.mem_singleton_self _)
  · rcases List.mem_pair.mp hn with rfl | rfl
    · exact ⟨htarget, fun hinner => absurd (List.mem_singleton.mp hinner) (by decide)⟩
    · exact ⟨hnames p hp, fun hinner => h (List.mem_singleton.mp hinner)⟩

theorem queryParamLine_outer (p : ClientParam) : ∀ n ∈ (queryParamLine p).outer,
    n ∈ ["size_t", "url_encode", "query_value"].map String.toList := by
  unfold queryParamLine
  dsimp only
  split_ifs <;> decide

theorem queryParamLine_inner (p : ClientParam) : ∀ n ∈ (queryParamLine p).inner,
    n = "_i".toList ∧ (p.is_vector_string_type = true ∨ p.is_vector_type = true) := by
  unfold queryParamLine
  dsimp only
  split_ifs with h
  · exact fun n hn => ⟨List.mem_singleton.mp hn, h⟩
  · exact fun n hn => nomatch hn

/-- What the lines of the query parameters ask of them, behind the names in `seen`. -/
def QueryFits (seen : List Str) (params : List ClientParam) : Prop :=
  ∀ p ∈ params, (∀ n ∈ (queryParamLine p).outer, n ∉ seen) ∧
    (p.is_vector_string_type = true ∨ p.is_vector_type = true → p.name ≠ "_i".toList)

/-- Words that no parameter uses from outside make no difference. -/
theorem queryFits_append {words seen : List Str} {params : List ClientParam}
    (hwords : ∀ n ∈ ["size_t", "url_encode", "query_value"].map String.toList, n ∉ words) :
    QueryFits (words ++ seen) params ↔ QueryFits seen params := by
  refine forall₂_congr fun p _ => and_congr_left' (forall₂_congr fun n hn => ?_)
  rw [List.mem_append, or_iff_right (hwords n (queryParamLine_outer p n hn))]

theorem resolves_queryParams {seen : List Str} {params : List ClientParam} (hsep : "_sep".toList ∈ seen)
    (hquery : "query".toList ∈ seen) (hnames : ∀ p ∈ params, p.name ∈ seen) :
    Cpp.Resolves v seen (params.map queryParamLine) ↔ QueryFits seen params := by
  rw [Cpp.resolves_of_declared_nil (Cpp.declared_map_eq_nil (fun _ => rfl) params), List.forall_mem_map]
  refine forall₂_congr fun p hp =>
    ⟨fun h => ⟨fun n hn => (h.outer n hn).1, fun hvec heq => ?_⟩, fun h => ⟨?_, ?_, ?_⟩⟩
  · have hinner : (queryParamLine p).inner = ["_i".toList] := if_pos hvec
    have hown : p.name ∈ (queryParamLine p).own :=
      List.mem_cons_of_mem _ (List.mem_cons_of_mem _ (List.mem_cons_self ..))
    refine (h.own p.name hown).2 ?_
    rw [hinner, heq]
    exact List.mem_singleton_self _
  · intro n hn
    refine ⟨h.1 n hn, fun hinner => ?_⟩
    have hother : "_i".toList ∉ ["size_t", "url_encode", "query_value"].map String.toList := by decide
    exact hother ((queryParamLine_inner p n hinner).1 ▸ queryParamLine_outer p n hn)
  · have hown : ∀ n ∈ (queryParamLine p).own, n = "_sep".toList ∨ n = "query".toList ∨ n = p.name := fun n hn => by
      rwa [queryParamLine, List.mem_cons, List.mem_pair] at hn
    intro n hn
    rcases hown n hn with rfl | rfl | rfl
    · exact ⟨hsep, fun hinner => absurd (queryParamLine_inner p _ hinner).1 (by decide)⟩
    · exact ⟨hquery, fun hinner => absurd (queryParamLine_inner p _ hinner).1 (by decide)⟩
    · exact ⟨hnames p hp, fun hinner =>
        h.2 (queryParamLine_inner p _ hinner).2 (queryParamLine_inner p _ hinner).1⟩
  · exact fun n hn => nomatch hn

theorem resolves_queryLines {seen : List Str} {params : List ClientParam} (hnames : ∀ p ∈ params, p.name ∈ seen) :
    Cpp.Resolves v seen (queryLines params) ↔
      (∀ n ∈ queryWords, v.macros n = false ∧ n ∉ seen) ∧ QueryFits seen params := by
  have hquery : Cpp.Line.ResolvesIn v seen { declares := some "query".toList } ↔ _ :=
    @resolvesIn_declares v seen [] "query".toList (by decide) nofun
  have hsep : Cpp.Line.ResolvesIn v ("query".toList :: seen)
      { own := ["query".toList], declares := some "_sep".toList } ↔ _ :=
    resolvesIn_declares (by decide) fun n hn => List.mem_singleton.mp hn ▸ List.mem_cons_self ..
  have hparams := @resolves_queryParams v ("_sep".toList :: "query".toList :: seen) params (List.mem_cons_self ..)
    (List.mem_cons_of_mem _ (List.mem_cons_self ..))
    fun p hp => List.mem_cons_of_mem _ (List.mem_cons_of_mem _ (hnames p hp))
  have hother : ∀ n ∈ ["size_t", "url_encode", "query_value"].map String.toList,
      n ∉ ["_sep".toList, "query".toList] := by decide
  have hfits : QueryFits ("_sep".toList :: "query".toList :: seen) params ↔ QueryFits seen params :=
    queryFits_append hother
  have hne : "_sep".toList ≠ "query".toList := by decide
  have hwords : (∀ n ∈ queryWords, v.macros n = false ∧ n ∉ seen) ↔
      (v.macros "query".toList = false ∧ "query".toList ∉ seen) ∧
        v.macros "_sep".toList = false ∧ "_sep".toList ∉ "query".toList :: seen := by
    rw [queryWords, List.map_cons, List.map_singleton, List.forall_mem_cons, List.forall_mem_singleton,
      List.mem_cons, not_or]
    tauto
  rw [queryLines, List.cons_append, List.cons_append, List.nil_append, Cpp.Resolves, Cpp.Resolves, hquery,
    ← and_assoc, hwords]
  exact and_congr (and_congr_right' hsep) (hparams.trans hfits)

theorem declared_queryLines (params : List ClientParam) : Cpp.declared (queryLines params) = queryWords := by
  have hparams : Cpp.declared (params.map queryParamLine) = [] := Cpp.declared_map_eq_nil (fun _ => rfl) params
  rw [queryLines, Cpp.declared_append, hparams]
  rfl

theorem resolves_own {seen own : List Str} (h : ∀ n ∈ own, n ∈ seen) : Cpp.Resolves v seen [{ own }] :=
  ⟨⟨by simp, by simpa using h, by simp⟩, trivial⟩

theorem resolves_targetPath {seen : List Str} {lines : List Cpp.Line} (hpath : "path".toList ∈ seen) :
    Cpp.Resolves v seen (targetPathLine :: lines) ↔
      (v.macros "target_path".toList = false ∧ "target_path".toList ∉ seen) ∧
        Cpp.Resolves v ("target_path".toList :: seen) lines := by
  rw [Cpp.Resolves]
  exact and_congr_left' (resolvesIn_declares (by decide) fun n hn => List.mem_singleton.mp hn ▸ hpath)

/-- The target is the text behind the path, and then the query. -/
theorem resolves_targetQuery {seen : List Str} (hreq : "req".toList ∈ seen) (htarget : "target_path".toList ∈ seen)
    (hquery : "query".toList ∈ seen) :
    Cpp.Resolves v seen [{ own := ["req".toList, "target_path".toList, "query".toList] }] :=
  resolves_own (List.forall_mem_cons.mpr ⟨hreq, List.forall_mem_cons.mpr
    ⟨htarget, List.forall_mem_singleton.mpr hquery⟩⟩)

theorem mem_queryWords_append {seen : List Str} : "query".toList ∈ queryWords.reverse ++ seen :=
  List.mem_append_left _ (by decide)

theorem resolves_requiredQuery {seen : List Str} {params : List ClientParam} (hreq : "req".toList ∈ seen)
    (hpath : "path".toList ∈ seen) (hnames : ∀ p ∈ params, p.name ∈ seen) :
    Cpp.Resolves v seen (queryLines params ++
        [targetPathLine, { own := ["req".toList, "target_path".toList, "query".toList] }]) ↔
      (∀ n ∈ "target_path".toList :: queryWords, v.macros n = false ∧ n ∉ seen) ∧ QueryFits seen params := by
  have hseen : ∀ n ∈ seen, n ∈ queryWords.reverse ++ seen := fun n hn => List.mem_append_right _ hn
  have hlast : Cpp.Resolves v ("target_path".toList :: (queryWords.reverse ++ seen))
      [{ own := ["req".toList, "target_path".toList, "query".toList] }] :=
    resolves_targetQuery (List.mem_cons_of_mem _ (hseen _ hreq)) (List.mem_cons_self ..)
      (List.mem_cons_of_mem _ mem_queryWords_append)
  have hfree : "target_path".toList ∉ queryWords.reverse := by decide
  rw [Cpp.resolves_append, declared_queryLines, resolves_queryLines hnames, resolves_targetPath (hseen _ hpath),
    and_iff_left hlast, List.mem_append, or_iff_right hfree, List.forall_mem_cons]
  tauto

/-- Where the query may be empty, the target with one is a name of a block. -/
theorem resolves_optionalQuery {seen : List Str} {params : List ClientParam} (hreq : "req".toList ∈ seen)
    (hpath : "path".toList ∈ seen) (hnames : ∀ p ∈ params, p.name ∈ seen) :
    Cpp.Resolves v seen (queryLines params ++
        [{ inner := ["target_path".toList], own := ["req".toList, "path".toList, "query".toList] }]) ↔
      (∀ n ∈ queryWords, v.macros n = false ∧ n ∉ seen) ∧ QueryFits seen params := by
  have hown : ∀ n ∈ ["req".toList, "path".toList, "query".toList], n ∈ queryWords.reverse ++ seen :=
    List.forall_mem_cons.mpr ⟨List.mem_append_right _ hreq, List.forall_mem_cons.mpr
      ⟨List.mem_append_right _ hpath, List.forall_mem_singleton.mpr mem_queryWords_append⟩⟩
  have hother : ∀ n ∈ ["req".toList, "path".toList, "query".toList], n ∉ ["target_path".toList] := by decide
  have hlast : Cpp.Resolves v (queryWords.reverse ++ seen)
      [{ inner := ["target_path".toList], own := ["req".toList, "path".toList, "query".toList] }] :=
    ⟨⟨nofun, fun n hn => ⟨hown n hn, hother n hn⟩, nofun⟩, trivial⟩
  rw [Cpp.resolves_append, declared_queryLines, resolves_queryLines hnames, and_iff_left hlast]

theorem declared_pathParams (params : List ClientParam) : Cpp.declared (params.map pathParamLine) = [] :=
  Cpp.declared_map_eq_nil (fun _ => rfl) params

/-- The places of the path are filled in a copy of the template. -/
theorem resolves_filledPath {seen : List Str} {params : List ClientParam} {lines : List Cpp.Line}
    (hpath : "path".toList ∈ seen) (hnames : ∀ p ∈ params, p.name ∈ seen) :
    Cpp.Resolves v seen (targetPathLine :: params.map pathParamLine ++ lines) ↔
      (v.macros "target_path".toList = false ∧ "target_path".toList ∉ seen) ∧
        (∀ p ∈ params, p.name ≠ "_p".toList) ∧ Cpp.Resolves v ("target_path".toList :: seen) lines := by
  have hparams := @resolves_pathParams v ("target_path".toList :: seen) params (List.mem_cons_self ..)
    fun p hp => List.mem_cons_of_mem _ (hnames p hp)
  rw [List.cons_append, resolves_targetPath hpath, Cpp.resolves_append, declared_pathParams, hparams]
  rfl

theorem resolves_pathAndQuery {seen : List Str} {params : List ClientParam} (hreq : "req".toList ∈ seen)
    (hnames : ∀ p ∈ params, p.name ∈ seen) :
    Cpp.Resolves v ("target_path".toList :: seen) (queryLines params ++
        [{ own := ["req".toList, "target_path".toList, "query".toList] }]) ↔
      (∀ n ∈ queryWords, v.macros n = false ∧ n ∉ seen) ∧ QueryFits seen params := by
  have hlast : Cpp.Resolves v (queryWords.reverse ++ "target_path".toList :: seen)
      [{ own := ["req".toList, "target_path".toList, "query".toList] }] :=
    resolves_targetQuery (List.mem_append_right _ (List.mem_cons_of_mem _ hreq))
      (List.mem_append_right _ (List.mem_cons_self ..)) mem_queryWords_append
  have hother : ∀ n ∈ ["size_t", "url_encode", "query_value"].map String.toList, n ∉ ["target_path".toList] := by
    decide
  have hfits : QueryFits ("target_path".toList :: seen) params ↔ QueryFits seen params := queryFits_append hother
  have hwords : (∀ n ∈ queryWords, v.macros n = false ∧ n ∉ "target_path".toList :: seen) ↔
      ∀ n ∈ queryWords, v.macros n = false ∧ n ∉ seen := by
    have hne : ∀ n ∈ queryWords, n ≠ "target_path".toList := by decide
    exact forall₂_congr fun n hn => and_congr_right' (by rw [List.mem_cons, or_iff_right (hne n hn)])
  rw [Cpp.resolves_append, declared_queryLines, and_iff_left hlast,
    resolves_queryLines fun p hp => List.mem_cons_of_mem _ (hnames p hp), hwords, hfits]

theorem resolves_targetLines {seen : List Str} {ep : Endpoint} (hreq : "req".toList ∈ seen)
    (hpath : "path".toList ∈ seen) (hnames : ∀ p ∈ ep.params, p.name ∈ seen) :
    Cpp.Resolves v seen (targetLines ep) ↔
      (∀ n ∈ targetWords ep, v.macros n = false ∧ n ∉ seen) ∧
        (∀ p ∈ ep.pathParams, p.name ≠ "_p".toList) ∧ QueryFits seen ep.queryParams := by
  have hpathNames : ∀ p ∈ ep.pathParams, p.name ∈ seen := fun p hp => hnames p (List.mem_of_mem_filter hp)
  have hqueryNames : ∀ p ∈ ep.queryParams, p.name ∈ seen := fun p hp => hnames p (List.mem_of_mem_filter hp)
  unfold targetLines targetWords
  dsimp only
  by_cases hp : ep.pathParams = []
  · by_cases hq : ep.queryParams = []
    · -- the template is the target
      have hall : ep.allQueryRequired = false := by simp [Endpoint.allQueryRequired, hq]
      have hown : ∀ n ∈ ["req".toList, "path".toList], n ∈ seen :=
        List.forall_mem_cons.mpr ⟨hreq, List.forall_mem_singleton.mpr hpath⟩
      rw [hp, hq, hall]
      exact iff_of_true (resolves_own hown) (by simp [QueryFits])
    · have hqe : ep.queryParams.isEmpty = false := by simpa using hq
      cases hall : ep.allQueryRequired with
      | true => simpa [hp, hq, hqe] using resolves_requiredQuery hreq hpath hqueryNames
      | false => simpa [hp, hq, hqe] using resolves_optionalQuery hreq hpath hqueryNames
  · have hpe : ep.pathParams.isEmpty = false := by simpa using hp
    by_cases hq : ep.queryParams = []
    · have hlast : Cpp.Resolves v ("target_path".toList :: seen)
          [{ own := ["req".toList, "target_path".toList] }] :=
        resolves_own (List.forall_mem_cons.mpr
          ⟨List.mem_cons_of_mem _ hreq, List.forall_mem_singleton.mpr (List.mem_cons_self ..)⟩)
      have hfilled := @resolves_filledPath v seen ep.pathParams
        [{ own := ["req".toList, "target_path".toList] }] hpath hpathNames
      rw [and_iff_left hlast] at hfilled
      simpa only [hpe, hp, hq, QueryFits, List.isEmpty_nil, Bool.not_true, Bool.not_false, Bool.false_and,
        Bool.true_and, Bool.false_eq_true, if_true, if_false, ne_eq, not_true_eq_false, not_false_eq_true, true_or,
        List.append_nil, List.forall_mem_singleton, List.not_mem_nil, false_imp_iff, implies_true, and_true]
        using hfilled
    · have hqe : ep.queryParams.isEmpty = false := by simpa using hq
      have hfilled := @resolves_filledPath v seen ep.pathParams (queryLines ep.queryParams ++
        [{ own := ["req".toList, "target_path".toList, "query".toList] }]) hpath hpathNames
      rw [resolves_pathAndQuery hreq hqueryNames] at hfilled
      simp only [hpe, hqe, Bool.not_false, Bool.not_true, Bool.false_and, Bool.and_false, Bool.false_eq_true,
        if_false, ne_eq, hp, hq, not_false_eq_true, true_or, if_true, List.append_assoc, List.forall_mem_append,
        List.forall_mem_singleton] at hfilled ⊢
      rw [hfilled]
      tauto

theorem declared_params (params : List ClientParam) :
    Cpp.declared (params.map fun p => { outer := [p.cpp_type], declares := some p.name }) =
      params.map (·.name) := by
  rw [Cpp.declared, List.filterMap_map]
  exact congrFun List.filterMap_eq_map params

/-- A line that declares a word of the generator, behind names from outside. -/
theorem resolvesIn_outer {seen outer : List Str} {n : Str} (hn : Cpp.IsName n) :
    Cpp.Line.ResolvesIn v seen { outer, declares := some n } ↔
      (∀ m ∈ outer, m ∉ seen) ∧ v.macros n = false ∧ n ∉ seen := by
  rw [← isNameIn_word hn]
  exact ⟨fun h => ⟨fun m hm => (h.outer m hm).1, h.declares n rfl⟩,
    fun h => ⟨fun m hm => ⟨h.1 m hm, nofun⟩, nofun, by simpa using h.2⟩⟩

theorem resolves_bodyLine (ep : Endpoint) :
    Cpp.Resolves v [] (if ep.has_request_body then [{ outer := [ep.body_type], declares := some "body".toList }]
        else []) ↔ ∀ n ∈ bodyWords ep, v.macros n = false := by
  unfold bodyWords
  split
  · rw [List.forall_mem_singleton, Cpp.Resolves, resolvesIn_outer (by decide)]
    simp
  · simp

theorem declared_bodyLine (ep : Endpoint) :
    Cpp.declared (if ep.has_request_body then [{ outer := [ep.body_type], declares := some "body".toList }]
        else []) = bodyWords ep := by
  unfold bodyWords
  split <;> rfl

/-- Three declarations, two of them with a name from outside. -/
theorem resolves_declarations {seen : List Str} {outcome request token path req : Str} (htoken : Cpp.IsName token)
    (hpath : Cpp.IsName path) (hreq : Cpp.IsName req) (hne : [token, path, req].Nodup)
    (hrequest : request ∉ [token, path]) :
    Cpp.Resolves v seen [{ outer := [outcome], declares := some token }, { declares := some path },
        { outer := [request], declares := some req }] ↔
      (∀ n ∈ [outcome, request, token, path, req], n ∉ seen) ∧ ∀ n ∈ [token, path, req], v.macros n = false := by
  have htokenLine : Cpp.Line.ResolvesIn v seen _ ↔ _ := @resolvesIn_outer v seen [outcome] token htoken
  have hpathLine : Cpp.Line.ResolvesIn v (token :: seen) _ ↔ _ := @resolvesIn_outer v (token :: seen) [] path hpath
  have hreqLine : Cpp.Line.ResolvesIn v (path :: token :: seen) _ ↔ _ :=
    @resolvesIn_outer v (path :: token :: seen) [request] req hreq
  rw [Cpp.Resolves, Cpp.Resolves, Cpp.Resolves]
  constructor
  · rintro ⟨htokenIn, hpathIn, hreqIn, -⟩
    obtain ⟨h₁, h₂, h₃⟩ := htokenLine.mp htokenIn
    obtain ⟨-, h₄, h₅⟩ := hpathLine.mp hpathIn
    obtain ⟨h₆, h₇, h₈⟩ := hreqLine.mp hreqIn
    have hrequestIn := h₆ request (List.mem_singleton_self _)
    simp only [List.mem_cons, not_or] at h₅ h₈ hrequestIn
    simp only [List.forall_mem_cons, List.not_mem_nil, false_imp_iff, implies_true, and_true]
    exact ⟨⟨h₁ outcome (List.mem_singleton_self _), hrequestIn.2.2, h₃, h₅.2, h₈.2.2⟩, h₂, h₄, h₇⟩
  · simp only [List.forall_mem_cons, List.not_mem_nil, false_imp_iff, implies_true, and_true]
    simp only [List.nodup_cons, List.mem_cons, List.not_mem_nil, or_false, not_or] at hne hrequest
    rintro ⟨⟨h₁, h₂, h₃, h₄, h₅⟩, h₆, h₇, h₈⟩
    refine ⟨htokenLine.mpr ⟨List.forall_mem_singleton.mpr h₁, h₆, h₃⟩,
      hpathLine.mpr ⟨List.forall_mem_nil _, h₇, ?_⟩,
      hreqLine.mpr ⟨List.forall_mem_singleton.mpr ?_, h₈, ?_⟩, trivial⟩
    · exact List.not_mem_cons_of_ne_of_not_mem (Ne.symm hne.1.1) h₄
    · exact List.not_mem_cons_of_ne_of_not_mem hrequest.2 (List.not_mem_cons_of_ne_of_not_mem hrequest.1 h₂)
    · exact List.not_mem_cons_of_ne_of_not_mem (Ne.symm hne.2.1)
        (List.not_mem_cons_of_ne_of_not_mem (Ne.symm hne.1.2) h₅)

theorem resolves_arguments (ep : Endpoint) :
    Cpp.Resolves v [] ((if ep.has_request_body then [{ outer := [ep.body_type], declares := some "body".toList }]
        else []) ++ ep.params.map fun p => { outer := [p.cpp_type], declares := some p.name }) ↔
      (∀ n ∈ bodyWords ep, v.macros n = false) ∧
        (∀ p ∈ ep.params, Cpp.IsNameIn v p.name ∧ p.name ∉ bodyWords ep ∧ p.cpp_type ∉ bodyWords ep) ∧
        (ep.params.map (·.name)).Nodup ∧ ep.params.Pairwise fun p q => p.name ≠ q.cpp_type := by
  rw [Cpp.resolves_append, resolves_bodyLine, declared_bodyLine, resolves_params]
  simp only [List.append_nil, List.mem_reverse]

/-- What the lines behind the target use is declared before it. -/
theorem resolves_rest {seen : List Str} {ep : Endpoint} (hreq : "req".toList ∈ seen)
    (htoken : "token".toList ∈ seen) (hbody : ∀ n ∈ bodyWords ep, n ∈ seen) (hnames : ∀ p ∈ ep.params, p.name ∈ seen) :
    Cpp.Resolves v seen
      ((if ep.has_request_body then [{ own := ["req".toList, "body".toList] }] else []) ++
        ep.headerParams.map (fun p => { own := ["req".toList, p.name] }) ++
        [{ own := ["req".toList, "token".toList] }]) := by
  have hline : ∀ {own : List Str}, (∀ n ∈ own, n ∈ seen) → Cpp.Line.ResolvesIn v seen { own } := fun h =>
    ⟨nofun, fun n hn => ⟨h n hn, nofun⟩, nofun⟩
  have hpair : ∀ {n : Str}, n ∈ seen → ∀ m ∈ ["req".toList, n], m ∈ seen := fun hn m hm => by
    rcases List.mem_pair.mp hm with rfl | rfl
    · exact hreq
    · exact hn
  have hdeclared : Cpp.declared
      ((if ep.has_request_body then [{ own := ["req".toList, "body".toList] }] else []) ++
        ep.headerParams.map (fun p => { own := ["req".toList, p.name] }) ++
        [{ own := ["req".toList, "token".toList] }]) = [] := by
    rw [Cpp.declared_append, Cpp.declared_append, Cpp.declared_map_eq_nil fun _ => rfl]
    split <;> rfl
  rw [Cpp.resolves_of_declared_nil hdeclared]
  intro l hl
  rcases List.mem_append.mp hl with hl | hl
  · rcases List.mem_append.mp hl with hl | hl
    · unfold bodyWords at hbody
      split at hl
      · rename_i hhas
        rw [if_pos hhas] at hbody
        obtain rfl := List.mem_singleton.mp hl
        exact hline (hpair (hbody _ (List.mem_singleton_self _)))
      · cases hl
    · obtain ⟨p, hp, rfl⟩ := List.mem_map.mp hl
      exact hline (hpair (hnames p (List.mem_of_mem_filter hp)))
  · obtain rfl := List.mem_singleton.mp hl
    exact hline (hpair htoken)

theorem eq_body_of_mem {ep : Endpoint} {n : Str} (hn : n ∈ bodyWords ep) : n = "body".toList := by
  unfold bodyWords at hn
  split at hn
  · exact List.mem_singleton.mp hn
  · cases hn

theorem mem_of_targetWords {ep : Endpoint} {n : Str} (hn : n ∈ targetWords ep) :
    n ∈ "target_path".toList :: queryWords := by
  unfold targetWords at hn
  rcases List.mem_append.mp hn with hn | hn <;> split at hn
  · exact List.mem_cons.mpr (.inl (List.mem_singleton.mp hn))
  · cases hn
  · exact List.mem_cons_of_mem _ hn
  · cases hn

/-- The names before the lines of the target are those of the parameters and four words, which no other word of
the method is. -/
theorem mem_seen_iff {ep : Endpoint} {n : Str} (hbody : n ≠ "body".toList) :
    (n ∈ (bodyWords ep ++ ep.params.map (·.name)).reverse ↔ n ∈ ep.params.map (·.name)) ∧
      (n ∉ ["token", "path", "req"].map String.toList →
        (n ∈ "req".toList :: "path".toList :: "token".toList ::
          (bodyWords ep ++ ep.params.map (·.name)).reverse ↔ n ∈ ep.params.map (·.name))) := by
  have hseen : n ∈ (bodyWords ep ++ ep.params.map (·.name)).reverse ↔ n ∈ ep.params.map (·.name) := by
    rw [List.mem_reverse, List.mem_append, or_iff_right fun h => hbody (eq_body_of_mem h)]
  refine ⟨hseen, fun hword => ?_⟩
  have hne : n ≠ "token".toList ∧ n ≠ "path".toList ∧ n ≠ "req".toList := by
    simpa only [List.map_cons, List.map_nil, List.mem_cons, List.not_mem_nil, or_false, not_or] using hword
  rw [List.mem_cons, List.mem_cons, List.mem_cons, hseen, or_iff_right hne.2.2, or_iff_right hne.2.1,
    or_iff_right hne.1]

/-- The lines, as the lemmas above take them. -/
theorem methodLines_eq (ep : Endpoint) : methodLines ep =
    ((if ep.has_request_body then [{ outer := [ep.body_type], declares := some "body".toList }] else []) ++
      ep.params.map (fun p => { outer := [p.cpp_type], declares := some p.name })) ++
    ([{ outer := ["outcome_type".toList], declares := some "token".toList }, { declares := some "path".toList },
        { outer := ["request_type".toList], declares := some "req".toList }] ++
      (targetLines ep ++ ((if ep.has_request_body then [{ own := ["req".toList, "body".toList] }] else []) ++
        ep.headerParams.map (fun p => { own := ["req".toList, p.name] }) ++
        [{ own := ["req".toList, "token".toList] }]))) := by
  simp only [methodLines, signatureLines, List.append_assoc, List.cons_append, List.nil_append]

/-- The parts of a method: its arguments, its fixed lines, and the target. -/
theorem namesResolve_parts (ep : Endpoint) : NamesResolve v ep ↔
    ((∀ n ∈ bodyWords ep, v.macros n = false) ∧
      (∀ p ∈ ep.params, Cpp.IsNameIn v p.name ∧ p.name ∉ bodyWords ep ∧ p.cpp_type ∉ bodyWords ep) ∧
      (ep.params.map (·.name)).Nodup ∧ ep.params.Pairwise fun p q => p.name ≠ q.cpp_type) ∧
    ((∀ n ∈ ["outcome_type", "request_type", "token", "path", "req"].map String.toList,
        n ∉ ep.params.map (·.name)) ∧
      ∀ n ∈ ["token", "path", "req"].map String.toList, v.macros n = false) ∧
    (∀ n ∈ targetWords ep, v.macros n = false ∧ n ∉ ep.params.map (·.name)) ∧
    (∀ p ∈ ep.pathParams, p.name ≠ "_p".toList) ∧ QueryFits (ep.params.map (·.name)) ep.queryParams := by
  obtain ⟨seen, hseen⟩ : ∃ seen, seen = (bodyWords ep ++ ep.params.map (·.name)).reverse := ⟨_, rfl⟩
  have hnames : ∀ p ∈ ep.params, p.name ∈ "req".toList :: "path".toList :: "token".toList :: seen := fun p hp => by
    have hname : p.name ∈ seen := hseen ▸ List.mem_reverse.mpr (List.mem_append_right _ (List.mem_map_of_mem hp))
    exact List.mem_cons_of_mem _ (List.mem_cons_of_mem _ (List.mem_cons_of_mem _ hname))
  have hbody : ∀ n ∈ bodyWords ep, n ∈ "req".toList :: "path".toList :: "token".toList :: seen := fun n hn => by
    have hbody : n ∈ seen := hseen ▸ List.mem_reverse.mpr (List.mem_append_left _ hn)
    exact List.mem_cons_of_mem _ (List.mem_cons_of_mem _ (List.mem_cons_of_mem _ hbody))
  have hrest := @resolves_rest v
    ((Cpp.declared (targetLines ep)).reverse ++ "req".toList :: "path".toList :: "token".toList :: seen) ep
    (by simp) (by simp) (fun n hn => List.mem_append_right _ (hbody n hn))
    fun p hp => List.mem_append_right _ (hnames p hp)
  have hfixed : (Cpp.declared [{ outer := ["outcome_type".toList], declares := some "token".toList },
      { declares := some "path".toList },
      { outer := ["request_type".toList], declares := some "req".toList }]).reverse ++ seen =
      "req".toList :: "path".toList :: "token".toList :: seen := rfl
  -- the words of the method are different
  have hfixedWords : ∀ n ∈ ["outcome_type", "request_type", "token", "path", "req"].map String.toList,
      n ≠ "body".toList := by decide
  have htargetWords : ∀ n ∈ "target_path".toList :: queryWords,
      n ≠ "body".toList ∧ n ∉ ["token", "path", "req"].map String.toList := by decide
  have huseWords : ∀ n ∈ ["size_t", "url_encode", "query_value"].map String.toList,
      n ≠ "body".toList ∧ n ∉ ["token", "path", "req"].map String.toList := by decide
  rw [NamesResolve, methodLines_eq, Cpp.resolves_append, resolves_arguments, Cpp.declared_append,
    declared_bodyLine, declared_params, List.append_nil, ← hseen, Cpp.resolves_append, Cpp.resolves_append,
    resolves_declarations (by decide) (by decide) (by decide) (by decide) (by decide), hfixed, and_iff_left hrest,
    resolves_targetLines (List.mem_cons_self ..) (List.mem_cons_of_mem _ (List.mem_cons_self ..)) hnames, hseen]
  refine and_congr_right' (and_congr (and_congr_left' (forall₂_congr fun n hn => ?_))
    (and_congr (forall₂_congr fun n hn => and_congr_right' ?_) (and_congr_right' (forall₂_congr fun p _ =>
      and_congr_left' (forall₂_congr fun n hn => ?_)))))
  · rw [(mem_seen_iff (hfixedWords n hn)).1]
  · have hword := htargetWords n (mem_of_targetWords hn)
    rw [(mem_seen_iff hword.1).2 hword.2]
  · have hword := huseWords n (queryParamLine_outer p n hn)
    rw [(mem_seen_iff hword.1).2 hword.2]

/-- **Which parameters a method can have.**  A parameter has no name of the method's own, and none that the
method uses from outside; a name is not the type of a later parameter, that of the place is no path parameter,
and that of the index no vector. -/
theorem namesResolve_iff (ep : Endpoint) : NamesResolve v ep ↔ NamesFit v ep := by
  have hfixed : ["outcome_type", "request_type", "token", "path", "req"].map String.toList =
      ["outcome_type", "request_type"].map String.toList ++ ["token", "path", "req"].map String.toList := rfl
  rw [namesResolve_parts, hfixed, List.forall_mem_append]
  have hname : ∀ n, n ∉ ep.params.map (·.name) ↔ ∀ p ∈ ep.params, p.name ≠ n := by simp
  constructor
  · rintro ⟨⟨hbodyMacro, hparams, hdistinct, htypes⟩, ⟨⟨houtside, hfixed⟩, hfixedMacro⟩, htarget, hposition,
      hquery⟩
    refine ⟨fun p hp => (hparams p hp).1, hdistinct, fun p hp hlocal => ?_, fun p hp huse => ?_, htypes,
      fun p hp => (hparams p hp).2.2, hposition, fun p hp => (hquery p hp).2, ?_⟩
    · rw [methodLocals, List.mem_append, List.mem_append] at hlocal
      rcases hlocal with (hlocal | hlocal) | hlocal
      · exact (hparams p hp).2.1 hlocal
      · exact hfixed _ hlocal (List.mem_map_of_mem hp)
      · exact (htarget _ hlocal).2 (List.mem_map_of_mem hp)
    · rcases List.mem_append.mp huse with huse | huse
      · exact houtside _ huse (List.mem_map_of_mem hp)
      · obtain ⟨q, hq, huse⟩ := List.mem_flatMap.mp huse
        exact (hquery q hq).1 _ huse (List.mem_map_of_mem hp)
    · rw [methodLocals, List.forall_mem_append, List.forall_mem_append]
      exact ⟨⟨hbodyMacro, hfixedMacro⟩, fun n hn => (htarget n hn).1⟩
  · intro h
    have hlocals : ∀ n ∈ methodLocals ep, n ∉ ep.params.map (·.name) := fun n hn =>
      (hname n).mpr fun p hp heq => h.locals p hp (heq ▸ hn)
    have huses : ∀ n ∈ methodUses ep, n ∉ ep.params.map (·.name) := fun n hn =>
      (hname n).mpr fun p hp heq => h.uses p hp (heq ▸ hn)
    have hmacros := h.macros
    rw [methodLocals, List.forall_mem_append, List.forall_mem_append] at hlocals hmacros
    rw [methodUses, List.forall_mem_append] at huses
    refine ⟨⟨hmacros.1.1, fun p hp => ⟨h.names p hp, fun hlocal => ?_, h.body p hp⟩, h.distinct, h.types⟩,
      ⟨⟨huses.1, hlocals.1.2⟩, hmacros.1.2⟩, fun n hn => ⟨hmacros.2 n hn, hlocals.2 n hn⟩, h.position,
      fun p hp => ⟨fun n hn => huses.2 n (List.mem_flatMap.mpr ⟨p, hp, hn⟩), h.index p hp⟩⟩
    exact hlocals.1.1 _ hlocal (List.mem_map_of_mem hp)

end Siesta
