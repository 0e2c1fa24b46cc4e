import Siesta.IR.EndpointParams
import Siesta.IR.Identifiers
import Siesta.IR.WireFormat

/-!
# Names in one scope: `EndpointIR.hpp` and `SchemaParser.cpp`

The functions of a client, the arguments of a function and the members of a struct get their names from
texts of the document, and none of the functions that make them is injective.  For each of them two
texts clash exactly when they are spelled alike in a way of their own.
-/

namespace Siesta

open Lib JsonObject

/-! ### Texts that are spelled alike -/

/-- Two texts are equal character by character, where `_` and the marks are not told apart. -/
def SameUpTo (marks : List Char) (p q : Str) : Prop :=
  List.Forall₂ (fun c d => c = d ∨ c ∈ '_' :: marks ∧ d ∈ '_' :: marks) p q

instance (marks : List Char) : DecidableRel (SameUpTo marks) := fun p q => by
  unfold SameUpTo
  infer_instance

theorem map_eq_map_iff {marks : List Char} {p q : Str} :
    p.map (fun c => if c ∈ marks then '_' else c) = q.map (fun c => if c ∈ marks then '_' else c) ↔
      SameUpTo marks p q := by
  rw [SameUpTo, ← List.forall₂_eq_eq_eq, List.forall₂_map_left_iff, List.forall₂_map_right_iff]
  have hchar : ∀ c d : Char, ((if c ∈ marks then '_' else c) = if d ∈ marks then '_' else d) ↔
      (c = d ∨ c ∈ '_' :: marks ∧ d ∈ '_' :: marks) := by
    intro c d
    simp only [List.mem_cons]
    by_cases hc : c ∈ marks <;> by_cases hd : d ∈ marks
    · simp [hc, hd]
    · have hne : c ≠ d := fun h => hd (h ▸ hc)
      simp [hc, hd, hne, eq_comm]
    · have hne : c ≠ d := fun h => hc (h ▸ hd)
      simp [hc, hd, hne]
    · simp only [hc, hd, if_false, or_false]
      exact ⟨.inl, fun h => h.elim id fun h => h.1.trans h.2.symm⟩
  simp only [hchar]

/-! ### Function names -/

theorem generateFunctionName_inj {m n p q : Str} (hm : isSupportedMethod m = true)
    (hn : isSupportedMethod n = true) :
    generateFunctionName m p = generateFunctionName n q ↔ m = n ∧ pathWord p = pathWord q := by
  -- the method is what stands before the first underscore
  have hmethod : ∀ {m : Str}, isSupportedMethod m = true → ∀ x : Str,
      (m ++ "__".toList ++ x).takeWhile (· ≠ '_') = m := by
    intro m hm x
    have hfree : ∀ m ∈ supportedMethods, '_' ∉ m := by decide
    have hplain := hfree m (by simpa [isSupportedMethod] using hm)
    have hall : ∀ c ∈ m, decide (c ≠ '_') = true := fun c hc => by
      simpa using fun h : c = '_' => hplain (h ▸ hc)
    rw [List.append_assoc, List.takeWhile_append_of_pos hall]
    exact List.append_nil m
  rw [generateFunctionName_eq, generateFunctionName_eq]
  constructor
  · intro h
    have heq : m = n := by rw [← hmethod hm (pathWord p), h, hmethod hn]
    subst heq
    exact ⟨rfl, List.append_cancel_left h⟩
  · rintro ⟨rfl, h⟩
    rw [h]

/-- The characters of a path that its function name shows: no closing brace, and no slash in front of the
first character that is copied. -/
def shownChars (path : Str) : Str :=
  ((path.takeWhile (· ∈ pathMarks)).filter (· ≠ '/') ++ path.dropWhile (· ∈ pathMarks)).filter (· ≠ '}')

/-- Two paths of one method give functions of one name. -/
def PathsClash (p q : Str) : Prop := SameUpTo pathMarks (shownChars p) (shownChars q)

theorem pathWord_inj {p q : Str} : pathWord p = pathWord q ↔ PathsClash p q := map_eq_map_iff

/-! ### Argument names -/

/-- The word that `sanitizeParamName` rewrites the characters of. -/
def prefixedParam (name : Str) : Str := if name ∈ renamedParams then "param_".toList ++ name else name

/-- Two parameter names give arguments of one name. -/
def ParametersClash (p q : Str) : Prop := SameUpTo bracketChars (prefixedParam p) (prefixedParam q)

theorem sanitizeParamName_inj {p q : Str} : sanitizeParamName p = sanitizeParamName q ↔
    ParametersClash p q := map_eq_map_iff

/-! ### Member names -/

/-- `sanitize` respells a word: it puts `_` behind a reserved word, and before a digit. -/
def Respelled (word other : Str) : Prop :=
  (word ∈ RESERVED ∧ other = word ++ ['_']) ∨
    ((∃ c ∈ word.head?, c.isDigit = true) ∧ other = '_' :: word)

instance : DecidableRel Respelled := fun a b =>
  decidable_of_iff ((a ∈ RESERVED ∧ b = a ++ ['_']) ∨ (a.head?.any Char.isDigit = true ∧ b = '_' :: a))
    (or_congr_right (and_congr_left fun _ => by simp [Option.any_eq_true]))

/-- `sanitize`, behind the replacement of characters. -/
def respell (word : Str) : Str := guardDigit (if word ∈ RESERVED then word ++ ['_'] else word)

theorem sanitize_eq_respell (s : Str) : sanitize s = respell (replaceChars s) := by
  unfold sanitize
  split
  · rename_i h
    subst h
    decide
  · rfl

theorem respell_cases (word : Str) : respell word = word ∨ Respelled word (respell word) := by
  unfold respell
  by_cases hr : word ∈ RESERVED
  · rw [if_pos hr, guardDigit_reserved hr]
    exact .inr (.inl ⟨hr, rfl⟩)
  · rw [if_neg hr]
    cases word with
    | nil => exact .inl rfl
    | cons c word =>
      rw [guardDigit]
      by_cases hc : c.isDigit = true
      · rw [if_pos hc]
        exact .inr (.inr ⟨⟨c, rfl, hc⟩, rfl⟩)
      · rw [if_neg hc]
        exact .inl rfl

theorem not_reserved_of_digit {word : Str} (h : ∃ c ∈ word.head?, c.isDigit = true) :
    word ∉ RESERVED ∧ '_' :: word ∉ RESERVED ∧ ∀ w ∈ RESERVED, '_' :: word ≠ w ++ ['_'] := by
  obtain ⟨c, hc, hdigit⟩ := h
  obtain ⟨word, rfl⟩ : ∃ rest, word = c :: rest := List.head?_eq_some_iff.mp hc
  have hall : ∀ w ∈ RESERVED, w.head? = some '_' → w.tail.head?.any Char.isDigit = false := by decide
  have hbehind : ∀ w ∈ RESERVED, w.head? = some '_' → ∀ c ∈ w.tail.head?, c.isDigit = false :=
    fun w hw hhead => (Option.any_eq_false _ _).mp (hall w hw hhead)
  refine ⟨fun hr => ?_, fun hr => ?_, fun w hw heq => ?_⟩
  · rw [(isDigit_reserved hr).2 c rfl] at hdigit
    cases hdigit
  · rw [hbehind _ hr rfl c rfl] at hdigit
    cases hdigit
  · -- the second character of `w ++ ['_']` is one of `w`, or the underscore
    have hw := hbehind w hw
    match w, hw, heq with
    | [_], _, heq =>
      obtain rfl : c = '_' := (List.cons.inj (List.cons.inj heq).2).1
      exact absurd hdigit (by decide)
    | _ :: d :: _, hw, heq =>
      obtain ⟨rfl, htail⟩ := List.cons.inj heq
      obtain rfl : c = d := (List.cons.inj htail).1
      rw [hw rfl c rfl] at hdigit
      cases hdigit

/-- A respelled word is the word's own, and is left as it is. -/
theorem respell_of_respelled {word other : Str} (h : Respelled word other) :
    respell word = other ∧ respell other = other := by
  rcases h with ⟨hr, rfl⟩ | ⟨hd, rfl⟩
  · -- the words that end with an underscore end with two of them
    have hends : ∀ w ∈ RESERVED, w.getLast? = some '_' →
        w.dropLast.getLast? = some '_' ∧ w.dropLast.dropLast.getLast? ≠ some '_' := by decide
    have hfree : word ++ ['_'] ∉ RESERVED := fun h => by
      have hlong := hends _ h List.getLast?_concat
      rw [List.dropLast_concat] at hlong
      exact hlong.2 (hends word hr hlong.1).1
    rw [respell, respell, if_pos hr, if_neg hfree, guardDigit_reserved hr]
    exact ⟨rfl, rfl⟩
  · obtain ⟨hr, hr', -⟩ := not_reserved_of_digit hd
    rw [respell, respell, if_neg hr, if_neg hr']
    obtain ⟨c, hc, hdigit⟩ := hd
    refine ⟨?_, rfl⟩
    cases word with
    | nil => cases hc
    | cons d word =>
      obtain rfl := Option.some.inj hc
      rw [guardDigit, if_pos hdigit]

theorem respelled_inj {a b word : Str} (ha : Respelled a word) (hb : Respelled b word) : a = b := by
  rcases ha with ⟨hra, rfl⟩ | ⟨hda, rfl⟩ <;> rcases hb with ⟨hrb, hb⟩ | ⟨hdb, hb⟩
  · exact List.append_cancel_right hb
  · exact absurd hb.symm ((not_reserved_of_digit hdb).2.2 a hra)
  · exact absurd hb ((not_reserved_of_digit hda).2.2 b hrb)
  · exact (List.cons.inj hb).2

theorem respell_inj {a b : Str} : respell a = respell b ↔ a = b ∨ Respelled a b ∨ Respelled b a := by
  constructor
  · intro h
    rcases respell_cases a with ha | ha <;> rcases respell_cases b with hb | hb
    · exact .inl (ha.symm.trans (h.trans hb))
    · rw [← h, ha] at hb
      exact .inr (.inr hb)
    · rw [h, hb] at ha
      exact .inr (.inl ha)
    · rw [h] at ha
      exact .inl (respelled_inj ha hb)
  · rintro (rfl | h | h)
    · rfl
    · rw [(respell_of_respelled h).1, (respell_of_respelled h).2]
    · rw [(respell_of_respelled h).1, (respell_of_respelled h).2]

/-- Two property names give members of one name: they are equal up to the rewritten characters, or one
of them is what the other is respelled to. -/
def SanitizeClash (p q : Str) : Prop :=
  SameUpTo sanitizedChars p q ∨ Respelled (replaceChars p) (replaceChars q) ∨
    Respelled (replaceChars q) (replaceChars p)

theorem sanitize_inj {p q : Str} : sanitize p = sanitize q ↔ SanitizeClash p q := by
  have hsame : replaceChars p = replaceChars q ↔ SameUpTo sanitizedChars p q := map_eq_map_iff
  rw [sanitize_eq_respell, sanitize_eq_respell, respell_inj, hsame, SanitizeClash]

/-! ### Scopes -/

/-- Endpoints of different methods or paths have different functions. -/
def DistinctFunctions (endpoints : List Endpoint) : Prop :=
  ∀ a ∈ endpoints, ∀ b ∈ endpoints, (a.method, a.path) ≠ (b.method, b.path) →
    a.function_name ≠ b.function_name

/-- Different parameters of an endpoint are different arguments. -/
def DistinctArguments (ep : Endpoint) : Prop :=
  ∀ p ∈ ep.params, ∀ q ∈ ep.params, p.wire_name ≠ q.wire_name → p.name ≠ q.name

/-- Different properties of a schema are different members of its struct. -/
def DistinctProperties (ir : InvalidRead) (schema : JsonObject) (t : StructType) : Prop :=
  ∀ e ∈ (propertyNames ir schema).zip t.fields, ∀ f ∈ (propertyNames ir schema).zip t.fields,
    e.1 ≠ f.1 → e.2.name ≠ f.2.name

instance : DecidablePred DistinctFunctions := fun endpoints => by
  unfold DistinctFunctions
  infer_instance

instance : DecidablePred DistinctArguments := fun ep => by
  unfold DistinctArguments
  infer_instance

instance (ir : InvalidRead) (schema : JsonObject) : DecidablePred (DistinctProperties ir schema) := fun t => by
  unfold DistinctProperties
  infer_instance

theorem distinctFunctions_iff {endpoints : List Endpoint} (h : ∀ ep ∈ endpoints, ep.Parsed) :
    DistinctFunctions endpoints ↔ ∀ a ∈ endpoints, ∀ b ∈ endpoints, a.method = b.method →
      a.path ≠ b.path → ¬ PathsClash a.path b.path := by
  refine forall₂_congr fun a ha => forall₂_congr fun b hb => ?_
  have hinj := generateFunctionName_inj (p := a.path) (q := b.path) (h a ha).method (h b hb).method
  rw [(h a ha).function_name, (h b hb).function_name, ne_eq, ne_eq, hinj, Prod.mk.injEq, pathWord_inj]
  tauto

theorem distinctArguments_iff {ep : Endpoint} (h : ep.Parsed) :
    DistinctArguments ep ↔ ∀ p ∈ ep.params, ∀ q ∈ ep.params, p.wire_name ≠ q.wire_name →
      ¬ ParametersClash p.wire_name q.wire_name := by
  refine forall₂_congr fun p hp => forall₂_congr fun q hq => ?_
  rw [h.names p hp, h.names q hq, ← sanitizeParamName_inj]

theorem distinctProperties_iff {ir : InvalidRead} {schema : JsonObject} {t : StructType}
    (h : HasProperties ir schema t) :
    DistinctProperties ir schema t ↔ ∀ p ∈ propertyNames ir schema, ∀ q ∈ propertyNames ir schema,
      p ≠ q → ¬ SanitizeClash p q := by
  constructor
  · intro hdistinct p hp q hq hne hclash
    have hlen := (forall₂_propertyNames h).length_eq
    obtain ⟨m, hm⟩ := exists_mem_zip hlen hp
    obtain ⟨k, hk⟩ := exists_mem_zip hlen hq
    refine hdistinct _ hm _ hk hne ?_
    rw [name_of_mem_zip h hm, name_of_mem_zip h hk]
    exact sanitize_inj.mpr hclash
  · intro hfree e he f hf hne hname
    rw [name_of_mem_zip h he, name_of_mem_zip h hf] at hname
    exact hfree _ (List.of_mem_zip he).1 _ (List.of_mem_zip hf).1 hne (sanitize_inj.mp hname)

/-- **Which names are distinct.**  In the endpoints and the structs of a document, names of one scope
clash exactly where the texts that they were made from do. -/
theorem names_distinct_iff {ir : InvalidRead} {ho : HashOrders} {spec : JsonObject}
    {endpoints : List Endpoint} {failed : List Str} {s : ParseState}
    (hendpoints : parseEndpoints ir ho spec = .ok endpoints)
    (hschemas : parseSchemas ir spec {} = .ok failed s) :
    (DistinctFunctions endpoints ↔ ∀ a ∈ endpoints, ∀ b ∈ endpoints, a.method = b.method →
        a.path ≠ b.path → ¬ PathsClash a.path b.path) ∧
      (∀ ep ∈ endpoints, DistinctArguments ep ↔
        ∀ p ∈ ep.params, ∀ q ∈ ep.params, p.wire_name ≠ q.wire_name →
          ¬ ParametersClash p.wire_name q.wire_name) ∧
      (∃ schemaOf, OriginOf ir spec s.ast schemaOf) ∧
      ∀ schemaOf, OriginOf ir spec s.ast schemaOf → ∀ n t, s.ast.getType n = some (.struct t) →
        (DistinctProperties ir (schemaOf n) t ↔
          ∀ p ∈ propertyNames ir (schemaOf n), ∀ q ∈ propertyNames ir (schemaOf n), p ≠ q →
            ¬ SanitizeClash p q) := by
  refine ⟨distinctFunctions_iff fun _ => parsed_of_mem_parseEndpoints hendpoints,
    fun _ hep => distinctArguments_iff (parsed_of_mem_parseEndpoints hendpoints hep),
    exists_origins hschemas, fun schemaOf horigin n t ht => ?_⟩
  exact distinctProperties_iff (horigin n t ht).2.hasProperties

/-- A query parameter of type string. -/
def queryParam (name : Str) : Json :=
  .obj [("name".toList, .str name), ("in".toList, .str "query".toList),
    ("schema".toList, .obj [("type".toList, .str "string".toList)])]

/-- A schema with two properties. -/
def pairSchema (p q : Str) : Json :=
  .obj [("type".toList, .str "object".toList),
    ("properties".toList, .obj [(p, .obj [("type".toList, .str "string".toList)]),
      (q, .obj [("type".toList, .str "string".toList)])])]

/-- A document in which two texts of each scope clash. -/
def clashingSpec : JsonObject :=
  some [("components".toList, .obj [("schemas".toList, .obj [("Pair".toList,
      pairSchema "a-b".toList "a.b".toList)])]),
    ("paths".toList, .obj [
      ("/a-b".toList, .obj [("get".toList, .obj [("parameters".toList,
        .arr [queryParam "x[0]".toList, queryParam "x(0)".toList])])]),
      ("/a/b".toList, .obj [("get".toList, .obj [])])])]

theorem names_distinct_iff_clashing :
    ∃ endpoints s, parseEndpoints .crash (HashOrder.newestFirst _) clashingSpec = .ok endpoints ∧
      parseSchemas .crash clashingSpec {} = .ok [] s ∧
      (DistinctFunctions endpoints ↔ ∀ a ∈ endpoints, ∀ b ∈ endpoints, a.method = b.method →
        a.path ≠ b.path → ¬ PathsClash a.path b.path) ∧
      (∀ ep ∈ endpoints, DistinctArguments ep ↔
        ∀ p ∈ ep.params, ∀ q ∈ ep.params, p.wire_name ≠ q.wire_name →
          ¬ ParametersClash p.wire_name q.wire_name) ∧
      (∃ schemaOf, OriginOf .crash clashingSpec s.ast schemaOf) ∧
      ∀ schemaOf, OriginOf .crash clashingSpec s.ast schemaOf → ∀ n t, s.ast.getType n = some (.struct t) →
        (DistinctProperties .crash (schemaOf n) t ↔
          ∀ p ∈ propertyNames .crash (schemaOf n), ∀ q ∈ propertyNames .crash (schemaOf n), p ≠ q →
            ¬ SanitizeClash p q) :=
  ⟨_, _, rfl, rfl, names_distinct_iff rfl rfl⟩

/-- The functions of `/a-b` and `/a/b`, the arguments `x[0]` and `x(0)`, and the members `a-b` and `a.b`
have the same names. -/
theorem names_clash :
    ∃ a b s t, parseEndpoints .crash (HashOrder.newestFirst _) clashingSpec = .ok [a, b] ∧
      parseSchemas .crash clashingSpec {} = .ok [] s ∧
      s.ast.getType "Pair".toList = some (.struct t) ∧
      ¬ DistinctFunctions [a, b] ∧ ¬ DistinctArguments a ∧
      ¬ DistinctProperties .crash (ofMember (pairSchema "a-b".toList "a.b".toList)) t := by
  exact ⟨_, _, _, _, rfl, rfl, rfl, by decide, by decide, by decide⟩

end Siesta
