import Siesta.IR.PathItems

/-!
# References and the components they name: `generator/src/IR/EndpointIR.cpp`

A parameter or a request body may be written in place or as a `$ref` to a component.  `parseEndpoints`
reads the components ahead and the rest in place, with two functions for parameters and two for
bodies.  `ReferencesInlined` says that a document is another one with references replaced by what they
name; the two readings of a parameter differ in its flags (`inlined_param`), those of a body in
its content type, and where there is no content (`inlined_body`).
-/

namespace Siesta

open Lib JsonObject

/-! ### Documents with references replaced -/

/-- `v'` is `v`, or both are objects with the same keys, whose values `V` relates. -/
inductive MembersRel (V : Str → Json → Json → Prop) : Json → Json → Prop
  | same (v : Json) : MembersRel V v v
  | obj {members members' : Record Str Json}
      (h : List.Forall₂ (fun m m' => m'.1 = m.1 ∧ V m.1 m.2 m'.2) members members') :
      MembersRel V (.obj members) (.obj members')

/-- `v'` is `v`, or both are lists whose items `E` relates. -/
inductive ItemsRel (E : Json → Json → Prop) : Json → Json → Prop
  | same (v : Json) : ItemsRel E v v
  | arr {items items' : List Json} (h : List.Forall₂ E items items') :
      ItemsRel E (.arr items) (.arr items')

/-- `v'` is `v`, or `v` is a reference to the component `v'`, which is no reference itself. -/
inductive Inlined (comps : List (Str × Json)) : Json → Json → Prop
  | same (v : Json) : Inlined comps v v
  | component {members members' : Record Str Json} {r : Str}
      (href : Record.find members "$ref".toList = some (.str r)) (hne : r ≠ [])
      (hmem : (refComponentName r, .obj members') ∈ comps)
      (huniq : ∀ q, (refComponentName r, q) ∈ comps → q = .obj members')
      (hplain : ∀ s, Record.find members' "$ref".toList = some (.str s) → s = []) :
      Inlined comps (.obj members) (.obj members')

section

variable (params bodies : List (Str × Json))

/-- In an operation the items of `parameters` and the `requestBody` may be replaced. -/
def OperationMember (key : Str) : Json → Json → Prop :=
  if key = "parameters".toList then ItemsRel (Inlined params)
  else if key = "requestBody".toList then Inlined bodies
  else fun v v' => v' = v

/-- In a path item the items of `parameters` may be replaced, and what is in the operations. -/
def PathItemMember (key : Str) : Json → Json → Prop :=
  if key = "parameters".toList then ItemsRel (Inlined params)
  else MembersRel (OperationMember params bodies)

def SpecMember (key : Str) : Json → Json → Prop :=
  if key = "paths".toList then MembersRel fun _ => MembersRel (PathItemMember params bodies)
  else fun v v' => v' = v

end

/-- `spec'` is `spec` with any number of the references in its paths replaced by the components they
name. -/
def ReferencesInlined (ir : InvalidRead) (spec spec' : JsonObject) : Prop :=
  ∃ members members' components params bodies, spec = some members ∧ spec' = some members' ∧
    objectField ir spec "components".toList = .ok components ∧
    mapField ir components "parameters".toList = .ok params ∧
    mapField ir components "requestBodies".toList = .ok bodies ∧
    List.Forall₂ (fun m m' => m'.1 = m.1 ∧ SpecMember params bodies m.1 m.2 m'.2) members members'

section

variable {params bodies : List (Str × Json)} {ir : InvalidRead}

/-! ### Reading them -/

theorem atKey_rel {V : Str → Json → Json → Prop} {members members' : Record Str Json}
    (h : List.Forall₂ (fun m m' => m'.1 = m.1 ∧ V m.1 m.2 m'.2) members members') (key : Str) :
    OkRel (Option.Rel (V key)) (atKey ir (some members) key) (atKey ir (some members') key) := by
  intro a ha
  obtain rfl := Except.ok.inj ha
  exact ⟨_, rfl, Record.find_rel h key⟩

theorem atKey_same {V : Str → Json → Json → Prop} {members members' : Record Str Json}
    (h : List.Forall₂ (fun m m' => m'.1 = m.1 ∧ V m.1 m.2 m'.2) members members') {key : Str}
    (hkey : ∀ v v', V key v v' → v' = v) : atKey ir (some members') key = atKey ir (some members) key := by
  have hrel := Record.find_rel h key
  have hsame : Record.find members' key = Record.find members key := by
    generalize Record.find members key = v at hrel ⊢
    generalize Record.find members' key = v' at hrel ⊢
    cases hrel with
    | none => rfl
    | some hv => rw [hkey _ _ hv]
  rw [atKey, atKey, hsame]

theorem listField_rel {V : Str → Json → Json → Prop} {E : Json → Json → Prop}
    (hE : ∀ v, E v v) {members members' : Record Str Json}
    (h : List.Forall₂ (fun m m' => m'.1 = m.1 ∧ V m.1 m.2 m'.2) members members') {key : Str}
    (hkey : V key = ItemsRel E) :
    OkRel (List.Forall₂ E) (listField ir (some members) key) (listField ir (some members') key) := by
  refine (atKey_rel h key).bind fun v v' hv => ?_
  cases hv with
  | none => exact .pure .nil
  | @some v v' hv =>
    rw [hkey] at hv
    cases hv with
    | same =>
      intro a ha
      exact ⟨a, ha, List.forall₂_same.mpr fun x _ => hE x⟩
    | arr hitems => exact .pure hitems

theorem ref_eq {members : Record Str Json} {r : Str}
    (h : Record.find members "$ref".toList = some (.str r)) : JsonObject.ref ir (some members) = .ok r := by
  rw [JsonObject.ref, stringField, getValueIfExist, atKey, h]
  rfl

theorem ref_eq_nil {members : Record Str Json}
    (h : ∀ s, Record.find members "$ref".toList = some (.str s) → s = []) :
    JsonObject.ref ir (some members) = .ok [] := by
  rw [JsonObject.ref, stringField, getValueIfExist, atKey]
  cases hr : Record.find members "$ref".toList with
  | none => rfl
  | some v =>
    cases v with
    | str s => rw [h s hr]; rfl
    | _ => rfl

/-! ### The components that have been read -/

/-- What a loop over components has stored for a name that stands for one component. -/
theorem find_of_foldlM {ν : Type} (read : Json → Except Fault (Option ν))
    {step : Table Str ν → Str × Json → Except Fault (Table Str ν)}
    (hstep : ∀ {t e t'}, step t e = .ok t' →
      ∃ r, read e.2 = .ok r ∧ ∀ n, t'.find n = if n = e.1 then r.or (t.find n) else t.find n)
    {n : Str} {v : Json} {comps : List (Str × Json)} (huniq : ∀ q, (n, q) ∈ comps → q = v)
    {t t' : Table Str ν} (h : comps.foldlM step t = .ok t') :
    (n ∈ comps.map Prod.fst → ∃ r, read v = .ok r ∧ t'.find n = r.or (t.find n)) ∧
      (n ∉ comps.map Prod.fst → t'.find n = t.find n) := by
  induction comps generalizing t with
  | nil =>
    obtain rfl := pure_eq_ok.mp h
    exact ⟨by simp, fun _ => rfl⟩
  | cons e comps ih =>
    rw [List.foldlM_cons] at h
    obtain ⟨t₁, h₁, h⟩ := bind_eq_ok.mp h
    obtain ⟨r, hread, hfind⟩ := hstep h₁
    obtain ⟨hin, hout⟩ := ih (fun q hq => huniq q (List.mem_cons_of_mem _ hq)) h
    rw [List.map_cons]
    by_cases hn : n = e.1
    · have hv : e.2 = v := huniq e.2 (by rw [hn]; exact List.mem_cons_self ..)
      refine ⟨fun _ => ⟨r, hv ▸ hread, ?_⟩, fun hno => absurd (hn ▸ List.mem_cons_self ..) hno⟩
      rw [hv] at hread
      by_cases hmem : n ∈ comps.map Prod.fst
      · obtain ⟨r', hread', hfind'⟩ := hin hmem
        obtain rfl := Except.ok.inj (hread.symm.trans hread')
        rw [hfind', hfind, if_pos hn]
        cases r <;> rfl
      · rw [hout hmem, hfind, if_pos hn]
    · have hsame : t₁.find n = t.find n := by rw [hfind, if_neg hn]
      rw [List.mem_cons, ← hsame]
      exact ⟨fun h => hin (h.resolve_left hn), fun h => hout fun hmem => h (.inr hmem)⟩

/-- The components of a document whose context has been read. -/
structure ComponentsRead (ir : InvalidRead) (params bodies : List (Str × Json)) (ctx : EndpointContext) :
    Prop where
  param : ∀ {n v}, (n, v) ∈ params → (∀ q, (n, q) ∈ params → q = v) →
    ∃ cp, fetchParameter ir (ofMember v) = .ok cp ∧ ctx.fetched_params.find n = some cp
  body : ∀ {n v}, (n, v) ∈ bodies → (∀ q, (n, q) ∈ bodies → q = v) →
    bodySchemaName ir (ofMember v) = .ok (ctx.body_schema_names.find n)

theorem readContext_components {spec components : JsonObject} {ctx : EndpointContext}
    (hcomponents : objectField ir spec "components".toList = .ok components)
    (hparams : mapField ir components "parameters".toList = .ok params)
    (hbodies : mapField ir components "requestBodies".toList = .ok bodies)
    (hctx : readContext ir spec = .ok ctx) : ComponentsRead ir params bodies ctx := by
  unfold readContext at hctx
  rw [hcomponents] at hctx
  obtain ⟨components', hc, h⟩ := bind_eq_ok.mp hctx
  obtain rfl := Except.ok.inj hc
  obtain ⟨params', hp, h⟩ := bind_eq_ok.mp h
  obtain rfl := Except.ok.inj (hparams.symm.trans hp)
  obtain ⟨fetched, hfetched, h⟩ := bind_eq_ok.mp h
  obtain ⟨bodies', hb, h⟩ := bind_eq_ok.mp h
  obtain rfl := Except.ok.inj (hbodies.symm.trans hb)
  obtain ⟨names, hnames, h⟩ := bind_eq_ok.mp h
  obtain ⟨schemes, -, h⟩ := bind_eq_ok.mp h
  obtain ⟨infos, -, h⟩ := bind_eq_ok.mp h
  obtain ⟨global, -, h⟩ := bind_eq_ok.mp h
  obtain rfl := pure_eq_ok.mp h
  constructor
  · intro n v hmem huniq
    have hfound := (find_of_foldlM (fun v => some <$> fetchParameter ir (ofMember v)) (fun {t e t'} hstep => by
      obtain ⟨cp, hcp, hstep⟩ := bind_eq_ok.mp hstep
      obtain rfl := pure_eq_ok.mp hstep
      refine ⟨some cp, by rw [hcp]; rfl, fun n => ?_⟩
      rw [Table.find_set]
      rfl) huniq hfetched).1 (List.mem_map_of_mem hmem)
    obtain ⟨r, hread, hfind⟩ := hfound
    cases hcp : fetchParameter ir (ofMember v) with
    | error fault => rw [hcp] at hread; cases hread
    | ok cp =>
      rw [hcp] at hread
      obtain rfl := Except.ok.inj hread
      exact ⟨cp, rfl, hfind⟩
  · intro n v hmem huniq
    have hfound := (find_of_foldlM (fun v => bodySchemaName ir (ofMember v)) (fun {t e t'} hstep => by
      obtain ⟨r, hr, hstep⟩ := bind_eq_ok.mp hstep
      refine ⟨r, hr, fun n => ?_⟩
      cases r with
      | none =>
        obtain rfl := pure_eq_ok.mp hstep
        simp
      | some name =>
        obtain rfl := pure_eq_ok.mp hstep
        rw [Table.find_set]
        rfl) huniq hnames).1 (List.mem_map_of_mem hmem)
    obtain ⟨r, hread, hfind⟩ := hfound
    rw [hread, hfind, Table.find_empty, Option.or_none]

/-! ### A parameter, read in place -/

/-- The flags of a parameter that is read in place. -/
def ClientParam.withFlags (cp : ClientParam) : ClientParam :=
  { cp with
    is_string_type := decide ("string".toList <:+: cp.cpp_type)
    is_vector_type := decide ("vector".toList <:+: cp.cpp_type)
    is_vector_string_type := decide ("vector".toList <:+: cp.cpp_type) &&
      decide ("string".toList <:+: cp.cpp_type) }

def PlainType (cpp_type : Str) : Prop := ¬ "string".toList <:+: cpp_type ∧ ¬ "vector".toList <:+: cpp_type

/-- A parameter as `fetchParameter` returns it. -/
def ClientParam.Unflagged (cp : ClientParam) : Prop :=
  cp.is_string_type = false ∧ cp.is_vector_type = false ∧ cp.is_vector_string_type = false

theorem withFlags_eq_self {cp : ClientParam} (h : cp.Unflagged) : cp.withFlags = cp ↔ PlainType cp.cpp_type := by
  constructor
  · intro heq
    have hstring : decide ("string".toList <:+: cp.cpp_type) = false :=
      (congrArg ClientParam.is_string_type heq).trans h.1
    have hvector : decide ("vector".toList <:+: cp.cpp_type) = false :=
      (congrArg ClientParam.is_vector_type heq).trans h.2.1
    exact ⟨of_decide_eq_false hstring, of_decide_eq_false hvector⟩
  · rintro ⟨hstring, hvector⟩
    cases cp
    simp_all [ClientParam.withFlags, ClientParam.Unflagged]

theorem unflagged_of_fetchParameter {o : JsonObject} {cp : ClientParam} (h : fetchParameter ir o = .ok cp) :
    cp.Unflagged := by
  obtain ⟨_, _, _, _, _, _, _, rfl⟩ := fetchParameter_cases h
  exact ⟨rfl, rfl, rfl⟩

/-- A parameter of the components that is read in place gets its flags. -/
theorem resolveParameter_of_fetchParameter {o : JsonObject} {cp : ClientParam}
    (h : fetchParameter ir o = .ok cp) (href : JsonObject.ref ir o = .ok [])
    (fetched_params : Table Str ClientParam) :
    resolveParameter ir o fetched_params = .ok cp.withFlags := by
  obtain ⟨name, hname, h⟩ := bind_eq_ok.mp h
  obtain ⟨location, hlocation, h⟩ := bind_eq_ok.mp h
  obtain ⟨required, hrequired, h⟩ := bind_eq_ok.mp h
  obtain ⟨description, hdescription, h⟩ := bind_eq_ok.mp h
  obtain ⟨schema, hschema, h⟩ := bind_eq_ok.mp h
  obtain ⟨schema_type, htype, h⟩ := bind_eq_ok.mp h
  obtain ⟨format, hformat, h⟩ := bind_eq_ok.mp h
  obtain ⟨cpp_type, hcpp, h⟩ := bind_eq_ok.mp h
  obtain rfl := pure_eq_ok.mp h
  unfold resolveParameter readParameter
  rw [href, hname, hdescription, hschema, hlocation, hrequired]
  simp only [bind, Except.bind, htype, hformat, hcpp]
  rfl

def resolveItem (ir : InvalidRead) (fetched_params : Table Str ClientParam) (item : Json) :
    Except Fault ClientParam := do
  let raw_param ← ofElement item
  resolveParameter ir raw_param fetched_params

/-- The two readings of a parameter that may have been a reference. -/
theorem inlined_param {ctx : EndpointContext} (hread : ComponentsRead ir params bodies ctx) {v v' : Json}
    (h : Inlined params v v') :
    OkRel (fun cp cp' => (v' = v ∧ cp' = cp) ∨ (v' ≠ v ∧ cp.Unflagged ∧ cp' = cp.withFlags))
      (resolveItem ir ctx.fetched_params v) (resolveItem ir ctx.fetched_params v') := by
  cases h with
  | same => exact fun cp hcp => ⟨cp, hcp, .inl ⟨rfl, rfl⟩⟩
  | @component members members' r href hne hmem huniq hplain =>
    obtain ⟨cp, hcp, hfind⟩ := hread.param hmem huniq
    have hplace := resolveParameter_of_fetchParameter hcp (ref_eq_nil hplain) ctx.fetched_params
    intro a ha
    have ha : resolveParameter ir (some members) ctx.fetched_params = .ok a := ha
    rw [resolveParameter, ref_eq href] at ha
    have hempty : r.isEmpty = false := by simpa using hne
    simp only [bind, Except.bind, hempty, hfind] at ha
    obtain rfl := pure_eq_ok.mp ha
    refine ⟨_, hplace, .inr ⟨fun heq => ?_, unflagged_of_fetchParameter hcp, rfl⟩⟩
    obtain rfl := Json.obj.inj heq
    exact hne (hplain r href)

/-! ### A request body, read in place -/

/-- Two request bodies: the same, or a reference and the component it names. -/
def BodyInlined (bodies : List (Str × Json)) (b b' : JsonObject) : Prop :=
  b' = b ∨ ∃ members members', b = some members ∧ b' = some members' ∧
    Inlined bodies (.obj members) (.obj members')

/-- The two readings of a body are the same: it has not been replaced, or the first content type of the
component is the empty text and its C++ type is not. -/
def BodyNeutral (ir : InvalidRead) (b b' : JsonObject) : Prop :=
  b' = b ∨ ∃ mt rest, content ir b' = .ok (([], mt) :: rest) ∧ bodySchemaName ir b' ≠ .ok (some [])

theorem bodySchemaName_cases {b : JsonObject} {name : Option Str} (h : bodySchemaName ir b = .ok name) :
    (content ir b = .ok [] ∧ name = none) ∨
      ∃ ct mt rest schema t, content ir b = .ok ((ct, mt) :: rest) ∧
        JsonObject.schema ir (ofMember mt) = .ok schema ∧ schemaToCppType ir schema = .ok t ∧
          name = some t := by
  obtain ⟨content, hcontent, h⟩ := bind_eq_ok.mp h
  cases content with
  | nil => exact .inl ⟨hcontent, (pure_eq_ok.mp h).symm⟩
  | cons e rest =>
    obtain ⟨schema, hschema, h⟩ := bind_eq_ok.mp h
    obtain ⟨r, hr, h⟩ := bind_eq_ok.mp h
    refine .inr ⟨e.1, e.2, rest, schema, ?_⟩
    split at h
    · -- a reference: `schemaToCppType` gives the same name
      rename_i htrue
      obtain ⟨ref, href, h⟩ := bind_eq_ok.mp h
      refine ⟨refComponentName ref, hcontent, hschema, ?_, (pure_eq_ok.mp h).symm⟩
      unfold schemaToCppType
      rw [hr, htrue, href]
      rfl
    · obtain ⟨t, ht, h⟩ := bind_eq_ok.mp h
      exact ⟨t, hcontent, hschema, ht, (pure_eq_ok.mp h).symm⟩

/-- The schema that is missing is read as a string, if it is read at all. -/
theorem schemaToCppType_none {t : Str} (h : schemaToCppType ir none = .ok t) : t = "std::string".toList := by
  cases ir with
  | crash => cases h
  | noSuchField => exact (Except.ok.inj h).symm

/-- Of the record of an operation `readBody` only writes what it knows of the body. -/
theorem readBody_frame {b : JsonObject} {co co' : ColOp} (h : readBody ir b co = .ok co') :
    co' = { co with
      hasRequestBody := co'.hasRequestBody, bodyType := co'.bodyType
      bodyContentType := co'.bodyContentType, bodyRef := co'.bodyRef } := by
  unfold readBody at h
  split at h
  · obtain rfl := pure_eq_ok.mp h
    rfl
  · obtain ⟨ref, -, h⟩ := bind_eq_ok.mp h
    split at h
    · obtain rfl := pure_eq_ok.mp h
      rfl
    · obtain ⟨content, -, h⟩ := bind_eq_ok.mp h
      split at h
      · obtain rfl := pure_eq_ok.mp h
        rfl
      · obtain ⟨schema, -, h⟩ := bind_eq_ok.mp h
        dsimp only at h
        split at h
        all_goals
          obtain ⟨bodyType, -, h⟩ := bind_eq_ok.mp h
          obtain rfl := pure_eq_ok.mp h
          rfl

theorem readBody_op_params {b : JsonObject} {co c : ColOp} (h : readBody ir b co = .ok c)
    (op_params : List ClientParam) :
    readBody ir b { co with op_params } = .ok { c with op_params } := by
  unfold readBody at h ⊢
  split at h
  · rename_i hnone
    obtain rfl := pure_eq_ok.mp h
    rw [if_pos hnone]
    rfl
  · rename_i hsome
    rw [if_neg hsome]
    obtain ⟨ref, href, h⟩ := bind_eq_ok.mp h
    refine bind_eq_ok.mpr ⟨ref, href, ?_⟩
    split at h
    · rename_i hne
      obtain rfl := pure_eq_ok.mp h
      rw [if_pos hne]
      rfl
    · rename_i hempty
      rw [if_neg hempty]
      obtain ⟨content, hcontent, h⟩ := bind_eq_ok.mp h
      refine bind_eq_ok.mpr ⟨content, hcontent, ?_⟩
      cases content with
      | nil =>
        obtain rfl := pure_eq_ok.mp h
        rfl
      | cons e rest =>
        obtain ⟨schema, hschema, h⟩ := bind_eq_ok.mp h
        refine bind_eq_ok.mpr ⟨schema, hschema, ?_⟩
        dsimp only at h ⊢
        split at h
        all_goals
          rename_i hvalid
          simp only [hvalid, if_true, if_false, Bool.false_eq_true]
          obtain ⟨bodyType, hbody, h⟩ := bind_eq_ok.mp h
          refine bind_eq_ok.mpr ⟨bodyType, hbody, ?_⟩
          obtain rfl := pure_eq_ok.mp h
          rfl

theorem readBody_ref {members : Record Str Json} {r : Str}
    (href : Record.find members "$ref".toList = some (.str r)) (hne : r ≠ []) (co : ColOp) :
    readBody ir (some members) co =
      .ok { co with hasRequestBody := true, bodyRef := some (refComponentName r) } := by
  have hread : stringField ir (some members) "$ref".toList = .ok r := ref_eq href
  have hempty : r.isEmpty = false := by simpa using hne
  unfold readBody
  simp only [Option.isNone_some, Bool.false_eq_true, if_false, hread, bind, Except.bind, hempty,
    Bool.not_false, if_true]
  rfl

theorem readBody_nil {members : Record Str Json}
    (hplain : ∀ s, Record.find members "$ref".toList = some (.str s) → s = [])
    (hcontent : content ir (some members) = .ok []) (co : ColOp) :
    readBody ir (some members) co = .ok { co with hasRequestBody := true } := by
  have hread : stringField ir (some members) "$ref".toList = .ok [] := ref_eq_nil hplain
  unfold readBody
  simp only [Option.isNone_some, Bool.false_eq_true, if_false, hread, bind, Except.bind,
    List.isEmpty_nil, Bool.not_true, hcontent]
  rfl

theorem readBody_cons {members : Record Str Json}
    (hplain : ∀ s, Record.find members "$ref".toList = some (.str s) → s = []) {ct : Str} {mt : Json}
    {rest : List (Str × Json)} {schema : JsonObject} {t : Str}
    (hcontent : content ir (some members) = .ok ((ct, mt) :: rest))
    (hschema : JsonObject.schema ir (ofMember mt) = .ok schema) (ht : schemaToCppType ir schema = .ok t)
    (co : ColOp) :
    readBody ir (some members) co = .ok { co with
      hasRequestBody := true, bodyContentType := ct
      bodyType := if t = [] then "std::string".toList else t } := by
  have hread : stringField ir (some members) "$ref".toList = .ok [] := ref_eq_nil hplain
  unfold readBody
  simp only [Option.isNone_some, Bool.false_eq_true, if_false, hread, bind, Except.bind,
    List.isEmpty_nil, Bool.not_true, hcontent, hschema]
  cases schema with
  | none =>
    obtain rfl := schemaToCppType_none ht
    rfl
  | some m =>
    simp only [Option.isSome_some, if_true, ht, List.isEmpty_iff]
    rfl

theorem endpointBody_ref {ctx : EndpointContext} {n : Str} {t : Option Str}
    (h : ctx.body_schema_names.find n = t) (co : ColOp) :
    endpointBody ctx { co with hasRequestBody := true, bodyRef := some n } = (t.isSome, t.getD [], []) := by
  simp only [endpointBody, if_true, h]
  cases t <;> rfl

theorem endpointBody_place {ctx : EndpointContext} {co : ColOp} (hbody : co.hasRequestBody = true)
    (href : co.bodyRef = none) : endpointBody ctx co = (true, co.bodyType, co.bodyContentType) := by
  simp only [endpointBody, hbody, if_true, href]

/-- A body that is a reference, and the component it names. -/
theorem component_body {ctx : EndpointContext} {members : Record Str Json} {n : Str}
    (hplain : ∀ s, Record.find members "$ref".toList = some (.str s) → s = [])
    (hname : bodySchemaName ir (some members) = .ok (ctx.body_schema_names.find n)) {co : ColOp}
    (href : co.bodyRef = none) :
    ∃ c', readBody ir (some members) co = .ok c' ∧
      (endpointBody ctx { co with hasRequestBody := true, bodyRef := some n } = endpointBody ctx c' ↔
        ∃ mt rest, content ir (some members) = .ok (([], mt) :: rest) ∧
          bodySchemaName ir (some members) ≠ .ok (some [])) := by
  rcases bodySchemaName_cases hname with ⟨hcontent, hnone⟩ |
    ⟨ct, mt, rest, schema, t, hcontent, hschema, ht, hsome⟩
  · refine ⟨_, readBody_nil hplain hcontent co, iff_of_false (fun heq => ?_) ?_⟩
    · have hplace : endpointBody ctx { co with hasRequestBody := true } =
          (true, co.bodyType, co.bodyContentType) := endpointBody_place rfl href
      rw [endpointBody_ref hnone co, hplace] at heq
      exact absurd (Prod.mk.inj heq).1 (by decide)
    · rintro ⟨mt, rest, hcons, -⟩
      exact absurd (Except.ok.inj (hcontent.symm.trans hcons)) (by simp)
  · refine ⟨_, readBody_cons hplain hcontent hschema ht co, ?_⟩
    rw [hsome] at hname
    have hplace : endpointBody ctx { co with
        hasRequestBody := true, bodyContentType := ct
        bodyType := if t = [] then "std::string".toList else t } =
          (true, if t = [] then "std::string".toList else t, ct) := endpointBody_place rfl href
    rw [endpointBody_ref hsome co, hplace]
    constructor
    · intro heq
      obtain ⟨htt, hct⟩ := Prod.mk.inj (Prod.mk.inj heq).2
      refine ⟨mt, rest, hct ▸ hcontent, fun hnil => ?_⟩
      obtain rfl := Option.some.inj (Except.ok.inj (hname.symm.trans hnil))
      exact absurd htt (by decide)
    · rintro ⟨mt', rest', hcons, hnil⟩
      have hfirst := (List.cons.inj (Except.ok.inj (hcontent.symm.trans hcons))).1
      have hct : ct = [] := (Prod.mk.inj hfirst).1
      have htt : t ≠ [] := fun ht => hnil (ht ▸ hname)
      rw [if_neg htt, hct]
      rfl

/-- The two readings of a body that may have been a reference. -/
theorem inlined_body {ctx : EndpointContext} (hread : ComponentsRead ir params bodies ctx)
    {b b' : JsonObject} (h : BodyInlined bodies b b') {co : ColOp} (href : co.bodyRef = none) :
    OkRel (fun c c' => endpointBody ctx c = endpointBody ctx c' ↔ BodyNeutral ir b b')
      (readBody ir b co) (readBody ir b' co) := by
  rcases h with rfl | ⟨members, members', rfl, rfl, h⟩
  · exact fun c hc => ⟨c, hc, iff_of_true rfl (.inl rfl)⟩
  · generalize hv : Json.obj members = v at h
    generalize hv' : Json.obj members' = v' at h
    cases h with
    | same =>
      obtain rfl := Json.obj.inj (hv.trans hv'.symm)
      exact fun c hc => ⟨c, hc, iff_of_true rfl (.inl rfl)⟩
    | @component ms ms' r hr hne hmem huniq hplain =>
      obtain rfl := Json.obj.inj hv
      obtain rfl := Json.obj.inj hv'
      have hreplaced : some members' ≠ some members := fun heq => by
        obtain rfl := Option.some.inj heq
        exact hne (hplain r hr)
      intro c hc
      obtain rfl := Except.ok.inj ((readBody_ref hr hne co).symm.trans hc)
      obtain ⟨c', hc', hiff⟩ := component_body hplain (hread.body hmem huniq) href
      refine ⟨c', hc', hiff.trans ?_⟩
      rw [BodyNeutral, or_iff_right hreplaced]

/-! ### Operations and path items -/

/-- What the two operations have in common: the fields that are not replaced. -/
structure OperationViews (ir : InvalidRead) (params bodies : List (Str × Json)) (o o' : JsonObject) :
    Prop where
  parameters : OkRel (List.Forall₂ (Inlined params)) (JsonObject.parameters ir o)
    (JsonObject.parameters ir o')
  requestBody : OkRel (BodyInlined bodies) (JsonObject.requestBody ir o) (JsonObject.requestBody ir o')
  atKey : ∀ key, key ≠ "parameters".toList → key ≠ "requestBody".toList →
    JsonObject.atKey ir o' key = JsonObject.atKey ir o key

theorem OperationViews.refl (o : JsonObject) : OperationViews ir params bodies o o where
  parameters items h := ⟨items, h, List.forall₂_same.mpr fun item _ => .same item⟩
  requestBody b h := ⟨b, h, .inl rfl⟩
  atKey _ _ _ := rfl

theorem requestBody_rel {members members' : Record Str Json}
    (h : List.Forall₂ (fun m m' => m'.1 = m.1 ∧ OperationMember params bodies m.1 m.2 m'.2) members members') :
    OkRel (BodyInlined bodies) (JsonObject.requestBody ir (some members))
      (JsonObject.requestBody ir (some members')) := by
  refine (atKey_rel h _).bind fun v v' hv => ?_
  cases hv with
  | none => exact .pure (.inl rfl)
  | @some v v' hv =>
    have hne : "requestBody".toList ≠ "parameters".toList := by decide
    rw [OperationMember, if_neg hne, if_pos rfl] at hv
    cases hv with
    | same => exact fun b hb => ⟨b, hb, .inl rfl⟩
    | component href hne hmem huniq hplain =>
      exact .pure (.inr ⟨_, _, rfl, rfl, .component href hne hmem huniq hplain⟩)

theorem operationViews_of_members {v v' : Json} (h : MembersRel (OperationMember params bodies) v v') :
    OperationViews ir params bodies (ofMember v) (ofMember v') := by
  cases h with
  | same => exact .refl _
  | @obj members members' h =>
    refine ⟨listField_rel .same h (if_pos rfl), requestBody_rel h, fun key hparams hbody => ?_⟩
    refine atKey_same h fun v v' hv => ?_
    rwa [OperationMember, if_neg hparams, if_neg hbody] at hv

/-- What stands in a path item under any key is read as an operation. -/
theorem operationViews_of_pathItem {key : Str} {v v' : Json} (h : PathItemMember params bodies key v v') :
    OperationViews ir params bodies (ofMember v) (ofMember v') := by
  unfold PathItemMember at h
  split at h
  · cases h with
    | same => exact .refl _
    | arr _ => exact .refl none
  · exact operationViews_of_members h

def paramItems (ir : InvalidRead) (o : JsonObject) : List Json :=
  match JsonObject.parameters ir o with
  | .ok items => items
  | .error _ => []

def bodyOf (ir : InvalidRead) (o : JsonObject) : JsonObject :=
  match JsonObject.requestBody ir o with
  | .ok b => b
  | .error _ => none

def paramOf (ir : InvalidRead) (fetched_params : Table Str ClientParam) (item : Json) : ClientParam :=
  match resolveItem ir fetched_params item with
  | .ok cp => cp
  | .error _ => {}

theorem paramItems_eq {o : JsonObject} {items : List Json} (h : JsonObject.parameters ir o = .ok items) :
    paramItems ir o = items := by
  rw [paramItems, h]

theorem bodyOf_eq {o b : JsonObject} (h : JsonObject.requestBody ir o = .ok b) : bodyOf ir o = b := by
  rw [bodyOf, h]

theorem paramOf_eq {fetched_params : Table Str ClientParam} {item : Json} {cp : ClientParam}
    (h : resolveItem ir fetched_params item = .ok cp) : paramOf ir fetched_params item = cp := by
  rw [paramOf, h]

theorem resolveParameters_eq {fetched_params : Table Str ClientParam} {items : List Json}
    {cps : List ClientParam} (h : resolveParameters ir fetched_params items = .ok cps) :
    cps = items.map (paramOf ir fetched_params) := by
  have hitems : List.Forall₂ (fun item cp => resolveItem ir fetched_params item = .ok cp) items cps :=
    mapM_eq_ok.mp h
  refine (List.forall₂_eq_eq_eq ▸ List.forall₂_map_left_iff.mpr (hitems.imp fun item cp hcp => ?_) :
    items.map (paramOf ir fetched_params) = cps).symm
  exact paramOf_eq hcp

/-- The two readings of an item: the same, or that of a component, without its flags and with them. -/
def ParamReadings (ir : InvalidRead) (fetched_params : Table Str ClientParam) (item item' : Json) : Prop :=
  item' = item ∨ (item' ≠ item ∧ (paramOf ir fetched_params item).Unflagged ∧
    paramOf ir fetched_params item' = (paramOf ir fetched_params item).withFlags)

theorem readOperation_method {fetched_params : Table Str ClientParam} {path method : Str} {o : JsonObject}
    {co : ColOp} (h : readOperation ir fetched_params path method o = .ok co) : co.method = method := by
  obtain ⟨summary, -, h⟩ := bind_eq_ok.mp h
  obtain ⟨description, -, h⟩ := bind_eq_ok.mp h
  obtain ⟨items, -, h⟩ := bind_eq_ok.mp h
  obtain ⟨op_params, -, h⟩ := bind_eq_ok.mp h
  obtain ⟨b, -, h⟩ := bind_eq_ok.mp h
  obtain ⟨c, hc, h⟩ := bind_eq_ok.mp h
  obtain ⟨hasOpSecurity, -, h⟩ := bind_eq_ok.mp h
  obtain rfl := pure_eq_ok.mp h
  rw [readBody_frame hc]

section

variable {ctx : EndpointContext} (hread : ComponentsRead ir params bodies ctx)

include hread

theorem resolveParameters_rel {items items' : List Json} (h : List.Forall₂ (Inlined params) items items') :
    OkRel (fun _ _ => List.Forall₂ (ParamReadings ir ctx.fetched_params) items items')
      (resolveParameters ir ctx.fetched_params items) (resolveParameters ir ctx.fetched_params items') := by
  induction h with
  | nil => exact .pure .nil
  | @cons item item' items items' hitem _ ih =>
    intro cps hcps
    rw [resolveParameters, List.mapM_cons] at hcps
    obtain ⟨cp, hcp, hcps⟩ := bind_eq_ok.mp hcps
    obtain ⟨rest, hrest, hcps⟩ := bind_eq_ok.mp hcps
    obtain ⟨cp', hcp', hreadings⟩ := inlined_param hread hitem cp hcp
    obtain ⟨rest', hrest', hreadings'⟩ := ih rest hrest
    refine ⟨cp' :: rest', ?_, .cons ?_ hreadings'⟩
    · rw [resolveParameters, List.mapM_cons]
      exact bind_eq_ok.mpr ⟨cp', hcp', bind_eq_ok.mpr ⟨rest', hrest', rfl⟩⟩
    · rw [ParamReadings, paramOf_eq hcp, paramOf_eq hcp']
      exact hreadings.imp And.left id

/-- What the records of two operations have in common, when one is the other with references replaced. -/
structure OperationRel (ir : InvalidRead) (ctx : EndpointContext) (o o' : JsonObject) (co co' : ColOp) :
    Prop where
  path : co'.path = co.path
  method : co'.method = co.method
  summary : co'.summary = co.summary
  description : co'.description = co.description
  security : co'.hasOpSecurity = co.hasOpSecurity
  params : co.op_params = (paramItems ir o).map (paramOf ir ctx.fetched_params)
  params' : co'.op_params = (paramItems ir o').map (paramOf ir ctx.fetched_params)
  readings : List.Forall₂ (ParamReadings ir ctx.fetched_params) (paramItems ir o) (paramItems ir o')
  body : endpointBody ctx co = endpointBody ctx co' ↔ BodyNeutral ir (bodyOf ir o) (bodyOf ir o')

theorem readOperation_rel {o o' : JsonObject} (h : OperationViews ir params bodies o o') (path method : Str) :
    OkRel (OperationRel ir ctx o o') (readOperation ir ctx.fetched_params path method o)
      (readOperation ir ctx.fetched_params path method o') := by
  have hsummary : JsonObject.summary ir o' = JsonObject.summary ir o := by
    rw [JsonObject.summary, stringField, getValueIfExist, h.atKey _ (by decide) (by decide)]
    rfl
  have hdescription : JsonObject.description ir o' = JsonObject.description ir o := by
    rw [JsonObject.description, stringField, getValueIfExist, h.atKey _ (by decide) (by decide)]
    rfl
  have hsecurity : hasKey ir o' "security".toList = hasKey ir o "security".toList := by
    rw [hasKey, h.atKey _ (by decide) (by decide)]
    rfl
  unfold readOperation
  rw [hsummary, hdescription, hsecurity]
  refine .bind_same fun summary _ => .bind_same fun description _ => ?_
  intro co hco
  obtain ⟨items, hitems, hco⟩ := bind_eq_ok.mp hco
  obtain ⟨op_params, hparams, hco⟩ := bind_eq_ok.mp hco
  obtain ⟨b, hb, hco⟩ := bind_eq_ok.mp hco
  obtain ⟨c, hc, hco⟩ := bind_eq_ok.mp hco
  obtain ⟨hasOpSecurity, hsec, hco⟩ := bind_eq_ok.mp hco
  obtain rfl := pure_eq_ok.mp hco
  obtain ⟨items', hitems', hinlined⟩ := h.parameters items hitems
  obtain ⟨op_params', hparams', hreadings⟩ := resolveParameters_rel hread hinlined op_params hparams
  obtain ⟨b', hb', hbodies⟩ := h.requestBody b hb
  obtain ⟨c', hc', hiff⟩ := inlined_body hread hbodies rfl c hc
  have hplace := readBody_op_params hc' op_params'
  refine ⟨{ c' with op_params := op_params', hasOpSecurity }, ?_, ?_⟩
  · exact bind_eq_ok.mpr ⟨items', hitems', bind_eq_ok.mpr ⟨op_params', hparams', bind_eq_ok.mpr ⟨b', hb',
      bind_eq_ok.mpr ⟨_, hplace, bind_eq_ok.mpr ⟨hasOpSecurity, hsec, rfl⟩⟩⟩⟩⟩
  · have hframe := readBody_frame hc
    have hframe' := readBody_frame hc'
    rw [hframe, hframe']
    exact {
      path := rfl, method := rfl, summary := rfl, description := rfl, security := rfl
      params := by rw [paramItems_eq hitems]; exact resolveParameters_eq hparams
      params' := by rw [paramItems_eq hitems']; exact resolveParameters_eq hparams'
      readings := by rw [paramItems_eq hitems, paramItems_eq hitems']; exact hreadings
      body := by
        rw [bodyOf_eq hb, bodyOf_eq hb', ← hiff]
        rfl }

end

end

end Siesta
