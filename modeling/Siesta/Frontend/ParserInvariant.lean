import Siesta.Frontend.SchemaParser
import Siesta.Lib.Growing

/-!
# What the parser leaves in the AST

`ParseInv` holds of the parser's state at every return, an exception included: the names the parser
has made up are names of the AST, and each reference of a stored type is written with a primitive
type, a name the parser has made up, or the target of a `$ref` of the document.  Each of the six
functions keeps it (`Keeps`), provided the schemas inside are parsed so.
-/

namespace Siesta

open Lib JsonObject

instance : Preorder ParseState where
  le s s' := (∀ n ∈ s.added_types, n ∈ s'.added_types) ∧ (∀ n ∈ s.ast, n ∈ s'.ast) ∧ s.placed <+: s'.placed
  le_refl s := ⟨fun _ h => h, fun _ h => h, List.prefix_rfl⟩
  le_trans s s' s'' h h' :=
    ⟨fun n hn => h'.1 n (h.1 n hn), fun n hn => h'.2.1 n (h.2.1 n hn), h.2.2.trans h'.2.2⟩

/-! ### References -/

section

-- The targets of the `$ref`s of the document.
variable (T : Set Str)

/-- A name that stands by itself: a primitive type, a name made up by the parser, or a target. -/
def KnownName (s : ParseState) (x : Str) : Prop := x ∈ primitiveCppTypes ∨ x ∈ s.added_types ∨ x ∈ T

/-- A reference without a container.  Only a `$ref` and a base are not inline. -/
def PlainRef (s : ParseState) (ref : TypeRef) : Prop :=
  (ref.is_inline = true ∧ (ref.name ∈ primitiveCppTypes ∨ ref.name ∈ s.added_types)) ∨
    (ref.is_inline = false ∧ (ref.name ∈ s.added_types ∨ ref.name ∈ T))

/-- A reference of the parser: plain, or the text of one vector. -/
def KnownRef (s : ParseState) (ref : TypeRef) : Prop :=
  PlainRef T s ref ∨ (ref.is_inline = true ∧ ∃ x, KnownName T s x ∧ x ≠ [] ∧ ref.name = vectorOf x)

/-- The references of a type the parser returns.  It returns no map, and writes an enumeration as a
primitive type. -/
def KnownType (s : ParseState) : SchemaType → Prop
  | .struct t =>
    (∀ field ∈ t.fields, KnownRef T s field.type) ∧
      ∀ base ∈ t.allOf_bases, base.is_inline = false ∧ PlainRef T s base
  | .variant t => ∀ alt ∈ t.alternatives, KnownRef T s alt
  | .array t => PlainRef T s t.element_type
  | .map _ => False
  | .enum _ => False
  | .primitive _ => True

theorem KnownName.mono (x : Str) : Monotone fun s => KnownName T s x := fun _ _ hle h =>
  h.imp_right (Or.imp_left (hle.1 x))

theorem PlainRef.mono (ref : TypeRef) : Monotone fun s => PlainRef T s ref := fun _ _ hle h =>
  h.imp (And.imp_right (Or.imp_right (hle.1 _))) (And.imp_right (Or.imp_left (hle.1 _)))

theorem KnownRef.mono (ref : TypeRef) : Monotone fun s => KnownRef T s ref := by
  intro s s' hle h
  rcases h with h | ⟨hinline, x, hx, hne, htext⟩
  · exact .inl (PlainRef.mono T ref hle h)
  · exact .inr ⟨hinline, x, KnownName.mono T x hle hx, hne, htext⟩

theorem KnownType.mono (type : SchemaType) : Monotone fun s => KnownType T s type := by
  intro s s' hle h
  cases type with
  | struct t =>
    exact ⟨fun field hf => KnownRef.mono T _ hle (h.1 field hf),
      fun base hb => (h.2 base hb).imp_right (PlainRef.mono T base hle ·)⟩
  | variant t => exact fun alt ha => KnownRef.mono T alt hle (h alt ha)
  | array t => exact PlainRef.mono T _ hle h
  | map t => exact h
  | enum t => exact h
  | primitive t => trivial

variable {T} in
theorem knownRef_of_mem {s : ParseState} {type : SchemaType} (h : KnownType T s type) {ref : TypeRef}
    (href : ref ∈ type.refs) : KnownRef T s ref := by
  cases type with
  | struct t =>
    rcases List.mem_append.mp href with href | href
    · obtain ⟨field, hf, rfl⟩ := List.mem_map.mp href
      exact h.1 field hf
    · exact .inl (h.2 ref href).2
  | variant t => exact h ref href
  | array t => exact List.mem_singleton.mp href ▸ .inl h
  | map t => exact h.elim
  | enum t => exact h.elim
  | primitive t => simp [SchemaType.refs] at href

/-- The text the parser writes for the element of a container. -/
theorem knownName_cppTypeFromTypeRef {s : ParseState} {ref : TypeRef} (h : PlainRef T s ref) :
    KnownName T s (cppTypeFromTypeRef ref) ∧ cppTypeFromTypeRef ref ≠ [] := by
  unfold cppTypeFromTypeRef
  split
  · exact ⟨.inl (List.mem_map_of_mem (by simp)), by decide⟩
  · rename_i hne
    refine ⟨?_, by simpa using hne⟩
    rcases h with ⟨-, h | h⟩ | ⟨-, h | h⟩
    · exact .inl h
    · exact .inr (.inl h)
    · exact .inr (.inl h)
    · exact .inr (.inr h)

/-! ### The invariant -/

structure ParseInv (s : ParseState) : Prop where
  added : ∀ n ∈ s.added_types, n ∈ s.ast
  types : ∀ n type, s.ast.getType n = some type → KnownType T s type
  sanitized : s.ast.Sanitized
  named : s.ast.NamedByKey

theorem ParseInv.init : ParseInv T {} where
  added := by simp
  types n type h := by simp [NormalizedAST.getType] at h
  sanitized n h := absurd h (AList.notMem_empty n)
  named n type h := by simp [NormalizedAST.getType] at h

theorem ParseInv.addType {s s' : ParseState} (inv : ParseInv T s) {n raw : Str} {type : SchemaType}
    (hle : s ≤ s') (hast : s'.ast = s.ast.addType n type)
    (hadded : ∀ m ∈ s'.added_types, m ∈ s.added_types ∨ m = n) (hn : n = sanitize raw)
    (htype : KnownType T s' type) (hname : type.NamedAs n) : ParseInv T s' where
  added m hm := by
    rw [hast, NormalizedAST.mem_addType]
    exact (hadded m hm).symm.imp_right (inv.added m)
  types m u h := by
    rw [hast, NormalizedAST.getType_addType] at h
    split at h
    · exact Option.some.inj h ▸ htype
    · exact KnownType.mono T u hle (inv.types m u h)
  sanitized m hm := by
    rw [hast, NormalizedAST.mem_addType] at hm
    rcases hm with rfl | hm
    · exact ⟨raw, hn⟩
    · exact inv.sanitized m hm
  named m u h := by
    rw [hast, NormalizedAST.getType_addType] at h
    split at h
    · rename_i hm
      exact Option.some.inj h ▸ hm ▸ hname
    · exact inv.named m u h

/-- `c` keeps the invariant, and does not run out of fuel. -/
abbrev Keeps {α : Type} (P : ParseState → Prop) (c : ParseM α) (Q : α → ParseState → Prop) : Prop :=
  Ensures (fun s => ParseInv T s ∧ P s) c (fun a s => ParseInv T s ∧ Q a s)
    fun stop s => ParseInv T s ∧ stop ≠ .outOfFuel

variable {T}

/-- Reading the document changes nothing. -/
theorem Keeps.read_bind {α β : Type} {P : ParseState → Prop} {x : Except Fault α} {f : α → ParseM β}
    {Q : β → ParseState → Prop} (h : ∀ a, x = .ok a → Keeps T P (f a) Q) :
    Keeps T P ((liftM x : ParseM α) >>= f) Q := by
  cases x with
  | ok a => exact h a rfl
  | error fault => exact fun s hs => ⟨le_rfl, hs.1, by simp⟩

theorem Keeps.read {α : Type} {P : ParseState → Prop} {x : Except Fault α}
    {Q : α → ParseState → Prop} (h : ∀ a s, x = .ok a → P s → Q a s) :
    Keeps T P (liftM x : ParseM α) Q := by
  cases x with
  | ok a => exact fun s hs => ⟨le_rfl, hs.1, h a s rfl hs.2⟩
  | error fault => exact fun s hs => ⟨le_rfl, hs.1, by simp⟩

theorem Keeps.pure {α : Type} {P : ParseState → Prop} {a : α} {Q : α → ParseState → Prop}
    (h : ∀ s, P s → Q a s) : Keeps T P (Pure.pure a : ParseM α) Q :=
  Ensures.pure fun s hs => hs.imp_right (h s)

theorem Keeps.bind {α β : Type} {P : ParseState → Prop} {c : ParseM α} {f : α → ParseM β}
    {Q : α → ParseState → Prop} {R : β → ParseState → Prop} (hc : Keeps T P c Q)
    (hf : ∀ a, Keeps T (Q a) (f a) R) : Keeps T P (c >>= f) R := Ensures.bind hc hf

theorem Keeps.imp {α : Type} {P P' : ParseState → Prop} {c : ParseM α} {Q Q' : α → ParseState → Prop}
    (h : Keeps T P c Q) (hP : ∀ s, P' s → P s) (hQ : ∀ a s, Q a s → Q' a s) : Keeps T P' c Q' :=
  Ensures.imp h (fun s hs => hs.imp_right (hP s)) (fun a s hs => hs.imp_right (hQ a s)) fun _ _ he => he

theorem Keeps.mapM {α β : Type} {l : List α} {f : α → ParseM β} {R : β → ParseState → Prop}
    (hR : ∀ b, Monotone (R b)) (h : ∀ a ∈ l, Keeps T (fun _ => True) (f a) R) :
    Keeps T (fun _ => True) (l.mapM f) fun bs s => ∀ b ∈ bs, R b s :=
  (Ensures.mapM hR fun a ha => (h a ha).post fun _ _ hs => ⟨⟨hs.1, trivial⟩, hs.2⟩).post
    fun _ _ hs => ⟨hs.1.1, hs.2⟩

theorem Keeps.foldlM {α β : Type} {l : List α} {f : β → α → ParseM β} {b : β}
    {J : β → ParseState → Prop} (h : ∀ a ∈ l, ∀ b, Keeps T (J b) (f b a) J)
    {P : ParseState → Prop} (hb : ∀ s, P s → J b s) : Keeps T P (l.foldlM f b) J :=
  (Ensures.foldlM (l := l) (J := fun _ b s => ParseInv T s ∧ J b s)
    (fun done a rest b heq => h a (by rw [heq]; simp) b) b).pre fun s hs => hs.imp_right (hb s)

/-- What is monotone survives. -/
theorem Keeps.frame {α : Type} {P : ParseState → Prop} {c : ParseM α} {Q : α → ParseState → Prop}
    (h : Keeps T P c Q) {F : ParseState → Prop} (hF : Monotone F) :
    Keeps T (fun s => P s ∧ F s) c (fun a s => Q a s ∧ F s) :=
  (Ensures.frame h hF).imp (fun _ hs => ⟨⟨hs.1, hs.2.1⟩, hs.2.2⟩) (fun _ _ hs => ⟨hs.1.1, hs.1.2, hs.2⟩)
    fun _ _ he => he.1

end

/-! ### References of the document -/

/-- The `$ref`s of the view, and of all that is inside, go to `T`. -/
def TargetsIn (T : Set Str) (o : JsonObject) : Prop :=
  ∀ members, o = some members → ∀ m, Relation.ReflTransGen Json.Child (.obj m) (.obj members) →
    ∀ r, Record.find m "$ref".toList = some (.str r) → r ≠ [] → (refTarget r).name ∈ T

theorem TargetsIn.inside {T : Set Str} {o v : JsonObject} (h : TargetsIn T o) (hv : v.Inside o) :
    TargetsIn T v := by
  obtain ⟨members, rfl, hin⟩ := hv
  rintro members' rfl m hm
  exact h members rfl m (hm.trans (hin members' rfl).to_reflTransGen)

section

variable {ir : InvalidRead} {T : Set Str} {o : JsonObject}

theorem refTarget_inline (r : Str) : (refTarget r).is_inline = false := by
  unfold refTarget
  split <;> rfl

/-- A reference that is read is one of the document. -/
theorem extractTypeRef_spec (hT : TargetsIn T o) {ref : TypeRef} (h : extractTypeRef ir o = .ok ref)
    (href : isRef ir o = .ok true ∨ ref.name ≠ []) : ref.is_inline = false ∧ ref.name ∈ T := by
  unfold extractTypeRef isRef JsonObject.ref stringField getValueIfExist at *
  cases hk : atKey ir o "$ref".toList with
  | error fault => rw [hk] at h; cases h
  | ok v =>
    rw [hk] at h href
    simp only [bind, Except.bind, Pure.pure, Except.pure] at h href
    split at h
    · rename_i hne
      obtain rfl := Except.ok.inj h
      refine ⟨refTarget_inline _, ?_⟩
      cases v with
      | none => simp at hne
      | some j =>
        cases j with
        | str r =>
          obtain ⟨members, rfl, -⟩ := mem_of_atKey hk
          exact hT members rfl members .refl r (Except.ok.inj hk) (by simpa [Json.get_string] using hne)
        | _ => simp [Json.get_string] at hne
    · rename_i hne
      obtain rfl := Except.ok.inj h
      simp [hne] at href

/-! ### The functions of the parser -/

theorem addInlineStruct_keeps (raw : Str) (t : StructType) :
    Keeps T (fun s => KnownType T s (.struct t)) (addInlineStruct raw t) fun n s => n ∈ s.added_types := by
  rintro s ⟨inv, ht⟩
  unfold addInlineStruct
  by_cases hmem : sanitize raw ∈ s.added_types
  · simp only [hmem, if_true]
    refine ⟨⟨fun _ h => h, fun _ h => h, List.prefix_append _ _⟩, ?_, trivial⟩
    exact ⟨inv.added, inv.types, inv.sanitized, inv.named⟩
  · simp only [hmem, if_false]
    have hle : s ≤ ⟨s.ast.addType (sanitize raw) (.struct { t with name := sanitize raw }),
        sanitize raw :: s.added_types,
        s.placed ++ [(sanitize raw, .struct { t with name := sanitize raw })]⟩ :=
      ⟨fun _ h => List.mem_cons_of_mem _ h, fun _ h => NormalizedAST.mem_addType.mpr (.inr h),
        List.prefix_append _ _⟩
    refine ⟨hle, ParseInv.addType T inv hle rfl (fun m hm => (List.mem_cons.mp hm).symm) rfl ?_ rfl, by simp⟩
    exact KnownType.mono T (.struct t) hle ht

theorem inlineMemberType_keeps (raw : Str) (type : SchemaType) :
    Keeps T (fun s => KnownType T s type) (inlineMemberType raw type)
      fun text s => KnownRef T s ⟨text, true⟩ := by
  cases type with
  | primitive t => exact .pure fun s _ => .inl (.inl ⟨rfl, .inl (primitiveToCpp_mem ..)⟩)
  | array t =>
    refine .pure fun s h => .inr ⟨rfl, cppTypeFromTypeRef t.element_type, ?_⟩
    obtain ⟨hknown, hne⟩ := knownName_cppTypeFromTypeRef T h
    exact ⟨hknown, hne, rfl⟩
  | map t => exact .pure fun s h => h.elim
  | struct t =>
    exact (addInlineStruct_keeps raw t).imp (fun _ h => h) fun n s h => .inl (.inl ⟨rfl, .inr h⟩)
  | variant t => exact .pure fun s _ => .inl (.inl ⟨rfl, .inl (List.mem_map_of_mem (by simp))⟩)
  | enum t => exact .pure fun s _ => .inl (.inl ⟨rfl, .inl (List.mem_map_of_mem (by simp))⟩)

theorem inlineElementType_keeps (elem_name : Str) (type : SchemaType) :
    Keeps T (fun s => KnownType T s type) (inlineElementType elem_name type)
      fun text s => PlainRef T s ⟨text, true⟩ := by
  cases type with
  | primitive t => exact .pure fun s _ => .inl ⟨rfl, .inl (primitiveToCpp_mem ..)⟩
  | struct t =>
    exact (addInlineStruct_keeps elem_name t).imp (fun _ h => h) fun n s h => .inl ⟨rfl, .inr h⟩
  | variant t => exact .pure fun s _ => .inl ⟨rfl, .inl (List.mem_map_of_mem (by simp))⟩
  | array t => exact .pure fun s _ => .inl ⟨rfl, .inl (List.mem_map_of_mem (by simp))⟩
  | map t => exact .pure fun s _ => .inl ⟨rfl, .inl (List.mem_map_of_mem (by simp))⟩
  | enum t => exact .pure fun s _ => .inl ⟨rfl, .inl (List.mem_map_of_mem (by simp))⟩

theorem inlineAlternatives_keeps (name : Str) (n : ℕ) (type : SchemaType) :
    Keeps T (fun s => KnownType T s type) (inlineAlternatives name n type)
      fun refs s => ∀ ref ∈ refs, KnownRef T s ref := by
  have hstring : ∀ s : ParseState, ∀ ref ∈ [(⟨"std::string".toList, true⟩ : TypeRef)], KnownRef T s ref := by
    intro s ref href
    rw [List.mem_singleton.mp href]
    exact .inl (.inl ⟨rfl, .inl (List.mem_map_of_mem (by simp))⟩)
  cases type with
  | primitive t =>
    refine .pure fun s _ ref href => ?_
    rw [List.mem_singleton.mp href]
    exact .inl (.inl ⟨rfl, .inl (primitiveToCpp_mem ..)⟩)
  | array t =>
    refine .pure fun s h ref href => ?_
    rw [List.mem_singleton.mp href]
    obtain ⟨hknown, hne⟩ := knownName_cppTypeFromTypeRef T h
    exact .inr ⟨rfl, _, hknown, hne, rfl⟩
  | struct t =>
    refine (addInlineStruct_keeps _ t).bind fun mangled => .pure fun s h ref href => ?_
    split at href
    · simp at href
    · rw [List.mem_singleton.mp href]
      exact .inl (.inl ⟨rfl, .inr h⟩)
  | variant t => exact .pure fun s h => h
  | map t => exact .pure fun s _ => hstring s
  | enum t => exact .pure fun s _ => hstring s

/-- What a function of the parser returns for the name it was given. -/
def ParsedAs (T : Set Str) (name : Str) (type : SchemaType) (s : ParseState) : Prop :=
  KnownType T s type ∧ type.NamedAs name

section

variable {parseInner : JsonObject → Str → ParseM SchemaType}

theorem propertyType_keeps (hT : TargetsIn T o) {inner raw : Str}
    (hinner : Keeps T (fun _ => True) (parseInner o inner) (ParsedAs T inner)) :
    Keeps T (fun _ => True) (propertyType ir parseInner inner raw o) fun ref s => KnownRef T s ref := by
  refine .read_bind fun r hr => ?_
  split
  · rename_i htrue
    refine .read fun ref s href _ => ?_
    obtain ⟨hinline, hmem⟩ := extractTypeRef_spec hT href (.inl (by rw [hr, htrue]))
    exact .inl (.inr ⟨hinline, .inr hmem⟩)
  · refine hinner.bind fun type => ?_
    exact .bind ((inlineMemberType_keeps raw type).imp (fun s h => h.1) fun _ _ h => h)
      fun text => .pure fun s h => h

theorem parseProperty_keeps (hT : TargetsIn T o) {inner raw prop_name : Str}
    (hinner : Keeps T (fun _ => True) (parseInner o inner) (ParsedAs T inner)) :
    Keeps T (fun _ => True) (parseProperty ir parseInner inner raw prop_name o)
      fun m s => KnownRef T s m.type := by
  refine .read_bind fun description _ => ?_
  exact (propertyType_keeps hT hinner).bind fun ref => .pure fun s h => h

/-- The loop over the properties. -/
theorem mapM_parseProperty_keeps (hT : TargetsIn T o) {props : List (Str × Json)}
    (hprops : properties ir o = .ok props) {inner raw : Str × Json → Str}
    (hinner : ∀ v name, v.Inside o → Keeps T (fun _ => True) (parseInner v name) (ParsedAs T name)) :
    Keeps T (fun _ => True)
      (props.mapM fun p => parseProperty ir parseInner (inner p) (raw p) p.1 (ofMember p.2))
      fun fields s => ∀ field ∈ fields, KnownRef T s field.type := by
  refine .mapM (fun field => KnownRef.mono T field.type) fun p hp => ?_
  have hin : (ofMember p.2).Inside o := inside_of_mapField hprops hp
  exact parseProperty_keeps (hT.inside hin) (hinner _ _ hin)

theorem parseAlternative_keeps {name : Str} {item : Json}
    (hinner : ∀ v name, v.Inside o → Keeps T (fun _ => True) (parseInner v name) (ParsedAs T name))
    (hT : TargetsIn T o) (hitem : ∀ v, ofElement item = .ok v → v.Inside o) (alternatives : List TypeRef) :
    Keeps T (fun s => ∀ ref ∈ alternatives, KnownRef T s ref)
      (parseAlternative ir parseInner name alternatives item)
      fun refs s => ∀ ref ∈ refs, KnownRef T s ref := by
  have hmono : Monotone fun s => ∀ ref ∈ alternatives, KnownRef T s ref := fun s s' hle h ref href =>
    KnownRef.mono T ref hle (h ref href)
  refine .read_bind fun alt halt => .read_bind fun alt_ref href => ?_
  have hin := hitem alt halt
  split
  · rename_i hne
    refine .pure fun s h ref hmem => ?_
    rcases List.mem_append.mp hmem with hmem | hmem
    · exact h ref hmem
    · obtain ⟨hinline, htarget⟩ := extractTypeRef_spec (hT.inside hin) href (.inr (by simpa using hne))
      rw [List.mem_singleton.mp hmem]
      exact .inl (.inr ⟨hinline, .inr htarget⟩)
  · -- what the alternatives before refer to is still known after the inline one is parsed
    refine (((hinner alt _ hin).frame hmono).imp (fun s h => ⟨trivial, h⟩) fun _ _ h => h).bind
      fun type => ?_
    refine (((inlineAlternatives_keeps name _ type).frame hmono).imp (fun s h => ⟨h.1.1, h.2⟩)
      fun _ _ h => h).bind fun added => .pure fun s h ref hmem => ?_
    exact (List.mem_append.mp hmem).elim (h.2 ref) (h.1 ref)

theorem buildVariant_keeps (hT : TargetsIn T o) {items : List Json} {key name desc : Str}
    (hitems : listField ir o key = .ok items)
    (hinner : ∀ v name, v.Inside o → Keeps T (fun _ => True) (parseInner v name) (ParsedAs T name)) :
    Keeps T (fun _ => True) (buildVariant ir parseInner items name desc) (ParsedAs T name) := by
  have hloop : Keeps T (fun _ => True) (items.foldlM (parseAlternative ir parseInner name) [])
      fun refs s => ∀ ref ∈ refs, KnownRef T s ref :=
    .foldlM (fun item hitem refs => parseAlternative_keeps hinner hT
      (fun v hv => inside_of_listField hitems hitem hv) refs) fun s _ => by simp
  exact hloop.bind fun alternatives => .pure fun s h => ⟨h, rfl⟩

/-- The bases of a struct that `allOf` names by `$ref`. -/
theorem refBase_spec (hT : TargetsIn T o) {bases bases' : List TypeRef} {item : Json}
    (hitem : ∀ v, ofElement item = .ok v → v.Inside o) (h : refBase ir bases item = .ok bases') :
    ∀ base ∈ bases', base ∈ bases ∨ (base.is_inline = false ∧ base.name ∈ T) := by
  unfold refBase at h
  cases hv : ofElement item with
  | error fault => rw [hv] at h; cases h
  | ok v =>
    rw [hv] at h
    change (isRef ir v >>= fun r => if r = true then _ else _) = _ at h
    cases hr : isRef ir v with
    | error fault => rw [hr] at h; cases h
    | ok r =>
      rw [hr] at h
      change (if r = true then _ else _) = _ at h
      split at h
      · rename_i htrue
        cases href : extractTypeRef ir v with
        | error fault => rw [href] at h; cases h
        | ok ref =>
          rw [href] at h
          have hspec := extractTypeRef_spec (hT.inside (hitem v hv)) href (.inl (by rw [hr, htrue]))
          obtain rfl := Except.ok.inj h
          intro base hbase
          split at hbase
          · exact .inl hbase
          · rcases List.mem_append.mp hbase with hbase | hbase
            · exact .inl hbase
            · exact .inr (List.mem_singleton.mp hbase ▸ hspec)
      · obtain rfl := Except.ok.inj h
        exact fun base hbase => .inl hbase

def KnownBase (T : Set Str) (s : ParseState) (base : TypeRef) : Prop :=
  base.is_inline = false ∧ PlainRef T s base

theorem KnownBase.mono (base : TypeRef) : Monotone fun s => KnownBase T s base :=
  fun _ _ hle h => h.imp_right (PlainRef.mono T base hle ·)

theorem foldlM_refBase_spec (hT : TargetsIn T o) {allOf : List Json}
    (hallOf : JsonObject.allOf ir o = .ok allOf) {bases : List TypeRef}
    (h : allOf.foldlM (refBase ir) [] = .ok bases) (s : ParseState) :
    ∀ base ∈ bases, KnownBase T s base := by
  have key : ∀ (l : List Json) (bases bases' : List TypeRef), (∀ item ∈ l, item ∈ allOf) →
      (∀ base ∈ bases, KnownBase T s base) → l.foldlM (refBase ir) bases = .ok bases' →
      ∀ base ∈ bases', KnownBase T s base := by
    intro l
    induction l with
    | nil =>
      intro bases bases' _ hbases hrun
      obtain rfl := Except.ok.inj hrun
      exact hbases
    | cons item l ih =>
      intro bases bases' hl hbases hrun
      rw [List.foldlM_cons] at hrun
      cases hstep : refBase ir bases item with
      | error fault => rw [hstep] at hrun; cases hrun
      | ok bases₁ =>
        rw [hstep] at hrun
        refine ih bases₁ bases' (fun i hi => hl i (by simp [hi])) (fun base hbase => ?_) hrun
        have hin : ∀ v, ofElement item = .ok v → v.Inside o := fun v hv =>
          inside_of_listField hallOf (hl item (by simp)) hv
        rcases refBase_spec hT hin hstep base hbase with hold | ⟨hinline, htarget⟩
        · exact hbases base hold
        · exact ⟨hinline, .inr ⟨hinline, .inr htarget⟩⟩
  exact key allOf [] bases (fun _ h => h) (by simp) h

theorem parseObjectSchema_keeps (hT : TargetsIn T o) (name : Str)
    (hinner : ∀ v name, v.Inside o → Keeps T (fun _ => True) (parseInner v name) (ParsedAs T name)) :
    Keeps T (fun _ => True) (parseObjectSchema ir parseInner o name) (ParsedAs T name) := by
  refine .read_bind fun desc _ => .read_bind fun oneOf hone => .read_bind fun anyOf hany => ?_
  split
  · split
    · exact buildVariant_keeps hT hone hinner
    · exact buildVariant_keeps hT hany hinner
  · refine .read_bind fun allOf hall => .read_bind fun bases hbases => .read_bind fun props hprops => ?_
    refine (mapM_parseProperty_keeps hT hprops hinner).bind fun fields => .pure fun s h => ?_
    exact ⟨⟨h, foldlM_refBase_spec hT hall hbases s⟩, rfl⟩

theorem parseBase_keeps (hT : TargetsIn T o) {name : Str} {item : Json}
    (hitem : ∀ v, ofElement item = .ok v → v.Inside o)
    (hinner : ∀ v name, v.Inside o → Keeps T (fun _ => True) (parseInner v name) (ParsedAs T name))
    (bases : List TypeRef) :
    Keeps T (fun s => ∀ base ∈ bases, KnownBase T s base) (parseBase ir parseInner name bases item)
      fun bases s => ∀ base ∈ bases, KnownBase T s base := by
  have hmono : Monotone fun s => ∀ base ∈ bases, KnownBase T s base := fun s s' hle h base hbase =>
    KnownBase.mono base hle (h base hbase)
  have hsnoc : ∀ {s : ParseState} {base : TypeRef}, (∀ b ∈ bases, KnownBase T s b) →
      KnownBase T s base → ∀ b ∈ bases ++ [base], KnownBase T s b := by
    intro s base hbases hbase b hb
    rcases List.mem_append.mp hb with hb | hb
    · exact hbases b hb
    · exact List.mem_singleton.mp hb ▸ hbase
  refine .read_bind fun v hv => .read_bind fun r hr => ?_
  have hin := hitem v hv
  split
  · rename_i htrue
    refine .read_bind fun ref href => .pure fun s h => ?_
    obtain ⟨hinline, htarget⟩ := extractTypeRef_spec (hT.inside hin) href (.inl (by rw [hr, htrue]))
    split
    · exact h
    · exact hsnoc h ⟨hinline, .inr ⟨hinline, .inr htarget⟩⟩
  · refine (((hinner v _ hin).frame hmono).imp (fun s h => ⟨trivial, h⟩) fun _ _ h => h).bind
      fun type => ?_
    cases type with
    | struct t =>
      refine (((addInlineStruct_keeps t.name t).frame hmono).imp (fun s h => ⟨h.1.1, h.2⟩)
        fun _ _ h => h).bind fun mangled => .pure fun s h => ?_
      exact hsnoc h.2 ⟨rfl, .inr ⟨rfl, .inl h.1⟩⟩
    | variant t => exact .pure fun s h => h.2
    | array t => exact .pure fun s h => h.2
    | map t => exact .pure fun s h => h.2
    | enum t => exact .pure fun s h => h.2
    | primitive t => exact .pure fun s h => h.2

theorem parseImplicitObject_keeps (hT : TargetsIn T o) (name : Str)
    (hinner : ∀ v name, v.Inside o → Keeps T (fun _ => True) (parseInner v name) (ParsedAs T name)) :
    Keeps T (fun _ => True) (parseImplicitObject ir parseInner o name) (ParsedAs T name) := by
  refine .read_bind fun description _ => .read_bind fun allOf hall => ?_
  have hbases : Keeps T (fun _ => True) (allOf.foldlM (parseBase ir parseInner name) [])
      fun bases s => ∀ base ∈ bases, KnownBase T s base :=
    .foldlM (fun item hitem bases => parseBase_keeps hT
      (fun v hv => inside_of_listField hall hitem hv) hinner bases) fun s _ => by simp
  refine hbases.bind fun bases => .read_bind fun props hprops => ?_
  have hmono : Monotone fun s => ∀ base ∈ bases, KnownBase T s base := fun s s' hle h base hbase =>
    KnownBase.mono base hle (h base hbase)
  refine (((mapM_parseProperty_keeps hT hprops hinner).frame hmono).imp (fun s h => ⟨trivial, h⟩)
    fun _ _ h => h).bind fun fields => .pure fun s h => ?_
  exact ⟨⟨h.1, h.2⟩, rfl⟩

theorem parseUnknownSchema_keeps (hT : TargetsIn T o) (name : Str)
    (hinner : ∀ v name, v.Inside o → Keeps T (fun _ => True) (parseInner v name) (ParsedAs T name)) :
    Keeps T (fun _ => True) (parseUnknownSchema ir parseInner o name) (ParsedAs T name) := by
  refine .read_bind fun desc _ => .read_bind fun oneOf hone => ?_
  split
  · exact buildVariant_keeps hT hone hinner
  · refine .read_bind fun anyOf hany => ?_
    split
    · exact buildVariant_keeps hT hany hinner
    · refine .read_bind fun p _ => .read_bind fun a _ => .read_bind fun m _ => ?_
      split
      · exact parseImplicitObject_keeps hT name hinner
      · exact .pure fun s _ => ⟨trivial, trivial⟩

theorem parseArraySchema_keeps (hT : TargetsIn T o) {members : Record Str Json} (ho : o = some members)
    (name : Str)
    (hinner : ∀ v name, v.Inside o → Keeps T (fun _ => True) (parseInner v name) (ParsedAs T name)) :
    Keeps T (fun _ => True) (parseArraySchema ir parseInner o name) (ParsedAs T name) := by
  refine .read_bind fun description _ => .read_bind fun items hitems => .read_bind fun r hr => ?_
  have hin : items.Inside o := by
    subst ho
    exact inside_of_objectField hitems
  split
  · rename_i htrue
    refine .read_bind fun ref href => .pure fun s _ => ⟨?_, trivial⟩
    obtain ⟨hinline, htarget⟩ := extractTypeRef_spec (hT.inside hin) href (.inl (by rw [hr, htrue]))
    exact .inr ⟨hinline, .inr htarget⟩
  · refine .bind (Q := fun _ _ => True) (Ensures.get fun s hs => hs) fun st => ?_
    refine (hinner items _ hin).bind fun type => ?_
    exact .bind ((inlineElementType_keeps _ type).imp (fun s h => h.1) fun _ _ h => h)
      fun text => .pure fun s h => ⟨h, trivial⟩

theorem parsePrimitiveSchema_keeps (name : Str) :
    Keeps T (fun _ => True) (liftM (parsePrimitiveSchema ir o) : ParseM SchemaType) (ParsedAs T name) := by
  refine .read fun type s h _ => ?_
  obtain ⟨t, rfl⟩ : ∃ t, type = .primitive t := parsePrimitiveSchema_primitive h
  exact ⟨trivial, trivial⟩

/-- **One level of the parser keeps the invariant**, when the levels below do. -/
theorem parseSchemaBody_keeps (hT : TargetsIn T o) (name : Str)
    (hinner : ∀ v name, v.Inside o → Keeps T (fun _ => True) (parseInner v name) (ParsedAs T name)) :
    Keeps T (fun _ => True) (parseSchemaBody ir parseInner o name) (ParsedAs T name) := by
  refine .read_bind fun type htype => ?_
  cases type with
  | object => exact parseObjectSchema_keeps hT name hinner
  | array =>
    obtain ⟨members, ho⟩ := valid_of_type htype (by simp)
    exact parseArraySchema_keeps hT ho name hinner
  | unknown => exact parseUnknownSchema_keeps hT name hinner
  | null => exact .read_bind fun description _ => .pure fun s _ => ⟨trivial, trivial⟩
  | _ => exact parsePrimitiveSchema_keeps name

end

/-! ### The whole parser -/

variable (ir) in
/-- The induction over the nested calls: `V` is what is asked of a schema and of all that is inside. -/
theorem parseSchemaUpTo_rule {V : JsonObject → Prop} (hV : ∀ v o, v.Inside o → V o → V v)
    {P : ParseState → Prop} {Q : Str → SchemaType → ParseState → Prop} {E : Stop → ParseState → Prop}
    (hbody : ∀ parseInner o name, V o →
      (∀ v name, v.Inside o → Ensures P (parseInner v name) (Q name) E) →
      Ensures P (parseSchemaBody ir parseInner o name) (Q name) E) :
    ∀ fuel o name, V o → o.depth < fuel → Ensures P (parseSchemaUpTo ir fuel o name) (Q name) E := by
  intro fuel
  induction fuel with
  | zero => exact fun o name _ h => absurd h (by omega)
  | succ fuel ih =>
    intro o name hVo hdepth
    refine hbody _ o name hVo fun v name' hin => ih v name' (hV v o hin hVo) ?_
    have := depth_lt_of_inside hin
    omega

/-- **The parser keeps the invariant.** -/
theorem parseSchema_keeps (hT : TargetsIn T o) (name : Str) :
    Keeps T (fun _ => True) (parseSchema ir o name) (ParsedAs T name) := by
  have hrun := parseSchemaUpTo_rule ir (V := TargetsIn T) (fun v o hin h => h.inside hin)
    (P := fun s => ParseInv T s ∧ True) (Q := fun name type s => ParseInv T s ∧ ParsedAs T name type s)
    (E := fun stop s => ParseInv T s ∧ stop ≠ .outOfFuel)
    (fun parseInner o name hT hinner => parseSchemaBody_keeps hT name hinner)
  exact hrun (o.depth + 1) o name hT (Nat.lt_succ_self _)

theorem addComponent_keeps (raw : Str) (type : SchemaType) :
    Keeps T (ParsedAs T (sanitize raw) type) (addComponent (sanitize raw) type)
      fun _ s => sanitize raw ∈ s.ast := by
  rintro s ⟨inv, htype, hname⟩
  have hle : s ≤ { s with
      ast := s.ast.addType (sanitize raw) type, placed := s.placed ++ [(sanitize raw, type)] } :=
    ⟨fun _ h => h, fun _ h => NormalizedAST.mem_addType.mpr (.inr h), List.prefix_append _ _⟩
  refine ⟨hle, ParseInv.addType T inv hle rfl (fun m hm => .inl hm) rfl ?_ hname, ?_⟩
  · exact KnownType.mono T type hle htype
  · exact NormalizedAST.mem_addType.mpr (.inl rfl)

/-- The components of `done` are in the AST, but for those the loop warned about. -/
def ComponentsAdded (done : List (Str × Json)) (failed : List Str) (s : ParseState) : Prop :=
  ∀ e ∈ done, e.1 ∈ failed ∨ sanitize e.1 ∈ s.ast

theorem parseComponent_keeps {entry : Str × Json} (hT : TargetsIn T (ofMember entry.2))
    (done : List (Str × Json)) (failed : List Str) :
    Keeps T (ComponentsAdded done failed) (parseComponent ir failed entry)
      (ComponentsAdded (done ++ [entry])) := by
  have hmono : Monotone (ComponentsAdded done failed) := fun s s' hle h e he =>
    (h e he).imp_right (hle.2.1 _)
  have hbody : Keeps T (fun _ => True)
      (parseSchema ir (ofMember entry.2) (sanitize entry.1) >>= fun type => do
        addComponent (sanitize entry.1) type
        return failed)
      fun failed' s => failed' = failed ∧ sanitize entry.1 ∈ s.ast :=
    (parseSchema_keeps hT _).bind fun type => (addComponent_keeps entry.1 type).bind fun _ =>
      .pure fun s h => ⟨rfl, h⟩
  refine ((Ensures.frame hbody hmono).imp (fun s h => ⟨⟨h.1, trivial⟩, h.2⟩) (fun failed' s h => ?_)
    fun _ _ h => h).tryCatch fun stop => ?_
  · obtain ⟨⟨inv, rfl, hmem⟩, hdone⟩ := h
    refine ⟨inv, fun e he => ?_⟩
    rcases List.mem_append.mp he with he | he
    · exact hdone e he
    · exact .inr (List.mem_singleton.mp he ▸ hmem)
  · -- an exception: the components before are still there
    cases stop with
    | outOfFuel => exact Ensures.throw fun s h => h.1
    | fault f =>
      cases f with
      | exception =>
        refine Ensures.pure fun s h => ⟨h.1.1, fun e he => ?_⟩
        rcases List.mem_append.mp he with he | he
        · exact (h.2 e he).imp_left (List.mem_append_left _)
        · exact .inl (List.mem_append_right _ (by simp [List.mem_singleton.mp he]))
      | terminate => exact Ensures.throw fun s h => h.1
      | crash => exact Ensures.throw fun s h => h.1

/-- **`parseSchemas` keeps the invariant**, and every schema it does not warn about is in the AST. -/
theorem parseSchemas_keeps {spec : JsonObject} {schemas : List (Str × Json)}
    (hschemas : componentSchemas ir spec = .ok schemas) (hT : ∀ e ∈ schemas, TargetsIn T (ofMember e.2)) :
    Keeps T (fun _ => True) (parseSchemas ir spec) (ComponentsAdded schemas) := by
  refine .read_bind fun schemas' hread => ?_
  obtain rfl : schemas = schemas' := Except.ok.inj (hschemas.symm.trans hread)
  have hloop := Ensures.foldlM (l := schemas) (f := parseComponent ir)
    (J := fun done failed s => ParseInv T s ∧ ComponentsAdded done failed s)
    (E := fun stop s => ParseInv T s ∧ stop ≠ .outOfFuel)
    (fun done entry rest failed heq => parseComponent_keeps (hT entry (by rw [heq]; simp)) done failed) []
  exact hloop.pre fun s h => ⟨h.1, by simp [ComponentsAdded]⟩

/-- The names `sanitize` returns: any target a `$ref` can have. -/
def sanitizedNames : Set Str := {n | ∃ raw, n = sanitize raw}

theorem targetsIn_sanitizedNames (o : JsonObject) : TargetsIn sanitizedNames o := by
  intro members _ m _ r _ _
  unfold refTarget
  split
  · exact ⟨_, rfl⟩
  · exact ⟨[], rfl⟩

/-- Whatever the document is, the invariant holds in the end. -/
theorem parseSchemas_inv {spec : JsonObject} {failed : List Str} {s : ParseState}
    (hrun : parseSchemas ir spec {} = .ok failed s) : ParseInv sanitizedNames s := by
  cases hschemas : componentSchemas ir spec with
  | error fault =>
    unfold parseSchemas at hrun
    rw [hschemas] at hrun
    cases hrun
  | ok schemas =>
    have hkeeps := parseSchemas_keeps hschemas fun e _ => targetsIn_sanitizedNames (ofMember e.2)
    exact (hkeeps.of_ok ⟨ParseInv.init _, trivial⟩ hrun).2.1

/-- The bound on the nested calls is high enough. -/
theorem parseSchemas_ne_outOfFuel {spec : JsonObject} {s : ParseState} :
    parseSchemas ir spec {} ≠ .error .outOfFuel s := by
  intro hrun
  cases hschemas : componentSchemas ir spec with
  | error fault =>
    unfold parseSchemas at hrun
    rw [hschemas] at hrun
    cases hrun
  | ok schemas =>
    have hkeeps := parseSchemas_keeps hschemas fun e _ => targetsIn_sanitizedNames (ofMember e.2)
    exact (hkeeps.of_error ⟨ParseInv.init _, trivial⟩ hrun).2.2 rfl

end

end Siesta
