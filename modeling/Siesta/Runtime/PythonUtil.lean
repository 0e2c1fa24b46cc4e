import Siesta.Lib.DataTree
import Siesta.Lib.Record
import Mathlib.Data.List.TakeWhile

/-!
# JSON for Python: `siesta/beast/python_util.hpp`

`json_to_python` hands the characters of a text over as a C string, so a text arrives up to its first
NUL.  An object is faithful exactly if no text and no key in its value has a NUL, and all are UTF-8
(`json_to_python_faithful_iff`).
-/

namespace Siesta.PythonUtil

open Lib

/-! ### Texts -/

/-- The characters of a `boost::json::string`. -/
abbrev Bytes : Type := List UInt8

/-- The UTF-8 bytes of a Python `str`. -/
def bytesOf (t : String) : Bytes := t.toByteArray.data.toList

/-- The `str` with these UTF-8 bytes, if there is one. -/
def decode (s : Bytes) : Option String :=
  if h : (ByteArray.mk s.toArray).IsValidUTF8 then some (.ofByteArray _ h) else none

/-- A C string, up to its NUL. -/
def upToNul (s : Bytes) : Bytes := s.takeWhile fun b => b ≠ 0

/-- The text of an exception, which reaches Python as a C string too. -/
structure ErrorText where
  text : String
  noNul : 0 ∉ bytesOf text

/-- `nb::str(s.data())`; `what` is the text of the exception for bytes that are no UTF-8. -/
def nb_str (what : Bytes → ErrorText) (s : Bytes) : Except ErrorText String :=
  match decode (upToNul s) with
  | some t => .ok t
  | none => .error (what s)

theorem decode_bytesOf (t : String) : decode (bytesOf t) = some t := by
  unfold decode bytesOf
  simp [t.isValidUTF8]

theorem bytesOf_of_decode {s : Bytes} {t : String} (h : decode s = some t) : bytesOf t = s := by
  unfold decode at h
  split at h
  · obtain rfl := Option.some.inj h
    simp [bytesOf]
  · cases h

theorem bytesOf_injective : Function.Injective bytesOf := fun t t' h =>
  Option.some.inj ((decode_bytesOf t).symm.trans (h ▸ decode_bytesOf t'))

theorem bytesOf_append (t t' : String) : bytesOf (t ++ t') = bytesOf t ++ bytesOf t' := by simp [bytesOf]

theorem upToNul_of_notMem {s : Bytes} (h : 0 ∉ s) : upToNul s = s := by
  apply List.takeWhile_eq_self_iff.mpr
  intro b hb
  simp only [ne_eq, decide_eq_true_eq]
  rintro rfl
  exact h hb

theorem nul_notMem_upToNul (s : Bytes) : 0 ∉ upToNul s := by
  intro h
  have := List.mem_takeWhile_imp h
  simp at this

/-- A text that reaches Python as it is: it has no NUL and is UTF-8. -/
def CleanText (s : Bytes) : Prop := 0 ∉ s ∧ (decode s).isSome

theorem nb_str_of_clean (what : Bytes → ErrorText) {s : Bytes} (h : CleanText s) :
    ∃ t, nb_str what s = .ok t ∧ bytesOf t = s := by
  obtain ⟨t, ht⟩ := Option.isSome_iff_exists.mp h.2
  refine ⟨t, ?_, bytesOf_of_decode ht⟩
  unfold nb_str
  rw [upToNul_of_notMem h.1, ht]

theorem clean_of_nb_str {what : Bytes → ErrorText} {s : Bytes} {t : String} (h : nb_str what s = .ok t) :
    CleanText (bytesOf t) := by
  unfold nb_str at h
  split at h
  · rename_i t' ht
    obtain rfl := Except.ok.inj h
    refine ⟨?_, by rw [decode_bytesOf]; rfl⟩
    rw [bytesOf_of_decode ht]
    exact nul_notMem_upToNul s
  · cases h

/-! ### Values and objects -/

/-- A `boost::json::value`, with its floating-point numbers in `δ`. -/
inductive Value (δ : Type) where
  | null
  | bool_ (b : Bool)
  | int64 (i : Int64)
  | uint64 (u : UInt64)
  | double_ (d : δ)
  | string (s : Bytes)
  | array (items : List (Value δ))
  | object (members : List (Bytes × Value δ))

/-- A Python object; a `dict` has its entries in the order its keys were first assigned. -/
inductive PyObject (δ : Type) where
  | none
  | bool_ (b : Bool)
  | int_ (i : ℤ)
  | float_ (d : δ)
  | str (t : String)
  | list (items : List (PyObject δ))
  | dict (entries : List (String × PyObject δ))

variable {δ : Type} (what : Bytes → ErrorText)

/-- What the handler of `json_to_python` returns. -/
def conversionError (e : ErrorText) : PyObject δ := .str ("<json conversion error: " ++ e.text ++ ">")

mutual

/-- `json_to_python`. -/
def json_to_python : Value δ → PyObject δ
  | .null => .none
  | .bool_ b => .bool_ b
  | .int64 i => .int_ i.toInt
  | .uint64 u => .int_ u.toNat
  | .double_ d => .float_ d
  | .string s =>
    match nb_str what s with
    | .ok t => .str t
    | .error e => conversionError e
  | .array items => .list (itemsToPython items)
  | .object members =>
    match membersToPython members [] with
    | .ok py_dict => .dict py_dict
    | .error e => conversionError e

/-- The loop over an array. -/
def itemsToPython : List (Value δ) → List (PyObject δ)
  | [] => []
  | elem :: items => json_to_python elem :: itemsToPython items

/-- The loop over an object, with the `dict` so far. -/
def membersToPython : List (Bytes × Value δ) → Record String (PyObject δ) →
    Except ErrorText (Record String (PyObject δ))
  | [], py_dict => .ok py_dict
  | (key, value) :: members, py_dict =>
    match nb_str what key with
    | .ok k => membersToPython members (py_dict.set k (json_to_python value))
    | .error e => .error e

end

/-! ### What values and objects mean -/

/-- What is no list and no object. -/
inductive Leaf (δ : Type) where
  | null
  | bool (b : Bool)
  | number (i : ℤ)
  | float (d : δ)
  | text (s : Bytes)

section Meaning

-- what a boolean counts as
variable (boolean : Bool → Leaf δ)

mutual

/-- The value, with its objects as maps. -/
def Value.meaning : Value δ → DataTree (Leaf δ) Bytes
  | .null => .leaf .null
  | .bool_ b => .leaf (boolean b)
  | .int64 i => .leaf (.number i.toInt)
  | .uint64 u => .leaf (.number u.toNat)
  | .double_ d => .leaf (.float d)
  | .string s => .leaf (.text s)
  | .array items => .seq (itemMeanings items)
  | .object members => .map (memberMeaning members)

def itemMeanings : List (Value δ) → List (DataTree (Leaf δ) Bytes)
  | [] => []
  | v :: items => v.meaning :: itemMeanings items

def memberMeaning : List (Bytes × Value δ) → Bytes → Option (DataTree (Leaf δ) Bytes)
  | [], _ => none
  | (key, v) :: members, k => if k = key then some v.meaning else memberMeaning members k

end

mutual

/-- The object, with its dictionaries as maps. -/
def PyObject.meaning : PyObject δ → DataTree (Leaf δ) Bytes
  | .none => .leaf .null
  | .bool_ b => .leaf (boolean b)
  | .int_ i => .leaf (.number i)
  | .float_ d => .leaf (.float d)
  | .str t => .leaf (.text (bytesOf t))
  | .list items => .seq (listMeanings items)
  | .dict entries => .map (dictMeaning entries)

def listMeanings : List (PyObject δ) → List (DataTree (Leaf δ) Bytes)
  | [] => []
  | p :: items => p.meaning :: listMeanings items

def dictMeaning : List (String × PyObject δ) → Bytes → Option (DataTree (Leaf δ) Bytes)
  | [], _ => none
  | (key, p) :: entries, k => if k = bytesOf key then some p.meaning else dictMeaning entries k

end

end Meaning

mutual

/-- No object in the value has a key twice. -/
def Value.DistinctKeys : Value δ → Prop
  | .array items => itemsDistinct items
  | .object members => (Record.keys members).Nodup ∧ membersDistinct members
  | _ => True

def itemsDistinct : List (Value δ) → Prop
  | [] => True
  | v :: items => v.DistinctKeys ∧ itemsDistinct items

def membersDistinct : List (Bytes × Value δ) → Prop
  | [] => True
  | (_, v) :: members => v.DistinctKeys ∧ membersDistinct members

end

mutual

/-- All texts and keys in the value are clean. -/
def Value.Clean : Value δ → Prop
  | .string s => CleanText s
  | .array items => itemsClean items
  | .object members => membersClean members
  | _ => True

def itemsClean : List (Value δ) → Prop
  | [] => True
  | v :: items => v.Clean ∧ itemsClean items

def membersClean : List (Bytes × Value δ) → Prop
  | [] => True
  | (key, v) :: members => CleanText key ∧ v.Clean ∧ membersClean members

end

/-- A value as the library builds it. -/
structure JsonValue (δ : Type) where
  val : Value δ
  distinct : val.DistinctKeys

/-- The object has the meaning of the value it was made of. -/
def Faithful (v : JsonValue δ) : Prop := (json_to_python what v.val).meaning .bool = v.val.meaning .bool

/-! ### Clean values are faithful -/

section Dict

variable (boolean : Bool → Leaf δ)

theorem dictMeaning_set (entries : Record String (PyObject δ)) (t : String) (p : PyObject δ) (k : Bytes) :
    dictMeaning boolean (entries.set t p) k =
      if k = bytesOf t then some (p.meaning boolean) else dictMeaning boolean entries k := by
  induction entries with
  | nil => rfl
  | cons e entries ih =>
    rw [Record.set]
    by_cases he : e.1 = t
    · rw [if_pos he, dictMeaning, dictMeaning, he]
      by_cases hk : k = bytesOf t
      · rw [if_pos hk, if_pos hk]
      · rw [if_neg hk, if_neg hk, if_neg hk]
    · rw [if_neg he, dictMeaning, dictMeaning, ih]
      by_cases hk : k = bytesOf t
      · have hne : k ≠ bytesOf e.1 := fun h => he (bytesOf_injective (h.symm.trans hk))
        rw [if_neg hne, if_pos hk, if_pos hk]
      · rw [if_neg hk, if_neg hk]

/-- What the members mean in Python, key by key. -/
def convertedMeaning (members : List (Bytes × Value δ)) (k : Bytes) : Option (DataTree (Leaf δ) Bytes) :=
  (Record.find members k).map fun v => (json_to_python what v).meaning boolean

/-- With clean and distinct keys, the loop puts every member under its own key. -/
theorem membersToPython_clean : ∀ {members : List (Bytes × Value δ)} (py_dict : Record String (PyObject δ)),
    (∀ e ∈ members, CleanText e.1) → (Record.keys members).Nodup →
    ∃ entries, membersToPython what members py_dict = .ok entries ∧ ∀ k, dictMeaning boolean entries k =
      (convertedMeaning what boolean members k).or (dictMeaning boolean py_dict k) := by
  intro members
  induction members with
  | nil => exact fun py_dict _ _ => ⟨py_dict, rfl, fun k => rfl⟩
  | cons e members ih =>
    intro py_dict hclean hkeys
    obtain ⟨key, v⟩ := e
    rw [Record.keys_cons, List.nodup_cons] at hkeys
    obtain ⟨t, ht, hbytes⟩ := nb_str_of_clean what (hclean (key, v) (List.mem_cons_self ..))
    obtain ⟨entries, hrun, hentries⟩ := ih (py_dict.set t (json_to_python what v))
      (fun e he => hclean e (List.mem_cons_of_mem _ he)) hkeys.2
    refine ⟨entries, ?_, fun k => ?_⟩
    · rw [membersToPython, ht]
      exact hrun
    · rw [hentries, dictMeaning_set, hbytes]
      unfold convertedMeaning
      rw [Record.find_cons]
      by_cases hk : k = key
      · rw [hk, Record.find_eq_none.mpr hkeys.1, if_pos rfl, if_pos rfl]
        rfl
      · rw [if_neg hk, if_neg hk]

theorem clean_of_dictMeaning {what : Bytes → ErrorText} : ∀ {members : List (Bytes × Value δ)}
    {py_dict entries : Record String (PyObject δ)},
    membersToPython what members py_dict = .ok entries →
    (∀ k, (dictMeaning boolean py_dict k).isSome → CleanText k) →
    ∀ k, (dictMeaning boolean entries k).isSome → CleanText k := by
  intro members
  induction members with
  | nil =>
    intro py_dict entries hrun hclean
    obtain rfl := Except.ok.inj hrun
    exact hclean
  | cons e members ih =>
    intro py_dict entries hrun hclean
    obtain ⟨key, v⟩ := e
    rw [membersToPython] at hrun
    cases ht : nb_str what key with
    | error e =>
      rw [ht] at hrun
      cases hrun
    | ok t =>
      rw [ht] at hrun
      refine ih hrun fun k hk => ?_
      rw [dictMeaning_set] at hk
      split at hk
      · rename_i hkey
        rw [hkey]
        exact clean_of_nb_str ht
      · exact hclean k hk

end Dict

theorem memberMeaning_eq {boolean : Bool → Leaf δ} (k : Bytes) : ∀ members : List (Bytes × Value δ),
    memberMeaning boolean members k = (Record.find members k).map fun v => v.meaning boolean
  | [] => rfl
  | (key, v) :: members => by
    rw [Record.find_cons, memberMeaning, memberMeaning_eq k members]
    split <;> rfl

theorem membersClean_iff : ∀ {members : List (Bytes × Value δ)},
    membersClean members ↔ ∀ e ∈ members, CleanText e.1 ∧ e.2.Clean
  | [] => by simp [membersClean]
  | (key, v) :: members => by
    have hrest : membersClean members ↔ ∀ e ∈ members, CleanText e.1 ∧ e.2.Clean := membersClean_iff
    simp [membersClean, hrest, and_assoc]

mutual

/-- A clean value is faithful, whatever its booleans count as. -/
theorem meaning_of_clean (boolean : Bool → Leaf δ) : ∀ {v : Value δ}, v.DistinctKeys → v.Clean →
    (json_to_python what v).meaning boolean = v.meaning boolean
  | .null, _, _ | .bool_ _, _, _ | .int64 _, _, _ | .uint64 _, _, _ | .double_ _, _, _ => rfl
  | .string s, _, h => by
    obtain ⟨t, ht, hbytes⟩ := nb_str_of_clean what h
    rw [json_to_python, ht]
    show DataTree.leaf (Leaf.text (bytesOf t)) = _
    rw [hbytes]
    rfl
  | .array items, hdistinct, h => congrArg DataTree.seq (meanings_of_clean boolean hdistinct h)
  | .object members, hdistinct, h => by
    obtain ⟨hkeys, hdistinct⟩ := hdistinct
    obtain ⟨entries, hrun, hentries⟩ := membersToPython_clean what boolean []
      (fun e he => (membersClean_iff.mp h e he).1) hkeys
    rw [json_to_python, hrun]
    show DataTree.map (dictMeaning boolean entries) = .map (memberMeaning boolean members)
    congr 1
    funext k
    rw [hentries, memberMeaning_eq, ← convertedMeaning_of_clean boolean hdistinct h k]
    cases convertedMeaning what boolean members k <;> rfl

theorem meanings_of_clean (boolean : Bool → Leaf δ) : ∀ {items : List (Value δ)}, itemsDistinct items →
    itemsClean items → listMeanings boolean (itemsToPython what items) = itemMeanings boolean items
  | [], _, _ => rfl
  | v :: items, hdistinct, h => by
    rw [itemsToPython, listMeanings, itemMeanings, meaning_of_clean boolean hdistinct.1 h.1,
      meanings_of_clean boolean hdistinct.2 h.2]

theorem convertedMeaning_of_clean (boolean : Bool → Leaf δ) : ∀ {members : List (Bytes × Value δ)},
    membersDistinct members → membersClean members → ∀ k,
      convertedMeaning what boolean members k = (Record.find members k).map fun v => v.meaning boolean
  | [], _, _, _ => rfl
  | (key, v) :: members, hdistinct, h, k => by
    have hrest := convertedMeaning_of_clean boolean hdistinct.2 h.2.2 k
    unfold convertedMeaning at hrest ⊢
    rw [Record.find_cons]
    by_cases hk : k = key
    · rw [if_pos hk]
      exact congrArg some (meaning_of_clean boolean hdistinct.1 h.2.1)
    · rw [if_neg hk]
      exact hrest

end

/-! ### Faithful objects come from clean values -/

theorem nul_notMem_conversionError (e : ErrorText) :
    0 ∉ bytesOf ("<json conversion error: " ++ e.text ++ ">") := by
  have hopening : 0 ∉ bytesOf "<json conversion error: " := by decide
  have hclosing : 0 ∉ bytesOf ">" := by decide
  rw [bytesOf_append, bytesOf_append]
  simp [hopening, hclosing, e.noNul]

mutual

theorem clean_of_meaning : ∀ {v : Value δ}, v.DistinctKeys →
    (json_to_python what v).meaning .bool = v.meaning .bool → v.Clean
  | .null, _, _ | .bool_ _, _, _ | .int64 _, _, _ | .uint64 _, _, _ | .double_ _, _, _ => trivial
  | .string s, _, h => by
    cases ht : nb_str what s with
    | ok t =>
      rw [json_to_python, ht] at h
      have hbytes : bytesOf t = s := Leaf.text.inj (DataTree.leaf.inj h)
      rw [← hbytes]
      exact clean_of_nb_str ht
    | error e =>
      -- the text of the error would have to be the text itself, which then can be decoded
      rw [json_to_python, ht] at h
      have hbytes : bytesOf ("<json conversion error: " ++ e.text ++ ">") = s := Leaf.text.inj (DataTree.leaf.inj h)
      have hclean : CleanText s := by
        rw [← hbytes]
        exact ⟨nul_notMem_conversionError e, by rw [decode_bytesOf]; rfl⟩
      obtain ⟨t, ht', -⟩ := nb_str_of_clean what hclean
      rw [ht'] at ht
      cases ht
  | .array items, hdistinct, h => cleans_of_meanings hdistinct (DataTree.seq.inj h)
  | .object members, hdistinct, h => by
    obtain ⟨hkeys, hdistinct⟩ := hdistinct
    cases hrun : membersToPython what members [] with
    | error e =>
      rw [json_to_python, hrun] at h
      cases h
    | ok entries =>
      rw [json_to_python, hrun] at h
      have hmaps : ∀ k, dictMeaning .bool entries k = (Record.find members k).map fun v => v.meaning .bool := by
        intro k
        rw [← memberMeaning_eq]
        exact congrFun (DataTree.map.inj h) k
      -- every key stands in the dictionary, so it is clean
      have hclean : ∀ e ∈ members, CleanText e.1 := by
        intro e he
        refine clean_of_dictMeaning .bool hrun (by simp [dictMeaning]) e.1 ?_
        rw [hmaps, Record.find_of_mem hkeys he]
        rfl
      obtain ⟨entries', hrun', hentries⟩ := membersToPython_clean what .bool [] hclean hkeys
      obtain rfl : entries = entries' := Except.ok.inj (hrun.symm.trans hrun')
      refine membersClean_of_meanings hdistinct hclean hkeys fun k => ?_
      rw [← hmaps, hentries]
      cases convertedMeaning what .bool members k <;> rfl

theorem cleans_of_meanings : ∀ {items : List (Value δ)}, itemsDistinct items →
    listMeanings .bool (itemsToPython what items) = itemMeanings .bool items → itemsClean items
  | [], _, _ => trivial
  | v :: items, hdistinct, h => by
    obtain ⟨hfirst, hrest⟩ := List.cons.inj h
    exact ⟨clean_of_meaning hdistinct.1 hfirst, cleans_of_meanings hdistinct.2 hrest⟩

theorem membersClean_of_meanings : ∀ {members : List (Bytes × Value δ)}, membersDistinct members →
    (∀ e ∈ members, CleanText e.1) → (Record.keys members).Nodup →
    (∀ k, convertedMeaning what .bool members k = (Record.find members k).map fun v => v.meaning .bool) →
    membersClean members
  | [], _, _, _, _ => trivial
  | (key, v) :: members, hdistinct, hclean, hkeys, h => by
    rw [Record.keys_cons, List.nodup_cons] at hkeys
    refine ⟨hclean (key, v) (List.mem_cons_self ..), clean_of_meaning hdistinct.1 ?_,
      membersClean_of_meanings hdistinct.2 (fun e he => hclean e (List.mem_cons_of_mem _ he)) hkeys.2 fun k => ?_⟩
    · have hkey := h key
      unfold convertedMeaning at hkey
      rw [Record.find_cons, if_pos rfl] at hkey
      exact Option.some.inj hkey
    · have hk := h k
      unfold convertedMeaning at hk ⊢
      rw [Record.find_cons] at hk
      by_cases hkey : k = key
      · rw [hkey, Record.find_eq_none.mpr hkeys.1]
        rfl
      · rwa [if_neg hkey] at hk

end

/-! ### What is lost -/

/-- **When `json_to_python` is faithful.**  The object of a value is faithful exactly if no text and no
key in the value has a NUL, and all are UTF-8; the objects of two such values mean the same only if the
values do. -/
theorem json_to_python_faithful_iff :
    (∀ v : JsonValue δ, Faithful what v ↔ v.val.Clean) ∧
      ∀ v v' : JsonValue δ, v.val.Clean → v'.val.Clean →
        ((json_to_python what v.val).meaning .bool = (json_to_python what v'.val).meaning .bool ↔
          v.val.meaning .bool = v'.val.meaning .bool) := by
  refine ⟨fun v => ⟨clean_of_meaning what v.distinct, meaning_of_clean what .bool v.distinct⟩, fun v v' h h' => ?_⟩
  rw [meaning_of_clean what .bool v.distinct h, meaning_of_clean what .bool v'.distinct h']

/-- Python's `==` takes `True` and `False` for `1` and `0`. -/
def asNumber (b : Bool) : Leaf δ := .number (if b then 1 else 0)

/-- Under `==`, clean values are told apart up to their booleans. -/
theorem json_to_python_eq_iff {v v' : JsonValue δ} (h : v.val.Clean) (h' : v'.val.Clean) :
    (json_to_python what v.val).meaning asNumber = (json_to_python what v'.val).meaning asNumber ↔
      v.val.meaning asNumber = v'.val.meaning asNumber := by
  rw [meaning_of_clean what asNumber v.distinct h, meaning_of_clean what asNumber v'.distinct h']

/-- Two members whose keys agree up to a NUL. -/
def nulKeys : JsonValue Empty where
  val := .object [([97, 0, 98], .int64 1), ([97, 0, 99], .int64 2)]
  distinct := ⟨by decide, trivial, trivial, trivial⟩

def oneKey : JsonValue Empty where
  val := .object [([97], .int64 2)]
  distinct := ⟨by decide, trivial, trivial⟩

def unicodeError : Bytes → ErrorText := fun _ => ⟨"UnicodeDecodeError", by decide⟩

/-- The first member is lost, and the object is the one of another value. -/
theorem nulKeys_merged :
    ¬ ∀ v v' : JsonValue Empty,
      (json_to_python unicodeError v.val).meaning .bool = (json_to_python unicodeError v'.val).meaning .bool →
        v.val.meaning .bool = v'.val.meaning .bool := by
  intro h
  have hcut : ∀ s : Bytes, upToNul s = [97] → nb_str unicodeError s = .ok "a" := by
    intro s hs
    have hdecode : decode [97] = some "a" := decode_bytesOf "a"
    unfold nb_str
    rw [hs, hdecode]
  have hnul : json_to_python unicodeError nulKeys.val = .dict [("a", .int_ 2)] := by
    show json_to_python unicodeError (.object [([97, 0, 98], .int64 1), ([97, 0, 99], .int64 2)]) = _
    rw [json_to_python, membersToPython, hcut _ (by decide)]
    dsimp only
    rw [membersToPython, hcut _ (by decide)]
    rfl
  have hone : json_to_python unicodeError oneKey.val = .dict [("a", .int_ 2)] := by
    show json_to_python unicodeError (.object [([97], .int64 2)]) = _
    rw [json_to_python, membersToPython, hcut _ (by decide)]
    rfl
  have hmeaning := h nulKeys oneKey (by rw [hnul, hone])
  have hmember := congrFun (DataTree.map.inj hmeaning) [97]
  simp [memberMeaning] at hmember

/-! ### Responses -/

/-- `extract_response_json`: the outcome is a body, or an error with its message and whether it is transient.
An exception leaves it only while the error is written down. -/
def extract_response_json (parse : Bytes → Option (Value δ)) :
    Except (Bytes × Bool) Bytes → Except ErrorText (PyObject δ)
  | .error (message, is_transient) =>
    match nb_str what message with
    | .ok t => .ok (.dict [("error", .str t), ("transient", .bool_ is_transient)])
    | .error e => .error e
  | .ok body =>
    if body.isEmpty then .ok (.dict [])
    else
      match parse body with
      | some jv => .ok (json_to_python what jv)
      | none =>
        match nb_str what body with
        | .ok t => .ok (.str t)
        | .error e => .ok (.dict [("error", .str e.text)])

/-- A response whose body can be parsed gives the object of its value. -/
theorem extract_response_json_faithful_iff {parse : Bytes → Option (Value δ)} {body : Bytes} {v : JsonValue δ}
    (hbody : body ≠ []) (hparse : parse body = some v.val) :
    ∃ p, extract_response_json what parse (.ok body) = .ok p ∧
      (p.meaning .bool = v.val.meaning .bool ↔ v.val.Clean) := by
  refine ⟨json_to_python what v.val, ?_, ⟨clean_of_meaning what v.distinct, meaning_of_clean what .bool v.distinct⟩⟩
  unfold extract_response_json
  simp [hbody, hparse]

end Siesta.PythonUtil
