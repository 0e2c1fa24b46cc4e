import Siesta.Lib.Text
import Mathlib.Data.Int.Notation

/-!
# Percent-encoding: `include/siesta/encoding.hpp`

What `url_encode` writes is read back by percent-decoding, on every string of bytes
(`url_decode_url_encode`), and has none of the characters that have a meaning in a target
(`mem_url_encode`).
-/

namespace Siesta

open Lib

/-- `"0123456789ABCDEF"[n]`. -/
def hexDigit (n : ℕ) : Char := "0123456789ABCDEF".toList.getD n '0'

/-- The characters `url_encode` leaves as they are. -/
def isUnreserved (c : Char) : Bool :=
  ('a' ≤ c && c ≤ 'z') || ('A' ≤ c && c ≤ 'Z') || ('0' ≤ c && c ≤ '9') || c = '-' || c = '_' ||
    c = '.' || c = '~'

/-- `url_encode`: one byte. -/
def encodeByte (c : Char) : Str :=
  if isUnreserved c then [c] else ['%', hexDigit (c.toNat / 16), hexDigit (c.toNat % 16)]

/-- `url_encode`. -/
def url_encode (sv : Str) : Str := sv.flatMap encodeByte

/-- `std::to_string` of an integer. -/
def to_string (i : ℤ) : Str :=
  match i with
  | .ofNat n => Nat.toDigits 10 n
  | .negSucc n => '-' :: Nat.toDigits 10 (n + 1)

/-- The lambda `hex` of `url_decode`. -/
def hexValue (c : Char) : Option ℕ :=
  if '0' ≤ c && c ≤ '9' then some (c.toNat - '0'.toNat)
  else if 'A' ≤ c && c ≤ 'F' then some (c.toNat - 'A'.toNat + 10)
  else if 'a' ≤ c && c ≤ 'f' then some (c.toNat - 'a'.toNat + 10)
  else none

def hexByte (hi lo : Char) : Option Char :=
  match hexValue hi, hexValue lo with
  | some h, some l => some (Char.ofNat (16 * h + l))
  | _, _ => none

/-- `url_decode` of `tests/echo/test_server.cpp`. -/
def url_decode : Str → Str
  | '%' :: hi :: lo :: s =>
    match hexByte hi lo with
    | some c => c :: url_decode s
    | none => '%' :: url_decode (hi :: lo :: s)
  | c :: s => c :: url_decode s
  | [] => []

def IsBytes (s : Str) : Prop := ∀ c ∈ s, c.toNat < 256

instance (s : Str) : Decidable (IsBytes s) := inferInstanceAs (Decidable (∀ c ∈ s, c.toNat < 256))

/-! ### Decoding -/

theorem url_decode_cons {c : Char} (h : c ≠ '%') (s : Str) : url_decode (c :: s) = c :: url_decode s := by
  rw [url_decode]
  rintro _ _ _ rfl
  exact absurd rfl h

theorem url_decode_escape {hi lo c : Char} (h : hexByte hi lo = some c) (s : Str) :
    url_decode ('%' :: hi :: lo :: s) = c :: url_decode s := by
  rw [url_decode, h]

theorem hexValue_hexDigit {n : ℕ} (h : n < 16) : hexValue (hexDigit n) = some n := by
  have hall : ∀ m < 16, hexValue (hexDigit m) = some m := by decide
  exact hall n h

theorem hexByte_hexDigit {c : Char} (h : c.toNat < 256) :
    hexByte (hexDigit (c.toNat / 16)) (hexDigit (c.toNat % 16)) = some c := by
  have hhi : c.toNat / 16 < 16 := by omega
  have hlo : c.toNat % 16 < 16 := by omega
  rw [hexByte, hexValue_hexDigit hhi, hexValue_hexDigit hlo]
  simp only [Nat.div_add_mod]
  rw [Char.ofNat_toNat]

theorem percent_reserved : isUnreserved '%' = false := by decide

theorem url_decode_encodeByte {c : Char} (h : c.toNat < 256) (s : Str) :
    url_decode (encodeByte c ++ s) = c :: url_decode s := by
  unfold encodeByte
  split
  · rename_i hc
    refine url_decode_cons ?_ s
    rintro rfl
    rw [percent_reserved] at hc
    cases hc
  · exact url_decode_escape (hexByte_hexDigit h) s

/-- **Decoding inverts encoding.** -/
theorem url_decode_url_encode {s : Str} (h : IsBytes s) : url_decode (url_encode s) = s := by
  induction s with
  | nil => rfl
  | cons c s ih =>
    have htail : IsBytes s := fun d hd => h d (List.mem_cons_of_mem _ hd)
    rw [url_encode, List.flatMap_cons, url_decode_encodeByte (h c (List.mem_cons_self ..)), ← url_encode,
      ih htail]

theorem url_decode_of_notMem {s : Str} (h : '%' ∉ s) : url_decode s = s := by
  induction s with
  | nil => rfl
  | cons c s ih =>
    rw [List.mem_cons, not_or] at h
    rw [url_decode_cons (Ne.symm h.1), ih h.2]

/-- Decoding does not make a text longer. -/
theorem length_url_decode_le (s : Str) : (url_decode s).length ≤ s.length := by
  induction s using url_decode.induct with
  | case1 hi lo s c h ih =>
    rw [url_decode_escape h]
    simp only [List.length_cons]
    omega
  | case2 hi lo s h ih =>
    rw [url_decode, h]
    exact Nat.succ_le_succ ih
  | case3 c s hno ih =>
    rw [url_decode]
    · exact Nat.succ_le_succ ih
    · exact hno
  | case4 => exact le_rfl

/-! ### The characters of encoded texts -/

theorem isUnreserved_hexDigit (n : ℕ) : isUnreserved (hexDigit n) = true := by
  by_cases h : n < 16
  · have hall : ∀ m < 16, isUnreserved (hexDigit m) = true := by decide
    exact hall n h
  · have hout : hexDigit n = '0' := by
      rw [hexDigit, List.getD_eq_getElem?_getD, List.getElem?_eq_none (Nat.le_of_not_lt h)]
      rfl
    rw [hout]
    decide

/-- Encoded texts have unreserved characters and `%` only. -/
theorem mem_url_encode {s : Str} {c : Char} (h : c ∈ url_encode s) : c = '%' ∨ isUnreserved c = true := by
  obtain ⟨b, -, hc⟩ := List.mem_flatMap.mp h
  unfold encodeByte at hc
  split at hc
  · rename_i hb
    rw [List.mem_singleton.mp hc]
    exact .inr hb
  · simp only [List.mem_cons, List.not_mem_nil, or_false] at hc
    rcases hc with rfl | rfl | rfl
    · exact .inl rfl
    · exact .inr (isUnreserved_hexDigit _)
    · exact .inr (isUnreserved_hexDigit _)

theorem isUnreserved_of_isDigit {c : Char} (h : c.isDigit = true) : isUnreserved c = true := by
  simp only [Char.isDigit, Bool.and_eq_true, decide_eq_true_eq] at h
  have hlo : '0' ≤ c := Char.le_def.mpr h.1
  have hhi : c ≤ '9' := Char.le_def.mpr h.2
  simp [isUnreserved, hlo, hhi]

theorem mem_to_string {i : ℤ} {c : Char} (h : c ∈ to_string i) : isUnreserved c = true := by
  have hdigits : ∀ n, c ∈ Nat.toDigits 10 n → isUnreserved c = true := fun n hn =>
    isUnreserved_of_isDigit (Nat.isDigit_of_mem_toDigits (by decide) (by decide) hn)
  cases i with
  | ofNat n => exact hdigits n h
  | negSucc n =>
    rcases List.mem_cons.mp h with rfl | h
    · decide
    · exact hdigits _ h

end Siesta
