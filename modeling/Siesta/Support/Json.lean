import Siesta.Lib.Record
import Siesta.Lib.Text
import Mathlib.Data.Int.Notation
import Mathlib.Algebra.Group.Int.Defs

/-!
# JSON values
-/

namespace Siesta

open Lib

/-- A JSON value; the members of an object stand in the order they were written. -/
inductive Json where
  | null
  | bool (b : Bool)
  | int (i : ℤ)
  | double (text : Str)
  | str (s : Str)
  | arr (items : List Json)
  | obj (members : List (Str × Json))

namespace Json

/-- `if_object`. -/
def if_object : Json → Option (Record Str Json)
  | .obj members => some members
  | _ => none

/-- `if_array`. -/
def if_array : Json → Option (List Json)
  | .arr items => some items
  | _ => none

/-- `get_string`. -/
def get_string : Json → Option Str
  | .str s => some s
  | _ => none

/-- `get_bool`. -/
def get_bool : Json → Option Bool
  | .bool b => some b
  | _ => none

/-- `get_int64`: an integer beyond its range is an error. -/
def get_int64 : Json → Option ℤ
  | .int i => if -2 ^ 63 ≤ i ∧ i < 2 ^ 63 then some i else none
  | _ => none

end Json

end Siesta
