import Mangoxx.Fcmd.CStr
import Mathlib.Data.Int.Notation

/-! The data of `cJSON.c`.  A pointer into a text is what the text still has up to its NUL, a string
is what stands before its NUL, and allocations succeed. -/

namespace Mangoxx.CJson

open Fcmd (text)

abbrev Text := List UInt8

/-- Why a function ends early: it gives up with `ep`, it reads or writes outside of a block, an
`int` overflows, or a loop goes on for ever. -/
inductive Stop
  | malformed (ep : Text)
  | fault
  | overflow
  | spin
  deriving DecidableEq, Repr

abbrev Result := Except Stop

/-- What the functions use of `double`. -/
class Double (D : Type) where
  /-- The double nearest to an integer. -/
  ofInt : Int → D
  add : D → D → D
  sub : D → D → D
  mul : D → D → D
  /-- `pow(10.0, e)` -/
  pow10 : Int → D
  fabs : D → D
  floor : D → D
  eq : D → D → Bool
  le : D → D → Bool
  lt : D → D → Bool
  /-- `(int)d` -/
  toInt : D → Int
  dblEpsilon : D
  /-- `1.0e-6` -/
  millionth : D
  /-- `"%.0f"`, `"%e"` and `"%f"` of `sprintf` -/
  format0f : D → Text
  formatE : D → Text
  formatF : D → Text

instance : Double Int where
  ofInt := id
  add := Int.add
  sub := Int.sub
  mul := Int.mul
  pow10 e := Int.pow 10 e.toNat
  fabs x := x.natAbs
  floor := id
  eq a b := decide (a = b)
  le a b := decide (a ≤ b)
  lt a b := decide (a < b)
  toInt := id
  dblEpsilon := 0
  millionth := 0
  format0f := Fcmd.decimal
  formatE := Fcmd.decimal
  formatF := Fcmd.decimal

inductive Kind
  | false | true | null | number | string | array | object
  deriving DecidableEq, Repr

/-- The children are the list that starts at `child` and goes on with `next`. -/
structure Item (D : Type) where
  child : List (Item D)
  type : Kind
  valuestring : Option Text
  valueint : Int
  valuedouble : D
  string : Option Text

def intMax : Nat := 2147483647
def intMin : Int := -2147483648

variable {D : Type} [Double D]

def newItem : Item D := ⟨[], .false, none, 0, Double.ofInt 0, none⟩

def star (ptr : Text) : UInt8 := ptr.headD 0

def peek (i : Nat) (ptr : Text) : Result UInt8 :=
  if i ≤ ptr.length then .ok (ptr.getD i 0) else .error .fault

def advance (n : Nat) (ptr : Text) : Result Text :=
  if n ≤ ptr.length then .ok (ptr.drop n) else .error .fault

def store (room : Nat) (out : Text) : Result Text :=
  if intMax < room then .error .overflow
  else if room ≤ out.length then .error .fault
  else .ok out

def skip (ptr : Text) : Text := ptr.dropWhile fun c => c ≠ 0 ∧ c ≤ 32

def isDigit (c : UInt8) : Bool := '0'.toUInt8 ≤ c ∧ c ≤ '9'.toUInt8

end Mangoxx.CJson
