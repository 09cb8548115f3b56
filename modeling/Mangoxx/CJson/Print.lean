import Mangoxx.CJson.Defs
import Mathlib.Algebra.Group.Int.Defs
import Mathlib.Algebra.GroupWithZero.Nat

/-! The printer of `cJSON.c` without a buffer: a text is put together from the texts of its parts,
in a block whose size has been added up before. -/

namespace Mangoxx.CJson

open Fcmd (text decimal)

variable {D : Type} [Double D]

section Number

/-- The room that `print_number` asks for and what it prints. -/
def numberText (valueint : Int) (d : D) : Nat × Text :=
  if Double.eq d (Double.ofInt 0) then (2, text "0")
  else if Double.le (Double.fabs (Double.sub (Double.ofInt valueint) d)) Double.dblEpsilon ∧
      Double.le d (Double.ofInt intMax) ∧ Double.le (Double.ofInt intMin) d then
    (21, decimal valueint)
  else if Double.le (Double.fabs (Double.sub (Double.floor d) d)) Double.dblEpsilon ∧
      Double.lt (Double.fabs d) (Double.ofInt (10 ^ 60)) then
    (64, Double.format0f d)
  else if Double.lt (Double.fabs d) Double.millionth ∨
      Double.lt (Double.ofInt (10 ^ 9)) (Double.fabs d) then
    (64, Double.formatE d)
  else (64, Double.formatF d)

end Number

section String

def format04x (n : Nat) : Text :=
  let ds := (Nat.toDigits 16 n).map Char.toUInt8
  .replicate (4 - ds.length) '0'.toUInt8 ++ ds

def flagged (c : UInt8) : Bool := (0 < c ∧ c < 32) ∨ c = '"'.toUInt8 ∨ c = '\\'.toUInt8

def escape (c : UInt8) : Text :=
  if 31 < c ∧ c ≠ '"'.toUInt8 ∧ c ≠ '\\'.toUInt8 then [c]
  else if c = '\\'.toUInt8 then text "\\\\"
  else if c = '"'.toUInt8 then text "\\\""
  else if c = 8 then text "\\b"
  else if c = 12 then text "\\f"
  else if c = 10 then text "\\n"
  else if c = 13 then text "\\r"
  else if c = 9 then text "\\t"
  else text "\\u" ++ format04x c.toNat

def escapeLength (c : UInt8) : Nat :=
  1 +
    if ['"'.toUInt8, '\\'.toUInt8, 8, 12, 10, 13, 9].contains c then 1
    else if c < 32 then 5
    else 0

def stringText (str : Text) : Nat × Text :=
  if str.any flagged then
    ((str.map escapeLength).sum + 3, '"'.toUInt8 :: str.flatMap escape ++ ['"'.toUInt8])
  else (str.length + 3, '"'.toUInt8 :: str ++ ['"'.toUInt8])

/-- A string that is no pointer is read before it is tested. -/
def printStringPtr (str : Option Text) : Result Text := do
  match str with
  | none => .error .fault
  | some str => store (stringText str).1 (stringText str).2

end String

section Compose

def tabs (n : Nat) : Text := .replicate n '\t'.toUInt8

def joinEntries (fmt : Bool) : List Text → Text
  | [] => []
  | [entry] => entry
  | entry :: entries => entry ++ (if fmt then text ", " else text ",") ++ joinEntries fmt entries

def composeArray (fmt : Bool) (entries : List Text) : Result Text :=
  let len := 5 + (entries.map fun entry => entry.length + 2 + if fmt then 1 else 0).sum
  store len ('['.toUInt8 :: joinEntries fmt entries ++ [']'.toUInt8])

def memberText (depth : Nat) (fmt : Bool) (member : Text × Text) : Text :=
  (if fmt then tabs depth else []) ++ member.1 ++ (if fmt then text ":\t" else text ":") ++ member.2

def joinMembers (depth : Nat) (fmt : Bool) : List (Text × Text) → Text
  | [] => []
  | [member] => memberText depth fmt member ++ if fmt then text "\n" else []
  | member :: members =>
    memberText depth fmt member ++ (if fmt then text ",\n" else text ",") ++
      joinMembers depth fmt members

/-- `depth` has been counted up for the members. -/
def composeObject (depth : Nat) (fmt : Bool) (members : List (Text × Text)) : Result Text :=
  let len := 7 + (if fmt then depth else 0) + (members.map fun member =>
    member.2.length + member.1.length + 2 + if fmt then 2 + depth else 0).sum
  store len ((if fmt then text "\x7b\n" else text "\x7b") ++ joinMembers depth fmt members ++
    (if fmt then tabs (depth - 1) else []) ++ text "\x7d")

def emptyObject (depth : Nat) (fmt : Bool) : Nat × Text :=
  (if fmt then depth + 4 else 3,
    (if fmt then text "\x7b\n" ++ tabs (depth - 1) else text "\x7b") ++ text "\x7d")

end Compose

mutual

def printValue : Item D → (depth : Nat) → (fmt : Bool) → Result Text
  | ⟨child, type, valuestring, valueint, valuedouble, _⟩, depth, fmt =>
    match type with
    | .null => store 5 (text "null")
    | .false => store 6 (text "false")
    | .true => store 5 (text "true")
    | .number => store (numberText valueint valuedouble).1 (numberText valueint valuedouble).2
    | .string => printStringPtr valuestring
    | .array =>
      if child.isEmpty then store 3 (text "[]")
      else do composeArray fmt (← printEntries child (depth + 1) fmt)
    | .object =>
      if child.isEmpty then store (emptyObject depth fmt).1 (emptyObject depth fmt).2
      else do composeObject (depth + 1) fmt (← printMembers child (depth + 1) fmt)

def printEntries : List (Item D) → (depth : Nat) → (fmt : Bool) → Result (List Text)
  | [], _, _ => .ok []
  | c :: child, depth, fmt => do
    let ret ← printValue c depth fmt
    return ret :: (← printEntries child depth fmt)

def printMembers : List (Item D) → (depth : Nat) → (fmt : Bool) → Result (List (Text × Text))
  | [], _, _ => .ok []
  | c :: child, depth, fmt => do
    let str ← printStringPtr c.string
    let ret ← printValue c depth fmt
    return (str, ret) :: (← printMembers child depth fmt)

end

def print (item : Item D) : Result Text := printValue item 0 true

def printUnformatted (item : Item D) : Result Text := printValue item 0 false

end Mangoxx.CJson
