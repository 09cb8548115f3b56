import Mangoxx.CJson.Defs

namespace Mangoxx.CJson

open Fcmd (text)

variable {D : Type} [Double D]

section Number

def digitStep (n : D) (c : UInt8) : D :=
  Double.add (Double.mul n (Double.ofInt 10)) (Double.ofInt (c.toNat - 48))

def digitLoop (n : D) : Text → D × Text
  | [] => (n, [])
  | c :: num => if isDigit c then digitLoop (digitStep n c) num else (n, c :: num)

def fractionLoop (n : D) (scale : Int) : Text → D × Int × Text
  | [] => (n, scale, [])
  | c :: num =>
    if isDigit c then fractionLoop (digitStep n c) (scale - 1) num else (n, scale, c :: num)

def exponentLoop (subscale : Nat) : Text → Result (Nat × Text)
  | [] => .ok (subscale, [])
  | c :: num =>
    if isDigit c then
      if intMax < subscale * 10 + (c.toNat - 48) then .error .overflow
      else exponentLoop (subscale * 10 + (c.toNat - 48)) num
    else .ok (subscale, c :: num)

def numberSign (num : Text) : Int × Text :=
  if star num = '-'.toUInt8 then (-1, num.tail) else (1, num)

def integerPart (num : Text) : D × Text :=
  let num := if star num = '0'.toUInt8 then num.tail else num
  if '1'.toUInt8 ≤ star num ∧ star num ≤ '9'.toUInt8 then digitLoop (Double.ofInt 0) num
  else (Double.ofInt 0, num)

def fractionPart (n : D) (num : Text) : D × Int × Text :=
  if star num = '.'.toUInt8 ∧ isDigit (star num.tail) then fractionLoop n 0 num.tail
  else (n, 0, num)

def exponentSign (num : Text) : Int × Text :=
  if star num = '+'.toUInt8 then (1, num.tail)
  else if star num = '-'.toUInt8 then (-1, num.tail)
  else (1, num)

def exponentPart (num : Text) : Result (Int × Text) :=
  if star num = 'e'.toUInt8 ∨ star num = 'E'.toUInt8 then do
    let (signsubscale, num) := exponentSign num.tail
    let (subscale, num) ← exponentLoop 0 num
    return (subscale * signsubscale, num)
  else return (0, num)

def Item.setNumber (item : Item D) (n : D) : Item D :=
  { item with valuedouble := n, valueint := Double.toInt n, type := .number }

def parseNumber (item : Item D) (num : Text) : Result (Item D × Text) := do
  let (sign, num) := numberSign num
  let (n, num) := integerPart num
  let (n, scale, num) := fractionPart n num
  let (subscale, num) ← exponentPart num
  let n := Double.mul (Double.mul (Double.ofInt sign) n) (Double.pow10 (scale + subscale))
  return (item.setNumber n, num)

end Number

section String

/-- `parse_hex4` reads up to four digits and gives up with 0 at the first one that is none. -/
def hexDigit (c : UInt8) : Option Nat :=
  if '0'.toUInt8 ≤ c ∧ c ≤ '9'.toUInt8 then some (c.toNat - 48)
  else if 'A'.toUInt8 ≤ c ∧ c ≤ 'F'.toUInt8 then some (10 + (c.toNat - 65))
  else if 'a'.toUInt8 ≤ c ∧ c ≤ 'f'.toUInt8 then some (10 + (c.toNat - 97))
  else none

def parseHex4 (str : Text) : Nat :=
  match hexDigit (star str), hexDigit (star (str.drop 1)), hexDigit (star (str.drop 2)),
    hexDigit (star (str.drop 3)) with
  | some a, some b, some c, some d => (((((a <<< 4) + b) <<< 4) + c) <<< 4) + d
  | _, _, _, _ => 0

def firstByteMark : List Nat := [0x00, 0x00, 0xC0, 0xE0, 0xF0, 0xF8, 0xFC]

def utf8Length (uc : Nat) : Nat :=
  if uc < 0x80 then 1 else if uc < 0x800 then 2 else if uc < 0x10000 then 3 else 4

def utf8Bytes (mark : Nat) (uc : Nat) : (len : Nat) → List UInt8
  | 0 => []
  | 1 => [(uc ||| mark).toUInt8]
  | len + 1 => utf8Bytes mark (uc >>> 6) len ++ [((uc ||| 0x80) &&& 0xBF).toUInt8]

def utf8 (uc : Nat) : List UInt8 :=
  utf8Bytes (firstByteMark.getD (utf8Length uc) 0) uc (utf8Length uc)

def secondHalf (uc : Nat) (ptr : Text) : Result (List UInt8 × Text) := do
  if (← peek 1 ptr) ≠ '\\'.toUInt8 then
    return ([], ptr)
  else if (← peek 2 ptr) ≠ 'u'.toUInt8 then
    return ([], ptr)
  else
    let uc2 := parseHex4 (ptr.drop 3)
    let ptr ← advance 6 ptr
    if uc2 < 0xDC00 ∨ 0xDFFF < uc2 then
      return ([], ptr)
    else
      return (utf8 (0x10000 + (((uc &&& 0x3FF) <<< 10) ||| (uc2 &&& 0x3FF))), ptr)

def transcode (ptr : Text) : Result (List UInt8 × Text) := do
  let uc := parseHex4 (ptr.drop 1)
  let ptr ← advance 4 ptr
  if (0xDC00 ≤ uc ∧ uc ≤ 0xDFFF) ∨ uc = 0 then return ([], ptr)
  else if 0xD800 ≤ uc ∧ uc ≤ 0xDBFF then secondHalf uc ptr
  else return (utf8 uc, ptr)

def unescape (ptr : Text) : Result (List UInt8 × Text) :=
  let c := star ptr
  if c = 'b'.toUInt8 then .ok ([8], ptr)
  else if c = 'f'.toUInt8 then .ok ([12], ptr)
  else if c = 'n'.toUInt8 then .ok ([10], ptr)
  else if c = 'r'.toUInt8 then .ok ([13], ptr)
  else if c = 't'.toUInt8 then .ok ([9], ptr)
  else if c = 'u'.toUInt8 then transcode ptr
  else .ok ([c], ptr)

def copyTurn (ptr : Text) : Result (List UInt8 × Text) :=
  if star ptr ≠ '\\'.toUInt8 then .ok ([star ptr], ptr.tail)
  else do
    let (out, ptr) ← unescape ptr.tail
    return (out, ← advance 1 ptr)

def copyLoop (room : Nat) : (fuel : Nat) → Text → (out : List UInt8) → Result (List UInt8 × Text)
  | 0, _, _ => .error .spin
  | fuel + 1, ptr, out =>
    if star ptr = '"'.toUInt8 ∨ star ptr = 0 then .ok (out, ptr)
    else do
      let (bytes, ptr) ← copyTurn ptr
      if room < out.length + bytes.length then .error .fault
      else copyLoop room fuel ptr (out ++ bytes)

def lengthLoop : Text → (len : Nat) → Result Nat
  | [], len => .ok len
  | c :: ptr, len =>
    if c = '"'.toUInt8 ∨ c = 0 then .ok len
    else if intMax ≤ len + 1 then .error .overflow
    else if c ≠ '\\'.toUInt8 then lengthLoop ptr (len + 1)
    else
      match ptr with
      | [] => .error .fault
      | _ :: ptr => lengthLoop ptr (len + 1)

def parseString (item : Item D) (str : Text) : Result (Item D × Text) :=
  if star str ≠ '"'.toUInt8 then .error (.malformed str)
  else do
    let len ← lengthLoop str.tail 0
    let (out, ptr) ← copyLoop (len + 1) (str.length + 1) str.tail []
    if len < out.length then .error .fault
    else
      let ptr := if star ptr = '"'.toUInt8 then ptr.tail else ptr
      return ({ item with valuestring := some out, type := .string }, ptr)

end String

section Value

variable (parseValue : Item D → Text → Result (Item D × Text))

def elementLoop : (fuel : Nat) → List (Item D) → Text → Result (List (Item D) × Text)
  | 0, _, _ => .error .spin
  | fuel + 1, children, value =>
    if star value = ','.toUInt8 then do
      let (child, value) ← parseValue newItem (skip value.tail)
      elementLoop fuel (children ++ [child]) (skip value)
    else .ok (children, value)

def parseArray (item : Item D) (value : Text) : Result (Item D × Text) :=
  if star value ≠ '['.toUInt8 then .error (.malformed value)
  else
    let item := { item with type := .array }
    let value := skip value.tail
    if star value = ']'.toUInt8 then .ok (item, value.tail)
    else do
      let (child, value) ← parseValue newItem (skip value)
      let (children, value) ← elementLoop parseValue (value.length + 1) [child] (skip value)
      if star value = ']'.toUInt8 then return ({ item with child := children }, value.tail)
      else .error (.malformed value)

def parseMember (value : Text) : Result (Item D × Text) := do
  let (child, value) ← parseString newItem (skip value)
  let value := skip value
  let child := { child with string := child.valuestring, valuestring := none }
  if star value ≠ ':'.toUInt8 then .error (.malformed value)
  else
    let (child, value) ← parseValue child (skip value.tail)
    return (child, skip value)

def memberLoop : (fuel : Nat) → List (Item D) → Text → Result (List (Item D) × Text)
  | 0, _, _ => .error .spin
  | fuel + 1, children, value =>
    if star value = ','.toUInt8 then do
      let (child, value) ← parseMember parseValue value.tail
      memberLoop fuel (children ++ [child]) value
    else .ok (children, value)

def parseObject (item : Item D) (value : Text) : Result (Item D × Text) :=
  if star value ≠ '{'.toUInt8 then .error (.malformed value)
  else
    let item := { item with type := .object }
    let value := skip value.tail
    if star value = '}'.toUInt8 then .ok (item, value.tail)
    else do
      let (child, value) ← parseMember parseValue value
      let (children, value) ← memberLoop parseValue (value.length + 1) [child] value
      if star value = '}'.toUInt8 then return ({ item with child := children }, value.tail)
      else .error (.malformed value)

end Value

/-- Arrays and objects nest at most `fuel` deep. -/
def parseValue : (fuel : Nat) → Item D → Text → Result (Item D × Text)
  | 0, _, _ => .error .spin
  | fuel + 1, item, value =>
    if (text "null").isPrefixOf value then .ok ({ item with type := .null }, value.drop 4)
    else if (text "false").isPrefixOf value then .ok ({ item with type := .false }, value.drop 5)
    else if (text "true").isPrefixOf value then
      .ok ({ item with type := .true, valueint := 1 }, value.drop 4)
    else if star value = '"'.toUInt8 then parseString item value
    else if star value = '-'.toUInt8 ∨ isDigit (star value) then parseNumber item value
    else if star value = '['.toUInt8 then parseArray (parseValue fuel) item value
    else if star value = '{'.toUInt8 then parseObject (parseValue fuel) item value
    else .error (.malformed value)

def parseWithOpts (value : Text) (requireNullTerminated : Bool) : Result (Item D × Text) := do
  let (c, ptr) ← parseValue (value.length + 1) newItem (skip value)
  if requireNullTerminated then
    let ptr := skip ptr
    if star ptr ≠ 0 then .error (.malformed ptr) else return (c, ptr)
  else return (c, ptr)

def parse (value : Text) : Result (Item D) := do
  let (c, _) ← parseWithOpts value false
  return c

end Mangoxx.CJson
