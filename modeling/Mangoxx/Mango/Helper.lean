import Mathlib.Data.List.DropRight
import Mangoxx.Fcmd.CStr

namespace Mangoxx.Mango

open Mangoxx.Fcmd

def isdigit (c : UInt8) : Bool := '0'.toUInt8 ≤ c ∧ c ≤ '9'.toUInt8

def strstr (key : List UInt8) : List UInt8 → Option Nat
  | [] => if key = [] then some 0 else none
  | c :: cs => if key.isPrefixOf (c :: cs) then some 0 else (strstr key cs).map (· + 1)

def tolower (c : UInt8) : UInt8 := if 'A'.toUInt8 ≤ c ∧ c ≤ 'Z'.toUInt8 then c + 32 else c

def strncasecmp (s name : List UInt8) : Bool :=
  (s.take name.length).map tolower = name.map tolower

/-- Digits in front of the text, ten at most. -/
def mangoHelperDecstr2dec (decstr : List UInt8) : Option UInt32 :=
  let digits := decstr.takeWhile isdigit
  if digits.length = 0 ∨ 11 ≤ digits.length then none
  else some (digits.foldl (fun dec c => dec * 10 + (c - 48).toUInt32) 0)

def hexDigit (c : UInt8) : Option UInt32 :=
  if 47 < c ∧ c < 58 then some (c - 48).toUInt32
  else if 64 < c ∧ c < 71 then some (c - 55).toUInt32
  else if 96 < c ∧ c < 103 then some (c - 87).toUInt32
  else none

def hexDigits : List UInt8 → List UInt32
  | [] => []
  | c :: cs =>
    match hexDigit c with
    | some d => d :: hexDigits cs
    | none => []

def mangoHelperHexstr2dec (hexstr : List UInt8) : Option UInt32 :=
  let hexstr :=
    if hexstr.take 2 = text "0x" ∨ hexstr.take 2 = text "0X" then hexstr.drop 2 else hexstr
  let digits := hexDigits hexstr
  if digits.length = 0 ∨ 9 ≤ digits.length then none
  else some (digits.foldl (fun dec d => dec * 16 + d) 0)

def mangoHelperDec2hexstr (dec : UInt32) : List UInt8 :=
  let hex := (List.range 8).map fun k => dec >>> (28 - 4 * k.toUInt32) &&& 0xF
  (hex.dropWhile (· = 0)).map fun d => (if d ≤ 9 then 48 + d else 55 + d).toUInt8

/-- The digits of the status code; a blank has to follow within `room` characters. -/
def statusDigits : (room : Nat) → List UInt8 → Option (List UInt8)
  | room + 1, c :: cs =>
    if isdigit c then (statusDigits room cs).map (c :: ·)
    else if c = 32 then some []
    else none
  | _, _ => none

/-- The result is negative for a malformed response, 0 for an incomplete one, otherwise the status
code.  The last end of line is taken off. -/
def mangoHelperHttpReponseVerify (response : Buf) : Int × Buf :=
  match strstr (text "\r\n\r\n") (Buf.cstr response 0) with
  | none => (0, response)
  | some i =>
    let response := (response.set (i + 2) 0).set (i + 3) 0
    match strstr (text " ") (Buf.cstr response 0) with
    | none => (-1, response)
    | some j =>
      match statusDigits 4 ((Buf.cstr response j).dropWhile (· = 32)) with
      | none => (-1, response)
      | some strBuf =>
        match mangoHelperDecstr2dec strBuf with
        | none => (-1, response)
        | some statusCode =>
          if statusCode < 100 ∨ 600 ≤ statusCode then (-1, response)
          else (statusCode.toNat, response)

def headerLine (name : List UInt8) : (p : Nat) → List UInt8 → Option Nat
  | _, [] => none
  | p, c :: cs =>
    if c = '\r'.toUInt8 ∧ cs.head? = some '\n'.toUInt8 ∧ strncasecmp cs.tail name then some (p + 2)
    else headerLine name (p + 1) cs

/-- The result is negative if the header is missing, 0 if the value does not fit in
`headerValueLen` bytes with its NUL; the value follows. -/
def mangoHelperHttpHeaderGet (response : Buf) (headerName : List UInt8) (headerValueLen : Nat) :
    Int × List UInt8 :=
  match headerLine headerName 0 (Buf.cstr response 0) with
  | none => (-1, [])
  | some p =>
    match (response.drop (p + headerName.length)).dropWhile (· = 32) with
    | [] => (-1, [])
    | c :: rest =>
      if c ≠ ':'.toUInt8 then (-1, [])
      else
        let rest := rest.dropWhile (· = 32)
        let value := rest.takeWhile (· ≠ '\r'.toUInt8)
        if value.length < headerValueLen then (1, value.rdropWhile (· = 32))
        else (0, value.take headerValueLen)

def elapsedTime (now starttime : UInt32) : UInt32 :=
  if now ≥ starttime then now - starttime else now + (0xffffffff - starttime)

end Mangoxx.Mango
