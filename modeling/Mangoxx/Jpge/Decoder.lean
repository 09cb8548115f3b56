import Mangoxx.Lib.Huffman
import Mathlib.Logic.Function.Basic

/-! A baseline decoder for Huffman coded scans, under the names that the JPEG standard gives its
procedures.  It shares nothing with the encoder. -/

namespace Mangoxx.Jpge.Decoder

open Mangoxx.Lib BitString

structure Dht where
  bits : List UInt8
  huffval : List UInt8

def readDht : List UInt8 → Option ((UInt8 × Dht) × List UInt8)
  | ff :: c4 :: hi :: lo :: id :: rest =>
    let n := ((rest.take 16).map UInt8.toNat).sum
    if ff = 0xFF ∧ c4 = 0xC4 ∧ hi.toNat * 256 + lo.toNat = 2 + 1 + 16 + n ∧
        16 + n ≤ rest.length then
      some ((id, ⟨rest.take 16, (rest.drop 16).take n⟩), rest.drop (16 + n))
    else none
  | _ => none

def readDhts : (n : Nat) → List UInt8 → Option (List (UInt8 × Dht))
  | 0, bytes => if bytes = [] then some [] else none
  | n + 1, bytes =>
    if bytes = [] then some []
    else do
      let (table, rest) ← readDht bytes
      let tables ← readDhts n rest
      return table :: tables

/-- Take the zeros after `0xff` out of a scan; also what follows the scan, from the next marker
on. -/
def unstuff : List UInt8 → List UInt8 × List UInt8
  | b :: c :: rest =>
    if b = 0xFF then
      if c = 0 then
        let r := unstuff rest
        (b :: r.1, r.2)
      else ([], b :: c :: rest)
    else
      let r := unstuff (c :: rest)
      (b :: r.1, r.2)
  | rest => ([], rest)

/-- The markers of a file, at most `n`: segments are skipped by their length, and the scan behind
its header up to the next marker. -/
def markers : (n : Nat) → List UInt8 → Option (List UInt8)
  | 0, bytes => if bytes = [] then some [] else none
  | n + 1, ff :: marker :: bytes =>
    if ff ≠ 0xFF then none
    else if marker = 0xD8 ∨ marker = 0xD9 then (markers n bytes).map (marker :: ·)
    else
      match bytes with
      | hi :: lo :: bytes =>
        let length := hi.toNat * 256 + lo.toNat
        if 2 ≤ length ∧ length - 2 ≤ bytes.length then
          let rest := bytes.drop (length - 2)
          (markers n (if marker = 0xDA then (unstuff rest).2 else rest)).map (marker :: ·)
        else none
      | _ => none
  | _ + 1, bytes => if bytes = [] then some [] else none

def decodeSymbol (d : Dht) (bs : List Bool) : Option (Nat × List Bool) := do
  let (j, bs) ← Huffman.decode (d.bits.map UInt8.toNat) 0 0 0 bs
  let value ← d.huffval[j]?
  return (value.toNat, bs)

def receive (ssss : Nat) (bs : List Bool) : Option (Nat × List Bool) :=
  if ssss ≤ bs.length then some (ofBits (bs.take ssss), bs.drop ssss) else none

def extend (v t : Nat) : Int := if v < 2 ^ (t - 1) then v - 2 ^ t + 1 else v

def decodeDc (d : Dht) (pred : Int) (bs : List Bool) : Option (Int × List Bool) := do
  let (t, bs) ← decodeSymbol d bs
  if t = 0 then return (pred, bs)
  let (v, bs) ← receive t bs
  return (pred + extend v t, bs)

def decodeAc (d : Dht) (left : Nat) (bs : List Bool) : Option (List Int × List Bool) :=
  if left = 0 then some ([], bs)
  else
    match decodeSymbol d bs with
    | none => none
    | some (rs, bs) =>
      let rrrr := rs / 16
      let ssss := rs % 16
      if ssss = 0 then
        if rrrr = 15 then
          if 16 < left then
            (decodeAc d (left - 16) bs).map fun r => (List.replicate 16 0 ++ r.1, r.2)
          else none
        else some (List.replicate left 0, bs)
      else if rrrr < left then
        match receive ssss bs with
        | none => none
        | some (v, bs) =>
          (decodeAc d (left - rrrr - 1) bs).map fun r =>
            (List.replicate rrrr 0 ++ extend v ssss :: r.1, r.2)
      else none
termination_by left

def decodeBlock (dc ac : Dht) (pred : Int) (bs : List Bool) : Option (List Int × List Bool) := do
  let (first, bs) ← decodeDc dc pred bs
  let (rest, bs) ← decodeAc ac 63 bs
  return (first :: rest, bs)

/-- The table selector in the scan header: the first component has tables of its own. -/
def selector (component : Nat) : UInt8 := if component = 0 then 0 else 1

def decodeScan (tables : List (UInt8 × Dht)) :
    (components : List Nat) → (pred : Nat → Int) → List Bool → Option (List (List Int) × List Bool)
  | [], _, bs => some ([], bs)
  | c :: cs, pred, bs => do
    let dc ← tables.lookup (selector c)
    let ac ← tables.lookup (16 + selector c)
    let (block, bs) ← decodeBlock dc ac (pred c) bs
    let (blocks, bs) ← decodeScan tables cs (Function.update pred c (block.headD 0)) bs
    return (block :: blocks, bs)

end Mangoxx.Jpge.Decoder
