import Mangoxx.Lib.Gf2

/-! `crc.c` and `crc.h`: the checksum of a message, bit by bit and with a table.  `unsigned long`
has 32 bits. -/

namespace Mangoxx.Crc

/-- The parameters of a standard whose type `crc` has `width` bits. -/
structure Standard (width : Nat) where
  polynomial : BitVec width
  initialRemainder : BitVec width
  finalXorValue : BitVec width
  reflectData : Bool
  reflectRemainder : Bool

def crcCcitt : Standard 16 where
  polynomial := 0x1021
  initialRemainder := 0xFFFF
  finalXorValue := 0x0000
  reflectData := false
  reflectRemainder := false

def crc16 : Standard 16 where
  polynomial := 0x8005
  initialRemainder := 0x0000
  finalXorValue := 0x0000
  reflectData := true
  reflectRemainder := true

def crc32 : Standard 32 where
  polynomial := 0x04C11DB7
  initialRemainder := 0xFFFFFFFF
  finalXorValue := 0xFFFFFFFF
  reflectData := true
  reflectRemainder := true

def reflectBit (nBits : Nat) (v : BitVec 32 × BitVec 32) (bit : Nat) : BitVec 32 × BitVec 32 :=
  (v.1 >>> 1, if v.1 &&& 1 ≠ 0 then v.2 ||| 1#32 <<< (nBits - 1 - bit) else v.2)

def reflect (data : BitVec 32) (nBits : Nat) : BitVec 32 :=
  ((List.range nBits).foldl (reflectBit nBits) (data, 0)).2

abbrev CrcTable (width : Nat) := Vector (BitVec width) 256

namespace Standard

variable {width : Nat} (std : Standard width)

def reflectedData (x : UInt8) : BitVec 8 :=
  if std.reflectData then (reflect (x.toBitVec.setWidth 32) 8).setWidth 8 else x.toBitVec

def reflectedRemainder (x : BitVec width) : BitVec width :=
  if std.reflectRemainder then (reflect (x.setWidth 32) width).setWidth width else x

def topbit (width : Nat) : BitVec width := BitVec.ofNat width 1 <<< (width - 1)

def divideBit (remainder : BitVec width) : BitVec width :=
  if remainder &&& topbit width ≠ 0 then remainder <<< 1 ^^^ std.polynomial else remainder <<< 1

def divideByte (remainder : BitVec width) : BitVec width := std.divideBit^[8] remainder

def slowByte (remainder : BitVec width) (byte : UInt8) : BitVec width :=
  std.divideByte (remainder ^^^ (std.reflectedData byte).setWidth width <<< (width - 8))

def crcSlow (message : List UInt8) : BitVec width :=
  std.reflectedRemainder (message.foldl std.slowByte std.initialRemainder) ^^^ std.finalXorValue

def crcInit (crcTable : CrcTable width) : CrcTable width :=
  (List.finRange 256).foldl (fun (crcTable : CrcTable width) (dividend : Fin 256) =>
    crcTable.set dividend (std.divideByte (BitVec.ofNat width dividend <<< (width - 8)))) crcTable

def fastByte (crcTable : CrcTable width) (remainder : BitVec width) (byte : UInt8) : BitVec width :=
  let data := std.reflectedData byte ^^^ (remainder >>> (width - 8)).setWidth 8
  crcTable[data.toFin] ^^^ remainder <<< 8

def crcFast (crcTable : CrcTable width) (message : List UInt8) : BitVec width :=
  std.reflectedRemainder (message.foldl (std.fastByte crcTable) std.initialRemainder) ^^^
    std.finalXorValue

end Standard

end Mangoxx.Crc
