import Mathlib.Data.List.Basic

/-! The syntax of JSON: a value, its tokens, and the texts that spell the tokens with something
blank around them.  Strings are bytes, and their escapes are kept as they are written. -/

namespace Mangoxx.Lib.Json

def ascii (s : String) : List UInt8 := s.toList.map Char.toUInt8

section Strings

theorem forall_mem_of_all {P : UInt8 → Prop} [DecidablePred P] {l : List UInt8}
    (h : l.all fun c => decide (P c)) :
    ∀ c ∈ l, P c := fun c hc => of_decide_eq_true (List.all_eq_true.mp h c hc)

abbrev Plain := { c : UInt8 // 32 ≤ c ∧ c ≠ '"'.toUInt8 ∧ c ≠ '\\'.toUInt8 }

inductive Escape
  | quote | backslash | slash | b | f | n | r | t
  deriving DecidableEq, Repr

def Escape.letter : Escape → UInt8
  | .quote => '"'.toUInt8
  | .backslash => '\\'.toUInt8
  | .slash => '/'.toUInt8
  | .b => 'b'.toUInt8
  | .f => 'f'.toUInt8
  | .n => 'n'.toUInt8
  | .r => 'r'.toUInt8
  | .t => 't'.toUInt8

def Escape.byte : Escape → UInt8
  | .quote => 34
  | .backslash => 92
  | .slash => 47
  | .b => 8
  | .f => 12
  | .n => 10
  | .r => 13
  | .t => 9

structure HexDigit where
  val : Fin 16
  upper : Bool
  deriving DecidableEq, Repr

def HexDigit.zero : HexDigit := ⟨0, false⟩

def HexDigit.char (d : HexDigit) : UInt8 :=
  if d.val < 10 then 48 + d.val.val.toUInt8
  else if d.upper then 55 + d.val.val.toUInt8 else 87 + d.val.val.toUInt8

structure CodeUnit where
  a : HexDigit
  b : HexDigit
  c : HexDigit
  d : HexDigit
  deriving DecidableEq, Repr

namespace CodeUnit

def text (u : CodeUnit) : List UInt8 := [u.a.char, u.b.char, u.c.char, u.d.char]

def val (u : CodeUnit) : Nat :=
  ((u.a.val.val * 16 + u.b.val.val) * 16 + u.c.val.val) * 16 + u.d.val.val

theorem val_lt (u : CodeUnit) : u.val < 65536 := by
  unfold val
  omega

def High (u : CodeUnit) : Prop := 0xD800 ≤ u.val ∧ u.val < 0xDC00

def Low (u : CodeUnit) : Prop := 0xDC00 ≤ u.val ∧ u.val < 0xE000

end CodeUnit

/-- A part of a string that stands for one byte or one character. -/
inductive Piece
  | plain (c : Plain)
  | escape (e : Escape)
  | unit (u : CodeUnit) (h : ¬ u.High ∧ ¬ u.Low)
  | pair (u v : CodeUnit) (h : u.High ∧ v.Low)

namespace Piece

def text : Piece → List UInt8
  | .plain c => [c.val]
  | .escape e => ['\\'.toUInt8, e.letter]
  | .unit u _ => ascii "\\u" ++ u.text
  | .pair u v _ => ascii "\\u" ++ u.text ++ (ascii "\\u" ++ v.text)

theorem unit_valid {u : CodeUnit} (h : ¬ u.High ∧ ¬ u.Low) : u.val.isValidChar := by
  have := u.val_lt
  unfold CodeUnit.High CodeUnit.Low at h
  unfold Nat.isValidChar
  omega

def pairValue (u v : CodeUnit) : Nat := 0x10000 + (u.val - 0xD800) * 0x400 + (v.val - 0xDC00)

theorem pair_valid {u v : CodeUnit} (h : u.High ∧ v.Low) : (pairValue u v).isValidChar := by
  unfold CodeUnit.High CodeUnit.Low at h
  unfold Nat.isValidChar pairValue
  omega

def bytes : Piece → List UInt8
  | .plain c => [c.val]
  | .escape e => [e.byte]
  | .unit _ h => String.utf8EncodeChar (Char.ofNatAux _ (unit_valid h))
  | .pair _ _ h => String.utf8EncodeChar (Char.ofNatAux _ (pair_valid h))

theorem bytes_unit {u : CodeUnit} (h : ¬ u.High ∧ ¬ u.Low) :
    (Piece.unit u h).bytes = String.utf8EncodeChar (Char.ofNatAux u.val (unit_valid h)) := rfl

theorem bytes_pair {u v : CodeUnit} (h : u.High ∧ v.Low) :
    (Piece.pair u v h).bytes =
      String.utf8EncodeChar (Char.ofNatAux (pairValue u v) (pair_valid h)) := rfl

end Piece

def quoted (ps : List Piece) : List UInt8 := '"'.toUInt8 :: ps.flatMap Piece.text ++ ['"'.toUInt8]

end Strings

section Numbers

def digitChar (d : Fin 10) : UInt8 := 48 + d.val.toUInt8

def digitText (ds : List (Fin 10)) : List UInt8 := ds.map digitChar

structure Exponent where
  upper : Bool
  /-- The sign if there is one: whether it is a minus. -/
  sign : Option Bool
  digits : List (Fin 10)
  digits_ne_nil : digits ≠ []

def signText : Option Bool → List UInt8
  | none => []
  | some true => ['-'.toUInt8]
  | some false => ['+'.toUInt8]

def exponentText : Option Exponent → List UInt8
  | none => []
  | some e =>
    (if e.upper then 'E'.toUInt8 else 'e'.toUInt8) :: (signText e.sign ++ digitText e.digits)

def fractionText (ds : List (Fin 10)) : List UInt8 :=
  if ds = [] then [] else '.'.toUInt8 :: digitText ds

structure Number where
  negative : Bool
  lead : Fin 10
  int : List (Fin 10)
  /-- No number starts with a zero that another digit follows. -/
  int_eq_nil : lead = 0 → int = []
  /-- The digits behind the point; without any there is no point. -/
  frac : List (Fin 10)
  exp : Option Exponent

def Number.text (n : Number) : List UInt8 :=
  (if n.negative then ['-'.toUInt8] else []) ++
    (digitText (n.lead :: n.int) ++ (fractionText n.frac ++ exponentText n.exp))

end Numbers

section Values

inductive Value (N S : Type)
  | null
  | bool (b : Bool)
  | num (n : N)
  | str (s : S)
  | arr (vs : List (Value N S))
  | obj (ms : List (S × Value N S))

abbrev Syntax := Value Number (List Piece)

inductive Token
  | openArr | closeArr | openObj | closeObj | comma | colon
  | null
  | bool (b : Bool)
  | num (n : Number)
  | str (s : List Piece)

namespace Token

def text : Token → List UInt8
  | .openArr => ['['.toUInt8]
  | .closeArr => [']'.toUInt8]
  | .openObj => ['{'.toUInt8]
  | .closeObj => ['}'.toUInt8]
  | .comma => [','.toUInt8]
  | .colon => [':'.toUInt8]
  | .null => ascii "null"
  | .bool true => ascii "true"
  | .bool false => ascii "false"
  | .num n => n.text
  | .str s => quoted s

def first : Token → UInt8
  | .openArr => '['.toUInt8
  | .closeArr => ']'.toUInt8
  | .openObj => '{'.toUInt8
  | .closeObj => '}'.toUInt8
  | .comma => ','.toUInt8
  | .colon => ':'.toUInt8
  | .null => 'n'.toUInt8
  | .bool true => 't'.toUInt8
  | .bool false => 'f'.toUInt8
  | .num n => if n.negative then '-'.toUInt8 else digitChar n.lead
  | .str _ => '"'.toUInt8

theorem text_eq_cons (k : Token) : ∃ s, k.text = k.first :: s := by
  match k with
  | .openArr | .closeArr | .openObj | .closeObj | .comma | .colon | .null | .bool true | .bool false
  | .str s => exact ⟨_, rfl⟩
  | .num n =>
    cases hneg : n.negative <;> exact ⟨_, by simp [text, Number.text, first, hneg, digitText]; rfl⟩

def Closes : Token → Prop
  | .closeArr | .closeObj | .comma => True
  | _ => False

end Token

section Map

variable {N S N' S' : Type} (f : N → N') (g : S → S')

mutual

def Value.map : Value N S → Value N' S'
  | .null => .null
  | .bool b => .bool b
  | .num n => .num (f n)
  | .str s => .str (g s)
  | .arr vs => .arr (mapElements vs)
  | .obj ms => .obj (mapMembers ms)

def mapElements : List (Value N S) → List (Value N' S')
  | [] => []
  | v :: vs => v.map :: mapElements vs

def mapMembers : List (S × Value N S) → List (S' × Value N' S')
  | [] => []
  | (k, v) :: ms => (g k, v.map) :: mapMembers ms

end

end Map

mutual

def Value.tokens : Syntax → List Token
  | .null => [.null]
  | .bool b => [.bool b]
  | .num n => [.num n]
  | .str s => [.str s]
  | .arr vs => .openArr :: (elements vs ++ [.closeArr])
  | .obj ms => .openObj :: (members ms ++ [.closeObj])

def elements : List Syntax → List Token
  | [] => []
  | v :: vs => v.tokens ++ moreElements vs

def moreElements : List Syntax → List Token
  | [] => []
  | v :: vs => .comma :: (v.tokens ++ moreElements vs)

def members : List (List Piece × Syntax) → List Token
  | [] => []
  | (k, v) :: ms => .str k :: .colon :: (v.tokens ++ moreMembers ms)

def moreMembers : List (List Piece × Syntax) → List Token
  | [] => []
  | (k, v) :: ms => .comma :: .str k :: .colon :: (v.tokens ++ moreMembers ms)

end

def Value.firstToken : Syntax → Token
  | .null => .null
  | .bool b => .bool b
  | .num n => .num n
  | .str s => .str s
  | .arr _ => .openArr
  | .obj _ => .openObj

theorem Value.tokens_eq_cons (v : Syntax) : ∃ ks, v.tokens = v.firstToken :: ks := by
  cases v <;> exact ⟨_, by rw [tokens, firstToken]⟩

end Values

section Spelling

/-- The text has the tokens one after the other, and something blank before each of them and at the
end. -/
inductive Spells (blank : List UInt8 → Prop) : List Token → List UInt8 → Prop
  | nil {b : List UInt8} : blank b → Spells blank [] b
  | cons {b t : List UInt8} {ks : List Token} (k : Token) :
    blank b → Spells blank ks t → Spells blank (k :: ks) (b ++ (k.text ++ t))

variable {blank : List UInt8 → Prop} {ks ks' : List Token} {t t' : List UInt8}

def compact (ks : List Token) : List UInt8 := ks.flatMap Token.text

theorem spells_compact (hnil : blank []) (ks : List Token) : Spells blank ks (compact ks) := by
  induction ks with
  | nil => exact .nil hnil
  | cons k ks ih => exact .cons k hnil ih

theorem Spells.compact_length_le (h : Spells blank ks t) : (compact ks).length ≤ t.length := by
  induction h with
  | nil _ => exact Nat.zero_le _
  | cons k _ _ ih =>
    rw [compact, List.flatMap_cons, List.length_append, List.length_append, List.length_append]
    exact Nat.le_trans (Nat.add_le_add_left ih _) (Nat.le_add_left _ _)

theorem Spells.mono {blank' : List UInt8 → Prop} (h : Spells blank ks t)
    (hmono : ∀ b, blank b → blank' b) :
    Spells blank' ks t := by
  induction h with
  | nil hb => exact .nil (hmono _ hb)
  | cons k hb _ ih => exact .cons k (hmono _ hb) ih

theorem Spells.blank_append (hadd : ∀ b b', blank b → blank b' → blank (b ++ b')) {b : List UInt8}
    (hb : blank b) (h : Spells blank ks t) : Spells blank ks (b ++ t) := by
  cases h with
  | nil hb' => exact .nil (hadd _ _ hb hb')
  | cons k hb' h =>
    rw [← List.append_assoc]
    exact .cons k (hadd _ _ hb hb') h

theorem Spells.append (hadd : ∀ b b', blank b → blank b' → blank (b ++ b')) (h : Spells blank ks t)
    (h' : Spells blank ks' t') : Spells blank (ks ++ ks') (t ++ t') := by
  induction h with
  | nil hb => exact h'.blank_append hadd hb
  | cons k hb _ ih =>
    rw [List.append_assoc, List.append_assoc]
    exact .cons k hb ih

end Spelling

end Mangoxx.Lib.Json
