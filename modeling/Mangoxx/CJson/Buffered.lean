import Mangoxx.CJson.Minify
import Mangoxx.Lib.Triple
import Mathlib.Algebra.Group.Nat.Defs

namespace Mangoxx.CJson

open Lib.Json Lib.Program
open Fcmd (text)

variable {D : Type} [Double D]

section Buffer

/-- A `printbuffer`: its `length` is that of the block at `buffer`. -/
structure Printbuffer where
  buffer : List UInt8
  offset : Nat

abbrev BufferM := EStateM Stop Printbuffer

def pow2gt (x : Nat) : Nat :=
  let x := x - 1
  let x := x ||| x >>> 1
  let x := x ||| x >>> 2
  let x := x ||| x >>> 4
  let x := x ||| x >>> 8
  let x := x ||| x >>> 16
  x + 1

/-- What a new block of so many bytes holds. -/
abbrev Fresh := (n : Nat) → Vector UInt8 n

variable (fresh : Fresh)

def ensure (needed : Nat) : BufferM Unit := do
  let p ← get
  let needed := needed + p.offset
  if p.buffer.length < needed then
    let newsize := pow2gt needed
    if intMax < newsize then throw .overflow
    if newsize < p.buffer.length then throw .fault
    set { p with buffer := p.buffer ++ (fresh newsize).toList.drop p.buffer.length }

def write (s : List UInt8) : BufferM Unit := do
  let p ← get
  if p.buffer.length < p.offset + s.length then throw .fault
  set { p with buffer := p.buffer.take p.offset ++ s ++ p.buffer.drop (p.offset + s.length) }

def advanceOffset (n : Nat) : BufferM Unit := modify fun p => { p with offset := p.offset + n }

def strlen (ptr : Nat) : BufferM Nat := do
  let p ← get
  let n := ((p.buffer.drop ptr).takeWhile (· ≠ 0)).length
  if p.buffer.length ≤ ptr + n then throw .fault
  return n

def update : BufferM Unit := do
  advanceOffset (← strlen (← get).offset)

def writeText (roomText : Nat × Text) : BufferM Nat := do
  ensure fresh roomText.1
  write (roomText.2 ++ [0])
  return (← get).offset

def writeStringPtr (str : Option Text) : BufferM Nat :=
  match str with
  | none => throw .fault
  | some str => writeText fresh (stringText str)

end Buffer

section Values

variable (fresh : Fresh)

mutual

def writeValue : Item D → (depth : Nat) → (fmt : Bool) → BufferM Nat
  | ⟨child, type, valuestring, valueint, valuedouble, _⟩, depth, fmt =>
    match type with
    | .null => writeText fresh (5, text "null")
    | .false => writeText fresh (6, text "false")
    | .true => writeText fresh (5, text "true")
    | .number => writeText fresh (numberText valueint valuedouble)
    | .string => writeStringPtr fresh valuestring
    | .array =>
      if child.isEmpty then writeText fresh (3, text "[]")
      else do
        let i := (← get).offset
        ensure fresh 1
        write (text "[")
        advanceOffset 1
        writeElements child (depth + 1) fmt
        ensure fresh 2
        write (text "]" ++ [0])
        return i
    | .object =>
      if child.isEmpty then writeText fresh (emptyObject depth fmt)
      else do
        let i := (← get).offset
        let len := if fmt then 2 else 1
        ensure fresh (len + 1)
        write ((if fmt then text "\x7b\n" else text "\x7b") ++ [0])
        advanceOffset len
        writeMembers child (depth + 1) fmt
        ensure fresh (if fmt then depth + 1 + 1 else 2)
        write ((if fmt then tabs (depth + 1 - 1) else []) ++ text "\x7d" ++ [0])
        -- with format the tabs have been counted in `i`
        return if fmt then depth + 1 - 1 else i

def writeElements : List (Item D) → (depth : Nat) → (fmt : Bool) → BufferM Unit
  | [], _, _ => return
  | c :: child, depth, fmt => do
    let _ ← writeValue c depth fmt
    update
    if ¬ child.isEmpty then
      let len := if fmt then 2 else 1
      ensure fresh (len + 1)
      write ((if fmt then text ", " else text ",") ++ [0])
      advanceOffset len
    writeElements child depth fmt

def writeMembers : List (Item D) → (depth : Nat) → (fmt : Bool) → BufferM Unit
  | [], _, _ => return
  | c :: child, depth, fmt => do
    if fmt then
      ensure fresh depth
      write (tabs depth)
      advanceOffset depth
    let _ ← writeStringPtr fresh c.string
    update
    let len := if fmt then 2 else 1
    ensure fresh len
    write (if fmt then text ":\t" else text ":")
    advanceOffset len
    let _ ← writeValue c depth fmt
    update
    let len := (if fmt then 1 else 0) + if child.isEmpty then 0 else 1
    ensure fresh (len + 1)
    write ((if child.isEmpty then [] else text ",") ++ (if fmt then text "\n" else []) ++ [0])
    advanceOffset len
    writeMembers child depth fmt

end

def printBuffered (item : Item D) (prebuffer : Nat) (fmt : Bool) : Result Text :=
  let program : BufferM Text := do
    let out ← writeValue fresh item 0 fmt
    let n ← strlen out
    return ((← get).buffer.drop out).take n
  match program ⟨(fresh prebuffer).toList, 0⟩ with
  | .ok t _ => .ok t
  | .error e _ => .error e

end Values

section Steps

variable {fresh : Fresh} {w : Text} {p : Printbuffer} {Q : α → Printbuffer → Prop}

theorem le_pow2gt (x : Nat) : x ≤ pow2gt x := by
  have hor (y z : Nat) : y ≤ y ||| z := Nat.left_le_or
  have hchain : x - 1 ≤ pow2gt x - 1 :=
    (hor _ _).trans ((hor _ _).trans ((hor _ _).trans ((hor _ _).trans (hor _ _))))
  have hpos : 0 < pow2gt x := Nat.succ_pos _
  omega

theorem pow2gt_le (h : x ≤ 2 ^ 30) : pow2gt x ≤ 2 ^ 30 := by
  have hor {y : Nat} (k : Nat) (hy : y < 2 ^ 30) : y ||| y >>> k < 2 ^ 30 :=
    Nat.or_lt_two_pow hy (Nat.lt_of_le_of_lt (Nat.shiftRight_le y k) hy)
  have hx : x - 1 < 2 ^ 30 := by
    have : 0 < 2 ^ 30 := by decide
    omega
  exact hor 16 (hor 8 (hor 4 (hor 2 (hor 1 hx))))

def Holds (p : Printbuffer) (w : Text) : Prop := p.offset = w.length ∧ ∃ rest, p.buffer = w ++ rest

/-- Behind `w` stands the string `t`, and the offset is somewhere in it. -/
def Written (p : Printbuffer) (w t : Text) : Prop :=
  w.length ≤ p.offset ∧ p.offset ≤ w.length + t.length ∧ ∃ rest, p.buffer = w ++ (t ++ 0 :: rest)

abbrev Never : Stop → Printbuffer → Prop := fun _ _ => False

theorem ensure_post (hp : Holds p w) (hmax : w.length + needed ≤ 2 ^ 30) :
    Post (fun _ p' => Holds p' w ∧ w.length + needed ≤ p'.buffer.length) Never
      (ensure fresh needed p) := by
  obtain ⟨buffer, offset⟩ := p
  obtain ⟨rfl, rest, rfl⟩ := hp
  have hle := le_pow2gt (needed + w.length)
  have hsize : ¬ intMax < pow2gt (needed + w.length) :=
    Nat.not_lt.mpr ((pow2gt_le (by omega)).trans (by decide))
  by_cases hgrow : (w ++ rest).length < needed + w.length
  · have hcopy : ¬ pow2gt (needed + w.length) < (w ++ rest).length := by omega
    have hrun : ensure fresh needed ⟨w ++ rest, w.length⟩ =
        .ok () ⟨w ++ rest ++ (fresh (pow2gt (needed + w.length))).toList.drop (w ++ rest).length,
          w.length⟩ := by
      simp only [ensure, bind, EStateM.bind, get_eq, if_pos hgrow,
        if_neg hsize, if_neg hcopy, set_eq, pure]
    rw [hrun]
    refine ⟨⟨rfl, _, List.append_assoc _ _ _⟩, ?_⟩
    rw [List.length_append, List.length_drop, Vector.length_toList]
    omega
  · have hrun : ensure fresh needed ⟨w ++ rest, w.length⟩ = .ok () ⟨w ++ rest, w.length⟩ := by
      simp only [ensure, bind, EStateM.bind, get_eq, if_neg hgrow, pure,
        EStateM.pure]
    rw [hrun]
    exact ⟨⟨rfl, rest, rfl⟩, by rw [Nat.add_comm]; exact Nat.not_lt.mp hgrow⟩

theorem write_post (hp : Holds p w) (hroom : w.length + s.length ≤ p.buffer.length) :
    Post (fun _ p' => p'.offset = w.length ∧ ∃ rest, p'.buffer = w ++ (s ++ rest)) Never
      (write s p) := by
  obtain ⟨buffer, offset⟩ := p
  obtain ⟨rfl, rest, rfl⟩ := hp
  have hrun : write s ⟨w ++ rest, w.length⟩ =
      .ok () ⟨w ++ s ++ (w ++ rest).drop (w.length + s.length), w.length⟩ := by
    simp only [write, bind, EStateM.bind, get_eq,
      if_neg (Nat.not_lt.mpr hroom), set_eq, List.take_left]
  rw [hrun]
  exact ⟨rfl, _, List.append_assoc _ _ _⟩

theorem append_then (s nul : Text) {s' : Text} {needed len : Nat} {f : BufferM α} (hp : Holds p w)
    (hs : s' = s ++ nul) (hlen : len = s.length) (hneeded : s'.length ≤ needed)
    (hmax : w.length + needed ≤ 2 ^ 30) (hf : ∀ p', Holds p' (w ++ s) → Post Q Never (f p')) :
    Post Q Never ((do ensure fresh needed; write s'; advanceOffset len; f) p) := by
  refine (ensure_post hp hmax).bind fun _ p₁ hp₁ => ?_
  refine (write_post hp₁.1 (by omega)).bind fun _ p₂ hp₂ => ?_
  obtain ⟨hoffset, rest, hbuffer⟩ := hp₂
  have hrun : advanceOffset len p₂ = .ok () { p₂ with offset := p₂.offset + len } := rfl
  rw [bind_ok hrun]
  refine hf _ ⟨?_, nul ++ rest, ?_⟩
  · rw [hoffset, hlen, List.length_append]
  · rw [hbuffer, hs, List.append_assoc, List.append_assoc]

theorem strlen_post (h : Written p w t) (h0 : 0 ∉ t) (hge : w.length ≤ ptr)
    (hle : ptr ≤ w.length + t.length) : strlen ptr p = .ok (w.length + t.length - ptr) p := by
  obtain ⟨-, -, rest, hbuffer⟩ := h
  have hdrop : p.buffer.drop ptr = t.drop (ptr - w.length) ++ 0 :: rest := by
    have hfirst : ptr - w.length - t.length = 0 := by omega
    rw [hbuffer, List.drop_append, List.drop_eq_nil_of_le hge, List.nil_append,
      List.drop_append, hfirst, List.drop_zero]
  have hzero : ∀ c ∈ t.drop (ptr - w.length), decide (c ≠ 0) = true := fun c hc =>
    decide_eq_true fun heq => h0 (heq ▸ List.mem_of_mem_drop hc)
  have htake : (p.buffer.drop ptr).takeWhile (· ≠ 0) = t.drop (ptr - w.length) := by
    rw [hdrop, List.takeWhile_append_of_pos hzero, List.takeWhile_cons_of_neg (by simp),
      List.append_nil]
  have hlength : ¬ p.buffer.length ≤ ptr + (w.length + t.length - ptr) := by
    rw [hbuffer, List.length_append, List.length_append, List.length_cons]
    omega
  have hn : t.length - (ptr - w.length) = w.length + t.length - ptr := by omega
  rw [strlen]
  simp only [bind, EStateM.bind, get_eq, htake, List.length_drop,
    hn, if_neg hlength, pure, EStateM.pure]

theorem update_then {f : BufferM α} (h : Written p w t) (h0 : 0 ∉ t)
    (hf : ∀ p', Holds p' (w ++ t) → Post Q Never (f p')) : Post Q Never ((do update; f) p) := by
  have hrun : update p = .ok () { p with offset := w.length + t.length } := by
    have hlen := strlen_post h h0 h.1 h.2.1
    have hsum : p.offset + (w.length + t.length - p.offset) = w.length + t.length := by
      have := h.2.1
      omega
    rw [update]
    simp only [bind, EStateM.bind, get_eq, hlen, advanceOffset, modify_eq, hsum]
  obtain ⟨-, -, rest, hbuffer⟩ := h
  rw [bind_ok hrun]
  exact hf _ ⟨List.length_append.symm, 0 :: rest, by rw [hbuffer, List.append_assoc]⟩

theorem finish_then (u t : Text) {s' : Text} {needed out : Nat} (hp : Holds p (w ++ u))
    (hs : s' = t ++ [0]) (hneeded : s'.length ≤ needed) (hmax : (w ++ u).length + needed ≤ 2 ^ 30) :
    Post (fun out' p' => Written p' w (u ++ t) ∧ out' = out) Never
      ((do ensure fresh needed; write s'; return out) p) := by
  refine (ensure_post hp hmax).bind fun _ p₁ hp₁ => ?_
  refine (write_post hp₁.1 (by omega)).bind fun _ p₂ hp₂ => ?_
  obtain ⟨hoffset, rest, hbuffer⟩ := hp₂
  rw [List.length_append] at hoffset
  refine ⟨⟨by omega, by rw [List.length_append]; omega, rest, ?_⟩, rfl⟩
  rw [hbuffer, hs]
  simp

theorem writeText_post (roomText : Nat × Text) (hp : Holds p w)
    (hroom : roomText.2.length < roomText.1) (hmax : w.length + roomText.1 ≤ 2 ^ 30) :
    Post (fun out p' => Written p' w roomText.2 ∧ out = w.length) Never
      (writeText fresh roomText p) := by
  refine (ensure_post hp hmax).bind fun _ p₁ hp₁ => ?_
  refine (write_post (s := roomText.2 ++ [0]) hp₁.1 ?_).bind fun _ p₂ hp₂ => ?_
  · rw [List.length_append, List.length_singleton]
    omega
  · obtain ⟨hoffset, rest, hbuffer⟩ := hp₂
    exact ⟨⟨hoffset.ge, by omega, rest, by rw [hbuffer, List.append_assoc]; rfl⟩, hoffset⟩

theorem writeStringPtr_post {str : Text} (hstr : 0 ∉ str) (hp : Holds p w)
    (hmax : w.length + (stringText str).2.length + 64 ≤ 2 ^ 30) :
    Post (fun out p' => Written p' w (stringText str).2 ∧ out = w.length) Never
      (writeStringPtr fresh (some str) p) := by
  have hroom := stringText_room hstr
  exact writeText_post (stringText str) hp (by omega) (by omega)

end Steps

section Zeros

theorem zero_not_mem_piece (p : Piece) : 0 ∉ p.text := by
  have hhex (u : CodeUnit) : 0 ∉ u.text := by
    simp [CodeUnit.text, (hexChar_plain _).2.1.symm]
  have hslash : 0 ∉ ascii "\\u" := by decide
  cases p with
  | plain c =>
    obtain ⟨c, hlow, -⟩ := c
    rintro hc
    obtain rfl : 0 = c := List.mem_singleton.mp hc
    exact absurd hlow (by decide)
  | escape e => cases e <;> decide
  | unit u h => exact fun hc => (List.mem_append.mp hc).elim hslash (hhex u)
  | pair u v h =>
    intro hc
    simp only [Piece.text, List.mem_append] at hc
    rcases hc with (hc | hc) | (hc | hc)
    · exact hslash hc
    · exact hhex u hc
    · exact hslash hc
    · exact hhex v hc

theorem zero_not_mem_token (k : Token) : 0 ∉ k.text := by
  match k with
  | .openArr | .closeArr | .openObj | .closeObj | .comma | .colon | .null | .bool true
  | .bool false => decide
  | .num n => exact fun hc => (number_ordinary n 0 hc).1 rfl
  | .str s =>
    have hquote : (0 : UInt8) ≠ '"'.toUInt8 := by decide
    simp only [Token.text, quoted, List.mem_cons, List.mem_append, List.mem_flatMap, not_or]
    refine ⟨⟨hquote, ?_⟩, hquote, List.not_mem_nil⟩
    rintro ⟨p, -, hp⟩
    exact zero_not_mem_piece p hp

theorem zero_not_mem_spells (h : Spells Skipped ks t) : 0 ∉ t := by
  have hblank {b : List UInt8} (hb : Skipped b) : 0 ∉ b := fun hc => (hb 0 hc).1 rfl
  induction h with
  | nil hb => exact hblank hb
  | cons k hb _ ih =>
    simp only [List.mem_append, not_or]
    exact ⟨hblank hb, zero_not_mem_token k, ih⟩

theorem zero_not_mem_printed (item : Item D) (h : Printable item) (depth : Nat) (fmt : Bool) :
    0 ∉ printed item depth fmt := by
  obtain ⟨v, hspell, -⟩ := printed_spells item h
  exact zero_not_mem_spells ((hspell depth fmt).mono fun _ => Layout.skipped)

theorem zero_not_mem_stringText (h : 0 ∉ str) : 0 ∉ (stringText str).2 := by
  rw [stringText_quoted h]
  exact zero_not_mem_token (.str _)

end Zeros

section Runs

theorem comma_joinEntries (fmt : Bool) (h : entries ≠ []) :
    comma fmt ++ joinEntries fmt entries = entries.flatMap fun e => comma fmt ++ e := by
  cases entries with
  | nil => exact absurd rfl h
  | cons e es => rw [joinEntries_cons, List.flatMap_cons, List.append_assoc]

def memberEnd (fmt last : Bool) : Text :=
  (if last then [] else text ",") ++ if fmt then text "\n" else []

theorem joinMembers_step (depth : Nat) (fmt : Bool) (m : Text × Text) (ms : List (Text × Text)) :
    joinMembers depth fmt (m :: ms) = memberText depth fmt m ++ memberEnd fmt ms.isEmpty ++
      joinMembers depth fmt ms := by
  cases ms with
  | nil => simp [joinMembers, memberEnd]
  | cons m' ms =>
    have hcomma : memberEnd fmt (m' :: ms).isEmpty = if fmt then text ",\n" else text "," := by
      cases fmt <;> rfl
    rw [hcomma, joinMembers]
    simp

theorem memberEnd_length (fmt last : Bool) :
    (memberEnd fmt last).length = (if fmt then 1 else 0) + if last then 0 else 1 := by
  cases fmt <;> cases last <;> rfl

theorem printedMembers_isEmpty (child : List (Item D)) (depth : Nat) (fmt : Bool) :
    (printedMembers child depth fmt).isEmpty = child.isEmpty := by
  cases child <;> rfl

variable {fresh : Fresh} {w : Text} {p : Printbuffer}

def Returned (w : Text) (depth : Nat) (t : Text) (out : Nat) (p : Printbuffer) : Prop :=
  Written p w t ∧ (w = [] → depth = 0 → out = 0)

theorem writeText_returned (roomText : Nat × Text) (hp : Holds p w)
    (hroom : roomText.2.length < roomText.1) (hsize : roomText.1 ≤ roomText.2.length + 64)
    (hmax : w.length + roomText.2.length + 64 ≤ 2 ^ 30) :
    Post (Returned w depth roomText.2) Never (writeText fresh roomText p) := by
  have hneeded : w.length + roomText.1 ≤ 2 ^ 30 := by omega
  refine (writeText_post roomText hp hroom hneeded).mono fun out p' hp' => ⟨hp'.1, fun hw _ => ?_⟩
  rw [hp'.2, hw]
  rfl

theorem writeArray_post {elements : BufferM Unit} {t : Text} (hp : Holds p w)
    (hmax : w.length + (text "[" ++ t ++ text "]").length + 64 ≤ 2 ^ 30)
    (helements : ∀ p₁, Holds p₁ (w ++ text "[") →
      Post (fun _ p₂ => Holds p₂ (w ++ text "[" ++ t)) Never (elements p₁)) :
    Post (Returned w depth (text "[" ++ t ++ text "]")) Never
      ((do
        let i := (← get).offset
        ensure fresh 1
        write (text "[")
        advanceOffset 1
        elements
        ensure fresh 2
        write (text "]" ++ [0])
        return i : BufferM Nat) p) := by
  have hone : (text "[").length = 1 ∧ (text "]").length = 1 := ⟨rfl, rfl⟩
  simp only [List.length_append] at hmax
  rw [bind_ok (get_eq p)]
  refine append_then (text "[") [] hp rfl rfl (by decide) (by omega) fun p₁ hp₁ => ?_
  refine (helements p₁ hp₁).bind fun _ p₂ hp₂ => ?_
  rw [List.append_assoc] at hp₂
  refine (finish_then _ (text "]") hp₂ rfl (by decide) ?_).mono fun out p₃ hp₃ => ?_
  · simp only [List.length_append]
    omega
  · refine ⟨hp₃.1, fun hw _ => ?_⟩
    rw [hp₃.2, hp.1, hw]
    rfl

theorem emptyObject_room (depth : Nat) (fmt : Bool) :
    (emptyObject depth fmt).2.length < (emptyObject depth fmt).1 ∧
      (emptyObject depth fmt).1 ≤ (emptyObject depth fmt).2.length + 64 := by
  cases fmt with
  | false => exact (by decide : 2 < 3 ∧ 3 ≤ 66)
  | true =>
    simp [emptyObject, tabs, text]
    omega

theorem writeObject_post {members : BufferM Unit} {t : Text} {fmt : Bool} (hp : Holds p w)
    (hmax : w.length + ((if fmt then text "\x7b\n" else text "\x7b") ++
      (t ++ ((if fmt then tabs depth else []) ++ text "\x7d"))).length + 64 ≤ 2 ^ 30)
    (hmembers : ∀ p₁, Holds p₁ (w ++ if fmt then text "\x7b\n" else text "\x7b") →
      Post (fun _ p₂ => Holds p₂ (w ++ (if fmt then text "\x7b\n" else text "\x7b") ++ t)) Never
        (members p₁)) :
    Post (Returned w depth ((if fmt then text "\x7b\n" else text "\x7b") ++
        (t ++ ((if fmt then tabs depth else []) ++ text "\x7d")))) Never
      ((do
        let i := (← get).offset
        let len := if fmt then 2 else 1
        ensure fresh (len + 1)
        write ((if fmt then text "\x7b\n" else text "\x7b") ++ [0])
        advanceOffset len
        members
        ensure fresh (if fmt then depth + 1 + 1 else 2)
        write ((if fmt then tabs (depth + 1 - 1) else []) ++ text "\x7d" ++ [0])
        return if fmt then depth + 1 - 1 else i : BufferM Nat) p) := by
  have hopen : (if fmt then text "\x7b\n" else text "\x7b").length = if fmt then 2 else 1 := by
    cases fmt <;> rfl
  have hclose : ((if fmt then tabs depth else []) ++ text "\x7d" ++ [0]).length =
      if fmt then depth + 1 + 1 else 2 := by
    cases fmt <;> simp [tabs, text]
  have hbrace : (text "\x7b").length = 1 ∧ (text "\x7d").length = 1 := ⟨rfl, rfl⟩
  simp only [List.length_append, List.length_singleton] at hmax hclose
  rw [bind_ok (get_eq p)]
  refine append_then (if fmt then text "\x7b\n" else text "\x7b") [0] hp rfl hopen.symm
    (List.length_append.trans (congrArg (· + 1) hopen)).le (by rw [← hopen]; omega) fun p₁ hp₁ => ?_
  refine (hmembers p₁ hp₁).bind fun _ p₂ hp₂ => ?_
  rw [List.append_assoc] at hp₂
  refine (finish_then _ ((if fmt then tabs depth else []) ++ text "\x7d") hp₂ rfl ?_ ?_).mono
    fun out p₃ hp₃ => ⟨?_, fun hw hdepth => ?_⟩
  · simp only [List.length_append, List.length_singleton]
    omega
  · simp only [List.length_append]
    omega
  · simpa only [List.append_assoc] using hp₃.1
  · rw [hp₃.2, hp.1, hw, hdepth]
    cases fmt <;> rfl

variable (fresh) in
/-- The name of a member, a colon, its value and what ends it, in front of the other members. -/
theorem writeMember_post (value : BufferM Nat) (members : BufferM Unit) (fmt last : Bool) (t : Text)
    {name : Option Text} {str v : Text} (hp : Holds p w) (hname : name = some str) (h0 : 0 ∉ str)
    (hv : 0 ∉ v)
    (hmax : w.length + ((stringText str).2 ++ (if fmt then text ":\t" else text ":") ++ v ++
      memberEnd fmt last).length + 64 ≤ 2 ^ 30)
    (hvalue : ∀ p₁, Holds p₁ (w ++ (stringText str).2 ++ if fmt then text ":\t" else text ":") →
      Post (fun _ p₂ => Written p₂ (w ++ (stringText str).2 ++
        if fmt then text ":\t" else text ":") v) Never (value p₁))
    (hmembers : ∀ p₁, Holds p₁ (w ++ (stringText str).2 ++
        (if fmt then text ":\t" else text ":") ++ v ++ memberEnd fmt last) →
      Post (fun _ p₂ => Holds p₂ (w ++ (stringText str).2 ++
        (if fmt then text ":\t" else text ":") ++ v ++ memberEnd fmt last ++ t)) Never
        (members p₁)) :
    Post (fun _ p' => Holds p' (w ++ (stringText str).2 ++
        (if fmt then text ":\t" else text ":") ++ v ++ memberEnd fmt last ++ t)) Never
      ((do
        let _ ← writeStringPtr fresh name
        update
        let len := if fmt then 2 else 1
        ensure fresh len
        write (if fmt then text ":\t" else text ":")
        advanceOffset len
        let _ ← value
        update
        let len := (if fmt then 1 else 0) + if last then 0 else 1
        ensure fresh (len + 1)
        write (memberEnd fmt last ++ [0])
        advanceOffset len
        members) p) := by
  have hcolon : (if fmt then text ":\t" else text ":").length = if fmt then 2 else 1 := by
    cases fmt <;> rfl
  have hend := memberEnd_length fmt last
  simp only [List.length_append] at hmax
  rw [hname]
  refine (writeStringPtr_post h0 hp (by omega)).bind fun _ p₁ hp₁ => ?_
  refine update_then hp₁.1 (zero_not_mem_stringText h0) fun p₂ hp₂ => ?_
  refine append_then (if fmt then text ":\t" else text ":") [] hp₂ (List.append_nil _).symm
    hcolon.symm hcolon.le ?_ fun p₃ hp₃ => ?_
  · rw [← hcolon]
    simp only [List.length_append]
    omega
  refine (hvalue p₃ hp₃).bind fun _ p₄ hp₄ => ?_
  refine update_then hp₄ hv fun p₅ hp₅ => ?_
  refine append_then (memberEnd fmt last) [0] hp₅ rfl hend.symm
    (List.length_append.trans (congrArg (· + 1) hend)).le ?_ hmembers
  rw [← hend]
  simp only [List.length_append]
  omega

mutual

theorem writeValue_post (item : Item D) (depth : Nat) (fmt : Bool) (h : Printable item) (w : Text)
    (p : Printbuffer) (hp : Holds p w)
    (hmax : w.length + (printed item depth fmt).length + 64 ≤ 2 ^ 30) :
    Post (Returned w depth (printed item depth fmt)) Never (writeValue fresh item depth fmt p) := by
  obtain ⟨child, type, valuestring, valueint, valuedouble, string⟩ := item
  cases type with
  | null => exact writeText_returned (5, text "null") hp (by decide) (by decide) hmax
  | false => exact writeText_returned (6, text "false") hp (by decide) (by decide) hmax
  | true => exact writeText_returned (5, text "true") hp (by decide) (by decide) hmax
  | number =>
    obtain ⟨n, heq, hlen, -⟩ := h
    have hroom := numberText_room valueint valuedouble
    exact writeText_returned (numberText valueint valuedouble) hp (heq ▸ hlen) (by omega) hmax
  | string =>
    obtain ⟨str, rfl, hstr⟩ := h
    have hroom := stringText_room hstr
    exact writeText_returned (stringText str) hp (by omega) (by omega) hmax
  | array =>
    rw [writeValue]
    by_cases hempty : child.isEmpty = true
    · rw [if_pos hempty]
      rw [List.isEmpty_iff] at hempty
      subst hempty
      exact writeText_returned (3, text "[]") hp (by decide) (by decide) hmax
    · rw [if_neg hempty]
      have hprinted :
          printed ⟨child, .array, valuestring, valueint, valuedouble, string⟩ depth fmt =
            text "[" ++ joinEntries fmt (printedEntries child (depth + 1) fmt) ++ text "]" := rfl
      rw [hprinted] at hmax ⊢
      refine writeArray_post hp hmax fun p₁ hp₁ =>
        writeElements_post child (depth + 1) fmt h _ p₁ hp₁ ?_
      simp only [List.length_append] at hmax ⊢
      omega
  | object =>
    rw [writeValue]
    by_cases hempty : child.isEmpty = true
    · rw [if_pos hempty]
      have hprinted :
          printed ⟨child, .object, valuestring, valueint, valuedouble, string⟩ depth fmt =
            (emptyObject depth fmt).2 := by rw [printed, if_pos hempty]
      have hroom := emptyObject_room depth fmt
      rw [hprinted] at hmax ⊢
      exact writeText_returned (emptyObject depth fmt) hp hroom.1 hroom.2 hmax
    · rw [if_neg hempty]
      have hprinted :
          printed ⟨child, .object, valuestring, valueint, valuedouble, string⟩ depth fmt =
            (if fmt then text "\x7b\n" else text "\x7b") ++
              (joinMembers (depth + 1) fmt (printedMembers child (depth + 1) fmt) ++
                ((if fmt then tabs depth else []) ++ text "\x7d")) := by
        rw [printed, if_neg hempty, objectText]
        simp only [List.append_assoc]
        rfl
      rw [hprinted] at hmax ⊢
      refine writeObject_post hp hmax fun p₁ hp₁ =>
        writeMembers_post child (depth + 1) fmt h _ p₁ hp₁ ?_
      simp only [List.length_append] at hmax ⊢
      omega

theorem writeElements_post (child : List (Item D)) (depth : Nat) (fmt : Bool)
    (h : WellFormedElements PrintableNumber child) (w : Text) (p : Printbuffer) (hp : Holds p w)
    (hmax : w.length + (joinEntries fmt (printedEntries child depth fmt)).length + 64 ≤ 2 ^ 30) :
    Post (fun _ p' => Holds p' (w ++ joinEntries fmt (printedEntries child depth fmt))) Never
      (writeElements fresh child depth fmt p) := by
  match child with
  | [] =>
    rw [printedEntries, joinEntries, List.append_nil]
    exact hp
  | c :: child =>
    rw [printedEntries, joinEntries_cons] at hmax ⊢
    rw [List.length_append] at hmax
    refine (writeValue_post c depth fmt h.1 w p hp (by omega)).bind fun _ p₁ hp₁ => ?_
    refine update_then hp₁.1 (zero_not_mem_printed c h.1 depth fmt) fun p₂ hp₂ => ?_
    by_cases hchild : child.isEmpty = true
    · rw [if_neg (not_not_intro hchild)]
      rw [List.isEmpty_iff] at hchild
      subst hchild
      rw [printedEntries, List.flatMap_nil, List.append_nil]
      exact hp₂
    · rw [if_pos hchild]
      have hmore := comma_joinEntries fmt
        (printedEntries_isEmpty child depth fmt (Bool.eq_false_iff.mpr hchild)).1
      have hcomma := comma_length fmt
      rw [← hmore] at hmax ⊢
      rw [List.length_append] at hmax
      refine append_then (comma fmt) [0] hp₂ rfl hcomma.symm ?_ ?_ fun p₃ hp₃ => ?_
      · exact (List.length_append.trans (congrArg (· + 1) hcomma)).le
      · rw [List.length_append]
        omega
      · have hrest := writeElements_post child depth fmt h.2 _ p₃ hp₃ (by
          simp only [List.length_append]
          omega)
        simpa only [List.append_assoc] using hrest

theorem writeMembers_post (child : List (Item D)) (depth : Nat) (fmt : Bool)
    (h : WellFormedMembers PrintableNumber child) (w : Text) (p : Printbuffer) (hp : Holds p w)
    (hmax : w.length + (joinMembers depth fmt (printedMembers child depth fmt)).length +
      64 ≤ 2 ^ 30) :
    Post (fun _ p' => Holds p' (w ++ joinMembers depth fmt (printedMembers child depth fmt))) Never
      (writeMembers fresh child depth fmt p) := by
  match child with
  | [] =>
    rw [printedMembers, joinMembers, List.append_nil]
    exact hp
  | c :: child =>
    obtain ⟨str, hstr, h0⟩ := h.1
    rw [printedMembers, joinMembers_step, printedMembers_isEmpty, hstr, Option.getD_some,
      memberText] at hmax ⊢
    simp only [List.length_append] at hmax
    have hnamed (p₁ : Printbuffer) (hp₁ : Holds p₁ (w ++ if fmt then tabs depth else [])) :=
      writeMember_post fresh (writeValue fresh c depth fmt) (writeMembers fresh child depth fmt) fmt
        child.isEmpty (joinMembers depth fmt (printedMembers child depth fmt)) hp₁ hstr h0
        (zero_not_mem_printed c h.2.1 depth fmt)
        (by simp only [List.length_append]; omega)
        (fun p₂ hp₂ => (writeValue_post c depth fmt h.2.1 _ p₂ hp₂ (by
          simp only [List.length_append]
          omega)).mono fun _ _ hp₃ => hp₃.1)
        fun p₂ hp₂ => writeMembers_post child depth fmt h.2.2 _ p₂ hp₂ (by
          simp only [List.length_append]
          omega)
    simp only [List.append_assoc] at hnamed ⊢
    cases fmt with
    | false =>
      have hstart : Holds p (w ++ if false then tabs depth else []) := by simpa using hp
      exact hnamed p hstart
    | true =>
      have htabs : depth = (tabs depth).length := List.length_replicate.symm
      exact append_then (tabs depth) [] hp (List.append_nil _).symm htabs htabs.ge
        (by simp only [if_true] at hmax; omega) hnamed

end

/-- One buffer makes no difference: whatever size it starts with and whatever new blocks hold, the
string that is returned is the one that is printed without it. -/
theorem printBuffered_eq (item : Item D) (prebuffer : Nat) (fmt : Bool) (h : Printable item)
    (hsize : (printed item 0 fmt).length + 64 ≤ 2 ^ 30) :
    printBuffered fresh item prebuffer fmt = printValue item 0 fmt := by
  have hstart : Holds ⟨(fresh prebuffer).toList, 0⟩ [] := ⟨rfl, _, rfl⟩
  have hmax : 2 * (printed item 0 fmt).length + 8 ≤ intMax := by
    unfold intMax
    omega
  have hpost := @writeValue_post D _ fresh item 0 fmt h [] _ hstart (by
    rw [List.length_nil]
    omega)
  rw [printValue_eq item 0 fmt h hmax, printBuffered]
  cases hrun : writeValue fresh item 0 fmt ⟨(fresh prebuffer).toList, 0⟩ with
  | error e p =>
    rw [hrun] at hpost
    exact hpost.elim
  | ok out p =>
    rw [hrun] at hpost
    obtain ⟨hwritten, hout⟩ := hpost
    obtain rfl : out = 0 := hout rfl rfl
    have hlen :=
      strlen_post hwritten (zero_not_mem_printed item h 0 fmt) (Nat.le_refl 0) (Nat.zero_le _)
    obtain ⟨-, -, rest, hbuffer⟩ := hwritten
    have hstring : (p.buffer.drop 0).take (printed item 0 fmt).length = printed item 0 fmt := by
      rw [hbuffer, List.drop_zero, List.nil_append, List.take_left]
    rw [List.length_nil, Nat.zero_add, Nat.sub_zero] at hlen
    have hprogram : (do
        let out ← writeValue fresh item 0 fmt
        let n ← strlen out
        return ((← get).buffer.drop out).take n : BufferM Text) ⟨(fresh prebuffer).toList, 0⟩ =
        .ok (printed item 0 fmt) p := by
      rw [bind_ok hrun, bind_ok hlen, bind_ok (get_eq p), hstring]
      rfl
    simp only [hprogram]

theorem printBuffered_eq_sample : printBuffered (fun n => Vector.replicate n 170) sample 1 true =
    printValue sample 0 true :=
  printBuffered_eq sample 1 true sample_printable (by decide)

end Runs

end Mangoxx.CJson
