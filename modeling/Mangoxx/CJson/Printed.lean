import Mangoxx.CJson.Print
import Mangoxx.CJson.Numbers
import Mangoxx.Lib.Bits

namespace Mangoxx.CJson

open Lib.Json
open Fcmd (text)

variable {D : Type} [Double D]

section Printed

def objectText (depth : Nat) (fmt : Bool) (members : List (Text × Text)) : Text :=
  (if fmt then text "\x7b\n" else text "\x7b") ++ joinMembers depth fmt members ++
    (if fmt then tabs (depth - 1) else []) ++ text "\x7d"

mutual

def printed : Item D → (depth : Nat) → (fmt : Bool) → Text
  | ⟨child, type, valuestring, valueint, valuedouble, _⟩, depth, fmt =>
    match type with
    | .null => text "null"
    | .false => text "false"
    | .true => text "true"
    | .number => (numberText valueint valuedouble).2
    | .string => (stringText (valuestring.getD [])).2
    | .array =>
      '['.toUInt8 :: joinEntries fmt (printedEntries child (depth + 1) fmt) ++ [']'.toUInt8]
    | .object =>
      if child.isEmpty then (emptyObject depth fmt).2
      else objectText (depth + 1) fmt (printedMembers child (depth + 1) fmt)

def printedEntries : List (Item D) → (depth : Nat) → (fmt : Bool) → List Text
  | [], _, _ => []
  | c :: child, depth, fmt => printed c depth fmt :: printedEntries child depth fmt

def printedMembers : List (Item D) → (depth : Nat) → (fmt : Bool) → List (Text × Text)
  | [], _, _ => []
  | c :: child, depth, fmt =>
    ((stringText (c.string.getD [])).2, printed c depth fmt) :: printedMembers child depth fmt

end

end Printed

section Printable

def PrintableString (s : Option Text) : Prop := ∃ t, s = some t ∧ 0 ∉ t

def PrintableNumber (valueint : Int) (d : D) : Prop :=
  ∃ n : Number, (numberText valueint d).2 = n.text ∧ n.text.length < (numberText valueint d).1 ∧
    SmallExponent n

section WellFormed

variable (P : Int → D → Prop)

mutual

def WellFormed : Item D → Prop
  | ⟨child, type, valuestring, valueint, valuedouble, _⟩ =>
    match type with
    | .null | .false | .true => True
    | .number => P valueint valuedouble
    | .string => PrintableString valuestring
    | .array => WellFormedElements child
    | .object => WellFormedMembers child

def WellFormedElements : List (Item D) → Prop
  | [] => True
  | c :: child => WellFormed c ∧ WellFormedElements child

def WellFormedMembers : List (Item D) → Prop
  | [] => True
  | c :: child => PrintableString c.string ∧ WellFormed c ∧ WellFormedMembers child

end

section Mono

omit [Double D]
variable {P Q : Int → D → Prop}

mutual

theorem WellFormed.mono (hPQ : ∀ valueint d, P valueint d → Q valueint d) (item : Item D)
    (h : WellFormed P item) : WellFormed Q item := by
  obtain ⟨child, type, valuestring, valueint, valuedouble, string⟩ := item
  cases type with
  | null | false | true => exact trivial
  | number => exact hPQ _ _ h
  | string => exact h
  | array => exact WellFormedElements.mono hPQ child h
  | object => exact WellFormedMembers.mono hPQ child h

theorem WellFormedElements.mono (hPQ : ∀ valueint d, P valueint d → Q valueint d)
    (child : List (Item D)) (h : WellFormedElements P child) : WellFormedElements Q child := by
  match child with
  | [] => exact trivial
  | c :: child => exact ⟨WellFormed.mono hPQ c h.1, WellFormedElements.mono hPQ child h.2⟩

theorem WellFormedMembers.mono (hPQ : ∀ valueint d, P valueint d → Q valueint d)
    (child : List (Item D)) (h : WellFormedMembers P child) : WellFormedMembers Q child := by
  match child with
  | [] => exact trivial
  | c :: child => exact ⟨h.1, WellFormed.mono hPQ c h.2.1, WellFormedMembers.mono hPQ child h.2.2⟩

end

end Mono

end WellFormed

abbrev Printable (item : Item D) : Prop := WellFormed PrintableNumber item

def sample : Item Int :=
  { (newItem : Item Int) with
    type := .object
    child := [{ (newItem : Item Int) with
      type := .array
      string := some (text "a")
      child := [{ (newItem : Item Int) with type := .number, valueint := -5, valuedouble := -5 },
        { (newItem : Item Int) with type := .string, valuestring := some (text "b") }] }] }

theorem sample_wellFormed {P : Int → Int → Prop} (h : P (-5) (-5)) : WellFormed P sample :=
  ⟨⟨_, rfl, by decide⟩, ⟨h, ⟨_, rfl, by decide⟩, trivial⟩, trivial⟩

theorem sample_printable : Printable sample :=
  sample_wellFormed
    ⟨⟨true, 5, [], by decide, [], none⟩, by decide, by decide, fun _ he => absurd he (by simp)⟩

end Printable

section Sizes

theorem store_eq (hroom : room ≤ intMax) (h : out.length < room) : store room out = .ok out := by
  rw [store, if_neg (Nat.not_lt.mpr hroom), if_neg (Nat.not_le.mpr h)]

theorem escape_length : ∀ c, c ≠ 0 → (escape c).length = escapeLength c := by
  apply Lib.Bits.forall_byte
  decide +kernel

theorem stringText_room (h : 0 ∉ str) : (stringText str).1 = (stringText str).2.length + 1 := by
  have hsum : (str.flatMap escape).length = (str.map escapeLength).sum := by
    rw [List.length_flatMap]
    congr 1
    refine List.map_congr_left fun c hc => escape_length c ?_
    rintro rfl
    exact h hc
  unfold stringText
  split
  · simp [hsum]
  · simp

theorem numberText_room (valueint : Int) (d : D) : (numberText valueint d).1 ≤ 64 := by
  unfold numberText
  split
  · exact (by decide : 2 ≤ 64)
  split
  · exact (by decide : 21 ≤ 64)
  split
  · exact Nat.le_refl 64
  split <;> exact Nat.le_refl 64

theorem length_le_flatMap {l : List α} {f : α → List β} (h : a ∈ l) :
    (f a).length ≤ (l.flatMap f).length := by
  rw [List.flatMap_def]
  exact (List.sublist_flatten_of_mem (List.mem_map_of_mem h)).length_le

def comma (fmt : Bool) : Text := if fmt then text ", " else text ","

theorem joinEntries_cons (fmt : Bool) (e : Text) (es : List Text) :
    joinEntries fmt (e :: es) = e ++ es.flatMap fun e' => comma fmt ++ e' := by
  induction es generalizing e with
  | nil => simp [joinEntries]
  | cons e' es ih =>
    rw [joinEntries, ih, List.flatMap_cons, comma, List.append_assoc, List.append_assoc]
    simp

theorem comma_length (fmt : Bool) : (comma fmt).length = if fmt then 2 else 1 := by
  cases fmt <;> rfl

theorem entries_room (fmt : Bool) (es : List Text) :
    (es.flatMap fun e => comma fmt ++ e).length ≤
        (es.map fun e => e.length + 2 + if fmt then 1 else 0).sum ∧
      (es.map fun e => e.length + 2 + if fmt then 1 else 0).sum ≤
        2 * (es.flatMap fun e => comma fmt ++ e).length := by
  induction es with
  | nil => exact ⟨Nat.le_refl 0, Nat.le_refl 0⟩
  | cons e es ih =>
    rw [List.flatMap_cons, List.length_append, List.length_append, comma_length, List.map_cons,
      List.sum_cons]
    cases fmt <;> simp only [Bool.false_eq_true, if_true, if_false] at ih ⊢ <;> omega

theorem composeArray_eq (fmt : Bool) (hnil : entries ≠ [])
    (hsize : 2 * (joinEntries fmt entries).length + 8 ≤ intMax) : composeArray fmt entries =
      .ok ('['.toUInt8 :: joinEntries fmt entries ++ [']'.toUInt8]) := by
  cases entries with
  | nil => exact absurd rfl hnil
  | cons e es =>
    have hroom := entries_room fmt es
    have hfmt : (if fmt then 1 else 0) ≤ 1 := by cases fmt <;> decide
    rw [joinEntries_cons, List.length_append] at hsize
    rw [composeArray, joinEntries_cons, List.map_cons, List.sum_cons]
    apply store_eq
    · omega
    · simp only [List.length_append, List.length_cons, List.length_nil]
      omega

theorem mem_joinEntries_length (fmt : Bool) (h : t ∈ entries) :
    t.length ≤ (joinEntries fmt entries).length := by
  cases h with
  | head => simp [joinEntries_cons]
  | tail _ h =>
    have := length_le_flatMap (f := fun e => comma fmt ++ e) h
    rw [joinEntries_cons, List.length_append]
    rw [List.length_append] at this
    omega

def memberComma (fmt : Bool) : Text := if fmt then text ",\n" else text ","

theorem joinMembers_cons (depth : Nat) (fmt : Bool) (m : Text × Text) (ms : List (Text × Text)) :
    joinMembers depth fmt (m :: ms) = memberText depth fmt m ++
      ((ms.flatMap fun m' => memberComma fmt ++ memberText depth fmt m') ++
        if fmt then text "\n" else []) := by
  induction ms generalizing m with
  | nil => simp [joinMembers]
  | cons m' ms ih =>
    rw [joinMembers, ih, List.flatMap_cons, memberComma]
    · simp only [List.append_assoc]
    · simp

theorem memberText_length (depth : Nat) (fmt : Bool) (m : Text × Text) :
    (memberText depth fmt m).length =
      m.2.length + m.1.length + 1 + if fmt then 1 + depth else 0 := by
  cases fmt <;> simp [memberText, tabs, text] <;> omega

theorem members_room (depth : Nat) (fmt : Bool) (ms : List (Text × Text)) :
    (ms.map fun m => m.2.length + m.1.length + 2 + if fmt then 2 + depth else 0).sum =
      (ms.flatMap fun m => memberComma fmt ++ memberText depth fmt m).length := by
  have hcomma : (memberComma fmt).length = if fmt then 2 else 1 := by cases fmt <;> rfl
  induction ms with
  | nil => rfl
  | cons m ms ih =>
    rw [List.flatMap_cons, List.length_append, List.length_append, hcomma, memberText_length,
      List.map_cons, List.sum_cons, ih]
    cases fmt <;> simp only [Bool.false_eq_true, if_true, if_false] <;> omega

theorem composeObject_eq (depth : Nat) (fmt : Bool) {members : List (Text × Text)}
    (hnil : members ≠ []) (hsize : 2 * (objectText (depth + 1) fmt members).length + 8 ≤ intMax) :
    composeObject (depth + 1) fmt members = .ok (objectText (depth + 1) fmt members) := by
  cases members with
  | nil => exact absurd rfl hnil
  | cons m ms =>
    have hroom := members_room (depth + 1) fmt ms
    have hfirst := memberText_length (depth + 1) fmt m
    have hlength : (objectText (depth + 1) fmt (m :: ms)).length + 6 =
        7 + (if fmt then depth + 1 else 0) +
          (m.2.length + m.1.length + 2 + if fmt then 2 + (depth + 1) else 0) +
          (ms.flatMap fun m => memberComma fmt ++ memberText (depth + 1) fmt m).length := by
      rw [objectText, joinMembers_cons]
      cases fmt <;> simp [tabs, text] at hfirst ⊢ <;> omega
    rw [composeObject, List.map_cons, List.sum_cons, hroom]
    apply store_eq
    · omega
    · show (objectText (depth + 1) fmt (m :: ms)).length < _
      omega

theorem mem_joinMembers_length (depth : Nat) (fmt : Bool) {m : Text × Text}
    {members : List (Text × Text)} (h : m ∈ members) :
    m.1.length ≤ (joinMembers depth fmt members).length ∧
      m.2.length ≤ (joinMembers depth fmt members).length := by
  have hm := memberText_length depth fmt m
  cases h with
  | head =>
    rw [joinMembers_cons, List.length_append]
    omega
  | tail _ h =>
    have := length_le_flatMap (f := fun m => memberComma fmt ++ memberText depth fmt m) h
    rw [List.length_append] at this
    rw [joinMembers_cons, List.length_append, List.length_append]
    omega

theorem printStringPtr_eq (h : PrintableString s)
    (hsize : 2 * (stringText (s.getD [])).2.length + 8 ≤ intMax) :
    printStringPtr s = .ok (stringText (s.getD [])).2 := by
  obtain ⟨t, rfl, h0⟩ := h
  have hroom := stringText_room h0
  simp only [Option.getD_some] at hsize ⊢
  exact store_eq (by omega) (by omega)

theorem store_small (hroom : room ≤ 64) (h : out.length < room) : store room out = .ok out :=
  store_eq (hroom.trans (by decide)) h

end Sizes

section Prints

theorem printedEntries_isEmpty (child : List (Item D)) (depth : Nat) (fmt : Bool)
    (h : child.isEmpty = false) :
    printedEntries child depth fmt ≠ [] ∧ printedMembers child depth fmt ≠ [] := by
  cases child with
  | nil => exact absurd h (by simp)
  | cons c child => exact ⟨List.cons_ne_nil _ _, List.cons_ne_nil _ _⟩

mutual

/-- An item is printed into the blocks that are allocated for it, whatever it holds. -/
theorem printValue_eq (item : Item D) (depth : Nat) (fmt : Bool) (h : Printable item)
    (hsize : 2 * (printed item depth fmt).length + 8 ≤ intMax) :
    printValue item depth fmt = .ok (printed item depth fmt) := by
  obtain ⟨child, type, valuestring, valueint, valuedouble, string⟩ := item
  cases type with
  | null => exact store_small (by decide) (by decide : 4 < 5)
  | false => exact store_small (by decide) (by decide : 5 < 6)
  | true => exact store_small (by decide) (by decide : 4 < 5)
  | number =>
    obtain ⟨n, heq, hlen, -⟩ := h
    exact store_small (numberText_room _ _) (heq ▸ hlen)
  | string => exact printStringPtr_eq h hsize
  | array =>
    replace h : WellFormedElements PrintableNumber child := h
    rw [printed] at hsize
    rw [printValue, printed]
    cases hempty : child.isEmpty with
    | true =>
      rw [List.isEmpty_iff] at hempty
      subst hempty
      have hstore : store 3 (text "[]") = .ok (text "[]") := store_small (by decide) (by decide)
      exact hstore
    | false =>
      have hlength : ('['.toUInt8 :: joinEntries fmt (printedEntries child (depth + 1) fmt) ++
          [']'.toUInt8]).length =
            (joinEntries fmt (printedEntries child (depth + 1) fmt)).length + 2 := by
        simp
      have hentries := printEntries_eq child (depth + 1) fmt h fun t ht => by
        have := mem_joinEntries_length fmt ht
        omega
      simp only [hentries, bind, Except.bind, Bool.false_eq_true, if_false]
      exact composeArray_eq fmt (printedEntries_isEmpty child _ fmt hempty).1 (by omega)
  | object =>
    replace h : WellFormedMembers PrintableNumber child := h
    rw [printed] at hsize
    rw [printValue, printed]
    cases hempty : child.isEmpty with
    | true =>
      rw [hempty, if_pos rfl] at hsize
      have hlength : (emptyObject depth fmt).2.length < (emptyObject depth fmt).1 ∧
          (emptyObject depth fmt).1 ≤ (emptyObject depth fmt).2.length + 2 := by
        cases fmt with
        | false => exact (by decide : 2 < 3 ∧ 3 ≤ 4)
        | true =>
          simp [emptyObject, tabs, text]
          omega
      exact store_eq (by omega) hlength.1
    | false =>
      rw [hempty, if_neg (by simp)] at hsize
      have hlength : (joinMembers (depth + 1) fmt (printedMembers child (depth + 1) fmt)).length ≤
          (objectText (depth + 1) fmt (printedMembers child (depth + 1) fmt)).length := by
        simp only [objectText, List.length_append]
        omega
      have hmembers := printMembers_eq child (depth + 1) fmt h fun m hm => by
        have := mem_joinMembers_length (depth + 1) fmt hm
        omega
      simp only [hmembers, bind, Except.bind, Bool.false_eq_true, if_false]
      exact composeObject_eq depth fmt (printedEntries_isEmpty child _ fmt hempty).2 hsize

theorem printEntries_eq (child : List (Item D)) (depth : Nat) (fmt : Bool)
    (h : WellFormedElements PrintableNumber child)
    (hsize : ∀ t ∈ printedEntries child depth fmt, 2 * t.length + 8 ≤ intMax) :
    printEntries child depth fmt = .ok (printedEntries child depth fmt) := by
  match child with
  | [] => rfl
  | c :: child =>
    have hc := printValue_eq c depth fmt h.1 (hsize _ List.mem_cons_self)
    have hchild := printEntries_eq child depth fmt h.2 fun t ht =>
      hsize t (List.mem_cons_of_mem _ ht)
    rw [printEntries, printedEntries, hc, hchild]
    rfl

theorem printMembers_eq (child : List (Item D)) (depth : Nat) (fmt : Bool)
    (h : WellFormedMembers PrintableNumber child)
    (hsize : ∀ m ∈ printedMembers child depth fmt, 2 * m.1.length + 8 ≤ intMax ∧
      2 * m.2.length + 8 ≤ intMax) :
    printMembers child depth fmt = .ok (printedMembers child depth fmt) := by
  match child with
  | [] => rfl
  | c :: child =>
    have hname := printStringPtr_eq h.1 (hsize _ List.mem_cons_self).1
    have hc := printValue_eq c depth fmt h.2.1 (hsize _ List.mem_cons_self).2
    have hchild := printMembers_eq child depth fmt h.2.2 fun m hm =>
      hsize m (List.mem_cons_of_mem _ hm)
    rw [printMembers, printedMembers, hname, hc, hchild]
    rfl

end

end Prints

end Mangoxx.CJson
