import Mangoxx.CJson.Content
import Mangoxx.Lib.History
import Mangoxx.Mango.Helper

universe v

namespace Mangoxx.CJson

open Lib Lib.Link Lib.Forest
open Mango (tolower)

abbrev Name := { s : List UInt8 // 0 ∉ s }

/-- The loop; where a text ends it has a NUL, which is the difference to all other characters. -/
def strcasecmpLoop : List UInt8 → List UInt8 → Int
  | [], [] => 0
  | [], b :: _ => 0 - (tolower b).toNat
  | a :: _, [] => (tolower a).toNat
  | a :: s1, b :: s2 =>
    if tolower a = tolower b then strcasecmpLoop s1 s2 else (tolower a).toNat - (tolower b).toNat

def strcasecmp (s1 s2 : Option Name) : Int :=
  match s1, s2 with
  | none, none => 0
  | none, some _ => 1
  | some _, none => 1
  | some s1, some s2 => strcasecmpLoop s1.val s2.val

theorem tolower_ne_zero {c : UInt8} (h : c ≠ 0) : (tolower c).toNat ≠ 0 := by
  have hc : c.toNat ≠ 0 := fun h0 => h (UInt8.toNat_inj.mp h0)
  rw [tolower]
  split
  · rename_i hupper
    have hle := UInt8.le_iff_toNat_le.mp hupper.2
    have hz : 'Z'.toUInt8.toNat = 90 := rfl
    have h32 : (32 : UInt8).toNat = 32 := rfl
    rw [UInt8.toNat_add]
    omega
  · exact hc

theorem strcasecmpLoop_eq_zero {s1 s2 : List UInt8} (h1 : 0 ∉ s1) (h2 : 0 ∉ s2) :
    strcasecmpLoop s1 s2 = 0 ↔ s1.map tolower = s2.map tolower := by
  induction s1 generalizing s2 with
  | nil =>
    cases s2 with
    | nil => simp [strcasecmpLoop]
    | cons b s2 =>
      have hb := tolower_ne_zero (List.ne_of_not_mem_cons h2).symm
      simp only [strcasecmpLoop, List.map_nil, List.map_cons, reduceCtorEq, iff_false]
      omega
  | cons a s1 ih =>
    have ha := tolower_ne_zero (List.ne_of_not_mem_cons h1).symm
    cases s2 with
    | nil =>
      simp only [strcasecmpLoop, List.map_nil, List.map_cons, reduceCtorEq, iff_false]
      omega
    | cons b s2 =>
      have htail := ih (List.not_mem_of_not_mem_cons h1) (List.not_mem_of_not_mem_cons h2)
      by_cases hab : tolower a = tolower b
      · rw [strcasecmpLoop, if_pos hab, htail, List.map_cons, List.map_cons, hab,
          List.cons_inj_right]
      · have hne : (tolower a).toNat ≠ (tolower b).toNat := fun heq => hab (UInt8.toNat_inj.mp heq)
        rw [strcasecmpLoop, if_neg hab]
        simp only [List.map_cons, List.cons.injEq, hab, false_and, iff_false]
        omega

variable {α : Type v}

def named (names : α → Option Name) (string : Name) (x : α) : Bool :=
  (names x).map (·.val.map tolower) = some (string.val.map tolower)

theorem strcasecmp_eq_zero (names : α → Option Name) (string : Name) (x : α) :
    strcasecmp (names x) (some string) = 0 ↔ named names string x := by
  rw [named, decide_eq_true_iff]
  cases names x with
  | none => simp [strcasecmp]
  | some name => simp [strcasecmp, strcasecmpLoop_eq_zero name.property string.property]

structure Objects (α : Type v) where
  tree : Tree α
  string : α → Option Name

namespace Objects

def findTurn (string : Name) (s : Objects α) (v : Nat × Option α) :
    Turn (Nat × Option α) (Nat × Option α) :=
  match v.2 with
  | none => .stop v
  | some c =>
    if strcasecmp (s.string c) (some string) ≠ 0 then .again (v.1 + 1, (s.tree.links c).next)
    else .stop v

def find (fuel : Nat) (object : α) (string : Name) (s : Objects α) : Option (Nat × Option α) :=
  Loop.iterate (s.findTurn string) fuel (0, s.tree.child object)

/-- The loop of this function does not count. -/
def getObjectItem (fuel : Nat) (object : α) (string : Name) (s : Objects α) : Option (Option α) :=
  (s.find fuel object string).map (·.2)

theorem found {s : Objects α} {string : Name} {before : Option α} {l : List α}
    (h : Chain s.tree.links before l none) {fuel : Nat} (hfuel : l.length < fuel) (i : Nat) :
    Loop.iterate (s.findTurn string) fuel (i, l.head?) =
      some (i + l.findIdx (named s.string string), l.find? (named s.string string)) := by
  induction l generalizing before fuel i with
  | nil =>
    obtain ⟨fuel, rfl⟩ := Nat.exists_eq_add_one.mpr hfuel
    rfl
  | cons a l ih =>
    obtain ⟨fuel, rfl⟩ := Nat.exists_eq_add_one.mpr (Nat.zero_lt_of_lt hfuel)
    obtain ⟨-, hnext, hrest⟩ := h
    rw [Option.or_none] at hnext
    by_cases ha : named s.string string a
    · have hturn : s.findTurn string (i, (a :: l).head?) = .stop (i, some a) := by
        simp [findTurn, (strcasecmp_eq_zero s.string string a).mpr ha]
      rw [Loop.iterate, hturn, List.findIdx_cons, List.find?_cons_of_pos ha, ha]
      rfl
    · have hturn : s.findTurn string (i, (a :: l).head?) = .again (i + 1, l.head?) := by
        simp [findTurn, (strcasecmp_eq_zero s.string string a).not.mpr ha, hnext]
      rw [Loop.iterate, hturn, List.findIdx_cons, List.find?_cons_of_neg ha]
      simp only [ih hrest (Nat.lt_of_succ_lt_succ hfuel) (i + 1), ha]
      rw [Nat.add_assoc, Nat.add_comm 1]
      rfl

variable [DecidableEq α]

def addItemToObject (fuel : Nat) (object : α) (string : Name) (item : α) (s : Objects α) :
    Option (Objects α) :=
  (s.tree.addItemToArray fuel object item).map fun tree =>
    ⟨tree, Function.update s.string item (some string)⟩

def detachItemFromObject (fuel : Nat) (object : α) (string : Name) (s : Objects α) :
    Option (Option α × Objects α) := do
  let (i, c) ← s.find fuel object string
  match c with
  | none => return (none, s)
  | some _ =>
    let r := s.tree.detachItemFromArray object i
    return (r.1, { s with tree := r.2 })

def deleteItemFromObject (fuel : Nat) (object : α) (string : Name) (s : Objects α) :
    Option (Objects α) := do
  let (c, s) ← s.detachItemFromObject fuel object string
  let tree ← s.tree.delete fuel c
  return { s with tree := tree }

def replaceItemInObject (fuel : Nat) (object : α) (string : Name) (newitem : α) (s : Objects α) :
    Option (Objects α) := do
  let (i, c) ← s.find fuel object string
  match c with
  | none => return s
  | some _ =>
    let tree ← s.tree.replaceItemInArray fuel object i newitem
    return ⟨tree, Function.update s.string newitem (some string)⟩

end Objects

inductive ObjectOp (α : Type v)
  | onArray (op : ListOp α)
  | addItemToObject (object : α) (string : Name) (item : α)
  | detachItemFromObject (object : α) (string : Name)
  | deleteItemFromObject (object : α) (string : Name)
  | replaceItemInObject (object : α) (string : Name) (newitem : α)

structure Members (α : Type v) extends Content α where
  names : α → Option Name

namespace Members

def find? (m : Members α) (object : α) (string : Name) : Option α :=
  (m.lists object).find? (named m.names string)

def findIdx (m : Members α) (object : α) (string : Name) : Nat :=
  (m.lists object).findIdx (named m.names string)

def Admitted (m : Members α) : ObjectOp α → Prop
  | .onArray op => op.Admitted m.toContent
  | .addItemToObject object _ item => object ∉ m.deleted ∧ m.Free item
  | .detachItemFromObject object _ => object ∉ m.deleted
  | .deleteItemFromObject object _ => object ∉ m.deleted
  | .replaceItemInObject object _ newitem => object ∉ m.deleted ∧ m.Free newitem

def empty : Members α := ⟨.empty, fun _ => none⟩

theorem findIdx_of_none {m : Members α} {object : α} {string : Name}
    (h : m.find? object string = none) : m.findIdx object string = (m.lists object).length :=
  List.findIdx_eq_length.mpr fun x hx => Bool.eq_false_iff.mpr (List.find?_eq_none.mp h x hx)

theorem getElem?_of_none {m : Members α} {object : α} {string : Name}
    (h : m.find? object string = none) : (m.lists object)[m.findIdx object string]? = none :=
  List.getElem?_eq_none_iff.mpr (Nat.le_of_eq (findIdx_of_none h).symm)

variable [DecidableEq α]

def apply (m : Members α) : ObjectOp α → Members α
  | .onArray op => ⟨op.apply m.toContent, m.names⟩
  | .addItemToObject object string item =>
    ⟨m.set object (m.lists object ++ [item]), Function.update m.names item (some string)⟩
  | .detachItemFromObject object string =>
    ⟨m.set object ((m.lists object).eraseIdx (m.findIdx object string)), m.names⟩
  | .deleteItemFromObject object string =>
    let i := m.findIdx object string
    ⟨(m.set object ((m.lists object).eraseIdx i)).delete (m.lists object)[i]?, m.names⟩
  | .replaceItemInObject object string newitem =>
    let i := m.findIdx object string
    if (m.find? object string).isSome then
      ⟨(m.set object ((m.lists object).set i newitem)).delete (m.lists object)[i]?,
        Function.update m.names newitem (some string)⟩
    else m

end Members

namespace Objects

def start : Objects α := ⟨.start, fun _ => none⟩

structure Holds (s : Objects α) (m : Members α) : Prop where
  tree : s.tree.Holds m.toContent
  names : s.string = m.names

theorem holds_start : (start : Objects α).Holds .empty := ⟨Tree.holds_start, rfl⟩

section Find

variable {s : Objects α} {m : Members α} {fuel : Nat} {object : α}

theorem Holds.find (h : s.Holds m) (hfuel : (m.lists object).length < fuel) (string : Name) :
    s.find fuel object string = some (m.findIdx object string, m.find? object string) := by
  rw [Objects.find, h.tree.linked.child, found (h.tree.linked.chain object) hfuel, Nat.zero_add,
    h.names]
  rfl

theorem Holds.getObjectItem (h : s.Holds m) (hfuel : (m.lists object).length < fuel)
    (string : Name) : s.getObjectItem fuel object string = some (m.find? object string) := by
  rw [Objects.getObjectItem, h.find hfuel string]
  rfl

end Find

variable [DecidableEq α] {s : Objects α} {m : Members α} {object newitem : α} {string : Name}

theorem Holds.detachItemFromObject (h : s.Holds m) (hobject : object ∉ m.deleted)
    (string : Name) : ∃ tree : Tree α,
      (∀ fuel > (m.lists object).length, s.detachItemFromObject fuel object string =
        some ((m.lists object)[m.findIdx object string]?, { s with tree := tree })) ∧
      tree.Holds (m.set object ((m.lists object).eraseIdx (m.findIdx object string))) := by
  cases hmember : m.find? object string with
  | none =>
    have hkeep : (m.lists object).eraseIdx (m.findIdx object string) = m.lists object :=
      List.eraseIdx_of_length_le (Nat.le_of_eq (Members.findIdx_of_none hmember).symm)
    refine ⟨s.tree, fun fuel hfuel => ?_, ?_⟩
    · simp only [Objects.detachItemFromObject, h.find hfuel, hmember,
        Members.getElem?_of_none hmember]
      rfl
    · rw [hkeep, Content.set, Function.update_eq_self]
      exact h.tree
  | some c =>
    obtain ⟨tree, hresult, hholds⟩ := h.tree.detachItemFromArray hobject (m.findIdx object string)
    refine ⟨tree, fun fuel hfuel => ?_, hholds⟩
    simp only [Objects.detachItemFromObject, h.find hfuel, hmember]
    simp only [Option.bind_eq_bind, Option.bind_some, hresult]
    rfl

theorem Holds.deleteItemFromObject (h : s.Holds m) (hobject : object ∉ m.deleted)
    (string : Name) : ∃ s' n,
      (∀ fuel ≥ n, s.deleteItemFromObject fuel object string = some s') ∧
        s'.Holds (m.apply (.deleteItemFromObject object string)) := by
  obtain ⟨tree, hdetached, hholds⟩ := h.detachItemFromObject hobject string
  have hfree (a : α) (ha : (m.lists object)[m.findIdx object string]? = some a) :
      (m.set object ((m.lists object).eraseIdx (m.findIdx object string))).Free a :=
    h.tree.free_of_erased hobject ha
  obtain ⟨tree', n, hdelete, hholds'⟩ := hholds.delete hfree
  refine ⟨⟨tree', s.string⟩, max n ((m.lists object).length + 1), fun fuel hfuel => ?_, hholds',
    h.names⟩
  obtain ⟨hn, hlength⟩ := Nat.max_le.mp hfuel
  simp only [Objects.deleteItemFromObject, hdetached fuel hlength]
  simp only [Option.bind_eq_bind, Option.bind_some, hdelete fuel hn]
  rfl

theorem Holds.replaceItemInObject (h : s.Holds m) (hobject : object ∉ m.deleted)
    (hitem : m.Free newitem) (string : Name) : ∃ s' n,
      (∀ fuel ≥ n, s.replaceItemInObject fuel object string newitem = some s') ∧
        s'.Holds (m.apply (.replaceItemInObject object string newitem)) := by
  cases hmember : m.find? object string with
  | none =>
    refine ⟨s, (m.lists object).length + 1, fun fuel hfuel => ?_, ?_⟩
    · simp only [Objects.replaceItemInObject, h.find hfuel, hmember]
      rfl
    · rw [Members.apply, hmember]
      exact h
  | some c =>
    obtain ⟨tree, n, hresult, hholds⟩ :=
      h.tree.replaceItemInArray hobject hitem (m.findIdx object string)
    refine ⟨⟨tree, Function.update s.string newitem (some string)⟩,
      max n ((m.lists object).length + 1), fun fuel hfuel => ?_, ?_⟩
    · obtain ⟨hn, hlength⟩ := Nat.max_le.mp hfuel
      simp only [Objects.replaceItemInObject, h.find hlength, hmember]
      simp only [Option.bind_eq_bind, Option.bind_some, hresult fuel hn]
      rfl
    · rw [Members.apply, hmember]
      exact ⟨hholds, congrArg (Function.update · newitem (some string)) h.names⟩

def exec (fuel : Nat) (s : Objects α) : ObjectOp α → Option (Objects α)
  | .onArray op => (s.tree.exec fuel op).map fun tree => { s with tree := tree }
  | .addItemToObject object string item => s.addItemToObject fuel object string item
  | .detachItemFromObject object string => (s.detachItemFromObject fuel object string).map (·.2)
  | .deleteItemFromObject object string => s.deleteItemFromObject fuel object string
  | .replaceItemInObject object string newitem => s.replaceItemInObject fuel object string newitem

theorem Holds.exec (h : s.Holds m) {op : ObjectOp α} (hop : m.Admitted op) :
    ∃ s' n, (∀ fuel ≥ n, s.exec fuel op = some s') ∧ s'.Holds (m.apply op) := by
  cases op with
  | onArray op =>
    obtain ⟨tree, n, hresult, hholds⟩ := h.tree.exec hop
    refine ⟨{ s with tree := tree }, n, fun fuel hfuel => ?_, hholds, h.names⟩
    rw [Objects.exec, hresult fuel hfuel]
    rfl
  | addItemToObject object string item =>
    obtain ⟨tree, hresult, hholds⟩ := h.tree.addItemToArray hop.1 hop.2
    refine ⟨⟨tree, Function.update s.string item (some string)⟩, (m.lists object).length,
      fun fuel hfuel => ?_, hholds, ?_⟩
    · rw [Objects.exec, Objects.addItemToObject, hresult fuel hfuel]
      rfl
    · rw [h.names]
      rfl
  | detachItemFromObject object string =>
    obtain ⟨tree, hresult, hholds⟩ := h.detachItemFromObject hop string
    refine ⟨{ s with tree := tree }, (m.lists object).length + 1, fun fuel hfuel => ?_, hholds,
      h.names⟩
    rw [Objects.exec, hresult fuel hfuel]
    rfl
  | deleteItemFromObject object string => exact h.deleteItemFromObject hop string
  | replaceItemInObject object string newitem => exact h.replaceItemInObject hop.1 hop.2 string

def run (fuel : Nat) (s : Objects α) (ops : List (ObjectOp α)) : Option (Objects α) :=
  ops.foldlM (exec fuel) s

theorem Holds.run (h : s.Holds m) {ops : List (ObjectOp α)}
    (hops : History.Each Members.apply Members.Admitted m ops) :
    ∃ s' n, (∀ fuel ≥ n, s.run fuel ops = some s') ∧
      s'.Holds (History.run Members.apply m ops) := by
  induction ops generalizing s m with
  | nil => exact ⟨s, 0, fun _ _ => rfl, h⟩
  | cons op ops ih =>
    obtain ⟨hop, hrest⟩ := History.each_cons.mp hops
    obtain ⟨s₁, n, hfirst, hholds⟩ := h.exec hop
    obtain ⟨s₂, k, hlast, hholds'⟩ := ih hholds hrest
    refine ⟨s₂, max n k, fun fuel hfuel => ?_, hholds'⟩
    rw [Objects.run, List.foldlM_cons, hfirst fuel (Nat.le_trans (Nat.le_max_left n k) hfuel)]
    exact hlast fuel (Nat.le_trans (Nat.le_max_right n k) hfuel)

end Objects

/-- Whatever is done to arrays and objects, as long as nothing that was deleted is used again, they
behave as lists of items with names, and no item is freed twice: the functions that read an array
or object which has not been deleted give the length of its list, its items and its first item
with a name, and none of these has been deleted. -/
theorem members_refined [DecidableEq α] {ops : List (ObjectOp α)}
    (hops : History.Each Members.apply Members.Admitted .empty ops) :
    let m := History.run Members.apply (.empty : Members α) ops
    ∃ s n, ∀ fuel ≥ n, Objects.start.run fuel ops = some s ∧ s.Holds m ∧
      ∀ array ∉ m.deleted, (∀ x ∈ m.lists array, x ∉ s.tree.freed) ∧
        (∀ item, s.tree.getArrayItem array item = (m.lists array)[item.toNat]?) ∧
        ((m.lists array).length < fuel →
          s.tree.getArraySize fuel array = some (m.lists array).length ∧
          ∀ string, s.getObjectItem fuel array string = some (m.find? array string)) := by
  intro m
  obtain ⟨s, n, hrun, hholds⟩ := Objects.holds_start.run hops
  refine ⟨s, n, fun fuel hfuel => ⟨hrun fuel hfuel, hholds, fun array harray =>
    ⟨fun x hx => ?_, hholds.tree.linked.walk array, fun hlength =>
      ⟨hholds.tree.linked.getArraySize hlength, hholds.getObjectItem hlength⟩⟩⟩⟩
  rw [hholds.tree.freed]
  exact hholds.tree.live harray hx

theorem moved_member_refined :
    let ops : List (ObjectOp (Fin 7)) := [.addItemToObject 0 ⟨[97], by decide⟩ 2,
      .addItemToObject 0 ⟨[66], by decide⟩ 3, .onArray (.addItemToArray 3 5),
      .replaceItemInObject 0 ⟨[98], by decide⟩ 4, .detachItemFromObject 0 ⟨[65], by decide⟩,
      .onArray (.insertItemInArray 1 7 2), .onArray (.deleteItemFromArray 0 0)]
    let m := History.run Members.apply (.empty : Members (Fin 7)) ops
    ∃ s n, ∀ fuel ≥ n, Objects.start.run fuel ops = some s ∧ s.Holds m ∧
      ∀ array ∉ m.deleted, (∀ x ∈ m.lists array, x ∉ s.tree.freed) ∧
        (∀ item, s.tree.getArrayItem array item = (m.lists array)[item.toNat]?) ∧
        ((m.lists array).length < fuel →
          s.tree.getArraySize fuel array = some (m.lists array).length ∧
          ∀ string, s.getObjectItem fuel array string = some (m.find? array string)) := by
  intro ops
  let m := History.run Members.apply (.empty : Members (Fin 7)) (ops.take 4)
  have hgone (x : Fin 7) (hx : x ∈ m.deleted) : x ∈ [(3 : Fin 7), 5] := by
    obtain hx | ⟨a, ha, hbelow⟩ : x ∈ (∅ : Set (Fin 7)) ∨ ∃ a ∈ some 3, Below _ a x := hx
    · exact absurd hx (Set.notMem_empty x)
    · obtain rfl : 3 = a := Option.some.inj ha
      exact hbelow.mem_of_closed (by decide) (by decide)
  have hlive (x : Fin 7) (h : x ∉ [(3 : Fin 7), 5]) : x ∉ m.deleted := mt (hgone x) h
  refine members_refined ?_
  simp only [ops, History.each_cons, History.each_nil, and_true]
  refine ⟨⟨id, id, by decide⟩, ⟨id, id, by decide⟩, ⟨id, id, by decide⟩, ⟨id, id, by decide⟩, ?_⟩
  exact ⟨hlive 0 (by decide), ⟨hlive 1 (by decide), hlive 2 (by decide), by decide⟩,
    hlive 0 (by decide)⟩

end Mangoxx.CJson
