import Mangoxx.CJson.Arrays
import Mangoxx.Lib.Forest

universe v

namespace Mangoxx.CJson

open Lib Lib.Link Lib.Forest

variable {α : Type v}

/-- What the arrays hold, and the items that have been deleted. -/
structure Content (α : Type v) where
  lists : α → List α
  deleted : Set α

namespace Content

variable {m : Content α} {c : Option α}

def empty : Content α := ⟨fun _ => [], ∅⟩

def Free (m : Content α) (x : α) : Prop := x ∉ m.deleted ∧ ∀ b, x ∉ m.lists b

def delete (m : Content α) (c : Option α) : Content α :=
  { m with deleted := m.deleted ∪ {x | ∃ a ∈ c, Below m.lists a x} }

theorem mem_delete {x : α} :
    x ∈ (m.delete c).deleted ↔ x ∈ m.deleted ∨ ∃ a ∈ c, Below m.lists a x := Iff.rfl

variable [DecidableEq α]

def set (m : Content α) (array : α) (l : List α) : Content α :=
  { m with lists := Function.update m.lists array l }

end Content

namespace Tree

variable [DecidableEq α] {s s' : Tree α} {m : Content α} {lists : α → List α} {l : List α}

theorem Linked.delete_cons (h : s.Linked lists) {a : α} (hnext : (s.links a).next = l.head?)
    {n : Nat} {new new' freed : List α} (ha : a ∉ new ++ freed)
    (hbelow : ∀ fuel ≥ n, delete fuel (lists a).head? { s with freed := freed } =
      some { s with freed := new ++ freed })
    (hbehind : ∀ fuel ≥ n, delete fuel l.head? { s with freed := a :: (new ++ freed) } =
      some { s with freed := new' ++ a :: (new ++ freed) }) :
    ∀ fuel ≥ n + 1, delete fuel (a :: l).head? { s with freed := freed } =
      some { s with freed := new' ++ a :: new ++ freed } := by
  intro fuel hfuel
  obtain ⟨fuel, rfl⟩ := Nat.exists_eq_add_one.mpr (Nat.zero_lt_of_lt hfuel)
  have hfuel : fuel ≥ n := Nat.le_of_succ_le_succ hfuel
  simp only [List.head?_cons, delete, hnext, h.child, hbelow fuel hfuel]
  simp only [Option.bind_eq_bind, Option.bind_some, if_neg ha, hbehind fuel hfuel]
  simp only [List.append_assoc, List.cons_append]

/-- Each item below the list is freed once: first what lies below an item, then the item. -/
theorem Linked.delete_list (h : s.Linked lists) {n : Nat} {F : Finset α} (hF : F.card ≤ n)
    {before : Option α} (hl : Chain s.links before l none) (hnodup : l.Nodup)
    (hroots : Roots lists l) (hbelow : ∀ a ∈ l, ∀ x, Below lists a x → x ∈ F)
    {freed : List α} (hlive : ∀ a ∈ l, ∀ x, Below lists a x → x ∉ freed) :
    ∃ new, (∀ fuel ≥ n, delete fuel l.head? { s with freed := freed } =
        some { s with freed := new ++ freed }) ∧
      ∀ x, x ∈ new ↔ ∃ a ∈ l, Below lists a x := by
  induction n generalizing F l before freed with
  | zero =>
    cases l with
    | nil => exact ⟨[], fun fuel _ => by cases fuel <;> rfl, by simp⟩
    | cons a l =>
      have ha : a ∈ F := hbelow a List.mem_cons_self a (.refl a)
      exact absurd (Finset.card_pos.mpr ⟨a, ha⟩) (Nat.not_lt.mpr hF)
  | succ n ih =>
    cases l with
    | nil => exact ⟨[], fun fuel _ => by cases fuel <;> rfl, by simp⟩
    | cons a l =>
      obtain ⟨-, hnext, hrest⟩ := hl
      obtain ⟨hal, hnodup⟩ := List.nodup_cons.mp hnodup
      have hself : a ∈ a :: l := List.mem_cons_self
      have hmem {r : α} (hr : r ∈ l) : r ∈ a :: l := List.mem_cons_of_mem a hr
      have hcard : (F.erase a).card ≤ n := by
        rw [Finset.card_erase_of_mem (hbelow a hself a (.refl a))]
        omega
      -- what is below the item, without the item itself
      have hchildren (r : α) (hr : r ∈ lists a) (x : α) (hx : Below lists r x) : x ∈ F.erase a := by
        refine Finset.mem_erase.mpr ⟨?_, hbelow a hself x (below_of_child hr hx)⟩
        rintro rfl
        exact hroots.not_below_child hself hr hx
      obtain ⟨new, hdelete, hnew⟩ := ih hcard (h.chain a) (h.nodup a)
        (hroots.of_children h.disjoint hself) hchildren
        fun r hr x hx => hlive a hself x (below_of_child hr hx)
      have hanew : a ∉ new := by
        intro hin
        obtain ⟨r, hr, hbelow⟩ := (hnew a).mp hin
        exact hroots.not_below_child hself hr hbelow
      -- what is below the items behind it
      have hapart {r x : α} (hr : r ∈ l) (hx : Below lists r x) : ¬ Below lists a x :=
        hroots.apart h.disjoint hal hr hx
      have hbehind (r : α) (hr : r ∈ l) (x : α) (hx : Below lists r x) : x ∈ F.erase a := by
        refine Finset.mem_erase.mpr ⟨?_, hbelow r (hmem hr) x hx⟩
        rintro rfl
        exact hapart hr hx (.refl x)
      have hlive' (r : α) (hr : r ∈ l) (x : α) (hx : Below lists r x) :
          x ∉ a :: (new ++ freed) := by
        simp only [List.mem_cons, List.mem_append, not_or, hnew]
        refine ⟨?_, ?_, hlive r (hmem hr) x hx⟩
        · rintro rfl
          exact hapart hr hx (.refl x)
        · rintro ⟨b, hb, hbx⟩
          exact hapart hr hx (below_of_child hb hbx)
      obtain ⟨new', hdelete', hnew'⟩ := ih hcard hrest hnodup hroots.tail hbehind hlive'
      have hafreed : a ∉ new ++ freed := by
        simp only [List.mem_append, not_or]
        exact ⟨hanew, hlive a hself a (.refl a)⟩
      rw [Option.or_none] at hnext
      refine ⟨new' ++ a :: new, h.delete_cons hnext hafreed hdelete hdelete', fun x => ?_⟩
      simp only [List.mem_append, List.mem_cons, hnew, hnew', exists_eq_or_imp,
        below_iff (a := a)]
      exact or_comm

structure Holds (s : Tree α) (m : Content α) : Prop where
  linked : s.Linked m.lists
  freed : ∀ x, x ∈ s.freed ↔ x ∈ m.deleted
  alike : ∀ b x, x ∈ m.lists b → (b ∈ m.deleted ↔ x ∈ m.deleted)
  finite : ∃ F : Finset α, ∀ b, ∀ x ∈ m.lists b, x ∈ F

theorem Holds.set (h : s.Holds m) {array : α} (harray : array ∉ m.deleted)
    (hfreed : s'.freed = s.freed) (hlinked : s'.Linked (Function.update m.lists array l))
    (hl : ∀ x ∈ l, x ∉ m.deleted) : s'.Holds (m.set array l) := by
  refine ⟨hlinked, fun x => ?_, fun b x hx => ?_, ?_⟩
  · rw [hfreed]
    exact h.freed x
  · simp only [Content.set] at hx ⊢
    by_cases hb : b = array
    · subst hb
      rw [Function.update_self] at hx
      exact iff_of_false harray (hl x hx)
    · rw [Function.update_of_ne hb] at hx
      exact h.alike b x hx
  · obtain ⟨F, hF⟩ := h.finite
    refine ⟨F ∪ l.toFinset, fun b x hx => ?_⟩
    simp only [Content.set] at hx
    rw [Finset.mem_union, List.mem_toFinset]
    by_cases hb : b = array
    · subst hb
      rw [Function.update_self] at hx
      exact .inr hx
    · rw [Function.update_of_ne hb] at hx
      exact .inl (hF b x hx)

theorem Holds.delete (h : s.Holds m) {c : Option α} (hc : ∀ a ∈ c, m.Free a) :
    ∃ s' n, (∀ fuel ≥ n, s.delete fuel c = some s') ∧ s'.Holds (m.delete c) := by
  cases c with
  | none =>
    refine ⟨s, 0, fun fuel _ => by cases fuel <;> rfl, h.linked, fun x => ?_, fun b x hx => ?_,
      h.finite⟩
    · simpa [Content.mem_delete] using h.freed x
    · simpa [Content.mem_delete] using h.alike b x hx
  | some c =>
    obtain ⟨hlive, hparents⟩ := hc c rfl
    obtain ⟨F, hF⟩ := h.finite
    have hone : Chain s.links none [c] none := by
      have hfree := h.linked.free c hparents
      exact ⟨by rw [hfree], by rw [hfree]; rfl, trivial⟩
    have hlive (a : α) (ha : a ∈ [c]) (x : α) (hx : Below m.lists a x) : x ∉ s.freed := by
      rw [h.freed, ← hx.congr h.alike, List.mem_singleton.mp ha]
      exact hlive
    obtain ⟨new, hdelete, hnew⟩ := h.linked.delete_list (Nat.le_refl (insert c F).card) hone
      (List.nodup_singleton c) (roots_singleton hparents)
      (fun a ha x hx => List.mem_singleton.mp ha ▸ hx.mem_insert hF) hlive
    refine ⟨{ s with freed := new ++ s.freed }, _, hdelete, ⟨h.linked.child, h.linked.chain,
      h.linked.nodup, h.linked.disjoint, h.linked.free⟩, fun x => ?_, fun b x hx => ?_, F, hF⟩
    · simp only [List.mem_append, hnew, List.mem_singleton, exists_eq_left, h.freed,
        Content.mem_delete, Option.mem_some_iff, exists_eq_left']
      exact or_comm
    · simp only [Content.mem_delete, Option.mem_some_iff, exists_eq_left']
      rw [h.alike b x hx, below_child_iff h.linked.disjoint hparents hx]

end Tree

inductive ListOp (α : Type v)
  | addItemToArray (array item : α)
  | detachItemFromArray (array : α) (which : Int)
  | deleteItemFromArray (array : α) (which : Int)
  | insertItemInArray (array : α) (which : Int) (newitem : α)
  | replaceItemInArray (array : α) (which : Int) (newitem : α)
  | delete (item : α)

namespace ListOp

/-- Nothing that has been deleted is used again, and what is put into an array is in none. -/
def Admitted (m : Content α) : ListOp α → Prop
  | addItemToArray array item => array ∉ m.deleted ∧ m.Free item
  | detachItemFromArray array _ => array ∉ m.deleted
  | deleteItemFromArray array _ => array ∉ m.deleted
  | insertItemInArray array _ newitem => array ∉ m.deleted ∧ m.Free newitem
  | replaceItemInArray array _ newitem => array ∉ m.deleted ∧ m.Free newitem
  | delete item => m.Free item

variable [DecidableEq α]

/-- The effect on what the arrays hold; a negative index is the first one. -/
def apply (m : Content α) : ListOp α → Content α
  | addItemToArray array item => m.set array (m.lists array ++ [item])
  | detachItemFromArray array which => m.set array ((m.lists array).eraseIdx which.toNat)
  | deleteItemFromArray array which =>
    (m.set array ((m.lists array).eraseIdx which.toNat)).delete (m.lists array)[which.toNat]?
  | insertItemInArray array which newitem => m.set array
      ((m.lists array).take which.toNat ++ newitem :: (m.lists array).drop which.toNat)
  | replaceItemInArray array which newitem =>
    (m.set array ((m.lists array).set which.toNat newitem)).delete (m.lists array)[which.toNat]?
  | delete item => m.delete (some item)

end ListOp

namespace Tree

def start : Tree α := ⟨fun _ => ⟨none, none⟩, fun _ => none, []⟩

theorem holds_start : (start : Tree α).Holds .empty where
  linked := ⟨fun _ => rfl, fun _ => trivial, fun _ => List.nodup_nil, fun _ _ _ => nofun,
    fun _ _ => rfl⟩
  freed _ := by simp [start, Content.empty]
  alike _ _ := nofun
  finite := ⟨∅, fun _ _ => nofun⟩

variable {s : Tree α} {m : Content α} {array newitem : α}

theorem Holds.live (h : s.Holds m) (harray : array ∉ m.deleted) {x : α} (hx : x ∈ m.lists array) :
    x ∉ m.deleted := fun hin => harray ((h.alike array x hx).mpr hin)

variable [DecidableEq α]

def exec (fuel : Nat) (s : Tree α) : ListOp α → Option (Tree α)
  | .addItemToArray array item => s.addItemToArray fuel array item
  | .detachItemFromArray array which => some (s.detachItemFromArray array which).2
  | .deleteItemFromArray array which => s.deleteItemFromArray fuel array which
  | .insertItemInArray array which newitem => s.insertItemInArray fuel array which newitem
  | .replaceItemInArray array which newitem => s.replaceItemInArray fuel array which newitem
  | .delete item => s.delete fuel (some item)

theorem Holds.free_of_removed (h : s.Holds m) (harray : array ∉ m.deleted) {l : List α} {x : α}
    (hx : x ∈ m.lists array) (hl : x ∉ l) : (m.set array l).Free x := by
  refine ⟨h.live harray hx, fun b hb => ?_⟩
  simp only [Content.set] at hb
  by_cases hbarray : b = array
  · subst hbarray
    rw [Function.update_self] at hb
    exact hl hb
  · rw [Function.update_of_ne hbarray] at hb
    exact hbarray (h.linked.disjoint b array x hb hx)

theorem Holds.free_of_erased (h : s.Holds m) (harray : array ∉ m.deleted) {k : Nat} {x : α}
    (hx : (m.lists array)[k]? = some x) : (m.set array ((m.lists array).eraseIdx k)).Free x := by
  refine h.free_of_removed harray (List.mem_of_getElem? hx) ?_
  obtain ⟨pre, post, hl, hk⟩ := split_at hx
  have hnodup : (pre ++ x :: post).Nodup := hl ▸ h.linked.nodup array
  rw [hl, List.eraseIdx_append_of_length_le (Nat.le_of_eq hk), hk, Nat.sub_self]
  exact (List.nodup_cons.mp (List.nodup_middle.mp hnodup)).1

theorem Holds.addItemToArray (h : s.Holds m) (harray : array ∉ m.deleted) (hitem : m.Free newitem) :
    ∃ s', (∀ fuel ≥ (m.lists array).length, s.addItemToArray fuel array newitem = some s') ∧
      s'.Holds (m.set array (m.lists array ++ [newitem])) := by
  obtain ⟨s', hresult, hfreed, hlinked⟩ := h.linked.addItemToArray hitem.2 array
  refine ⟨s', hresult, h.set harray hfreed hlinked fun x hx => ?_⟩
  rcases List.mem_append.mp hx with hx | hx
  · exact h.live harray hx
  · exact List.mem_singleton.mp hx ▸ hitem.1

theorem Holds.detachItemFromArray (h : s.Holds m) (harray : array ∉ m.deleted) (which : Int) :
    ∃ s', s.detachItemFromArray array which = ((m.lists array)[which.toNat]?, s') ∧
      s'.Holds (m.set array ((m.lists array).eraseIdx which.toNat)) := by
  obtain ⟨s', hresult, hfreed, hlinked⟩ := h.linked.detachItemFromArray array which
  exact ⟨s', hresult, h.set harray hfreed hlinked fun x hx =>
    h.live harray (List.mem_of_mem_eraseIdx hx)⟩

theorem Holds.deleteItemFromArray (h : s.Holds m) (harray : array ∉ m.deleted) (which : Int) :
    ∃ s' n, (∀ fuel ≥ n, s.deleteItemFromArray fuel array which = some s') ∧
      s'.Holds ((m.set array ((m.lists array).eraseIdx which.toNat)).delete
        (m.lists array)[which.toNat]?) := by
  obtain ⟨s₁, hdetached, hholds⟩ := h.detachItemFromArray harray which
  obtain ⟨s', n, hdelete, hholds'⟩ := hholds.delete fun a ha => h.free_of_erased harray ha
  refine ⟨s', n, fun fuel hfuel => ?_, hholds'⟩
  rw [Tree.deleteItemFromArray, hdetached]
  exact hdelete fuel hfuel

theorem Holds.insertItemInArray (h : s.Holds m) (harray : array ∉ m.deleted)
    (hitem : m.Free newitem) (which : Int) :
    ∃ s', (∀ fuel ≥ (m.lists array).length,
        s.insertItemInArray fuel array which newitem = some s') ∧
      s'.Holds (m.set array
        ((m.lists array).take which.toNat ++ newitem :: (m.lists array).drop which.toNat)) := by
  obtain ⟨s', hresult, hfreed, hlinked⟩ := h.linked.insertItemInArray hitem.2 array which
  refine ⟨s', hresult, h.set harray hfreed hlinked fun x hx => ?_⟩
  rcases mem_middle.mp hx with rfl | hx
  · exact hitem.1
  · exact h.live harray (List.take_append_drop which.toNat (m.lists array) ▸ hx)

theorem Holds.replaceItemInArray (h : s.Holds m) (harray : array ∉ m.deleted)
    (hitem : m.Free newitem) (which : Int) :
    ∃ s' n, (∀ fuel ≥ n, s.replaceItemInArray fuel array which newitem = some s') ∧
      s'.Holds ((m.set array ((m.lists array).set which.toNat newitem)).delete
        (m.lists array)[which.toNat]?) := by
  obtain ⟨s₁, hreplaced, hfreed, hlinked⟩ := h.linked.replaceItemInArray hitem.2 array which
  have hholds : s₁.Holds (m.set array ((m.lists array).set which.toNat newitem)) := by
    refine h.set harray hfreed hlinked fun x hx => ?_
    rcases List.mem_or_eq_of_mem_set hx with hx | rfl
    · exact h.live harray hx
    · exact hitem.1
  have hfree (a : α) (ha : (m.lists array)[which.toNat]? = some a) :
      (m.set array ((m.lists array).set which.toNat newitem)).Free a := by
    have hmem : a ∈ m.lists array := List.mem_of_getElem? ha
    refine h.free_of_removed harray hmem ?_
    obtain ⟨pre, post, hl, hk⟩ := split_at ha
    have hnodup : (pre ++ a :: post).Nodup := hl ▸ h.linked.nodup array
    rw [hl, List.set_append_right _ _ (Nat.le_of_eq hk), hk, Nat.sub_self]
    intro hin
    rcases mem_middle.mp hin with rfl | hin
    · exact hitem.2 array hmem
    · exact (List.nodup_cons.mp (List.nodup_middle.mp hnodup)).1 hin
  obtain ⟨s', n, hdelete, hholds'⟩ := hholds.delete hfree
  exact ⟨s', n, fun fuel hfuel => (hreplaced fuel).trans (hdelete fuel hfuel), hholds'⟩

theorem Holds.exec (h : s.Holds m) {op : ListOp α} (hop : op.Admitted m) :
    ∃ s' n, (∀ fuel ≥ n, s.exec fuel op = some s') ∧ s'.Holds (op.apply m) := by
  cases op with
  | addItemToArray array item =>
    obtain ⟨s', hresult, hholds⟩ := h.addItemToArray hop.1 hop.2
    exact ⟨s', _, hresult, hholds⟩
  | detachItemFromArray array which =>
    obtain ⟨s', hresult, hholds⟩ := h.detachItemFromArray hop which
    exact ⟨s', 0, fun fuel _ => by rw [Tree.exec, hresult], hholds⟩
  | deleteItemFromArray array which => exact h.deleteItemFromArray hop which
  | insertItemInArray array which newitem =>
    obtain ⟨s', hresult, hholds⟩ := h.insertItemInArray hop.1 hop.2 which
    exact ⟨s', _, hresult, hholds⟩
  | replaceItemInArray array which newitem => exact h.replaceItemInArray hop.1 hop.2 which
  | delete item => exact h.delete fun a ha => Option.mem_some_iff.mp ha ▸ hop

end Tree

end Mangoxx.CJson
