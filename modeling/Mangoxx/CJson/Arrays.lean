import Mangoxx.Lib.Linked
import Mangoxx.Lib.Loop

/-! The arrays of `cJSON.c`: the items of an array are a doubly linked list, which the operations on
arrays keep.  No item is a reference (`cJSON_IsReference`). -/

universe v

namespace Mangoxx.CJson

open Lib Lib.Link

variable {α : Type v}

/-- The items are named by `α`; `freed` are those that were given to `cJSON_free`. -/
structure Tree (α : Type v) where
  links : α → Link α
  child : α → Option α
  freed : List α

namespace Tree

def lastTurn (s : Tree α) (c : α) : Turn α α :=
  match (s.links c).next with
  | none => .stop c
  | some next => .again next

def sizeTurn (s : Tree α) (v : Nat × Option α) : Turn (Nat × Option α) Nat :=
  match v.2 with
  | none => .stop v.1
  | some c => .again (v.1 + 1, (s.links c).next)

def getArraySize (fuel : Nat) (array : α) (s : Tree α) : Option Nat :=
  Loop.iterate s.sizeTurn fuel (0, s.child array)

def getArrayItem (array : α) (item : Int) (s : Tree α) : Option α :=
  walk s.links item.toNat (s.child array)

section Walks

variable {s : Tree α} {l : List α}

theorem last_found {before : Option α} {a : α} (h : Chain s.links before (a :: l) none) {fuel : Nat}
    (hfuel : l.length < fuel) : Loop.iterate s.lastTurn fuel a = (a :: l).getLast? := by
  induction l generalizing before a fuel with
  | nil =>
    obtain ⟨fuel, rfl⟩ := Nat.exists_eq_add_one.mpr hfuel
    obtain ⟨-, hnext, -⟩ := h
    simp [Loop.iterate, lastTurn, hnext]
  | cons b l ih =>
    obtain ⟨fuel, rfl⟩ := Nat.exists_eq_add_one.mpr (Nat.zero_lt_of_lt hfuel)
    obtain ⟨-, hnext, hrest⟩ := h
    have hturn : s.lastTurn a = .again b := by
      rw [lastTurn, hnext]
      rfl
    rw [Loop.iterate, hturn, List.getLast?_cons_cons]
    exact ih hrest (by simpa using hfuel)

theorem size_counted {before : Option α} (h : Chain s.links before l none) {fuel : Nat}
    (hfuel : l.length < fuel) (i : Nat) :
    Loop.iterate s.sizeTurn fuel (i, l.head?) = some (i + l.length) := by
  induction l generalizing before fuel i with
  | nil =>
    obtain ⟨fuel, rfl⟩ := Nat.exists_eq_add_one.mpr hfuel
    rfl
  | cons a l ih =>
    obtain ⟨fuel, rfl⟩ := Nat.exists_eq_add_one.mpr (Nat.zero_lt_of_lt hfuel)
    obtain ⟨-, hnext, hrest⟩ := h
    rw [Option.or_none] at hnext
    have hturn : s.sizeTurn (i, (a :: l).head?) = .again (i + 1, l.head?) := by
      rw [← hnext]
      rfl
    rw [Loop.iterate, hturn, List.length_cons, Nat.add_comm l.length, ← Nat.add_assoc]
    exact ih hrest (by simpa using hfuel) (i + 1)

/-- The items of every array are its list; what is in no list is linked to nothing. -/
structure Linked (s : Tree α) (lists : α → List α) : Prop where
  child : ∀ b, s.child b = (lists b).head?
  chain : ∀ b, Chain s.links none (lists b) none
  nodup : ∀ b, (lists b).Nodup
  disjoint : ∀ b b' x, x ∈ lists b → x ∈ lists b' → b = b'
  free : ∀ x, (∀ b, x ∉ lists b) → s.links x = ⟨none, none⟩

variable {lists : α → List α} {array : α}

theorem Linked.getArraySize (h : s.Linked lists) {fuel : Nat}
    (hfuel : (lists array).length < fuel) :
    s.getArraySize fuel array = some (lists array).length := by
  rw [Tree.getArraySize, h.child, size_counted (h.chain array) hfuel, Nat.zero_add]

theorem Linked.walk (h : s.Linked lists) (array : α) (which : Int) :
    Link.walk s.links which.toNat (s.child array) = (lists array)[which.toNat]? := by
  rw [h.child, (h.chain array).walk]

theorem Linked.around (h : s.Linked lists) {k : Nat} {c : α} (hc : (lists array)[k]? = some c) :
    ∃ pre post, lists array = pre ++ c :: post ∧ pre.length = k ∧
      s.child array = (pre ++ c :: post).head? ∧ Chain s.links none (pre ++ c :: post) none ∧
      (pre ++ c :: post).Nodup := by
  obtain ⟨pre, post, hl, hk⟩ := split_at hc
  exact ⟨pre, post, hl, hk, hl ▸ h.child array, hl ▸ h.chain array, hl ▸ h.nodup array⟩

end Walks

variable [DecidableEq α]

def suffixObject (prev item : α) (s : Tree α) : Tree α :=
  { s with links := setPrev (setNext s.links (some prev) (some item)) (some item) (some prev) }

def addItemToArray (fuel : Nat) (array item : α) (s : Tree α) : Option (Tree α) :=
  match s.child array with
  | none => some { s with child := Function.update s.child array (some item) }
  | some c => do
    let c ← Loop.iterate s.lastTurn fuel c
    return s.suffixObject c item

def detachItemFromArray (array : α) (which : Int) (s : Tree α) : Option α × Tree α :=
  match walk s.links which.toNat (s.child array) with
  | none => (none, s)
  | some c =>
    let links := setNext s.links (s.links c).prev (s.links c).next
    let links := setPrev links (links c).next (links c).prev
    let child :=
      if some c = s.child array then Function.update s.child array (links c).next else s.child
    (some c, { s with links := Function.update links c ⟨none, none⟩, child := child })

/-- There is no result if an item is freed twice. -/
def delete : Nat → Option α → Tree α → Option (Tree α)
  | _, none, s => some s
  | 0, some _, _ => none
  | fuel + 1, some c, s => do
    let next := (s.links c).next
    let s ← delete fuel (s.child c) s
    if c ∈ s.freed then none else delete fuel next { s with freed := c :: s.freed }

def deleteItemFromArray (fuel : Nat) (array : α) (which : Int) (s : Tree α) : Option (Tree α) :=
  let (c, s) := s.detachItemFromArray array which
  s.delete fuel c

/-- `if (c == array->child) array->child = item; else item->prev->next = item;`, where the item has
its links.  There is no result if `item->prev` is `NULL`. -/
def enter (array c item : α) (s : Tree α) : Option (Tree α) :=
  if some c = s.child array then some { s with child := Function.update s.child array (some item) }
  else (s.links item).prev.map fun prev =>
    { s with links := setNext s.links (some prev) (some item) }

def insertItemInArray (fuel : Nat) (array : α) (which : Int) (newitem : α) (s : Tree α) :
    Option (Tree α) :=
  match walk s.links which.toNat (s.child array) with
  | none => s.addItemToArray fuel array newitem
  | some c =>
    let links := Function.update s.links newitem ⟨some c, (s.links c).prev⟩
    enter array c newitem { s with links := setPrev links (some c) (some newitem) }

def replaceItemInArray (fuel : Nat) (array : α) (which : Int) (newitem : α) (s : Tree α) :
    Option (Tree α) :=
  match walk s.links which.toNat (s.child array) with
  | none => some s
  | some c => do
    let links := Function.update s.links newitem ⟨(s.links c).next, (s.links c).prev⟩
    let links := setPrev links (links newitem).next (some newitem)
    let s ← enter array c newitem { s with links := links }
    delete fuel (some c) { s with links := Function.update s.links c ⟨none, none⟩ }

section Linked

variable {s s' : Tree α} {lists : α → List α} {array : α} {l : List α}

theorem Linked.update (h : s.Linked lists)
    (hchild : s'.child = Function.update s.child array l.head?)
    (hchain : Chain s'.links none l none) (hnodup : l.Nodup)
    (hnew : ∀ x ∈ l, x ∈ lists array ∨ ∀ b, x ∉ lists b)
    (hframe : ∀ x, x ∉ lists array → x ∉ l → s'.links x = s.links x)
    (hremoved : ∀ x ∈ lists array, x ∉ l → s'.links x = ⟨none, none⟩) :
    s'.Linked (Function.update lists array l) := by
  have hother {b : α} (hb : b ≠ array) : ∀ x ∈ lists b, x ∉ lists array ∧ x ∉ l := by
    intro x hx
    have hnot : x ∉ lists array := fun hin => hb (h.disjoint b array x hx hin)
    exact ⟨hnot, fun hin => (hnew x hin).elim hnot fun hfree => hfree b hx⟩
  refine ⟨fun b => ?_, fun b => ?_, fun b => ?_, fun b b' x hx hx' => ?_, fun x hfree => ?_⟩
  · rw [hchild]
    by_cases hb : b = array
    · subst hb
      simp
    · rw [Function.update_of_ne hb, Function.update_of_ne hb]
      exact h.child b
  · by_cases hb : b = array
    · subst hb
      rwa [Function.update_self]
    · rw [Function.update_of_ne hb]
      exact (h.chain b).frame fun x hx => hframe x (hother hb x hx).1 (hother hb x hx).2
  · by_cases hb : b = array
    · subst hb
      rwa [Function.update_self]
    · rw [Function.update_of_ne hb]
      exact h.nodup b
  · by_cases hb : b = array
    · by_cases hb' : b' = array
      · rw [hb, hb']
      · rw [hb, Function.update_self] at hx
        rw [Function.update_of_ne hb'] at hx'
        exact absurd hx (hother hb' x hx').2
    · rw [Function.update_of_ne hb] at hx
      by_cases hb' : b' = array
      · rw [hb', Function.update_self] at hx'
        exact absurd hx' (hother hb x hx).2
      · rw [Function.update_of_ne hb'] at hx'
        exact h.disjoint b b' x hx hx'
  · have hl : x ∉ l := by simpa using hfree array
    have hrest {b : α} (hb : b ≠ array) : x ∉ lists b := by simpa [hb] using hfree b
    by_cases hx : x ∈ lists array
    · exact hremoved x hx hl
    · rw [hframe x hx hl]
      refine h.free x fun b => ?_
      by_cases hb : b = array
      · exact hb ▸ hx
      · exact hrest hb

variable {item : α}

theorem Linked.addItemToArray (h : s.Linked lists) (hitem : ∀ b, item ∉ lists b) (array : α) :
    ∃ s', (∀ fuel ≥ (lists array).length, s.addItemToArray fuel array item = some s') ∧
      s'.freed = s.freed ∧ s'.Linked (Function.update lists array (lists array ++ [item])) := by
  have hlinks := h.free item hitem
  have hchild := h.child array
  have hchain := h.chain array
  have hnodup : (lists array ++ [item]).Nodup :=
    List.Nodup.append (h.nodup array) (List.nodup_singleton item)
      (List.disjoint_singleton.mpr (hitem array))
  refine ⟨{ s with
    links := put s.links (lists array).getLast? item none
    child := Function.update s.child array (lists array ++ [item]).head? },
    fun fuel hfuel => ?_, rfl, ?_⟩
  · cases hl : lists array with
    | nil =>
      rw [hl] at hchild
      simp only [Tree.addItemToArray, hchild, List.head?_nil, List.getLast?_nil, put_alone hlinks]
      rfl
    | cons a l =>
      obtain ⟨p, hp⟩ : ∃ p, (a :: l).getLast? = some p :=
        ⟨_, List.getLast?_eq_getLast_of_ne_nil (by simp)⟩
      have hpitem : p ≠ item := ne_of_mem_of_not_mem (hl ▸ List.mem_of_getLast? hp) (hitem array)
      rw [hl] at hchild hchain hfuel
      have hkeep : Function.update s.child array (a :: l ++ [item]).head? = s.child := by
        rw [List.cons_append, List.head?_cons, ← List.head?_cons, ← hchild, Function.update_eq_self]
      simp only [Tree.addItemToArray, hchild, List.head?_cons, last_found hchain hfuel, hp, hkeep,
        ← put_last hlinks hpitem]
      rfl
  · refine h.update rfl (hchain.put (show Chain s.links none [] none from trivial) hnodup)
      hnodup ?_ ?_ ?_
    · intro x hx
      rcases List.mem_append.mp hx with hx | hx
      · exact .inl hx
      · exact .inr (List.mem_singleton.mp hx ▸ hitem)
    · intro x hx hx'
      have hxitem : x ≠ item :=
        fun heq => hx' (List.mem_append_right _ (List.mem_singleton.mpr heq))
      exact put_of_ne hxitem hx (List.not_mem_nil (a := x))
    · exact fun x hx hnot => absurd (List.mem_append_left _ hx) hnot

theorem child_eq {child : α → Option α} {pre post : List α} {c : α}
    (hchild : child array = (pre ++ c :: post).head?) (hc : c ∉ pre) (v : Option α) :
    (if some c = child array then Function.update child array v else child) =
      Function.update child array (pre.head?.or v) := by
  cases pre with
  | nil =>
    have hfirst : some c = child array := hchild.symm
    rw [if_pos hfirst]
    rfl
  | cons p pre =>
    have hne : some c ≠ child array := by
      rw [hchild]
      exact fun heq => hc (List.mem_of_head? heq.symm)
    have hkeep : (p :: pre).head?.or v = child array := hchild.symm
    rw [if_neg hne, hkeep, Function.update_eq_self]

theorem enter_eq {pre post rest : List α} {c : α}
    (hchild : s.child array = (pre ++ c :: post).head?) (hc : c ∉ pre) (hrest : item ∉ rest) :
    let links := Function.update s.links item ⟨rest.head?, pre.getLast?⟩
    let links' := put s.links pre.getLast? item rest.head?
    let child := Function.update s.child array (pre ++ item :: rest).head?
    enter array c item { s with links := setPrev links rest.head? (some item) } =
      some { s with links := links', child := child } := by
  intro links links' child
  have hprev : setPrev links rest.head? (some item) item = ⟨rest.head?, pre.getLast?⟩ :=
    (setPrev_of_ne (head?_ne hrest) _).trans (Function.update_self ..)
  cases pre with
  | nil =>
    have hfirst : some c = s.child array := hchild.symm
    simp only [enter, if_pos hfirst, links', child]
    rfl
  | cons p pre =>
    have hne : some c ≠ s.child array := fun heq => head?_ne hc (hchild.symm.trans heq.symm)
    have hkeep : child = s.child := by
      simp only [child, List.cons_append, List.head?_cons]
      rw [← List.head?_cons, ← List.cons_append, ← hchild, Function.update_eq_self]
    simp only [enter, if_neg hne, hprev, hkeep, links']
    rw [List.getLast?_eq_getLast_of_ne_nil (List.cons_ne_nil p pre)]
    rfl

theorem Linked.detachItemFromArray (h : s.Linked lists) (array : α) (which : Int) :
    ∃ s', s.detachItemFromArray array which = ((lists array)[which.toNat]?, s') ∧
      s'.freed = s.freed ∧
      s'.Linked (Function.update lists array ((lists array).eraseIdx which.toNat)) := by
  have hwalk := h.walk array which
  cases hc : (lists array)[which.toNat]? with
  | none =>
    have hkeep : (lists array).eraseIdx which.toNat = lists array :=
      List.eraseIdx_of_length_le (List.getElem?_eq_none_iff.mp hc)
    rw [hc] at hwalk
    rw [hkeep, Function.update_eq_self]
    exact ⟨s, by simp only [Tree.detachItemFromArray, hwalk], rfl, h⟩
  | some c =>
    obtain ⟨pre, post, hl, hk, hchild, hchain, hnodup⟩ := h.around hc
    obtain ⟨hbefore, hprev, hnext, hbehind⟩ := chain_middle.mp hchain
    obtain ⟨-, -, hcpre, hcpost, -⟩ := nodup_middle hnodup
    have hsub : (pre ++ post).Sublist (pre ++ c :: post) :=
      (List.sublist_cons_self c post).append_left pre
    have herase : (lists array).eraseIdx which.toNat = pre ++ post := by
      rw [hl, List.eraseIdx_append_of_length_le (Nat.le_of_eq hk), hk, Nat.sub_self]
      rfl
    let links := Function.update (bypass s.links pre.getLast? post.head?) c ⟨none, none⟩
    let child := Function.update s.child array (pre ++ post).head?
    have hresult : s.detachItemFromArray array which =
        (some c, { s with links := links, child := child }) := by
      have hcnext : setNext s.links pre.getLast? post.head? c = s.links c :=
        setNext_of_ne (getLast?_ne hcpre) _
      rw [hc] at hwalk
      simp only [Tree.detachItemFromArray, hwalk, hprev, hnext, hcnext]
      rw [setPrev_of_ne (head?_ne hcpost), hcnext, hnext, child_eq hchild hcpre]
      simp only [links, child, List.head?_append]
      rfl
    rw [herase]
    refine ⟨_, hresult, rfl, h.update rfl ?_ (hnodup.sublist hsub)
      (fun x hx => .inl (hl ▸ hsub.subset hx)) ?_ ?_⟩
    · refine (hbefore.bypass hbehind (hnodup.sublist hsub)).frame fun x hx =>
        Function.update_of_ne ?_ _ _
      exact ne_of_mem_of_not_mem hx (List.mem_append.not.mpr (not_or.mpr ⟨hcpre, hcpost⟩))
    · intro x hx hx'
      rw [hl, mem_middle, not_or] at hx
      obtain ⟨hxpre, hxpost⟩ := not_or.mp (List.mem_append.not.mp hx')
      exact (Function.update_of_ne hx.1 _ _).trans (bypass_of_ne hxpre hxpost)
    · intro x hx hx'
      rw [hl] at hx
      rw [(mem_middle.mp hx).resolve_right hx']
      exact Function.update_self ..

theorem Linked.insertItemInArray (h : s.Linked lists) (hitem : ∀ b, item ∉ lists b) (array : α)
    (which : Int) :
    ∃ s', (∀ fuel ≥ (lists array).length, s.insertItemInArray fuel array which item = some s') ∧
      s'.freed = s.freed ∧ s'.Linked (Function.update lists array
        ((lists array).take which.toNat ++ item :: (lists array).drop which.toNat)) := by
  have hwalk := h.walk array which
  cases hc : (lists array)[which.toNat]? with
  | none =>
    have hlength := List.getElem?_eq_none_iff.mp hc
    rw [hc] at hwalk
    rw [List.take_of_length_le hlength, List.drop_eq_nil_of_le hlength]
    simp only [Tree.insertItemInArray, hwalk]
    exact h.addItemToArray hitem array
  | some c =>
    obtain ⟨pre, post, hl, hk, hchild, hchain, hnodup⟩ := h.around hc
    obtain ⟨-, -, hcpre, -, -⟩ := nodup_middle hnodup
    obtain ⟨hbefore, hbehind⟩ := chain_append.mp hchain
    have hnot : item ∉ pre ++ c :: post := hl ▸ hitem array
    obtain ⟨-, hitemrest⟩ := not_or.mp (List.mem_append.not.mp hnot)
    have hnodup' : (pre ++ item :: c :: post).Nodup :=
      List.nodup_middle.mpr (List.nodup_cons.mpr ⟨hnot, hnodup⟩)
    have hentered := enter_eq (s := s) hchild hcpre hitemrest
    rw [hc] at hwalk
    rw [hl, List.take_left' hk, List.drop_left' hk]
    simp only [Tree.insertItemInArray, hwalk, (chain_middle.mp hchain).2.1]
    refine ⟨_, fun _ _ => hentered, rfl,
      h.update rfl (hbefore.put hbehind hnodup') hnodup' ?_ ?_ ?_⟩
    · intro x hx
      rcases mem_middle.mp hx with rfl | hx
      · exact .inr hitem
      · exact .inl (hl ▸ hx)
    · intro x hx hx'
      obtain ⟨hxpre, hxrest⟩ := not_or.mp (List.mem_append.not.mp (hl ▸ hx))
      exact put_of_ne (fun heq => hx' (mem_middle.mpr (.inl heq))) hxpre hxrest
    · intro x hx hx'
      exact absurd (mem_middle.mpr (.inr (hl ▸ hx))) hx'

theorem Linked.replaceItemInArray (h : s.Linked lists) (hitem : ∀ b, item ∉ lists b) (array : α)
    (which : Int) :
    ∃ s' : Tree α, (∀ fuel, s.replaceItemInArray fuel array which item =
        s'.delete fuel (lists array)[which.toNat]?) ∧
      s'.freed = s.freed ∧
        s'.Linked (Function.update lists array ((lists array).set which.toNat item)) := by
  have hwalk := h.walk array which
  cases hc : (lists array)[which.toNat]? with
  | none =>
    have hkeep : (lists array).set which.toNat item = lists array :=
      List.set_eq_of_length_le (List.getElem?_eq_none_iff.mp hc)
    rw [hc] at hwalk
    rw [hkeep, Function.update_eq_self]
    exact ⟨s, fun fuel => by simp only [Tree.replaceItemInArray, hwalk, Tree.delete], rfl, h⟩
  | some c =>
    obtain ⟨pre, post, hl, hk, hchild, hchain, hnodup⟩ := h.around hc
    obtain ⟨hbefore, hprev, hnext, hbehind⟩ := chain_middle.mp hchain
    obtain ⟨-, -, hcpre, hcpost, -⟩ := nodup_middle hnodup
    have hnot : item ∉ pre ++ c :: post := hl ▸ hitem array
    obtain ⟨hitemc, hitemrest⟩ := not_or.mp (mem_middle.not.mp hnot)
    obtain ⟨-, hitempost⟩ := not_or.mp (List.mem_append.not.mp hitemrest)
    have hnodup' : (pre ++ item :: post).Nodup :=
      List.nodup_middle.mpr
        (List.nodup_cons.mpr ⟨hitemrest, (List.nodup_cons.mp (List.nodup_middle.mp hnodup)).2⟩)
    have hset : (lists array).set which.toNat item = pre ++ item :: post := by
      rw [hl, List.set_append_right _ _ (Nat.le_of_eq hk), hk, Nat.sub_self]
      rfl
    have hcnot : c ∉ pre ++ item :: post := fun hin =>
      (mem_middle.mp hin).elim (Ne.symm hitemc) fun hin =>
        (List.mem_append.mp hin).elim hcpre hcpost
    have hentered := enter_eq (s := s) hchild hcpre hitempost
    rw [hc] at hwalk
    rw [hset]
    let links := Function.update (put s.links pre.getLast? item post.head?) c ⟨none, none⟩
    let child := Function.update s.child array (pre ++ item :: post).head?
    refine ⟨{ s with links := links, child := child }, fun fuel => ?_, rfl,
      h.update rfl ?_ hnodup' ?_ ?_ ?_⟩
    · simp only [Tree.replaceItemInArray, hwalk, hprev, hnext, Function.update_self, hentered]
      rfl
    · exact (hbefore.put hbehind hnodup').frame fun x hx =>
        Function.update_of_ne (ne_of_mem_of_not_mem hx hcnot) _ _
    · intro x hx
      rcases mem_middle.mp hx with rfl | hx
      · exact .inr hitem
      · exact .inl (hl ▸ mem_middle.mpr (.inr hx))
    · intro x hx hx'
      rw [hl, mem_middle, not_or] at hx
      obtain ⟨hxpre, hxpost⟩ := not_or.mp (List.mem_append.not.mp hx.2)
      exact (Function.update_of_ne hx.1 _ _).trans
        (put_of_ne (fun heq => hx' (mem_middle.mpr (.inl heq))) hxpre hxpost)
    · intro x hx hx'
      rw [hl] at hx
      rw [(mem_middle.mp hx).resolve_right fun hin => hx' (mem_middle.mpr (.inr hin))]
      exact Function.update_self ..

end Linked

end Tree

end Mangoxx.CJson
