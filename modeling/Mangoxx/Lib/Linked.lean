import Mathlib.Data.List.Nodup
import Mathlib.Logic.Function.Basic

universe u

namespace Mangoxx.Lib

structure Link (α : Type u) where
  next : Option α
  prev : Option α

namespace Link

variable {α : Type u}

/-- The cells are linked to each other, and at the ends to `before` and `after`. -/
def Chain (links : α → Link α) : Option α → List α → Option α → Prop
  | _, [], _ => True
  | before, a :: l, after =>
    (links a).prev = before ∧ (links a).next = l.head?.or after ∧ Chain links (some a) l after

variable {links links' : α → Link α} {before after : Option α} {l l' : List α} {a c : α}

theorem chain_append : Chain links before (l ++ l') after ↔
    Chain links before l (l'.head?.or after) ∧ Chain links (l.getLast?.or before) l' after := by
  induction l generalizing before with
  | nil => simp [Chain]
  | cons a l ih =>
    have hlast : (a :: l).getLast?.or before = l.getLast?.or (some a) := by
      rw [List.getLast?_cons]
      cases l.getLast? <;> rfl
    simp only [List.cons_append, Chain, ih, List.head?_append, Option.or_assoc, hlast, and_assoc]

theorem Chain.frame (h : Chain links before l after) (hsame : ∀ a ∈ l, links' a = links a) :
    Chain links' before l after := by
  induction l generalizing before with
  | nil => trivial
  | cons a l ih =>
    obtain ⟨ha, hl⟩ := List.forall_mem_cons.mp hsame
    obtain ⟨hprev, hnext, hrest⟩ := h
    rw [← ha] at hprev hnext
    exact ⟨hprev, hnext, ih hrest hl⟩

def walk (links : α → Link α) : Nat → Option α → Option α
  | 0, c => c
  | _ + 1, none => none
  | n + 1, some a => walk links n (links a).next

theorem Chain.walk (h : Chain links before l none) (n : Nat) : walk links n l.head? = l[n]? := by
  induction n generalizing before l with
  | zero => exact List.head?_eq_getElem?
  | succ n ih =>
    cases l with
    | nil => rfl
    | cons a l =>
      obtain ⟨-, hnext, hrest⟩ := h
      rw [Option.or_none] at hnext
      rw [List.head?_cons, Link.walk, hnext, ih hrest, List.getElem?_cons_succ]

theorem chain_middle : Chain links none (l ++ c :: l') none ↔ Chain links none l (some c) ∧
    (links c).prev = l.getLast? ∧ (links c).next = l'.head? ∧ Chain links (some c) l' none := by
  simp only [chain_append, Chain, List.head?_cons, Option.or_none]

theorem nodup_middle (h : (l ++ c :: l').Nodup) :
    l.Nodup ∧ l'.Nodup ∧ c ∉ l ∧ c ∉ l' ∧ ∀ x ∈ l, x ∉ l' := by
  obtain ⟨hl, hcl', hdisjoint⟩ := List.nodup_append.mp h
  obtain ⟨hc, hl'⟩ := List.nodup_cons.mp hcl'
  exact ⟨hl, hl', fun hmem => hdisjoint c hmem c (List.mem_cons_self ..) rfl, hc,
    fun x hx hx' => hdisjoint x hx x (List.mem_cons_of_mem _ hx') rfl⟩

theorem mem_middle {x : α} : x ∈ l ++ c :: l' ↔ x = c ∨ x ∈ l ++ l' := by
  rw [List.mem_append, List.mem_cons, List.mem_append, or_left_comm]

theorem split_at {k : Nat} (h : l[k]? = some c) :
    ∃ pre post, l = pre ++ c :: post ∧ pre.length = k := by
  obtain ⟨hk, rfl⟩ := List.getElem?_eq_some_iff.mp h
  refine ⟨l.take k, l.drop (k + 1), ?_, List.length_take_of_le (Nat.le_of_lt hk)⟩
  rw [← List.drop_eq_getElem_cons hk, List.take_append_drop]

theorem getLast?_ne (h : c ∉ l) : l.getLast? ≠ some c := fun hlast => h (List.mem_of_getLast? hlast)

theorem head?_ne (h : c ∉ l) : l.head? ≠ some c := fun hhead => h (List.mem_of_head? hhead)

section Updates

variable [DecidableEq α]

def setNext (links : α → Link α) (p next : Option α) : α → Link α :=
  match p with
  | none => links
  | some a => Function.update links a { links a with next := next }

def setPrev (links : α → Link α) (p prev : Option α) : α → Link α :=
  match p with
  | none => links
  | some a => Function.update links a { links a with prev := prev }

theorem setNext_of_ne {p : Option α} (h : p ≠ some c) (next : Option α) :
    setNext links p next c = links c := by
  cases p with
  | none => rfl
  | some a => exact Function.update_of_ne (fun hca => h (congrArg some hca.symm)) _ _

theorem setPrev_of_ne {p : Option α} (h : p ≠ some c) (prev : Option α) :
    setPrev links p prev c = links c := by
  cases p with
  | none => rfl
  | some a => exact Function.update_of_ne (fun hca => h (congrArg some hca.symm)) _ _

@[simp] theorem setNext_self (next : Option α) :
    setNext links (some a) next a = ⟨next, (links a).prev⟩ :=
  Function.update_self ..

@[simp] theorem setPrev_self (prev : Option α) :
    setPrev links (some a) prev a = ⟨(links a).next, prev⟩ :=
  Function.update_self ..

theorem Chain.setNext (h : Chain links before l after) (hnodup : l.Nodup) (next : Option α) :
    Chain (setNext links l.getLast? next) before l next := by
  induction l generalizing before with
  | nil => trivial
  | cons a l ih =>
    obtain ⟨hprev, hnext, hrest⟩ := h
    obtain ⟨ha, hl⟩ := List.nodup_cons.mp hnodup
    cases l with
    | nil => exact ⟨by simpa using hprev, by simp, trivial⟩
    | cons b l =>
      have hsame : Link.setNext links (b :: l).getLast? next a = links a :=
        setNext_of_ne (getLast?_ne ha) next
      rw [List.getLast?_cons_cons]
      refine ⟨?_, ?_, ih hrest hl⟩
      · rw [hsame]
        exact hprev
      · rw [hsame]
        exact hnext

theorem Chain.setPrev (h : Chain links before l after) (hnodup : l.Nodup) (prev : Option α) :
    Chain (setPrev links l.head? prev) prev l after := by
  cases l with
  | nil => trivial
  | cons a l =>
    obtain ⟨-, hnext, hrest⟩ := h
    obtain ⟨ha, -⟩ := List.nodup_cons.mp hnodup
    refine ⟨by simp, by simpa using hnext, hrest.frame fun b hb => setPrev_of_ne ?_ _⟩
    exact fun hab => ha (Option.some.inj hab ▸ hb)

theorem setNext_congr (h : links' c = links c) (p next : Option α) :
    setNext links' p next c = setNext links p next c := by
  by_cases hp : p = some c
  · rw [hp, setNext_self, setNext_self, h]
  · rw [setNext_of_ne hp, setNext_of_ne hp, h]

theorem setPrev_congr (h : links' c = links c) (p prev : Option α) :
    setPrev links' p prev c = setPrev links p prev c := by
  by_cases hp : p = some c
  · rw [hp, setPrev_self, setPrev_self, h]
  · rw [setPrev_of_ne hp, setPrev_of_ne hp, h]

def put (links : α → Link α) (p : Option α) (c : α) (n : Option α) : α → Link α :=
  setNext (setPrev (Function.update links c ⟨n, p⟩) n (some c)) p (some c)

theorem put_of_ne {x : α} (hc : x ≠ c) (hl : x ∉ l) (hl' : x ∉ l') :
    put links l.getLast? c l'.head? x = links x := by
  rw [put, setNext_of_ne (getLast?_ne hl), setPrev_of_ne (head?_ne hl'), Function.update_of_ne hc]

theorem put_self (hl : c ∉ l) (hl' : c ∉ l') :
    put links l.getLast? c l'.head? c = ⟨l'.head?, l.getLast?⟩ := by
  rw [put, setNext_of_ne (getLast?_ne hl), setPrev_of_ne (head?_ne hl'), Function.update_self]

theorem Chain.put (h : Chain links none l after) (h' : Chain links before l' none)
    (hnodup : (l ++ c :: l').Nodup) :
    Chain (put links l.getLast? c l'.head?) none (l ++ c :: l') none := by
  obtain ⟨hl, hl', hcl, hcl', hdisjoint⟩ := nodup_middle hnodup
  rw [chain_middle, put_self hcl hcl']
  refine ⟨(h.setNext hl _).frame fun x hx => ?_, rfl, rfl, (h'.setPrev hl' _).frame fun x hx => ?_⟩
  · refine setNext_congr ?_ _ _
    rw [setPrev_of_ne (head?_ne (hdisjoint x hx)),
      Function.update_of_ne (ne_of_mem_of_not_mem hx hcl)]
  · rw [Link.put, setNext_of_ne (getLast?_ne fun hin => hdisjoint x hin hx)]
    exact setPrev_congr (Function.update_of_ne (ne_of_mem_of_not_mem hx hcl') _ _) _ _

theorem put_alone (h : links c = ⟨none, none⟩) : put links none c none = links := by
  rw [put, ← h]
  exact Function.update_eq_self c links

theorem put_last {p : α} (h : links c = ⟨none, none⟩) (hp : p ≠ c) :
    setPrev (setNext links (some p) (some c)) (some c) (some p) = put links (some p) c none := by
  have hpc : some p ≠ some c := fun heq => hp (Option.some.inj heq)
  funext x
  by_cases hx : x = c
  · rw [hx, setPrev_self, put, setNext_of_ne hpc, setNext_of_ne hpc, h]
    exact (Function.update_self c ⟨none, some p⟩ links).symm
  · have hxc : some c ≠ some x := fun heq => hx (Option.some.inj heq).symm
    rw [setPrev_of_ne hxc]
    exact (setNext_congr (Function.update_of_ne hx ⟨none, some p⟩ links) _ _).symm

def bypass (links : α → Link α) (p n : Option α) : α → Link α := setPrev (setNext links p n) n p

theorem bypass_of_ne (hl : c ∉ l) (hl' : c ∉ l') :
    bypass links l.getLast? l'.head? c = links c := by
  rw [bypass, setPrev_of_ne (head?_ne hl'), setNext_of_ne (getLast?_ne hl)]

theorem Chain.bypass (h : Chain links none l after) (h' : Chain links before l' none)
    (hnodup : (l ++ l').Nodup) : Chain (bypass links l.getLast? l'.head?) none (l ++ l') none := by
  obtain ⟨hl, hl', hdisjoint⟩ := List.nodup_append.mp hnodup
  rw [chain_append, Option.or_none, Option.or_none]
  refine ⟨(h.setNext hl _).frame fun x hx => ?_, (h'.setPrev hl' _).frame fun x hx => ?_⟩
  · rw [Link.bypass, setPrev_of_ne (head?_ne fun hin => hdisjoint x hx x hin rfl)]
  · exact setPrev_congr (setNext_of_ne (getLast?_ne fun hin => hdisjoint x hin x hx rfl) _) _ _

end Updates

end Link

end Mangoxx.Lib
