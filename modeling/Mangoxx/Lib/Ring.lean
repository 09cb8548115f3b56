import Mathlib.Data.List.Basic
import Mathlib.Data.List.Range
import Mathlib.Data.Nat.ModEq
import Mathlib.Logic.Function.Basic

universe u

namespace Mangoxx.Lib

structure Fifo (α : Type u) (cap : Nat) where
  items : List α
  bound : items.length ≤ cap

namespace Fifo

variable {α : Type u} {cap : Nat}

def empty : Fifo α cap := ⟨[], Nat.zero_le cap⟩

theorem push_le {f : Fifo α cap} {x : α} (h : f.items.length < cap) :
    (f.items ++ [x]).length ≤ cap := by
  rw [List.length_append]
  exact h

def push (f : Fifo α cap) (x : α) : Option (Fifo α cap) :=
  if h : f.items.length < cap then some ⟨f.items ++ [x], push_le h⟩ else none

def pop (f : Fifo α cap) : Option (α × Fifo α cap) :=
  match f with
  | ⟨[], _⟩ => none
  | ⟨x :: xs, h⟩ => some (x, ⟨xs, by simp at h; omega⟩)

@[ext] theorem ext {f g : Fifo α cap} (h : f.items = g.items) : f = g := by
  cases f; cases g; simpa using h

theorem push_eq_none (f : Fifo α cap) (x : α) : f.push x = none ↔ f.items.length = cap := by
  have := f.bound
  simp only [push, dite_eq_right_iff]
  constructor
  · intro h
    by_contra hne
    exact absurd (h (by omega)) (by simp)
  · intro h hlt
    omega

theorem push_items {f g : Fifo α cap} (h : f.push x = some g) : g.items = f.items ++ [x] := by
  simp only [push] at h
  split at h
  · cases h; rfl
  · cases h

theorem pop_items {f g : Fifo α cap} (h : f.pop = some (x, g)) : f.items = x :: g.items := by
  cases f with
  | mk xs hx =>
    cases xs with
    | nil => cases h
    | cons y ys => cases h; rfl

end Fifo

namespace Ring

variable {α : Type u}

def next (n i : Nat) : Nat := if i + 1 ≥ n then 0 else i + 1

theorem next_eq_mod {n i : Nat} (h : i < n) : next n i = (i + 1) % n := by
  unfold next
  split
  · rw [show i + 1 = n by omega, Nat.mod_self]
  · rw [Nat.mod_eq_of_lt (by omega)]

theorem next_lt {n i : Nat} (h : i < n) : next n i < n := by
  rw [next_eq_mod h]
  exact Nat.mod_lt _ (by omega)

/-- The `len` cells from index `head` on, around the end of a buffer of `n` cells. -/
def window (n : Nat) (cell : Nat → α) (head len : Nat) : List α :=
  (List.range len).map fun k => cell ((head + k) % n)

@[simp] theorem window_length (n : Nat) (cell : Nat → α) (head len : Nat) :
    (window n cell head len).length = len := by simp [window]

theorem window_congr {cell cell' : Nat → α}
    (h : ∀ k < len, cell ((head + k) % n) = cell' ((head + k) % n)) :
    window n cell head len = window n cell' head len := by
  apply List.map_congr_left
  intro k hk
  exact h k (List.mem_range.mp hk)

theorem index_ne {head k len n : Nat} (hk : k < len) (hlen : len < n) :
    (head + k) % n ≠ (head + len) % n := by
  intro h
  have hmod : k % n = len % n := Nat.ModEq.add_left_cancel' head h
  rw [Nat.mod_eq_of_lt (by omega), Nat.mod_eq_of_lt hlen] at hmod
  omega

theorem window_push {n len : Nat} (cell : Nat → α) (head : Nat) (x : α) (hlen : len < n) :
    window n (Function.update cell ((head + len) % n) x) head (len + 1) =
      window n cell head len ++ [x] := by
  have hold : window n (Function.update cell ((head + len) % n) x) head len =
      window n cell head len := by
    apply window_congr
    intro k hk
    exact Function.update_of_ne (index_ne hk hlen) x cell
  rw [← hold]
  simp [window, List.range_succ]

theorem window_pop (n : Nat) (cell : Nat → α) (head len : Nat) :
    window n cell head (len + 1) = cell (head % n) :: window n cell ((head + 1) % n) len := by
  simp only [window, List.range_succ_eq_map, List.map_cons, List.map_map, Nat.add_zero]
  congr 1
  apply List.map_congr_left
  intro k _
  have hk : (head + (k + 1)) % n = ((head + 1) % n + k) % n := by
    rw [Nat.mod_add_mod, Nat.add_assoc, Nat.add_comm 1 k]
  exact congrArg cell hk

end Ring

end Mangoxx.Lib
