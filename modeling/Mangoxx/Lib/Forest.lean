import Mathlib.Data.Finset.Card
import Mathlib.Logic.Relation

universe u

namespace Mangoxx.Lib.Forest

variable {α : Type u} {children : α → List α}

def Below (children : α → List α) : α → α → Prop :=
  Relation.ReflTransGen fun a b => b ∈ children a

def OneParent (children : α → List α) : Prop := ∀ a b x, x ∈ children a → x ∈ children b → a = b

/-- No parent of a node of `l` lies below a node of `l`. -/
def Roots (children : α → List α) (l : List α) : Prop :=
  ∀ r ∈ l, ∀ r' ∈ l, ∀ p, Below children r' p → r ∉ children p

variable {a b c p r r' x : α} {l : List α}

theorem Below.refl (a : α) : Below children a a := Relation.ReflTransGen.refl

theorem Below.child (h : Below children a b) (hx : x ∈ children b) : Below children a x :=
  Relation.ReflTransGen.tail h hx

theorem below_iff : Below children a x ↔ x = a ∨ ∃ b ∈ children a, Below children b x := by
  rw [Below, Relation.ReflTransGen.cases_head_iff, eq_comm]

theorem below_of_child (hb : b ∈ children a) (hx : Below children b x) : Below children a x :=
  below_iff.mpr (.inr ⟨b, hb, hx⟩)

theorem below_iff_parent :
    Below children a x ↔ x = a ∨ ∃ b, Below children a b ∧ x ∈ children b :=
  Relation.ReflTransGen.cases_tail_iff _ _ _

theorem roots_singleton (h : ∀ b, c ∉ children b) : Roots children [c] := by
  intro r hr r' _ p _
  rw [List.mem_singleton.mp hr]
  exact h p

theorem Roots.tail (h : Roots children (a :: l)) : Roots children l := fun r hr r' hr' =>
  h r (List.mem_cons_of_mem a hr) r' (List.mem_cons_of_mem a hr')

theorem Roots.not_below_child (h : Roots children l) (ha : a ∈ l) (hr : r ∈ children a) :
    ¬ Below children r a := by
  intro hbelow
  rcases below_iff_parent.mp hbelow with rfl | ⟨p, hp, hparent⟩
  · exact h a ha a ha a (Below.refl a) hr
  · exact h a ha a ha p (below_of_child hr hp) hparent

theorem Roots.of_children (h : Roots children l) (hone : OneParent children) (ha : a ∈ l) :
    Roots children (children a) := by
  intro r hr r' hr' p hp hparent
  rw [hone p a r hparent hr] at hp
  exact h.not_below_child ha hr' hp

theorem Roots.unique (h : Roots children l) (hone : OneParent children) (hr : r ∈ l) (hr' : r' ∈ l)
    (hx : Below children r x) (hx' : Below children r' x) : r = r' := by
  induction hx with
  | refl =>
    rcases below_iff_parent.mp hx' with heq | ⟨p, hp, hparent⟩
    · exact heq
    · exact absurd hparent (h r hr r' hr' p hp)
  | tail hb hxb ih =>
    rcases below_iff_parent.mp hx' with rfl | ⟨p, hp, hparent⟩
    · exact absurd hxb (h _ hr' r hr _ hb)
    · exact ih (hone _ _ _ hparent hxb ▸ hp)

theorem Roots.apart (h : Roots children (a :: l)) (hone : OneParent children) (ha : a ∉ l)
    (hr : r ∈ l) (hx : Below children r x) : ¬ Below children a x := fun hax =>
  ha (h.unique hone List.mem_cons_self (List.mem_cons_of_mem a hr) hax hx ▸ hr)

/-- Below a node without parents lie a node's children where the node itself does. -/
theorem below_child_iff (hone : OneParent children) (hc : ∀ b, c ∉ children b)
    (hx : x ∈ children b) : Below children c x ↔ Below children c b := by
  refine ⟨fun h => ?_, fun h => h.child hx⟩
  rcases below_iff_parent.mp h with rfl | ⟨p, hp, hparent⟩
  · exact absurd hx (hc b)
  · exact hone p b x hparent hx ▸ hp

theorem Below.congr {P : α → Prop} (h : Below children a x)
    (hP : ∀ b x, x ∈ children b → (P b ↔ P x)) : P a ↔ P x := by
  induction h with
  | refl => exact Iff.rfl
  | tail _ hx ih => exact ih.trans (hP _ _ hx)

theorem Below.mem_of_closed (h : Below children a x) {s : List α} (ha : a ∈ s)
    (hs : ∀ b ∈ s, ∀ x ∈ children b, x ∈ s) : x ∈ s := by
  induction h with
  | refl => exact ha
  | tail _ hx ih => exact hs _ ih _ hx

theorem Below.mem_insert [DecidableEq α] {F : Finset α} (h : Below children a x)
    (hF : ∀ b, ∀ x ∈ children b, x ∈ F) : x ∈ insert a F := by
  rcases below_iff_parent.mp h with rfl | ⟨p, -, hparent⟩
  · exact Finset.mem_insert_self x F
  · exact Finset.mem_insert_of_mem (hF p x hparent)

end Mangoxx.Lib.Forest
