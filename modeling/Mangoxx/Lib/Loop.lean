import Mathlib.Logic.Relation

universe u v

namespace Mangoxx.Lib

inductive Turn (σ : Type u) (ρ : Type v)
  | again (s : σ)
  | stop (r : ρ)

namespace Loop

variable {σ : Type u} {ρ : Type v}

/-- At most `fuel` turns; `none` if the loop has not been left by then. -/
def iterate (turn : σ → Turn σ ρ) : Nat → σ → Option ρ
  | 0, _ => none
  | fuel + 1, s =>
    match turn s with
    | .again s' => iterate turn fuel s'
    | .stop r => some r

variable {turn : σ → Turn σ ρ} {s s' : σ} {r r' : ρ}

def Ends (turn : σ → Turn σ ρ) (s : σ) (r : ρ) : Prop := ∃ fuel, iterate turn fuel s = some r

def Forever (turn : σ → Turn σ ρ) (s : σ) : Prop := ∀ fuel, iterate turn fuel s = none

theorem iterate_mono (h : iterate turn n s = some r) (hnm : n ≤ m) :
    iterate turn m s = some r := by
  induction n generalizing m s with
  | zero => simp [iterate] at h
  | succ n ih =>
    cases m with
    | zero => simp at hnm
    | succ m =>
      simp only [iterate] at h ⊢
      cases hturn : turn s with
      | again s' =>
        rw [hturn] at h
        exact ih h (Nat.le_of_succ_le_succ hnm)
      | stop r' =>
        rw [hturn] at h
        exact h

theorem Ends.unique (h : Ends turn s r) (h' : Ends turn s r') : r = r' := by
  obtain ⟨n, hn⟩ := h
  obtain ⟨m, hm⟩ := h'
  have hmax := iterate_mono hn (Nat.le_max_left n m)
  rw [iterate_mono hm (Nat.le_max_right n m)] at hmax
  exact (Option.some.inj hmax).symm

theorem ends_stop (h : turn s = .stop r) : Ends turn s r := ⟨1, by simp [iterate, h]⟩

theorem Ends.again (hturn : turn s = .again s') (h : Ends turn s' r) : Ends turn s r := by
  obtain ⟨n, hn⟩ := h
  exact ⟨n + 1, by simpa [iterate, hturn] using hn⟩

theorem Forever.again (hturn : turn s = .again s') (h : Forever turn s') : Forever turn s := by
  intro fuel
  cases fuel with
  | zero => rfl
  | succ fuel => simpa [iterate, hturn] using h fuel

/-- A loop that goes on from every state of a set to a state of the set never ends. -/
theorem forever_of_invariant (I : σ → Prop) (hI : ∀ s, I s → ∃ s', turn s = .again s' ∧ I s')
    (hs : I s) : Forever turn s := by
  intro fuel
  induction fuel generalizing s with
  | zero => rfl
  | succ fuel ih =>
    obtain ⟨s', hturn, hs'⟩ := hI s hs
    simpa [iterate, hturn] using ih hs'

theorem forever_of_same (hturn : turn s = .again s) : Forever turn s :=
  forever_of_invariant (fun t => t = s) (fun _ ht => ⟨s, ht ▸ hturn, rfl⟩) rfl

def Goes (turn : σ → Turn σ ρ) : σ → σ → Prop :=
  Relation.ReflTransGen fun s s' => turn s = .again s'

theorem Goes.ends (h : Goes turn s s') (hs' : Ends turn s' r) : Ends turn s r := by
  induction h using Relation.ReflTransGen.head_induction_on with
  | refl => exact hs'
  | head hturn _ ih => exact ih.again hturn

theorem Goes.forever (h : Goes turn s s') (hs' : Forever turn s') : Forever turn s := by
  induction h using Relation.ReflTransGen.head_induction_on with
  | refl => exact hs'
  | head hturn _ ih => exact ih.again hturn

end Loop

end Mangoxx.Lib
