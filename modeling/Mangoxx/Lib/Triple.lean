import Mangoxx.Lib.Program

universe u

namespace Mangoxx.Lib.Program

variable {ε σ α β : Type u}

section State

theorem get_eq (s : σ) : (get : EStateM ε σ σ) s = .ok s s := rfl

theorem set_eq (s s' : σ) : (set s' : EStateM ε σ PUnit) s = .ok ⟨⟩ s' := rfl

theorem modify_eq (f : σ → σ) (s : σ) : (modify f : EStateM ε σ PUnit) s = .ok ⟨⟩ (f s) := rfl

end State

section Post

/-- The program has ended in `Q`, or has stopped in `E`. -/
def Post (Q : α → σ → Prop) (E : ε → σ → Prop) : EStateM.Result ε σ α → Prop
  | .ok a s => Q a s
  | .error e s => E e s

variable {Q : β → σ → Prop} {R : α → σ → Prop} {E : ε → σ → Prop}

theorem Post.mono {Q' : α → σ → Prop} {r : EStateM.Result ε σ α} (h : Post R E r)
    (hR : ∀ a s, R a s → Q' a s) : Post Q' E r := by
  cases r with
  | ok a s => exact hR a s h
  | error e s => exact h

theorem Post.bind {p : EStateM ε σ α} {f : α → EStateM ε σ β} (hp : Post R E (p s))
    (hf : ∀ a s', R a s' → Post Q E (f a s')) : Post Q E ((p >>= f) s) := by
  cases hps : p s with
  | ok a s' =>
    rw [hps] at hp
    rw [bind_ok hps]
    exact hf a s' hp
  | error e s' =>
    rw [hps] at hp
    rw [bind_error hps]
    exact hp

def TurnPost (J : α → σ → Prop) (Q : β → σ → Prop) (variant : α → σ → Nat) (bound : Nat) :
    Turn α β → σ → Prop
  | .again v, s => J v s ∧ variant v s < bound
  | .stop r, s => Q r s

/-- A loop whose turns keep `J` and make the variant smaller is left. -/
theorem Post.loop {J : α → σ → Prop} {spin : ε} {turn : α → EStateM ε σ (Turn α β)}
    (variant : α → σ → Nat)
    (hturn : ∀ v s, J v s → Post (TurnPost J Q variant (variant v s)) E (turn v s)) (hJ : J v s)
    (hfuel : variant v s < fuel) : Post Q E (loop spin turn fuel v s) := by
  induction fuel generalizing v s with
  | zero => omega
  | succ fuel ih =>
    have hpost := hturn v s hJ
    cases h : turn v s with
    | error e s' =>
      rw [h] at hpost
      rw [Program.loop, bind_error h]
      exact hpost
    | ok t s' =>
      rw [h] at hpost
      cases t with
      | stop r =>
        rw [loop_stop h]
        exact hpost
      | again v' =>
        rw [loop_again h]
        exact ih hpost.1 (by have := hpost.2; omega)

end Post

section Goes

def Goes (turn : α → EStateM ε σ (Turn α β)) (variant : α → σ → Nat) : α × σ → α × σ → Prop :=
  Relation.ReflTransGen fun x y =>
    turn x.1 x.2 = .ok (.again y.1) y.2 ∧ variant y.1 y.2 < variant x.1 x.2

theorem Goes.loop {turn : α → EStateM ε σ (Turn α β)} {variant : α → σ → Nat} {spin : ε}
    (h : Goes turn variant x y) (hstop : turn y.1 y.2 = .ok (.stop r) s)
    (hfuel : variant x.1 x.2 < fuel) :
    loop spin turn fuel x.1 x.2 = .ok r s := by
  induction h using Relation.ReflTransGen.head_induction_on generalizing fuel with
  | refl =>
    obtain ⟨fuel, rfl⟩ : ∃ f, fuel = f + 1 := ⟨fuel - 1, by omega⟩
    exact loop_stop hstop
  | head hturn _ ih =>
    obtain ⟨fuel, rfl⟩ : ∃ f, fuel = f + 1 := ⟨fuel - 1, by omega⟩
    rw [loop_again hturn.1]
    exact ih (by have := hturn.2; omega)

end Goes

section Follows

/-- The first program does what the second one does, unless that one stops for a reason in `bad`. -/
def Follows (bad : ε → Prop) (p q : EStateM ε σ α) : Prop :=
  ∀ s, p s = q s ∨ ∃ e s', q s = .error e s' ∧ bad e

variable {bad : ε → Prop}

theorem Follows.refl (p : EStateM ε σ α) : Follows bad p p := fun _ => .inl rfl

theorem Follows.bind {p q : EStateM ε σ α} {f g : α → EStateM ε σ β} (hpq : Follows bad p q)
    (hfg : ∀ a, Follows bad (f a) (g a)) : Follows bad (p >>= f) (q >>= g) := by
  intro s
  rcases hpq s with h | ⟨e, s', h, he⟩
  · cases hq : q s with
    | ok a s' =>
      rw [bind_ok (h.trans hq), bind_ok hq]
      exact hfg a s'
    | error e s' =>
      rw [bind_error (h.trans hq), bind_error hq]
      exact .inl rfl
  · exact .inr ⟨e, s', bind_error h, he⟩

theorem Follows.ite {c : Prop} [Decidable c] {p q p' q' : EStateM ε σ α} (hp : Follows bad p p')
    (hq : Follows bad q q') : Follows bad (if c then p else q) (if c then p' else q') := by
  split
  · exact hp
  · exact hq

theorem Follows.loop {spin : ε} {turn turn' : α → EStateM ε σ (Turn α β)}
    (h : ∀ v, Follows bad (turn v) (turn' v)) (fuel : Nat) (v : α) :
    Follows bad (loop spin turn fuel v) (loop spin turn' fuel v) := by
  induction fuel generalizing v with
  | zero => exact .refl _
  | succ fuel ih =>
    refine (h v).bind fun t => ?_
    cases t with
    | again v' => exact ih v'
    | stop r => exact .refl _

end Follows

end Mangoxx.Lib.Program
