import Mathlib.Order.Defs.Unbundled
import Mangoxx.Lib.Loop

universe u

namespace Mangoxx.Lib.Program

variable {ε σ α β : Type u}

/-- The state that a program leaves, at its end or where it has stopped. -/
def after (p : EStateM ε σ α) (s : σ) : σ :=
  match p s with
  | .ok _ s' => s'
  | .error _ s' => s'

theorem after_ok {p : EStateM ε σ α} (h : p s = .ok a s') : after p s = s' := by
  rw [after, h]

theorem after_error {p : EStateM ε σ α} (h : p s = .error e s') : after p s = s' := by
  rw [after, h]

theorem bind_ok {p : EStateM ε σ α} {f : α → EStateM ε σ β} (h : p s = .ok a s') :
    (p >>= f) s = f a s' := by
  simp only [bind, EStateM.bind, h]

theorem bind_error {p : EStateM ε σ α} {f : α → EStateM ε σ β} (h : p s = .error e s') :
    (p >>= f) s = .error e s' := by
  simp only [bind, EStateM.bind, h]

theorem of_bind_ok {p : EStateM ε σ α} {f : α → EStateM ε σ β} (h : (p >>= f) s = .ok b s'') :
    ∃ a s', p s = .ok a s' ∧ f a s' = .ok b s'' := by
  cases hps : p s with
  | ok a s' => exact ⟨a, s', rfl, (bind_ok hps).symm.trans h⟩
  | error e s' => cases (bind_error hps).symm.trans h

theorem after_bind_ok {p : EStateM ε σ α} {f : α → EStateM ε σ β} (h : p s = .ok a s') :
    after (p >>= f) s = after (f a) s' := by
  rw [after, bind_ok h, after]

/-- Wherever it starts, the program leaves a state that `R` relates to the first one. -/
def Moves (R : σ → σ → Prop) (p : EStateM ε σ α) : Prop := ∀ s, R s (after p s)

section Rules

variable {R : σ → σ → Prop}

theorem Moves.mono {Q : σ → σ → Prop} {p : EStateM ε σ α} (h : Moves R p)
    (hRQ : ∀ s s', R s s' → Q s s') : Moves Q p :=
  fun s => hRQ s _ (h s)

theorem Moves.ite {c : Prop} [Decidable c] {p q : EStateM ε σ α} (hp : Moves R p) (hq : Moves R q) :
    Moves R (if c then p else q) := by
  split
  · exact hp
  · exact hq

variable [IsPreorder σ R]

theorem Moves.pure (a : α) : Moves R (Pure.pure a : EStateM ε σ α) := fun s => refl_of R s

theorem Moves.throw (e : ε) : Moves R (MonadExcept.throw e : EStateM ε σ α) := fun s => refl_of R s

theorem Moves.rest {p : EStateM ε σ α} {f : α → EStateM ε σ β} (hf : ∀ a, Moves R (f a)) (s : σ) :
    R (after p s) (after (p >>= f) s) := by
  cases hps : p s with
  | ok a s' =>
    rw [after_ok hps, after_bind_ok hps]
    exact hf a s'
  | error e s' =>
    rw [after_error hps, after_error (bind_error hps)]
    exact refl_of R s'

theorem after_bind_rel {p : EStateM ε σ α} {f : α → EStateM ε σ β} (hp : R s (after p s))
    (hf : ∀ a, Moves R (f a)) : R s (after (p >>= f) s) :=
  trans_of R hp (Moves.rest hf s)

theorem Moves.bind {p : EStateM ε σ α} {f : α → EStateM ε σ β} (hp : Moves R p)
    (hf : ∀ a, Moves R (f a)) : Moves R (p >>= f) :=
  fun s => after_bind_rel (hp s) hf

end Rules

section Invariants

/-- The program has ended in a state in `I`, or has stopped for a reason in `P`. -/
def Within (I : σ → Prop) (P : ε → Prop) : EStateM.Result ε σ α → Prop
  | .ok _ s => I s
  | .error e _ => P e

def Maintains (I : σ → Prop) (P : ε → Prop) (p : EStateM ε σ α) : Prop :=
  ∀ s, I s → Within I P (p s)

variable {I : σ → Prop} {P : ε → Prop}

theorem within_mono {I' : σ → Prop} {r : EStateM.Result ε σ α} (h : Within I P r)
    (hI : ∀ s, I s → I' s) : Within I' P r := by
  cases r with
  | ok a s => exact hI s h
  | error e s => exact h

theorem within_bind {p : EStateM ε σ α} {f : α → EStateM ε σ β} (hp : Within I P (p s))
    (hf : ∀ a, Maintains I P (f a)) : Within I P ((p >>= f) s) := by
  cases hps : p s with
  | ok a s' =>
    rw [hps] at hp
    rw [bind_ok hps]
    exact hf a s' hp
  | error e s' =>
    rw [hps] at hp
    rw [bind_error hps]
    exact hp

theorem Maintains.bind {p : EStateM ε σ α} {f : α → EStateM ε σ β} (hp : Maintains I P p)
    (hf : ∀ a, Maintains I P (f a)) : Maintains I P (p >>= f) :=
  fun s hs => within_bind (hp s hs) hf

theorem Maintains.pure (a : α) : Maintains I P (Pure.pure a : EStateM ε σ α) := fun _ hs => hs

theorem Maintains.throw (h : P e) : Maintains I P (MonadExcept.throw e : EStateM ε σ α) :=
  fun _ _ => h

theorem Maintains.ite {c : Prop} [Decidable c] {p q : EStateM ε σ α} (hp : Maintains I P p)
    (hq : Maintains I P q) : Maintains I P (if c then p else q) := by
  split
  · exact hp
  · exact hq

end Invariants

section Loops

def loop (spin : ε) (turn : α → EStateM ε σ (Turn α β)) : Nat → α → EStateM ε σ β
  | 0, _ => throw spin
  | fuel + 1, v => do
    match ← turn v with
    | .again v' => loop spin turn fuel v'
    | .stop r => return r

variable {spin : ε} {turn : α → EStateM ε σ (Turn α β)}

theorem loop_again (h : turn v s = .ok (.again v') s') :
    loop spin turn (fuel + 1) v s = loop spin turn fuel v' s' := by
  rw [loop, bind_ok h]

theorem loop_stop (h : turn v s = .ok (.stop r) s') :
    loop spin turn (fuel + 1) v s = .ok r s' := by
  rw [loop, bind_ok h]
  rfl

theorem Moves.loop {R : σ → σ → Prop} [IsPreorder σ R] (hturn : ∀ v, Moves R (turn v)) (fuel : Nat)
    (v : α) : Moves R (loop spin turn fuel v) := by
  induction fuel generalizing v with
  | zero => exact .throw spin
  | succ fuel ih =>
    refine (hturn v).bind fun t => ?_
    cases t with
    | again v' => exact ih v'
    | stop r => exact .pure r

theorem loop_rest {R : σ → σ → Prop} [IsPreorder σ R] (spin : ε) (hturn : ∀ v, Moves R (turn v))
    (fuel : Nat) (v : α) (s : σ) :
    R (after (turn v) s) (after (loop spin turn (fuel + 1) v) s) := by
  refine Moves.rest (fun t => ?_) s
  cases t with
  | again v' => exact .loop hturn fuel v'
  | stop r => exact .pure r

/-- A loop is left if every turn that goes on makes the variant smaller. -/
theorem loop_within {I : σ → Prop} {P : ε → Prop} {J : α → Prop} (variant : α → σ → Nat)
    (hturn : ∀ v, Maintains I P (turn v))
    (hagain : ∀ {v s v' s'}, I s → J v → turn v s = .ok (.again v') s' →
      J v' ∧ variant v' s' < variant v s)
    (hI : I s) (hJ : J v) (hfuel : variant v s < fuel) : Within I P (loop spin turn fuel v s) := by
  induction fuel generalizing v s with
  | zero => omega
  | succ fuel ih =>
    have hwithin := hturn v s hI
    cases h : turn v s with
    | error e s' =>
      rw [h] at hwithin
      rw [loop, bind_error h]
      exact hwithin
    | ok t s' =>
      rw [h] at hwithin
      cases t with
      | stop r =>
        rw [loop_stop h]
        exact hwithin
      | again v' =>
        obtain ⟨hJ', hless⟩ := hagain hI hJ h
        rw [loop_again h]
        exact ih hwithin hJ' (by omega)

end Loops

end Mangoxx.Lib.Program
