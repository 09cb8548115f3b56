import Mathlib.Data.List.Induction
import Mathlib.Logic.Relation

universe u v w

namespace Mangoxx.Lib.History

section Events

variable {Ev : Type u}

def Holds (P : List Ev → Ev → Prop) (tr : List Ev) : Prop :=
  ∀ pre e post, tr = pre ++ e :: post → P pre e

@[simp] theorem holds_nil (P : List Ev → Ev → Prop) : Holds P [] := by
  intro pre e post h
  simp at h

theorem holds_cons (P : List Ev → Ev → Prop) (e : Ev) (tr : List Ev) :
    Holds P (e :: tr) ↔ P [] e ∧ Holds (fun pre => P (e :: pre)) tr := by
  constructor
  · intro h
    exact ⟨h [] e tr rfl, fun pre e' post heq => h (e :: pre) e' post (congrArg (e :: ·) heq)⟩
  · rintro ⟨he, h⟩ pre e' post heq
    cases pre with
    | nil =>
      obtain ⟨rfl, -⟩ := List.cons.inj heq
      exact he
    | cons x pre =>
      obtain ⟨rfl, htr⟩ := List.cons.inj heq
      exact h pre e' post htr

theorem Holds.of_append {P : List Ev → Ev → Prop} {xs ys : List Ev} (h : Holds P (xs ++ ys)) :
    Holds P xs := by
  intro pre e post hx
  exact h pre e (post ++ ys) (by simp [hx])

@[simp] theorem holds_snoc (P : List Ev → Ev → Prop) (tr : List Ev) (e : Ev) :
    Holds P (tr ++ [e]) ↔ Holds P tr ∧ P tr e := by
  constructor
  · intro h
    exact ⟨h.of_append, h tr e [] rfl⟩
  · rintro ⟨h, he⟩ pre e' post heq
    rcases List.eq_nil_or_concat post with rfl | ⟨post, x, rfl⟩
    · obtain ⟨rfl, hx⟩ := List.append_inj' heq rfl
      simpa [List.cons.inj hx] using he
    · have hsplit : tr ++ [e] = (pre ++ e' :: post) ++ [x] := by simpa using heq
      exact h pre e' post (List.append_inj' hsplit rfl).1

theorem Holds.append {P : List Ev → Ev → Prop} {xs ys : List Ev} (h : Holds P xs)
    (hys : ∀ e ∈ ys, ∀ pre, P pre e) : Holds P (xs ++ ys) := by
  induction ys generalizing xs with
  | nil => simpa using h
  | cons e ys ih =>
    rw [List.append_cons]
    exact ih ((holds_snoc P xs e).mpr ⟨h, hys e (by simp) xs⟩) fun e' he' => hys e' (by simp [he'])

theorem Holds.mono {P Q : List Ev → Ev → Prop} (hPQ : ∀ pre e, P pre e → Q pre e)
    (h : Holds P tr) : Holds Q tr :=
  fun pre e post heq => hPQ pre e (h pre e post heq)

end Events

section Runs

variable {S : Type u} {Op : Type v}

abbrev run (step : S → Op → S) (s : S) (ops : List Op) : S := ops.foldl step s

variable (step : S → Op → S)

/-- A preorder that every operation respects relates the two ends of every run. -/
theorem run_rel {R : S → S → Prop} (hrefl : ∀ s, R s s)
    (htrans : ∀ {s s' s''}, R s s' → R s' s'' → R s s'') (hstep : ∀ s o, R s (step s o)) (s : S)
    (ops : List Op) : R s (run step s ops) := by
  induction ops generalizing s with
  | nil => exact hrefl s
  | cons o ops ih => exact htrans (hstep s o) (ih (step s o))

/-- A transition system whose operations are each made of `Atom` steps only visits states that
`Atom` steps reach. -/
theorem run_reaches {Atom : S → S → Prop}
    (hstep : ∀ s o, Relation.ReflTransGen Atom s (step s o)) (s : S) (ops : List Op) :
    Relation.ReflTransGen Atom s (run step s ops) :=
  run_rel step (fun _ => .refl) .trans hstep s ops

/-- If all states of a run have property `C` as soon as the last one does, an invariant need only be
kept by operations whose result has it. -/
theorem run_invariant {I C : S → Prop} {ops : List Op} (hearlier : ∀ s o, C (step s o) → C s)
    (hstep : ∀ s o, C (step s o) → I s → I (step s o)) (hC : C (run step s ops)) (hs : I s) :
    I (run step s ops) := by
  induction ops using List.reverseRecOn with
  | nil => exact hs
  | append_singleton ops o ih =>
    rw [run, List.foldl_append] at hC ⊢
    exact hstep _ o hC (ih (hearlier _ o hC))

def Each (P : S → Op → Prop) (s : S) (ops : List Op) : Prop :=
  ∀ pre o post, ops = pre ++ o :: post → P (run step s pre) o

variable {step}

@[simp] theorem each_nil (P : S → Op → Prop) (s : S) : Each step P s [] := by
  intro pre o post h
  simp at h

@[simp] theorem each_cons {P : S → Op → Prop} {s : S} {o : Op} {ops : List Op} :
    Each step P s (o :: ops) ↔ P s o ∧ Each step P (step s o) ops := by
  constructor
  · intro h
    refine ⟨h [] o ops rfl, fun pre o' post heq => ?_⟩
    exact h (o :: pre) o' post (by simp [heq])
  · rintro ⟨ho, hops⟩ pre o' post heq
    cases pre with
    | nil =>
      obtain ⟨rfl, rfl⟩ := List.cons.inj heq
      exact ho
    | cons p pre =>
      obtain ⟨rfl, rfl⟩ := List.cons.inj heq
      exact hops pre o' post rfl

instance decidableEach {P : S → Op → Prop} [∀ s o, Decidable (P s o)] :
    ∀ (s : S) (ops : List Op), Decidable (Each step P s ops)
  | s, [] => .isTrue (each_nil P s)
  | s, o :: ops =>
    have := decidableEach (P := P) (step s o) ops
    decidable_of_iff (P s o ∧ Each step P (step s o) ops) each_cons.symm

/-- Where `I` holds, the operations that meet `P` are those that meet `C`, and these keep `I`: a run
of admitted operations meets `P` throughout exactly if it meets `C` throughout. -/
theorem each_iff {I : S → Prop} {A P C : S → Op → Prop}
    (hiff : ∀ s o, I s → A s o → (P s o ↔ C s o))
    (hkeep : ∀ s o, I s → A s o → C s o → I (step s o))
    (hs : I s) (hadm : Each step A s ops) : Each step P s ops ↔ Each step C s ops := by
  induction ops generalizing s with
  | nil => simp
  | cons o ops ih =>
    obtain ⟨ho, hops⟩ := each_cons.mp hadm
    rw [each_cons, each_cons, hiff s o hs ho]
    constructor
    · rintro ⟨hC, hP⟩
      exact ⟨hC, (ih (hkeep s o hs ho hC) hops).mp hP⟩
    · rintro ⟨hC, hCs⟩
      exact ⟨hC, (ih (hkeep s o hs ho hC) hops).mpr hCs⟩

end Runs

theorem reaches_invariant {S : Type u} {Atom : S → S → Prop} {I : S → Prop} {s t : S}
    (hatom : ∀ s t, Atom s t → I s → I t) (h : Relation.ReflTransGen Atom s t) (hs : I s) :
    I t := by
  induction h with
  | refl => exact hs
  | tail _ hst ih => exact hatom _ _ hst ih

end Mangoxx.Lib.History
