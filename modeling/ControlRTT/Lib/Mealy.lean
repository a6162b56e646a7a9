/-! # Byte-driven machines

A routine that is called once for each input and keeps its state between the
calls is a step function `σ → α → σ × β`. `final` is the state after a list of
inputs and `outputs` what the calls gave, one element a call. What every step keeps,
every run keeps; so a state that no input moves is never left. -/
namespace ControlRTT.Lib.Mealy

variable {σ α β : Type} (step : σ → α → σ × β)

/-- The state after a list of inputs. -/
def final (s : σ) : List α → σ
  | [] => s
  | x :: xs => final (step s x).1 xs

/-- What the calls return, one element for each input. -/
def outputs (s : σ) : List α → List β
  | [] => []
  | x :: xs => (step s x).2 :: outputs (step s x).1 xs

@[simp] theorem final_nil (s : σ) : final step s [] = s := rfl
@[simp] theorem final_cons (s : σ) (x : α) (xs : List α) :
    final step s (x :: xs) = final step (step s x).1 xs := rfl
@[simp] theorem outputs_nil (s : σ) : outputs step s [] = [] := rfl
@[simp] theorem outputs_cons (s : σ) (x : α) (xs : List α) :
    outputs step s (x :: xs) = (step s x).2 :: outputs step (step s x).1 xs := rfl

theorem final_append (s : σ) (xs ys : List α) :
    final step s (xs ++ ys) = final step (final step s xs) ys := by
  induction xs generalizing s with
  | nil => rfl
  | cons x xs ih => exact ih _

theorem outputs_append (s : σ) (xs ys : List α) :
    outputs step s (xs ++ ys) = outputs step s xs ++ outputs step (final step s xs) ys := by
  induction xs generalizing s with
  | nil => rfl
  | cons x xs ih => simp only [List.cons_append, outputs_cons, final_cons, ih]

@[simp] theorem length_outputs (s : σ) (xs : List α) :
    (outputs step s xs).length = xs.length := by
  induction xs generalizing s with
  | nil => rfl
  | cons x xs ih => rw [outputs_cons, List.length_cons, List.length_cons, ih]

/-- The calls for the first of the inputs. -/
theorem outputs_of_prefix {xs ys : List α} (h : xs <+: ys) (s : σ) :
    outputs step s xs = (outputs step s ys).take xs.length := by
  obtain ⟨zs, rfl⟩ := h
  rw [outputs_append, List.take_left' (length_outputs step s xs)]

/-! ## Invariants -/

/-- What every step keeps, every run keeps. -/
theorem final_invariant {I : σ → Prop} (keep : ∀ s x, I s → I (step s x).1) {s : σ} (hs : I s)
    (xs : List α) : I (final step s xs) := by
  induction xs generalizing s with
  | nil => exact hs
  | cons x xs ih => exact ih (keep s x hs)

/-- If every call made in a state satisfying `I` outputs `b` and keeps `I`, the run outputs
nothing but `b`. -/
theorem outputs_constant {I : σ → Prop} {b : β}
    (quiet : ∀ s x, I s → (step s x).2 = b ∧ I (step s x).1) {s : σ} (hs : I s) (xs : List α) :
    outputs step s xs = List.replicate xs.length b := by
  induction xs generalizing s with
  | nil => rfl
  | cons x xs ih =>
    obtain ⟨hb, hI⟩ := quiet s x hs
    rw [outputs_cons, hb, ih hI]
    rfl

/-! ## Simulation -/

/-- Two machines that answer alike from related states, and go to related states, answer a
whole run alike. -/
theorem outputs_eq_of_simulation {τ : Type} {step' : τ → α → τ × β} {R : σ → τ → Prop}
    (simulates : ∀ s t x, R s t → R (step s x).1 (step' t x).1 ∧ (step s x).2 = (step' t x).2)
    {s : σ} {t : τ} (h : R s t) (xs : List α) : outputs step s xs = outputs step' t xs := by
  induction xs generalizing s t with
  | nil => rfl
  | cons x xs ih =>
    obtain ⟨hnext, hanswer⟩ := simulates s t x h
    rw [outputs_cons, outputs_cons, hanswer, ih hnext]

end ControlRTT.Lib.Mealy
