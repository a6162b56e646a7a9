import Mathlib.Algebra.Order.BigOperators.Group.List
import Mathlib.Algebra.Order.Ring.Nat
import ControlRTT.Lib.Runs

/-! # Waiting for one's turn

Who stands in a queue before somebody (`ahead`), and how often something can happen in a run in
which each time uses up some of what there is (`chargedAlong_le`). -/
namespace ControlRTT.Lib.Turns
open ControlRTT.Lib.Runs

section
variable {α : Type} [DecidableEq α] {a b : α} {l : List α}

/-- The part of a queue before `a`. -/
def ahead (a : α) : List α → List α
  | [] => []
  | c :: l => if c = a then [] else c :: ahead a l

theorem ahead_sublist (a : α) (l : List α) : (ahead a l).Sublist l := by
  induction l with
  | nil => exact List.Sublist.refl _
  | cons c l ih =>
    rw [ahead]
    split
    · exact List.nil_sublist _
    · exact ih.cons_cons c

theorem ne_of_mem_ahead (h : b ∈ ahead a l) : b ≠ a := by
  induction l with
  | nil => cases h
  | cons c l ih =>
    rw [ahead] at h
    split at h
    · cases h
    · rename_i hc
      cases h with
      | head => exact hc
      | tail _ h => exact ih h

/-- Nobody gets ahead who goes to the end. -/
theorem ahead_append (h : a ∈ l) (l' : List α) : ahead a (l ++ l') = ahead a l := by
  induction l with
  | nil => cases h
  | cons c l ih =>
    rw [List.cons_append, ahead, ahead]
    split
    · rfl
    · rename_i hc
      rw [ih ((List.mem_cons.mp h).resolve_left (Ne.symm hc))]

/-- Somebody else leaves the queue. -/
theorem ahead_erase (h : b ≠ a) (l : List α) : ahead a (l.erase b) = (ahead a l).erase b := by
  induction l with
  | nil => rfl
  | cons c l ih =>
    by_cases hcb : c = b
    · subst hcb
      rw [List.erase_cons_head, ahead, if_neg h, List.erase_cons_head]
    · have hne : ¬(c == b) := by simpa using hcb
      rw [List.erase_cons_tail hne, ahead, ahead]
      split
      · rfl
      · rw [ih, List.erase_cons_tail hne]

theorem ahead_erase_sublist (h : b ≠ a) (l : List α) :
    (ahead a (l.erase b)).Sublist (ahead a l) := by
  rw [ahead_erase h]
  exact List.erase_sublist

/-- The first one of a queue is `a`, or somebody before it. -/
theorem eq_or_mem_ahead_of_head (h : l.head? = some b) : b = a ∨ b ∈ ahead a l := by
  cases l with
  | nil => cases h
  | cons c l =>
    cases h
    by_cases hba : b = a
    · exact .inl hba
    · rw [ahead, if_neg hba]
      exact .inr List.mem_cons_self

/-- What one of the queue has does not count any more when it leaves. -/
theorem sum_erase (f : α → Nat) (h : b ∈ l) :
    f b + ((l.erase b).map f).sum = (l.map f).sum := List.sum_map_erase f h

omit [DecidableEq α] in
theorem sum_sublist {l l' : List α} (f : α → Nat) (h : l'.Sublist l) :
    (l'.map f).sum ≤ (l.map f).sum := (h.map f).sum_le_sum fun _ _ => Nat.zero_le _

end

section
variable {σ ε : Type} (step : σ → ε → Option σ) (P : σ → ε → Prop) [∀ s e, Decidable (P s e)]

/-- How many of the steps of a run are such. -/
def chargedAlong (s : σ) : List ε → Nat
  | [] => 0
  | e :: es =>
    match step s e with
    | none => 0
    | some s' => (if P s e then 1 else 0) + chargedAlong s' es

variable {step P}

/-- A measure that no step raises, and that is lowered by the steps that count. -/
theorem chargedAlong_le {J : σ → Prop} {Q : σ → ε → Prop} {μ : σ → Nat}
    (keep : ∀ s e s', J s → Q s e → step s e = some s' → J s')
    (pay : ∀ s e s', J s → Q s e → step s e = some s' → (if P s e then 1 else 0) + μ s' ≤ μ s)
    {s : σ} (hs : J s) {es : List ε} (h : Along step Q s es) :
    chargedAlong step P s es ≤ μ s := by
  induction es generalizing s with
  | nil => exact Nat.zero_le _
  | cons e es ih =>
    rw [chargedAlong]
    cases hstep : step s e with
    | none => exact Nat.zero_le _
    | some s' =>
      obtain ⟨hgood, hlater⟩ := h s' hstep
      have hrest := ih (keep s e s' hs hgood hstep) hlater
      exact Nat.le_trans (Nat.add_le_add_left hrest _) (pay s e s' hs hgood hstep)

end

end ControlRTT.Lib.Turns
