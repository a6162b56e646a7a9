import Mathlib.Data.List.Basic
import Mathlib.Logic.Function.Basic

/-! # Priority queues

A queue for each priority; the lowest number comes first. What is pushed is the last of its
priority, and what is popped is the first of the lowest priority that has any. -/
namespace ControlRTT.Lib.PriorityQueue
variable {α : Type}

def push (q : Nat → List α) (p : Nat) (a : α) : Nat → List α :=
  Function.update q p (q p ++ [a])

/-- Out of the priorities below `n`. -/
def lowest (n : Nat) (q : Nat → List α) : Option Nat :=
  (List.range n).find? fun p => !(q p).isEmpty

def pop (n : Nat) (q : Nat → List α) : Option (α × (Nat → List α)) :=
  (lowest n q).bind fun p => (q p).head?.map fun a => (a, Function.update q p (q p).tail)

variable {n p : Nat} {q : Nat → List α} {a : α} {l : List α}

theorem lowest_eq_some (hp : p < n) (hq : q p ≠ []) (hlow : ∀ j < p, q j = []) :
    lowest n q = some p := by
  refine List.find?_range_eq_some.mpr ⟨?_, List.mem_range.mpr hp, fun j hj => ?_⟩
  · simpa using hq
  · simp [hlow j hj]

theorem lowest_eq_none (h : ∀ j < n, q j = []) : lowest n q = none := by
  refine List.find?_eq_none.mpr fun j hj => ?_
  simp [h j (List.mem_range.mp hj)]

theorem pop_eq_some (hp : p < n) (hq : q p = a :: l) (hlow : ∀ j < p, q j = []) :
    pop n q = some (a, Function.update q p l) := by
  have hne : q p ≠ [] := by simp [hq]
  unfold pop
  rw [lowest_eq_some hp hne hlow, Option.bind_some, hq]
  rfl

theorem pop_eq_none (h : ∀ j < n, q j = []) : pop n q = none := by
  unfold pop
  rw [lowest_eq_none h]
  rfl

end ControlRTT.Lib.PriorityQueue
