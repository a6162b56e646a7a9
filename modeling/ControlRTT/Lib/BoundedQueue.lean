import Mathlib.Data.List.Basic
import Mathlib.Order.Basic

/-! # Bounded queues

A queue that never holds more than `capacity` elements. A block that does not fit is cut to
the room there is, or is let in by force: then the newest elements stay. -/
namespace ControlRTT.Lib

structure BoundedQueue (α : Type) (capacity : Nat) where
  items : List α
  length_le : items.length ≤ capacity

namespace BoundedQueue
variable {α : Type} {capacity : Nat}

def empty : BoundedQueue α capacity := ⟨[], Nat.zero_le _⟩

def space (q : BoundedQueue α capacity) : Nat := capacity - q.items.length

/-- As much of the block as there is room for. -/
def put (q : BoundedQueue α capacity) (block : List α) : BoundedQueue α capacity where
  items := q.items ++ block.take q.space
  length_le := by
    have := q.length_le
    rw [List.length_append, List.length_take, space]
    omega

/-- The oldest `n` elements, or all there are, leave. -/
def drop (q : BoundedQueue α capacity) (n : Nat) : BoundedQueue α capacity where
  items := q.items.drop n
  length_le := by
    have := q.length_le
    rw [List.length_drop]
    omega

/-- The newest elements of a list, as many as there is room for. -/
def newest (capacity : Nat) (l : List α) : BoundedQueue α capacity where
  items := l.drop (l.length - capacity)
  length_le := by
    rw [List.length_drop]
    omega

/-- All of the block, at the expense of the oldest elements. -/
def force (q : BoundedQueue α capacity) (block : List α) : BoundedQueue α capacity :=
  newest capacity (q.items ++ block)

theorem items_put (q : BoundedQueue α capacity) (block : List α) :
    (q.put block).items = q.items ++ block.take q.space := rfl

theorem items_drop (q : BoundedQueue α capacity) (n : Nat) :
    (q.drop n).items = q.items.drop n := rfl

theorem items_newest (l : List α) : (newest capacity l).items = l.drop (l.length - capacity) :=
  rfl

theorem items_force (q : BoundedQueue α capacity) (block : List α) :
    (q.force block).items =
      (q.items ++ block).drop ((q.items ++ block).length - capacity) := rfl

/-- A block that fits is cut by neither. -/
theorem force_of_le {q : BoundedQueue α capacity} {block : List α}
    (h : block.length ≤ q.space) : (q.force block).items = q.items ++ block := by
  have := q.length_le
  unfold space at h
  rw [items_force, List.length_append, Nat.sub_eq_zero_of_le (by omega), List.drop_zero]

/-- What has to leave is of the old elements. -/
theorem force_of_length_le (q : BoundedQueue α capacity) {block : List α}
    (h : block.length ≤ capacity) :
    (q.force block).items =
      q.items.drop (q.items.length + block.length - capacity) ++ block := by
  rw [items_force, List.length_append, List.drop_append_of_le_length (by omega)]

/-- Of a block that is too long only the end matters. -/
theorem force_newest (q : BoundedQueue α capacity) (block : List α) :
    (q.force (newest capacity block).items).items = (q.force block).items := by
  rw [force_of_length_le q (newest capacity block).length_le, items_newest, List.length_drop,
    items_force, List.length_append, List.drop_append]
  by_cases h : block.length ≤ capacity
  · rw [Nat.sub_eq_zero_of_le h, Nat.sub_zero]
    have hzero : q.items.length + block.length - capacity - q.items.length = 0 := by omega
    rw [hzero]
  · have hall : ∀ n, q.items.length ≤ n → q.items.drop n = [] := fun n =>
      List.drop_eq_nil_of_le
    rw [hall _ (by omega), hall _ (by omega)]
    have hcut : q.items.length + block.length - capacity - q.items.length =
        block.length - capacity := by omega
    rw [hcut]

end BoundedQueue

end ControlRTT.Lib
