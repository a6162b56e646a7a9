import Mathlib.Logic.Function.Basic
import Mathlib.Data.Nat.ModEq

/-! # Ring buffers

A queue in an array of `size` elements: its `n` elements stand from position `out` on, and
position zero follows the last. -/
namespace ControlRTT.Lib.Ring
variable {α : Type}

def contents (pool : Nat → α) (size out n : Nat) : List α :=
  (List.range n).map fun i => pool ((out + i) % size)

@[simp] theorem contents_zero (pool : Nat → α) (size out : Nat) :
    contents pool size out 0 = [] := rfl

@[simp] theorem length_contents (pool : Nat → α) (size out n : Nat) :
    (contents pool size out n).length = n := by
  rw [contents, List.length_map, List.length_range]

/-- The first element leaves. -/
theorem contents_pop (pool : Nat → α) (size out n : Nat) :
    contents pool size out (n + 1) =
      pool (out % size) :: contents pool size ((out + 1) % size) n := by
  rw [contents, List.range_succ_eq_map, List.map_cons, List.map_map]
  refine congrArg (pool (out % size) :: ·) (List.map_congr_left fun i _ => ?_)
  refine congrArg pool ?_
  rw [Nat.mod_add_mod]
  exact congrArg (· % size) (by omega)

/-- The positions of a ring are different. -/
theorem position_ne {size out i n : Nat} (hi : i < n) (hn : n < size) :
    (out + i) % size ≠ (out + n) % size := fun h =>
  hi.ne (Nat.ModEq.eq_of_lt_of_lt (Nat.ModEq.add_left_cancel' out h) (hi.trans hn) hn)

/-- A new element goes behind the last. -/
theorem contents_push (pool : Nat → α) {size n : Nat} (out : Nat) (v : α) (hn : n < size) :
    contents (Function.update pool ((out + n) % size) v) size out (n + 1) =
      contents pool size out n ++ [v] := by
  rw [contents, List.range_succ, List.map_append, List.map_singleton, Function.update_self]
  refine congrArg (· ++ [v]) (List.map_congr_left fun i hi => ?_)
  exact Function.update_of_ne (position_ne (List.mem_range.mp hi) hn) _ _

/-- The next position, found by a comparison. -/
theorem next_eq {size i : Nat} (hi : i < size) :
    (if i + 1 ≥ size then 0 else i + 1) = (i + 1) % size := by
  split
  · rename_i h
    obtain rfl : size = i + 1 := by omega
    rw [Nat.mod_self]
  · rename_i h
    rw [Nat.mod_eq_of_lt (by omega)]

/-- Below twice the size one comparison finds the position. -/
theorem mod_eq_ite {size i : Nat} (hi : i < 2 * size) :
    i % size = if i < size then i else i - size := by
  split
  · rename_i h
    exact Nat.mod_eq_of_lt h
  · rename_i h
    rw [Nat.mod_eq_sub_mod (by omega), Nat.mod_eq_of_lt (by omega)]

/-- In a full ring a new element takes the place of the first. -/
theorem contents_overwrite (pool : Nat → α) {size : Nat} (out : Nat) (v : α) (hsize : 0 < size) :
    contents (Function.update pool (out % size) v) size ((out + 1) % size) size =
      (contents pool size out size).tail ++ [v] := by
  obtain ⟨n, rfl⟩ : ∃ n, size = n + 1 := ⟨size - 1, by omega⟩
  have hpos : ((out + 1) % (n + 1) + n) % (n + 1) = out % (n + 1) := by
    rw [Nat.mod_add_mod, Nat.add_assoc, Nat.add_comm 1 n, Nat.add_mod_right]
  have hpush := contents_push pool ((out + 1) % (n + 1)) v (Nat.lt_succ_self n)
  rw [hpos] at hpush
  rw [hpush, contents_pop, List.tail_cons]

/-! ## Blocks -/

theorem getElem_contents (pool : Nat → α) (size out : Nat) {n i : Nat}
    (hi : i < (contents pool size out n).length) :
    (contents pool size out n)[i] = pool ((out + i) % size) := by
  simp only [contents, List.getElem_map, List.getElem_range]

/-- The first `a` elements leave together. -/
theorem contents_add (pool : Nat → α) (size out a b : Nat) :
    contents pool size out (a + b) =
      contents pool size out a ++ contents pool size ((out + a) % size) b := by
  rw [contents, List.range_add, List.map_append, List.map_map]
  refine congrArg (contents pool size out a ++ ·) (List.map_congr_left fun i _ => ?_)
  refine congrArg pool ?_
  rw [Nat.mod_add_mod, Nat.add_assoc]

/-- Nothing is read but at the positions of the elements. -/
theorem contents_congr {pool pool' : Nat → α} {size out n : Nat}
    (h : ∀ i < n, pool' ((out + i) % size) = pool ((out + i) % size)) :
    contents pool' size out n = contents pool size out n :=
  List.map_congr_left fun i hi => h i (List.mem_range.mp hi)

/-- A block that is written behind the last element, and nowhere else. -/
theorem contents_store {pool pool' : Nat → α} {size out n : Nat} {block : List α}
    (hroom : n + block.length ≤ size)
    (hnew : ∀ i (hi : i < block.length), pool' ((out + n + i) % size) = block[i])
    (hold : ∀ j, (∀ i < block.length, j ≠ (out + n + i) % size) → pool' j = pool j) :
    contents pool' size out (n + block.length) = contents pool size out n ++ block := by
  rw [contents_add]
  refine congrArg₂ (· ++ ·) (contents_congr fun i hi => hold _ fun k hk => ?_) ?_
  · rw [Nat.add_assoc]
    exact position_ne (by omega) (by omega)
  · refine List.ext_getElem (length_contents _ _ _ _) fun i hi hi' => ?_
    rw [getElem_contents, Nat.mod_add_mod]
    exact hnew i hi'

end ControlRTT.Lib.Ring
