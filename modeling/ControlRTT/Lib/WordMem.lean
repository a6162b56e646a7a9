import Mathlib.Algebra.Order.Ring.Int

/-! # Words of memory and lists linked through them

Memory as the word stored at each address; accesses that overlap are at equal
addresses. `Linked next head xs` says that a list that ends with the null address
visits exactly `xs`: since each address has one successor, it visits none twice. -/
namespace ControlRTT.Lib.WordMem

abbrev Mem := Nat → Nat

def Mem.set (m : Mem) (a v : Nat) : Mem := fun b => if b = a then v else m b

@[simp] theorem Mem.set_self (m : Mem) (a v : Nat) : m.set a v a = v := if_pos rfl

theorem Mem.set_ne (m : Mem) {a b : Nat} (v : Nat) (h : b ≠ a) : m.set a v b = m b :=
  if_neg h

/-! ## Linked lists -/

/-- From `head` the list visits exactly these addresses and then ends. -/
def Linked (next : Nat → Nat) : Nat → List Nat → Prop
  | head, [] => head = 0
  | head, a :: as => head = a ∧ a ≠ 0 ∧ Linked next (next a) as

variable {next : Nat → Nat} {head : Nat} {xs : List Nat}

theorem Linked.congr {next' : Nat → Nat} (h : Linked next head xs)
    (heq : ∀ a ∈ xs, next' a = next a) : Linked next' head xs := by
  induction xs generalizing head with
  | nil => exact h
  | cons a as ih =>
    obtain ⟨hhead, hne, htail⟩ := h
    refine ⟨hhead, hne, ?_⟩
    rw [heq a List.mem_cons_self]
    exact ih htail fun b hb => heq b (List.mem_cons_of_mem a hb)

theorem Linked.unique {ys : List Nat} (hx : Linked next head xs)
    (hy : Linked next head ys) : xs = ys := by
  induction xs generalizing head ys with
  | nil =>
    cases ys with
    | nil => rfl
    | cons b bs => exact absurd (hy.1.symm.trans hx) hy.2.1
  | cons a as ih =>
    obtain ⟨hhead, hne, htail⟩ := hx
    cases ys with
    | nil => exact absurd (hhead.symm.trans hy) hne
    | cons b bs =>
      obtain ⟨hhead', -, htail'⟩ := hy
      obtain rfl := hhead.symm.trans hhead'
      rw [ih htail htail']

theorem Linked.suffix {a : Nat} {pre post : List Nat}
    (h : Linked next head (pre ++ a :: post)) : Linked next a (a :: post) := by
  induction pre generalizing head with
  | nil => exact ⟨rfl, h.2⟩
  | cons b bs ih => exact ih h.2.2

theorem Linked.nodup (h : Linked next head xs) : xs.Nodup := by
  induction xs generalizing head with
  | nil => exact List.nodup_nil
  | cons a as ih =>
    obtain ⟨-, -, htail⟩ := h
    refine List.nodup_cons.mpr ⟨fun hmem => ?_, ih htail⟩
    obtain ⟨pre, post, rfl⟩ := List.append_of_mem hmem
    -- behind the second visit of `a` the list is the one behind the first
    have hsame := htail.unique htail.suffix.2.2
    have := congrArg List.length hsame
    simp only [List.length_append, List.length_cons] at this
    omega

end ControlRTT.Lib.WordMem
