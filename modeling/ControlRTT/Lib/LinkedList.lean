import Mathlib.Data.List.Nodup
import Mathlib.Logic.Function.Basic

/-! # Lists linked by pointers

`Chain next p l` says that a list that starts at the pointer `p` meets exactly the nodes `l`
and ends with the null pointer. -/
namespace ControlRTT.Lib.LinkedList
variable {α : Type}

def Chain (next : α → Option α) : Option α → List α → Prop
  | p, [] => p = none
  | p, a :: l => p = some a ∧ Chain next (next a) l

variable {next : α → Option α} {p : Option α} {l : List α}

theorem Chain.eq_none_iff (h : Chain next p l) : p = none ↔ l = [] := by
  cases l with
  | nil => exact ⟨fun _ => rfl, fun _ => h⟩
  | cons a l =>
    rw [h.1]
    exact ⟨fun hp => (by cases hp), fun hl => (by cases hl)⟩

theorem Chain.of_some {a : α} (h : Chain next (some a) l) :
    ∃ rest, l = a :: rest ∧ Chain next (next a) rest := by
  cases l with
  | nil => cases h
  | cons b rest =>
    obtain ⟨hp, hrest⟩ := h
    obtain rfl := Option.some.inj hp
    exact ⟨rest, rfl, hrest⟩

theorem Chain.congr {next' : α → Option α} (h : Chain next p l)
    (hsame : ∀ a ∈ l, next' a = next a) : Chain next' p l := by
  induction l generalizing p with
  | nil => exact h
  | cons a l ih =>
    refine ⟨h.1, ?_⟩
    rw [hsame a List.mem_cons_self]
    exact ih h.2 fun b hb => hsame b (List.mem_cons_of_mem a hb)

theorem Chain.eq_head (h : Chain next p l) : p = l.head? := by
  cases l with
  | nil => exact h
  | cons a l => exact h.1

/-- A list from somewhere on. -/
theorem Chain.suffix {xs ys : List α} (h : Chain next p (xs ++ ys)) : Chain next ys.head? ys := by
  induction xs generalizing p with
  | nil => exact h.eq_head ▸ h
  | cons b xs ih => exact ih h.2

/-- What follows a node. -/
theorem Chain.rest {xs ys : List α} {a : α} (h : Chain next p (xs ++ a :: ys)) :
    Chain next (next a) ys := by
  induction xs generalizing p with
  | nil => exact h.2
  | cons b xs ih => exact ih h.2

/-! ## Walking a list -/

/-- The nodes a walk from `p` meets, `fuel` of them at most. -/
def walk (next : α → Option α) : Nat → Option α → List α
  | 0, _ => []
  | _ + 1, none => []
  | fuel + 1, some a => a :: walk next fuel (next a)

theorem Chain.walk_eq (h : Chain next p l) {fuel : Nat} (hfuel : l.length ≤ fuel) :
    walk next fuel p = l := by
  induction l generalizing p fuel with
  | nil =>
    obtain rfl : p = none := h
    cases fuel with
    | zero => rfl
    | succ fuel => rfl
  | cons a l ih =>
    obtain ⟨rfl, hrest⟩ := h
    cases fuel with
    | zero => cases hfuel
    | succ fuel =>
      unfold walk
      rw [ih hrest (Nat.le_of_succ_le_succ hfuel)]

/-- A walk that looks one pointer ahead stops at the node before the one it looks for. -/
theorem Chain.find_before {xs ys : List α} {a : α} {f : Option α → Bool}
    (h : Chain next p (xs ++ a :: ys)) (hxs : ∀ b ∈ xs ++ [a], f (some b) = false)
    (hys : f ys.head? = true) :
    (xs ++ a :: ys).find? (fun b => f (next b)) = some a := by
  induction xs generalizing p with
  | nil =>
    refine List.find?_cons_of_pos ?_
    rw [h.2.eq_head]
    exact hys
  | cons c xs ih =>
    have hc : f (next c) = false := by
      rw [h.2.eq_head]
      cases xs with
      | nil => exact hxs a (List.mem_append_right _ List.mem_cons_self)
      | cons d xs => exact hxs d (List.mem_cons_of_mem c List.mem_cons_self)
    rw [List.cons_append, List.find?_cons_of_neg (by rw [hc]; decide)]
    exact ih h.2 fun b hb => hxs b (List.mem_cons_of_mem c hb)

variable [DecidableEq α]

/-- Another node's pointer changes. -/
theorem Chain.update (h : Chain next p l) {a : α} (ha : a ∉ l) (q : Option α) :
    Chain (Function.update next a q) p l :=
  h.congr fun _ hb => Function.update_of_ne (ne_of_mem_of_not_mem hb ha) _ _

/-- A node is linked at the head. -/
theorem Chain.push (h : Chain next p l) {a : α} (ha : a ∉ l) :
    Chain (Function.update next a p) (some a) (a :: l) := by
  refine ⟨rfl, ?_⟩
  rw [Function.update_self]
  exact h.update ha p

/-- A node's pointer is set to another list. -/
theorem Chain.relink {xs ys zs : List α} {a : α} {q : Option α}
    (h : Chain next p (xs ++ a :: ys)) (hxs : a ∉ xs) (hq : Chain next q zs) (hzs : a ∉ zs) :
    Chain (Function.update next a q) p (xs ++ a :: zs) := by
  induction xs generalizing p with
  | nil =>
    refine ⟨h.1, ?_⟩
    rw [Function.update_self]
    exact hq.update hzs q
  | cons c xs ih =>
    rw [List.mem_cons, not_or] at hxs
    refine ⟨h.1, ?_⟩
    rw [Function.update_of_ne (Ne.symm hxs.1)]
    exact ih h.2 hxs.2

/-- A node is linked behind the last. -/
theorem Chain.append (h : Chain next p l) (hnodup : l.Nodup) {a b : α}
    (hlast : l.getLast? = some a) (hb : b ∉ l) (hnext : next b = none) :
    Chain (Function.update next a (some b)) p (l ++ [b]) := by
  induction l generalizing p with
  | nil => cases hlast
  | cons c rest ih =>
    obtain ⟨hp, hrest⟩ := h
    obtain ⟨hc, hnodup⟩ := List.nodup_cons.mp hnodup
    rw [List.mem_cons, not_or] at hb
    refine ⟨hp, ?_⟩
    cases rest with
    | nil =>
      obtain rfl : c = a := Option.some.inj hlast
      rw [Function.update_self]
      refine ⟨rfl, ?_⟩
      rw [Function.update_of_ne hb.1]
      exact hnext
    | cons d rest =>
      rw [List.getLast?_cons_cons] at hlast
      have hca : c ≠ a := fun hca => hc (hca ▸ List.mem_of_getLast? hlast)
      rw [Function.update_of_ne hca]
      exact ih hrest hnodup hlast hb.2

end ControlRTT.Lib.LinkedList
