import Mathlib.Algebra.Order.Ring.Int

/-! # Lists in the order of a key

A list whose elements have keys that may change: `Sorted` is its order, an insertion keeps
it, and a new key of one element keeps it exactly if that element stays in its place
(`sorted_setKey_iff`). -/
namespace ControlRTT.Lib.KeyOrder
variable {α : Type}

def Sorted (key : α → Nat) (l : List α) : Prop := l.Pairwise fun a b => key a ≤ key b

/-- Before the first element of a larger key, else at the end. -/
def insertBy (key : α → Nat) (a : α) : List α → List α
  | [] => [a]
  | b :: rest => if key a < key b then a :: b :: rest else b :: insertBy key a rest

def setKey [DecidableEq α] (key : α → Nat) (a : α) (k : Nat) : α → Nat :=
  fun b => if b = a then k else key b

/-- With the key `k` the element would still be in order at its place. -/
def Stays (key : α → Nat) (l : List α) (a : α) (k : Nat) : Prop :=
  ∀ pre post, l = pre ++ a :: post → (∀ x ∈ pre, key x ≤ k) ∧ ∀ x ∈ post, k ≤ key x

theorem Sorted.congr {key key' : α → Nat} {l : List α} (h : ∀ a ∈ l, key a = key' a) :
    Sorted key l ↔ Sorted key' l :=
  List.Pairwise.iff_of_mem fun ha hb => by rw [h _ ha, h _ hb]

/-- The first element has the least key. -/
theorem Sorted.head_le {key : α → Nat} {a : α} {l : List α} (h : Sorted key (a :: l)) :
    ∀ b ∈ a :: l, key a ≤ key b := by
  intro b hb
  cases hb with
  | head => exact Nat.le_refl _
  | tail _ hb => exact List.rel_of_pairwise_cons h hb

theorem insertBy_perm (key : α → Nat) (a : α) (l : List α) :
    (insertBy key a l).Perm (a :: l) := by
  induction l with
  | nil => exact .refl _
  | cons b rest ih =>
    unfold insertBy
    split
    · exact .refl _
    · exact (ih.cons b).trans (List.Perm.swap a b rest)

theorem sublist_insertBy (key : α → Nat) (a : α) (l : List α) :
    l.Sublist (insertBy key a l) := by
  induction l with
  | nil => exact List.nil_sublist _
  | cons b rest ih =>
    unfold insertBy
    split
    · exact List.sublist_cons_self _ _
    · exact ih.cons_cons b

theorem Sorted.insertBy {key : α → Nat} {l : List α} (h : Sorted key l) (a : α) :
    Sorted key (insertBy key a l) := by
  induction l with
  | nil => exact List.pairwise_singleton _ a
  | cons b rest ih =>
    unfold KeyOrder.insertBy
    split
    · rename_i hlt
      exact List.Pairwise.cons (fun x hx => hlt.le.trans (h.head_le x hx)) h
    · rename_i hle
      refine List.Pairwise.cons (fun x hx => ?_) (ih h.of_cons)
      obtain rfl | hx := List.mem_cons.mp ((insertBy_perm key a rest).mem_iff.mp hx)
      · exact Nat.le_of_not_lt hle
      · exact List.rel_of_pairwise_cons h hx

/-- The order around one element. -/
theorem sorted_split {key : α → Nat} {pre post : List α} {a : α} :
    Sorted key (pre ++ a :: post) ↔ Sorted key (pre ++ post) ∧
      (∀ x ∈ pre, key x ≤ key a) ∧ ∀ x ∈ post, key a ≤ key x := by
  simp only [Sorted, List.pairwise_append, List.pairwise_cons, List.mem_cons,
    forall_eq_or_imp]
  constructor
  · intro ⟨hpre, ⟨ha, hpost⟩, hacross⟩
    exact ⟨⟨hpre, hpost, fun x hx => (hacross x hx).2⟩, fun x hx => (hacross x hx).1, ha⟩
  · intro ⟨⟨hpre, hpost, hacross⟩, hle, ha⟩
    exact ⟨hpre, ⟨ha, hpost⟩, fun x hx => ⟨hle x hx, hacross x hx⟩⟩

variable [DecidableEq α]

theorem setKey_self (key : α → Nat) (a : α) (k : Nat) : setKey key a k a = k := if_pos rfl

theorem setKey_ne (key : α → Nat) {a b : α} (k : Nat) (h : b ≠ a) :
    setKey key a k b = key b := if_neg h

theorem sorted_setKey_split {key : α → Nat} {pre post : List α} {a : α}
    (hnodup : (pre ++ a :: post).Nodup) (h : Sorted key (pre ++ a :: post)) (k : Nat) :
    Sorted (setKey key a k) (pre ++ a :: post) ↔
      (∀ x ∈ pre, key x ≤ k) ∧ ∀ x ∈ post, k ≤ key x := by
  obtain ⟨-, hcons, hacross⟩ := List.nodup_append.mp hnodup
  have hpre : ∀ x ∈ pre, setKey key a k x = key x := fun x hx =>
    setKey_ne key k (hacross x hx a List.mem_cons_self)
  have hpost : ∀ x ∈ post, setKey key a k x = key x := fun x hx =>
    setKey_ne key k (ne_of_mem_of_not_mem hx (List.nodup_cons.mp hcons).1)
  have hrest : Sorted (setKey key a k) (pre ++ post) :=
    (Sorted.congr fun x hx => (List.mem_append.mp hx).elim (hpre x) (hpost x)).mpr
      (sorted_split.mp h).1
  rw [sorted_split, setKey_self]
  constructor
  · intro ⟨_, hle, hge⟩
    exact ⟨fun x hx => hpre x hx ▸ hle x hx, fun x hx => hpost x hx ▸ hge x hx⟩
  · intro ⟨hle, hge⟩
    exact ⟨hrest, fun x hx => (hpre x hx).trans_le (hle x hx),
      fun x hx => (hge x hx).trans_eq (hpost x hx).symm⟩

theorem sorted_setKey_iff {key : α → Nat} {l : List α} (hnodup : l.Nodup)
    (h : Sorted key l) (a : α) (k : Nat) :
    Sorted (setKey key a k) l ↔ Stays key l a k := by
  constructor
  · intro hs pre post heq
    subst heq
    exact (sorted_setKey_split hnodup h k).mp hs
  · intro hs
    by_cases ha : a ∈ l
    · obtain ⟨pre, post, rfl⟩ := List.append_of_mem ha
      exact (sorted_setKey_split hnodup h k).mpr (hs pre post rfl)
    · exact (Sorted.congr fun x hx => setKey_ne key k (ne_of_mem_of_not_mem hx ha)).mpr h

end ControlRTT.Lib.KeyOrder
