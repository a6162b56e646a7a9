import ControlRTT.Lib.Extents
import Mathlib.Data.List.Basic

/-! # Extents in a ring

Extents are taken from a stretch one behind the other, and from its start again when the end is
reached. Listed in the order they were taken they ascend, but for one place where the list starts
over, below all that is listed before it. They keep this order when some of them leave. -/
namespace ControlRTT.Lib.RingLayout
open ControlRTT.Lib.Extents

def Before (e f : Extent) : Prop := e.stop ≤ f.start

def Ordered (l : List Extent) : Prop :=
  ∃ upper lower, l = upper ++ lower ∧ upper.Pairwise Before ∧ lower.Pairwise Before ∧
    ∀ e ∈ lower, ∀ f ∈ upper, Before e f

/-- Where the next `n` numbers from `lo` to `hi` are free. -/
def room (lo hi n : Nat) : List Extent → Option Nat
  | [] => if lo + n ≤ hi then some lo else none
  | e :: l =>
    let last := (e :: l).getLast (List.cons_ne_nil e l)
    if e.start ≤ last.start then
      if last.stop + n ≤ hi then some last.stop
      else if lo + n ≤ e.start then some lo
      else none
    else if last.stop + n ≤ e.start then some last.stop
    else none

variable {l l' : List Extent} {e : Extent}

theorem ordered_nil : Ordered [] := ⟨[], [], rfl, .nil, .nil, nofun⟩

theorem Ordered.sublist (h : Ordered l) (hsub : l'.Sublist l) : Ordered l' := by
  obtain ⟨upper, lower, rfl, hupper, hlower, hbelow⟩ := h
  obtain ⟨upper', lower', rfl, hsub, hsub'⟩ := List.sublist_append_iff.mp hsub
  exact ⟨upper', lower', rfl, hupper.sublist hsub, hlower.sublist hsub', fun e he f hf =>
    hbelow e (hsub'.subset he) f (hsub.subset hf)⟩

theorem Ordered.apart (h : Ordered l) : l.Pairwise Extent.Apart := by
  obtain ⟨upper, lower, rfl, hupper, hlower, hbelow⟩ := h
  refine List.pairwise_append.mpr
    ⟨hupper.imp fun h => .inl h, hlower.imp fun h => .inl h, fun e he f hf => .inr ?_⟩
  exact hbelow f hf e he

theorem room_cons {lo hi n : Nat} {last : Extent}
    (hlast : (e :: l).getLast (List.cons_ne_nil e l) = last) :
    room lo hi n (e :: l) =
      if e.start ≤ last.start then
        if last.stop + n ≤ hi then some last.stop
        else if lo + n ≤ e.start then some lo else none
      else if last.stop + n ≤ e.start then some last.stop else none := by
  subst hlast
  rfl

/-- In an ascending list everything ends where the last extent ends, or before. -/
theorem stop_le_last (h : l.Pairwise Before) (hne : l ≠ []) (he : e ∈ l) :
    e.stop ≤ (l.getLast hne).stop := by
  rw [← List.dropLast_append_getLast hne] at h he
  rcases List.mem_append.mp he with he | he
  · have hbefore := (List.pairwise_append.mp h).2.2 e he _ (List.mem_singleton_self _)
    exact Nat.le_trans hbefore (Nat.le_add_right _ _)
  · rw [List.mem_singleton.mp he]

theorem first_le_start {f : Extent} (h : (e :: l).Pairwise Before) (hf : f ∈ e :: l) :
    e.start ≤ f.start := by
  rcases List.mem_cons.mp hf with rfl | hf
  · exact Nat.le_refl _
  · exact Nat.le_trans (Nat.le_add_right _ _) (List.rel_of_pairwise_cons h hf)

/-- If the last extent is not below the first, the list does not start over. -/
theorem Ordered.ascending (h : Ordered (e :: l)) (hpos : ∀ f ∈ e :: l, 0 < f.len)
    (hle : e.start ≤ ((e :: l).getLast (List.cons_ne_nil e l)).start) :
    (e :: l).Pairwise Before := by
  obtain ⟨upper, lower, heq, hupper, hlower, hbelow⟩ := h
  rcases lower.eq_nil_or_concat' with rfl | ⟨lower, last, rfl⟩
  · rwa [heq, List.append_nil]
  · cases upper with
    | nil => rwa [heq]
    | cons e' upper =>
      obtain ⟨rfl, -⟩ := List.cons.inj heq
      have hlast : (e :: l).getLast (List.cons_ne_nil e l) = last := by
        simp only [heq, ← List.append_assoc, List.getLast_concat]
      have hbefore := hbelow last (List.mem_append_right _ (List.mem_singleton_self _)) e
        List.mem_cons_self
      have := hpos last (hlast ▸ List.getLast_mem _)
      rw [hlast] at hle
      unfold Before Extent.stop at hbefore
      omega

/-- If it is, there is room behind the last extent up to the first. -/
theorem Ordered.append_below {n : Nat} (h : Ordered (e :: l))
    (hlt : ¬e.start ≤ ((e :: l).getLast (List.cons_ne_nil e l)).start)
    (hfit : ((e :: l).getLast (List.cons_ne_nil e l)).stop + n ≤ e.start) :
    Ordered ((e :: l) ++ [⟨((e :: l).getLast (List.cons_ne_nil e l)).stop, n⟩]) := by
  obtain ⟨upper, lower, heq, hupper, hlower, hbelow⟩ := h
  rcases lower.eq_nil_or_concat' with rfl | ⟨lower, last, rfl⟩
  · rw [List.append_nil] at heq
    rw [← heq] at hupper
    exact absurd (first_le_start hupper (List.getLast_mem _)) hlt
  · have hlast : (e :: l).getLast (List.cons_ne_nil e l) = last := by
      simp only [heq, ← List.append_assoc, List.getLast_concat]
    rw [hlast] at hfit ⊢
    refine ⟨upper, (lower ++ [last]) ++ [⟨last.stop, n⟩], by rw [heq, List.append_assoc], hupper,
      ?_, fun f hf g hg => ?_⟩
    · refine List.pairwise_append.mpr ⟨hlower, List.pairwise_singleton _ _, fun f hf g hg => ?_⟩
      have hle := stop_le_last hlower (List.concat_ne_nil _ _) hf
      rw [List.getLast_concat] at hle
      rwa [List.mem_singleton.mp hg]
    · rcases List.mem_append.mp hf with hf | hf
      · exact hbelow f hf g hg
      · rw [List.mem_singleton.mp hf]
        cases upper with
        | nil => cases hg
        | cons e' upper =>
          obtain ⟨rfl, -⟩ := List.cons.inj heq
          exact Nat.le_trans hfit (first_le_start hupper hg)

/-- What is put into the room behind the list keeps it in order. -/
theorem Ordered.append {lo hi n start : Nat} (h : Ordered l) (hpos : ∀ f ∈ l, 0 < f.len)
    (hin : ∀ f ∈ l, lo ≤ f.start ∧ f.stop ≤ hi) (hroom : room lo hi n l = some start) :
    Ordered (l ++ [⟨start, n⟩]) ∧ lo ≤ start ∧ start + n ≤ hi := by
  cases l with
  | nil =>
    obtain ⟨hfit, heq⟩ := Option.ite_none_right_eq_some.mp hroom
    obtain rfl := Option.some.inj heq
    exact ⟨⟨[⟨lo, n⟩], [], rfl, List.pairwise_singleton _ _, .nil, nofun⟩, Nat.le_refl _, hfit⟩
  | cons e l =>
    obtain ⟨hlo, hhi⟩ := hin _ (List.getLast_mem (List.cons_ne_nil e l))
    have hfirst := (hin e List.mem_cons_self).2
    have hgrow : e.start ≤ e.stop := Nat.le_add_right _ _
    dsimp only [room] at hroom
    split at hroom
    · rename_i hle
      have hasc := h.ascending hpos hle
      split at hroom
      · rename_i hfit
        obtain rfl := Option.some.inj hroom
        refine ⟨⟨(e :: l) ++ [⟨_, n⟩], [], (List.append_nil _).symm, ?_, .nil, nofun⟩,
          Nat.le_trans hlo (Nat.le_add_right _ _), hfit⟩
        refine List.pairwise_append.mpr ⟨hasc, List.pairwise_singleton _ _, fun f hf g hg => ?_⟩
        rw [List.mem_singleton.mp hg]
        exact stop_le_last hasc (List.cons_ne_nil e l) hf
      · obtain ⟨hfit, heq⟩ := Option.ite_none_right_eq_some.mp hroom
        obtain rfl := Option.some.inj heq
        refine ⟨⟨e :: l, [⟨lo, n⟩], rfl, hasc, List.pairwise_singleton _ _, fun f hf g hg => ?_⟩,
          Nat.le_refl _, by omega⟩
        rw [List.mem_singleton.mp hf]
        exact Nat.le_trans hfit (first_le_start hasc hg)
    · rename_i hlt
      obtain ⟨hfit, heq⟩ := Option.ite_none_right_eq_some.mp hroom
      obtain rfl := Option.some.inj heq
      exact ⟨h.append_below hlt hfit, Nat.le_trans hlo (Nat.le_add_right _ _), by omega⟩

end ControlRTT.Lib.RingLayout
