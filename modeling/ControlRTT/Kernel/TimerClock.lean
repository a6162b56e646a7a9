import ControlRTT.Kernel.Timer

/-! # Tick comparison against true time (timer.c)

A tick is a true time modulo 2^32. The two comparisons of the timer code, by a
difference of ticks that is less than `RT_TICK_MAX / 2`, agree with the true times as
long as these are near enough to each other; a list that is ordered by true expiry then
stays so when a timer is linked. -/
namespace ControlRTT.Kernel.Timer
open ControlRTT.Lib ControlRTT.Lib.CInt

/-- The times of which the comparison `a - b < RT_TICK_MAX / 2` is right. -/
def Near (a b : Nat) : Prop := a < b + rtTickMax / 2 ∧ b ≤ a + 0x80000001

theorem usub_lt_iff {a b : Nat} (h : Near a b) :
    usub (u32 a) (u32 b) < rtTickMax / 2 ↔ b ≤ a := by
  obtain ⟨hlo, hhi⟩ := h
  simp only [usub, u32, rtTickMax] at *
  omega

theorem usub_eq_zero_iff {a b : Nat} (h : Near a b) : usub (u32 a) (u32 b) = 0 ↔ a = b := by
  obtain ⟨hlo, hhi⟩ := h
  simp only [usub, u32, rtTickMax] at *
  omega

theorem usub_of_near {a b : Nat} (h : Near a b) (hle : b ≤ a) :
    usub (u32 a) (u32 b) = a - b := by
  obtain ⟨hlo, hhi⟩ := h
  simp only [usub, u32, rtTickMax] at *
  omega

namespace Timers
variable {Id : Type} [DecidableEq Id]

omit [DecidableEq Id] in
theorem reached_iff (s : Timers Id) {t : Id} {now expiry : Nat}
    (ht : (s.timer t).timeoutTick = u32 expiry) (h : Near now expiry) :
    s.Reached (u32 now) t ↔ expiry ≤ now := by
  unfold Reached
  rw [ht]
  exact usub_lt_iff h

omit [DecidableEq Id] in
theorem later_iff (s : Timers Id) {t u : Id} {et eu : Nat}
    (ht : (s.timer t).timeoutTick = u32 et) (hu : (s.timer u).timeoutTick = u32 eu)
    (h : Near eu et) : s.later t u = true ↔ et < eu := by
  unfold later
  rw [ht, hu]
  simp only [ne_eq, decide_not, Bool.and_eq_true, Bool.not_eq_eq_eq_not, Bool.not_true,
    decide_eq_false_iff_not, decide_eq_true_eq, usub_eq_zero_iff h, usub_lt_iff h]
  omega

/-- A list that a new timer splits where the order wants it stays ordered. -/
theorem Ok.pairwise_startLink {s : Timers Id} (h : s.Ok) {t : Id} {R : Id → Id → Prop}
    (hR : (s.list (s.timer t).kind).Pairwise R)
    (hbefore : ∀ u ∈ s.list (s.timer t).kind, s.later t u = false → R u t)
    (hbehind : ∀ u ∈ s.list (s.timer t).kind, s.later t u = true → R t u)
    (hmono : ∀ u ∈ s.list (s.timer t).kind, ∀ v ∈ s.list (s.timer t).kind,
      R u v → s.later t u = true → s.later t v = true) :
    ((s.startLink t).list (s.timer t).kind).Pairwise R := by
  obtain ⟨front, back, hb, hcut, hl⟩ := (h.rows _).base_link (h.levels _) (s.later t) t
    (height_pos s.mask ((s.rows (s.timer t).kind).length - 1) (u32 (s.randomNr + 1)))
  have hlist : s.list (s.timer t).kind = front ++ back := hb
  unfold list
  rw [startLink_rows_self, hl]
  rw [hlist] at hR hbefore hbehind hmono
  obtain ⟨hfront, hback, hacross⟩ := List.pairwise_append.mp hR
  -- what is later stands behind the cut
  have hpassed : ∀ u ∈ front, s.later t u = false := by
    intro u hu
    obtain ⟨last, hlast⟩ : ∃ last, front.getLast? = some last :=
      Option.isSome_iff_exists.mp (by simpa using List.ne_nil_of_mem hu)
    obtain ⟨init, rfl⟩ := List.getLast?_eq_some_iff.mp hlast
    have hfalse := hcut.front last hlast
    obtain hu | hu := List.mem_append.mp hu
    · refine Bool.eq_false_iff.mpr fun hlater => ?_
      have hR' := (List.pairwise_append.mp hfront).2.2 u hu last List.mem_cons_self
      have := hmono u (by simp [hu]) last (by simp) hR' hlater
      rw [hfalse] at this
      cases this
    · rwa [List.mem_singleton.mp hu]
  have hlater : ∀ u ∈ back, s.later t u = true := by
    cases back with
    | nil => exact fun u hu => by cases hu
    | cons head rest =>
      have htrue := hcut.back head rfl
      intro u hu
      obtain rfl | hu := List.mem_cons.mp hu
      · exact htrue
      · exact hmono head (by simp) u (by simp [hu]) ((List.pairwise_cons.mp hback).1 u hu) htrue
  refine List.pairwise_append.mpr ⟨hfront, List.pairwise_cons.mpr ⟨fun u hu => ?_, hback⟩, ?_⟩
  · exact hbehind u (List.mem_append_right front hu) (hlater u hu)
  · intro u hu v hv
    obtain rfl | hv := List.mem_cons.mp hv
    · exact hbefore u (List.mem_append_left back hu) (hpassed u hu)
    · exact hacross u hu v hv

end Timers

end ControlRTT.Kernel.Timer
