import Mathlib.Data.Finset.Card
import Mathlib.Data.Finset.Range

/-! # Probing for a free value

A cursor goes on from one value to the next until it comes to one that is not taken. When it has
looked at one value more than are taken and found none, it has seen one of them twice, and will
never find any. -/
namespace ControlRTT.Lib.Probe
variable {α : Type} (taken : α → Bool) (next : α → α)

/-- The first value from `a` on that is not taken, among `fuel` of them. -/
def probe : Nat → α → Option α
  | 0, _ => none
  | fuel + 1, a => if taken a then probe fuel (next a) else some a

variable {taken next} {fuel : Nat} {a b : α}

theorem probe_sound (h : probe taken next fuel a = some b) : taken b = false := by
  induction fuel generalizing a with
  | zero => cases h
  | succ fuel ih =>
    simp only [probe] at h
    split at h
    · exact ih h
    · rename_i hfree
      have hab : a = b := Option.some.inj h
      subst hab
      simpa using hfree

/-- What the step from one taken value to the next keeps. -/
theorem probe_keeps {J : α → Prop} (hnext : ∀ c, J c → taken c = true → J (next c)) (ha : J a)
    (h : probe taken next fuel a = some b) : J b := by
  induction fuel generalizing a with
  | zero => cases h
  | succ fuel ih =>
    simp only [probe] at h
    split at h
    · rename_i htaken
      exact ih (hnext a ha htaken) h
    · exact Option.some.inj h ▸ ha

theorem probe_none (h : probe taken next fuel a = none) :
    ∀ i < fuel, taken (next^[i] a) = true := by
  induction fuel generalizing a with
  | zero =>
    intro i hi
    cases hi
  | succ fuel ih =>
    simp only [probe] at h
    split at h
    · rename_i htaken
      intro i hi
      cases i with
      | zero => exact htaken
      | succ i => exact ih h i (Nat.lt_of_succ_lt_succ hi)
    · cases h

/-- With one look more than there are taken values, the cursor finds nothing only if all that it
would ever come to is taken. -/
theorem taken_forever [DecidableEq α] {l : List α} (hl : ∀ c, taken c = true → c ∈ l)
    (h : probe taken next (l.length + 1) a = none) (k : Nat) : taken (next^[k] a) = true := by
  have hseen := probe_none h
  obtain ⟨i, hi, j, hj, hne, hsame⟩ := Finset.exists_ne_map_eq_of_card_lt_of_maps_to
    (s := Finset.range (l.length + 1)) (t := l.toFinset) (f := fun i => next^[i] a)
    (by
      rw [Finset.card_range]
      exact Nat.lt_succ_of_le l.toFinset_card_le)
    (fun i hi => by
      exact Finset.mem_coe.mpr (List.mem_toFinset.mpr
        (hl _ (hseen i (Finset.mem_range.mp (Finset.mem_coe.mp hi))))))
  rw [Finset.mem_range] at hi hj
  -- the later of the two that are one and the same brings the cursor back to the earlier
  obtain ⟨p, q, hpq, hq, hback⟩ : ∃ p q, p < q ∧ q < l.length + 1 ∧ next^[p] a = next^[q] a := by
    rcases Nat.lt_or_gt_of_ne hne with hlt | hlt
    · exact ⟨i, j, hlt, hj, hsame⟩
    · exact ⟨j, i, hlt, hi, hsame.symm⟩
  induction k using Nat.strongRecOn with
  | _ k ih =>
    by_cases hk : k < q
    · exact hseen k (hk.trans hq)
    · have hcycle : next^[k] a = next^[k - q + p] a := by
        rw [show k = k - q + q by omega, Function.iterate_add_apply, ← hback,
          ← Function.iterate_add_apply]
        congr 1
        omega
      rw [hcycle]
      exact ih _ (by omega)

end ControlRTT.Lib.Probe
