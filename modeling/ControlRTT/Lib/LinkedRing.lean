import Mathlib.Data.List.Chain
import Mathlib.Data.List.Nodup

/-! # Rings of nodes linked both ways

`Ring next prev h l` says that the links lead from the anchor `h` over exactly `l` back to
`h`, and that the back links lead the other way. A node is put in behind the anchor or
taken out in any place, and no other link changes. -/
namespace ControlRTT.Lib.LinkedRing
variable {α : Type}

/-- `b` follows `a`. -/
def Follows (next prev : α → α) (a b : α) : Prop := next a = b ∧ prev b = a

def Ring (next prev : α → α) (h : α) (l : List α) : Prop :=
  (h :: (l ++ [h])).IsChain (Follows next prev)

variable {next prev next' prev' : α → α} {h x : α} {l xs ys : List α}

/-- Along a chain only the links from its nodes but the last count, and only the back links
of its nodes but the first. -/
theorem chain_congr (hl : l.IsChain (Follows next prev))
    (hnext : ∀ a ∈ l.dropLast, next' a = next a) (hprev : ∀ a ∈ l.tail, prev' a = prev a) :
    l.IsChain (Follows next' prev') := by
  induction l with
  | nil => exact .nil
  | cons a l ih =>
    cases l with
    | nil => exact .singleton a
    | cons b l =>
      obtain ⟨⟨hab, hba⟩, hrest⟩ := List.isChain_cons_cons.mp hl
      rw [List.dropLast_cons_cons] at hnext
      refine List.isChain_cons_cons.mpr ⟨⟨?_, ?_⟩, ih hrest ?_ fun c hc => hprev c ?_⟩
      · rw [hnext a List.mem_cons_self, hab]
      · rw [hprev b List.mem_cons_self, hba]
      · exact fun c hc => hnext c (List.mem_cons_of_mem a hc)
      · exact List.mem_cons_of_mem b hc

theorem Ring.congr (hr : Ring next prev h l) (hnext : ∀ a ∈ h :: l, next' a = next a)
    (hprev : ∀ a ∈ h :: l, prev' a = prev a) : Ring next' prev' h l := by
  refine chain_congr hr (fun a ha => hnext a ?_) fun a ha => hprev a ?_
  · rwa [← List.cons_append, List.dropLast_concat] at ha
  · simpa [or_comm] using ha

/-- The first node, or the anchor. -/
theorem Ring.next_mem (hr : Ring next prev h l) : next h ∈ h :: l := by
  cases l with
  | nil =>
    rw [(List.isChain_cons_cons.mp hr).1.1]
    exact List.mem_cons_self
  | cons a l =>
    rw [(List.isChain_cons_cons.mp hr).1.1]
    exact List.mem_cons_of_mem h List.mem_cons_self

/-- A node is put in behind the anchor. -/
theorem Ring.insert (hr : Ring next prev h l) (hl : (h :: l).Nodup)
    (hnext : next' h = x ∧ next' x = next h ∧ ∀ a ∈ l, next' a = next a)
    (hprev : prev' x = h ∧ prev' (next h) = x ∧ ∀ a ∈ h :: l, a ≠ next h → prev' a = prev a) :
    Ring next' prev' h (x :: l) := by
  obtain ⟨hhx, hx, hnext⟩ := hnext
  obtain ⟨hxh, hfirst, hprev⟩ := hprev
  have hperm : (l ++ [h]).Perm (h :: l) := List.perm_append_singleton h l
  have hnodup : (l ++ [h]).Nodup := hperm.nodup_iff.mpr hl
  have hmem : ∀ a ∈ (l ++ [h]).tail, a ∈ h :: l := fun a ha =>
    hperm.mem_iff.mp (List.mem_of_mem_tail ha)
  have hinit : ∀ a ∈ (l ++ [h]).dropLast, next' a = next a := by
    rwa [List.dropLast_concat]
  unfold Ring at hr ⊢
  rw [List.cons_append]
  obtain ⟨z, bs, hz⟩ : ∃ z bs, l ++ [h] = z :: bs := List.exists_cons_of_ne_nil (by simp)
  rw [hz] at hr hnodup hmem hinit ⊢
  obtain ⟨⟨rfl, -⟩, hrest⟩ := List.isChain_cons_cons.mp hr
  refine List.isChain_cons_cons.mpr ⟨⟨hhx, hxh⟩, List.isChain_cons_cons.mpr ⟨⟨hx, hfirst⟩, ?_⟩⟩
  refine chain_congr hrest hinit fun a ha => hprev a (hmem a ha) ?_
  rintro rfl
  exact (List.nodup_cons.mp hnodup).1 ha

/-- The ones beside a node are other nodes of the ring. -/
theorem Ring.neighbours (hr : Ring next prev h (xs ++ x :: ys)) :
    next x ∈ ys ++ [h] ∧ prev x ∈ h :: xs := by
  obtain ⟨as, y, has⟩ : ∃ as y, h :: xs = as ++ [y] :=
    ⟨_, _, (List.dropLast_append_getLast (List.cons_ne_nil h xs)).symm⟩
  obtain ⟨z, bs, hbs⟩ : ∃ z bs, ys ++ [h] = z :: bs := List.exists_cons_of_ne_nil (by simp)
  have hmiddle : h :: (xs ++ x :: ys ++ [h]) = as ++ y :: x :: z :: bs := by
    calc h :: (xs ++ x :: ys ++ [h]) = h :: xs ++ x :: (ys ++ [h]) := by simp
      _ = as ++ y :: x :: z :: bs := by simp [has, hbs]
  unfold Ring at hr
  rw [hmiddle] at hr
  obtain ⟨-, ⟨-, rfl⟩, hright⟩ := List.isChain_append_cons_cons.mp hr
  obtain ⟨⟨rfl, -⟩, -⟩ := List.isChain_cons_cons.mp hright
  exact ⟨hbs ▸ List.mem_cons_self, has ▸ List.mem_concat_self⟩

/-- A node is taken out: the ones beside it are linked to each other. -/
theorem Ring.unlink (hr : Ring next prev h (xs ++ x :: ys)) (hl : (h :: (xs ++ x :: ys)).Nodup)
    (hnext : next' (prev x) = next x ∧ ∀ a ∈ h :: (xs ++ ys), a ≠ prev x → next' a = next a)
    (hprev : prev' (next x) = prev x ∧ ∀ a ∈ h :: (xs ++ ys), a ≠ next x → prev' a = prev a) :
    Ring next' prev' h (xs ++ ys) := by
  obtain ⟨hjoin, hnext⟩ := hnext
  obtain ⟨hback, hprev⟩ := hprev
  obtain ⟨hz, hy⟩ := hr.neighbours
  obtain ⟨as, y, has⟩ : ∃ as y, h :: xs = as ++ [y] :=
    ⟨_, _, (List.dropLast_append_getLast (List.cons_ne_nil h xs)).symm⟩
  obtain ⟨z, bs, hbs⟩ : ∃ z bs, ys ++ [h] = z :: bs := List.exists_cons_of_ne_nil (by simp)
  have hmiddle : h :: (xs ++ x :: ys ++ [h]) = as ++ y :: x :: z :: bs := by
    calc h :: (xs ++ x :: ys ++ [h]) = h :: xs ++ x :: (ys ++ [h]) := by simp
      _ = as ++ y :: x :: z :: bs := by simp [has, hbs]
  have houter : h :: (xs ++ ys ++ [h]) = as ++ y :: z :: bs := by
    calc h :: (xs ++ ys ++ [h]) = h :: xs ++ (ys ++ [h]) := by simp
      _ = as ++ y :: z :: bs := by simp [has, hbs]
  unfold Ring at hr ⊢
  rw [hmiddle] at hr
  rw [houter]
  obtain ⟨hleft, ⟨-, rfl⟩, hright⟩ := List.isChain_append_cons_cons.mp hr
  obtain ⟨⟨rfl, -⟩, hright⟩ := List.isChain_cons_cons.mp hright
  have hnodup : (h :: xs ++ ys).Nodup :=
    hl.sublist (((List.sublist_cons_self x ys).append_left xs).cons_cons h)
  obtain ⟨hxs, hys, hdisj⟩ := List.nodup_append.mp hnodup
  have hys' : (ys ++ [h]).Nodup := by
    refine List.nodup_append.mpr ⟨hys, List.nodup_singleton h, fun a ha b hb => ?_⟩
    obtain rfl := List.mem_singleton.mp hb
    exact (hdisj _ List.mem_cons_self a ha).symm
  refine List.isChain_append_cons_cons.mpr ⟨chain_congr hleft ?_ ?_, ⟨hjoin, hback⟩,
    chain_congr hright ?_ ?_⟩
  · intro a ha
    rw [List.dropLast_concat] at ha
    rw [has] at hxs
    refine hnext a ?_ fun heq => ?_
    · exact List.mem_append_left ys (has ▸ List.mem_append_left _ ha)
    · exact (List.nodup_append.mp hxs).2.2 a ha _ (List.mem_singleton_self _) heq
  · intro a ha
    rw [← has, List.tail_cons] at ha
    refine hprev a (List.mem_cons_of_mem h (List.mem_append_left ys ha)) ?_
    rintro rfl
    rcases List.mem_append.mp hz with hz | hz
    · exact hdisj _ (List.mem_cons_of_mem h ha) _ hz rfl
    · exact (List.nodup_cons.mp hxs).1 (List.mem_singleton.mp hz ▸ ha)
  · intro a ha
    rw [← hbs, List.dropLast_concat] at ha
    refine hnext a (List.mem_cons_of_mem h (List.mem_append_right xs ha)) ?_
    rintro rfl
    exact hdisj _ hy _ ha rfl
  · intro a ha
    rw [hbs] at hys'
    refine hprev a ?_ ?_
    · have hmem : a ∈ ys ++ [h] := hbs ▸ List.mem_cons_of_mem _ ha
      rcases List.mem_append.mp hmem with hmem | hmem
      · exact List.mem_cons_of_mem h (List.mem_append_right xs hmem)
      · exact List.mem_singleton.mp hmem ▸ List.mem_cons_self
    · rintro rfl
      exact (List.nodup_cons.mp hys').1 ha

end ControlRTT.Lib.LinkedRing
