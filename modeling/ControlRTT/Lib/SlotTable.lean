import Mathlib.Tactic.Common

/-! # Tables of pointers

A table whose entries are null or point to an object, and that grows when all entries are used. An
entry is free if it is null or if its object says so; where it is null, an object is allocated for
it. Whatever fails, the objects that the table points to stay where they are. -/
namespace ControlRTT.Lib.SlotTable

variable {P : Type}

/-- The entry points to an object. -/
def At (slots : List (Option P)) (i : Nat) (p : P) : Prop := slots[i]? = some (some p)

/-- No two entries point to one object. -/
def Distinct (slots : List (Option P)) : Prop := ∀ i j p, At slots i p → At slots j p → i = j

theorem At.lt {slots : List (Option P)} {i : Nat} {p : P} (h : At slots i p) : i < slots.length :=
  (List.getElem?_eq_some_iff.mp h).1

theorem At.unique {slots : List (Option P)} {i : Nat} {p q : P} (hp : At slots i p)
    (hq : At slots i q) : p = q := Option.some.inj (Option.some.inj (hp.symm.trans hq))

/-- The null entries behind a table that has been extended. -/
def grow (slots : List (Option P)) (n : Nat) : List (Option P) :=
  slots ++ List.replicate (n - slots.length) none

theorem at_grow {slots : List (Option P)} {n i : Nat} {p : P} :
    At (grow slots n) i p ↔ At slots i p := by
  unfold At grow
  rw [List.getElem?_append]
  split
  · exact Iff.rfl
  · rename_i hout
    rw [List.getElem?_replicate, List.getElem?_eq_none (Nat.le_of_not_lt hout)]
    split <;> simp

theorem at_set {slots : List (Option P)} {i j : Nat} {o : Option P} {q : P}
    (hi : i < slots.length) :
    At (slots.set i o) j q ↔ j = i ∧ o = some q ∨ j ≠ i ∧ At slots j q := by
  unfold At
  by_cases hj : j = i
  · subst hj
    rw [List.getElem?_set_self hi]
    simp
  · rw [List.getElem?_set_ne (Ne.symm hj)]
    simp [hj]

theorem at_clear {slots : List (Option P)} {i j : Nat} {q : P} (hi : i < slots.length) :
    At (slots.set i none) j q ↔ j ≠ i ∧ At slots j q := by
  rw [at_set hi]
  simp

/-! ## Allocating an entry -/

/-- An object for the entry, if it has none; `fresh` is what the allocator returns. -/
def place (slots : List (Option P)) (fresh : Option P) (idx : Nat) : List (Option P) × Nat :=
  match slots[idx]? with
  | some none =>
    match fresh with
    | some p => (slots.set idx (some p), idx)
    | none => (slots, slots.length)
  | _ => (slots, idx)

/-- The table and the index of its entry, or its length if there is none. The table grows by
`step` entries, up to `limit`, if `grown` says that the memory is there. -/
def alloc (free : Option P → Bool) (step limit : Nat) (slots : List (Option P)) (grown : Bool)
    (fresh : Option P) : List (Option P) × Nat :=
  let idx := slots.findIdx free
  if idx = slots.length ∧ slots.length < limit then
    if grown then place (grow slots (min (slots.length + step) limit)) fresh idx else (slots, idx)
  else place slots fresh idx

/-- What can come of it: there is no entry, or one whose object is free, or one that has got an
object. -/
inductive Allocated (free : Option P → Bool) (slots : List (Option P)) (fresh : Option P) :
    List (Option P) × Nat → Prop where
  | full {slots' : List (Option P)} (same : ∀ i p, At slots' i p ↔ At slots i p) :
      Allocated free slots fresh (slots', slots'.length)
  | reused {i : Nat} {p : P} (held : At slots i p) (hfree : free (some p)) :
      Allocated free slots fresh (slots, i)
  | placed {slots' : List (Option P)} {i : Nat} {p : P} (hfresh : fresh = some p)
      (held : ∀ j q, At slots' j q ↔ j = i ∧ q = p ∨ At slots j q) (vacant : ∀ q, ¬At slots i q) :
      Allocated free slots fresh (slots', i)

section
variable {free : Option P → Bool} {slots slots' : List (Option P)} {fresh : Option P} {i : Nat}

/-- An object is placed in a table that points to the same objects. -/
theorem allocated_place (same : ∀ i p, At slots' i p ↔ At slots i p) (hi : slots'[i]? = some none) :
    Allocated free slots fresh (place slots' fresh i) := by
  have hlt := (List.getElem?_eq_some_iff.mp hi).1
  unfold place
  rw [hi]
  cases fresh with
  | none => exact .full same
  | some p =>
    have hvacant : ∀ q, ¬At slots i q := fun q hq => by
      cases hi.symm.trans ((same i q).mpr hq)
    refine .placed rfl (fun j q => ?_) hvacant
    rw [at_set hlt, same]
    constructor
    · rintro (⟨hj, hq⟩ | ⟨-, hq⟩)
      · exact .inl ⟨hj, (Option.some.inj hq).symm⟩
      · exact .inr hq
    · rintro (⟨hj, rfl⟩ | hq)
      · exact .inl ⟨hj, rfl⟩
      · exact .inr ⟨fun hj => hvacant q (hj ▸ hq), hq⟩

theorem allocated_alloc (free : Option P → Bool) (step limit : Nat) (slots : List (Option P))
    (grown : Bool) (fresh : Option P) :
    Allocated free slots fresh (alloc free step limit slots grown fresh) := by
  unfold alloc
  dsimp only
  have hle : slots.findIdx free ≤ slots.length := List.findIdx_le_length
  obtain hfull | hlt := Nat.eq_or_lt_of_le hle
  · rw [hfull]
    by_cases hroom : slots.length < limit
    · rw [if_pos ⟨rfl, hroom⟩]
      cases grown with
      | false => exact .full fun _ _ => Iff.rfl
      | true =>
        rw [if_pos rfl]
        obtain hzero | hmore := Nat.eq_zero_or_pos (min (slots.length + step) limit - slots.length)
        · have hsame : grow slots (min (slots.length + step) limit) = slots := by
            unfold grow
            rw [hzero, List.replicate_zero, List.append_nil]
          have hout : slots[slots.length]? = none := List.getElem?_eq_none (Nat.le_refl _)
          rw [hsame]
          unfold place
          rw [hout]
          exact .full fun _ _ => Iff.rfl
        · refine allocated_place (fun _ _ => at_grow) ?_
          unfold grow
          rw [List.getElem?_append_right (Nat.le_refl _), Nat.sub_self, List.getElem?_replicate,
            if_pos hmore]
    · rw [if_neg fun h => hroom h.2]
      have hout : slots[slots.length]? = none := List.getElem?_eq_none (Nat.le_refl _)
      unfold place
      rw [hout]
      exact .full fun _ _ => Iff.rfl
  · rw [if_neg fun h => Nat.ne_of_lt hlt h.1]
    have hfree := List.findIdx_getElem (w := hlt)
    have hget := List.getElem?_eq_getElem hlt
    cases hentry : slots[slots.findIdx free] with
    | none => exact allocated_place (fun _ _ => Iff.rfl) (hget.trans (congrArg some hentry))
    | some p =>
      rw [hentry] at hfree hget
      unfold place
      rw [hget]
      exact .reused hget hfree

/-- The entry is the first that is free. -/
theorem alloc_index (free : Option P → Bool) (step limit : Nat) (slots : List (Option P))
    (grown : Bool) (fresh : Option P) :
    (alloc free step limit slots grown fresh).2 = slots.findIdx free ∨
      (alloc free step limit slots grown fresh).2 =
        (alloc free step limit slots grown fresh).1.length := by
  have hplace : ∀ (slots : List (Option P)) (idx : Nat), (place slots fresh idx).2 = idx ∨
      (place slots fresh idx).2 = (place slots fresh idx).1.length := fun slots idx => by
    unfold place
    split
    · split
      · exact .inl rfl
      · exact .inr rfl
    · exact .inl rfl
  unfold alloc
  dsimp only
  split
  · split
    · exact hplace _ _
    · exact .inl rfl
  · exact hplace _ _

theorem Distinct.of_same (h : Distinct slots) (same : ∀ i p, At slots' i p ↔ At slots i p) :
    Distinct slots' :=
  fun i j p hi hj => h i j p ((same i p).mp hi) ((same j p).mp hj)

theorem Distinct.placed {p : P} (h : Distinct slots)
    (held : ∀ j q, At slots' j q ↔ j = i ∧ q = p ∨ At slots j q) (hnew : ∀ j, ¬At slots j p) :
    Distinct slots' := by
  intro j k q hj hk
  rcases (held j q).mp hj with ⟨rfl, rfl⟩ | hj
  · rcases (held k q).mp hk with ⟨rfl, -⟩ | hk
    · rfl
    · exact absurd hk (hnew k)
  · rcases (held k q).mp hk with ⟨rfl, rfl⟩ | hk
    · exact absurd hj (hnew j)
    · exact h j k q hj hk

theorem Distinct.clear (h : Distinct slots) (hi : i < slots.length) :
    Distinct (slots.set i none) :=
  fun j k q hj hk => h j k q ((at_clear hi).mp hj).2 ((at_clear hi).mp hk).2

end
end ControlRTT.Lib.SlotTable
