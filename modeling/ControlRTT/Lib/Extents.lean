import Mathlib.Algebra.Order.Ring.Int

/-! # Lists of extents

An extent is a run of consecutive numbers. A list of extents is `Separated` if it is
ascending and no two extents overlap or touch, so that no two could be joined.
`takeFirst` cuts a run of `n` off the first extent that is long enough, `giveBack`
inserts a run and joins it with its neighbours. Both keep the list separated, and
change what it covers by the run and by nothing else. -/
namespace ControlRTT.Lib.Extents

structure Extent where
  start : Nat
  len : Nat
  deriving DecidableEq, Repr

namespace Extent

/-- The first number behind the extent. -/
def stop (e : Extent) : Nat := e.start + e.len

def Contains (e : Extent) (x : Nat) : Prop := e.start ≤ x ∧ x < e.stop

instance (e : Extent) (x : Nat) : Decidable (e.Contains x) :=
  inferInstanceAs (Decidable (_ ∧ _))

/-- One ends before the other starts. -/
def Apart (e f : Extent) : Prop := e.stop ≤ f.start ∨ f.stop ≤ e.start

theorem Apart.symm {e f : Extent} (h : e.Apart f) : f.Apart e := Or.symm h

theorem Apart.not_contains {e f : Extent} (h : e.Apart f) {x : Nat} (he : e.Contains x) :
    ¬ f.Contains x := fun hf => by
  unfold Apart at h
  unfold Contains at he hf
  omega

theorem contains_start {e : Extent} (h : 0 < e.len) : e.Contains e.start :=
  ⟨Nat.le_refl _, Nat.lt_add_of_pos_right h⟩

/-- Extents that are not empty are apart if they have nothing in common. -/
theorem apart_of_disjoint {e f : Extent} (he : 0 < e.len) (hf : 0 < f.len)
    (h : ∀ x, e.Contains x → ¬ f.Contains x) : e.Apart f := by
  have hes := h e.start (contains_start he)
  have hfs : ¬ e.Contains f.start := fun hx => h f.start hx (contains_start hf)
  unfold Contains stop at hes hfs
  unfold Apart stop
  omega

end Extent

open Extent

def Covers (l : List Extent) (x : Nat) : Prop := ∃ e ∈ l, e.Contains x

instance (l : List Extent) (x : Nat) : Decidable (Covers l x) :=
  inferInstanceAs (Decidable (∃ e ∈ l, e.Contains x))

/-- The numbers in all extents together. -/
def size (l : List Extent) : Nat := (l.map Extent.len).sum

@[simp] theorem size_nil : size [] = 0 := rfl

@[simp] theorem size_cons (e : Extent) (l : List Extent) : size (e :: l) = e.len + size l :=
  rfl

@[simp] theorem covers_nil (x : Nat) : ¬ Covers [] x := fun ⟨_, h, _⟩ => by cases h

@[simp] theorem covers_cons (e : Extent) (l : List Extent) (x : Nat) :
    Covers (e :: l) x ↔ e.Contains x ∨ Covers l x := by
  simp [Covers]

/-- Ascending, with a gap between any two, and none empty. -/
def Separated : List Extent → Prop
  | [] => True
  | e :: l => 0 < e.len ∧ (∀ f ∈ l, e.stop < f.start) ∧ Separated l

theorem Separated.pos {l : List Extent} (h : Separated l) {e : Extent} (he : e ∈ l) :
    0 < e.len := by
  induction l with
  | nil => cases he
  | cons f l ih =>
    rcases List.mem_cons.mp he with rfl | he
    · exact h.1
    · exact ih h.2.2 he

theorem Separated.length_le_size {l : List Extent} (h : Separated l) : l.length ≤ size l := by
  induction l with
  | nil => exact Nat.le_refl 0
  | cons e l ih =>
    obtain ⟨hpos, -, htail⟩ := h
    have := ih htail
    rw [size_cons, List.length_cons]
    omega

theorem covers_perm {l l' : List Extent} (h : l.Perm l') (x : Nat) :
    Covers l x ↔ Covers l' x :=
  exists_congr fun _ => and_congr_left fun _ => h.mem_iff

theorem size_perm {l l' : List Extent} (h : l.Perm l') : size l = size l' :=
  (h.map _).sum_nat

/-! ## Taking -/

/-- The first extent longer than `n` is cut from below, one of length `n` is taken whole. -/
def takeFirst (n : Nat) : List Extent → Option (Nat × List Extent)
  | [] => none
  | e :: l =>
    if n < e.len then some (e.start, ⟨e.start + n, e.len - n⟩ :: l)
    else if e.len = n then some (e.start, l)
    else (takeFirst n l).map fun (start, l) => (start, e :: l)

/-- What is taken is a run of an extent; what is left starts where it did, or behind it. -/
structure Taken (n : Nat) (l : List Extent) (start : Nat) (l' : List Extent) : Prop where
  separated : Separated l'
  starts : ∀ f ∈ l', ∃ e ∈ l, e.start ≤ f.start ∧ f.stop ≤ e.stop
  within : ∃ e ∈ l, e.start ≤ start ∧ start + n ≤ e.stop
  apart : ∀ f ∈ l', f.Apart ⟨start, n⟩
  covers : ∀ x, Covers l x ↔ Covers l' x ∨ (Extent.mk start n).Contains x
  size : Extents.size l = Extents.size l' + n

theorem takeFirst_spec {n start : Nat} (hn : 0 < n) {l l' : List Extent} (h : Separated l)
    (ht : takeFirst n l = some (start, l')) : Taken n l start l' := by
  induction l generalizing l' with
  | nil => cases ht
  | cons e l ih =>
    obtain ⟨hpos, hgap, htail⟩ := h
    rw [takeFirst] at ht
    split at ht
    · rename_i hlt
      obtain ⟨rfl, rfl⟩ := Prod.mk.inj (Option.some.inj ht)
      refine ⟨⟨Nat.sub_pos_of_lt hlt, fun f hf => ?_, htail⟩, fun f hf => ?_,
        ⟨e, List.mem_cons_self, Nat.le_refl _, by simp only [stop]; omega⟩, fun f hf => ?_,
        fun x => ?_, ?_⟩
      · have := hgap f hf
        simp only [stop] at this ⊢
        omega
      · rcases List.mem_cons.mp hf with rfl | hf
        · exact ⟨e, List.mem_cons_self, Nat.le_add_right _ _, by simp only [stop]; omega⟩
        · exact ⟨f, List.mem_cons_of_mem _ hf, Nat.le_refl _, Nat.le_refl _⟩
      · rcases List.mem_cons.mp hf with rfl | hf
        · exact .inr (Nat.le_refl _)
        · have := hgap f hf
          simp only [Apart, stop] at this ⊢
          omega
      · simp only [covers_cons, Contains, stop]
        constructor
        · rintro (hx | hx)
          · by_cases hxn : x < e.start + n
            · exact .inr ⟨hx.1, hxn⟩
            · exact .inl (.inl (by omega))
          · exact .inl (.inr hx)
        · rintro ((hx | hx) | hx)
          · exact .inl (by omega)
          · exact .inr hx
          · exact .inl (by omega)
      · simp only [size_cons]
        omega
    · split at ht
      · rename_i heq
        obtain ⟨rfl, rfl⟩ := Prod.mk.inj (Option.some.inj ht)
        refine ⟨htail, fun f hf => ?_, ⟨e, List.mem_cons_self, Nat.le_refl _, heq ▸ Nat.le_refl _⟩,
          fun f hf => ?_, fun x => ?_, ?_⟩
        · exact ⟨f, List.mem_cons_of_mem _ hf, Nat.le_refl _, Nat.le_refl _⟩
        · have := hgap f hf
          simp only [Apart, stop, heq] at this ⊢
          omega
        · rw [covers_cons, or_comm]
          simp only [Contains, stop, heq]
        · simp only [size_cons]
          omega
      · obtain ⟨⟨start', rest⟩, hrec, heq⟩ := Option.map_eq_some_iff.mp ht
        obtain ⟨rfl, rfl⟩ := Prod.mk.inj heq
        have ih := ih htail hrec
        obtain ⟨g, hg, hle, hstop⟩ := ih.within
        refine ⟨⟨hpos, fun f hf => ?_, ih.separated⟩, fun f hf => ?_,
          ⟨g, List.mem_cons_of_mem _ hg, hle, hstop⟩, fun f hf => ?_, fun x => ?_, ?_⟩
        · obtain ⟨g, hg, hle, -⟩ := ih.starts f hf
          exact Nat.lt_of_lt_of_le (hgap g hg) hle
        · rcases List.mem_cons.mp hf with rfl | hf
          · exact ⟨f, List.mem_cons_self, Nat.le_refl _, Nat.le_refl _⟩
          · obtain ⟨g, hg, hle⟩ := ih.starts f hf
            exact ⟨g, List.mem_cons_of_mem _ hg, hle⟩
        · rcases List.mem_cons.mp hf with rfl | hf
          · exact .inl (Nat.le_of_lt (Nat.lt_of_lt_of_le (hgap g hg) hle))
          · exact ih.apart f hf
        · rw [covers_cons, covers_cons, ih.covers x, or_assoc]
        · simp only [size_cons, ih.size]
          omega

/-! ## Giving back -/

/-- A run is joined to an extent that ends where it starts, and to one that starts where
it ends. -/
def giveBack (r : Extent) : List Extent → List Extent
  | [] => [r]
  | e :: l =>
    if e.stop = r.start then
      match l with
      | [] => [⟨e.start, e.len + r.len⟩]
      | f :: l =>
        if e.start + (e.len + r.len) = f.start then ⟨e.start, e.len + r.len + f.len⟩ :: l
        else ⟨e.start, e.len + r.len⟩ :: f :: l
    else if e.start = r.stop then ⟨r.start, e.len + r.len⟩ :: l
    else if r.stop < e.start then r :: e :: l
    else e :: giveBack r l

theorem giveBack_spec {r : Extent} (hr : 0 < r.len) {l : List Extent} (h : Separated l)
    (hapart : ∀ e ∈ l, e.Apart r) : Separated (giveBack r l) ∧
      (∀ f ∈ giveBack r l, f.start = r.start ∨ ∃ e ∈ l, f.start = e.start) ∧
      (∀ x, Covers (giveBack r l) x ↔ Covers l x ∨ r.Contains x) ∧
      size (giveBack r l) = size l + r.len := by
  induction l with
  | nil => exact ⟨⟨hr, (fun f hf => by cases hf), trivial⟩, by simp [giveBack],
      by simp [giveBack], by simp [giveBack]⟩
  | cons e l ih =>
    obtain ⟨hpos, hgap, htail⟩ := h
    have he := hapart e List.mem_cons_self
    unfold giveBack
    split
    -- joined to the extent before it, and perhaps to the one behind it
    · rename_i hjoin
      cases l with
      | nil =>
        refine ⟨⟨by dsimp only; omega, (fun f hf => by cases hf), trivial⟩, fun f hf => ?_,
          fun x => ?_, ?_⟩
        · obtain rfl := List.mem_singleton.mp hf
          exact .inr ⟨e, List.mem_cons_self, rfl⟩
        · simp only [covers_cons, covers_nil, or_false, Contains, stop] at hjoin ⊢
          omega
        · simp only [size_cons, size_nil]
          omega
      | cons f l =>
        have hf := hgap f List.mem_cons_self
        have hfr := hapart f (List.mem_cons_of_mem _ List.mem_cons_self)
        obtain ⟨hfpos, hfgap, hftail⟩ := htail
        simp only [Apart, stop] at hf hfr hjoin hfgap
        dsimp only
        split
        · rename_i htouch
          refine ⟨⟨by dsimp only; omega, fun g hg => ?_, hftail⟩, fun g hg => ?_, fun x => ?_, ?_⟩
          · have := hfgap g hg
            simp only [stop]
            omega
          · rcases List.mem_cons.mp hg with rfl | hg
            · exact .inr ⟨e, List.mem_cons_self, rfl⟩
            · exact .inr ⟨g, List.mem_cons_of_mem _ (List.mem_cons_of_mem _ hg), rfl⟩
          · simp only [covers_cons, Contains, stop]
            rw [← or_assoc, or_right_comm]
            exact or_congr_left (by omega)
          · simp only [size_cons]
            omega
        · rename_i hne
          refine ⟨⟨by dsimp only; omega, fun g hg => ?_, hfpos, hfgap, hftail⟩, fun g hg => ?_,
            fun x => ?_, ?_⟩
          · rcases List.mem_cons.mp hg with rfl | hg
            · simp only [stop]
              omega
            · have := hfgap g hg
              simp only [stop]
              omega
          · rcases List.mem_cons.mp hg with rfl | hg
            · exact .inr ⟨e, List.mem_cons_self, rfl⟩
            · exact .inr ⟨g, List.mem_cons_of_mem _ hg, rfl⟩
          · rw [covers_cons, covers_cons e, or_right_comm]
            refine or_congr_left ?_
            simp only [Contains, stop]
            omega
          · simp only [size_cons]
            omega
    · rename_i hnjoin
      split
      -- joined to the extent behind it
      · rename_i hjoin
        refine ⟨⟨by dsimp only; omega, fun f hf => ?_, htail⟩, fun f hf => ?_, fun x => ?_, ?_⟩
        · have := hgap f hf
          simp only [stop] at hjoin this ⊢
          omega
        · rcases List.mem_cons.mp hf with rfl | hf
          · exact .inl rfl
          · exact .inr ⟨f, List.mem_cons_of_mem _ hf, rfl⟩
        · rw [covers_cons, covers_cons e, or_right_comm]
          refine or_congr_left ?_
          simp only [Contains, stop] at hjoin ⊢
          omega
        · simp only [size_cons]
          omega
      · split
        · rename_i hlt
          refine ⟨⟨hr, fun f hf => ?_, hpos, hgap, htail⟩, fun f hf => ?_, fun x => ?_, ?_⟩
          · rcases List.mem_cons.mp hf with rfl | hf
            · exact hlt
            · have := hgap f hf
              simp only [stop] at hlt this ⊢
              omega
          · rcases List.mem_cons.mp hf with rfl | hf
            · exact .inl rfl
            · exact .inr ⟨f, hf, rfl⟩
          · rw [covers_cons, or_comm]
          · simp only [size_cons]
            omega
        -- behind this extent, with a gap
        · rename_i hnlt
          obtain ⟨hsep, hstarts, hcov, hsize⟩ :=
            ih htail fun f hf => hapart f (List.mem_cons_of_mem _ hf)
          refine ⟨⟨hpos, fun f hf => ?_, hsep⟩, fun f hf => ?_, fun x => ?_, ?_⟩
          · rcases hstarts f hf with hstart | ⟨g, hg, hstart⟩
            · unfold Apart at he
              omega
            · have := hgap g hg
              omega
          · rcases List.mem_cons.mp hf with rfl | hf
            · exact .inr ⟨f, List.mem_cons_self, rfl⟩
            · rcases hstarts f hf with hstart | ⟨g, hg, hstart⟩
              · exact .inl hstart
              · exact .inr ⟨g, List.mem_cons_of_mem _ hg, hstart⟩
          · rw [covers_cons, covers_cons, hcov x, or_assoc]
          · simp only [size_cons, hsize]
            omega

end ControlRTT.Lib.Extents
