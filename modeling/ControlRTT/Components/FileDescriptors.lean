import ControlRTT.Lib.Runs
import ControlRTT.Lib.SlotTable
import Mathlib.Logic.Function.Basic

/-! # File descriptors (dfs.c)

A descriptor is the index of an entry of the table, and the entry points to a structure with a
count of its references. Beside the table the model has what the callers of `fd_new` know: which
descriptors are open, and what structure each of them stands for. Each call is atomic, as it holds
the lock. `fd_get` reads the structure of any entry of the table, also where there is none
(`descriptors_along_iff`). -/
namespace ControlRTT.Components.FileDescriptors
open ControlRTT.Lib.Runs ControlRTT.Lib.SlotTable

/-- `DFS_FD_MAGIC` -/
def dfsFdMagic : BitVec 16 := 0xfdfd

/-- `DFS_FD_OFFSET` -/
def dfsFdOffset : Nat := 3

/-- `struct dfs_fd` as far as the table uses it. -/
structure DfsFd where
  magic : BitVec 16
  refCount : BitVec 32
  deriving DecidableEq, Repr

/-- `struct dfs_fdtable`, whose `maxfd` is the length of `fds`, the structures that are allocated,
and the descriptors that are open. -/
structure DfsFdtable where
  fds : List (Option Nat) := []
  mem : Nat → Option DfsFd := fun _ => none
  opened : Int → Option Nat := fun _ => none

inductive Got where
  | null
  | fd (p : Nat)
  | fault
  deriving DecidableEq, Repr

namespace DfsFdtable

def put (t : DfsFdtable) (p : Nat) (d : DfsFd) : DfsFdtable :=
  { t with mem := Function.update t.mem p (some d) }

/-- The entry is empty, or its structure has no reference. -/
def isFree (t : DfsFdtable) : Option Nat → Bool
  | none => true
  | some p => (t.mem p).any (·.refCount = 0)

/-- `rt_calloc` gives the new structure, if it is used. -/
def withAlloc (t : DfsFdtable) (fresh : Option Nat) (fds : List (Option Nat)) (idx : Nat) :
    DfsFdtable :=
  match fresh with
  | some p =>
    if fds[idx]? = some (some p) then { t.put p ⟨0, 0⟩ with fds := fds } else { t with fds := fds }
  | none => { t with fds := fds }

/-- `fd_alloc` from the first descriptor on; `grown` and `fresh` are what `rt_realloc` and
`rt_calloc` return. -/
def fdAlloc (dfsFdMax : Nat) (t : DfsFdtable) (grown : Bool) (fresh : Option Nat) :
    DfsFdtable × Nat :=
  let (fds, idx) := alloc t.isFree 4 dfsFdMax t.fds grown fresh
  (t.withAlloc fresh fds idx, idx)

/-- `-1` if there is no entry. -/
def fdNew (dfsFdMax : Nat) (t : DfsFdtable) (grown : Bool) (fresh : Option Nat) :
    DfsFdtable × Int :=
  let (t, idx) := t.fdAlloc dfsFdMax grown fresh
  match t.fds[idx]?.join with
  | none => (t, -1)
  | some p =>
    ({ t.put p ⟨dfsFdMagic, 1⟩ with
      opened := Function.update t.opened (idx + dfsFdOffset) (some p) }, idx + dfsFdOffset)

def fdGet (t : DfsFdtable) (fd : Int) : DfsFdtable × Got :=
  if fd - dfsFdOffset < 0 ∨ (t.fds.length : Int) ≤ fd - dfsFdOffset then (t, .null)
  else
    match t.fds[(fd - dfsFdOffset).toNat]?.join with
    | none => (t, .fault)
    | some p =>
      match t.mem p with
      | none => (t, .fault)
      | some d =>
        if d.magic ≠ dfsFdMagic then (t, .null)
        else (t.put p { d with refCount := d.refCount + 1 }, .fd p)

/-- The structure is freed and its entry emptied, and its descriptor is no longer open. -/
def release (t : DfsFdtable) (p : Nat) : DfsFdtable where
  fds := t.fds.set (t.fds.findIdx (· == some p)) none
  mem := Function.update t.mem p none
  opened := fun n => if t.opened n = some p then none else t.opened n

/-- `fd_put` of a structure that is allocated. -/
def fdPut (t : DfsFdtable) (p : Nat) : Option DfsFdtable :=
  (t.mem p).map fun d =>
    if d.refCount - 1 = 0 ∧ some p ∈ t.fds then t.release p
    else t.put p { d with refCount := d.refCount - 1 }

end DfsFdtable

inductive Event where
  | fdNew (grown : Bool) (fresh : Option Nat)
  | fdGet (fd : Int)
  | fdPut (p : Nat)

/-- The allocator returns no structure that is in use. -/
def step (dfsFdMax : Nat) (t : DfsFdtable) : Event → Option DfsFdtable
  | .fdNew grown fresh =>
    if ∀ p ∈ fresh, t.mem p = none then some (t.fdNew dfsFdMax grown fresh).1 else none
  | .fdGet fd => some (t.fdGet fd).1
  | .fdPut p => t.fdPut p

/-! ## What is asked of the table -/

/-- Open descriptors stand for different structures, and an entry is occupied, by a structure whose
count is not 0, exactly as long as its descriptor is open. -/
structure Sound (t : DfsFdtable) : Prop where
  distinct : ∀ n m p, t.opened n = some p → t.opened m = some p → n = m
  occupied : ∀ n p, t.opened n = some p ↔ ∃ i : Nat, n = i + dfsFdOffset ∧ At t.fds i p
  counted : ∀ p, (∃ n, t.opened n = some p) ↔ ∃ d, t.mem p = some d ∧ d.refCount ≠ 0

/-- What the call returns. -/
def Returns (dfsFdMax : Nat) (t : DfsFdtable) : Event → Prop
  | .fdNew grown fresh =>
    let (t', fd) := t.fdNew dfsFdMax grown fresh
    fd = -1 ∧ t'.opened = t.opened ∨ 0 ≤ fd ∧ t.opened fd = none ∧ ∃ p, t'.opened fd = some p
  | .fdGet fd =>
    (t.fdGet fd).2 = match t.opened fd with
      | some p => .fd p
      | none => .null
  | .fdPut _ => True

def Keeps (dfsFdMax : Nat) (t : DfsFdtable) (e : Event) : Prop :=
  Returns dfsFdMax t e ∧ ∀ t', step dfsFdMax t e = some t' → Sound t'

/-- `fd_get` gets no number of an entry that is not open, and not the number of a structure whose
count would become 0. -/
def Known (t : DfsFdtable) : Event → Prop
  | .fdGet fd =>
    (dfsFdOffset ≤ fd ∧ fd < dfsFdOffset + t.fds.length → t.opened fd ≠ none) ∧
      ∀ p d, t.opened fd = some p → t.mem p = some d → d.refCount + 1 ≠ 0
  | _ => True

/-! ## The invariant -/

structure Inv (t : DfsFdtable) : Prop where
  distinct : Distinct t.fds
  opened : ∀ n p, t.opened n = some p ↔ ∃ i : Nat, n = i + dfsFdOffset ∧ At t.fds i p
  live : ∀ i p, At t.fds i p → ∃ d, t.mem p = some d ∧ d.refCount ≠ 0 ∧ d.magic = dfsFdMagic
  held : ∀ p d, t.mem p = some d → ∃ i, At t.fds i p

theorem inv_start : Inv {} := by
  refine ⟨?_, ?_, ?_, ?_⟩
  · intro i j p h
    cases h
  · intro n p
    constructor
    · intro h
      cases h
    · rintro ⟨i, -, h⟩
      cases h
  · intro i p h
    cases h
  · intro p d h
    cases h

section
variable {t : DfsFdtable} {dfsFdMax : Nat} {p : Nat} {d : DfsFd}

theorem Inv.sound (h : Inv t) : Sound t := by
  refine ⟨fun n m p hn hm => ?_, h.opened, fun p => ?_⟩
  · obtain ⟨i, rfl, hi⟩ := (h.opened n p).mp hn
    obtain ⟨j, rfl, hj⟩ := (h.opened m p).mp hm
    rw [h.distinct i j p hi hj]
  · constructor
    · rintro ⟨n, hn⟩
      obtain ⟨i, -, hi⟩ := (h.opened n p).mp hn
      obtain ⟨d, hd, hcount, -⟩ := h.live i p hi
      exact ⟨d, hd, hcount⟩
    · rintro ⟨d, hd, -⟩
      obtain ⟨i, hi⟩ := h.held p d hd
      exact ⟨i + dfsFdOffset, (h.opened _ p).mpr ⟨i, rfl, hi⟩⟩

/-- A structure that is in use gets another count. -/
theorem Inv.put (h : Inv t) (hp : t.mem p = some d) {d' : DfsFd} (hmagic : d'.magic = dfsFdMagic)
    (hcount : d'.refCount ≠ 0) : Inv (t.put p d') := by
  refine ⟨h.distinct, h.opened, fun i q hi => ?_, fun q e hq => ?_⟩
  · by_cases hq : q = p
    · subst hq
      exact ⟨d', Function.update_self _ _ _, hcount, hmagic⟩
    · obtain ⟨e, he, hrest⟩ := h.live i q hi
      exact ⟨e, (Function.update_of_ne hq _ _).trans he, hrest⟩
  · by_cases heq : q = p
    · subst heq
      exact h.held q d hp
    · exact h.held q e ((Function.update_of_ne heq _ _).symm.trans hq)

theorem Inv.same {fds : List (Option Nat)} (h : Inv t) (same : ∀ i p, At fds i p ↔ At t.fds i p) :
    Inv { t with fds := fds } := by
  refine ⟨h.distinct.of_same same, fun n p => ?_, fun i p hi => h.live i p ((same i p).mp hi),
    fun p d hp => ?_⟩
  · rw [h.opened]
    exact exists_congr fun i => and_congr_right' (same i p).symm
  · obtain ⟨i, hi⟩ := h.held p d hp
    exact ⟨i, (same i p).mpr hi⟩

/-- The table with a new structure in it. -/
def opens (t : DfsFdtable) (fds : List (Option Nat)) (i p : Nat) : DfsFdtable where
  fds := fds
  mem := Function.update t.mem p (some ⟨dfsFdMagic, 1⟩)
  opened := Function.update t.opened (i + dfsFdOffset) (some p)

/-- There is no entry, or one gets the structure that has been allocated. -/
theorem fdNew_cases (h : Inv t) (dfsFdMax : Nat) (grown : Bool) (fresh : Option Nat) :
    (∃ fds, (∀ i p, At fds i p ↔ At t.fds i p) ∧
      t.fdNew dfsFdMax grown fresh = ({ t with fds := fds }, -1)) ∨
    ∃ fds, ∃ i p : Nat, fresh = some p ∧ (∀ j q, At fds j q ↔ j = i ∧ q = p ∨ At t.fds j q) ∧
      (∀ q, ¬At t.fds i q) ∧
      t.fdNew dfsFdMax grown fresh = (opens t fds i p, (i : Int) + dfsFdOffset) := by
  have hres := allocated_alloc t.isFree 4 dfsFdMax t.fds grown fresh
  unfold DfsFdtable.fdNew DfsFdtable.fdAlloc
  generalize alloc t.isFree 4 dfsFdMax t.fds grown fresh = r at hres
  cases hres with
  | @full fds same =>
    refine .inl ⟨fds, same, ?_⟩
    have hout : fds[fds.length]? = none := List.getElem?_eq_none (Nat.le_refl _)
    have hmem : t.withAlloc fresh fds fds.length = { t with fds := fds } := by
      unfold DfsFdtable.withAlloc
      rw [hout]
      cases fresh <;> rfl
    dsimp only
    rw [hmem]
    dsimp only
    rw [hout]
    rfl
  | @reused i p held hfree =>
    obtain ⟨d, hd, hcount, -⟩ := h.live i p held
    unfold DfsFdtable.isFree at hfree
    dsimp only at hfree
    rw [hd] at hfree
    exact absurd (of_decide_eq_true hfree) hcount
  | @placed fds i p hfresh held vacant =>
    refine .inr ⟨fds, i, p, hfresh, held, vacant, ?_⟩
    have hget : fds[i]? = some (some p) := (held i p).mpr (.inl ⟨rfl, rfl⟩)
    have hmem : t.withAlloc fresh fds i = { t.put p ⟨0, 0⟩ with fds := fds } := by
      unfold DfsFdtable.withAlloc
      rw [hfresh]
      exact if_pos hget
    dsimp only
    rw [hmem]
    dsimp only
    rw [hget, Option.join_some]
    unfold DfsFdtable.put opens
    dsimp only
    rw [Function.update_idem]

theorem Inv.opens {fds : List (Option Nat)} {i : Nat} (h : Inv t) (hnew : t.mem p = none)
    (held : ∀ j q, At fds j q ↔ j = i ∧ q = p ∨ At t.fds j q) (vacant : ∀ q, ¬At t.fds i q) :
    Inv (opens t fds i p) := by
  have hother : ∀ j q, At t.fds j q → q ≠ p := fun j q hq heq => by
    obtain ⟨d, hd, -⟩ := h.live j q hq
    rw [heq, hnew] at hd
    cases hd
  refine ⟨h.distinct.placed held fun j hj => hother j p hj rfl, fun n q => ?_, fun j q hj => ?_,
    fun q d hq => ?_⟩
  · change Function.update t.opened _ _ n = some q ↔ _
    by_cases hn : n = i + dfsFdOffset
    · subst hn
      rw [Function.update_self]
      constructor
      · intro hq
        obtain rfl := Option.some.inj hq
        exact ⟨i, rfl, (held i p).mpr (.inl ⟨rfl, rfl⟩)⟩
      · rintro ⟨j, hj, hq⟩
        obtain rfl : i = j := by omega
        rcases (held i q).mp hq with ⟨-, rfl⟩ | hq
        · rfl
        · exact absurd hq (vacant q)
    · rw [Function.update_of_ne hn, h.opened]
      refine exists_congr fun j => and_congr_right fun hj => ?_
      have hne : j ≠ i := fun heq => hn (heq ▸ hj)
      change At t.fds j q ↔ At fds j q
      rw [held]
      simp [hne]
  · rcases (held j q).mp hj with ⟨rfl, rfl⟩ | hj
    · exact ⟨_, Function.update_self _ _ _, by decide, rfl⟩
    · obtain ⟨d, hd, hrest⟩ := h.live j q hj
      exact ⟨d, (Function.update_of_ne (hother j q hj) _ _).trans hd, hrest⟩
  · by_cases heq : q = p
    · exact ⟨i, (held i q).mpr (.inl ⟨rfl, heq⟩)⟩
    · obtain ⟨j, hj⟩ := h.held q d ((Function.update_of_ne heq _ _).symm.trans hq)
      exact ⟨j, (held j q).mpr (.inr hj)⟩

theorem Inv.release (h : Inv t) (hp : some p ∈ t.fds) : Inv (t.release p) := by
  have hlt : t.fds.findIdx (· == some p) < t.fds.length :=
    List.findIdx_lt_length_of_exists ⟨some p, hp, beq_self_eq_true _⟩
  have hfound : At t.fds (t.fds.findIdx (· == some p)) p := by
    have heq := List.findIdx_getElem (w := hlt)
    exact (List.getElem?_eq_getElem hlt).trans (congrArg some (beq_iff_eq.mp heq))
  have hat : ∀ j q, At (t.release p).fds j q ↔ q ≠ p ∧ At t.fds j q := fun j q => by
    refine (at_clear hlt).trans (and_congr_left fun hj => not_congr ⟨?_, ?_⟩)
    · rintro rfl
      exact hj.unique hfound
    · rintro rfl
      exact h.distinct j _ q hj hfound
  have hopened : ∀ n q, (t.release p).opened n = some q ↔ q ≠ p ∧ t.opened n = some q :=
    fun n q => by
      unfold DfsFdtable.release
      dsimp only
      split
      · rename_i hn
        rw [hn]
        simp [eq_comm]
      · rename_i hn
        exact (and_iff_right_of_imp fun hq (heq : q = p) => hn (heq ▸ hq)).symm
  refine ⟨h.distinct.clear hlt, fun n q => ?_, fun j q hj => ?_, fun q d hq => ?_⟩
  · rw [hopened, h.opened]
    constructor
    · rintro ⟨hne, i, hi, hq⟩
      exact ⟨i, hi, (hat i q).mpr ⟨hne, hq⟩⟩
    · rintro ⟨i, hi, hq⟩
      exact ⟨((hat i q).mp hq).1, i, hi, ((hat i q).mp hq).2⟩
  · obtain ⟨hne, hj⟩ := (hat j q).mp hj
    obtain ⟨d, hd, hrest⟩ := h.live j q hj
    exact ⟨d, (Function.update_of_ne hne _ _).trans hd, hrest⟩
  · have hne : q ≠ p := by
      rintro rfl
      change Function.update t.mem q none q = some d at hq
      rw [Function.update_self] at hq
      cases hq
    obtain ⟨j, hj⟩ := h.held q d ((Function.update_of_ne hne _ _).symm.trans hq)
    exact ⟨j, (hat j q).mpr ⟨hne, hj⟩⟩

/-! ## One call -/

/-- `fd_get` in a table that is all right. -/
theorem fdGet_cases (h : Inv t) (fd : Int) :
    (t.opened fd = none ∧ ¬(dfsFdOffset ≤ fd ∧ fd < dfsFdOffset + t.fds.length) ∧
      t.fdGet fd = (t, .null)) ∨
    (t.opened fd = none ∧ (dfsFdOffset ≤ fd ∧ fd < dfsFdOffset + t.fds.length) ∧
      t.fdGet fd = (t, .fault)) ∨
    ∃ p d, t.opened fd = some p ∧ t.mem p = some d ∧ d.magic = dfsFdMagic ∧
      t.fdGet fd = (t.put p { d with refCount := d.refCount + 1 }, .fd p) := by
  unfold DfsFdtable.fdGet
  by_cases hin : dfsFdOffset ≤ fd ∧ fd < dfsFdOffset + t.fds.length
  · have hindex : fd = ((fd - dfsFdOffset).toNat : Int) + dfsFdOffset := by omega
    rw [if_neg (by omega)]
    cases hentry : t.fds[(fd - dfsFdOffset).toNat]?.join with
    | none =>
      refine .inr (.inl ⟨Option.eq_none_iff_forall_ne_some.mpr fun p hp => ?_, hin, rfl⟩)
      obtain ⟨i, hi, hat⟩ := (h.opened fd p).mp hp
      obtain rfl : (fd - dfsFdOffset).toNat = i := by omega
      rw [show t.fds[_]? = _ from hat] at hentry
      cases hentry
    | some p =>
      have hat : At t.fds (fd - dfsFdOffset).toNat p := Option.join_eq_some_iff.mp hentry
      obtain ⟨d, hd, -, hmagic⟩ := h.live _ p hat
      refine .inr (.inr ⟨p, d, (h.opened fd p).mpr ⟨_, hindex, hat⟩, hd, hmagic, ?_⟩)
      dsimp only
      rw [hd]
      exact if_neg (not_not_intro hmagic)
  · refine .inl ⟨Option.eq_none_iff_forall_ne_some.mpr fun p hp => hin ?_, hin,
      if_pos (by omega)⟩
    obtain ⟨i, rfl, hat⟩ := (h.opened fd p).mp hp
    have hlt := hat.lt
    omega

theorem Inv.step {t' : DfsFdtable} {e : Event} (h : Inv t) (hknown : Known t e)
    (hstep : step dfsFdMax t e = some t') : Inv t' := by
  cases e with
  | fdNew grown fresh =>
    obtain ⟨hfresh, heq⟩ := Option.ite_none_right_eq_some.mp hstep
    obtain rfl := Option.some.inj heq
    obtain ⟨fds, same, hnew⟩ | ⟨fds, i, p, hp, held, vacant, hnew⟩ :=
      fdNew_cases h dfsFdMax grown fresh
    · rw [hnew]
      exact h.same same
    · rw [hnew]
      exact h.opens (hfresh p hp) held vacant
  | fdGet fd =>
    obtain rfl := Option.some.inj hstep
    obtain ⟨-, -, hget⟩ | ⟨-, -, hget⟩ | ⟨p, d, hfd, hd, hmagic, hget⟩ := fdGet_cases h fd
    · rw [hget]
      exact h
    · rw [hget]
      exact h
    · rw [hget]
      exact h.put hd hmagic (hknown.2 p d hfd hd)
  | fdPut p =>
    obtain ⟨d, hd, rfl⟩ := Option.map_eq_some_iff.mp hstep
    obtain ⟨i, hat⟩ := h.held p d hd
    obtain ⟨d', hd', -, hmagic⟩ := h.live i p hat
    obtain rfl := Option.some.inj (hd.symm.trans hd')
    have hmem : some p ∈ t.fds := List.mem_of_getElem? hat
    split
    · exact h.release hmem
    · rename_i hcount
      exact h.put hd hmagic fun hzero => hcount ⟨hzero, hmem⟩

/-- The call keeps what is asked of the table exactly if its argument is a known one. -/
theorem Inv.keeps_iff {t' : DfsFdtable} {e : Event} (h : Inv t)
    (hstep : FileDescriptors.step dfsFdMax t e = some t') : Keeps dfsFdMax t e ↔ Known t e := by
  constructor
  · rintro ⟨hreturns, hsound⟩
    cases e with
    | fdNew | fdPut => trivial
    | fdGet fd =>
      unfold Returns at hreturns
      dsimp only at hreturns
      have hnext := hsound _ rfl
      obtain ⟨hnone, hout, -⟩ | ⟨hnone, -, hget⟩ | ⟨p, d, hfd, hd, -, hget⟩ := fdGet_cases h fd
      · refine ⟨fun hin => absurd hin hout, fun p d hfd => ?_⟩
        cases hnone.symm.trans hfd
      · rw [hget, hnone] at hreturns
        cases hreturns
      · refine ⟨fun _ hnone => ?_, fun q e hq he => ?_⟩
        · cases hfd.symm.trans hnone
        · obtain rfl := Option.some.inj (hfd.symm.trans hq)
          obtain rfl := Option.some.inj (hd.symm.trans he)
          rw [hget] at hnext
          obtain ⟨d', hd', hcount⟩ := (hnext.counted p).mp ⟨fd, hfd⟩
          obtain rfl := Option.some.inj ((Function.update_self p _ _).symm.trans hd')
          exact hcount
  · intro hknown
    refine ⟨?_, fun t'' hstep' => (h.step hknown hstep').sound⟩
    cases e with
    | fdPut => trivial
    | fdNew grown fresh =>
      unfold Returns
      dsimp only
      obtain ⟨fds, -, hnew⟩ | ⟨fds, i, p, -, -, vacant, hnew⟩ :=
        fdNew_cases h dfsFdMax grown fresh
      · rw [hnew]
        exact .inl ⟨rfl, rfl⟩
      · rw [hnew]
        refine .inr ⟨?_, Option.eq_none_iff_forall_ne_some.mpr fun q hq => ?_, p,
          Function.update_self _ _ _⟩
        · change (0 : Int) ≤ (i : Int) + dfsFdOffset
          omega
        · obtain ⟨j, hj, hat⟩ := (h.opened _ q).mp hq
          obtain rfl : i = j := by omega
          exact vacant q hat
    | fdGet fd =>
      unfold Returns
      dsimp only
      obtain ⟨hnone, -, hget⟩ | ⟨hnone, hin, -⟩ | ⟨p, d, hfd, -, -, hget⟩ := fdGet_cases h fd
      · rw [hget, hnone]
      · exact absurd hnone (hknown.1 hin)
      · rw [hget, hfd]

end

/-- In a run of calls of `fd_new`, `fd_get` and `fd_put` the table is kept exactly if `fd_get` is
called with known numbers. -/
theorem descriptors_along_iff (dfsFdMax : Nat) (es : List Event) :
    Along (step dfsFdMax) (Keeps dfsFdMax) {} es ↔ Along (step dfsFdMax) Known {} es :=
  along_iff_along (J := Inv) (fun _ _ _ h hknown hstep => h.step hknown hstep)
    (fun _ _ _ h hstep => h.keeps_iff hstep) inv_start es

/-- The first descriptor is 3; the entry behind it is empty, and `fd_get(4)` reads its magic. -/
theorem fdGet_empty : ¬Along (step 4) (Keeps 4) {} [.fdNew true (some 0), .fdGet 4] := by
  intro h
  obtain ⟨-, hget⟩ := h _ rfl
  have hreturns : Got.fault = Got.null := (hget _ rfl).1.1
  cases hreturns

end ControlRTT.Components.FileDescriptors
