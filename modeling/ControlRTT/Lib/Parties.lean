import Mathlib.Algebra.Order.Ring.Int
import Mathlib.Data.List.Nodup

/-! # A list of parties, of which one acts at a time

How many of them are somewhere when one goes on, which of them has the token that one takes and
gives back, and which of them are in a queue that they enter and leave. -/
namespace ControlRTT.Lib.Parties
variable {α : Type} {l : List α} {i : Nat} {a b : α}

theorem get_set_iff (hi : l[i]? = some a) {j : Nat} {c : α} :
    (l.set i b)[j]? = some c ↔ j = i ∧ c = b ∨ j ≠ i ∧ l[j]? = some c := by
  have hlt : i < l.length := (List.getElem?_eq_some_iff.mp hi).1
  by_cases hj : j = i
  · subst hj
    simp [List.getElem?_set_self hlt, eq_comm]
  · simp [List.getElem?_set_ne (Ne.symm hj), hj]

/-- What holds of all of them, where it holds of the new one. -/
theorem forall_mem_set {P : α → Prop} (h : ∀ c ∈ l, P c) (hb : P b) : ∀ c ∈ l.set i b, P c := by
  intro c hc
  rcases List.mem_or_eq_of_mem_set hc with hmem | rfl
  · exact h c hmem
  · exact hb

/-! ## Counting -/

theorem countP_cons_toNat (p : α → Bool) :
    (a :: l).countP p = l.countP p + (p a).toNat := by
  rw [List.countP_cons]
  cases p a <;> rfl

theorem countP_set (hi : l[i]? = some a) (b : α) (p : α → Bool) :
    (l.set i b).countP p + (p a).toNat = l.countP p + (p b).toNat := by
  induction l generalizing i with
  | nil => cases hi
  | cons c l ih =>
    cases i with
    | zero =>
      obtain rfl := Option.some.inj hi
      rw [List.set_cons_zero, countP_cons_toNat, countP_cons_toNat]
      omega
    | succ i =>
      have hrest := ih (i := i) hi
      rw [List.set_cons_succ, countP_cons_toNat, countP_cons_toNat]
      omega

theorem sum_set (hi : l[i]? = some a) (b : α) (f : α → Nat) :
    ((l.set i b).map f).sum + f a = (l.map f).sum + f b := by
  induction l generalizing i with
  | nil => cases hi
  | cons c l ih =>
    cases i with
    | zero =>
      obtain rfl := Option.some.inj hi
      simp only [List.set_cons_zero, List.map_cons, List.sum_cons]
      omega
    | succ i =>
      have hrest := ih (i := i) hi
      simp only [List.set_cons_succ, List.map_cons, List.sum_cons]
      omega

theorem le_sum_of_get (hi : l[i]? = some a) (f : α → Nat) : f a ≤ (l.map f).sum := by
  induction l generalizing i with
  | nil => cases hi
  | cons c l ih =>
    rw [List.map_cons, List.sum_cons]
    cases i with
    | zero =>
      obtain rfl := Option.some.inj hi
      exact Nat.le_add_right _ _
    | succ i =>
      have hrest := ih (i := i) hi
      omega

/-- Two of them have no more than all. -/
theorem add_le_sum_of_get {j : Nat} (hi : l[i]? = some a) (hj : l[j]? = some b) (hne : i ≠ j)
    (f : α → Nat) : f a + f b ≤ (l.map f).sum := by
  induction l generalizing i j with
  | nil => cases hi
  | cons c l ih =>
    rw [List.map_cons, List.sum_cons]
    cases i with
    | zero =>
      obtain rfl := Option.some.inj hi
      cases j with
      | zero => exact absurd rfl hne
      | succ j =>
        have hrest := le_sum_of_get (i := j) hj f
        omega
    | succ i =>
      cases j with
      | zero =>
        obtain rfl := Option.some.inj hj
        have hrest := le_sum_of_get (i := i) hi f
        omega
      | succ j =>
        have hrest := ih (i := i) (j := j) hi hj fun heq => hne (congrArg Nat.succ heq)
        omega

theorem sum_le_length {f : α → Nat} (h : ∀ c ∈ l, f c ≤ 1) : (l.map f).sum ≤ l.length := by
  induction l with
  | nil => exact Nat.le_refl 0
  | cons c l ih =>
    have hrest := ih fun d hd => h d (List.mem_cons_of_mem c hd)
    have hone := h c List.mem_cons_self
    simp only [List.map_cons, List.sum_cons, List.length_cons]
    omega

/-- All of them have done once what each of them does at most once. -/
theorem eq_one_of_length_le_sum {f : α → Nat} (h : ∀ c ∈ l, f c ≤ 1)
    (hsum : l.length ≤ (l.map f).sum) : ∀ c ∈ l, f c = 1 := by
  induction l with
  | nil =>
    intro c hc
    cases hc
  | cons c l ih =>
    have hle : ∀ d ∈ l, f d ≤ 1 := fun d hd => h d (List.mem_cons_of_mem c hd)
    have hrest := sum_le_length hle
    have hone := h c List.mem_cons_self
    simp only [List.map_cons, List.sum_cons, List.length_cons] at hsum
    intro d hd
    rcases List.mem_cons.mp hd with rfl | hd
    · omega
    · exact ih hle (by omega) d hd

/-- Some of them has not done what fewer have done than there are. -/
theorem exists_eq_zero_of_sum_lt {f : α → Nat} (hsum : (l.map f).sum < l.length) :
    ∃ c ∈ l, f c = 0 := by
  induction l with
  | nil => cases hsum
  | cons c l ih =>
    by_cases hc : f c = 0
    · exact ⟨c, List.mem_cons_self, hc⟩
    · simp only [List.map_cons, List.sum_cons, List.length_cons] at hsum
      obtain ⟨d, hd, hzero⟩ := ih (by omega)
      exact ⟨d, List.mem_cons_of_mem c hd, hzero⟩

theorem countP_pos_iff_get {p : α → Bool} :
    0 < l.countP p ↔ ∃ (i : Nat) (a : α), l[i]? = some a ∧ p a = true := by
  rw [List.countP_pos_iff]
  constructor
  · rintro ⟨a, hmem, hp⟩
    obtain ⟨i, hi⟩ := List.mem_iff_getElem?.mp hmem
    exact ⟨i, a, hi, hp⟩
  · rintro ⟨i, a, hi, hp⟩
    exact ⟨a, List.mem_of_getElem? hi, hp⟩

theorem countP_pos_of_get {p : α → Bool} (hi : l[i]? = some a) (hp : p a = true) :
    0 < l.countP p :=
  countP_pos_iff_get.mpr ⟨i, a, hi, hp⟩

/-- Two kinds that exclude each other within a third. -/
theorem countP_add_le {p q r : α → Bool} (h : ∀ c, (p c).toNat + (q c).toNat ≤ (r c).toNat)
    (l : List α) : l.countP p + l.countP q ≤ l.countP r := by
  induction l with
  | nil => exact Nat.le_refl 0
  | cons c l ih =>
    have hone := h c
    simp only [countP_cons_toNat]
    omega

/-! ## A token -/

/-- The token belongs to the one party that is where `owns` says. -/
def Owned (owner : Option Nat) (l : List α) (owns : α → Bool) : Prop :=
  ∀ i, owner = some i ↔ ∃ a, l[i]? = some a ∧ owns a = true

variable {owner : Option Nat} {owns : α → Bool}

theorem Owned.same (h : Owned owner l owns) (hi : l[i]? = some a) (hsame : owns b = owns a) :
    Owned owner (l.set i b) owns := by
  intro j
  rw [h j]
  simp only [get_set_iff hi]
  by_cases hj : j = i
  · subst hj
    simp [hi, hsame]
  · simp [hj]

theorem Owned.take (h : Owned none l owns) (hi : l[i]? = some a) (hb : owns b = true) :
    Owned (some i) (l.set i b) owns := by
  intro j
  simp only [get_set_iff hi]
  constructor
  · intro hj
    obtain rfl := Option.some.inj hj
    exact ⟨b, .inl ⟨rfl, rfl⟩, hb⟩
  · rintro ⟨c, ⟨rfl, -⟩ | ⟨-, hc⟩, hown⟩
    · rfl
    · cases (h j).mpr ⟨c, hc, hown⟩

theorem Owned.give (h : Owned (some i) l owns) (hi : l[i]? = some a) (hb : owns b = false) :
    Owned none (l.set i b) owns := by
  intro j
  simp only [get_set_iff hi]
  constructor
  · intro hj
    cases hj
  · rintro ⟨c, ⟨-, rfl⟩ | ⟨hne, hc⟩, hown⟩
    · cases hb.symm.trans hown
    · exact absurd (Option.some.inj ((h j).mpr ⟨c, hc, hown⟩)).symm hne

theorem Owned.eq_some (h : Owned owner l owns) (hi : l[i]? = some a) (ha : owns a = true) :
    owner = some i :=
  (h i).mpr ⟨a, hi, ha⟩

theorem Owned.map (h : Owned owner l owns) {f : α → α} (hf : ∀ c, owns (f c) = owns c) :
    Owned owner (l.map f) owns := by
  intro j
  rw [h j]
  simp [hf]

/-! ## A queue -/

/-- The queue holds, once each, those that are where `waits` says. -/
structure Queued (queue : List Nat) (l : List α) (waits : α → Bool) : Prop where
  mem : ∀ i, i ∈ queue ↔ ∃ a, l[i]? = some a ∧ waits a = true
  nodup : queue.Nodup

variable {queue : List Nat} {waits : α → Bool}

theorem Queued.eq_nil_iff (h : Queued queue l waits) : queue = [] ↔ l.countP waits = 0 := by
  rw [List.eq_nil_iff_forall_not_mem]
  constructor
  · intro hnone
    by_contra hne
    obtain ⟨i, a, hi, ha⟩ := countP_pos_iff_get.mp (Nat.pos_of_ne_zero hne)
    exact hnone i ((h.mem i).mpr ⟨a, hi, ha⟩)
  · intro hzero i hi
    obtain ⟨a, hget, ha⟩ := (h.mem i).mp hi
    have hpos := countP_pos_of_get hget ha
    omega

theorem Queued.same (h : Queued queue l waits) (hi : l[i]? = some a) (hsame : waits b = waits a) :
    Queued queue (l.set i b) waits := by
  refine ⟨fun j => ?_, h.nodup⟩
  rw [h.mem j]
  simp only [get_set_iff hi]
  by_cases hj : j = i
  · subst hj
    simp [hi, hsame]
  · simp [hj]

theorem Queued.join (h : Queued queue l waits) (hi : l[i]? = some a) (ha : waits a = false)
    (hb : waits b = true) : Queued (queue ++ [i]) (l.set i b) waits := by
  constructor
  · intro j
    rw [List.mem_append, h.mem j, List.mem_singleton]
    simp only [get_set_iff hi]
    by_cases hj : j = i
    · subst hj
      simp [hb]
    · simp [hj]
  · refine List.nodup_append.mpr ⟨h.nodup, List.nodup_singleton i, fun j hj k hk hjk => ?_⟩
    obtain rfl := List.mem_singleton.mp hk
    subst hjk
    obtain ⟨c, hc, hq⟩ := (h.mem j).mp hj
    rw [hi] at hc
    obtain rfl := Option.some.inj hc
    exact Bool.false_ne_true (ha.symm.trans hq)

theorem Queued.leave (h : Queued queue l waits) (hi : l[i]? = some a) (hb : waits b = false) :
    Queued (queue.erase i) (l.set i b) waits := by
  refine ⟨fun j => ?_, h.nodup.erase i⟩
  rw [h.nodup.mem_erase_iff, h.mem j]
  simp only [get_set_iff hi]
  by_cases hj : j = i
  · subst hj
    simp [hb]
  · simp [hj]

theorem Queued.pop (h : Queued (i :: queue) l waits) (hi : l[i]? = some a)
    (hb : waits b = false) : Queued queue (l.set i b) waits := by
  have hleave := h.leave hi hb
  rwa [List.erase_cons_head] at hleave

theorem Queued.head (h : Queued (i :: queue) l waits) :
    ∃ a, l[i]? = some a ∧ waits a = true :=
  (h.mem i).mp List.mem_cons_self

theorem Queued.map (h : Queued queue l waits) {f : α → α} (hf : ∀ c, waits (f c) = waits c) :
    Queued queue (l.map f) waits := by
  refine ⟨fun j => ?_, h.nodup⟩
  rw [h.mem j]
  simp [hf]

/-- Nobody is in the queue. -/
theorem queued_nil (h : l.countP waits = 0) : Queued [] l waits := by
  refine ⟨fun i => iff_of_false List.not_mem_nil ?_, .nil⟩
  rintro ⟨a, hi, ha⟩
  have hpos := countP_pos_of_get hi ha
  omega

end ControlRTT.Lib.Parties
