import Mathlib.Algebra.Order.Ring.Int

/-! # Skip lists

The rows of a skip list, the sparsest first; the last row, the base, holds every
element. A new element is looked for in each row from where the walk through the row
above ended, and put into the lowest `height` rows. If every row is a sublist of the
rows below, that stays so, and each row is split by the new element where the walk
stopped (`Ok.link`). -/
namespace ControlRTT.Lib.SkipList

variable {α : Type} [DecidableEq α]

/-- What follows a position in a row; `none` is the head of the row. -/
def after (row : List α) : Option α → List α
  | none => row
  | some p => (row.dropWhile (· ≠ p)).tail

/-- The last position before an element that is `later`. -/
def walk (later : α → Bool) (pos : Option α) : List α → Option α
  | [] => pos
  | u :: rest => if later u then pos else walk later (some u) rest

/-- Where the walk through a row ends that starts behind `pos`. -/
def rowHead (later : α → Bool) (pos : Option α) (row : List α) : Option α :=
  walk later pos (after row pos)

def insertAfter (a : α) : Option α → List α → List α
  | none, row => a :: row
  | some _, [] => []
  | some p, u :: rest => u :: if u = p then a :: rest else insertAfter a (some p) rest

/-- `a` is put into the lowest `height` rows. -/
def link (later : α → Bool) (a : α) (height : Nat) : Option α → List (List α) → List (List α)
  | _, [] => []
  | pos, row :: rows =>
    (if rows.length < height then insertAfter a (rowHead later pos row) row else row) ::
      link later a height (rowHead later pos row) rows

def remove (a : α) (rows : List (List α)) : List (List α) := rows.map (·.erase a)

def base (rows : List (List α)) : List α := rows.getLastD []

/-- The rows are sublists of the rows below them, without repetition. -/
structure Ok (rows : List (List α)) : Prop where
  sub : rows.Pairwise List.Sublist
  nodup : ∀ row ∈ rows, row.Nodup

/-! ## One row -/

theorem after_append {front back : List α} (h : (front ++ back).Nodup) :
    after (front ++ back) front.getLast? = back := by
  induction front with
  | nil => rfl
  | cons u rest ih =>
    obtain ⟨hu, hrest⟩ := List.nodup_cons.mp h
    cases hl : rest.getLast? with
    | none =>
      obtain rfl := List.getLast?_eq_none_iff.mp hl
      simp [after]
    | some p =>
      have hp : p ∈ rest := List.mem_of_getLast? hl
      have hup : u ≠ p := fun heq => hu (heq ▸ List.mem_append_left back hp)
      have := ih hrest
      rw [hl] at this
      simpa [after, List.getLast?_cons, hl, hup] using this

theorem insertAfter_append (a : α) {front back : List α} (h : (front ++ back).Nodup) :
    insertAfter a front.getLast? (front ++ back) = front ++ a :: back := by
  induction front with
  | nil => simp [insertAfter]
  | cons u rest ih =>
    obtain ⟨hu, hrest⟩ := List.nodup_cons.mp h
    cases hl : rest.getLast? with
    | none =>
      obtain rfl := List.getLast?_eq_none_iff.mp hl
      simp [insertAfter]
    | some p =>
      have hp : p ∈ rest := List.mem_of_getLast? hl
      have hup : u ≠ p := fun heq => hu (heq ▸ List.mem_append_left back hp)
      have := ih hrest
      rw [hl] at this
      simpa [insertAfter, List.getLast?_cons, hl, hup] using this

omit [DecidableEq α] in
/-- The walk splits what it walks through at the first later element. -/
theorem walk_append (later : α → Bool) (front back : List α) :
    ∃ passed rest, back = passed ++ rest ∧ (∀ u ∈ passed, later u = false) ∧
      (∀ u ∈ rest.head?, later u = true) ∧
      walk later front.getLast? back = (front ++ passed).getLast? := by
  induction back generalizing front with
  | nil => exact ⟨[], [], rfl, by simp, by simp, by simp [walk]⟩
  | cons u rest ih =>
    cases hu : later u with
    | true => exact ⟨[], u :: rest, rfl, by simp, by simp [hu], by simp [walk, hu]⟩
    | false =>
      obtain ⟨passed, rest', rfl, hpassed, hrest, hwalk⟩ := ih (front ++ [u])
      refine ⟨u :: passed, rest', rfl, ?_, hrest, ?_⟩
      · intro v hv
        obtain rfl | hv := List.mem_cons.mp hv
        · exact hu
        · exact hpassed v hv
      · rw [List.getLast?_concat] at hwalk
        simpa [walk, hu] using hwalk

/-! ## The row below -/

omit [DecidableEq α] in
/-- A sublist that starts with a later element lies behind what is not later. -/
theorem sublist_of_passed {later : α → Bool} {back passed rest : List α}
    (h : back.Sublist (passed ++ rest)) (hback : ∀ u ∈ back.head?, later u = true)
    (hpassed : ∀ u ∈ passed, later u = false) : back.Sublist rest := by
  induction passed with
  | nil => exact h
  | cons v passed ih =>
    have hv := hpassed v List.mem_cons_self
    have hlater : ∀ u ∈ passed, later u = false := fun u hu =>
      hpassed u (List.mem_cons_of_mem v hu)
    cases h with
    | cons _ h => exact ih h hlater
    | cons_cons _ h =>
      have := hback v rfl
      rw [hv] at this
      cases this

omit [DecidableEq α] in
/-- A row below splits where the row above does. -/
theorem exists_split_below {front back row : List α} (h : (front ++ back).Sublist row) :
    ∃ front' back', row = front' ++ back' ∧ front'.getLast? = front.getLast? ∧
      front.Sublist front' ∧ back.Sublist back' := by
  obtain ⟨r, s, rfl, hr, hs⟩ := List.append_sublist_iff.mp h
  cases hl : front.getLast? with
  | none =>
    obtain rfl := List.getLast?_eq_none_iff.mp hl
    exact ⟨[], r ++ s, rfl, rfl, .slnil, hs.trans (List.sublist_append_right r s)⟩
  | some p =>
    obtain ⟨init, rfl⟩ := List.getLast?_eq_some_iff.mp hl
    obtain ⟨x, y, rfl, hx, hy⟩ := List.append_sublist_iff.mp hr
    obtain ⟨y₁, y₂, rfl⟩ := List.append_of_mem (List.singleton_sublist.mp hy)
    refine ⟨x ++ y₁ ++ [p], y₂ ++ s, by simp, List.getLast?_concat, ?_, ?_⟩
    · exact (hx.trans (List.sublist_append_left x y₁)).append_right [p]
    · exact hs.trans (List.sublist_append_right y₂ s)

/-! ## All rows -/

/-- The rows with `a` in the lowest `height` of them, each row given by its two parts. -/
def place (a : α) (height : Nat) : List (List α × List α) → List (List α)
  | [] => []
  | s :: ss => (if ss.length < height then s.1 ++ a :: s.2 else s.1 ++ s.2) :: place a height ss

/-- The first part ends before the first later element. -/
structure Cut (later : α → Bool) (s : List α × List α) : Prop where
  front : ∀ u ∈ s.1.getLast?, later u = false
  back : ∀ u ∈ s.2.head?, later u = true

/-- The second split is one of a row below. -/
def Below (s t : List α × List α) : Prop := s.1.Sublist t.1 ∧ s.2.Sublist t.2

theorem link_eq_place (later : α → Bool) (a : α) (height : Nat) {rows : List (List α)}
    (h : Ok rows) {top : List α × List α} (htop : Cut later top)
    (hsub : ∀ row ∈ rows, (top.1 ++ top.2).Sublist row) :
    ∃ ss : List (List α × List α), rows = ss.map (fun s => s.1 ++ s.2) ∧
      link later a height top.1.getLast? rows = place a height ss ∧
      ss.Pairwise Below ∧ ∀ s ∈ ss, Cut later s ∧ Below top s := by
  induction rows generalizing top with
  | nil => exact ⟨[], rfl, rfl, .nil, by simp⟩
  | cons row rows ih =>
    obtain ⟨hrow, hrows⟩ := List.pairwise_cons.mp h.sub
    have hnodup := h.nodup row List.mem_cons_self
    obtain ⟨front, back, rfl, hlast, hfront, hback⟩ :=
      exists_split_below (hsub row List.mem_cons_self)
    obtain ⟨passed, rest, rfl, hpassed, hrest, hwalk⟩ := walk_append later front back
    rw [← List.append_assoc] at hnodup hrow ⊢
    have hhead : rowHead later top.1.getLast? (front ++ passed ++ rest) =
        (front ++ passed).getLast? := by
      rw [rowHead, ← hlast, List.append_assoc,
        after_append (by rwa [← List.append_assoc]), hwalk]
    have hcut : Cut later (front ++ passed, rest) := by
      refine ⟨fun u hu => ?_, hrest⟩
      dsimp only at hu
      cases hp : passed.getLast? with
      | none =>
        rw [List.getLast?_append, hp, Option.none_or, hlast] at hu
        exact htop.front u hu
      | some p =>
        rw [List.getLast?_append, hp, Option.some_or] at hu
        cases hu
        exact hpassed _ (List.mem_of_getLast? hp)
    obtain ⟨ss, rfl, hlink, hss, hall⟩ :=
      ih ⟨hrows, fun r hr => h.nodup r (List.mem_cons_of_mem _ hr)⟩ hcut hrow
    have hbelow : Below top (front ++ passed, rest) :=
      ⟨hfront.trans (List.sublist_append_left front passed),
        sublist_of_passed hback htop.back hpassed⟩
    refine ⟨(front ++ passed, rest) :: ss, rfl, ?_, ?_, ?_⟩
    · simp only [link, place, hhead, hlink, List.length_map, insertAfter_append a hnodup]
    · exact List.pairwise_cons.mpr ⟨fun s hs => (hall s hs).2, hss⟩
    · intro s hs
      obtain rfl | hs := List.mem_cons.mp hs
      · exact ⟨hcut, hbelow⟩
      · obtain ⟨hc, hb⟩ := hall s hs
        exact ⟨hc, hbelow.1.trans hb.1, hbelow.2.trans hb.2⟩

omit [DecidableEq α] in
theorem mem_place {a : α} {height : Nat} {ss : List (List α × List α)} {row : List α}
    (h : row ∈ place a height ss) :
    ∃ s ∈ ss, row = s.1 ++ s.2 ∨ row = s.1 ++ a :: s.2 := by
  induction ss with
  | nil => cases h
  | cons s ss ih =>
    obtain rfl | h := List.mem_cons.mp h
    · refine ⟨s, List.mem_cons_self, ?_⟩
      split
      · exact .inr rfl
      · exact .inl rfl
    · obtain ⟨t, ht, hrow⟩ := ih h
      exact ⟨t, List.mem_cons_of_mem s ht, hrow⟩

omit [DecidableEq α] in
/-- Once a row has the new element, all rows below have it. -/
theorem mem_place_of_length {a : α} {height : Nat} {ss : List (List α × List α)}
    {row : List α} (h : row ∈ place a height ss) (hlen : ss.length ≤ height) :
    ∃ s ∈ ss, row = s.1 ++ a :: s.2 := by
  induction ss with
  | nil => cases h
  | cons s ss ih =>
    have hlt : ss.length < height := hlen
    obtain rfl | h := List.mem_cons.mp h
    · exact ⟨s, List.mem_cons_self, if_pos hlt⟩
    · obtain ⟨t, ht, hrow⟩ := ih h hlt.le
      exact ⟨t, List.mem_cons_of_mem s ht, hrow⟩

omit [DecidableEq α] in
theorem pairwise_place (a : α) (height : Nat) {ss : List (List α × List α)}
    (h : ss.Pairwise Below) : (place a height ss).Pairwise List.Sublist := by
  induction ss with
  | nil => exact .nil
  | cons s ss ih =>
    obtain ⟨hs, hss⟩ := List.pairwise_cons.mp h
    refine List.pairwise_cons.mpr ⟨fun row hrow => ?_, ih hss⟩
    by_cases hlen : ss.length < height
    · obtain ⟨t, ht, rfl⟩ := mem_place_of_length hrow hlen.le
      rw [if_pos hlen]
      exact (hs t ht).1.append ((hs t ht).2.cons_cons a)
    · rw [if_neg hlen]
      obtain ⟨t, ht, rfl | rfl⟩ := mem_place hrow
      · exact (hs t ht).1.append (hs t ht).2
      · exact (hs t ht).1.append ((hs t ht).2.cons a)

omit [DecidableEq α] in
theorem base_cons (row : List α) {rows : List (List α)} (h : rows ≠ []) :
    base (row :: rows) = base rows := by
  cases rows with
  | nil => exact absurd rfl h
  | cons r rs => simp [base]

omit [DecidableEq α] in
theorem base_mem {rows : List (List α)} (h : rows ≠ []) : base rows ∈ rows := by
  induction rows with
  | nil => exact absurd rfl h
  | cons row rows ih =>
    by_cases hr : rows = []
    · subst hr
      exact List.mem_singleton.mpr rfl
    · rw [base_cons row hr]
      exact List.mem_cons_of_mem row (ih hr)

omit [DecidableEq α] in
theorem base_place (a : α) {height : Nat} (hheight : 0 < height)
    {ss : List (List α × List α)} (h : ss ≠ []) :
    ∃ s ∈ ss, base (ss.map fun s => s.1 ++ s.2) = s.1 ++ s.2 ∧
      base (place a height ss) = s.1 ++ a :: s.2 := by
  induction ss with
  | nil => exact absurd rfl h
  | cons s ss ih =>
    by_cases hss : ss = []
    · subst hss
      exact ⟨s, List.mem_cons_self, rfl, if_pos hheight⟩
    · obtain ⟨t, ht, hb, hp⟩ := ih hss
      refine ⟨t, List.mem_cons_of_mem s ht, ?_, ?_⟩
      · rw [List.map_cons, base_cons _ (by simpa using hss), hb]
      · rw [place, base_cons, hp]
        cases ss with
        | nil => exact absurd rfl hss
        | cons u us => exact List.cons_ne_nil _ _

omit [DecidableEq α] in
theorem Ok.sublist_base {rows : List (List α)} (h : Ok rows) {row : List α}
    (hrow : row ∈ rows) : row.Sublist (base rows) := by
  induction rows with
  | nil => cases hrow
  | cons r rows ih =>
    obtain ⟨hr, hrows⟩ := List.pairwise_cons.mp h.sub
    by_cases hne : rows = []
    · subst hne
      obtain rfl := List.mem_singleton.mp hrow
      exact List.Sublist.refl _
    · rw [base_cons r hne]
      obtain rfl | hrow := List.mem_cons.mp hrow
      · exact hr _ (base_mem hne)
      · exact ih ⟨hrows, fun s hs => h.nodup s (List.mem_cons_of_mem r hs)⟩ hrow

omit [DecidableEq α] in
theorem Ok.nodup_base {rows : List (List α)} (h : Ok rows) : (base rows).Nodup := by
  by_cases hne : rows = []
  · subst hne
    exact .nil
  · exact h.nodup _ (base_mem hne)

/-! ## Linking and removing -/

/-- The new element splits every row where the walk has stopped. -/
theorem Ok.exists_place {rows : List (List α)} (h : Ok rows) (later : α → Bool) (a : α)
    (height : Nat) : ∃ ss : List (List α × List α), rows = ss.map (fun s => s.1 ++ s.2) ∧
      link later a height none rows = place a height ss ∧ ss.Pairwise Below ∧
      ∀ s ∈ ss, Cut later s := by
  have htop : Cut later (([] : List α), ([] : List α)) := ⟨by simp, by simp⟩
  obtain ⟨ss, hrows, hlink, hss, hall⟩ :=
    link_eq_place later a height h htop fun row _ => List.nil_sublist row
  exact ⟨ss, hrows, hlink, hss, fun s hs => (hall s hs).1⟩

theorem Ok.link {rows : List (List α)} (h : Ok rows) (later : α → Bool) {a : α}
    (height : Nat) (ha : a ∉ base rows) : Ok (link later a height none rows) := by
  obtain ⟨ss, rfl, hlink, hss, -⟩ := h.exists_place later a height
  rw [hlink]
  refine ⟨pairwise_place a height hss, fun row hrow => ?_⟩
  obtain ⟨s, hs, hrow⟩ := mem_place hrow
  have hmem : s.1 ++ s.2 ∈ ss.map fun s => s.1 ++ s.2 := List.mem_map.mpr ⟨s, hs, rfl⟩
  have hnodup := h.nodup _ hmem
  obtain rfl | rfl := hrow
  · exact hnodup
  · have ha' : a ∉ s.1 ++ s.2 := fun hin => ha ((h.sublist_base hmem).mem hin)
    exact (List.perm_middle.nodup_iff).mpr (List.nodup_cons.mpr ⟨ha', hnodup⟩)

theorem length_link (later : α → Bool) (a : α) (height : Nat) (pos : Option α)
    (rows : List (List α)) : (SkipList.link later a height pos rows).length = rows.length := by
  induction rows generalizing pos with
  | nil => rfl
  | cons row rows ih => exact congrArg (· + 1) (ih _)

/-- In the base the new element stands where the walk has stopped. -/
theorem Ok.base_link {rows : List (List α)} (h : Ok rows) (hne : rows ≠ [])
    (later : α → Bool) (a : α) {height : Nat} (hheight : 0 < height) :
    ∃ front back, base rows = front ++ back ∧ Cut later (front, back) ∧
      base (SkipList.link later a height none rows) = front ++ a :: back := by
  obtain ⟨ss, rfl, hlink, -, hcut⟩ := h.exists_place later a height
  obtain ⟨s, hs, hb, hp⟩ := base_place a hheight (by simpa using hne)
  exact ⟨s.1, s.2, hb, hcut s hs, hlink ▸ hp⟩

theorem Ok.mem_base_link {rows : List (List α)} (h : Ok rows) (hne : rows ≠ [])
    (later : α → Bool) (a : α) {height : Nat} (hheight : 0 < height) (u : α) :
    u ∈ base (SkipList.link later a height none rows) ↔ u = a ∨ u ∈ base rows := by
  obtain ⟨front, back, hb, -, hl⟩ := h.base_link hne later a hheight
  rw [hb, hl, List.perm_middle.mem_iff, List.mem_cons]

theorem Ok.remove {rows : List (List α)} (h : Ok rows) (a : α) : Ok (remove a rows) where
  sub := List.pairwise_map.mpr (h.sub.imp fun hsub => hsub.erase a)
  nodup row hrow := by
    obtain ⟨r, hr, rfl⟩ := List.mem_map.mp hrow
    exact (h.nodup r hr).erase a

theorem base_remove (a : α) (rows : List (List α)) :
    base (remove a rows) = (base rows).erase a := by
  induction rows with
  | nil => rfl
  | cons row rows ih =>
    by_cases hne : rows = []
    · subst hne
      rfl
    · rw [base_cons row hne, ← ih]
      exact base_cons _ (by simpa [SkipList.remove] using hne)

theorem Ok.mem_base_remove {rows : List (List α)} (h : Ok rows) (a u : α) :
    u ∈ base (SkipList.remove a rows) ↔ u ≠ a ∧ u ∈ base rows := by
  rw [base_remove]
  exact h.nodup_base.mem_erase_iff

end ControlRTT.Lib.SkipList
