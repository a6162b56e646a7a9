import Mathlib.Data.List.TakeWhile

/-! # C strings

The text in an array is what stands before its terminator. A word of a text is what
`%s` reads from it: white space is skipped, and the word goes up to the next white space
or the end of the text. -/
namespace ControlRTT.Lib.CString

variable {α : Type} [DecidableEq α]

/-- The text before the first `nul`. -/
def text (nul : α) (buf : List α) : List α := buf.takeWhile (· ≠ nul)

theorem nul_notMem_text {nul : α} {buf : List α} : nul ∉ text nul buf := fun h => by
  simpa using List.mem_takeWhile_imp h

theorem text_append_nul {nul : α} {name : List α} (hname : nul ∉ name) (rest : List α) :
    text nul (name ++ nul :: rest) = name := by
  have hall : ∀ a ∈ name, decide (a ≠ nul) = true := fun a ha =>
    decide_eq_true fun heq => hname (heq ▸ ha)
  unfold text
  rw [List.takeWhile_append_of_pos hall, List.takeWhile_cons_of_neg (by simp), List.append_nil]

/-- Terminators behind an array add nothing to its text. -/
theorem text_append_of_forall_eq {nul : α} {buf rest : List α} (h : ∀ a ∈ rest, a = nul) :
    text nul (buf ++ rest) = text nul buf := by
  unfold text
  rw [List.takeWhile_append]
  split
  · rename_i hall
    have hrest : rest.takeWhile (fun a => decide (a ≠ nul)) = [] := by
      cases rest with
      | nil => rfl
      | cons a rest => exact List.takeWhile_cons_of_neg (by simp [h a List.mem_cons_self])
    rw [hrest, List.append_nil, (List.takeWhile_prefix _).eq_of_length hall]
  · rfl

theorem text_text (nul : α) (buf : List α) : text nul (text nul buf) = text nul buf :=
  List.takeWhile_idem

/-- The text goes at most up to a terminator. -/
theorem text_prefix (nul : α) (l rest : List α) : text nul (l ++ nul :: rest) <+: l := by
  induction l with
  | nil => exact (text_append_nul List.not_mem_nil rest).symm ▸ List.prefix_refl _
  | cons a l ih =>
    unfold text at ih ⊢
    rw [List.cons_append, List.takeWhile_cons]
    split
    · exact List.cons_prefix_cons.mpr ⟨rfl, ih⟩
    · exact List.nil_prefix

theorem text_eq_nil {nul : α} {buf : List α} (h : buf[0]? = some nul) : text nul buf = [] := by
  obtain ⟨rest, rfl⟩ := List.head?_eq_some_iff.mp (List.head?_eq_getElem?.trans h)
  exact List.takeWhile_cons_of_neg (by simp)

omit [DecidableEq α] in
/-- An array has a terminator after a store exactly if the stored value is one or another place
has one. -/
theorem mem_set_iff {nul a : α} {buf : List α} {i : Nat} (hi : i < buf.length) :
    nul ∈ buf.set i a ↔ a = nul ∨ ∃ j, j ≠ i ∧ buf[j]? = some nul := by
  rw [List.mem_iff_getElem?]
  constructor
  · rintro ⟨j, hj⟩
    by_cases hji : j = i
    · subst hji
      rw [List.getElem?_set_self hi] at hj
      exact .inl (Option.some.inj hj)
    · rw [List.getElem?_set_ne (Ne.symm hji)] at hj
      exact .inr ⟨j, hji, hj⟩
  · rintro (rfl | ⟨j, hji, hj⟩)
    · exact ⟨i, List.getElem?_set_self hi⟩
    · exact ⟨j, (List.getElem?_set_ne (Ne.symm hji)).trans hj⟩

omit [DecidableEq α] in
/-- What none of its characters stands in does not help to spell it. -/
theorem infix_left_of_append {needle xs ys : List α} (h : needle <:+: xs ++ ys)
    (hys : ∀ y ∈ ys, y ∉ needle) (hne : needle ≠ []) : needle <:+: xs := by
  obtain hx | hy | ⟨l₁, l₂, rfl, hl₁, hl₂⟩ := List.infix_append_iff.mp h
  · exact hx
  · obtain ⟨a, needle, rfl⟩ := List.exists_cons_of_ne_nil hne
    exact absurd List.mem_cons_self (hys a (hy.subset List.mem_cons_self))
  · cases l₂ with
    | nil =>
      rw [List.append_nil]
      exact hl₁.isInfix
    | cons y l₂ =>
      exact absurd (List.mem_append_right l₁ List.mem_cons_self)
        (hys y (hl₂.subset List.mem_cons_self))

/-! ## Words -/

omit [DecidableEq α]
variable {space : α → Bool}

def word (space : α → Bool) (t : List α) : List α :=
  (t.dropWhile space).takeWhile fun a => !space a

theorem space_of_mem_word {t : List α} {a : α} (h : a ∈ word space t) : space a = false := by
  simpa using List.mem_takeWhile_imp h

theorem word_subset (t : List α) : word space t ⊆ t :=
  fun _ ha => (List.dropWhile_sublist space).subset (List.takeWhile_subset _ ha)

/-- A text is white space, its word, and a rest that does not go on with the word. -/
theorem exists_word (space : α → Bool) (t : List α) : ∃ blanks rest,
    t = blanks ++ word space t ++ rest ∧ (∀ b ∈ blanks, space b = true) ∧
      ∀ b ∈ rest.head?, space b = true := by
  refine ⟨t.takeWhile space, (t.dropWhile space).dropWhile fun a => !space a, ?_,
    fun b hb => List.mem_takeWhile_imp hb, fun b hb => ?_⟩
  · unfold word
    rw [List.append_assoc, List.takeWhile_append_dropWhile, List.takeWhile_append_dropWhile]
  · have hnot := List.head?_dropWhile_not (fun a => !space a) (t.dropWhile space)
    rw [hb] at hnot
    simpa using hnot

theorem word_append {blanks w rest : List α} (hblanks : ∀ b ∈ blanks, space b = true)
    (hw : ∀ a ∈ w, space a = false) (hne : w ≠ []) (hrest : ∀ b ∈ rest.head?, space b = true) :
    word space (blanks ++ w ++ rest) = w := by
  have hstop : rest.takeWhile (fun a => !space a) = [] := by
    cases rest with
    | nil => rfl
    | cons b rest => exact List.takeWhile_cons_of_neg (by simp [hrest b rfl])
  obtain ⟨a, w', rfl⟩ := List.exists_cons_of_ne_nil hne
  unfold word
  rw [List.append_assoc, List.dropWhile_append_of_pos hblanks, List.cons_append,
    List.dropWhile_cons_of_neg (by simp [hw a List.mem_cons_self]), ← List.cons_append,
    List.takeWhile_append_of_pos fun b hb => by simp [hw b hb], hstop, List.append_nil]

/-! ## Strings one after another -/

/-- Each text with its terminator. -/
def strings (nul : α) (ts : List (List α)) : List α := ts.flatMap (· ++ [nul])

theorem strings_append (nul : α) (ts us : List (List α)) :
    strings nul (ts ++ us) = strings nul ts ++ strings nul us := List.flatMap_append

theorem strings_concat (nul : α) (ts : List (List α)) (t : List α) :
    strings nul (ts ++ [t]) = strings nul ts ++ (t ++ [nul]) :=
  (strings_append nul ts [t]).trans (congrArg (strings nul ts ++ ·) (List.flatMap_singleton _ t))

/-- The first string of an array, and where the others begin. -/
theorem text_strings [DecidableEq α] {nul : α} {t buf : List α} {ts : List (List α)}
    (h : strings nul (t :: ts) <+: buf) (ht : nul ∉ t) :
    text nul buf = t ∧ strings nul ts <+: buf.drop (t.length + 1) := by
  obtain ⟨rest, rfl⟩ := h
  have hsplit : strings nul (t :: ts) ++ rest = t ++ nul :: (strings nul ts ++ rest) := by
    unfold strings
    rw [List.flatMap_cons, List.append_assoc, List.append_assoc, List.singleton_append]
  rw [hsplit]
  refine ⟨text_append_nul ht _, ?_⟩
  rw [List.drop_append, List.drop_eq_nil_of_le (Nat.le_succ _), Nat.add_sub_cancel_left,
    List.drop_succ_cons, List.drop_zero, List.nil_append]
  exact List.prefix_append _ _

/-- A store right behind what an array is known to begin with. -/
theorem concat_prefix_set {l buf : List α} (h : l <+: buf) (hlt : l.length < buf.length) (a : α) :
    l ++ [a] <+: buf.set l.length a := by
  obtain ⟨rest, rfl⟩ := h
  rw [List.length_append] at hlt
  cases rest with
  | nil => exact absurd hlt (Nat.lt_irrefl _)
  | cons b rest =>
    rw [List.set_append_right _ _ (Nat.le_refl _), Nat.sub_self, List.set_cons_zero]
    exact ⟨rest, by rw [List.append_assoc, List.singleton_append]⟩

end ControlRTT.Lib.CString
