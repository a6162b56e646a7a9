import Mathlib.Data.List.Infix

/-! # Paths as components

The components of a path are what stands between its separators. They are taken one after the other:
one means the place itself, one goes back by one component, which leaves the root if there is none,
and the others go on. -/
namespace ControlRTT.Lib.PathStack
variable {α : Type} [DecidableEq α]

def components (sep : α) (path : List α) : List (List α) := (path.splitOn sep).filter (· ≠ [])

/-- The components, behind the root. -/
def pathOf (sep : α) (parts : List (List α)) : List α := sep :: [sep].intercalate parts

/-- Where the components lead to, the last component first; `none` if they leave the root. -/
def resolve (dot dotdot : List α) : List (List α) → List (List α) → Option (List (List α))
  | stack, [] => some stack
  | stack, part :: parts =>
    if part = dot then resolve dot dotdot stack parts
    else if part = dotdot then
      match stack with
      | [] => none
      | _ :: stack => resolve dot dotdot stack parts
    else resolve dot dotdot (part :: stack) parts

/-- How often they leave the root, if they go on from there. -/
def overshoots (dot dotdot : List α) : List (List α) → List (List α) → Nat
  | _, [] => 0
  | stack, part :: parts =>
    if part = dot then overshoots dot dotdot stack parts
    else if part = dotdot then
      match stack with
      | [] => overshoots dot dotdot [] parts + 1
      | _ :: stack => overshoots dot dotdot stack parts
    else overshoots dot dotdot (part :: stack) parts

variable {sep : α} {dot dotdot path name : List α} {stack parts : List (List α)}

/-! ## Components -/

@[simp] theorem components_nil : components sep [] = [] := by simp [components, List.splitOn]

@[simp] theorem components_sep_cons (path : List α) :
    components sep (sep :: path) = components sep path := by
  simp [components, List.splitOn_cons_eq_if_modifyHead]

theorem components_append_sep (hname : sep ∉ name) (hne : name ≠ []) (path : List α) :
    components sep (name ++ sep :: path) = name :: components sep path := by
  simp [components, List.splitOn_append_cons_self_of_not_mem hname, hne]

theorem components_name (hname : sep ∉ name) (hne : name ≠ []) : components sep name = [name] := by
  simp [components, List.splitOn_eq_singleton hname, hne]

theorem sep_notMem_of_mem_splitOn (h : name ∈ path.splitOn sep) : sep ∉ name := by
  induction path generalizing name with
  | nil =>
    have hnil : name = [] := by simpa [List.splitOn] using h
    rw [hnil]
    exact List.not_mem_nil
  | cons a path ih =>
    rw [List.splitOn_cons_eq_if_modifyHead] at h
    split at h
    · rcases List.mem_cons.mp h with rfl | h
      · exact List.not_mem_nil
      · exact ih h
    · rename_i hne
      obtain ⟨first, rest, hsplit⟩ := List.exists_cons_of_ne_nil (List.splitOn_ne_nil sep path)
      rw [hsplit, List.modifyHead_cons] at h
      rw [hsplit] at ih
      rcases List.mem_cons.mp h with rfl | h
      · rw [List.mem_cons, not_or]
        exact ⟨fun heq => hne (by simp [heq]), ih List.mem_cons_self⟩
      · exact ih (List.mem_cons_of_mem _ h)

theorem of_mem_components (h : name ∈ components sep path) : sep ∉ name ∧ name ≠ [] := by
  obtain ⟨hmem, hne⟩ := List.mem_filter.mp h
  exact ⟨sep_notMem_of_mem_splitOn hmem, by simpa using hne⟩

theorem splitOn_pathOf (hparts : ∀ part ∈ parts, sep ∉ part) (hne : parts ≠ []) :
    (pathOf sep parts).splitOn sep = [] :: parts := by
  rw [pathOf, List.splitOn_cons_eq_if_modifyHead, if_pos (beq_self_eq_true sep),
    List.splitOn_intercalate sep hparts hne]

/-- A path of names has these names. -/
theorem components_pathOf (hparts : ∀ part ∈ parts, sep ∉ part ∧ part ≠ []) :
    components sep (pathOf sep parts) = parts := by
  by_cases hnil : parts = []
  · subst hnil
    simp [pathOf]
  · rw [components, splitOn_pathOf (fun part h => (hparts part h).1) hnil]
    simpa using fun part h => (hparts part h).2

/-- A path of names has no separator next to another. -/
theorem not_infix_pathOf (hparts : ∀ part ∈ parts, sep ∉ part ∧ part ≠ []) :
    ¬ [sep, sep] <:+: pathOf sep parts := by
  rintro ⟨front, back, h⟩
  by_cases hnil : parts = []
  · subst hnil
    have hlen := congrArg List.length h
    simp [pathOf] at hlen
    omega
  · have hsplit := splitOn_pathOf (fun part hmem => (hparts part hmem).1) hnil
    have hfront : front ++ [sep, sep] ++ back = front ++ sep :: (sep :: back) := by simp
    rw [← h, hfront, List.splitOn_append_cons_self, List.splitOn_cons_eq_if_modifyHead,
      if_pos (beq_self_eq_true sep)] at hsplit
    obtain ⟨first, rest, hfirst⟩ := List.exists_cons_of_ne_nil (List.splitOn_ne_nil sep front)
    rw [hfirst, List.cons_append] at hsplit
    obtain ⟨-, hrest⟩ := List.cons.inj hsplit
    have hmem : [] ∈ parts := by
      rw [← hrest]
      exact List.mem_append_right _ List.mem_cons_self
    exact (hparts [] hmem).2 rfl

omit [DecidableEq α] in
theorem intercalate_concat (sep : α) (parts : List (List α)) (name : List α) :
    [sep].intercalate (parts ++ [name]) = parts.flatMap (· ++ [sep]) ++ name := by
  induction parts with
  | nil => simp
  | cons part parts ih =>
    cases parts with
    | nil => simp
    | cons next parts =>
      rw [List.cons_append, List.cons_append, List.intercalate_cons_cons, ← List.cons_append, ih]
      simp

omit [DecidableEq α] in
/-- Only the root ends with a separator. -/
theorem getLast_pathOf (hparts : ∀ part ∈ parts, sep ∉ part ∧ part ≠ []) (hne : parts ≠ []) :
    (pathOf sep parts).getLast? ≠ some sep := by
  have hsplit := List.dropLast_append_getLast hne
  obtain ⟨hsep, hname⟩ := hparts _ (List.getLast_mem hne)
  intro hlast
  rw [pathOf, ← hsplit, intercalate_concat, ← List.cons_append,
    List.getLast?_append_of_ne_nil _ hname] at hlast
  exact hsep (List.mem_of_getLast? hlast)

/-! ## Where components lead to -/

theorem resolve_eq_none_iff :
    resolve dot dotdot stack parts = none ↔ 0 < overshoots dot dotdot stack parts := by
  induction parts generalizing stack with
  | nil => simp [resolve, overshoots]
  | cons part parts ih =>
    unfold resolve overshoots
    split
    · exact ih
    · split
      · cases stack with
        | nil => simp
        | cons name stack => exact ih
      · exact ih

/-- Names lead to themselves. -/
theorem resolve_names (hparts : ∀ part ∈ parts, part ≠ dot ∧ part ≠ dotdot) :
    resolve dot dotdot stack parts = some (parts.reverse ++ stack) := by
  induction parts generalizing stack with
  | nil => rfl
  | cons part parts ih =>
    obtain ⟨hdot, hdotdot⟩ := hparts part List.mem_cons_self
    unfold resolve
    rw [if_neg hdot, if_neg hdotdot, ih fun p hp => hparts p (List.mem_cons_of_mem _ hp)]
    simp

theorem of_mem_resolve {stack' : List (List α)}
    (h : resolve dot dotdot stack parts = some stack') (hmem : name ∈ stack') :
    name ∈ stack ∨ name ∈ parts ∧ name ≠ dot ∧ name ≠ dotdot := by
  induction parts generalizing stack with
  | nil =>
    obtain rfl := Option.some.inj h
    exact .inl hmem
  | cons part parts ih =>
    unfold resolve at h
    split at h
    · exact (ih h).imp_right fun ⟨hin, hne⟩ => ⟨List.mem_cons_of_mem _ hin, hne⟩
    · rename_i hdot
      split at h
      · cases stack with
        | nil => cases h
        | cons top stack =>
          exact (ih h).imp (List.mem_cons_of_mem _) fun ⟨hin, hne⟩ =>
            ⟨List.mem_cons_of_mem _ hin, hne⟩
      · rename_i hdotdot
        rcases ih h with hin | ⟨hin, hne⟩
        · rcases List.mem_cons.mp hin with rfl | hin
          · exact .inr ⟨List.mem_cons_self, hdot, hdotdot⟩
          · exact .inl hin
        · exact .inr ⟨List.mem_cons_of_mem _ hin, hne⟩

end ControlRTT.Lib.PathStack
