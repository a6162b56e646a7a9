import ControlRTT.Components.MountTable
import ControlRTT.Lib.PathStack

/-! # The components of a normalised path (dfs.c)

The loop of `dfs_normalize_path` goes from component to component (`normalizeFrom_path`). The slash
at the beginning of a path counts as something that can be gone back over, and then the path has no
slash at its beginning any more. -/
namespace ControlRTT.Components.NormalizedPath
open Lib.PathStack MountTable

/-! ## Components -/

/-- The components as the loop takes them: the slash of the root is gone back over once. -/
def walk : Bool → List Path → List Path → Option (Bool × List Path)
  | root, stack, [] => some (root, stack)
  | root, stack, part :: parts =>
    if part = ['.'] then walk root stack parts
    else if part = ['.', '.'] then
      match stack with
      | [] => if root then walk false [] parts else none
      | _ :: stack => walk root stack parts
    else walk root (part :: stack) parts

/-- What has been written then, last character first. -/
def wrote (root : Bool) : List Path → List Char
  | [] => if root then ['/'] else []
  | name :: stack => '/' :: (name.reverse ++ wrote root stack)

section
variable {root : Bool} {stack parts : List Path} {dst name rest : List Char}

theorem walk_of_zero
    (h : overshoots ['.'] ['.', '.'] stack parts = 0) :
    walk root stack parts = (resolve ['.'] ['.', '.'] stack parts).map fun st => (root, st) := by
  induction parts generalizing stack with
  | nil => rfl
  | cons part parts ih =>
    unfold overshoots at h
    unfold walk resolve
    split
    · rename_i hdot
      rw [if_pos hdot] at h
      exact ih h
    · rename_i hdot
      rw [if_neg hdot] at h
      split
      · rename_i hdotdot
        rw [if_pos hdotdot] at h
        cases stack with
        | nil => cases h
        | cons name stack => exact ih h
      · rename_i hdotdot
        rw [if_neg hdotdot] at h
        exact ih h

theorem walk_false_of_pos (h : 0 < overshoots ['.'] ['.', '.'] stack parts) :
    walk false stack parts = none := by
  induction parts generalizing stack with
  | nil => cases h
  | cons part parts ih =>
    unfold overshoots at h
    unfold walk
    split
    · rename_i hdot
      rw [if_pos hdot] at h
      exact ih h
    · rename_i hdot
      rw [if_neg hdot] at h
      split
      · rename_i hdotdot
        rw [if_pos hdotdot] at h
        cases stack with
        | nil => rfl
        | cons name stack => exact ih h
      · rename_i hdotdot
        rw [if_neg hdotdot] at h
        exact ih h

/-- Going back over the root once leaves no slash, and twice is refused. -/
theorem walk_true_of_pos (h : 0 < overshoots ['.'] ['.', '.'] stack parts) :
    (overshoots ['.'] ['.', '.'] stack parts = 1 → ∃ st, walk true stack parts = some (false, st)) ∧
      (1 < overshoots ['.'] ['.', '.'] stack parts → walk true stack parts = none) := by
  induction parts generalizing stack with
  | nil => cases h
  | cons part parts ih =>
    unfold overshoots at h ⊢
    unfold walk
    split
    · rename_i hdot
      rw [if_pos hdot] at h
      exact ih h
    · rename_i hdot
      rw [if_neg hdot] at h
      split
      · rename_i hdotdot
        rw [if_pos hdotdot] at h
        cases stack with
        | nil =>
          refine ⟨fun hone => ?_, fun hmore => walk_false_of_pos (Nat.lt_of_succ_lt_succ hmore)⟩
          have hzero := Nat.succ.inj hone
          cases hresolve : resolve ['.'] ['.', '.'] [] parts with
          | none =>
            rw [resolve_eq_none_iff, hzero] at hresolve
            cases hresolve
          | some st =>
            refine ⟨st, (walk_of_zero hzero).trans ?_⟩
            rw [hresolve]
            rfl
        | cons name stack => exact ih h
      · rename_i hdotdot
        rw [if_neg hdotdot] at h
        exact ih h

/-! ## The characters -/

theorem wrote_cons (root : Bool) (name : Path) (stack : List Path) :
    wrote root (name :: stack) = '/' :: (name.reverse ++ wrote root stack) := rfl

theorem normalizeFrom_slash : normalizeFrom .behindSlash dst ('/' :: rest) =
    normalizeFrom .behindSlash dst rest := by
  rw [normalizeFrom.eq_def]
  rfl

theorem normalizeFrom_name_slash : normalizeFrom .inName dst ('/' :: rest) =
    normalizeFrom .behindSlash ('/' :: dst) rest := by
  rw [normalizeFrom.eq_def]
  rfl

theorem normalizeFrom_nil (place : Place) : normalizeFrom place dst [] = some dst := by
  rw [normalizeFrom.eq_def]

/-- A character of a name, where it is not a dot at its beginning. -/
theorem normalizeFrom_char {place : Place} {c : Char} (hslash : c ≠ '/')
    (hdot : place ≠ .inName → c ≠ '.') :
    normalizeFrom place dst (c :: rest) = normalizeFrom .inName (c :: dst) rest := by
  rw [normalizeFrom.eq_def]
  simp only [if_neg hslash]
  rw [if_neg fun h => hdot h.1 h.2]

/-- A name is copied to its end. -/
theorem normalizeFrom_inName (hname : '/' ∉ name) :
    normalizeFrom .inName dst (name ++ rest) =
      normalizeFrom .inName (name.reverse ++ dst) rest := by
  induction name generalizing dst with
  | nil => rfl
  | cons c name ih =>
    rw [List.mem_cons, not_or] at hname
    rw [List.cons_append, normalizeFrom_char (Ne.symm hname.1) fun h => absurd rfl h, ih hname.2]
    simp

/-- What may follow a name. -/
def Behind (rest : List Char) : Prop := rest = [] ∨ ∃ later, rest = '/' :: later

theorem normalizeFrom_dot_dot (hrest : Behind rest) :
    normalizeFrom .behindSlash dst ('.' :: '.' :: rest) =
      (upOne dst).bind fun dst => normalizeFrom .behindSlash dst rest := by
  rw [normalizeFrom.eq_def]
  rcases hrest with rfl | ⟨later, rfl⟩
  · cases h : upOne dst <;> simp [h, normalizeFrom_nil]
  · simp [normalizeFrom_slash]

theorem normalizeFrom_dot (hrest : Behind rest) :
    normalizeFrom .behindSlash dst ('.' :: rest) = normalizeFrom .behindSlash dst rest := by
  rw [normalizeFrom.eq_def]
  rcases hrest with rfl | ⟨later, rfl⟩
  · simp [normalizeFrom_nil]
  · simp [normalizeFrom_slash]

/-- Any other component is copied. -/
theorem normalizeFrom_name (hname : '/' ∉ name) (hne : name ≠ []) (hdot : name ≠ ['.'])
    (hdotdot : name ≠ ['.', '.']) :
    normalizeFrom .behindSlash dst (name ++ rest) =
      normalizeFrom .inName (name.reverse ++ dst) rest := by
  obtain ⟨c, name, rfl⟩ := List.exists_cons_of_ne_nil hne
  rw [List.mem_cons, not_or] at hname
  have hcopy : normalizeFrom .behindSlash dst (c :: (name ++ rest)) =
      normalizeFrom .inName (c :: dst) (name ++ rest) := by
    by_cases hc : c = '.'
    · subst hc
      have hne : name ≠ [] := fun hnil => hdot (by rw [hnil])
      obtain ⟨d, name, rfl⟩ := List.exists_cons_of_ne_nil hne
      rw [List.mem_cons, not_or] at hname
      rw [normalizeFrom.eq_def]
      dsimp only
      rw [if_neg (by decide), if_pos ⟨by decide, rfl⟩]
      split
      · rename_i heq
        cases heq
      · rename_i src heq
        exact absurd (List.cons.inj heq).1 (Ne.symm hname.2.1)
      · rename_i heq
        obtain ⟨rfl, hnil⟩ := List.cons.inj heq
        exact absurd (by rw [(List.append_eq_nil_iff.mp hnil).1]) hdotdot
      · rename_i src heq
        obtain ⟨rfl, htail⟩ := List.cons.inj heq
        cases name with
        | nil => exact absurd rfl hdotdot
        | cons e name => exact absurd (by simp [(List.cons.inj htail).1]) hname.2.2
      · rfl
    · exact normalizeFrom_char (Ne.symm hname.1) fun _ => hc
  rw [List.cons_append, hcopy, normalizeFrom_inName hname.2]
  simp

/-! ## What has been written -/

theorem slash_head_wrote (root : Bool) (stack : List Path) :
    (wrote root stack).dropWhile (· ≠ '/') = wrote root stack := by
  cases stack with
  | nil => cases root <;> simp [wrote]
  | cons name stack => simp [wrote]

/-- Going back takes the last name away. -/
theorem upOne_wrote_cons (hname : '/' ∉ name) :
    upOne (wrote root (name :: stack)) = some (wrote root stack) := by
  have hall : ∀ c ∈ name.reverse, decide (c ≠ '/') = true := by
    intro c hc
    refine decide_eq_true fun heq => hname ?_
    rw [← heq]
    exact List.mem_reverse.mp hc
  change some ((name.reverse ++ wrote root stack).dropWhile (· ≠ '/')) = _
  rw [List.dropWhile_append_of_pos hall, slash_head_wrote]

theorem upOne_root : upOne (wrote true []) = some (wrote false []) := rfl

/-- A slash behind the last name goes. -/
theorem endPath_slash {c : Char} : endPath ('/' :: c :: dst) = (c :: dst).reverse := by
  simp [endPath]

theorem endPath_name {c : Char} (hc : c ≠ '/') : endPath (c :: dst) = (c :: dst).reverse := by
  simp [endPath, hc]

theorem endPath_wrote_cons (hname : '/' ∉ name) (hne : name ≠ []) :
    endPath (wrote root (name :: stack)) = (wrote root stack).reverse ++ name ∧
      endPath (name.reverse ++ wrote root stack) = (wrote root stack).reverse ++ name := by
  obtain ⟨c, rev, hrev⟩ := List.exists_cons_of_ne_nil (List.reverse_ne_nil_iff.mpr hne)
  have hc : c ≠ '/' := fun heq => hname (List.mem_reverse.mp (by rw [hrev, heq]; simp))
  have hname : name = (c :: rev).reverse := by rw [← hrev, List.reverse_reverse]
  rw [wrote_cons, hrev, List.cons_append, endPath_slash, endPath_name hc, hname]
  simp

/-- The path is the one of the components in the order in which they were written. -/
theorem reverse_wrote (root : Bool) (stack : List Path) : (wrote root stack).reverse =
    (if root then ['/'] else []) ++ stack.reverse.flatMap (· ++ ['/']) := by
  induction stack with
  | nil => cases root <;> rfl
  | cons name stack ih =>
    rw [wrote_cons, List.reverse_cons, List.reverse_append, ih]
    simp

theorem endPath_wrote_true (hstack : ∀ part ∈ stack, '/' ∉ part ∧ part ≠ []) :
    endPath (wrote true stack) = pathOf '/' stack.reverse := by
  cases stack with
  | nil => rfl
  | cons name stack =>
    obtain ⟨hname, hne⟩ := hstack name List.mem_cons_self
    rw [(endPath_wrote_cons hname hne).1, reverse_wrote, List.reverse_cons, pathOf,
      intercalate_concat]
    simp

/-- Without the slash of the root a path is empty, which gives the root, or begins with a name. -/
theorem head_endPath_wrote_false (hstack : ∀ part ∈ stack, '/' ∉ part ∧ part ≠ [])
    (hne : stack ≠ []) : (endPath (wrote false stack)).head? ≠ some '/' := by
  obtain ⟨name, stack, rfl⟩ := List.exists_cons_of_ne_nil hne
  obtain ⟨hname, hnil⟩ := hstack name List.mem_cons_self
  rw [(endPath_wrote_cons hname hnil).1, reverse_wrote]
  have hfirst : ∀ part : Path, '/' ∉ part → part ≠ [] → ∀ tail,
      (part ++ tail).head? ≠ some '/' := by
    intro part hpart hne tail
    obtain ⟨c, part, rfl⟩ := List.exists_cons_of_ne_nil hne
    rw [List.cons_append, List.head?_cons]
    exact fun heq => hpart (by simp [Option.some.inj heq])
  cases hrev : stack.reverse with
  | nil => simpa using hfirst name hname hnil []
  | cons part parts =>
    have hmem : part ∈ stack := List.mem_reverse.mp (hrev ▸ List.mem_cons_self)
    obtain ⟨hpart, hpartne⟩ := hstack part (List.mem_cons_of_mem _ hmem)
    simp only [Bool.false_eq_true, ↓reduceIte, List.nil_append, List.flatMap_cons,
      List.append_assoc]
    exact hfirst part hpart hpartne _

/-! ## The loop on components -/

/-- Whether anything has been written at the end of the loop, and the path. -/
def ending (out : List Char) : Bool × Path := (decide (out ≠ []), endPath out)

theorem components_behind (hname : '/' ∉ name) (hne : name ≠ []) (hrest : Behind rest) :
    components '/' (name ++ rest) = name :: components '/' rest := by
  rcases hrest with rfl | ⟨later, rfl⟩
  · rw [List.append_nil, components_name hname hne, components_nil]
  · rw [components_append_sep hname hne, components_sep_cons]

/-- What is up to the first slash. -/
theorem exists_behind (rest : List Char) :
    ∃ name tail, rest = name ++ tail ∧ '/' ∉ name ∧ Behind tail := by
  by_cases h : '/' ∈ rest
  · obtain ⟨name, later, rfl, hname⟩ := List.eq_append_cons_of_mem h
    exact ⟨name, '/' :: later, rfl, hname, .inr ⟨later, rfl⟩⟩
  · exact ⟨rest, [], (List.append_nil _).symm, h, .inl rfl⟩

/-- The loop takes a path component by component. -/
theorem normalizeFrom_components (n : Nat) (hn : rest.length ≤ n)
    (hstack : ∀ part ∈ stack, '/' ∉ part ∧ part ≠ []) :
    (normalizeFrom .behindSlash (wrote root stack) rest).map ending =
      (walk root stack (components '/' rest)).map fun r => ending (wrote r.1 r.2) := by
  induction n generalizing rest root stack with
  | zero =>
    obtain rfl := List.eq_nil_of_length_eq_zero (Nat.le_zero.mp hn)
    rw [normalizeFrom_nil, components_nil]
    rfl
  | succ n ih =>
    obtain ⟨name, tail, rfl, hname, htail⟩ := exists_behind rest
    by_cases hne : name = []
    · subst hne
      rcases htail with rfl | ⟨later, rfl⟩
      · rw [List.append_nil, normalizeFrom_nil, components_nil]
        rfl
      · rw [List.nil_append, normalizeFrom_slash, components_sep_cons]
        exact ih (Nat.le_of_succ_le_succ hn) hstack
    · rw [components_behind hname hne htail]
      have hlen : tail.length ≤ n := by
        have hpos := List.length_pos_of_ne_nil hne
        rw [List.length_append] at hn
        omega
      unfold walk
      by_cases hdot : name = ['.']
      · subst hdot
        rw [if_pos rfl, List.singleton_append, normalizeFrom_dot htail]
        exact ih hlen hstack
      · rw [if_neg hdot]
        by_cases hdotdot : name = ['.', '.']
        · subst hdotdot
          rw [if_pos rfl, List.cons_append, List.singleton_append, normalizeFrom_dot_dot htail]
          cases stack with
          | nil =>
            cases root with
            | false => rfl
            | true =>
              have hnext : (normalizeFrom .behindSlash (wrote false []) tail).map ending = _ :=
                ih hlen hstack
              rw [upOne_root]
              exact hnext
          | cons top stack =>
            rw [upOne_wrote_cons (hstack top List.mem_cons_self).1]
            exact ih hlen fun part hpart => hstack part (List.mem_cons_of_mem _ hpart)
        · rw [if_neg hdotdot, normalizeFrom_name hname hne hdot hdotdot]
          rcases htail with rfl | ⟨later, rfl⟩
          · obtain ⟨hslash, hnone⟩ : endPath (wrote root (name :: stack)) = _ ∧ _ :=
              endPath_wrote_cons hname hne
            rw [normalizeFrom_nil, components_nil]
            simp only [walk, Option.map_some, ending, hnone, hslash]
            simp [wrote_cons, hne]
          · rw [normalizeFrom_name_slash, components_sep_cons]
            have hnext : ∀ part ∈ name :: stack, '/' ∉ part ∧ part ≠ [] :=
              List.forall_mem_cons.mpr ⟨⟨hname, hne⟩, hstack⟩
            exact ih (Nat.le_of_succ_le hlen) hnext

theorem normalizeFrom_beginning (hhead : rest.head? ≠ some '/') :
    normalizeFrom .beginning dst rest = normalizeFrom .behindSlash dst rest := by
  cases rest with
  | nil => rw [normalizeFrom_nil, normalizeFrom_nil]
  | cons c rest =>
    have hc : c ≠ '/' := fun heq => hhead (by rw [heq]; rfl)
    rw [normalizeFrom.eq_def, normalizeFrom.eq_def .behindSlash]
    simp [hc]

theorem normalizeFrom_root :
    normalizeFrom .beginning dst ('/' :: rest) = normalizeFrom .behindSlash ('/' :: dst) rest := by
  rw [normalizeFrom.eq_def]
  rfl

/-- The loop on the components of a path. -/
theorem normalizeFrom_path (fullpath : Path) :
    (normalizeFrom .beginning [] fullpath).map ending =
      (walk (fullpath.head? = some '/') [] (components '/' fullpath)).map
        fun r => ending (wrote r.1 r.2) := by
  have hnil : ∀ part ∈ ([] : List Path), '/' ∉ part ∧ part ≠ [] := fun _ hmem => by cases hmem
  have hall : ∀ (root : Bool) (rest : List Char),
      (normalizeFrom .behindSlash (wrote root []) rest).map ending =
        (walk root [] (components '/' rest)).map fun r => ending (wrote r.1 r.2) :=
    fun root rest => normalizeFrom_components rest.length (Nat.le_refl _) hnil
  by_cases hhead : fullpath.head? = some '/'
  · obtain ⟨rest, rfl⟩ := List.head?_eq_some_iff.mp hhead
    rw [normalizeFrom_root, components_sep_cons, decide_eq_true hhead]
    exact hall true rest
  · rw [normalizeFrom_beginning hhead, decide_eq_false hhead]
    exact hall false fullpath

theorem normalizeFrom_skip (dst rest : List Char) :
    normalizeFrom .behindSlash dst (rest.dropWhile (· = '/')) =
      normalizeFrom .behindSlash dst rest := by
  induction rest with
  | nil => rfl
  | cons c rest ih =>
    by_cases hc : c = '/'
    · subst hc
      rw [List.dropWhile_cons_of_pos (by simp), ih, normalizeFrom_slash]
    · rw [List.dropWhile_cons_of_neg (by simp [hc])]

end

/-! ## The path of the components -/

/-- The components lead to a path. -/
def canonical (fullpath : Path) : Option Path :=
  (resolve ['.'] ['.', '.'] [] (components '/' fullpath)).map fun stack => pathOf '/' stack.reverse

/-- The path begins with a slash, none of its components is `.` or `..`, and none is empty. -/
def Canonical (p : Path) : Prop :=
  p.head? = some '/' ∧ ¬ ['/', '/'] <:+: p ∧
    ∀ part ∈ components '/' p, part ≠ ['.'] ∧ part ≠ ['.', '.']

/-- What a component is once the path is normalised. -/
def IsName (part : Path) : Prop := ('/' ∉ part ∧ part ≠ []) ∧ part ≠ ['.'] ∧ part ≠ ['.', '.']

/-- The paths that are normalised. -/
def Normal (p : Path) : Prop := ∃ parts, (∀ part ∈ parts, IsName part) ∧ p = pathOf '/' parts

/-- How often `..` has nothing but the root to go back over; the root is missing if the path does
not begin with a slash. -/
def missing (fullpath : Path) : Nat :=
  (if fullpath.head? = some '/' then 0 else 1) +
    overshoots ['.'] ['.', '.'] [] (components '/' fullpath)

section
variable {fullpath : Path} {stack parts : List Path}

theorem of_mem_walk {root root' : Bool} {stack' : List Path} {name : Path}
    (h : walk root stack parts = some (root', stack')) (hmem : name ∈ stack') :
    name ∈ stack ∨ name ∈ parts := by
  induction parts generalizing root stack with
  | nil =>
    obtain ⟨-, rfl⟩ := Prod.mk.inj (Option.some.inj h)
    exact .inl hmem
  | cons part parts ih =>
    unfold walk at h
    split at h
    · exact (ih h).imp_right (List.mem_cons_of_mem _)
    · split at h
      · cases stack with
        | nil =>
          dsimp only at h
          split at h
          · exact (ih h).imp_right (List.mem_cons_of_mem _)
          · cases h
        | cons top stack =>
          exact (ih h).imp (List.mem_cons_of_mem _) (List.mem_cons_of_mem _)
      · rcases ih h with hstack | hparts
        · rcases List.mem_cons.mp hstack with rfl | hstack
          · exact .inr List.mem_cons_self
          · exact .inl hstack
        · exact .inr (List.mem_cons_of_mem _ hparts)

/-- The three ways of a path through the loop. -/
theorem walk_cases (fullpath : Path) :
    (missing fullpath = 0 ∧ ∃ st, resolve ['.'] ['.', '.'] [] (components '/' fullpath) = some st ∧
      walk (fullpath.head? = some '/') [] (components '/' fullpath) = some (true, st)) ∨
    (missing fullpath = 1 ∧ ∃ st,
      walk (fullpath.head? = some '/') [] (components '/' fullpath) = some (false, st)) ∨
    (1 < missing fullpath ∧ resolve ['.'] ['.', '.'] [] (components '/' fullpath) = none ∧
      walk (fullpath.head? = some '/') [] (components '/' fullpath) = none) := by
  unfold missing
  rcases Nat.eq_zero_or_pos (overshoots ['.'] ['.', '.'] [] (components '/' fullpath)) with
    hzero | hpos
  · have hwalk : ∀ root, walk root [] (components '/' fullpath) = _ := fun _ => walk_of_zero hzero
    cases hresolve : resolve ['.'] ['.', '.'] [] (components '/' fullpath) with
    | none =>
      rw [resolve_eq_none_iff, hzero] at hresolve
      cases hresolve
    | some st =>
      rw [hzero]
      by_cases hhead : fullpath.head? = some '/'
      · refine .inl ⟨by rw [if_pos hhead], st, rfl, ?_⟩
        rw [hwalk, hresolve, decide_eq_true hhead]
        rfl
      · refine .inr (.inl ⟨by rw [if_neg hhead], st, ?_⟩)
        rw [hwalk, hresolve, decide_eq_false hhead]
        rfl
  · have hresolve := resolve_eq_none_iff.mpr hpos
    by_cases hhead : fullpath.head? = some '/'
    · rw [if_pos hhead, Nat.zero_add, decide_eq_true hhead]
      obtain ⟨hone, hmore⟩ := walk_true_of_pos hpos
      rcases Nat.eq_or_lt_of_le (Nat.succ_le_of_lt hpos) with heq | hlt
      · exact .inr (.inl ⟨heq.symm, hone heq.symm⟩)
      · exact .inr (.inr ⟨hlt, hresolve, hmore hlt⟩)
    · rw [if_neg hhead, decide_eq_false hhead]
      exact .inr (.inr ⟨by omega, hresolve, walk_false_of_pos hpos⟩)

theorem names_of_resolve {st : List Path}
    (h : resolve ['.'] ['.', '.'] [] (components '/' fullpath) = some st) :
    ∀ part ∈ st.reverse, IsName part := by
  intro part hpart
  rcases of_mem_resolve h (List.mem_reverse.mp hpart) with hnone | ⟨hmem, hdots⟩
  · cases hnone
  · exact ⟨of_mem_components hmem, hdots⟩

theorem canonical_pathOf (hparts : ∀ part ∈ parts, IsName part) :
    Canonical (pathOf '/' parts) := by
  have hnames : ∀ part ∈ parts, '/' ∉ part ∧ part ≠ [] := fun part hpart => (hparts part hpart).1
  refine ⟨rfl, not_infix_pathOf hnames, ?_⟩
  rw [components_pathOf hnames]
  exact fun part hpart => (hparts part hpart).2

/-- The components of a path of names are taken as they are. -/
theorem walk_pathOf (hparts : ∀ part ∈ parts, IsName part) :
    walk ((pathOf '/' parts).head? = some '/') [] (components '/' (pathOf '/' parts)) =
      some (true, parts.reverse) := by
  have hresolve : resolve ['.'] ['.', '.'] [] parts = some parts.reverse := by
    rw [resolve_names fun part hpart => (hparts part hpart).2, List.append_nil]
  have hzero : overshoots ['.'] ['.', '.'] [] parts = 0 := by
    refine Nat.eq_zero_of_not_pos fun hpos => ?_
    rw [resolve_eq_none_iff.mpr hpos] at hresolve
    cases hresolve
  rw [components_pathOf fun part hpart => (hparts part hpart).1, walk_of_zero hzero, hresolve]
  rfl

/-! ## Normalised paths -/

theorem part_of_walk {root : Bool} (h : walk (fullpath.head? = some '/') []
    (components '/' fullpath) = some (root, stack)) : ∀ part ∈ stack, '/' ∉ part ∧ part ≠ [] := by
  intro part hpart
  rcases of_mem_walk h hpart with hnone | hmem
  · cases hnone
  · exact of_mem_components hmem

theorem endPath_of_normalizeFrom {out : List Char}
    (h : normalizeFrom .beginning [] fullpath = some out) : ∃ root st,
      walk (fullpath.head? = some '/') [] (components '/' fullpath) = some (root, st) ∧
        endPath out = endPath (wrote root st) := by
  have hpath := normalizeFrom_path fullpath
  rw [h, Option.map_some] at hpath
  obtain ⟨⟨root, st⟩, hwalk, hending⟩ := Option.map_eq_some_iff.mp hpath.symm
  exact ⟨root, st, hwalk, (congrArg Prod.snd hending).symm⟩

/-- What is returned is normalised, or relative. -/
theorem normal_of_normalize {wd : Option Path} {memory : Bool} {filename p : Path}
    (h : dfsNormalizePath wd memory filename = some p) (hhead : p.head? = some '/') : Normal p := by
  unfold dfsNormalizePath at h
  obtain ⟨-, h⟩ := Option.ite_none_right_eq_some.mp h
  obtain ⟨out, hbind, rfl⟩ := Option.map_eq_some_iff.mp h
  obtain ⟨full, -, hout⟩ := Option.bind_eq_some_iff.mp hbind
  obtain ⟨root, st, hwalk, hend⟩ := endPath_of_normalizeFrom hout
  have hstack := part_of_walk hwalk
  rw [hend] at hhead ⊢
  rcases walk_cases full with ⟨-, st', hresolve, hwalk'⟩ | ⟨-, st', hwalk'⟩ | ⟨-, -, hwalk'⟩
  · obtain ⟨rfl, rfl⟩ := Prod.mk.inj (Option.some.inj (hwalk.symm.trans hwalk'))
    exact ⟨_, names_of_resolve hresolve, endPath_wrote_true hstack⟩
  · obtain ⟨rfl, rfl⟩ := Prod.mk.inj (Option.some.inj (hwalk.symm.trans hwalk'))
    by_cases hne : st = []
    · subst hne
      exact ⟨[], fun _ hmem => (by cases hmem), rfl⟩
    · exact absurd hhead (head_endPath_wrote_false hstack hne)
  · rw [hwalk] at hwalk'
    cases hwalk'

/-- A normalised path is left as it is. -/
theorem Normal.normalize {p : Path} (h : Normal p) (wd : Option Path) :
    dfsNormalizePath wd true p = some p := by
  obtain ⟨parts, hparts, rfl⟩ := h
  have hpath := normalizeFrom_path (pathOf '/' parts)
  rw [walk_pathOf hparts] at hpath
  obtain ⟨out, hout, hending⟩ := Option.map_eq_some_iff.mp hpath
  have hnames : ∀ part ∈ parts.reverse, '/' ∉ part ∧ part ≠ [] := fun part hpart =>
    (hparts part (List.mem_reverse.mp hpart)).1
  have hend : endPath out = pathOf '/' parts := by
    rw [show endPath out = endPath (wrote true parts.reverse) from congrArg Prod.snd hending,
      endPath_wrote_true hnames, List.reverse_reverse]
  unfold dfsNormalizePath
  have hhead : (pathOf '/' parts).head? = some '/' := rfl
  rw [if_pos hhead, if_pos rfl, Option.bind_some, hout, Option.map_some, hend]

theorem Normal.head {p : Path} (h : Normal p) : p.head? = some '/' := by
  obtain ⟨parts, -, rfl⟩ := h
  rfl

theorem Normal.not_infix {p : Path} (h : Normal p) : ¬ ['/', '/'] <:+: p := by
  obtain ⟨parts, hparts, rfl⟩ := h
  exact not_infix_pathOf fun part hpart => (hparts part hpart).1

/-- Only the root ends with a slash. -/
theorem Normal.getLast {p : Path} (h : Normal p) (hroot : p ≠ ['/']) : p.getLast? ≠ some '/' := by
  obtain ⟨parts, hparts, rfl⟩ := h
  refine getLast_pathOf (fun part hpart => (hparts part hpart).1) ?_
  rintro rfl
  exact hroot rfl

end

end ControlRTT.Components.NormalizedPath
