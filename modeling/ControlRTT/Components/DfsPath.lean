import ControlRTT.Components.NormalizedPath
import ControlRTT.Lib.CString

/-! # Normalising a path in place (dfs.c)

`dfs_normalize_path` writes the path over the string that it reads it from: `dst` is never ahead of
`src`. The first slash of a path counts as something that can be gone back over, so one `..` that
leaves the root takes the slash away and is not refused; what follows is a relative path, and if
nothing follows, the byte before the string is looked at. Otherwise the path is the one that its
components lead to (`normalize_meets_iff`). The string has been allocated, and is as long as
`directory` and `filename` need. -/
namespace ControlRTT.Components.DfsPath
open Lib.CString Lib.PathStack MountTable NormalizedPath

def nul : Char := Char.ofNat 0

/-- A string in memory, without its terminator. -/
structure CPath where
  chars : Path
  nul_notMem : nul ∉ chars

/-! ## In memory -/

/-- The memory by its distance from `fullpath`, of which `size` bytes are the string's, with the two
pointers; `ok` says that nothing else has been read or written. -/
structure Work where
  buf : Int → Char
  size : Nat
  src : Nat := 0
  dst : Nat := 0
  ok : Bool := true

namespace Work

def touch (w : Work) (i : Int) : Work := { w with ok := w.ok && decide (0 ≤ i ∧ i < w.size) }

def store (w : Work) (i : Int) (c : Char) : Work :=
  { w.touch i with buf := Function.update w.buf i c }

/-- `*src++` -/
def next (w : Work) : Work := { w.touch w.src with src := w.src + 1 }

/-- `*dst++ = c` -/
def put (w : Work) (c : Char) : Work := { w.store w.dst c with dst := w.dst + 1 }

/-- `while ((c = *src++) != '\\0' && c != '/') *dst++ = c;`, and the last `c`. -/
def copyName : Nat → Work → Char × Work
  | 0, w => (nul, w)
  | n + 1, w =>
    let c := w.buf w.src
    if c ≠ nul ∧ c ≠ '/' then copyName n (w.next.put c) else (c, w.next)

/-- `while ((*src == '/') && (*src != '\\0')) src++;` -/
def skipSlashes : Nat → Work → Work
  | 0, w => w
  | n + 1, w => if w.buf w.src = '/' then skipSlashes n w.next else w.touch w.src

/-- `while (c == '/') c = *src++; src--;` -/
def skipPast : Nat → Work → Work
  | 0, w => w
  | n + 1, w =>
    if w.buf w.src = '/' then skipPast n w.next else { w.next with src := w.next.src - 1 }

/-- `while (dst0 < dst && dst[-1] != '/') dst--;` -/
def backUp (w : Work) : Nat → Work
  | 0 => { w with dst := 0 }
  | n + 1 => if w.buf n ≠ '/' then backUp (w.touch n) n else { w.touch n with dst := n + 1 }

/-- `up_one`; `none` if it returns `NULL`. -/
def up (w : Work) : Option Work := if w.dst = 0 then none else some (w.backUp (w.dst - 1))

end Work

/-- What the loop does behind its tests of `.`. -/
inductive Turn
  | copy (w : Work)
  | again (w : Work)
  | upOne (w : Work)

/-- The tests; the characters behind `src` are read one by one. -/
def Work.turn (w : Work) : Turn :=
  let w₀ := w.touch w.src
  if w.buf w.src = '.' then
    let w₁ := w₀.touch (w.src + 1)
    if w.buf (w.src + 1) = nul then .copy { w₁ with src := w.src + 1 }
    else if w.buf (w.src + 1) = '/' then .again (skipSlashes w.size { w₁ with src := w.src + 2 })
    else if w.buf (w.src + 1) = '.' then
      let w₂ := w₁.touch (w.src + 2)
      if w.buf (w.src + 2) = nul then .upOne { w₂ with src := w.src + 2 }
      else if w.buf (w.src + 2) = '/' then
        .upOne (skipSlashes w.size { w₂ with src := w.src + 3 })
      else .copy w₂
    else .copy w₁
  else .copy w₀

/-- How the loop ends: it returns `NULL`, or breaks. -/
inductive Ended
  | null (w : Work)
  | done (w : Work)

/-- The loop; `none` if it is out of fuel. -/
def normalizeLoop : Nat → Work → Option Ended
  | 0, _ => none
  | n + 1, w =>
    match w.turn with
    | .copy w =>
      let (c, w) := w.copyName w.size
      if c = '/' then normalizeLoop n ((w.put '/').skipPast w.size) else some (.done w)
    | .again w => normalizeLoop n w
    | .upOne w =>
      match w.up with
      | none => some (.null w)
      | some w => normalizeLoop n w

/-- `if ((dst != fullpath) && (*dst == '/')) *dst = '\\0';` -/
def Work.dropSlash (w : Work) (dst : Int) : Work :=
  if dst = 0 then w
  else if w.buf dst = '/' then (w.touch dst).store dst nul
  else w.touch dst

/-- The final check that `fullpath` is not empty. -/
def Work.orRoot (w : Work) : Work :=
  if w.buf 0 = nul then ((w.touch 0).store 0 '/').store 1 nul else w.touch 0

/-- What follows the loop. -/
def Work.finish (w : Work) : Work := ((w.store w.dst nul).dropSlash (w.dst - 1)).orRoot

/-- The string at `fullpath`. -/
def Work.string (w : Work) : Path := text nul ((List.range w.size).map fun i : Nat => w.buf i)

/-- `fullpath` in memory, where `around` is what else there is. -/
def Work.start (around : Int → Char) (fullpath : Path) : Work where
  buf := fun i => if 0 ≤ i ∧ i ≤ fullpath.length then fullpath.getD i.toNat nul else around i
  size := fullpath.length + 1

/-- `strdup(filename)`, or `directory` and `filename` joined. -/
def joined (directory filename : CPath) : Path :=
  if filename.chars.head? = some '/' then filename.chars
  else directory.chars ++ '/' :: filename.chars

/-- `dfs_normalize_path`: whether all that it read and wrote is in the string, and its result. -/
def normalizeInPlace (around : Int → Char) (fullpath : Path) : Option (Bool × Option Path) :=
  (normalizeLoop (fullpath.length + 2) (.start around fullpath)).map fun
    | .null w => (w.ok, none)
    | .done w => (w.finish.ok, some w.finish.string)

/-! ## The memory -/

/-- `out` has been written, last character first, and `rest` is still to be read. -/
structure Work.At (w : Work) (out rest : List Char) : Prop where
  ok : w.ok = true
  le : w.dst ≤ w.src
  size : w.src + rest.length + 1 = w.size
  written : (List.range w.dst).map (fun i => w.buf (i : Nat)) = out.reverse
  left : ∀ k ≤ rest.length, w.buf (w.src + k : Nat) = rest.getD k nul

/-- `out` has been written, and there is room for a terminator. -/
structure Work.Written (w : Work) (out : List Char) : Prop where
  ok : w.ok = true
  lt : w.dst < w.size
  written : (List.range w.dst).map (fun i => w.buf (i : Nat)) = out.reverse

namespace Work
variable {w : Work} {out rest name : List Char} {c : Char}

theorem At.head (h : w.At out rest) : w.buf w.src = rest.headD nul := by
  have hleft := h.left 0 (Nat.zero_le _)
  cases rest <;> simpa using hleft

theorem touch_eq {i : Int} (hok : w.ok = true) (hi : 0 ≤ i ∧ i < w.size) : w.touch i = w := by
  unfold touch
  rw [decide_eq_true hi, hok, Bool.and_true]
  cases w
  simp_all

theorem At.touch_src (h : w.At out rest) : w.touch w.src = w :=
  touch_eq h.ok (by have := h.size; omega)

theorem At.next (h : w.At out (c :: rest)) : w.next.At out rest ∧ w.next.dst < w.next.src := by
  have hsize := h.size
  rw [List.length_cons] at hsize
  unfold Work.next
  rw [h.touch_src]
  refine ⟨⟨h.ok, Nat.le_succ_of_le h.le, ?_, h.written, fun k hk => ?_⟩, Nat.lt_succ_of_le h.le⟩
  · change w.src + 1 + rest.length + 1 = w.size
    omega
  · have hleft := h.left (k + 1) (Nat.succ_le_succ hk)
    rw [List.getD_cons_succ] at hleft
    change w.buf (w.src + 1 + k : Nat) = _
    rw [← hleft]
    congr 1
    omega

theorem At.put (h : w.At out rest) (hlt : w.dst < w.src) (c : Char) :
    (w.put c).At (c :: out) rest := by
  have hsize := h.size
  unfold Work.put store
  rw [touch_eq h.ok (by omega)]
  refine ⟨h.ok, hlt, h.size, ?_, fun k hk => ?_⟩
  · change (List.range (w.dst + 1)).map (fun i => Function.update w.buf w.dst c (i : Nat)) = _
    rw [List.range_succ, List.map_append, List.map_singleton, Function.update_self,
      List.reverse_cons, ← h.written]
    refine congrArg (· ++ [c]) (List.map_congr_left fun i hi => Function.update_of_ne ?_ _ _)
    have := List.mem_range.mp hi
    omega
  · change Function.update w.buf w.dst c (w.src + k : Nat) = _
    rw [Function.update_of_ne (by omega)]
    exact h.left k hk

/-- A name is copied, and what is behind it read. -/
theorem At.copyName (hname : '/' ∉ name) (hnul : nul ∉ name) (hrest : Behind rest) {n : Nat}
    (h : w.At out (name ++ rest)) (hn : name.length < n) :
    (rest = [] → (w.copyName n).1 = nul ∧ (w.copyName n).2.Written (name.reverse ++ out)) ∧
      ∀ later, rest = '/' :: later → (w.copyName n).1 = '/' ∧
        (w.copyName n).2.At (name.reverse ++ out) later ∧
        (w.copyName n).2.dst < (w.copyName n).2.src ∧ (w.copyName n).2.size = w.size := by
  induction n generalizing w out name with
  | zero => cases hn
  | succ n ih =>
    unfold Work.copyName
    dsimp only
    rw [h.head]
    cases name with
    | nil =>
      have hsize := h.size
      rw [List.nil_append] at h hsize
      have hstop : ¬ (rest.headD nul ≠ nul ∧ rest.headD nul ≠ '/') := by
        rcases hrest with rfl | ⟨later, rfl⟩ <;> simp
      rw [List.nil_append, if_neg hstop]
      constructor
      · rintro rfl
        rw [List.length_nil] at hsize
        have hle := h.le
        refine ⟨rfl, ?_⟩
        unfold Work.next
        rw [h.touch_src]
        exact ⟨h.ok, by change w.dst < w.size; omega, h.written⟩
      · rintro later rfl
        obtain ⟨hnext, hlt⟩ := h.next
        exact ⟨rfl, hnext, hlt, rfl⟩
    | cons c name =>
      rw [List.mem_cons, not_or] at hname hnul
      rw [List.cons_append] at h
      obtain ⟨hnext, hlt⟩ := h.next
      have hgo : (c :: name ++ rest).headD nul ≠ nul ∧ (c :: name ++ rest).headD nul ≠ '/' :=
        ⟨Ne.symm hnul.1, Ne.symm hname.1⟩
      rw [if_pos hgo, List.reverse_cons, List.append_assoc]
      exact ih hname.2 hnul.2 (hnext.put hlt c) (Nat.lt_of_succ_lt_succ hn)

/-- Slashes are skipped. -/
theorem At.skipSlashes {n : Nat} (h : w.At out rest) (hn : rest.length < n) :
    (w.skipSlashes n).At out (rest.dropWhile (· = '/')) ∧ (w.skipSlashes n).size = w.size := by
  induction n generalizing w rest with
  | zero => cases hn
  | succ n ih =>
    unfold Work.skipSlashes
    rw [h.head]
    cases rest with
    | nil =>
      rw [if_neg (by decide), h.touch_src]
      exact ⟨h, rfl⟩
    | cons c rest =>
      by_cases hc : c = '/'
      · subst hc
        rw [List.headD_cons, if_pos rfl, List.dropWhile_cons_of_pos (by simp)]
        exact ih h.next.1 (Nat.lt_of_succ_lt_succ hn)
      · rw [List.headD_cons, if_neg hc, List.dropWhile_cons_of_neg (by simp [hc]), h.touch_src]
        exact ⟨h, rfl⟩

/-- Both ways to skip slashes do the same. -/
theorem skipPast_eq (w : Work) (n : Nat) : w.skipPast n = w.skipSlashes n := by
  induction n generalizing w with
  | zero => rfl
  | succ n ih =>
    unfold Work.skipPast Work.skipSlashes
    rw [ih]
    rfl

/-- `dst` goes back to the last slash, or to the beginning. -/
theorem backUp_spec (hok : w.ok = true) {m : Nat} {l : List Char} (hm : m ≤ w.size)
    (h : (List.range m).map (fun i => w.buf (i : Nat)) = l.reverse) :
    w.backUp m = { w with dst := (l.dropWhile (· ≠ '/')).length } := by
  induction m generalizing l with
  | zero =>
    obtain rfl : l = [] := by simpa using h.symm
    rfl
  | succ m ih =>
    obtain ⟨c, l, rfl⟩ : ∃ c l', l = c :: l' := by
      refine List.exists_cons_of_ne_nil ?_
      rintro rfl
      simp at h
    rw [List.range_succ, List.map_append, List.reverse_cons] at h
    obtain ⟨hinit, hlast⟩ := List.append_inj' h rfl
    have hc : w.buf (m : Nat) = c := (List.cons.inj hlast).1
    have hlen : m = l.length := by simpa using congrArg List.length hinit
    unfold backUp
    rw [hc, touch_eq hok (by omega)]
    by_cases hslash : c = '/'
    · subst hslash
      rw [if_neg (by simp), List.dropWhile_cons_of_neg (by simp), List.length_cons, ← hlen]
    · rw [if_pos hslash, List.dropWhile_cons_of_pos (by simp [hslash])]
      exact ih (by omega) hinit

theorem At.dst_eq (h : w.At out rest) : w.dst = out.length := by
  simpa using congrArg List.length h.written

theorem At.up (h : w.At out rest) :
    (out = [] → w.up = none) ∧
      ∀ c out', out = c :: out' → ∃ w', w.up = some w' ∧
        w'.At (out'.dropWhile (· ≠ '/')) rest ∧ w'.size = w.size := by
  have hdst := h.dst_eq
  have hsize := h.size
  have hle := h.le
  have hwritten := h.written
  constructor
  · rintro rfl
    exact if_pos hdst
  · rintro c out' rfl
    rw [List.length_cons] at hdst
    rw [hdst, List.range_succ, List.map_append, List.reverse_cons] at hwritten
    obtain ⟨hinit, -⟩ := List.append_inj' hwritten rfl
    have hne : w.dst ≠ 0 := by omega
    have hback : w.backUp (w.dst - 1) = _ := backUp_spec h.ok (by omega) (by rw [hdst]; exact hinit)
    have hsplit := List.takeWhile_append_dropWhile (p := (· ≠ '/')) (l := out')
    have hlen := congrArg List.length hsplit
    rw [List.length_append] at hlen
    refine ⟨_, if_neg hne, ?_⟩
    rw [hback]
    refine ⟨⟨h.ok, ?_, h.size, ?_, h.left⟩, rfl⟩
    · change (out'.dropWhile (· ≠ '/')).length ≤ w.src
      omega
    · change (List.range (out'.dropWhile (· ≠ '/')).length).map (fun i => w.buf (i : Nat)) = _
      have hrev : out'.reverse = (out'.dropWhile (· ≠ '/')).reverse ++
          (out'.takeWhile (· ≠ '/')).reverse := by rw [← List.reverse_append, hsplit]
      have htake := congrArg (List.take (out'.dropWhile (· ≠ '/')).length) (hinit.trans hrev)
      rw [← List.map_take, List.take_range, Nat.min_eq_left (by omega),
        List.take_left' (List.length_reverse)] at htake
      exact htake

theorem At.drop (h : w.At out rest) {j : Nat} (hj : j ≤ rest.length) :
    { w with src := w.src + j }.At out (rest.drop j) where
  ok := h.ok
  le := Nat.le_add_right_of_le h.le
  size := by
    have hsize := h.size
    change w.src + j + (rest.drop j).length + 1 = w.size
    rw [List.length_drop]
    omega
  written := h.written
  left := fun k hk => by
    rw [List.length_drop] at hk
    have hleft := h.left (j + k) (by omega)
    change w.buf (w.src + j + k : Nat) = _
    rw [Nat.add_assoc, hleft, List.getD_eq_getElem?_getD, List.getD_eq_getElem?_getD,
      List.getElem?_drop]

/-- A character ahead. -/
theorem At.peek (h : w.At out rest) {j : Nat} (hj : j ≤ rest.length) :
    w.buf (w.src + j) = rest.getD j nul ∧ w.touch (w.src + j) = w := by
  have hsize := h.size
  refine ⟨?_, touch_eq h.ok (by omega)⟩
  rw [← h.left j hj, Int.natCast_add]

end Work

/-- What a turn does with what is left. -/
def Turn.Of (out rest : List Char) : Turn → Prop
  | .copy w => ∃ name tail, w.At out (name ++ tail) ∧ '/' ∉ name ∧ nul ∉ name ++ tail ∧
      Behind tail ∧ tail.length ≤ rest.length ∧
      normalizeFrom .behindSlash out rest = normalizeFrom .inName (name.reverse ++ out) tail
  | .again w => ∃ later, w.At out later ∧ later.head? ≠ some '/' ∧ nul ∉ later ∧
      later.length < rest.length ∧
      normalizeFrom .behindSlash out rest = normalizeFrom .behindSlash out later
  | .upOne w => ∃ later, w.At out later ∧ later.head? ≠ some '/' ∧ nul ∉ later ∧
      later.length < rest.length ∧
      normalizeFrom .behindSlash out rest =
        (MountTable.upOne out).bind fun dst => normalizeFrom .behindSlash dst later

section
variable {w : Work} {out rest later : List Char}

/-- A component that is neither `.` nor `..` is copied. -/
theorem turn_copy (h : w.At out rest) (hhead : rest.head? ≠ some '/') (hnul : nul ∉ rest)
    (hother : ∀ tail, Behind tail → rest ≠ '.' :: tail ∧ rest ≠ '.' :: '.' :: tail) :
    (Turn.copy w).Of out rest := by
  obtain ⟨name, tail, rfl, hname, htail⟩ := exists_behind rest
  refine ⟨name, tail, h, hname, hnul, htail, by simp, ?_⟩
  by_cases hne : name = []
  · subst hne
    rcases htail with rfl | ⟨later, rfl⟩
    · exact (normalizeFrom_nil _).trans (normalizeFrom_nil _).symm
    · exact absurd rfl hhead
  · refine normalizeFrom_name hname hne ?_ ?_
    · rintro rfl
      exact (hother tail htail).1 rfl
    · rintro rfl
      exact (hother tail htail).2 rfl

theorem head_dropWhile_slash (later : List Char) :
    (later.dropWhile (· = '/')).head? ≠ some '/' := by
  induction later with
  | nil => simp
  | cons c later ih =>
    by_cases hc : c = '/'
    · rw [List.dropWhile_cons_of_pos (by simp [hc])]
      exact ih
    · rw [List.dropWhile_cons_of_neg (by simp [hc])]
      simpa using hc

/-- What follows the slash behind a dot, or two. -/
theorem skip_later (h : w.At out ('/' :: later)) (hnul : nul ∉ later) :
    ∃ left, (Work.skipSlashes w.size { w with src := w.src + 1 }).At out left ∧
      left.head? ≠ some '/' ∧ nul ∉ left ∧ left.length ≤ later.length ∧
      ∀ dst, normalizeFrom .behindSlash dst ('/' :: later) =
        normalizeFrom .behindSlash dst left := by
  have hsize := h.size
  rw [List.length_cons] at hsize
  have hdrop : { w with src := w.src + 1 }.At out later := h.drop (j := 1) (by simp)
  refine ⟨_, (hdrop.skipSlashes (by omega)).1, head_dropWhile_slash later,
    fun hmem => hnul ((List.dropWhile_suffix _).subset hmem), (List.dropWhile_suffix _).length_le,
    fun dst => ?_⟩
  rw [normalizeFrom_slash, normalizeFrom_skip]

/-- The tests at the beginning of a component. -/
theorem turn_of (h : w.At out rest) (hhead : rest.head? ≠ some '/') (hnul : nul ∉ rest) :
    w.turn.Of out rest := by
  have hsrc : w.touch w.src = w := h.touch_src
  have hfirst : w.buf w.src = rest.headD nul := h.head
  unfold Work.turn
  dsimp only
  rw [hsrc, hfirst]
  split
  · rename_i hdot
    obtain ⟨rest, rfl⟩ : ∃ r, rest = '.' :: r := by
      cases rest with
      | nil => cases hdot
      | cons c rest => exact ⟨rest, by rw [show c = '.' from hdot]⟩
    obtain ⟨hpeek, htouch⟩ : w.buf (w.src + 1) = rest.getD 0 nul ∧ w.touch (w.src + 1) = w :=
      h.peek (j := 1) (by simp)
    rw [htouch, hpeek]
    rw [List.mem_cons, not_or] at hnul
    cases rest with
    | nil =>
      rw [List.getD_nil, if_pos rfl]
      refine ⟨[], [], h.drop (j := 1) (by simp), by simp, by simp, .inl rfl, by simp, ?_⟩
      exact (normalizeFrom_dot (.inl rfl)).trans ((normalizeFrom_nil _).trans
        (normalizeFrom_nil _).symm)
    | cons d rest =>
      rw [List.mem_cons, not_or] at hnul
      rw [List.getD_cons_zero, if_neg (Ne.symm hnul.2.1)]
      split
      · rename_i hslash
        subst hslash
        have hdrop : { w with src := w.src + 1 }.At out ('/' :: rest) := h.drop (by simp)
        obtain ⟨left, hat, hleft, hnul', hlen, heq⟩ := skip_later hdrop hnul.2.2
        refine ⟨left, hat, hleft, hnul', ?_, ?_⟩
        · simp only [List.length_cons]
          omega
        · rw [normalizeFrom_dot (.inr ⟨rest, rfl⟩), heq]
      · rename_i hslash
        split
        · rename_i hdotdot
          subst hdotdot
          obtain ⟨hpeek, htouch⟩ : w.buf (w.src + 2) = rest.getD 0 nul ∧ w.touch (w.src + 2) = w :=
            h.peek (j := 2) (by simp)
          rw [htouch, hpeek]
          cases rest with
          | nil =>
            rw [List.getD_nil, if_pos rfl]
            refine ⟨[], h.drop (j := 2) (by simp), by simp, by simp, by simp, ?_⟩
            exact normalizeFrom_dot_dot (.inl rfl)
          | cons e rest =>
            rw [List.mem_cons, not_or] at hnul
            rw [List.getD_cons_zero, if_neg (Ne.symm hnul.2.2.1)]
            split
            · rename_i hslash
              subst hslash
              have hdrop : { w with src := w.src + 2 }.At out ('/' :: rest) :=
                h.drop (j := 2) (by simp)
              obtain ⟨left, hat, hleft, hnul', hlen, heq⟩ := skip_later hdrop hnul.2.2.2
              refine ⟨left, hat, hleft, hnul', ?_, ?_⟩
              · simp only [List.length_cons]
                omega
              · rw [normalizeFrom_dot_dot (.inr ⟨rest, rfl⟩)]
                exact Option.bind_congr fun dst _ => heq dst
            · rename_i hslash
              refine turn_copy h hhead (by simp [hnul]) fun tail htail => ⟨?_, ?_⟩
              · intro heq
                rcases htail with rfl | ⟨later, rfl⟩ <;> simp at heq
              · intro heq
                rcases htail with rfl | ⟨later, rfl⟩ <;> simp [hslash] at heq
        · rename_i hdotdot
          refine turn_copy h hhead (by simp [hnul]) fun tail htail => ⟨?_, ?_⟩
          · intro heq
            rcases htail with rfl | ⟨later, rfl⟩
            · simp at heq
            · simp [hslash] at heq
          · intro heq
            simp [hdotdot] at heq
  · rename_i hdot
    refine turn_copy h hhead hnul fun tail _ => ⟨?_, ?_⟩
    · rintro rfl
      exact hdot rfl
    · rintro rfl
      exact hdot rfl

end

/-! ## The loop -/

/-- How the loop ends, if `result` is what has been written. -/
def Ended.Of (result : Option (List Char)) : Ended → Prop
  | .null w => w.ok = true ∧ result = none
  | .done w => ∃ out, w.Written out ∧ nul ∉ out ∧ result = some out

/-- With `n` turns left the loop does what is done with the characters. -/
def Goes (n : Nat) : Prop :=
  ∀ (w : Work) (out rest : List Char), rest.length < n → w.At out rest → rest.head? ≠ some '/' →
    nul ∉ rest → nul ∉ out →
      ∃ e, normalizeLoop n w = some e ∧ e.Of (normalizeFrom .behindSlash out rest)

section
variable {w w' : Work} {out name tail : List Char} {n : Nat}

theorem loop_copy (hgoes : Goes n) (hturn : w.turn = .copy w') (h : w'.At out (name ++ tail))
    (hname : '/' ∉ name) (hnul : nul ∉ name ++ tail) (htail : Behind tail) (hlen : tail.length ≤ n)
    (hout : nul ∉ out) :
    ∃ e, normalizeLoop (n + 1) w = some e ∧
      e.Of (normalizeFrom .inName (name.reverse ++ out) tail) := by
  have hsize := h.size
  rw [List.length_append] at hsize
  have hnul' : nul ∉ name ∧ nul ∉ tail := by simpa using hnul
  have hout' : nul ∉ name.reverse ++ out := by simp [hnul'.1, hout]
  obtain ⟨hend, hmore⟩ := h.copyName (n := w'.size) hname hnul'.1 htail (by omega)
  unfold normalizeLoop
  rw [hturn]
  dsimp only
  rcases htail with rfl | ⟨later, rfl⟩
  · obtain ⟨hc, hwritten⟩ := hend rfl
    rw [hc, if_neg (by decide), normalizeFrom_nil]
    exact ⟨_, rfl, _, hwritten, hout', rfl⟩
  · obtain ⟨hc, hat, hlt, hsame⟩ := hmore later rfl
    rw [hc, if_pos rfl, normalizeFrom_name_slash, Work.skipPast_eq]
    have hput := hat.put hlt '/'
    have hroom : _ = (w'.copyName w'.size).2.size := hput.size
    have hleft := (hput.skipSlashes (n := (w'.copyName w'.size).2.size) (by omega)).1
    have hsuffix : later.dropWhile (· = '/') <:+ later := List.dropWhile_suffix _
    have hshort := hsuffix.length_le
    rw [List.length_cons] at hlen
    rw [← normalizeFrom_skip]
    refine hgoes _ _ _ (by omega) hleft (head_dropWhile_slash later) (fun hmem => ?_) ?_
    · exact hnul'.2 (List.mem_cons_of_mem _ (hsuffix.subset hmem))
    · rw [List.mem_cons, not_or]
      exact ⟨by decide, hout'⟩

theorem goes (n : Nat) : Goes n := by
  induction n with
  | zero => exact fun _ _ _ hlen => by cases hlen
  | succ n ih =>
    intro w out rest hlen h hhead hnul hout
    have hturn := turn_of h hhead hnul
    cases hcase : w.turn with
    | copy w' =>
      rw [hcase] at hturn
      obtain ⟨name, tail, hat, hname, hnul', htail, htaillen, heq⟩ := hturn
      rw [heq]
      exact loop_copy ih hcase hat hname hnul' htail (by omega) hout
    | again w' =>
      rw [hcase] at hturn
      obtain ⟨later, hat, hlater, hnul', hless, heq⟩ := hturn
      unfold normalizeLoop
      rw [hcase, heq]
      exact ih w' out later (by omega) hat hlater hnul' hout
    | upOne w' =>
      rw [hcase] at hturn
      obtain ⟨later, hat, hlater, hnul', hless, heq⟩ := hturn
      obtain ⟨hnone, hsome⟩ := hat.up
      unfold normalizeLoop
      rw [hcase, heq]
      dsimp only
      cases out with
      | nil =>
        rw [hnone rfl]
        exact ⟨_, rfl, hat.ok, rfl⟩
      | cons c out =>
        obtain ⟨w'', hup, hat', -⟩ := hsome c out rfl
        rw [hup]
        refine ih w'' _ later (by omega) hat' hlater hnul' fun hmem => hout ?_
        exact List.mem_cons_of_mem _ ((List.dropWhile_suffix _).subset hmem)

end

/-! ## The whole function -/

section
variable {w : Work} {out : List Char} {fullpath : Path}

/-- The string, with its terminator. -/
structure Work.Holds (w : Work) (l : Path) : Prop where
  ok : w.ok = true
  lt : l.length < w.size
  chars : (List.range l.length).map (fun i => w.buf (i : Nat)) = l
  last : w.buf (l.length : Nat) = nul

theorem Work.Holds.string_eq {l : Path} (h : w.Holds l) (hnul : nul ∉ l) : w.string = l := by
  have hlt := h.lt
  obtain ⟨k, hk⟩ : ∃ k, w.size = l.length + (k + 1) := ⟨w.size - l.length - 1, by omega⟩
  unfold Work.string
  rw [hk, List.range_add, List.map_append, h.chars, List.range_succ_eq_map, List.map_cons,
    List.map_cons, Nat.add_zero, h.last]
  exact text_append_nul hnul _

theorem Work.Holds.getElem {l : Path} (h : w.Holds l) {i : Nat} (hi : i < l.length) :
    w.buf i = l[i] := by
  have hget : ((List.range l.length).map (fun i => w.buf (i : Nat)))[i]? = l[i]? := by rw [h.chars]
  rw [List.getElem?_map, List.getElem?_range hi, List.getElem?_eq_getElem hi] at hget
  exact Option.some.inj hget

theorem Work.Written.store (h : w.Written out) : (w.store w.dst nul).Holds out.reverse := by
  have hlt := h.lt
  have hdst : w.dst = out.reverse.length := by rw [← h.written]; simp
  unfold Work.store
  rw [Work.touch_eq h.ok (by omega)]
  refine ⟨h.ok, by rw [← hdst]; exact hlt, ?_, ?_⟩
  · rw [← hdst, ← h.written]
    refine List.map_congr_left fun i hi => Function.update_of_ne ?_ _ _
    have := List.mem_range.mp hi
    omega
  · rw [← hdst]
    exact Function.update_self _ _ _

theorem Work.Holds.dropSlash {init : Path} {c : Char} (h : w.Holds (init ++ [c])) :
    (w.dropSlash init.length).Holds (if c = '/' ∧ init ≠ [] then init else init ++ [c]) := by
  have hlt := h.lt
  have hc : w.buf init.length = c := (h.getElem (by simp)).trans (by simp)
  rw [List.length_append, List.length_singleton] at hlt
  have htouch : w.touch init.length = w := Work.touch_eq h.ok (by omega)
  unfold Work.dropSlash
  rw [hc, htouch]
  by_cases hinit : init = []
  · rw [if_pos (by simp [hinit]), if_neg (by simp [hinit])]
    exact h
  · have hpos := List.length_pos_of_ne_nil hinit
    rw [if_neg (by omega)]
    by_cases hslash : c = '/'
    · rw [if_pos hslash, if_pos ⟨hslash, hinit⟩]
      unfold Work.store
      rw [htouch]
      refine ⟨h.ok, Nat.lt_of_succ_lt hlt, ?_, Function.update_self _ _ _⟩
      have hchars := congrArg (List.take init.length) h.chars
      rw [← List.map_take, List.take_range, List.length_append, Nat.min_eq_left (by simp),
        List.take_left] at hchars
      refine Eq.trans (List.map_congr_left fun i hi => Function.update_of_ne ?_ _ _) hchars
      have := List.mem_range.mp hi
      omega
    · rw [if_neg hslash, if_neg fun hand => hslash hand.1]
      exact h

theorem Work.Holds.orRoot {l : Path} (h : w.Holds l) (hnul : nul ∉ l) (hne : l ≠ []) :
    w.orRoot = w := by
  have hpos := List.length_pos_of_ne_nil hne
  have hlt := h.lt
  have hfirst : w.buf 0 = l[0] := h.getElem hpos
  have hchar : l[0] ≠ nul := fun heq => hnul (heq ▸ List.getElem_mem hpos)
  unfold Work.orRoot
  rw [hfirst, if_neg hchar, Work.touch_eq h.ok (by omega)]

/-- The byte before the string may be overwritten too. -/
theorem dropSlash_before (w : Work) : (w.dropSlash (-1)).ok = false ∧
    (w.dropSlash (-1)).size = w.size ∧ (w.dropSlash (-1)).buf 0 = w.buf 0 := by
  have hbefore : ¬ (0 ≤ (-1 : Int) ∧ (-1 : Int) < w.size) := by omega
  have htouch : ∀ w' : Work, w'.size = w.size → (w'.touch (-1)).ok = false := by
    intro w' hsize
    unfold Work.touch
    rw [hsize, decide_eq_false hbefore, Bool.and_false]
  unfold Work.dropSlash
  rw [if_neg (by decide)]
  split
  · refine ⟨htouch (w.touch (-1)) rfl, rfl, ?_⟩
    change Function.update w.buf (-1) nul 0 = w.buf 0
    exact Function.update_of_ne (by decide) _ _
  · exact ⟨htouch w rfl, rfl, rfl⟩

/-- An empty string becomes the root. -/
theorem orRoot_empty (hnul : w.buf 0 = nul) (hsize : 0 < w.size) :
    (w.ok = false → w.orRoot.ok = false) ∧ w.orRoot.string = ['/'] := by
  have heq : w.orRoot = ((w.touch 0).store 0 '/').store 1 nul := if_pos hnul
  rw [heq]
  constructor
  · intro hok
    simp [Work.store, Work.touch, hok]
  · obtain ⟨n, hn⟩ : ∃ n, w.size = n + 1 := ⟨w.size - 1, by omega⟩
    unfold Work.string
    change text nul ((List.range w.size).map fun i : Nat =>
      Function.update (Function.update w.buf 0 '/') 1 nul i) = ['/']
    rw [hn]
    cases n with
    | zero => simp [text, List.range_succ]; decide
    | succ n =>
      rw [List.range_succ_eq_map, List.range_succ_eq_map]
      have hroot : nul ∉ ['/'] := by decide
      exact text_append_nul hroot _

/-- If nothing has been written, the byte before the string is looked at. -/
theorem finish_empty (h : w.Written []) :
    w.finish.ok = false ∧ w.finish.string = ['/'] := by
  have hdst : w.dst = 0 := by simpa using congrArg List.length h.written
  obtain ⟨hok, hsize, hfirst⟩ := dropSlash_before (w.store w.dst nul)
  have hbuf : (w.store w.dst nul).buf 0 = nul := h.store.last
  have hpos : 0 < (w.store w.dst nul).size := h.store.lt
  have hfinish : w.finish = ((w.store w.dst nul).dropSlash (-1)).orRoot := by
    unfold Work.finish
    rw [hdst]
    rfl
  rw [hfinish]
  obtain ⟨hbad, hstring⟩ := orRoot_empty (hfirst.trans hbuf) (hsize ▸ hpos)
  exact ⟨hbad hok, hstring⟩

theorem nul_notMem_endPath (hnul : nul ∉ out) : nul ∉ endPath out := by
  unfold endPath
  split
  · decide
  · split
    · exact fun hmem => hnul (List.mem_of_mem_tail (List.mem_reverse.mp hmem))
    · exact fun hmem => hnul (List.mem_reverse.mp hmem)

theorem finish_spec (h : w.Written out) (hnul : nul ∉ out) :
    w.finish.ok = decide (out ≠ []) ∧ w.finish.string = endPath out := by
  cases out with
  | nil => exact finish_empty h
  | cons c out =>
    have hlast : w.dst = out.length + 1 := by simpa using congrArg List.length h.written
    have hstore := h.store
    rw [List.reverse_cons] at hstore
    have hdrop := hstore.dropSlash
    have hend : (if c = '/' ∧ out.reverse ≠ [] then out.reverse else out.reverse ++ [c]) =
        endPath (c :: out) := by
      unfold endPath
      simp
    have hne : endPath (c :: out) ≠ [] := endPath_ne_nil _
    rw [hend] at hdrop
    have hnul' : nul ∉ endPath (c :: out) := nul_notMem_endPath hnul
    have hfinish : w.finish = (w.store w.dst nul).dropSlash out.reverse.length := by
      unfold Work.finish
      rw [show (w.dst : Int) - 1 = out.reverse.length by rw [List.length_reverse]; omega]
      exact hdrop.orRoot hnul' hne
    rw [hfinish]
    exact ⟨hdrop.ok.trans (by simp), hdrop.string_eq hnul'⟩

theorem start_at (around : Int → Char) (fullpath : Path) :
    (Work.start around fullpath).At [] fullpath where
  ok := rfl
  le := Nat.le_refl 0
  size := by
    change 0 + fullpath.length + 1 = fullpath.length + 1
    omega
  written := rfl
  left := fun k hk => by
    rw [show (Work.start around fullpath).src = 0 from rfl, Nat.zero_add]
    exact (if_pos (by omega)).trans (by rw [Int.toNat_natCast])

theorem loop_start (around : Int → Char) (hnul : nul ∉ fullpath) :
    ∃ e, normalizeLoop (fullpath.length + 2) (.start around fullpath) = some e ∧
      e.Of (normalizeFrom .beginning [] fullpath) := by
  have hat := start_at around fullpath
  have hnil : nul ∉ ([] : List Char) := List.not_mem_nil
  by_cases hhead : fullpath.head? = some '/'
  · obtain ⟨rest, rfl⟩ := List.head?_eq_some_iff.mp hhead
    have hturn : (Work.start around ('/' :: rest)).turn = .copy (.start around ('/' :: rest)) := by
      unfold Work.turn
      dsimp only
      rw [hat.touch_src, hat.head, if_neg (by simp)]
    rw [normalizeFrom_root, ← normalizeFrom_name_slash]
    have hcopy : (Work.start around ('/' :: rest)).At [] ([] ++ '/' :: rest) := hat
    exact loop_copy (goes _) hturn hcopy (by simp) hnul (.inr ⟨rest, rfl⟩) (by simp) hnil
  · rw [normalizeFrom_beginning hhead]
    exact goes _ _ _ _ (by omega) hat hhead hnul hnil

/-- The loop and what follows it do what is done with the characters. -/
theorem normalizeInPlace_eq (around : Int → Char) (hnul : nul ∉ fullpath) :
    normalizeInPlace around fullpath =
      some (((normalizeFrom .beginning [] fullpath).map ending).elim (true, none)
        fun e => (e.1, some e.2)) := by
  obtain ⟨e, hloop, he⟩ := loop_start around hnul
  unfold normalizeInPlace
  rw [hloop]
  cases e with
  | null w =>
    obtain ⟨hok, hnone⟩ := he
    rw [hnone]
    exact congrArg some (Prod.ext hok rfl)
  | done w =>
    obtain ⟨out, hwritten, hout, hsome⟩ := he
    obtain ⟨hok, hstring⟩ := finish_spec hwritten hout
    rw [hsome]
    exact congrArg some (Prod.ext hok (congrArg some hstring))

end

theorem nul_notMem_joined (directory filename : CPath) : nul ∉ joined directory filename := by
  unfold joined
  split
  · exact filename.nul_notMem
  · rw [List.mem_append, List.mem_cons]
    rintro (hdirectory | hslash | hfilename)
    · exact directory.nul_notMem hdirectory
    · exact absurd hslash (by decide)
    · exact filename.nul_notMem hfilename

/-- In memory the path is the normalised one. -/
theorem normalizeInPlace_result (around : Int → Char) (directory filename : CPath) :
    (normalizeInPlace around (joined directory filename)).map Prod.snd =
      some (dfsNormalizePath (some directory.chars) true filename.chars) := by
  have hpath : (if filename.chars.head? = some '/' then some filename.chars
      else (some directory.chars).map (· ++ '/' :: filename.chars)) =
        some (joined directory filename) := by
    unfold joined
    split <;> rfl
  rw [normalizeInPlace_eq around (nul_notMem_joined directory filename)]
  unfold dfsNormalizePath
  rw [Option.map_some]
  dsimp only
  rw [hpath, if_pos rfl, Option.bind_some]
  cases normalizeFrom .beginning [] (joined directory filename) <;> rfl

/-- What is written are characters of the path. -/
theorem nul_notMem_normalize {wd : Option CPath} {memory : Bool} {filename : CPath} {p : Path}
    (h : dfsNormalizePath (wd.map CPath.chars) memory filename.chars = some p) : nul ∉ p := by
  unfold dfsNormalizePath at h
  obtain ⟨-, h⟩ := Option.ite_none_right_eq_some.mp h
  obtain ⟨out, hbind, rfl⟩ := Option.map_eq_some_iff.mp h
  obtain ⟨full, hfull, hout⟩ := Option.bind_eq_some_iff.mp hbind
  have hnul : nul ∉ full := by
    split at hfull
    · exact Option.some.inj hfull ▸ filename.nul_notMem
    · rename_i hhead
      rw [Option.map_map] at hfull
      obtain ⟨directory, -, hjoin⟩ := Option.map_eq_some_iff.mp hfull
      have hjoined := nul_notMem_joined directory filename
      rw [joined, if_neg hhead] at hjoined
      exact hjoin ▸ hjoined
  obtain ⟨e, -, he⟩ := loop_start (fun _ => nul) hnul
  rw [hout] at he
  cases e with
  | null w => cases he.2
  | done w =>
    obtain ⟨out', -, hout', heq⟩ := he
    obtain rfl := Option.some.inj heq
    exact nul_notMem_endPath hout'

/-! ## The path of the components -/

/-- Nothing outside the string is read or written, and the result is the path that the components
lead to, which is left as it is if it is normalised again. -/
def Meets (around : Int → Char) (directory filename : CPath) : Prop :=
  ∃ result, normalizeInPlace around (joined directory filename) = some (true, result) ∧
    result = canonical (joined directory filename) ∧
    ∀ p, result = some p → Canonical p ∧
      ∀ (around' : Int → Char) (directory' again : CPath), again.chars = p →
        normalizeInPlace around' (joined directory' again) = some (true, some p)

section
variable {fullpath : Path} {stack parts : List Path}

theorem normalizeInPlace_of_walk (around : Int → Char) (hnul : nul ∉ fullpath) :
    normalizeInPlace around fullpath =
      some ((walk (fullpath.head? = some '/') [] (components '/' fullpath)).elim (true, none)
        fun r => (decide (wrote r.1 r.2 ≠ []), some (endPath (wrote r.1 r.2)))) := by
  rw [normalizeInPlace_eq around hnul, normalizeFrom_path, Option.elim_map]
  rfl

/-- What the components lead to, once the root is left where it is. -/
theorem normalizeInPlace_of_root (around : Int → Char) (hnul : nul ∉ fullpath)
    (hparts : ∀ part ∈ stack.reverse, '/' ∉ part ∧ part ≠ [])
    (hwalk : walk (fullpath.head? = some '/') [] (components '/' fullpath) = some (true, stack)) :
    normalizeInPlace around fullpath = some (true, some (pathOf '/' stack.reverse)) := by
  have hstack : ∀ part ∈ stack, '/' ∉ part ∧ part ≠ [] := fun part hpart =>
    hparts part (List.mem_reverse.mpr hpart)
  have hne : wrote true stack ≠ [] := by cases stack <;> simp [wrote]
  rw [normalizeInPlace_of_walk around hnul, hwalk, Option.elim_some, endPath_wrote_true hstack,
    decide_eq_true hne]

/-- A path of names is left as it is. -/
theorem normalizeInPlace_pathOf (around : Int → Char) (hparts : ∀ part ∈ parts, IsName part)
    (hnul : nul ∉ pathOf '/' parts) :
    normalizeInPlace around (pathOf '/' parts) = some (true, some (pathOf '/' parts)) := by
  have hreverse : ∀ part ∈ parts.reverse.reverse, '/' ∉ part ∧ part ≠ [] := by
    rw [List.reverse_reverse]
    exact fun part hpart => (hparts part hpart).1
  rw [normalizeInPlace_of_root around hnul hreverse (walk_pathOf hparts), List.reverse_reverse]

end

/-- Without the slash of the root, a path is relative, or made the root out of bounds. -/
theorem not_meets {around : Int → Char} {directory filename : CPath} {st : List Path}
    (hwalk : walk ((joined directory filename).head? = some '/') []
      (components '/' (joined directory filename)) = some (false, st)) :
    ¬ Meets around directory filename := by
  rintro ⟨result, hresult, -, hcanonical⟩
  have hstack := part_of_walk hwalk
  rw [normalizeInPlace_of_walk around (nul_notMem_joined directory filename), hwalk,
    Option.elim_some] at hresult
  obtain ⟨hok, hpath⟩ := Prod.mk.inj (Option.some.inj hresult)
  have hne : st ≠ [] := by
    rintro rfl
    simp [wrote] at hok
  exact head_endPath_wrote_false hstack hne (hcanonical _ hpath.symm).1.1

/-- A path is normalised except if one `..` goes back over the root, or the root is missing. -/
theorem normalize_meets_iff (around : Int → Char) (directory filename : CPath) :
    Meets around directory filename ↔ missing (joined directory filename) ≠ 1 := by
  have hnul := nul_notMem_joined directory filename
  constructor
  · intro h hone
    rcases walk_cases (joined directory filename) with ⟨hm, -⟩ | ⟨-, st, hwalk⟩ | ⟨hm, -⟩
    · omega
    · exact not_meets hwalk h
    · omega
  · intro hne
    rcases walk_cases (joined directory filename) with
      ⟨-, st, hresolve, hwalk⟩ | ⟨hone, -⟩ | ⟨-, hresolve, hwalk⟩
    · have hparts := names_of_resolve hresolve
      have hresult := normalizeInPlace_of_root around hnul (fun part hpart => (hparts part hpart).1)
        hwalk
      refine ⟨_, hresult, by rw [canonical, hresolve, Option.map_some], ?_⟩
      rintro p hp
      obtain rfl := Option.some.inj hp
      refine ⟨canonical_pathOf hparts, fun around' directory' again hagain => ?_⟩
      have hjoined : joined directory' again = pathOf '/' st.reverse := by
        rw [joined, hagain]
        exact if_pos rfl
      rw [hjoined]
      exact normalizeInPlace_pathOf around' hparts (hagain ▸ again.nul_notMem)
    · exact absurd hone hne
    · refine ⟨none, ?_, by rw [canonical, hresolve, Option.map_none], fun p hp => by cases hp⟩
      rw [normalizeInPlace_of_walk around hnul, hwalk, Option.elim_none]

/-- One `..` over the root gives a relative path. -/
theorem not_meets_dotdot_a :
    ¬ Meets (fun _ => 'x') ⟨['/'], by decide⟩ ⟨['/', '.', '.', '/', 'a'], by decide⟩ := by
  rintro ⟨result, hresult, -, hcanonical⟩
  have hrun : normalizeInPlace (fun _ => 'x') ['/', '.', '.', '/', 'a'] =
    some (true, some ['a']) := by decide +kernel
  obtain ⟨-, hpath⟩ := Prod.mk.inj (Option.some.inj (hresult.symm.trans hrun))
  exact absurd (hcanonical _ hpath).1.1 (by decide)

end ControlRTT.Components.DfsPath
