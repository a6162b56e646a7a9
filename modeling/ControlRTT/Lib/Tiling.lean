import Mathlib.Data.List.Chain
import Mathlib.Algebra.Order.Ring.Int

/-! # Blocks that tile a stretch of memory

Each block begins with a header of `hs` bytes that says whether the block is used,
where the next header is and where the previous one was. `node` is what the memory
says at an address, `none` where it holds no header. `Tiled hs node o p bs` says that
the headers from `o` on are those of the blocks `bs`, each where the one before ends,
the first one linked back to `p`. An allocator cuts and joins blocks in one place, and
the only header outside that place which changes is the one behind it, which is linked
back (`Tiled.replace`). -/
namespace ControlRTT.Lib.Tiling

/-- The length includes the header. -/
structure Block where
  len : Nat
  used : Bool
  deriving DecidableEq, Repr

/-- What a header says. -/
structure Node where
  used : Bool
  next : Nat
  prev : Nat
  deriving DecidableEq, Repr

def extent : List Block → Nat
  | [] => 0
  | b :: bs => b.len + extent bs

/-- A sum over all blocks. -/
def total (f : Block → Nat) : List Block → Nat
  | [] => 0
  | b :: bs => f b + total f bs

/-- Where the last block starts, or `p` if there is none. -/
def lastStart (o p : Nat) : List Block → Nat
  | [] => p
  | b :: bs => lastStart (o + b.len) o bs

/-- Where the blocks marked `u` start, in order. -/
def startsOf (u : Bool) (o : Nat) : List Block → List Nat
  | [] => []
  | b :: bs =>
    if b.used = u then o :: startsOf u (o + b.len) bs else startsOf u (o + b.len) bs

/-- Where the used blocks start, and how long they are. -/
def usedSpans (o : Nat) : List Block → List (Nat × Nat)
  | [] => []
  | b :: bs =>
    if b.used then (o, b.len) :: usedSpans (o + b.len) bs else usedSpans (o + b.len) bs

/-- Where the first free block starts, or the end. -/
def lowest (o : Nat) : List Block → Nat
  | [] => o
  | b :: bs => if b.used then lowest (o + b.len) bs else o

/-- A block starts at `x`, or the last one ends there. -/
def Bound (o : Nat) : List Block → Nat → Prop
  | [], x => x = o
  | b :: bs, x => x = o ∨ Bound (o + b.len) bs x

/-- No two neighbours are both free. -/
def Spaced (bs : List Block) : Prop := bs.IsChain fun a b => a.used ∨ b.used

def Tiled (hs : Nat) (node : Nat → Option Node) (o p : Nat) : List Block → Prop
  | [] => True
  | b :: bs =>
    node o = some ⟨b.used, o + b.len, p⟩ ∧ hs ≤ b.len ∧ Tiled hs node (o + b.len) o bs

/-! ## Lists of blocks -/

section
variable (xs ys bs : List Block) (b : Block) (u : Bool) (o p x : Nat)

@[simp] theorem extent_nil : extent [] = 0 := rfl

@[simp] theorem extent_cons : extent (b :: bs) = b.len + extent bs := rfl

@[simp] theorem extent_append : extent (xs ++ ys) = extent xs + extent ys := by
  induction xs with
  | nil => exact (Nat.zero_add _).symm
  | cons a xs ih => rw [List.cons_append, extent_cons, extent_cons, ih, Nat.add_assoc]

@[simp] theorem total_nil (f : Block → Nat) : total f [] = 0 := rfl

@[simp] theorem total_cons (f : Block → Nat) : total f (b :: bs) = f b + total f bs := rfl

@[simp] theorem total_append (f : Block → Nat) :
    total f (xs ++ ys) = total f xs + total f ys := by
  induction xs with
  | nil => exact (Nat.zero_add _).symm
  | cons a xs ih => rw [List.cons_append, total_cons, total_cons, ih, Nat.add_assoc]

@[simp] theorem lastStart_nil : lastStart o p [] = p := rfl

@[simp] theorem lastStart_cons : lastStart o p (b :: bs) = lastStart (o + b.len) o bs := rfl

@[simp] theorem lastStart_append :
    lastStart o p (xs ++ ys) = lastStart (o + extent xs) (lastStart o p xs) ys := by
  induction xs generalizing o p with
  | nil => rfl
  | cons a xs ih =>
    rw [List.cons_append, lastStart_cons, lastStart_cons, extent_cons, ih, Nat.add_assoc]

@[simp] theorem startsOf_nil : startsOf u o [] = [] := rfl

@[simp] theorem startsOf_append :
    startsOf u o (xs ++ ys) = startsOf u o xs ++ startsOf u (o + extent xs) ys := by
  induction xs generalizing o with
  | nil => rfl
  | cons a xs ih =>
    simp only [List.cons_append, startsOf, extent_cons, ih, Nat.add_assoc]
    split <;> rfl

theorem startsOf_cons_self : startsOf b.used o (b :: bs) = o :: startsOf b.used (o + b.len) bs :=
  if_pos rfl

variable {xs ys bs b u o p x}

theorem startsOf_cons_ne (h : b.used ≠ u) :
    startsOf u o (b :: bs) = startsOf u (o + b.len) bs := if_neg h

@[simp] theorem startsOf_mk_self (len : Nat) :
    startsOf u o (⟨len, u⟩ :: bs) = o :: startsOf u (o + len) bs := if_pos rfl

@[simp] theorem startsOf_true_mk_false (len : Nat) :
    startsOf true o (⟨len, false⟩ :: bs) = startsOf true (o + len) bs := rfl

@[simp] theorem startsOf_false_mk_true (len : Nat) :
    startsOf false o (⟨len, true⟩ :: bs) = startsOf false (o + len) bs := rfl

/-- Around one block, in the list it is in and in the other. -/
theorem startsOf_split (xs ys : List Block) (b : Block) (o : Nat) :
    startsOf b.used o (xs ++ b :: ys) =
      startsOf b.used o xs ++ (o + extent xs) :: startsOf b.used (o + extent xs + b.len) ys := by
  rw [startsOf_append, startsOf_cons_self]

theorem startsOf_split_ne (h : b.used ≠ u) :
    startsOf u o (xs ++ b :: ys) =
      startsOf u o xs ++ startsOf u (o + extent xs + b.len) ys := by
  rw [startsOf_append, startsOf_cons_ne h]

theorem mem_startsOf (h : x ∈ startsOf u o bs) :
    ∃ pre b post, bs = pre ++ b :: post ∧ b.used = u ∧ x = o + extent pre := by
  induction bs generalizing o with
  | nil => cases h
  | cons a bs ih =>
    have later : x ∈ startsOf u (o + a.len) bs →
        ∃ pre b post, a :: bs = pre ++ b :: post ∧ b.used = u ∧ x = o + extent pre := by
      intro hx
      obtain ⟨pre, b, post, rfl, hb, rfl⟩ := ih hx
      exact ⟨a :: pre, b, post, rfl, hb, by rw [extent_cons, Nat.add_assoc]⟩
    by_cases ha : a.used = u
    · subst ha
      rw [startsOf_cons_self] at h
      rcases List.mem_cons.mp h with rfl | h
      · exact ⟨[], a, bs, rfl, rfl, rfl⟩
      · exact later h
    · rw [startsOf_cons_ne ha] at h
      exact later h

theorem ge_of_mem_startsOf (h : x ∈ startsOf u o bs) : o ≤ x := by
  obtain ⟨pre, b, post, -, -, rfl⟩ := mem_startsOf h
  exact Nat.le_add_right _ _

@[simp] theorem usedSpans_nil : usedSpans o [] = [] := rfl

@[simp] theorem usedSpans_mk_true (len : Nat) :
    usedSpans o (⟨len, true⟩ :: bs) = (o, len) :: usedSpans (o + len) bs := rfl

@[simp] theorem usedSpans_mk_false (len : Nat) :
    usedSpans o (⟨len, false⟩ :: bs) = usedSpans (o + len) bs := rfl

@[simp] theorem usedSpans_append :
    usedSpans o (xs ++ ys) = usedSpans o xs ++ usedSpans (o + extent xs) ys := by
  induction xs generalizing o with
  | nil => rfl
  | cons a xs ih =>
    simp only [List.cons_append, usedSpans, extent_cons, ih, Nat.add_assoc]
    split <;> rfl

theorem map_fst_usedSpans (o : Nat) (bs : List Block) :
    (usedSpans o bs).map Prod.fst = startsOf true o bs := by
  induction bs generalizing o with
  | nil => rfl
  | cons b bs ih =>
    obtain ⟨len, _ | _⟩ := b
    · exact ih (o + len)
    · exact congrArg (o :: ·) (ih (o + len))

theorem mem_usedSpans {l : Nat} (h : (x, l) ∈ usedSpans o bs) :
    ∃ pre post, bs = pre ++ ⟨l, true⟩ :: post ∧ x = o + extent pre := by
  induction bs generalizing o with
  | nil => cases h
  | cons b bs ih =>
    have later : (x, l) ∈ usedSpans (o + b.len) bs →
        ∃ pre post, b :: bs = pre ++ ⟨l, true⟩ :: post ∧ x = o + extent pre := fun hx => by
      obtain ⟨pre, post, rfl, rfl⟩ := ih hx
      exact ⟨b :: pre, post, rfl, by rw [extent_cons, Nat.add_assoc]⟩
    obtain ⟨len, _ | _⟩ := b
    · exact later h
    · rcases List.mem_cons.mp h with heq | h
      · obtain ⟨rfl, rfl⟩ := Prod.mk.inj heq
        exact ⟨[], bs, rfl, rfl⟩
      · exact later h

/-! Where every block has room for something, each place is the start of one block at most. -/

theorem lt_of_mem_startsOf (hpos : ∀ b ∈ bs, 0 < b.len) (h : x ∈ startsOf u o bs) :
    x < o + extent bs := by
  obtain ⟨pre, b, post, rfl, -, rfl⟩ := mem_startsOf h
  have hb := hpos b (List.mem_append_right _ List.mem_cons_self)
  rw [extent_append, extent_cons]
  omega

theorem startsOf_ordered (hpos : ∀ b ∈ bs, 0 < b.len) (u : Bool) (o : Nat) :
    (startsOf u o bs).Pairwise (· < ·) := by
  induction bs generalizing o with
  | nil => exact .nil
  | cons b bs ih =>
    obtain ⟨hb, hbs⟩ := List.forall_mem_cons.mp hpos
    by_cases hu : b.used = u
    · subst hu
      rw [startsOf_cons_self]
      refine List.pairwise_cons.mpr ⟨fun y hy => ?_, ih hbs _⟩
      have := ge_of_mem_startsOf hy
      omega
    · rw [startsOf_cons_ne hu]
      exact ih hbs _

theorem startsOf_disjoint (hpos : ∀ b ∈ bs, 0 < b.len) (u : Bool) (o : Nat) :
    List.Disjoint (startsOf u o bs) (startsOf (!u) o bs) := by
  induction bs generalizing o with
  | nil => exact List.disjoint_nil_left _
  | cons b bs ih =>
    obtain ⟨hb, hbs⟩ := List.forall_mem_cons.mp hpos
    have hout : ∀ v, o ∉ startsOf v (o + b.len) bs := fun v hmem => by
      have := ge_of_mem_startsOf hmem
      omega
    by_cases hu : b.used = u
    · subst hu
      rw [startsOf_cons_self, startsOf_cons_ne (Bool.eq_not_self b.used |>.mp)]
      exact List.disjoint_cons_left.mpr ⟨hout _, ih hbs _⟩
    · rw [startsOf_cons_ne hu, ← Bool.eq_not_of_ne hu, startsOf_cons_self]
      refine List.disjoint_cons_right.mpr ⟨hout _, ?_⟩
      have hlater := ih hbs (o + b.len)
      rwa [← Bool.eq_not_of_ne hu] at hlater

theorem length_startsOf_le (hpos : ∀ b ∈ bs, 0 < b.len) (u : Bool) (o : Nat) :
    (startsOf u o bs).length ≤ extent bs := by
  induction bs generalizing o with
  | nil => exact Nat.le_refl _
  | cons b bs ih =>
    obtain ⟨hb, hbs⟩ := List.forall_mem_cons.mp hpos
    have hlater := ih hbs (o + b.len)
    rw [extent_cons]
    by_cases hu : b.used = u
    · subst hu
      rw [startsOf_cons_self, List.length_cons]
      omega
    · rw [startsOf_cons_ne hu]
      omega

theorem length_le_extent (hpos : ∀ b ∈ bs, 0 < b.len) : bs.length ≤ extent bs := by
  induction bs with
  | nil => exact Nat.le_refl _
  | cons b bs ih =>
    obtain ⟨hb, hbs⟩ := List.forall_mem_cons.mp hpos
    have hlater := ih hbs
    rw [List.length_cons, extent_cons]
    omega

theorem le_lowest (o : Nat) (bs : List Block) : o ≤ lowest o bs := by
  induction bs generalizing o with
  | nil => exact Nat.le_refl _
  | cons b bs ih =>
    unfold lowest
    split
    · exact Nat.le_trans (Nat.le_add_right _ _) (ih _)
    · exact Nat.le_refl _

/-- If all the blocks before are used, the first free one is behind them. -/
theorem lowest_append_used (h : ∀ b ∈ xs, b.used) (o : Nat) :
    lowest o (xs ++ ys) = lowest (o + extent xs) ys := by
  induction xs generalizing o with
  | nil => rfl
  | cons a xs ih =>
    obtain ⟨ha, hxs⟩ := List.forall_mem_cons.mp h
    rw [List.cons_append, lowest, if_pos ha, ih hxs, extent_cons, Nat.add_assoc]

/-- Otherwise what is behind them does not matter. -/
theorem lowest_append_free (h : ¬ ∀ b ∈ xs, b.used) (o : Nat) :
    lowest o (xs ++ ys) = lowest o xs := by
  induction xs generalizing o with
  | nil => exact absurd (fun _ hmem => (by cases hmem)) h
  | cons a xs ih =>
    rw [List.cons_append, lowest, lowest]
    split
    · rename_i hused
      exact ih (fun hall => h (List.forall_mem_cons.mpr ⟨hused, hall⟩)) _
    · rfl

theorem lowest_lt_extent (hpos : ∀ b ∈ xs, 0 < b.len) (h : ¬ ∀ b ∈ xs, b.used) (o : Nat) :
    lowest o xs < o + extent xs := by
  induction xs generalizing o with
  | nil => exact absurd (fun _ hmem => (by cases hmem)) h
  | cons a xs ih =>
    obtain ⟨ha, hxs⟩ := List.forall_mem_cons.mp hpos
    rw [lowest, extent_cons]
    split
    · rename_i hused
      rw [← Nat.add_assoc]
      exact ih hxs (fun hall => h (List.forall_mem_cons.mpr ⟨hused, hall⟩)) _
    · omega

theorem lowest_le_of_mem (h : x ∈ startsOf false o bs) : lowest o bs ≤ x := by
  induction bs generalizing o with
  | nil => cases h
  | cons b bs ih =>
    obtain ⟨len, _ | _⟩ := b
    · exact ge_of_mem_startsOf h
    · rw [startsOf_false_mk_true] at h
      exact ih h

theorem lowest_mem_or_end (o : Nat) (bs : List Block) : lowest o bs ∈ startsOf false o bs ∨
    startsOf false o bs = [] ∧ lowest o bs = o + extent bs := by
  induction bs generalizing o with
  | nil => exact .inr ⟨rfl, rfl⟩
  | cons b bs ih =>
    obtain ⟨len, _ | _⟩ := b
    · rw [startsOf_mk_self]
      exact .inl List.mem_cons_self
    · rw [startsOf_false_mk_true, extent_cons, ← Nat.add_assoc]
      exact ih (o + len)

@[simp] theorem bound_nil : Bound o [] x ↔ x = o := Iff.rfl

@[simp] theorem bound_cons : Bound o (b :: bs) x ↔ x = o ∨ Bound (o + b.len) bs x := Iff.rfl

theorem bound_self : Bound o bs o := by
  cases bs with
  | nil => rfl
  | cons b bs => exact .inl rfl

theorem bound_append : Bound o (xs ++ ys) x ↔ Bound o xs x ∨ Bound (o + extent xs) ys x := by
  induction xs generalizing o with
  | nil =>
    refine ⟨.inr, fun h => h.elim (fun h => ?_) id⟩
    rw [h]
    exact bound_self
  | cons a xs ih =>
    rw [List.cons_append, bound_cons, bound_cons, ih, extent_cons, Nat.add_assoc, or_assoc]

theorem Bound.le (h : Bound o bs x) : o ≤ x := by
  induction bs generalizing o with
  | nil => exact Nat.le_of_eq h.symm
  | cons b bs ih =>
    rcases h with rfl | h
    · exact Nat.le_refl _
    · exact Nat.le_trans (Nat.le_add_right _ _) (ih h)

theorem bound_end (o : Nat) (bs : List Block) : Bound o bs (o + extent bs) := by
  induction bs generalizing o with
  | nil => rfl
  | cons b bs ih =>
    have hlater := ih (o + b.len)
    rw [extent_cons, ← Nat.add_assoc]
    exact .inr hlater

/-- A bound is the end, or a block starts there. -/
theorem Bound.cases (h : Bound o bs x) :
    x = o + extent bs ∨ ∃ pre b post, bs = pre ++ b :: post ∧ x = o + extent pre := by
  induction bs generalizing o with
  | nil => exact .inl h
  | cons b bs ih =>
    rcases h with rfl | h
    · exact .inr ⟨[], b, bs, rfl, rfl⟩
    · rcases ih h with rfl | ⟨pre, c, post, rfl, rfl⟩
      · exact .inl (by rw [extent_cons, Nat.add_assoc])
      · exact .inr ⟨b :: pre, c, post, rfl, by rw [extent_cons, Nat.add_assoc]⟩

theorem Bound.split (h : Bound 0 (xs ++ ys) x) (hle : x ≤ extent xs) :
    ∃ first mid, xs = first ++ mid ∧ x = extent first := by
  rcases bound_append.mp h with h | h
  · rcases h.cases with rfl | ⟨first, b, mid, rfl, rfl⟩
    · exact ⟨xs, [], (List.append_nil xs).symm, Nat.zero_add _⟩
    · exact ⟨first, b :: mid, rfl, Nat.zero_add _⟩
  · have hge := h.le
    exact ⟨xs, [], (List.append_nil xs).symm, by omega⟩

/-- Around one block: it has no free neighbour if it is free. -/
theorem spaced_split : Spaced (xs ++ b :: ys) ↔ Spaced xs ∧ Spaced ys ∧
    (∀ a ∈ xs.getLast?, a.used ∨ b.used) ∧ ∀ a ∈ ys.head?, b.used ∨ a.used := by
  simp only [Spaced, List.isChain_append, List.isChain_cons, List.head?_cons, Option.mem_def,
    Option.some.injEq, forall_eq']
  tauto

end

/-! ## Headers -/

section
variable {hs : Nat} {node node' : Nat → Option Node} {o p x y : Nat} {xs ys bs : List Block}

theorem tiled_append : Tiled hs node o p (xs ++ ys) ↔
    Tiled hs node o p xs ∧ Tiled hs node (o + extent xs) (lastStart o p xs) ys := by
  induction xs generalizing o p with
  | nil => exact (and_iff_right trivial).symm
  | cons a xs ih =>
    simp only [List.cons_append, Tiled, ih, extent_cons, lastStart_cons, Nat.add_assoc, and_assoc]

theorem Tiled.congr (h : Tiled hs node o p bs)
    (heq : ∀ x, o ≤ x → x + hs ≤ o + extent bs → node' x = node x) : Tiled hs node' o p bs := by
  induction bs generalizing o p with
  | nil => trivial
  | cons b bs ih =>
    obtain ⟨hnode, hlen, htail⟩ := h
    rw [extent_cons] at heq
    refine ⟨?_, hlen, ih htail fun x hx hx' => heq x (by omega) (by omega)⟩
    rw [heq o (Nat.le_refl o) (by omega)]
    exact hnode

theorem Tiled.header {b : Block} (h : Tiled hs node o p (xs ++ b :: ys)) :
    node (o + extent xs) = some ⟨b.used, o + extent xs + b.len, lastStart o p xs⟩ ∧ hs ≤ b.len :=
  let ⟨_, hnode, hlen, _⟩ := tiled_append.mp h
  ⟨hnode, hlen⟩

theorem Tiled.prev {n : Node} (h : Tiled hs node o p (xs ++ ys)) (hne : ys ≠ [])
    (hn : node (o + extent xs) = some n) : n.prev = lastStart o p xs := by
  cases ys with
  | nil => exact absurd rfl hne
  | cons b ys =>
    obtain rfl := Option.some.inj (hn.symm.trans h.header.1)
    rfl

theorem Tiled.le_extent (h : Tiled hs node o p bs) (hne : bs ≠ []) : hs ≤ extent bs := by
  cases bs with
  | nil => exact absurd rfl hne
  | cons b bs => exact Nat.le_trans h.2.1 (Nat.le_add_right _ _)

/-- Blocks in one place are recut: outside, only the header behind them changes, and only
its back link. -/
theorem Tiled.replace (pre mid mid' post : List Block) {a c : Nat}
    (h : Tiled hs node o p (pre ++ (mid ++ post))) (ha : a = o + extent pre)
    (hc : c = a + extent mid) (hmid : Tiled hs node' a (lastStart o p pre) mid')
    (hlen : extent mid' = extent mid)
    (hlink : ∀ n, post ≠ [] → node c = some n →
      node' c = some { n with prev := lastStart a (lastStart o p pre) mid' })
    (hframe : ∀ x, x + hs ≤ a ∨ c + hs ≤ x → node' x = node x) :
    Tiled hs node' o p (pre ++ (mid' ++ post)) := by
  subst ha hc
  rw [tiled_append, tiled_append] at h ⊢
  obtain ⟨hpre, -, hpost⟩ := h
  refine ⟨hpre.congr fun x _ hx => hframe x (.inl hx), hmid, ?_⟩
  rw [hlen]
  cases post with
  | nil => trivial
  | cons b post =>
    obtain ⟨hnode, hb, htail⟩ := hpost
    exact ⟨hlink _ (List.cons_ne_nil _ _) hnode, hb,
      htail.congr fun x hx _ => hframe x (.inr (by omega))⟩

/-- Only the headers count. -/
theorem Tiled.congr_bound (h : Tiled hs node o p bs)
    (heq : ∀ x, Bound o bs x → node' x = node x) : Tiled hs node' o p bs := by
  induction bs generalizing o p with
  | nil => trivial
  | cons b bs ih =>
    obtain ⟨hnode, hlen, htail⟩ := h
    refine ⟨?_, hlen, ih htail fun x hx => heq x (.inr hx)⟩
    rw [heq o (.inl rfl)]
    exact hnode

/-- Two places where headers begin are the same, or there is room for a header between them. -/
theorem Tiled.bound_apart (h : Tiled hs node o p bs) (hx : Bound o bs x) (hy : Bound o bs y) :
    x = y ∨ x + hs ≤ y ∨ y + hs ≤ x := by
  induction bs generalizing o p with
  | nil => exact .inl (hx.trans hy.symm)
  | cons b bs ih =>
    obtain ⟨-, hlen, htail⟩ := h
    rcases hx with rfl | hx <;> rcases hy with rfl | hy
    · exact .inl rfl
    · have hle := hy.le
      exact .inr (.inl (by omega))
    · have hle := hx.le
      exact .inr (.inr (by omega))
    · exact ih htail hx hy

/-- The headers say what the blocks are. -/
theorem Tiled.unique {bs' : List Block} (h : Tiled hs node o p bs) (h' : Tiled hs node o p bs')
    (hpos : 0 < hs) (hextent : extent bs = extent bs') : bs = bs' := by
  induction bs generalizing o p bs' with
  | nil =>
    cases bs' with
    | nil => rfl
    | cons b bs' =>
      have hle := h'.le_extent (List.cons_ne_nil b bs')
      rw [← hextent, extent_nil] at hle
      omega
  | cons a bs ih =>
    cases bs' with
    | nil =>
      have hle := h.le_extent (List.cons_ne_nil a bs)
      rw [hextent, extent_nil] at hle
      omega
    | cons b bs' =>
      have hnode := Option.some.inj (h.1.symm.trans h'.1)
      obtain ⟨hused, hnext, -⟩ := Node.mk.inj hnode
      have hlen : a.len = b.len := by omega
      rw [extent_cons, extent_cons] at hextent
      have htail := h'.2.2
      rw [← hlen] at htail
      have hab : a = b := by
        cases a
        cases b
        simp_all
      rw [hab, ih h.2.2 htail (by omega)]

/-- Where the headers are as they were, the blocks are. -/
theorem Tiled.agree {bs' : List Block} (h : Tiled hs node o p (xs ++ ys))
    (h' : Tiled hs node' o p bs') (hpos : 0 < hs) (hle : extent xs ≤ extent bs')
    (heq : ∀ x, Bound o xs x → x + hs ≤ o + extent xs → node' x = node x) :
    ∃ zs, bs' = xs ++ zs := by
  induction xs generalizing o p bs' with
  | nil => exact ⟨bs', rfl⟩
  | cons a xs ih =>
    rw [extent_cons] at hle heq
    obtain ⟨hnode, hlen, htail⟩ := h
    cases bs' with
    | nil =>
      rw [extent_nil] at hle
      omega
    | cons b bs' =>
      have hsame := (heq o (.inl rfl) (by omega)).trans hnode
      obtain ⟨hused, hnext, -⟩ := Node.mk.inj (Option.some.inj (h'.1.symm.trans hsame))
      have hab : b.len = a.len := by omega
      have htail' := h'.2.2
      rw [extent_cons] at hle
      rw [hab] at htail' hle
      obtain ⟨zs, rfl⟩ := ih htail htail' (by omega) fun x hx hx' => heq x (.inr hx) (by omega)
      have hba : b = a := by
        cases a
        cases b
        simp_all
      exact ⟨zs, by rw [hba, List.cons_append]⟩

/-- A block marked `u` ends before the next one so marked starts. -/
theorem Tiled.pairwise_starts (h : Tiled hs node o p bs) (u : Bool) :
    (startsOf u o bs).Pairwise fun x y => ∃ n, node x = some n ∧ x + hs ≤ n.next ∧ n.next ≤ y := by
  induction bs generalizing o p with
  | nil => exact .nil
  | cons b bs ih =>
    obtain ⟨hnode, hlen, htail⟩ := h
    by_cases hb : b.used = u
    · subst hb
      rw [startsOf_cons_self]
      refine List.pairwise_cons.mpr ⟨fun y hy => ⟨_, hnode, by dsimp only; omega, ?_⟩, ih htail⟩
      obtain ⟨pre, c, post, -, -, rfl⟩ := mem_startsOf hy
      exact Nat.le_add_right _ _
    · rw [startsOf_cons_ne hb]
      exact ih htail

end

end ControlRTT.Lib.Tiling
