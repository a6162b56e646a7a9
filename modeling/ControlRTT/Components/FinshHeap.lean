import ControlRTT.Lib.CInt
import ControlRTT.Lib.LinkedList
import ControlRTT.Lib.Runs
import ControlRTT.Lib.Tiling

/-! # The heap of the FinSH shell

`components/finsh/finsh_heap.c`. A block is a header and its data; free and allocated blocks are
linked in two lists by address. A request is cut off the front of the first free block that has
room for it and one more header, so that behind an allocated block there is always a free one,
if only of no data. That is why `finsh_block_insert`, which keeps the link of a block that
comes last, never meets an old one there (`Inv.lastFree`). The size of a request is rounded up
and a header added in 32 bits, where a request of nearly 4 GiB comes to nothing; all others
leave the blocks in order (`heap_throughout`). -/
namespace ControlRTT.Components.FinshHeap
open Lib.CInt Lib.LinkedList Lib.Runs Lib.Tiling

/-- `FINSH_HEAP_MAX` -/
def finshHeapMax : Nat := 128

/-- `sizeof(struct finsh_block_header)` -/
def headerSize : Nat := 8

/-- A header is named by its offset from the start of the heap. The data of the blocks are left
out: all that is done to them is that `finsh_heap_allocate` clears the ones it returns. -/
structure Heap where
  freeList : Option Nat
  allocateList : Option Nat
  length : Nat → Nat
  next : Nat → Option Nat

/-- An entry of `global_variable`: whether it has a type, and its value read as a pointer. -/
structure FinshVar where
  known : Bool
  ptr : Nat
  deriving DecidableEq, Repr

def finshBlockGetHeader (data : Nat) : Nat := data - headerSize

def finshBlockGetData (header : Nat) : Nat := header + headerSize

/-- `HEAP_ALIGN_SIZE`, for a `HEAP_ALIGNMENT` of 4. -/
def heapAlignSize (size : Nat) : Nat := u32 (size + 3) / 4 * 4

/-- `finsh_block_insert`: the list and the links afterwards. -/
def finshBlockInsert (next : Nat → Option Nat) (list : Option Nat) (header : Nat) :
    Option Nat × (Nat → Option Nat) :=
  match list with
  | none => (some header, next)
  | some first =>
    if header < first then (some header, Function.update next header (some first))
    else
      match (walk next finshHeapMax list).find? fun node => (next node).all (header < ·) with
      | none => (list, next)
      | some node =>
        let kept := if (next node).isSome then Function.update next header (next node) else next
        (list, Function.update kept node (some header))

def finshBlockRemove (next : Nat → Option Nat) (list : Option Nat) (header : Nat) :
    Option Nat × (Nat → Option Nat) :=
  if list = some header then (next header, Function.update next header none)
  else
    match (walk next finshHeapMax list).find? fun node => next node == some header with
    | none => (list, next)
    | some node => (list, Function.update next node (next header))

namespace Heap

def finshBlockSplit (s : Heap) (header size : Nat) : Heap :=
  let next := u32 (header + headerSize + size)
  let rest := usub (usub (s.length header) headerSize) size
  { s with
    length := Function.update (Function.update s.length next rest) header size
    next := Function.update (Function.update s.next next (s.next header)) header (some next) }

/-- The block at `node` ends where the block at `header` starts. -/
def closes (s : Heap) (node header : Nat) : Bool :=
  u32 (node + s.length node + headerSize) = header

def finshBlockMerge (s : Heap) (list : Option Nat) (header : Nat) : Heap :=
  let nextNode := (s.next header).filter fun node => s.closes header node
  let prevNode :=
    if list = some header then none
    else (walk s.next finshHeapMax list).find? fun node => s.next node == some header
  match prevNode.filter fun node => s.closes node header, nextNode with
  | some prev, some next =>
    { s with
      length := Function.update s.length prev
        (u32 (s.length prev + (s.length header + s.length next + 2 * headerSize)))
      next := Function.update s.next prev (s.next next) }
  | some prev, none =>
    { s with
      length := Function.update s.length prev
        (u32 (s.length prev + (s.length header + headerSize)))
      next := Function.update s.next prev (s.next header) }
  | none, some next =>
    { s with
      length := Function.update s.length header
        (u32 (s.length header + (s.length next + headerSize)))
      next := Function.update s.next header (s.next next) }
  | none, none => s

def finshHeapFree (s : Heap) (ptr : Nat) : Heap :=
  let header := finshBlockGetHeader ptr
  let (allocateList, next) := finshBlockRemove s.next s.allocateList header
  let (freeList, next) := finshBlockInsert next s.freeList header
  finshBlockMerge { s with freeList, allocateList, next } freeList header

/-- The loop of `finsh_heap_gc`, from the header it has come to. -/
def gcFrom (vars : List FinshVar) : Nat → Option Nat → Heap → Heap
  | 0, _, s => s
  | _ + 1, none, s => s
  | fuel + 1, some header, s =>
    let next := s.next header
    if vars.any fun v => v.known && v.ptr == finshBlockGetData header then
      gcFrom vars fuel next s
    else gcFrom vars fuel next (s.finshHeapFree (finshBlockGetData header))

def finshHeapGc (s : Heap) (vars : List FinshVar) : Heap :=
  gcFrom vars finshHeapMax s.allocateList s

/-- The second half of `finsh_heap_allocate`, once a free block is found. -/
def take (s : Heap) (header size : Nat) : Heap :=
  let s := s.finshBlockSplit header size
  let (freeList, next) := finshBlockRemove s.next s.freeList header
  let (allocateList, next) :=
    finshBlockInsert (Function.update next header none) s.allocateList header
  { s with freeList, allocateList, next }

/-- `finsh_heap_allocate`: the header of the block it returns, if it finds one. -/
def finshHeapAllocate (s : Heap) (vars : List FinshVar) (size : Nat) : Option Nat × Heap :=
  let size := heapAlignSize size
  match (walk s.next finshHeapMax s.freeList).find?
      fun header => u32 (size + headerSize) < s.length header with
  | some header => (some header, s.take header size)
  | none =>
    let s := s.finshHeapGc vars
    match (walk s.next finshHeapMax s.freeList).find?
        fun header => u32 (size + headerSize) ≤ s.length header with
    | some header => (some header, s.take header size)
    | none => (none, s)

end Heap

/-- `finsh_heap_init` -/
def finshHeapInit : Heap where
  freeList := some 0
  allocateList := none
  length := Function.update (fun _ => 0) 0 (finshHeapMax - headerSize)
  next := fun _ => none

/-! ## Runs -/

/-- `asked` is no part of the code: the size that the caller asked for who was given the block. -/
structure System where
  heap : Heap
  asked : Nat → Nat

def initial : System := ⟨finshHeapInit, fun _ => 0⟩

/-- A caller releases a block it has. What the shell's variables hold when the collector comes is
up to the shell. -/
inductive Event
  | allocate (size : Nat) (vars : List FinshVar)
  | free (ptr : Nat)
  | gc (vars : List FinshVar)
  deriving DecidableEq, Repr

def System.step (s : System) : Event → Option System
  | .allocate size vars =>
    if size < 2 ^ 32 then
      match s.heap.finshHeapAllocate vars size with
      | (some header, heap) => some ⟨heap, Function.update s.asked header size⟩
      | (none, heap) => some ⟨heap, s.asked⟩
    else none
  | .free ptr =>
    if headerSize ≤ ptr ∧
        finshBlockGetHeader ptr ∈ walk s.heap.next finshHeapMax s.heap.allocateList then
      some { s with heap := s.heap.finshHeapFree ptr }
    else none
  | .gc vars => some { s with heap := s.heap.finshHeapGc vars }

/-- The headers of the blocks, of which the first starts at `o`, say how long they are. An allocated
block is as long as its owner asked for. -/
def Headers (length asked : Nat → Nat) (o : Nat) : List Block → Prop
  | [] => True
  | b :: bs =>
    length o + headerSize = b.len ∧ (b.used → asked o ≤ length o) ∧
      Headers length asked (o + b.len) bs

/-- The blocks `bs` tile the heap and are linked in their lists. -/
structure Laid (s : Heap) (asked : Nat → Nat) (bs : List Block) : Prop where
  tiles : extent bs = finshHeapMax
  headers : Headers s.length asked 0 bs
  free : Chain s.next s.freeList (startsOf false 0 bs)
  allocated : Chain s.next s.allocateList (startsOf true 0 bs)

/-- What the heap is to keep. -/
structure Keeps (s : System) (bs : List Block) : Prop where
  laid : Laid s.heap s.asked bs
  ordered : ∀ u, (startsOf u 0 bs).Pairwise (· < ·)
  disjoint : List.Disjoint (startsOf false 0 bs) (startsOf true 0 bs)
  coalesced : Spaced bs
  /-- The data of a live block end before the next one begins. -/
  apart : (startsOf true 0 bs).Pairwise fun x y =>
    finshBlockGetData x + s.asked x ≤ y

/-- The size of a request survives that it is rounded up and a header added. -/
def Event.Small : Event → Prop
  | .allocate size _ => size ≤ 2 ^ 32 - 12
  | _ => True

/-! ## Lists by address -/

section
variable {next : Nat → Option Nat} {p : Option Nat} {xs ys : List Nat} {o : Nat}

theorem finshBlockRemove_chain (h : Chain next p (xs ++ o :: ys)) (hnodup : (xs ++ o :: ys).Nodup)
    (hfuel : (xs ++ o :: ys).length ≤ finshHeapMax) :
    Chain (finshBlockRemove next p o).2 (finshBlockRemove next p o).1 (xs ++ ys) ∧
      ∀ b, b ∉ xs → b ≠ o → (finshBlockRemove next p o).2 b = next b := by
  have hxs : o ∉ xs := fun hmem => (List.disjoint_of_nodup_append hnodup) hmem List.mem_cons_self
  have hys : o ∉ ys := (List.nodup_cons.mp hnodup.of_append_right).1
  unfold finshBlockRemove
  obtain rfl | ⟨xs, a, rfl⟩ := List.eq_nil_or_concat xs
  · rw [if_pos h.1]
    exact ⟨h.rest.update hys none, fun b _ hb => Function.update_of_ne hb _ _⟩
  · rw [List.concat_eq_append] at h hnodup hfuel hxs ⊢
    have hhead : p ≠ some o := by
      rintro rfl
      cases xs with
      | nil => exact hxs (List.mem_singleton.mpr (Option.some.inj h.1))
      | cons x xs => exact hxs (Option.some.inj h.1 ▸ List.mem_cons_self)
    rw [List.append_assoc, List.singleton_append] at h hnodup hfuel
    have hne : ∀ b ∈ xs ++ [a], (some b == some o) = false := fun b hb =>
      beq_false_of_ne fun heq => hxs (Option.some.inj heq ▸ hb)
    rw [if_neg hhead, h.walk_eq hfuel,
      h.find_before (f := fun q => q == some o) hne (beq_self_eq_true _)]
    have ha : a ∉ xs := fun hmem => (List.disjoint_of_nodup_append hnodup) hmem List.mem_cons_self
    have hays : a ∉ ys := fun hmem => (List.nodup_cons.mp hnodup.of_append_right).1
      (List.mem_cons_of_mem o hmem)
    refine ⟨?_, fun b hb _ => Function.update_of_ne (fun hba => hb ?_) _ _⟩
    · rw [List.append_assoc, List.singleton_append]
      exact h.relink ha h.rest.2 hays
    · exact hba ▸ List.mem_append_right _ List.mem_cons_self

/-- The link of the header is not written where it comes last: there it has to be null before. -/
theorem finshBlockInsert_chain (h : Chain next p (xs ++ ys)) (hxs : ∀ x ∈ xs, x < o)
    (hys : ∀ y ∈ ys, o < y) (hnodup : xs.Nodup) (hfuel : (xs ++ ys).length ≤ finshHeapMax)
    (hend : ys = [] → next o = none) :
    Chain (finshBlockInsert next p o).2 (finshBlockInsert next p o).1 (xs ++ o :: ys) ∧
      ∀ b, b ∉ xs → b ≠ o → (finshBlockInsert next p o).2 b = next b := by
  have hoxs : o ∉ xs := fun hmem => Nat.lt_irrefl o (hxs o hmem)
  have hoys : o ∉ ys := fun hmem => Nat.lt_irrefl o (hys o hmem)
  unfold finshBlockInsert
  obtain rfl | ⟨xs, a, rfl⟩ := List.eq_nil_or_concat xs
  · cases ys with
    | nil =>
      obtain rfl : p = none := h
      exact ⟨⟨rfl, hend rfl⟩, fun b _ _ => rfl⟩
    | cons y ys =>
      obtain rfl : p = some y := h.1
      dsimp only
      rw [if_pos (hys y List.mem_cons_self)]
      exact ⟨h.push hoys, fun b _ hb => Function.update_of_ne hb _ _⟩
  · rw [List.concat_eq_append] at h hnodup hfuel hxs hoxs ⊢
    have ha : a ∉ xs := fun hmem =>
      (List.disjoint_of_nodup_append hnodup) hmem List.mem_cons_self
    obtain ⟨first, hfirst, rfl⟩ : ∃ first ∈ xs ++ [a], p = some first := by
      rw [h.eq_head]
      cases xs with
      | nil => exact ⟨a, List.mem_cons_self, rfl⟩
      | cons x xs => exact ⟨x, List.mem_cons_self, rfl⟩
    rw [List.append_assoc, List.singleton_append] at h hfuel
    have hbefore : ∀ b ∈ xs ++ [a], (some b).all (o < ·) = false := fun b hb =>
      decide_eq_false (Nat.not_lt_of_gt (hxs b hb))
    have hafter : ys.head?.all (o < ·) = true := by
      cases ys with
      | nil => rfl
      | cons y ys => exact decide_eq_true (hys y List.mem_cons_self)
    dsimp only
    rw [if_neg (Nat.not_lt_of_gt (hxs first hfirst)), h.walk_eq hfuel,
      h.find_before (f := fun q => q.all (o < ·)) hbefore hafter]
    dsimp only
    have hao : a ≠ o := Nat.ne_of_lt (hxs a (List.mem_append_right _ List.mem_cons_self))
    have hays : a ∉ o :: ys := fun hmem => by
      have hlt := hxs a (List.mem_append_right _ List.mem_cons_self)
      rcases List.mem_cons.mp hmem with rfl | hmem
      · exact hao rfl
      · exact Nat.lt_asymm hlt (hys a hmem)
    have hnext : next a = ys.head? := h.rest.eq_head
    rw [List.append_assoc, List.singleton_append, hnext]
    cases ys with
    | nil =>
      refine ⟨h.relink ha ⟨rfl, hend rfl⟩ hays, fun b hb _ => Function.update_of_ne ?_ _ _⟩
      exact fun hba => hb (hba ▸ List.mem_append_right _ List.mem_cons_self)
    | cons y ys =>
      have hkept : o ∉ xs ++ a :: y :: ys := by
        rw [List.mem_append, List.mem_cons, not_or, not_or]
        exact ⟨fun hmem => hoxs (List.mem_append_left _ hmem), Ne.symm hao, hoys⟩
      have hrest : Chain (Function.update next o (some y)) (some o) (o :: y :: ys) := by
        refine Chain.push ?_ hoys
        rw [← List.head?_cons (a := y) (l := ys), ← hnext]
        exact h.rest
      refine ⟨(h.update hkept (some y)).relink ha hrest hays, fun b hb hbo => ?_⟩
      have hba : b ≠ a := fun hba => hb (hba ▸ List.mem_append_right _ List.mem_cons_self)
      rw [Function.update_of_ne hba, List.head?_cons, Option.isSome_some, if_pos rfl,
        Function.update_of_ne hbo]

end

/-! ## Blocks -/

section
variable {length length' asked asked' : Nat → Nat} {o : Nat} {xs ys bs : List Block}

theorem headers_append : Headers length asked o (xs ++ ys) ↔
    Headers length asked o xs ∧ Headers length asked (o + extent xs) ys := by
  induction xs generalizing o with
  | nil => exact (and_iff_right trivial).symm
  | cons b xs ih =>
    simp only [List.cons_append, Headers, ih, extent_cons, Nat.add_assoc, and_assoc]

theorem Headers.pos (h : Headers length asked o bs) : ∀ b ∈ bs, 0 < b.len := by
  induction bs generalizing o with
  | nil => exact fun b hb => by cases hb
  | cons b bs ih =>
    obtain ⟨hlen, -, hlater⟩ := h
    exact List.forall_mem_cons.mpr ⟨hlen ▸ Nat.lt_add_left _ (by decide), ih hlater⟩

theorem Headers.congr (h : Headers length asked o bs)
    (hsame : ∀ x, o ≤ x → x < o + extent bs → length' x = length x ∧ asked' x = asked x) :
    Headers length' asked' o bs := by
  induction bs generalizing o with
  | nil => trivial
  | cons b bs ih =>
    have hpos := h.pos b List.mem_cons_self
    obtain ⟨hlen, hasked, hlater⟩ := h
    rw [extent_cons] at hsame
    obtain ⟨hl, ha⟩ := hsame o (Nat.le_refl o) (by omega)
    unfold Headers
    rw [hl, ha]
    exact ⟨hlen, hasked, ih hlater fun x hx hlt => hsame x (by omega) (by omega)⟩

theorem Headers.header {b : Block} (h : Headers length asked o (xs ++ b :: ys)) :
    length (o + extent xs) + headerSize = b.len :=
  (headers_append.mp h).2.1

/-- Blocks in one place are recut, and only headers in that place change. -/
theorem Headers.replace (pre mid mid' post : List Block)
    (h : Headers length asked 0 (pre ++ (mid ++ post)))
    (hmid : Headers length' asked' (extent pre) mid') (hlen : extent mid' = extent mid)
    (hsame : ∀ x, x < extent pre ∨ extent pre + extent mid ≤ x →
      length' x = length x ∧ asked' x = asked x) :
    Headers length' asked' 0 (pre ++ (mid' ++ post)) := by
  rw [headers_append, headers_append, Nat.zero_add] at h ⊢
  obtain ⟨hpre, -, hpost⟩ := h
  rw [hlen]
  exact ⟨hpre.congr fun x _ hx => hsame x (.inl (Nat.zero_add (extent pre) ▸ hx)), hmid,
    hpost.congr fun x hx _ => hsame x (.inr hx)⟩

end

section
variable {next : Nat → Option Nat} {p q : Option Nat} {pre post : List Block} {len : Nat} {u : Bool}

/-- A block is taken out of one list and put into the other. In between its link may be written, and
it has to be null if no block that is in the other list comes after. -/
theorem move_chain (hpos : ∀ b ∈ pre ++ ⟨len, u⟩ :: post, 0 < b.len)
    (hmax : extent (pre ++ ⟨len, u⟩ :: post) = finshHeapMax)
    (hp : Chain next p (startsOf u 0 (pre ++ ⟨len, u⟩ :: post)))
    (hq : Chain next q (startsOf (!u) 0 (pre ++ ⟨len, u⟩ :: post))) {n : Nat → Option Nat}
    (hn : ∀ b ≠ extent pre, n b = (finshBlockRemove next p (extent pre)).2 b)
    (hend : startsOf (!u) (extent pre + len) post = [] → n (extent pre) = none) :
    Chain (finshBlockInsert n q (extent pre)).2 (finshBlockRemove next p (extent pre)).1
        (startsOf u 0 (pre ++ ⟨len, !u⟩ :: post)) ∧
      Chain (finshBlockInsert n q (extent pre)).2 (finshBlockInsert n q (extent pre)).1
        (startsOf (!u) 0 (pre ++ ⟨len, !u⟩ :: post)) := by
  have hnodup := (startsOf_ordered hpos u 0).imp Nat.ne_of_lt
  have hdisjoint := startsOf_disjoint hpos u 0
  have hle := length_startsOf_le hpos u 0
  have hle' := length_startsOf_le hpos (!u) 0
  have hordered := startsOf_ordered hpos (!u) 0
  have hlen : 0 < len := hpos _ (List.mem_append_right _ List.mem_cons_self)
  have hpre : ∀ b ∈ pre, 0 < b.len := fun b hb => hpos b (List.mem_append_left _ hb)
  rw [hmax] at hle hle'
  have hself := startsOf_split pre post ⟨len, u⟩ 0
  have hother : startsOf (!u) 0 (pre ++ ⟨len, u⟩ :: post) =
      startsOf (!u) 0 pre ++ startsOf (!u) (0 + extent pre + len) post :=
    startsOf_split_ne (Bool.eq_not_self u |>.mp)
  have hself' : startsOf (!u) 0 (pre ++ ⟨len, !u⟩ :: post) = _ :=
    startsOf_split pre post ⟨len, !u⟩ 0
  have hother' : startsOf u 0 (pre ++ ⟨len, !u⟩ :: post) =
      startsOf u 0 pre ++ startsOf u (0 + extent pre + len) post :=
    startsOf_split_ne (Bool.not_eq_self u |>.mp)
  rw [Nat.zero_add] at hself hother hself' hother'
  dsimp only at hself hself'
  rw [hself] at hp hnodup hle hdisjoint
  rw [hother] at hq hle' hdisjoint hordered
  rw [hself', hother']
  obtain ⟨hremoved, hframe⟩ := finshBlockRemove_chain hp hnodup hle
  have hne : ∀ b ∈ startsOf (!u) 0 pre ++ startsOf (!u) (extent pre + len) post,
      b ∉ startsOf u 0 pre ∧ b ≠ extent pre := fun b hb =>
    ⟨fun hmem => hdisjoint (List.mem_append_left _ hmem) hb, fun heq =>
      hdisjoint (List.mem_append_right _ (heq ▸ List.mem_cons_self)) hb⟩
  have hq' := hq.congr fun b hb => (hn b (hne b hb).2).trans (hframe b (hne b hb).1 (hne b hb).2)
  have hlt : ∀ v, ∀ x ∈ startsOf v 0 pre, x < extent pre := fun v x hx => by
    have := lt_of_mem_startsOf hpre hx
    omega
  have hgt : ∀ v, ∀ x ∈ startsOf v (extent pre + len) post, extent pre < x := fun v x hx => by
    have := ge_of_mem_startsOf hx
    omega
  obtain ⟨hinserted, hframe'⟩ := finshBlockInsert_chain hq' (hlt _) (hgt _)
    ((List.pairwise_append.mp hordered).1.imp Nat.ne_of_lt) hle' hend
  refine ⟨hremoved.congr fun b hb => ?_, hinserted⟩
  have hbo : b ≠ extent pre := by
    rcases List.mem_append.mp hb with hb | hb
    · exact Nat.ne_of_lt (hlt _ b hb)
    · exact Nat.ne_of_gt (hgt _ b hb)
  have hout : b ∉ startsOf (!u) 0 pre := fun hmem => by
    refine hdisjoint ?_ (List.mem_append_left _ hmem)
    rcases List.mem_append.mp hb with hb | hb
    · exact List.mem_append_left _ hb
    · exact List.mem_append_right _ (List.mem_cons_of_mem _ hb)
  rw [hframe' b hout hbo, hn b hbo]

end

/-! ## Cutting a block -/

section
variable {s : Heap} {asked : Nat → Nat} {pre post mid bs : List Block} {len size : Nat}

theorem Laid.le (h : Laid s asked (pre ++ ⟨len, false⟩ :: post)) :
    extent pre + len ≤ finshHeapMax := by
  rw [← h.tiles, extent_append, extent_cons]
  exact Nat.add_le_add_left (Nat.le_add_right _ _) _

/-- The start of a block is in no other list than its own. -/
theorem Laid.not_mem (h : Laid s asked (pre ++ ⟨len, false⟩ :: post)) :
    extent pre ∉ startsOf true 0 (pre ++ ⟨len, false⟩ :: post) := by
  refine startsOf_disjoint h.headers.pos false 0 ?_
  have hself := startsOf_split pre post ⟨len, false⟩ 0
  rw [Nat.zero_add] at hself
  exact hself ▸ List.mem_append_right _ List.mem_cons_self

theorem Laid.not_mem_free (h : Laid s asked (pre ++ ⟨len, false⟩ :: post)) :
    extent pre ∉ startsOf false 0 pre ∧ extent pre ∉ startsOf false (extent pre + len) post := by
  have hpos := h.headers.pos
  have hlen : 0 < len := hpos _ (List.mem_append_right _ List.mem_cons_self)
  constructor
  · intro hmem
    have := lt_of_mem_startsOf (fun b hb => hpos b (List.mem_append_left _ hb)) hmem
    omega
  · intro hmem
    have := ge_of_mem_startsOf hmem
    omega

theorem Laid.split (h : Laid s asked (pre ++ ⟨len, false⟩ :: post))
    (hsize : size + 2 * headerSize ≤ len) :
    Laid (s.finshBlockSplit (extent pre) size) asked
      (pre ++ ⟨size + headerSize, false⟩ :: ⟨len - (size + headerSize), false⟩ :: post) := by
  have hle := h.le
  have hlength := h.headers.header
  have hpos := h.headers.pos
  rw [Nat.zero_add] at hlength
  have h8 : headerSize = 8 := rfl
  have hmax : finshHeapMax = 128 := rfl
  dsimp only at hlength
  have hnext : u32 (extent pre + headerSize + size) = extent pre + (size + headerSize) := by
    rw [u32_of_lt (by omega)]
    omega
  have hrest : usub (usub (s.length (extent pre)) headerSize) size =
      len - (size + 2 * headerSize) := by
    have hinner : usub (s.length (extent pre)) headerSize = s.length (extent pre) - headerSize :=
      usub_of_le (by omega) (by omega)
    rw [hinner, usub_of_le (by omega) (by omega)]
    omega
  unfold Heap.finshBlockSplit
  dsimp only
  rw [hnext, hrest]
  have hout : ∀ u, extent pre + (size + headerSize) ∉
      startsOf u 0 (pre ++ ⟨len, false⟩ :: post) := by
    intro u hmem
    rw [startsOf_append, Nat.zero_add, List.mem_append] at hmem
    rcases hmem with hmem | hmem
    · have := lt_of_mem_startsOf (fun b hb => hpos b (List.mem_append_left _ hb)) hmem
      omega
    · cases u with
      | false =>
        rw [startsOf_mk_self, List.mem_cons] at hmem
        rcases hmem with heq | hmem
        · omega
        · have := ge_of_mem_startsOf hmem
          omega
      | true =>
        have := ge_of_mem_startsOf (startsOf_true_mk_false len ▸ hmem)
        omega
  have hself := startsOf_split pre post ⟨len, false⟩ 0
  rw [Nat.zero_add] at hself
  dsimp only at hself
  have hlen : extent pre + (size + headerSize) + (len - (size + headerSize)) =
      extent pre + len := by
    omega
  refine ⟨?_, h.headers.replace pre [⟨len, false⟩] [_, _] post ?_ ?_ ?_, ?_, ?_⟩
  · rw [← h.tiles]
    simp only [extent_append, extent_cons]
    omega
  · refine ⟨congrArg (· + headerSize) (Function.update_self _ _ _),
      (absurd · Bool.false_ne_true), ?_, (absurd · Bool.false_ne_true), trivial⟩
    dsimp only
    rw [Function.update_of_ne (by omega), Function.update_self]
    omega
  · simp only [extent_cons, extent_nil]
    omega
  · intro x hx
    simp only [extent_cons, extent_nil] at hx
    dsimp only
    rw [Function.update_of_ne (by omega), Function.update_of_ne (by omega)]
    exact ⟨rfl, rfl⟩
  · have hfree := h.free
    have hcut := startsOf_split pre (⟨len - (size + headerSize), false⟩ :: post)
      ⟨size + headerSize, false⟩ 0
    rw [Nat.zero_add] at hcut
    dsimp only at hcut
    rw [hcut, startsOf_mk_self, hlen]
    have hmem := hout false
    rw [hself] at hfree hmem
    have hpost : extent pre + (size + headerSize) ∉ startsOf false (extent pre + len) post :=
      fun hx => hmem (List.mem_append_right _ (List.mem_cons_of_mem _ hx))
    obtain ⟨hpre, hpost'⟩ := h.not_mem_free
    refine (hfree.update hmem _).relink hpre (hfree.rest.push hpost) ?_
    rw [List.mem_cons, not_or]
    exact ⟨by omega, hpost'⟩
  · have hsame : startsOf true 0
        (pre ++ ⟨size + headerSize, false⟩ :: ⟨len - (size + headerSize), false⟩ :: post) =
        startsOf true 0 (pre ++ ⟨len, false⟩ :: post) := by
      rw [startsOf_append, startsOf_append, startsOf_true_mk_false, startsOf_true_mk_false,
        startsOf_true_mk_false, Nat.zero_add, hlen]
    rw [hsame]
    exact (h.allocated.update (hout true) _).update h.not_mem _

theorem Laid.take (h : Laid s asked (pre ++ ⟨len, false⟩ :: post))
    (hsize : size + 2 * headerSize ≤ len) {n : Nat} (hn : n ≤ size) :
    Laid (s.take (extent pre) size) (Function.update asked (extent pre) n)
      (pre ++ ⟨size + headerSize, true⟩ :: ⟨len - (size + headerSize), false⟩ :: post) := by
  have hcut := h.split hsize
  have hpos := hcut.headers.pos
  have hlength := hcut.headers.header
  rw [Nat.zero_add] at hlength
  obtain ⟨hfree, hused⟩ := move_chain (n := Function.update _ (extent pre) none) hpos hcut.tiles
    hcut.free hcut.allocated (fun b hb => Function.update_of_ne hb _ _)
    fun _ => Function.update_self _ _ _
  refine ⟨?_, ?_, hfree, hused⟩
  · rw [← hcut.tiles]
    simp only [extent_append, extent_cons]
  · refine hcut.headers.replace pre [⟨size + headerSize, false⟩] [⟨size + headerSize, true⟩] _
      ⟨hlength, fun _ => ?_, trivial⟩ rfl fun x hx => ⟨rfl, ?_⟩
    · rw [Function.update_self]
      exact Nat.le_trans hn (Nat.le_of_eq (Nat.add_right_cancel hlength).symm)
    · simp only [extent_cons, extent_nil] at hx
      have h8 : headerSize = 8 := rfl
      exact Function.update_of_ne (by omega) _ _

/-! ## Joining blocks -/

theorem startsOf_true_of_free (h : ∀ b ∈ mid, b.used = false) (o : Nat) :
    startsOf true o mid = [] := by
  induction mid generalizing o with
  | nil => rfl
  | cons b mid ih =>
    obtain ⟨hb, hmid⟩ := List.forall_mem_cons.mp h
    rw [startsOf_cons_ne (by rw [hb]; decide), ih hmid]

theorem startsOf_true_join (h : ∀ b ∈ mid, b.used = false) :
    startsOf true 0 (pre ++ ⟨len + extent mid, false⟩ :: post) =
      startsOf true 0 (pre ++ ⟨len, false⟩ :: (mid ++ post)) := by
  rw [startsOf_append, startsOf_append, startsOf_true_mk_false, startsOf_true_mk_false,
    startsOf_append, startsOf_true_of_free h, List.nil_append, Nat.add_assoc, Nat.add_assoc,
    Nat.add_assoc]

/-- The first of some free blocks takes in the others. -/
theorem Laid.join (mid : List Block) (h : Laid s asked (pre ++ ⟨len, false⟩ :: (mid ++ post)))
    (hmid : ∀ b ∈ mid, b.used = false) {q : Option Nat} {n : Nat}
    (hq : Chain s.next q (startsOf false (extent pre + (len + extent mid)) post))
    (hn : n + headerSize = len + extent mid) :
    Laid { s with
        length := Function.update s.length (extent pre) (u32 n)
        next := Function.update s.next (extent pre) q } asked
      (pre ++ ⟨len + extent mid, false⟩ :: post) := by
  have h8 : headerSize = 8 := rfl
  have hmax : extent pre + (len + (extent mid + extent post)) = 128 := by
    have := h.tiles
    rwa [extent_append, extent_cons, extent_append] at this
  have hself := startsOf_split pre (mid ++ post) ⟨len, false⟩ 0
  have hself' := startsOf_split pre post ⟨len + extent mid, false⟩ 0
  rw [Nat.zero_add] at hself hself'
  have hlen : 0 < len := h.headers.pos _ (List.mem_append_right _ List.mem_cons_self)
  have hout : extent pre ∉ startsOf false (extent pre + (len + extent mid)) post := fun hmem => by
    have := ge_of_mem_startsOf hmem
    omega
  have hrecut := h.headers
  refine ⟨?_, Headers.replace pre (⟨len, false⟩ :: mid) [⟨len + extent mid, false⟩] post hrecut
    ⟨?_, (absurd · Bool.false_ne_true), trivial⟩ ?_ fun x hx => ⟨?_, rfl⟩, ?_, ?_⟩
  · rw [← h.tiles]
    simp only [extent_append, extent_cons, Nat.add_assoc]
  · dsimp only
    rw [Function.update_self, u32_of_lt (by omega), hn]
  · simp only [extent_cons, extent_nil, Nat.add_zero]
  · simp only [extent_cons] at hx
    exact Function.update_of_ne (by omega) _ _
  · have hfree := h.free
    rw [hself] at hfree
    rw [hself']
    exact hfree.relink h.not_mem_free.1 hq hout
  · rw [startsOf_true_join hmid]
    exact h.allocated.update h.not_mem _

theorem Laid.length_eq {b : Block} (h : Laid s asked (pre ++ b :: post)) :
    s.length (extent pre) + headerSize = b.len := by
  have hlength := h.headers.header
  rwa [Nat.zero_add] at hlength

theorem Laid.closes_iff {b : Block} {y : Nat} (h : Laid s asked (pre ++ b :: post)) :
    s.closes (extent pre) y = true ↔ extent pre + b.len = y := by
  have hlength := h.headers.header
  have hmax := h.tiles
  rw [extent_append, extent_cons] at hmax
  rw [Nat.zero_add] at hlength
  have hle : finshHeapMax = 128 := rfl
  unfold Heap.closes
  rw [Nat.add_assoc, hlength, u32_of_lt (by omega), decide_eq_true_iff]

/-- The next free block, if it starts where this one ends. -/
theorem Laid.next_closing (h : Laid s asked (pre ++ ⟨len, false⟩ :: post)) :
    (∃ d later, post = ⟨d, false⟩ :: later ∧
        (s.next (extent pre)).filter (fun node => s.closes (extent pre) node) =
          some (extent pre + len)) ∨
      ((∀ a ∈ post.head?, a.used = true) ∧
        (s.next (extent pre)).filter (fun node => s.closes (extent pre) node) = none) := by
  have hself := startsOf_split pre post ⟨len, false⟩ 0
  rw [Nat.zero_add] at hself
  have hfree := h.free
  rw [hself] at hfree
  have hnext : s.next (extent pre) = (startsOf false (extent pre + len) post).head? :=
    hfree.rest.eq_head
  have hpos := h.headers.pos
  rw [hnext]
  match post with
  | [] => exact .inr ⟨fun a ha => (by cases ha), rfl⟩
  | ⟨d, false⟩ :: later =>
    refine .inl ⟨d, later, rfl, ?_⟩
    rw [startsOf_mk_self, List.head?_cons]
    exact Option.filter_some_pos (h.closes_iff.mpr rfl)
  | ⟨d, true⟩ :: later =>
    refine .inr ⟨fun a ha => Option.some.inj ha ▸ rfl, ?_⟩
    rw [startsOf_false_mk_true, Option.filter_eq_none_iff]
    intro x hx
    have hge := ge_of_mem_startsOf (List.mem_of_mem_head? hx)
    have hd : 0 < d := hpos ⟨d, true⟩
      (List.mem_append_right _ (List.mem_cons_of_mem _ List.mem_cons_self))
    rw [h.closes_iff]
    dsimp only
    omega

/-- The node that `finsh_block_merge` finds is the last free block before this one. -/
theorem Laid.prev_eq (h : Laid s asked (pre ++ ⟨len, false⟩ :: post)) :
    (if s.freeList = some (extent pre) then none
      else (walk s.next finshHeapMax s.freeList).find? fun node =>
        s.next node == some (extent pre)) = (startsOf false 0 pre).getLast? := by
  have hself := startsOf_split pre post ⟨len, false⟩ 0
  rw [Nat.zero_add] at hself
  have hfree := h.free
  have hfuel := length_startsOf_le h.headers.pos false 0
  have hout := h.not_mem_free.1
  rw [hself] at hfree hfuel
  rw [h.tiles] at hfuel
  rw [hfree.walk_eq hfuel]
  generalize startsOf false 0 pre = xs at *
  obtain rfl | ⟨xs, a, rfl⟩ := List.eq_nil_or_concat xs
  · exact if_pos hfree.1
  · rw [List.concat_eq_append] at hfree hout ⊢
    have hhead : s.freeList ≠ some (extent pre) := fun heq => by
      cases xs with
      | nil => exact hout (List.mem_singleton.mpr (Option.some.inj (heq.symm.trans hfree.1)))
      | cons x xs => exact hout (Option.some.inj (heq.symm.trans hfree.1) ▸ List.mem_cons_self)
    rw [List.append_assoc, List.singleton_append] at hfree ⊢
    have hne : ∀ b ∈ xs ++ [a], (some b == some (extent pre)) = false := fun b hb =>
      beq_false_of_ne fun heq => hout (Option.some.inj heq ▸ hb)
    rw [if_neg hhead, List.getLast?_concat]
    exact hfree.find_before (f := fun q => q == some (extent pre)) hne (beq_self_eq_true _)

/-- The free block before, if it ends where this one starts. -/
theorem Laid.prev_closing (h : Laid s asked (pre ++ ⟨len, false⟩ :: post)) :
    (∃ before c, pre = before ++ [⟨c, false⟩] ∧
        ((startsOf false 0 pre).getLast?).filter (fun node => s.closes node (extent pre)) =
          some (extent before)) ∨
      ((∀ a ∈ pre.getLast?, a.used = true) ∧
        ((startsOf false 0 pre).getLast?).filter (fun node => s.closes node (extent pre)) =
          none) := by
  obtain rfl | ⟨before, ⟨c, used⟩, rfl⟩ := List.eq_nil_or_concat pre
  · exact .inr ⟨fun a ha => (by cases ha), rfl⟩
  rw [List.concat_eq_append] at h ⊢
  have hsplit : before ++ [⟨c, used⟩] ++ ⟨len, false⟩ :: post =
      before ++ ⟨c, used⟩ :: ⟨len, false⟩ :: post := by
    rw [List.append_assoc, List.singleton_append]
  cases used with
  | false =>
    refine .inl ⟨before, c, rfl, ?_⟩
    rw [startsOf_append, startsOf_mk_self, startsOf_nil, List.getLast?_concat, Nat.zero_add]
    have hh := hsplit ▸ h
    refine Option.filter_some_pos (hh.closes_iff.mpr ?_)
    rw [extent_append, extent_cons, extent_nil, Nat.add_zero]
  | true =>
    refine .inr ⟨fun a ha => ?_, ?_⟩
    · rw [List.getLast?_concat] at ha
      exact Option.some.inj ha ▸ rfl
    · rw [startsOf_append, startsOf_false_mk_true, startsOf_nil, List.append_nil,
        Option.filter_eq_none_iff]
      intro x hx
      obtain ⟨first, b, rest, rfl, -, rfl⟩ := mem_startsOf (List.mem_of_mem_getLast? hx)
      have hpos := h.headers.pos
      have hc : 0 < c := hpos ⟨c, true⟩
        (List.mem_append_left _ (List.mem_append_right _ List.mem_cons_self))
      rw [List.append_assoc, List.append_assoc, List.cons_append] at h
      rw [Nat.zero_add, h.closes_iff]
      simp only [extent_append, extent_cons, extent_nil]
      omega

/-- The last block is free. -/
def LastFree (bs : List Block) : Prop := ∀ b ∈ bs.getLast?, b.used = false

theorem lastFree_append_cons {b : Block} : LastFree (pre ++ b :: post) ↔ LastFree (b :: post) := by
  unfold LastFree
  rw [List.getLast?_append_of_ne_nil _ (List.cons_ne_nil _ _)]

theorem lastFree_cons_free : LastFree (⟨len, false⟩ :: post) ↔ LastFree post := by
  cases post with
  | nil => exact ⟨fun _ b hb => (by cases hb), fun _ b hb => Option.some.inj hb ▸ rfl⟩
  | cons c post => exact Iff.rfl

theorem lastFree_cons_used : LastFree (⟨len, true⟩ :: post) ↔ post ≠ [] ∧ LastFree post := by
  cases post with
  | nil => exact ⟨fun h => (by cases h _ rfl), fun h => absurd rfl h.1⟩
  | cons c post => exact (and_iff_right (List.cons_ne_nil c post)).symm

theorem LastFree.startsOf_ne_nil (h : LastFree bs) (hne : bs ≠ []) (o : Nat) :
    startsOf false o bs ≠ [] := by
  obtain rfl | ⟨init, b, rfl⟩ := List.eq_nil_or_concat bs
  · exact absurd rfl hne
  · rw [List.concat_eq_append] at h ⊢
    have hb : b.used = false := h b List.getLast?_concat
    rw [startsOf_append, ← hb, startsOf_cons_self]
    exact List.append_ne_nil_of_right_ne_nil _ (List.cons_ne_nil _ _)

/-- The blocks in order between two steps. -/
structure Inv (s : Heap) (asked : Nat → Nat) (bs : List Block) : Prop where
  laid : Laid s asked bs
  coalesced : Spaced bs
  lastFree : LastFree bs

theorem Laid.rest (h : Laid s asked (pre ++ ⟨len, false⟩ :: post)) :
    Chain s.next (s.next (extent pre)) (startsOf false (extent pre + len) post) := by
  have hself := startsOf_split pre post ⟨len, false⟩ 0
  rw [Nat.zero_add] at hself
  exact (hself ▸ h.free).rest

theorem spaced_cons_free : Spaced (⟨len, false⟩ :: post) ↔
    Spaced post ∧ ∀ a ∈ post.head?, a.used = true := by
  have hsplit : Spaced ([] ++ ⟨len, false⟩ :: post) ↔ _ := spaced_split
  simpa [Spaced] using hsplit

/-- The merged block has used neighbours. -/
theorem Laid.inv (h : Laid s asked (pre ++ ⟨len, false⟩ :: post)) (hpre : Spaced pre)
    (hpost : Spaced post) (hbefore : ∀ a ∈ pre.getLast?, a.used = true)
    (hbehind : ∀ a ∈ post.head?, a.used = true) (hlast : LastFree post) :
    Inv s asked (pre ++ ⟨len, false⟩ :: post) :=
  ⟨h, spaced_split.mpr ⟨hpre, hpost, fun a ha => .inl (hbefore a ha), fun a ha =>
    .inr (hbehind a ha)⟩, lastFree_append_cons.mpr (lastFree_cons_free.mpr hlast)⟩

theorem Laid.merge (h : Laid s asked (pre ++ ⟨len, false⟩ :: post)) (hpre : Spaced pre)
    (hpost : Spaced post) (hlast : LastFree post) :
    ∃ bs, Inv (s.finshBlockMerge s.freeList (extent pre)) asked bs ∧
      startsOf true 0 bs = startsOf true 0 (pre ++ ⟨len, false⟩ :: post) := by
  unfold Heap.finshBlockMerge
  dsimp only
  rw [h.prev_eq]
  have hlength := h.length_eq
  have hrest := h.rest
  have hthis : pre ++ ⟨len, false⟩ :: post = (pre ++ [⟨len, false⟩]) ++ post := by
    rw [List.append_assoc, List.singleton_append]
  have hextent : extent (pre ++ [⟨len, false⟩]) = extent pre + len := by
    rw [extent_append, extent_cons, extent_nil, Nat.add_zero]
  obtain ⟨before, c, rfl, hprev⟩ | ⟨hbefore, hprev⟩ := h.prev_closing <;>
    obtain ⟨d, later, rfl, hnext⟩ | ⟨hbehind, hnext⟩ := h.next_closing <;>
    rw [hprev, hnext] <;>
    dsimp only
  -- both neighbours are free
  · have hmid : ∀ b ∈ [⟨len, false⟩, ⟨d, false⟩], Block.used b = false := by simp
    have hd := hthis ▸ h
    rw [List.append_assoc, List.singleton_append] at h
    obtain ⟨hbefore, -, hused, -⟩ := spaced_split.mp hpre
    obtain ⟨hlater, hbehind⟩ := spaced_cons_free.mp hpost
    have hlen : extent (before ++ [⟨c, false⟩]) = extent before + c := by
      rw [extent_append, extent_cons, extent_nil, Nat.add_zero]
    have hjoined := Laid.join [⟨len, false⟩, ⟨d, false⟩] h hmid
      (q := s.next (extent (before ++ [⟨c, false⟩]) + len))
      (n := s.length (extent before) + (s.length (extent (before ++ [⟨c, false⟩])) +
        s.length (extent (before ++ [⟨c, false⟩]) + len) + 2 * headerSize)) ?_ ?_
    · refine ⟨_, hjoined.inv hbefore hlater ?_ hbehind (lastFree_cons_free.mp hlast),
        (startsOf_true_join hmid).trans ?_⟩
      · exact fun a ha => (hused a ha).resolve_right Bool.false_ne_true
      · rw [List.append_assoc]
        rfl
    · have := hd.rest
      rw [hextent, hlen, Nat.add_assoc, Nat.add_assoc] at this
      rw [hlen]
      simpa only [extent_cons, extent_nil, Nat.add_zero, Nat.add_assoc] using this
    · have h1 := h.length_eq
      have h2 := hd.length_eq
      rw [hextent] at h2
      dsimp only at h1 h2 hlength
      simp only [extent_cons, extent_nil]
      omega
  -- the one before
  · have hmid : ∀ b ∈ [⟨len, false⟩], Block.used b = false := by simp
    rw [List.append_assoc, List.singleton_append] at h
    obtain ⟨hbefore, -, hused, -⟩ := spaced_split.mp hpre
    have hlen : extent (before ++ [⟨c, false⟩]) = extent before + c := by
      rw [extent_append, extent_cons, extent_nil, Nat.add_zero]
    have hjoined := Laid.join [⟨len, false⟩] h hmid
      (q := s.next (extent (before ++ [⟨c, false⟩])))
      (n := s.length (extent before) + (s.length (extent (before ++ [⟨c, false⟩])) + headerSize))
      ?_ ?_
    · refine ⟨_, hjoined.inv hbefore hpost ?_ hbehind hlast, (startsOf_true_join hmid).trans ?_⟩
      · exact fun a ha => (hused a ha).resolve_right Bool.false_ne_true
      · rw [List.append_assoc]
        rfl
    · rw [hlen, Nat.add_assoc] at hrest
      rw [hlen]
      simpa only [extent_cons, extent_nil, Nat.add_zero] using hrest
    · have h1 := h.length_eq
      dsimp only at h1 hlength
      simp only [extent_cons, extent_nil]
      omega
  -- the one behind
  · have hmid : ∀ b ∈ [⟨d, false⟩], Block.used b = false := by simp
    have hd := hthis ▸ h
    obtain ⟨hlater, hbehind⟩ := spaced_cons_free.mp hpost
    have hjoined := Laid.join [⟨d, false⟩] h hmid (q := s.next (extent pre + len))
      (n := s.length (extent pre) + (s.length (extent pre + len) + headerSize)) ?_ ?_
    · exact ⟨_, hjoined.inv hpre hlater hbefore hbehind (lastFree_cons_free.mp hlast),
        startsOf_true_join hmid⟩
    · have := hd.rest
      rw [hextent, Nat.add_assoc] at this
      simpa only [extent_cons, extent_nil, Nat.add_zero] using this
    · have h2 := hd.length_eq
      rw [hextent] at h2
      dsimp only at h2 hlength
      simp only [extent_cons, extent_nil]
      omega
  · exact ⟨_, h.inv hpre hpost hbefore hbehind hlast, rfl⟩

theorem mem_block (h : Inv s asked bs) {o : Nat} {u : Bool} (ho : o ∈ startsOf u 0 bs) :
    ∃ pre len post, bs = pre ++ ⟨len, u⟩ :: post ∧ o = extent pre := by
  obtain ⟨pre, b, post, rfl, rfl, rfl⟩ := mem_startsOf ho
  exact ⟨pre, b.len, post, rfl, Nat.zero_add _⟩

/-! ## The functions of the heap -/

theorem Inv.free (h : Inv s asked bs) {xs ys : List Nat} {o : Nat}
    (ho : startsOf true 0 bs = xs ++ o :: ys) :
    ∃ bs', Inv (s.finshHeapFree (finshBlockGetData o)) asked bs' ∧
      startsOf true 0 bs' = xs ++ ys := by
  obtain ⟨pre, len, post, rfl, rfl⟩ :=
    mem_block h (ho ▸ List.mem_append_right xs List.mem_cons_self)
  have hpos := h.laid.headers.pos
  obtain ⟨hbehind, hlast⟩ := lastFree_cons_used.mp (lastFree_append_cons.mp h.lastFree)
  obtain ⟨hpre, hpost, -⟩ := spaced_split.mp h.coalesced
  obtain ⟨hallocated, hfree⟩ := move_chain (n := (finshBlockRemove _ _ (extent pre)).2) hpos
    h.laid.tiles h.laid.allocated h.laid.free (fun _ _ => rfl)
    fun hnil => absurd hnil (hlast.startsOf_ne_nil hbehind _)
  have hmoved : Laid { s with
      freeList := (finshBlockInsert (finshBlockRemove s.next s.allocateList (extent pre)).2
        s.freeList (extent pre)).1
      allocateList := (finshBlockRemove s.next s.allocateList (extent pre)).1
      next := (finshBlockInsert (finshBlockRemove s.next s.allocateList (extent pre)).2
        s.freeList (extent pre)).2 } asked (pre ++ ⟨len, false⟩ :: post) := by
    refine ⟨?_, ?_, hfree, hallocated⟩
    · rw [← h.laid.tiles, extent_append, extent_append, extent_cons, extent_cons]
    · exact h.laid.headers.replace pre [⟨len, true⟩] [⟨len, false⟩] post
        ⟨h.laid.length_eq, (absurd · Bool.false_ne_true), trivial⟩ rfl fun x _ => ⟨rfl, rfl⟩
  obtain ⟨bs', hinv, hsame⟩ := hmoved.merge hpre hpost hlast
  have hheader : finshBlockGetHeader (finshBlockGetData (extent pre)) = extent pre :=
    Nat.add_sub_cancel ..
  refine ⟨bs', ?_, ?_⟩
  · unfold Heap.finshHeapFree
    rw [hheader]
    exact hinv
  · have hnodup := (startsOf_ordered hpos true 0).imp Nat.ne_of_lt
    have hself := startsOf_split pre post ⟨len, true⟩ 0
    rw [Nat.zero_add] at hself
    dsimp only at hself
    have hout : extent pre ∉ xs := fun hmem =>
      List.disjoint_of_nodup_append (ho ▸ hnodup) hmem List.mem_cons_self
    have hout' : extent pre ∉ startsOf true 0 pre := fun hmem =>
      List.disjoint_of_nodup_append (hself ▸ hnodup) hmem List.mem_cons_self
    rw [hsame, startsOf_append, startsOf_true_mk_false, Nat.zero_add]
    have herase := congrArg (List.erase · (extent pre)) (hself.symm.trans ho)
    rwa [List.erase_append_right _ hout, List.erase_append_right _ hout', List.erase_cons_head,
      List.erase_cons_head] at herase

theorem Inv.gcFrom (h : Inv s asked bs) (vars : List FinshVar) (fuel : Nat) {xs ys : List Nat}
    {p : Option Nat} (hsplit : startsOf true 0 bs = xs ++ ys) (hp : Chain s.next p ys) :
    ∃ bs', Inv (Heap.gcFrom vars fuel p s) asked bs' := by
  induction fuel generalizing s bs p xs ys with
  | zero => exact ⟨bs, h⟩
  | succ fuel ih =>
    cases ys with
    | nil =>
      obtain rfl : p = none := hp
      exact ⟨bs, h⟩
    | cons o ys =>
      obtain ⟨rfl, hrest⟩ := hp
      unfold Heap.gcFrom
      dsimp only
      split
      · have hsplit' : startsOf true 0 bs = (xs ++ [o]) ++ ys := by
          rw [hsplit, List.append_assoc, List.singleton_append]
        exact ih h hsplit' hrest
      · obtain ⟨bs', hfreed, hsplit'⟩ := h.free hsplit
        have hchain := hfreed.laid.allocated
        rw [hsplit'] at hchain
        exact ih hfreed hsplit' (hrest.eq_head ▸ hchain.suffix)

theorem Inv.gc (h : Inv s asked bs) (vars : List FinshVar) :
    ∃ bs', Inv (s.finshHeapGc vars) asked bs' :=
  h.gcFrom vars _ (List.nil_append _).symm h.laid.allocated

theorem Inv.walk_free (h : Inv s asked bs) :
    walk s.next finshHeapMax s.freeList = startsOf false 0 bs :=
  h.laid.free.walk_eq (h.laid.tiles ▸ length_startsOf_le h.laid.headers.pos false 0)

theorem Inv.walk_allocated (h : Inv s asked bs) :
    walk s.next finshHeapMax s.allocateList = startsOf true 0 bs :=
  h.laid.allocated.walk_eq (h.laid.tiles ▸ length_startsOf_le h.laid.headers.pos true 0)

theorem Inv.take_block (h : Inv s asked (pre ++ ⟨len, false⟩ :: post))
    (hsize : size + 2 * headerSize ≤ len) {n : Nat} (hn : n ≤ size) :
    Inv (s.take (extent pre) size) (Function.update asked (extent pre) n)
      (pre ++ ⟨size + headerSize, true⟩ :: ⟨len - (size + headerSize), false⟩ :: post) := by
  have hlast := lastFree_cons_free.mp (lastFree_append_cons.mp h.lastFree)
  obtain ⟨hpre, hpost, hbefore, hbehind⟩ := spaced_split.mp h.coalesced
  refine ⟨h.laid.take hsize hn, ?_, ?_⟩
  · refine spaced_split.mpr ⟨hpre, spaced_cons_free.mpr ⟨hpost, fun a ha => ?_⟩,
      fun a _ => .inr rfl, fun a _ => .inl rfl⟩
    exact (hbehind a ha).resolve_left Bool.false_ne_true
  · exact lastFree_append_cons.mpr (lastFree_cons_used.mpr
      ⟨List.cons_ne_nil _ _, lastFree_cons_free.mpr hlast⟩)

theorem Inv.take (h : Inv s asked bs) {o : Nat} (ho : o ∈ startsOf false 0 bs)
    (hsize : size + headerSize ≤ s.length o) {n : Nat} (hn : n ≤ size) :
    ∃ bs', Inv (s.take o size) (Function.update asked o n) bs' := by
  obtain ⟨pre, len, post, rfl, rfl⟩ := mem_block h ho
  have hlength : s.length (extent pre) + headerSize = len := h.laid.length_eq
  exact ⟨_, h.take_block (by omega) hn⟩

/-- A small request gets what it asks for. -/
theorem Inv.allocate (h : Inv s asked bs) (vars : List FinshVar) (hsmall : size ≤ 2 ^ 32 - 12) :
    ∃ bs', Inv (s.finshHeapAllocate vars size).2
      (match (s.finshHeapAllocate vars size).1 with
        | some header => Function.update asked header size
        | none => asked) bs' := by
  have halign : size ≤ heapAlignSize size ∧ u32 (heapAlignSize size + headerSize) =
      heapAlignSize size + headerSize := by
    have h8 : headerSize = 8 := rfl
    unfold heapAlignSize
    rw [u32_of_lt (by omega)]
    exact ⟨by omega, u32_of_lt (by omega)⟩
  unfold Heap.finshHeapAllocate
  dsimp only
  rw [h.walk_free, halign.2]
  cases hfirst : (startsOf false 0 bs).find? fun header =>
      decide (heapAlignSize size + headerSize < s.length header) with
  | some header =>
    have hfits : heapAlignSize size + headerSize < s.length header := by
      simpa using List.find?_some hfirst
    exact h.take (List.mem_of_find?_eq_some hfirst) (Nat.le_of_lt hfits) halign.1
  | none =>
    obtain ⟨bs', hgc⟩ := h.gc vars
    dsimp only
    rw [hgc.walk_free]
    cases hsecond : (startsOf false 0 bs').find? fun header =>
        decide (heapAlignSize size + headerSize ≤ (s.finshHeapGc vars).length header) with
    | some header =>
      have hfits : heapAlignSize size + headerSize ≤ (s.finshHeapGc vars).length header := by
        simpa using List.find?_some hsecond
      exact hgc.take (List.mem_of_find?_eq_some hsecond) hfits halign.1
    | none => exact ⟨bs', hgc⟩

end

/-! ## Every run -/

theorem Headers.apart {length asked : Nat → Nat} {o : Nat} {bs : List Block}
    (h : Headers length asked o bs) :
    (startsOf true o bs).Pairwise fun x y => finshBlockGetData x + asked x ≤ y := by
  induction bs generalizing o with
  | nil => exact .nil
  | cons b bs ih =>
    obtain ⟨hlen, hasked, hlater⟩ := h
    obtain ⟨len, used⟩ := b
    cases used with
    | false => exact ih hlater
    | true =>
      refine List.pairwise_cons.mpr ⟨fun y hy => ?_, ih hlater⟩
      have hge := ge_of_mem_startsOf hy
      have hle := hasked rfl
      dsimp only at hlen hge
      unfold finshBlockGetData
      omega

theorem Inv.keeps {s : System} {bs : List Block} (h : Inv s.heap s.asked bs) : Keeps s bs where
  laid := h.laid
  ordered u := startsOf_ordered h.laid.headers.pos u 0
  disjoint := startsOf_disjoint h.laid.headers.pos false 0
  coalesced := h.coalesced
  apart := h.laid.headers.apart

theorem Inv.initial : Inv initial.heap initial.asked [⟨finshHeapMax, false⟩] where
  laid := ⟨rfl, ⟨rfl, (absurd · Bool.false_ne_true), trivial⟩, ⟨rfl, rfl⟩, rfl⟩
  coalesced := .singleton _
  lastFree := fun _ hb => Option.some.inj hb ▸ rfl

theorem Inv.step {s s' : System} {bs : List Block} {e : Event} (h : Inv s.heap s.asked bs)
    (hsmall : e.Small) (hstep : s.step e = some s') : ∃ bs', Inv s'.heap s'.asked bs' := by
  cases e with
  | allocate size vars =>
    obtain ⟨-, hstep⟩ := Option.ite_none_right_eq_some.mp hstep
    have hallocated := h.allocate vars hsmall
    cases hres : s.heap.finshHeapAllocate vars size with
    | mk result heap =>
      rw [hres] at hstep hallocated
      cases result with
      | some header =>
        obtain rfl := Option.some.inj hstep
        exact hallocated
      | none =>
        obtain rfl := Option.some.inj hstep
        exact hallocated
  | free ptr =>
    obtain ⟨⟨hptr, hlive⟩, hstep⟩ := Option.ite_none_right_eq_some.mp hstep
    obtain rfl := Option.some.inj hstep
    rw [h.walk_allocated] at hlive
    obtain ⟨xs, ys, hsplit⟩ := List.append_of_mem hlive
    obtain ⟨bs', hfreed, -⟩ := h.free hsplit
    have hdata : finshBlockGetData (finshBlockGetHeader ptr) = ptr := Nat.sub_add_cancel hptr
    rw [hdata] at hfreed
    exact ⟨bs', hfreed⟩
  | gc vars =>
    obtain rfl := Option.some.inj hstep
    exact h.gc vars

instance (e : Event) : Decidable e.Small := by
  cases e <;> unfold Event.Small <;> infer_instance

/-- As long as no request is within 12 bytes of 4 GiB the heap is in order. -/
theorem heap_throughout (es : List Event)
    (h : Along System.step (fun _ e => e.Small) initial es) :
    Throughout System.step (fun s => ∃ bs, Keeps s bs) initial es :=
  throughout_of_along (J := fun s => ∃ bs, Inv s.heap s.asked bs)
    (fun _ ⟨bs, hinv⟩ => ⟨bs, hinv.keeps⟩)
    (fun _ _ _ ⟨_, hinv⟩ hsmall hstep => hinv.step hsmall hstep) ⟨_, .initial⟩ h

/-- Two strings, of which the collector takes the first; the heap is then too full for a third. -/
theorem heap_throughout_strings :
    Throughout System.step (fun s => ∃ bs, Keeps s bs) initial
      [.allocate 20 [], .allocate 50 [⟨true, 8⟩], .gc [⟨true, 36⟩], .allocate 60 [⟨true, 36⟩],
        .free 36] :=
  heap_throughout _ (by decide +kernel)

/-- `size + sizeof(struct finsh_block_header)` is zero, and the first block is both handed out and
left in the free list. -/
theorem wrapped_in_both_lists :
    ¬∀ es, Throughout System.step (fun s => ∃ bs, Keeps s bs) initial es := by
  intro h
  have hfirst := h [.allocate 0xFFFFFFF8 []]
  obtain ⟨bs, hkeeps⟩ := hfirst.2 _ rfl
  have hfree := hkeeps.laid.free
  have hused := hkeeps.laid.allocated
  obtain ⟨_, hf, -⟩ := Chain.of_some (a := 0) hfree
  obtain ⟨_, ha, -⟩ := Chain.of_some (a := 0) hused
  refine hkeeps.disjoint (a := 0) ?_ ?_
  · rw [hf]
    exact List.mem_cons_self
  · rw [ha]
    exact List.mem_cons_self

end ControlRTT.Components.FinshHeap
