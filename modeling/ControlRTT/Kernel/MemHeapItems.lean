import ControlRTT.Kernel.MemHeap
import ControlRTT.Lib.LinkedRing
import ControlRTT.Lib.Tiling

/-! # The items of a memory heap

In every state the headers from `start_addr` to the used one at the end are those of a list of
blocks (`Chain`), and the free list goes over exactly the free ones (`Blocks`). -/
namespace ControlRTT.Kernel.MemHeap
open ControlRTT.Kernel.RtDef ControlRTT.Lib.CInt ControlRTT.Lib.LinkedRing ControlRTT.Lib.Tiling
  ControlRTT.Lib.WordMem

/-! ## Headers -/

/-- What an intact header says. -/
def node (self : Nat) (m : Mem) (item : Nat) : Option Node :=
  if poolPtr m item = self ∧
      (magic m item = rtMemheapMagic ∨ magic m item = rtMemheapMagic ||| rtMemheapUsed) then
    some ⟨magic m item ≠ rtMemheapMagic, next m item, prev m item⟩
  else none

section
variable {self w v x y : Nat} {m m' : Mem} {n : Node}

/-! The low bit of a magic number is the mark. -/

theorem magic_and_used : ∀ u : Bool,
    decide (rtMemheapMagic + u.toNat &&& rtMemheapUsed ≠ 0) = u := by decide

theorem magic_and_mask : ∀ u : Bool, rtMemheapMagic + u.toNat &&& rtMemheapMask =
    rtMemheapMagic := by decide

theorem magic_or_used : ∀ u : Bool, rtMemheapMagic + u.toNat ||| rtMemheapUsed =
    rtMemheapMagic + true.toNat := by decide

theorem node_eq_some_iff : node self m x = some n ↔
    m x = rtMemheapMagic + n.used.toNat ∧ m (x + 4) = self ∧ m (x + 8) = n.next ∧
      m (x + 12) = n.prev := by
  obtain ⟨u, next', prev'⟩ := n
  unfold node magic poolPtr next prev
  constructor
  · intro h
    obtain ⟨⟨hpool, hmagic⟩, hn⟩ := Option.ite_none_right_eq_some.mp h
    obtain ⟨rfl, rfl, rfl⟩ := Node.mk.inj (Option.some.inj hn)
    refine ⟨?_, hpool, rfl, rfl⟩
    rcases hmagic with hmagic | hmagic
    · simp [hmagic]
    · have hor : m x = rtMemheapMagic + true.toNat := hmagic.trans (magic_or_used false)
      simp [hor]
  · rintro ⟨hmagic, rfl, rfl, rfl⟩
    have hor : rtMemheapMagic ||| rtMemheapUsed = rtMemheapMagic + true.toNat := magic_or_used false
    rw [hor]
    cases u <;> simp [hmagic]

theorem isUsed_of_node (h : node self m x = some n) : isUsed m x = n.used := by
  obtain ⟨hmagic, -⟩ := node_eq_some_iff.mp h
  unfold isUsed magic
  rw [hmagic]
  exact magic_and_used n.used

theorem isItem_of_node (h : node self m x = some n) : isItem m x = true := by
  obtain ⟨hmagic, -⟩ := node_eq_some_iff.mp h
  unfold isItem magic
  rw [hmagic]
  exact decide_eq_true (magic_and_mask n.used)

/-- A header depends on its first four words only. -/
theorem node_congr (heq : ∀ w, x ≤ w → w ≤ x + 12 → m' w = m w) :
    node self m' x = node self m x := by
  unfold node magic poolPtr next prev
  rw [heq x (by omega) (by omega), heq (x + 4) (by omega) (by omega),
    heq (x + 8) (by omega) (by omega), heq (x + 12) (by omega) (by omega)]

theorem node_set_ne (v : Nat) (hw : w < x ∨ x + 12 < w) : node self (m.set w v) x = node self m x :=
  node_congr fun _ _ _ => m.set_ne v (by omega)

theorem node_setNext (h : node self m x = some n) (v : Nat) :
    node self (m.set (x + 8) v) x = some { n with next := v } := by
  obtain ⟨hmagic, hpool, -, hprev⟩ := node_eq_some_iff.mp h
  refine node_eq_some_iff.mpr ?_
  simp [Mem.set, hmagic, hpool, hprev]

theorem node_setPrev (h : node self m x = some n) (v : Nat) :
    node self (m.set (x + 12) v) x = some { n with prev := v } := by
  obtain ⟨hmagic, hpool, hnext, -⟩ := node_eq_some_iff.mp h
  refine node_eq_some_iff.mpr ?_
  simp [Mem.set, hmagic, hpool, hnext]

theorem node_setUsed (h : node self m x = some n) (u : Bool) :
    node self (m.set x (rtMemheapMagic + u.toNat)) x = some { n with used := u } := by
  obtain ⟨-, hpool, hnext, hprev⟩ := node_eq_some_iff.mp h
  refine node_eq_some_iff.mpr ?_
  simp [Mem.set, hpool, hnext, hprev]

/-- `magic |= RT_MEMHEAP_USED`. -/
theorem setMagic_or (h : node self m x = some n) :
    setMagic m x (magic m x ||| rtMemheapUsed) = m.set x (rtMemheapMagic + true.toNat) := by
  obtain ⟨hmagic, -⟩ := node_eq_some_iff.mp h
  unfold setMagic magic
  rw [hmagic, magic_or_used]

/-- `magic &= ~RT_MEMHEAP_USED`. -/
theorem setMagic_and (h : node self m x = some n) :
    setMagic m x (magic m x &&& rtMemheapMask) = m.set x (rtMemheapMagic + false.toNat) := by
  obtain ⟨hmagic, -⟩ := node_eq_some_iff.mp h
  unfold setMagic magic
  rw [hmagic, magic_and_mask]
  rfl

/-! The ways in which two items are joined come to the same. -/

/-- The items at `a` and `c` are linked to each other. -/
def link (m : Mem) (a c : Nat) : Mem := (m.set (c + 12) a).set (a + 8) c

theorem mergeNext_eq {a b : Nat} (h : b + 8 ≠ next m b + 12) :
    mergeNext m a b = link m a (next m b) := by
  unfold mergeNext link setPrev setNext
  dsimp only
  have hn : next (m.set (next m b + 12) a) b = next m b := Mem.set_ne _ _ h
  rw [hn]

theorem set_comm {a b : Nat} (h : a ≠ b) (v w : Nat) :
    (m.set a v).set b w = (m.set b w).set a v := by
  funext y
  unfold Mem.set
  split
  · rename_i hy
    rw [if_neg (by omega)]
  · rfl

theorem mergePrev_eq {b : Nat} (hnext : b + 8 ≠ prev m b + 8) (hprev : b + 12 ≠ prev m b + 8)
    (hne : next m b + 12 ≠ prev m b + 8) : mergePrev m b = link m (prev m b) (next m b) := by
  unfold mergePrev link setPrev setNext
  dsimp only
  have hn : next (m.set (prev m b + 8) (next m b)) b = next m b := Mem.set_ne _ _ hnext
  have hp : prev (m.set (prev m b + 8) (next m b)) b = prev m b := Mem.set_ne _ _ hprev
  rw [hn, hp]
  exact set_comm (Ne.symm hne) _ _

theorem unlinkItem_eq {b : Nat} (hnext : b + 8 ≠ next m b + 12) (hprev : b + 12 ≠ next m b + 12) :
    unlinkItem m b = link m (prev m b) (next m b) := by
  unfold unlinkItem link setPrev setNext
  dsimp only
  have hn : next (m.set (next m b + 12) (prev m b)) b = next m b := Mem.set_ne _ _ hnext
  have hp : prev (m.set (next m b + 12) (prev m b)) b = prev m b := Mem.set_ne _ _ hprev
  rw [hn, hp]

theorem putItem_eq {heap h new : Nat} (hnew : h + 24 ≤ new) :
    putItem m heap h new = (((((m.set new rtMemheapMagic).set (new + 4) heap).set (new + 12) h).set
      (new + 8) (next m h)).set (next m h + 12) new).set (h + 8) new := by
  have hread : ∀ a b c d : Nat, next ((((m.set new a).set (new + 4) b).set (new + 12) c).set
      (new + 8) d) h = next m h := fun a b c d => by
    unfold next
    rw [Mem.set_ne _ _ (by omega), Mem.set_ne _ _ (by omega), Mem.set_ne _ _ (by omega),
      Mem.set_ne _ _ (by omega)]
  have hfirst : next (((m.set new rtMemheapMagic).set (new + 4) heap).set (new + 12) h) h =
      next m h := by
    unfold next
    rw [Mem.set_ne _ _ (by omega), Mem.set_ne _ _ (by omega), Mem.set_ne _ _ (by omega)]
  unfold putItem setMagic setPoolPtr setPrev setNext
  dsimp only
  rw [hfirst, hread]

end

/-! ## The chain of headers -/

/-- The address of the header at the end. -/
def Pool.tailer (p : Pool) : Nat := p.startAddr + (p.poolSize - rtMemheapSize)

/-- The headers tile the pool up to the one at its end, which is marked as used. The header of the
free list is not in the pool. -/
structure Chain (p : Pool) (m : Mem) (bs : List Block) : Prop where
  tiled : Tiled rtMemheapSize (node p.self m) p.startAddr p.tailer bs
  reaches : p.startAddr + extent bs = p.tailer
  sentinel : ∃ q, node p.self m p.tailer = some ⟨true, p.startAddr, q⟩
  words : ∀ b ∈ bs, 4 ∣ b.len
  fits : p.startAddr + p.poolSize ≤ 2 ^ 32
  room : 2 * rtMemheapSize ≤ p.poolSize
  outside : p.freeList + rtMemheapSize ≤ p.startAddr ∨ p.startAddr + p.poolSize ≤ p.freeList

/-- Headers are in one place, or they do not overlap. -/
def Apart (x y : Nat) : Prop := x = y ∨ x + rtMemheapSize ≤ y ∨ y + rtMemheapSize ≤ x

/-- A header begins at `x`: that of an item, the one at the end, or that of the free list. -/
def Place (p : Pool) (bs : List Block) (x : Nat) : Prop :=
  Bound p.startAddr bs x ∨ x = p.freeList

section
variable {p : Pool} {m m' : Mem} {pre post bs : List Block} {len size x y : Nat} {u : Bool}

theorem Chain.end_le {b : Block} (h : Chain p m (pre ++ b :: post)) :
    p.startAddr + extent pre + b.len ≤ p.tailer := by
  have hend := h.reaches
  simp only [extent_append, extent_cons] at hend
  omega

theorem Chain.tailer_lt (h : Chain p m bs) : p.tailer + rtMemheapSize ≤ 2 ^ 32 ∧
    p.tailer + rtMemheapSize = p.startAddr + p.poolSize := by
  have hfits := h.fits
  have hroom := h.room
  unfold Pool.tailer
  simp only [rtMemheapSize] at hroom ⊢
  omega

theorem Chain.header_start {b : Block} (h : Chain p m (pre ++ b :: post)) :
    node p.self m (p.startAddr + extent pre) = some ⟨b.used, p.startAddr + extent pre + b.len,
      lastStart p.startAddr p.tailer pre⟩ ∧ rtMemheapSize ≤ b.len := h.tiled.header

theorem Chain.next_start {b : Block} (h : Chain p m (pre ++ b :: post)) :
    next m (p.startAddr + extent pre) = p.startAddr + extent pre + b.len :=
  (node_eq_some_iff.mp h.header_start.1).2.2.1

theorem Chain.prev_start {b : Block} (h : Chain p m (pre ++ b :: post)) :
    prev m (p.startAddr + extent pre) = lastStart p.startAddr p.tailer pre :=
  (node_eq_some_iff.mp h.header_start.1).2.2.2

theorem Chain.place_inside (h : Chain p m bs) (hx : Bound p.startAddr bs x) :
    p.startAddr ≤ x ∧ x ≤ p.tailer := by
  refine ⟨hx.le, ?_⟩
  rcases hx.cases with rfl | ⟨pre, b, post, rfl, rfl⟩
  · exact Nat.le_of_eq h.reaches
  · have hend := h.end_le
    omega

theorem Chain.place_apart (h : Chain p m bs) (hx : Place p bs x) (hy : Place p bs y) :
    Apart x y := by
  have houtside := h.outside
  have htailer := h.tailer_lt.2
  rcases hx with hx | rfl
  · rcases hy with hy | rfl
    · exact h.tiled.bound_apart hx hy
    · have hin := h.place_inside hx
      unfold Apart
      omega
  · rcases hy with hy | rfl
    · have hin := h.place_inside hy
      unfold Apart
      omega
    · exact .inl rfl

/-- A header is the one of a block, before the block or behind it. -/
theorem Chain.block_apart {b : Block} (h : Chain p m (pre ++ b :: post))
    (hx : Place p (pre ++ b :: post) x) : x = p.startAddr + extent pre ∨
      x + rtMemheapSize ≤ p.startAddr + extent pre ∨ p.startAddr + extent pre + b.len ≤ x := by
  have hend := h.end_le
  have htailer := h.tailer_lt.2
  have houtside := h.outside
  rcases hx with hx | rfl
  · rcases bound_append.mp hx with hpre | hstart | hpost
    · rcases hpre.cases with rfl | ⟨first, c, mid, rfl, rfl⟩
      · exact .inl rfl
      · have hlen := (tiled_append.mp h.tiled).1.header.2
        rw [extent_append, extent_cons]
        exact .inr (.inl (by omega))
    · exact .inl hstart
    · exact .inr (.inr hpost.le)
  · omega

/-- Blocks in one place are recut. Of the header behind them, only the back link changes. -/
theorem Chain.replace (pre mid mid' post : List Block) {a c : Nat}
    (h : Chain p m (pre ++ (mid ++ post))) (ha : a = p.startAddr + extent pre)
    (hc : c = a + extent mid)
    (hmid : Tiled rtMemheapSize (node p.self m') a (lastStart p.startAddr p.tailer pre) mid')
    (hlen : extent mid' = extent mid) (hwords : ∀ b ∈ mid', 4 ∣ b.len)
    (hback : ∀ n, node p.self m c = some n → ∃ q, node p.self m' c = some { n with prev := q } ∧
      (post ≠ [] → q = lastStart a (lastStart p.startAddr p.tailer pre) mid'))
    (hframe : ∀ x, x + rtMemheapSize ≤ a ∨ c + rtMemheapSize ≤ x →
      node p.self m' x = node p.self m x) : Chain p m' (pre ++ (mid' ++ post)) := by
  have hend := h.reaches
  obtain ⟨q, hsentinel⟩ := h.sentinel
  simp only [extent_append] at hend
  refine ⟨h.tiled.replace pre mid mid' post ha hc hmid hlen ?_ hframe, ?_, ?_, ?_, h.fits, h.room,
    h.outside⟩
  · intro n hne hn
    obtain ⟨q, hq, hprev⟩ := hback n hn
    rw [hq, hprev hne]
  · simp only [extent_append, hlen]
    exact hend
  · have hlast := (tiled_append.mp (tiled_append.mp h.tiled).2).2
    cases post with
    | nil =>
      have hce : c = p.tailer := by simp only [extent_nil] at hend; omega
      obtain ⟨q, hq, -⟩ := hback _ (hce ▸ hsentinel)
      exact ⟨q, hce ▸ hq⟩
    | cons b post =>
      have hle := hlast.le_extent (List.cons_ne_nil b post)
      exact ⟨q, (hframe p.tailer (.inr (by omega))).trans hsentinel⟩
  · intro b hb
    have hwhole := h.words b
    simp only [List.mem_append] at hb hwhole
    rcases hb with hb | hb | hb
    · exact hwhole (.inl hb)
    · exact hwords b hb
    · exact hwhole (.inr (.inr hb))

/-- A free item is cut off the end of an item. -/
theorem Chain.putItem (h : Chain p m (pre ++ ⟨len, u⟩ :: post)) (hsize : 4 ∣ size)
    (hroom : size + 48 ≤ len) : Chain p
      (putItem m p.self (p.startAddr + extent pre) (p.startAddr + extent pre + 24 + size))
      (pre ++ ⟨24 + size, u⟩ :: ⟨len - (24 + size), false⟩ :: post) := by
  have hnext := h.next_start
  have hnode := h.header_start.1
  have hlen : 4 ∣ len := h.words ⟨len, u⟩ (List.mem_append_right _ List.mem_cons_self)
  rw [putItem_eq (by omega), hnext]
  generalize ha : p.startAddr + extent pre = a at hnext hnode
  generalize hb : a + 24 + size = b
  dsimp only at hnode ⊢
  refine h.replace pre [⟨len, u⟩] [⟨24 + size, u⟩, ⟨len - (24 + size), false⟩] post ha.symm rfl
    ⟨?_, Nat.le_add_right 24 size, ?_, ?_, trivial⟩ ?_ ?_ (fun n hn => ⟨b, ?_, fun _ => ?_⟩)
    fun x hx => ?_
  · obtain ⟨hmagic, hpool, -, hprev⟩ := node_eq_some_iff.mp hnode
    refine node_eq_some_iff.mpr ⟨?_, ?_, ?_, ?_⟩
    · simp (disch := omega) only [Mem.set_ne]
      exact hmagic
    · simp (disch := omega) only [Mem.set_ne]
      exact hpool
    · rw [Mem.set_self]
      dsimp only
      omega
    · simp (disch := omega) only [Mem.set_ne]
      exact hprev
  · have hab : a + (24 + size) = b := by omega
    have hbc : b + (len - (24 + size)) = a + len := by omega
    dsimp only
    rw [hab, hbc, node_eq_some_iff]
    simp (disch := omega) only [Mem.set_ne, Mem.set_self]
    exact ⟨rfl, trivial, trivial, trivial⟩
  · simp only [rtMemheapSize]
    omega
  · simp only [extent_cons, extent_nil]
    omega
  · simp only [List.mem_cons, List.not_mem_nil, or_false, forall_eq_or_imp, forall_eq]
    omega
  · obtain ⟨hmagic, hpool, hnext, -⟩ := node_eq_some_iff.mp hn
    simp only [extent_cons, extent_nil, Nat.add_zero] at hmagic hpool hnext ⊢
    rw [node_eq_some_iff]
    simp (disch := omega) only [Mem.set_ne, Mem.set_self]
    exact ⟨hmagic, hpool, hnext, trivial⟩
  · simp only [lastStart_cons, lastStart_nil]
    omega
  · simp only [extent_cons, extent_nil, rtMemheapSize] at hx
    rw [node_set_ne _ (by omega), node_set_ne _ (by omega), node_set_ne _ (by omega),
      node_set_ne _ (by omega), node_set_ne _ (by omega), node_set_ne _ (by omega)]

/-- An item and the one behind it become one. -/
theorem Chain.link {k l : Nat} {v : Bool} (h : Chain p m (pre ++ ⟨k, u⟩ :: ⟨l, v⟩ :: post)) :
    Chain p (link m (p.startAddr + extent pre) (p.startAddr + extent pre + (k + l)))
      (pre ++ ⟨k + l, u⟩ :: post) := by
  have hnode := h.header_start
  have hword : ∀ x ∈ [Block.mk k u, ⟨l, v⟩], 4 ∣ x.len := fun x hx =>
    h.words x (List.mem_append_right _ (List.mem_append_left post hx))
  have hl := (tiled_append.mp h.tiled).2.2.2.2.1
  simp only [List.mem_cons, List.not_mem_nil, or_false, forall_eq_or_imp, forall_eq] at hword
  generalize ha : p.startAddr + extent pre = a at hnode
  simp only [rtMemheapSize] at hl hnode
  refine h.replace pre [⟨k, u⟩, ⟨l, v⟩] [⟨k + l, u⟩] post ha.symm rfl
    ⟨?_, ?_, trivial⟩ ?_ ?_ (fun n hn => ⟨a, ?_, fun _ => rfl⟩) fun x hx => ?_
  · exact node_setNext ((node_set_ne _ (by omega)).trans hnode.1) _
  · simp only [rtMemheapSize]
    omega
  · simp only [extent_cons, extent_nil]
    omega
  · simp only [List.mem_cons, List.not_mem_nil, or_false, forall_eq]
    omega
  · simp only [extent_cons, extent_nil, Nat.add_zero] at hn ⊢
    exact (node_set_ne _ (by omega)).trans (node_setPrev hn a)
  · simp only [extent_cons, extent_nil, rtMemheapSize] at hx
    exact (node_set_ne _ (by omega)).trans (node_set_ne _ (by omega))

/-- Nothing is moved, and outside one item nothing is written. -/
theorem Chain.inPlace {v : Bool} (h : Chain p m (pre ++ ⟨len, u⟩ :: post))
    (hnode : node p.self m' (p.startAddr + extent pre) = some ⟨v, p.startAddr + extent pre + len,
      lastStart p.startAddr p.tailer pre⟩)
    (hframe : ∀ x, x + rtMemheapSize ≤ p.startAddr + extent pre ∨
      p.startAddr + extent pre + len ≤ x → node p.self m' x = node p.self m x) :
    Chain p m' (pre ++ ⟨len, v⟩ :: post) := by
  have hlen := h.header_start.2
  have hfirst : Tiled rtMemheapSize (node p.self m) p.startAddr p.tailer
      ((pre ++ [⟨len, u⟩]) ++ post) := by
    rw [List.append_assoc]
    exact h.tiled
  refine h.replace pre [⟨len, u⟩] [⟨len, v⟩] post rfl rfl ⟨hnode, hlen, trivial⟩ rfl ?_
    (fun n hn => ⟨n.prev, ?_, fun hne => ?_⟩) fun x hx => hframe x ?_
  · simpa using h.words ⟨len, u⟩ (List.mem_append_right _ List.mem_cons_self)
  · rw [hframe _ (.inr (by simp))]
    exact hn
  · have hprev := hfirst.prev (n := n) hne (by simpa [Nat.add_assoc] using hn)
    simpa using hprev
  · simp only [extent_cons, extent_nil] at hx
    omega

theorem Chain.mark (h : Chain p m (pre ++ ⟨len, u⟩ :: post)) (v : Bool) :
    Chain p (m.set (p.startAddr + extent pre) (rtMemheapMagic + v.toNat))
      (pre ++ ⟨len, v⟩ :: post) := by
  have hnode := h.header_start
  refine h.inPlace (node_setUsed hnode.1 v) fun x hx => node_set_ne _ ?_
  simp only [rtMemheapSize] at hx hnode
  omega

/-- Data may be written. -/
theorem Chain.data (h : Chain p m (pre ++ ⟨len, u⟩ :: post))
    (hdata : ∀ x, x < p.startAddr + extent pre + 24 ∨ p.startAddr + extent pre + len ≤ x →
      m' x = m x) : Chain p m' (pre ++ ⟨len, u⟩ :: post) := by
  have hnode := h.header_start
  simp only [rtMemheapSize] at hnode
  refine h.inPlace ?_ fun x hx => node_congr fun w _ _ => hdata w ?_
  · rw [← hnode.1]
    exact node_congr fun w _ _ => hdata w (by omega)
  · simp only [rtMemheapSize] at hx
    omega

/-- What is written to the free links of headers leaves the items as they are. -/
theorem Chain.congr (h : Chain p m bs)
    (hsame : ∀ x, Place p bs x → node p.self m' x = node p.self m x) : Chain p m' bs := by
  obtain ⟨q, hsentinel⟩ := h.sentinel
  refine ⟨h.tiled.congr_bound fun x hx => hsame x (.inl hx), h.reaches, ⟨q, ?_⟩, h.words, h.fits,
    h.room, h.outside⟩
  rw [hsame p.tailer (.inl ?_)]
  · exact hsentinel
  · rw [← h.reaches]
    exact bound_end p.startAddr bs

end

/-! ## The free list -/

section
variable {p : Pool} {m : Mem} {pre post bs : List Block} {xs ys : List Nat} {len size f x y z : Nat}
  {u : Bool}

/-- The free links of a header. -/
def SameLinks (m m' : Mem) (y : Nat) : Prop :=
  nextFree m' y = nextFree m y ∧ prevFree m' y = prevFree m y

theorem Ring.same {m' : Mem} (h : Ring (nextFree m) (prevFree m) f xs)
    (hsame : ∀ y ∈ f :: xs, SameLinks m m' y) : Ring (nextFree m') (prevFree m') f xs :=
  h.congr (fun y hy => (hsame y hy).1) fun y hy => (hsame y hy).2

theorem Chain.putItem_links (h : Chain p m (pre ++ ⟨len, u⟩ :: post)) (hroom : size + 48 ≤ len)
    (hy : Place p (pre ++ ⟨len, u⟩ :: post) y) : SameLinks m
      (MemHeap.putItem m p.self (p.startAddr + extent pre) (p.startAddr + extent pre + 24 + size))
      y := by
  have hapart := h.block_apart hy
  rw [putItem_eq (by omega), h.next_start]
  simp only [rtMemheapSize] at hapart
  constructor
  · unfold nextFree
    simp (disch := omega) only [Mem.set_ne]
  · unfold prevFree
    simp (disch := omega) only [Mem.set_ne]

theorem Chain.link_links {k l : Nat} {v : Bool}
    (h : Chain p m (pre ++ ⟨k, u⟩ :: ⟨l, v⟩ :: post))
    (hy : Place p (pre ++ ⟨k, u⟩ :: ⟨l, v⟩ :: post) y) : SameLinks m
      (MemHeap.link m (p.startAddr + extent pre) (p.startAddr + extent pre + (k + l))) y := by
  have hbehind : Place p (pre ++ ⟨k, u⟩ :: ⟨l, v⟩ :: post) (p.startAddr + extent pre + (k + l)) :=
    .inl (by simp [bound_append, bound_self, Nat.add_assoc])
  have hapart := h.block_apart hy
  have hfar := h.place_apart hy hbehind
  have hlen := h.header_start.2
  simp only [Apart, rtMemheapSize] at hapart hfar hlen
  constructor
  · exact (Mem.set_ne _ _ (by omega)).trans (Mem.set_ne _ _ (by omega))
  · exact (Mem.set_ne _ _ (by omega)).trans (Mem.set_ne _ _ (by omega))

theorem Chain.mark_links (h : Chain p m (pre ++ ⟨len, u⟩ :: post))
    (hy : Place p (pre ++ ⟨len, u⟩ :: post) y) (v : Nat) :
    SameLinks m (m.set (p.startAddr + extent pre) v) y := by
  have hapart := h.block_apart hy
  have hlen := h.header_start.2
  simp only [rtMemheapSize] at hapart hlen
  exact ⟨Mem.set_ne _ _ (by omega), Mem.set_ne _ _ (by omega)⟩

theorem unlinkFree_eq (hapart : Apart x (nextFree m x)) (hne : nextFree m x ≠ x) :
    unlinkFree m x = (m.set (nextFree m x + 20) (prevFree m x)).set (prevFree m x + 16)
      (nextFree m x) := by
  simp only [Apart, rtMemheapSize] at hapart
  unfold unlinkFree setPrevFree setNextFree
  dsimp only
  have hn : nextFree (m.set (nextFree m x + 20) (prevFree m x)) x = nextFree m x :=
    Mem.set_ne _ _ (by omega)
  have hp : prevFree (m.set (nextFree m x + 20) (prevFree m x)) x = prevFree m x :=
    Mem.set_ne _ _ (by omega)
  rw [hn, hp]

/-- The headers of a list and of its anchor. -/
def AllApart (f : Nat) (xs : List Nat) : Prop :=
  (f :: xs).Nodup ∧ ∀ y ∈ f :: xs, ∀ z ∈ f :: xs, Apart y z

theorem AllApart.notMem (h : AllApart f (xs ++ x :: ys)) : x ∉ f :: (xs ++ ys) := by
  have hmiddle : ((f :: xs) ++ x :: ys).Nodup := h.1
  exact (List.nodup_cons.mp (List.nodup_middle.mp hmiddle)).1

/-- Where the ones beside an item are, and what taking it out writes. -/
theorem unlinkFree_parts (hr : Ring (nextFree m) (prevFree m) f (xs ++ x :: ys))
    (hall : AllApart f (xs ++ x :: ys)) :
    nextFree m x ∈ f :: (xs ++ x :: ys) ∧ prevFree m x ∈ f :: (xs ++ x :: ys) ∧
      unlinkFree m x = (m.set (nextFree m x + 20) (prevFree m x)).set (prevFree m x + 16)
        (nextFree m x) := by
  obtain ⟨hnodup, hapart⟩ := hall
  obtain ⟨hc, ha⟩ := hr.neighbours
  have hcmem : nextFree m x ∈ f :: (xs ++ x :: ys) := by
    simp only [List.mem_append, List.mem_cons, List.not_mem_nil, or_false] at hc ⊢
    tauto
  have hamem : prevFree m x ∈ f :: (xs ++ x :: ys) := by
    simp only [List.mem_append, List.mem_cons] at ha ⊢
    tauto
  have hxmem : x ∈ f :: (xs ++ x :: ys) := by simp
  refine ⟨hcmem, hamem, unlinkFree_eq (hapart x hxmem _ hcmem) fun hcx => ?_⟩
  refine AllApart.notMem ⟨hnodup, hapart⟩ ?_
  rw [hcx] at hc
  simp only [List.mem_append, List.mem_cons, List.not_mem_nil, or_false] at hc ⊢
  tauto

/-- An item leaves the free list. -/
theorem unlinkFree_ring (hr : Ring (nextFree m) (prevFree m) f (xs ++ x :: ys))
    (hall : AllApart f (xs ++ x :: ys)) :
    Ring (nextFree (unlinkFree m x)) (prevFree (unlinkFree m x)) f (xs ++ ys) := by
  obtain ⟨hc, ha, heq⟩ := unlinkFree_parts hr hall
  obtain ⟨hnodup, hapart⟩ := hall
  have hrest : ∀ y ∈ f :: (xs ++ ys), y ∈ f :: (xs ++ x :: ys) := fun y hy => by
    simp only [List.mem_append, List.mem_cons] at hy ⊢
    tauto
  have hca := hapart _ hc _ ha
  rw [heq]
  refine hr.unlink hnodup ⟨?_, fun y hy hne => ?_⟩ ⟨?_, fun y hy hne => ?_⟩
  · exact Mem.set_self _ _ _
  · have hyc := hapart _ (hrest y hy) _ hc
    have hya := hapart _ (hrest y hy) _ ha
    simp only [Apart, rtMemheapSize] at hyc hya
    exact (Mem.set_ne _ _ (by omega)).trans (Mem.set_ne _ _ (by omega))
  · simp only [Apart, rtMemheapSize] at hca
    exact (Mem.set_ne _ _ (by omega)).trans (Mem.set_self _ _ _)
  · have hyc := hapart _ (hrest y hy) _ hc
    have hya := hapart _ (hrest y hy) _ ha
    simp only [Apart, rtMemheapSize] at hyc hya
    exact (Mem.set_ne _ _ (by omega)).trans (Mem.set_ne _ _ (by omega))

/-- Only free links are written. -/
theorem unlinkFree_node (hr : Ring (nextFree m) (prevFree m) f (xs ++ x :: ys))
    (hall : AllApart f (xs ++ x :: ys)) (hz : ∀ y ∈ f :: (xs ++ x :: ys), Apart y z) (self : Nat) :
    node self (unlinkFree m x) z = node self m z := by
  obtain ⟨hc, ha, heq⟩ := unlinkFree_parts hr hall
  have hcz := hz _ hc
  have haz := hz _ ha
  simp only [Apart, rtMemheapSize] at hcz haz
  rw [heq, node_set_ne _ (by omega), node_set_ne _ (by omega)]

theorem removeFree_ring (hr : Ring (nextFree m) (prevFree m) f (xs ++ x :: ys))
    (hall : AllApart f (xs ++ x :: ys)) :
    Ring (nextFree (removeFree m x)) (prevFree (removeFree m x)) f (xs ++ ys) := by
  refine Ring.same (unlinkFree_ring hr hall) fun y hy => ?_
  have hmem : y ∈ f :: (xs ++ x :: ys) := by
    simp only [List.mem_append, List.mem_cons] at hy ⊢
    tauto
  have hxmem : x ∈ f :: (xs ++ x :: ys) := by simp
  have hapart := hall.2 y hmem x hxmem
  have hne : y ≠ x := fun heq => hall.notMem (heq ▸ hy)
  simp only [Apart, rtMemheapSize] at hapart
  constructor
  · exact (Mem.set_ne _ _ (by omega)).trans (Mem.set_ne _ _ (by omega))
  · exact (Mem.set_ne _ _ (by omega)).trans (Mem.set_ne _ _ (by omega))

theorem removeFree_node (hr : Ring (nextFree m) (prevFree m) f (xs ++ x :: ys))
    (hall : AllApart f (xs ++ x :: ys)) (hz : ∀ y ∈ f :: (xs ++ x :: ys), Apart y z) (self : Nat) :
    node self (removeFree m x) z = node self m z := by
  have hxz := hz x (by simp)
  simp only [Apart, rtMemheapSize] at hxz
  rw [← unlinkFree_node hr hall hz]
  exact (node_set_ne _ (by omega)).trans (node_set_ne _ (by omega))

theorem AllApart.head_notMem (h : AllApart f (x :: xs)) : x ∉ f :: xs := fun hx => by
  obtain ⟨hf, hxs⟩ := List.nodup_cons.mp h.1
  rcases List.mem_cons.mp hx with rfl | hx
  · exact hf List.mem_cons_self
  · exact (List.nodup_cons.mp hxs).1 hx

theorem insertFree_eq (hf : Apart x f) (hne : x ≠ f) :
    insertFree m x f = (((m.set (x + 16) (nextFree m f)).set (x + 20) f).set
      (nextFree m f + 20) x).set (f + 16) x := by
  simp only [Apart, rtMemheapSize] at hf
  have hfirst : nextFree ((m.set (x + 16) (nextFree m f)).set (x + 20) f) f = nextFree m f :=
    (Mem.set_ne _ _ (by omega)).trans (Mem.set_ne _ _ (by omega))
  unfold insertFree setNextFree setPrevFree
  dsimp only
  rw [hfirst]

/-- An item is put in front of the others. -/
theorem insertFree_ring (hr : Ring (nextFree m) (prevFree m) f xs) (hall : AllApart f (x :: xs)) :
    Ring (nextFree (insertFree m x f)) (prevFree (insertFree m x f)) f (x :: xs) := by
  have hc : nextFree m f ∈ f :: xs := hr.next_mem
  have hx : x ∉ f :: xs := hall.head_notMem
  have hapart : ∀ y ∈ f :: xs, Apart x y ∧ Apart y f ∧ Apart y (nextFree m f) ∧ y ≠ x := by
    intro y hy
    have hrest : ∀ z ∈ f :: xs, z ∈ f :: x :: xs := fun z hz => by
      simp only [List.mem_cons] at hz ⊢
      tauto
    exact ⟨hall.2 x (by simp) y (hrest y hy), hall.2 y (hrest y hy) f (by simp),
      hall.2 y (hrest y hy) _ (hrest _ hc), fun heq => hx (heq ▸ hy)⟩
  have hnodup : (f :: xs).Nodup := hall.1.sublist ((List.sublist_cons_self x xs).cons_cons f)
  rw [insertFree_eq (hapart f List.mem_cons_self).1 (hapart f List.mem_cons_self).2.2.2.symm]
  simp only [Apart, rtMemheapSize] at hapart
  have hf := hapart f List.mem_cons_self
  have hfirst := hapart _ hc
  refine hr.insert hnodup ⟨Mem.set_self _ _ _, ?_, fun y hy => ?_⟩ ⟨?_, ?_, fun y hy hne => ?_⟩
  · unfold nextFree at hf hfirst ⊢
    simp (disch := omega) only [Mem.set_ne, Mem.set_self]
  · have hy' := hapart y (List.mem_cons_of_mem f hy)
    have hyf : y ≠ f := fun heq => (List.nodup_cons.mp hnodup).1 (heq ▸ hy)
    unfold nextFree at hf hfirst hy' ⊢
    simp (disch := omega) only [Mem.set_ne]
  · unfold prevFree
    unfold nextFree at hf hfirst ⊢
    simp (disch := omega) only [Mem.set_ne, Mem.set_self]
  · unfold prevFree
    unfold nextFree at hf hfirst ⊢
    simp (disch := omega) only [Mem.set_ne, Mem.set_self]
  · have hy' := hapart y hy
    unfold prevFree
    unfold nextFree at hf hfirst hy' hne ⊢
    simp (disch := omega) only [Mem.set_ne]

theorem insertFree_node (hr : Ring (nextFree m) (prevFree m) f xs) (hall : AllApart f (x :: xs))
    (hz : ∀ y ∈ f :: x :: xs, Apart y z) (self : Nat) :
    node self (insertFree m x f) z = node self m z := by
  have hc : nextFree m f ∈ f :: xs := hr.next_mem
  have hx : x ∉ f :: xs := hall.head_notMem
  have hcz : Apart (nextFree m f) z := hz _ (by simp only [List.mem_cons] at hc ⊢; tauto)
  have hxz := hz x (by simp)
  have hfz := hz f (by simp)
  rw [insertFree_eq (hall.2 x (by simp) f (by simp)) fun heq => hx (heq ▸ List.mem_cons_self)]
  simp only [Apart, rtMemheapSize] at hcz hxz hfz
  rw [node_set_ne _ (by omega), node_set_ne _ (by omega), node_set_ne _ (by omega),
    node_set_ne _ (by omega)]

end

/-! ## Items and free list together -/

/-- The headers tile the pool, and the free list goes over some of them. -/
structure Linked (p : Pool) (m : Mem) (bs : List Block) (xs : List Nat) : Prop where
  chain : Chain p m bs
  ring : Ring (nextFree m) (prevFree m) p.freeList xs
  nodup : xs.Nodup
  bounds : ∀ y ∈ xs, Bound p.startAddr bs y

section
variable {p : Pool} {m m' : Mem} {pre post bs : List Block} {xs ys : List Nat}
  {k l len size x y : Nat} {u v : Bool}

theorem bound_join {o : Nat} (w : Bool) : Bound o (pre ++ ⟨k, u⟩ :: ⟨l, v⟩ :: post) y ↔
    Bound o (pre ++ ⟨k + l, w⟩ :: post) y ∨ y = o + extent pre + k := by
  simp only [bound_append, bound_cons, Nat.add_assoc]
  tauto

theorem bound_used {o : Nat} (w : Bool) : Bound o (pre ++ ⟨len, u⟩ :: post) y ↔
    Bound o (pre ++ ⟨len, w⟩ :: post) y := by
  simp only [bound_append, bound_cons]

theorem Linked.place (h : Linked p m bs xs) : ∀ y ∈ p.freeList :: xs, Place p bs y := by
  intro y hy
  rcases List.mem_cons.mp hy with rfl | hy
  · exact .inr rfl
  · exact .inl (h.bounds y hy)

theorem Chain.freeList_ne (h : Chain p m bs) (hy : Bound p.startAddr bs y) : y ≠ p.freeList := by
  have hin := h.place_inside hy
  have houtside := h.outside
  have htailer := h.tailer_lt.2
  simp only [rtMemheapSize] at houtside htailer
  omega

theorem Linked.all (h : Linked p m bs xs) : AllApart p.freeList xs := by
  refine ⟨List.nodup_cons.mpr ⟨fun hmem => ?_, h.nodup⟩, fun y hy z hz => ?_⟩
  · exact h.chain.freeList_ne (h.bounds _ hmem) rfl
  · exact h.chain.place_apart (h.place y hy) (h.place z hz)

theorem Linked.putItem (h : Linked p m (pre ++ ⟨len, u⟩ :: post) xs) (hsize : 4 ∣ size)
    (hroom : size + 48 ≤ len) : Linked p
      (putItem m p.self (p.startAddr + extent pre) (p.startAddr + extent pre + 24 + size))
      (pre ++ ⟨24 + size, u⟩ :: ⟨len - (24 + size), false⟩ :: post) xs := by
  refine ⟨h.chain.putItem hsize hroom, Ring.same h.ring fun y hy => ?_, h.nodup, fun y hy => ?_⟩
  · exact h.chain.putItem_links hroom (h.place y hy)
  · have hbound := h.bounds y hy
    have hlen : 24 + size + (len - (24 + size)) = len := by omega
    rw [bound_join u, hlen]
    exact .inl hbound

/-- Two items are joined; the second one is in no list. -/
theorem Linked.link (h : Linked p m (pre ++ ⟨k, u⟩ :: ⟨l, v⟩ :: post) xs)
    (hout : p.startAddr + extent pre + k ∉ xs) : Linked p
      (link m (p.startAddr + extent pre) (p.startAddr + extent pre + (k + l)))
      (pre ++ ⟨k + l, u⟩ :: post) xs := by
  refine ⟨h.chain.link, Ring.same h.ring fun y hy => ?_, h.nodup, fun y hy => ?_⟩
  · exact h.chain.link_links (h.place y hy)
  · refine ((bound_join u).mp (h.bounds y hy)).resolve_right ?_
    rintro rfl
    exact hout hy

/-- Two items are joined, and the second one leaves the free list. -/
theorem Linked.absorb
    (h : Linked p m (pre ++ ⟨k, u⟩ :: ⟨l, v⟩ :: post)
      (xs ++ (p.startAddr + extent pre + k) :: ys)) :
    Linked p (unlinkFree (MemHeap.link m (p.startAddr + extent pre)
      (p.startAddr + extent pre + (k + l))) (p.startAddr + extent pre + k))
      (pre ++ ⟨k + l, u⟩ :: post) (xs ++ ys) := by
  have hring := Ring.same h.ring fun y hy => h.chain.link_links (h.place y hy)
  refine ⟨h.chain.link.congr fun z hz => ?_, unlinkFree_ring hring h.all, ?_, fun y hy => ?_⟩
  · refine unlinkFree_node hring h.all (fun y hy => ?_) p.self
    refine h.chain.place_apart (h.place y hy) ?_
    rcases hz with hz | hz
    · exact .inl ((bound_join u).mpr (.inl hz))
    · exact .inr hz
  · exact (List.nodup_cons.mp (List.nodup_middle.mp h.nodup)).2
  · have hmem : y ∈ xs ++ (p.startAddr + extent pre + k) :: ys := by
      simp only [List.mem_append, List.mem_cons] at hy ⊢
      tauto
    refine ((bound_join u).mp (h.bounds y hmem)).resolve_right ?_
    rintro rfl
    exact h.all.notMem (List.mem_cons_of_mem _ hy)

theorem Linked.unlink (h : Linked p m bs (xs ++ x :: ys)) :
    Linked p (unlinkFree m x) bs (xs ++ ys) := by
  refine ⟨h.chain.congr fun z hz => ?_, unlinkFree_ring h.ring h.all,
    (List.nodup_cons.mp (List.nodup_middle.mp h.nodup)).2, fun y hy => h.bounds y ?_⟩
  · exact unlinkFree_node h.ring h.all (fun y hy => h.chain.place_apart (h.place y hy) hz) p.self
  · simp only [List.mem_append, List.mem_cons] at hy ⊢
    tauto

theorem Linked.remove (h : Linked p m bs (xs ++ x :: ys)) :
    Linked p (removeFree m x) bs (xs ++ ys) := by
  refine ⟨h.chain.congr fun z hz => ?_, removeFree_ring h.ring h.all,
    (List.nodup_cons.mp (List.nodup_middle.mp h.nodup)).2, fun y hy => h.bounds y ?_⟩
  · exact removeFree_node h.ring h.all (fun y hy => h.chain.place_apart (h.place y hy) hz) p.self
  · simp only [List.mem_append, List.mem_cons] at hy ⊢
    tauto

theorem Linked.insert (h : Linked p m bs xs) (hx : Bound p.startAddr bs x) (hout : x ∉ xs) :
    Linked p (insertFree m x p.freeList) bs (x :: xs) := by
  have hplace : ∀ y ∈ p.freeList :: x :: xs, Place p bs y := by
    intro y hy
    rcases List.mem_cons.mp hy with rfl | hy
    · exact .inr rfl
    rcases List.mem_cons.mp hy with rfl | hy
    · exact .inl hx
    · exact .inl (h.bounds y hy)
  have hall : AllApart p.freeList (x :: xs) := by
    refine ⟨?_, fun y hy z hz => h.chain.place_apart (hplace y hy) (hplace z hz)⟩
    refine List.nodup_cons.mpr ⟨fun hmem => ?_, List.nodup_cons.mpr ⟨hout, h.nodup⟩⟩
    rcases List.mem_cons.mp hmem with hmem | hmem
    · exact h.chain.freeList_ne hx hmem.symm
    · exact h.chain.freeList_ne (h.bounds _ hmem) rfl
  refine ⟨h.chain.congr fun z hz => ?_, insertFree_ring h.ring hall,
    List.nodup_cons.mpr ⟨hout, h.nodup⟩, fun y hy => ?_⟩
  · exact insertFree_node h.ring hall (fun y hy => h.chain.place_apart (hplace y hy) hz) p.self
  · rcases List.mem_cons.mp hy with rfl | hy
    · exact hx
    · exact h.bounds y hy

theorem Linked.mark (h : Linked p m (pre ++ ⟨len, u⟩ :: post) xs) (w : Bool) :
    Linked p (m.set (p.startAddr + extent pre) (rtMemheapMagic + w.toNat))
      (pre ++ ⟨len, w⟩ :: post) xs :=
  ⟨h.chain.mark w, Ring.same h.ring fun y hy => h.chain.mark_links (h.place y hy) _, h.nodup,
    fun y hy => (bound_used w).mp (h.bounds y hy)⟩

theorem Linked.data (h : Linked p m (pre ++ ⟨len, u⟩ :: post) xs)
    (hdata : ∀ x, x < p.startAddr + extent pre + 24 ∨ p.startAddr + extent pre + len ≤ x →
      m' x = m x) : Linked p m' (pre ++ ⟨len, u⟩ :: post) xs := by
  refine ⟨h.chain.data hdata, Ring.same h.ring fun y hy => ?_, h.nodup, h.bounds⟩
  have hapart := h.chain.block_apart (h.place y hy)
  simp only [rtMemheapSize] at hapart
  exact ⟨hdata _ (by omega), hdata _ (by omega)⟩

end

end ControlRTT.Kernel.MemHeap
