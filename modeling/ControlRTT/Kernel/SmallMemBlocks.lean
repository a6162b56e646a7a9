import ControlRTT.Kernel.SmallMem

/-! # The blocks of the small-memory heap

In every state the headers from `heap_ptr` to `heap_end` are those of a list of blocks
(`Chain`) of which no two neighbours are free and whose used ones are counted in
`used_mem` (`Blocks`). -/
namespace ControlRTT.Kernel.SmallMem
open ControlRTT.Kernel.RtDef ControlRTT.Lib.CInt ControlRTT.Lib.Extents ControlRTT.Lib.Runs
  ControlRTT.Lib.Tiling ControlRTT.Lib.WordMem

/-! ## Headers -/

/-- What an intact header says. -/
def node (m : Mem) (o : Nat) : Option Node :=
  let h := readHdr m o
  if h.magic = heapMagic ∧ h.used ≤ 1 then some ⟨h.used = 1, h.next, h.prev⟩ else none

def header (n : Node) : HeapMem := ⟨heapMagic, n.used.toNat, n.next, n.prev⟩

section
variable {m : Mem} {o x : Nat} {n : Node} {h : HeapMem}

theorem readHdr_of_node (hn : node m o = some n) : readHdr m o = header n := by
  obtain ⟨⟨hmagic, hused⟩, hn⟩ := Option.ite_none_right_eq_some.mp hn
  obtain rfl := Option.some.inj hn
  have hbit : (readHdr m o).used = (decide ((readHdr m o).used = 1)).toNat := by
    by_cases h1 : (readHdr m o).used = 1
    · simp [h1]
    · simp [h1]
      omega
  calc readHdr m o
      = ⟨(readHdr m o).magic, (readHdr m o).used, (readHdr m o).next, (readHdr m o).prev⟩ := rfl
    _ = _ := by rw [header, ← hmagic, ← hbit]

theorem node_of_readHdr (h : readHdr m o = header n) : node m o = some n := by
  rw [node, h]
  obtain ⟨u, next, prev⟩ := n
  cases u <;> simp [header]

theorem node_writeHdr (m : Mem) (o : Nat) (n : Node) :
    node (writeHdr m o (header n)) o = some n := by
  apply node_of_readHdr
  obtain ⟨u, next, prev⟩ := n
  cases u <;> simp [readHdr, writeHdr, Mem.set, header, heapMagic]

theorem node_setNext (hn : node m o = some n) (v : Nat) :
    node (setNext m o v) o = some { n with next := v } := by
  apply node_of_readHdr
  have hread := readHdr_of_node hn
  simp only [readHdr, header, HeapMem.mk.injEq] at hread
  simp [readHdr, setNext, Mem.set, header, hread]

theorem node_setPrev (hn : node m o = some n) (v : Nat) :
    node (setPrev m o v) o = some { n with prev := v } := by
  apply node_of_readHdr
  have hread := readHdr_of_node hn
  simp only [readHdr, header, HeapMem.mk.injEq] at hread
  simp [readHdr, setPrev, Mem.set, header, hread]

/-- `used` and `magic` are set together. -/
theorem node_setUsed (hn : node m o = some n) (u : Bool) :
    node (setMagic (setUsed m o u.toNat) o heapMagic) o = some { n with used := u } := by
  apply node_of_readHdr
  have hread := readHdr_of_node hn
  simp only [readHdr, header, HeapMem.mk.injEq] at hread
  cases u <;> simp [readHdr, setMagic, setUsed, Mem.set, header, hread, heapMagic]

/-- A header depends on its own words only. -/
theorem node_congr {m' : Mem} (heq : ∀ y, x ≤ y → y < x + 12 → m' y = m y) :
    node m' x = node m x := by
  unfold node readHdr
  rw [heq x (by omega) (by omega), heq (x + 4) (by omega) (by omega),
    heq (x + 8) (by omega) (by omega)]

theorem node_set_ne (v : Nat) (hx : o < x ∨ x + 12 ≤ o) : node (m.set o v) x = node m x :=
  node_congr fun _ _ _ => m.set_ne v (by omega)

theorem node_writeHdr_ne (h : HeapMem) (hx : o + 12 ≤ x ∨ x + 12 ≤ o) :
    node (writeHdr m o h) x = node m x := by
  unfold writeHdr
  rw [node_set_ne _ (by omega), node_set_ne _ (by omega), node_set_ne _ (by omega)]

theorem node_setNext_ne (v : Nat) (hx : o + 12 ≤ x ∨ x + 12 ≤ o) :
    node (setNext m o v) x = node m x := node_set_ne v (by omega)

theorem node_setPrev_ne (v : Nat) (hx : o + 12 ≤ x ∨ x + 12 ≤ o) :
    node (setPrev m o v) x = node m x := node_set_ne v (by omega)

theorem node_setUsed_ne (u v : Nat) (hx : o + 12 ≤ x ∨ x + 12 ≤ o) :
    node (setMagic (setUsed m o u) o v) x = node m x := by
  unfold setMagic setUsed
  rw [node_set_ne _ (by omega), node_set_ne _ (by omega)]

end

/-! ## The chain of headers -/

/-- The headers tile the heap up to `heap_end`, whose own header is intact. -/
structure Chain (s : Heap) (bs : List Block) : Prop where
  tiled : Tiled sizeofStructMem (node s.mem) 0 0 bs
  reaches : extent bs = s.heapEnd
  sentinel : ∃ p, node s.mem s.heapEnd = some ⟨true, s.heapEnd, p⟩
  words : ∀ b ∈ bs, 4 ∣ b.len
  aligned : 4 ∣ s.heapPtr
  fits : s.heapPtr + s.heapEnd + sizeofStructMem < 2 ^ 32

section
variable {s : Heap} {pre post bs : List Block} {len size : Nat} {u : Bool}

theorem Chain.hdr_start {b : Block} (h : Chain s (pre ++ b :: post)) :
    s.hdr (extent pre) = header ⟨b.used, extent pre + b.len, lastStart 0 0 pre⟩ := by
  have hnode := h.tiled.header.1
  rw [Nat.zero_add] at hnode
  exact readHdr_of_node hnode

/-- Blocks in one place are recut. Of the header behind them, only the back link may
change; it counts if it is that of a block. -/
theorem Chain.replace (pre mid mid' post : List Block) {m : Mem} {a c : Nat}
    (h : Chain s (pre ++ (mid ++ post))) (ha : a = extent pre)
    (hc : c = a + extent mid)
    (hmid : Tiled sizeofStructMem (node m) a (lastStart 0 0 pre) mid')
    (hlen : extent mid' = extent mid) (hwords : ∀ b ∈ mid', 4 ∣ b.len)
    (hback : ∀ n, node s.mem c = some n → ∃ p, node m c = some { n with prev := p } ∧
      (post ≠ [] → p = lastStart a (lastStart 0 0 pre) mid'))
    (hframe : ∀ x, x + 12 ≤ a ∨ c + 12 ≤ x → node m x = node s.mem x) :
    Chain { s with mem := m } (pre ++ (mid' ++ post)) := by
  have hend := h.reaches
  obtain ⟨p, hsentinel⟩ := h.sentinel
  simp only [extent_append] at hend
  refine ⟨h.tiled.replace pre mid mid' post (by omega) hc hmid hlen ?_ hframe, ?_, ?_, ?_,
    h.aligned, h.fits⟩
  · intro n hne hn
    obtain ⟨q, hq, hprev⟩ := hback n hn
    rw [hq, hprev hne]
  · simp only [extent_append, hlen]
    exact hend
  · have hlast := (tiled_append.mp (tiled_append.mp h.tiled).2).2
    cases post with
    | nil =>
      have hce : c = s.heapEnd := by simp only [extent_nil] at hend; omega
      obtain ⟨q, hq, -⟩ := hback _ (hce ▸ hsentinel)
      exact ⟨q, hce ▸ hq⟩
    | cons b post =>
      have := hlast.le_extent (List.cons_ne_nil b post)
      simp only [sizeofStructMem] at this
      exact ⟨p, (hframe s.heapEnd (.inr (by omega))).trans hsentinel⟩
  · intro b hb
    have hwhole := h.words b
    simp only [List.mem_append] at hb hwhole
    rcases hb with hb | hb | hb
    · exact hwhole (.inl hb)
    · exact hwords b hb
    · exact hwhole (.inr (.inr hb))

/-- Behind a block comes another one exactly if it does not end at `heap_end`. -/
theorem Chain.last_iff {b : Block} (h : Chain s (pre ++ b :: post)) :
    post = [] ↔ extent pre + b.len = s.heapEnd := by
  have hend := h.reaches
  have hpost := (tiled_append.mp h.tiled).2.2.2
  simp only [extent_append, extent_cons] at hend
  refine ⟨fun hnil => ?_, fun heq => ?_⟩
  · rw [hnil] at hend
    exact hend
  · by_contra hne
    have := hpost.le_extent hne
    simp only [sizeofStructMem] at this
    omega

theorem Chain.of_mem {s' : Heap} (h : Chain s bs) (hmem : s'.mem = s.mem)
    (hptr : s'.heapPtr = s.heapPtr) (hsize : s'.memSizeAligned = s.memSizeAligned) :
    Chain s' bs := by
  obtain ⟨hptr', hsize', mem, lfree, used, max⟩ := s'
  subst hmem hptr hsize
  exact ⟨h.tiled, h.reaches, h.sentinel, h.words, h.aligned, h.fits⟩

theorem Chain.split (h : Chain s (pre ++ ⟨len, u⟩ :: post)) (hsize : 4 ∣ size)
    (hroom : size + 24 ≤ len) : Chain (splitBlock s (extent pre) size)
      (pre ++ ⟨12 + size, u⟩ :: ⟨len - (12 + size), false⟩ :: post) := by
  have hnext : (s.hdr (extent pre)).next = extent pre + len := by rw [h.hdr_start]; rfl
  have hnode := h.tiled.header.1
  have hlast := h.last_iff
  have hlen : 4 ∣ len := h.words ⟨len, u⟩ (List.mem_append_right _ List.mem_cons_self)
  rw [Nat.zero_add] at hnode
  unfold splitBlock
  rw [hnext]
  generalize ha : extent pre = a at hnext hnode hlast
  generalize hb : a + sizeofStructMem + size = b
  simp only [sizeofStructMem] at hb
  dsimp only at hlast hnode ⊢
  -- the memory before the back link is written
  generalize hm : setNext (writeHdr s.mem b
    { magic := heapMagic, used := 0, next := a + len, prev := a }) a b = m
  have hother : ∀ x, x + 12 ≤ a ∨ a + len ≤ x → node m x = node s.mem x := by
    intro x hx
    rw [← hm, node_setNext_ne _ (by omega), node_writeHdr_ne _ (by omega)]
  have hfirst : node m a = some ⟨u, b, lastStart 0 0 pre⟩ := by
    rw [← hm]
    exact node_setNext ((node_writeHdr_ne _ (by omega)).trans hnode) b
  have hsecond : node m b = some ⟨false, a + len, a⟩ := by
    rw [← hm, node_setNext_ne _ (by omega)]
    exact node_writeHdr s.mem b ⟨false, a + len, a⟩
  generalize hm' : (if a + len ≠ s.memSizeAligned + sizeofStructMem then
    setPrev m (a + len) b else m) = m'
  have hsame : ∀ x, x + 12 ≤ a + len ∨ a + len + 12 ≤ x → node m' x = node m x := by
    intro x hx
    rw [← hm']
    split
    · exact node_setPrev_ne _ (by omega)
    · rfl
  refine h.replace pre [⟨len, u⟩] [⟨12 + size, u⟩, ⟨len - (12 + size), false⟩] post ha.symm rfl
    ⟨?_, Nat.le_add_right 12 size, ?_, ?_, trivial⟩ ?_ ?_ (fun n hn => ?_) fun x hx => ?_
  · rw [hsame a (by omega), hfirst, ← hb, Nat.add_assoc]
  · have hab : a + (12 + size) = b := by omega
    have hbl : b + (len - (12 + size)) = a + len := by omega
    dsimp only
    rw [hab, hbl, hsame b (by omega), hsecond]
  · simp only [sizeofStructMem]
    omega
  · simp only [extent_cons, extent_nil]
    omega
  · simp only [List.mem_cons, List.not_mem_nil, or_false, forall_eq_or_imp, forall_eq]
    omega
  · simp only [extent_cons, extent_nil, Nat.add_zero, lastStart_cons, lastStart_nil] at hn ⊢
    have hback := (hother _ (.inr (Nat.le_refl _))).trans hn
    rw [← hm']
    split
    · exact ⟨b, node_setPrev hback b, fun _ => by omega⟩
    · rename_i hend
      exact ⟨n.prev, hback, fun hne => absurd (hlast.mpr (Decidable.not_not.mp hend)) hne⟩
  · simp only [extent_cons, extent_nil] at hx
    rw [hsame x (by omega), hother x (by omega)]

/-- A block and the one behind it become one. -/
theorem Chain.join {a b : Nat} {v : Bool} (h : Chain s (pre ++ ⟨a, u⟩ :: ⟨b, v⟩ :: post)) :
    Chain (s.link (extent pre) (extent pre + (a + b))) (pre ++ ⟨a + b, u⟩ :: post) := by
  have hnode := h.tiled.header
  have hword : ∀ x ∈ [Block.mk a u, ⟨b, v⟩], 4 ∣ x.len := fun x hx =>
    h.words x (List.mem_append_right _ (List.mem_append_left post hx))
  have hb := (tiled_append.mp h.tiled).2.2.2.2.1
  simp only [List.mem_cons, List.not_mem_nil, or_false, forall_eq_or_imp, forall_eq] at hword
  rw [Nat.zero_add] at hnode
  generalize ha : extent pre = o at hnode
  simp only [sizeofStructMem] at hb hnode
  have hnext := node_setNext hnode.1 (o + (a + b))
  refine h.replace pre [⟨a, u⟩, ⟨b, v⟩] [⟨a + b, u⟩] post ha.symm rfl
    ⟨?_, ?_, trivial⟩ ?_ ?_ (fun n hn => ?_) fun x hx => ?_
  · rw [node_setPrev_ne _ (by omega)]
    exact hnext
  · simp only [sizeofStructMem]
    omega
  · simp only [extent_cons, extent_nil]
    omega
  · simp only [List.mem_cons, List.not_mem_nil, or_false, forall_eq]
    omega
  · simp only [extent_cons, extent_nil, Nat.add_zero] at hn ⊢
    refine ⟨o, node_setPrev ?_ o, fun _ => rfl⟩
    rw [node_setNext_ne _ (by omega)]
    exact hn
  · simp only [extent_cons, extent_nil] at hx
    rw [node_setPrev_ne _ (by omega), node_setNext_ne _ (by omega)]

/-- Nothing is moved, and outside one block nothing is written. -/
theorem Chain.inPlace {m : Mem} {v : Bool} (h : Chain s (pre ++ ⟨len, u⟩ :: post))
    (hnode : node m (extent pre) = some ⟨v, extent pre + len, lastStart 0 0 pre⟩)
    (hframe : ∀ x, x + 12 ≤ extent pre ∨ extent pre + len ≤ x → node m x = node s.mem x) :
    Chain { s with mem := m } (pre ++ ⟨len, v⟩ :: post) := by
  have hlen := h.tiled.header.2
  have hfirst : Tiled sizeofStructMem (node s.mem) 0 0 ((pre ++ [⟨len, u⟩]) ++ post) := by
    rw [List.append_assoc]
    exact h.tiled
  refine h.replace pre [⟨len, u⟩] [⟨len, v⟩] post rfl rfl ⟨hnode, hlen, trivial⟩ rfl ?_
    (fun n hn => ⟨n.prev, ?_, fun hne => ?_⟩) fun x hx => hframe x ?_
  · simpa using h.words ⟨len, u⟩ (List.mem_append_right _ List.mem_cons_self)
  · rw [hframe _ (.inr (by simp))]
    exact hn
  · have hprev := hfirst.prev (n := n) hne (by simpa using hn)
    simpa using hprev
  · simp only [extent_cons, extent_nil] at hx
    omega

theorem Chain.mark (h : Chain s (pre ++ ⟨len, u⟩ :: post)) (v : Bool) :
    Chain { s with mem := setMagic (setUsed s.mem (extent pre) v.toNat) (extent pre) heapMagic }
      (pre ++ ⟨len, v⟩ :: post) := by
  have hnode := h.tiled.header
  simp only [Nat.zero_add, sizeofStructMem] at hnode
  exact h.inPlace (node_setUsed hnode.1 v) fun x hx => node_setUsed_ne _ _ (by omega)

/-- Data may be written. -/
theorem Chain.data {m : Mem} (h : Chain s (pre ++ ⟨len, u⟩ :: post))
    (hdata : ∀ x, x < extent pre + 12 ∨ extent pre + len ≤ x → m x = s.mem x) :
    Chain { s with mem := m } (pre ++ ⟨len, u⟩ :: post) := by
  have hnode := h.tiled.header
  simp only [Nat.zero_add, sizeofStructMem] at hnode
  refine h.inPlace ?_ fun x hx => node_congr fun y _ _ => hdata y (by omega)
  rw [← hnode.1]
  exact node_congr fun y _ _ => hdata y (by omega)

theorem Chain.start_lt {b : Block} (h : Chain s (pre ++ b :: post)) :
    extent pre < s.heapEnd := by
  have hend := h.reaches
  have hb := h.tiled.header.2
  simp only [extent_append, extent_cons, sizeofStructMem] at hend hb
  omega

/-! ## Holes -/

theorem Chain.plugForward_stay (h : Chain s (pre ++ ⟨len, u⟩ :: post))
    (hpost : ∀ b ∈ post.head?, b.used) : plugForward s (extent pre) = s := by
  unfold plugForward
  rw [h.hdr_start]
  refine if_neg fun ⟨_, hfree, hnext⟩ => ?_
  dsimp only [SmallMem.header] at hfree hnext
  cases post with
  | nil => exact hnext (h.last_iff.mp rfl)
  | cons b post =>
    have hfirst : Chain s ((pre ++ [⟨len, u⟩]) ++ b :: post) := by
      rw [List.append_assoc]
      exact h
    have hb := hfirst.hdr_start
    simp only [extent_append, extent_cons, extent_nil, Nat.add_zero] at hb
    rw [hb] at hfree
    simp [SmallMem.header, hpost b rfl] at hfree

theorem Chain.plugForward_join {l : Nat}
    (h : Chain s (pre ++ ⟨len, u⟩ :: ⟨l, false⟩ :: post)) :
    plugForward s (extent pre) = { s.link (extent pre) (extent pre + (len + l)) with
      lfree := if s.lfree = extent pre + len then extent pre else s.lfree } := by
  have hlen := h.tiled.header.2
  have hlast := h.last_iff
  have hfirst : Chain s ((pre ++ [⟨len, u⟩]) ++ ⟨l, false⟩ :: post) := by
    rw [List.append_assoc]
    exact h
  have hb := hfirst.hdr_start
  simp only [extent_append, extent_cons, extent_nil, Nat.add_zero] at hb
  simp only [sizeofStructMem] at hlen
  unfold plugForward
  rw [h.hdr_start]
  dsimp only [SmallMem.header]
  rw [hb]
  have hend : extent pre + len ≠ s.heapEnd := fun hend =>
    absurd (hlast.mpr hend) (List.cons_ne_nil _ _)
  rw [if_pos ⟨by omega, rfl, hend⟩, Nat.add_assoc]
  rfl

theorem Chain.plugBackward_stay (h : Chain s (pre ++ ⟨len, u⟩ :: post))
    (hpre : ∀ b ∈ pre.getLast?, b.used) : plugBackward s (extent pre) = s := by
  unfold plugBackward
  rw [h.hdr_start]
  refine if_neg fun ⟨hprev, hfree⟩ => ?_
  dsimp only [SmallMem.header] at hfree hprev
  rcases List.eq_nil_or_concat pre with rfl | ⟨pre, b, rfl⟩
  · exact hprev rfl
  · have hlast : Chain s (pre ++ b :: ⟨len, u⟩ :: post) := by simpa using h
    have hb := hlast.hdr_start
    simp only [List.concat_eq_append, lastStart_append, lastStart_cons, lastStart_nil,
      Nat.zero_add] at hfree
    rw [hb] at hfree
    simp [SmallMem.header, hpre b (by simp)] at hfree

theorem Chain.plugBackward_join {l : Nat}
    (h : Chain s (pre ++ ⟨l, false⟩ :: ⟨len, u⟩ :: post)) :
    plugBackward s (extent pre + l) = { s.link (extent pre) (extent pre + (l + len)) with
      lfree := if s.lfree = extent pre + l then extent pre else s.lfree } := by
  have hlen := h.tiled.header.2
  have hfirst : Chain s ((pre ++ [⟨l, false⟩]) ++ ⟨len, u⟩ :: post) := by
    rw [List.append_assoc]
    exact h
  have hb := hfirst.hdr_start
  simp only [extent_append, extent_cons, extent_nil, Nat.add_zero, lastStart_append,
    lastStart_cons, lastStart_nil, Nat.zero_add] at hb
  simp only [sizeofStructMem] at hlen
  unfold plugBackward
  rw [hb]
  dsimp only [SmallMem.header]
  rw [h.hdr_start]
  rw [if_pos ⟨by omega, rfl⟩, Nat.add_assoc]

end

/-- What a used block adds to `used_mem`. -/
def usedLen (b : Block) : Nat := if b.used then b.len else 0

/-- Free neighbours have been joined; the used blocks are where they were. -/
structure Joined (s : Heap) (bs : List Block) (s' : Heap) (bs' : List Block) : Prop where
  chain : Chain s' bs'
  lfree : Bound 0 bs' s'.lfree
  starts : startsOf true 0 bs' = startsOf true 0 bs
  kept : ∀ b ∈ bs', b.used → b ∈ bs
  usedLens : total usedLen bs' = total usedLen bs
  ptr : s'.heapPtr = s.heapPtr
  size : s'.memSizeAligned = s.memSizeAligned
  usedMem : s'.usedMem = s.usedMem
  maxMem : s'.maxMem = s.maxMem

theorem Joined.refl {s : Heap} {bs : List Block} (h : Chain s bs) (hl : Bound 0 bs s.lfree) :
    Joined s bs s bs := ⟨h, hl, rfl, fun _ hb _ => hb, rfl, rfl, rfl, rfl, rfl⟩

theorem Joined.trans {s s' s'' : Heap} {bs bs' bs'' : List Block} (h : Joined s bs s' bs')
    (h' : Joined s' bs' s'' bs'') : Joined s bs s'' bs'' :=
  ⟨h'.chain, h'.lfree, h'.starts.trans h.starts,
    fun b hb hu => h.kept b (h'.kept b hb hu) hu, h'.usedLens.trans h.usedLens,
    h'.ptr.trans h.ptr, h'.size.trans h.size, h'.usedMem.trans h.usedMem,
    h'.maxMem.trans h.maxMem⟩

section
variable {s : Heap} {pre post : List Block} {len : Nat}

theorem Chain.joined {a b : Nat} (h : Chain s (pre ++ ⟨a, false⟩ :: ⟨b, false⟩ :: post))
    (hl : Bound 0 (pre ++ ⟨a, false⟩ :: ⟨b, false⟩ :: post) s.lfree) :
    Joined s (pre ++ ⟨a, false⟩ :: ⟨b, false⟩ :: post)
      { s.link (extent pre) (extent pre + (a + b)) with
        lfree := if s.lfree = extent pre + a then extent pre else s.lfree }
      (pre ++ ⟨a + b, false⟩ :: post) := by
  refine ⟨h.join.of_mem rfl rfl rfl, ?_, ?_, fun c hc hu => ?_, ?_, rfl, rfl, rfl, rfl⟩
  · simp only [bound_append, bound_cons, Nat.zero_add] at hl ⊢
    split
    · exact .inr (.inl rfl)
    · rename_i hne
      rcases hl with hl | hl | hl | hl
      · exact .inl hl
      · exact .inr (.inl hl)
      · exact absurd hl hne
      · exact .inr (.inr (Nat.add_assoc _ a b ▸ hl))
  · simp [startsOf, Nat.add_assoc]
  · simp only [List.mem_append, List.mem_cons] at hc ⊢
    rcases hc with hc | rfl | hc
    · exact .inl hc
    · cases hu
    · exact .inr (.inr (.inr hc))
  · simp [usedLen]

theorem Chain.plugForward (h : Chain s (pre ++ ⟨len, false⟩ :: post))
    (hl : Bound 0 (pre ++ ⟨len, false⟩ :: post) s.lfree) (hpost : Spaced post) :
    ∃ len' post', Joined s (pre ++ ⟨len, false⟩ :: post) (SmallMem.plugForward s (extent pre))
      (pre ++ ⟨len', false⟩ :: post') ∧ Spaced post' ∧ ∀ b ∈ post'.head?, b.used := by
  rcases post with _ | ⟨⟨l, _ | _⟩, post⟩
  · rw [h.plugForward_stay fun b hb => by cases hb]
    exact ⟨len, [], .refl h hl, hpost, fun b hb => by cases hb⟩
  · obtain ⟨hhead, htail⟩ := List.isChain_cons.mp hpost
    rw [h.plugForward_join]
    exact ⟨len + l, post, h.joined hl, htail, fun b hb => by simpa using hhead b hb⟩
  · have hused : ∀ b ∈ (Block.mk l true :: post).head?, b.used := fun b hb => by
      obtain rfl := Option.some.inj hb
      rfl
    rw [h.plugForward_stay hused]
    exact ⟨len, _, .refl h hl, hpost, hused⟩

theorem Chain.plugBackward (h : Chain s (pre ++ ⟨len, false⟩ :: post))
    (hl : Bound 0 (pre ++ ⟨len, false⟩ :: post) s.lfree) (hpre : Spaced pre) :
    ∃ pre' len', Joined s (pre ++ ⟨len, false⟩ :: post) (SmallMem.plugBackward s (extent pre))
      (pre' ++ ⟨len', false⟩ :: post) ∧ Spaced pre' ∧ ∀ b ∈ pre'.getLast?, b.used := by
  rcases List.eq_nil_or_concat pre with rfl | ⟨pre, ⟨l, _ | _⟩, rfl⟩
  · rw [h.plugBackward_stay fun b hb => by cases hb]
    exact ⟨[], len, .refl h hl, hpre, fun b hb => by cases hb⟩
  · simp only [List.concat_eq_append, List.append_assoc, List.cons_append, List.nil_append,
      extent_append, extent_cons, extent_nil, Nat.add_zero] at h hl hpre ⊢
    obtain ⟨hfirst, -, hlast⟩ := List.isChain_append.mp hpre
    rw [h.plugBackward_join]
    exact ⟨pre, l + len, h.joined hl, hfirst, fun b hb => by simpa using hlast b hb⟩
  · have hused : ∀ b ∈ (pre.concat (Block.mk l true)).getLast?, b.used := fun b hb => by
      simp only [List.concat_eq_append, List.getLast?_concat] at hb
      obtain rfl := Option.some.inj hb
      rfl
    rw [h.plugBackward_stay hused]
    exact ⟨_, len, .refl h hl, hpre, hused⟩

/-- `plug_holes` leaves no free neighbours. -/
theorem Chain.plugHoles (h : Chain s (pre ++ ⟨len, false⟩ :: post))
    (hl : Bound 0 (pre ++ ⟨len, false⟩ :: post) s.lfree) (hpre : Spaced pre)
    (hpost : Spaced post) : ∃ s' bs', SmallMem.plugHoles s (extent pre) = some s' ∧
      Joined s (pre ++ ⟨len, false⟩ :: post) s' bs' ∧ Spaced bs' := by
  obtain ⟨len', post', hforward, hpost', hhead⟩ := h.plugForward hl hpost
  obtain ⟨pre', len'', hbackward, hpre', hlast⟩ :=
    hforward.chain.plugBackward hforward.lfree hpre
  have hfree : (s.hdr (extent pre)).used = 0 := by rw [h.hdr_start]; rfl
  exact ⟨_, _, if_pos ⟨h.start_lt, hfree⟩, hforward.trans hbackward,
    spaced_split.mpr ⟨hpre', hpost', fun a ha => .inl (hlast a ha), fun a ha => .inr (hhead a ha)⟩⟩

end

/-! ## Freeing -/

/-- What is kept about the blocks while two free ones may be neighbours. A block that is
used has room for data. -/
structure Counted (s : Heap) (bs : List Block) : Prop where
  chain : Chain s bs
  lfree : Bound 0 bs s.lfree
  room : ∀ b ∈ bs, b.used → sizeofStructMem < b.len
  used : s.usedMem = total usedLen bs
  max : s.usedMem ≤ s.maxMem

structure Blocks (s : Heap) (bs : List Block) : Prop extends Counted s bs where
  spaced : Spaced bs

theorem total_usedLen_le (bs : List Block) : total usedLen bs ≤ extent bs := by
  induction bs with
  | nil => exact Nat.le_refl 0
  | cons b bs ih =>
    have hb : usedLen b ≤ b.len := by
      unfold usedLen
      split <;> omega
    exact Nat.add_le_add hb ih

theorem dvd_extent {bs : List Block} (h : ∀ b ∈ bs, 4 ∣ b.len) : 4 ∣ extent bs := by
  induction bs with
  | nil => exact Nat.dvd_zero 4
  | cons b bs ih =>
    exact Nat.dvd_add (h b List.mem_cons_self) (ih fun c hc => h c (List.mem_cons_of_mem b hc))

/-- The heap is where it was. -/
def SamePlace (s s' : Heap) : Prop :=
  s'.heapPtr = s.heapPtr ∧ s'.memSizeAligned = s.memSizeAligned

section
variable {s s' : Heap} {pre post bs : List Block} {len size x p : Nat} {u : Bool}

theorem Chain.dvd_start (h : Chain s (pre ++ post)) : 4 ∣ extent pre :=
  dvd_extent fun b hb => h.words b (List.mem_append_left post hb)

/-- The offset of the header of a pointer to data. -/
theorem Chain.memOf (h : Chain s bs) (hx : x < s.heapEnd) :
    s.memOf (s.heapPtr + x + sizeofStructMem) = x := by
  have hfits := h.fits
  unfold Heap.memOf
  rw [usub_of_le (by omega) (by omega)]
  omega

theorem Chain.end_le {b : Block} (h : Chain s (pre ++ b :: post)) :
    extent pre + b.len ≤ s.heapEnd := by
  have hend := h.reaches
  simp only [extent_append, extent_cons] at hend
  omega

theorem Chain.usub_len {b : Block} (h : Chain s (pre ++ b :: post)) :
    usub (extent pre + b.len) (extent pre) = b.len := by
  have hend := h.end_le
  have hfits := h.fits
  rw [usub_of_le (by omega) (by omega), Nat.add_sub_cancel_left]

/-- A pointer to data passes the range checks. -/
theorem Chain.in_range {b : Block} (h : Chain s (pre ++ b :: post))
    (hroom : sizeofStructMem < b.len) :
    ¬ (s.heapPtr + extent pre + sizeofStructMem < s.heapPtr ∨
      s.heapPtr + extent pre + sizeofStructMem ≥ s.heapPtr + s.heapEnd) := by
  have := h.end_le
  omega

theorem Counted.plugHoles (h : Counted s (pre ++ ⟨len, false⟩ :: post)) (hpre : Spaced pre)
    (hpost : Spaced post) : ∃ s' bs', SmallMem.plugHoles s (extent pre) = some s' ∧
      Blocks s' bs' ∧ SamePlace s s' ∧
      startsOf true 0 bs' = startsOf true 0 (pre ++ ⟨len, false⟩ :: post) := by
  obtain ⟨s', bs', hplug, hj, hspaced⟩ := h.chain.plugHoles h.lfree hpre hpost
  refine ⟨s', bs', hplug, ⟨⟨hj.chain, hj.lfree, ?_, ?_, ?_⟩, hspaced⟩, ⟨hj.ptr, hj.size⟩, hj.starts⟩
  · exact fun b hb hu => h.room b (hj.kept b hb hu) hu
  · rw [hj.usedMem, hj.usedLens, h.used]
  · rw [hj.usedMem, hj.maxMem]
    exact h.max

/-- The state in which `rt_free` calls `plug_holes`. -/
def unused (s : Heap) (ptr len : Nat) : Heap :=
  { s with
    mem := setMagic (setUsed s.mem ptr 0) ptr heapMagic
    lfree := if ptr < s.lfree then ptr else s.lfree
    usedMem := usub s.usedMem len }

theorem Chain.rtFree_eq (h : Chain s (pre ++ ⟨len, true⟩ :: post))
    (hroom : sizeofStructMem < len) : rtFree s (s.heapPtr + extent pre + sizeofStructMem) =
      SmallMem.plugHoles (unused s (extent pre) len) (extent pre) := by
  have hrange := h.in_range hroom
  have hmemOf := h.memOf h.start_lt
  have halign := h.aligned
  have hstart := h.dvd_start
  have hfits := h.fits
  have hend := h.end_le
  have hdr := h.hdr_start
  have hsize := h.usub_len
  have hword : ¬ (s.heapPtr + extent pre + sizeofStructMem) % rtAlignSize ≠ 0 := by
    simp only [rtAlignSize, sizeofStructMem]
    omega
  unfold rtFree
  rw [if_neg (by simp [sizeofStructMem]), if_neg (fun hor => hor.elim hword hrange), hmemOf]
  dsimp only
  rw [hdr, if_neg (by simp [header])]
  dsimp only [header, unused]
  rw [hsize]

theorem Counted.unused (h : Counted s (pre ++ ⟨len, true⟩ :: post)) :
    Counted (unused s (extent pre) len) (pre ++ ⟨len, false⟩ :: post) := by
  have hend := h.chain.reaches
  have hfits := h.chain.fits
  have hused := h.used
  have htotal := total_usedLen_le (pre ++ ⟨len, true⟩ :: post)
  have hl := h.lfree
  have hmax := h.max
  have hmem : (SmallMem.unused s (extent pre) len).usedMem = s.usedMem - len := by
    refine usub_of_le ?_ (by simp only [sizeofStructMem] at hfits; omega)
    simp only [total_append, total_cons, usedLen, if_true] at hused
    omega
  refine ⟨(h.chain.mark false).of_mem rfl rfl rfl, ?_, fun b hb hu => ?_, ?_, ?_⟩
  · dsimp only [SmallMem.unused]
    split
    · simp [bound_append]
    · simpa only [bound_append, bound_cons] using hl
  · simp only [List.mem_append, List.mem_cons] at hb
    rcases hb with hb | rfl | hb
    · exact h.room b (List.mem_append_left _ hb) hu
    · cases hu
    · exact h.room b (List.mem_append_right _ (List.mem_cons_of_mem _ hb)) hu
  · rw [hmem, hused]
    simp only [total_append, total_cons, usedLen, if_true, Bool.false_eq_true, if_false]
    omega
  · rw [hmem]
    exact Nat.le_trans (Nat.sub_le _ _) hmax

theorem Blocks.free (h : Blocks s bs) (hx : x ∈ startsOf true 0 bs) :
    ∃ s' bs', rtFree s (s.heapPtr + x + sizeofStructMem) = some s' ∧ Blocks s' bs' ∧
      SamePlace s s' ∧ (startsOf true 0 bs).Perm (x :: startsOf true 0 bs') := by
  obtain ⟨pre, ⟨len, u⟩, post, rfl, rfl, rfl⟩ := mem_startsOf hx
  obtain ⟨hpre, hpost, -, -⟩ := spaced_split.mp h.spaced
  obtain ⟨s', bs', hplug, hblocks, hplace, hstarts⟩ := h.toCounted.unused.plugHoles hpre hpost
  rw [Nat.zero_add, h.chain.rtFree_eq (h.room _ (List.mem_append_right _ List.mem_cons_self) rfl)]
  refine ⟨s', bs', hplug, hblocks, hplace, ?_⟩
  rw [hstarts]
  simp only [startsOf_append, startsOf, if_true, Bool.false_eq_true, if_false, Nat.zero_add]
  exact List.perm_middle

end

end ControlRTT.Kernel.SmallMem
