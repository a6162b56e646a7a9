import ControlRTT.Lib.Parties
import ControlRTT.Lib.Ring
import ControlRTT.Lib.Runs

/-! # The rings of the VBus

`components/vbus/vbus.c`: packets go through a ring of blocks of 64 bytes, which one side fills and
the other empties. A packet begins with a block, in which four bytes are for its header, and goes on
in those behind it, from the first block of the ring again when the last is full. The two sides take
turns, at each byte that they write or read; the barriers see to it that each sees the other's in
this order. In every run the in-thread finds the packets that the out-thread wrote
(`transfer_throughout`). The ring is in memory, so what is computed from its indices does not
overflow. -/
namespace ControlRTT.Components.VbusRing
open Lib.Ring Lib.Runs

/-- `RT_VBUS_CHANNEL_NR` -/
def rtVbusChannelNr : Nat := 32

/-- `RT_VBUS_BLK_HEAD_SZ` -/
def rtVbusBlkHeadSz : Nat := 4

/-- `sizeof(struct rt_vbus_blk)` -/
def blkSz : Nat := 64

/-- `LEN2BNR` -/
def len2bnr (len : Nat) : Nat := (len + rtVbusBlkHeadSz + blkSz - 1) / blkSz

/-- `enum rt_vbus_chn_status` -/
inductive ChnStatus
  | available
  | closed
  | establishing
  | established
  | suspend
  | closing
  deriving DecidableEq, Repr

/-- `_chn_connected` -/
def chnConnected (chnStatus : Nat → ChnStatus) (chnr : Nat) : Bool :=
  chnStatus chnr = .established || chnStatus chnr = .suspend

/-- `struct rt_vbus_pkg`, with the bytes at `data`, as `rt_vbus_post` queues it. -/
structure Pkg where
  id : UInt8
  prio : UInt8
  data : List UInt8
  id_lt : id.toNat < rtVbusChannelNr
  length_lt : data.length < 256

def Pkg.len (pkg : Pkg) : UInt8 := UInt8.ofNat pkg.data.length

/-- `LEN2BNR(dpkg.len)` -/
def Pkg.dnr (pkg : Pkg) : Nat := len2bnr pkg.data.length

/-- The bytes that `rt_memcpy` stores. -/
def rtMemcpy (dst : Nat) : List UInt8 → List (Nat × UInt8)
  | [] => []
  | b :: bs => (dst, b) :: rtMemcpy (dst + 1) bs

/-- How many of the bytes are up to the end of the ring: the size of the first of two
`rt_memcpy`. -/
def tailsz (nr idx size : Nat) : Nat :=
  let tailsz := (nr - idx) * blkSz - rtVbusBlkHeadSz
  if tailsz > size then size else tailsz

/-- What the out-thread stores for a packet, in this order. -/
def stores (nr putIdx : Nat) (pkg : Pkg) : List (Nat × UInt8) :=
  let blk := putIdx * blkSz
  [(blk, pkg.id), (blk + 1, pkg.prio), (blk + 2, pkg.len)] ++
    if putIdx + pkg.dnr ≥ nr then
      rtMemcpy (blk + rtVbusBlkHeadSz) (pkg.data.take (tailsz nr putIdx pkg.data.length)) ++
        rtMemcpy 0 (pkg.data.drop (tailsz nr putIdx pkg.data.length))
    else rtMemcpy (blk + rtVbusBlkHeadSz) pkg.data

/-- What the in-thread loads for a packet, in this order. -/
def loads (nr getIdx size : Nat) : List Nat :=
  let data := getIdx * blkSz + rtVbusBlkHeadSz
  if getIdx + len2bnr size ≥ nr then
    List.range' data (tailsz nr getIdx size) ++ List.range' 0 (size - tailsz nr getIdx size)
  else List.range' data size

/-- The index `bnr` blocks on: `_ring_add_get_bnr`, and what both threads do with `nxtidx`. -/
def ringAdd (nr idx bnr : Nat) : Nat :=
  if idx + bnr ≥ nr then idx + bnr - nr else idx + bnr

/-- `_bus_ring_space_nr` -/
def busRingSpaceNr (nr getIdx putIdx : Nat) : Int :=
  let delta : Int := getIdx - putIdx
  if delta > 0 then delta - 1 else nr + delta - 1

/-! ## Where the bytes are -/

/-- The byte `j` from the start of the block `idx` on. -/
def pos (nr idx j : Nat) : Nat := (idx * blkSz + j) % (nr * blkSz)

variable {nr idx : Nat}

theorem pos_lt (hidx : idx < nr) (j : Nat) : pos nr idx j < nr * blkSz :=
  Nat.mod_lt _ (Nat.mul_pos (Nat.zero_lt_of_lt hidx) (by decide))

theorem pos_inj {i j : Nat} (hi : i < nr * blkSz) (hj : j < nr * blkSz)
    (h : pos nr idx i = pos nr idx j) : i = j :=
  Nat.ModEq.eq_of_lt_of_lt (Nat.ModEq.add_left_cancel' _ h) hi hj

theorem pos_add (d j : Nat) : pos nr ((idx + d) % nr) j = pos nr idx (d * blkSz + j) := by
  unfold pos
  rw [← Nat.mul_mod_mul_right, Nat.mod_add_mod, Nat.add_mul, Nat.add_assoc]

/-- The block of a byte. -/
theorem pos_div (j : Nat) : pos nr idx j / blkSz = (idx + j / blkSz) % nr := by
  have hpos : 0 < blkSz := by decide
  unfold pos
  rw [Nat.mul_comm nr, Nat.mod_mul_right_div_self, Nat.add_comm (idx * blkSz),
    Nat.add_mul_div_right _ _ hpos, Nat.add_comm]

theorem pos_of_lt {j : Nat} (h : idx * blkSz + j < nr * blkSz) : pos nr idx j = idx * blkSz + j :=
  Nat.mod_eq_of_lt h

theorem pos_of_ge {j : Nat} (hge : nr * blkSz ≤ idx * blkSz + j)
    (hlt : idx * blkSz + j < 2 * (nr * blkSz)) :
    pos nr idx j = idx * blkSz + j - nr * blkSz := by
  unfold pos
  rw [mod_eq_ite hlt, if_neg (Nat.not_lt.mpr hge)]

/-- The header of a packet is in its first block. -/
theorem pos_head (hidx : idx < nr) {j : Nat} (hj : j < rtVbusBlkHeadSz) :
    pos nr idx j = idx * blkSz + j := by
  refine pos_of_lt ?_
  unfold blkSz
  unfold rtVbusBlkHeadSz at hj
  omega

theorem ringAdd_eq {bnr : Nat} (hidx : idx < nr) (hbnr : bnr ≤ nr) :
    ringAdd nr idx bnr = (idx + bnr) % nr := by
  unfold ringAdd
  rw [mod_eq_ite (by omega)]
  split <;> rename_i h
  · rw [if_neg (by omega)]
  · rw [if_pos (by omega)]

/-- The blocks that are free, if `n` are not; one is left free. -/
theorem busRingSpaceNr_eq {n : Nat} (hidx : idx < nr) (hn : n < nr) :
    busRingSpaceNr nr idx ((idx + n) % nr) = (nr : Int) - n - 1 := by
  unfold busRingSpaceNr
  rw [mod_eq_ite (by omega)]
  dsimp only
  split <;> split <;> omega

/-- A packet is as long as its blocks, at most. -/
theorem le_len2bnr (len : Nat) : len + rtVbusBlkHeadSz ≤ len2bnr len * blkSz := by
  unfold len2bnr rtVbusBlkHeadSz blkSz
  omega

theorem len2bnr_pos (len : Nat) : 0 < len2bnr len := by
  unfold len2bnr rtVbusBlkHeadSz blkSz
  omega

theorem rtMemcpy_eq (dst : Nat) (data : List UInt8) :
    rtMemcpy dst data = data.mapIdx fun k b => (dst + k, b) := by
  induction data generalizing dst with
  | nil => rfl
  | cons b bs ih =>
    rw [rtMemcpy, ih, List.mapIdx_cons]
    simp only [Nat.add_zero, Nat.add_assoc, Nat.add_comm 1]

section
variable {size k : Nat}

theorem tailsz_le (nr idx size : Nat) : tailsz nr idx size ≤ size := by
  unfold tailsz
  dsimp only
  split
  · exact Nat.le_refl _
  · omega

theorem pos_first (hidx : idx < nr) (hk : k < tailsz nr idx size) :
    pos nr idx (rtVbusBlkHeadSz + k) = idx * blkSz + rtVbusBlkHeadSz + k := by
  rw [pos_of_lt, Nat.add_assoc]
  unfold tailsz blkSz rtVbusBlkHeadSz at hk
  dsimp only at hk
  unfold blkSz rtVbusBlkHeadSz
  split at hk <;> omega

theorem pos_second (hsize : len2bnr size ≤ nr) (hidx : idx < nr) (hk : tailsz nr idx size ≤ k)
    (hlt : k < size) : pos nr idx (rtVbusBlkHeadSz + k) = k - tailsz nr idx size := by
  have hle := le_len2bnr size
  have hbnr := Nat.mul_le_mul_right blkSz hsize
  unfold tailsz at hk ⊢
  dsimp only at hk ⊢
  split at hk
  · omega
  · rename_i hfull
    rw [if_neg hfull]
    simp only [blkSz, rtVbusBlkHeadSz] at hk hle hbnr hfull ⊢
    rw [pos_of_ge]
    all_goals
      simp only [blkSz]
      omega

theorem pos_straight (h : idx + len2bnr size < nr) (hk : k < size) :
    pos nr idx (rtVbusBlkHeadSz + k) = idx * blkSz + rtVbusBlkHeadSz + k := by
  have hle := le_len2bnr size
  rw [pos_of_lt, Nat.add_assoc]
  unfold blkSz rtVbusBlkHeadSz at hle ⊢
  omega

end

theorem mapIdx_congr {α β : Type} {l : List α} {f g : Nat → α → β}
    (h : ∀ k (hk : k < l.length), f k l[k] = g k l[k]) : l.mapIdx f = l.mapIdx g := by
  refine List.ext_getElem (by simp) fun k hk hk' => ?_
  simp only [List.getElem_mapIdx]
  exact h k (by simpa using hk)

/-- Both copies together store the bytes one behind the other in the ring. -/
theorem stores_eq (hidx : idx < nr) {pkg : Pkg} (hdnr : pkg.dnr ≤ nr) :
    stores nr idx pkg =
      [(pos nr idx 0, pkg.id), (pos nr idx 1, pkg.prio),
        (pos nr idx 2, pkg.len)] ++
      pkg.data.mapIdx fun k b => (pos nr idx (rtVbusBlkHeadSz + k), b) := by
  have hle := tailsz_le nr idx pkg.data.length
  unfold stores
  dsimp only
  rw [pos_head hidx (by decide : 0 < _), pos_head hidx (by decide : 1 < _),
    pos_head hidx (by decide : 2 < _), Nat.add_zero]
  congr 1
  split
  · conv_rhs => rw [← List.take_append_drop (tailsz nr idx pkg.data.length) pkg.data]
    rw [List.mapIdx_append, rtMemcpy_eq, rtMemcpy_eq]
    congr 1
    · refine mapIdx_congr fun k hk => ?_
      rw [List.length_take] at hk
      rw [pos_first hidx (Nat.lt_of_lt_of_le hk (Nat.min_le_left _ _))]
    · refine mapIdx_congr fun k hk => ?_
      rw [List.length_drop] at hk
      rw [List.length_take, Nat.min_eq_left hle,
        pos_second hdnr hidx (Nat.le_add_left _ _) (by omega), Nat.add_sub_cancel, Nat.zero_add]
  · rename_i hstraight
    rw [rtMemcpy_eq]
    refine mapIdx_congr fun k hk => ?_
    rw [pos_straight (Nat.lt_of_not_le hstraight) hk]

theorem loads_eq (hidx : idx < nr) {size : Nat} (hsize : len2bnr size ≤ nr) :
    loads nr idx size = (List.range size).map fun k => pos nr idx (rtVbusBlkHeadSz + k) := by
  have hle := tailsz_le nr idx size
  unfold loads
  dsimp only
  split
  · conv_rhs => rw [← Nat.add_sub_of_le hle, List.range_add, List.map_append, List.map_map]
    rw [List.range'_eq_map_range, List.range'_eq_map_range]
    congr 1
    · refine List.map_congr_left fun k hk => ?_
      rw [pos_first hidx (List.mem_range.mp hk)]
    · refine List.map_congr_left fun k hk => ?_
      have hlt := List.mem_range.mp hk
      rw [Function.comp_apply, pos_second hsize hidx (Nat.le_add_right _ _) (by omega)]
      omega
  · rename_i hstraight
    rw [List.range'_eq_map_range]
    refine List.map_congr_left fun k hk => ?_
    rw [pos_straight (Nat.lt_of_not_le hstraight) (List.mem_range.mp hk)]

/-! ## What is in the ring -/

/-- A packet begins with the block `idx`. -/
structure Lies (nr : Nat) (blks : Nat → UInt8) (idx : Nat) (pkg : Pkg) : Prop where
  id : blks (pos nr idx 0) = pkg.id
  qos : blks (pos nr idx 1) = pkg.prio
  len : blks (pos nr idx 2) = pkg.len
  data : ∀ k (hk : k < pkg.data.length), blks (pos nr idx (rtVbusBlkHeadSz + k)) = pkg.data[k]

/-- Packets follow one another from the block `idx` on. -/
def Stored (nr : Nat) (blks : Nat → UInt8) : Nat → List Pkg → Prop
  | _, [] => True
  | idx, pkg :: pkgs => Lies nr blks idx pkg ∧ Stored nr blks ((idx + pkg.dnr) % nr) pkgs

/-- How many blocks packets have. -/
def bnrs (pkgs : List Pkg) : Nat := (pkgs.map Pkg.dnr).sum

section
variable {blks blks' : Nat → UInt8} {pkg : Pkg} {pkgs : List Pkg}

theorem Pkg.len_toNat (pkg : Pkg) : pkg.len.toNat = pkg.data.length :=
  UInt8.toNat_ofNat_of_lt' pkg.length_lt

theorem Pkg.dnr_pos (pkg : Pkg) : 0 < pkg.dnr := len2bnr_pos _

theorem Pkg.data_lt (pkg : Pkg) {k : Nat} (hk : k < pkg.data.length) :
    rtVbusBlkHeadSz + k < pkg.dnr * blkSz := by
  have hle := le_len2bnr pkg.data.length
  change _ < len2bnr pkg.data.length * blkSz
  omega

theorem Pkg.head_lt (pkg : Pkg) {j : Nat} (hj : j < rtVbusBlkHeadSz) : j < pkg.dnr * blkSz := by
  have hle := le_len2bnr pkg.data.length
  change _ < len2bnr pkg.data.length * blkSz
  omega

theorem bnrs_cons (pkg : Pkg) (pkgs : List Pkg) : bnrs (pkg :: pkgs) = pkg.dnr + bnrs pkgs :=
  List.sum_cons

theorem bnrs_concat (pkgs : List Pkg) (pkg : Pkg) : bnrs (pkgs ++ [pkg]) = bnrs pkgs + pkg.dnr := by
  simp [bnrs]

theorem bnrs_eq_zero_iff : bnrs pkgs = 0 ↔ pkgs = [] := by
  cases pkgs with
  | nil => simp [bnrs]
  | cons pkg pkgs =>
    have hpos := pkg.dnr_pos
    simp only [bnrs_cons, reduceCtorEq, iff_false]
    omega

theorem Lies.congr (h : Lies nr blks idx pkg)
    (hsame : ∀ j < pkg.dnr * blkSz, blks' (pos nr idx j) = blks (pos nr idx j)) :
    Lies nr blks' idx pkg where
  id := (hsame 0 (pkg.head_lt (by decide))).trans h.id
  qos := (hsame 1 (pkg.head_lt (by decide))).trans h.qos
  len := (hsame 2 (pkg.head_lt (by decide))).trans h.len
  data := fun k hk => (hsame _ (pkg.data_lt hk)).trans (h.data k hk)

theorem Stored.congr (h : Stored nr blks idx pkgs)
    (hsame : ∀ j < bnrs pkgs * blkSz, blks' (pos nr idx j) = blks (pos nr idx j)) :
    Stored nr blks' idx pkgs := by
  induction pkgs generalizing idx with
  | nil => trivial
  | cons pkg pkgs ih =>
    rw [bnrs_cons, Nat.add_mul] at hsame
    refine ⟨h.1.congr fun j hj => hsame j (by omega), ih h.2 fun j hj => ?_⟩
    rw [pos_add]
    exact hsame _ (by omega)

theorem Stored.append (h : Stored nr blks idx pkgs) (hidx : idx < nr)
    (hpkg : Lies nr blks ((idx + bnrs pkgs) % nr) pkg) : Stored nr blks idx (pkgs ++ [pkg]) := by
  induction pkgs generalizing idx with
  | nil =>
    refine ⟨?_, trivial⟩
    have hzero : (idx + bnrs []) % nr = idx := Nat.mod_eq_of_lt hidx
    rwa [hzero] at hpkg
  | cons first pkgs ih =>
    refine ⟨h.1, ih h.2 (Nat.mod_lt _ (Nat.zero_lt_of_lt hidx)) ?_⟩
    rw [bnrs_cons, ← Nat.add_assoc] at hpkg
    rwa [Nat.mod_add_mod]

/-- What is stored for a packet goes into its blocks. -/
theorem stores_pos (hidx : idx < nr) (hdnr : pkg.dnr ≤ nr) {a : Nat} {b : UInt8}
    (h : (a, b) ∈ stores nr idx pkg) : ∃ j < pkg.dnr * blkSz, a = pos nr idx j := by
  rw [stores_eq hidx hdnr] at h
  rcases List.mem_append.mp h with h | h
  · simp only [List.mem_cons, Prod.mk.injEq, List.not_mem_nil, or_false] at h
    obtain ⟨rfl, -⟩ | ⟨rfl, -⟩ | ⟨rfl, -⟩ := h
    · exact ⟨0, pkg.head_lt (by decide), rfl⟩
    · exact ⟨1, pkg.head_lt (by decide), rfl⟩
    · exact ⟨2, pkg.head_lt (by decide), rfl⟩
  · obtain ⟨k, hk, heq⟩ := List.mem_mapIdx.mp h
    obtain ⟨rfl, -⟩ := Prod.mk.inj heq
    exact ⟨_, pkg.data_lt hk, rfl⟩

/-- No byte is stored twice. -/
theorem stores_nodup (hidx : idx < nr) (hdnr : pkg.dnr ≤ nr) :
    ((stores nr idx pkg).map Prod.fst).Nodup := by
  have heq : (stores nr idx pkg).map Prod.fst =
      ([0, 1, 2] ++ List.range' rtVbusBlkHeadSz pkg.data.length).map (pos nr idx) := by
    rw [stores_eq hidx hdnr, List.map_append, List.map_append]
    congr 1
    refine List.ext_getElem (by simp) fun k hk hk' => ?_
    simp
  have hlt : ∀ j ∈ [0, 1, 2] ++ List.range' rtVbusBlkHeadSz pkg.data.length, j < nr * blkSz := by
    intro j hj
    have hle := Nat.mul_le_mul_right blkSz hdnr
    rcases List.mem_append.mp hj with hj | hj
    · have hhead : j < rtVbusBlkHeadSz := by
        simp only [List.mem_cons, List.not_mem_nil, or_false] at hj
        unfold rtVbusBlkHeadSz
        omega
      exact Nat.lt_of_lt_of_le (pkg.head_lt hhead) hle
    · obtain ⟨k, hk, rfl⟩ := List.mem_range'.mp hj
      rw [Nat.one_mul]
      exact Nat.lt_of_lt_of_le (pkg.data_lt hk) hle
  rw [heq]
  refine List.Nodup.map_on (fun i hi j hj h => pos_inj (hlt i hi) (hlt j hj) h) ?_
  refine List.nodup_append.mpr ⟨by decide, List.nodup_range', fun a ha b hb => ?_⟩
  obtain ⟨k, -, rfl⟩ := List.mem_range'.mp hb
  simp only [List.mem_cons, List.not_mem_nil, or_false] at ha
  unfold rtVbusBlkHeadSz
  omega

/-- When all is stored, the packet is there. -/
theorem lies_of_stores (hidx : idx < nr) (hdnr : pkg.dnr ≤ nr)
    (h : ∀ store ∈ stores nr idx pkg, blks store.1 = store.2) : Lies nr blks idx pkg := by
  rw [stores_eq hidx hdnr] at h
  refine ⟨h (pos nr idx 0, pkg.id) (by simp), h (pos nr idx 1, pkg.prio) (by simp),
    h (pos nr idx 2, pkg.len) (by simp), fun k hk => ?_⟩
  exact h (pos nr idx (rtVbusBlkHeadSz + k), pkg.data[k])
    (List.mem_append_right _ (List.mem_mapIdx.mpr ⟨k, hk, rfl⟩))

end

/-! ## The two threads -/

/-- Where the out-thread is: at `rt_prio_queue_pop`; before it looks at the channel, at the room,
and before it sets `blocked`; waiting; before it resets `blocked`; storing. -/
inductive OutPhase
  | idle
  | checking (pkg : Pkg)
  | spacing (pkg : Pkg)
  | blocking (pkg : Pkg)
  | suspended (pkg : Pkg)
  | resumed (pkg : Pkg)
  | filling (pkg : Pkg) (todo : List (Nat × UInt8))

/-- Where the in-thread is: before it compares the indices; before it reads `len`, and `id`, and
looks at the channel; with a packet that it drops, or gives to `_chn0_actor`; in `rt_malloc`, and
when that has failed; loading; before `rt_vbus_data_push`. -/
inductive InPhase
  | idle
  | sizing
  | naming (size : UInt8)
  | checking (id size : UInt8)
  | dropping (id size : UInt8)
  | acting (size : UInt8)
  | allocating (id size : UInt8)
  | lacking (id size : UInt8)
  | copying (id size : UInt8) (todo : List Nat) (got : List UInt8)
  | pushing (id : UInt8) (got : List UInt8)
  deriving DecidableEq, Repr

/-- `struct rt_vbus_ring`, its blocks as bytes, with `_chn_status` of both sides, their threads, and
what the in-thread has pushed. -/
structure System where
  putIdx : Nat
  getIdx : Nat
  blocked : Bool := false
  blks : Nat → UInt8
  outStatus : Nat → ChnStatus
  inStatus : Nat → ChnStatus
  outThread : OutPhase := .idle
  inThread : InPhase := .idle
  pushed : List (UInt8 × List UInt8) := []

/-- A packet comes out of the queue; a step of the out-thread; the interrupt of its side; what
`rt_malloc` returns; a step of the in-thread; what else changes the status of a channel. -/
inductive Event
  | post (pkg : Pkg)
  | goOut
  | isr
  | malloc (ok : Bool)
  | goIn
  | outStatus (chnr : Nat) (st : ChnStatus)
  | inStatus (chnr : Nat) (st : ChnStatus)

namespace System

/-- `_bus_out_entry` -/
def goOut (nr : Nat) (s : System) : Option System :=
  match s.outThread with
  | .idle => none
  | .checking pkg =>
    some { s with
      outThread := if chnConnected s.outStatus pkg.id.toNat then .spacing pkg else .idle }
  | .spacing pkg =>
    some { s with
      outThread :=
        if busRingSpaceNr nr s.getIdx s.putIdx < pkg.dnr then .blocking pkg
        else .filling pkg (stores nr s.putIdx pkg) }
  | .blocking pkg => some { s with blocked := true, outThread := .suspended pkg }
  | .suspended _ => none
  | .resumed pkg => some { s with blocked := false, outThread := .spacing pkg }
  | .filling pkg ((a, b) :: todo) =>
    some { s with blks := Function.update s.blks a b, outThread := .filling pkg todo }
  | .filling pkg [] =>
    some { s with putIdx := ringAdd nr s.putIdx pkg.dnr, outThread := .idle }

/-- The blocks of a packet are free. -/
def free (nr : Nat) (s : System) (size : UInt8) (inThread : InPhase) : System :=
  { s with getIdx := ringAdd nr s.getIdx (len2bnr size.toNat), inThread }

/-- `_bus_in_entry`; it waits when the ring is empty. -/
def goIn (nr : Nat) (s : System) : Option System :=
  match s.inThread with
  | .idle => if s.getIdx = s.putIdx then none else some { s with inThread := .sizing }
  | .sizing => some { s with inThread := .naming (s.blks (s.getIdx * blkSz + 2)) }
  | .naming size => some { s with inThread := .checking (s.blks (s.getIdx * blkSz)) size }
  | .checking id size =>
    some { s with
      inThread :=
        if id.toNat > rtVbusChannelNr || !chnConnected s.inStatus id.toNat then .dropping id size
        else if id = 0 then .acting size else .allocating id size }
  | .dropping _ size => some (s.free nr size .idle)
  | .acting size => some (s.free nr size .idle)
  | .allocating _ _ => none
  | .lacking _ size => some (s.free nr size .idle)
  | .copying id size (a :: todo) got =>
    some { s with inThread := .copying id size todo (got ++ [s.blks a]) }
  | .copying id size [] got => some (s.free nr size (.pushing id got))
  | .pushing id got => some { s with pushed := s.pushed ++ [(id, got)], inThread := .idle }

def step (nr : Nat) (s : System) : Event → Option System
  | .post pkg =>
    match s.outThread with
    | .idle => some { s with outThread := .checking pkg }
    | _ => none
  | .goOut => s.goOut nr
  | .isr =>
    match s.outThread with
    | .suspended pkg => if s.blocked then some { s with outThread := .resumed pkg } else some s
    | _ => some s
  | .malloc ok =>
    match s.inThread with
    | .allocating id size =>
      some { s with
        inThread :=
          if ok then .copying id size (loads nr s.getIdx size.toNat) [] else .lacking id size }
    | _ => none
  | .goIn => s.goIn nr
  | .outStatus chnr st => some { s with outStatus := Function.update s.outStatus chnr st }
  | .inStatus chnr st => some { s with inStatus := Function.update s.inStatus chnr st }

end System

/-! ## What has been written, and what has become of it -/

/-- What the in-thread has done with a packet. -/
inductive Outcome
  | dropped (id size : UInt8)
  | acted (size : UInt8)
  | lacking (id size : UInt8)
  | extracted (id : UInt8) (data : List UInt8)
  deriving DecidableEq, Repr

/-- An outcome, with what the channel of the packet was at the look and what `rt_malloc` said. -/
structure Fate where
  outcome : Outcome
  connected : Option Bool
  allocated : Option Bool
  deriving DecidableEq, Repr

/-- A fate of this packet: it is dropped only if its channel is not connected, and only for want of
memory if it is; otherwise all of it is extracted. -/
def Fate.Of (f : Fate) (pkg : Pkg) : Prop :=
  match f.outcome with
  | .dropped id size => f.connected = some false ∧ id = pkg.id ∧ size = pkg.len
  | .acted size => f.connected = some true ∧ pkg.id = 0 ∧ size = pkg.len
  | .lacking id size => f.connected = some true ∧ f.allocated = some false ∧ id ≠ 0 ∧
      id = pkg.id ∧ size = pkg.len
  | .extracted id data => f.connected = some true ∧ f.allocated = some true ∧ id ≠ 0 ∧
      id = pkg.id ∧ data = pkg.data

def Fate.packet (f : Fate) : Option (UInt8 × List UInt8) :=
  match f.outcome with
  | .extracted id data => some (id, data)
  | _ => none

/-- The packet that the next step of the out-thread puts into the ring. -/
def OutPhase.puts : OutPhase → Option Pkg
  | .filling pkg [] => some pkg
  | _ => none

/-- What becomes of a packet at the next step of the in-thread. -/
def InPhase.outcome : InPhase → Option Outcome
  | .dropping id size => some (.dropped id size)
  | .acting size => some (.acted size)
  | .lacking id size => some (.lacking id size)
  | .copying id _ [] got => some (.extracted id got)
  | _ => none

/-- The ring, the packets that the out-thread has put into it, what has become of them, and what is
known of the first that the in-thread has not done with: whether its channel was connected at the
look, and what `rt_malloc` has returned. -/
structure Transfer where
  sys : System
  written : List Pkg := []
  fates : List Fate := []
  connected : Option Bool := none
  allocated : Option Bool := none

namespace Transfer

/-- The packets that the in-thread has not done with. -/
def inFlight (c : Transfer) : List Pkg := c.written.drop c.fates.length

/-- Where the in-thread looks, the channel of the first packet is or is not connected. -/
def look (c : Transfer) : Option Bool :=
  match c.sys.inThread with
  | .checking _ _ => c.inFlight.head?.map fun pkg => chnConnected c.sys.inStatus pkg.id.toNat
  | _ => c.connected

/-- What is seen of a step of the in-thread to `sys`. -/
def seen (c : Transfer) (sys : System) : Transfer :=
  match c.sys.inThread.outcome with
  | none => { c with sys, connected := c.look }
  | some outcome => { c with
      sys
      fates := c.fates ++ [⟨outcome, c.connected, c.allocated⟩]
      connected := none
      allocated := none }

def step (nr : Nat) (c : Transfer) (e : Event) : Option Transfer :=
  (c.sys.step nr e).map fun sys =>
    match e with
    | .goOut => { c with sys, written := c.written ++ c.sys.outThread.puts.toList }
    | .goIn => c.seen sys
    | .malloc ok => { c with sys, allocated := some ok }
    | _ => { c with sys }

/-- An empty ring; what is in its blocks is left open. -/
def start (idx : Nat) (blks : Nat → UInt8) (outStatus inStatus : Nat → ChnStatus) : Transfer where
  sys := { putIdx := idx, getIdx := idx, blks, outStatus, inStatus }

end Transfer

/-- What the out-thread is still to store. -/
def OutPhase.todo : OutPhase → List (Nat × UInt8)
  | .filling _ todo => todo
  | _ => []

/-- What the in-thread has extracted and not pushed yet. -/
def InPhase.inHand : InPhase → List (UInt8 × List UInt8)
  | .pushing id got => [(id, got)]
  | _ => []

structure Transfer.Agrees (nr : Nat) (c : Transfer) : Prop where
  /-- What becomes of the packets becomes of them in the order in which they were written. -/
  order : List.Forall₂ Fate.Of c.fates (c.written.take c.fates.length)
  /-- What is pushed are the packets extracted. -/
  pushed : c.sys.pushed ++ c.sys.inThread.inHand = c.fates.filterMap Fate.packet
  /-- The others are in the ring, whole. -/
  stored : Stored nr c.sys.blks c.sys.getIdx c.inFlight
  /-- Nothing is stored in their blocks, or outside the ring. -/
  kept : ∀ store ∈ c.sys.outThread.todo, store.1 < nr * blkSz ∧
    ∀ d < bnrs c.inFlight, store.1 / blkSz ≠ (c.sys.getIdx + d) % nr
  /-- None is left when the in-thread finds the ring empty. -/
  empty : c.sys.getIdx = c.sys.putIdx ↔ c.inFlight = []

/-! ## The invariant -/

/-- What the out-thread has stored is there. -/
def OutPhase.Fits (nr putIdx room : Nat) (blks : Nat → UInt8) : OutPhase → Prop
  | .filling pkg todo => pkg.dnr < room ∧ ∃ stored, stores nr putIdx pkg = stored ++ todo ∧
      ∀ store ∈ stored, blks store.1 = store.2
  | _ => True

/-- The in-thread is busy with a packet of the ring. -/
def InPhase.taking : InPhase → Bool
  | .idle => false
  | .pushing _ _ => false
  | _ => true

/-- What the in-thread has read is of this packet. -/
def InPhase.Fits (nr getIdx : Nat) (pkg : Pkg) : InPhase → Prop
  | .naming size => size = pkg.len
  | .checking id size => id = pkg.id ∧ size = pkg.len
  | .dropping id size => id = pkg.id ∧ size = pkg.len
  | .acting size => pkg.id = 0 ∧ size = pkg.len
  | .allocating id size => id ≠ 0 ∧ id = pkg.id ∧ size = pkg.len
  | .lacking id size => id ≠ 0 ∧ id = pkg.id ∧ size = pkg.len
  | .copying id size todo got => id ≠ 0 ∧ id = pkg.id ∧ size = pkg.len ∧
      ∃ k, got = pkg.data.take k ∧ todo = (loads nr getIdx pkg.data.length).drop k
  | _ => True

/-- What is known of the packet that the in-thread is busy with. -/
def InPhase.Known (connected allocated : Option Bool) : InPhase → Prop
  | .dropping _ _ => connected = some false
  | .acting _ | .allocating _ _ => connected = some true
  | .lacking _ _ => connected = some true ∧ allocated = some false
  | .copying _ _ _ _ => connected = some true ∧ allocated = some true
  | _ => True

structure Transfer.Inv (nr : Nat) (c : Transfer) (done rest : List Pkg) : Prop where
  written : c.written = done ++ rest
  order : List.Forall₂ Fate.Of c.fates done
  pushed : c.sys.pushed ++ c.sys.inThread.inHand = c.fates.filterMap Fate.packet
  getIdx : c.sys.getIdx < nr
  putIdx : c.sys.putIdx = (c.sys.getIdx + bnrs rest) % nr
  room : bnrs rest < nr
  stored : Stored nr c.sys.blks c.sys.getIdx rest
  outThread : c.sys.outThread.Fits nr c.sys.putIdx (nr - bnrs rest) c.sys.blks
  inThread : c.sys.inThread.taking = true → ∃ pkg later, rest = pkg :: later ∧
    c.sys.inThread.Fits nr c.sys.getIdx pkg
  known : c.sys.inThread.Known c.connected c.allocated

namespace Transfer
variable {c : Transfer} {nr : Nat} {done rest : List Pkg}

theorem Inv.putIdx_lt (h : c.Inv nr done rest) : c.sys.putIdx < nr := by
  rw [h.putIdx]
  exact Nat.mod_lt _ (Nat.zero_lt_of_lt h.getIdx)

theorem Inv.inFlight_eq (h : c.Inv nr done rest) : c.inFlight = rest := by
  unfold inFlight
  rw [h.written, h.order.length_eq, List.drop_left]

theorem Inv.empty_iff (h : c.Inv nr done rest) : c.sys.getIdx = c.sys.putIdx ↔ rest = [] := by
  have hget := h.getIdx
  have hroom := h.room
  rw [h.putIdx, mod_eq_ite (by omega), ← bnrs_eq_zero_iff]
  split <;> omega

theorem Inv.agrees (h : c.Inv nr done rest) : c.Agrees nr where
  order := by
    rw [h.written, h.order.length_eq, List.take_left]
    exact h.order
  pushed := h.pushed
  stored := by
    rw [h.inFlight_eq]
    exact h.stored
  kept := by
    rw [h.inFlight_eq]
    intro ⟨a, b⟩ hmem
    have hout := h.outThread
    unfold OutPhase.todo at hmem
    split at hmem
    · rename_i pkg todo hphase
      rw [hphase] at hout
      obtain ⟨hdnr, stored, hstores, -⟩ := hout
      have hidx := h.putIdx_lt
      obtain ⟨j, hj, rfl⟩ := stores_pos hidx (by omega)
        (hstores ▸ List.mem_append_right stored hmem)
      refine ⟨pos_lt hidx j, fun d hd => ?_⟩
      have hblk : j / blkSz < pkg.dnr := Nat.div_lt_of_lt_mul (Nat.mul_comm _ _ ▸ hj)
      rw [pos_div, h.putIdx, Nat.mod_add_mod, Nat.add_assoc]
      exact (position_ne (Nat.lt_add_right _ hd) (by generalize j / blkSz = n at hblk; omega)).symm
    · cases hmem
  empty := by
    rw [h.inFlight_eq]
    exact h.empty_iff

/-! ## The out-thread -/

/-- The out-thread goes on, and stores nothing. -/
theorem Inv.out (h : c.Inv nr done rest) {outThread : OutPhase} {blocked : Bool}
    {outStatus : Nat → ChnStatus}
    (hfits : outThread.Fits nr c.sys.putIdx (nr - bnrs rest) c.sys.blks) :
    Inv nr { c with sys := { c.sys with outThread, blocked, outStatus } } done rest :=
  ⟨h.written, h.order, h.pushed, h.getIdx, h.putIdx, h.room, h.stored, hfits, h.inThread, h.known⟩

/-- There is room for a packet that is not to wait. -/
theorem Inv.space (h : c.Inv nr done rest) {pkg : Pkg}
    (hsp : ¬ busRingSpaceNr nr c.sys.getIdx c.sys.putIdx < pkg.dnr) :
    pkg.dnr < nr - bnrs rest := by
  have hroom := h.room
  rw [h.putIdx, busRingSpaceNr_eq h.getIdx hroom] at hsp
  omega

/-- A byte is stored. -/
theorem Inv.store (h : c.Inv nr done rest) {pkg : Pkg} {a : Nat} {b : UInt8}
    {todo : List (Nat × UInt8)} (hphase : c.sys.outThread = .filling pkg ((a, b) :: todo)) :
    Inv nr { c with
      sys := { c.sys with
        blks := Function.update c.sys.blks a b
        outThread := .filling pkg todo } } done rest := by
  have hout := h.outThread
  rw [hphase] at hout
  obtain ⟨hdnr, stored, hstores, hthere⟩ := hout
  have hidx := h.putIdx_lt
  have hle : pkg.dnr ≤ nr := by omega
  refine ⟨h.written, h.order, h.pushed, h.getIdx, h.putIdx, h.room, ?_, ?_, h.inThread, h.known⟩
  · obtain ⟨j, hj, rfl⟩ := stores_pos hidx hle
      (hstores ▸ List.mem_append_right stored List.mem_cons_self)
    refine h.stored.congr fun i hi => Function.update_of_ne ?_ _ _
    rw [h.putIdx, pos_add]
    have hmul := Nat.mul_le_mul_right blkSz (show bnrs rest + pkg.dnr ≤ nr by omega)
    rw [Nat.add_mul] at hmul
    refine fun heq => ?_
    have := pos_inj (by omega) (by omega) heq
    omega
  · refine ⟨hdnr, stored ++ [(a, b)], ?_, fun store hmem => ?_⟩
    · rw [hstores, List.append_assoc]
      rfl
    · have hnodup := stores_nodup hidx hle
      rw [hstores, List.map_append, List.map_cons] at hnodup
      rcases List.mem_append.mp hmem with hmem | hmem
      · have hne : store.1 ≠ a := (List.nodup_append.mp hnodup).2.2 _
          (List.mem_map_of_mem hmem) _ List.mem_cons_self
        change Function.update c.sys.blks a b store.1 = store.2
        rw [Function.update_of_ne hne]
        exact hthere store hmem
      · obtain rfl := List.mem_singleton.mp hmem
        exact Function.update_self _ _ _

/-- The packet is in the ring. -/
theorem Inv.put (h : c.Inv nr done rest) {pkg : Pkg}
    (hphase : c.sys.outThread = .filling pkg []) :
    Inv nr { c with
      sys := { c.sys with putIdx := ringAdd nr c.sys.putIdx pkg.dnr, outThread := .idle }
      written := c.written ++ [pkg] } done (rest ++ [pkg]) := by
  have hout := h.outThread
  rw [hphase] at hout
  obtain ⟨hdnr, stored, hstores, hthere⟩ := hout
  rw [List.append_nil] at hstores
  have hidx := h.putIdx_lt
  have hle : pkg.dnr ≤ nr := by omega
  refine ⟨?_, h.order, h.pushed, h.getIdx, ?_, ?_, ?_, trivial, fun htaking => ?_, h.known⟩
  · rw [h.written, List.append_assoc]
  · change ringAdd nr c.sys.putIdx pkg.dnr = _
    rw [ringAdd_eq hidx hle, h.putIdx, Nat.mod_add_mod, bnrs_concat, Nat.add_assoc]
  · rw [bnrs_concat]
    omega
  · refine h.stored.append h.getIdx ?_
    rw [← h.putIdx]
    exact lies_of_stores hidx hle (hstores ▸ hthere)
  · obtain ⟨first, later, rfl, hfits⟩ := h.inThread htaking
    exact ⟨first, later ++ [pkg], rfl, hfits⟩

/-! ## The in-thread -/

/-- The in-thread goes on with the same packet. -/
theorem Inv.inn (h : c.Inv nr done rest) {inThread : InPhase} {inStatus : Nat → ChnStatus}
    (hinHand : inThread.inHand = c.sys.inThread.inHand)
    (hfits : inThread.taking = true → ∃ pkg later, rest = pkg :: later ∧
      inThread.Fits nr c.sys.getIdx pkg)
    {connected allocated : Option Bool} (hknown : inThread.Known connected allocated) :
    Inv nr { c with sys := { c.sys with inThread, inStatus }, connected, allocated } done rest :=
  ⟨h.written, h.order, hinHand ▸ h.pushed, h.getIdx, h.putIdx, h.room, h.stored, h.outThread, hfits,
    hknown⟩

/-- The in-thread has done with a packet. -/
theorem Inv.free (h : c.Inv nr done rest) {pkg : Pkg} {later : List Pkg}
    (hrest : rest = pkg :: later) {inThread : InPhase} {outcome : Outcome} {size : UInt8}
    (hsize : size = pkg.len) (htaking : inThread.taking = false)
    (hnone : c.sys.inThread.inHand = [])
    (hinHand : inThread.inHand = (Fate.packet ⟨outcome, c.connected, c.allocated⟩).toList)
    (hof : Fate.Of ⟨outcome, c.connected, c.allocated⟩ pkg) :
    Inv nr { c with
      sys := c.sys.free nr size inThread
      fates := c.fates ++ [⟨outcome, c.connected, c.allocated⟩]
      connected := none
      allocated := none } (done ++ [pkg]) later := by
  subst hrest hsize
  have hroom := h.room
  have hput := h.putIdx
  have hout := h.outThread
  rw [bnrs_cons] at hroom hput hout
  have hget : ringAdd nr c.sys.getIdx (len2bnr pkg.len.toNat) = (c.sys.getIdx + pkg.dnr) % nr := by
    rw [pkg.len_toNat]
    exact ringAdd_eq h.getIdx (show pkg.dnr ≤ nr by omega)
  refine ⟨?_, ?_, ?_, ?_, ?_, ?_, ?_, ?_, fun htrue => ?_, ?_⟩
  · rw [h.written, List.append_assoc]
    rfl
  · exact List.rel_append h.order (.cons hof .nil)
  · change c.sys.pushed ++ inThread.inHand = (c.fates ++ [_]).filterMap Fate.packet
    have hpushed := h.pushed
    rw [hnone, List.append_nil] at hpushed
    rw [List.filterMap_append, ← hpushed, hinHand]
    cases outcome <;> rfl
  · change ringAdd nr c.sys.getIdx (len2bnr pkg.len.toNat) < nr
    rw [hget]
    exact Nat.mod_lt _ (Nat.zero_lt_of_lt h.getIdx)
  · change c.sys.putIdx = (ringAdd nr c.sys.getIdx (len2bnr pkg.len.toNat) + bnrs later) % nr
    rw [hget, hput, Nat.mod_add_mod, Nat.add_assoc]
  · omega
  · change Stored nr c.sys.blks (ringAdd nr c.sys.getIdx (len2bnr pkg.len.toNat)) later
    rw [hget]
    exact h.stored.2
  · change c.sys.outThread.Fits nr c.sys.putIdx (nr - bnrs later) c.sys.blks
    cases hphase : c.sys.outThread with
    | filling next todo =>
      rw [hphase] at hout
      exact ⟨by have := hout.1; omega, hout.2⟩
    | _ => trivial
  · change inThread.taking = true at htrue
    rw [htaking] at htrue
    cases htrue
  · change inThread.Known none none
    cases inThread with
    | idle | sizing | naming _ | checking _ _ | pushing _ _ => trivial
    | _ => cases htaking

/-- The byte `k` of the packet that is being extracted. -/
theorem Inv.load (h : c.Inv nr done rest) {pkg : Pkg} {later : List Pkg}
    (hrest : rest = pkg :: later) {k a : Nat} {todo : List Nat}
    (htodo : a :: todo = (loads nr c.sys.getIdx pkg.data.length).drop k) :
    pkg.data.take k ++ [c.sys.blks a] = pkg.data.take (k + 1) ∧
      todo = (loads nr c.sys.getIdx pkg.data.length).drop (k + 1) := by
  subst hrest
  have hroom := h.room
  rw [bnrs_cons] at hroom
  have hloads : loads nr c.sys.getIdx pkg.data.length = _ :=
    loads_eq h.getIdx (show pkg.dnr ≤ nr by omega)
  have hlt : k < (loads nr c.sys.getIdx pkg.data.length).length := by
    by_contra hge
    rw [List.drop_of_length_le (Nat.le_of_not_lt hge)] at htodo
    cases htodo
  rw [List.drop_eq_getElem_cons hlt] at htodo
  obtain ⟨rfl, rfl⟩ := List.cons.inj htodo
  have hk : k < pkg.data.length := by simpa [hloads] using hlt
  refine ⟨?_, rfl⟩
  rw [List.take_add_one, List.getElem?_eq_getElem hk, ← h.stored.1.data k hk]
  simp [hloads]

/-- All bytes of the packet have been loaded. -/
theorem Inv.loaded (h : c.Inv nr done rest) {pkg : Pkg} {later : List Pkg}
    (hrest : rest = pkg :: later) {k : Nat}
    (htodo : [] = (loads nr c.sys.getIdx pkg.data.length).drop k) :
    pkg.data.take k = pkg.data := by
  subst hrest
  have hroom := h.room
  rw [bnrs_cons] at hroom
  have hle := List.drop_eq_nil_iff.mp htodo.symm
  rw [loads_eq h.getIdx (show pkg.dnr ≤ nr by omega), List.length_map, List.length_range] at hle
  exact List.take_of_length_le hle

/-- The in-thread looks at the channel of the first packet. -/
theorem Inv.look_eq (h : c.Inv nr done rest) {pkg : Pkg} {later : List Pkg}
    (hrest : rest = pkg :: later) {size : UInt8}
    (hphase : c.sys.inThread = .checking pkg.id size) :
    c.look = some (chnConnected c.sys.inStatus pkg.id.toNat) := by
  unfold look
  rw [hphase, h.inFlight_eq, hrest]
  rfl

/-- A step of the in-thread. -/
theorem Inv.goIn (h : c.Inv nr done rest) {s' : System} (hstep : c.sys.goIn nr = some s') :
    ∃ done' rest', (c.seen s').Inv nr done' rest' := by
  have hin := h.inThread
  have hknown := h.known
  unfold System.goIn at hstep
  cases hphase : c.sys.inThread with
  | idle =>
    simp only [hphase] at hstep
    simp only [seen, hphase, InPhase.outcome]
    split at hstep
    · cases hstep
    · rename_i hne
      obtain rfl := Option.some.inj hstep
      rw [h.empty_iff] at hne
      obtain ⟨pkg, later, hrest⟩ := List.exists_cons_of_ne_nil hne
      refine ⟨done, rest, h.inn (hphase ▸ rfl) (fun _ => ⟨pkg, later, hrest, ?_⟩) ?_⟩
      · trivial
      · trivial
  | sizing =>
    simp only [hphase] at hstep hin
    obtain rfl := Option.some.inj hstep
    obtain ⟨pkg, later, rfl, -⟩ := hin rfl
    have hlen := h.stored.1.len
    rw [pos_head h.getIdx (by decide)] at hlen
    simp only [seen, hphase, InPhase.outcome]
    refine ⟨done, _, h.inn (hphase ▸ rfl) (fun _ => ⟨pkg, later, rfl, ?_⟩) ?_⟩
    · exact hlen
    · trivial
  | naming size =>
    simp only [hphase] at hstep hin
    obtain rfl := Option.some.inj hstep
    obtain ⟨pkg, later, rfl, hsize⟩ := hin rfl
    have hid := h.stored.1.id
    rw [pos_head h.getIdx (by decide), Nat.add_zero] at hid
    simp only [seen, hphase, InPhase.outcome]
    refine ⟨done, _, h.inn (hphase ▸ rfl) (fun _ => ⟨pkg, later, rfl, ?_⟩) ?_⟩
    · exact ⟨hid, hsize⟩
    · trivial
  | checking id size =>
    simp only [hphase] at hstep hin
    obtain rfl := Option.some.inj hstep
    obtain ⟨pkg, later, hrest, rfl, hsize⟩ := hin rfl
    have hlook := h.look_eq hrest hphase
    have hvalid := Nat.lt_asymm pkg.id_lt
    simp only [seen, hphase, InPhase.outcome, hlook]
    refine ⟨done, rest, h.inn ?_ (fun _ => ⟨pkg, later, hrest, ?_⟩) ?_⟩
    · rw [hphase]
      split
      · rfl
      · split <;> rfl
    · split
      · exact ⟨rfl, hsize⟩
      · split
        · rename_i hzero
          exact ⟨hzero, hsize⟩
        · rename_i hne
          exact ⟨hne, rfl, hsize⟩
    · -- a channel that there is, so only its status decides
      cases hconnected : chnConnected c.sys.inStatus pkg.id.toNat with
      | false =>
        rw [if_pos (by simp)]
        rfl
      | true =>
        rw [if_neg (by simpa using Nat.le_of_not_lt hvalid)]
        split <;> rfl
  | dropping id size =>
    simp only [hphase] at hstep hin hknown
    obtain rfl := Option.some.inj hstep
    obtain ⟨pkg, later, hrest, hid, hsize⟩ := hin rfl
    simp only [seen, hphase, InPhase.outcome]
    exact ⟨_, _, h.free hrest hsize rfl (hphase ▸ rfl) rfl ⟨hknown, hid, hsize⟩⟩
  | acting size =>
    simp only [hphase] at hstep hin hknown
    obtain rfl := Option.some.inj hstep
    obtain ⟨pkg, later, hrest, hid, hsize⟩ := hin rfl
    simp only [seen, hphase, InPhase.outcome]
    exact ⟨_, _, h.free hrest hsize rfl (hphase ▸ rfl) rfl ⟨hknown, hid, hsize⟩⟩
  | allocating id size =>
    simp only [hphase] at hstep
    cases hstep
  | lacking id size =>
    simp only [hphase] at hstep hin hknown
    obtain rfl := Option.some.inj hstep
    obtain ⟨pkg, later, hrest, hne, hid, hsize⟩ := hin rfl
    simp only [seen, hphase, InPhase.outcome]
    exact ⟨_, _, h.free hrest hsize rfl (hphase ▸ rfl) rfl
      ⟨hknown.1, hknown.2, hne, hid, hsize⟩⟩
  | copying id size todo got =>
    obtain ⟨pkg, later, hrest, hfits⟩ := hin (hphase ▸ rfl)
    rw [hphase] at hfits hknown
    obtain ⟨hne, hid, hsize, k, rfl, htodo⟩ := hfits
    cases todo with
    | cons a todo =>
      simp only [hphase] at hstep
      obtain rfl := Option.some.inj hstep
      obtain ⟨hgot, hlater⟩ := h.load hrest htodo
      simp only [seen, look, hphase, InPhase.outcome]
      refine ⟨done, rest, h.inn (hphase ▸ rfl) (fun _ => ⟨pkg, later, hrest, ?_⟩) hknown⟩
      exact ⟨hne, hid, hsize, k + 1, hgot, hlater⟩
    | nil =>
      simp only [hphase] at hstep
      obtain rfl := Option.some.inj hstep
      have hall := h.loaded hrest htodo
      simp only [seen, hphase, InPhase.outcome]
      exact ⟨_, _, h.free hrest hsize rfl (hphase ▸ rfl) rfl
        ⟨hknown.1, hknown.2, hne, hid, hall⟩⟩
  | pushing id got =>
    simp only [hphase] at hstep
    obtain rfl := Option.some.inj hstep
    simp only [seen, hphase, InPhase.outcome]
    have hpushed := h.pushed
    rw [hphase] at hpushed
    refine ⟨done, rest, h.written, h.order, ?_, h.getIdx, h.putIdx, h.room, h.stored, h.outThread,
      fun htrue => ?_, trivial⟩
    · exact (List.append_nil _).trans hpushed
    · cases htrue

/-! ## Runs -/

theorem Inv.goOut (h : c.Inv nr done rest) {s' : System} (hstep : c.sys.goOut nr = some s') :
    ∃ rest', Inv nr { c with
      sys := s', written := c.written ++ c.sys.outThread.puts.toList } done rest' := by
  unfold System.goOut at hstep
  split at hstep
  · cases hstep
  · rename_i pkg hphase
    obtain rfl := Option.some.inj hstep
    simp only [hphase, OutPhase.puts, Option.toList_none, List.append_nil]
    refine ⟨rest, h.out ?_⟩
    split <;> trivial
  · rename_i pkg hphase
    obtain rfl := Option.some.inj hstep
    simp only [hphase, OutPhase.puts, Option.toList_none, List.append_nil]
    refine ⟨rest, h.out ?_⟩
    split
    · trivial
    · rename_i hsp
      exact ⟨h.space hsp, [], rfl, fun _ hmem => (by cases hmem)⟩
  · rename_i pkg hphase
    obtain rfl := Option.some.inj hstep
    simp only [hphase, OutPhase.puts, Option.toList_none, List.append_nil]
    exact ⟨rest, h.out trivial⟩
  · cases hstep
  · rename_i pkg hphase
    obtain rfl := Option.some.inj hstep
    simp only [hphase, OutPhase.puts, Option.toList_none, List.append_nil]
    exact ⟨rest, h.out trivial⟩
  · rename_i pkg a b todo hphase
    obtain rfl := Option.some.inj hstep
    simp only [hphase, OutPhase.puts, Option.toList_none, List.append_nil]
    exact ⟨rest, h.store hphase⟩
  · rename_i pkg hphase
    obtain rfl := Option.some.inj hstep
    simp only [hphase, OutPhase.puts, Option.toList_some]
    exact ⟨_, h.put hphase⟩

theorem Inv.step (h : c.Inv nr done rest) {e : Event} {c' : Transfer}
    (hstep : c.step nr e = some c') : ∃ done' rest', c'.Inv nr done' rest' := by
  obtain ⟨s', hsys, rfl⟩ := Option.map_eq_some_iff.mp hstep
  cases e with
  | post pkg =>
    simp only [System.step] at hsys
    split at hsys
    · obtain rfl := Option.some.inj hsys
      exact ⟨done, rest, h.out trivial⟩
    · cases hsys
  | goOut =>
    obtain ⟨rest', hout⟩ := h.goOut hsys
    exact ⟨done, rest', hout⟩
  | isr =>
    simp only [System.step] at hsys
    split at hsys
    · split at hsys
      · obtain rfl := Option.some.inj hsys
        exact ⟨done, rest, h.out trivial⟩
      · obtain rfl := Option.some.inj hsys
        exact ⟨done, rest, h⟩
    · obtain rfl := Option.some.inj hsys
      exact ⟨done, rest, h⟩
  | malloc ok =>
    have hin := h.inThread
    simp only [System.step] at hsys
    split at hsys
    · rename_i id size hphase
      obtain rfl := Option.some.inj hsys
      have hknown := h.known
      rw [hphase] at hin hknown
      obtain ⟨pkg, later, hrest, hne, hid, rfl⟩ := hin rfl
      refine ⟨done, rest, h.inn ?_ (fun _ => ⟨pkg, later, hrest, ?_⟩) ?_⟩
      · rw [hphase]
        cases ok <;> rfl
      · cases ok with
        | false => exact ⟨hne, hid, rfl⟩
        | true => exact ⟨hne, hid, rfl, 0, rfl, by rw [pkg.len_toNat]; rfl⟩
      · cases ok with
        | false => exact ⟨hknown, rfl⟩
        | true => exact ⟨hknown, rfl⟩
    · cases hsys
  | goIn => exact h.goIn hsys
  | outStatus chnr st =>
    obtain rfl := Option.some.inj hsys
    exact ⟨done, rest, h.out h.outThread⟩
  | inStatus chnr st =>
    obtain rfl := Option.some.inj hsys
    exact ⟨done, rest, h.inn rfl h.inThread h.known⟩

theorem inv_start (hidx : idx < nr) (blks : Nat → UInt8) (outStatus inStatus : Nat → ChnStatus) :
    (start idx blks outStatus inStatus).Inv nr [] [] where
  written := rfl
  order := .nil
  pushed := rfl
  getIdx := hidx
  putIdx := (Nat.mod_eq_of_lt hidx).symm
  room := Nat.zero_lt_of_lt hidx
  stored := trivial
  outThread := trivial
  inThread := fun htrue => (by cases htrue)
  known := trivial

end Transfer

/-- In every run, from any index on, what the in-thread extracts are the packets that the out-thread
wrote, in order, but for those whose channel it found not connected and those that there was no
memory for; and no block is stored into before its packet has been taken. -/
theorem transfer_throughout {nr : Nat} (hidx : idx < nr) (blks : Nat → UInt8)
    (outStatus inStatus : Nat → ChnStatus) (es : List Event) :
    Throughout (Transfer.step nr) (Transfer.Agrees nr)
      (Transfer.start idx blks outStatus inStatus) es := by
  refine throughout_of_keep (J := fun c => ∃ done rest, c.Inv nr done rest) ?_ ?_
    ⟨[], [], Transfer.inv_start hidx blks outStatus inStatus⟩ es
  · rintro c ⟨done, rest, h⟩
    exact h.agrees
  · rintro c e c' ⟨done, rest, h⟩ hstep
    exact h.step hstep

/-- Two bytes for channel 3, in the last block of a ring of six. -/
theorem transfer_throughout_last : 5 < 6 ∧ Throughout (Transfer.step 6) (Transfer.Agrees 6)
    (Transfer.start 5 (fun _ => 0) (fun _ => .established) (fun _ => .established))
    ([Event.post ⟨3, 0, [7, 8], by decide, by decide⟩] ++ List.replicate 8 Event.goOut ++
      List.replicate 4 Event.goIn ++ [Event.malloc true] ++ List.replicate 4 Event.goIn) :=
  ⟨by decide, transfer_throughout (by decide) _ _ _ _⟩

end ControlRTT.Components.VbusRing
