import ControlRTT.Kernel.Slab

/-! # The chunks of a zone

The chunks that a zone has given at some time are those up to `z_uindex`. Each is free, or it is in
use: the free ones are linked, and no chunk is both. -/
namespace ControlRTT.Kernel.Slab
open ControlRTT.Kernel.RtDef ControlRTT.Lib.LinkedList

/-- The chunks up to `z_uindex`. -/
def chunks (h : SlabZone) : List Nat :=
  (List.range (h.zUindex + 1)).map fun i => h.zBaseptr + i * h.zChunksize

/-- A zone whose chunks are free, or taken: what it counts is the chunks that it has never given,
and the free ones. -/
structure Parted (zoneSize : Nat) (cNext : Nat → Option Nat) (z : Nat) (h : SlabZone)
    (free taken : List Nat) : Prop where
  size : h.zChunksize = chunkOf h.zZoneindex
  base : z * rtMmPageSize + sizeofSlabZone ≤ h.zBaseptr
  room : h.zBaseptr + h.zNmax * h.zChunksize ≤ z * rtMmPageSize + zoneSize
  uindex : h.zUindex < h.zNmax
  nfree : h.zNfree = h.zNmax - 1 - h.zUindex + free.length
  chain : Chain cNext h.zFreechunk free
  chunks : (free ++ taken).Perm (chunks h)

section
variable {zoneSize z c c' : Nat} {cNext cNext' : Nat → Option Nat} {h : SlabZone}
  {free taken taken' : List Nat}

theorem chunks_succ (h : SlabZone) : chunks { h with zUindex := h.zUindex + 1 } =
    chunks h ++ [h.zBaseptr + (h.zUindex + 1) * h.zChunksize] := by
  simp only [chunks, List.range_succ (n := h.zUindex + 1), List.map_append, List.map_singleton]

namespace Parted

variable (hp : Parted zoneSize cNext z h free taken)
include hp

theorem le_size : minChunkSize ≤ h.zChunksize := hp.size ▸ le_chunkOf h.zZoneindex

theorem pos : 0 < h.zChunksize := Nat.lt_of_lt_of_le (by decide) hp.le_size

theorem nodup : (free ++ taken).Nodup := by
  refine hp.chunks.nodup_iff.mpr (List.nodup_range.map fun i j hij => ?_)
  exact Nat.eq_of_mul_eq_mul_right hp.pos (Nat.add_left_cancel hij)

theorem mem_free (hc : c ∈ free) : c ∈ Slab.chunks h :=
  hp.chunks.mem_iff.mp (List.mem_append_left _ hc)

theorem mem_taken (hc : c ∈ taken) : c ∈ Slab.chunks h :=
  hp.chunks.mem_iff.mp (List.mem_append_right _ hc)

theorem chunk (hc : c ∈ Slab.chunks h) :
    ∃ i < h.zNmax, c = h.zBaseptr + i * h.zChunksize := by
  obtain ⟨i, hi, rfl⟩ := List.mem_map.mp hc
  have := List.mem_range.mp hi
  have := hp.uindex
  exact ⟨i, by omega, rfl⟩

/-- A chunk lies behind the header, and inside the zone. -/
theorem inside (hc : c ∈ Slab.chunks h) :
    z * rtMmPageSize + sizeofSlabZone ≤ c ∧ c + h.zChunksize ≤ z * rtMmPageSize + zoneSize := by
  obtain ⟨i, hi, rfl⟩ := hp.chunk hc
  have hbase := hp.base
  have hroom := hp.room
  have hle : (i + 1) * h.zChunksize ≤ h.zNmax * h.zChunksize := Nat.mul_le_mul_right _ hi
  rw [Nat.add_one_mul] at hle
  omega

/-- Two chunks of a zone have nothing in common. -/
theorem apart (hc : c ∈ Slab.chunks h) (hc' : c' ∈ Slab.chunks h) (hne : c ≠ c') :
    c + h.zChunksize ≤ c' ∨ c' + h.zChunksize ≤ c := by
  obtain ⟨i, -, rfl⟩ := hp.chunk hc
  obtain ⟨j, -, rfl⟩ := hp.chunk hc'
  rcases Nat.lt_trichotomy i j with hij | rfl | hij
  · have hle := Nat.mul_le_mul_right h.zChunksize hij
    rw [Nat.succ_mul] at hle
    omega
  · exact absurd rfl hne
  · have hle := Nat.mul_le_mul_right h.zChunksize hij
    rw [Nat.succ_mul] at hle
    omega

/-- The links of the free chunks are all that is read of the others. -/
theorem congr (hsame : ∀ c ∈ free, cNext' c = cNext c) :
    Parted zoneSize cNext' z h free taken :=
  { hp with chain := hp.chain.congr hsame }

/-- The chunks do not depend on the list that the zone is in. -/
theorem relabel (magic : Int) (next : Option Nat) :
    Parted zoneSize cNext z { h with zMagic := magic, zNext := next } free taken where
  size := hp.size
  base := hp.base
  room := hp.room
  uindex := hp.uindex
  nfree := hp.nfree
  chain := hp.chain
  chunks := hp.chunks

theorem perm (htaken : taken.Perm taken') : Parted zoneSize cNext z h free taken' :=
  { hp with chunks := (htaken.symm.append_left free).trans hp.chunks }

/-! ### Steps -/

/-- A chunk that has never been given is taken. -/
theorem take_new (hnew : h.zUindex + 1 ≠ h.zNmax) :
    Parted zoneSize cNext z { h with zNfree := h.zNfree - 1, zUindex := h.zUindex + 1 } free
      ((h.zBaseptr + (h.zUindex + 1) * h.zChunksize) :: taken) where
  size := hp.size
  base := hp.base
  room := hp.room
  uindex := by
    have := hp.uindex
    dsimp only
    omega
  nfree := by
    have := hp.uindex
    have := hp.nfree
    dsimp only
    omega
  chain := hp.chain
  chunks := by
    change List.Perm _ (Slab.chunks { h with zUindex := h.zUindex + 1 })
    rw [chunks_succ]
    exact List.perm_middle.trans ((hp.chunks.cons _).trans (List.perm_append_singleton _ _).symm)

/-- A zone without chunks that have never been given has a free one, which is taken. -/
theorem take_free (hfull : h.zUindex + 1 = h.zNmax) (hnfree : 0 < h.zNfree) :
    ∃ chunk rest, h.zFreechunk = some chunk ∧ Parted zoneSize cNext z
      { h with zNfree := h.zNfree - 1, zFreechunk := cNext chunk } rest (chunk :: taken) := by
  have hcount := hp.nfree
  cases free with
  | nil =>
    rw [List.length_nil] at hcount
    omega
  | cons chunk rest =>
    obtain ⟨hfirst, hrest⟩ := hp.chain
    rw [List.length_cons] at hcount
    refine ⟨chunk, rest, hfirst, ?_⟩
    exact {
      size := hp.size
      base := hp.base
      room := hp.room
      uindex := hp.uindex
      nfree := by dsimp only; omega
      chain := hrest
      chunks := List.perm_middle.trans hp.chunks }

omit hp in
/-- A chunk is given back. -/
theorem give {chunk : Nat} (hp : Parted zoneSize cNext z h free (chunk :: taken)) :
    Parted zoneSize (Function.update cNext chunk h.zFreechunk) z
      { h with zFreechunk := some chunk, zNfree := h.zNfree + 1 } (chunk :: free) taken where
  size := hp.size
  base := hp.base
  room := hp.room
  uindex := hp.uindex
  nfree := by
    have := hp.nfree
    rw [List.length_cons]
    dsimp only
    omega
  chain := hp.chain.push fun hmem =>
    (List.nodup_append.mp hp.nodup).2.2 chunk hmem chunk List.mem_cons_self rfl
  chunks := List.perm_middle.symm.trans hp.chunks

end Parted

end

/-! ## The calls -/

section
variable {s : Heap} {z zi size : Nat} {free taken : List Nat}

/-- The zone a call leaves behind in its list: its header has another count, and perhaps another
link. -/
structure Relisted (h h' : SlabZone) (nfree : Nat) (next : Option Nat) : Prop where
  magic : h'.zMagic = h.zMagic
  index : h'.zZoneindex = h.zZoneindex
  nfree : h'.zNfree = nfree
  next : h'.zNext = next

/-- The zones of an index have chunks of one size. -/
theorem Relisted.chunksize {h h' : SlabZone} {nfree zoneSize : Nat} {next : Option Nat}
    {cNext cNext' : Nat → Option Nat} {free' taken' : List Nat} (hr : Relisted h h' nfree next)
    (hp : Parted zoneSize cNext z h free taken)
    (hp' : Parted zoneSize cNext' z h' free' taken') : h'.zChunksize = h.zChunksize := by
  rw [hp'.size, hr.index, hp.size]

/-- A zone with a chunk to give gives one, and leaves its list with the last. -/
theorem takeChunk_spec (hp : Parted s.zoneSize s.cNext z (s.zone z) free taken)
    (hnfree : 0 < (s.zone z).zNfree) (hsize : (s.zone z).zChunksize = size) :
    ∃ h' chunk free', takeChunk s zi size z = some ({ s with
        zoneArray := if (s.zone z).zNfree = 1 then
          Function.update s.zoneArray zi (s.zone z).zNext else s.zoneArray
        zone := Function.update s.zone z h' }, chunk) ∧
      Parted s.zoneSize s.cNext z h' free' (chunk :: taken) ∧
      Relisted (s.zone z) h' ((s.zone z).zNfree - 1)
        (if (s.zone z).zNfree = 1 then none else (s.zone z).zNext) := by
  subst hsize
  have hcount : countDown s zi z = { s with
      zoneArray := if (s.zone z).zNfree = 1 then
        Function.update s.zoneArray zi (s.zone z).zNext else s.zoneArray
      zone := Function.update s.zone z { s.zone z with
        zNfree := (s.zone z).zNfree - 1
        zNext := if (s.zone z).zNfree = 1 then none else (s.zone z).zNext } } := by
    unfold countDown
    by_cases hone : (s.zone z).zNfree = 1
    · simp only [hone, if_true]
      rfl
    · rw [if_neg (by omega), if_neg hone, if_neg hone]
      rfl
  unfold takeChunk
  rw [if_neg (Nat.ne_of_gt hnfree)]
  dsimp only
  rw [hcount]
  simp only [Function.update_self, Heap.setZone, Function.update_idem]
  have hp' := hp.relabel (s.zone z).zMagic
    (if (s.zone z).zNfree = 1 then none else (s.zone z).zNext)
  by_cases hnew : (s.zone z).zUindex + 1 = (s.zone z).zNmax
  · obtain ⟨chunk, rest, hfirst, hparted⟩ := hp'.take_free hnew hnfree
    rw [if_neg (not_not.mpr hnew)]
    dsimp only at hfirst
    rw [hfirst]
    exact ⟨_, chunk, rest, rfl, hparted, rfl, rfl, rfl, rfl⟩
  · rw [if_pos hnew]
    exact ⟨_, _, free, rfl, hp'.take_new hnew, rfl, rfl, rfl, rfl⟩

/-- A chunk is given back, and a zone that had none to give comes into its list. -/
theorem giveChunk_spec {chunk : Nat}
    (hp : Parted s.zoneSize s.cNext z (s.zone z) free (chunk :: taken)) :
    ∃ h', giveChunk s z chunk = { s with
        cNext := Function.update s.cNext chunk (s.zone z).zFreechunk
        zoneArray := if (s.zone z).zNfree = 0 then
          Function.update s.zoneArray (s.zone z).zZoneindex (some z) else s.zoneArray
        zone := Function.update s.zone z h' } ∧
      Parted s.zoneSize (Function.update s.cNext chunk (s.zone z).zFreechunk) z h'
        (chunk :: free) taken ∧
      Relisted (s.zone z) h' ((s.zone z).zNfree + 1)
        (if (s.zone z).zNfree = 0 then s.zoneArray (s.zone z).zZoneindex
          else (s.zone z).zNext) := by
  have hgiven := hp.give.relabel (s.zone z).zMagic (if (s.zone z).zNfree = 0 then
    s.zoneArray (s.zone z).zZoneindex else (s.zone z).zNext)
  refine ⟨_, ?_, hgiven, rfl, rfl, rfl, rfl⟩
  unfold giveChunk
  by_cases hzero : (s.zone z).zNfree = 0
  · rw [if_pos hzero, if_pos hzero, if_pos hzero]
    rfl
  · rw [if_neg hzero, if_neg hzero, if_neg hzero]
    rfl

/-- The header of a new zone: its first chunk is taken. -/
theorem initZone_spec (cNext : Nat → Option Nat) (hzone : 32768 ≤ s.zoneSize)
    (hsize : size = chunkOf zi) (hle : 4 * size ≤ s.zoneSize) :
    ∃ h' chunk, initZone s zi size z = ({ s with
        zoneArray := Function.update s.zoneArray zi (some z)
        zone := Function.update s.zone z h' }, chunk) ∧
      Parted s.zoneSize cNext z h' [] [chunk] ∧ h'.zMagic = zallocSlabMagic ∧
      h'.zZoneindex = zi ∧ 0 < h'.zNfree ∧ h'.zNext = s.zoneArray zi := by
  have hpos : minChunkSize ≤ size := hsize ▸ le_chunkOf zi
  have htwo := two_chunks hpos hle hzone
  obtain ⟨hbehind, hoffset⟩ := zoneOffset_spec hpos
  refine ⟨_, _, rfl, ?_, rfl, rfl, Nat.sub_pos_of_lt htwo, rfl⟩
  have hroom := Nat.div_mul_le_self (s.zoneSize - zoneOffset size) size
  exact {
    size := hsize
    base := Nat.add_le_add_left hbehind _
    room := by
      dsimp only
      unfold sizeofSlabZone at hoffset
      omega
    uindex := Nat.lt_of_lt_of_le Nat.zero_lt_two htwo
    nfree := by
      dsimp only
      rw [List.length_nil]
      omega
    chain := rfl
    chunks := List.Perm.refl _ }

end

end ControlRTT.Kernel.Slab
