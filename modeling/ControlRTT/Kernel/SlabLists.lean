import ControlRTT.Kernel.SlabChunks

/-! # The lists of zones

Each index has the list of its zones that have chunks to give. A zone in use is in the list of its
index exactly if its count is not zero. -/
namespace ControlRTT.Kernel.Slab
open ControlRTT.Kernel.SlabPage ControlRTT.Lib.LinkedList

/-- The lists that the array links, and the zones in use. -/
structure Lists (zoneArray : Nat → Option Nat) (zone : Nat → SlabZone) (used : List Nat)
    (lists : Nat → List Nat) : Prop where
  chain : ∀ zi, Chain (fun z => (zone z).zNext) (zoneArray zi) (lists zi)
  nodup : ∀ zi, (lists zi).Nodup
  mem : ∀ zi z, z ∈ lists zi ↔ z ∈ used ∧ (zone z).zZoneindex = zi ∧ 0 < (zone z).zNfree
  magic : ∀ z ∈ used, (zone z).zMagic = zallocSlabMagic

theorem next_update (zone : Nat → SlabZone) (z : Nat) (h : SlabZone) :
    (fun x => (Function.update zone z h x).zNext) =
      Function.update (fun x => (zone x).zNext) z h.zNext :=
  funext fun x => Function.apply_update (fun _ h => h.zNext) zone z h x

section
variable {zoneArray : Nat → Option Nat} {zone : Nat → SlabZone} {used used' : List Nat}
  {lists : Nat → List Nat} {z zi : Nat} {h' : SlabZone}

namespace Lists
variable (h : Lists zoneArray zone used lists)
include h

theorem magic_update (hz : z ∈ used' → h'.zMagic = zallocSlabMagic)
    (hsub : ∀ x ∈ used', x ≠ z → x ∈ used) (x : Nat) (hx : x ∈ used') :
    (Function.update zone z h' x).zMagic = zallocSlabMagic := by
  by_cases hxz : x = z
  · subst hxz
    rw [Function.update_self]
    exact hz hx
  · rw [Function.update_of_ne hxz]
    exact h.magic x (hsub x hx hxz)

/-- A zone whose count stays zero, or stays positive, keeps its place. -/
theorem keep (hnfree : 0 < (zone z).zNfree ↔ 0 < h'.zNfree)
    (hindex : h'.zZoneindex = (zone z).zZoneindex) (hmagic : h'.zMagic = (zone z).zMagic)
    (hnext : h'.zNext = (zone z).zNext) :
    Lists zoneArray (Function.update zone z h') used lists where
  chain zi := by
    rw [next_update, hnext, Function.update_eq_self]
    exact h.chain zi
  nodup := h.nodup
  mem zi x := by
    rw [h.mem zi x]
    by_cases hx : x = z
    · subst hx
      rw [Function.update_self, hindex, hnfree]
    · rw [Function.update_of_ne hx]
  magic := h.magic_update (fun hz => hmagic.trans (h.magic z hz)) fun _ hx _ => hx

/-- What is written of a zone that is not in use changes nothing. -/
theorem keep_unused (hz : z ∉ used) : Lists zoneArray (Function.update zone z h') used lists where
  chain zi := by
    rw [next_update]
    exact (h.chain zi).update (fun hmem => hz ((h.mem zi z).mp hmem).1) _
  nodup := h.nodup
  mem zi x := by
    rw [h.mem zi x]
    refine and_congr_right fun hx => ?_
    rw [Function.update_of_ne (ne_of_mem_of_not_mem hx hz)]
  magic := h.magic_update (fun hmem => absurd hmem hz) fun _ hx _ => hx

/-- A zone comes into the list of its index: one that had no chunk to give, or a new one. -/
theorem push (hout : ∀ zi, z ∉ lists zi) (hused : ∀ x, x ∈ used' ↔ x = z ∨ x ∈ used)
    (hnfree : 0 < h'.zNfree) (hindex : h'.zZoneindex = zi)
    (hmagic : h'.zMagic = zallocSlabMagic) (hnext : h'.zNext = zoneArray zi) :
    Lists (Function.update zoneArray zi (some z)) (Function.update zone z h') used'
      (Function.update lists zi (z :: lists zi)) where
  chain zj := by
    rw [next_update, hnext]
    by_cases hj : zj = zi
    · subst hj
      rw [Function.update_self, Function.update_self]
      exact (h.chain zj).push (hout zj)
    · rw [Function.update_of_ne hj, Function.update_of_ne hj]
      exact (h.chain zj).update (hout zj) _
  nodup zj := by
    by_cases hj : zj = zi
    · subst hj
      rw [Function.update_self]
      exact List.nodup_cons.mpr ⟨hout zj, h.nodup zj⟩
    · rw [Function.update_of_ne hj]
      exact h.nodup zj
  mem zj x := by
    have hlist : x ∈ Function.update lists zi (z :: lists zi) zj ↔
        x = z ∧ zj = zi ∨ x ∈ lists zj := by
      by_cases hj : zj = zi
      · subst hj
        rw [Function.update_self, List.mem_cons, and_iff_left rfl]
      · rw [Function.update_of_ne hj]
        simp only [hj, and_false, false_or]
    rw [hlist, hused]
    by_cases hx : x = z
    · subst hx
      simp only [Function.update_self, hindex, hnfree, hout, true_and, and_true, or_false, true_or,
        eq_comm]
    · rw [Function.update_of_ne hx, h.mem zj x]
      simp only [hx, false_and, false_or]
  magic := h.magic_update (fun _ => hmagic) fun x hx hne => ((hused x).mp hx).resolve_left hne

/-- A zone of one list is in no other. -/
theorem notMem_of_ne {zj : Nat} (hz : z ∈ lists zi) (hj : zj ≠ zi) : z ∉ lists zj := fun hmem =>
  hj (((h.mem zj z).mp hmem).2.1.symm.trans ((h.mem zi z).mp hz).2.1)

variable {pre post : List Nat} (hlist : lists zi = pre ++ z :: post)
include hlist

omit h in
theorem mem_list : z ∈ lists zi := by
  rw [hlist]
  exact List.mem_append_right pre List.mem_cons_self

theorem notMem_rest : z ∉ pre ∧ z ∉ post := by
  have hnodup := h.nodup zi
  rw [hlist, List.nodup_middle, List.nodup_cons, List.mem_append, not_or] at hnodup
  exact hnodup.1

/-- A list without one of its zones. -/
theorem nodup_without (zj : Nat) : (Function.update lists zi (pre ++ post) zj).Nodup := by
  by_cases hj : zj = zi
  · subst hj
    have hnodup := h.nodup zj
    rw [hlist, List.nodup_middle, List.nodup_cons] at hnodup
    rw [Function.update_self]
    exact hnodup.2
  · rw [Function.update_of_ne hj]
    exact h.nodup zj

theorem mem_without (zj x : Nat) :
    x ∈ Function.update lists zi (pre ++ post) zj ↔ x ≠ z ∧ x ∈ lists zj := by
  obtain ⟨hpre, hpost⟩ := h.notMem_rest hlist
  by_cases hj : zj = zi
  · subst hj
    rw [Function.update_self, hlist, List.mem_append, List.mem_append, List.mem_cons]
    constructor
    · rintro (hx | hx)
      · exact ⟨ne_of_mem_of_not_mem hx hpre, .inl hx⟩
      · exact ⟨ne_of_mem_of_not_mem hx hpost, .inr (.inr hx)⟩
    · rintro ⟨hne, hx | hx | hx⟩
      · exact .inl hx
      · exact absurd hx hne
      · exact .inr hx
  · rw [Function.update_of_ne hj]
    have hout := h.notMem_of_ne (mem_list hlist) hj
    exact ⟨fun hx => ⟨ne_of_mem_of_not_mem hx hout, hx⟩, fun hx => hx.2⟩

omit hlist in
/-- The first zone of a list gives its last chunk. -/
theorem pop {rest : List Nat} (hlist : lists zi = z :: rest) (hnfree : h'.zNfree = 0)
    (hmagic : h'.zMagic = (zone z).zMagic) :
    Lists (Function.update zoneArray zi (zone z).zNext) (Function.update zone z h') used
      (Function.update lists zi rest) := by
  have hfirst : lists zi = [] ++ z :: rest := hlist
  refine ⟨fun zj => ?_, h.nodup_without hfirst, fun zj x => ?_,
    h.magic_update (fun hz => hmagic.trans (h.magic z hz)) fun _ hx _ => hx⟩
  · rw [next_update]
    by_cases hj : zj = zi
    · subst hj
      have hchain := h.chain zj
      rw [hlist] at hchain
      rw [Function.update_self, Function.update_self]
      exact hchain.2.update (h.notMem_rest hfirst).2 _
    · rw [Function.update_of_ne hj, Function.update_of_ne hj]
      exact (h.chain zj).update (h.notMem_of_ne (mem_list hfirst) hj) _
  · refine (h.mem_without hfirst zj x).trans ?_
    rw [h.mem zj x]
    by_cases hx : x = z
    · subst hx
      simp only [Function.update_self, hnfree, ne_eq, not_true, false_and, Nat.lt_irrefl, and_false]
    · rw [Function.update_of_ne hx]
      exact and_iff_right hx

end Lists

/-- Two maps of headers that agree but for the magic numbers and the links. -/
def Relabelled (zone zone' : Nat → SlabZone) : Prop :=
  ∀ z, ∃ magic next, zone' z = { zone z with zMagic := magic, zNext := next }

theorem Relabelled.refl (zone : Nat → SlabZone) : Relabelled zone zone := fun _ => ⟨_, _, rfl⟩

theorem Relabelled.update {zone zone' : Nat → SlabZone} (h : Relabelled zone zone') (z : Nat)
    (magic : Int) (next : Option Nat) :
    Relabelled zone (Function.update zone' z { zone' z with zMagic := magic, zNext := next }) := by
  intro x
  by_cases hx : x = z
  · subst hx
    rw [Function.update_self]
    obtain ⟨_, _, heq⟩ := h x
    exact ⟨magic, next, by rw [heq]⟩
  · rw [Function.update_of_ne hx]
    exact h x

/-- The loop stops at the zone, and links what is before it to what is behind it. -/
theorem unlinkLoop_spec {s : Heap} {zi z fuel : Nat} {pre post : List Nat} {prev : Option Nat}
    (h : Chain (fun z => (s.zone z).zNext) (link s zi prev) (pre ++ z :: post)) (hz : z ∉ pre)
    (hfuel : pre.length < fuel) : unlinkLoop s zi z fuel prev =
      some (setLink s zi (pre.getLast?.or prev) (s.zone z).zNext) := by
  induction pre generalizing fuel prev with
  | nil =>
    obtain ⟨fuel, rfl⟩ := Nat.exists_eq_add_one_of_ne_zero (Nat.ne_of_gt hfuel)
    unfold unlinkLoop
    rw [h.1]
    exact if_pos rfl
  | cons b pre ih =>
    obtain ⟨fuel, rfl⟩ := Nat.exists_eq_add_one_of_ne_zero (Nat.ne_of_gt (Nat.zero_lt_of_lt hfuel))
    obtain ⟨hb, hz⟩ := not_or.mp (List.mem_cons.not.mp hz)
    unfold unlinkLoop
    rw [h.1]
    dsimp only
    have htail : Chain (fun z => (s.zone z).zNext) (link s zi (some b)) (pre ++ z :: post) := h.2
    rw [if_neg (Ne.symm hb), ih htail hz (Nat.lt_of_succ_lt_succ hfuel)]
    cases pre with
    | nil => rfl
    | cons c pre => rw [List.getLast?_cons_cons, List.getLast?_cons, Option.some_or, Option.some_or]

/-- The zone is out of its list, and nothing else has changed. -/
theorem Lists.unlink {s : Heap} {used used' : List Nat} {lists : Nat → List Nat} {zi z : Nat}
    {pre post : List Nat} (h : Lists s.zoneArray s.zone used lists)
    (hlist : lists zi = pre ++ z :: post) (hused : ∀ x, x ∈ used' ↔ x ∈ used ∧ x ≠ z) :
    ∃ zoneArray zone, setLink s zi pre.getLast? (s.zone z).zNext = { s with zoneArray, zone } ∧
      Lists zoneArray zone used' (Function.update lists zi (pre ++ post)) ∧
      Relabelled s.zone zone ∧ ∀ x, x ∉ used → zone x = s.zone x := by
  have hmem : ∀ zj x, x ∈ Function.update lists zi (pre ++ post) zj ↔
      x ∈ used' ∧ (s.zone x).zZoneindex = zj ∧ 0 < (s.zone x).zNfree := fun zj x => by
    rw [h.mem_without hlist, h.mem zj x, hused, ← and_assoc, and_comm (a := x ≠ z)]
  have hmagic : ∀ x ∈ used', (s.zone x).zMagic = zallocSlabMagic := fun x hx =>
    h.magic x ((hused x).mp hx).1
  have hchain := h.chain zi
  rw [hlist] at hchain
  rcases List.eq_nil_or_concat' pre with rfl | ⟨front, p, rfl⟩
  -- the zone is the first: the array is written
  · refine ⟨_, _, rfl, ⟨fun zj => ?_, h.nodup_without hlist, hmem, hmagic⟩, .refl s.zone,
      fun x _ => rfl⟩
    by_cases hj : zj = zi
    · subst hj
      rw [Function.update_self, Function.update_self]
      exact hchain.2
    · rw [Function.update_of_ne hj, Function.update_of_ne hj]
      exact h.chain zj
  -- it comes behind another one, whose link is written
  · have hp : p ∈ lists zi := by
      rw [hlist]
      exact List.mem_append_left _ (List.mem_append_right _ List.mem_cons_self)
    have hsame : ∀ x, ∃ next, Function.update s.zone p
        { s.zone p with zNext := (s.zone z).zNext } x = { s.zone x with zNext := next } := by
      intro x
      by_cases hx : x = p
      · subst hx
        rw [Function.update_self]
        exact ⟨_, rfl⟩
      · rw [Function.update_of_ne hx]
        exact ⟨_, rfl⟩
    rw [List.getLast?_concat]
    refine ⟨s.zoneArray, _, rfl, ⟨fun zj => ?_, h.nodup_without hlist, fun zj x => ?_,
      fun x hx => ?_⟩, (Relabelled.refl s.zone).update p _ _, fun x hx => ?_⟩
    · rw [next_update]
      by_cases hj : zj = zi
      · subst hj
        have hnodup := h.nodup zj
        rw [hlist, List.append_assoc, List.singleton_append] at hnodup
        rw [List.append_assoc, List.singleton_append] at hchain
        rw [List.nodup_middle, List.nodup_cons, List.mem_append, List.mem_cons, not_or,
          not_or] at hnodup
        rw [Function.update_self, List.append_assoc, List.singleton_append]
        exact hchain.relink hnodup.1.1 hchain.rest.2 hnodup.1.2.2
      · rw [Function.update_of_ne hj]
        exact (h.chain zj).update (h.notMem_of_ne hp hj) _
    · obtain ⟨next, heq⟩ := hsame x
      rw [heq]
      exact hmem zj x
    · obtain ⟨next, heq⟩ := hsame x
      rw [heq]
      exact hmagic x hx
    · refine Function.update_of_ne ?_ _ _
      rintro rfl
      exact hx ((h.mem zi x).mp hp).1

/-- A zone that has chunks to give leaves its list for that of the free zones. -/
theorem retireZone_spec {s : Heap} {used used' freed : List Nat} {lists : Nat → List Nat} {z : Nat}
    (h : Lists s.zoneArray s.zone used lists)
    (hfreed : Chain (fun z => (s.zone z).zNext) s.zoneFree freed) (hapart : ∀ x ∈ freed, x ∉ used)
    (hz : z ∈ used) (hnfree : 0 < (s.zone z).zNfree) (hlength : used.length ≤ pageLimit)
    (hused : ∀ x, x ∈ used' ↔ x ∈ used ∧ x ≠ z) :
    ∃ zoneArray zone lists', retireZone s z = some { s with
        zoneArray, zone, zoneFree := some z, zoneFreeCnt := s.zoneFreeCnt + 1 } ∧
      Lists zoneArray zone used' lists' ∧ Relabelled s.zone zone ∧
      Chain (fun z => (zone z).zNext) (some z) (z :: freed) := by
  have hmem := (h.mem (s.zone z).zZoneindex z).mpr ⟨hz, rfl, hnfree⟩
  obtain ⟨pre, post, hlist⟩ := List.append_of_mem hmem
  have hfuel : pre.length < pageLimit + 1 := by
    have hle := (h.nodup (s.zone z).zZoneindex).length_le_of_subset fun x hx =>
      ((h.mem _ x).mp hx).1
    rw [hlist, List.length_append, List.length_cons] at hle
    omega
  have hchain := h.chain (s.zone z).zZoneindex
  rw [hlist] at hchain
  have hloop : unlinkLoop s (s.zone z).zZoneindex z (pageLimit + 1) none =
      some (setLink s (s.zone z).zZoneindex (pre.getLast?.or none) (s.zone z).zNext) :=
    unlinkLoop_spec hchain (h.notMem_rest hlist).1 hfuel
  obtain ⟨zoneArray, zone, hset, hlists, hrelabelled, hsame⟩ := h.unlink hlist hused
  have hzfreed : z ∉ freed := fun hmem => hapart z hmem hz
  have hunused : z ∉ used' := fun hmem => ((hused z).mp hmem).2 rfl
  refine ⟨zoneArray, Function.update zone z { zone z with zMagic := -1, zNext := s.zoneFree }, _,
    ?_, hlists.keep_unused hunused, hrelabelled.update z _ _, ?_⟩
  · unfold retireZone
    rw [hloop, Option.or_none, hset]
    rfl
  · rw [next_update]
    exact (hfreed.congr fun x hx => congrArg SlabZone.zNext (hsame x (hapart x hx))).push hzfreed

end

end ControlRTT.Kernel.Slab
