import ControlRTT.Components.Poll
import Mathlib.Data.Finset.Card

/-! # select

`components/dfs/src/select.c`: `select` asks `poll` and splits what it reports into the three sets
again, by the reported events alone. `poll` reports `POLLHUP` and `POLLERR` of every descriptor, so
a descriptor comes into a set it was not in (`select_agrees_iff`). A set is the bits that are one
in it, of whatever number. -/
namespace ControlRTT.Components.Select
open Poll

inductive Which
  | readfds
  | writefds
  | exceptfds
  deriving DecidableEq, Repr

/-- What `poll` is asked for. -/
def Which.events : Which → BitVec 16
  | readfds => pollin.setWidth 16
  | writefds => pollout.setWidth 16
  | exceptfds => 0

/-- What of its report puts a descriptor into the set. -/
def Which.revents : Which → BitVec 16
  | readfds => (pollin ||| pollhup).setWidth 16
  | writefds => pollout.setWidth 16
  | exceptfds => pollerr.setWidth 16

/-- The three sets, `none` for a null pointer. -/
abbrev FdSets := Which → Option (Finset Nat)

structure Timeval where
  tvSec : BitVec 32
  tvUsec : BitVec 32

/-- `set && FD_ISSET(fd, set)` -/
def fdIsset (sets : FdSets) (which : Which) (fd : Nat) : Bool :=
  (sets which).any fun set => decide (fd ∈ set)

/-- The bits of the words that `fdszero` does not come to. -/
def fdszero (set : Finset Nat) (nfds : Nat) : Finset Nat :=
  set.filter fun fd => 32 * ((nfds + 31) / 32) ≤ fd

/-- If any operation is requested on the descriptor. -/
def monitored (sets : FdSets) (fd : Nat) : Bool :=
  fdIsset sets .readfds fd || fdIsset sets .writefds fd || fdIsset sets .exceptfds fd

def events (sets : FdSets) (fd : Nat) : BitVec 16 :=
  let events := if fdIsset sets .readfds fd then 0 ||| Which.readfds.events else 0
  if fdIsset sets .writefds fd then events ||| Which.writefds.events else events

/-- The descriptors that the first loop counts, as the second one fills them in. -/
def pollset (nfds : Nat) (sets : FdSets) : List Pollfd :=
  ((List.range nfds).filter (monitored sets)).map fun fd =>
    { fd := BitVec.ofNat 32 fd, events := events sets fd }

def milliseconds : Option Timeval → BitVec 32
  | some timeout => timeout.tvSec * 1000 + timeout.tvUsec.sdiv 1000
  | none => -1

/-- One of the three checks of the last loop: `ret` and the sets. -/
def report (pollfd : Pollfd) (which : Which) (s : Nat × FdSets) : Nat × FdSets :=
  match s.2 which with
  | none => s
  | some set =>
    if pollfd.revents &&& which.revents ≠ 0 then
      (s.1 + 1, Function.update s.2 which (some (insert pollfd.fd.toNat set)))
    else s

/-- The loop that converts the descriptor list back. -/
def convert : List Pollfd → Nat × FdSets → Nat × FdSets
  | [], s => s
  | pollfd :: rest, s =>
    convert rest (report pollfd .exceptfds (report pollfd .writefds (report pollfd .readfds s)))

/-- The sets as `fdszero` leaves them. -/
def zeroed (nfds : Nat) (sets : FdSets) : FdSets := fun which => (sets which).map (fdszero · nfds)

/-- How `select` returns, with what `poll` has reported. -/
structure Selected where
  ret : Int
  sets : FdSets
  reported : List Pollfd

/-- `select`; `allocated` is if `rt_calloc` gives memory. Without a result `poll` does not
return. -/
def select (allocated : Bool) (schedule : Nat → Round) (fuel : Nat) (nfds : BitVec 32)
    (sets : FdSets) (timeout : Option Timeval) : Option Selected :=
  let fds := pollset nfds.toInt.toNat sets
  if fds ≠ [] ∧ allocated = false then some ⟨-1, sets, []⟩
  else do
    let (ret, reported) ← poll (milliseconds timeout) schedule fuel fds
    let sets := zeroed nfds.toInt.toNat sets
    if ret > 0 then
      let (ret, sets) := convert reported (0, sets)
      return ⟨ret, sets, reported⟩
    else return ⟨ret, sets, reported⟩

/-! ## What is asked of it -/

/-- What `poll` reports of a descriptor, as far as it is about the set. -/
def Reports (reported : List Pollfd) (which : Which) (fd : Nat) : Prop :=
  ∃ pollfd ∈ reported, pollfd.fd.toNat = fd ∧ pollfd.revents &&& which.revents ≠ 0

def size (sets : FdSets) (which : Which) : Nat := ((sets which).map Finset.card).getD 0

/-- The number of descriptors in the sets. -/
def total (sets : FdSets) : Nat := size sets .readfds + size sets .writefds + size sets .exceptfds

structure Agrees (nfds : Nat) (sets : FdSets) (s : Selected) : Prop where
  subset : ∀ which fd, fdIsset s.sets which fd = true → fdIsset sets which fd = true
  reported : ∀ which fd, fd < nfds → fdIsset sets which fd = true →
    (fdIsset s.sets which fd = true ↔ Reports s.reported which fd)
  ret : s.ret = total s.sets

/-- There is memory; no set has a descriptor past the words of the first `nfds`; no descriptor
outside `readfds` is reported hung up, and none outside `exceptfds` in error. -/
structure Matched (allocated : Bool) (nfds : Nat) (sets : FdSets) (reported : List Pollfd) :
    Prop where
  allocated : pollset nfds sets = [] ∨ allocated = true
  within : ∀ which fd, fdIsset sets which fd = true → fd < 32 * ((nfds + 31) / 32)
  hup : (sets .readfds).isSome = true → ∀ pollfd ∈ reported,
    fdIsset sets .readfds pollfd.fd.toNat = false → pollfd.revents &&& pollhup.setWidth 16 = 0
  err : (sets .exceptfds).isSome = true → ∀ pollfd ∈ reported,
    fdIsset sets .exceptfds pollfd.fd.toNat = false → pollfd.revents &&& pollerr.setWidth 16 = 0

section
variable {files : BitVec 32 → Polled} {fds : List Pollfd} {pollfd : Pollfd} {sets : FdSets}
  {which other : Which} {nfds fd : Nat}

/-! ## What is reported -/

theorem scan_snd : (scan files fds).2 = fds.map (doPollfd files) := by
  induction fds with
  | nil => rfl
  | cons pollfd rest ih => rw [scan, List.map_cons, ← ih]

theorem mask_eq_zero (h : (scan files fds).1 = 0) : ∀ pollfd ∈ fds, pollfd.mask files = 0 := by
  induction fds with
  | nil => simp
  | cons first rest ih =>
    rw [scan] at h
    dsimp only at h
    intro pollfd hpollfd
    split at h
    · cases h
    · rename_i hfirst
      rcases List.mem_cons.mp hpollfd with rfl | hrest
      · exact not_not.mp hfirst
      · exact ih h pollfd hrest

/-- `POLLIN` and `POLLOUT` are reported only if they are asked for. -/
theorem events_of_revents {i : Nat} (hi : i < 2)
    (h : (doPollfd files pollfd).revents.getLsbD i = true) : pollfd.events.getLsbD i = true := by
  have hbits : ∀ i < 2, pollerr.getLsbD i = false ∧ pollhup.getLsbD i = false ∧
      pollnval.getLsbD i = false := by decide
  obtain ⟨herr, hhup, hnval⟩ := hbits i hi
  have hmask : (pollfd.mask files).getLsbD i = true := by
    simp only [doPollfd, BitVec.getLsbD_setWidth, Bool.and_eq_true] at h
    exact h.2
  have hwanted : pollfd.wanted.getLsbD i = true → pollfd.events.getLsbD i = true := by
    rw [Pollfd.wanted, BitVec.getLsbD_or, BitVec.getLsbD_or, herr, hhup, Bool.or_false,
      Bool.or_false, BitVec.getLsbD_signExtend, if_pos (by omega), Bool.and_eq_true]
    exact And.right
  unfold Pollfd.mask at hmask
  split at hmask
  · simp at hmask
  · split at hmask
    · rw [hnval] at hmask
      cases hmask
    · rw [BitVec.getLsbD_and, Bool.and_eq_true] at hmask
      exact hwanted hmask.2
    · rw [BitVec.getLsbD_and, Bool.and_eq_true] at hmask
      exact hwanted hmask.2

theorem and_bit_ne_zero (x : BitVec 16) (i : Nat) (hi : i < 16) :
    x &&& BitVec.twoPow 16 i ≠ 0 ↔ x.getLsbD i = true := by
  rw [BitVec.and_twoPow]
  cases h : x.getLsbD i with
  | false => simp
  | true =>
    simp only [↓reduceIte, ne_eq, iff_true]
    intro hzero
    have hbit := congrArg (BitVec.getLsbD · i) hzero
    simp [hi] at hbit

theorem revents_readfds : pollfd.revents &&& Which.readfds.revents ≠ 0 ↔
    pollfd.revents.getLsbD 0 = true ∨ pollfd.revents &&& pollhup.setWidth 16 ≠ 0 := by
  have hbits : Which.readfds.revents = BitVec.twoPow 16 0 ||| pollhup.setWidth 16 := rfl
  rw [hbits, ← and_bit_ne_zero _ 0 (by omega), BitVec.and_or_distrib_left]
  exact (not_congr BitVec.or_eq_zero_iff).trans not_and_or

theorem revents_writefds : pollfd.revents &&& Which.writefds.revents ≠ 0 ↔
    pollfd.revents.getLsbD 1 = true :=
  and_bit_ne_zero _ 1 (by omega)

theorem getLsbD_events_zero (sets : FdSets) (fd : Nat) :
    (events sets fd).getLsbD 0 = fdIsset sets .readfds fd := by
  unfold events
  cases fdIsset sets .readfds fd <;> cases fdIsset sets .writefds fd <;> rfl

theorem getLsbD_events_one (sets : FdSets) (fd : Nat) :
    (events sets fd).getLsbD 1 = fdIsset sets .writefds fd := by
  unfold events
  cases fdIsset sets .readfds fd <;> cases fdIsset sets .writefds fd <;> rfl

theorem mem_pollset : pollfd ∈ pollset nfds sets ↔ ∃ fd < nfds, monitored sets fd = true ∧
    pollfd = { fd := BitVec.ofNat 32 fd, events := events sets fd } := by
  simp only [pollset, List.mem_map, List.mem_filter, List.mem_range, and_assoc, eq_comm]

theorem toNat_pollset (hn : nfds < 2 ^ 32) :
    (pollset nfds sets).map (·.fd.toNat) = (List.range nfds).filter (monitored sets) := by
  rw [pollset, List.map_map]
  refine (List.map_congr_left fun fd hfd => ?_).trans (List.map_id _)
  have hlt := List.mem_range.mp (List.mem_filter.mp hfd).1
  exact Nat.mod_eq_of_lt (Nat.lt_trans hlt hn)

/-! ## Back to the sets -/

variable {s : Nat × FdSets}

theorem isSome_report : ((report pollfd which s).2 other).isSome = (s.2 other).isSome := by
  unfold report
  cases hset : s.2 which with
  | none => rfl
  | some set =>
    dsimp only
    split
    · dsimp only
      by_cases hsame : other = which
      · rw [hsame, Function.update_self, hset]
        rfl
      · rw [Function.update_of_ne hsame]
    · rfl

theorem fdIsset_report : fdIsset (report pollfd which s).2 other fd = true ↔
    fdIsset s.2 other fd = true ∨ other = which ∧ (s.2 which).isSome = true ∧
      pollfd.fd.toNat = fd ∧ pollfd.revents &&& which.revents ≠ 0 := by
  unfold report
  cases hset : s.2 which with
  | none => simp
  | some set =>
    dsimp only
    by_cases hreported : pollfd.revents &&& which.revents ≠ 0
    · rw [if_pos hreported, and_iff_left hreported]
      by_cases hsame : other = which
      · subst hsame
        simp only [fdIsset, hset, Function.update_self, Option.any_some, decide_eq_true_eq,
          Finset.mem_insert, Option.isSome_some, true_and]
        rw [or_comm, eq_comm (a := fd)]
      · simp [fdIsset, hsame]
    · rw [if_neg hreported]
      exact (or_iff_left fun h => hreported h.2.2.2).symm

theorem size_update (set : Finset Nat) :
    size (Function.update sets which (some set)) other =
      if other = which then set.card else size sets other := by
  by_cases hsame : other = which
  · simp [size, hsame]
  · simp [size, hsame]

theorem report_total (hfresh : fdIsset s.2 which pollfd.fd.toNat = false) :
    (report pollfd which s).1 + total s.2 = s.1 + total (report pollfd which s).2 := by
  unfold report
  cases hset : s.2 which with
  | none => rfl
  | some set =>
    dsimp only
    split
    · have hnew : pollfd.fd.toNat ∉ set := by
        simpa [fdIsset, hset] using hfresh
      have hsize : size s.2 which = set.card := by
        rw [size, hset]
        rfl
      have hcard := Finset.card_insert_of_notMem hnew
      unfold total
      cases which <;> simp only [size_update, hcard, hsize, reduceCtorEq, ↓reduceIte] <;> omega
    · rfl

theorem fdIsset_reports : fdIsset (report pollfd .exceptfds (report pollfd .writefds
      (report pollfd .readfds s))).2 other fd = true ↔
    fdIsset s.2 other fd = true ∨ (s.2 other).isSome = true ∧
      pollfd.fd.toNat = fd ∧ pollfd.revents &&& other.revents ≠ 0 := by
  simp only [fdIsset_report, isSome_report]
  cases other <;> simp

theorem fdIsset_convert : fdIsset (convert fds s).2 other fd = true ↔
    fdIsset s.2 other fd = true ∨ (s.2 other).isSome = true ∧ Reports fds other fd := by
  induction fds generalizing s with
  | nil => simp [convert, Reports]
  | cons pollfd rest ih =>
    rw [convert, ih, fdIsset_reports, isSome_report, isSome_report, isSome_report, or_assoc,
      ← and_or_left]
    simp [Reports]

theorem convert_total (hnodup : (fds.map (·.fd.toNat)).Nodup)
    (hfresh : ∀ pollfd ∈ fds, ∀ which, fdIsset s.2 which pollfd.fd.toNat = false) :
    (convert fds s).1 + total s.2 = s.1 + total (convert fds s).2 := by
  induction fds generalizing s with
  | nil => rfl
  | cons pollfd rest ih =>
    obtain ⟨hnotin, hnodup⟩ := List.nodup_cons.mp hnodup
    have hself := hfresh pollfd List.mem_cons_self
    have hread := report_total (hself .readfds)
    have hwrite : fdIsset (report pollfd .readfds s).2 .writefds pollfd.fd.toNat = false := by
      rw [← Bool.not_eq_true, fdIsset_report]
      simp [hself .writefds]
    have hexcept : fdIsset (report pollfd .writefds (report pollfd .readfds s)).2 .exceptfds
        pollfd.fd.toNat = false := by
      rw [← Bool.not_eq_true, fdIsset_report, fdIsset_report]
      simp [hself .exceptfds]
    have hwrite := report_total hwrite
    have hexcept := report_total hexcept
    rw [convert]
    have hrest := ih (s := report pollfd .exceptfds (report pollfd .writefds
      (report pollfd .readfds s))) hnodup (by
        intro p hp which
        rw [← Bool.not_eq_true, fdIsset_reports]
        have hne : pollfd.fd.toNat ≠ p.fd.toNat := fun heq =>
          hnotin (List.mem_map.mpr ⟨p, hp, heq.symm⟩)
        simp [hfresh p (List.mem_cons_of_mem _ hp) which, hne])
    omega

theorem convert_nothing (h : ∀ pollfd ∈ fds, pollfd.revents = 0) : convert fds s = s := by
  have hreport : ∀ pollfd : Pollfd, pollfd.revents = 0 → ∀ which s,
      report pollfd which s = s := by
    intro pollfd hzero which s
    have hand : pollfd.revents &&& which.revents = 0 := by
      rw [hzero]
      exact BitVec.zero_and
    unfold report
    cases s.2 which with
    | none => rfl
    | some set => exact if_neg fun h => h hand
  induction fds with
  | nil => rfl
  | cons pollfd rest ih =>
    have hzero := h pollfd List.mem_cons_self
    rw [convert, hreport _ hzero, hreport _ hzero, hreport _ hzero]
    exact ih fun p hp => h p (List.mem_cons_of_mem _ hp)

theorem total_eq_zero : total sets = 0 ↔ ∀ which fd, fdIsset sets which fd = false := by
  have hsize : ∀ which, size sets which = 0 ↔ ∀ fd, fdIsset sets which fd = false := by
    intro which
    unfold size fdIsset
    cases sets which with
    | none => simp
    | some set => simp [Finset.eq_empty_iff_forall_notMem]
  unfold total
  constructor
  · intro h which
    cases which with
    | readfds => exact (hsize _).mp (by omega)
    | writefds => exact (hsize _).mp (by omega)
    | exceptfds => exact (hsize _).mp (by omega)
  · intro h
    have hread := (hsize .readfds).mpr (h _)
    have hwrite := (hsize .writefds).mpr (h _)
    have hexcept := (hsize .exceptfds).mpr (h _)
    omega

theorem fdIsset_zeroed : fdIsset (zeroed nfds sets) which fd = true ↔
    fdIsset sets which fd = true ∧ 32 * ((nfds + 31) / 32) ≤ fd := by
  unfold fdIsset zeroed
  cases sets which with
  | none => simp
  | some set => simp [fdszero]

theorem isSome_zeroed : (zeroed nfds sets which).isSome = (sets which).isSome :=
  Option.isSome_map

/-- Only the descriptors are polled that are asked for, and for what they are. -/
theorem reported_spec (hn : nfds < 2 ^ 32) (files : BitVec 32 → Polled) (sets : FdSets) :
    ∀ pollfd ∈ (pollset nfds sets).map (doPollfd files), pollfd.fd.toNat < nfds ∧
      (pollfd.revents.getLsbD 0 = true → fdIsset sets .readfds pollfd.fd.toNat = true) ∧
      (pollfd.revents.getLsbD 1 = true → fdIsset sets .writefds pollfd.fd.toNat = true) := by
  intro pollfd h
  obtain ⟨polled, hpolled, rfl⟩ := List.mem_map.mp h
  obtain ⟨fd, hlt, -, rfl⟩ := mem_pollset.mp hpolled
  have hfd : (BitVec.ofNat 32 fd).toNat = fd := Nat.mod_eq_of_lt (Nat.lt_trans hlt hn)
  refine ⟨?_, fun hread => ?_, fun hwrite => ?_⟩
  · rw [doPollfd, hfd]
    exact hlt
  · rw [doPollfd, hfd, ← getLsbD_events_zero]
    exact events_of_revents (by omega) hread
  · rw [doPollfd, hfd, ← getLsbD_events_one]
    exact events_of_revents (by omega) hwrite

theorem toNat_reported (hn : nfds < 2 ^ 32) :
    ((pollset nfds sets).map (doPollfd files)).map (·.fd.toNat) =
      (List.range nfds).filter (monitored sets) := by
  rw [List.map_map, ← toNat_pollset hn]
  rfl

/-- What the last part of `select` makes of a report. -/
theorem agrees_convert {allocated : Bool} (hn : nfds < 2 ^ 32)
    (hallocated : pollset nfds sets = [] ∨ allocated = true) {reported : List Pollfd}
    (hreported : reported = (pollset nfds sets).map (doPollfd files)) :
    Agrees nfds sets ⟨(convert reported (0, zeroed nfds sets)).1,
      (convert reported (0, zeroed nfds sets)).2, reported⟩ ↔
        Matched allocated nfds sets reported := by
  have hspec := reported_spec hn files sets
  rw [← hreported] at hspec
  have hfresh : ∀ pollfd ∈ reported, ∀ which,
      fdIsset (zeroed nfds sets) which pollfd.fd.toNat = false := by
    intro pollfd hp which
    rw [← Bool.not_eq_true, fdIsset_zeroed]
    have := (hspec pollfd hp).1
    omega
  have htotal : (convert reported (0, zeroed nfds sets)).1 + total (zeroed nfds sets) =
      0 + total (convert reported (0, zeroed nfds sets)).2 := by
    refine convert_total ?_ hfresh
    rw [hreported, toNat_reported hn]
    exact List.nodup_range.filter _
  have hafter : ∀ which fd, fdIsset (convert reported (0, zeroed nfds sets)).2 which fd = true ↔
      (fdIsset sets which fd = true ∧ 32 * ((nfds + 31) / 32) ≤ fd) ∨
        (sets which).isSome = true ∧ Reports reported which fd := by
    intro which fd
    rw [fdIsset_convert, fdIsset_zeroed, isSome_zeroed]
  constructor
  · intro h
    refine ⟨hallocated, fun which fd hin => ?_, fun hpresent pollfd hp hout => ?_,
      fun hpresent pollfd hp hout => ?_⟩
    · have hret : ((convert reported (0, zeroed nfds sets)).1 : Int) =
        total (convert reported (0, zeroed nfds sets)).2 := h.ret
      have hzero : total (zeroed nfds sets) = 0 := by omega
      have hnot := total_eq_zero.mp hzero which fd
      rw [← Bool.not_eq_true, fdIsset_zeroed] at hnot
      by_contra hpast
      exact hnot ⟨hin, by omega⟩
    · by_contra hhup
      have hset := h.subset .readfds pollfd.fd.toNat ((hafter _ _).mpr (.inr ⟨hpresent, pollfd, hp,
        rfl, revents_readfds.mpr (.inr hhup)⟩))
      exact Bool.false_ne_true (hout.symm.trans hset)
    · by_contra herr
      have hset := h.subset .exceptfds pollfd.fd.toNat ((hafter _ _).mpr (.inr ⟨hpresent, pollfd,
        hp, rfl, herr⟩))
      exact Bool.false_ne_true (hout.symm.trans hset)
  · intro h
    refine ⟨fun which fd hset => ?_, fun which fd hlt hin => ?_, ?_⟩
    · rcases (hafter _ _).mp hset with hstale | ⟨hpresent, pollfd, hp, rfl, hbits⟩
      · exact hstale.1
      · obtain ⟨-, hread, hwrite⟩ := hspec pollfd hp
        cases which with
        | readfds =>
          rcases revents_readfds.mp hbits with hin | hhup
          · exact hread hin
          · by_contra hout
            exact hhup (h.hup hpresent pollfd hp (Bool.eq_false_of_not_eq_true hout))
        | writefds => exact hwrite (revents_writefds.mp hbits)
        | exceptfds =>
          by_contra hout
          exact hbits (h.err hpresent pollfd hp (Bool.eq_false_of_not_eq_true hout))
    · dsimp only
      have hpresent : (sets which).isSome = true := by
        unfold fdIsset at hin
        cases hset : sets which with
        | none => rw [hset] at hin; cases hin
        | some set => rfl
      rw [hafter, and_iff_right hpresent]
      exact or_iff_right fun hstale => by omega
    · have hzero : total (zeroed nfds sets) = 0 := by
        refine total_eq_zero.mpr fun which fd => ?_
        rw [← Bool.not_eq_true, fdIsset_zeroed]
        rintro ⟨hin, hpast⟩
        exact absurd (h.within which fd hin) (Nat.not_lt.mpr hpast)
      show ((convert reported (0, zeroed nfds sets)).1 : Int) =
        total (convert reported (0, zeroed nfds sets)).2
      omega

end

theorem toNat_toInt_lt (nfds : BitVec 32) : nfds.toInt.toNat < 2 ^ 32 := by
  have := BitVec.toInt_lt (x := nfds)
  omega

/-- `select` agrees with `poll` exactly if there is memory, no bit is past the first `nfds`, and
`poll` reports no descriptor hung up or in error that is not in the set for it. -/
theorem select_agrees_iff {allocated : Bool} {schedule : Nat → Round} {fuel : Nat}
    {nfds : BitVec 32} {sets : FdSets} {timeout : Option Timeval} {s : Selected}
    (h : select allocated schedule fuel nfds sets timeout = some s) :
    Agrees nfds.toInt.toNat sets s ↔ Matched allocated nfds.toInt.toNat sets s.reported := by
  have hn := toNat_toInt_lt nfds
  unfold select at h
  generalize nfds.toInt.toNat = n at h hn ⊢
  dsimp only at h
  split at h
  · rename_i hfails
    obtain rfl := Option.some.inj h
    refine iff_of_false (fun hagrees => ?_) (fun hmatched => ?_)
    · exact absurd hagrees.ret (by dsimp only; omega)
    · exact hmatched.allocated.elim hfails.1 (Bool.false_ne_true ∘ hfails.2.symm.trans)
  · rename_i hok
    have hallocated : pollset n sets = [] ∨ allocated = true := by
      rw [not_and_or, not_not, Bool.not_eq_false] at hok
      exact hok
    obtain ⟨⟨num, reported⟩, hpoll, hs⟩ := Option.bind_eq_some_iff.mp h
    obtain ⟨last, hlast⟩ := poll_eq_scan hpoll
    have hreported : reported = (pollset n sets).map (doPollfd (schedule last).files) := by
      rw [← scan_snd, hlast]
    suffices hsame : s = ⟨(convert reported (0, zeroed n sets)).1,
        (convert reported (0, zeroed n sets)).2, reported⟩ by
      rw [hsame]
      exact agrees_convert hn hallocated hreported
    dsimp only at hs
    split at hs
    · exact (Option.some.inj hs).symm
    · have hzero : num = 0 := by omega
      have hnothing : convert reported (0, zeroed n sets) = (0, zeroed n sets) := by
        refine convert_nothing fun pollfd hp => ?_
        rw [hreported] at hp
        obtain ⟨polled, hpolled, rfl⟩ := List.mem_map.mp hp
        rw [doPollfd, mask_eq_zero (by rw [hlast]; exact hzero) polled hpolled]
        rfl
      rw [hnothing, ← Option.some.inj hs, hzero]

/-- Descriptor 3, for writing; the other two sets are empty. -/
def writeOnly (which : Which) : Option (Finset Nat) :=
  if which = .writefds then some {3} else some ∅

/-- The file behind every descriptor reports `mask`. -/
def always (mask : BitVec 32) : Round where
  files _ := .file fun _ => mask
  before := []
  asleep := []

/-- The descriptor is ready for writing. -/
theorem select_agrees_writable : ∃ s, select true (fun _ => always pollout) 1 4 writeOnly none =
    some s ∧ Agrees 4 writeOnly s := by
  have hselect : select true (fun _ => always pollout) 1 4 writeOnly none =
    some ⟨1, _, [{ fd := 3, events := 2, revents := 2 }]⟩ := rfl
  refine ⟨_, hselect, (select_agrees_iff hselect).mpr ⟨.inr rfl, ?_, ?_, ?_⟩⟩
  · intro which fd hin
    cases which with
    | writefds => simp_all [fdIsset, writeOnly]
    | readfds => simp [fdIsset, writeOnly] at hin
    | exceptfds => simp [fdIsset, writeOnly] at hin
  · intro _ pollfd hp _
    obtain rfl := List.mem_singleton.mp hp
    rfl
  · intro _ pollfd hp _
    obtain rfl := List.mem_singleton.mp hp
    rfl

/-- The peer of a descriptor that is only written to hangs up, and the descriptor is returned
as readable. -/
theorem hung_up_readable : ¬ ∀ (schedule : Nat → Round) (fuel : Nat) (nfds : BitVec 32)
    (sets : FdSets) (timeout : Option Timeval) (s : Selected),
    select true schedule fuel nfds sets timeout = some s → Agrees nfds.toInt.toNat sets s := by
  intro h
  have hagrees := h (fun _ => always pollhup) 1 4 writeOnly none _ rfl
  exact absurd (hagrees.subset .readfds 3 (by decide)) (by decide)

end ControlRTT.Components.Select
