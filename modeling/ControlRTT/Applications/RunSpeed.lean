import ControlRTT.Applications.Control

/-! # The speed of the run axis

The demanded speed is brought below the maximum of its direction before the filter
and not after it, so a word above the maximum is stored when the average of the last
fifty speeds is high enough (`run_capped_iff`). The filter's entries are speeds
between 0 and 255 in every run; everything else follows from that. -/
namespace ControlRTT.Applications.RunSpeed
open ControlRTT.Lib ControlRTT.Lib.CInt ControlRTT.Lib.NorFlash
open ControlRTT.Applications.BlueFrame (BlueCall)
open ControlRTT.Applications.Config ControlRTT.Applications.Axes ControlRTT.Applications.Joystick
open ControlRTT.Applications.Control

/-! ## The filter -/

/-- A speed: what a `char` maximum admits. -/
def IsSpeed (x : Int) : Prop := 0 ≤ x ∧ x ≤ 255

/-- Every stored sample is a speed. -/
def Bounded (f : ClacFilter) : Prop := ∀ x ∈ f.sData.toList, IsSpeed x

theorem sum_range {l : List Int} (h : ∀ x ∈ l, IsSpeed x) : 0 ≤ l.sum ∧ l.sum ≤ 255 * l.length := by
  induction l with
  | nil => exact ⟨Int.le_refl 0, Int.le_refl 0⟩
  | cons x l ih =>
    obtain ⟨lo, hi⟩ := h x List.mem_cons_self
    obtain ⟨ilo, ihi⟩ := ih fun y hy => h y (List.mem_cons_of_mem x hy)
    rw [List.sum_cons, List.length_cons]
    omega

theorem Bounded.push {f : ClacFilter} (h : Bounded f) {t : Int} (ht : IsSpeed t) :
    Bounded (f.push t) := by
  intro x hx
  have hmem : x ∈ f.sData.set f.sIndex t := Vector.mem_toList_iff.mp hx
  cases Vector.mem_or_eq_of_mem_set hmem with
  | inl hx => exact h x (Vector.mem_toList_iff.mpr hx)
  | inr hx => exact hx ▸ ht

theorem Bounded.sum_range {f : ClacFilter} (h : Bounded f) : 0 ≤ f.sum ∧ f.sum ≤ 12750 := by
  have hlen : f.sData.toList.length = 50 := Vector.length_toList
  have hsum := RunSpeed.sum_range h
  rw [hlen] at hsum
  exact hsum

/-- On speeds the filter computes in naturals: no conversion to `short` changes a value. -/
theorem getClacData_eq {f : ClacFilter} (h : Bounded f) {t : Int} (ht : IsSpeed t) :
    (getClacData f t).1 =
      if f.count + 1 < 50 then t
      else
        let avg := (f.push t).sum / 50
        if 5 * t > 6 * avg then 6 * avg / 5 else if 5 * t < 4 * avg then 4 * avg / 5 else t := by
  obtain ⟨lo, hi⟩ := (h.push ht).sum_range
  have havg : toShort ((f.push t).sum.tdiv (calcDataCount : Nat)) = (f.push t).sum / 50 := by
    rw [Int.tdiv_eq_ediv_of_nonneg lo, show ((calcDataCount : Nat) : Int) = 50 from rfl]
    exact toShort_of_range (by omega) (by omega)
  unfold getClacData
  dsimp only
  rw [havg, show (f.push t).count = f.count + 1 from rfl, show calcDataCount = 50 from rfl]
  have hlo : 0 ≤ (f.push t).sum / 50 := by omega
  have hhi : (f.push t).sum / 50 ≤ 255 := by omega
  generalize (f.push t).sum / 50 = avg at *
  rw [Int.tdiv_eq_ediv_of_nonneg (by omega), Int.tdiv_eq_ediv_of_nonneg (by omega),
    toShort_of_range (by omega) (by omega), toShort_of_range (by omega) (by omega)]
  split <;> rfl

/-- The filtered speed is a speed. -/
theorem getClacData_isSpeed {f : ClacFilter} (h : Bounded f) {t : Int} (ht : IsSpeed t) :
    IsSpeed (getClacData f t).1 := by
  obtain ⟨lo, hi⟩ := (h.push ht).sum_range
  obtain ⟨tlo, thi⟩ := ht
  rw [getClacData_eq h ⟨tlo, thi⟩]
  unfold IsSpeed
  dsimp only
  split
  · omega
  · split <;> omega

/-- **When the filter keeps a limited speed limited**: it is not full yet, or 4/5 of the
average do not reach beyond the limit. -/
theorem getClacData_le_iff {f : ClacFilter} (h : Bounded f) {t cap : Int} (ht : IsSpeed t)
    (hcap : t ≤ cap) :
    (getClacData f t).1 ≤ cap ↔
      f.count + 1 < 50 ∨ 4 * ((f.push t).sum / 50) < 5 * (cap + 1) := by
  obtain ⟨lo, hi⟩ := (h.push ht).sum_range
  rw [getClacData_eq h ht]
  dsimp only
  split
  · omega
  · split <;> omega

/-! ## The demand -/

/-- The greatest speed a direction word admits. -/
def runCap (g : StuFlashData) (direction : BitVec 32) : Int :=
  if direction = blueForward then g.qMaxSpeed.toNat
  else if direction = blueBackup then g.hMaxSpeed.toNat
  else 0

theorem limit_range {max : Int} (h : 0 ≤ max) (data : Int) :
    0 ≤ limit max data ∧ limit max data ≤ max := by
  unfold limit
  dsimp only
  split <;> split <;> omega

/-- The demanded speed is within the limit of its direction. -/
theorem runDemand_range (g : StuFlashData) (s : BodyState) (d : Int) :
    0 ≤ (runDemand g s d).2 ∧ (runDemand g s d).2 ≤ runCap g (runDemand g s d).1 := by
  unfold runDemand
  split
  · exact limit_range (Int.natCast_nonneg _) _
  · split
    · exact limit_range (Int.natCast_nonneg _) _
    · exact ⟨Int.le_refl 0, Int.le_refl 0⟩

theorem runCap_le (g : StuFlashData) (direction : BitVec 32) : runCap g direction ≤ 255 := by
  have hq := g.qMaxSpeed.isLt
  have hh := g.hMaxSpeed.isLt
  unfold runCap
  split
  · omega
  · split <;> omega

theorem runDemand_isSpeed (g : StuFlashData) (s : BodyState) (d : Int) :
    IsSpeed (runDemand g s d).2 := by
  have hrange := runDemand_range g s d
  have hcap := runCap_le g (runDemand g s d).1
  exact ⟨hrange.1, by omega⟩

/-- The direction is one of three. -/
theorem runDemand_direction (g : StuFlashData) (s : BodyState) (d : Int) :
    (runDemand g s d).1 = blueForward ∨ (runDemand g s d).1 = blueBackup ∨
      (runDemand g s d).1 = blueStop := by
  unfold runDemand
  split
  · exact .inl rfl
  · split
    · exact .inr (.inl rfl)
    · exact .inr (.inr rfl)

/-! ## The word -/

/-- A direction with a speed or'ed in. -/
structure RunWord (w direction : BitVec 32) (speed : Int) : Prop where
  direct_eq : (highHalf w).toInt = (highHalf direction).toInt
  speed_eq : (lowHalf w).toInt = speed
  dire_eq : macndire w = macndire direction
  byte_eq : ((macnSpeed w).toNat : Int) = speed

theorem orShort_runWord {direction : BitVec 32} {speed : Int}
    (h : direction = blueForward ∨ direction = blueBackup ∨ direction = blueStop)
    (hs : IsSpeed speed) : RunWord (orShort direction speed) direction speed := by
  obtain ⟨lo, hi⟩ := hs
  obtain ⟨k, hk, rfl⟩ : ∃ k < 3, direction = BitVec.ofNat 32 (65536 * k) := by
    rcases h with rfl | rfl | rfl
    · exact ⟨1, by decide, rfl⟩
    · exact ⟨2, by decide, rfl⟩
    · exact ⟨0, by decide, rfl⟩
  have hw := orShort_of_nonneg (k := k) (by omega) lo (by omega)
  have hd : (BitVec.ofNat 32 (65536 * k)).toNat = 65536 * k := by
    rw [BitVec.toNat_ofNat]
    omega
  constructor
  case direct_eq =>
    rw [highHalf_toInt (by omega), highHalf_toInt (by omega)]
    omega
  case speed_eq =>
    rw [lowHalf_toInt]
    omega
  case dire_eq =>
    apply BitVec.eq_of_toNat_eq
    unfold macndire
    rw [highHalf_byte, highHalf_byte]
    omega
  case byte_eq =>
    unfold macnSpeed
    rw [lowHalf_byte]
    omega

/-! ## Runs -/

/-- What every reachable state has: speeds in the filter, and in the run word a direction
with a speed. -/
structure RunInv (s : AppState) : Prop where
  bounded : Bounded s.body.clac
  word : ∃ direction speed, IsSpeed speed ∧
    (direction = blueForward ∨ direction = blueBackup ∨ direction = blueStop) ∧
    RunWord s.body.gBodyExecInfo.run direction speed

/-- What a sensor frame does to the filter and the run word. -/
theorem ansyBlueStatus_run (g : StuFlashData) (s : BodyState) (blueData : Vector Byte 6) :
    let demand := runDemand g s (runTilt s (revData blueData)[1]!)
    let s' := ansyBlueStatus g s blueData
    s'.clac = (getClacData s.clac demand.2).2 ∧
      s'.gBodyExecInfo.run = orShort demand.1 (getClacData s.clac demand.2).1 := ⟨rfl, rfl⟩

theorem getClacData_filter (f : ClacFilter) (t : Int) : (getClacData f t).2 = f.push t := by
  unfold getClacData
  dsimp only
  split <;> rfl

theorem boot_runInv (m : Mem) : RunInv (boot m) where
  bounded x hx := by
    have hz : x = 0 := by
      have hmem : x ∈ Vector.replicate calcDataCount (0 : Int) := Vector.mem_toList_iff.mp hx
      exact (Vector.mem_replicate.mp hmem).2
    exact hz ▸ ⟨by decide, by decide⟩
  word := by
    have hzero : IsSpeed 0 := ⟨by decide, by decide⟩
    have hword : (0 : BitVec 32) = orShort blueStop 0 := by decide
    refine ⟨blueStop, 0, hzero, .inr (.inr rfl), ?_⟩
    change RunWord 0 blueStop 0
    rw [hword]
    exact orShort_runWord (.inr (.inr rfl)) hzero

theorem step_runInv (s : AppState) (e : Event) (h : RunInv s) : RunInv (step s e).1 := by
  cases e with
  | blue call =>
    cases call with
    | initBlueStatus blueData => exact ⟨h.bounded, h.word⟩
    | ansyBlueStatus blueData =>
      obtain ⟨hclac, hrun⟩ := ansyBlueStatus_run s.gFlashData s.body blueData
      have hspeed := runDemand_isSpeed s.gFlashData s.body (runTilt s.body (revData blueData)[1]!)
      have hdir := runDemand_direction s.gFlashData s.body (runTilt s.body (revData blueData)[1]!)
      constructor
      · change Bounded (ansyBlueStatus s.gFlashData s.body blueData).clac
        rw [hclac, getClacData_filter]
        exact h.bounded.push hspeed
      · have hfiltered := getClacData_isSpeed h.bounded hspeed
        refine ⟨_, _, hfiltered, hdir, ?_⟩
        change RunWord (ansyBlueStatus s.gFlashData s.body blueData).gBodyExecInfo.run _ _
        rw [hrun]
        exact orShort_runWord hdir hfiltered
  | command buff => exact ⟨h.bounded, h.word⟩
  | control => exact h

theorem reached_runInv (m : Mem) (events : List Event) : RunInv (reached m events) :=
  Mealy.final_invariant step step_runInv (boot_runInv m) events

/-! ## The cap -/

/-- What the consumer of the run word reads is within the maximum of its direction. -/
def RunCapped (g : StuFlashData) (info : BodyExecInfo) : Prop :=
  let (direct, speed) := getGatcherInfo info
  (direct = macnForward.toNat → speed ≤ g.qMaxSpeed.toNat) ∧
    (direct = macnBackup.toNat → speed ≤ g.hMaxSpeed.toNat) ∧
    (direct = macnStop.toNat → speed = 0)

theorem runCapped_iff (g : StuFlashData) {info : BodyExecInfo} {direction : BitVec 32}
    {speed : Int} (hdir : direction = blueForward ∨ direction = blueBackup ∨ direction = blueStop)
    (hs : IsSpeed speed) (hw : RunWord info.run direction speed) :
    RunCapped g info ↔ speed ≤ runCap g direction := by
  unfold RunCapped getGatcherInfo
  dsimp only
  rw [hw.direct_eq, hw.speed_eq]
  have hlo := hs.1
  rcases hdir with rfl | rfl | rfl
  · have h1 : (highHalf blueForward).toInt = 1 := by decide
    have hc : runCap g blueForward = g.qMaxSpeed.toNat := rfl
    rw [h1, hc]
    simp [macnForward, macnBackup, macnStop]
  · have h2 : (highHalf blueBackup).toInt = 2 := by decide
    have hc : runCap g blueBackup = g.hMaxSpeed.toNat := rfl
    rw [h2, hc]
    simp [macnForward, macnBackup, macnStop]
  · have h0 : (highHalf blueStop).toInt = 0 := by decide
    have hc : runCap g blueStop = 0 := rfl
    rw [h0, hc]
    simp [macnForward, macnBackup, macnStop]
    omega

/-- The filter has room, or 4/5 of the average with the demanded speed do not reach beyond
the maximum of the demanded direction. -/
def Settled (g : StuFlashData) (s : BodyState) (rev : Int) : Prop :=
  let demand := runDemand g s (runTilt s rev)
  s.clac.count + 1 < calcDataCount ∨
    4 * ((s.clac.push demand.2).sum / calcDataCount) < 5 * (runCap g demand.1 + 1)

/-- **When the stored run speed is capped**, at every sensor frame of every run. -/
theorem run_capped_iff (m : Mem) (events : List Event) (blueData : Vector Byte 6) :
    let s := reached m events
    let s' := (step s (.blue (.ansyBlueStatus blueData))).1
    RunCapped s.gFlashData s'.body.gBodyExecInfo ↔
      Settled s.gFlashData s.body (revData blueData)[1]! := by
  intro s s'
  have hinv := reached_runInv m events
  obtain ⟨-, hrun⟩ := ansyBlueStatus_run s.gFlashData s.body blueData
  have hdir := runDemand_direction s.gFlashData s.body (runTilt s.body (revData blueData)[1]!)
  have hspeed := runDemand_isSpeed s.gFlashData s.body (runTilt s.body (revData blueData)[1]!)
  have hrange := runDemand_range s.gFlashData s.body (runTilt s.body (revData blueData)[1]!)
  have hfiltered := getClacData_isSpeed hinv.bounded hspeed
  have hword := orShort_runWord hdir hfiltered
  have hs' : s'.body.gBodyExecInfo.run = _ := hrun
  rw [← hs'] at hword
  rw [runCapped_iff s.gFlashData hdir hfiltered hword]
  exact getClacData_le_iff hinv.bounded hspeed hrange.2

/-- Forty-nine frames of full speed ahead. -/
def fullSpeed : List Event := List.replicate 49 (.blue (.ansyBlueStatus #v[0, 0, 0, 20, 0, 0]))

/-- A frame with the run axis tilted back by ten. -/
def tiltedBack : Vector Byte 6 := #v[0, 0, 0xFF, 0xF5, 0, 0]

theorem tiltedBack_word :
    let s := reached erased fullSpeed
    let s' := (step s (.blue (.ansyBlueStatus tiltedBack))).1
    s.gFlashData.qMaxSpeed = 60 ∧ s.gFlashData.hMaxSpeed = 30 ∧ s.gFlashData.bodyAngle = 20 ∧
      s.gFlashData.stoprun = 5 ∧ getGatcherInfo s'.body.gBodyExecInfo = (2, 47) := by
  decide +kernel

/-- After full speed ahead the first frame backwards stores speed 47, over a maximum of 30. -/
theorem run_exceeds_backup_cap :
    ¬ ∀ (m : Mem) (events : List Event) (blueData : Vector Byte 6),
      let s := reached m events
      let s' := (step s (.blue (.ansyBlueStatus blueData))).1
      s.gFlashData.qMaxSpeed ≠ 0 → s.gFlashData.hMaxSpeed ≠ 0 →
        s.gFlashData.bodyAngle ≠ s.gFlashData.stoprun →
          RunCapped s.gFlashData s'.body.gBodyExecInfo := by
  intro h
  obtain ⟨hq, hh, hb, hs, hw⟩ := tiltedBack_word
  have hcap := h erased fullSpeed tiltedBack (by rw [hq]; decide) (by rw [hh]; decide)
    (by rw [hb, hs]; decide)
  unfold RunCapped at hcap
  rw [hw, hh] at hcap
  exact absurd (hcap.2.1 rfl) (by decide)

end ControlRTT.Applications.RunSpeed
