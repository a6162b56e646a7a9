import ControlRTT.Lib.Runs
import ControlRTT.Kernel.Device

/-! # Opening and closing a serial device (serial.c, device.c)

Each open writes the flags of the device anew, while the receive and transmit structures are made
once and stay. A close goes by the flags: what an earlier open has made, and the last one has not
asked for again, is neither freed nor switched off (`recorded_along_iff`). -/
namespace ControlRTT.Drivers.SerialOpen
open ControlRTT.Lib.Runs ControlRTT.Kernel.Device

/-! Flags of rtdef.h. -/

def rtDeviceFlagStream : BitVec 16 := 0x040

def rtDeviceFlagIntRx : BitVec 16 := 0x100

def rtDeviceFlagDmaRx : BitVec 16 := 0x200

def rtDeviceFlagIntTx : BitVec 16 := 0x400

def rtDeviceFlagDmaTx : BitVec 16 := 0x800

/-- `word & flag`, as a condition. -/
def carries (word flag : BitVec 16) : Bool := word &&& flag != 0

/-- What `serial_rx` and `serial_tx` point to. -/
inductive Structure where
  | fifo
  | dma
  deriving DecidableEq, Repr

/-- What a serial device has besides its device: the structures, how many of them have been
allocated and not freed, the arrays of data queues likewise, and the interrupts that are on. -/
structure SerialDevice where
  bufsz : BitVec 16
  serialRx : Option Structure := none
  serialTx : Option Structure := none
  allocated : Nat := 0
  queues : Nat := 0
  intRx : Bool := false
  dmaRx : Bool := false
  intTx : Bool := false
  deriving DecidableEq, Repr

abbrev Serial := RtDevice × SerialDevice

/-- `dev->open_flag |= flag` -/
def orFlag (d : Serial) (flag : BitVec 16) : Serial :=
  ({ d.1 with openFlag := d.1.openFlag ||| flag }, d.2)

/-- `dev->open_flag &= ~flag` -/
def clearFlag (d : Serial) (flag : BitVec 16) : Serial :=
  ({ d.1 with openFlag := d.1.openFlag &&& ~~~flag }, d.2)

def rtSerialInit (configure : Result) (d : Serial) : Serial × Result :=
  ((d.1, { d.2 with serialRx := none, serialTx := none }), configure)

/-- The receive part of `rt_serial_open`; that memory is got for the structure is asserted. -/
def openRx (d : Serial) (oflag : BitVec 16) : Serial :=
  if d.2.serialRx = none then
    if carries oflag rtDeviceFlagDmaRx then
      if d.2.bufsz = 0 then
        orFlag (d.1, { d.2 with serialRx := some .dma, allocated := d.2.allocated + 1 })
          rtDeviceFlagDmaRx
      else
        orFlag (d.1, { d.2 with
          serialRx := some .fifo
          allocated := d.2.allocated + 1
          dmaRx := true }) rtDeviceFlagDmaRx
    else if carries oflag rtDeviceFlagIntRx then
      orFlag (d.1, { d.2 with
        serialRx := some .fifo
        allocated := d.2.allocated + 1
        intRx := true }) rtDeviceFlagIntRx
    else d
  else if carries oflag rtDeviceFlagDmaRx then orFlag d rtDeviceFlagDmaRx
  else if carries oflag rtDeviceFlagIntRx then orFlag d rtDeviceFlagIntRx
  else d

/-- The transmit part; `memory` is whether there is memory for the array of the data queue, which
nobody asks. -/
def openTx (memory : Bool) (d : Serial) (oflag : BitVec 16) : Serial :=
  if d.2.serialTx = none then
    if carries oflag rtDeviceFlagDmaTx then
      orFlag (d.1, { d.2 with
        serialTx := some .dma
        allocated := d.2.allocated + 1
        queues := if memory then d.2.queues + 1 else d.2.queues }) rtDeviceFlagDmaTx
    else if carries oflag rtDeviceFlagIntTx then
      orFlag (d.1, { d.2 with
        serialTx := some .fifo
        allocated := d.2.allocated + 1
        intTx := true }) rtDeviceFlagIntTx
    else d
  else if carries oflag rtDeviceFlagDmaTx then orFlag d rtDeviceFlagDmaTx
  else if carries oflag rtDeviceFlagIntTx then orFlag d rtDeviceFlagIntTx
  else d

/-- The flags ask for a mode that the device does not have. -/
def unsupported (flag oflag : BitVec 16) : Bool :=
  [rtDeviceFlagDmaRx, rtDeviceFlagDmaTx, rtDeviceFlagIntRx, rtDeviceFlagIntTx].any fun mode =>
    carries oflag mode && !carries flag mode

def rtSerialOpen (memory : Bool) (d : Serial) (oflag : BitVec 16) : Serial × Result :=
  if unsupported d.1.flag oflag then (d, .eio)
  else
    let streamFlag :=
      if carries oflag rtDeviceFlagStream ∨ carries d.1.openFlag rtDeviceFlagStream then
        rtDeviceFlagStream
      else 0
    let d := ({ d.1 with openFlag := oflag &&& 0xff }, d.2)
    (orFlag (openTx memory (openRx d oflag) oflag) streamFlag, .eok)

/-- `rt_free` of a structure, which is asserted to be there. -/
def closeRx (d : Serial) : Option Serial :=
  if carries d.1.openFlag rtDeviceFlagIntRx then
    d.2.serialRx.map fun _ => clearFlag (d.1, { d.2 with
      serialRx := none
      allocated := d.2.allocated - 1
      intRx := false }) rtDeviceFlagIntRx
  else if carries d.1.openFlag rtDeviceFlagDmaRx then
    d.2.serialRx.map fun _ => clearFlag (d.1, { d.2 with
      serialRx := none
      allocated := d.2.allocated - 1
      dmaRx := false }) rtDeviceFlagDmaRx
  else some d

def closeTx (d : Serial) : Option Serial :=
  if carries d.1.openFlag rtDeviceFlagIntTx then
    d.2.serialTx.map fun _ => clearFlag (d.1, { d.2 with
      serialTx := none
      allocated := d.2.allocated - 1
      intTx := false }) rtDeviceFlagIntTx
  else if carries d.1.openFlag rtDeviceFlagDmaTx then
    d.2.serialTx.map fun _ => clearFlag (d.1, { d.2 with
      serialTx := none
      allocated := d.2.allocated - 1 }) rtDeviceFlagDmaTx
  else some d

def rtSerialClose (d : Serial) : Option (Serial × Result) :=
  if d.1.refCount > 1 then some (d, .eok)
  else ((closeRx d).bind closeTx).map fun d => (d, .eok)

def serialOps (configure : Result) (memory : Bool) : RtDeviceOps SerialDevice where
  deviceInit := some fun d => some (rtSerialInit configure d)
  deviceOpen := some fun d oflag => some (rtSerialOpen memory d oflag)
  deviceClose := some rtSerialClose

inductive Event where
  | open (oflag : BitVec 16) (configure : Result) (memory : Bool)
  | close

def step (d : Serial) : Event → Option Serial
  | .open oflag configure memory =>
    (rtDeviceOpen (serialOps configure memory) d oflag).map Prod.fst
  | .close => (rtDeviceClose (serialOps .eok false) d).map Prod.fst

/-- `rt_hw_serial_register` -/
def start (flag bufsz : BitVec 16) : Serial := ({ flag := flag }, { bufsz := bufsz })

/-! ## Flags and structures -/

def rxFlag (word : BitVec 16) : Bool :=
  carries word rtDeviceFlagIntRx || carries word rtDeviceFlagDmaRx

def txFlag (word : BitVec 16) : Bool :=
  carries word rtDeviceFlagIntTx || carries word rtDeviceFlagDmaTx

/-- There is a structure exactly if the flags say so. -/
structure FlagsMatch (d : Serial) : Prop where
  rx : d.2.serialRx.isSome = rxFlag d.1.openFlag
  tx : d.2.serialTx.isSome = txFlag d.1.openFlag

/-- Nothing is left of what the opens have made. -/
structure Closed (d : Serial) : Prop where
  rx : d.2.serialRx = none
  tx : d.2.serialTx = none
  allocated : d.2.allocated = 0
  queues : d.2.queues = 0
  intRx : d.2.intRx = false
  dmaRx : d.2.dmaRx = false
  intTx : d.2.intTx = false

/-- The close that matches the last open. -/
def LastClose (d : Serial) : Event → Prop
  | .close => d.1.refCount = 1
  | _ => False

/-- The flags match behind every step, and a last close leaves nothing. -/
def Lifetime (d : Serial) (e : Event) : Prop := ∀ d', step d e = some d' →
  FlagsMatch d' ∧ (LastClose d e → Closed d')

/-- An open that does not come to the driver, or that the driver refuses. -/
def Refused (d : Serial) (oflag : BitVec 16) : Prop :=
  Busy d.1 ∨ unsupported d.1.flag oflag = true

/-- An open asks again for what is there. The last close finds the interrupts that are on in the
flags, and no data queue has been made. -/
def Recorded (d : Serial) : Event → Prop
  | .open oflag _ _ => ¬Refused d oflag →
    (d.2.serialRx ≠ none → rxFlag oflag = true) ∧ (d.2.serialTx ≠ none → txFlag oflag = true)
  | .close => d.1.refCount = 1 →
    (d.2.intRx = true → carries d.1.openFlag rtDeviceFlagIntRx = true) ∧
    (d.2.dmaRx = true → carries d.1.openFlag rtDeviceFlagDmaRx = true) ∧
    (d.2.intTx = true → carries d.1.openFlag rtDeviceFlagIntTx = true) ∧ d.2.queues = 0

theorem carries_or (a b flag : BitVec 16) :
    carries (a ||| b) flag = (carries a flag || carries b flag) := by
  have hor : (a ||| b) &&& flag = (a &&& flag) ||| (b &&& flag) := by
    rw [BitVec.and_comm, BitVec.and_or_distrib_left, BitVec.and_comm flag, BitVec.and_comm flag]
  rw [Bool.eq_iff_iff, Bool.or_eq_true]
  unfold carries
  rw [hor, bne_iff_ne, bne_iff_ne, bne_iff_ne, ← Decidable.not_and_iff_not_or_not]
  exact not_congr BitVec.or_eq_zero_iff

theorem carries_and (word mask flag : BitVec 16) :
    carries (word &&& mask) flag = carries word (mask &&& flag) := by
  unfold carries
  rw [BitVec.and_assoc]

theorem carries_zero (word : BitVec 16) : carries word 0 = false := by
  unfold carries
  rw [BitVec.ofNat_eq_ofNat, BitVec.and_zero]
  rfl

/-! ## Opens -/

/-- The receive flag that an open sets. -/
def rxWord (oflag : BitVec 16) : BitVec 16 :=
  if carries oflag rtDeviceFlagDmaRx then rtDeviceFlagDmaRx
  else if carries oflag rtDeviceFlagIntRx then rtDeviceFlagIntRx
  else 0

def txWord (oflag : BitVec 16) : BitVec 16 :=
  if carries oflag rtDeviceFlagDmaTx then rtDeviceFlagDmaTx
  else if carries oflag rtDeviceFlagIntTx then rtDeviceFlagIntTx
  else 0

/-- What the receive part of an open does. -/
structure OpensRx (d d' : Serial) (oflag : BitVec 16) : Prop where
  device : d'.1 = { d.1 with openFlag := d.1.openFlag ||| rxWord oflag }
  tx : d'.2.serialTx = d.2.serialTx
  rx : d'.2.serialRx.isSome = (d.2.serialRx.isSome || rxFlag oflag)
  allocated : d'.2.allocated = d.2.allocated + (!d.2.serialRx.isSome && rxFlag oflag).toNat

theorem openRx_spec (d : Serial) (oflag : BitVec 16) : OpensRx d (openRx d oflag) oflag := by
  have hnot : ∀ {o : Option Structure}, ¬o = none → o.isSome = true := fun h =>
    Option.isSome_iff_ne_none.mpr h
  cases hdma : carries oflag rtDeviceFlagDmaRx with
  | true =>
    have hword : rxWord oflag = rtDeviceFlagDmaRx := if_pos hdma
    have hflag : rxFlag oflag = true := by rw [rxFlag, hdma, Bool.or_true]
    unfold openRx
    split
    · rename_i hnone
      split <;> exact ⟨by rw [hword]; rfl, rfl, by rw [hnone, hflag]; rfl,
        by rw [hnone, hflag]; rfl⟩
    · rename_i hsome
      exact ⟨by rw [hword]; rfl, rfl, by rw [hnot hsome, hflag]; exact hnot hsome,
        by rw [hnot hsome, hflag]; rfl⟩
  | false =>
    cases hint : carries oflag rtDeviceFlagIntRx with
    | true =>
      have hword : rxWord oflag = rtDeviceFlagIntRx := by simp [rxWord, hdma, hint]
      have hflag : rxFlag oflag = true := by rw [rxFlag, hint, Bool.true_or]
      unfold openRx
      simp only [hdma, hint, Bool.false_eq_true, if_false, if_true]
      split
      · rename_i hnone
        exact ⟨by rw [hword]; rfl, rfl, by rw [hnone, hflag]; rfl, by rw [hnone, hflag]; rfl⟩
      · rename_i hsome
        exact ⟨by rw [hword]; rfl, rfl, by rw [hnot hsome, hflag]; exact hnot hsome,
          by rw [hnot hsome, hflag]; rfl⟩
    | false =>
      have hword : rxWord oflag = 0 := by simp [rxWord, hdma, hint]
      have hflag : rxFlag oflag = false := by rw [rxFlag, hdma, hint]; rfl
      have hopen : openRx d oflag = d := by
        unfold openRx
        rw [hdma, hint]
        split <;> rfl
      rw [hopen]
      refine ⟨?_, rfl, by rw [hflag, Bool.or_false], by rw [hflag, Bool.and_false]; rfl⟩
      rw [hword, BitVec.ofNat_eq_ofNat, BitVec.or_zero]

/-- What the transmit part does. -/
structure OpensTx (d d' : Serial) (oflag : BitVec 16) : Prop where
  device : d'.1 = { d.1 with openFlag := d.1.openFlag ||| txWord oflag }
  rx : d'.2.serialRx = d.2.serialRx
  tx : d'.2.serialTx.isSome = (d.2.serialTx.isSome || txFlag oflag)
  allocated : d'.2.allocated = d.2.allocated + (!d.2.serialTx.isSome && txFlag oflag).toNat

theorem openTx_spec (memory : Bool) (d : Serial) (oflag : BitVec 16) :
    OpensTx d (openTx memory d oflag) oflag := by
  have hnot : ∀ {o : Option Structure}, ¬o = none → o.isSome = true := fun h =>
    Option.isSome_iff_ne_none.mpr h
  cases hdma : carries oflag rtDeviceFlagDmaTx with
  | true =>
    have hword : txWord oflag = rtDeviceFlagDmaTx := if_pos hdma
    have hflag : txFlag oflag = true := by rw [txFlag, hdma, Bool.or_true]
    unfold openTx
    rw [if_pos hdma, if_pos hdma]
    split
    · rename_i hnone
      exact ⟨by rw [hword]; rfl, rfl, by rw [hnone, hflag]; rfl, by rw [hnone, hflag]; rfl⟩
    · rename_i hsome
      exact ⟨by rw [hword]; rfl, rfl, by rw [hnot hsome, hflag]; exact hnot hsome,
        by rw [hnot hsome, hflag]; rfl⟩
  | false =>
    cases hint : carries oflag rtDeviceFlagIntTx with
    | true =>
      have hword : txWord oflag = rtDeviceFlagIntTx := by simp [txWord, hdma, hint]
      have hflag : txFlag oflag = true := by rw [txFlag, hint, Bool.true_or]
      unfold openTx
      simp only [hdma, hint, Bool.false_eq_true, if_false, if_true]
      split
      · rename_i hnone
        exact ⟨by rw [hword]; rfl, rfl, by rw [hnone, hflag]; rfl, by rw [hnone, hflag]; rfl⟩
      · rename_i hsome
        exact ⟨by rw [hword]; rfl, rfl, by rw [hnot hsome, hflag]; exact hnot hsome,
          by rw [hnot hsome, hflag]; rfl⟩
    | false =>
      have hword : txWord oflag = 0 := by simp [txWord, hdma, hint]
      have hflag : txFlag oflag = false := by rw [txFlag, hdma, hint]; rfl
      have hopen : openTx memory d oflag = d := by
        unfold openTx
        rw [hdma, hint]
        split <;> rfl
      rw [hopen]
      refine ⟨?_, rfl, by rw [hflag, Bool.or_false], by rw [hflag, Bool.and_false]; rfl⟩
      rw [hword, BitVec.ofNat_eq_ofNat, BitVec.or_zero]

/-- Of the two modes of a direction that are asked for, the one that is set. -/
theorem mode_cases (oflag int dma : BitVec 16) :
    let word := if carries oflag dma then dma else if carries oflag int then int else 0
    (carries oflag int || carries oflag dma) = true ∧ (word = dma ∨ word = int) ∨
      (carries oflag int || carries oflag dma) = false ∧ word = 0 := by
  cases carries oflag dma with
  | true => exact .inl ⟨Bool.or_true _, .inl rfl⟩
  | false =>
    cases carries oflag int with
    | true => exact .inl ⟨rfl, .inr rfl⟩
    | false => exact .inr ⟨rfl, rfl⟩

theorem rxWord_cases (oflag : BitVec 16) :
    rxFlag oflag = true ∧ (rxWord oflag = rtDeviceFlagDmaRx ∨ rxWord oflag = rtDeviceFlagIntRx) ∨
      rxFlag oflag = false ∧ rxWord oflag = 0 := mode_cases oflag _ _

theorem txWord_cases (oflag : BitVec 16) :
    txFlag oflag = true ∧ (txWord oflag = rtDeviceFlagDmaTx ∨ txWord oflag = rtDeviceFlagIntTx) ∨
      txFlag oflag = false ∧ txWord oflag = 0 := mode_cases oflag _ _

/-- The flags have one mode for each direction at most. -/
structure OneMode (word : BitVec 16) : Prop where
  rx : carries word rtDeviceFlagIntRx = true → carries word rtDeviceFlagDmaRx = false
  tx : carries word rtDeviceFlagIntTx = true → carries word rtDeviceFlagDmaTx = false

instance (word : BitVec 16) : Decidable (OneMode word) :=
  decidable_of_iff (_ ∧ _) ⟨fun ⟨hrx, htx⟩ => ⟨hrx, htx⟩, fun h => ⟨h.rx, h.tx⟩⟩

theorem noFlags : rxFlag 0 = false ∧ txFlag 0 = false ∧ OneMode 0 := by decide

/-- The flags that an open leaves: its own modes, one for each direction. -/
theorem openFlag_spec (oflag : BitVec 16) {streamFlag : BitVec 16}
    (hstream : streamFlag = rtDeviceFlagStream ∨ streamFlag = 0) :
    let word := (oflag &&& 0xff) ||| rxWord oflag ||| txWord oflag ||| streamFlag
    rxFlag word = rxFlag oflag ∧ txFlag word = txFlag oflag ∧ OneMode word := by
  have hlow : ∀ flag rest, 0xff &&& flag = (0 : BitVec 16) →
      carries ((oflag &&& 0xff) ||| rest) flag = carries rest flag := fun flag rest h => by
    rw [carries_or, carries_and, h, carries_zero, Bool.false_or]
  have hrx : ∀ rest, rxFlag ((oflag &&& 0xff) ||| rest) = rxFlag rest := fun rest => by
    rw [rxFlag, hlow _ rest rfl, hlow _ rest rfl, rxFlag]
  have htx : ∀ rest, txFlag ((oflag &&& 0xff) ||| rest) = txFlag rest := fun rest => by
    rw [txFlag, hlow _ rest rfl, hlow _ rest rfl, txFlag]
  have hone : ∀ rest, OneMode rest → OneMode ((oflag &&& 0xff) ||| rest) := fun rest h => by
    refine ⟨?_, ?_⟩
    · rw [hlow _ rest rfl, hlow _ rest rfl]
      exact h.rx
    · rw [hlow _ rest rfl, hlow _ rest rfl]
      exact h.tx
  -- what is left are constants
  dsimp only
  rw [BitVec.or_assoc, BitVec.or_assoc, hrx, htx]
  suffices h : rxFlag (rxWord oflag ||| (txWord oflag ||| streamFlag)) = rxFlag oflag ∧
      txFlag (rxWord oflag ||| (txWord oflag ||| streamFlag)) = txFlag oflag ∧
      OneMode (rxWord oflag ||| (txWord oflag ||| streamFlag)) from ⟨h.1, h.2.1, hone _ h.2.2⟩
  rcases rxWord_cases oflag with ⟨hr, hrw | hrw⟩ | ⟨hr, hrw⟩ <;>
    rcases txWord_cases oflag with ⟨ht, htw | htw⟩ | ⟨ht, htw⟩ <;>
      rcases hstream with rfl | rfl <;> rw [hr, hrw, ht, htw] <;> decide

/-- What an open does that the driver takes. -/
structure Opened (d d' : Serial) (oflag : BitVec 16) : Prop where
  rx : d'.2.serialRx.isSome = (d.2.serialRx.isSome || rxFlag oflag)
  tx : d'.2.serialTx.isSome = (d.2.serialTx.isSome || txFlag oflag)
  allocated : d'.2.allocated = d.2.allocated +
    ((!d.2.serialRx.isSome && rxFlag oflag).toNat + (!d.2.serialTx.isSome && txFlag oflag).toNat)
  rxMode : rxFlag d'.1.openFlag = rxFlag oflag
  txMode : txFlag d'.1.openFlag = txFlag oflag
  oneMode : OneMode d'.1.openFlag

theorem open_supported {memory : Bool} {d d' : Serial} {oflag : BitVec 16} {result : Result}
    (h : rtSerialOpen memory d oflag = (d', result)) (hsup : unsupported d.1.flag oflag = false) :
    result = .eok ∧ d'.1.flag = d.1.flag ∧ Opened d d' oflag := by
  unfold rtSerialOpen at h
  rw [hsup, if_neg nofun] at h
  dsimp only at h
  obtain ⟨rfl, rfl⟩ := Prod.mk.inj h
  have hr := openRx_spec ({ d.1 with openFlag := oflag &&& 0xff }, d.2) oflag
  have ht := openTx_spec memory (openRx ({ d.1 with openFlag := oflag &&& 0xff }, d.2) oflag) oflag
  generalize openRx ({ d.1 with openFlag := oflag &&& 0xff }, d.2) oflag = d₁ at hr ht
  generalize openTx memory d₁ oflag = d₂ at ht
  dsimp only at hr
  have hstream : ∀ c : Prop, [Decidable c] →
      (if c then rtDeviceFlagStream else 0) = rtDeviceFlagStream ∨
      (if c then rtDeviceFlagStream else 0) = 0 := fun c _ => by split <;> simp
  obtain ⟨hrx, htx, hone⟩ := openFlag_spec oflag
    (hstream (carries oflag rtDeviceFlagStream ∨ carries d.1.openFlag rtDeviceFlagStream))
  have hdevice : d₂.1 = { d.1 with
      openFlag := (oflag &&& 0xff) ||| rxWord oflag ||| txWord oflag } := by
    rw [ht.device, hr.device]
  refine ⟨rfl, ?_, ?_, ?_, ?_, ?_, ?_, ?_⟩
  · change d₂.1.flag = d.1.flag
    rw [hdevice]
  · exact (congrArg Option.isSome ht.rx).trans hr.rx
  · exact ht.tx.trans (by rw [hr.tx])
  · refine ht.allocated.trans ?_
    rw [hr.allocated, hr.tx, Nat.add_assoc]
  · unfold orFlag
    rw [hdevice]
    exact hrx
  · unfold orFlag
    rw [hdevice]
    exact htx
  · unfold orFlag
    rw [hdevice]
    exact hone

/-! ## What every step keeps -/

/-- What holds while every step is recorded. -/
structure Inv (d : Serial) : Prop where
  flags : FlagsMatch d
  oneMode : OneMode d.1.openFlag
  allocated : d.2.allocated = d.2.serialRx.isSome.toNat + d.2.serialTx.isSome.toNat
  fresh : d.1.flag &&& rtDeviceFlagActivated = 0 → d.2.serialRx = none ∧ d.2.serialTx = none

/-- A step that changes neither the flags nor the structures. -/
structure Unchanged (d d' : Serial) : Prop where
  openFlag : d'.1.openFlag = d.1.openFlag
  serial : d'.2 = d.2
  activated : d'.1.flag &&& rtDeviceFlagActivated = 0 → d.1.flag &&& rtDeviceFlagActivated = 0

section
variable {d d' : Serial} {oflag : BitVec 16} {configure : Result} {memory : Bool}

theorem Inv.unchanged (h : Inv d) (hsame : Unchanged d d') : Inv d' := by
  obtain ⟨hflags, hone, hallocated, hfresh⟩ := h
  refine ⟨⟨?_, ?_⟩, ?_, ?_, ?_⟩
  · rw [hsame.serial, hsame.openFlag]
    exact hflags.rx
  · rw [hsame.serial, hsame.openFlag]
    exact hflags.tx
  · rw [hsame.openFlag]
    exact hone
  · rw [hsame.serial]
    exact hallocated
  · rw [hsame.serial]
    exact fun h => hfresh (hsame.activated h)

theorem rtSerialInit_eq (hrx : d.2.serialRx = none) (htx : d.2.serialTx = none) :
    rtSerialInit configure d = (d, configure) := by
  obtain ⟨dev, serial⟩ := d
  obtain ⟨⟩ := serial
  dsimp only at hrx htx
  subst hrx htx
  rfl

/-- Initializing leaves alone what a device that is not initialized has. -/
theorem Inv.activate (h : Inv d) {result : Result}
    (hact : activate (serialOps configure memory) d = some (d', result)) :
    Unchanged d d' ∧ (result ≠ .eok → d.2.serialRx = none ∧ d.2.serialTx = none) ∧
      (d'.1.flag = d.1.flag ∨ d'.1.flag = d.1.flag ||| rtDeviceFlagActivated) ∧
      (result = .eok → d'.1.flag &&& rtDeviceFlagActivated ≠ 0) := by
  unfold Kernel.Device.activate at hact
  split at hact
  · rename_i hnot
    obtain ⟨hrx, htx⟩ := h.fresh hnot
    have hinit : rtSerialInit configure d = (d, configure) := rtSerialInit_eq hrx htx
    have hset : (d.1.flag ||| rtDeviceFlagActivated) &&& rtDeviceFlagActivated ≠ 0 := by
      have hcarries := carries_or d.1.flag rtDeviceFlagActivated rtDeviceFlagActivated
      have hself : carries rtDeviceFlagActivated rtDeviceFlagActivated = true := by decide
      rw [hself, Bool.or_true] at hcarries
      exact bne_iff_ne.mp hcarries
    dsimp only [serialOps, Option.map] at hact
    rw [hinit] at hact
    dsimp only at hact
    split at hact
    · obtain ⟨rfl, rfl⟩ := Prod.mk.inj (Option.some.inj hact)
      exact ⟨⟨rfl, rfl, fun _ => hnot⟩, fun hne => absurd rfl hne, .inr rfl, fun _ => hset⟩
    · rename_i hne
      obtain ⟨rfl, rfl⟩ := Prod.mk.inj (Option.some.inj hact)
      exact ⟨⟨rfl, rfl, id⟩, fun _ => ⟨hrx, htx⟩, .inl rfl, fun heok => absurd heok hne⟩
  · rename_i hyes
    obtain ⟨rfl, rfl⟩ := Prod.mk.inj (Option.some.inj hact)
    exact ⟨⟨rfl, rfl, id⟩, fun hne => absurd rfl hne, .inl rfl, fun _ => hyes⟩

/-- Whether an open is refused does not depend on the device being initialized. -/
theorem refused_iff (hopen : d'.1.openFlag = d.1.openFlag)
    (hflag : d'.1.flag = d.1.flag ∨ d'.1.flag = d.1.flag ||| rtDeviceFlagActivated) :
    Refused d' oflag ↔ Refused d oflag := by
  have hsame : ∀ mode, carries rtDeviceFlagActivated mode = false →
      carries d'.1.flag mode = carries d.1.flag mode := fun mode hmode => by
    rcases hflag with h | h
    · rw [h]
    · rw [h, carries_or, hmode, Bool.or_false]
  have hstandalone : d'.1.flag &&& rtDeviceFlagStandalone ≠ 0 ↔
      d.1.flag &&& rtDeviceFlagStandalone ≠ 0 := by
    rw [← bne_iff_ne, ← bne_iff_ne]
    exact iff_of_eq (congrArg (· = true) (hsame rtDeviceFlagStandalone (by decide)))
  unfold Refused Busy unsupported
  simp only [hopen, hstandalone, List.any_cons, List.any_nil,
    hsame rtDeviceFlagDmaRx (by decide), hsame rtDeviceFlagDmaTx (by decide),
    hsame rtDeviceFlagIntRx (by decide), hsame rtDeviceFlagIntTx (by decide)]

/-- The count does not touch what the driver has done. -/
theorem counted_eq {d₂ : Serial} (h : countOpen d₂ .eok = some (d', .eok)) :
    d'.2 = d₂.2 ∧ d'.1.flag = d₂.1.flag ∧ d'.1.openFlag = d₂.1.openFlag ||| rtDeviceOflagOpen := by
  unfold countOpen at h
  rw [if_pos (.inl rfl)] at h
  split at h
  · cases h
  · obtain ⟨rfl, -⟩ := Prod.mk.inj (Option.some.inj h)
    exact ⟨rfl, rfl, rfl⟩

theorem Opened.counted {d₁ d₂ : Serial} (h : Opened d₁ d₂ oflag) (hsame : d₁.2 = d.2)
    (hcounted : countOpen d₂ .eok = some (d', .eok)) : Opened d d' oflag := by
  obtain ⟨hserial, -, hopen⟩ := counted_eq hcounted
  have hmode : ∀ mode, carries rtDeviceOflagOpen mode = false →
      carries d'.1.openFlag mode = carries d₂.1.openFlag mode := fun mode h => by
    rw [hopen, carries_or, h, Bool.or_false]
  refine ⟨?_, ?_, ?_, ?_, ?_, ⟨?_, ?_⟩⟩
  · rw [hserial, h.rx, hsame]
  · rw [hserial, h.tx, hsame]
  · rw [hserial, h.allocated, hsame]
  · refine Eq.trans ?_ h.rxMode
    rw [rxFlag, hmode _ (by decide), hmode _ (by decide), rxFlag]
  · refine Eq.trans ?_ h.txMode
    rw [txFlag, hmode _ (by decide), hmode _ (by decide), txFlag]
  · rw [hmode _ (by decide), hmode _ (by decide)]
    exact h.oneMode.rx
  · rw [hmode _ (by decide), hmode _ (by decide)]
    exact h.oneMode.tx

/-- The driver takes an open, or it changes nothing: then it is refused, or nothing has been made
yet. -/
theorem Inv.step_open (h : Inv d) (hstep : step d (.open oflag configure memory) = some d') :
    (¬Refused d oflag ∧ Opened d d' oflag ∧ d'.1.flag &&& rtDeviceFlagActivated ≠ 0) ∨
    (Unchanged d d' ∧ (Refused d oflag ∨ d.2.serialRx = none ∧ d.2.serialTx = none)) := by
  obtain ⟨⟨d₀, result⟩, hopen, rfl⟩ := Option.map_eq_some_iff.mp hstep
  obtain ⟨d₁, result₁, hact, hcase⟩ := open_cases hopen
  obtain ⟨hsame, hfail, hflag, hset⟩ := h.activate hact
  have hrefused : Refused d₁ oflag ↔ Refused d oflag := refused_iff hsame.openFlag hflag
  rcases hcase with ⟨rfl, hne | hbusy⟩ | ⟨heok, hidle, d₂, hcall, hcounted⟩
  · exact .inr ⟨hsame, .inr (hfail hne)⟩
  · exact .inr ⟨hsame, .inl (hrefused.mp (.inl hbusy))⟩
  · have hdriver : rtSerialOpen memory d₁ oflag = (d₂, result) := Option.some.inj hcall
    cases hsup : unsupported d₁.1.flag oflag with
    | true =>
      have hsame₂ : (d₁, Result.eio) = (d₂, result) := by
        rw [← hdriver, rtSerialOpen, hsup]
        rfl
      obtain ⟨rfl, rfl⟩ := Prod.mk.inj hsame₂
      obtain rfl : d₁ = d₀ := congrArg Prod.fst (Option.some.inj hcounted)
      exact .inr ⟨hsame, .inl (hrefused.mp (.inr hsup))⟩
    | false =>
      obtain ⟨rfl, hflag₂, hopened⟩ := open_supported hdriver hsup
      refine .inl ⟨fun h => ?_, hopened.counted hsame.serial hcounted, ?_⟩
      · rcases hrefused.mpr h with h | h
        · exact hidle h
        · rw [hsup] at h
          cases h
      · rw [(counted_eq hcounted).2.1, hflag₂]
        exact hset heok

/-- After an open the flags match exactly if it asked for what there was. -/
theorem Opened.flagsMatch_iff (h : Opened d d' oflag) : FlagsMatch d' ↔
    (d.2.serialRx ≠ none → rxFlag oflag = true) ∧ (d.2.serialTx ≠ none → txFlag oflag = true) := by
  have hor : ∀ a b : Bool, ((a || b) = b) ↔ (a = true → b = true) := by decide
  rw [← Option.isSome_iff_ne_none, ← Option.isSome_iff_ne_none, ← hor, ← hor, ← h.rx, ← h.tx,
    ← h.rxMode, ← h.txMode]
  exact ⟨fun hm => ⟨hm.rx, hm.tx⟩, fun hm => ⟨hm.1, hm.2⟩⟩

theorem Inv.opened (h : Inv d) (hopened : Opened d d' oflag) (hmatch : FlagsMatch d')
    (hactivated : d'.1.flag &&& rtDeviceFlagActivated ≠ 0) : Inv d' := by
  refine ⟨hmatch, hopened.oneMode, ?_, fun h0 => absurd h0 hactivated⟩
  have hadd : ∀ a b : Bool, a.toNat + (!a && b).toNat = (a || b).toNat := by decide
  rw [hopened.allocated, h.allocated, hopened.rx, hopened.tx, ← hadd, ← hadd]
  omega

/-! ## Closes -/

/-- What the receive part of a close does. -/
structure ClosesRx (d d' : Serial) : Prop where
  openFlag : ∀ mode, mode = rtDeviceFlagIntTx ∨ mode = rtDeviceFlagDmaTx →
    carries d'.1.openFlag mode = carries d.1.openFlag mode
  flag : d'.1.flag = d.1.flag
  serial : d'.2 = { d.2 with
    serialRx := if rxFlag d.1.openFlag then none else d.2.serialRx
    allocated := if rxFlag d.1.openFlag then d.2.allocated - 1 else d.2.allocated
    intRx := d.2.intRx && !carries d.1.openFlag rtDeviceFlagIntRx
    dmaRx := d.2.dmaRx &&
      (carries d.1.openFlag rtDeviceFlagIntRx || !carries d.1.openFlag rtDeviceFlagDmaRx) }

theorem closeRx_spec (h : closeRx d = some d') : ClosesRx d d' := by
  have hkeep : ∀ flag mode : BitVec 16, ~~~flag &&& mode = mode →
      carries (d.1.openFlag &&& ~~~flag) mode = carries d.1.openFlag mode := fun flag mode h => by
    rw [carries_and, h]
  unfold closeRx at h
  cases hint : carries d.1.openFlag rtDeviceFlagIntRx with
  | true =>
    have hflag : rxFlag d.1.openFlag = true := by rw [rxFlag, hint, Bool.true_or]
    rw [if_pos hint] at h
    obtain ⟨x, -, rfl⟩ := Option.map_eq_some_iff.mp h
    refine ⟨?_, rfl, ?_⟩
    · rintro mode (rfl | rfl)
      · exact hkeep _ _ (by decide)
      · exact hkeep _ _ (by decide)
    · rw [hflag, hint, Bool.not_true, Bool.and_false, Bool.true_or, Bool.and_true]
      rfl
  | false =>
    rw [if_neg (by rw [hint]; nofun)] at h
    cases hdma : carries d.1.openFlag rtDeviceFlagDmaRx with
    | true =>
      have hflag : rxFlag d.1.openFlag = true := by rw [rxFlag, hdma, Bool.or_true]
      rw [if_pos hdma] at h
      obtain ⟨x, -, rfl⟩ := Option.map_eq_some_iff.mp h
      refine ⟨?_, rfl, ?_⟩
      · rintro mode (rfl | rfl)
        · exact hkeep _ _ (by decide)
        · exact hkeep _ _ (by decide)
      · rw [hflag, hint, hdma, Bool.not_true, Bool.or_self, Bool.and_false, Bool.not_false,
          Bool.and_true]
        rfl
    | false =>
      have hflag : rxFlag d.1.openFlag = false := by rw [rxFlag, hint, hdma]; rfl
      rw [if_neg (by rw [hdma]; nofun)] at h
      obtain rfl := Option.some.inj h
      refine ⟨fun _ _ => rfl, rfl, ?_⟩
      rw [hflag, hint, hdma, Bool.not_false, Bool.or_true, Bool.and_true, Bool.and_true]
      rfl

/-- What the transmit part does. -/
structure ClosesTx (d d' : Serial) : Prop where
  flag : d'.1.flag = d.1.flag
  serial : d'.2 = { d.2 with
    serialTx := if txFlag d.1.openFlag then none else d.2.serialTx
    allocated := if txFlag d.1.openFlag then d.2.allocated - 1 else d.2.allocated
    intTx := d.2.intTx && !carries d.1.openFlag rtDeviceFlagIntTx }

theorem closeTx_spec (h : closeTx d = some d') : ClosesTx d d' := by
  unfold closeTx at h
  cases hint : carries d.1.openFlag rtDeviceFlagIntTx with
  | true =>
    have hflag : txFlag d.1.openFlag = true := by rw [txFlag, hint, Bool.true_or]
    rw [if_pos hint] at h
    obtain ⟨x, -, rfl⟩ := Option.map_eq_some_iff.mp h
    refine ⟨rfl, ?_⟩
    rw [hflag, hint, Bool.not_true, Bool.and_false]
    rfl
  | false =>
    rw [if_neg (by rw [hint]; nofun)] at h
    cases hdma : carries d.1.openFlag rtDeviceFlagDmaTx with
    | true =>
      have hflag : txFlag d.1.openFlag = true := by rw [txFlag, hdma, Bool.or_true]
      rw [if_pos hdma] at h
      obtain ⟨x, -, rfl⟩ := Option.map_eq_some_iff.mp h
      refine ⟨rfl, ?_⟩
      rw [hflag, hint, Bool.not_false, Bool.and_true]
      rfl
    | false =>
      have hflag : txFlag d.1.openFlag = false := by rw [txFlag, hint, hdma]; rfl
      rw [if_neg (by rw [hdma]; nofun)] at h
      obtain rfl := Option.some.inj h
      refine ⟨rfl, ?_⟩
      rw [hflag, hint, Bool.not_false, Bool.and_true]
      rfl

/-- What the last close does to a device whose flags match. -/
structure LastClosed (d d' : Serial) : Prop where
  openFlag : d'.1.openFlag = 0
  flag : d'.1.flag = d.1.flag
  serial : d'.2 = { d.2 with
    serialRx := none
    serialTx := none
    allocated := 0
    intRx := d.2.intRx && !carries d.1.openFlag rtDeviceFlagIntRx
    dmaRx := d.2.dmaRx && !carries d.1.openFlag rtDeviceFlagDmaRx
    intTx := d.2.intTx && !carries d.1.openFlag rtDeviceFlagIntTx }

/-- A close is refused, or only counted, or is the last one. -/
theorem Inv.step_close (h : Inv d) (hstep : step d .close = some d') :
    (d.1.refCount ≠ 1 ∧ Unchanged d d') ∨ (d.1.refCount = 1 ∧ LastClosed d d') := by
  obtain ⟨⟨d₀, result⟩, hclose, rfl⟩ := Option.map_eq_some_iff.mp hstep
  rcases close_cases hclose with ⟨hzero, rfl⟩ | ⟨-, hne, rfl⟩ | ⟨hone, d₁, hcall, hd₀⟩
  · exact .inl ⟨by rw [hzero]; decide, rfl, rfl, id⟩
  · exact .inl ⟨hne, rfl, rfl, id⟩
  · refine .inr ⟨hone, ?_⟩
    have hdriver : rtSerialClose ({ d.1 with refCount := 0 }, d.2) = some (d₁, result) := hcall
    unfold rtSerialClose at hdriver
    rw [if_neg (show ¬(0 : BitVec 8) > 1 by decide)] at hdriver
    obtain ⟨d₂, hparts, heq⟩ := Option.map_eq_some_iff.mp hdriver
    obtain ⟨rfl, rfl⟩ := Prod.mk.inj heq
    obtain ⟨d₃, hrx, htx⟩ := Option.bind_eq_some_iff.mp hparts
    have hr := closeRx_spec hrx
    have ht := closeTx_spec htx
    rw [if_pos (.inl rfl)] at hd₀
    subst hd₀
    refine ⟨rfl, ht.flag.trans hr.flag, ?_⟩
    have hint := hr.openFlag _ (.inl rfl)
    have htxFlag : txFlag d₃.1.openFlag = txFlag d.1.openFlag := by
      rw [txFlag, hint, hr.openFlag _ (.inr rfl), txFlag]
    have hserialRx : (if rxFlag d.1.openFlag = true then none else d.2.serialRx) = none := by
      rw [← h.flags.rx]
      cases d.2.serialRx <;> rfl
    have hserialTx : (if txFlag d.1.openFlag = true then none else d.2.serialTx) = none := by
      rw [← h.flags.tx]
      cases d.2.serialTx <;> rfl
    have hallocated : (if txFlag d.1.openFlag = true then
        (if rxFlag d.1.openFlag = true then d.2.allocated - 1 else d.2.allocated) - 1
        else if rxFlag d.1.openFlag = true then d.2.allocated - 1 else d.2.allocated) = 0 := by
      rw [h.allocated, ← h.flags.rx, ← h.flags.tx]
      cases d.2.serialRx <;> cases d.2.serialTx <;> rfl
    have hdma : (carries d.1.openFlag rtDeviceFlagIntRx ||
        !carries d.1.openFlag rtDeviceFlagDmaRx) = !carries d.1.openFlag rtDeviceFlagDmaRx := by
      cases hintRx : carries d.1.openFlag rtDeviceFlagIntRx with
      | true =>
        rw [h.oneMode.rx hintRx]
        rfl
      | false => rfl
    change d₂.2 = _
    rw [ht.serial, hr.serial, htxFlag, hint]
    dsimp only
    rw [hserialRx, hserialTx, hallocated, hdma]

theorem Inv.lastClosed (h : LastClosed d d') : Inv d' := by
  obtain ⟨hopen, -, hserial⟩ := h
  obtain ⟨hrx, htx, hone⟩ := noFlags
  refine ⟨⟨?_, ?_⟩, hopen ▸ hone, ?_, fun _ => ?_⟩
  · rw [hserial, hopen, hrx]
    rfl
  · rw [hserial, hopen, htx]
    rfl
  · rw [hserial]
    rfl
  · rw [hserial]
    exact ⟨rfl, rfl⟩

theorem LastClosed.closed_iff (h : LastClosed d d') : Closed d' ↔
    (d.2.intRx = true → carries d.1.openFlag rtDeviceFlagIntRx = true) ∧
    (d.2.dmaRx = true → carries d.1.openFlag rtDeviceFlagDmaRx = true) ∧
    (d.2.intTx = true → carries d.1.openFlag rtDeviceFlagIntTx = true) ∧ d.2.queues = 0 := by
  have himp : ∀ a b : Bool, ((a && !b) = false) ↔ (a = true → b = true) := by decide
  rw [← himp, ← himp, ← himp]
  constructor
  · rintro ⟨-, -, -, hqueues, hint, hdma, htx⟩
    rw [h.serial] at hqueues hint hdma htx
    exact ⟨hint, hdma, htx, hqueues⟩
  · rintro ⟨hint, hdma, htx, hqueues⟩
    have hserial := h.serial
    exact ⟨by rw [hserial], by rw [hserial], by rw [hserial], by rw [hserial]; exact hqueues,
      by rw [hserial]; exact hint, by rw [hserial]; exact hdma, by rw [hserial]; exact htx⟩

/-- A recorded step. -/
theorem Inv.step {e : Event} (h : Inv d) (hrecorded : Recorded d e)
    (hstep : step d e = some d') : Inv d' := by
  cases e with
  | «open» oflag configure memory =>
    rcases h.step_open hstep with ⟨hnot, hopened, hactivated⟩ | ⟨hsame, -⟩
    · exact h.opened hopened (hopened.flagsMatch_iff.mpr (hrecorded hnot)) hactivated
    · exact h.unchanged hsame
  | close =>
    rcases h.step_close hstep with ⟨-, hsame⟩ | ⟨-, hlast⟩
    · exact h.unchanged hsame
    · exact Inv.lastClosed hlast

/-- A step is as it should be exactly if it is recorded. -/
theorem Inv.lifetime_iff {e : Event} (h : Inv d) (hstep : SerialOpen.step d e = some d') :
    Lifetime d e ↔ Recorded d e := by
  have hlife : Lifetime d e ↔ FlagsMatch d' ∧ (LastClose d e → Closed d') := by
    refine ⟨fun hl => hl d' hstep, fun hl d₁ hd₁ => ?_⟩
    obtain rfl := Option.some.inj (hstep.symm.trans hd₁)
    exact hl
  rw [hlife]
  cases e with
  | «open» oflag configure memory =>
    rcases h.step_open hstep with ⟨hnot, hopened, -⟩ | ⟨hsame, hwhy⟩
    · rw [hopened.flagsMatch_iff]
      exact ⟨fun hl _ => hl.1, fun hr => ⟨hr hnot, nofun⟩⟩
    · refine iff_of_true ⟨(h.unchanged hsame).flags, nofun⟩ fun hnot => ?_
      obtain ⟨hrx, htx⟩ := hwhy.resolve_left hnot
      exact ⟨fun hne => absurd hrx hne, fun hne => absurd htx hne⟩
  | close =>
    rcases h.step_close hstep with ⟨hne, hsame⟩ | ⟨hone, hlast⟩
    · exact iff_of_true ⟨(h.unchanged hsame).flags, fun hone => absurd hone hne⟩
        fun hone => absurd hone hne
    · have hclosed := hlast.closed_iff
      exact ⟨fun hl _ => hclosed.mp (hl.2 hone),
        fun hr => ⟨(Inv.lastClosed hlast).flags, fun _ => hclosed.mpr (hr hone)⟩⟩

end

theorem inv_start (flag bufsz : BitVec 16) : Inv (start flag bufsz) :=
  ⟨⟨noFlags.1.symm, noFlags.2.1.symm⟩, noFlags.2.2, rfl, fun _ => ⟨rfl, rfl⟩⟩

/-- The flags match, and the last closes leave nothing, exactly in the runs whose steps are all
recorded. -/
theorem recorded_along_iff (flag bufsz : BitVec 16) (es : List Event) :
    Along step Lifetime (start flag bufsz) es ↔ Along step Recorded (start flag bufsz) es :=
  along_iff_along (fun _ _ _ h hrecorded hstep => h.step hrecorded hstep)
    (fun _ _ _ h hstep => h.lifetime_iff hstep) (inv_start flag bufsz) es

/-- A device is opened to receive by interrupt, and then for writing only: the structure is still
there, and no flag says so. -/
theorem second_open_forgets :
    ¬Along step Lifetime (start 0x503 64) [.open 0x103 .eok true, .open 0x002 .eok true] := by
  intro h
  have hrun : ((run step (start 0x503 64) [.open 0x103 .eok true, .open 0x002 .eok true]).map
      fun d => (d.2.serialRx.isSome, rxFlag d.1.openFlag)) = some (true, false) := by decide
  obtain ⟨d, hd, heq⟩ := Option.map_eq_some_iff.mp hrun
  obtain ⟨d₁, h₁, hd⟩ := Option.bind_eq_some_iff.mp hd
  obtain ⟨d₂, h₂, hd⟩ := Option.bind_eq_some_iff.mp hd
  obtain rfl := Option.some.inj hd
  obtain ⟨hrx, hflag⟩ := Prod.mk.inj heq
  have hmatch := (((h d₁ h₁).2 d₂ h₂).1 d₂ h₂).1.rx
  rw [hrx, hflag] at hmatch
  cases hmatch

end ControlRTT.Drivers.SerialOpen
