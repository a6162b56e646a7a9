/-! # The device layer (device.c)

`rt_device_open` and `rt_device_close` count the opens of a device and call its driver for the
first close of none: a driver is asked to close when the count is already zero
(`close_cases`). -/
namespace ControlRTT.Kernel.Device

/-- The codes that a driver and the layer return. -/
inductive Result where
  | eok
  | error
  | ebusy
  | eio
  | enosys
  deriving DecidableEq, Repr

structure RtDevice where
  flag : BitVec 16
  openFlag : BitVec 16 := 0
  refCount : BitVec 8 := 0
  deriving DecidableEq, Repr

/-! Flags of rtdef.h. -/

def rtDeviceFlagStandalone : BitVec 16 := 0x008

def rtDeviceFlagActivated : BitVec 16 := 0x010

def rtDeviceOflagClose : BitVec 16 := 0x000

def rtDeviceOflagOpen : BitVec 16 := 0x008

def rtDeviceOflagMask : BitVec 16 := 0xf0f

/-- The functions of a driver, if it has them. They may change the device and the rest of its
object, `σ`; the outer `none` is an assertion that fails. -/
structure RtDeviceOps (σ : Type) where
  deviceInit : Option (RtDevice × σ → Option ((RtDevice × σ) × Result)) := none
  deviceOpen : Option (RtDevice × σ → BitVec 16 → Option ((RtDevice × σ) × Result)) := none
  deviceClose : Option (RtDevice × σ → Option ((RtDevice × σ) × Result)) := none

section
variable {σ : Type} (ops : RtDeviceOps σ) (d : RtDevice × σ) (oflag : BitVec 16)

/-- A device that is not initialized is initialized by `rt_device_open`. -/
def activate : Option ((RtDevice × σ) × Result) :=
  if d.1.flag &&& rtDeviceFlagActivated = 0 then
    match ops.deviceInit with
    | none => some (({ d.1 with flag := d.1.flag ||| rtDeviceFlagActivated }, d.2), .eok)
    | some init => (init d).map fun (d, result) =>
      if result = .eok then
        (({ d.1 with flag := d.1.flag ||| rtDeviceFlagActivated }, d.2), .eok)
      else (d, result)
  else some (d, .eok)

/-- The call of the driver, or the flags without one. -/
def callOpen : Option ((RtDevice × σ) × Result) :=
  match ops.deviceOpen with
  | none => some (({ d.1 with openFlag := oflag &&& rtDeviceOflagMask }, d.2), .eok)
  | some driver => driver d oflag

/-- An open that has not failed is counted; the count is asserted not to wrap. -/
def countOpen (result : Result) : Option ((RtDevice × σ) × Result) :=
  if result = .eok ∨ result = .enosys then
    if d.1.refCount + 1 = 0 then none
    else some (({ d.1 with
      openFlag := d.1.openFlag ||| rtDeviceOflagOpen
      refCount := d.1.refCount + 1 }, d.2), result)
  else some (d, result)

def rtDeviceOpen : Option ((RtDevice × σ) × Result) :=
  (activate ops d).bind fun (d, result) =>
    if result ≠ .eok then some (d, result)
    else if d.1.flag &&& rtDeviceFlagStandalone ≠ 0 ∧ d.1.openFlag &&& rtDeviceOflagOpen ≠ 0 then
      some (d, .ebusy)
    else (callOpen ops d oflag).bind fun (d, result) => countOpen d result

def callClose : Option ((RtDevice × σ) × Result) :=
  match ops.deviceClose with
  | none => some (d, .eok)
  | some driver => driver d

def rtDeviceClose : Option ((RtDevice × σ) × Result) :=
  if d.1.refCount = 0 then some (d, .error)
  else
    let d := ({ d.1 with refCount := d.1.refCount - 1 }, d.2)
    if d.1.refCount ≠ 0 then some (d, .eok)
    else (callClose ops d).map fun (d, result) =>
      if result = .eok ∨ result = .enosys then
        (({ d.1 with openFlag := rtDeviceOflagClose }, d.2), result)
      else (d, result)

end

section
variable {σ : Type} {ops : RtDeviceOps σ} {d d' : RtDevice × σ} {oflag : BitVec 16}
  {result : Result}

/-- A close is refused, or is only counted, or is the last one: then the driver finds a count of
zero. -/
theorem close_cases (h : rtDeviceClose ops d = some (d', result)) :
    (d.1.refCount = 0 ∧ d' = d) ∨
    (d.1.refCount ≠ 0 ∧ d.1.refCount ≠ 1 ∧
      d' = ({ d.1 with refCount := d.1.refCount - 1 }, d.2)) ∨
    (d.1.refCount = 1 ∧ ∃ d₁, callClose ops ({ d.1 with refCount := 0 }, d.2) = some (d₁, result) ∧
      d' = if result = .eok ∨ result = .enosys then
        ({ d₁.1 with openFlag := rtDeviceOflagClose }, d₁.2) else d₁) := by
  unfold rtDeviceClose at h
  by_cases hzero : d.1.refCount = 0
  · rw [if_pos hzero] at h
    exact .inl ⟨hzero, congrArg Prod.fst (Option.some.inj h).symm⟩
  · rw [if_neg hzero] at h
    dsimp only at h
    by_cases hone : d.1.refCount = 1
    · rw [hone, if_neg (by decide)] at h
      obtain ⟨⟨d₁, result₁⟩, hcall, heq⟩ := Option.map_eq_some_iff.mp h
      refine .inr (.inr ⟨hone, d₁, ?_⟩)
      dsimp only at heq
      split at heq
      · rename_i hok
        obtain ⟨rfl, rfl⟩ := Prod.mk.inj heq
        exact ⟨hcall, (if_pos hok).symm⟩
      · rename_i hok
        obtain ⟨rfl, rfl⟩ := Prod.mk.inj heq
        exact ⟨hcall, (if_neg hok).symm⟩
    · rw [if_pos fun h0 => hone (by bv_omega)] at h
      exact .inr (.inl ⟨hzero, hone, congrArg Prod.fst (Option.some.inj h).symm⟩)

/-- A device of which there is to be one open only, and there is one. -/
def Busy (d : RtDevice) : Prop :=
  d.flag &&& rtDeviceFlagStandalone ≠ 0 ∧ d.openFlag &&& rtDeviceOflagOpen ≠ 0

/-- An open that is counted has called the driver; any other has not come so far, or leaves the
count as it is. -/
theorem open_cases (h : rtDeviceOpen ops d oflag = some (d', result)) :
    ∃ d₁ result₁, activate ops d = some (d₁, result₁) ∧
      ((d' = d₁ ∧ (result₁ ≠ .eok ∨ Busy d₁.1)) ∨
      (result₁ = .eok ∧ ¬Busy d₁.1 ∧ ∃ d₂, callOpen ops d₁ oflag = some (d₂, result) ∧
        countOpen d₂ result = some (d', result))) := by
  obtain ⟨⟨d₁, result₁⟩, hact, h⟩ := Option.bind_eq_some_iff.mp h
  refine ⟨d₁, result₁, hact, ?_⟩
  dsimp only at h
  split at h
  · rename_i hne
    obtain ⟨rfl, rfl⟩ := Prod.mk.inj (Option.some.inj h)
    exact .inl ⟨rfl, .inl hne⟩
  · rename_i heok
    rw [Decidable.not_not] at heok
    split at h
    · rename_i hbusy
      obtain ⟨rfl, rfl⟩ := Prod.mk.inj (Option.some.inj h)
      exact .inl ⟨rfl, .inr hbusy⟩
    · rename_i hidle
      obtain ⟨⟨d₂, result₂⟩, hcall, h⟩ := Option.bind_eq_some_iff.mp h
      have hsame : result = result₂ := by
        dsimp only at h
        unfold countOpen at h
        split at h
        · split at h
          · cases h
          · exact (Prod.mk.inj (Option.some.inj h)).2.symm
        · exact (Prod.mk.inj (Option.some.inj h)).2.symm
      rw [← hsame] at hcall h
      exact .inr ⟨heok, hidle, d₂, hcall, h⟩

end

end ControlRTT.Kernel.Device
