import ControlRTT.Components.FinshVm

/-! # The stack of the FinSH virtual machine

What the instructions on words do, as functions of the words on the stack, the last one first, and
of the memory. The virtual machine does it with the words laid out from `finsh_vm_stack` on, as
long as nothing of its own is read or written as memory (`vmLoop_actAll`). -/
namespace ControlRTT.Components.FinshStack
open FinshCompiler FinshVm Lib.ByteMem

/-- Why there is no next state: the processor may trap, or the instruction is not one that is
described here. -/
inductive Fault where
  | trap | wild
  deriving DecidableEq, Repr

abbrev Stack := List (BitVec 32)

section
variable (machine : Machine)

/-- The addresses of the text segment. -/
def textBytes : BitVec 32 → Bool := (Access.mk machine.text finshTextMax).covers

/-- The word at an address is no part of the virtual machine. -/
def Spare (a : BitVec 32) : Prop :=
  (Access.mk a 4).Avoids (stackBytes machine) ∧ (Access.mk a 4).Avoids (textBytes machine)

instance (a : BitVec 32) : Decidable (Spare machine a) := inferInstanceAs (Decidable (_ ∧ _))

/-- The stack and the text segment are two places, and a function that is called leaves both
alone. -/
structure Spares : Prop extends machine.CallsSpareStack where
  apart : ∀ b, textBytes machine b → stackBytes machine b = false
  code : ∀ f args m, ∀ b, textBytes machine b → (machine.call f args m).2 b = m b

def loadWord (m : Bytes) (a : BitVec 32) : Except Fault (BitVec 32) :=
  if Spare machine a then .ok (load m a 4) else .error .wild

def storeWord (m : Bytes) (a v : BitVec 32) : Except Fault Bytes :=
  if Spare machine a then .ok (store m ⟨a, 4⟩ v) else .error .wild

/-- An operator that does not trap. -/
def operate (op : BinOp) (a b : BitVec 32) : Except Fault (BitVec 32) :=
  match binOp a b op with
  | some x => .ok x
  | none => .error .trap

/-- A function is called with the words that were pushed behind it. -/
def callWith (f : BitVec 32) (args : List (BitVec 32)) (m : Bytes) : BitVec 32 × Bytes :=
  machine.call f (if args = [] then [0] else args) m

/-- The last word is replaced. -/
def onTop (f : BitVec 32 → Except Fault (BitVec 32)) :
    Stack → Bytes → Except Fault (Stack × Bytes)
  | a :: vs, m => (f a).map fun x => (x :: vs, m)
  | [], _ => .error .wild

/-- The last two words are replaced by one. -/
def onTwo (f : BitVec 32 → BitVec 32 → Except Fault (BitVec 32 × Bytes)) :
    Stack → Except Fault (Stack × Bytes)
  | b :: a :: vs => (f a b).map fun x => (x.1 :: vs, x.2)
  | _ => .error .wild

def pop : Stack → Bytes → Except Fault (Stack × Bytes)
  | _ :: vs, m => .ok (vs, m)
  | [], _ => .error .wild

/-- A function lies on the stack with its arguments above it. -/
def syscall (n : Nat) (vs : Stack) (m : Bytes) : Except Fault (Stack × Bytes) :=
  match vs.drop n with
  | f :: rest =>
    if n ≤ 16 then
      let r := callWith machine f (vs.take n).reverse m
      .ok (r.1 :: rest, r.2)
    else .error .wild
  | [] => .error .wild

/-- An instruction on words. -/
def act (op : Op) (vs : Stack) (m : Bytes) : Except Fault (Stack × Bytes) :=
  match op with
  | .bin op .dword => onTwo (fun a b => (operate op a b).map fun x => (x, m)) vs
  | .bitwise .dword => onTop (fun a => .ok (~~~a)) vs m
  | .ld .dword x => .ok (x :: vs, m)
  | .ldValue .dword a => (loadWord machine m a).map fun v => (v :: vs, m)
  | .st .dword => onTwo (fun a v => (storeWord machine m a v).map fun m => (a, m)) vs
  | .pop => pop vs m
  | .syscall n => syscall machine n vs m
  | .ldValueStack .dword => onTop (loadWord machine m) vs m
  | _ => .error .wild

section
variable (vs : Stack) (m : Bytes)

@[simp] theorem act_bin (op : BinOp) : act machine (.bin op .dword) vs m =
    onTwo (fun a b => (operate op a b).map fun x => (x, m)) vs := rfl

@[simp] theorem act_bitwise : act machine (.bitwise .dword) vs m =
    onTop (fun a => .ok (~~~a)) vs m := rfl

@[simp] theorem act_ld (x : BitVec 32) : act machine (.ld .dword x) vs m = .ok (x :: vs, m) :=
  rfl

@[simp] theorem act_ldValue (a : BitVec 32) : act machine (.ldValue .dword a) vs m =
    (loadWord machine m a).map fun v => (v :: vs, m) := rfl

@[simp] theorem act_st : act machine (.st .dword) vs m =
    onTwo (fun a v => (storeWord machine m a v).map fun m => (a, m)) vs := rfl

@[simp] theorem act_pop : act machine .pop vs m = pop vs m := rfl

@[simp] theorem act_syscall (n : Nat) : act machine (.syscall n) vs m = syscall machine n vs m :=
  rfl

@[simp] theorem act_ldValueStack : act machine (.ldValueStack .dword) vs m =
    onTop (loadWord machine m) vs m := rfl

end

/-- One instruction after the other. -/
def actAll : List Op → Stack → Bytes → Except Fault (Stack × Bytes)
  | [], vs, m => .ok (vs, m)
  | op :: ops, vs, m => (act machine op vs m).bind fun st => actAll ops st.1 st.2

theorem actAll_append (ops ops' : List Op) (vs : Stack) (m : Bytes) :
    actAll machine (ops ++ ops') vs m =
      (actAll machine ops vs m).bind fun st => actAll machine ops' st.1 st.2 := by
  induction ops generalizing vs m with
  | nil => rfl
  | cons op ops ih =>
    rw [List.cons_append, actAll, actAll]
    cases act machine op vs m with
    | error e => rfl
    | ok st => exact ih st.1 st.2

/-! ## The stack in the memory -/

/-- The words of a stack, laid out from an address on. -/
def Slots (m : Bytes) (base : BitVec 32) : Stack → Prop
  | [] => True
  | v :: vs => load m (base + BitVec.ofNat 32 (4 * vs.length)) 4 = v ∧ Slots m base vs

/-- The state of the virtual machine with a stack, over a memory. -/
structure Simulates (vm : Vm) (vs : Stack) (m : Bytes) : Prop where
  sp : vm.sp = machine.stack + BitVec.ofNat 32 (4 * vs.length)
  room : vs.length ≤ finshStackMax
  slots : Slots vm.mem machine.stack vs
  mem : AgreeOff (stackBytes machine) m vm.mem

/-- What the virtual machine makes of an instruction, or of several. -/
def Agrees (r : Except Fault (Stack × Bytes)) (pc : Nat) (x : Option Vm) : Prop :=
  match r with
  | .ok (vs, m) => ∃ vm, x = some vm ∧ Simulates machine vm vs m ∧ vm.pc = pc
  | .error .trap => x = none
  | .error .wild => True

/-- Bytes of the text segment. -/
def CodeAt (m : Bytes) (pc : Nat) (bytes : List (BitVec 8)) : Prop :=
  ∀ i < bytes.length, m (machine.text + BitVec.ofNat 32 (pc + i)) = bytes[i]?.getD 0

end

section
variable {machine : Machine} {vm : Vm} {vs us : Stack} {m m' : Bytes} {v a b : BitVec 32}
  {base : BitVec 32} {n pc : Nat}

theorem Slots.congr (h : Slots m base vs)
    (hsame : ∀ i < vs.length, load m' (base + BitVec.ofNat 32 (4 * i)) 4 =
      load m (base + BitVec.ofNat 32 (4 * i)) 4) : Slots m' base vs := by
  induction vs with
  | nil => trivial
  | cons v vs ih =>
    obtain ⟨hv, hvs⟩ := h
    exact ⟨(hsame _ (Nat.lt_succ_self _)).trans hv,
      ih hvs fun i hi => hsame i (Nat.lt_succ_of_lt hi)⟩

theorem Slots.drop (h : Slots m base (us ++ vs)) : Slots m base vs := by
  induction us with
  | nil => exact h
  | cons u us ih => exact ih h.2

theorem Slots.load (h : Slots m base (us ++ v :: vs)) :
    load m (base + BitVec.ofNat 32 (4 * vs.length)) 4 = v := h.drop.1

/-- What is stored in a slot. -/
theorem Slots.store (h : Slots m base vs) (hroom : vs.length < finshStackMax) (v : BitVec 32) :
    Slots (store m ⟨base + BitVec.ofNat 32 (4 * vs.length), 4⟩ v) base (v :: vs) := by
  unfold finshStackMax at hroom
  refine ⟨load_store_self _ _ _, h.congr fun i hi => ?_⟩
  have hdisjoint := @Access.disjoint_of_offsets base (4 * i) (4 * vs.length) 4 4 (by omega)
    (by omega) (by omega) (by decide) (by decide)
  exact load_store_of_disjoint hdisjoint m v

theorem slot_covers {i : Nat} (hi : i < finshStackMax)
    (hb : (Access.mk (machine.stack + BitVec.ofNat 32 (4 * i)) 4).covers b) :
    stackBytes machine b := by
  unfold finshStackMax at hi
  rw [Access.covers_offset (by omega) (by decide)] at hb
  unfold stackBytes
  rw [Access.covers_iff]
  simp only [finshStackMax]
  omega

theorem AgreeOff.store_stack (h : AgreeOff (stackBytes machine) m m') {i : Nat}
    (hi : i < finshStackMax) (v : BitVec 32) : AgreeOff (stackBytes machine) m
      (Lib.ByteMem.store m' ⟨machine.stack + BitVec.ofNat 32 (4 * i), 4⟩ v) := by
  intro b hb
  rw [Lib.ByteMem.store, if_neg fun hcovers => ?_]
  · exact h b hb
  · rw [slot_covers hi hcovers] at hb
    cases hb

/-- A word outside of the stack is stored. -/
theorem Slots.store_outside (h : Slots m machine.stack vs) (hroom : vs.length ≤ finshStackMax)
    {x : Access} (hx : x.Avoids (stackBytes machine)) (v : BitVec 32) :
    Slots (Lib.ByteMem.store m x v) machine.stack vs := by
  refine h.congr fun i hi => ?_
  have hdisjoint : (Access.mk (machine.stack + BitVec.ofNat 32 (4 * i)) 4).Disjoint x := by
    intro b hb
    have hstack := slot_covers (Nat.lt_of_lt_of_le hi hroom) hb
    rw [← Bool.not_eq_true]
    intro hcovers
    rw [hx.of_covers hcovers] at hstack
    cases hstack
  exact load_store_of_disjoint hdisjoint m v

theorem Simulates.slot (h : Simulates machine vm vs m) {k : Nat} (hk : k ≤ vs.length) (w : Width) :
    vm.slot k w = ⟨machine.stack + BitVec.ofNat 32 (4 * (vs.length - k)), FinshVm.size w⟩ := by
  have hroom := h.room
  unfold Vm.slot
  rw [h.sp]
  congr 1
  unfold finshStackMax at hroom
  have hsum : 4 * vs.length = 4 * (vs.length - k) + 4 * k := by omega
  rw [hsum, BitVec.ofNat_add, ← BitVec.add_assoc, BitVec.add_sub_cancel]

/-! ## One instruction -/

/-- A word of the stack is read. -/
theorem Simulates.load_slot (h : Simulates machine vm (us ++ v :: vs) m) :
    vm.load (vm.slot (us.length + 1) .dword) = v := by
  rw [h.slot (by simp)]
  have hlen : (us ++ v :: vs).length - (us.length + 1) = vs.length := by simp; omega
  rw [hlen]
  exact h.slots.load

theorem Simulates.top (h : Simulates machine vm (v :: vs) m) :
    vm.load (vm.slot 1 .dword) = v :=
  (show Simulates machine vm ([] ++ v :: vs) m from h).load_slot

theorem Simulates.second (h : Simulates machine vm (b :: a :: vs) m) :
    vm.load (vm.slot 2 .dword) = a :=
  (show Simulates machine vm ([b] ++ a :: vs) m from h).load_slot

/-- Words leave the stack. -/
theorem Simulates.drop (h : Simulates machine vm (us ++ vs) m) :
    Simulates machine (vm.drop us.length) vs m := by
  have hroom := h.room
  rw [List.length_append] at hroom
  refine ⟨?_, by omega, h.slots.drop, h.mem⟩
  have hsum : 4 * (us ++ vs).length = 4 * vs.length + 4 * us.length := by
    rw [List.length_append]
    omega
  rw [Vm.drop, h.sp, hsum, BitVec.ofNat_add, ← BitVec.add_assoc]
  exact BitVec.add_sub_cancel _ _

/-- A word is put in the place of another one, which is then the last. -/
theorem Simulates.replace (h : Simulates machine vm (us ++ a :: vs) m) (v : BitVec 32) :
    Simulates machine ((vm.store (vm.slot (us.length + 1) .dword) v).drop us.length)
      (v :: vs) m := by
  have hroom := h.room
  have hdropped := h.drop
  rw [List.length_append, List.length_cons] at hroom
  have hlen : (us ++ a :: vs).length - (us.length + 1) = vs.length := by simp; omega
  rw [h.slot (by simp), hlen]
  exact ⟨hdropped.sp, hdropped.room, hdropped.slots.2.store (by omega) v,
    AgreeOff.store_stack h.mem (by omega) v⟩

/-- A word is pushed. -/
theorem Simulates.push (h : Simulates machine vm vs m) (hroom : vs.length < finshStackMax)
    (v : BitVec 32) : Simulates machine (vm.store (vm.slot 0 .dword) v).raise (v :: vs) m := by
  rw [h.slot (Nat.zero_le _), Nat.sub_zero]
  refine ⟨?_, hroom, h.slots.store hroom v, AgreeOff.store_stack h.mem hroom v⟩
  have hsum : 4 * (v :: vs).length = 4 * vs.length + 4 := by rw [List.length_cons]; omega
  rw [hsum, BitVec.ofNat_add, ← BitVec.add_assoc, ← h.sp]
  rfl

theorem Simulates.skip (h : Simulates machine vm vs m) (n : Nat) :
    Simulates machine (vm.skip n) vs m := ⟨h.sp, h.room, h.slots, h.mem⟩

/-- A word of the memory is read. -/
theorem Simulates.load_spare (h : Simulates machine vm vs m) (ha : Spare machine a) :
    vm.load ⟨a, 4⟩ = load m a 4 := (h.mem.load ha.1).symm

/-- A word of the memory is written. -/
theorem Simulates.store_spare (h : Simulates machine vm vs m) (ha : Spare machine a)
    (v : BitVec 32) : Simulates machine (vm.store ⟨a, 4⟩ v) vs (store m ⟨a, 4⟩ v) := by
  refine ⟨h.sp, h.room, h.slots.store_outside h.room ha.1 v, fun b hb => ?_⟩
  exact h.mem.store ⟨a, 4⟩ v b (by rw [Access.rest, hb, Bool.false_and])

theorem covers_text {k : Nat} (hk : k < finshTextMax) :
    textBytes machine (machine.text + BitVec.ofNat 32 k) := by
  have hsub : machine.text + BitVec.ofNat 32 k - machine.text = BitVec.ofNat 32 k := by
    rw [BitVec.add_comm, BitVec.add_sub_cancel]
  unfold finshTextMax at hk
  rw [textBytes, Access.covers_iff]
  dsimp only
  rw [hsub, BitVec.toNat_ofNat]
  unfold finshTextMax
  exact Nat.lt_of_le_of_lt (Nat.mod_le _ _) hk

/-- The text segment is nothing of the stack. -/
theorem Simulates.text (h : Simulates machine vm vs m) (hspares : Spares machine) {k : Nat}
    (hk : k < finshTextMax) :
    vm.mem (machine.text + BitVec.ofNat 32 k) = m (machine.text + BitVec.ofNat 32 k) :=
  (h.mem _ (hspares.apart _ (covers_text hk))).symm

/-- The code is nothing of the stack. -/
theorem Simulates.codeAt (h : Simulates machine vm vs m) (hspares : Spares machine)
    {bytes : List (BitVec 8)} (hcode : CodeAt machine m pc bytes)
    (hfit : pc + bytes.length ≤ finshTextMax) : CodeAt machine vm.mem pc bytes := by
  intro i hi
  rw [h.text hspares (by omega)]
  exact hcode i hi

/-- Code is left alone. -/
theorem CodeAt.mono {bytes : List (BitVec 8)} (hcode : CodeAt machine m pc bytes)
    (hfit : pc + bytes.length ≤ finshTextMax) (hsame : ∀ b, textBytes machine b → m' b = m b) :
    CodeAt machine m' pc bytes := by
  intro i hi
  rw [hsame _ (covers_text (by omega))]
  exact hcode i hi

theorem CodeAt.left {bytes bytes' : List (BitVec 8)}
    (hcode : CodeAt machine m pc (bytes ++ bytes')) : CodeAt machine m pc bytes := by
  intro i hi
  rw [hcode i (by rw [List.length_append]; omega), List.getElem?_append_left hi]

theorem CodeAt.right {bytes bytes' : List (BitVec 8)}
    (hcode : CodeAt machine m pc (bytes ++ bytes')) :
    CodeAt machine m (pc + bytes.length) bytes' := by
  intro i hi
  have hbyte := hcode (bytes.length + i) (by rw [List.length_append]; omega)
  rwa [List.getElem?_append_right (Nat.le_add_right _ _), Nat.add_sub_cancel_left,
    ← Nat.add_assoc] at hbyte

theorem CodeAt.first {bytes : List (BitVec 8)} {byte : BitVec 8}
    (hcode : CodeAt machine m pc (byte :: bytes)) :
    m (machine.text + BitVec.ofNat 32 pc) = byte := hcode 0 (Nat.succ_pos _)

theorem CodeAt.second {bytes : List (BitVec 8)} {byte byte' : BitVec 8}
    (hcode : CodeAt machine m pc (byte :: byte' :: bytes)) :
    m (machine.text + BitVec.ofNat 32 (pc + 1)) = byte' :=
  hcode 1 (Nat.succ_lt_succ (Nat.succ_pos _))

/-- The bytes of a word in the code. -/
theorem CodeAt.word {byte : BitVec 8} {x : BitVec 32}
    (hcode : CodeAt machine m pc (byte :: bytesOf 4 x)) :
    load m (machine.text + BitVec.ofNat 32 (pc + 1)) 4 = x := by
  refine load_word fun i hi => ?_
  have hbyte := hcode (i + 1) (by simp; omega)
  have haddr : machine.text + BitVec.ofNat 32 (pc + 1) + BitVec.ofNat 32 i =
      machine.text + BitVec.ofNat 32 (pc + (i + 1)) := by
    rw [BitVec.add_assoc, ← BitVec.ofNat_add, Nat.add_assoc, Nat.add_comm 1 i]
  rw [haddr, hbyte, List.getElem?_cons_succ, bytesOf, List.getElem?_map,
    List.getElem?_range hi]
  rfl

theorem encode_length_pos (op : Op) : 0 < op.encode.length := by
  obtain ⟨b, bytes, hencode, -⟩ := opTable_encode op
  rw [hencode]
  exact Nat.succ_pos _

theorem length_le_codeLength (ops : List Op) : ops.length ≤ codeLength ops := by
  induction ops with
  | nil => exact Nat.le_refl _
  | cons op ops ih =>
    have hpos := encode_length_pos op
    rw [codeLength_cons, List.length_cons]
    omega

/-- The instruction that is fetched is the one that was encoded. -/
theorem step_eq_exec {op : Op} (hcode : CodeAt machine vm.mem vm.pc op.encode) :
    step machine vm = exec machine (vm.skip 1) (instrOf op) := by
  obtain ⟨b, bytes, hencode, htable⟩ := opTable_encode op
  rw [hencode] at hcode
  have hfetch : vm.instr machine = some (instrOf op) := by
    rw [← htable, Vm.instr, Vm.load, Vm.operand, load_byte, hcode.first,
      BitVec.toNat_setWidth_of_le (by decide)]
  rw [step, hfetch]
  rfl

/-! ## One step -/

theorem loadWord_ok {w : BitVec 32} (h : loadWord machine m a = .ok w) :
    Spare machine a ∧ w = load m a 4 := by
  unfold loadWord at h
  split at h
  · rename_i ha
    cases h
    exact ⟨ha, rfl⟩
  · cases h

theorem storeWord_ok (h : storeWord machine m a v = .ok m') :
    Spare machine a ∧ m' = store m ⟨a, 4⟩ v := by
  unfold storeWord at h
  split at h
  · rename_i ha
    cases h
    exact ⟨ha, rfl⟩
  · cases h

theorem loadWord_error {e : Fault} (h : loadWord machine m a = .error e) : e = .wild := by
  unfold loadWord at h
  split at h
  · cases h
  · exact (Except.error.inj h).symm

theorem storeWord_error {e : Fault} (h : storeWord machine m a v = .error e) : e = .wild := by
  unfold storeWord at h
  split at h
  · cases h
  · exact (Except.error.inj h).symm

/-- A word is pushed behind which the rest of an instruction is skipped. -/
theorem agrees_push (h : Simulates machine vm vs m) (hroom : vs.length < finshStackMax)
    (v : BitVec 32) (n : Nat) : Agrees machine (.ok (v :: vs, m)) (vm.pc + n)
      (some ((vm.store (vm.slot 0 .dword) v).raise.skip n)) :=
  ⟨_, rfl, (h.push hroom v).skip n, rfl⟩

/-- The words that are handed to a function. -/
theorem Simulates.args (h : Simulates machine vm (us ++ vs) m) :
    ((List.range us.length).map fun i => vm.load (vm.slot (us.length - i) .dword)) =
      us.reverse := by
  refine List.ext_getElem (by simp) fun i hi hi' => ?_
  simp only [List.length_map, List.length_range] at hi
  have hlt : us.length - 1 - i < us.length := by omega
  have hsplit : us = us.take (us.length - 1 - i) ++
      us[us.length - 1 - i] :: us.drop (us.length - 1 - i + 1) := by
    rw [List.getElem_cons_drop, List.take_append_drop]
  have hlen : (us.take (us.length - 1 - i)).length + 1 = us.length - i := by
    rw [List.length_take]
    omega
  have hsim : Simulates machine vm (us.take (us.length - 1 - i) ++
      us[us.length - 1 - i] :: (us.drop (us.length - 1 - i + 1) ++ vs)) m := by
    rwa [← List.cons_append, ← List.append_assoc, ← hsplit]
  have hload := hsim.load_slot
  rw [hlen] at hload
  simp only [List.getElem_map, List.getElem_range, List.getElem_reverse]
  exact hload

/-- A function is called. -/
theorem agrees_call (h : Simulates machine vm (us ++ a :: vs) m) (hspares : Spares machine)
    (hparameters : vm.parameters machine = us.length) (hmax : us.length ≤ 16) :
    ∃ vm', opCall machine vm = some vm' ∧
      Simulates machine vm' ((callWith machine a us.reverse m).1 :: vs)
        (callWith machine a us.reverse m).2 ∧ vm'.pc = vm.pc + 1 := by
  have hargs : (if us.length = 0 then [0] else us.reverse) =
      if us.reverse = [] then [0] else us.reverse := by
    simp [List.length_eq_zero_iff]
  obtain ⟨hret, hmem⟩ := hspares.reads a (if us.reverse = [] then [0] else us.reverse) m vm.mem
    h.mem
  have hcalled : Simulates machine
      { vm with mem := (machine.call a (if us.reverse = [] then [0] else us.reverse) vm.mem).2 }
      (us ++ a :: vs) (callWith machine a us.reverse m).2 := by
    refine ⟨h.sp, h.room, h.slots.congr fun i hi => load_congr fun b hb => ?_, hmem⟩
    exact hspares.writes _ _ _ b (slot_covers (Nat.lt_of_lt_of_le hi h.room) hb)
  unfold opCall
  dsimp only
  rw [hparameters, if_neg (Nat.not_lt_of_le hmax), h.args, h.load_slot, hargs, ← hret]
  exact ⟨_, rfl, (hcalled.replace _).skip 1, rfl⟩

theorem Simulates.replace_top (h : Simulates machine vm (a :: vs) m) (v : BitVec 32) :
    Simulates machine (vm.store (vm.slot 1 .dword) v) (v :: vs) m := by
  have hreplaced := (show Simulates machine vm ([] ++ a :: vs) m from h).replace v
  simpa [Vm.drop] using hreplaced

theorem agrees_bin (h : Simulates machine vm vs m) (op : BinOp) :
    Agrees machine (act machine (.bin op .dword) vs m) vm.pc (opBin machine op .dword vm) := by
  cases vs with
  | nil => exact True.intro
  | cons b vs =>
    cases vs with
    | nil => exact True.intro
    | cons a vs =>
      rw [opBin, h.second, h.top, extend, extend, act_bin, onTwo, operate]
      cases binOp a b op with
      | none => rfl
      | some x =>
        have hstack : Simulates machine vm ([b] ++ a :: vs) m := h
        exact ⟨_, rfl, hstack.replace x, rfl⟩

theorem agrees_bitwise (h : Simulates machine vm vs m) :
    Agrees machine (act machine (.bitwise .dword) vs m) vm.pc (exec machine vm (.bw .dword)) := by
  cases vs with
  | nil => exact True.intro
  | cons a vs =>
    rw [exec, h.top]
    exact ⟨_, rfl, h.replace_top _, rfl⟩

theorem agrees_pop (h : Simulates machine vm vs m) :
    Agrees machine (act machine .pop vs m) vm.pc (exec machine vm .pop) := by
  cases vs with
  | nil => exact True.intro
  | cons v vs =>
    have hstack : Simulates machine vm ([v] ++ vs) m := h
    exact ⟨_, rfl, hstack.drop, rfl⟩

theorem agrees_st (h : Simulates machine vm vs m) :
    Agrees machine (act machine (.st .dword) vs m) vm.pc (exec machine vm (.st .dword)) := by
  cases vs with
  | nil => exact True.intro
  | cons v vs =>
    cases vs with
    | nil => exact True.intro
    | cons a vs =>
      rw [exec, Vm.target, h.second, h.top, act_st, onTwo]
      cases hstore : storeWord machine m a v with
      | error e =>
        cases storeWord_error hstore
        exact True.intro
      | ok m' =>
        obtain ⟨ha, rfl⟩ := storeWord_ok hstore
        have hstored : Simulates machine _ ([v] ++ a :: vs) _ := h.store_spare ha v
        exact ⟨_, rfl, hstored.drop, rfl⟩

theorem agrees_ldValueStack (h : Simulates machine vm vs m) :
    Agrees machine (act machine (.ldValueStack .dword) vs m) vm.pc
      (exec machine vm (.ldValueStack .dword)) := by
  cases vs with
  | nil => exact True.intro
  | cons a vs =>
    rw [exec, Vm.target, h.top, act_ldValueStack, onTop]
    cases hload : loadWord machine m a with
    | error e =>
      cases loadWord_error hload
      exact True.intro
    | ok v =>
      obtain ⟨ha, rfl⟩ := loadWord_ok hload
      refine ⟨_, rfl, ?_, rfl⟩
      rw [FinshVm.size, h.load_spare ha]
      exact h.replace_top _

/-- A word is pushed that the instruction has as its operand. -/
theorem agrees_ld (h : Simulates machine vm vs m) (hroom : vs.length < finshStackMax)
    {x : BitVec 32} (hoperand : vm.load (vm.operand machine 4) = x) :
    Agrees machine (act machine (.ld .dword x) vs m) (vm.pc + 4)
      (exec machine vm (.ld .dword)) := by
  rw [exec, FinshVm.size, hoperand]
  exact agrees_push h hroom x 4

theorem agrees_ldValue (h : Simulates machine vm vs m) (hroom : vs.length < finshStackMax)
    (hoperand : vm.load (vm.operand machine 4) = a) :
    Agrees machine (act machine (.ldValue .dword a) vs m) (vm.pc + 4)
      (exec machine vm (.ldValue .dword)) := by
  rw [exec, Vm.target, FinshVm.size, hoperand, act_ldValue]
  cases hload : loadWord machine m a with
  | error e =>
    cases loadWord_error hload
    exact True.intro
  | ok v =>
    obtain ⟨ha, rfl⟩ := loadWord_ok hload
    rw [h.load_spare ha]
    exact agrees_push h hroom _ 4

theorem agrees_syscall (h : Simulates machine vm vs m) (hspares : Spares machine)
    (hparameters : vm.parameters machine = n % 256) :
    Agrees machine (act machine (.syscall n) vs m) (vm.pc + 1) (exec machine vm .call) := by
  rw [act_syscall, syscall]
  cases hdrop : vs.drop n with
  | nil => exact True.intro
  | cons f rest =>
    dsimp only
    by_cases hmax : n ≤ 16
    · rw [if_pos hmax]
      have hsplit : vs = vs.take n ++ f :: rest := by
        rw [← hdrop, List.take_append_drop]
      have hlength : (vs.take n).length = n := by
        have hrest := congrArg List.length hdrop
        rw [List.length_drop, List.length_cons] at hrest
        rw [List.length_take]
        omega
      rw [hsplit] at h
      have hcount : vm.parameters machine = (vs.take n).length := by
        rw [hparameters, hlength]
        omega
      obtain ⟨vm', hrun, hsim, hpc⟩ := agrees_call h hspares hcount (by omega)
      exact ⟨vm', hrun, hsim, hpc⟩
    · rw [if_neg hmax]
      exact True.intro

/-- A step of the virtual machine is what the instruction does to the words on the stack. -/
theorem step_act (hspares : Spares machine) (h : Simulates machine vm vs m)
    (hroom : vs.length < finshStackMax) {op : Op} (hcode : CodeAt machine m vm.pc op.encode)
    (hfit : vm.pc + op.encode.length ≤ finshTextMax) :
    Agrees machine (act machine op vs m) (vm.pc + op.encode.length) (step machine vm) := by
  have hvm := h.codeAt hspares hcode hfit
  have hskip := h.skip 1
  rw [step_eq_exec hvm]
  cases op with
  | bin op w =>
    cases w with
    | byte | word => exact True.intro
    | dword => exact agrees_bin hskip op
  | bitwise w =>
    cases w with
    | byte | word => exact True.intro
    | dword => exact agrees_bitwise hskip
  | ld w x =>
    cases w with
    | byte | word => exact True.intro
    | dword => exact agrees_ld hskip hroom hvm.word
  | ldValue w a =>
    cases w with
    | byte | word => exact True.intro
    | dword => exact agrees_ldValue hskip hroom hvm.word
  | st w =>
    cases w with
    | byte | word => exact True.intro
    | dword => exact agrees_st hskip
  | pop => exact agrees_pop hskip
  | syscall n =>
    refine agrees_syscall hskip hspares ?_
    rw [Vm.parameters, Vm.load, Vm.operand, load_byte]
    rw [Vm.skip, hvm.second, BitVec.toNat_setWidth_of_le (by decide), BitVec.toNat_ofNat]
  | ldValueStack w =>
    cases w with
    | byte | word => exact True.intro
    | dword => exact agrees_ldValueStack hskip

/-! ## The whole code -/

theorem map_ok {α β : Type} {f : α → β} {x : Except Fault α} {y : β} (h : x.map f = .ok y) :
    ∃ z, x = .ok z ∧ f z = y := by
  cases x with
  | error e => cases h
  | ok z => exact ⟨z, rfl, Except.ok.inj h⟩

theorem onTop_ok {f : BitVec 32 → Except Fault (BitVec 32)} {st : Stack × Bytes}
    (h : onTop f vs m = .ok st) : st.1.length = vs.length ∧ st.2 = m := by
  cases vs with
  | nil => cases h
  | cons a vs =>
    obtain ⟨x, -, rfl⟩ := map_ok h
    exact ⟨rfl, rfl⟩

theorem onTwo_ok {f : BitVec 32 → BitVec 32 → Except Fault (BitVec 32 × Bytes)}
    {st : Stack × Bytes} (h : onTwo f vs = .ok st) :
    st.1.length ≤ vs.length ∧ ∃ a b x, f a b = .ok x ∧ st.2 = x.2 := by
  cases vs with
  | nil => cases h
  | cons b vs =>
    cases vs with
    | nil => cases h
    | cons a vs =>
      obtain ⟨x, hx, rfl⟩ := map_ok h
      exact ⟨Nat.le_succ _, a, b, x, hx, rfl⟩

/-- No instruction writes to the text segment. -/
theorem act_text (hspares : Spares machine) {op : Op} {st : Stack × Bytes}
    (h : act machine op vs m = .ok st) : ∀ b, textBytes machine b → st.2 b = m b := by
  cases op with
  | bin op w =>
    cases w with
    | byte | word => cases h
    | dword =>
      obtain ⟨-, a, b, x, hx, hmem⟩ := onTwo_ok h
      obtain ⟨v, -, rfl⟩ := map_ok hx
      exact fun b _ => congrFun hmem b
  | bitwise w =>
    cases w with
    | byte | word => cases h
    | dword => exact fun b _ => congrFun (onTop_ok h).2 b
  | ld w x =>
    cases w with
    | byte | word => cases h
    | dword =>
      cases h
      exact fun _ _ => rfl
  | ldValue w a =>
    cases w with
    | byte | word => cases h
    | dword =>
      obtain ⟨v, -, rfl⟩ := map_ok h
      exact fun _ _ => rfl
  | st w =>
    cases w with
    | byte | word => cases h
    | dword =>
      obtain ⟨-, a, v, x, hx, hmem⟩ := onTwo_ok h
      obtain ⟨m', hstore, rfl⟩ := map_ok hx
      obtain ⟨ha, rfl⟩ := storeWord_ok hstore
      intro b hb
      rw [hmem]
      dsimp only
      rw [Lib.ByteMem.store, if_neg fun hcovers => ?_]
      rw [ha.2.of_covers hcovers] at hb
      cases hb
  | pop =>
    cases vs with
    | nil => cases h
    | cons v vs =>
      cases h
      exact fun _ _ => rfl
  | syscall n =>
    rw [act_syscall, syscall] at h
    split at h
    · split at h
      · cases h
        exact hspares.code _ _ _
      · cases h
    · cases h
  | ldValueStack w =>
    cases w with
    | byte | word => cases h
    | dword => exact fun b _ => congrFun (onTop_ok h).2 b

/-- A word on the stack takes five bytes of code, so that the stack is not full before the text
segment is. -/
theorem act_length {op : Op} {st : Stack × Bytes} (h : act machine op vs m = .ok st) :
    5 * st.1.length ≤ 5 * vs.length + op.encode.length := by
  cases op with
  | bin op w =>
    cases w with
    | byte | word => cases h
    | dword => exact Nat.le_add_right_of_le (Nat.mul_le_mul_left 5 (onTwo_ok h).1)
  | bitwise w =>
    cases w with
    | byte | word => cases h
    | dword => exact Nat.le_add_right_of_le (Nat.mul_le_mul_left 5 (onTop_ok h).1.le)
  | ld w x =>
    cases w with
    | byte | word => cases h
    | dword =>
      cases h
      simp [Op.encode, Width.index, Nat.mul_succ]
  | ldValue w a =>
    cases w with
    | byte | word => cases h
    | dword =>
      obtain ⟨v, -, rfl⟩ := map_ok h
      simp [Op.encode, Nat.mul_succ]
  | st w =>
    cases w with
    | byte | word => cases h
    | dword => exact Nat.le_add_right_of_le (Nat.mul_le_mul_left 5 (onTwo_ok h).1)
  | pop =>
    cases vs with
    | nil => cases h
    | cons v vs =>
      cases h
      exact Nat.le_add_right_of_le (Nat.mul_le_mul_left 5 (Nat.le_succ _))
  | syscall n =>
    rw [act_syscall, syscall] at h
    cases hdrop : vs.drop n with
    | nil =>
      rw [hdrop] at h
      cases h
    | cons f rest =>
      rw [hdrop] at h
      have hrest := congrArg List.length hdrop
      rw [List.length_drop, List.length_cons] at hrest
      dsimp only at h
      split at h
      · cases h
        rw [List.length_cons]
        omega
      · cases h
  | ldValueStack w =>
    cases w with
    | byte | word => cases h
    | dword => exact Nat.le_add_right_of_le (Nat.mul_le_mul_left 5 (onTop_ok h).1.le)

/-- A stretch of the code is run: what the machine comes to is what the instructions do to the
words on the stack. -/
theorem vmLoop_actAll (hspares : Spares machine) {ops : List Op}
    (h : Simulates machine vm vs m) (hroom : 5 * vs.length ≤ vm.pc)
    (hcode : CodeAt machine m vm.pc (ops.flatMap Op.encode))
    (hfit : vm.pc + codeLength ops ≤ finshTextMax) (n : Nat) :
    match actAll machine ops vs m with
    | .ok (vs', m') => ∃ vm', vmLoop machine (n + ops.length) vm = vmLoop machine n vm' ∧
        Simulates machine vm' vs' m' ∧ vm'.pc = vm.pc + codeLength ops ∧
          ∀ b, textBytes machine b → m' b = m b
    | .error .trap => vmLoop machine (n + ops.length) vm = none
    | .error .wild => True := by
  induction ops generalizing vm vs m with
  | nil => exact ⟨vm, rfl, h, rfl, fun _ _ => rfl⟩
  | cons op ops ih =>
    rw [codeLength_cons] at hfit
    rw [List.flatMap_cons] at hcode
    have hpc : vm.pc < finshTextMax := by
      have hpos := encode_length_pos op
      omega
    have hspace : vs.length < finshStackMax := by
      unfold finshTextMax at hpc
      unfold finshStackMax
      omega
    have hstep := step_act hspares h hspace hcode.left (by omega)
    have hloop : vmLoop machine (n + (op :: ops).length) vm =
        step machine vm >>= vmLoop machine (n + ops.length) := by
      rw [List.length_cons, ← Nat.add_assoc, vmLoop, if_pos hpc]
    rw [actAll, hloop]
    cases hact : act machine op vs m with
    | error e =>
      rw [hact] at hstep
      cases e with
      | trap =>
        rw [show step machine vm = none from hstep]
        rfl
      | wild => exact True.intro
    | ok st =>
      rw [hact] at hstep
      obtain ⟨vm₁, hrun, hsim, hpc₁⟩ := hstep
      have htext := act_text hspares hact
      have hrest := hcode.right
      rw [← hpc₁] at hrest
      have hfit₁ : vm₁.pc + codeLength ops ≤ finshTextMax := by
        rw [hpc₁]
        omega
      have hroom₁ : 5 * st.1.length ≤ vm₁.pc := by
        have hlength := act_length hact
        omega
      have hih := ih hsim hroom₁ (hrest.mono hfit₁ htext) hfit₁
      rw [hrun]
      dsimp only [Except.bind, Option.bind_some, bind]
      cases hall : actAll machine ops st.1 st.2 with
      | error e =>
        rw [hall] at hih
        cases e with
        | trap => exact hih
        | wild => exact True.intro
      | ok st' =>
        rw [hall] at hih
        obtain ⟨vm₂, hloop₂, hsim₂, hpc₂, htext₂⟩ := hih
        refine ⟨vm₂, hloop₂, hsim₂, ?_, fun b hb => (htext₂ b hb).trans (htext b hb)⟩
        rw [hpc₂, hpc₁, codeLength_cons, Nat.add_assoc]

/-- The text segment is run to its end where there is no code any more. -/
theorem vmLoop_idle (hspares : Spares machine) {n : Nat} (h : Simulates machine vm vs m)
    (hcode : CodeAt machine m vm.pc (List.replicate (finshTextMax - vm.pc) 0))
    (hfuel : finshTextMax ≤ vm.pc + n) :
    ∃ vm', vmLoop machine n vm = some vm' ∧ Simulates machine vm' vs m := by
  induction n generalizing vm with
  | zero => exact ⟨vm, rfl, h⟩
  | succ n ih =>
    rw [vmLoop]
    split
    · rename_i hpc
      have hmore : finshTextMax - vm.pc = finshTextMax - (vm.pc + 1) + 1 := by omega
      rw [hmore, List.replicate_succ] at hcode
      have hfetch : vm.instr machine = some .noOp := by
        rw [Vm.instr, Vm.load, Vm.operand, load_byte, h.text hspares hpc, hcode.first]
        rfl
      have hstep : step machine vm = some (vm.skip 1) := by
        rw [step, hfetch]
        rfl
      rw [hstep]
      have hbehind : CodeAt machine _ vm.pc ([0] ++ _) := hcode
      refine ih (h.skip 1) hbehind.right ?_
      dsimp only [Vm.skip]
      omega
    · exact ⟨vm, rfl, h⟩

/-- What the compiler leaves in the text segment: the code, and zeros behind it. -/
theorem codeAt_compiled (hspares : Spares machine) {ops : List Op}
    (hfit : codeLength ops ≤ finshTextMax) (mem : Bytes) :
    CodeAt machine (compiled machine ops mem) 0
      (ops.flatMap Op.encode ++ List.replicate (finshTextMax - codeLength ops) 0) := by
  unfold codeLength at hfit ⊢
  intro i hi
  rw [Nat.zero_add]
  rw [List.length_append, List.length_replicate, Nat.add_sub_cancel' hfit] at hi
  have hmax : finshTextMax ≤ 2 ^ 32 := by decide
  by_cases hcode : i < (ops.flatMap Op.encode).length
  · rw [compiled, put_of_lt hcode (Nat.le_trans hfit hmax), List.getElem?_append_left hcode,
      List.getElem?_eq_getElem hcode, Option.getD_some]
  · have hstack : (Access.mk machine.stack (List.replicate 4 (0 : BitVec 8)).length).covers
        (machine.text + BitVec.ofNat 32 i) = false := by
      have hapart := hspares.apart _ (covers_text hi)
      rw [← Bool.not_eq_true] at hapart ⊢
      intro hcovers
      refine hapart ?_
      rw [Access.covers_iff] at hcovers
      rw [stackBytes, Access.covers_iff]
      exact Nat.lt_of_lt_of_le hcovers (show 4 ≤ 256 by decide)
    have hbehind : (Access.mk machine.text (ops.flatMap Op.encode).length).covers
        (machine.text + BitVec.ofNat 32 i) = false := by
      rw [← Bool.not_eq_true, Access.covers_iff, BitVec.add_comm, BitVec.add_sub_cancel,
        BitVec.toNat_ofNat, Nat.mod_eq_of_lt (Nat.lt_of_lt_of_le hi hmax)]
      exact hcode
    have hzero : i < (List.replicate finshTextMax (0 : BitVec 8)).length := by
      rwa [List.length_replicate]
    rw [compiled, put_of_not_covers hbehind, put_of_not_covers hstack, put_of_lt hzero hmax,
      List.getElem_replicate, List.getElem?_append_right (Nat.le_of_not_lt hcode),
      List.getElem?_replicate]
    split <;> rfl

/-- A run of the virtual machine, from the code that was compiled. -/
theorem finshVmRun_actAll (hspares : Spares machine) {ops : List Op}
    (hfit : codeLength ops ≤ finshTextMax) (mem : Bytes) :
    match actAll machine ops [] (compiled machine ops mem) with
    | .ok (vs, m) => ∃ vm, finshVmRun machine (compiled machine ops mem) = some vm ∧
        Simulates machine vm vs m
    | .error .trap => finshVmRun machine (compiled machine ops mem) = none
    | .error .wild => True := by
  have hstart : Simulates machine ⟨compiled machine ops mem, machine.stack, 0⟩ []
      (compiled machine ops mem) :=
    ⟨(BitVec.add_zero _).symm, Nat.zero_le _, True.intro, fun _ _ => rfl⟩
  have hcode := codeAt_compiled hspares hfit mem
  have hlength := length_le_codeLength ops
  have hrun := vmLoop_actAll hspares hstart (Nat.zero_le _) hcode.left (by rwa [Nat.zero_add])
    (finshTextMax - ops.length)
  rw [Nat.sub_add_cancel (Nat.le_trans hlength hfit)] at hrun
  cases hact : actAll machine ops [] (compiled machine ops mem) with
  | error e =>
    rw [hact] at hrun
    cases e with
    | trap => exact hrun
    | wild => exact True.intro
  | ok st =>
    rw [hact] at hrun
    obtain ⟨vm, hloop, hsim, hpc, htext⟩ := hrun
    have hzeros : CodeAt machine st.2 vm.pc (List.replicate (finshTextMax - vm.pc) 0) := by
      rw [hpc, Nat.zero_add]
      have hright := hcode.right
      rw [Nat.zero_add] at hright
      refine hright.mono ?_ htext
      rw [List.length_replicate]
      unfold codeLength at hfit ⊢
      omega
    obtain ⟨vm', hidle, hsim'⟩ := vmLoop_idle hspares hsim hzeros (n := finshTextMax - ops.length)
      (by omega)
    exact ⟨vm', hloop.trans hidle, hsim'⟩

end

end ControlRTT.Components.FinshStack
