import ControlRTT.Lib.ByteAccess
import ControlRTT.Components.FinshCompiler

/-! # The virtual machine of the FinSH shell

`components/finsh/finsh_ops.c` and `finsh_vm.c`, over the bytes of the memory. A load of a byte or
of a word leaves the rest of its slot as it was, and of the stack the compiler clears the first
slot alone, so that an operator which is wider than what was loaded for it reads what an earlier
line has left. Two runs of a line that read none of it do the same (`evaluation_independent`). -/
namespace ControlRTT.Components.FinshVm
open FinshToken FinshParser FinshCompiler Lib.ByteMem

/-- `FINSH_STACK_MAX` -/
def finshStackMax : Nat := 64

/-- Where `finsh_vm_stack` and `text_segment` are, whether a `char` is signed, and the functions
that can be called, by their addresses. -/
structure Machine where
  stack : BitVec 32
  text : BitVec 32
  charSigned : Bool
  call : BitVec 32 → List (BitVec 32) → Bytes → BitVec 32 × Bytes

/-- The memory, `finsh_sp`, and `finsh_pc` from the start of the text segment. -/
structure Vm where
  mem : Bytes
  sp : BitVec 32
  pc : Nat

inductive Instr where
  | noOp
  | bin (op : BinOp) (w : Width)
  | bw (w : Width)
  | ld (w : Width)
  | ldValue (w : Width)
  | st (w : Width)
  | pop
  | call
  | ldValueStack (w : Width)
  deriving DecidableEq, Repr

/-- `op_table` -/
def opTable : List Instr := [
  .noOp,
  .bin .add .byte, .bin .add .word, .bin .add .dword,
  .bin .sub .byte, .bin .sub .word, .bin .sub .dword,
  .bin .div .byte, .bin .div .word, .bin .div .dword,
  .bin .mod .byte, .bin .mod .word, .bin .mod .dword,
  .bin .mul .byte, .bin .mul .word, .bin .mul .dword,
  .bin .and .byte, .bin .and .word, .bin .and .dword,
  .bin .or .byte, .bin .or .word, .bin .or .dword,
  .bin .xor .byte, .bin .xor .word, .bin .xor .dword,
  .bw .byte, .bw .word, .bw .dword,
  .bin .shl .byte, .bin .shl .word, .bin .shl .dword,
  .bin .shr .byte, .bin .shr .word, .bin .shr .dword,
  .ld .byte, .ld .word, .ld .dword,
  .ldValue .byte, .ldValue .word, .ldValue .dword,
  .st .byte, .st .word, .st .dword,
  .pop,
  .call,
  .ldValueStack .byte, .ldValueStack .word, .ldValueStack .dword]

def size : Width → Nat
  | .byte => 1
  | .word => 2
  | .dword => 4

/-- What an operator makes of two integers: none where the processor may trap, or C does not say
what it is. Sums, differences, products and what is shifted to
the left wrap around. -/
def binOp (a b : BitVec 32) : BinOp → Option (BitVec 32)
  | .add => some (a + b)
  | .sub => some (a - b)
  | .mul => some (a * b)
  | .and => some (a &&& b)
  | .or => some (a ||| b)
  | .xor => some (a ^^^ b)
  | .div => if b = 0 ∨ a = BitVec.intMin 32 ∧ b = -1 then none else some (a.sdiv b)
  | .mod => if b = 0 ∨ a = BitVec.intMin 32 ∧ b = -1 then none else some (a.srem b)
  | .shl => if b.toNat < 32 then some (a <<< b.toNat) else none
  | .shr => if b.toNat < 32 then some (a.sshiftRight b.toNat) else none

section
variable (machine : Machine)

/-- A `char`, a `short` or a `long` as an integer. -/
def extend : Width → BitVec 32 → BitVec 32
  | .byte, x => if machine.charSigned then (x.setWidth 8).signExtend 32 else x
  | .word, x => (x.setWidth 16).signExtend 32
  | .dword, x => x

def Vm.load (vm : Vm) (x : Access) : BitVec 32 := Lib.ByteMem.load vm.mem x.addr x.size

def Vm.store (vm : Vm) (x : Access) (v : BitVec 32) : Vm :=
  { vm with mem := Lib.ByteMem.store vm.mem x v }

/-- The value that lies so many slots below the stack pointer. -/
def Vm.slot (vm : Vm) (n : Nat) (w : Width) : Access := ⟨vm.sp - BitVec.ofNat 32 (4 * n), size w⟩

/-- The operand of an instruction in the text segment. -/
def Vm.operand (vm : Vm) (n : Nat) : Access := ⟨machine.text + BitVec.ofNat 32 vm.pc, n⟩

/-- The value that a pointer leads to. -/
def Vm.target (vm : Vm) (pointer : Access) (w : Width) : Access := ⟨vm.load pointer, size w⟩

def Vm.drop (vm : Vm) (n : Nat) : Vm := { vm with sp := vm.sp - BitVec.ofNat 32 (4 * n) }

def Vm.raise (vm : Vm) : Vm := { vm with sp := vm.sp + 4 }

def Vm.skip (vm : Vm) (n : Nat) : Vm := { vm with pc := vm.pc + n }

/-- `OP_BIN_BYTE` and the others -/
def opBin (op : BinOp) (w : Width) (vm : Vm) : Option Vm := do
  let x ← binOp (extend machine w (vm.load (vm.slot 2 w)))
    (extend machine w (vm.load (vm.slot 1 w))) op
  some ((vm.store (vm.slot 2 w) x).drop 1)

/-- The number of parameters of `OP_call`. -/
def Vm.parameters (vm : Vm) : Nat := (vm.load (vm.operand machine 1)).toNat

/-- `parameterv` has 16 entries. A function is called with 0 where there are no parameters. -/
def opCall (vm : Vm) : Option Vm :=
  let parameters := vm.parameters machine
  if 16 < parameters then none
  else
    let parameterv :=
      (List.range parameters).map fun i => vm.load (vm.slot (parameters - i) .dword)
    let f := vm.load (vm.slot (parameters + 1) .dword)
    let (r, mem) := machine.call f (if parameters = 0 then [0] else parameterv) vm.mem
    let vm := { vm with mem := mem }
    some (((vm.store (vm.slot (parameters + 1) .dword) r).drop parameters).skip 1)

/-- The functions of `op_table`. -/
def exec (vm : Vm) : Instr → Option Vm
  | .noOp => some vm
  | .bin op w => opBin machine op w vm
  | .bw w => some (vm.store (vm.slot 1 w) (~~~ vm.load (vm.slot 1 w)))
  | .ld w =>
    some ((vm.store (vm.slot 0 w) (vm.load (vm.operand machine (size w)))).raise.skip (size w))
  | .ldValue w =>
    some ((vm.store (vm.slot 0 w) (vm.load (vm.target (vm.operand machine 4) w))).raise.skip 4)
  | .st w => some ((vm.store (vm.target (vm.slot 2 .dword) w) (vm.load (vm.slot 1 w))).drop 1)
  | .pop => some (vm.drop 1)
  | .call => opCall machine vm
  | .ldValueStack w =>
    some (vm.store (vm.slot 1 w) (vm.load (vm.target (vm.slot 1 .dword) w)))

/-- The instruction at `finsh_pc`. There is none behind the end of the table. -/
def Vm.instr (vm : Vm) : Option Instr := opTable[(vm.load (vm.operand machine 1)).toNat]?

def step (vm : Vm) : Option Vm := do exec machine (vm.skip 1) (← vm.instr machine)

/-- The loop of `finsh_vm_run`. -/
def vmLoop : Nat → Vm → Option Vm
  | 0, vm => some vm
  | n + 1, vm => if vm.pc < finshTextMax then do vmLoop n (← step machine vm) else some vm

/-- Every instruction is a byte at least, so that there are no more of them than bytes
(`finshVmRun_done`). -/
def finshVmRun (mem : Bytes) : Option Vm := vmLoop machine finshTextMax ⟨mem, machine.stack, 0⟩

/-- `finsh_stack_bottom` -/
def finshStackBottom (mem : Bytes) : BitVec 32 := load mem machine.stack 4

/-- What `finsh_compiler_run` writes: zeros over the text segment and over the first slot of the
stack, and then the code. -/
def compiled (ops : List Op) (mem : Bytes) : Bytes :=
  put (put (put mem machine.text (List.replicate finshTextMax 0)) machine.stack
    (List.replicate 4 0)) machine.text (ops.flatMap Op.encode)

/-- The end of `finsh_run_line`, for a line that was parsed without an error: the value that is
printed, if one is, and the memory. There is no end where the line traps. -/
def finshRunLine (layout : Layout) (root : Node) (mem : Bytes) :
    Option (Option (BitVec 32) × Bytes) :=
  let (ops, errors) := finshCompilerRun layout root
  let mem := compiled machine ops mem
  if errors ≠ [] then some (none, mem)
  else do
    let vm ← finshVmRun machine mem
    some (some (finshStackBottom machine vm.mem), vm.mem)

end

/-- The instruction of the table that the compiler means by one of its own. -/
def instrOf : Op → Instr
  | .bin op w => .bin op w
  | .bitwise w => .bw w
  | .ld w _ => .ld w
  | .ldValue w _ => .ldValue w
  | .st w => .st w
  | .pop => .pop
  | .syscall _ => .call
  | .ldValueStack w => .ldValueStack w

/-- The compiler and the table number the instructions alike. -/
theorem opTable_encode (op : Op) :
    ∃ b bytes, op.encode = b :: bytes ∧ opTable[b.toNat]? = some (instrOf op) := by
  cases op with
  | bin op w => exact ⟨_, _, rfl, by cases op <;> cases w <;> rfl⟩
  | bitwise w | ld w _ | ldValue w _ | st w | ldValueStack w =>
    exact ⟨_, _, rfl, by cases w <;> rfl⟩
  | pop | syscall _ => exact ⟨_, _, rfl, rfl⟩

/-! ## What an instruction reads and where it writes -/

section
variable (machine : Machine)

/-- What the functions of `op_table` read. -/
def Vm.reads (vm : Vm) : Instr → List Access
  | .noOp | .pop => []
  | .bin _ w => [vm.slot 2 w, vm.slot 1 w]
  | .bw w => [vm.slot 1 w]
  | .ld w => [vm.operand machine (size w)]
  | .ldValue w => [vm.operand machine 4, vm.target (vm.operand machine 4) w]
  | .st w => [vm.slot 2 .dword, vm.slot 1 w]
  | .call =>
    vm.operand machine 1 ::
      (List.range (vm.parameters machine + 1)).map fun i => vm.slot (i + 1) .dword
  | .ldValueStack w => [vm.slot 1 .dword, vm.target (vm.slot 1 .dword) w]

/-- Where they write. What a function that is called writes is not here. -/
def Vm.writes (vm : Vm) : Instr → Access
  | .noOp | .pop => ⟨0, 0⟩
  | .bin _ w => vm.slot 2 w
  | .bw w | .ldValueStack w => vm.slot 1 w
  | .ld w | .ldValue w => vm.slot 0 w
  | .st w => vm.target (vm.slot 2 .dword) w
  | .call => vm.slot (vm.parameters machine + 1) .dword

/-- The addresses of the stack. -/
def stackBytes : BitVec 32 → Bool := (Access.mk machine.stack (4 * finshStackMax)).covers

/-- The step reads none of these addresses. -/
def Vm.Avoids (vm : Vm) (off : BitVec 32 → Bool) : Prop :=
  (vm.operand machine 1).Avoids off ∧
    ∀ instr ∈ vm.instr machine, ∀ x ∈ (vm.skip 1).reads machine instr, x.Avoids off

/-- What is left of them when the step has written. -/
def Vm.leftover (vm : Vm) (off : BitVec 32 → Bool) : BitVec 32 → Bool :=
  match vm.instr machine with
  | none => off
  | some instr => ((vm.skip 1).writes machine instr).rest off

/-- No step of the loop reads an address of `off` that no step before it has written to. -/
def AvoidsLeftovers : Nat → (BitVec 32 → Bool) → Vm → Prop
  | 0, _, _ => True
  | n + 1, off, vm =>
    if vm.pc < finshTextMax then
      vm.Avoids machine off ∧
        ∀ vm' ∈ step machine vm, AvoidsLeftovers n (vm.leftover machine off) vm'
    else True

/-- The bytes of the stack that are left over from before the line. The rest of them are cleared,
or the code is put there. -/
def leftovers (ops : List Op) : BitVec 32 → Bool :=
  (Access.mk machine.text (ops.flatMap Op.encode).length).rest
    ((Access.mk machine.stack 4).rest
      ((Access.mk machine.text finshTextMax).rest (stackBytes machine)))

/-- The line is run without a look at what is left over on the stack. -/
def NoLeftoverRead (layout : Layout) (root : Node) (mem : Bytes) : Prop :=
  let ops := (finshCompilerRun layout root).1
  AvoidsLeftovers machine finshTextMax (leftovers machine ops)
    ⟨compiled machine ops mem, machine.stack, 0⟩

/-- The functions that are called have nothing to do with the stack of the virtual machine. -/
structure Machine.CallsSpareStack : Prop where
  reads : ∀ f args m m', AgreeOff (stackBytes machine) m m' →
    (machine.call f args m).1 = (machine.call f args m').1 ∧
      AgreeOff (stackBytes machine) (machine.call f args m).2 (machine.call f args m').2
  writes : ∀ f args m, ∀ b, stackBytes machine b → (machine.call f args m).2 b = m b

/-- Both lines trap, or both come to an end with the same value printed and with the same memory
but for the stack. -/
def SameOutcome :
    Option (Option (BitVec 32) × Bytes) → Option (Option (BitVec 32) × Bytes) → Prop :=
  Option.Rel fun r r' => r.1 = r'.1 ∧ AgreeOff (stackBytes machine) r.2 r'.2

/-! ## Two runs -/

/-- The same but for the memory at some addresses. -/
structure Vm.Agree (off : BitVec 32 → Bool) (vm vm' : Vm) : Prop where
  mem : AgreeOff off vm.mem vm'.mem
  sp : vm.sp = vm'.sp
  pc : vm.pc = vm'.pc

variable {off : BitVec 32 → Bool} {vm vm' : Vm}

namespace Vm.Agree

theorem load (h : Agree off vm vm') {x : Access} (hx : x.Avoids off) : vm.load x = vm'.load x :=
  h.mem.load hx

theorem slot (h : Agree off vm vm') (n : Nat) (w : Width) : vm.slot n w = vm'.slot n w := by
  rw [Vm.slot, Vm.slot, h.sp]

theorem operand (h : Agree off vm vm') (n : Nat) :
    vm.operand machine n = vm'.operand machine n := by
  rw [Vm.operand, Vm.operand, h.pc]

theorem target (h : Agree off vm vm') {pointer : Access} (hx : pointer.Avoids off) (w : Width) :
    vm.target pointer w = vm'.target pointer w := by
  rw [Vm.target, Vm.target, h.load hx]

theorem store (h : Agree off vm vm') (x : Access) (v : BitVec 32) :
    Agree (x.rest off) (vm.store x v) (vm'.store x v) := ⟨h.mem.store x v, h.sp, h.pc⟩

theorem drop (h : Agree off vm vm') (n : Nat) : Agree off (vm.drop n) (vm'.drop n) :=
  ⟨h.mem, by rw [Vm.drop, Vm.drop, h.sp], h.pc⟩

theorem raise (h : Agree off vm vm') : Agree off vm.raise vm'.raise :=
  ⟨h.mem, by rw [Vm.raise, Vm.raise, h.sp], h.pc⟩

theorem skip (h : Agree off vm vm') (n : Nat) : Agree off (vm.skip n) (vm'.skip n) :=
  ⟨h.mem, h.sp, by rw [Vm.skip, Vm.skip, h.pc]⟩

end Vm.Agree

/-- Where a function is called with the same values, the memory agrees afterwards where it did
before. -/
theorem Machine.CallsSpareStack.call (hcalls : machine.CallsSpareStack)
    (hoff : ∀ b, off b → stackBytes machine b) {m m' : Bytes} (h : AgreeOff off m m')
    (f : BitVec 32) (args : List (BitVec 32)) :
    (machine.call f args m).1 = (machine.call f args m').1 ∧
      AgreeOff off (machine.call f args m).2 (machine.call f args m').2 := by
  obtain ⟨hret, hmem⟩ := hcalls.reads f args m m' (h.mono hoff)
  refine ⟨hret, fun b hb => ?_⟩
  by_cases hstack : stackBytes machine b
  · rw [hcalls.writes f args m b hstack, hcalls.writes f args m' b hstack]
    exact h b hb
  · exact hmem b (Bool.not_eq_true _ ▸ hstack)

theorem opCall_agree (hcalls : machine.CallsSpareStack)
    (hoff : ∀ b, off b → stackBytes machine b) (h : Vm.Agree off vm vm')
    (hreads : ∀ x ∈ vm.reads machine .call, x.Avoids off) :
    Option.Rel (Vm.Agree ((vm.writes machine .call).rest off)) (opCall machine vm)
      (opCall machine vm') := by
  have hparameters : vm.parameters machine = vm'.parameters machine := by
    rw [Vm.parameters, Vm.parameters, ← h.operand machine,
      h.load (hreads _ List.mem_cons_self)]
  have hslot : ∀ i ≤ vm.parameters machine,
      vm.load (vm.slot (i + 1) .dword) = vm'.load (vm'.slot (i + 1) .dword) := by
    intro i hi
    rw [← h.slot]
    refine h.load (hreads _ (List.mem_cons_of_mem _ ?_))
    exact List.mem_map.mpr ⟨i, List.mem_range.mpr (Nat.lt_succ_of_le hi), rfl⟩
  have hargs : ((List.range (vm.parameters machine)).map fun i =>
        vm.load (vm.slot (vm.parameters machine - i) .dword)) =
      (List.range (vm.parameters machine)).map fun i =>
        vm'.load (vm'.slot (vm.parameters machine - i) .dword) := by
    refine List.map_congr_left fun i hi => ?_
    have hlt := List.mem_range.mp hi
    have hindex : vm.parameters machine - i = vm.parameters machine - i - 1 + 1 := by omega
    rw [hindex]
    exact hslot _ (by omega)
  unfold opCall
  dsimp only
  rw [← hparameters, ← hargs, ← hslot _ (Nat.le_refl _)]
  split
  · exact .none
  · obtain ⟨hret, hmem⟩ := hcalls.call machine hoff h.mem
      (vm.load (vm.slot (vm.parameters machine + 1) .dword))
      (if vm.parameters machine = 0 then [0] else (List.range (vm.parameters machine)).map
        fun i => vm.load (vm.slot (vm.parameters machine - i) .dword))
    have hafter : Vm.Agree off { vm with mem := _ } { vm' with mem := _ } := ⟨hmem, h.sp, h.pc⟩
    rw [← hret]
    refine .some ?_
    have hsame := hafter.slot (vm.parameters machine + 1) .dword
    rw [← hsame]
    exact ((hafter.store _ _).drop _).skip 1

theorem exec_agree (hcalls : machine.CallsSpareStack)
    (hoff : ∀ b, off b → stackBytes machine b) (h : Vm.Agree off vm vm') (instr : Instr)
    (hreads : ∀ x ∈ vm.reads machine instr, x.Avoids off) :
    Option.Rel (Vm.Agree ((vm.writes machine instr).rest off)) (exec machine vm instr)
      (exec machine vm' instr) := by
  cases instr with
  | noOp =>
    rw [Vm.writes, Access.rest_nil]
    exact .some h
  | bin op w =>
    have hleft := h.load (hreads _ List.mem_cons_self)
    have hright := h.load (hreads _ (List.mem_cons_of_mem _ List.mem_cons_self))
    rw [exec, exec, opBin, opBin, hleft, hright, ← h.slot, ← h.slot]
    cases binOp (extend machine w (vm'.load (vm.slot 2 w)))
        (extend machine w (vm'.load (vm.slot 1 w))) op with
    | none => exact .none
    | some x => exact .some ((h.store _ x).drop 1)
  | bw w =>
    rw [exec, exec, ← h.slot, h.load (hreads _ List.mem_cons_self)]
    exact .some (h.store _ _)
  | ld w =>
    rw [exec, exec, ← h.slot, ← h.operand, h.load (hreads _ List.mem_cons_self)]
    exact .some ((h.store _ _).raise.skip _)
  | ldValue w =>
    have haddr := hreads _ List.mem_cons_self
    have hvalue := h.load (hreads _ (List.mem_cons_of_mem _ List.mem_cons_self))
    rw [exec, exec, ← h.slot, ← h.operand, ← h.target haddr, hvalue]
    exact .some ((h.store _ _).raise.skip _)
  | st w =>
    have haddr := hreads _ List.mem_cons_self
    have hvalue := h.load (hreads _ (List.mem_cons_of_mem _ List.mem_cons_self))
    rw [exec, exec, ← h.slot, ← h.slot, ← h.target haddr, hvalue]
    exact .some ((h.store _ _).drop 1)
  | pop =>
    rw [Vm.writes, Access.rest_nil]
    exact .some (h.drop 1)
  | call => exact opCall_agree machine hcalls hoff h hreads
  | ldValueStack w =>
    have haddr := hreads _ List.mem_cons_self
    have hvalue := h.load (hreads _ (List.mem_cons_of_mem _ List.mem_cons_self))
    rw [exec, exec, ← h.slot, ← h.slot, ← h.target haddr, hvalue]
    exact .some (h.store _ _)

/-- A step that reads none of the addresses at which the memories may differ. -/
theorem step_agree (hcalls : machine.CallsSpareStack)
    (hoff : ∀ b, off b → stackBytes machine b) (h : Vm.Agree off vm vm')
    (havoids : vm.Avoids machine off) :
    Option.Rel (Vm.Agree (vm.leftover machine off)) (step machine vm) (step machine vm') := by
  have hinstr : vm'.instr machine = vm.instr machine := by
    rw [Vm.instr, Vm.instr, ← h.operand, h.load havoids.1]
  unfold step Vm.leftover
  rw [hinstr]
  cases hop : vm.instr machine with
  | none => exact .none
  | some instr => exact exec_agree machine hcalls hoff (h.skip 1) instr (havoids.2 instr hop)

theorem leftover_subset {b : BitVec 32} (h : vm.leftover machine off b) : off b := by
  rw [Vm.leftover] at h
  cases hinstr : vm.instr machine with
  | none => rwa [hinstr] at h
  | some instr =>
    rw [hinstr] at h
    exact Access.rest_subset h

/-- No instruction leads back. -/
theorem exec_pc_le {instr : Instr} (h : exec machine vm instr = some vm') : vm.pc ≤ vm'.pc := by
  cases instr with
  | noOp | bw w | ld w | ldValue w | st w | pop | ldValueStack w =>
    cases h
    simp [Vm.skip, Vm.raise, Vm.store, Vm.drop]
  | bin op w =>
    obtain ⟨x, -, hx⟩ := Option.bind_eq_some_iff.mp h
    cases hx
    simp [Vm.store, Vm.drop]
  | call =>
    rw [exec, opCall] at h
    dsimp only at h
    split at h
    · cases h
    · cases h
      simp [Vm.skip, Vm.store, Vm.drop]

theorem step_pc_lt (h : step machine vm = some vm') : vm.pc < vm'.pc := by
  obtain ⟨instr, -, hexec⟩ := Option.bind_eq_some_iff.mp h
  exact exec_pc_le machine hexec

theorem vmLoop_pc {n : Nat} (h : vmLoop machine n vm = some vm') :
    finshTextMax ≤ vm'.pc ∨ vm.pc + n ≤ vm'.pc := by
  induction n generalizing vm with
  | zero =>
    cases h
    exact .inr (Nat.le_refl _)
  | succ n ih =>
    rw [vmLoop] at h
    split at h
    · obtain ⟨vm₁, hstep, hrest⟩ := Option.bind_eq_some_iff.mp h
      have hlt := step_pc_lt machine hstep
      rcases ih hrest with hdone | hle
      · exact .inl hdone
      · exact .inr (by omega)
    · rename_i hpc
      cases h
      exact .inl (Nat.le_of_not_lt hpc)

/-- The loop of `finsh_vm_run` has come to its end. -/
theorem finshVmRun_done {m : Bytes} (h : finshVmRun machine m = some vm) :
    finshTextMax ≤ vm.pc := by
  rcases vmLoop_pc machine h with hdone | hle
  · exact hdone
  · omega

theorem rel_bind {α β : Type} {r : α → α → Prop} {s : β → β → Prop} {x y : Option α}
    {f g : α → Option β} (h : Option.Rel r x y)
    (hf : ∀ a ∈ x, ∀ b, r a b → Option.Rel s (f a) (g b)) :
    Option.Rel s (x >>= f) (y >>= g) := by
  cases h with
  | none => exact .none
  | some h => exact hf _ rfl _ h

theorem vmLoop_agree (hcalls : machine.CallsSpareStack) {n : Nat}
    (hoff : ∀ b, off b → stackBytes machine b) (h : Vm.Agree off vm vm')
    (havoids : AvoidsLeftovers machine n off vm) :
    Option.Rel (Vm.Agree off) (vmLoop machine n vm) (vmLoop machine n vm') := by
  induction n generalizing off vm vm' with
  | zero => exact .some h
  | succ n ih =>
    rw [vmLoop, vmLoop, ← h.pc]
    rw [AvoidsLeftovers] at havoids
    split
    · rename_i hpc
      rw [if_pos hpc] at havoids
      have hstep := step_agree machine hcalls hoff h havoids.1
      have hsub : ∀ b, vm.leftover machine off b → off b := fun b => leftover_subset machine
      refine rel_bind hstep fun vm₁ hrun vm₂ hagree => ?_
      have hrest := ih (fun b hb => hoff b (hsub b hb)) hagree (havoids.2 vm₁ hrun)
      generalize vmLoop machine n vm₁ = v₁, vmLoop machine n vm₂ = v₂ at hrest ⊢
      cases hrest with
      | none => exact .none
      | some hv => exact .some ⟨hv.mem.mono hsub, hv.sp, hv.pc⟩
    · exact .some h

/-- The first slot is none of the leftovers, and nothing is left out of it. -/
theorem compiled_agree (ops : List Op) {m m' : Bytes} (h : AgreeOff (stackBytes machine) m m') :
    AgreeOff (leftovers machine ops) (compiled machine ops m) (compiled machine ops m') := by
  have hcleared := (h.put machine.text (List.replicate finshTextMax 0)).put machine.stack
    (List.replicate 4 0)
  have hcode := hcleared.put machine.text (ops.flatMap Op.encode)
  rwa [List.length_replicate, List.length_replicate] at hcode

theorem leftovers_subset (ops : List Op) {b : BitVec 32} (h : leftovers machine ops b) :
    stackBytes machine b :=
  Access.rest_subset (Access.rest_subset (Access.rest_subset h))

theorem stackBottom_avoids (ops : List Op) :
    (Access.mk machine.stack 4).Avoids (leftovers machine ops) := by
  refine Access.avoids_of_disjoint (show 4 ≤ 2 ^ 32 by decide) fun b hb => ?_
  have hslot := Access.rest_subset hb
  simpa using Bool.and_elim_right hslot

/-- Two runs of a line that look at nothing left over on the stack. -/
theorem evaluation_independent (hcalls : machine.CallsSpareStack) (layout : Layout) (root : Node)
    {m m' : Bytes} (hmem : AgreeOff (stackBytes machine) m m')
    (hread : NoLeftoverRead machine layout root m) :
    SameOutcome machine (finshRunLine machine layout root m)
      (finshRunLine machine layout root m') := by
  have hcompiled := compiled_agree machine (finshCompilerRun layout root).1 hmem
  have hoff : ∀ b, leftovers machine (finshCompilerRun layout root).1 b → stackBytes machine b :=
    fun b hb => leftovers_subset machine _ hb
  unfold finshRunLine
  dsimp only
  split
  · exact .some ⟨rfl, hcompiled.mono hoff⟩
  · have hstart : Vm.Agree (leftovers machine (finshCompilerRun layout root).1)
        ⟨compiled machine (finshCompilerRun layout root).1 m, machine.stack, 0⟩
        ⟨compiled machine (finshCompilerRun layout root).1 m', machine.stack, 0⟩ :=
      ⟨hcompiled, rfl, rfl⟩
    have hrun := vmLoop_agree machine hcalls hoff hstart hread
    have hbottom := stackBottom_avoids machine (finshCompilerRun layout root).1
    refine rel_bind hrun fun vm _ vm' hv => .some ⟨?_, hv.mem.mono hoff⟩
    exact congrArg some (hv.mem.load hbottom)

end

instance (machine : Machine) (vm : Vm) (off : BitVec 32 → Bool) :
    Decidable (vm.Avoids machine off) := inferInstanceAs (Decidable (_ ∧ _))

def decidableAvoids (machine : Machine) :
    ∀ (n : Nat) (off : BitVec 32 → Bool) (vm : Vm), Decidable (AvoidsLeftovers machine n off vm)
  | 0, _, _ => inferInstanceAs (Decidable True)
  | n + 1, off, vm =>
    have := decidableAvoids machine n (vm.leftover machine off)
    inferInstanceAs (Decidable (if vm.pc < finshTextMax then _ ∧ _ else True))

instance (machine : Machine) (layout : Layout) (root : Node) (mem : Bytes) :
    Decidable (NoLeftoverRead machine layout root mem) := decidableAvoids ..

/-- The stack at 0x20000000 and the text segment behind it. -/
def exampleMachine : Machine where
  stack := 0x20000000
  text := 0x20000100
  charSigned := false
  call := fun _ _ m => (0, m)

theorem exampleMachine_callsSpareStack : exampleMachine.CallsSpareStack where
  reads := fun _ _ _ _ h => ⟨rfl, h⟩
  writes := fun _ _ _ _ _ => rfl

/-- A memory of zeros, with the same byte all over the stack. -/
def withStack (byte : BitVec 8) : Bytes := fun b =>
  if stackBytes exampleMachine b then byte else 0

theorem withStack_agree (byte byte' : BitVec 8) :
    AgreeOff (stackBytes exampleMachine) (withStack byte) (withStack byte') := by
  intro b hb
  simp [withStack, hb]

/-- The tree of `'a'+1;`, where the operator is on bytes. -/
def charPlusInt : Node :=
  .mk { nodeType := .add } (.mk { nodeType := .valueChar, value := 97 } .null
    (.mk { nodeType := .valueInt, value := 1 } .null .null)) .null

theorem evaluation_independent_char :
    SameOutcome exampleMachine
      (finshRunLine exampleMachine intLayout charPlusInt (withStack 0))
      (finshRunLine exampleMachine intLayout charPlusInt (withStack 7)) :=
  evaluation_independent exampleMachine exampleMachine_callsSpareStack intLayout charPlusInt
    (withStack_agree 0 7) (by decide +kernel)

/-- The sum is on four bytes, of which three are not those of the `'a'`. -/
theorem leftover_in_sum :
    ¬ ∀ (machine : Machine) (symbols : Symbols Unit) (vars : List Var) (line : List Char)
      (root : Node) (s : Parser Unit) (layout : Layout) (m m' : Bytes),
      machine.CallsSpareStack → Accepts symbols vars () line root s →
        AgreeOff (stackBytes machine) m m' →
          SameOutcome machine (finshRunLine machine layout root m)
            (finshRunLine machine layout root m') := by
  intro h
  let symbols : Symbols Unit := ⟨fun _ => none, fun _ => none, fun _ _ => (0, ())⟩
  have hrun : (match finshParserRun (symbols.env "1+'a';".toList) 20
      { vars := [], heap := () } with
      | .ok root s => decide (s.errno = none ∧
        (finshRunLine exampleMachine intLayout root (withStack 0)).map Prod.fst =
          some (some 0x62) ∧
        (finshRunLine exampleMachine intLayout root (withStack 7)).map Prod.fst =
          some (some 0x07070762))
      | .error _ _ => false) = true := by decide +kernel
  split at hrun
  · rename_i root s hok
    obtain ⟨herr, hzero, hseven⟩ := of_decide_eq_true hrun
    have hsame := h exampleMachine symbols [] _ root s intLayout (withStack 0) (withStack 7)
      exampleMachine_callsSpareStack ⟨⟨20, hok⟩, herr⟩ (withStack_agree 0 7)
    generalize finshRunLine exampleMachine intLayout root (withStack 0) = r,
      finshRunLine exampleMachine intLayout root (withStack 7) = r' at hsame hzero hseven
    cases hsame with
    | none => cases hzero
    | some hprinted =>
      have heq := (Option.some.inj hzero).symm.trans (hprinted.1.trans (Option.some.inj hseven))
      exact absurd heq (by decide)
  · cases hrun

end ControlRTT.Components.FinshVm
