import ControlRTT.Components.FinshParser

/-! # The compiler of the FinSH shell

`components/finsh/finsh_compiler.c`. The code is put into the text segment without a look at how
much of it there is (`emitted`). How much that will be can be told from the tree
(`statementsSize`): a name and a number are five bytes, but a `++` behind the name of an `int`
is eighteen more, so that six of them on a line do not fit. -/
namespace ControlRTT.Components.FinshCompiler
open FinshToken FinshParser

/-- `FINSH_TEXT_MAX` -/
def finshTextMax : Nat := 128

inductive Width where
  | byte | word | dword
  deriving DecidableEq, Repr

inductive BinOp where
  | add | sub | div | mod | mul | and | or | xor | shl | shr
  deriving DecidableEq, Repr

/-- An instruction with its operand. -/
inductive Op where
  | bin (op : BinOp) (w : Width)
  | bitwise (w : Width)
  | ld (w : Width) (x : BitVec 32)
  | ldValue (w : Width) (addr : BitVec 32)
  | st (w : Width)
  | pop
  | syscall (parameters : Nat)
  | ldValueStack (w : Width)
  deriving DecidableEq, Repr

def Width.index : Width → Nat
  | byte => 0
  | word => 1
  | dword => 2

/-- The number of the instruction on bytes. -/
def BinOp.code : BinOp → Nat
  | add => 0x01
  | sub => 0x04
  | div => 0x07
  | mod => 0x0A
  | mul => 0x0D
  | and => 0x10
  | or => 0x13
  | xor => 0x16
  | shl => 0x1C
  | shr => 0x1F

/-- `finsh_code_word` and `finsh_code_dword`: the low byte first. -/
def bytesOf (n : Nat) (x : BitVec 32) : List (BitVec 8) :=
  (List.range n).map fun i => (x >>> (8 * i)).setWidth 8

def Op.encode : Op → List (BitVec 8)
  | bin op w => [.ofNat 8 (op.code + w.index)]
  | bitwise w => [.ofNat 8 (0x19 + w.index)]
  | ld w x => .ofNat 8 (0x22 + w.index) :: bytesOf (2 ^ w.index) x
  | ldValue w addr => .ofNat 8 (0x25 + w.index) :: bytesOf 4 addr
  | st w => [.ofNat 8 (0x28 + w.index)]
  | pop => [0x2B]
  | syscall parameters => [0x2C, .ofNat 8 parameters]
  | ldValueStack w => [.ofNat 8 (0x2D + w.index)]

/-- What the compiler finds behind a symbol. `valueAddr` is the address of `value` in the
`struct finsh_var` that the symbol is taken for. -/
structure Layout where
  varType : Nat → FinshType
  sysvarType : Nat → FinshType
  valueAddr : Symbol → BitVec 32
  sysvarAddr : Nat → BitVec 32
  syscallFunc : Nat → BitVec 32

/-- `FINSH_DATA_TYPE_BYTE` and the others of which there are instructions. -/
def widthOf : Nat → Option Width
  | 1 => some .byte
  | 2 => some .word
  | 3 => some .dword
  | _ => none

/-- The `FINSH_DATA_TYPE` of a variable. -/
def dataTypeOf : FinshType → Option Nat
  | .unknown => none
  | .void => some 0
  | .char | .uchar => some 1
  | .short | .ushort => some 2
  | _ => some 3

/-- How much of a variable is loaded. -/
def loadWidth : FinshType → Option Width
  | .unknown | .void | .voidp => none
  | .char | .uchar => some .byte
  | .short | .ushort => some .word
  | _ => some .dword

/-- The `FINSH_DATA_TYPE` of a node without a child, and the error that may be set. -/
def leafType (layout : Layout) (info : NodeInfo) : Nat × List FinshError :=
  let ofType (type : FinshType) : Nat × List FinshError :=
    match dataTypeOf type with
    | some dataType => (dataType, [])
    | none => (info.dataType, [.unknownType])
  match info.nodeType with
  | .id =>
    match info.id with
    | some (.var i) => ofType (layout.varType i)
    | some (.sysvar i) => ofType (layout.sysvarType i)
    | _ => (info.dataType, [])
  | .valueChar => (1, [])
  | .valueInt | .valueLong | .valueString | .valueNull => (3, [])
  | _ => (info.dataType, [])

/-- Whether the child of a node is checked as an address. -/
def childAddress (type : NodeType) (isAddr : Bool) : Bool :=
  match type with
  | .assign | .preinc | .predec | .getaddr => true
  | .getvalue => if isAddr then false else isAddr
  | _ => isAddr

/-- `idtype |= is_addr`, which a system call is spared. -/
def markAddress (info : NodeInfo) (isAddr : Bool) : Bool :=
  match info.id with
  | some (.syscall _) => info.address
  | _ => info.address || isAddr

def nodeDataType : Node → Nat
  | .null => 0
  | .mk info _ _ => info.dataType

/-- `finsh_type_check`: the tree afterwards, and the errors that are set. -/
def finshTypeCheck (layout : Layout) : Node → Bool → Node × List FinshError
  | .null, _ => (.null, [])
  | .mk info child sibling, isAddr =>
    let (child, e₁) := finshTypeCheck layout child (childAddress info.nodeType isAddr)
    let (sibling, e₂) := finshTypeCheck layout sibling false
    let info := { info with address := markAddress info isAddr }
    if child.isNull then
      let (dataType, e₃) := leafType layout info
      (.mk { info with dataType := dataType } child sibling, e₁ ++ e₂ ++ e₃)
    else (.mk { info with dataType := nodeDataType child } child sibling, e₁ ++ e₂)

/-- A name is loaded by its address or by its value. -/
def loadVar (type : FinshType) (address : Bool) (addr : BitVec 32) : List Op :=
  match loadWidth type with
  | none => []
  | some w => [if address then .ld .dword addr else .ldValue w addr]

def loadId (layout : Layout) (info : NodeInfo) : List Op :=
  match info.id with
  | some (.syscall i) => [.ld .dword (layout.syscallFunc i)]
  | some (.sysvar i) => loadVar (layout.sysvarType i) info.address (layout.sysvarAddr i)
  | some (.var i) => loadVar (layout.varType i) info.address (layout.valueAddr (.var i))
  | none => []

/-- The instructions of an operator, where there are any for the type. -/
def ofWidth (dataType : Nat) (ops : Width → List Op) : List Op :=
  match widthOf dataType with
  | none => []
  | some w => ops w

def siblings : Node → Nat
  | .null => 0
  | .mk _ _ .null => 0
  | .mk _ _ sibling => siblings sibling + 1

/-- What an assignment stores through: the data type of a name or of what a pointer is of. -/
def targetType : Node → Option Nat
  | .null => none
  | .mk info _ _ =>
    if info.nodeType = .id then some info.dataType
    else if info.nodeType = .getvalue then some (info.dataType % 16)
    else none

def compileAssign (child : Node) : List Op × List FinshError :=
  match targetType child with
  | none => ([], [])
  | some dataType =>
    match widthOf dataType with
    | none => ([], [.unknownType])
    | some w => ([.st w, .ldValueStack w], [])

/-- The name that `++` or `--` is put to, where it is one. -/
def nameOf : Node → Option Symbol
  | .mk { nodeType := .id, id := some symbol, .. } _ _ => some symbol
  | _ => none

/-- `++` or `--` before a name. -/
def compilePre (layout : Layout) (op : BinOp) (dataType : Nat) (child : Node) : List Op :=
  match nameOf child with
  | none => []
  | some symbol => ofWidth dataType fun w =>
    [.ldValue w (layout.valueAddr symbol), .ld w 1, .bin op w, .st w, .ldValueStack .dword]

/-- `++` or `--` behind a name. -/
def compilePost (layout : Layout) (op : BinOp) (dataType : Nat) (child : Node) : List Op :=
  match nameOf child with
  | none => []
  | some symbol => ofWidth dataType fun w =>
    [.ld .dword (layout.valueAddr symbol), .ldValue w (layout.valueAddr symbol), .ld w 1,
      .bin op w, .st w, .pop]

/-- The `switch` of `finsh_compile`. -/
def compileNode (layout : Layout) (info : NodeInfo) (child : Node) : List Op × List FinshError :=
  let binary (op : BinOp) := (ofWidth info.dataType fun w => [.bin op w], [])
  match info.nodeType with
  | .id => (loadId layout info, [])
  | .valueChar => ([.ld .byte info.value], [])
  | .valueInt | .valueLong | .valueNull | .valueString => ([.ld .dword info.value], [])
  | .add => binary .add
  | .sub => binary .sub
  | .mul => binary .mul
  | .div => binary .div
  | .mod => binary .mod
  | .and => binary .and
  | .or => binary .or
  | .xor => binary .xor
  | .bitwise => (ofWidth info.dataType fun w => [.bitwise w], [])
  | .shl => binary .shl
  | .shr => binary .shr
  | .func => (if child.isNull then [] else [.syscall (siblings child)], [])
  | .assign => compileAssign child
  | .preinc => (compilePre layout .add info.dataType child, [])
  | .predec => (compilePre layout .sub info.dataType child, [])
  | .inc => (compilePost layout .add info.dataType child, [])
  | .dec => (compilePost layout .sub info.dataType child, [])
  | .getvalue =>
    (if info.address then [] else ofWidth info.dataType fun w => [.ldValueStack w], [])
  | .getaddr => ([], [])

/-- `finsh_compile` -/
def finshCompile (layout : Layout) : Node → List Op × List FinshError
  | .null => ([], [])
  | .mk info child sibling =>
    let (ops₁, e₁) := finshCompile layout child
    let (ops₂, e₂) := compileNode layout info child
    let (ops₃, e₃) := finshCompile layout sibling
    (ops₁ ++ ops₂ ++ ops₃, e₁ ++ e₂ ++ e₃)

/-- The loop of `finsh_compiler_run`: one statement after the other, with a pop between. -/
def compileStatements (layout : Layout) : Node → List Op × List FinshError
  | .null => ([], [])
  | .mk info child sibling =>
    let (ops₁, e₁) := finshCompile layout (.mk info child .null)
    let (ops₂, e₂) := compileStatements layout sibling
    (ops₁ ++ (if sibling.isNull then [] else [.pop]) ++ ops₂, e₁ ++ e₂)

/-- `finsh_compiler_run`: the code that is emitted, and the errors that are set. -/
def finshCompilerRun (layout : Layout) (root : Node) : List Op × List FinshError :=
  let (root, e₁) := finshTypeCheck layout root false
  let (ops, e₂) := compileStatements layout root
  (ops, e₁ ++ e₂)

/-- The bytes that are put into the text segment. -/
def emitted (layout : Layout) (root : Node) : List (BitVec 8) :=
  (finshCompilerRun layout root).1.flatMap Op.encode

/-! ## The size of the code of a tree -/

section
variable (layout : Layout)

/-- A size that goes by the data type. -/
def byType (dataType byte word dword : Nat) : Nat :=
  match widthOf dataType with
  | none => 0
  | some .byte => byte
  | some .word => word
  | some .dword => dword

/-- The data type of a tree is that of what stands first in it. -/
def treeType : Node → Nat
  | .null => 0
  | .mk info child _ => if child.isNull then (leafType layout info).1 else treeType child

def idSize (info : NodeInfo) : Nat :=
  match info.id with
  | some (.syscall _) => 5
  | some (.sysvar i) => if (loadWidth (layout.sysvarType i)).isSome then 5 else 0
  | some (.var i) => if (loadWidth (layout.varType i)).isSome then 5 else 0
  | none => 0

def assignSize : Node → Nat
  | .null => 0
  | .mk info child sibling =>
    if info.nodeType = .id then byType (treeType layout (.mk info child sibling)) 2 2 2
    else if info.nodeType = .getvalue then
      byType (treeType layout (.mk info child sibling) % 16) 2 2 2
    else 0

/-- What a node adds to the code of its children. -/
def ownSize (info : NodeInfo) (child : Node) (isAddr : Bool) : Nat :=
  let dataType := treeType layout (.mk info child .null)
  match info.nodeType with
  | .id => idSize layout info
  | .valueChar => 2
  | .valueInt | .valueLong | .valueNull | .valueString => 5
  | .add | .sub | .mul | .div | .mod | .and | .or | .xor | .bitwise | .shl | .shr =>
    byType dataType 1 1 1
  | .func => if child.isNull then 0 else 2
  | .assign => assignSize layout child
  | .preinc | .predec => if (nameOf child).isSome then byType dataType 10 11 13 else 0
  | .inc | .dec => if (nameOf child).isSome then byType dataType 15 16 18 else 0
  | .getvalue => if markAddress info isAddr then 0 else byType dataType 1 1 1
  | .getaddr => 0

def treeSize : Node → Bool → Nat
  | .null, _ => 0
  | .mk info child sibling, isAddr =>
    treeSize child (childAddress info.nodeType isAddr) + ownSize layout info child isAddr +
      treeSize sibling false

/-- The size of the code of a line. -/
def statementsSize : Node → Nat
  | .null => 0
  | .mk info child sibling =>
    treeSize layout (.mk info child .null) false + (if sibling.isNull then 0 else 1) +
      statementsSize sibling

end

def codeLength (ops : List Op) : Nat := (ops.flatMap Op.encode).length

@[simp] theorem codeLength_nil : codeLength [] = 0 := rfl

@[simp] theorem codeLength_cons (op : Op) (ops : List Op) :
    codeLength (op :: ops) = op.encode.length + codeLength ops := by
  simp [codeLength]

theorem codeLength_append (ops ops' : List Op) :
    codeLength (ops ++ ops') = codeLength ops + codeLength ops' := by
  simp [codeLength]

@[simp] theorem length_bytesOf (n : Nat) (x : BitVec 32) : (bytesOf n x).length = n := by
  simp [bytesOf]

section
variable (layout : Layout)

theorem isNull_finshTypeCheck (node : Node) (isAddr : Bool) :
    (finshTypeCheck layout node isAddr).1.isNull = node.isNull := by
  cases node with
  | null => rfl
  | mk info child sibling =>
    unfold finshTypeCheck
    dsimp only
    split <;> rfl

theorem nodeDataType_finshTypeCheck (node : Node) (isAddr : Bool) :
    nodeDataType (finshTypeCheck layout node isAddr).1 = treeType layout node := by
  induction node generalizing isAddr with
  | null => rfl
  | mk info child sibling ihc ihs =>
    unfold finshTypeCheck treeType
    dsimp only
    rw [isNull_finshTypeCheck]
    split
    · rfl
    · exact ihc _

/-- What the check makes of a node. -/
theorem finshTypeCheck_mk (info : NodeInfo) (child sibling : Node) (isAddr : Bool) :
    (finshTypeCheck layout (.mk info child sibling) isAddr).1 =
      .mk { info with
          address := markAddress info isAddr
          dataType := treeType layout (.mk info child sibling) }
        (finshTypeCheck layout child (childAddress info.nodeType isAddr)).1
        (finshTypeCheck layout sibling false).1 := by
  have hnull := isNull_finshTypeCheck layout child (childAddress info.nodeType isAddr)
  have htype := nodeDataType_finshTypeCheck layout child (childAddress info.nodeType isAddr)
  rw [finshTypeCheck, treeType, ← hnull, ← htype]
  dsimp only
  split <;> rfl

theorem nameOf_finshTypeCheck (node : Node) (isAddr : Bool) :
    nameOf (finshTypeCheck layout node isAddr).1 = nameOf node := by
  cases node with
  | null => rfl
  | mk info child sibling =>
    rw [finshTypeCheck_mk]
    obtain ⟨nodeType, dataType, value, id, address⟩ := info
    cases nodeType <;> cases id <;> rfl

theorem codeLength_ofWidth {ops : Width → List Op} {byte word dword : Nat} (dataType : Nat)
    (hbyte : codeLength (ops .byte) = byte) (hword : codeLength (ops .word) = word)
    (hdword : codeLength (ops .dword) = dword) :
    codeLength (ofWidth dataType ops) = byType dataType byte word dword := by
  unfold ofWidth byType
  cases widthOf dataType with
  | none => rfl
  | some w => cases w <;> assumption

theorem codeLength_loadVar (type : FinshType) (address : Bool) (addr : BitVec 32) :
    codeLength (loadVar type address addr) = if (loadWidth type).isSome then 5 else 0 := by
  unfold loadVar
  cases loadWidth type with
  | none => rfl
  | some w => cases address <;> simp [Op.encode, Width.index]

theorem codeLength_loadId (info : NodeInfo) :
    codeLength (loadId layout info) = idSize layout info := by
  unfold loadId idSize
  split
  · simp [Op.encode, Width.index]
  · exact codeLength_loadVar _ _ _
  · exact codeLength_loadVar _ _ _
  · rfl

theorem codeLength_compileAssign (child : Node) (isAddr : Bool) :
    codeLength (compileAssign (finshTypeCheck layout child isAddr).1).1 =
      assignSize layout child := by
  cases child with
  | null => rfl
  | mk info child sibling =>
    have hst : ∀ dataType, codeLength (match widthOf dataType with
        | none => (([], [.unknownType]) : List Op × List FinshError)
        | some w => ([.st w, .ldValueStack w], [])).1 = byType dataType 2 2 2 := by
      intro dataType
      unfold byType
      cases widthOf dataType with
      | none => rfl
      | some w => cases w <;> rfl
    rw [finshTypeCheck_mk]
    unfold compileAssign targetType assignSize
    dsimp only
    by_cases hid : info.nodeType = .id
    · rw [if_pos hid, if_pos hid]
      exact hst _
    · rw [if_neg hid, if_neg hid]
      by_cases hget : info.nodeType = .getvalue
      · rw [if_pos hget, if_pos hget]
        exact hst _
      · rw [if_neg hget, if_neg hget]
        rfl

theorem codeLength_compilePre (op : BinOp) (dataType : Nat) (child : Node) :
    codeLength (compilePre layout op dataType child) =
      if (nameOf child).isSome then byType dataType 10 11 13 else 0 := by
  unfold compilePre
  cases nameOf child with
  | none => rfl
  | some symbol => exact codeLength_ofWidth dataType rfl rfl rfl

theorem codeLength_compilePost (op : BinOp) (dataType : Nat) (child : Node) :
    codeLength (compilePost layout op dataType child) =
      if (nameOf child).isSome then byType dataType 15 16 18 else 0 := by
  unfold compilePost
  cases nameOf child with
  | none => rfl
  | some symbol => exact codeLength_ofWidth dataType rfl rfl rfl

theorem codeLength_compileNode (info : NodeInfo) (child : Node) (isAddr isAddr' : Bool) :
    codeLength (compileNode layout
      { info with
        address := markAddress info isAddr
        dataType := treeType layout (.mk info child .null) }
      (finshTypeCheck layout child isAddr').1).1 = ownSize layout info child isAddr := by
  have hbin : ∀ (dataType : Nat) (op : BinOp),
      codeLength (ofWidth dataType fun w => [.bin op w]) = byType dataType 1 1 1 :=
    fun dataType op => codeLength_ofWidth dataType rfl rfl rfl
  unfold compileNode ownSize
  dsimp only
  cases info.nodeType with
  | id => exact codeLength_loadId layout _
  | valueChar | valueInt | valueLong | valueNull | valueString =>
    simp [Op.encode, Width.index]
  | add | sub | mul | div | mod | and | or | xor | shl | shr => exact hbin _ _
  | bitwise => exact codeLength_ofWidth _ rfl rfl rfl
  | func =>
    dsimp only
    rw [isNull_finshTypeCheck]
    split <;> rfl
  | assign => exact codeLength_compileAssign layout child isAddr'
  | preinc | predec =>
    dsimp only
    rw [codeLength_compilePre, nameOf_finshTypeCheck]
  | inc | dec =>
    dsimp only
    rw [codeLength_compilePost, nameOf_finshTypeCheck]
  | getvalue =>
    dsimp only
    split
    · rfl
    · exact codeLength_ofWidth _ rfl rfl rfl
  | getaddr => rfl

theorem codeLength_finshCompile (node : Node) (isAddr : Bool) :
    codeLength (finshCompile layout (finshTypeCheck layout node isAddr).1).1 =
      treeSize layout node isAddr := by
  induction node generalizing isAddr with
  | null => rfl
  | mk info child sibling ihc ihs =>
    rw [finshTypeCheck_mk, finshCompile, treeSize]
    dsimp only
    rw [codeLength_append, codeLength_append, ihc, ihs]
    congr 2
    exact codeLength_compileNode layout info child isAddr _

theorem codeLength_compileStatements (node : Node) :
    codeLength (compileStatements layout (finshTypeCheck layout node false).1).1 =
      statementsSize layout node := by
  induction node with
  | null => rfl
  | mk info child sibling _ ihs =>
    have hone := codeLength_finshCompile layout (.mk info child .null) false
    rw [finshTypeCheck_mk] at hone ⊢
    rw [compileStatements, statementsSize]
    dsimp only
    rw [codeLength_append, codeLength_append, ihs, isNull_finshTypeCheck]
    congr 2
    split <;> rfl

/-- The code of a line fits into the text segment exactly if its size does. -/
theorem emitted_fits_iff (root : Node) :
    (emitted layout root).length ≤ finshTextMax ↔ statementsSize layout root ≤ finshTextMax := by
  rw [← codeLength_compileStatements layout root]
  rfl

end

def sixIncrements : List Char := "x++;x++;x++;x++;x++;x++;".toList

/-- A variable `x` of type `int`, and seven entries that are free. -/
def intVars : List Var := ⟨['x'], .int⟩ :: List.replicate 7 {}

def intLayout : Layout := ⟨fun _ => .int, fun _ => .int, fun _ => 0, fun _ => 0, fun _ => 0⟩

/-- Twelve nodes make 143 bytes of code. -/
theorem six_increments_do_not_fit :
    ¬ ∀ (symbols : Symbols Unit) (line : List Char) (root : Node) (s : Parser Unit),
      Accepts symbols intVars () line root s →
        (emitted intLayout root).length ≤ finshTextMax := by
  intro h
  let symbols : Symbols Unit := ⟨fun _ => none, fun _ => none, fun _ _ => (0, ())⟩
  have hrun : (match finshParserRun (symbols.env sixIncrements) 60
      { vars := intVars, heap := () } with
      | .ok root s => decide (s.errno = none ∧ (emitted intLayout root).length = 143)
      | .error _ _ => false) = true := by decide +kernel
  split at hrun
  · rename_i root s hok
    obtain ⟨herr, hlength⟩ := of_decide_eq_true hrun
    have hle := h symbols sixIncrements root s ⟨⟨60, hok⟩, herr⟩
    rw [hlength] at hle
    exact absurd hle (by decide)
  · cases hrun

end ControlRTT.Components.FinshCompiler
