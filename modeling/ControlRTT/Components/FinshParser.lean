import ControlRTT.Lib.Programs
import ControlRTT.Components.FinshToken

/-! # The parser of the FinSH shell

`components/finsh/finsh_parser.c`, with what it calls of `finsh_node.c` and `finsh_var.c`. The
functions are programs on the parser's state, over the tokens of a line. The loops and the two
functions that the others come back to, `procAssignExpr` and `procCastExpr`, take fuel. -/
namespace ControlRTT.Components.FinshParser
open FinshToken Lib.Programs

/-- `FINSH_NAME_MAX` -/
def finshNameMax : Nat := 16

/-- `FINSH_NODE_MAX` -/
def finshNodeMax : Nat := 16

inductive FinshType where
  | unknown | void | voidp | char | uchar | charp | short | ushort | shortp | int | uint | intp
  | long | ulong | longp
  deriving DecidableEq, Repr

/-- The number of a type. -/
def FinshType.code : FinshType → Nat
  | .unknown => 0
  | .void => 1
  | .voidp => 2
  | .char => 3
  | .uchar => 4
  | .charp => 5
  | .short => 6
  | .ushort => 7
  | .shortp => 8
  | .int => 9
  | .uint => 10
  | .intp => 11
  | .long => 12
  | .ulong => 13
  | .longp => 14

inductive NodeType where
  | id | valueChar | valueInt | valueLong | valueString | valueNull
  | add | sub | mul | div | mod | and | or | xor | bitwise | shl | shr | func | assign
  | preinc | predec | inc | dec | getvalue | getaddr
  deriving DecidableEq, Repr

/-- The entry that a name stands for, of `global_variable` or of a symbol table. -/
inductive Symbol where
  | var (i : Nat)
  | sysvar (i : Nat)
  | syscall (i : Nat)
  deriving DecidableEq, Repr

/-- `struct finsh_node` less its links. A cast leaves the number of its type in `dataType`, and of
`idtype` there are the kind of symbol, with the symbol, and `FINSH_IDTYPE_ADDRESS`. -/
structure NodeInfo where
  nodeType : NodeType
  dataType : Nat := 0
  value : BitVec 32 := 0
  id : Option Symbol := none
  address : Bool := false
  deriving DecidableEq, Repr

/-- A pointer to a node, and what is reached from it. -/
inductive Node where
  | null
  | mk (info : NodeInfo) (child sibling : Node)
  deriving DecidableEq, Repr

namespace Node

def isNull : Node → Bool
  | null => true
  | mk .. => false

def setChild : Node → Node → Node
  | null, _ => null
  | mk info _ sibling, child => mk info child sibling

def setSibling : Node → Node → Node
  | null, _ => null
  | mk info child _, sibling => mk info child sibling

def setDataType : Node → FinshType → Node
  | null, _ => null
  | mk info child sibling, type => mk { info with dataType := type.code } child sibling

def setValue : Node → BitVec 32 → Node
  | null, _ => null
  | mk info child sibling, value => mk { info with value := value } child sibling

end Node

/-- Nodes of which each is the sibling of the one before. -/
def link (nodes : List Node) (last : Node) : Node := nodes.foldr Node.setSibling last

/-- `struct finsh_var`, less its value. -/
structure Var where
  name : List Char := []
  type : FinshType := .unknown
  deriving DecidableEq, Repr

/-- What the parser is run with: the tokens of the line, none where a buffer of the tokenizer is
too short, the symbol tables, and `finsh_heap_allocate` for a string. -/
structure Env (H : Type) where
  tokens : Nat → Option Token
  sysvarLookup : List Char → Option Nat
  syscallLookup : List Char → Option Nat
  newString : List Char → H → BitVec 32 × H

/-- `struct finsh_parser` with the tokens that have been read, the error number, and so many
entries of `global_node_table` in use. -/
structure Parser (H : Type) where
  index : Nat := 0
  token : Token := ⟨.eof, 0, [], none⟩
  replay : Bool := false
  errno : Option FinshError := none
  nodes : Nat := 0
  vars : List Var
  heap : H

inductive Stop where
  | outOfFuel
  | overrun
  | nullNode
  deriving DecidableEq, Repr

section
variable {H : Type}

def finshErrorSet (e : FinshError) : EStateM Stop (Parser H) Unit :=
  modify fun self => { self with errno := some e }

def finshTokenReplay : EStateM Stop (Parser H) Unit :=
  modify fun self => { self with replay := true }

/-- `check_token` -/
def checkToken (token type : TokenType) : EStateM Stop (Parser H) Unit :=
  if token ≠ type then do
    finshErrorSet .invalidToken
    finshTokenReplay
  else pure ()

/-- `finsh_node_allocate`: no entry is given back while a line is parsed. -/
def finshNodeAllocate (type : NodeType) (value : BitVec 32) (id : Option Symbol) :
    EStateM Stop (Parser H) Node := do
  let self ← get
  if self.nodes < finshNodeMax then do
    set { self with nodes := self.nodes + 1 }
    pure (.mk { nodeType := type, value := value, id := id } .null .null)
  else pure .null

/-- `finsh_node_new_id` and the others that set an error where the table is full. -/
def finshNodeNew (type : NodeType) (value : BitVec 32) (id : Option Symbol) :
    EStateM Stop (Parser H) Node := do
  let node ← finshNodeAllocate type value id
  if node.isNull then do
    finshErrorSet .memoryFull
    pure node
  else pure node

def finshVarLookup (vars : List Var) (name : List Char) : Option Nat :=
  vars.findIdx? fun var => var.name = name

/-- `finsh_var_insert`, and the error where it fails. -/
def finshVarInsert (name : List Char) (type : FinshType) : EStateM Stop (Parser H) Unit := do
  let self ← get
  match finshVarLookup self.vars name, self.vars.findIdx? fun var => var.type = .unknown with
  | none, some empty => set { self with vars := self.vars.set empty ⟨name, type⟩ }
  | _, _ => finshErrorSet .variableExist

def makeSysNode (type : NodeType) (node1 node2 : Node) : EStateM Stop (Parser H) Node := do
  let node ← finshNodeAllocate type 0 none
  if !node1.isNull && !node.isNull then pure (node.setChild (node1.setSibling node2))
  else do
    finshErrorSet .nullNode
    pure node

/-- `is_base_type`, and the type of which the token is the name. -/
def baseType : TokenType → Option FinshType
  | .void => some .void
  | .char => some .char
  | .short => some .short
  | .int => some .int
  | .long => some .long
  | _ => none

def unsignedType : TokenType → Option FinshType
  | .char => some .uchar
  | .short => some .ushort
  | .int => some .uint
  | .long => some .ulong
  | _ => none

def pointerType : FinshType → FinshType
  | .char | .uchar => .charp
  | .short | .ushort => .shortp
  | .int | .uint => .intp
  | .long | .ulong => .longp
  | _ => .voidp

variable (env : Env H)

/-- `finsh_token_token` -/
def nextToken : EStateM Stop (Parser H) TokenType := do
  let self ← get
  if self.replay then do
    set { self with replay := false }
    pure self.token.type
  else
    match env.tokens self.index with
    | none => throw .overrun
    | some token => do
      set { self with index := self.index + 1, token := token, errno := token.error.or self.errno }
      pure token.type

def matchToken (type : TokenType) : EStateM Stop (Parser H) Unit := do
  checkToken (← nextToken env) type

/-- The end of `proc_type`. -/
def procPointer (type : FinshType) : EStateM Stop (Parser H) FinshType := do
  if (← nextToken env) = .mul then pure (pointerType type)
  else do
    finshTokenReplay
    pure type

/-- `__return` of `proc_type` -/
def unknownType : EStateM Stop (Parser H) FinshType := do
  finshTokenReplay
  finshErrorSet .unknownType
  pure .unknown

def procType : EStateM Stop (Parser H) FinshType := do
  let token ← nextToken env
  match baseType token with
  | some type => procPointer env type
  | none =>
    if token = .unsigned then do
      let token ← nextToken env
      match unsignedType token with
      | some type => procPointer env type
      | none =>
        if token = .void then unknownType
        else do
          finshTokenReplay
          finshErrorSet .expectType
          procPointer env .unknown
    else unknownType

/-- A name of more than `FINSH_NAME_MAX` characters is cut off there. -/
def procIdentifier : EStateM Stop (Parser H) (List Char) := do
  matchToken env .identifier
  return (← get).token.text.take finshNameMax

def finshNodeNewId (id : List Char) : EStateM Stop (Parser H) Node := do
  let self ← get
  match finshVarLookup self.vars id with
  | some i => finshNodeNew .id 0 (some (.var i))
  | none =>
    match env.sysvarLookup id with
    | some i => finshNodeNew .id 0 (some (.sysvar i))
    | none =>
      match env.syscallLookup id with
      | some i => finshNodeNew .id 0 (some (.syscall i))
      | none => do
        finshErrorSet .unknownSymbol
        pure .null

/-- The block is allocated, and the string put into it, once there is a node. What is written
through a null pointer is no part of the parser. -/
def finshNodeNewString (s : List Char) : EStateM Stop (Parser H) Node := do
  let node ← finshNodeNew .valueString 0 none
  if node.isNull then pure node
  else do
    let self ← get
    let (ptr, heap) := env.newString s self.heap
    set { self with heap := heap }
    pure (node.setValue ptr)

/-- The loop of the functions for the binary operators, of which `ops` are those of one level. -/
def binaryLoop (ops : List (TokenType × NodeType)) (operand : EStateM Stop (Parser H) Node) :
    Nat → Node → EStateM Stop (Parser H) Node
  | 0, _ => throw .outOfFuel
  | fuel + 1, left => do
    match ops.lookup (← nextToken env) with
    | none => do
      finshTokenReplay
      pure left
    | some op => do
      let right ← operand
      if right.isNull then do
        finshErrorSet .expectOperator
        binaryLoop ops operand fuel left
      else binaryLoop ops operand fuel (← makeSysNode op left right)

def binary (ops : List (TokenType × NodeType)) (operand : EStateM Stop (Parser H) Node)
    (fuel : Nat) : EStateM Stop (Parser H) Node := do
  binaryLoop env ops operand fuel (← operand)

section
variable (cast : EStateM Stop (Parser H) Node) (fuel : Nat)

def procMultiplicativeExpr : EStateM Stop (Parser H) Node :=
  binary env [(.mul, .mul), (.div, .div), (.mod, .mod)] cast fuel

def procAdditiveExpr : EStateM Stop (Parser H) Node :=
  binary env [(.sub, .sub), (.add, .add)] (procMultiplicativeExpr env cast fuel) fuel

def procShiftExpr : EStateM Stop (Parser H) Node :=
  binary env [(.shl, .shl), (.shr, .shr)] (procAdditiveExpr env cast fuel) fuel

def procAndExpr : EStateM Stop (Parser H) Node :=
  binary env [(.and, .and)] (procShiftExpr env cast fuel) fuel

def procExclusiveOrExpr : EStateM Stop (Parser H) Node :=
  binary env [(.xor, .xor)] (procAndExpr env cast fuel) fuel

def procInclusiveOrExpr : EStateM Stop (Parser H) Node :=
  binary env [(.or, .or)] (procExclusiveOrExpr env cast fuel) fuel

end

section
variable (assign : EStateM Stop (Parser H) Node)

def procPrimaryExpr : EStateM Stop (Parser H) Node := do
  match ← nextToken env with
  | .identifier => do
    finshTokenReplay
    finshNodeNewId env (← procIdentifier env)
  | .leftParen => do
    let expr ← assign
    matchToken env .rightParen
    pure expr
  | .valueInt => do finshNodeNew .valueInt (← get).token.value none
  | .valueLong => do finshNodeNew .valueLong (← get).token.value none
  | .valueChar => do finshNodeNew .valueChar (← get).token.value none
  | .valueString => do finshNodeNewString env (← get).token.text
  | .valueNull => finshNodeNew .valueNull 0 none
  | _ => do
    finshErrorSet .invalidToken
    pure .null

/-- The loop of `proc_param_list`, and the parameters behind the first one. -/
def paramLoop : Nat → List Node → EStateM Stop (Parser H) (List Node)
  | 0, _ => throw .outOfFuel
  | fuel + 1, params => do
    if (← nextToken env) = .comma then do
      let node ← assign
      if node.isNull then do
        finshErrorSet .expectOperator
        paramLoop fuel params
      else paramLoop fuel (params ++ [node])
    else do
      finshTokenReplay
      pure params

def procParamList (fuel : Nat) : EStateM Stop (Parser H) Node := do
  let node ← assign
  if node.isNull then pure .null
  else return link (node :: (← paramLoop env assign fuel [])) .null

/-- The branch of `proc_postfix_expr` for a `(`. -/
def procCall (fuel : Nat) (postfixNode : Node) : EStateM Stop (Parser H) Node := do
  if (← nextToken env) = .rightParen then makeSysNode .func postfixNode .null
  else do
    finshTokenReplay
    let params ← procParamList env assign fuel
    matchToken env .rightParen
    makeSysNode .func postfixNode params

def postfixLoop (callFuel : Nat) : Nat → Node → EStateM Stop (Parser H) Node
  | 0, _ => throw .outOfFuel
  | fuel + 1, node => do
    match ← nextToken env with
    | .inc => do postfixLoop callFuel fuel (← makeSysNode .inc node .null)
    | .dec => do postfixLoop callFuel fuel (← makeSysNode .dec node .null)
    | .leftParen => do postfixLoop callFuel fuel (← procCall env assign callFuel node)
    | _ => do
      finshTokenReplay
      pure node

def procPostfixExpr (fuel : Nat) : EStateM Stop (Parser H) Node := do
  postfixLoop env assign fuel fuel (← procPrimaryExpr env assign)

variable (cast : EStateM Stop (Parser H) Node)

def procUnaryExpr (fuel : Nat) : EStateM Stop (Parser H) Node := do
  match ← nextToken env with
  | .add => cast
  | .inc => do makeSysNode .preinc (← cast) .null
  | .sub => do
    let cast ← cast
    makeSysNode .sub (← finshNodeNew .valueLong 0 none) cast
  | .dec => do makeSysNode .predec (← cast) .null
  | .bitwise => do makeSysNode .bitwise (← cast) .null
  | .mul => do makeSysNode .getvalue (← cast) .null
  | .and => do makeSysNode .getaddr (← cast) .null
  | _ => do
    finshTokenReplay
    procPostfixExpr env assign fuel

end

mutual

def procCastExpr : Nat → EStateM Stop (Parser H) Node
  | 0 => throw .outOfFuel
  | fuel + 1 => do
    if (← nextToken env) = .leftParen then do
      let type ← procType env
      matchToken env .rightParen
      let cast ← procCastExpr fuel
      if cast.isNull then do
        finshTokenReplay
        procUnaryExpr env (procAssignExpr fuel) (procCastExpr fuel) fuel
      else pure (cast.setDataType type)
    else do
      finshTokenReplay
      procUnaryExpr env (procAssignExpr fuel) (procCastExpr fuel) fuel

def procAssignExpr : Nat → EStateM Stop (Parser H) Node
  | 0 => throw .outOfFuel
  | fuel + 1 => do
    let node ← procInclusiveOrExpr env (procCastExpr fuel) fuel
    if (← nextToken env) = .assign then do
      let assign ← procAssignExpr fuel
      makeSysNode .assign node assign
    else do
      finshTokenReplay
      pure node

end

/-- `expr` -/
def procExpr (fuel : Nat) : EStateM Stop (Parser H) Node := procAssignExpr env fuel

def procExprStatement (fuel : Nat) : EStateM Stop (Parser H) Node := do
  if (← nextToken env) = .semicolon then pure .null
  else do
    finshTokenReplay
    let expr ← procExpr env fuel
    matchToken env .semicolon
    pure expr

/-- The assignments of a declaration, with one more at the end. A null node, which is there only
where the table is full, has no sibling. -/
def declAppend (nodes : List Node) (node : Node) : EStateM Stop (Parser H) (List Node) :=
  match nodes.getLast? with
  | none => pure (if node.isNull then [] else [node])
  | some last => if last.isNull then throw .nullNode else pure (nodes ++ [node])

/-- Behind the `=` of a declaration: the assignments, and the token that is looked at next. -/
def declAssign (fuel : Nat) (id : List Char) (nodes : List Node) :
    EStateM Stop (Parser H) (List Node × TokenType) := do
  let assign ← procAssignExpr env fuel
  if assign.isNull then pure (nodes, .assign)
  else do
    let idnode ← finshNodeNewId env id
    let nodes ← declAppend nodes (← makeSysNode .assign idnode assign)
    return (nodes, ← nextToken env)

/-- The loops of `proc_variable_decl`, of which the one for a declaration that begins with more
than one name has its first round written out. -/
def declLoop (exprFuel : Nat) (type : FinshType) :
    Nat → List Node × TokenType → EStateM Stop (Parser H) (List Node × TokenType)
  | 0, _ => throw .outOfFuel
  | fuel + 1, (nodes, token) =>
    if token = .comma then do
      let id ← procIdentifier env
      finshVarInsert id type
      let token ← nextToken env
      if token = .assign then do
        declLoop exprFuel type fuel (← declAssign env exprFuel id nodes)
      else declLoop exprFuel type fuel (nodes, token)
    else pure (nodes, token)

/-- What both loops are followed by. -/
def declEnd (fuel : Nat) (type : FinshType) (decl : List Node × TokenType) :
    EStateM Stop (Parser H) Node := do
  let decl ← declLoop env fuel type fuel decl
  checkToken decl.2 .semicolon
  pure (link decl.1 .null)

def procVariableDecl (fuel : Nat) : EStateM Stop (Parser H) Node := do
  let type ← procType env
  let id ← procIdentifier env
  finshVarInsert id type
  match ← nextToken env with
  | .comma => declEnd env fuel type ([], .comma)
  | .assign => do declEnd env fuel type (← declAssign env fuel id [])
  | .semicolon => pure .null
  | _ => do
    finshErrorSet .expectType
    pure .null

def isDecl (token : TokenType) : Bool := (baseType token).isSome || token = .unsigned

/-- The loop of `finsh_parser_run` with the nodes before `node`, the one that the next statement is
linked to, and `node` null as long as there is no root. -/
def runLoop (stmtFuel : Nat) :
    Nat → List Node → Node → TokenType → EStateM Stop (Parser H) Node
  | 0, _, _, _ => throw .outOfFuel
  | fuel + 1, nodes, node, token =>
    if token = .eof ∨ token = .bad then pure (link nodes node)
    else do
      finshTokenReplay
      let stmt ← (if isDecl token then procVariableDecl env stmtFuel
        else procExprStatement env stmtFuel)
      if node.isNull then
        if stmt.isNull then pure .null
        else do runLoop stmtFuel fuel [] stmt (← nextToken env)
      else if stmt.isNull then do
        let _ ← (if token = .identifier ∨ isDecl token then pure token else nextToken env)
        runLoop stmtFuel fuel nodes (node.setSibling .null) (← nextToken env)
      else do runLoop stmtFuel fuel (nodes ++ [node]) stmt (← nextToken env)

/-- `finsh_parser_run` with a parser that has no root, as `finsh_flush` leaves it. The result is
the root. -/
def finshParserRun (fuel : Nat) : EStateM Stop (Parser H) Node := do
  runLoop env fuel fuel [] .null (← nextToken env)

end

section
variable {H : Type}

/-- The symbol tables and the allocator that a line is parsed with. -/
structure Symbols (H : Type) where
  sysvarLookup : List Char → Option Nat
  syscallLookup : List Char → Option Nat
  newString : List Char → H → BitVec 32 × H

def Symbols.env (symbols : Symbols H) (line : List Char) : Env H :=
  ⟨tokenAt line, symbols.sysvarLookup, symbols.syscallLookup, symbols.newString⟩

/-- The line is parsed with no error, to a tree and with the variables and the heap afterwards. -/
def Accepts (symbols : Symbols H) (vars : List Var) (heap : H) (line : List Char) (root : Node)
    (s : Parser H) : Prop :=
  (∃ fuel, finshParserRun (symbols.env line) fuel { vars := vars, heap := heap } = .ok root s) ∧
    s.errno = none

end

end ControlRTT.Components.FinshParser
