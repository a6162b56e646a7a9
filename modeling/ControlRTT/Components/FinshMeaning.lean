import ControlRTT.Components.FinshStack

/-! # What a FinSH line means

The value of a tree in which all names and numbers are words, with what becomes of the memory, as
one reads the line and without a look at the code that is made of it. The virtual machine comes to
that value with the code of `finsh_compiler.c` (`finshRunLine_meaning`), if the code fits into the
text segment. A cast means nothing: the compiler takes the type of what stands first in a tree. -/
namespace ControlRTT.Components.FinshMeaning
open FinshToken FinshParser FinshCompiler FinshVm FinshStack Lib.ByteMem

section
variable (machine : Machine) (layout : Layout)

/-- A variable stands for its address or for what is there. -/
def placeValue (a : BitVec 32) (isAddr : Bool) (m : Bytes) : Except Fault (BitVec 32) :=
  if isAddr then .ok a else loadWord machine m a

/-- What a name stands for. -/
def nameValue (id : Option Symbol) (isAddr : Bool) (m : Bytes) : Except Fault (BitVec 32) :=
  match id with
  | some (.syscall i) => .ok (layout.syscallFunc i)
  | some (.sysvar i) => placeValue machine (layout.sysvarAddr i) isAddr m
  | some (.var i) => placeValue machine (layout.valueAddr (.var i)) isAddr m
  | none => .error .wild

/-- An operator with its two operands. -/
def binary (op : BinOp) : List (BitVec 32) → Except Fault (BitVec 32)
  | [a, b] => operate op a b
  | _ => .error .wild

/-- An operator with one operand. -/
def unary (f : BitVec 32 → Except Fault (BitVec 32)) : List (BitVec 32) → Except Fault (BitVec 32)
  | [a] => f a
  | _ => .error .wild

/-- A function is called that is the first of the values. -/
def callValue (m : Bytes) : List (BitVec 32) → Except Fault (BitVec 32 × Bytes)
  | f :: args => .ok (callWith machine f args m)
  | [] => .error .wild

/-- The address of what is assigned to stands before the value. -/
def assignValue (m : Bytes) : List (BitVec 32) → Except Fault (BitVec 32 × Bytes)
  | [a, v] => (storeWord machine m a v).map fun m => (v, m)
  | _ => .error .wild

/-- One is added to a variable, or taken from it: the value before and the value after. -/
def bump (op : BinOp) (a : BitVec 32) (m : Bytes) :
    Except Fault (BitVec 32 × BitVec 32 × Bytes) := do
  let before ← loadWord machine m a
  let after ← operate op before 1
  let m ← storeWord machine m a after
  return (before, after, m)

/-- `++x` and `--x`, for the address of `x` -/
def preValue (op : BinOp) (m : Bytes) : List (BitVec 32) → Except Fault (BitVec 32 × Bytes)
  | [a] => (bump machine op a m).map fun x => (x.2.1, x.2.2)
  | _ => .error .wild

/-- `x++` and `x--` -/
def postValue (op : BinOp) (child : Node) (m : Bytes) : Except Fault (BitVec 32 × Bytes) :=
  match nameOf child with
  | some symbol => (bump machine op (layout.valueAddr symbol) m).map fun x => (x.1, x.2.2)
  | none => .error .wild

/-- The value of a node, for the values of its children. -/
def ownValue (info : NodeInfo) (child : Node) (isAddr : Bool) (vs : List (BitVec 32)) (m : Bytes) :
    Except Fault (BitVec 32 × Bytes) :=
  let pure (x : Except Fault (BitVec 32)) := x.map fun v => (v, m)
  match info.nodeType with
  | .id => pure (nameValue machine layout info.id isAddr m)
  | .valueChar | .valueInt | .valueLong | .valueString | .valueNull => .ok (info.value, m)
  | .add => pure (binary .add vs)
  | .sub => pure (binary .sub vs)
  | .mul => pure (binary .mul vs)
  | .div => pure (binary .div vs)
  | .mod => pure (binary .mod vs)
  | .and => pure (binary .and vs)
  | .or => pure (binary .or vs)
  | .xor => pure (binary .xor vs)
  | .shl => pure (binary .shl vs)
  | .shr => pure (binary .shr vs)
  | .bitwise => pure (unary (fun a => .ok (~~~a)) vs)
  | .func => callValue machine m vs
  | .assign => assignValue machine m vs
  | .preinc => preValue machine .add m vs
  | .predec => preValue machine .sub m vs
  | .inc => postValue machine layout .add child m
  | .dec => postValue machine layout .sub child m
  | .getvalue => pure (unary (fun a => placeValue machine a isAddr m) vs)
  | .getaddr => pure (unary .ok vs)

/-- The values of a tree and of its siblings, from the first one on. The tree may stand where an
address is asked for. -/
def meaning : Node → Bool → Bytes → Except Fault (List (BitVec 32) × Bytes)
  | .null, _, m => .ok ([], m)
  | .mk info child sibling, isAddr, m => do
    let operands ← meaning child (childAddress info.nodeType isAddr) m
    let value ← ownValue machine layout info child isAddr operands.1 operands.2
    let rest ← meaning sibling false value.2
    return (value.1 :: rest.1, rest.2)

/-- The value of the last statement of a line. -/
def lineMeaning : Node → Bytes → Except Fault (BitVec 32 × Bytes)
  | .null, _ => .error .wild
  | .mk info child sibling, m => do
    let statement ← meaning machine layout (.mk info child .null) false m
    if sibling.isNull then return (statement.1.headD 0, statement.2)
    else lineMeaning sibling statement.2

/-! ## Lines of words -/

/-- A node and those beside it. -/
def count : Node → Nat
  | .null => 0
  | .mk _ _ sibling => count sibling + 1

/-- The name of a variable of four bytes. -/
def IsWordName (id : Option Symbol) (isAddr : Bool) : Prop :=
  match id with
  | some (.syscall _) => isAddr = false
  | some (.sysvar i) => loadWidth (layout.sysvarType i) = some .dword
  | some (.var i) => loadWidth (layout.varType i) = some .dword
  | none => False

/-- What `++` and `--` are put to. -/
def isVar : Node → Bool
  | .mk { nodeType := .id, id := some (.var _), .. } .null .null => true
  | _ => false

/-- A node is on words, and has the children that the grammar gives it. -/
def OwnWords (info : NodeInfo) (child : Node) (isAddr : Bool) : Prop :=
  let word := widthOf (treeType layout (.mk info child .null)) = some .dword
  match info.nodeType with
  | .id => child = .null ∧ IsWordName layout info.id isAddr
  | .valueChar => False
  | .valueInt | .valueLong | .valueString | .valueNull => child = .null ∧ isAddr = false
  | .add | .sub | .mul | .div | .mod | .and | .or | .xor | .shl | .shr | .assign =>
    count child = 2 ∧ word ∧ isAddr = false
  | .bitwise => count child = 1 ∧ word ∧ isAddr = false
  | .func => 0 < count child ∧ count child ≤ 17 ∧ isAddr = false
  | .preinc | .predec | .inc | .dec => isVar child ∧ word ∧ isAddr = false
  | .getvalue => count child = 1 ∧ word ∧ info.id = none
  | .getaddr => count child = 1 ∧ isAddr = false

/-- All of a tree is on words. -/
def Words : Node → Bool → Prop
  | .null, _ => True
  | .mk info child sibling, isAddr =>
    info.address = false ∧ Words child (childAddress info.nodeType isAddr) ∧
      OwnWords layout info child isAddr ∧ Words sibling false

end

section
variable {machine : Machine} {layout : Layout} {info : NodeInfo} {child sibling node : Node}
  {isAddr : Bool} {vs operands : List (BitVec 32)} {m m' : Bytes} {a v : BitVec 32}

@[simp] theorem ok_bind {α β : Type} (x : α) (f : α → Except Fault β) :
    (Except.ok x >>= f) = f x := rfl

@[simp] theorem error_bind {α β : Type} (e : Fault) (f : α → Except Fault β) :
    (Except.error e >>= f) = .error e := rfl

theorem siblings_mk (info : NodeInfo) (child sibling : Node) :
    siblings (.mk info child sibling) = count sibling := by
  induction sibling generalizing info child with
  | null => rfl
  | mk info' child' sibling' _ ih => exact congrArg (· + 1) (ih info' child')

theorem count_finshTypeCheck (layout : Layout) (node : Node) (isAddr : Bool) :
    count (finshTypeCheck layout node isAddr).1 = count node := by
  induction node generalizing isAddr with
  | null => rfl
  | mk info child sibling _ ih => rw [finshTypeCheck_mk, count, count, ih]

theorem bind_ok {α β : Type} {x : Except Fault α} {f : α → Except Fault β} {y : β}
    (h : x >>= f = .ok y) : ∃ z, x = .ok z ∧ f z = .ok y := by
  cases x with
  | error e => cases h
  | ok z => exact ⟨z, rfl, h⟩

/-- As many values as there are nodes. -/
theorem length_meaning {r : List (BitVec 32) × Bytes}
    (h : meaning machine layout node isAddr m = .ok r) : r.1.length = count node := by
  induction node generalizing isAddr m r with
  | null =>
    cases h
    rfl
  | mk info child sibling _ ih =>
    rw [meaning] at h
    obtain ⟨operands, -, hown⟩ := bind_ok h
    obtain ⟨value, -, hrest⟩ := bind_ok hown
    obtain ⟨rest, hsibling, hvalues⟩ := bind_ok hrest
    cases hvalues
    rw [List.length_cons, ih hsibling, count]

/-! ## The code of a node -/

theorem actAll_one (op : Op) (vs : Stack) (m : Bytes) :
    actAll machine [op] vs m = act machine op vs m := by
  rw [actAll]
  cases act machine op vs m <;> rfl

/-- What is stored is loaded again. -/
theorem loadWord_storeWord (h : storeWord machine m a v = .ok m') :
    loadWord machine m' a = .ok v := by
  obtain ⟨ha, rfl⟩ := storeWord_ok h
  rw [loadWord, if_pos ha, load_store_self]

theorem ofWidth_dword {dataType : Nat} (h : widthOf dataType = some .dword)
    (ops : Width → List Op) : ofWidth dataType ops = ops .dword := by
  rw [ofWidth, h]

/-- The code for a node comes to its value, on a stack with the values of its children. -/
def Computes (machine : Machine) (ops : List Op) (operands vs : List (BitVec 32)) (m : Bytes)
    (value : Except Fault (BitVec 32 × Bytes)) : Prop :=
  actAll machine ops (operands.reverse ++ vs) m = value.map fun r => (r.1 :: vs, r.2)

theorem computes_binary (hlength : operands.length = 2) (op : BinOp) :
    Computes machine [.bin op .dword] operands vs m
      ((binary op operands).map fun v => (v, m)) := by
  obtain ⟨a, b, rfl⟩ := List.length_eq_two.mp hlength
  rw [Computes, actAll_one, act_bin]
  change onTwo _ (b :: a :: vs) = _
  rw [onTwo, binary]

theorem computes_bitwise (hlength : operands.length = 1) :
    Computes machine [.bitwise .dword] operands vs m
      ((unary (fun a => .ok (~~~a)) operands).map fun v => (v, m)) := by
  obtain ⟨a, rfl⟩ := List.length_eq_one_iff.mp hlength
  rfl

theorem computes_syscall (hpos : 0 < operands.length) (hmax : operands.length ≤ 17) :
    Computes machine [.syscall (operands.length - 1)] operands vs m
      (callValue machine m operands) := by
  cases operands with
  | nil => cases hpos
  | cons f args =>
    have hlength : args.reverse.length = args.length := List.length_reverse
    rw [List.length_cons] at hmax
    rw [Computes, actAll_one, act_syscall, syscall, List.length_cons, Nat.add_sub_cancel,
      List.reverse_cons, List.append_assoc, ← hlength, List.drop_left, List.take_left]
    dsimp only [List.singleton_append]
    rw [hlength, if_pos (Nat.le_of_succ_le_succ hmax), List.reverse_reverse]
    rfl

theorem computes_assign (hlength : operands.length = 2) :
    Computes machine [.st .dword, .ldValueStack .dword] operands vs m
      (assignValue machine m operands) := by
  obtain ⟨a, v, rfl⟩ := List.length_eq_two.mp hlength
  rw [Computes, actAll, act_st]
  change (onTwo _ (v :: a :: vs)).bind _ = _
  rw [onTwo, assignValue]
  cases hstore : storeWord machine m a v with
  | error e => rfl
  | ok m' =>
    change actAll machine [.ldValueStack .dword] (a :: vs) m' = _
    rw [actAll_one, act_ldValueStack, onTop, loadWord_storeWord hstore]
    rfl

/-- The code that `++` and `--` have in common, on the address of the variable. -/
theorem actAll_bump (op : BinOp) (vs : Stack) :
    actAll machine [.ldValue .dword a, .ld .dword 1, .bin op .dword, .st .dword] (a :: vs) m =
      (bump machine op a m).map fun x => (a :: vs, x.2.2) := by
  rw [actAll, act_ldValue, bump]
  cases hload : loadWord machine m a with
  | error e => rfl
  | ok before =>
    change actAll machine [.bin op .dword, .st .dword] (1 :: before :: a :: vs) m = _
    rw [actAll, act_bin, onTwo, ok_bind]
    cases hop : operate op before 1 with
    | error e => rfl
    | ok after =>
      change actAll machine [.st .dword] (after :: a :: vs) m = _
      rw [actAll_one, act_st, onTwo, ok_bind]
      cases storeWord machine m a after <;> rfl

theorem bump_ok {op : BinOp} {x : BitVec 32 × BitVec 32 × Bytes}
    (h : bump machine op a m = .ok x) :
    loadWord machine m a = .ok x.1 ∧ storeWord machine m a x.2.1 = .ok x.2.2 := by
  obtain ⟨before, hload, hrest⟩ := bind_ok h
  obtain ⟨after, -, hrest⟩ := bind_ok hrest
  obtain ⟨m', hstore, hx⟩ := bind_ok hrest
  cases hx
  exact ⟨hload, hstore⟩

theorem computes_pre (op : BinOp) :
    Computes machine
      [.ldValue .dword a, .ld .dword 1, .bin op .dword, .st .dword, .ldValueStack .dword] [a] vs m
      (preValue machine op m [a]) := by
  have hsplit := actAll_append machine
    [.ldValue .dword a, .ld .dword 1, .bin op .dword, .st .dword] [.ldValueStack .dword]
    (a :: vs) m
  rw [actAll_bump] at hsplit
  refine hsplit.trans ?_
  rw [preValue]
  cases hbump : bump machine op a m with
  | error e => rfl
  | ok x =>
    change actAll machine [.ldValueStack .dword] (a :: vs) x.2.2 = _
    rw [actAll_one, act_ldValueStack, onTop, loadWord_storeWord (bump_ok hbump).2]
    rfl

theorem computes_post (op : BinOp) (hload : loadWord machine m a = .ok v) :
    Computes machine
      [.ld .dword a, .ldValue .dword a, .ld .dword 1, .bin op .dword, .st .dword, .pop] [v] vs m
      ((bump machine op a m).map fun x => (x.1, x.2.2)) := by
  have hsplit := actAll_append machine
    [.ldValue .dword a, .ld .dword 1, .bin op .dword, .st .dword] [.pop] (a :: v :: vs) m
  rw [actAll_bump] at hsplit
  have hpushed : actAll machine [.ld .dword a, .ldValue .dword a, .ld .dword 1, .bin op .dword,
      .st .dword, .pop] (v :: vs) m = actAll machine ([.ldValue .dword a, .ld .dword 1,
      .bin op .dword, .st .dword] ++ [.pop]) (a :: v :: vs) m := rfl
  refine (hpushed.trans hsplit).trans ?_
  cases hbump : bump machine op a m with
  | error e => rfl
  | ok x =>
    have hvalue := (bump_ok hbump).1
    rw [hload] at hvalue
    cases hvalue
    rfl

theorem computes_getvalue (hlength : operands.length = 1) (isAddr : Bool) :
    Computes machine (if isAddr then [] else [.ldValueStack .dword]) operands vs m
      ((unary (fun a => placeValue machine a isAddr m) operands).map fun v => (v, m)) := by
  obtain ⟨a, rfl⟩ := List.length_eq_one_iff.mp hlength
  cases isAddr with
  | true => rfl
  | false =>
    rw [Computes, if_neg Bool.false_ne_true, actAll_one, act_ldValueStack]
    change onTop _ (a :: vs) m = (((loadWord machine m a).map _).map _)
    rw [onTop]
    cases loadWord machine m a <;> rfl

theorem computes_getaddr (hlength : operands.length = 1) :
    Computes machine [] operands vs m ((unary .ok operands).map fun v => (v, m)) := by
  obtain ⟨a, rfl⟩ := List.length_eq_one_iff.mp hlength
  rfl

theorem computes_value (x : BitVec 32) :
    Computes machine [.ld .dword x] [] vs m (.ok (x, m)) := rfl

theorem computes_variable (isAddr : Bool) :
    Computes machine [if isAddr then .ld .dword a else .ldValue .dword a] [] vs m
      ((placeValue machine a isAddr m).map fun v => (v, m)) := by
  cases isAddr with
  | true => rfl
  | false =>
    rw [Computes, if_neg Bool.false_ne_true, actAll_one, act_ldValue, placeValue,
      if_neg Bool.false_ne_true]
    cases loadWord machine m a <;> rfl

theorem computes_name (hword : IsWordName layout info.id isAddr) (haddress : info.address = false)
    (dataType : Nat) :
    Computes machine
      (loadId layout { info with address := markAddress info isAddr, dataType := dataType }) [] vs m
      ((nameValue machine layout info.id isAddr m).map fun v => (v, m)) := by
  unfold IsWordName at hword
  unfold loadId nameValue markAddress
  dsimp only
  cases hid : info.id with
  | none =>
    rw [hid] at hword
    exact hword.elim
  | some symbol =>
    rw [hid] at hword
    rw [haddress, Bool.false_or]
    cases symbol with
    | syscall i => rfl
    | sysvar i =>
      dsimp only at hword ⊢
      rw [loadVar, hword]
      exact computes_variable isAddr
    | var i =>
      dsimp only at hword ⊢
      rw [loadVar, hword]
      exact computes_variable isAddr

/-- The name behind `++` or `--`, and what it is worth. -/
theorem meaning_isVar (hvar : isVar child) {r : List (BitVec 32) × Bytes}
    (h : meaning machine layout child isAddr m = .ok r) :
    ∃ symbol x, nameOf child = some symbol ∧ r = ([x], m) ∧
      placeValue machine (layout.valueAddr symbol) isAddr m = .ok x := by
  unfold isVar at hvar
  split at hvar
  · rename_i info i hinfo
    rw [meaning, meaning, ok_bind, ownValue] at h
    obtain ⟨value, hvalue, hrest⟩ := bind_ok h
    obtain ⟨x, hx, rfl⟩ := map_ok hvalue
    cases hrest
    exact ⟨.var i, x, rfl, rfl, hx⟩
  · cases hvar

theorem widthOf_eq {dataType : Nat} (h : widthOf dataType = some .dword) : dataType = 3 := by
  unfold widthOf at h
  split at h <;> cases h
  rfl

theorem treeType_of_child (h : 0 < count child) :
    treeType layout (.mk info child sibling) = treeType layout child := by
  cases child with
  | null => cases h
  | mk info child sibling => rfl

/-- What is assigned to is a name or a `*`. -/
theorem targetType_of_words (hwords : Words layout child true) (hpos : 0 < count child)
    (htype : widthOf (treeType layout child) = some .dword) :
    targetType (finshTypeCheck layout child true).1 = some 3 := by
  cases child with
  | null => cases hpos
  | mk info child sibling =>
    obtain ⟨-, -, hown, -⟩ := hwords
    rw [finshTypeCheck_mk, targetType]
    dsimp only
    rw [widthOf_eq htype]
    unfold OwnWords at hown
    cases htype : info.nodeType with
    | id => rfl
    | getvalue => rfl
    | _ =>
      rw [htype] at hown
      simp at hown

theorem computes_ownValue (sibling : Node) (hwords : OwnWords layout info child isAddr)
    (hchildWords : Words layout child (childAddress info.nodeType isAddr))
    (haddress : info.address = false) {m₀ : Bytes}
    (hchild : meaning machine layout child (childAddress info.nodeType isAddr) m₀ =
      .ok (operands, m)) (vs : Stack) :
    Computes machine (compileNode layout
      { info with
        address := markAddress info isAddr
        dataType := treeType layout (.mk info child sibling) }
      (finshTypeCheck layout child (childAddress info.nodeType isAddr)).1).1 operands vs m
      (ownValue machine layout info child isAddr operands m) := by
  have hlength : operands.length = count child := length_meaning hchild
  have htype : treeType layout (.mk info child sibling) =
      treeType layout (.mk info child .null) := rfl
  rw [htype]
  obtain ⟨type, dataType, value, id, address⟩ := info
  unfold OwnWords at hwords
  cases type with
  | id =>
    obtain ⟨rfl, hword⟩ := hwords
    cases hchild
    exact computes_name hword haddress _
  | valueChar => exact hwords.elim
  | valueInt | valueLong | valueString | valueNull =>
    obtain ⟨rfl, -⟩ := hwords
    cases hchild
    exact computes_value value
  | add | sub | mul | div | mod | and | or | xor | shl | shr =>
    obtain ⟨hcount, hword, -⟩ := hwords
    unfold compileNode
    dsimp only
    rw [ofWidth_dword hword]
    exact computes_binary (hlength.trans hcount) _
  | bitwise =>
    obtain ⟨hcount, hword, -⟩ := hwords
    unfold compileNode
    dsimp only
    rw [ofWidth_dword hword]
    exact computes_bitwise (hlength.trans hcount)
  | func =>
    obtain ⟨hpos, hmax, -⟩ := hwords
    have hsiblings : siblings (finshTypeCheck layout child (childAddress .func isAddr)).1 =
        operands.length - 1 := by
      rw [hlength, ← count_finshTypeCheck layout child (childAddress .func isAddr)]
      cases hnode : (finshTypeCheck layout child (childAddress .func isAddr)).1 with
      | null => rfl
      | mk info child sibling => rw [siblings_mk, count, Nat.add_sub_cancel]
    have hnull : child.isNull = false := by
      cases child with
      | null => cases hpos
      | mk info child sibling => rfl
    unfold compileNode
    dsimp only
    rw [isNull_finshTypeCheck, hnull, if_neg Bool.false_ne_true, hsiblings]
    exact computes_syscall (by rwa [hlength]) (by rwa [hlength])
  | assign =>
    obtain ⟨hcount, hword, -⟩ := hwords
    have hpos : 0 < count child := by rw [hcount]; exact Nat.succ_pos _
    rw [treeType_of_child hpos] at hword
    have htarget := targetType_of_words hchildWords hpos hword
    unfold compileNode
    dsimp only [childAddress]
    rw [compileAssign, htarget]
    exact computes_assign (hlength.trans hcount)
  | preinc | predec =>
    obtain ⟨hvar, hword, -⟩ := hwords
    obtain ⟨symbol, x, hname, hr, hx⟩ := meaning_isVar hvar hchild
    cases hr
    cases hx
    unfold compileNode
    dsimp only
    rw [compilePre, nameOf_finshTypeCheck, hname]
    dsimp only
    rw [ofWidth_dword hword]
    exact computes_pre _
  | inc | dec =>
    obtain ⟨hvar, hword, rfl⟩ := hwords
    obtain ⟨symbol, x, hname, hr, hx⟩ := meaning_isVar hvar hchild
    cases hr
    unfold compileNode ownValue
    dsimp only
    rw [compilePost, nameOf_finshTypeCheck, postValue, hname]
    dsimp only
    rw [ofWidth_dword hword]
    exact computes_post _ hx
  | getvalue =>
    obtain ⟨hcount, hword, rfl⟩ := hwords
    cases haddress
    unfold compileNode
    dsimp only
    rw [ofWidth_dword hword]
    exact computes_getvalue (hlength.trans hcount) isAddr
  | getaddr => exact computes_getaddr (hlength.trans hwords.1)

/-! ## The code of a line -/

/-- The code of a tree comes to its values. -/
theorem actAll_finshCompile (hwords : Words layout node isAddr) (vs : Stack) (m : Bytes) :
    actAll machine (finshCompile layout (finshTypeCheck layout node isAddr).1).1 vs m =
      (meaning machine layout node isAddr m).map fun r => (r.1.reverse ++ vs, r.2) := by
  induction node generalizing isAddr vs m with
  | null => rfl
  | mk info child sibling ihc ihs =>
    obtain ⟨haddress, hchildWords, hown, hsiblingWords⟩ := hwords
    rw [finshTypeCheck_mk, finshCompile, meaning]
    dsimp only
    rw [actAll_append, actAll_append, ihc hchildWords]
    cases hchild : meaning machine layout child (childAddress info.nodeType isAddr) m with
    | error e => rfl
    | ok operands =>
      have hvalue := computes_ownValue sibling hown hchildWords haddress hchild vs
      dsimp only [Except.map, Except.bind]
      rw [hvalue, ok_bind]
      cases hvalue : ownValue machine layout info child isAddr operands.1 operands.2 with
      | error e => rfl
      | ok value =>
        dsimp only [Except.map, Except.bind]
        rw [ihs hsiblingWords, ok_bind]
        cases meaning machine layout sibling false value.2 with
        | error e => rfl
        | ok rest =>
          dsimp only [Except.map, pure, Except.pure, ok_bind]
          rw [List.reverse_cons, List.append_assoc]
          rfl

theorem leafType_errors (isAddr : Bool)
    (hname : info.nodeType = .id → IsWordName layout info.id isAddr) :
    (leafType layout info).2 = [] := by
  have hword : ∀ type : FinshType, loadWidth type = some .dword →
      ∃ dataType, dataTypeOf type = some dataType := by
    intro type hload
    cases type <;> first | exact ⟨_, rfl⟩ | cases hload
  unfold leafType
  dsimp only
  split
  · rename_i hid
    have hname := hname hid
    unfold IsWordName at hname
    split
    · rename_i i hvar
      rw [hvar] at hname
      obtain ⟨dataType, htype⟩ := hword _ hname
      rw [htype]
    · rename_i i hvar
      rw [hvar] at hname
      obtain ⟨dataType, htype⟩ := hword _ hname
      rw [htype]
    · rfl
  · rfl
  · rfl
  · rfl
  · rfl
  · rfl
  · rfl

/-- No error is set for a tree of words. -/
theorem finshTypeCheck_errors (hwords : Words layout node isAddr) :
    (finshTypeCheck layout node isAddr).2 = [] := by
  induction node generalizing isAddr with
  | null => rfl
  | mk info child sibling ihc ihs =>
    obtain ⟨-, hchildWords, hown, hsiblingWords⟩ := hwords
    rw [finshTypeCheck]
    dsimp only
    rw [ihc hchildWords, ihs hsiblingWords]
    split
    · refine leafType_errors isAddr fun hid => ?_
      unfold OwnWords at hown
      dsimp only at hid
      rw [hid] at hown
      exact hown.2
    · rfl

theorem compileNode_errors (hown : OwnWords layout info child isAddr)
    (hchildWords : Words layout child (childAddress info.nodeType isAddr)) (dataType : Nat)
    (address : Bool) :
    (compileNode layout { info with address := address, dataType := dataType }
      (finshTypeCheck layout child (childAddress info.nodeType isAddr)).1).2 = [] := by
  unfold compileNode
  unfold OwnWords at hown
  obtain ⟨type, dataType', value, id, address'⟩ := info
  cases type with
  | assign =>
    obtain ⟨hcount, hword, -⟩ := hown
    have hpos : 0 < count child := by rw [hcount]; exact Nat.succ_pos _
    rw [treeType_of_child hpos] at hword
    have htarget := targetType_of_words hchildWords hpos hword
    dsimp only [childAddress]
    rw [compileAssign, htarget]
    rfl
  | _ => rfl

theorem finshCompile_errors (hwords : Words layout node isAddr) :
    (finshCompile layout (finshTypeCheck layout node isAddr).1).2 = [] := by
  induction node generalizing isAddr with
  | null => rfl
  | mk info child sibling ihc ihs =>
    obtain ⟨-, hchildWords, hown, hsiblingWords⟩ := hwords
    rw [finshTypeCheck_mk, finshCompile]
    dsimp only
    rw [ihc hchildWords, ihs hsiblingWords, compileNode_errors hown hchildWords]
    rfl

/-- One statement after the other, as the line has them. -/
theorem compileStatements_mk (info : NodeInfo) (child sibling : Node) :
    compileStatements layout (finshTypeCheck layout (.mk info child sibling) false).1 =
      let one := finshCompile layout (finshTypeCheck layout (.mk info child .null) false).1
      let rest := compileStatements layout (finshTypeCheck layout sibling false).1
      (one.1 ++ (if sibling.isNull then [] else [.pop]) ++ rest.1, one.2 ++ rest.2) := by
  rw [finshTypeCheck_mk, finshTypeCheck_mk, compileStatements, isNull_finshTypeCheck]
  rfl

theorem Words.statement (h : Words layout (.mk info child sibling) isAddr) :
    Words layout (.mk info child .null) isAddr := ⟨h.1, h.2.1, h.2.2.1, True.intro⟩

/-- The code of the statements of a line. -/
theorem actAll_compileStatements (hwords : Words layout node false) (hpos : 0 < count node)
    (m : Bytes) :
    actAll machine (compileStatements layout (finshTypeCheck layout node false).1).1 [] m =
      (lineMeaning machine layout node m).map fun r => ([r.1], r.2) := by
  induction node generalizing m with
  | null => cases hpos
  | mk info child sibling _ ihs =>
    rw [compileStatements_mk, lineMeaning]
    dsimp only
    rw [actAll_append, actAll_append, actAll_finshCompile hwords.statement]
    cases hmeaning : meaning machine layout (.mk info child .null) false m with
    | error e => rfl
    | ok r =>
      obtain ⟨values, m'⟩ := r
      obtain ⟨v, rfl⟩ := List.length_eq_one_iff.mp (length_meaning hmeaning)
      rw [ok_bind]
      cases sibling with
      | null => rfl
      | mk info' child' sibling' => exact ihs hwords.2.2.2 (Nat.succ_pos _) m'

theorem compileStatements_errors (hwords : Words layout node false) :
    (compileStatements layout (finshTypeCheck layout node false).1).2 = [] := by
  induction node with
  | null => rfl
  | mk info child sibling _ ihs =>
    rw [compileStatements_mk]
    dsimp only
    rw [ihs hwords.2.2.2, finshCompile_errors hwords.statement]
    rfl

end

/-- What a line of words does: the virtual machine comes to its value, and to the memory that it
leaves but for the stack of the machine, or it traps where the line does. The functions that it
calls leave the memory of the machine alone, and a line that touches it has no meaning. -/
theorem finshRunLine_meaning {machine : Machine} (hspares : Spares machine) {layout : Layout}
    {root : Node} (hwords : Words layout root false) (hpos : 0 < count root)
    (hfit : statementsSize layout root ≤ finshTextMax) (mem : Bytes) :
    match lineMeaning machine layout root
      (compiled machine (finshCompilerRun layout root).1 mem) with
    | .ok (v, m) => ∃ mem', finshRunLine machine layout root mem = some (some v, mem') ∧
        AgreeOff (stackBytes machine) m mem'
    | .error .trap => finshRunLine machine layout root mem = none
    | .error .wild => True := by
  have herrors : (finshCompilerRun layout root).2 = [] := by
    rw [finshCompilerRun]
    dsimp only
    rw [finshTypeCheck_errors hwords, compileStatements_errors hwords]
    rfl
  have hlength : codeLength (finshCompilerRun layout root).1 ≤ finshTextMax := by
    rw [← codeLength_compileStatements] at hfit
    exact hfit
  have hops : actAll machine (finshCompilerRun layout root).1 []
      (compiled machine (finshCompilerRun layout root).1 mem) = _ :=
    actAll_compileStatements hwords hpos _
  have hrun := finshVmRun_actAll hspares hlength mem
  rw [hops] at hrun
  rw [finshRunLine]
  dsimp only
  rw [if_neg (not_not_intro herrors)]
  cases hmeaning : lineMeaning machine layout root
      (compiled machine (finshCompilerRun layout root).1 mem) with
  | error e =>
    rw [hmeaning] at hrun
    cases e with
    | trap =>
      rw [show finshVmRun machine _ = none from hrun]
      rfl
    | wild => exact True.intro
  | ok r =>
    rw [hmeaning] at hrun
    obtain ⟨vm, hvm, hsim⟩ := hrun
    have hbottom : finshStackBottom machine vm.mem = r.1 := by
      have hslot := hsim.slots.1
      rwa [List.length_nil, Nat.mul_zero, BitVec.add_zero] at hslot
    rw [hvm]
    exact ⟨vm.mem, congrArg (fun v => some (some v, vm.mem)) hbottom, hsim.mem⟩

/-- The machine of the examples, whose functions do nothing. -/
theorem exampleMachine_spares : Spares exampleMachine where
  toCallsSpareStack := exampleMachine_callsSpareStack
  apart := by
    intro b hb
    rw [textBytes, Access.covers_iff] at hb
    rw [← Bool.not_eq_true, stackBytes, Access.covers_iff]
    simp only [exampleMachine, finshTextMax, finshStackMax] at hb ⊢
    bv_omega
  code := fun _ _ _ _ _ => rfl

/-- The tree of `x++*6;`. -/
def incTimesSix : Node :=
  .mk { nodeType := .mul } (.mk { nodeType := .inc }
    (.mk { nodeType := .id, id := some (.var 0) } .null .null)
    (.mk { nodeType := .valueInt, value := 6 } .null .null)) .null

/-- An `int` behind the text segment. -/
def incLayout : Layout := { intLayout with valueAddr := fun _ => 0x20000180 }

theorem incTimesSix_words : Words incLayout incTimesSix false :=
  ⟨rfl, ⟨rfl, ⟨rfl, True.intro, ⟨rfl, rfl⟩, True.intro⟩, ⟨rfl, rfl, rfl⟩,
    rfl, True.intro, ⟨rfl, rfl⟩, True.intro⟩, ⟨rfl, rfl, rfl⟩, True.intro⟩

/-- With 7 in it, the line prints 42. -/
theorem finshRunLine_incTimesSix :
    let mem := put (fun _ => 0) 0x20000180 [7]
    let m := compiled exampleMachine (finshCompilerRun incLayout incTimesSix).1 mem
    ((lineMeaning exampleMachine incLayout incTimesSix m).toOption.map Prod.fst) = some 42 ∧
      match lineMeaning exampleMachine incLayout incTimesSix m with
      | .ok (v, m) => ∃ mem', finshRunLine exampleMachine incLayout incTimesSix mem =
          some (some v, mem') ∧ AgreeOff (stackBytes exampleMachine) m mem'
      | .error .trap => finshRunLine exampleMachine incLayout incTimesSix mem = none
      | .error .wild => True :=
  ⟨by decide +kernel, finshRunLine_meaning exampleMachine_spares incTimesSix_words (Nat.succ_pos _)
    (by decide) _⟩

end ControlRTT.Components.FinshMeaning
