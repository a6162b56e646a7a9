import ControlRTT.Components.FinshParser

/-! # The grammar of FinSH expressions

The comments of `components/finsh/finsh_parser.c` give a production to each of its functions. `Expr`
are the derivations, of these and of what the parser reads besides, by the position of the tokens
that they spell (`Spells`). How tightly an operator binds, and to which side, is in the ranks of
the operands (`Formed`). -/
namespace ControlRTT.Components.FinshGrammar
open FinshToken FinshParser

/-- What stands between the parentheses of a cast. -/
structure CastType where
  unsigned : Bool
  base : TokenType
  pointer : Bool
  deriving DecidableEq, Repr

def CastType.tokens (type : CastType) : List TokenType :=
  (if type.unsigned then [.unsigned] else []) ++ [type.base] ++
    (if type.pointer then [.mul] else [])

/-- What `proc_type` makes of it. -/
def CastType.finshType (type : CastType) : Option FinshType :=
  (if type.unsigned then unsignedType type.base else baseType type.base).map fun base =>
    if type.pointer then pointerType base else base

/-- A derivation. The last three are those of a `param_list`. -/
inductive Expr where
  | leaf (token : Token)
  | paren (e : Expr)
  | post (op : TokenType) (e : Expr)
  | call (f args : Expr)
  | pre (op : TokenType) (e : Expr)
  | cast (type : CastType) (e : Expr)
  | bin (level : Nat) (op : TokenType × NodeType) (left right : Expr)
  | assign (target e : Expr)
  | noParam
  | param (e : Expr)
  | params (list e : Expr)
  deriving DecidableEq, Repr

/-- The binary operators, from those that bind most tightly on. -/
def levelOps : Nat → List (TokenType × NodeType)
  | 1 => [(.mul, .mul), (.div, .div), (.mod, .mod)]
  | 2 => [(.sub, .sub), (.add, .add)]
  | 3 => [(.shl, .shl), (.shr, .shr)]
  | 4 => [(.and, .and)]
  | 5 => [(.xor, .xor)]
  | 6 => [(.or, .or)]
  | 7 => [(.assign, .assign)]
  | _ => []

def isLeaf : TokenType → Bool
  | .identifier | .valueInt | .valueLong | .valueChar | .valueString | .valueNull => true
  | _ => false

def isPost : TokenType → Bool
  | .inc | .dec => true
  | _ => false

def isPre : TokenType → Bool
  | .add | .inc | .sub | .dec | .bitwise | .mul | .and => true
  | _ => false

namespace Expr

/-- The production that a derivation begins with: `expr_primary`, `expr_postfix`, `expr_unary`,
`expr_cast`, those of the binary operators, `expr_assign`, and `param_list`. -/
def rank : Expr → Nat
  | leaf _ | paren _ => 0
  | post .. | call .. => 1
  | pre .. => 2
  | cast .. => 3
  | bin level .. => 3 + level
  | assign .. => 10
  | noParam | param _ | params .. => 11

/-- Each operand is of a rank that the production has room for. The target of an assignment, which
is `expr_unary` in the comment, is what the parser takes for one. -/
def Formed : Expr → Prop
  | leaf token => isLeaf token.type = true
  | paren e => e.Formed ∧ e.rank ≤ 10
  | post op e => isPost op = true ∧ e.Formed ∧ e.rank ≤ 1
  | call f args => (f.Formed ∧ f.rank ≤ 1) ∧ args.Formed ∧ args.rank = 11
  | pre op e => isPre op = true ∧ e.Formed ∧ e.rank ≤ 3
  | cast type e => (baseType type.base).isSome = true ∧ e.Formed ∧ e.rank ≤ 3
  | bin level op left right =>
    (1 ≤ level ∧ level ≤ 6 ∧ op ∈ levelOps level) ∧ (left.Formed ∧ left.rank ≤ 3 + level) ∧
      right.Formed ∧ right.rank < 3 + level
  | assign target e => (target.Formed ∧ target.rank ≤ 9) ∧ e.Formed ∧ e.rank ≤ 10
  | noParam => True
  | param e => e.Formed ∧ e.rank ≤ 10
  | params list e => (list.Formed ∧ list.rank = 11) ∧ e.Formed ∧ e.rank ≤ 10

/-- The grammar of the comments: what an assignment is to is `expr_unary`, and of a type there is
`VOID`, `CHAR`, `SHORT` and `INT`. There is no token for their `STRING`. -/
def InGrammar : Expr → Prop
  | leaf _ | noParam => True
  | paren e | post _ e | pre _ e | param e => e.InGrammar
  | call f args => f.InGrammar ∧ args.InGrammar
  | cast type e => (type.base ≠ .long ∧ type.pointer = false) ∧ e.InGrammar
  | bin _ _ left right => left.InGrammar ∧ right.InGrammar
  | assign target e => target.rank ≤ 2 ∧ target.InGrammar ∧ e.InGrammar
  | params list e => list.InGrammar ∧ e.InGrammar

/-- What `make_sys_node` allocates, and the others. -/
def size : Expr → Nat
  | leaf _ => 1
  | paren e | param e | cast _ e => e.size
  | post _ e => e.size + 1
  | call f args => f.size + args.size + 1
  | pre op e => e.size + (if op = .add then 0 else if op = .sub then 2 else 1)
  | bin _ _ left right => left.size + right.size + 1
  | assign target e => target.size + e.size + 1
  | noParam => 0
  | params list e => list.size + e.size

end Expr

section
variable {H : Type} (env : Env H)

/-- At this position there is a token of the type, in which there is no error. -/
def TypeAt (i : Nat) (type : TokenType) : Prop :=
  ∃ t, env.tokens i = some t ∧ t.error = none ∧ t.type = type

/-- The tokens from a position on, up to another. -/
def TypesAt : Nat → List TokenType → Nat → Prop
  | p, [], q => q = p
  | p, type :: types, q => TypeAt env p type ∧ TypesAt (p + 1) types q

/-- The tokens from `p` up to `q` are those of the derivation. -/
def Spells : Expr → Nat → Nat → Prop
  | .leaf token, p, q => (env.tokens p = some token ∧ token.error = none) ∧ q = p + 1
  | .paren e, p, q =>
    ∃ m, TypeAt env p .leftParen ∧ Spells e (p + 1) m ∧ TypeAt env m .rightParen ∧ q = m + 1
  | .post op e, p, q => ∃ m, Spells e p m ∧ TypeAt env m op ∧ q = m + 1
  | .call f args, p, q =>
    ∃ m m', Spells f p m ∧ TypeAt env m .leftParen ∧ Spells args (m + 1) m' ∧
      TypeAt env m' .rightParen ∧ q = m' + 1
  | .pre op e, p, q => TypeAt env p op ∧ Spells e (p + 1) q
  | .cast type e, p, q =>
    ∃ m, TypeAt env p .leftParen ∧ TypesAt env (p + 1) type.tokens m ∧
      TypeAt env m .rightParen ∧ Spells e (m + 1) q
  | .bin _ op left right, p, q =>
    ∃ m, Spells left p m ∧ TypeAt env m op.1 ∧ Spells right (m + 1) q
  | .assign target e, p, q =>
    ∃ m, Spells target p m ∧ TypeAt env m .assign ∧ Spells e (m + 1) q
  | .noParam, p, q => q = p
  | .param e, p, q => Spells e p q
  | .params list e, p, q => ∃ m, Spells list p m ∧ TypeAt env m .comma ∧ Spells e (m + 1) q

/-- The entry that a name stands for. -/
def symbolOf (vars : List Var) (name : List Char) : Option Symbol :=
  match finshVarLookup vars name with
  | some i => some (.var i)
  | none =>
    match env.sysvarLookup name with
    | some i => some (.sysvar i)
    | none => (env.syscallLookup name).map .syscall

def nameSymbol (vars : List Var) (token : Token) : Option Symbol :=
  symbolOf env vars (token.text.take finshNameMax)

/-- What the parser reads of it: names that are known, no expression in parentheses, types that
`proc_type` knows, and no parameter that is left out. -/
def Handled (vars : List Var) : Expr → Prop
  | .leaf token => token.type = .identifier → (nameSymbol env vars token).isSome = true
  | .paren _ => False
  | .noParam => True
  | .post _ e | .pre _ e | .param e => Handled vars e
  | .call f args => Handled vars f ∧ Handled vars args
  | .cast type e => type.finshType.isSome = true ∧ Handled vars e
  | .bin _ _ left right => Handled vars left ∧ Handled vars right
  | .assign target e => Handled vars target ∧ Handled vars e
  | .params list e => list ≠ .noParam ∧ Handled vars list ∧ Handled vars e

/-- The tree for an operator. -/
def sysNode (type : NodeType) (node1 node2 : Node) : Node :=
  .mk { nodeType := type } (node1.setSibling node2) .null

/-- A node behind the last of those that are linked. -/
def addLast : Node → Node → Node
  | .null, node => node
  | .mk info child sibling, node => .mk info child (addLast sibling node)

def leafNode (vars : List Var) (token : Token) (h : H) : Node × H :=
  match token.type with
  | .identifier => (.mk { nodeType := .id, id := nameSymbol env vars token } .null .null, h)
  | .valueInt => (.mk { nodeType := .valueInt, value := token.value } .null .null, h)
  | .valueLong => (.mk { nodeType := .valueLong, value := token.value } .null .null, h)
  | .valueChar => (.mk { nodeType := .valueChar, value := token.value } .null .null, h)
  | .valueString =>
    let (ptr, h) := env.newString token.text h
    (.mk { nodeType := .valueString, value := ptr } .null .null, h)
  | _ => (.mk { nodeType := .valueNull } .null .null, h)

def preNode (op : TokenType) (node : Node) : Node :=
  match op with
  | .inc => sysNode .preinc node .null
  | .sub => sysNode .sub (.mk { nodeType := .valueLong } .null .null) node
  | .dec => sysNode .predec node .null
  | .bitwise => sysNode .bitwise node .null
  | .mul => sysNode .getvalue node .null
  | .and => sysNode .getaddr node .null
  | _ => node

def postNode (op : TokenType) (node : Node) : Node :=
  if op = .inc then sysNode .inc node .null else sysNode .dec node .null

/-- The tree of a derivation, in which each operator is over its operands, and the heap when the
strings from left to right have been put there. Of parameters it is the first one, with the others
linked behind it. -/
def build (vars : List Var) : Expr → H → Node × H
  | .leaf token, h => leafNode env vars token h
  | .paren e, h | .param e, h => build vars e h
  | .post op e, h =>
    let (node, h) := build vars e h
    (postNode op node, h)
  | .call f args, h =>
    let (node, h) := build vars f h
    let (args, h) := build vars args h
    (sysNode .func node args, h)
  | .pre op e, h =>
    let (node, h) := build vars e h
    (preNode op node, h)
  | .cast type e, h =>
    let (node, h) := build vars e h
    (node.setDataType (type.finshType.getD .unknown), h)
  | .bin _ op left right, h =>
    let (left, h) := build vars left h
    let (right, h) := build vars right h
    (sysNode op.2 left right, h)
  | .assign target e, h =>
    let (target, h) := build vars target h
    let (node, h) := build vars e h
    (sysNode .assign target node, h)
  | .noParam, h => (.null, h)
  | .params list e, h =>
    let (list, h) := build vars list h
    let (node, h) := build vars e h
    (addLast list node, h)

end

/-! ## What a derivation spells -/

section
variable {H : Type} {env : Env H} {vars : List Var} {p q m : Nat} {e : Expr}

theorem TypesAt.le {types : List TokenType} (h : TypesAt env p types q) : p ≤ q := by
  induction types generalizing p with
  | nil => exact Nat.le_of_eq h.symm
  | cons type types ih => exact Nat.le_of_succ_le (ih h.2)

theorem Spells.le (h : Spells env e p q) : p ≤ q := by
  induction e generalizing p q with
  | leaf token => exact h.2 ▸ Nat.le_succ p
  | paren e ih =>
    obtain ⟨m, -, he, -, rfl⟩ := h
    have := ih he
    omega
  | post op e ih =>
    obtain ⟨m, he, -, rfl⟩ := h
    exact Nat.le_succ_of_le (ih he)
  | call f args ihf iha =>
    obtain ⟨m, m', hf, -, ha, -, rfl⟩ := h
    have := ihf hf
    have := iha ha
    omega
  | pre op e ih => exact Nat.le_of_succ_le (ih h.2)
  | cast type e ih =>
    obtain ⟨m, -, htype, -, he⟩ := h
    have := htype.le
    have := ih he
    omega
  | bin _ _ left right ihl ihr | assign left right ihl ihr | params left right ihl ihr =>
    obtain ⟨m, hl, -, hr⟩ := h
    have := ihl hl
    have := ihr hr
    omega
  | noParam => exact Nat.le_of_eq h.symm
  | param e ih => exact ih h

theorem TypeAt.unique {i : Nat} {t t' : TokenType} (h : TypeAt env i t) (h' : TypeAt env i t') :
    t = t' := by
  obtain ⟨token, htoken, -, rfl⟩ := h
  obtain ⟨token', htoken', -, rfl⟩ := h'
  obtain rfl := Option.some.inj (htoken.symm.trans htoken')
  rfl

/-- The tokens that expressions are made of. -/
def isExprToken : TokenType → Bool
  | .semicolon | .bad | .eof => false
  | _ => true

/-- All the tokens are those of expressions. -/
def Inside (env : Env H) (p q : Nat) : Prop :=
  ∀ i, p ≤ i → i < q → ∃ t, TypeAt env i t ∧ isExprToken t = true

theorem Inside.nil : Inside env p p := fun _ hle hlt => absurd hle (Nat.not_le.mpr hlt)

theorem Inside.trans (h : Inside env p m) (h' : Inside env m q) : Inside env p q := by
  intro i hle hlt
  by_cases him : i < m
  · exact h i hle him
  · exact h' i (Nat.le_of_not_lt him) hlt

theorem TypeAt.inside {type : TokenType} (h : TypeAt env p type)
    (htype : isExprToken type = true) : Inside env p (p + 1) := by
  intro i hle hlt
  obtain rfl : i = p := by omega
  exact ⟨type, h, htype⟩

theorem TypesAt.inside {types : List TokenType} (h : TypesAt env p types q)
    (htypes : ∀ type ∈ types, isExprToken type = true) : Inside env p q := by
  induction types generalizing p with
  | nil => exact h ▸ .nil
  | cons type types ih =>
    obtain ⟨hfirst, hrest⟩ := h
    exact (hfirst.inside (htypes type List.mem_cons_self)).trans
      (ih hrest fun t hmem => htypes t (List.mem_cons_of_mem _ hmem))

theorem CastType.isExprToken_tokens {type : CastType} (h : (baseType type.base).isSome = true) :
    ∀ t ∈ type.tokens, isExprToken t = true := by
  obtain ⟨unsigned, base, pointer⟩ := type
  cases base <;> cases unsigned <;> cases pointer <;> first | decide | cases h

theorem isExprToken_levelOps {level : Nat} {op : TokenType × NodeType}
    (h : op ∈ levelOps level) : isExprToken op.1 = true := by
  unfold levelOps at h
  split at h <;> simp only [List.mem_cons, List.not_mem_nil, or_false] at h
  all_goals rcases h with rfl | rfl | rfl <;> rfl

theorem isExprToken_of {t : TokenType} (h : isLeaf t = true ∨ isPre t = true ∨ isPost t = true) :
    isExprToken t = true := by
  cases t <;> first | rfl | exact absurd h (by decide)

theorem Spells.inside (hformed : e.Formed) (h : Spells env e p q) : Inside env p q := by
  induction e generalizing p q with
  | leaf token =>
    obtain ⟨⟨htoken, herror⟩, rfl⟩ := h
    exact TypeAt.inside ⟨token, htoken, herror, rfl⟩ (isExprToken_of (.inl hformed))
  | paren e ih =>
    obtain ⟨m, hopen, he, hclose, rfl⟩ := h
    exact ((hopen.inside rfl).trans (ih hformed.1 he)).trans (hclose.inside rfl)
  | post op e ih =>
    obtain ⟨m, he, hop, rfl⟩ := h
    exact (ih hformed.2.1 he).trans (hop.inside (isExprToken_of (.inr (.inr hformed.1))))
  | call f args ihf iha =>
    obtain ⟨m, m', hf, hopen, ha, hclose, rfl⟩ := h
    exact (((ihf hformed.1.1 hf).trans (hopen.inside rfl)).trans (iha hformed.2.1 ha)).trans
      (hclose.inside rfl)
  | pre op e ih =>
    exact (h.1.inside (isExprToken_of (.inr (.inl hformed.1)))).trans (ih hformed.2.1 h.2)
  | cast type e ih =>
    obtain ⟨m, hopen, htype, hclose, he⟩ := h
    exact (((hopen.inside rfl).trans
      (htype.inside (CastType.isExprToken_tokens hformed.1))).trans (hclose.inside rfl)).trans
      (ih hformed.2.1 he)
  | bin level op left right ihl ihr =>
    obtain ⟨m, hl, hop, hr⟩ := h
    exact ((ihl hformed.2.1.1 hl).trans
      (hop.inside (isExprToken_levelOps hformed.1.2.2))).trans (ihr hformed.2.2.1 hr)
  | assign target e iht ihe =>
    obtain ⟨m, ht, hop, he⟩ := h
    exact ((iht hformed.1.1 ht).trans (hop.inside rfl)).trans (ihe hformed.2.1 he)
  | noParam => exact h ▸ .nil
  | param e ih => exact ih hformed.1 h
  | params list e ihl ihe =>
    obtain ⟨m, hl, hop, he⟩ := h
    exact ((ihl hformed.1.1 hl).trans (hop.inside rfl)).trans (ihe hformed.2.1 he)

/-- What is handled of an `expr_postfix` begins with a literal or a name. -/
theorem Spells.first (hformed : e.Formed) (hhandled : Handled env vars e) (hrank : e.rank ≤ 1)
    (h : Spells env e p q) : ∃ t, TypeAt env p t ∧ isLeaf t = true := by
  induction e generalizing q with
  | leaf token => exact ⟨token.type, ⟨token, h.1.1, h.1.2, rfl⟩, hformed⟩
  | paren e => exact hhandled.elim
  | post op e ih =>
    obtain ⟨m, he, -⟩ := h
    exact ih hformed.2.1 hhandled hformed.2.2 he
  | call f args ihf =>
    obtain ⟨m, m', hf, -⟩ := h
    exact ihf hformed.1.1 hhandled.1 hformed.1.2 hf
  | pre | cast | bin | assign | noParam | param | params =>
    simp only [Expr.rank] at hrank
    omega

theorem Expr.ne_noParam {n : Nat} (hrank : e.rank ≤ n) (hn : n ≤ 10) : e ≠ .noParam := by
  rintro rfl
  simp only [Expr.rank] at hrank
  omega

/-- What is handled begins with a literal, a name, an operator or a cast. -/
theorem Spells.head (hformed : e.Formed) (hhandled : Handled env vars e) (hne : e ≠ .noParam)
    (h : Spells env e p q) : ∃ t, TypeAt env p t ∧ (isLeaf t = true ∨ isPre t = true ∨
      t = .leftParen ∧ ∃ t', TypeAt env (p + 1) t' ∧
        ((baseType t').isSome = true ∨ t' = .unsigned)) := by
  induction e generalizing q with
  | leaf token => exact ⟨token.type, ⟨token, h.1.1, h.1.2, rfl⟩, .inl hformed⟩
  | paren e => exact hhandled.elim
  | post op e ih =>
    obtain ⟨m, he, -⟩ := h
    exact ih hformed.2.1 hhandled (Expr.ne_noParam hformed.2.2 (by decide)) he
  | call f args ihf =>
    obtain ⟨m, m', hf, -⟩ := h
    exact ihf hformed.1.1 hhandled.1 (Expr.ne_noParam hformed.1.2 (by decide)) hf
  | pre op e => exact ⟨op, h.1, .inr (.inl hformed.1)⟩
  | cast type e =>
    obtain ⟨m, hparen, htypes, -⟩ := h
    obtain ⟨unsigned, base, pointer⟩ := type
    refine ⟨.leftParen, hparen, .inr (.inr ⟨rfl, ?_⟩)⟩
    cases unsigned with
    | false => exact ⟨base, htypes.1, .inl hformed.1⟩
    | true => exact ⟨.unsigned, htypes.1, .inr rfl⟩
  | bin level op left right ihl =>
    obtain ⟨m, hl, -⟩ := h
    obtain ⟨⟨-, hlevel, -⟩, ⟨hleft, hleftRank⟩, -⟩ := hformed
    exact ihl hleft hhandled.1 (Expr.ne_noParam hleftRank (by omega)) hl
  | assign target e iht =>
    obtain ⟨m, ht, -⟩ := h
    exact iht hformed.1.1 hhandled.1 (Expr.ne_noParam hformed.1.2 (by decide)) ht
  | noParam => exact absurd rfl hne
  | param e ih => exact ih hformed.1 hhandled (Expr.ne_noParam hformed.2 (by decide)) h
  | params list e ihl =>
    obtain ⟨m, hl, -⟩ := h
    exact ihl hformed.1.1 hhandled.2.1 hhandled.1 hl

/-! ## The tree of a derivation -/

theorem isNull_leafNode {token : Token} {h : H} :
    (leafNode env vars token h).1.isNull = false := by
  unfold leafNode
  split <;> rfl

theorem leafNode_setSibling {token : Token} {h : H} :
    (leafNode env vars token h).1.setSibling .null = (leafNode env vars token h).1 := by
  unfold leafNode
  split <;> rfl

theorem isNull_setDataType (node : Node) (type : FinshType) :
    (node.setDataType type).isNull = node.isNull := by
  cases node <;> rfl

/-- The tree of an expression is a node that nothing is linked to. -/
theorem build_root (env : Env H) (vars : List Var) (hformed : e.Formed) (hrank : e.rank ≤ 10)
    (h : H) :
    (build env vars e h).1.isNull = false ∧
      (build env vars e h).1.setSibling .null = (build env vars e h).1 := by
  induction e generalizing h with
  | leaf token => exact ⟨isNull_leafNode, leafNode_setSibling⟩
  | paren e ih => exact ih hformed.1 hformed.2 h
  | post op e =>
    unfold build postNode
    dsimp only
    split <;> exact ⟨rfl, rfl⟩
  | call f args => exact ⟨rfl, rfl⟩
  | pre op e ih =>
    have he := ih hformed.2.1 (hformed.2.2.trans (by decide)) h
    unfold build preNode
    dsimp only
    split <;> first | exact ⟨rfl, rfl⟩ | exact he
  | cast type e ih =>
    have he := ih hformed.2.1 (hformed.2.2.trans (by decide)) h
    unfold build
    dsimp only
    generalize (build env vars e h).1 = node at he
    cases node with
    | null => cases he.1
    | mk info child sibling =>
      obtain ⟨-, hsibling⟩ := he
      cases hsibling
      exact ⟨rfl, rfl⟩
  | bin | assign => exact ⟨rfl, rfl⟩
  | noParam | param | params =>
    simp only [Expr.rank] at hrank
    omega

theorem link_append {nodes : List Node} (hnodes : ∀ node ∈ nodes, node.isNull = false)
    (last : Node) :
    link (nodes ++ [last]) .null = addLast (link nodes .null) (last.setSibling .null) := by
  induction nodes with
  | nil => rfl
  | cons node nodes ih =>
    have hrest := ih fun n hn => hnodes n (List.mem_cons_of_mem _ hn)
    cases node with
    | null => cases hnodes _ List.mem_cons_self
    | mk info child sibling =>
      change Node.mk info child (link (nodes ++ [last]) .null) = _
      rw [hrest]
      rfl

end

end ControlRTT.Components.FinshGrammar
