import ControlRTT.Components.FinshSound

/-! # What the FinSH parser reads

A derivation without parentheses is read as it stands, up to a token that does not go on with it.
The operators of one level are to the left of what is read next, so that a derivation is read if
the loop goes on rightly behind it (`Continues`). -/
namespace ControlRTT.Components.FinshComplete
open FinshToken FinshParser FinshGrammar FinshSound Lib.Programs

section
variable {H : Type} {env : Env H} {vars : List Var} {N p q k level : Nat} {h : H}
  {s s' : Parser H} {e : Expr}

/-- The fuel is all that may be wanting, with no more than the first `N` tokens read. -/
def Wanting (N : Nat) (e : Stop) (s : Parser H) : Prop := e = .outOfFuel ∧ s.index ≤ N

theorem wp_wanting {α : Type} {Q : α → Parser H → Prop}
    (hs : Standing env vars p k h s) (hN : p < N) : Wp (Wanting N) (throw .outOfFuel) Q s := by
  refine wp_throw ⟨rfl, ?_⟩
  rcases hs.place with ⟨-, hindex⟩ | ⟨-, hindex, -⟩
  · rw [hindex]
    exact Nat.le_of_lt hN
  · rw [hindex]
    exact hN

/-! ## Operators of one level -/

/-- A token that an expression of the level is not gone on with. -/
def Follows (level : Nat) (t : TokenType) : Prop :=
  isPost t = false ∧ t ≠ .leftParen ∧ ∀ i ≤ level, (levelOps i).lookup t = none

instance (level : Nat) (t : TokenType) : Decidable (Follows level t) :=
  inferInstanceAs (Decidable (_ ∧ _ ∧ ∀ i ≤ level, _))

theorem Follows.mono {t : TokenType} {level' : Nat} (ht : Follows level t) (hle : level' ≤ level) :
    Follows level' t :=
  ⟨ht.1, ht.2.1, fun i hi => ht.2.2 i (hi.trans hle)⟩

theorem follows_op {op : TokenType × NodeType} (hlevel : level ≤ 6)
    (hop : op ∈ levelOps (level + 1)) :
    Follows level op.1 ∧ (levelOps (level + 1)).lookup op.1 = some op.2 := by
  have hall : ∀ level ≤ 6, ∀ op ∈ levelOps (level + 1),
      Follows level op.1 ∧ (levelOps (level + 1)).lookup op.1 = some op.2 := by decide
  exact hall level hlevel op hop

/-- The derivation can be read from here, and there is room for its nodes. -/
structure Ahead (env : Env H) (vars : List Var) (N : Nat) (e : Expr) (p q k : Nat) (h : H)
    (s : Parser H) : Prop where
  standing : Standing env vars p k h s
  spells : Spells env e p q
  last : q < N
  room : k + e.size ≤ finshNodeMax

/-- It has been read. -/
def After (env : Env H) (vars : List Var) (e : Expr) (q k : Nat) (h : H) (node : Node)
    (s : Parser H) : Prop :=
  node = (build env vars e h).1 ∧
    Standing env vars q (k + e.size) (build env vars e h).2 s

/-- The program reads the derivation, where a token follows that does not go on with it. -/
def Reads (env : Env H) (vars : List Var) (N level : Nat) (m : EStateM Stop (Parser H) Node)
    (e : Expr) : Prop :=
  ∀ ⦃s p q k h t⦄, Ahead env vars N e p q k h s → TypeAt env q t → Follows level t →
    Wp (Wanting N) m (After env vars e q k h) s

/-- The derivation is read, and what ends rightly with the loop behind it does so. -/
def Continues (env : Env H) (vars : List Var) (N level : Nat)
    (operand : EStateM Stop (Parser H) Node) (e : Expr) : Prop :=
  ∀ ⦃s p q k h t fuel⦄ ⦃Q : Node → Parser H → Prop⦄, Ahead env vars N e p q k h s →
    TypeAt env q t → Follows level t →
    (∀ fuel node s', After env vars e q k h node s' →
      Wp (Wanting N) (binaryLoop env (levelOps (level + 1)) operand fuel node) Q s') →
    Wp (Wanting N) (binary env (levelOps (level + 1)) operand fuel) Q s

variable {operand : EStateM Stop (Parser H) Node}

theorem Reads.continues (hreads : Reads env vars N level operand e) :
    Continues env vars N level operand e := by
  intro s p q k h t fuel Q hahead ht hfollows hrest
  exact (hreads hahead ht hfollows).bind fun node s₁ h₁ => hrest _ node s₁ h₁

theorem Continues.reads (hcontinues : Continues env vars N level operand e) (fuel : Nat) :
    Reads env vars N (level + 1) (binary env (levelOps (level + 1)) operand fuel) e := by
  intro s p q k h t hahead ht hfollows
  refine hcontinues hahead ht (hfollows.mono (Nat.le_succ level)) fun fuel node s₁ h₁ => ?_
  obtain ⟨hnode, hstanding⟩ := h₁
  cases fuel with
  | zero => exact wp_wanting hstanding hahead.last
  | succ fuel =>
    refine (hstanding.wp_nextToken ht).bind_and fun t' s₂ ht' h₂ => ?_
    rw [ht', hfollows.2.2 _ (Nat.le_refl _)]
    exact wp_bind (wp_modify (wp_pure ⟨hnode, h₂.back⟩))

theorem Continues.bin {op : TokenType × NodeType} {left right : Expr}
    (hformed : (Expr.bin (level + 1) op left right).Formed)
    (hleft : Continues env vars N level operand left)
    (hright : Reads env vars N level operand right) :
    Continues env vars N level operand (.bin (level + 1) op left right) := by
  intro s p q k h t fuel Q hahead ht hfollows hrest
  obtain ⟨m, hspellsLeft, hop, hspellsRight⟩ := hahead.spells
  obtain ⟨⟨-, hlevel, hmem⟩, ⟨hleftFormed, hleftRank⟩, hrightFormed, hrightRank⟩ := hformed
  have hleftNode := (build_root env vars hleftFormed (by omega) h).1
  obtain ⟨hfollowsOp, hlookup⟩ := follows_op (by omega) hmem
  have hroom := hahead.room
  have hlast := hahead.last
  have hm := hspellsRight.le
  simp only [Expr.size] at hroom
  refine hleft ⟨hahead.standing, hspellsLeft, by omega, by omega⟩ hop hfollowsOp
    fun fuel node s₁ h₁ => ?_
  obtain ⟨rfl, hstanding⟩ := h₁
  cases fuel with
  | zero => exact wp_wanting hstanding (by omega)
  | succ fuel =>
    refine (hstanding.wp_nextToken hop).bind_and fun t' s₂ ht' h₂ => ?_
    rw [ht', hlookup]
    refine (hright ⟨h₂.standing, hspellsRight, hlast, by omega⟩ ht hfollows).bind_and
      fun node s₃ hnode h₃ => ?_
    have hnull := (build_root env vars hrightFormed (by omega)
      (build env vars left h).2).1
    rw [← hnode] at hnull
    refine wp_ite (fun htrue => absurd (htrue.symm.trans hnull) (by decide)) fun _ => ?_
    refine (h₃.wp_makeSysNode op.2 node hleftNode (by omega)).bind_and fun node₁ s₄ hnode₁ h₄ => ?_
    refine hrest _ node₁ s₄ ⟨?_, ?_⟩
    · rw [hnode₁, hnode]
      rfl
    · rw [Expr.size, ← Nat.add_assoc, ← Nat.add_assoc]
      exact h₄

/-- The levels of the binary operators over `cast`. -/
def levelExpr (env : Env H) (cast : EStateM Stop (Parser H) Node) (fuel : Nat) :
    Nat → EStateM Stop (Parser H) Node
  | 0 => cast
  | level + 1 => binary env (levelOps (level + 1)) (levelExpr env cast fuel level) fuel

/-- Where the operands are read, so is what is over them. -/
theorem continues_levelExpr {cast : EStateM Stop (Parser H) Node} {fuel : Nat}
    (hformed : e.Formed)
    (hbin : ∀ op left right, e = .bin (level + 1) op left right →
      Continues env vars N level (levelExpr env cast fuel level) left ∧
        Reads env vars N level (levelExpr env cast fuel level) right)
    (hreads : e.rank ≤ 3 + level → Reads env vars N level (levelExpr env cast fuel level) e)
    (hlevel : level ≤ 5) (hrank : e.rank ≤ 4 + level) :
    Continues env vars N level (levelExpr env cast fuel level) e := by
  by_cases hlower : e.rank ≤ 3 + level
  · exact (hreads hlower).continues
  · cases e with
    | bin level' op left right =>
      obtain rfl : level' = level + 1 := by
        simp only [Expr.rank] at hrank hlower
        omega
      obtain ⟨hleft, hright⟩ := hbin op left right rfl
      exact hleft.bin hformed hright
    | _ =>
      simp only [Expr.rank] at hrank hlower
      omega

theorem reads_levelExpr {cast : EStateM Stop (Parser H) Node} {fuel : Nat} (hformed : e.Formed)
    (hcast : e.rank ≤ 3 → Reads env vars N 0 cast e)
    (hbin : ∀ level op left right, e = .bin (level + 1) op left right →
      Continues env vars N level (levelExpr env cast fuel level) left ∧
        Reads env vars N level (levelExpr env cast fuel level) right)
    (hlevel : level ≤ 6) (hrank : e.rank ≤ 3 + level) :
    Reads env vars N level (levelExpr env cast fuel level) e := by
  induction level with
  | zero => exact hcast hrank
  | succ level ih =>
    refine (continues_levelExpr hformed (hbin level) (ih (by omega)) (by omega) ?_).reads fuel
    omega

/-- An assignment, or an expression that is none. -/
theorem reads_procAssignExpr {fuel : Nat} (hformed : e.Formed) (hrank : e.rank ≤ 10)
    (hreads : e.rank ≤ 9 →
      Reads env vars N 6 (levelExpr env (procCastExpr env fuel) fuel 6) e)
    (hassign : ∀ target value, e = .assign target value →
      Reads env vars N 6 (levelExpr env (procCastExpr env fuel) fuel 6) target ∧
        Reads env vars N 7 (procAssignExpr env fuel) value) :
    Reads env vars N 7 (procAssignExpr env (fuel + 1)) e := by
  intro s p q k h t hahead ht hfollows
  unfold procAssignExpr
  change Wp _ (levelExpr env (procCastExpr env fuel) fuel 6 >>= _) _ _
  by_cases hlower : e.rank ≤ 9
  · refine (hreads hlower hahead ht (hfollows.mono (by decide))).bind_and fun node s₁ hnode h₁ => ?_
    refine (h₁.wp_nextToken ht).bind_and fun t' s₂ ht' h₂ => wp_ite (fun heq => ?_) fun _ => ?_
    · have hlookup := hfollows.2.2 7 (Nat.le_refl _)
      rw [← ht', heq] at hlookup
      cases hlookup
    · exact wp_bind (wp_modify (wp_pure ⟨hnode, h₂.back⟩))
  · cases e with
    | assign target value =>
      obtain ⟨htarget, hvalue⟩ := hassign target value rfl
      obtain ⟨m, hspellsTarget, hop, hspells⟩ := hahead.spells
      obtain ⟨⟨htargetFormed, htargetRank⟩, -⟩ := hformed
      have hnode := (build_root env vars htargetFormed (by omega) h).1
      have hroom := hahead.room
      have hlast := hahead.last
      have hm := hspells.le
      simp only [Expr.size] at hroom
      refine (htarget ⟨hahead.standing, hspellsTarget, by omega, by omega⟩ hop
        (by decide)).bind_and fun node s₁ hnode₁ h₁ => ?_
      refine (h₁.wp_nextToken hop).bind_and fun t' s₂ ht' h₂ =>
        wp_ite (fun _ => ?_) fun hne => absurd ht' hne
      refine (hvalue ⟨h₂.standing, hspells, hlast, by omega⟩ ht hfollows).bind_and
        fun node₁ s₃ hnode₂ h₃ => ?_
      rw [← hnode₁] at hnode
      refine (h₃.wp_makeSysNode .assign node₁ hnode (by omega)).mono_and
        fun node₂ s₄ hnode₃ h₄ => ?_
      refine ⟨?_, ?_⟩
      · rw [hnode₃, hnode₂, hnode₁]
        rfl
      · rw [Expr.size, ← Nat.add_assoc, ← Nat.add_assoc]
        exact h₄
    | bin level =>
      have hlevel := hformed.1.2.1
      simp only [Expr.rank] at hlower
      omega
    | _ =>
      simp only [Expr.rank] at hrank hlower
      omega

/-! ## Names and literals -/

theorem wp_finshNodeNewId {E : Stop → Parser H → Prop} {id : List Char} {symbol : Symbol}
    (hs : Standing env vars p k h s) (hsymbol : symbolOf env vars id = some symbol)
    (hk : k < finshNodeMax) :
    Wp E (finshNodeNewId env id) (fun node s' =>
      node = .mk { nodeType := .id, id := some symbol } .null .null ∧
        Standing env vars p (k + 1) h s') s := by
  refine wp_bind (wp_get ?_)
  have hnew : Wp E (finshNodeNew .id 0 (some symbol)) (fun node s' =>
      node = .mk { nodeType := .id, id := some symbol } .null .null ∧
        Standing env vars p (k + 1) h s') s :=
    (hs.wp_finshNodeNew .id 0 (some symbol) hk).mono_and fun node s₁ hnode h₁ =>
      ⟨hnode, hs.alloc h₁⟩
  rw [hs.vars]
  unfold symbolOf at hsymbol
  cases hvar : finshVarLookup vars id with
  | some i =>
    rw [hvar] at hsymbol
    obtain rfl := Option.some.inj hsymbol
    exact hnew
  | none =>
    rw [hvar] at hsymbol
    cases hsysvar : env.sysvarLookup id with
    | some i =>
      rw [hsysvar] at hsymbol
      obtain rfl := Option.some.inj hsymbol
      exact hnew
    | none =>
      rw [hsysvar] at hsymbol
      cases hsyscall : env.syscallLookup id with
      | some i =>
        rw [hsyscall] at hsymbol
        obtain rfl := Option.some.inj hsymbol
        exact hnew
      | none =>
        rw [hsyscall] at hsymbol
        cases hsymbol

theorem wp_leaf {E : Stop → Parser H → Prop} {token : Token}
    (assign : EStateM Stop (Parser H) Node) (hformed : (Expr.leaf token).Formed)
    (hhandled : Handled env vars (.leaf token))
    (hahead : Ahead env vars N (.leaf token) p q k h s) :
    Wp E (procPrimaryExpr env assign) (After env vars (.leaf token) q k h) s := by
  obtain ⟨hs, ⟨⟨htoken, herror⟩, rfl⟩, -, hroom⟩ := hahead
  have hk : k < finshNodeMax := hroom
  refine (hs.wp_nextToken ⟨token, htoken, herror, rfl⟩).bind_and fun t s₁ ht h₁ => ?_
  have hsame : ∀ {s : Parser H}, JustRead env vars p k h s → s.token = token := fun hjust =>
    (Option.some.inj (htoken.symm.trans hjust.token)).symm
  have htype : token.type = t := ht.symm
  have hnumber : ∀ type : NodeType, (∀ h, leafNode env vars token h =
        (.mk { nodeType := type, value := token.value } .null .null, h)) →
      Wp E (do finshNodeNew type (← get).token.value none)
        (After env vars (.leaf token) (p + 1) k h) s₁ := by
    intro type hnode
    refine wp_bind (wp_get ((h₁.standing.wp_finshNodeNew type _ none hk).mono_and
      fun node s₂ hnew h₂ => ?_))
    unfold After build
    rw [hnode, ← hsame h₁]
    exact ⟨hnew, h₁.standing.alloc h₂⟩
  cases t with
  | identifier =>
    obtain ⟨symbol, hsymbol⟩ := Option.isSome_iff_exists.mp (hhandled htype)
    refine wp_bind (wp_modify ((h₁.back.wp_procIdentifier ⟨token, htoken, herror, htype⟩).bind_and
      fun id s₂ hid h₂ => ?_))
    rw [hid, hsame h₂]
    refine (wp_finshNodeNewId h₂.standing hsymbol hk).mono_and fun node s₃ hnode h₃ => ?_
    unfold After build
    rw [leafNode, htype, hsymbol]
    exact ⟨hnode, h₃⟩
  | valueInt => exact hnumber .valueInt fun h => by rw [leafNode, htype]
  | valueLong => exact hnumber .valueLong fun h => by rw [leafNode, htype]
  | valueChar => exact hnumber .valueChar fun h => by rw [leafNode, htype]
  | valueString =>
    refine wp_bind (wp_get ((h₁.standing.wp_finshNodeNewString _ hk).mono fun node s₂ h₂ => ?_))
    unfold After build
    rw [leafNode, htype]
    rwa [hsame h₁] at h₂
  | valueNull =>
    refine (h₁.standing.wp_finshNodeNew .valueNull 0 none hk).mono_and fun node s₂ hnew h₂ => ?_
    unfold After build
    rw [leafNode, htype]
    exact ⟨hnew, h₁.standing.alloc h₂⟩
  | _ =>
    rw [Expr.Formed, htype] at hformed
    cases hformed

/-! ## Parameters and calls -/

/-- The parameters are read, and what ends rightly with the loop behind them does so. -/
def ContinuesParams (env : Env H) (vars : List Var) (N : Nat)
    (assign : EStateM Stop (Parser H) Node) (e : Expr) : Prop :=
  ∀ ⦃s p q k h t fuel⦄ ⦃Q : Node → Parser H → Prop⦄, Ahead env vars N e p q k h s →
    TypeAt env q t → Follows 7 t →
    (∀ fuel first rest s', (∀ node ∈ first :: rest, node.isNull = false) →
      After env vars e q k h (link (first :: rest) .null) s' →
      Wp (Wanting N) (paramLoop env assign fuel rest)
        (fun params s'' => Q (link (first :: params) .null) s'') s') →
    Wp (Wanting N) (procParamList env assign fuel) Q s

variable {assign : EStateM Stop (Parser H) Node}

theorem Reads.continuesParams (hformed : e.Formed) (hrank : e.rank ≤ 10)
    (hreads : Reads env vars N 7 assign e) : ContinuesParams env vars N assign (.param e) := by
  intro s p q k h t fuel Q hahead ht hfollows hrest
  have hroot := build_root env vars hformed hrank h
  refine (hreads ⟨hahead.standing, hahead.spells, hahead.last, hahead.room⟩ ht hfollows).bind_and
    fun node s₁ hnode h₁ => ?_
  rw [← hnode] at hroot
  refine wp_ite (fun htrue => absurd (htrue.symm.trans hroot.1) (by decide)) fun _ => ?_
  have hloop := hrest fuel node [] s₁ (fun n hn => by
    obtain rfl := List.mem_singleton.mp hn
    exact hroot.1) ⟨hroot.2.trans hnode, h₁⟩
  exact hloop.bind fun params s₂ h₂ => wp_pure h₂

theorem ContinuesParams.append {list : Expr} (hformed : e.Formed) (hrank : e.rank ≤ 10)
    (hlist : ContinuesParams env vars N assign list) (hreads : Reads env vars N 7 assign e) :
    ContinuesParams env vars N assign (.params list e) := by
  intro s p q k h t fuel Q hahead ht hfollows hrest
  obtain ⟨m, hspellsList, hcomma, hspells⟩ := hahead.spells
  have hroom := hahead.room
  have hlast := hahead.last
  have hm := hspells.le
  simp only [Expr.size] at hroom
  have hroot := build_root env vars hformed hrank (build env vars list h).2
  refine hlist ⟨hahead.standing, hspellsList, by omega, by omega⟩ hcomma (by decide)
    fun fuel first rest s₁ hnodes hafter => ?_
  obtain ⟨hlink, h₁⟩ := hafter
  cases fuel with
  | zero => exact wp_wanting h₁ (by omega)
  | succ fuel =>
    refine (h₁.wp_nextToken hcomma).bind_and fun t' s₂ ht' h₂ =>
      wp_ite (fun _ => ?_) fun hne => absurd ht' hne
    refine (hreads ⟨h₂.standing, hspells, hlast, by omega⟩ ht hfollows).bind_and
      fun node s₃ hnode h₃ => ?_
    rw [← hnode] at hroot
    refine wp_ite (fun htrue => absurd (htrue.symm.trans hroot.1) (by decide)) fun _ => ?_
    refine hrest fuel first (rest ++ [node]) s₃ ?_ ⟨?_, ?_⟩
    · intro n hn
      rw [← List.cons_append] at hn
      rcases List.mem_append.mp hn with hn | hn
      · exact hnodes n hn
      · obtain rfl := List.mem_singleton.mp hn
        exact hroot.1
    · rw [← List.cons_append, link_append hnodes, hlink, hroot.2, hnode]
      rfl
    · rw [Expr.size, ← Nat.add_assoc]
      exact h₃

/-- A call, of which the name and the parenthesis have been read. -/
theorem wp_procCall {f args : Expr} {fNode : Node} {m fuel : Nat}
    (hformed : (Expr.call f args).Formed) (hhandled : Handled env vars args)
    (hargs : args ≠ .noParam → ContinuesParams env vars N assign args)
    (hnode : After env vars f m k h fNode s')
    (hs : Standing env vars p (k + f.size) (build env vars f h).2 s) (hspells : Spells env args p q)
    (hclose : TypeAt env q .rightParen) (hlast : q + 1 < N)
    (hroom : k + (Expr.call f args).size ≤ finshNodeMax) :
    Wp (Wanting N) (procCall env assign fuel fNode)
      (After env vars (.call f args) (q + 1) k h) s := by
  obtain ⟨⟨hfFormed, hfRank⟩, hargsFormed, hargsRank⟩ := hformed
  have hfNode := (build_root env vars hfFormed (by omega) h).1
  rw [← hnode.1] at hfNode
  simp only [Expr.size] at hroom
  have hmade : ∀ {node : Node} {s₁ : Parser H}, node = (build env vars args
      (build env vars f h).2).1 → Standing env vars (q + 1) (k + f.size + args.size)
        (build env vars args (build env vars f h).2).2 s₁ →
      Wp (Wanting N) (makeSysNode .func fNode node)
        (After env vars (.call f args) (q + 1) k h) s₁ := by
    intro node s₁ hargsNode h₁
    refine (h₁.wp_makeSysNode .func node hfNode (by omega)).mono_and fun result s₂ hresult h₂ => ?_
    refine ⟨?_, ?_⟩
    · rw [hresult, hargsNode, hnode.1]
      rfl
    · rw [Expr.size, ← Nat.add_assoc, ← Nat.add_assoc]
      exact h₂
  by_cases hnone : args = .noParam
  · subst hnone
    obtain rfl : q = p := hspells
    refine (hs.wp_nextToken hclose).bind_and fun t s₁ ht h₁ =>
      wp_ite (fun _ => ?_) fun hne => absurd ht hne
    exact hmade rfl h₁.standing
  · obtain ⟨t₀, hhead, hfirst⟩ := hspells.head hargsFormed hhandled hnone
    have hne₀ : t₀ ≠ .rightParen := by
      rintro rfl
      rcases hfirst with hleaf | hpre | ⟨hparen, -⟩
      · cases hleaf
      · cases hpre
      · cases hparen
    refine (hs.wp_nextToken hhead).bind_and fun t s₁ ht h₁ =>
      wp_ite (fun heq => absurd (ht.symm.trans heq) hne₀) fun _ => wp_bind (wp_modify ?_)
    have hparams : Wp (Wanting N) (procParamList env assign fuel)
        (After env vars args q (k + f.size) (build env vars f h).2) { s₁ with replay := true } := by
      refine hargs hnone ⟨h₁.back, hspells, by omega, by omega⟩ hclose (by decide)
        fun fuel first rest s₂ _ hafter => ?_
      obtain ⟨hlink, h₂⟩ := hafter
      cases fuel with
      | zero => exact wp_wanting h₂ (by omega)
      | succ fuel =>
        refine (h₂.wp_nextToken hclose).bind_and fun t' s₃ ht' h₃ =>
          wp_ite (fun heq => ?_) fun _ => ?_
        · rw [ht'] at heq
          cases heq
        · exact wp_bind (wp_modify (wp_pure ⟨hlink, h₃.back⟩))
    refine hparams.bind_and fun params s₂ hparamsNode h₂ => ?_
    refine (h₂.wp_matchToken hclose).bind fun _ s₃ h₃ => ?_
    exact hmade hparamsNode h₃.standing

/-! ## Postfix expressions -/

/-- The expression is read, and what ends rightly with the loop behind it does so. -/
def ContinuesPost (env : Env H) (vars : List Var) (N : Nat)
    (assign : EStateM Stop (Parser H) Node) (e : Expr) : Prop :=
  ∀ ⦃s p q k h callFuel fuel⦄ ⦃Q : Node → Parser H → Prop⦄, Ahead env vars N e p q k h s →
    (∀ fuel node s', After env vars e q k h node s' →
      Wp (Wanting N) (postfixLoop env assign callFuel fuel node) Q s') →
    Wp (Wanting N) (do postfixLoop env assign callFuel fuel (← procPrimaryExpr env assign)) Q s

theorem continuesPost_leaf {token : Token} (hformed : (Expr.leaf token).Formed)
    (hhandled : Handled env vars (.leaf token)) :
    ContinuesPost env vars N assign (.leaf token) := by
  intro s p q k h callFuel fuel Q hahead hrest
  exact (wp_leaf assign hformed hhandled hahead).bind fun node s₁ h₁ => hrest fuel node s₁ h₁

theorem ContinuesPost.post {op : TokenType} (hformed : (Expr.post op e).Formed)
    (he : ContinuesPost env vars N assign e) : ContinuesPost env vars N assign (.post op e) := by
  intro s p q k h callFuel fuel Q hahead hrest
  obtain ⟨m, hspells, hop, rfl⟩ := hahead.spells
  obtain ⟨hpost, heFormed, heRank⟩ := hformed
  have hroom := hahead.room
  have hlast := hahead.last
  simp only [Expr.size] at hroom
  refine he ⟨hahead.standing, hspells, by omega, by omega⟩ fun fuel node s₁ hafter => ?_
  obtain ⟨hnode, h₁⟩ := hafter
  have hnull := (build_root env vars heFormed (by omega) h).1
  rw [← hnode] at hnull
  cases fuel with
  | zero => exact wp_wanting h₁ (by omega)
  | succ fuel =>
    refine (h₁.wp_nextToken hop).bind_and fun t s₂ ht h₂ => ?_
    have hmade : ∀ type : NodeType, sysNode type node .null = postNode op node →
        Wp (Wanting N) (do postfixLoop env assign callFuel fuel (← makeSysNode type node .null))
          Q s₂ := by
      intro type hsame
      refine (h₂.standing.wp_makeSysNode type .null hnull (by omega)).bind_and
        fun node₁ s₃ hnode₁ h₃ => hrest fuel node₁ s₃ ⟨?_, ?_⟩
      · rw [hnode₁, hsame, hnode]
        rfl
      · rw [Expr.size, ← Nat.add_assoc]
        exact h₃
    subst ht
    cases t with
    | inc => exact hmade .inc rfl
    | dec => exact hmade .dec rfl
    | _ => cases hpost

theorem ContinuesPost.call {f args : Expr} (hformed : (Expr.call f args).Formed)
    (hhandled : Handled env vars args) (hf : ContinuesPost env vars N assign f)
    (hargs : args ≠ .noParam → ContinuesParams env vars N assign args) :
    ContinuesPost env vars N assign (.call f args) := by
  intro s p q k h callFuel fuel Q hahead hrest
  obtain ⟨m, m', hspellsF, hparen, hspells, hclose, rfl⟩ := hahead.spells
  have hroom := hahead.room
  have hlast := hahead.last
  have hm := hspells.le
  simp only [Expr.size] at hroom
  refine hf ⟨hahead.standing, hspellsF, by omega, by omega⟩ fun fuel node s₁ h₁ => ?_
  cases fuel with
  | zero => exact wp_wanting h₁.2 (by omega)
  | succ fuel =>
    refine (h₁.2.wp_nextToken hparen).bind_and fun t s₂ ht h₂ => ?_
    subst ht
    exact (wp_procCall hformed hhandled hargs h₁ h₂.standing hspells hclose hlast
      hahead.room).bind fun node₁ s₃ h₃ => hrest fuel node₁ s₃ h₃

/-- An `expr_postfix` is read as an `expr_cast`. -/
theorem ContinuesPost.cast {fuel : Nat} (hformed : e.Formed) (hhandled : Handled env vars e)
    (hrank : e.rank ≤ 1) (he : ContinuesPost env vars N (procAssignExpr env fuel) e) :
    Reads env vars N 0 (procCastExpr env (fuel + 1)) e := by
  intro s p q k h t hahead ht hfollows
  obtain ⟨t₀, hfirst, hleaf⟩ := hahead.spells.first hformed hhandled hrank
  unfold procCastExpr
  refine (hahead.standing.wp_nextToken hfirst).bind_and fun t₁ s₁ ht₁ h₁ =>
    wp_ite (fun heq => ?_) fun _ => wp_bind (wp_modify ?_)
  · rw [← ht₁, heq] at hleaf
    cases hleaf
  · refine (h₁.back.wp_nextToken hfirst).bind_and fun t₂ s₂ ht₂ h₂ => ?_
    have hpostfix : Wp (Wanting N) (do
        finshTokenReplay
        procPostfixExpr env (procAssignExpr env fuel) fuel) (After env vars e q k h) s₂ := by
      refine wp_bind (wp_modify (he ⟨h₂.back, hahead.spells, hahead.last, hahead.room⟩
        fun fuel node s₃ hafter => ?_))
      obtain ⟨hnode, h₃⟩ := hafter
      cases fuel with
      | zero => exact wp_wanting h₃ hahead.last
      | succ fuel =>
        refine (h₃.wp_nextToken ht).bind_and fun t₃ s₄ ht₃ h₄ => ?_
        obtain ⟨hpost, hparen, -⟩ := hfollows
        subst ht₃
        cases t₃ with
        | inc | dec => cases hpost
        | leftParen => exact absurd rfl hparen
        | _ => exact wp_bind (wp_modify (wp_pure ⟨hnode, h₄.back⟩))
    subst ht₂
    cases t₂ with
    | add | inc | sub | dec | bitwise | mul | and => cases hleaf
    | _ => exact hpostfix

/-! ## Unary expressions and casts -/

theorem reads_pre {op : TokenType} {fuel : Nat} (hformed : (Expr.pre op e).Formed)
    (he : Reads env vars N 0 (procCastExpr env fuel) e) :
    Reads env vars N 0 (procCastExpr env (fuel + 1)) (.pre op e) := by
  intro s p q k h t hahead ht hfollows
  obtain ⟨hop, hspells⟩ := hahead.spells
  obtain ⟨hpre, heFormed, heRank⟩ := hformed
  have hroom := hahead.room
  have hle := hspells.le
  have hlast := hahead.last
  simp only [Expr.size] at hroom
  unfold procCastExpr
  refine (hahead.standing.wp_nextToken hop).bind_and fun t₁ s₁ ht₁ h₁ =>
    wp_ite (fun heq => ?_) fun _ => wp_bind (wp_modify ?_)
  · rw [← ht₁, heq] at hpre
    cases hpre
  refine (h₁.back.wp_nextToken hop).bind_and fun t₂ s₂ ht₂ h₂ => ?_
  have hread : Wp (Wanting N) (procCastExpr env fuel) (After env vars e q k h) s₂ :=
    he ⟨h₂.standing, hspells, hlast, by omega⟩ ht hfollows
  have hnull := (build_root env vars heFormed (by omega) h).1
  have hone : ∀ type : NodeType, op ≠ .add → op ≠ .sub →
      (∀ node, preNode op node = sysNode type node .null) →
      Wp (Wanting N) (do makeSysNode type (← procCastExpr env fuel) .null)
        (After env vars (.pre op e) q k h) s₂ := by
    intro type hadd hsub hsame
    rw [if_neg hadd, if_neg hsub] at hroom
    refine hread.bind_and fun node s₃ hnode h₃ => ?_
    rw [← hnode] at hnull
    refine (h₃.wp_makeSysNode type .null hnull (by omega)).mono_and fun node₁ s₄ hnode₁ h₄ => ?_
    refine ⟨?_, ?_⟩
    · rw [hnode₁, ← hsame, hnode]
      rfl
    · rw [Expr.size, if_neg hadd, if_neg hsub, ← Nat.add_assoc]
      exact h₄
  subst ht₂
  cases t₂ with
  | add => exact hread.mono fun node s₃ h₃ => h₃
  | sub =>
    refine hread.bind_and fun node s₃ hnode h₃ => ?_
    simp only [reduceCtorEq, if_false, if_true] at hroom
    refine (h₃.wp_finshNodeNew .valueLong 0 none (by omega)).bind_and fun zero s₄ hzero h₄ => ?_
    subst hzero
    refine ((h₃.alloc h₄).wp_makeSysNode .sub node rfl (by omega)).mono_and
      fun node₁ s₅ hnode₁ h₅ => ⟨?_, h₅⟩
    rw [hnode₁, hnode]
    rfl
  | inc => exact hone .preinc (by decide) (by decide) fun _ => rfl
  | dec => exact hone .predec (by decide) (by decide) fun _ => rfl
  | bitwise => exact hone .bitwise (by decide) (by decide) fun _ => rfl
  | mul => exact hone .getvalue (by decide) (by decide) fun _ => rfl
  | and => exact hone .getaddr (by decide) (by decide) fun _ => rfl
  | _ => cases hpre

theorem wp_procPointer {E : Stop → Parser H → Prop} {pointer : Bool} (base : FinshType)
    (hs : Standing env vars p k h s)
    (htypes : TypesAt env p (if pointer = true then [.mul] else []) q)
    (hclose : TypeAt env q .rightParen) :
    Wp E (procPointer env base) (fun type s' =>
      type = (if pointer = true then pointerType base else base) ∧
        Standing env vars q k h s') s := by
  cases pointer with
  | true =>
    obtain ⟨hmul, rfl⟩ := htypes
    refine (hs.wp_nextToken hmul).bind_and fun t s₁ ht h₁ =>
      wp_ite (fun _ => wp_pure ⟨rfl, h₁.standing⟩) fun hne => absurd ht hne
  | false =>
    obtain rfl := htypes
    refine (hs.wp_nextToken hclose).bind_and fun t s₁ ht h₁ => wp_ite (fun heq => ?_) fun _ => ?_
    · rw [ht] at heq
      cases heq
    · exact wp_bind (wp_modify (wp_pure ⟨rfl, h₁.back⟩))

theorem wp_procType {E : Stop → Parser H → Prop} {castType : CastType} {type : FinshType}
    (hs : Standing env vars p k h s) (hbase : (baseType castType.base).isSome = true)
    (htype : castType.finshType = some type) (htypes : TypesAt env p castType.tokens q)
    (hclose : TypeAt env q .rightParen) :
    Wp E (procType env) (fun type' s' => type' = type ∧ Standing env vars q k h s') s := by
  obtain ⟨unsigned, base, pointer⟩ := castType
  obtain ⟨found, hfound, rfl⟩ := Option.map_eq_some_iff.mp htype
  cases unsigned with
  | false =>
    obtain ⟨hfirst, hrest⟩ := htypes
    refine (hs.wp_nextToken hfirst).bind_and fun t s₁ ht h₁ => ?_
    rw [ht, show baseType base = some found from hfound]
    exact wp_procPointer found h₁.standing hrest hclose
  | true =>
    obtain ⟨hfirst, hsecond, hrest⟩ := htypes
    refine (hs.wp_nextToken hfirst).bind_and fun t s₁ ht h₁ => ?_
    subst ht
    refine wp_ite (fun _ => ?_) fun hne => absurd rfl hne
    refine (h₁.standing.wp_nextToken hsecond).bind_and fun t s₂ ht h₂ => ?_
    rw [ht, show unsignedType base = some found from hfound]
    exact wp_procPointer found h₂.standing hrest hclose

theorem reads_cast {type : CastType} {fuel : Nat} (hformed : (Expr.cast type e).Formed)
    (hhandled : Handled env vars (.cast type e))
    (he : Reads env vars N 0 (procCastExpr env fuel) e) :
    Reads env vars N 0 (procCastExpr env (fuel + 1)) (.cast type e) := by
  intro s p q k h t hahead ht hfollows
  obtain ⟨m, hparen, htypes, hclose, hspells⟩ := hahead.spells
  obtain ⟨hbase, heFormed, heRank⟩ := hformed
  obtain ⟨found, hfound⟩ := Option.isSome_iff_exists.mp hhandled.1
  unfold procCastExpr
  refine (hahead.standing.wp_nextToken hparen).bind_and fun t₁ s₁ ht₁ h₁ =>
    wp_ite (fun _ => ?_) fun hne => absurd ht₁ hne
  refine (wp_procType h₁.standing hbase hfound htypes hclose).bind_and fun type' s₂ htype' h₂ => ?_
  refine (h₂.wp_matchToken hclose).bind fun _ s₃ h₃ => ?_
  refine (he ⟨h₃.standing, hspells, hahead.last, hahead.room⟩ ht hfollows).bind_and
    fun node s₄ hnode h₄ => ?_
  have hnull := (build_root env vars heFormed (by omega) h).1
  rw [← hnode] at hnull
  refine wp_ite (fun htrue => absurd (htrue.symm.trans hnull) (by decide)) fun _ => wp_pure
    ⟨?_, h₄⟩
  rw [build, hfound, hnode, htype']
  rfl

/-! ## All derivations -/

/-- What is read of a derivation by the functions that are met with it. -/
structure Readable (env : Env H) (vars : List Var) (N : Nat) (e : Expr) : Prop where
  post : e.rank ≤ 1 → ∀ fuel, ContinuesPost env vars N (procAssignExpr env fuel) e
  operand : ∀ level ≤ 6, e.rank ≤ 3 + level → ∀ fuel,
    Reads env vars N level (levelExpr env (procCastExpr env fuel) fuel level) e
  operator : ∀ level ≤ 5, e.rank ≤ 4 + level → ∀ fuel,
    Continues env vars N level (levelExpr env (procCastExpr env fuel) fuel level) e
  assign : e.rank ≤ 10 → ∀ fuel, Reads env vars N 7 (procAssignExpr env fuel) e
  params : e.rank = 11 → e ≠ .noParam → ∀ fuel,
    ContinuesParams env vars N (procAssignExpr env fuel) e

/-- Without fuel nothing is read, and nothing is wrong. -/
theorem reads_outOfFuel {n : Nat} : Reads env vars N n (throw .outOfFuel) e := by
  intro s p q k h t hahead _ _
  exact wp_wanting hahead.standing (Nat.lt_of_le_of_lt hahead.spells.le hahead.last)

/-- An expression is readable if it is read as an operand, or what it consists of is readable. -/
theorem Readable.of_cast (hformed : e.Formed) (hrank : e.rank ≤ 10)
    (hpost : e.rank ≤ 1 → ∀ fuel, ContinuesPost env vars N (procAssignExpr env fuel) e)
    (hcast : e.rank ≤ 3 → ∀ fuel, Reads env vars N 0 (procCastExpr env (fuel + 1)) e)
    (hbin : ∀ level op left right, e = .bin level op left right →
      Readable env vars N left ∧ Readable env vars N right)
    (hassign : ∀ target value, e = .assign target value →
      Readable env vars N target ∧ Readable env vars N value) : Readable env vars N e := by
  have hcast' : ∀ fuel, e.rank ≤ 3 → Reads env vars N 0 (procCastExpr env fuel) e := by
    intro fuel hlower
    cases fuel with
    | zero => exact reads_outOfFuel
    | succ fuel => exact hcast hlower fuel
  have hoperands : ∀ fuel level op left right, e = .bin (level + 1) op left right →
      Continues env vars N level (levelExpr env (procCastExpr env fuel) fuel level) left ∧
        Reads env vars N level (levelExpr env (procCastExpr env fuel) fuel level) right := by
    rintro fuel level op left right rfl
    obtain ⟨hleft, hright⟩ := hbin _ op left right rfl
    obtain ⟨⟨-, hlevel, -⟩, ⟨-, hleftRank⟩, -, hrightRank⟩ := hformed
    exact ⟨hleft.operator level (by omega) (by omega) fuel,
      hright.operand level (by omega) (by omega) fuel⟩
  have hoperand : ∀ level ≤ 6, e.rank ≤ 3 + level → ∀ fuel,
      Reads env vars N level (levelExpr env (procCastExpr env fuel) fuel level) e :=
    fun level hlevel hlower fuel =>
      reads_levelExpr hformed (hcast' fuel) (hoperands fuel) hlevel hlower
  refine ⟨hpost, hoperand, fun level hlevel hlower fuel => ?_, fun _ fuel => ?_,
    fun hparams => by omega⟩
  · exact continues_levelExpr hformed (hoperands fuel level)
      (fun hrank => hoperand level (by omega) hrank fuel) hlevel hlower
  · cases fuel with
    | zero => exact reads_outOfFuel
    | succ fuel =>
      refine reads_procAssignExpr hformed hrank
        (fun hlower => hoperand 6 (Nat.le_refl 6) hlower fuel) ?_
      rintro target value rfl
      obtain ⟨htarget, hvalue⟩ := hassign target value rfl
      exact ⟨htarget.operand 6 (Nat.le_refl 6) hformed.1.2 fuel, hvalue.assign hformed.2.2 fuel⟩

theorem readable (hformed : e.Formed) (hhandled : Handled env vars e) : Readable env vars N e := by
  induction e with
  | leaf token =>
    have hpost : ∀ fuel, ContinuesPost env vars N (procAssignExpr env fuel) (.leaf token) :=
      fun fuel => continuesPost_leaf hformed hhandled
    exact .of_cast hformed (by simp [Expr.rank]) (fun _ => hpost)
      (fun _ fuel => (hpost fuel).cast hformed hhandled (by simp [Expr.rank]))
      (fun _ _ _ _ heq => by cases heq) fun _ _ heq => by cases heq
  | paren e => exact hhandled.elim
  | post op e ih =>
    have he := ih hformed.2.1 hhandled
    have hpost : ∀ fuel, ContinuesPost env vars N (procAssignExpr env fuel) (.post op e) :=
      fun fuel => (he.post hformed.2.2 fuel).post hformed
    exact .of_cast hformed (by simp [Expr.rank]) (fun _ => hpost)
      (fun _ fuel => (hpost fuel).cast hformed hhandled (by simp [Expr.rank]))
      (fun _ _ _ _ heq => by cases heq) fun _ _ heq => by cases heq
  | call f args ihf iha =>
    have hf := ihf hformed.1.1 hhandled.1
    have hargs := iha hformed.2.1 hhandled.2
    have hpost : ∀ fuel, ContinuesPost env vars N (procAssignExpr env fuel) (.call f args) :=
      fun fuel => (hf.post hformed.1.2 fuel).call hformed hhandled.2
        fun hne => hargs.params hformed.2.2 hne fuel
    exact .of_cast hformed (by simp [Expr.rank]) (fun _ => hpost)
      (fun _ fuel => (hpost fuel).cast hformed hhandled (by simp [Expr.rank]))
      (fun _ _ _ _ heq => by cases heq) fun _ _ heq => by cases heq
  | pre op e ih =>
    have he := ih hformed.2.1 hhandled
    exact .of_cast hformed (by simp [Expr.rank]) (fun hrank => absurd hrank (by simp [Expr.rank]))
      (fun _ fuel => reads_pre hformed (he.operand 0 (by decide) hformed.2.2 fuel))
      (fun _ _ _ _ heq => by cases heq) fun _ _ heq => by cases heq
  | cast type e ih =>
    have he := ih hformed.2.1 hhandled.2
    exact .of_cast hformed (by simp [Expr.rank]) (fun hrank => absurd hrank (by simp [Expr.rank]))
      (fun _ fuel => reads_cast hformed hhandled (he.operand 0 (by decide) hformed.2.2 fuel))
      (fun _ _ _ _ heq => by cases heq) fun _ _ heq => by cases heq
  | bin level op left right ihl ihr =>
    have hleft := ihl hformed.2.1.1 hhandled.1
    have hright := ihr hformed.2.2.1 hhandled.2
    obtain ⟨hpos, hle, -⟩ := hformed.1
    have hrank : (Expr.bin level op left right).rank = 3 + level := rfl
    refine .of_cast hformed (by omega) (fun hlower => by omega) (fun hlower => by omega) ?_
      fun _ _ heq => by cases heq
    rintro _ _ _ _ ⟨⟩
    exact ⟨hleft, hright⟩
  | assign target value iht ihv =>
    have htarget := iht hformed.1.1 hhandled.1
    have hvalue := ihv hformed.2.1 hhandled.2
    refine .of_cast hformed (by simp [Expr.rank]) (fun hrank => absurd hrank (by simp [Expr.rank]))
      (fun hrank => absurd hrank (by simp [Expr.rank])) (fun _ _ _ _ heq => by cases heq) ?_
    rintro _ _ ⟨⟩
    exact ⟨htarget, hvalue⟩
  | noParam =>
    refine ⟨fun hrank => ?_, fun _ _ hrank => ?_, fun _ _ hrank => ?_, fun hrank => ?_,
      fun _ hne => absurd rfl hne⟩ <;> simp only [Expr.rank] at hrank <;> omega
  | param e ih =>
    have he := ih hformed.1 hhandled
    refine ⟨fun hrank => ?_, fun _ _ hrank => ?_, fun _ _ hrank => ?_, fun hrank => ?_,
      fun _ _ fuel => (he.assign hformed.2 fuel).continuesParams hformed.1 hformed.2⟩ <;>
      simp only [Expr.rank] at hrank <;> omega
  | params list e ihl ihe =>
    have hlist := ihl hformed.1.1 hhandled.2.1
    have he := ihe hformed.2.1 hhandled.2.2
    refine ⟨fun hrank => ?_, fun _ _ hrank => ?_, fun _ _ hrank => ?_, fun hrank => ?_,
      fun _ _ fuel => (hlist.params hformed.1.2 hhandled.1 fuel).append hformed.2.1 hformed.2.2
        (he.assign hformed.2.2 fuel)⟩ <;> simp only [Expr.rank] at hrank <;> omega

end

end ControlRTT.Components.FinshComplete
