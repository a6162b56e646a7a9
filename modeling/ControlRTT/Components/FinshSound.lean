import ControlRTT.Components.FinshGrammar

/-! # What the FinSH parser takes for an expression

Where the parser has set no error, what it has read is a derivation and the node that it comes back
with is the tree of it. An error stays set, so that in a function all the calls have gone well if
the last one has (`Sound`). -/
namespace ControlRTT.Components.FinshSound
open FinshToken FinshParser FinshGrammar Lib.Programs

section
variable {H : Type} {env : Env H} {vars : List Var} {N n p q k : Nat} {h : H} {s s' : Parser H}

/-- The parser stands before the token at `p`, and there has been no error. -/
structure Standing (env : Env H) (vars : List Var) (p k : Nat) (h : H) (s : Parser H) : Prop where
  errno : s.errno = none
  vars : s.vars = vars
  nodes : s.nodes = k
  room : k ≤ finshNodeMax
  heap : s.heap = h
  place : s.replay = false ∧ s.index = p ∨
    s.replay = true ∧ s.index = p + 1 ∧ env.tokens p = some s.token ∧ s.token.error = none

/-- It has just read the token at `p`. -/
structure JustRead (env : Env H) (vars : List Var) (p k : Nat) (h : H) (s : Parser H) : Prop where
  errno : s.errno = none
  vars : s.vars = vars
  nodes : s.nodes = k
  room : k ≤ finshNodeMax
  heap : s.heap = h
  replay : s.replay = false
  index : s.index = p + 1
  token : env.tokens p = some s.token
  error : s.token.error = none

theorem JustRead.standing (hs : JustRead env vars p k h s) : Standing env vars (p + 1) k h s :=
  ⟨hs.errno, hs.vars, hs.nodes, hs.room, hs.heap, .inl ⟨hs.replay, hs.index⟩⟩

theorem JustRead.back (hs : JustRead env vars p k h s) :
    Standing env vars p k h { s with replay := true } :=
  ⟨hs.errno, hs.vars, hs.nodes, hs.room, hs.heap, .inr ⟨rfl, hs.index, hs.token, hs.error⟩⟩

theorem JustRead.typeAt (hs : JustRead env vars p k h s) : TypeAt env p s.token.type :=
  ⟨s.token, hs.token, hs.error, rfl⟩

/-- An entry of the node table has been taken. -/
def Allocated (s s' : Parser H) : Prop :=
  s.nodes < finshNodeMax ∧ s' = { s with nodes := s.nodes + 1 }

theorem Allocated.errno (hnew : Allocated s s') : s'.errno = s.errno := by
  obtain ⟨-, rfl⟩ := hnew
  rfl

theorem Standing.alloc (hs : Standing env vars p k h s) (hnew : Allocated s s') :
    Standing env vars p (k + 1) h s' := by
  obtain ⟨hlt, rfl⟩ := hnew
  exact ⟨hs.errno, hs.vars, congrArg (· + 1) hs.nodes, hs.nodes ▸ hlt, hs.heap, hs.place⟩

section
variable {E : Stop → Parser H → Prop}

theorem Standing.wp_nextToken {t : TokenType}
    (hs : Standing env vars p k h s) (ht : TypeAt env p t) :
    Wp E (nextToken env) (fun t' s' => t' = t ∧ JustRead env vars p k h s') s := by
  obtain ⟨token, htoken, herror, htype⟩ := ht
  refine wp_bind (wp_get (wp_ite (fun hreplay => ?_) fun hreplay => ?_))
  · rcases hs.place with ⟨hfalse, -⟩ | ⟨-, hindex, htoken', herror'⟩
    · rw [hreplay] at hfalse
      cases hfalse
    · obtain rfl := Option.some.inj (htoken.symm.trans htoken')
      exact wp_bind (wp_set (wp_pure
        ⟨htype, hs.errno, hs.vars, hs.nodes, hs.room, hs.heap, rfl, hindex, htoken', herror'⟩))
  · rcases hs.place with ⟨hfalse, rfl⟩ | ⟨htrue, -⟩
    · rw [htoken]
      exact wp_bind (wp_set (wp_pure ⟨htype, by rw [herror]; exact hs.errno, hs.vars, hs.nodes,
        hs.room, hs.heap, hfalse, rfl, htoken, herror⟩))
    · exact absurd htrue hreplay

theorem Standing.wp_matchToken {t : TokenType}
    (hs : Standing env vars p k h s) (ht : TypeAt env p t) :
    Wp E (matchToken env t) (fun _ s' => JustRead env vars p k h s') s := by
  refine (hs.wp_nextToken ht).bind fun t' s₁ ⟨ht', h₁⟩ => ?_
  exact wp_ite (fun hne => absurd ht' hne) fun _ => wp_pure h₁

theorem Standing.wp_finshNodeAllocate (type : NodeType)
    (value : BitVec 32) (id : Option Symbol) (hs : Standing env vars p k h s)
    (hk : k < finshNodeMax) :
    Wp E (finshNodeAllocate type value id) (fun node s' =>
      node = .mk { nodeType := type, value := value, id := id } .null .null ∧
        Allocated s s') s := by
  have hlt : s.nodes < finshNodeMax := hs.nodes ▸ hk
  exact wp_bind (wp_get (wp_ite (fun _ => wp_bind (wp_set (wp_pure ⟨rfl, hlt, rfl⟩)))
    fun hfull => absurd hlt hfull))

theorem Standing.wp_finshNodeNew (type : NodeType)
    (value : BitVec 32) (id : Option Symbol) (hs : Standing env vars p k h s)
    (hk : k < finshNodeMax) :
    Wp E (finshNodeNew type value id) (fun node s' =>
      node = .mk { nodeType := type, value := value, id := id } .null .null ∧
        Allocated s s') s := by
  refine (hs.wp_finshNodeAllocate type value id hk).bind fun node s₁ ⟨hnode, h₁⟩ => ?_
  subst hnode
  exact wp_ite (fun hnull => by cases hnull) fun _ => wp_pure ⟨rfl, h₁⟩

theorem Standing.wp_makeSysNode (type : NodeType) {node1 : Node}
    (node2 : Node) (hs : Standing env vars p k h s) (hnode1 : node1.isNull = false)
    (hk : k < finshNodeMax) :
    Wp E (makeSysNode type node1 node2) (fun node s' =>
      node = sysNode type node1 node2 ∧ Standing env vars p (k + 1) h s') s := by
  refine (hs.wp_finshNodeAllocate type 0 none hk).bind fun node s₁ ⟨hnode, h₁⟩ => ?_
  subst hnode
  refine wp_ite (fun _ => wp_pure ⟨rfl, hs.alloc h₁⟩) fun hnull => ?_
  rw [hnode1] at hnull
  exact absurd rfl hnull

theorem Standing.wp_procIdentifier (hs : Standing env vars p k h s)
    (ht : TypeAt env p .identifier) :
    Wp E (procIdentifier env) (fun id s' =>
      id = s'.token.text.take finshNameMax ∧ JustRead env vars p k h s') s :=
  (hs.wp_matchToken ht).bind fun _ _ h₁ => wp_bind (wp_get (wp_pure ⟨rfl, h₁⟩))

theorem Standing.wp_finshNodeNewString (text : List Char) (hs : Standing env vars p k h s)
    (hk : k < finshNodeMax) :
    Wp E (finshNodeNewString env text) (fun node s' =>
      node = .mk { nodeType := .valueString, value := (env.newString text h).1 } .null .null ∧
        Standing env vars p (k + 1) (env.newString text h).2 s') s := by
  refine (hs.wp_finshNodeNew .valueString 0 none hk).bind fun node s₁ ⟨hnode, h₁⟩ => ?_
  subst hnode
  refine wp_ite (fun hnull => by cases hnull) fun _ => wp_bind (wp_get (wp_bind (wp_set
    (wp_pure ?_))))
  have hs₁ := hs.alloc h₁
  rw [hs₁.heap]
  exact ⟨rfl, hs₁.errno, hs₁.vars, hs₁.nodes, hs₁.room, rfl, hs₁.place⟩

end

/-- What may be known of the state after a call: if no error is set, then none was before, and `P`
holds. -/
def Clean (s s' : Parser H) (P : Prop) : Prop := s'.errno = none → s.errno = none ∧ P

theorem Clean.trans {P Q R : Prop} {s₁ s₂ : Parser H} (h₁ : Clean s s₁ P) (h₂ : Clean s₁ s₂ Q)
    (hR : P → Q → R) : Clean s s₂ R := by
  intro herr
  obtain ⟨herr₁, hQ⟩ := h₂ herr
  obtain ⟨herr₀, hP⟩ := h₁ herr₁
  exact ⟨herr₀, hR hP hQ⟩

/-- The token that has been read is put back. -/
theorem Clean.back {s₁ : Parser H} (h₁ : Clean s s₁ (∀ p k h, Standing env vars p k h s →
    JustRead env vars p k h s₁)) :
    Clean s { s₁ with replay := true } (∀ p k h, Standing env vars p k h s →
      Standing env vars p k h { s₁ with replay := true }) := fun herr =>
  (h₁ herr).imp_right fun hread p k h hs => (hread p k h hs).back

/-- The programs here may stop in any way. -/
abbrev Any : Stop → Parser H → Prop := fun _ _ => True

theorem clean_error (e : FinshError) (P : Prop) (herr : s'.errno = some e) : Clean s s' P := by
  intro hnone
  rw [herr] at hnone
  cases hnone

/-- `finsh_token_token` -/
theorem clean_nextToken (vars : List Var) (s : Parser H) :
    Wp Any (nextToken env) (fun t s' => s'.token.type = t ∧ Clean s s' (∀ p k h,
      Standing env vars p k h s → JustRead env vars p k h s')) s := by
  refine wp_bind (wp_get (wp_ite (fun hreplay => ?_) fun hreplay => ?_))
  · refine wp_bind (wp_set (wp_pure ⟨rfl, fun herr => ⟨herr, fun p k h hs => ?_⟩⟩))
    rcases hs.place with ⟨hfalse, -⟩ | ⟨-, hindex, htoken, herror⟩
    · rw [hreplay] at hfalse
      cases hfalse
    · exact ⟨hs.errno, hs.vars, hs.nodes, hs.room, hs.heap, rfl, hindex, htoken, herror⟩
  · cases htoken : env.tokens s.index with
    | none => exact wp_throw trivial
    | some t =>
      refine wp_bind (wp_set (wp_pure ⟨rfl, fun herr => ?_⟩))
      obtain ⟨hnone, herr⟩ := Option.or_eq_none_iff.mp herr
      refine ⟨herr, fun p k h hs => ?_⟩
      rcases hs.place with ⟨hfalse, rfl⟩ | ⟨htrue, -⟩
      · exact ⟨by rw [hnone, herr]; rfl, hs.vars, hs.nodes, hs.room, hs.heap, hfalse, rfl, htoken,
          hnone⟩
      · exact absurd htrue hreplay

theorem clean_checkToken (token type : TokenType) (s : Parser H) :
    Wp Any (checkToken token type) (fun _ s' => Clean s s' (token = type ∧ s' = s)) s := by
  refine wp_ite (fun hne => ?_) fun heq => ?_
  · exact wp_bind (wp_modify (wp_modify (clean_error _ _ rfl)))
  · exact wp_pure fun herr => ⟨herr, not_not.mp heq, rfl⟩

theorem clean_matchToken (vars : List Var) (type : TokenType) (s : Parser H) :
    Wp Any (matchToken env type) (fun _ s' => Clean s s' (∀ p k h,
      Standing env vars p k h s → TypeAt env p type ∧ JustRead env vars p k h s')) s := by
  refine (clean_nextToken vars s).bind fun t s₁ ⟨ht, h₁⟩ => ?_
  refine (clean_checkToken t type s₁).mono fun _ s₂ h₂ => h₁.trans h₂ ?_
  rintro hread ⟨rfl, rfl⟩ p k h hs
  have hjust := hread p k h hs
  exact ⟨ht ▸ hjust.typeAt, hjust⟩

theorem clean_finshNodeAllocate (type : NodeType) (value : BitVec 32) (id : Option Symbol)
    (s : Parser H) :
    Wp Any (finshNodeAllocate type value id) (fun node s' =>
      node.isNull = true ∧ s' = s ∨
        node = .mk { nodeType := type, value := value, id := id } .null .null ∧
          Allocated s s') s := by
  refine wp_bind (wp_get (wp_ite (fun hlt => ?_) fun _ => ?_))
  · exact wp_bind (wp_set (wp_pure (.inr ⟨rfl, hlt, rfl⟩)))
  · exact wp_pure (.inl ⟨rfl, rfl⟩)

theorem clean_finshNodeNew (type : NodeType) (value : BitVec 32) (id : Option Symbol)
    (s : Parser H) :
    Wp Any (finshNodeNew type value id) (fun node s' => Clean s s'
      (node = .mk { nodeType := type, value := value, id := id } .null .null ∧
        Allocated s s')) s := by
  refine (clean_finshNodeAllocate type value id s).bind fun node s₁ hnode =>
    wp_ite (fun hnull => ?_) fun hnull => ?_
  · exact wp_bind (wp_modify (wp_pure (clean_error _ _ rfl)))
  · rcases hnode with ⟨htrue, -⟩ | ⟨rfl, hnew⟩
    · exact absurd htrue hnull
    · exact wp_pure fun herr => ⟨hnew.errno ▸ herr, rfl, hnew⟩

theorem clean_makeSysNode (type : NodeType) (node1 node2 : Node) (s : Parser H) :
    Wp Any (makeSysNode type node1 node2) (fun node s' => Clean s s'
      (node = sysNode type node1 node2 ∧ Allocated s s')) s := by
  refine (clean_finshNodeAllocate type 0 none s).bind fun node s₁ hnode =>
    wp_ite (fun hboth => ?_) fun _ => ?_
  · rcases hnode with ⟨htrue, -⟩ | ⟨rfl, hnew⟩
    · rw [htrue, Bool.not_true, Bool.and_false] at hboth
      cases hboth
    · exact wp_pure fun herr => ⟨hnew.errno ▸ herr, rfl, hnew⟩
  · exact wp_bind (wp_modify (wp_pure (clean_error _ _ rfl)))

/-! ## Expressions -/

/-- The node is the tree of a derivation that begins at `p`, of no greater rank than `n`. -/
def Parsed (env : Env H) (vars : List Var) (n p k : Nat) (h : H) (node : Node) (s : Parser H) :
    Prop :=
  ∃ e q, (e.Formed ∧ Handled env vars e ∧ e.rank ≤ n) ∧ Spells env e p q ∧
    node = (build env vars e h).1 ∧ Standing env vars q (k + e.size) (build env vars e h).2 s

/-- The program yields trees, as long as no error is set. -/
def Sound (env : Env H) (vars : List Var) (n : Nat) (m : EStateM Stop (Parser H) Node) : Prop :=
  ∀ s, Wp Any m (fun node s' => Clean s s' (∀ p k h,
    Standing env vars p k h s → Parsed env vars n p k h node s')) s

/-- A token is read behind an expression, and is not one that goes on with it. -/
theorem Parsed.back {node : Node} {s₁ : Parser H} (hs : Parsed env vars n p k h node s)
    (hread : ∀ p k h, Standing env vars p k h s → JustRead env vars p k h s₁) :
    Parsed env vars n p k h node { s₁ with replay := true } := by
  obtain ⟨e, q, he, hspells, hnode, hstanding⟩ := hs
  exact ⟨e, q, he, hspells, hnode, (hread _ _ _ hstanding).back⟩

theorem Parsed.mono {m : Nat} {node : Node} (hs : Parsed env vars n p k h node s) (hle : n ≤ m) :
    Parsed env vars m p k h node s := by
  obtain ⟨e, q, ⟨hformed, hhandled, hrank⟩, hrest⟩ := hs
  exact ⟨e, q, ⟨hformed, hhandled, hrank.trans hle⟩, hrest⟩

theorem mem_of_lookup {ops : List (TokenType × NodeType)} {t : TokenType} {op : NodeType}
    (h : ops.lookup t = some op) : (t, op) ∈ ops := by
  obtain ⟨before, after, rfl, -⟩ := List.lookup_eq_some_iff.mp h
  exact List.mem_append_right _ List.mem_cons_self

/-- The left operand and the operator have been read, then the right one, and a node made. -/
theorem Parsed.bin {level : Nat} {t : TokenType} {op : NodeType} {left right : Node}
    {s₁ s₂ s₃ : Parser H} (hlevel : 1 ≤ level ∧ level ≤ 6) (hop : (t, op) ∈ levelOps level)
    (hleft : Parsed env vars (3 + level) p k h left s)
    (hread : ∀ p k h, Standing env vars p k h s → JustRead env vars p k h s₁)
    (ht : s₁.token.type = t)
    (hright : ∀ p k h, Standing env vars p k h s₁ → Parsed env vars (2 + level) p k h right s₂)
    (hnew : Allocated s₂ s₃) :
    Parsed env vars (3 + level) p k h (sysNode op left right) s₃ := by
  obtain ⟨e, q, ⟨hformed, hhandled, hrank⟩, hspells, rfl, hstanding⟩ := hleft
  have hjust := hread _ _ _ hstanding
  obtain ⟨e', q', ⟨hformed', hhandled', hrank'⟩, hspells', rfl, hstanding'⟩ :=
    hright _ _ _ hjust.standing
  refine ⟨.bin level (t, op) e e', q', ⟨⟨⟨hlevel.1, hlevel.2, hop⟩, ⟨hformed, hrank⟩, hformed',
    by omega⟩, ⟨hhandled, hhandled'⟩, Nat.le_refl _⟩, ⟨q, hspells, ht ▸ hjust.typeAt, hspells'⟩,
    rfl, ?_⟩
  have hsize : k + (Expr.bin level (t, op) e e').size = k + e.size + e'.size + 1 := by
    simp only [Expr.size]
    omega
  rw [hsize]
  exact hstanding'.alloc hnew

theorem Clean.of_error {P Q : Prop} {s₁ : Parser H} {e : FinshError} (hs : Clean s₁ s' P)
    (herr : s₁.errno = some e) : Clean s s' Q := by
  intro hnone
  have := (hs hnone).1
  rw [herr] at this
  cases this

theorem clean_binaryLoop {level : Nat} {operand : EStateM Stop (Parser H) Node}
    (hlevel : 1 ≤ level ∧ level ≤ 6) (hoperand : Sound env vars (2 + level) operand) (fuel : Nat)
    (left : Node) (s : Parser H) :
    Wp Any (binaryLoop env (levelOps level) operand fuel left) (fun node s' => Clean s s'
      (∀ p k h, Parsed env vars (3 + level) p k h left s →
        Parsed env vars (3 + level) p k h node s')) s := by
  induction fuel generalizing left s with
  | zero => exact wp_throw trivial
  | succ fuel ih =>
    refine (clean_nextToken vars s).bind fun t s₁ ⟨ht, h₁⟩ => ?_
    cases hop : (levelOps level).lookup t with
    | none =>
      refine wp_bind (wp_modify (wp_pure ?_))
      exact fun herr => (h₁ herr).imp_right fun hread p k h hleft => hleft.back hread
    | some op =>
      refine (hoperand s₁).bind fun right s₂ h₂ => wp_ite (fun _ => ?_) fun _ => ?_
      · exact wp_bind (wp_modify ((ih left _).mono fun _ _ h₃ => h₃.of_error rfl))
      · refine (clean_makeSysNode op left right s₂).bind fun node s₃ h₃ =>
          (ih node s₃).mono fun result s₄ h₄ => ?_
        refine (h₁.trans h₂ And.intro).trans (h₃.trans h₄ And.intro) ?_
        rintro ⟨hread, hright⟩ ⟨⟨rfl, hnew⟩, hrest⟩ p k h hleft
        exact hrest p k h (hleft.bin hlevel (mem_of_lookup hop) hread ht hright hnew)

theorem Sound.binary (level : Nat) {operand : EStateM Stop (Parser H) Node}
    (hoperand : Sound env vars (2 + level) operand) (hlevel : 1 ≤ level ∧ level ≤ 6) (fuel : Nat) :
    Sound env vars (3 + level) (binary env (levelOps level) operand fuel) := by
  intro s
  refine (hoperand s).bind fun left s₁ h₁ =>
    (clean_binaryLoop hlevel hoperand fuel left s₁).mono fun node s₂ h₂ => h₁.trans h₂ ?_
  exact fun hleft hrest p k h hs => hrest p k h ((hleft p k h hs).mono (by omega))

theorem Sound.procInclusiveOrExpr {cast : EStateM Stop (Parser H) Node}
    (hcast : Sound env vars 3 cast) (fuel : Nat) :
    Sound env vars 9 (procInclusiveOrExpr env cast fuel) := by
  have hmul := hcast.binary 1 (by decide) fuel
  have hadd := hmul.binary 2 (by decide) fuel
  have hshift := hadd.binary 3 (by decide) fuel
  have hand := hshift.binary 4 (by decide) fuel
  have hxor := hand.binary 5 (by decide) fuel
  exact hxor.binary 6 (by decide) fuel

theorem Parsed.isNull {node : Node} (hs : Parsed env vars n p k h node s) (hle : n ≤ 10) :
    node.isNull = false := by
  obtain ⟨e, q, ⟨hformed, -, hrank⟩, -, rfl, -⟩ := hs
  exact (build_root env vars hformed (hrank.trans hle) h).1

/-! ## What an expression begins with -/

/-- Where the program begins with a parenthesis nothing is said of it. -/
def SoundBare (env : Env H) (vars : List Var) (n : Nat) (m : EStateM Stop (Parser H) Node) : Prop :=
  ∀ s, Wp Any m (fun node s' => Clean s s' (∀ p k h, Standing env vars p k h s →
    ¬ TypeAt env p .leftParen → Parsed env vars n p k h node s')) s

theorem clean_finshNodeNewId (id : List Char) (s : Parser H) :
    Wp Any (finshNodeNewId env id) (fun node s' => Clean s s' (∃ symbol,
      symbolOf env s.vars id = some symbol ∧
        node = .mk { nodeType := .id, id := some symbol } .null .null ∧ Allocated s s')) s := by
  have hnew : ∀ symbol, symbolOf env s.vars id = some symbol →
      Wp Any (finshNodeNew .id 0 (some symbol)) (fun node s' => Clean s s' (∃ symbol,
        symbolOf env s.vars id = some symbol ∧
          node = .mk { nodeType := .id, id := some symbol } .null .null ∧
            Allocated s s')) s := fun symbol hsymbol =>
    (clean_finshNodeNew _ _ _ s).mono fun _ _ hclean herr =>
      (hclean herr).imp_right fun hnode => ⟨symbol, hsymbol, hnode⟩
  refine wp_bind (wp_get ?_)
  unfold symbolOf at hnew ⊢
  cases hvar : finshVarLookup s.vars id with
  | some i =>
    rw [hvar] at hnew
    exact hnew _ rfl
  | none =>
    rw [hvar] at hnew
    cases hsysvar : env.sysvarLookup id with
    | some i =>
      rw [hsysvar] at hnew
      exact hnew _ rfl
    | none =>
      rw [hsysvar] at hnew
      cases hsyscall : env.syscallLookup id with
      | some i =>
        rw [hsyscall] at hnew
        exact hnew _ rfl
      | none => exact wp_bind (wp_modify (wp_pure (clean_error _ _ rfl)))

theorem clean_finshNodeNewString (vars : List Var) (text : List Char) (s : Parser H) :
    Wp Any (finshNodeNewString env text) (fun node s' => Clean s s' (∀ p k h,
      Standing env vars p k h s →
        node = .mk { nodeType := .valueString, value := (env.newString text h).1 } .null .null ∧
          Standing env vars p (k + 1) (env.newString text h).2 s')) s := by
  refine (clean_finshNodeNew .valueString 0 none s).bind fun node s₁ h₁ =>
    wp_ite (fun hnull => wp_pure ?_) fun _ => wp_bind (wp_get (wp_bind (wp_set (wp_pure ?_))))
  · intro herr
    obtain ⟨-, rfl, -⟩ := h₁ herr
    cases hnull
  · refine fun herr => (h₁ herr).imp_right fun hboth p k h hs => ?_
    obtain ⟨rfl, hnew⟩ := hboth
    have hs₁ := hs.alloc hnew
    rw [hs₁.heap]
    exact ⟨rfl, hs₁.errno, hs₁.vars, hs₁.nodes, hs₁.room, rfl, hs₁.place⟩

/-- A literal or a name. -/
theorem JustRead.leaf (hs : JustRead env vars p k h s) (hleaf : isLeaf s.token.type = true)
    (hname : s.token.type = .identifier → (nameSymbol env vars s.token).isSome = true)
    (hstate : Standing env vars (p + 1) (k + 1) (leafNode env vars s.token h).2 s') :
    Parsed env vars n p k h (leafNode env vars s.token h).1 s' :=
  ⟨.leaf s.token, p + 1, ⟨hleaf, hname, Nat.zero_le n⟩, ⟨⟨hs.token, hs.error⟩, rfl⟩, rfl, hstate⟩

/-- A literal of which the node holds the value. -/
theorem JustRead.value {type : NodeType} {value : BitVec 32} {node : Node} {s₁ : Parser H}
    (hs : JustRead env vars p k h s) (hleaf : isLeaf s.token.type = true)
    (hname : s.token.type ≠ .identifier)
    (hnode : leafNode env vars s.token h =
      (.mk { nodeType := type, value := value } .null .null, h))
    (hnew : node = .mk { nodeType := type, value := value } .null .null ∧
      Allocated s s₁) : Parsed env vars n p k h node s₁ := by
  obtain ⟨rfl, hnew⟩ := hnew
  have hparsed : Parsed env vars n p k h (leafNode env vars s.token h).1 s₁ :=
    hs.leaf hleaf (fun htype => absurd htype hname) (by rw [hnode]; exact hs.standing.alloc hnew)
  rwa [hnode] at hparsed

theorem clean_procIdentifier (vars : List Var) (s : Parser H) :
    Wp Any (procIdentifier env) (fun id s' => id = s'.token.text.take finshNameMax ∧
      Clean s s' (∀ p k h, Standing env vars p k h s →
        TypeAt env p .identifier ∧ JustRead env vars p k h s')) s := by
  refine (clean_matchToken vars .identifier s).bind fun _ s₁ h₁ => ?_
  exact wp_bind (wp_get (wp_pure ⟨rfl, h₁⟩))

theorem soundBare_procPrimaryExpr {assign : EStateM Stop (Parser H) Node}
    (hassign : Sound env vars 10 assign) : SoundBare env vars 0 (procPrimaryExpr env assign) := by
  intro s
  refine (clean_nextToken vars s).bind fun t s₁ ⟨ht, h₁⟩ => ?_
  have hnumber : ∀ type : NodeType, isLeaf t = true → t ≠ .identifier →
      (∀ h, leafNode env vars s₁.token h =
        (.mk { nodeType := type, value := s₁.token.value } .null .null, h)) →
      Wp Any (do finshNodeNew type (← get).token.value none) (fun node s' => Clean s s'
        (∀ p k h, Standing env vars p k h s → ¬ TypeAt env p .leftParen →
          Parsed env vars 0 p k h node s')) s₁ := by
    intro type hleaf hname hnode
    refine wp_bind (wp_get ((clean_finshNodeNew type _ none s₁).mono fun node s₂ h₂ =>
      h₁.trans h₂ ?_))
    intro hread hnew p k h hs _
    exact (hread p k h hs).value (ht ▸ hleaf) (ht ▸ hname) (hnode h) hnew
  cases t with
  | identifier =>
    refine wp_bind (wp_modify ?_)
    refine (clean_procIdentifier vars _).bind fun id s₂ ⟨hid, h₂⟩ => ?_
    refine (clean_finshNodeNewId id s₂).mono fun node s₃ h₃ => ?_
    refine (h₁.back.trans h₂ And.intro).trans h₃ ?_
    rintro ⟨hstand, hread⟩ ⟨symbol, hsymbol, rfl, hnew⟩ p k h hs _
    obtain ⟨htype, hjust⟩ := hread p k h (hstand p k h hs)
    have htoken : s₂.token.type = .identifier := hjust.typeAt.unique htype
    have hname : nameSymbol env vars s₂.token = some symbol := by
      rw [nameSymbol, ← hid, ← hjust.vars, hsymbol]
    have hnode : leafNode env vars s₂.token h =
        (.mk { nodeType := .id, id := some symbol } .null .null, h) := by
      rw [leafNode, htoken, hname]
    have hparsed : Parsed env vars 0 p k h (leafNode env vars s₂.token h).1 s₃ :=
      hjust.leaf (by rw [htoken]; rfl) (fun _ => by rw [hname]; rfl)
        (by rw [hnode]; exact hjust.standing.alloc hnew)
    rwa [hnode] at hparsed
  | leftParen =>
    refine (hassign s₁).bind fun node s₂ h₂ => ?_
    refine (clean_matchToken vars .rightParen s₂).bind fun _ s₃ h₃ => wp_pure ?_
    refine (h₁.trans h₂ And.intro).trans h₃ ?_
    rintro ⟨hread, -⟩ - p k h hs hparen
    exact absurd (ht ▸ (hread p k h hs).typeAt) hparen
  | valueInt => exact hnumber .valueInt rfl (by decide) fun h => by rw [leafNode, ht]
  | valueLong => exact hnumber .valueLong rfl (by decide) fun h => by rw [leafNode, ht]
  | valueChar => exact hnumber .valueChar rfl (by decide) fun h => by rw [leafNode, ht]
  | valueString =>
    refine wp_bind (wp_get ((clean_finshNodeNewString vars _ s₁).mono fun node s₂ h₂ =>
      h₁.trans h₂ ?_))
    intro hread hnew p k h hs _
    have hjust := hread p k h hs
    obtain ⟨rfl, hstanding⟩ := hnew _ _ _ hjust.standing
    have hnode : leafNode env vars s₁.token h =
        (.mk { nodeType := .valueString, value := (env.newString s₁.token.text h).1 }
          .null .null, (env.newString s₁.token.text h).2) := by
      rw [leafNode, ht]
    have hparsed : Parsed env vars 0 p k h (leafNode env vars s₁.token h).1 s₂ :=
      hjust.leaf (by rw [ht]; rfl) (fun htype => by rw [ht] at htype; cases htype)
        (by rw [hnode]; exact hstanding)
    rwa [hnode] at hparsed
  | valueNull =>
    refine (clean_finshNodeNew .valueNull 0 none s₁).mono fun node s₂ h₂ => h₁.trans h₂ ?_
    intro hread hnew p k h hs _
    exact (hread p k h hs).value (by rw [ht]; rfl) (by rw [ht]; decide) (by rw [leafNode, ht]) hnew
  | _ => exact wp_bind (wp_modify (wp_pure (clean_error _ _ rfl)))

theorem clean_procPointer (vars : List Var) (type : FinshType) (s : Parser H) :
    Wp Any (procPointer env type) (fun type' s' => Clean s s' (∀ p k h,
      Standing env vars p k h s → ∃ pointer q,
        type' = (if pointer = true then pointerType type else type) ∧
          TypesAt env p (if pointer = true then [.mul] else []) q ∧
            Standing env vars q k h s')) s := by
  refine (clean_nextToken vars s).bind fun t s₁ ⟨ht, h₁⟩ =>
    wp_ite (fun hmul => wp_pure ?_) fun _ => wp_bind (wp_modify (wp_pure ?_))
  · refine fun herr => (h₁ herr).imp_right fun hread p k h hs => ?_
    have hjust := hread p k h hs
    exact ⟨true, p + 1, rfl, ⟨hmul ▸ ht ▸ hjust.typeAt, rfl⟩, hjust.standing⟩
  · exact fun herr => (h₁ herr).imp_right fun hread p k h hs =>
      ⟨false, p, rfl, rfl, (hread p k h hs).back⟩

theorem clean_procType (vars : List Var) (s : Parser H) :
    Wp Any (procType env) (fun type s' => Clean s s' (∀ p k h, Standing env vars p k h s →
      ∃ castType : CastType, ∃ q, (baseType castType.base).isSome = true ∧
        castType.finshType = some type ∧ TypesAt env p castType.tokens q ∧
          Standing env vars q k h s')) s := by
  have hunknown : ∀ s₁ : Parser H, ∀ P : Prop, Wp Any unknownType
      (fun _ s' => Clean s s' P) s₁ := fun s₁ P =>
    wp_bind (wp_modify (wp_bind (wp_modify (wp_pure (clean_error _ _ rfl)))))
  refine (clean_nextToken vars s).bind fun t s₁ ⟨ht, h₁⟩ => ?_
  cases hbase : baseType t with
  | some base =>
    refine (clean_procPointer vars base s₁).mono fun type s₂ h₂ => h₁.trans h₂ ?_
    intro hread hpointer p k h hs
    have hjust := hread p k h hs
    obtain ⟨pointer, q, rfl, htypes, hstanding⟩ := hpointer _ _ _ hjust.standing
    refine ⟨⟨false, t, pointer⟩, q, by rw [hbase]; rfl, ?_, ?_, hstanding⟩
    · simp only [CastType.finshType, Bool.false_eq_true, if_false, hbase]
      rfl
    · exact ⟨ht ▸ hjust.typeAt, htypes⟩
  | none =>
    refine wp_ite (fun hunsigned => ?_) fun _ => hunknown s₁ _
    refine (clean_nextToken vars s₁).bind fun t' s₂ ⟨ht', h₂⟩ => ?_
    cases hbase' : unsignedType t' with
    | some base =>
      refine (clean_procPointer vars base s₂).mono fun type s₃ h₃ =>
        (h₁.trans h₂ And.intro).trans h₃ ?_
      rintro ⟨hread, hread'⟩ hpointer p k h hs
      have hjust := hread p k h hs
      have hjust' := hread' _ _ _ hjust.standing
      obtain ⟨pointer, q, rfl, htypes, hstanding⟩ := hpointer _ _ _ hjust'.standing
      refine ⟨⟨true, t', pointer⟩, q, ?_, ?_, ?_, hstanding⟩
      · cases t' <;> first | rfl | cases hbase'
      · simp only [CastType.finshType, if_true, hbase']
        rfl
      · exact ⟨hunsigned ▸ ht ▸ hjust.typeAt, ht' ▸ hjust'.typeAt, htypes⟩
    | none =>
      refine wp_ite (fun _ => hunknown s₂ _) fun _ => wp_bind (wp_modify (wp_bind (wp_modify ?_)))
      exact (clean_procPointer vars .unknown _).mono fun _ _ h₃ => h₃.of_error rfl

/-! ## Parameters and calls -/

/-- The nodes are those of a `param_list` that is not empty. -/
def ParsedParams (env : Env H) (vars : List Var) (p k : Nat) (h : H) (nodes : List Node)
    (s : Parser H) : Prop :=
  ∃ e q, (e.Formed ∧ Handled env vars e ∧ e.rank = 11 ∧ e ≠ .noParam) ∧ Spells env e p q ∧
    (link nodes .null = (build env vars e h).1 ∧ ∀ node ∈ nodes, node.isNull = false) ∧
      Standing env vars q (k + e.size) (build env vars e h).2 s

theorem Parsed.params {node : Node} (hs : Parsed env vars 10 p k h node s) :
    ParsedParams env vars p k h [node] s := by
  have hnull := hs.isNull (Nat.le_refl _)
  obtain ⟨e, q, ⟨hformed, hhandled, hrank⟩, hspells, rfl, hstanding⟩ := hs
  refine ⟨.param e, q, ⟨⟨hformed, hrank⟩, hhandled, rfl, by intro heq; cases heq⟩, hspells,
    ⟨(build_root env vars hformed hrank h).2, ?_⟩, hstanding⟩
  intro node hnode
  obtain rfl := List.mem_singleton.mp hnode
  exact hnull

theorem ParsedParams.append {nodes : List Node} {node : Node} {s₁ s₂ : Parser H}
    (hs : ParsedParams env vars p k h nodes s)
    (hread : ∀ p k h, Standing env vars p k h s → JustRead env vars p k h s₁)
    (ht : s₁.token.type = .comma)
    (hnode : ∀ p k h, Standing env vars p k h s₁ → Parsed env vars 10 p k h node s₂) :
    ParsedParams env vars p k h (nodes ++ [node]) s₂ := by
  obtain ⟨e, q, ⟨hformed, hhandled, hrank, hne⟩, hspells, ⟨hlink, hnull⟩, hstanding⟩ := hs
  have hjust := hread _ _ _ hstanding
  have hparsed := hnode _ _ _ hjust.standing
  have hlast := hparsed.isNull (Nat.le_refl _)
  obtain ⟨e', q', ⟨hformed', hhandled', hrank'⟩, hspells', rfl, hstanding'⟩ := hparsed
  refine ⟨.params e e', q', ⟨⟨⟨hformed, hrank⟩, hformed', hrank'⟩, ⟨hne, hhandled, hhandled'⟩, rfl,
    by intro heq; cases heq⟩, ⟨q, hspells, ht ▸ hjust.typeAt, hspells'⟩, ⟨?_, ?_⟩, ?_⟩
  · rw [link_append hnull, hlink, (build_root env vars hformed' hrank' _).2]
    rfl
  · intro node hmem
    rcases List.mem_append.mp hmem with hmem | hmem
    · exact hnull node hmem
    · obtain rfl := List.mem_singleton.mp hmem
      exact hlast
  · rw [Expr.size, ← Nat.add_assoc]
    exact hstanding'

theorem clean_paramLoop {assign : EStateM Stop (Parser H) Node}
    (hassign : Sound env vars 10 assign) (fuel : Nat) (first : Node) (params : List Node)
    (s : Parser H) :
    Wp Any (paramLoop env assign fuel params) (fun result s' => Clean s s' (∀ p k h,
      ParsedParams env vars p k h (first :: params) s →
        ParsedParams env vars p k h (first :: result) s')) s := by
  induction fuel generalizing params s with
  | zero => exact wp_throw trivial
  | succ fuel ih =>
    refine (clean_nextToken vars s).bind fun t s₁ ⟨ht, h₁⟩ =>
      wp_ite (fun hcomma => ?_) fun _ => wp_bind (wp_modify (wp_pure ?_))
    · refine (hassign s₁).bind fun node s₂ h₂ => wp_ite (fun _ => ?_) fun _ => ?_
      · exact wp_bind (wp_modify ((ih params _).mono fun _ _ h₃ => h₃.of_error rfl))
      · refine (ih (params ++ [node]) s₂).mono fun result s₃ h₃ =>
          (h₁.trans h₂ And.intro).trans h₃ ?_
        rintro ⟨hread, hnode⟩ hrest p k h hs
        exact hrest p k h (hs.append hread (hcomma ▸ ht) hnode)
    · refine fun herr => (h₁ herr).imp_right fun hread p k h hs => ?_
      obtain ⟨e, q, he, hspells, hnodes, hstanding⟩ := hs
      exact ⟨e, q, he, hspells, hnodes, (hread _ _ _ hstanding).back⟩

theorem clean_procParamList {assign : EStateM Stop (Parser H) Node}
    (hassign : Sound env vars 10 assign) (fuel : Nat) (s : Parser H) :
    Wp Any (procParamList env assign fuel) (fun node s' => Clean s s' (∀ p k h,
      Standing env vars p k h s → ∃ nodes, node = link nodes .null ∧
        ParsedParams env vars p k h nodes s')) s := by
  refine (hassign s).bind fun node s₁ h₁ => wp_ite (fun hnull => wp_pure ?_) fun _ => ?_
  · refine fun herr => (h₁ herr).imp_right fun hnode p k h hs => ?_
    rw [(hnode p k h hs).isNull (Nat.le_refl _)] at hnull
    cases hnull
  · refine (clean_paramLoop hassign fuel node [] s₁).bind fun params s₂ h₂ =>
      wp_pure (h₁.trans h₂ ?_)
    exact fun hnode hrest p k h hs => ⟨_, rfl, hrest p k h (hnode p k h hs).params⟩

/-- The name and the parenthesis have been read, then what is between the parentheses, and a node
made. -/
theorem Parsed.call {f args : Node} {s₀ s₁ : Parser H} (hf : Parsed env vars 1 p k h f s₀)
    (hread : ∀ p k h, Standing env vars p k h s₀ → JustRead env vars p k h s)
    (hparen : s.token.type = .leftParen)
    (hargs : ∀ p k h, Standing env vars p k h s → ∃ e q,
      (e.Formed ∧ Handled env vars e ∧ e.rank = 11) ∧ Spells env e p q ∧
        TypeAt env q .rightParen ∧ args = (build env vars e h).1 ∧
          Standing env vars (q + 1) (k + e.size) (build env vars e h).2 s')
    (hnew : Allocated s' s₁) : Parsed env vars 1 p k h (sysNode .func f args) s₁ := by
  obtain ⟨f, m, ⟨hformed, hhandled, hrank⟩, hspells, rfl, hstanding⟩ := hf
  have hjust := hread _ _ _ hstanding
  obtain ⟨e, q, ⟨hformed', hhandled', hrank'⟩, hspells', hclose, rfl, hstanding'⟩ :=
    hargs _ _ _ hjust.standing
  refine ⟨.call f e, q + 1, ⟨⟨⟨hformed, hrank⟩, hformed', hrank'⟩, ⟨hhandled, hhandled'⟩,
    Nat.le_refl _⟩, ⟨m, q, hspells, hparen ▸ hjust.typeAt, hspells', hclose, rfl⟩, rfl, ?_⟩
  rw [Expr.size, ← Nat.add_assoc, ← Nat.add_assoc]
  exact hstanding'.alloc hnew

theorem clean_procCall {assign : EStateM Stop (Parser H) Node}
    (hassign : Sound env vars 10 assign) (fuel : Nat) (f : Node) (s₀ s : Parser H)
    (hparen : s.token.type = .leftParen) :
    Wp Any (procCall env assign fuel f) (fun node s' => Clean s s' (
      (∀ p k h, Standing env vars p k h s₀ → JustRead env vars p k h s) →
        ∀ p k h, Parsed env vars 1 p k h f s₀ → Parsed env vars 1 p k h node s')) s := by
  refine (clean_nextToken vars s).bind fun t s₁ ⟨ht, h₁⟩ =>
    wp_ite (fun hclose => ?_) fun _ => wp_bind (wp_modify ?_)
  · refine (clean_makeSysNode .func f .null s₁).mono fun node s₂ h₂ => h₁.trans h₂ ?_
    rintro hread' ⟨rfl, hnew⟩ hread p k h hf
    refine hf.call hread hparen (fun p k h hs => ?_) hnew
    have hjust := hread' p k h hs
    exact ⟨.noParam, p, ⟨trivial, trivial, rfl⟩, rfl, hclose ▸ ht ▸ hjust.typeAt, rfl,
      hjust.standing⟩
  · refine (clean_procParamList hassign fuel _).bind fun params s₂ h₂ => ?_
    refine (clean_matchToken vars .rightParen s₂).bind fun _ s₃ h₃ => ?_
    refine (clean_makeSysNode .func f params s₃).mono fun node s₄ h₄ => ?_
    refine (h₁.back.trans h₂ And.intro).trans (h₃.trans h₄ And.intro) ?_
    rintro ⟨hstand, hparams⟩ ⟨hclose, rfl, hnew⟩ hread p k h hf
    refine hf.call hread hparen (fun p k h hs => ?_) hnew
    obtain ⟨nodes, rfl, e, q, ⟨hformed, hhandled, hrank, -⟩, hspells, ⟨hlink, -⟩, hstanding⟩ :=
      hparams _ _ _ (hstand p k h hs)
    obtain ⟨htype, hjust⟩ := hclose _ _ _ hstanding
    exact ⟨e, q, ⟨hformed, hhandled, hrank⟩, hspells, htype, hlink, hjust.standing⟩

/-- `++` or `--` behind an expression. -/
theorem Parsed.post {t : TokenType} {node : Node} {s₁ s₂ : Parser H} (hpost : isPost t = true)
    (hnode : Parsed env vars 1 p k h node s)
    (hread : ∀ p k h, Standing env vars p k h s → JustRead env vars p k h s₁)
    (ht : s₁.token.type = t) (hnew : Allocated s₁ s₂) :
    Parsed env vars 1 p k h (postNode t node) s₂ := by
  obtain ⟨e, q, ⟨hformed, hhandled, hrank⟩, hspells, rfl, hstanding⟩ := hnode
  have hjust := hread _ _ _ hstanding
  refine ⟨.post t e, q + 1, ⟨⟨hpost, hformed, hrank⟩, hhandled, Nat.le_refl _⟩,
    ⟨q, hspells, ht ▸ hjust.typeAt, rfl⟩, rfl, ?_⟩
  rw [Expr.size, ← Nat.add_assoc]
  exact hjust.standing.alloc hnew

theorem clean_postfixLoop {assign : EStateM Stop (Parser H) Node}
    (hassign : Sound env vars 10 assign) (callFuel fuel : Nat) (node : Node) (s : Parser H) :
    Wp Any (postfixLoop env assign callFuel fuel node) (fun result s' => Clean s s' (∀ p k h,
      Parsed env vars 1 p k h node s → Parsed env vars 1 p k h result s')) s := by
  induction fuel generalizing node s with
  | zero => exact wp_throw trivial
  | succ fuel ih =>
    refine (clean_nextToken vars s).bind fun t s₁ ⟨ht, h₁⟩ => ?_
    have hpost : ∀ type, isPost t = true → sysNode type node .null = postNode t node →
        Wp Any (do postfixLoop env assign callFuel fuel (← makeSysNode type node .null))
          (fun result s' => Clean s s' (∀ p k h, Parsed env vars 1 p k h node s →
            Parsed env vars 1 p k h result s')) s₁ := by
      intro type htype hnode
      refine (clean_makeSysNode type node .null s₁).bind fun node₁ s₂ h₂ =>
        (ih node₁ s₂).mono fun result s₃ h₃ => (h₁.trans h₂ And.intro).trans h₃ ?_
      rintro ⟨hread, rfl, hnew⟩ hrest p k h hparsed
      exact hrest p k h (hnode ▸ hparsed.post htype hread ht hnew)
    cases t with
    | inc => exact hpost .inc rfl rfl
    | dec => exact hpost .dec rfl rfl
    | leftParen =>
      refine (clean_procCall hassign callFuel node s s₁ ht).bind fun node₁ s₂ h₂ =>
        (ih node₁ s₂).mono fun result s₃ h₃ => (h₁.trans h₂ And.intro).trans h₃ ?_
      rintro ⟨hread, hcall⟩ hrest p k h hparsed
      exact hrest p k h (hcall hread p k h hparsed)
    | _ =>
      refine wp_bind (wp_modify (wp_pure ?_))
      exact fun herr => (h₁ herr).imp_right fun hread p k h hparsed => hparsed.back hread

theorem SoundBare.procPostfixExpr {assign : EStateM Stop (Parser H) Node}
    (hassign : Sound env vars 10 assign) (fuel : Nat) :
    SoundBare env vars 1 (procPostfixExpr env assign fuel) := by
  intro s
  refine (soundBare_procPrimaryExpr hassign s).bind fun node s₁ h₁ =>
    (clean_postfixLoop hassign fuel fuel node s₁).mono fun result s₂ h₂ => h₁.trans h₂ ?_
  exact fun hnode hrest p k h hs hparen =>
    hrest p k h ((hnode p k h hs hparen).mono (Nat.zero_le 1))

/-! ## Unary expressions, casts and assignments -/

theorem Parsed.pre {t : TokenType} {node : Node} {s₁ s₂ s₃ : Parser H} (hpre : isPre t = true)
    (hs : JustRead env vars p k h s₁) (ht : s₁.token.type = t)
    (hnode : ∀ p k h, Standing env vars p k h s₁ → Parsed env vars 3 p k h node s₂)
    (hmade : ∀ q k h, Standing env vars q k h s₂ →
      Standing env vars q (k + (if t = .add then 0 else if t = .sub then 2 else 1)) h s₃) :
    Parsed env vars 2 p k h (preNode t node) s₃ := by
  obtain ⟨e, q, ⟨hformed, hhandled, hrank⟩, hspells, rfl, hstanding⟩ := hnode _ _ _ hs.standing
  refine ⟨.pre t e, q, ⟨⟨hpre, hformed, hrank⟩, hhandled, Nat.le_refl _⟩, ⟨ht ▸ hs.typeAt, hspells⟩,
    rfl, ?_⟩
  rw [Expr.size, ← Nat.add_assoc]
  exact hmade _ _ _ hstanding

theorem SoundBare.procUnaryExpr {assign cast : EStateM Stop (Parser H) Node}
    (hassign : Sound env vars 10 assign) (hcast : Sound env vars 3 cast) (fuel : Nat) :
    SoundBare env vars 2 (procUnaryExpr env assign cast fuel) := by
  intro s
  refine (clean_nextToken vars s).bind fun t s₁ ⟨ht, h₁⟩ => ?_
  have hone : ∀ type, isPre t = true → t ≠ .add → t ≠ .sub →
      (∀ node, preNode t node = sysNode type node .null) →
      Wp Any (do makeSysNode type (← cast) .null) (fun node s' => Clean s s' (∀ p k h,
        Standing env vars p k h s → ¬ TypeAt env p .leftParen →
          Parsed env vars 2 p k h node s')) s₁ := by
    intro type hpre hadd hsub hnode
    refine (hcast s₁).bind fun node s₂ h₂ =>
      (clean_makeSysNode type node .null s₂).mono fun result s₃ h₃ =>
        (h₁.trans h₂ And.intro).trans h₃ ?_
    rintro ⟨hread, hparsed⟩ ⟨rfl, hnew⟩ p k h hs _
    rw [← hnode]
    refine Parsed.pre hpre (hread p k h hs) ht hparsed fun q k h hstanding => ?_
    rw [if_neg hadd, if_neg hsub]
    exact hstanding.alloc hnew
  have hpostfix : Wp Any (do
        finshTokenReplay
        FinshParser.procPostfixExpr env assign fuel) (fun node s' => Clean s s' (∀ p k h,
      Standing env vars p k h s → ¬ TypeAt env p .leftParen →
        Parsed env vars 2 p k h node s')) s₁ := by
    refine wp_bind (wp_modify ((SoundBare.procPostfixExpr hassign fuel _).mono
      fun node s₂ h₂ => h₁.trans h₂ ?_))
    exact fun hread hparsed p k h hs hparen =>
      (hparsed p k h (hread p k h hs).back hparen).mono (by decide)
  cases t with
  | add =>
    refine (hcast s₁).mono fun node s₂ h₂ => h₁.trans h₂ ?_
    intro hread hparsed p k h hs _
    exact Parsed.pre rfl (hread p k h hs) ht hparsed fun _ _ _ hstanding => hstanding
  | sub =>
    refine (hcast s₁).bind fun node s₂ h₂ => ?_
    refine (clean_finshNodeNew .valueLong 0 none s₂).bind fun zero s₃ h₃ =>
      (clean_makeSysNode .sub zero node s₃).mono fun result s₄ h₄ =>
        (h₁.trans h₂ And.intro).trans (h₃.trans h₄ And.intro) ?_
    rintro ⟨hread, hparsed⟩ ⟨⟨rfl, hzero⟩, rfl, hnew⟩ p k h hs _
    exact Parsed.pre rfl (hread p k h hs) ht hparsed fun _ _ _ hstanding =>
      (hstanding.alloc hzero).alloc hnew
  | inc => exact hone .preinc rfl (by decide) (by decide) fun _ => rfl
  | dec => exact hone .predec rfl (by decide) (by decide) fun _ => rfl
  | bitwise => exact hone .bitwise rfl (by decide) (by decide) fun _ => rfl
  | mul => exact hone .getvalue rfl (by decide) (by decide) fun _ => rfl
  | and => exact hone .getaddr rfl (by decide) (by decide) fun _ => rfl
  | _ => exact hpostfix

theorem Parsed.cast {type : FinshType} {node : Node} {s₁ s₂ s₃ : Parser H}
    (hs : JustRead env vars p k h s) (ht : s.token.type = .leftParen)
    (htype : ∀ p k h, Standing env vars p k h s → ∃ castType : CastType, ∃ q,
      (baseType castType.base).isSome = true ∧ castType.finshType = some type ∧
        TypesAt env p castType.tokens q ∧ Standing env vars q k h s₁)
    (hclose : ∀ p k h, Standing env vars p k h s₁ →
      TypeAt env p .rightParen ∧ JustRead env vars p k h s₂)
    (hnode : ∀ p k h, Standing env vars p k h s₂ → Parsed env vars 3 p k h node s₃) :
    Parsed env vars 3 p k h (node.setDataType type) s₃ := by
  obtain ⟨castType, m, hbase, hfinshType, htypes, hstanding⟩ := htype _ _ _ hs.standing
  obtain ⟨hparen, hjust⟩ := hclose _ _ _ hstanding
  obtain ⟨e, q, ⟨hformed, hhandled, hrank⟩, hspells, rfl, hstanding'⟩ :=
    hnode _ _ _ hjust.standing
  refine ⟨.cast castType e, q, ⟨⟨hbase, hformed, hrank⟩, ⟨by rw [hfinshType]; rfl, hhandled⟩,
    Nat.le_refl _⟩, ⟨m, ht ▸ hs.typeAt, htypes, hparen, hspells⟩, ?_, hstanding'⟩
  rw [build, hfinshType]
  rfl

/-- The target and the `=` have been read, then the value, and a node made. -/
theorem Parsed.assign {target node : Node} {s₁ s₂ s₃ : Parser H}
    (htarget : Parsed env vars 9 p k h target s)
    (hread : ∀ p k h, Standing env vars p k h s → JustRead env vars p k h s₁)
    (ht : s₁.token.type = .assign)
    (hnode : ∀ p k h, Standing env vars p k h s₁ → Parsed env vars 10 p k h node s₂)
    (hnew : Allocated s₂ s₃) :
    Parsed env vars 10 p k h (sysNode .assign target node) s₃ := by
  obtain ⟨e, q, ⟨hformed, hhandled, hrank⟩, hspells, rfl, hstanding⟩ := htarget
  have hjust := hread _ _ _ hstanding
  obtain ⟨e', q', ⟨hformed', hhandled', hrank'⟩, hspells', rfl, hstanding'⟩ :=
    hnode _ _ _ hjust.standing
  refine ⟨.assign e e', q', ⟨⟨⟨hformed, hrank⟩, hformed', hrank'⟩, ⟨hhandled, hhandled'⟩,
    Nat.le_refl _⟩, ⟨q, hspells, ht ▸ hjust.typeAt, hspells'⟩, rfl, ?_⟩
  rw [Expr.size, ← Nat.add_assoc, ← Nat.add_assoc]
  exact hstanding'.alloc hnew

theorem sound_proc (env : Env H) (vars : List Var) (fuel : Nat) :
    Sound env vars 3 (procCastExpr env fuel) ∧ Sound env vars 10 (procAssignExpr env fuel) := by
  induction fuel with
  | zero => exact ⟨fun _ => wp_throw trivial, fun _ => wp_throw trivial⟩
  | succ fuel ih =>
    obtain ⟨hcast, hassign⟩ := ih
    have hunary := SoundBare.procUnaryExpr hassign hcast fuel
    constructor
    · intro s
      unfold procCastExpr
      refine (clean_nextToken vars s).bind fun t s₁ ⟨ht, h₁⟩ =>
        wp_ite (fun hparen => ?_) fun hparen => wp_bind (wp_modify ?_)
      · refine (clean_procType vars s₁).bind fun type s₂ h₂ => ?_
        refine (clean_matchToken vars .rightParen s₂).bind fun _ s₃ h₃ => ?_
        refine (hcast s₃).bind fun node s₄ h₄ => wp_ite (fun hnull => ?_) fun _ => wp_pure ?_
        · -- a cast is no null node where there is no error
          have hclean : Clean s { s₄ with replay := true }
              (∀ p k h, ¬ Standing env vars p k h s) := by
            refine (h₁.trans h₂ And.intro).trans (h₃.trans h₄ And.intro) ?_
            rintro ⟨hread, htype⟩ ⟨hclose, hnode⟩ p k h hs
            have hparsed := Parsed.cast (hread p k h hs) (hparen ▸ ht) htype hclose hnode
            have hnode := hparsed.isNull (by decide)
            rw [isNull_setDataType, hnull] at hnode
            cases hnode
          refine wp_bind (wp_modify ((hunary _).mono fun result s₅ h₅ => hclean.trans h₅ ?_))
          exact fun hno _ p k h hs => absurd hs (hno p k h)
        · refine (h₁.trans h₂ And.intro).trans (h₃.trans h₄ And.intro) ?_
          rintro ⟨hread, htype⟩ ⟨hclose, hnode⟩ p k h hs
          exact Parsed.cast (hread p k h hs) (hparen ▸ ht) htype hclose hnode
      · refine (hunary _).mono fun node s₂ h₂ => h₁.trans h₂ ?_
        intro hread hnode p k h hs
        have hjust := hread p k h hs
        refine (hnode p k h hjust.back fun htype => hparen ?_).mono (by decide)
        exact ht ▸ hjust.typeAt.unique htype
    · intro s
      unfold procAssignExpr
      refine (hcast.procInclusiveOrExpr fuel s).bind fun target s₁ h₁ => ?_
      refine (clean_nextToken vars s₁).bind fun t s₂ ⟨ht, h₂⟩ =>
        wp_ite (fun hassignToken => ?_) fun _ => wp_bind (wp_modify (wp_pure ?_))
      · refine (hassign s₂).bind fun node s₃ h₃ =>
          (clean_makeSysNode .assign target node s₃).mono fun result s₄ h₄ =>
            (h₁.trans h₂ And.intro).trans (h₃.trans h₄ And.intro) ?_
        rintro ⟨htarget, hread⟩ ⟨hnode, rfl, hnew⟩ p k h hs
        exact (htarget p k h hs).assign hread (hassignToken ▸ ht) hnode hnew
      · refine h₁.trans h₂ ?_
        exact fun htarget hread p k h hs => ((htarget p k h hs).back hread).mono (by decide)

end

end ControlRTT.Components.FinshSound
