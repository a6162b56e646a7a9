import ControlRTT.Components.FinshParser

/-! # Lines that the FinSH parser comes to the end of

A token that is not read again costs something of the line (`Spends`), and every round of a loop
and every call that comes back to an expression has cost a token before. So fuel for twice the
tokens that are left is enough (`Within`), as long as the line does not start again. -/
namespace ControlRTT.Components.FinshTermination
open FinshToken FinshParser Lib.Programs

section
variable {H : Type} {env : Env H} {N : Nat} {broken : Nat → Prop}

/-- The tokens that can still be read before the end. -/
def tokensLeft (N : Nat) (self : Parser H) : Nat :=
  N - self.index + if self.replay = true ∧ self.token.type ≠ .eof then 1 else 0

/-- Tokens end at `N`, unless the line is broken off and read again. -/
structure Ends (env : Env H) (N : Nat) (broken : Nat → Prop) : Prop where
  eof : ∀ {i t}, env.tokens i = some t → N ≤ i → ¬ broken i → t.type = .eof
  broken : ∀ {i t}, env.tokens i = some t → broken i → broken (i + 1)

/-- So many tokens at least have been spent, if the line has not been broken off. -/
structure Spends (env : Env H) (N : Nat) (broken : Nat → Prop) (d : Nat) (s s' : Parser H) :
    Prop where
  nodes : s.nodes ≤ s'.nodes
  token : s'.token = s.token ∨ ∃ i, env.tokens i = some s'.token
  kept : broken s.index → broken s'.index
  left : broken s'.index ∨ tokensLeft N s' + d ≤ tokensLeft N s

/-- There are fewer tokens left than `n`, or the line has been broken off. -/
def Within (N : Nat) (broken : Nat → Prop) (n : Nat) (s : Parser H) : Prop :=
  broken s.index ∨ tokensLeft N s < n

/-- What a call may stop with: no null node is ever linked to another, and the fuel is used up only
on a line that has been broken off. -/
structure Allowed (env : Env H) (broken : Nat → Prop) (e : Stop) (s : Parser H) : Prop where
  node : e ≠ .nullNode
  fuel : e = .outOfFuel → broken s.index
  buffer : e = .overrun → ∃ i, env.tokens i = none

/-- Nothing has been read. -/
structure Rests (s s' : Parser H) : Prop where
  index : s'.index = s.index
  token : s'.token = s.token
  replay : s'.replay = s.replay
  nodes : s.nodes ≤ s'.nodes

/-- A token that is no end is to be read again. -/
def ahead (self : Parser H) : Nat :=
  if self.replay = true ∧ self.token.type ≠ .eof then 1 else 0

theorem ahead_le (self : Parser H) : ahead self ≤ 1 := by
  unfold ahead
  split <;> decide

theorem Rests.refl (s : Parser H) : Rests s s := ⟨rfl, rfl, rfl, Nat.le_refl _⟩

theorem Rests.trans {s s₁ s₂ : Parser H} (h₁ : Rests s s₁) (h₂ : Rests s₁ s₂) : Rests s s₂ :=
  ⟨h₂.index.trans h₁.index, h₂.token.trans h₁.token, h₂.replay.trans h₁.replay,
    h₁.nodes.trans h₂.nodes⟩

theorem Rests.left {s s' : Parser H} (h : Rests s s') : tokensLeft N s' = tokensLeft N s := by
  unfold tokensLeft
  rw [h.index, h.token, h.replay]

variable {d n : Nat} {s₀ s s' : Parser H}

theorem Spends.mono {d' : Nat} (h : Spends env N broken d s₀ s) (hle : d' ≤ d) :
    Spends env N broken d' s₀ s :=
  ⟨h.nodes, h.token, h.kept, h.left.imp_right fun hl => by omega⟩

theorem Spends.rests (h : Spends env N broken d s₀ s) (hr : Rests s s') :
    Spends env N broken d s₀ s' := by
  refine ⟨h.nodes.trans hr.nodes, ?_, ?_, ?_⟩
  · rw [hr.token]
    exact h.token
  · rw [hr.index]
    exact h.kept
  · rw [hr.index, hr.left]
    exact h.left

theorem Within.after {m : Nat} (hw : Within N broken n s₀) (h : Spends env N broken d s₀ s)
    (hle : n ≤ m + d) : Within N broken m s := by
  rcases hw with hb | hl
  · exact .inl (h.kept hb)
  · exact h.left.imp_right fun h' => by omega

theorem Spends.trans {d' : Nat} {s₁ s₂ : Parser H} (h₁ : Spends env N broken d s s₁)
    (h₂ : Spends env N broken d' s₁ s₂) : Spends env N broken (d + d') s s₂ := by
  refine ⟨h₁.nodes.trans h₂.nodes, ?_, fun hb => h₂.kept (h₁.kept hb), ?_⟩
  · rcases h₂.token with heq | hex
    · rw [heq]
      exact h₁.token
    · exact .inr hex
  · rcases h₁.left with hb | hl
    · exact .inl (h₂.kept hb)
    · exact h₂.left.imp_right fun hl' => by omega

/-- What reading a token costs. -/
def cost (t : TokenType) : Nat := if t = .eof then 0 else 1

theorem cost_of_ne {t : TokenType} (h : t ≠ .eof) : cost t = 1 := if_neg h

/-- `finsh_token_token`: a token that is no end has been spent. -/
theorem wp_nextToken (henv : Ends env N broken) :
    Wp (Allowed env broken) (nextToken env) (fun t s' =>
      Spends env N broken (cost t) s s' ∧ s'.replay = false ∧ s'.token.type = t ∧
        (s.replay = true → t = s.token.type)) s := by
  refine wp_bind (wp_get (wp_ite (fun hreplay => ?_) fun hreplay => ?_))
  · refine wp_bind (wp_set (wp_pure
      ⟨⟨Nat.le_refl _, .inl rfl, id, .inr ?_⟩, rfl, rfl, fun _ => rfl⟩))
    by_cases heof : s.token.type = .eof <;> simp [tokensLeft, cost, heof, hreplay]
  · cases htoken : env.tokens s.index with
    | none => exact wp_throw ⟨by decide, fun he => (by cases he), fun _ => ⟨_, htoken⟩⟩
    | some t =>
      refine wp_bind (wp_set (wp_pure ⟨⟨Nat.le_refl _, .inr ⟨_, htoken⟩, henv.broken htoken, ?_⟩,
        Bool.eq_false_of_not_eq_true hreplay, rfl, fun hr => absurd hr hreplay⟩))
      by_cases hb : broken s.index
      · exact .inl (henv.broken htoken hb)
      · refine .inr ?_
        have hbefore : t.type ≠ .eof → s.index < N := by
          intro heof
          by_contra hge
          exact heof (henv.eof htoken (by omega) hb)
        by_cases heof : t.type = .eof
        · simp [tokensLeft, cost, heof, hreplay]
          omega
        · have := hbefore heof
          simp [tokensLeft, cost, heof, hreplay]
          omega

/-- A token that is to be read again has not been spent. -/
theorem Spends.back {t : TokenType} (h : Spends env N broken (d + cost t) s₀ s)
    (ht : s.token.type = t) : Spends env N broken d s₀ { s with replay := true } := by
  subst ht
  refine ⟨h.nodes, h.token, h.kept, h.left.imp_right fun hl => ?_⟩
  unfold tokensLeft cost at hl
  unfold tokensLeft
  dsimp only
  by_cases heof : s.token.type = .eof
  · rw [if_neg (fun hr => hr.2 heof)] at hl ⊢
    rw [if_pos heof] at hl
    exact hl
  · rw [if_neg heof] at hl
    rw [if_pos ⟨rfl, heof⟩]
    omega

/-- What has been spent where the token is to be read again has been spent before. -/
theorem Spends.unback (h : Spends env N broken d s₀ { s with replay := true }) :
    Spends env N broken d s₀ s := by
  refine ⟨h.nodes, h.token, h.kept, h.left.imp_right fun hl => ?_⟩
  have hle : tokensLeft N s ≤ tokensLeft N { s with replay := true } := by
    unfold tokensLeft
    by_cases heof : s.token.type = .eof
    · simp [heof]
    · simp only [heof, ne_eq, not_false_eq_true, and_true, if_true]
      split <;> omega
  omega

theorem Spends.again (h : Spends env N broken d s₀ s) (hr : s.replay = true) :
    Spends env N broken d s₀ { s with replay := true } := by
  have hsame : { s with replay := true } = s := by rw [← hr]
  rw [hsame]
  exact h

/-- A token that is looked at and not taken: what has been ahead still is. -/
theorem ahead_back {t : TokenType} (ht : s'.token.type = t)
    (hsame : s.replay = true → t = s.token.type) : ahead s ≤ ahead { s' with replay := true } := by
  unfold ahead
  dsimp only
  by_cases h : s.replay = true ∧ s.token.type ≠ .eof
  · rw [if_pos h, if_pos ⟨rfl, by rw [ht, hsame h.1]; exact h.2⟩]
  · rw [if_neg h]
    exact Nat.zero_le _

/-! ## Programs that read nothing -/

section
variable {E : Stop → Parser H → Prop}

theorem wp_errorSet (e : FinshError) : Wp E (finshErrorSet e) (fun _ s' => Rests s s') s :=
  wp_modify ⟨rfl, rfl, rfl, Nat.le_refl _⟩

theorem wp_allocate (type : NodeType) (value : BitVec 32) (id : Option Symbol) :
    Wp E (finshNodeAllocate type value id)
      (fun r s' => Rests s s' ∧ (r.isNull = false ↔ s.nodes < finshNodeMax)) s := by
  refine wp_bind (wp_get (wp_ite (fun h => ?_) fun h => ?_))
  · exact wp_bind (wp_set (wp_pure
      ⟨⟨rfl, rfl, rfl, Nat.le_succ _⟩, ⟨fun _ => h, fun _ => rfl⟩⟩))
  · exact wp_pure ⟨Rests.refl s, ⟨fun hr => (by cases hr), fun hr => absurd hr h⟩⟩

theorem wp_nodeNew (type : NodeType) (value : BitVec 32) (id : Option Symbol) :
    Wp E (finshNodeNew type value id)
      (fun r s' => Rests s s' ∧ (r.isNull = false ↔ s.nodes < finshNodeMax)) s := by
  refine (wp_allocate type value id).bind fun r s₁ ⟨h₁, hnull⟩ => wp_ite (fun _ => ?_) fun _ => ?_
  · exact (wp_errorSet _).bind fun _ _ h₂ => wp_pure ⟨h₁.trans h₂, hnull⟩
  · exact wp_pure ⟨h₁, hnull⟩

theorem isNull_setChild (node child : Node) : (node.setChild child).isNull = node.isNull := by
  cases node <;> rfl

theorem wp_makeSysNode (type : NodeType) (node1 node2 : Node) :
    Wp E (makeSysNode type node1 node2)
      (fun r s' => Rests s s' ∧ (r.isNull = false ↔ s.nodes < finshNodeMax)) s := by
  refine (wp_allocate type 0 none).bind fun r s₁ ⟨h₁, hnull⟩ => wp_ite (fun _ => ?_) fun _ => ?_
  · exact wp_pure ⟨h₁, by rw [isNull_setChild]; exact hnull⟩
  · exact (wp_errorSet _).bind fun _ _ h₂ => wp_pure ⟨h₁.trans h₂, hnull⟩

theorem wp_newId (id : List Char) :
    Wp E (finshNodeNewId env id)
      (fun r s' => Rests s s' ∧ (r.isNull = false → s.nodes < finshNodeMax)) s := by
  refine wp_bind (wp_get ?_)
  have hnew : ∀ sym, Wp E (finshNodeNew .id 0 (some sym))
      (fun r s' => Rests s s' ∧ (r.isNull = false → s.nodes < finshNodeMax)) s :=
    fun sym => (wp_nodeNew _ _ _).mono fun _ _ h => ⟨h.1, h.2.mp⟩
  split
  · exact hnew _
  · split
    · exact hnew _
    · split
      · exact hnew _
      · exact (wp_errorSet _).bind fun _ _ h => wp_pure ⟨h, fun hr => by cases hr⟩

theorem wp_newString (str : List Char) :
    Wp E (finshNodeNewString env str)
      (fun r s' => Rests s s' ∧ (r.isNull = false → s.nodes < finshNodeMax)) s := by
  refine (wp_nodeNew _ _ _).bind fun r s₁ ⟨h₁, hnull⟩ => wp_ite (fun _ => ?_) fun hr => ?_
  · exact wp_pure ⟨h₁, hnull.mp⟩
  · refine wp_bind (wp_get (wp_bind (wp_set (wp_pure ⟨?_, fun _ =>
      hnull.mp (Bool.eq_false_of_not_eq_true hr)⟩))))
    exact ⟨h₁.index, h₁.token, h₁.replay, h₁.nodes⟩

theorem wp_varInsert (name : List Char) (type : FinshType) :
    Wp E (finshVarInsert name type) (fun _ s' => Rests s s') s := by
  refine wp_bind (wp_get ?_)
  split
  · exact wp_set ⟨rfl, rfl, rfl, Nat.le_refl _⟩
  · exact wp_errorSet _

end

/-! ## Types and names -/

theorem ahead_le_cost {t : TokenType} (hsame : s.replay = true → t = s.token.type) :
    ahead s ≤ cost t := by
  unfold ahead
  split
  · rename_i h
    rw [cost_of_ne (by rw [hsame h.1]; exact h.2)]
  · exact Nat.zero_le _

theorem cost_of_isDecl {t : TokenType} (h : isDecl t = true) : cost t = 1 := by
  refine cost_of_ne fun heof => ?_
  rw [heof] at h
  exact absurd h (by decide)

/-- `match_token`: a token that is another one is not taken. -/
theorem wp_matchToken (henv : Ends env N broken) (type : TokenType) :
    Wp (Allowed env broken) (matchToken env type) (fun _ s' => Spends env N broken 0 s s' ∧
      (s.replay = true → s.token.type = type → Spends env N broken (cost type) s s')) s := by
  refine (wp_nextToken henv).bind fun t s₁ ⟨h₁, _, ht, hsame⟩ =>
    wp_ite (fun hne => ?_) fun heq => ?_
  · refine (wp_errorSet _).bind fun _ s₂ h₂ => wp_modify ⟨?_, fun hr htype =>
      absurd ((hsame hr).trans htype) hne⟩
    have h := h₁.rests h₂
    rw [← Nat.zero_add (cost t)] at h
    exact h.back (h₂.token ▸ ht)
  · obtain rfl : t = type := Decidable.not_not.mp heq
    exact wp_pure ⟨h₁.mono (Nat.zero_le _), fun _ _ => h₁⟩

theorem wp_procIdentifier (henv : Ends env N broken) :
    Wp (Allowed env broken) (procIdentifier env) (fun _ s' => Spends env N broken 0 s s' ∧
      (s.replay = true → s.token.type = .identifier → Spends env N broken 1 s s')) s :=
  (wp_matchToken henv _).bind fun _ _ h => wp_bind (wp_get (wp_pure h))

theorem wp_procPointer (henv : Ends env N broken) (type : FinshType) :
    Wp (Allowed env broken) (procPointer env type) (fun _ s' => Spends env N broken 0 s s') s := by
  refine (wp_nextToken henv).bind fun t s₁ ⟨h₁, _, ht, _⟩ => wp_ite (fun _ => ?_) fun _ => ?_
  · exact wp_pure (h₁.mono (Nat.zero_le _))
  · rw [← Nat.zero_add (cost t)] at h₁
    exact wp_bind (wp_modify (wp_pure (h₁.back ht)))

theorem wp_unknownType {E : Stop → Parser H → Prop} {t : TokenType}
    (h : Spends env N broken (d + cost t) s₀ s) (ht : s.token.type = t) :
    Wp E unknownType (fun _ s' => Spends env N broken d s₀ s') s :=
  wp_bind (wp_modify ((wp_errorSet _).bind fun _ _ h₂ => wp_pure ((h.back ht).rests h₂)))

/-- `proc_type`: the name of a type is taken. -/
theorem wp_procType (henv : Ends env N broken) :
    Wp (Allowed env broken) (procType env) (fun _ s' => Spends env N broken
      (if s.replay = true ∧ isDecl s.token.type = true then 1 else 0) s s') s := by
  refine (wp_nextToken henv).bind fun t s₁ ⟨h₁, _, ht, hsame⟩ => ?_
  have hle : (if s.replay = true ∧ isDecl s.token.type = true then 1 else 0) ≤ cost t := by
    split
    · rename_i h
      rw [cost_of_isDecl (by rw [hsame h.1]; exact h.2)]
    · exact Nat.zero_le _
  split
  · exact (wp_procPointer henv _).mono fun _ _ h₂ => (h₁.trans h₂).mono hle
  · rename_i hbase
    refine wp_ite (fun hunsigned => ?_) fun hunsigned => ?_
    · refine (wp_nextToken henv).bind fun t₂ s₂ ⟨h₂, _, ht₂, _⟩ => ?_
      have h₁₂ := h₁.trans h₂
      split
      · exact (wp_procPointer henv _).mono fun _ _ h₃ => (h₁₂.trans h₃).mono (by omega)
      · refine wp_ite (fun _ => ?_) fun _ => ?_
        · exact (wp_unknownType h₁₂ ht₂).mono fun _ _ h₃ => h₃.mono hle
        · refine wp_bind (wp_modify ((wp_errorSet _).bind fun _ _ h₃ => ?_))
          exact (wp_procPointer henv _).mono fun _ _ h₄ =>
            (((h₁₂.back ht₂).rests h₃).trans h₄).mono hle
    · have hnone : (if s.replay = true ∧ isDecl s.token.type = true then 1 else 0) = 0 := by
        refine if_neg fun h => ?_
        rw [← hsame h.1] at h
        unfold isDecl at h
        rw [hbase] at h
        simp [hunsigned] at h
      rw [hnone]
      rw [← Nat.zero_add (cost t)] at h₁
      exact wp_unknownType h₁ ht

/-! ## Expressions -/

/-- What an expression has done: it has taken a token, if one was ahead, and the one behind it is
to be read again. -/
structure Parsed (env : Env H) (N : Nat) (broken : Nat → Prop) (s : Parser H) (node : Node)
    (s' : Parser H) : Prop where
  spends : Spends env N broken (ahead s) s s'
  replay : s'.replay = true
  room : node.isNull = false → s.nodes < finshNodeMax

/-- A program for an expression has fuel for fewer tokens than `n`. -/
def Operand (env : Env H) (N : Nat) (broken : Nat → Prop) (n : Nat)
    (m : EStateM Stop (Parser H) Node) : Prop :=
  ∀ s, Within N broken n s → Wp (Allowed env broken) m (Parsed env N broken s) s

theorem wp_outOfFuel {α : Type} {Q : α → Parser H → Prop} (h : Within N broken 0 s) :
    Wp (Allowed env broken) (throw .outOfFuel : EStateM Stop (Parser H) α) Q s :=
  wp_throw ⟨by decide, fun _ => h.resolve_right (Nat.not_lt_zero _), fun he => by cases he⟩

/-- Of a loop: the node is null only if the one it starts with is, or if the table is full. -/
structure Looped (env : Env H) (N : Nat) (broken : Nat → Prop) (s : Parser H) (node : Node)
    (result : Node) (s' : Parser H) : Prop where
  spends : Spends env N broken 0 s s'
  replay : s'.replay = true
  room : result.isNull = false → node.isNull = false ∨ s.nodes < finshNodeMax

/-- The round that does not take its token. -/
theorem Looped.stop {t : TokenType} {s₁ : Parser H} {node : Node}
    (h : Spends env N broken (cost t) s s₁) (ht : s₁.token.type = t) :
    Looped env N broken s node node { s₁ with replay := true } := by
  rw [← Nat.zero_add (cost t)] at h
  exact ⟨h.back ht, rfl, .inl⟩

theorem Looped.after {s₁ s₂ : Parser H} {node node₁ result : Node}
    (h : Looped env N broken s₁ node₁ result s₂) (h₁ : Spends env N broken d s s₁)
    (hroom : node₁.isNull = false → node.isNull = false ∨ s.nodes < finshNodeMax) :
    Looped env N broken s node result s₂ :=
  ⟨(h₁.trans h.spends).mono (Nat.zero_le _), h.replay, fun hr =>
    (h.room hr).elim hroom fun hlt => .inr (h₁.nodes.trans_lt hlt)⟩

theorem Operand.wp_binaryLoop (henv : Ends env N broken) {ops : List (TokenType × NodeType)}
    {operand : EStateM Stop (Parser H) Node} (hop : Operand env N broken n operand)
    (hops : ops.lookup .eof = none) {fuel : Nat} (node : Node) (hw : Within N broken n s)
    (hfuel : Within N broken fuel s) :
    Wp (Allowed env broken) (binaryLoop env ops operand fuel node)
      (Looped env N broken s node) s := by
  induction fuel generalizing s node with
  | zero => exact wp_outOfFuel hfuel
  | succ fuel ih =>
    refine (wp_nextToken henv).bind fun t s₁ ⟨h₁, _, ht, _⟩ => ?_
    split
    · exact wp_bind (wp_modify (wp_pure (Looped.stop h₁ ht)))
    · rename_i op hlookup
      rw [cost_of_ne (fun heof => by rw [heof, hops] at hlookup; cases hlookup)] at h₁
      refine (hop s₁ (hw.after h₁ (by omega))).bind fun right s₂ h₂ =>
        wp_ite (fun _ => ?_) fun _ => ?_
      · refine (wp_errorSet _).bind fun _ s₃ h₃ => ?_
        have h₁₃ := (h₁.trans h₂.spends).rests h₃
        exact (ih node (hw.after h₁₃ (by omega)) (hfuel.after h₁₃ (by omega))).mono fun _ _ h₄ =>
          h₄.after h₁₃ .inl
      · refine (wp_makeSysNode _ _ _).bind fun left s₃ ⟨h₃, hleft⟩ => ?_
        have h₁₂ := h₁.trans h₂.spends
        have h₁₃ := h₁₂.rests h₃
        exact (ih left (hw.after h₁₃ (by omega)) (hfuel.after h₁₃ (by omega))).mono fun _ _ h₄ =>
          h₄.after h₁₃ fun hl => .inr (h₁₂.nodes.trans_lt (hleft.mp hl))

theorem Operand.binary (henv : Ends env N broken) {ops : List (TokenType × NodeType)}
    {operand : EStateM Stop (Parser H) Node} (hop : Operand env N broken n operand)
    (hops : ops.lookup .eof = none) {fuel : Nat} (hle : n ≤ fuel) :
    Operand env N broken n (binary env ops operand fuel) := by
  refine fun s hw => (hop s hw).bind fun node s₁ h₁ => ?_
  refine (hop.wp_binaryLoop henv hops node (hw.after h₁.spends (by omega))
    (hw.after h₁.spends (by omega))).mono fun r s₂ h₂ => ⟨h₁.spends.trans h₂.spends, h₂.replay, ?_⟩
  exact fun hr => (h₂.room hr).elim h₁.room fun hlt => h₁.spends.nodes.trans_lt hlt

/-- All the levels of the binary operators. -/
theorem Operand.procInclusiveOrExpr (henv : Ends env N broken) {fuel : Nat}
    {cast : EStateM Stop (Parser H) Node} (hcast : Operand env N broken n cast) (hle : n ≤ fuel) :
    Operand env N broken n (procInclusiveOrExpr env cast fuel) :=
  (((((hcast.binary henv rfl hle).binary henv rfl hle).binary henv rfl hle).binary henv rfl
    hle).binary henv rfl hle).binary henv rfl hle

theorem Operand.wp_paramLoop (henv : Ends env N broken) {assign : EStateM Stop (Parser H) Node}
    (hassign : Operand env N broken n assign) {fuel : Nat} (params : List Node)
    (hw : Within N broken n s) (hfuel : Within N broken fuel s) :
    Wp (Allowed env broken) (paramLoop env assign fuel params)
      (fun _ s' => Spends env N broken 0 s s') s := by
  induction fuel generalizing s params with
  | zero => exact wp_outOfFuel hfuel
  | succ fuel ih =>
    refine (wp_nextToken henv).bind fun t s₁ ⟨h₁, _, ht, _⟩ =>
      wp_ite (fun hcomma => ?_) fun _ => ?_
    · rw [cost_of_ne (by rw [hcomma]; decide)] at h₁
      refine (hassign s₁ (hw.after h₁ (by omega))).bind fun node s₂ h₂ =>
        wp_ite (fun _ => ?_) fun _ => ?_
      · refine (wp_errorSet _).bind fun _ s₃ h₃ => ?_
        have h₁₃ := (h₁.trans h₂.spends).rests h₃
        exact (ih _ (hw.after h₁₃ (by omega)) (hfuel.after h₁₃ (by omega))).mono fun _ _ h₄ =>
          (h₁₃.trans h₄).mono (Nat.zero_le _)
      · have h₁₂ := h₁.trans h₂.spends
        exact (ih _ (hw.after h₁₂ (by omega)) (hfuel.after h₁₂ (by omega))).mono fun _ _ h₃ =>
          (h₁₂.trans h₃).mono (Nat.zero_le _)
    · rw [← Nat.zero_add (cost t)] at h₁
      exact wp_bind (wp_modify (wp_pure (h₁.back ht)))

theorem Operand.wp_procParamList (henv : Ends env N broken)
    {assign : EStateM Stop (Parser H) Node} (hassign : Operand env N broken n assign) {fuel : Nat}
    (hle : n ≤ fuel) (hw : Within N broken n s) :
    Wp (Allowed env broken) (procParamList env assign fuel)
      (fun _ s' => Spends env N broken 0 s s') s := by
  refine (hassign s hw).bind fun node s₁ h₁ => wp_ite (fun _ => ?_) fun _ => ?_
  · exact wp_pure (h₁.spends.mono (Nat.zero_le _))
  · refine (hassign.wp_paramLoop henv [] (hw.after h₁.spends (by omega))
      (hw.after h₁.spends (by omega))).bind fun params s₂ h₂ => wp_pure ?_
    exact (h₁.spends.trans h₂).mono (Nat.zero_le _)

theorem Operand.wp_procCall (henv : Ends env N broken) {assign : EStateM Stop (Parser H) Node}
    (hassign : Operand env N broken n assign) {fuel : Nat} (hle : n ≤ fuel) (node : Node)
    (hw : Within N broken n s) :
    Wp (Allowed env broken) (procCall env assign fuel node)
      (fun r s' => Spends env N broken 0 s s' ∧ (r.isNull = false → s.nodes < finshNodeMax)) s := by
  refine (wp_nextToken henv).bind fun t s₁ ⟨h₁, _, ht, _⟩ => wp_ite (fun _ => ?_) fun _ => ?_
  · exact (wp_makeSysNode _ _ _).mono fun _ _ h₂ =>
      ⟨(h₁.rests h₂.1).mono (Nat.zero_le _), fun hr => h₁.nodes.trans_lt (h₂.2.mp hr)⟩
  · rw [← Nat.zero_add (cost t)] at h₁
    refine wp_bind (wp_modify ?_)
    have h₂ := h₁.back ht
    refine (hassign.wp_procParamList henv hle (hw.after h₂ (by omega))).bind fun params s₃ h₃ => ?_
    refine (wp_matchToken henv _).bind fun _ s₄ h₄ => ?_
    have h₂₄ := (h₂.trans h₃).trans h₄.1
    exact (wp_makeSysNode _ _ _).mono fun _ _ h₅ =>
      ⟨h₂₄.rests h₅.1, fun hr => h₂₄.nodes.trans_lt (h₅.2.mp hr)⟩

theorem Operand.wp_postfixLoop (henv : Ends env N broken)
    {assign : EStateM Stop (Parser H) Node} (hassign : Operand env N broken (n - 1) assign)
    {callFuel fuel : Nat} (hle : n ≤ callFuel) (node : Node) (hw : Within N broken n s)
    (hfuel : Within N broken fuel s) :
    Wp (Allowed env broken) (postfixLoop env assign callFuel fuel node)
      (Looped env N broken s node) s := by
  induction fuel generalizing s node with
  | zero => exact wp_outOfFuel hfuel
  | succ fuel ih =>
    refine (wp_nextToken henv).bind fun t s₁ ⟨h₁, _, ht, _⟩ => ?_
    -- A round that takes its token, whatever it makes of the node.
    have hround : ∀ {s₂ : Parser H} {node₂ : Node}, Spends env N broken 1 s s₂ →
        (node₂.isNull = false → s.nodes < finshNodeMax) →
        Wp (Allowed env broken) (postfixLoop env assign callFuel fuel node₂)
          (Looped env N broken s node) s₂ := by
      intro s₂ node₂ h₂ hroom
      exact (ih node₂ (hw.after h₂ (by omega)) (hfuel.after h₂ (by omega))).mono fun _ _ h₃ =>
        h₃.after h₂ fun hr => .inr (hroom hr)
    split
    · exact (wp_makeSysNode _ _ _).bind fun node₂ s₂ h₂ =>
        hround (h₁.rests h₂.1) fun hr => h₁.nodes.trans_lt (h₂.2.mp hr)
    · exact (wp_makeSysNode _ _ _).bind fun node₂ s₂ h₂ =>
        hround (h₁.rests h₂.1) fun hr => h₁.nodes.trans_lt (h₂.2.mp hr)
    · have hone : Spends env N broken 1 s s₁ := h₁
      exact (hassign.wp_procCall henv (by omega) node (hw.after hone (by omega))).bind
        fun node₂ s₂ h₂ => hround (hone.trans h₂.1) fun hr => h₁.nodes.trans_lt (h₂.2 hr)
    · exact wp_bind (wp_modify (wp_pure (Looped.stop h₁ ht)))

theorem Operand.wp_procPrimaryExpr (henv : Ends env N broken)
    {assign : EStateM Stop (Parser H) Node} (hassign : Operand env N broken (n - 1) assign)
    (hw : Within N broken n s) :
    Wp (Allowed env broken) (procPrimaryExpr env assign) (fun r s' =>
      Spends env N broken (ahead s) s s' ∧ (r.isNull = false → s.nodes < finshNodeMax)) s := by
  refine (wp_nextToken henv).bind fun t s₁ ⟨h₁, _, ht, hsame⟩ => ?_
  have hle := ahead_le_cost hsame
  -- A node that is made of the token.
  have hnew : ∀ {m : EStateM Stop (Parser H) Node}, Wp (Allowed env broken) m (fun r s' =>
      Rests s₁ s' ∧ (r.isNull = false → s₁.nodes < finshNodeMax)) s₁ →
      Wp (Allowed env broken) m (fun r s' => Spends env N broken (ahead s) s s' ∧
        (r.isNull = false → s.nodes < finshNodeMax)) s₁ := by
    intro m hm
    exact hm.mono fun r s₂ h₂ =>
      ⟨(h₁.rests h₂.1).mono hle, fun hr => h₁.nodes.trans_lt (h₂.2 hr)⟩
  split
  · rw [← Nat.zero_add (cost _)] at h₁
    refine wp_bind (wp_modify ((wp_procIdentifier henv).bind fun id s₂ h₂ => ?_))
    have h₁₂ := (h₁.back ht).trans (h₂.2 rfl ht)
    exact (wp_newId id).mono fun r s₃ h₃ => ⟨(h₁₂.rests h₃.1).mono (ahead_le s), fun hr =>
      h₁₂.nodes.trans_lt (h₃.2 hr)⟩
  · have hone : Spends env N broken 1 s s₁ := h₁
    refine (hassign s₁ (hw.after hone (by omega))).bind fun node s₂ h₂ => ?_
    refine (wp_matchToken henv _).bind fun _ s₃ h₃ => wp_pure ⟨?_, fun hr =>
      h₁.nodes.trans_lt (h₂.room hr)⟩
    exact ((hone.trans h₂.spends).trans h₃.1).mono (by have := ahead_le s; omega)
  · exact wp_bind (wp_get (hnew ((wp_nodeNew _ _ _).mono fun _ _ h => ⟨h.1, h.2.mp⟩)))
  · exact wp_bind (wp_get (hnew ((wp_nodeNew _ _ _).mono fun _ _ h => ⟨h.1, h.2.mp⟩)))
  · exact wp_bind (wp_get (hnew ((wp_nodeNew _ _ _).mono fun _ _ h => ⟨h.1, h.2.mp⟩)))
  · exact wp_bind (wp_get (hnew (wp_newString _)))
  · exact hnew ((wp_nodeNew _ _ _).mono fun _ _ h => ⟨h.1, h.2.mp⟩)
  · exact hnew ((wp_errorSet _).bind fun _ _ h => wp_pure ⟨h, fun hr => by cases hr⟩)

theorem Operand.procPostfixExpr (henv : Ends env N broken)
    {assign : EStateM Stop (Parser H) Node} (hassign : Operand env N broken (n - 1) assign)
    {fuel : Nat} (hle : n ≤ fuel) :
    Operand env N broken n (procPostfixExpr env assign fuel) := by
  refine fun s hw => (hassign.wp_procPrimaryExpr henv hw).bind fun node s₁ h₁ => ?_
  refine (hassign.wp_postfixLoop henv hle node (hw.after h₁.1 (by omega))
    (hw.after h₁.1 (by omega))).mono fun r s₂ h₂ => ⟨h₁.1.trans h₂.spends, h₂.replay, ?_⟩
  exact fun hr => (h₂.room hr).elim h₁.2 fun hlt => h₁.1.nodes.trans_lt hlt

/-- A token that is looked at first and left to an expression. -/
theorem Parsed.back {t : TokenType} {s₁ s₂ : Parser H} {node : Node}
    (h₂ : Parsed env N broken { s₁ with replay := true } node s₂)
    (h₁ : Spends env N broken (cost t) s s₁) (ht : s₁.token.type = t)
    (hsame : s.replay = true → t = s.token.type) : Parsed env N broken s node s₂ := by
  rw [← Nat.zero_add (cost t)] at h₁
  have hback := h₁.back ht
  have hle := ahead_back ht hsame
  exact ⟨(hback.trans h₂.spends).mono (by omega), h₂.replay, fun hr =>
    h₁.nodes.trans_lt (h₂.room hr)⟩

theorem Operand.procUnaryExpr (henv : Ends env N broken)
    {assign cast : EStateM Stop (Parser H) Node} (hassign : Operand env N broken (n - 1) assign)
    (hcast : Operand env N broken (n - 1) cast) {fuel : Nat} (hle : n ≤ fuel) :
    Operand env N broken n (procUnaryExpr env assign cast fuel) := by
  refine fun s hw => (wp_nextToken henv).bind fun t s₁ ⟨h₁, _, ht, hsame⟩ => ?_
  have hahead := ahead_le s
  -- An operator has been taken, and its operand and the node are made.
  have hnode : ∀ {type : NodeType} {node1 node2 : Node} {s₂ : Parser H},
      Spends env N broken 1 s s₂ → s₂.replay = true →
      Wp (Allowed env broken) (makeSysNode type node1 node2) (Parsed env N broken s) s₂ := by
    intro type node1 node2 s₂ h₂ hr₂
    exact (wp_makeSysNode type node1 node2).mono fun r s₃ h₃ =>
      ⟨(h₂.rests h₃.1).mono hahead, h₃.1.replay.trans hr₂, fun hr =>
        h₂.nodes.trans_lt (h₃.2.mp hr)⟩
  have hprefix : ∀ {type : NodeType}, Spends env N broken 1 s s₁ →
      Wp (Allowed env broken) (cast >>= fun node => makeSysNode type node .null)
        (Parsed env N broken s) s₁ := by
    intro type hone
    exact (hcast s₁ (hw.after hone (by omega))).bind fun node s₂ h₂ =>
      hnode ((hone.trans h₂.spends).mono (by omega)) h₂.replay
  split
  · have hone : Spends env N broken 1 s s₁ := h₁
    exact (hcast s₁ (hw.after hone (by omega))).mono fun node s₂ h₂ =>
      ⟨(hone.trans h₂.spends).mono (by omega), h₂.replay, fun hr => h₁.nodes.trans_lt (h₂.room hr)⟩
  · exact hprefix h₁
  · have hone : Spends env N broken 1 s s₁ := h₁
    refine (hcast s₁ (hw.after hone (by omega))).bind fun node s₂ h₂ => ?_
    refine (wp_nodeNew _ _ _).bind fun zero s₃ h₃ => ?_
    exact hnode (((hone.trans h₂.spends).rests h₃.1).mono (by omega))
      (h₃.1.replay.trans h₂.replay)
  · exact hprefix h₁
  · exact hprefix h₁
  · exact hprefix h₁
  · exact hprefix h₁
  · refine wp_bind (wp_modify ?_)
    have hback := h₁
    rw [← Nat.zero_add (cost t)] at hback
    exact (hassign.procPostfixExpr henv hle _ (hw.after (hback.back ht) (by omega))).mono
      fun _ _ h₂ => h₂.back h₁ ht hsame

theorem Operand.mono {m : Nat} {prog : EStateM Stop (Parser H) Node}
    (h : Operand env N broken m prog) (hle : n ≤ m) : Operand env N broken n prog :=
  fun s hw => h s (hw.imp_right fun hl => hl.trans_le hle)

/-- Two units of fuel for each token are enough. -/
theorem operand_proc (henv : Ends env N broken) (fuel : Nat) :
    Operand env N broken (fuel / 2) (procCastExpr env fuel) ∧
      Operand env N broken ((fuel - 1) / 2) (procAssignExpr env fuel) := by
  induction fuel with
  | zero => exact ⟨fun s hw => wp_outOfFuel hw, fun s hw => wp_outOfFuel hw⟩
  | succ fuel ih =>
    obtain ⟨hcast, hassign⟩ := ih
    constructor
    · have hunary : Operand env N broken ((fuel + 1) / 2)
          (procUnaryExpr env (procAssignExpr env fuel) (procCastExpr env fuel) fuel) :=
        (hassign.mono (by omega)).procUnaryExpr henv (hcast.mono (by omega)) (by omega)
      intro s hw
      unfold procCastExpr
      refine (wp_nextToken henv).bind fun t s₁ ⟨h₁, _, ht, hsame⟩ =>
        wp_ite (fun hparen => ?_) fun _ => ?_
      · rw [cost_of_ne (by rw [hparen]; decide)] at h₁
        refine (wp_procType henv).bind fun type s₂ h₂ => ?_
        refine (wp_matchToken henv _).bind fun _ s₃ h₃ => ?_
        have h₁₃ := ((h₁.trans h₂).trans h₃.1).mono (Nat.le_add_right 1 _)
        refine (hcast s₃ (hw.after h₁₃ (by omega))).bind fun node s₄ h₄ => ?_
        have h₁₄ := (h₁₃.trans h₄.spends).mono (Nat.le_add_right 1 _)
        have hahead := ahead_le s
        refine wp_ite (fun _ => wp_bind (wp_modify ?_)) fun hnode => wp_pure ?_
        · have hsame : { s₄ with replay := true } = s₄ := by
            rw [← h₄.replay]
          rw [hsame]
          exact (hunary s₄ (hw.after h₁₄ (by omega))).mono fun r s₅ h₅ =>
            ⟨(h₁₄.trans h₅.spends).mono (by omega), h₅.replay, fun hr =>
              h₁₄.nodes.trans_lt (h₅.room hr)⟩
        · exact ⟨h₁₄.mono hahead, h₄.replay, fun _ =>
            h₁₃.nodes.trans_lt (h₄.room (Bool.eq_false_of_not_eq_true hnode))⟩
      · refine wp_bind (wp_modify ?_)
        have hback := h₁
        rw [← Nat.zero_add (cost t)] at hback
        exact (hunary _ (hw.after (hback.back ht) (by omega))).mono
          fun _ _ h₂ => h₂.back h₁ ht hsame
    · intro s hw
      unfold procAssignExpr
      refine (hcast.procInclusiveOrExpr henv (by omega) s hw).bind fun node s₁ h₁ => ?_
      refine (wp_nextToken henv).bind fun t s₂ ⟨h₂, _, ht, _⟩ =>
        wp_ite (fun hassignToken => ?_) fun _ => ?_
      · rw [cost_of_ne (by rw [hassignToken]; decide)] at h₂
        have h₁₂ := h₁.spends.trans h₂
        refine (hassign s₂ (hw.after h₁₂ (by omega))).bind fun right s₃ h₃ => ?_
        have h₁₃ := h₁₂.trans h₃.spends
        exact (wp_makeSysNode _ _ _).mono fun r s₄ h₄ =>
          ⟨(h₁₃.rests h₄.1).mono (by omega), h₄.1.replay.trans h₃.replay, fun hr =>
            h₁₃.nodes.trans_lt (h₄.2.mp hr)⟩
      · exact wp_bind (wp_modify (wp_pure
          ⟨(h₁.spends.trans h₂).back ht, rfl, h₁.room⟩))

/-! ## Statements -/

theorem wp_procExprStatement (henv : Ends env N broken) {fuel : Nat}
    (hw : Within N broken ((fuel - 1) / 2) s) :
    Wp (Allowed env broken) (procExprStatement env fuel)
      (fun _ s' => Spends env N broken (ahead s) s s') s := by
  refine (wp_nextToken henv).bind fun t s₁ ⟨h₁, _, ht, hsame⟩ => wp_ite (fun _ => ?_) fun _ => ?_
  · exact wp_pure (h₁.mono (ahead_le_cost hsame))
  · rw [← Nat.zero_add (cost t)] at h₁
    have hback := h₁.back ht
    have hle := ahead_back ht hsame
    refine wp_bind (wp_modify ?_)
    refine ((operand_proc henv fuel).2 _ (hw.after hback (by omega))).bind fun node s₂ h₂ => ?_
    refine (wp_matchToken henv _).bind fun _ s₃ h₃ => wp_pure ?_
    exact ((hback.trans h₂.spends).trans h₃.1).mono (by omega)

/-- The last of the assignments of a declaration is null only where the table is full. -/
def Full (nodes : List Node) (s : Parser H) : Prop :=
  ∀ last, nodes.getLast? = some last → last.isNull = true → finshNodeMax ≤ s.nodes

theorem Full.mono {nodes : List Node} (h : Full nodes s) (hle : s.nodes ≤ s'.nodes) :
    Full nodes s' := fun last hlast hnull => (h last hlast hnull).trans hle

theorem wp_declAppend {E : Stop → Parser H → Prop} {nodes : List Node} {node : Node}
    (hlast : ∀ last, nodes.getLast? = some last → last.isNull = false)
    (hnode : node.isNull = true → finshNodeMax ≤ s.nodes) :
    Wp E (declAppend nodes node) (fun r s' => s' = s ∧ Full r s) s := by
  unfold declAppend
  split
  · refine wp_pure ⟨rfl, fun last hsome hnull => ?_⟩
    split at hsome
    · cases hsome
    · obtain rfl := Option.some.inj hsome
      exact hnode hnull
  · rename_i last hsome
    rw [if_neg (by rw [hlast last hsome]; exact Bool.false_ne_true)]
    refine wp_pure ⟨rfl, fun last' hlast' hnull => ?_⟩
    rw [List.getLast?_append, List.getLast?_singleton] at hlast'
    obtain rfl := Option.some.inj hlast'
    exact hnode hnull

theorem wp_declAssign (henv : Ends env N broken) {fuel : Nat} {id : List Char}
    {nodes : List Node} (hw : Within N broken ((fuel - 1) / 2) s) (hfull : Full nodes s) :
    Wp (Allowed env broken) (declAssign env fuel id nodes) (fun r s' =>
      Full r.1 s' ∧ ((r.2 = .assign ∧ Spends env N broken 0 s s' ∧ s'.replay = true) ∨
        (Spends env N broken (cost r.2) s s' ∧ s'.token.type = r.2))) s := by
  refine ((operand_proc henv fuel).2 s hw).bind fun assign s₁ h₁ =>
    wp_ite (fun _ => ?_) fun hassign => ?_
  · exact wp_pure ⟨hfull.mono h₁.spends.nodes,
      .inl ⟨rfl, h₁.spends.mono (Nat.zero_le _), h₁.replay⟩⟩
  · have hroom := h₁.room (Bool.eq_false_of_not_eq_true hassign)
    refine (wp_newId id).bind fun idnode s₂ h₂ => ?_
    refine (wp_makeSysNode _ _ _).bind fun node s₃ h₃ => ?_
    have h₁₃ := (h₁.spends.rests h₂.1).rests h₃.1
    refine (wp_declAppend (fun last hlast => ?_) fun hnull => ?_).bind ?_
    · by_contra hnull
      exact absurd (hfull last hlast (Bool.eq_true_of_not_eq_false hnull)) (by omega)
    · have hge : ¬ s₂.nodes < finshNodeMax := fun hlt =>
        absurd (h₃.2.mpr hlt) (by rw [hnull]; decide)
      have := h₃.1.nodes
      omega
    · rintro nodes' s₄ ⟨rfl, hfull'⟩
      refine (wp_nextToken henv).bind fun t s₅ ⟨h₅, _, ht, _⟩ =>
        wp_pure ⟨hfull'.mono h₅.nodes, .inr ⟨?_, ht⟩⟩
      exact (h₁₃.trans h₅).mono (Nat.le_add_left _ _)

/-- A loop looks at its token before it needs fuel for another round. -/
def Rounds (N : Nat) (broken : Nat → Prop) (more : Prop) [Decidable more] (fuel : Nat)
    (s : Parser H) : Prop :=
  broken s.index ∨ (if more then tokensLeft N s + 1 else 0) < fuel

theorem wp_noRounds {α : Type} {Q : α → Parser H → Prop} {more : Prop} [Decidable more]
    (h : Rounds N broken more 0 s) :
    Wp (Allowed env broken) (throw .outOfFuel : EStateM Stop (Parser H) α) Q s :=
  wp_outOfFuel (N := N) (.inl (h.resolve_right (Nat.not_lt_zero _)))

theorem Rounds.next {more more' : Prop} [Decidable more] [Decidable more'] {fuel : Nat}
    (h : Rounds N broken more (fuel + 1) s) (hmore : more)
    (hs : Spends env N broken (if more' then 1 else 0) s s') : Rounds N broken more' fuel s' := by
  rcases h with hb | hlt
  · exact .inl (hs.kept hb)
  · rw [if_pos hmore] at hlt
    refine hs.left.imp_right fun hl => ?_
    by_cases hmore' : more'
    · rw [if_pos hmore'] at hl ⊢
      omega
    · rw [if_neg hmore'] at hl ⊢
      omega

theorem more_le_cost {more : Prop} [Decidable more] {t : TokenType} (h : more → t ≠ .eof) :
    (if more then 1 else 0) ≤ cost t := by
  split
  · rename_i hmore
    rw [cost_of_ne (h hmore)]
  · exact Nat.zero_le _

theorem wp_declLoop (henv : Ends env N broken) {exprFuel fuel : Nat} {type : FinshType}
    {nodes : List Node} {token : TokenType} (hw : Within N broken ((exprFuel - 1) / 2) s)
    (hr : Rounds N broken (token = .comma) fuel s) (hfull : Full nodes s)
    (h : Spends env N broken d s₀ { s with replay := true }) :
    Wp (Allowed env broken) (declLoop env exprFuel type fuel (nodes, token))
      (fun _ s' => Spends env N broken d s₀ { s' with replay := true }) s := by
  induction fuel generalizing s nodes token with
  | zero => exact wp_noRounds hr
  | succ fuel ih =>
    refine wp_ite (fun hcomma => ?_) fun _ => wp_pure h
    refine (wp_procIdentifier henv).bind fun id s₁ h₁ => ?_
    refine (wp_varInsert id type).bind fun _ s₂ h₂ => ?_
    have h₁₂ := h₁.1.rests h₂
    refine (wp_nextToken henv).bind fun t s₃ ⟨h₃, _, ht, _⟩ => ?_
    have h₁₃ := h₁₂.trans h₃
    have hall := (h.unback.trans h₁₂).trans h₃
    have hfull₃ : Full nodes s₃ := hfull.mono h₁₃.nodes
    refine wp_ite (fun _ => ?_) fun _ => ?_
    · refine (wp_declAssign henv (hw.after h₁₃ (by omega)) hfull₃).bind
        fun ⟨nodes', t'⟩ s₄ ⟨hfull₄, h₄⟩ => ?_
      dsimp only at hfull₄ h₄
      have hspend : Spends env N broken (if t' = .comma then 1 else 0) s s₄ := by
        rcases h₄ with ⟨rfl, h₄, _⟩ | ⟨h₄, _⟩
        · exact (h₁₃.trans h₄).mono (Nat.zero_le _)
        · exact (h₁₃.trans h₄).mono ((more_le_cost (by rintro rfl; decide)).trans
            (Nat.le_add_left _ _))
      refine ih (hw.after hspend (by omega)) (hr.next hcomma hspend) hfull₄ ?_
      rcases h₄ with ⟨_, h₄, hr₄⟩ | ⟨h₄, ht'⟩
      · exact ((hall.trans h₄).mono (by omega)).again hr₄
      · exact ((hall.trans h₄).mono (by omega)).back ht'
    · have hspend : Spends env N broken (if t = .comma then 1 else 0) s s₃ :=
        h₁₃.mono ((more_le_cost (by rintro rfl; decide)).trans (Nat.le_add_left _ _))
      exact ih (hw.after hspend (by omega)) (hr.next hcomma hspend) hfull₃ (hall.back ht)

theorem wp_declEnd (henv : Ends env N broken) {fuel : Nat} {type : FinshType}
    {decl : List Node × TokenType} (hw : Within N broken ((fuel - 1) / 2) s)
    (hr : Rounds N broken (decl.2 = .comma) fuel s) (hfull : Full decl.1 s)
    (h : Spends env N broken d s₀ { s with replay := true }) :
    Wp (Allowed env broken) (declEnd env fuel type decl)
      (fun _ s' => Spends env N broken d s₀ s') s := by
  refine (wp_declLoop henv hw hr hfull h).bind fun decl' s₁ h₁ => wp_bind (wp_ite
    (fun _ => ?_) fun _ => ?_)
  · refine (wp_errorSet _).bind fun _ s₂ h₂ => wp_modify (wp_pure ?_)
    exact h₁.rests ⟨h₂.index, h₂.token, rfl, h₂.nodes⟩
  · exact wp_pure (wp_pure h₁.unback)

/-- A declaration takes the name of its type. -/
theorem wp_procVariableDecl (henv : Ends env N broken) {fuel : Nat}
    (hw : Within N broken ((fuel - 1) / 2) s) (hreplay : s.replay = true)
    (hdecl : isDecl s.token.type = true) :
    Wp (Allowed env broken) (procVariableDecl env fuel)
      (fun _ s' => Spends env N broken 1 s s') s := by
  refine (wp_procType henv).bind fun type s₁ h₁ => ?_
  rw [if_pos ⟨hreplay, hdecl⟩] at h₁
  refine (wp_procIdentifier henv).bind fun id s₂ h₂ => ?_
  refine (wp_varInsert id type).bind fun _ s₃ h₃ => ?_
  have h₁₃ := (h₁.trans h₂.1).rests h₃
  refine (wp_nextToken henv).bind fun t s₄ ⟨h₄, _, ht, _⟩ => ?_
  have h₁₄ := h₁₃.trans h₄
  have hnil : ∀ s : Parser H, Full [] s := fun s last hlast => by cases hlast
  -- At the first round of the loop two tokens have been taken at least.
  have hrounds : ∀ {more : Prop} [Decidable more] {s' : Parser H},
      Spends env N broken 2 s s' → Rounds N broken more fuel s' := by
    intro more _ s' hs
    rcases hw with hb | hl
    · exact .inl (hs.kept hb)
    · refine hs.left.imp_right fun hl' => ?_
      split <;> omega
  split
  · exact wp_declEnd henv (hw.after h₁₄ (by omega)) (hrounds h₁₄) (hnil _) (h₁₄.back ht)
  · refine (wp_declAssign henv (hw.after h₁₄ (by omega)) (hnil _)).bind
      fun decl s₅ ⟨hfull, h₅⟩ => ?_
    have htwo : Spends env N broken 2 s s₄ := h₁₄
    have hspend : Spends env N broken 2 s s₅ :=
      h₅.elim (fun h => (htwo.trans h.2.1).mono (by omega)) fun h =>
        (htwo.trans h.1).mono (by omega)
    refine wp_declEnd henv (hw.after hspend (by omega)) (hrounds hspend) hfull ?_
    rcases h₅ with ⟨_, h₅, hr₅⟩ | ⟨h₅, ht₅⟩
    · exact ((htwo.trans h₅).mono (by omega)).again hr₅
    · exact (((htwo.mono (by omega)).trans h₅)).back ht₅
  · exact wp_pure (h₁₄.mono (Nat.le_add_right 1 _))
  · exact (wp_errorSet _).bind fun _ s₅ h₅ =>
      wp_pure ((h₁₄.rests h₅).mono (Nat.le_add_right 1 _))

/-! ## Lines -/

theorem tokensLeft_replay_le (s : Parser H) :
    tokensLeft N { s with replay := true } ≤ tokensLeft N s + 1 := by
  unfold tokensLeft
  dsimp only
  split <;> omega

theorem wp_runLoop (henv : Ends env N broken) {stmtFuel fuel : Nat} {nodes : List Node}
    {node : Node} {token : TokenType} (hw : Within N broken ((stmtFuel - 1) / 2 - 1) s)
    (hr : Rounds N broken (¬ (token = .eof ∨ token = .bad)) fuel s)
    (htoken : s.token.type = token) :
    Wp (Allowed env broken) (runLoop env stmtFuel fuel nodes node token) (fun _ _ => True) s := by
  induction fuel generalizing s nodes node token with
  | zero => exact wp_noRounds hr
  | succ fuel ih =>
    refine wp_ite (fun _ => wp_pure trivial) fun hmore => wp_bind (wp_modify ?_)
    have hne : s.token.type ≠ .eof := fun heof => hmore (.inl (htoken ▸ heof))
    have hback := tokensLeft_replay_le (N := N) s
    have hw' : Within N broken ((stmtFuel - 1) / 2) { s with replay := true } :=
      hw.imp_right fun hl => by omega
    have hstmt : Wp (Allowed env broken)
        (if isDecl token then procVariableDecl env stmtFuel else procExprStatement env stmtFuel)
        (fun _ s' => Spends env N broken 0 s s') { s with replay := true } := by
      have hspend : ∀ s', Spends env N broken 1 { s with replay := true } s' →
          Spends env N broken 0 s s' := fun s' h =>
        ⟨h.nodes, h.token, h.kept, h.left.imp_right fun hl => by omega⟩
      refine wp_ite (fun hdecl => ?_) fun _ => ?_
      · exact (wp_procVariableDecl henv hw' rfl (by rw [htoken]; exact hdecl)).mono
          fun _ s' h => hspend s' h
      · refine (wp_procExprStatement henv hw').mono fun _ s' h => hspend s' ?_
        have hahead : ahead { s with replay := true } = 1 := if_pos ⟨rfl, hne⟩
        rwa [hahead] at h
    refine hstmt.bind fun stmt s₁ h₁ => ?_
    -- The next round, whatever has been linked.
    have hround : ∀ {nodes' : List Node} {node' : Node} {s₂ : Parser H},
        Spends env N broken 0 s s₂ → Wp (Allowed env broken)
          (nextToken env >>= fun token => runLoop env stmtFuel fuel nodes' node' token)
          (fun _ _ => True) s₂ := by
      intro nodes' node' s₂ h₂
      refine (wp_nextToken henv).bind fun t s₃ ⟨h₃, _, ht, _⟩ => ?_
      have h₂₃ := h₂.trans h₃
      have hspend : Spends env N broken (if ¬ (t = .eof ∨ t = .bad) then 1 else 0) s s₃ :=
        h₂₃.mono ((more_le_cost fun hmore' heof => hmore' (.inl heof)).trans
          (Nat.le_add_left _ _))
      exact ih (hw.after h₂₃ (by omega)) (hr.next hmore hspend) ht
    refine wp_ite (fun _ => wp_ite (fun _ => wp_pure trivial) fun _ => hround h₁) fun _ =>
      wp_ite (fun _ => ?_) fun _ => hround h₁
    refine wp_bind (wp_ite (fun _ => wp_pure (hround h₁)) fun _ => ?_)
    exact (wp_nextToken henv).mono fun _ s₂ h₂ => hround ((h₁.trans h₂.1).mono (Nat.zero_le _))

theorem wp_finshParserRun (henv : Ends env N broken) {fuel : Nat}
    (hfuel : broken s.index ∨ 2 * tokensLeft N s + 5 ≤ fuel) :
    Wp (Allowed env broken) (finshParserRun env fuel) (fun _ _ => True) s := by
  refine (wp_nextToken henv).bind fun t s₁ ⟨h₁, _, ht, _⟩ => ?_
  have hw : Within N broken ((fuel - 1) / 2 - 1) s := hfuel.imp_right fun hle => by omega
  refine wp_runLoop henv (hw.after h₁ (by omega)) ?_ ht
  rcases hfuel with hb | hle
  · exact .inl (h₁.kept hb)
  · refine h₁.left.imp_right fun hl => ?_
    split <;> omega

end

/-! ## The tokens of a line -/

section
variable {H : Type}

theorem ends_tokenAt (env : Env H) (line : List Char) (htokens : env.tokens = tokenAt line) :
    Ends env (line.length + 1) (fun i => restartedAt line i = true) where
  eof ht hle hr := tokenAt_eof (htokens ▸ ht) (Bool.eq_false_of_not_eq_true hr) hle
  broken ht hr := restartedAt_succ (htokens ▸ ht) hr

/-- `finsh_parser_run` ends. -/
def Terminates (symbols : Symbols H) (vars : List Var) (heap : H) (line : List Char) : Prop :=
  ∃ fuel root s, finshParserRun (symbols.env line) fuel { vars := vars, heap := heap } = .ok root s

/-- While the line is parsed a name is read that the end of the line cuts off, or a token that its
buffer is too short for. -/
def ReadsCutName (symbols : Symbols H) (vars : List Var) (heap : H) (line : List Char) : Prop :=
  ∃ fuel, match finshParserRun (symbols.env line) fuel { vars := vars, heap := heap } with
    | .ok _ s => restartedAt line s.index = true
    | .error e s => restartedAt line s.index = true ∨ e = .overrun

/-- Every line of which no name is cut off is parsed to its end. -/
theorem terminates_of_not_readsCutName (symbols : Symbols H) (vars : List Var) (heap : H)
    (line : List Char) (h : ¬ ReadsCutName symbols vars heap line) :
    Terminates symbols vars heap line := by
  set s : Parser H := { vars := vars, heap := heap } with hs
  set fuel := 2 * tokensLeft (line.length + 1) s + 5 with hfuel
  have hwp : Wp (Allowed (symbols.env line) fun i => restartedAt line i = true)
      (finshParserRun (symbols.env line) fuel) (fun _ _ => True) s :=
    wp_finshParserRun (ends_tokenAt _ line rfl) (.inr (Nat.le_refl _))
  cases hrun : finshParserRun (symbols.env line) fuel s with
  | ok root s' => exact ⟨fuel, root, s', hrun⟩
  | error e s' =>
    have hstop := hwp.of_error hrun
    refine absurd ⟨fuel, ?_⟩ h
    rw [hrun]
    cases e with
    | outOfFuel => exact .inl (hstop.fuel rfl)
    | overrun => exact .inr rfl
    | nullNode => exact absurd rfl hstop.node

end

/-- A tokenizer that a call leaves as it is stays so. -/
theorem lexerAt_stays {line : List Char} {n : Nat}
    (h : (lexerAt line n).bind Lexer.tokenRun = lexerAt line n) (i : Nat) :
    lexerAt line (n + i) = lexerAt line n := by
  induction i with
  | zero => rfl
  | succ i ih =>
    rw [← Nat.add_assoc, lexerAt, ih]
    exact h

/-- A line of which no name is cut off, however far it is read. -/
theorem not_readsCutName {symbols : Symbols H} {vars : List Var} {heap : H} {line : List Char}
    (hline : ∀ i, restartedAt line i = false ∧ (tokenAt line i).isSome = true) :
    ¬ ReadsCutName symbols vars heap line := by
  rintro ⟨fuel, hreads⟩
  set s : Parser H := { vars := vars, heap := heap } with hs
  cases hrun : finshParserRun (symbols.env line) fuel s with
  | ok root s' =>
    rw [hrun] at hreads
    exact absurd ((hline s'.index).1.symm.trans hreads) (by decide)
  | error e s' =>
    rw [hrun] at hreads
    rcases hreads with hr | he
    · exact absurd ((hline s'.index).1.symm.trans hr) (by decide)
    · -- Whether the fuel is enough does not matter here.
      have hany : Ends (symbols.env line) 0 fun _ => True :=
        ⟨fun _ _ hb => absurd trivial hb, fun _ _ => trivial⟩
      obtain ⟨i, hi⟩ := ((wp_finshParserRun hany (.inl trivial)).of_error hrun).buffer he
      have hsome := (hline i).2
      change (symbols.env line).tokens i = none at hi
      rw [show tokenAt line i = none from hi] at hsome
      cases hsome

def nullSymbols : Symbols Unit := ⟨fun _ => none, fun _ => none, fun _ _ => (0, ())⟩

/-- A number and the semicolon that the shell puts behind a line. -/
theorem terminates_one : Terminates nullSymbols (List.replicate 8 {}) () "1;".toList := by
  refine terminates_of_not_readsCutName _ _ _ _ (not_readsCutName fun i => ?_)
  have hend : ∀ j, lexerAt "1;".toList (3 + j) = lexerAt "1;".toList 3 :=
    lexerAt_stays (by decide +kernel)
  by_cases hi : i < 3
  · have hfirst : ∀ i < 3, restartedAt "1;".toList i = false ∧
        (tokenAt "1;".toList i).isSome = true := by decide +kernel
    exact hfirst i hi
  · obtain ⟨j, rfl⟩ := Nat.exists_eq_add_of_le (Nat.le_of_not_lt hi)
    unfold restartedAt tokenAt
    rw [Nat.add_assoc, hend j, hend (j + 1)]
    decide +kernel

/-! ## A line that is read for ever -/

def nullLine : List Char := "NULL".toList

def nullToken : Token := ⟨.valueNull, 0, nullLine, none⟩

/-- The word is read again and again. -/
theorem tokenAt_nullLine : tokenAt nullLine = fun _ => some nullToken := by
  have hagain : (lexerAt nullLine 1).bind Lexer.tokenRun = lexerAt nullLine 1 := by
    decide +kernel
  funext i
  rw [tokenAt, Nat.add_comm, lexerAt_stays hagain i]
  decide +kernel

def nullEnv : Env Unit :=
  ⟨fun _ => some nullToken, fun _ => none, fun _ => none, fun _ _ => (0, ())⟩

theorem nullSymbols_env : nullSymbols.env nullLine = nullEnv := by
  unfold Symbols.env
  rw [tokenAt_nullLine]
  rfl

theorem ends_nullEnv : Ends nullEnv 0 (fun _ => True) where
  eof _ _ hb := absurd trivial hb
  broken _ _ := trivial

theorem Spends.nullToken {d : Nat} {s s' : Parser Unit}
    (h : Spends nullEnv 0 (fun _ => True) d s s') (hs : s.token = nullToken) :
    s'.token = FinshTermination.nullToken := by
  rcases h.token with heq | ⟨i, hi⟩
  · exact heq.trans hs
  · exact (Option.some.inj hi).symm

/-- Once there is a root, the loop of `finsh_parser_run` is never left. -/
theorem runLoop_nullEnv (stmtFuel fuel : Nat) (nodes : List Node) (node : Node) (s : Parser Unit)
    (hnode : node.isNull = false) (hs : s.token = nullToken) :
    Wp (fun _ _ => True) (runLoop nullEnv stmtFuel fuel nodes node .valueNull)
      (fun _ _ => False) s := by
  induction fuel generalizing s nodes node with
  | zero => exact wp_throw trivial
  | succ fuel ih =>
    have hround : ∀ {nodes' : List Node} {node' : Node} {s' : Parser Unit},
        node'.isNull = false → s'.token = nullToken → Wp (fun _ _ => True)
          (nextToken nullEnv >>= fun token => runLoop nullEnv stmtFuel fuel nodes' node' token)
          (fun _ _ => False) s' := by
      intro nodes' node' s' hnode' hs'
      refine Wp.bind ((wp_nextToken ends_nullEnv).weaken (fun _ _ _ => trivial)
        fun _ _ h => h) fun t s₂ ⟨h₂, _, ht, _⟩ => ?_
      have hs₂ := h₂.nullToken hs'
      obtain rfl : t = .valueNull := by rw [← ht, hs₂]; rfl
      exact ih nodes' node' s₂ hnode' hs₂
    refine wp_ite (fun h => by rcases h with h | h <;> cases h) fun _ => wp_bind (wp_modify ?_)
    refine Wp.bind ((wp_procExprStatement ends_nullEnv (.inl trivial)).weaken
      (fun _ _ _ => trivial) fun _ _ h => h) fun stmt s₁ h₁ => ?_
    have hs₁ := h₁.nullToken hs
    refine wp_ite (fun hnull => ?_) fun _ => wp_ite (fun _ => ?_) fun hstmt => ?_
    · rw [hnode] at hnull
      cases hnull
    · refine Wp.bind ((wp_nextToken ends_nullEnv).weaken (fun _ _ _ => trivial)
        fun _ _ h => h) fun t s₂ h₂ => hround ?_ (h₂.1.nullToken hs₁)
      cases node with
      | null => cases hnode
      | mk => rfl
    · exact hround (Bool.eq_false_of_not_eq_true hstmt) hs₁

/-- With room for a node, an expression of the line is one. -/
def ReadsNode (m : EStateM Stop (Parser Unit) Node) : Prop :=
  ∀ s : Parser Unit, s.token = nullToken → s.nodes < finshNodeMax →
    Wp (fun _ _ => True) m (fun r s' => r.isNull = false ∧ s'.token = nullToken) s

theorem wp_nullNext {E : Stop → Parser Unit → Prop} {s : Parser Unit} (hs : s.token = nullToken) :
    Wp E (nextToken nullEnv)
      (fun t s' => t = .valueNull ∧ s'.token = nullToken ∧ s'.nodes = s.nodes) s := by
  refine wp_bind (wp_get (wp_ite (fun _ => ?_) fun _ => ?_))
  · exact wp_bind (wp_set (wp_pure ⟨by rw [hs]; rfl, hs, rfl⟩))
  · exact wp_bind (wp_set (wp_pure ⟨rfl, rfl, rfl⟩))

theorem ReadsNode.binary {m : EStateM Stop (Parser Unit) Node} (h : ReadsNode m)
    {ops : List (TokenType × NodeType)} (hops : ops.lookup .valueNull = none) (fuel : Nat) :
    ReadsNode (binary nullEnv ops m fuel) := by
  refine fun s hs hn => (h s hs hn).bind fun node s₁ ⟨hnode, hs₁⟩ => ?_
  cases fuel with
  | zero => exact wp_throw trivial
  | succ fuel =>
    refine (wp_nullNext hs₁).bind fun t s₂ ⟨ht, hs₂, _⟩ => ?_
    rw [ht, hops]
    exact wp_bind (wp_modify (wp_pure ⟨hnode, hs₂⟩))

theorem readsNode_procPostfixExpr (assign : EStateM Stop (Parser Unit) Node) (fuel : Nat) :
    ReadsNode (procPostfixExpr nullEnv assign fuel) := by
  intro s hs hn
  refine wp_bind ((wp_nullNext hs).bind fun t s₁ ⟨ht, hs₁, hn₁⟩ => ?_)
  subst ht
  refine (wp_nodeNew _ _ _).mono fun node s₂ ⟨h₂, hnode⟩ => ?_
  cases fuel with
  | zero => exact wp_throw trivial
  | succ fuel =>
    refine (wp_nullNext (h₂.token.trans hs₁)).bind fun t s₃ ⟨ht, hs₃, _⟩ => ?_
    subst ht
    exact wp_bind (wp_modify (wp_pure ⟨hnode.mpr (by omega), hs₃⟩))

theorem readsNode_procCastExpr (fuel : Nat) : ReadsNode (procCastExpr nullEnv fuel) := by
  intro s hs hn
  cases fuel with
  | zero => exact wp_throw trivial
  | succ fuel =>
    unfold procCastExpr
    refine (wp_nullNext hs).bind fun t s₁ ⟨ht, hs₁, hn₁⟩ => ?_
    subst ht
    refine wp_ite (fun h => by cases h) fun _ => wp_bind (wp_modify ?_)
    refine (wp_nullNext (s := { s₁ with replay := true }) hs₁).bind fun t s₂ ⟨ht, hs₂, hn₂⟩ => ?_
    subst ht
    have hroom : s₂.nodes < finshNodeMax := by
      rw [hn₂]
      exact hn₁ ▸ hn
    exact wp_bind (wp_modify
      (readsNode_procPostfixExpr _ fuel { s₂ with replay := true } hs₂ hroom))

theorem readsNode_procAssignExpr (fuel : Nat) : ReadsNode (procAssignExpr nullEnv fuel) := by
  intro s hs hn
  cases fuel with
  | zero => exact wp_throw trivial
  | succ fuel =>
    unfold procAssignExpr
    have hor : ReadsNode (procInclusiveOrExpr nullEnv (procCastExpr nullEnv fuel) fuel) :=
      ((((((readsNode_procCastExpr fuel).binary rfl fuel).binary rfl fuel).binary rfl
        fuel).binary rfl fuel).binary rfl fuel).binary rfl fuel
    refine (hor s hs hn).bind fun node s₁ ⟨hnode, hs₁⟩ => ?_
    refine (wp_nullNext hs₁).bind fun t s₂ ⟨ht, hs₂, _⟩ => ?_
    subst ht
    exact wp_ite (fun h => by cases h) fun _ => wp_bind (wp_modify (wp_pure ⟨hnode, hs₂⟩))

theorem readsNode_procExprStatement (fuel : Nat) : ReadsNode (procExprStatement nullEnv fuel) := by
  intro s hs hn
  refine (wp_nullNext hs).bind fun t s₁ ⟨ht, hs₁, hn₁⟩ => ?_
  subst ht
  refine wp_ite (fun h => by cases h) fun _ => wp_bind (wp_modify ?_)
  refine (readsNode_procAssignExpr fuel { s₁ with replay := true } hs₁ (hn₁ ▸ hn)).bind
    fun node s₂ ⟨hnode, hs₂⟩ => ?_
  refine Wp.bind ((wp_matchToken ends_nullEnv _).weaken (fun _ _ _ => trivial) fun _ _ h => h)
    fun _ s₃ h₃ => wp_pure ⟨hnode, h₃.1.nullToken hs₂⟩

/-- The line `NULL`, with nothing behind it, has no end. -/
theorem null_read_for_ever :
    ¬ ∀ line, Terminates nullSymbols (List.replicate 8 {}) () line := by
  intro h
  obtain ⟨fuel, root, s', hrun⟩ := h nullLine
  rw [nullSymbols_env] at hrun
  have hwp : Wp (fun _ _ => True) (finshParserRun nullEnv fuel) (fun _ _ => False)
      ({ vars := List.replicate 8 {}, heap := () } : Parser Unit) := by
    refine wp_bind (wp_bind (wp_get (wp_ite (fun h => by cases h) fun _ =>
      wp_bind (wp_set (wp_pure ?_)))))
    cases fuel with
    | zero => exact wp_throw trivial
    | succ fuel =>
      refine wp_ite (fun h => by rcases h with h | h <;> cases h) fun _ => wp_bind (wp_modify ?_)
      refine (readsNode_procExprStatement (fuel + 1) _ rfl (by decide)).bind
        fun node s₁ ⟨hnode, hs₁⟩ => wp_ite (fun _ => wp_ite (fun hnull => ?_) fun _ => ?_)
          fun h => absurd rfl h
      · rw [hnode] at hnull
        cases hnull
      · refine (wp_nullNext hs₁).bind fun t s₂ ⟨ht, hs₂, _⟩ => ?_
        subst ht
        exact runLoop_nullEnv (fuel + 1) fuel [] node s₂ hnode hs₂
  exact hwp.of_ok hrun

end ControlRTT.Components.FinshTermination
