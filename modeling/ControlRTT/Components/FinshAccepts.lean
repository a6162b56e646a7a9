import ControlRTT.Components.FinshComplete
import ControlRTT.Components.FinshTermination

/-! # The lines that the FinSH parser accepts

An expression with a semicolon behind it is accepted exactly if it is one that is read, or if it
begins with a token that is bad without an error (`accepts_iff`). The comments have another grammar:
`proc_cast_expr` takes every parenthesis for that of a cast, so that no expression in parentheses
gets by, and anything may stand to the left of a `=`. -/
namespace ControlRTT.Components.FinshAccepts
open FinshToken FinshParser FinshGrammar FinshSound FinshComplete FinshTermination Lib.Programs

section
variable {H : Type} {env : Env H} {vars : List Var} {n : Nat} {h : H} {s s' : Parser H}

/-- One statement that is no declaration, with so many tokens before its semicolon. -/
structure ExpressionLine (env : Env H) (n : Nat) : Prop where
  inside : ∀ i < n, ∃ t, env.tokens i = some t ∧ t.type ≠ .semicolon ∧ t.type ≠ .eof
  first : ∀ t, env.tokens 0 = some t → isDecl t.type = false
  semicolon : TypeAt env n .semicolon
  eof : TypeAt env (n + 1) .eof

/-- The line is a `statement_expr` of which the expression is of this kind, within the limit of
nodes. -/
def Derived (env : Env H) (n : Nat) (P : Expr → Prop) : Prop :=
  n = 0 ∨ ∃ e, (e.Formed ∧ e.rank ≤ 10 ∧ e.size ≤ finshNodeMax) ∧ P e ∧ Spells env e 0 n

/-! ## Errors stay set -/

/-- An error that is set stays set. -/
def Sticky {α : Type} (m : EStateM Stop (Parser H) α) : Prop :=
  ∀ s, Wp Any m (fun _ s' => s'.errno = none → s.errno = none) s

section
variable {α β : Type} {m : EStateM Stop (Parser H) α} {k : α → EStateM Stop (Parser H) β}

theorem Sticky.pure (a : α) : Sticky (H := H) (pure a) := fun _ => wp_pure id

theorem Sticky.throw (e : Stop) : Sticky (H := H) (throw e : EStateM Stop (Parser H) α) :=
  fun _ => wp_throw trivial

theorem Sticky.bind (hm : Sticky m) (hk : ∀ a, Sticky (k a)) : Sticky (m >>= k) := fun s =>
  (hm s).bind fun a s₁ h₁ => (hk a s₁).mono fun _ _ h₂ herr => h₁ (h₂ herr)

theorem Sticky.ite {c : Prop} [Decidable c] {m' : EStateM Stop (Parser H) α} (hm : Sticky m)
    (hm' : Sticky m') : Sticky (if c then m else m') := fun s =>
  wp_ite (fun _ => hm s) fun _ => hm' s

theorem Sticky.of_clean {P : Parser H → α → Parser H → Prop}
    (hm : ∀ s, Wp Any m (fun a s' => Clean s s' (P s a s')) s) : Sticky m := fun s =>
  (hm s).mono fun _ _ hclean herr => (hclean herr).1

end

theorem sticky_errorSet (e : FinshError) : Sticky (H := H) (finshErrorSet e) :=
  fun _ => wp_modify fun herr => by cases herr

theorem sticky_replay : Sticky (H := H) finshTokenReplay := fun _ => wp_modify id

theorem sticky_nextToken : Sticky (nextToken env) := fun s =>
  (clean_nextToken [] s).mono fun _ _ hclean herr => (hclean.2 herr).1

theorem sticky_procIdentifier : Sticky (procIdentifier env) := fun s =>
  (clean_procIdentifier [] s).mono fun _ _ hclean herr => (hclean.2 herr).1

theorem sticky_procAssignExpr (fuel : Nat) : Sticky (procAssignExpr env fuel) :=
  .of_clean (sound_proc env [] fuel).2

theorem sticky_varInsert (name : List Char) (type : FinshType) :
    Sticky (H := H) (finshVarInsert name type) := by
  intro s
  refine wp_bind (wp_get ?_)
  split
  · exact wp_set id
  · exact sticky_errorSet _ s

theorem sticky_declAppend (nodes : List Node) (node : Node) :
    Sticky (H := H) (declAppend nodes node) := by
  unfold declAppend
  split
  · exact .pure _
  · exact .ite (.throw _) (.pure _)

theorem sticky_declAssign (fuel : Nat) (id : List Char) (nodes : List Node) :
    Sticky (declAssign env fuel id nodes) :=
  (sticky_procAssignExpr fuel).bind fun assign => .ite (.pure _)
    ((Sticky.of_clean (clean_finshNodeNewId id)).bind fun idnode =>
      (Sticky.of_clean (clean_makeSysNode .assign idnode assign)).bind fun node =>
        (sticky_declAppend nodes node).bind fun _ => sticky_nextToken.bind fun _ => .pure _)

theorem sticky_declLoop (exprFuel : Nat) (type : FinshType) (fuel : Nat)
    (decl : List Node × TokenType) : Sticky (declLoop env exprFuel type fuel decl) := by
  induction fuel generalizing decl with
  | zero => exact .throw _
  | succ fuel ih =>
    obtain ⟨nodes, token⟩ := decl
    refine .ite (sticky_procIdentifier.bind fun id => (sticky_varInsert id type).bind fun _ =>
      sticky_nextToken.bind fun token => .ite ?_ (ih _)) (.pure _)
    exact (sticky_declAssign exprFuel id nodes).bind fun decl => ih decl

theorem sticky_declEnd (fuel : Nat) (type : FinshType) (decl : List Node × TokenType) :
    Sticky (declEnd env fuel type decl) :=
  (sticky_declLoop fuel type fuel decl).bind fun decl =>
    (Sticky.of_clean (clean_checkToken decl.2 .semicolon)).bind fun _ => .pure _

theorem sticky_procVariableDecl (fuel : Nat) : Sticky (procVariableDecl env fuel) := by
  refine (Sticky.of_clean (clean_procType [])).bind fun type => sticky_procIdentifier.bind fun id =>
    (sticky_varInsert id type).bind fun _ => sticky_nextToken.bind fun token => ?_
  split
  · exact sticky_declEnd fuel type _
  · exact (sticky_declAssign fuel id []).bind fun decl => sticky_declEnd fuel type decl
  · exact .pure _
  · exact (sticky_errorSet _).bind fun _ => .pure _

theorem sticky_procExprStatement (fuel : Nat) : Sticky (procExprStatement env fuel) :=
  sticky_nextToken.bind fun _ => .ite (.pure _) (sticky_replay.bind fun _ =>
    (sticky_procAssignExpr fuel).bind fun _ =>
      (Sticky.of_clean (clean_matchToken [] .semicolon)).bind fun _ => .pure _)

theorem sticky_runLoop (stmtFuel fuel : Nat) (nodes : List Node) (node : Node)
    (token : TokenType) : Sticky (runLoop env stmtFuel fuel nodes node token) := by
  induction fuel generalizing nodes node token with
  | zero => exact .throw _
  | succ fuel ih =>
    have hround : ∀ nodes node, Sticky (do
        runLoop env stmtFuel fuel nodes node (← nextToken env)) := fun nodes node =>
      sticky_nextToken.bind fun token => ih nodes node token
    refine .ite (.pure _) (sticky_replay.bind fun _ => Sticky.bind (.ite
      (sticky_procVariableDecl stmtFuel) (sticky_procExprStatement stmtFuel)) fun stmt => ?_)
    refine .ite (.ite (.pure _) (hround _ _)) (.ite ?_ (hround _ _))
    exact Sticky.bind (.ite (.pure _) sticky_nextToken) fun _ => hround _ _

/-! ## The statement -/

/-- A semicolon, or an expression with a semicolon behind it. -/
theorem clean_procExprStatement (vars : List Var) (fuel : Nat) (s : Parser H) :
    Wp Any (procExprStatement env fuel) (fun node s' => Clean s s' (∀ p k h,
      Standing env vars p k h s →
        TypeAt env p .semicolon ∧ node = .null ∨
          ∃ e q, (e.Formed ∧ Handled env vars e ∧ e.rank ≤ 10) ∧ Spells env e p q ∧
            TypeAt env q .semicolon ∧ node = (build env vars e h).1 ∧
              JustRead env vars q (k + e.size) (build env vars e h).2 s')) s := by
  refine (clean_nextToken vars s).bind fun t s₁ ⟨ht, h₁⟩ =>
    wp_ite (fun hsemicolon => wp_pure ?_) fun _ => wp_bind (wp_modify ?_)
  · exact fun herr => (h₁ herr).imp_right fun hread p k h hs =>
      .inl ⟨hsemicolon ▸ ht ▸ (hread p k h hs).typeAt, rfl⟩
  · refine ((sound_proc env vars fuel).2 _).bind fun node s₂ h₂ => ?_
    refine (clean_matchToken vars .semicolon s₂).bind fun _ s₃ h₃ => wp_pure ?_
    refine (h₁.back.trans h₂ And.intro).trans h₃ ?_
    rintro ⟨hstand, hnode⟩ hsemicolon p k h hs
    obtain ⟨e, q, he, hspells, hbuild, hstanding⟩ := hnode p k h (hstand p k h hs)
    obtain ⟨htype, hjust⟩ := hsemicolon _ _ _ hstanding
    exact .inr ⟨e, q, he, hspells, htype, hbuild, hjust⟩

/-- Where the line begins. -/
def start (vars : List Var) (h : H) : Parser H := { vars := vars, heap := h }

theorem standing_start (env : Env H) (vars : List Var) (h : H) :
    Standing env vars 0 0 h (start vars h) :=
  ⟨rfl, rfl, rfl, Nat.zero_le _, rfl, .inl ⟨rfl, rfl⟩⟩

theorem ExpressionLine.first_token (hline : ExpressionLine env n) :
    ∃ token, env.tokens 0 = some token ∧ token.type ≠ .eof := by
  by_cases hn : n = 0
  · obtain ⟨token, htoken, -, htype⟩ := hn ▸ hline.semicolon
    exact ⟨token, htoken, by rw [htype]; decide⟩
  · obtain ⟨token, htoken, -, htype⟩ := hline.inside 0 (Nat.pos_of_ne_zero hn)
    exact ⟨token, htoken, htype⟩

/-- The semicolon is the first one. -/
theorem ExpressionLine.eq_of_semicolon (hline : ExpressionLine env n) {e : Expr} {q : Nat}
    (hformed : e.Formed) (hspells : Spells env e 0 q) (hq : TypeAt env q .semicolon) : q = n := by
  rcases Nat.lt_trichotomy q n with hlt | heq | hgt
  · obtain ⟨token, htoken, hne, -⟩ := hline.inside q hlt
    obtain ⟨token', htoken', -, htype⟩ := hq
    obtain rfl := Option.some.inj (htoken.symm.trans htoken')
    exact absurd htype hne
  · exact heq
  · obtain ⟨t, ht, hexpr⟩ := hspells.inside hformed n (Nat.zero_le n) hgt
    rw [ht.unique hline.semicolon] at hexpr
    cases hexpr

/-- What has been read where no error is set: nothing behind a bad token, or one statement. -/
def Understood (env : Env H) (vars : List Var) (n : Nat) (h : H) (root : Node) : Prop :=
  TypeAt env 0 .bad ∨ n = 0 ∧ root = .null ∨
    ∃ e, (e.Formed ∧ e.rank ≤ 10 ∧ e.size ≤ finshNodeMax) ∧ Handled env vars e ∧
      Spells env e 0 n ∧ root = (build env vars e h).1

theorem wp_firstToken {E : Stop → Parser H → Prop} {token : Token}
    (htoken : env.tokens 0 = some token) :
    Wp E (nextToken env) (fun t s' => t = token.type ∧
      (s'.errno = none → JustRead env vars 0 0 h s')) (start vars h) := by
  refine wp_bind (wp_get (wp_ite (fun hreplay => by cases hreplay) fun _ => ?_))
  rw [show env.tokens (start vars h).index = some token from htoken]
  refine wp_bind (wp_set (wp_pure ⟨rfl, fun herr => ?_⟩))
  obtain ⟨herror, -⟩ := Option.or_eq_none_iff.mp herr
  exact ⟨herr, rfl, rfl, Nat.zero_le _, rfl, rfl, rfl, htoken, herror⟩

theorem wp_finshParserRun_understood (hline : ExpressionLine env n) (fuel : Nat) :
    Wp Any (finshParserRun env fuel) (fun root s' => s'.errno = none →
      Understood env vars n h root) (start vars h) := by
  obtain ⟨token, htoken, hneof⟩ := hline.first_token
  refine (wp_firstToken htoken).bind fun t s₁ ⟨ht, h₁⟩ => ?_
  cases fuel with
  | zero => exact wp_throw trivial
  | succ fuel =>
    refine wp_ite (fun hend => wp_pure fun herr => ?_) fun _ => wp_bind (wp_modify ?_)
    · have hjust := h₁ herr
      obtain rfl := Option.some.inj (htoken.symm.trans hjust.token)
      rcases hend with heof | hbad
      · exact absurd (ht.symm.trans heof) hneof
      · exact .inl (hbad ▸ ht ▸ hjust.typeAt)
    refine wp_bind (wp_ite (fun hdecl => ?_) fun _ => ?_)
    · rw [ht, hline.first token htoken] at hdecl
      cases hdecl
    refine (clean_procExprStatement vars (fuel + 1) _).mono fun stmt s₂ h₂ => ?_
    have hstmt : s₂.errno = none → n = 0 ∧ stmt = .null ∨
        ∃ e, (e.Formed ∧ e.rank ≤ 10 ∧ e.size ≤ finshNodeMax) ∧ Handled env vars e ∧
          Spells env e 0 n ∧ stmt = (build env vars e h).1 ∧
            Standing env vars (n + 1) e.size (build env vars e h).2 s₂ := by
      intro herr
      obtain ⟨herr₁, hclean⟩ := h₂ herr
      rcases hclean 0 0 h (h₁ herr₁).back with ⟨hsemicolon, hnull⟩ |
        ⟨e, q, ⟨hformed, hhandled, hrank⟩, hspells, hsemicolon, hnode, hjust⟩
      · refine .inl ⟨?_, hnull⟩
        by_contra hne
        obtain ⟨token', htoken', hne', -⟩ := hline.inside 0 (Nat.pos_of_ne_zero hne)
        obtain ⟨token'', htoken'', -, htype⟩ := hsemicolon
        obtain rfl := Option.some.inj (htoken'.symm.trans htoken'')
        exact hne' htype
      · obtain rfl := hline.eq_of_semicolon hformed hspells hsemicolon
        have hstanding := hjust.standing
        rw [Nat.zero_add] at hstanding
        exact .inr ⟨e, ⟨hformed, hrank, hstanding.room⟩, hhandled, hspells, hnode, hstanding⟩
    refine wp_ite (fun _ => wp_ite (fun hnull => wp_pure fun herr => ?_) fun hnull => ?_)
      fun hne => absurd rfl hne
    · rcases hstmt herr with ⟨hn, -⟩ | ⟨e, ⟨hformed, hrank, -⟩, -, -, rfl, -⟩
      · exact .inr (.inl ⟨hn, rfl⟩)
      · rw [(build_root env vars hformed hrank h).1] at hnull
        cases hnull
    · refine (clean_nextToken vars s₂).bind fun t₂ s₃ ⟨ht₂, h₃⟩ => ?_
      have hread : s₃.errno = none → t₂ = .eof ∧ Understood env vars n h stmt := by
        intro herr
        obtain ⟨herr₂, hjust⟩ := h₃ herr
        rcases hstmt herr₂ with ⟨-, rfl⟩ | ⟨e, he, hhandled, hspells, hnode, hstanding⟩
        · exact absurd rfl hnull
        · exact ⟨ht₂ ▸ (hjust _ _ _ hstanding).typeAt.unique hline.eof,
            .inr (.inr ⟨e, he, hhandled, hspells, hnode⟩)⟩
      by_cases heof : t₂ = .eof
      · cases fuel with
        | zero => exact wp_throw trivial
        | succ fuel =>
          exact wp_ite (fun _ => wp_pure fun herr => (hread herr).2)
            fun hne => absurd (.inl heof) hne
      · exact (sticky_runLoop _ _ _ _ _ s₃).mono fun _ _ hsticky herr =>
          absurd (hread (hsticky herr)).1 heof

/-! ## What is read -/

theorem Wp.exists_ok {α : Type} {m : EStateM Stop (Parser H) α} {Q : α → Parser H → Prop}
    (hm : Wp (fun _ _ => False) m Q s) : ∃ a s', m s = .ok a s' ∧ Q a s' := by
  cases hrun : m s with
  | ok a s' => exact ⟨a, s', rfl, hm.of_ok hrun⟩
  | error e s' => exact (hm.of_error hrun).elim

/-- A bad token, or a semicolon alone. -/
theorem exists_run_null (hline : ExpressionLine env n) (vars : List Var) (h : H)
    (hfirst : TypeAt env 0 .bad ∨ n = 0) :
    ∃ fuel root s', finshParserRun env fuel (start vars h) = .ok root s' ∧ s'.errno = none := by
  have hstart := standing_start env vars h
  refine ⟨1, Wp.exists_ok (Q := fun _ s' => s'.errno = none) ?_⟩
  rcases hfirst with hbad | rfl
  · refine (hstart.wp_nextToken hbad).bind fun t s₁ ⟨ht, h₁⟩ => ?_
    exact wp_ite (fun _ => wp_pure h₁.errno) fun hne => absurd (.inr ht) hne
  · refine (hstart.wp_nextToken hline.semicolon).bind fun t s₁ ⟨ht, h₁⟩ => ?_
    refine wp_ite (fun _ => wp_pure h₁.errno) fun _ => wp_bind (wp_modify ?_)
    have hstmt : Wp (fun _ _ => False) (procExprStatement env 1)
        (fun node s' => node = .null ∧ s'.errno = none) { s₁ with replay := true } :=
      (h₁.back.wp_nextToken hline.semicolon).bind fun t' s₂ ⟨ht', h₂⟩ =>
        wp_ite (fun _ => wp_pure ⟨rfl, h₂.errno⟩) fun hne => absurd ht' hne
    refine wp_bind (wp_ite (fun hdecl => ?_) fun _ => ?_)
    · rw [ht] at hdecl
      cases hdecl
    · refine hstmt.mono fun node s₂ ⟨hnode, herr⟩ => ?_
      subst hnode
      exact wp_ite (fun _ => wp_ite (fun _ => wp_pure herr) fun hne => absurd rfl hne)
        fun hne => absurd rfl hne

/-- An expression that is read, with fuel for two statements at least. -/
theorem wp_finshParserRun_reads {e : Expr} {fuel : Nat} (hline : ExpressionLine env n)
    (hpos : 0 < n) (he : e.Formed ∧ e.rank ≤ 10 ∧ e.size ≤ finshNodeMax)
    (hhandled : Handled env vars e) (hspells : Spells env e 0 n) :
    Wp (Wanting (n + 1)) (finshParserRun env (fuel + 2)) (fun _ s' => s'.errno = none)
      (start vars h) := by
  obtain ⟨hformed, hrank, hsize⟩ := he
  have hstart := standing_start env vars h
  obtain ⟨t, hfirst, hexpr⟩ := hspells.inside hformed 0 (Nat.le_refl 0) hpos
  refine (hstart.wp_nextToken hfirst).bind fun t₁ s₁ ⟨ht₁, h₁⟩ => ?_
  subst ht₁
  refine wp_ite (fun _ => wp_pure h₁.errno) fun _ => wp_bind (wp_modify ?_)
  have hstmt : Wp (Wanting (n + 1)) (procExprStatement env (fuel + 2)) (fun node s' =>
      node.isNull = false ∧ Standing env vars (n + 1) (0 + e.size) (build env vars e h).2 s')
      { s₁ with replay := true } := by
    refine (h₁.back.wp_nextToken hfirst).bind fun t₂ s₂ ⟨ht₂, h₂⟩ =>
      wp_ite (fun hsemicolon => ?_) fun _ => wp_bind (wp_modify ?_)
    · rw [← ht₂, hsemicolon] at hexpr
      cases hexpr
    · have hahead : Ahead env vars (n + 1) e 0 n 0 h { s₂ with replay := true } :=
        ⟨h₂.back, hspells, Nat.lt_succ_self n, by omega⟩
      refine ((readable hformed hhandled).assign hrank _ hahead hline.semicolon
        (by decide)).bind fun node s₃ ⟨hnode, h₃⟩ => ?_
      refine (h₃.wp_matchToken hline.semicolon).bind fun _ s₄ h₄ => wp_pure ⟨?_, h₄.standing⟩
      rw [hnode]
      exact (build_root env vars hformed hrank h).1
  refine wp_bind (wp_ite (fun hdecl => ?_) fun _ => ?_)
  · obtain ⟨token, htoken, -, htype⟩ := hfirst
    rw [← htype, hline.first token htoken] at hdecl
    cases hdecl
  · refine hstmt.mono fun node s₂ ⟨hnode, h₂⟩ => ?_
    refine wp_ite (fun _ => wp_ite (fun hnull => ?_) fun _ => ?_) fun hne => absurd rfl hne
    · rw [hnode] at hnull
      cases hnull
    · refine (h₂.wp_nextToken hline.eof).bind fun t₃ s₃ ⟨ht₃, h₃⟩ => ?_
      exact wp_ite (fun _ => wp_pure h₃.errno) fun hne => absurd (.inl ht₃) hne

/-- The tokens up to the end, whatever comes behind it. -/
theorem ExpressionLine.ends (hline : ExpressionLine env n) :
    Ends env (n + 1) (n + 1 < ·) where
  eof htoken hle hbroken := by
    obtain rfl := Nat.le_antisymm (Nat.le_of_not_lt hbroken) hle
    obtain ⟨token, htoken', -, htype⟩ := hline.eof
    obtain rfl := Option.some.inj (htoken.symm.trans htoken')
    exact htype
  broken _ hbroken := Nat.lt_succ_of_lt hbroken

theorem exists_run_expr {e : Expr} (hline : ExpressionLine env n) (hpos : 0 < n)
    (he : e.Formed ∧ e.rank ≤ 10 ∧ e.size ≤ finshNodeMax) (hhandled : Handled env vars e)
    (hspells : Spells env e 0 n) (h : H) :
    ∃ fuel root s', finshParserRun env fuel (start vars h) = .ok root s' ∧ s'.errno = none := by
  obtain ⟨fuel, hfuel⟩ : ∃ fuel, fuel = 2 * tokensLeft (n + 1) (start vars h) + 3 := ⟨_, rfl⟩
  have hends : Wp (Allowed env (n + 1 < ·)) (finshParserRun env (fuel + 2)) (fun _ _ => True)
      (start vars h) := wp_finshParserRun hline.ends (.inr (by omega))
  have hreads : Wp (Wanting (n + 1)) (finshParserRun env (fuel + 2))
      (fun _ s' => s'.errno = none) (start vars h) :=
    wp_finshParserRun_reads hline hpos he hhandled hspells
  cases hrun : finshParserRun env (fuel + 2) (start vars h) with
  | ok root s' => exact ⟨fuel + 2, root, s', hrun, hreads.of_ok hrun⟩
  | error stop s' =>
    obtain ⟨rfl, hindex⟩ := hreads.of_error hrun
    exact absurd ((hends.of_error hrun).fuel rfl) (Nat.not_lt.mpr hindex)

/-! ## The grammar -/

/-- A line is accepted exactly if it is one of the grammar, and the tree is that of a derivation. -/
def AcceptsGrammar (symbols : Symbols H) (vars : List Var) (h : H) (line : List Char) (n : Nat) :
    Prop :=
  ((∃ root s, Accepts symbols vars h line root s) ↔
    Derived (symbols.env line) n Expr.InGrammar) ∧
  ∀ root s, Accepts symbols vars h line root s → n = 0 ∧ root = .null ∨
    ∃ e, (e.Formed ∧ e.rank ≤ 10) ∧ Spells (symbols.env line) e 0 n ∧
      root = (build (symbols.env line) vars e h).1

variable {symbols : Symbols H} {line : List Char}

theorem accepts_iff (hline : ExpressionLine (symbols.env line) n) (vars : List Var) (h : H) :
    (∃ root s, Accepts symbols vars h line root s) ↔
      TypeAt (symbols.env line) 0 .bad ∨
        Derived (symbols.env line) n (Handled (symbols.env line) vars) := by
  constructor
  · rintro ⟨root, s, ⟨fuel, hrun⟩, herr⟩
    rcases (wp_finshParserRun_understood hline fuel).of_ok hrun herr with
      hbad | ⟨hn, -⟩ | ⟨e, he, hhandled, hspells, -⟩
    · exact .inl hbad
    · exact .inr (.inl hn)
    · exact .inr (.inr ⟨e, he, hhandled, hspells⟩)
  · intro hread
    have hrun : ∃ fuel root s', finshParserRun (symbols.env line) fuel (start vars h) =
        .ok root s' ∧ s'.errno = none := by
      rcases hread with hbad | hn | ⟨e, he, hhandled, hspells⟩
      · exact exists_run_null hline vars h (.inl hbad)
      · exact exists_run_null hline vars h (.inr hn)
      · by_cases hn : n = 0
        · exact exists_run_null hline vars h (.inr hn)
        · exact exists_run_expr hline (Nat.pos_of_ne_zero hn) he hhandled hspells h
    obtain ⟨fuel, root, s', hrun, herr⟩ := hrun
    exact ⟨root, s', ⟨fuel, hrun⟩, herr⟩

/-- No token of an expression, and no semicolon. -/
theorem ExpressionLine.not_derived_of_bad {env : Env H} (hline : ExpressionLine env n)
    (hbad : TypeAt env 0 .bad) (P : Expr → Prop) : ¬ Derived env n P := by
  rintro (rfl | ⟨e, ⟨hformed, -⟩, -, hspells⟩)
  · cases hbad.unique hline.semicolon
  · by_cases hn : n = 0
    · subst hn
      cases hbad.unique hline.semicolon
    · obtain ⟨t, ht, hexpr⟩ :=
        hspells.inside hformed 0 (Nat.le_refl 0) (Nat.pos_of_ne_zero hn)
      rw [ht.unique hbad] at hexpr
      cases hexpr

/-- A line is treated as the grammar says exactly if it does not begin with a bad token, and what
the parser reads of it and what is in the grammar of it are the same. -/
theorem acceptsGrammar_iff (symbols : Symbols H) (vars : List Var) (h : H) (line : List Char)
    (n : Nat) (hline : ExpressionLine (symbols.env line) n) :
    AcceptsGrammar symbols vars h line n ↔
      ¬ TypeAt (symbols.env line) 0 .bad ∧
        (Derived (symbols.env line) n (Handled (symbols.env line) vars) ↔
          Derived (symbols.env line) n Expr.InGrammar) := by
  unfold AcceptsGrammar
  rw [accepts_iff hline]
  constructor
  · rintro ⟨hsame, -⟩
    have hbad : ¬ TypeAt (symbols.env line) 0 .bad := fun hbad =>
      hline.not_derived_of_bad hbad _ (hsame.mp (.inl hbad))
    exact ⟨hbad, by rwa [or_iff_right hbad] at hsame⟩
  · rintro ⟨hbad, hsame⟩
    refine ⟨by rwa [or_iff_right hbad], fun root s haccepts => ?_⟩
    obtain ⟨⟨fuel, hrun⟩, herr⟩ := haccepts
    rcases (wp_finshParserRun_understood hline fuel).of_ok hrun herr with
      hbad' | hnull | ⟨e, ⟨hformed, hrank, -⟩, -, hspells, hroot⟩
    · exact absurd hbad' hbad
    · exact .inl hnull
    · exact .inr ⟨e, ⟨hformed, hrank⟩, hspells, hroot⟩

end

def sumLine : List Char := "1+2;".toList

def number (value : BitVec 32) : Token := ⟨.valueInt, value, [], none⟩

/-- One plus two. -/
theorem acceptsGrammar_sum : AcceptsGrammar nullSymbols [] () sumLine 3 := by
  have hone : tokenAt sumLine 0 = some (number 1) := by decide +kernel
  have hadd : TypeAt (nullSymbols.env sumLine) 1 .add :=
    ⟨⟨.add, 1, [], none⟩, by decide +kernel, rfl, rfl⟩
  have htwo : tokenAt sumLine 2 = some (number 2) := by decide +kernel
  have hline : ExpressionLine (nullSymbols.env sumLine) 3 :=
    { inside := by
        intro i hi
        obtain rfl | rfl | rfl : i = 0 ∨ i = 1 ∨ i = 2 := by omega
        · exact ⟨_, hone, by decide, by decide⟩
        · obtain ⟨t, ht, -, htype⟩ := hadd
          exact ⟨t, ht, by simp [htype], by simp [htype]⟩
        · exact ⟨_, htwo, by decide, by decide⟩
      first := by
        intro t ht
        obtain rfl := Option.some.inj (hone.symm.trans ht)
        rfl
      semicolon := ⟨⟨.semicolon, 2, [], none⟩, by decide +kernel, rfl, rfl⟩
      eof := ⟨⟨.eof, 2, [], none⟩, by decide +kernel, rfl, rfl⟩ }
  have hderived : ∀ P : Expr → Prop,
      P (.bin 2 (.add, .add) (.leaf (number 1)) (.leaf (number 2))) →
        Derived (nullSymbols.env sumLine) 3 P := fun P hP =>
    .inr ⟨_, by simp [Expr.Formed, Expr.rank, Expr.size, levelOps, isLeaf, number, finshNodeMax],
      hP, 1, ⟨⟨hone, rfl⟩, rfl⟩, hadd, ⟨htwo, rfl⟩, rfl⟩
  refine (acceptsGrammar_iff nullSymbols [] () sumLine 3 hline).mpr ⟨fun hbad => ?_,
    iff_of_true (hderived _ ?_) (hderived _ ⟨trivial, trivial⟩)⟩
  · obtain ⟨t, ht, -, htype⟩ := hbad
    obtain rfl := Option.some.inj (hone.symm.trans ht)
    cases htype
  · exact ⟨fun htype => (by cases htype), fun htype => (by cases htype)⟩

def parenLine : List Char := "(1);".toList

/-- A number in parentheses is an expression, and the parser takes the number for the type of a
cast. -/
theorem parenthesis_not_accepted :
    ¬ ∀ (symbols : Symbols Unit) (vars : List Var) (line : List Char) (n : Nat),
      ExpressionLine (symbols.env line) n → AcceptsGrammar symbols vars () line n := by
  intro hall
  have hleft : TypeAt (nullSymbols.env parenLine) 0 .leftParen :=
    ⟨⟨.leftParen, 0, [], none⟩, by decide +kernel, rfl, rfl⟩
  have hone : tokenAt parenLine 1 = some (number 1) := by decide +kernel
  have hright : TypeAt (nullSymbols.env parenLine) 2 .rightParen :=
    ⟨⟨.rightParen, 1, [], none⟩, by decide +kernel, rfl, rfl⟩
  have hline : ExpressionLine (nullSymbols.env parenLine) 3 :=
    { inside := by
        intro i hi
        obtain rfl | rfl | rfl : i = 0 ∨ i = 1 ∨ i = 2 := by omega
        · obtain ⟨t, ht, -, htype⟩ := hleft
          exact ⟨t, ht, by simp [htype], by simp [htype]⟩
        · exact ⟨_, hone, by decide, by decide⟩
        · obtain ⟨t, ht, -, htype⟩ := hright
          exact ⟨t, ht, by simp [htype], by simp [htype]⟩
      first := by
        intro t ht
        obtain ⟨t', ht', -, htype⟩ := hleft
        obtain rfl := Option.some.inj (ht'.symm.trans ht)
        rw [htype]
        rfl
      semicolon := ⟨⟨.semicolon, 1, [], none⟩, by decide +kernel, rfl, rfl⟩
      eof := ⟨⟨.eof, 1, [], none⟩, by decide +kernel, rfl, rfl⟩ }
  have hderived : Derived (nullSymbols.env parenLine) 3 Expr.InGrammar :=
    .inr ⟨.paren (.leaf (number 1)),
      by simp [Expr.Formed, Expr.rank, Expr.size, isLeaf, number, finshNodeMax], trivial,
      2, hleft, ⟨⟨hone, rfl⟩, rfl⟩, hright, rfl⟩
  obtain ⟨root, s, haccepts⟩ := (hall nullSymbols [] parenLine 3 hline).1.mpr hderived
  rcases (accepts_iff hline [] ()).mp ⟨root, s, haccepts⟩ with hbad | hthree | ⟨e, he, hh, hs⟩
  · cases hbad.unique hleft
  · cases hthree
  · obtain ⟨hformed, hrank, -⟩ := he
    obtain ⟨t, ht, hleaf | hpre | ⟨-, t', ht', htype⟩⟩ :=
      hs.head hformed hh (Expr.ne_noParam hrank (Nat.le_refl 10))
    · rw [ht.unique hleft] at hleaf
      cases hleaf
    · rw [ht.unique hleft] at hpre
      cases hpre
    · obtain ⟨token, htoken, -, rfl⟩ := ht'
      obtain rfl := Option.some.inj (hone.symm.trans htoken)
      simp [number, baseType] at htype

end ControlRTT.Components.FinshAccepts
