/-! # Runs of a partial step function

A system whose events are not always possible: `step s e` is `none` when `e`
cannot happen in `s`. `run` takes a list of events, `Throughout` says something of
every state a run goes through, and `Along` says something of every step it takes.
A property that each good step keeps and each bad step breaks at once holds
throughout a run exactly if every step of the run is good. -/
namespace ControlRTT.Lib.Runs

variable {σ ε : Type} (step : σ → ε → Option σ)

/-- The state after a list of events, if all of them can happen. -/
def run (s : σ) : List ε → Option σ
  | [] => some s
  | e :: es => (step s e).bind fun s' => run s' es

/-- `I` holds in every state the run goes through, the first and the last included. -/
def Throughout (I : σ → Prop) (s : σ) : List ε → Prop
  | [] => I s
  | e :: es => I s ∧ ∀ s', step s e = some s' → Throughout I s' es

/-- `P` holds of every step the run takes, in the state the step starts from. -/
def Along (P : σ → ε → Prop) (s : σ) : List ε → Prop
  | [] => True
  | e :: es => ∀ s', step s e = some s' → P s e ∧ Along P s' es

/-- `P` holds of every event the run comes to, in the state it comes to it in, also of one that
is not possible there. -/
def AtEach (P : σ → ε → Prop) (s : σ) : List ε → Prop
  | [] => True
  | e :: es => P s e ∧ ∀ s', step s e = some s' → AtEach P s' es

@[simp] theorem run_nil (s : σ) : run step s [] = some s := rfl

@[simp] theorem run_cons (s : σ) (e : ε) (es : List ε) :
    run step s (e :: es) = (step s e).bind fun s' => run step s' es := rfl

theorem run_append (s : σ) (xs ys : List ε) :
    run step s (xs ++ ys) = (run step s xs).bind fun s' => run step s' ys := by
  induction xs generalizing s with
  | nil => rfl
  | cons e es ih =>
    simp only [List.cons_append, run_cons, Option.bind_assoc]
    congr 1
    exact funext fun s' => ih s'

variable {step}

/-- An event that comes again and again, and takes the run one further each time. -/
theorem exists_run_replicate {J : Nat → σ → Prop} {e : ε} {n : Nat}
    (h : ∀ i < n, ∀ s, J i s → ∃ s', step s e = some s' ∧ J (i + 1) s') {s : σ} (hs : J 0 s) :
    ∃ t, run step s (List.replicate n e) = some t ∧ J n t := by
  induction n with
  | zero => exact ⟨s, rfl, hs⟩
  | succ n ih =>
    obtain ⟨t, hrun, ht⟩ := ih fun i hi => h i (Nat.lt_succ_of_lt hi)
    obtain ⟨t', hstep, ht'⟩ := h n (Nat.lt_succ_self n) t ht
    refine ⟨t', ?_, ht'⟩
    rw [List.replicate_succ', run_append, hrun, Option.bind_some, run_cons, hstep]
    rfl

/-- What every step keeps, every run keeps. -/
theorem run_invariant {J : σ → Prop} (keep : ∀ s e s', J s → step s e = some s' → J s')
    {s t : σ} (hs : J s) {es : List ε} (h : run step s es = some t) : J t := by
  induction es generalizing s with
  | nil => exact Option.some.inj h ▸ hs
  | cons e es ih =>
    obtain ⟨s', hstep, hrun⟩ := Option.bind_eq_some_iff.mp h
    exact ih (keep s e s' hs hstep) hrun

/-- What the good steps keep holds throughout a run of good steps. -/
theorem throughout_of_along {J I : σ → Prop} {P : σ → ε → Prop} (base : ∀ s, J s → I s)
    (keep : ∀ s e s', J s → P s e → step s e = some s' → J s') {s : σ} (hs : J s)
    {es : List ε} (h : Along step P s es) : Throughout step I s es := by
  induction es generalizing s with
  | nil => exact base s hs
  | cons e es ih =>
    refine ⟨base s hs, fun s' hstep => ?_⟩
    obtain ⟨hgood, hlater⟩ := h s' hstep
    exact ih (keep s e s' hs hgood hstep) hlater

/-- What a good step is known to do, every step of a run of good steps does. -/
theorem along_of_along {J : σ → Prop} {P Q : σ → ε → Prop}
    (keep : ∀ s e s', J s → P s e → step s e = some s' → J s')
    (gives : ∀ s e, J s → P s e → Q s e) {s : σ} (hs : J s) {es : List ε}
    (h : Along step P s es) : Along step Q s es := by
  induction es generalizing s with
  | nil => trivial
  | cons e es ih =>
    intro s' hstep
    obtain ⟨hgood, hlater⟩ := h s' hstep
    exact ⟨gives s e hs hgood, ih (keep s e s' hs hgood hstep) hlater⟩

/-- Two properties that say the same of each step from a state that the good steps keep, say the
same of a run. -/
theorem along_iff_along {J : σ → Prop} {P Q : σ → ε → Prop}
    (keep : ∀ s e s', J s → Q s e → step s e = some s' → J s')
    (same : ∀ s e s', J s → step s e = some s' → (P s e ↔ Q s e)) {s : σ} (hs : J s)
    (es : List ε) : Along step P s es ↔ Along step Q s es := by
  induction es generalizing s with
  | nil => exact Iff.rfl
  | cons e es ih =>
    refine forall₂_congr fun s' hstep => ?_
    have hiff := same s e s' hs hstep
    constructor
    · rintro ⟨hP, hlater⟩
      have hQ := hiff.mp hP
      exact ⟨hQ, (ih (keep s e s' hs hQ hstep)).mp hlater⟩
    · rintro ⟨hQ, hlater⟩
      exact ⟨hiff.mpr hQ, (ih (keep s e s' hs hQ hstep)).mpr hlater⟩

/-- Two systems that take the same events from related states, and say the same of each, say the
same of a run. -/
theorem along_iff_of_simulation {τ : Type} {step' : τ → ε → Option τ} {R : σ → τ → Prop}
    {P : σ → ε → Prop} {Q : τ → ε → Prop}
    (simulates : ∀ s t e, R s t → (step s e = none ∧ step' t e = none) ∨
      ∃ s' t', step s e = some s' ∧ step' t e = some t' ∧ (P s e ↔ Q t e) ∧ (Q t e → R s' t'))
    {s : σ} {t : τ} (h : R s t) (es : List ε) : Along step P s es ↔ Along step' Q t es := by
  induction es generalizing s t with
  | nil => exact Iff.rfl
  | cons e es ih =>
    unfold Along
    obtain ⟨hs, ht⟩ | ⟨s', t', hs, ht, hsame, hnext⟩ := simulates s t e h
    · rw [hs, ht]
      simp only [reduceCtorEq, false_implies, implies_true]
    · rw [hs, ht]
      simp only [Option.some.injEq, forall_eq']
      constructor
      · intro ⟨hP, hlater⟩
        have hQ := hsame.mp hP
        exact ⟨hQ, (ih (hnext hQ)).mp hlater⟩
      · intro ⟨hQ, hlater⟩
        exact ⟨hsame.mpr hQ, (ih (hnext hQ)).mpr hlater⟩

theorem throughout_of_keep {J I : σ → Prop} (base : ∀ s, J s → I s)
    (keep : ∀ s e s', J s → step s e = some s' → J s') {s : σ} (hs : J s) (es : List ε) :
    Throughout step I s es := by
  induction es generalizing s with
  | nil => exact base s hs
  | cons e es ih => exact ⟨base s hs, fun s' hstep => ih (keep s e s' hs hstep)⟩

theorem Throughout.head {I : σ → Prop} {s : σ} {es : List ε} (h : Throughout step I s es) :
    I s := by
  cases es with
  | nil => exact h
  | cons e es => exact h.1

theorem Throughout.last {I : σ → Prop} {s t : σ} {es : List ε} (h : Throughout step I s es)
    (hrun : run step s es = some t) : I t := by
  induction es generalizing s with
  | nil => exact Option.some.inj hrun ▸ h
  | cons e es ih =>
    obtain ⟨s', hstep, hrun⟩ := Option.bind_eq_some_iff.mp hrun
    exact ih (h.2 s' hstep) hrun

/-- If a bad step breaks the property at once, it holds throughout exactly the runs
without one. -/
theorem throughout_iff_along {J I : σ → Prop} {P : σ → ε → Prop} (base : ∀ s, J s → I s)
    (keep : ∀ s e s', J s → P s e → step s e = some s' → J s')
    (only : ∀ s e s', J s → step s e = some s' → I s' → P s e) {s : σ} (hs : J s)
    (es : List ε) : Throughout step I s es ↔ Along step P s es := by
  refine ⟨fun h => ?_, throughout_of_along base keep hs⟩
  induction es generalizing s with
  | nil => trivial
  | cons e es ih =>
    intro s' hstep
    have hlater := h.2 s' hstep
    have hgood := only s e s' hs hstep hlater.head
    exact ⟨hgood, ih (keep s e s' hs hgood hstep) hlater⟩

/-- The same in the runs that are known to be of another kind, too. -/
theorem throughout_iff_along_of_along {J I : σ → Prop} {P Q : σ → ε → Prop}
    (base : ∀ s, J s → I s)
    (keep : ∀ s e s', J s → Q s e → P s e → step s e = some s' → J s')
    (only : ∀ s e s', J s → Q s e → step s e = some s' → I s' → P s e) {s : σ} (hs : J s)
    {es : List ε} (hQ : Along step Q s es) : Throughout step I s es ↔ Along step P s es := by
  induction es generalizing s with
  | nil => exact ⟨fun _ => trivial, fun _ => base s hs⟩
  | cons e es ih =>
    constructor
    · intro h s' hstep
      obtain ⟨hq, hlater⟩ := hQ s' hstep
      have hp := only s e s' hs hq hstep (h.2 s' hstep).head
      exact ⟨hp, (ih (keep s e s' hs hq hp hstep) hlater).mp (h.2 s' hstep)⟩
    · intro h
      refine ⟨base s hs, fun s' hstep => ?_⟩
      obtain ⟨hq, hlater⟩ := hQ s' hstep
      obtain ⟨hp, hrest⟩ := h s' hstep
      exact (ih (keep s e s' hs hq hp hstep) hlater).mpr hrest

instance decidableAlong {P : σ → ε → Prop} [∀ s, DecidablePred (P s)] (s : σ) :
    (es : List ε) → Decidable (Along step P s es)
  | [] => isTrue trivial
  | e :: es =>
    match hstep : step s e with
    | none => isTrue fun _ h => absurd (hstep.symm.trans h) nofun
    | some t =>
      have : Decidable (Along step P t es) := decidableAlong t es
      decidable_of_iff (P s e ∧ Along step P t es)
        ⟨fun h _ hs => Option.some.inj (hstep.symm.trans hs) ▸ h, fun h => h t hstep⟩

theorem along_append {P : σ → ε → Prop} (s : σ) (xs ys : List ε) :
    Along step P s (xs ++ ys) ↔
      Along step P s xs ∧ ∀ t, run step s xs = some t → Along step P t ys := by
  induction xs generalizing s with
  | nil =>
    constructor
    · rintro h
      exact ⟨trivial, fun t ht => Option.some.inj ht ▸ h⟩
    · rintro ⟨-, h⟩
      exact h s rfl
  | cons e es ih =>
    constructor
    · intro h
      refine ⟨fun s' hstep => ?_, fun t ht => ?_⟩
      · obtain ⟨hP, hlater⟩ := h s' hstep
        exact ⟨hP, ((ih s').mp hlater).1⟩
      · obtain ⟨s', hstep, hrun⟩ := Option.bind_eq_some_iff.mp ht
        exact ((ih s').mp (h s' hstep).2).2 t hrun
    · rintro ⟨hfirst, hrest⟩ s' hstep
      obtain ⟨hP, hlater⟩ := hfirst s' hstep
      refine ⟨hP, (ih s').mpr ⟨hlater, fun t hrun => hrest t ?_⟩⟩
      exact Option.bind_eq_some_iff.mpr ⟨s', hstep, hrun⟩

theorem along_and {P Q : σ → ε → Prop} {s : σ} {es : List ε} (hP : Along step P s es)
    (hQ : Along step Q s es) : Along step (fun s e => P s e ∧ Q s e) s es := by
  induction es generalizing s with
  | nil => trivial
  | cons e es ih =>
    intro s' hstep
    obtain ⟨hp, hps⟩ := hP s' hstep
    obtain ⟨hq, hqs⟩ := hQ s' hstep
    exact ⟨⟨hp, hq⟩, ih hps hqs⟩

/-- Events that are always good make good runs. -/
theorem along_of_forall {P : σ → ε → Prop} {es : List ε} (h : ∀ e ∈ es, ∀ s, P s e) (s : σ) :
    Along step P s es := by
  induction es generalizing s with
  | nil => trivial
  | cons e es ih =>
    intro s' _
    exact ⟨h e List.mem_cons_self s, ih (fun e' he' => h e' (List.mem_cons_of_mem e he')) s'⟩

/-- What is the same in the states that the good events lead to is the same at each event. -/
theorem atEach_congr {J : σ → Prop} {P Q : σ → ε → Prop}
    (keep : ∀ s e s', J s → Q s e → step s e = some s' → J s')
    (same : ∀ s e, J s → (P s e ↔ Q s e)) {s : σ} (hs : J s) (es : List ε) :
    AtEach step P s es ↔ AtEach step Q s es := by
  induction es generalizing s with
  | nil => exact Iff.rfl
  | cons e es ih =>
    have hsame := same s e hs
    constructor
    · rintro ⟨hP, hlater⟩
      have hQ := hsame.mp hP
      exact ⟨hQ, fun s' hstep => (ih (keep s e s' hs hQ hstep)).mp (hlater s' hstep)⟩
    · rintro ⟨hQ, hlater⟩
      exact ⟨hsame.mpr hQ, fun s' hstep => (ih (keep s e s' hs hQ hstep)).mpr (hlater s' hstep)⟩

theorem AtEach.of_run {P : σ → ε → Prop} {s t : σ} {xs ys : List ε} {e : ε}
    (h : AtEach step P s (xs ++ e :: ys)) (hrun : run step s xs = some t) : P t e := by
  induction xs generalizing s with
  | nil => exact Option.some.inj hrun ▸ h.1
  | cons x xs ih =>
    obtain ⟨s', hstep, hrun⟩ := Option.bind_eq_some_iff.mp hrun
    exact ih (h.2 s' hstep) hrun

/-- `P` asks something of one event only. What it asks holds of that event wherever the run has
it, and wherever it could come next, exactly if every state on the way gives it. -/
theorem along_prefixes_iff {P : σ → ε → Prop} {e₀ : ε} (hP : ∀ s e, e ≠ e₀ → P s e) (s : σ)
    (es : List ε) : (∀ pre, pre <+: es → Along step P s (pre ++ [e₀])) ↔
      Throughout step (fun t => ∀ t', step t e₀ = some t' → P t e₀) s es := by
  have hnil : ∀ t, Along step P t [e₀] ↔ ∀ t', step t e₀ = some t' → P t e₀ := fun t =>
    forall₂_congr fun _ _ => and_iff_left trivial
  induction es generalizing s with
  | nil =>
    refine ⟨fun h => (hnil s).mp (h [] List.nil_prefix), fun h pre hpre => ?_⟩
    rw [List.prefix_nil.mp hpre]
    exact (hnil s).mpr h
  | cons e es ih =>
    constructor
    · intro h
      refine ⟨(hnil s).mp (h [] List.nil_prefix), fun s' hstep => (ih s').mp fun pre hpre => ?_⟩
      exact (h (e :: pre) (List.cons_prefix_cons.mpr ⟨rfl, hpre⟩) s' hstep).2
    · intro ⟨hhead, htail⟩ pre hpre
      cases pre with
      | nil => exact (hnil s).mpr hhead
      | cons e' pre =>
        obtain ⟨rfl, hrest⟩ := List.cons_prefix_cons.mp hpre
        intro s' hstep
        refine ⟨?_, (ih s').mpr (htail s' hstep) pre hrest⟩
        by_cases he : e' = e₀
        · subst he
          exact hhead s' hstep
        · exact hP s e' he

end ControlRTT.Lib.Runs
