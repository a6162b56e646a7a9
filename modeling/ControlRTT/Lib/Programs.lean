import Mathlib.Logic.Basic

/-! # Programs with a state that may stop

`EStateM ε σ α` as the programs, and what holds of the value and the state they end with
(`Wp`). What is to hold where a program stops is fixed by `E`, so that a chain of calls has one
rule for its sequence (`wp_bind`) whatever the calls may stop with. `Spec` is the same for a
relation between the states before and after, with no word of the state a call starts in. -/
namespace ControlRTT.Lib.Programs

variable {ε σ α β : Type} {E : ε → σ → Prop} {m : EStateM ε σ α} {k : α → EStateM ε σ β}
  {Q Q' : α → σ → Prop} {R : β → σ → Prop} {s : σ}

/-- A program that starts in `s` ends with `Q`, or stops with `E`. -/
def Wp (E : ε → σ → Prop) (m : EStateM ε σ α) (Q : α → σ → Prop) (s : σ) : Prop :=
  match m s with
  | .ok a s' => Q a s'
  | .error e s' => E e s'

theorem Wp.mono (h : Wp E m Q s) (hQ : ∀ a s', Q a s' → Q' a s') : Wp E m Q' s := by
  unfold Wp at h ⊢
  split
  · rename_i a s' heq
    rw [heq] at h
    exact hQ a s' h
  · rename_i e s' heq
    rw [heq] at h
    exact h

theorem Wp.mono_and {P : α → σ → Prop} (h : Wp E m (fun a s' => P a s' ∧ Q a s') s)
    (hQ : ∀ a s', P a s' → Q a s' → Q' a s') : Wp E m Q' s :=
  h.mono fun a s' hboth => hQ a s' hboth.1 hboth.2

theorem Wp.weaken {E' : ε → σ → Prop} (h : Wp E m Q s) (hE : ∀ e s', E e s' → E' e s')
    (hQ : ∀ a s', Q a s' → Q' a s') : Wp E' m Q' s := by
  unfold Wp at h ⊢
  split
  · rename_i a s' heq
    rw [heq] at h
    exact hQ a s' h
  · rename_i e s' heq
    rw [heq] at h
    exact hE e s' h

theorem Wp.of_ok {a : α} {s' : σ} (h : Wp E m Q s) (hm : m s = .ok a s') : Q a s' := by
  unfold Wp at h
  rw [hm] at h
  exact h

theorem Wp.of_error {e : ε} {s' : σ} (h : Wp E m Q s) (hm : m s = .error e s') : E e s' := by
  unfold Wp at h
  rw [hm] at h
  exact h

theorem wp_pure {a : α} (h : Q a s) : Wp E (pure a) Q s := h

theorem wp_bind (h : Wp E m (fun a s' => Wp E (k a) R s') s) : Wp E (m >>= k) R s := by
  change match EStateM.bind m k s with
    | .ok a s' => R a s'
    | .error e s' => E e s'
  unfold Wp at h
  unfold EStateM.bind
  split at h
  · rename_i a s' heq
    rw [heq]
    exact h
  · rename_i e s' heq
    rw [heq]
    exact h

/-- The rule for a call whose spec is known. -/
theorem Wp.bind (h : Wp E m Q s) (hk : ∀ a s', Q a s' → Wp E (k a) R s') : Wp E (m >>= k) R s :=
  wp_bind (h.mono hk)

/-- Of what holds of the value and the state there are two parts. -/
theorem Wp.bind_and {P : α → σ → Prop} (h : Wp E m (fun a s' => P a s' ∧ Q a s') s)
    (hk : ∀ a s', P a s' → Q a s' → Wp E (k a) R s') : Wp E (m >>= k) R s :=
  h.bind fun a s' hboth => hk a s' hboth.1 hboth.2

theorem wp_get {Q : σ → σ → Prop} (h : Q s s) : Wp E get Q s := h

theorem wp_set {s' : σ} {Q : PUnit → σ → Prop} (h : Q ⟨⟩ s') : Wp E (set s') Q s := h

theorem wp_modify {f : σ → σ} {Q : PUnit → σ → Prop} (h : Q ⟨⟩ (f s)) : Wp E (modify f) Q s := h

theorem wp_throw {e : ε} (h : E e s) : Wp E (throw e : EStateM ε σ α) Q s := h

theorem wp_ite {p : Prop} [Decidable p] {m' : EStateM ε σ α} (ht : p → Wp E m Q s)
    (hf : ¬ p → Wp E m' Q s) : Wp E (if p then m else m') Q s := by
  split
  · rename_i h
    exact ht h
  · rename_i h
    exact hf h

end ControlRTT.Lib.Programs
