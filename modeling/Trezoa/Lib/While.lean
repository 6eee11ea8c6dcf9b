import Mathlib

/-!
# While loops

A loop whose rounds can fail. A round returns the next state, or nothing when the loop is over. The
loop has a bound on its rounds, and reaching it is an error of its own.
-/

namespace Trezoa.Lib

variable {σ ε : Type}

/-- Repeat `round` until it returns nothing. -/
def whileLoop (round : σ → Except ε (Option σ)) (outOfFuel : ε) : ℕ → σ → Except ε σ
  | 0, _ => .error outOfFuel
  | fuel + 1, s =>
    match round s with
    | .error e => .error e
    | .ok none => .ok s
    | .ok (some s') => whileLoop round outOfFuel fuel s'

variable {round : σ → Except ε (Option σ)} {outOfFuel e : ε} {fuel : ℕ} {s s' : σ}

/-- A loop that returns keeps its invariants, and is over. -/
theorem whileLoop_ok (I : σ → Prop) (hround : ∀ s s', I s → round s = .ok (some s') → I s')
    (hs : I s) (h : whileLoop round outOfFuel fuel s = .ok s') : I s' ∧ round s' = .ok none := by
  induction fuel generalizing s with
  | zero => cases h
  | succ fuel ih =>
    rw [whileLoop] at h
    split at h
    · cases h
    · next hover =>
      cases h
      exact ⟨hs, hover⟩
    · next s₁ hs₁ => exact ih (hround s s₁ hs hs₁) h

section
variable (I : σ → Prop) (measure : σ → ℕ)
  (hround : ∀ s s', I s → round s = .ok (some s') → I s' ∧ measure s' < measure s)
include I measure hround

/-- With enough fuel, an error of a loop is one of a round. -/
theorem whileLoop_error (hs : I s) (hfuel : measure s < fuel)
    (h : whileLoop round outOfFuel fuel s = .error e) : ∃ s', I s' ∧ round s' = .error e := by
  induction fuel generalizing s with
  | zero => exact absurd hfuel (Nat.not_lt_zero _)
  | succ fuel ih =>
    rw [whileLoop] at h
    split at h
    · next herror =>
      cases h
      exact ⟨s, hs, herror⟩
    · cases h
    · next s₁ hs₁ =>
      obtain ⟨hI, hlt⟩ := hround s s₁ hs hs₁
      exact ih hI (hlt.trans_le (Nat.le_of_lt_succ hfuel)) h

/-- With enough fuel, a loop whose rounds do not fail returns. -/
theorem whileLoop_returns (hok : ∀ s e, I s → round s ≠ .error e) (hs : I s)
    (hfuel : measure s < fuel) :
    ∃ s', whileLoop round outOfFuel fuel s = .ok s' ∧ I s' ∧ round s' = .ok none := by
  cases h : whileLoop round outOfFuel fuel s with
  | ok s' => exact ⟨s', rfl, whileLoop_ok I (fun s s' hI hs' => (hround s s' hI hs').1) hs h⟩
  | error e =>
    obtain ⟨s', hI, herror⟩ := whileLoop_error I measure hround hs hfuel h
    exact absurd herror (hok s' e hI)

end
end Trezoa.Lib
