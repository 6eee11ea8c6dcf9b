import Trezoa.Lib.Fallible
import Trezoa.Lib.OrdMap

/-!
# Loops over distinct keys

A loop whose body changes the entry of one key of a map, over distinct keys: every entry is changed
once, from what it was before the loop.
-/

namespace Trezoa.Lib

variable {σ κ β ε : Type}

/-- A loop over distinct keys whose body takes the entry of a key from `P` to `Q` and leaves the
other entries as they are. -/
theorem foldlM_keys (entry : σ → κ → Option β) (step : σ → κ → Except ε σ) (I : σ → Prop)
    (P Q : κ → Option β → Prop) {l : List κ} {s : σ}
    (hstep : ∀ s k, I s → P k (entry s k) → ∃ s', step s k = .ok s' ∧ I s' ∧ Q k (entry s' k)
      ∧ ∀ k' ≠ k, entry s' k' = entry s k')
    (hnodup : l.Nodup) (hs : I s) (hP : ∀ k ∈ l, P k (entry s k)) :
    ∃ s', l.foldlM step s = .ok s' ∧ I s' ∧ (∀ k ∈ l, Q k (entry s' k))
      ∧ ∀ k ∉ l, entry s' k = entry s k := by
  induction l generalizing s with
  | nil => exact ⟨s, rfl, hs, by simp, fun _ _ => rfl⟩
  | cons k l ih =>
    obtain ⟨hk, hnodup⟩ := List.nodup_cons.mp hnodup
    obtain ⟨s₁, hs₁, hI, hQ, hother⟩ := hstep s k hs (hP k (.head _))
    obtain ⟨s', hs', hI', hQ', hother'⟩ := ih hnodup hI fun k' hk' => by
      rw [hother k' (fun heq => hk (heq ▸ hk'))]
      exact hP k' (.tail _ hk')
    refine ⟨s', foldlM_cons_eq_ok.mpr ⟨s₁, hs₁, hs'⟩, hI', fun k' hk' => ?_, fun k' hk' => ?_⟩
    · rcases List.mem_cons.mp hk' with rfl | hk'
      · rw [hother' k' hk]
        exact hQ
      · exact hQ' k' hk'
    · rw [List.mem_cons, not_or] at hk'
      rw [hother' k' hk'.2, hother k' hk'.1]

end Trezoa.Lib
