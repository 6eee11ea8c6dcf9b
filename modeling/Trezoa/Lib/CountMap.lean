import Trezoa.Lib.OrdMap

/-!
# Counters in a map

A map that counts occurrences of keys: a key without an entry counts zero, and the entry of a key
whose count drops to zero is removed.

* `count_increment`, `decrement_of_pos`: the counters after a step up or down.
-/

namespace Trezoa.Lib.CountMap

variable {κ : Type} [Ord κ]

/-- The count of a key. -/
def count (m : OrdMap κ ℕ) (k : κ) : ℕ := m[k]?.getD 0

/-- Count a key once more. -/
def increment (m : OrdMap κ ℕ) (k : κ) : OrdMap κ ℕ := m.insert k (m[k]?.getD 0 + 1)

/-- Count a key once less, and remove its entry at zero. There is no result for a key that does not
count. -/
def decrement (m : OrdMap κ ℕ) (k : κ) : Option (OrdMap κ ℕ) :=
  match m[k]? with
  | none | some 0 => none
  | some (n + 1) => some (if n = 0 then m.erase k else m.insert k n)

/-- No entry is zero. -/
def Positive (m : OrdMap κ ℕ) : Prop := ∀ (k : κ) (n : ℕ), m[k]? = some n → 0 < n

variable [Std.TransOrd κ] {m m' : OrdMap κ ℕ} {k k' : κ}

lemma count_empty : count (∅ : OrdMap κ ℕ) k = 0 := by
  simp [count]

lemma positive_empty : Positive (∅ : OrdMap κ ℕ) := by
  simp [Positive]

/-- A map without counts is empty. -/
theorem isEmpty_of_count_eq_zero (hpositive : Positive m) (h : ∀ k, count m k = 0) : m.isEmpty := by
  rw [Std.TreeMap.isEmpty_iff_forall_not_mem]
  intro k hk
  rw [Std.TreeMap.mem_iff_isSome_getElem?] at hk
  obtain ⟨n, hn⟩ := Option.isSome_iff_exists.mp hk
  have hzero := h k
  rw [count, hn, Option.getD_some] at hzero
  exact (hpositive k n hn).ne' hzero

variable [Std.LawfulEqOrd κ] [DecidableEq κ]

lemma count_increment : count (increment m k) k' = count m k' + if k = k' then 1 else 0 := by
  unfold count increment
  rw [OrdMap.getElem?_insert]
  split
  · next heq => rw [heq, Option.getD_some]
  · rfl

lemma Positive.increment (h : Positive m) : Positive (increment m k) := by
  intro k' n hn
  rw [CountMap.increment, OrdMap.getElem?_insert] at hn
  split at hn
  · cases hn
    exact Nat.succ_pos _
  · exact h k' n hn

/-- A key that counts can be counted down. -/
theorem decrement_of_pos (hpositive : Positive m) (hk : 0 < count m k) :
    ∃ m', decrement m k = some m' ∧ Positive m' ∧
      ∀ k', count m k' = count m' k' + if k = k' then 1 else 0 := by
  unfold count at hk
  unfold decrement
  cases hget : m[k]? with
  | none => simp [hget] at hk
  | some c =>
    obtain ⟨n, rfl⟩ : ∃ n, c = n + 1 := Nat.exists_eq_add_one.mpr (hpositive k c hget)
    refine ⟨_, rfl, ?_, fun k' => ?_⟩
    · intro k' c' hc'
      rw [OrdMap.getElem?_eraseOrInsert] at hc'
      split_ifs at hc' with _ hn
      · cases hc'
        exact Nat.pos_of_ne_zero hn
      · exact hpositive k' c' hc'
    rw [count, count, OrdMap.getElem?_eraseOrInsert]
    split_ifs with heq hn
    · rw [← heq, hget, hn]
      rfl
    · rw [← heq, hget]
      rfl
    · rfl

end Trezoa.Lib.CountMap
