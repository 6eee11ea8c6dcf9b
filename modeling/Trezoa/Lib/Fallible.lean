import Mathlib

/-!
# Programs that can fail

Rules for programs in `Except`: how a result of a sequence or a loop comes about.

* `lt_length`, `index_unique`: a lookup that returns is within the list.
-/

namespace Trezoa.Lib

variable {ε α β : Type}

/-- A sequence that returns went through both steps. -/
lemma bind_eq_ok {x : Except ε α} {f : α → Except ε β} {b : β} :
    (x >>= f) = .ok b ↔ ∃ a, x = .ok a ∧ f a = .ok b := by
  cases x with
  | error e => simp [bind, Except.bind]
  | ok a => simp [bind, Except.bind]

/-- A sequence that fails does so in one of the steps. -/
lemma bind_eq_error {x : Except ε α} {f : α → Except ε β} {e : ε} :
    (x >>= f) = .error e ↔ x = .error e ∨ ∃ a, x = .ok a ∧ f a = .error e := by
  cases x with
  | error e' => simp [bind, Except.bind]
  | ok a => simp [bind, Except.bind]

/-- A mapped result comes from a result. -/
lemma map_eq_ok {x : Except ε α} {f : α → β} {b : β} :
    x.map f = .ok b ↔ ∃ a, x = .ok a ∧ f a = b := by
  cases x with
  | error e => simp [Except.map]
  | ok a => simp [Except.map]

variable {f : β → α → Except ε β} {a : α} {l : List α} {b b' : β}

lemma lt_length {i : ℕ} (h : l[i]? = some a) : i < l.length := (List.getElem?_eq_some_iff.mp h).1

lemma index_unique {i j : ℕ} (h : l.Nodup) (hi : l[i]? = some a) (hj : l[j]? = some a) : i = j :=
  (List.getElem?_inj (lt_length hi) h).mp (hi.trans hj.symm)

/-- A loop that returns went through its first round. -/
lemma foldlM_cons_eq_ok :
    (a :: l).foldlM f b = .ok b' ↔ ∃ b₁, f b a = .ok b₁ ∧ l.foldlM f b₁ = .ok b' := by
  rw [List.foldlM_cons]
  exact bind_eq_ok

/-- An invariant of the body is an invariant of the loop. -/
theorem foldlM_invariant (I : β → Prop) (hf : ∀ b, I b → ∀ a ∈ l, ∀ b', f b a = .ok b' → I b')
    (hb : I b) (h : l.foldlM f b = .ok b') : I b' := by
  induction l generalizing b with
  | nil =>
    cases h
    exact hb
  | cons a l ih =>
    obtain ⟨b₁, hb₁, h⟩ := foldlM_cons_eq_ok.mp h
    refine ih (fun b hb a ha => hf b hb a (.tail _ ha)) ?_ h
    exact hf b hb a (.head _) b₁ hb₁

/-- A body that returns wherever an invariant holds makes a loop that returns. -/
theorem foldlM_returns (I : β → Prop) (hf : ∀ b, I b → ∀ a ∈ l, ∃ b', f b a = .ok b' ∧ I b')
    (hb : I b) : ∃ b', l.foldlM f b = .ok b' ∧ I b' := by
  induction l generalizing b with
  | nil => exact ⟨b, rfl, hb⟩
  | cons a l ih =>
    obtain ⟨b₁, hb₁, hI⟩ := hf b hb a (.head _)
    obtain ⟨b', h, hI'⟩ := ih (fun b hb a ha => hf b hb a (.tail _ ha)) hI
    exact ⟨b', foldlM_cons_eq_ok.mpr ⟨b₁, hb₁, h⟩, hI'⟩

/-- An invariant that speaks of the elements so far. -/
theorem foldlM_prefixes (I : List α → β → Prop)
    (hf : ∀ done a rest b b', l = done ++ a :: rest → I done b → f b a = .ok b' →
    I (done ++ [a]) b')
    (hb : I [] b) (h : l.foldlM f b = .ok b') : I l b' := by
  induction l generalizing I b with
  | nil =>
    cases h
    exact hb
  | cons a l ih =>
    obtain ⟨b₁, hb₁, h⟩ := foldlM_cons_eq_ok.mp h
    refine ih (fun done => I (a :: done)) (fun done a' rest b b' hl => ?_) ?_ h
    · exact hf (a :: done) a' rest b b' (by rw [hl, List.cons_append])
    · exact hf [] a l b b₁ rfl hb hb₁

/-- An error that the body does not raise where an invariant holds is not raised by the loop. -/
theorem foldlM_ne_error (I : β → Prop) {e : ε} (hne : ∀ b, I b → ∀ a ∈ l, f b a ≠ .error e)
    (hf : ∀ b, I b → ∀ a ∈ l, ∀ b', f b a = .ok b' → I b') (hb : I b) :
    l.foldlM f b ≠ .error e := by
  induction l generalizing b with
  | nil => exact fun h => by cases h
  | cons a l ih =>
    intro h
    rw [List.foldlM_cons] at h
    cases hfirst : f b a with
    | error e' =>
      rw [hfirst] at h
      cases h
      exact hne b hb a (.head _) hfirst
    | ok b' =>
      rw [hfirst] at h
      exact ih (fun b hb a ha => hne b hb a (.tail _ ha))
        (fun b hb a ha => hf b hb a (.tail _ ha))
        (hf b hb a (.head _) b' hfirst) h

/-- A loop whose body changes nothing. -/
lemma foldlM_of_fixed (h : ∀ a ∈ l, f b a = .ok b) : l.foldlM f b = .ok b := by
  induction l with
  | nil => rfl
  | cons a l ih => exact foldlM_cons_eq_ok.mpr ⟨b, h a (.head _), ih fun a ha => h a (.tail _ ha)⟩

/-- A loop over a list whose body returns for every element returns their results in order. -/
theorem mapM_returns {g : α → Except ε β} (R : α → β → Prop)
    (h : ∀ a ∈ l, ∃ b, g a = .ok b ∧ R a b) :
    ∃ bs, l.mapM g = .ok bs ∧ List.Forall₂ R l bs := by
  induction l with
  | nil => exact ⟨[], rfl, .nil⟩
  | cons a l ih =>
    obtain ⟨b, hb, hR⟩ := h a (.head _)
    obtain ⟨bs, hbs, hRs⟩ := ih fun a ha => h a (.tail _ ha)
    exact ⟨b :: bs, by simp [List.mapM_cons, hb, hbs, bind, Except.bind, pure, Except.pure],
      .cons hR hRs⟩

end Trezoa.Lib
