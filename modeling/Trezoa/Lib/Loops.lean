import Mathlib

/-!
# Loops and folds

Rules for the `for` loops of programs with a state and errors, `ExceptT ε (StateM σ)`, in terms of
an abstraction `abs : σ → κ` of the state. `E` is what is known of a state in which the program has
stopped with an error.

* `forIn_foldl`: where the body computes `g` on the abstract state, the loop computes the fold of
  `g` over its list.
-/

namespace Trezoa.Lib

open Std.Do

set_option mvcgen.warning false

variable {σ ε κ α β : Type}

section loops
variable (abs : σ → κ) (E : ε → σ → Prop) (f : α → ExceptT ε (StateM σ) β)

/-- A loop whose body computes `g` on the abstract state computes the fold of `g`. `P l k` is what
the body may assume of the abstract state `k` with the elements `l` still to come. -/
theorem forIn_foldl (P : List α → κ → Prop) (g : κ → α → κ)
    (hf : ∀ x l k, P (x :: l) k →
      ⦃fun s => ⌜abs s = k⌝⦄ f x ⦃post⟨fun _ s => ⌜abs s = g k x⌝, fun e s => ⌜E e s⌝⟩⦄)
    (hP : ∀ x l k, P (x :: l) k → P l (g k x)) (l : List α) (k : κ) (hk : P l k) :
    ⦃fun s => ⌜abs s = k⌝⦄
    (forIn l PUnit.unit fun x _ => do
      let _ ← f x
      pure (.yield PUnit.unit))
    ⦃post⟨fun _ s => ⌜abs s = l.foldl g k⌝, fun e s => ⌜E e s⌝⟩⦄ := by
  induction l generalizing k with
  | nil =>
    simp only [List.forIn_nil]
    mvcgen
  | cons x l ih =>
    have hx := hf x l k hk
    have hl := ih (g k x) (hP x l k hk)
    simp only [List.forIn_cons]
    mvcgen [hx, hl, -Spec.forIn_list]

/-- An invariant of the body is an invariant of the loop. -/
theorem forIn_invariant (I : κ → Prop) (l : List α)
    (hf : ∀ x ∈ l, ⦃fun s => ⌜I (abs s)⌝⦄ f x ⦃post⟨fun _ s => ⌜I (abs s)⌝, fun e s => ⌜E e s⌝⟩⦄) :
    ⦃fun s => ⌜I (abs s)⌝⦄
    (forIn l PUnit.unit fun x _ => do
      let _ ← f x
      pure (.yield PUnit.unit))
    ⦃post⟨fun _ s => ⌜I (abs s)⌝, fun e s => ⌜E e s⌝⟩⦄ := by
  induction l with
  | nil =>
    simp only [List.forIn_nil]
    mvcgen
  | cons x l ih =>
    have hx := hf x (.head _)
    have hl := ih fun y hy => hf y (.tail _ hy)
    simp only [List.forIn_cons]
    mvcgen [hx, hl, -Spec.forIn_list]

end loops

section runs
variable {P : σ → Prop} {m : ExceptT ε (StateM σ) α} {Q : α → σ → Prop} {E : ε → σ → Prop}

/-- A run that returns fulfils the postcondition. -/
theorem run_ok (h : ⦃fun s => ⌜P s⌝⦄ m ⦃post⟨fun a s => ⌜Q a s⌝, fun e s => ⌜E e s⌝⟩⦄) {s s' : σ}
    {a : α} (hs : P s) (hrun : m.run.run s = (.ok a, s')) : Q a s' := by
  have hwp := h s hs
  simp [wp, hrun] at hwp
  exact hwp

/-- A run that stops with an error fulfils the condition on errors. -/
theorem run_error (h : ⦃fun s => ⌜P s⌝⦄ m ⦃post⟨fun a s => ⌜Q a s⌝, fun e s => ⌜E e s⌝⟩⦄)
    {s s' : σ} {e : ε} (hs : P s) (hrun : m.run.run s = (.error e, s')) : E e s' := by
  have hwp := h s hs
  simp [wp, hrun] at hwp
  exact hwp

/-- A program that cannot stop with an error and has only one result returns it. -/
theorem run_eq {s s' : σ} {a : α}
    (h : ⦃fun t => ⌜t = s⌝⦄ m ⦃post⟨fun b t => ⌜b = a ∧ t = s'⌝, fun _ _ => ⌜False⌝⟩⦄) :
    m.run.run s = (.ok a, s') := by
  rcases hrun : m.run.run s with ⟨result, t⟩
  cases result with
  | ok b =>
    obtain ⟨rfl, rfl⟩ := run_ok h rfl hrun
    rfl
  | error e => exact (run_error h rfl hrun).elim

end runs
end Trezoa.Lib
