import Trezoa.Lib.Fallible

/-!
# Buffers

Lists that are read and overwritten by positions, numbers as bytes, and lists cut into chunks.
-/

namespace Trezoa.Lib

open List

section buffers
variable {α : Type}

/-- The elements in `start..stop`. -/
def slice? (l : List α) (start stop : ℕ) : Option (List α) :=
  if start ≤ stop ∧ stop ≤ l.length then some ((l.take stop).drop start) else none

/-- Overwrites the elements from an offset on. -/
def copyAt? (l : List α) (offset : ℕ) (source : List α) : Option (List α) :=
  if offset + source.length ≤ l.length then
    some (l.take offset ++ source ++ l.drop (offset + source.length))
  else none

variable {before part after source : List α} {start stop offset : ℕ}

/-- The part in the middle. -/
theorem slice?_append (hstart : start = before.length)
    (hstop : stop = before.length + part.length) :
    slice? (before ++ part ++ after) start stop = some part := by
  subst hstart hstop
  have htake : (before ++ part ++ after).take (before.length + part.length) = before ++ part :=
    take_left' (by rw [length_append])
  rw [slice?, if_pos (by simp only [length_append]; omega), htake, drop_left]

/-- Overwriting the part in the middle. -/
theorem copyAt?_append (hoffset : offset = before.length) (hsource : source.length = part.length) :
    copyAt? (before ++ part ++ after) offset source = some (before ++ source ++ after) := by
  subst hoffset
  have hdrop : (before ++ part ++ after).drop (before.length + source.length) = after :=
    drop_left' (by rw [length_append, hsource])
  rw [copyAt?, if_pos (by simp only [length_append]; omega), hdrop, append_assoc before, take_left]

end buffers

/-! ## Numbers -/

/-- The bytes of a number, the least first. -/
def toLeBytes : ℕ → ℕ → List UInt8
  | 0, _ => []
  | w + 1, n => UInt8.ofNat n :: toLeBytes w (n / 256)

/-- The number of some bytes. -/
def ofLeBytes : List UInt8 → ℕ
  | [] => 0
  | b :: bs => b.toNat + 256 * ofLeBytes bs

@[simp]
theorem length_toLeBytes (w n : ℕ) : (toLeBytes w n).length = w := by
  induction w generalizing n with
  | zero => rfl
  | succ w ih => rw [toLeBytes, length_cons, ih]

lemma ofLeBytes_toLeBytes {w n : ℕ} (h : n < 256 ^ w) : ofLeBytes (toLeBytes w n) = n := by
  induction w generalizing n with
  | zero =>
    rw [pow_zero] at h
    rw [toLeBytes, ofLeBytes]
    omega
  | succ w ih =>
    have hdiv : n / 256 < 256 ^ w := by
      rw [Nat.div_lt_iff_lt_mul (by norm_num), ← pow_succ]
      exact h
    rw [toLeBytes, ofLeBytes, ih hdiv, UInt8.toNat_ofNat']
    omega

/-! ## Chunks -/

section chunks
variable {α : Type}

/-- A list cut into parts of a size; the last one may be shorter. -/
def chunks (size : ℕ) (l : List α) : List (List α) :=
  if 0 < size ∧ l ≠ [] then l.take size :: chunks size (l.drop size) else []
termination_by l.length
decreasing_by
  rename_i h
  have := length_pos_iff.mpr h.2
  rw [length_drop]
  omega

variable {size : ℕ} {l : List α}

lemma chunks_cons (hsize : 0 < size) (h : l ≠ []) :
    chunks size l = l.take size :: chunks size (l.drop size) := by
  rw [chunks, if_pos ⟨hsize, h⟩]

@[simp]
theorem chunks_nil (size : ℕ) : chunks size ([] : List α) = [] := by
  rw [chunks, if_neg (by simp)]

/-- The chunks are the list. -/
theorem flatten_chunks (hsize : 0 < size) (l : List α) : (chunks size l).flatten = l := by
  fun_induction chunks size l with
  | case1 l _ ih => rw [flatten_cons, ih, take_append_drop]
  | case2 l h =>
    obtain rfl : l = [] := by_contra fun hl => h ⟨hsize, hl⟩
    rfl

/-- No chunk is longer than the size. -/
theorem length_le_of_mem_chunks {chunk : List α} (h : chunk ∈ chunks size l) :
    chunk.length ≤ size := by
  fun_induction chunks size l with
  | case1 l _ ih =>
    rcases mem_cons.mp h with rfl | h
    · exact length_take_le _ _
    · exact ih h
  | case2 => cases h

/-- There are no more chunks than it takes. -/
theorem length_chunks_le {count : ℕ} (h : l.length ≤ count * size) :
    (chunks size l).length ≤ count := by
  induction count generalizing l with
  | zero =>
    have hl : l = [] := eq_nil_of_length_eq_zero (by omega)
    rw [hl, chunks_nil]
    rfl
  | succ count ih =>
    rw [chunks]
    split
    · rw [length_cons]
      have := ih (l := l.drop size) (by rw [length_drop, Nat.succ_mul] at *; omega)
      omega
    · exact Nat.zero_le _

/-- A list of full chunks. -/
theorem chunks_of_length_eq {count : ℕ} (hsize : 0 < size) (h : l.length = count * size) :
    (chunks size l).length = count ∧ ∀ chunk ∈ chunks size l, chunk.length = size := by
  induction count generalizing l with
  | zero =>
    have hl : l = [] := eq_nil_of_length_eq_zero (by omega)
    rw [hl, chunks_nil]
    exact ⟨rfl, nofun⟩
  | succ count ih =>
    rw [Nat.succ_mul] at h
    have hl : l ≠ [] := length_pos_iff.mp (by omega)
    obtain ⟨hlength, hmem⟩ := @ih (l.drop size) (by rw [length_drop]; omega)
    rw [chunks_cons hsize hl]
    refine ⟨by rw [length_cons, hlength], fun chunk hchunk => ?_⟩
    rcases mem_cons.mp hchunk with rfl | hchunk
    · rw [length_take]
      omega
    · exact hmem chunk hchunk

/-- Chunks of the size are found again. -/
theorem chunks_flatten {parts : List (List α)} (hsize : 0 < size)
    (h : ∀ part ∈ parts, part.length = size) : chunks size parts.flatten = parts := by
  induction parts with
  | nil => exact chunks_nil size
  | cons part parts ih =>
    have hpart := h part (.head _)
    have hne : (part :: parts).flatten ≠ [] := by
      intro hnil
      rw [flatten_cons, append_eq_nil_iff] at hnil
      rw [hnil.1] at hpart
      exact absurd hpart (by simp; omega)
    rw [chunks_cons hsize hne, flatten_cons, take_left' hpart, drop_left' hpart,
      ih fun part hmem => h part (.tail _ hmem)]

end chunks

/-! ## Loops that return -/

/-- A loop over a list whose body returns for every element. -/
theorem mapM_eq_map {ε α β : Type} {f : α → Except ε β} {g : α → β} {l : List α}
    (h : ∀ a ∈ l, f a = .ok (g a)) : l.mapM f = .ok (l.map g) := by
  induction l with
  | nil => rfl
  | cons a l ih =>
    rw [mapM_cons, h a (.head _)]
    exact bind_eq_ok.mpr ⟨g a, rfl, bind_eq_ok.mpr ⟨_, ih fun a ha => h a (.tail _ ha), rfl⟩⟩

/-- A loop over the images of a list. -/
theorem mapM_map_eq {ε α β γ : Type} {f : α → Except ε β} {g : γ → α} {k : γ → β} {l : List γ}
    (h : ∀ c ∈ l, f (g c) = .ok (k c)) : (l.map g).mapM f = .ok (l.map k) := by
  rw [mapM_map]
  exact mapM_eq_map h

end Trezoa.Lib
