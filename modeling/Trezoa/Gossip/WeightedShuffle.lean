import Trezoa.Lib.IndexMap
import Trezoa.Lib.SumTree

/-!
# The weighted shuffle

Models `gossip/src/weighted_shuffle.rs`, with the sampling of `random/src/range.rs`: indices are
drawn by their weights without replacement, from a tree of sums, and then those without weight.
-/

namespace Trezoa.Gossip

open Lib Lib.SumTree List Nat Function

/-! ## Sampling -/

/-- The product of two numbers of 64 bits, as its upper and its lower half. -/
def wmul (x y : ℕ) : ℕ × ℕ := (x * y / 2 ^ 64, x * y % 2 ^ 64)

/-- The bound on the lower half: the range shifted to the left, less one. -/
def zone (rangeEnd : ℕ) : ℕ :=
  (rangeEnd * 2 ^ (63 - log2 rangeEnd) % 2 ^ 64 + (2 ^ 64 - 1)) % 2 ^ 64

/-- Whether a draw is accepted for a range. -/
def accepts (rangeEnd x : ℕ) : Bool := (wmul x rangeEnd).2 ≤ zone rangeEnd

/-- The state after some draws. -/
def advance {σ : Type} (next : σ → ℕ × σ) : ℕ → σ → σ
  | 0, s => s
  | n + 1, s => advance next n (next s).2

/-- A generator of random numbers of 64 bits. From every state on, some draw is accepted. -/
structure Rng where
  State : Type
  next : State → ℕ × State
  next_lt : ∀ s, (next s).1 < 2 ^ 64
  productive : ∀ rangeEnd < 2 ^ 64, ∀ s, ∃ n, accepts rangeEnd (next (advance next n s)).1 = true

/-- A number below the end of the range: draws until one is accepted. -/
def Rng.sample (rng : Rng) (rangeEnd : ℕ) (s : rng.State) : ℕ × rng.State :=
  if h : rangeEnd < 2 ^ 64 then
    let drawn := rng.next (advance rng.next (Nat.find (rng.productive rangeEnd h s)) s)
    ((wmul drawn.1 rangeEnd).1, drawn.2)
  else (0, s)

lemma Rng.sample_lt (rng : Rng) {rangeEnd : ℕ} (hpos : 0 < rangeEnd) (s : rng.State) :
    (rng.sample rangeEnd s).1 < rangeEnd := by
  rw [sample]
  split
  · next h =>
    refine (div_lt_iff_lt_mul (by norm_num)).mpr ?_
    rw [mul_comm rangeEnd]
    exact mul_lt_mul_of_pos_right (rng.next_lt _) hpos
  · exact hpos

/-! ## The shuffle -/

/-- The tree of the weights that are left, their sum, and the indices without weight. -/
structure WeightedShuffle where
  numNodes : ℕ
  /-- The number of nodes in the array. -/
  treeLen : ℕ
  tree : ℕ → ℕ → ℕ
  weight : ℕ
  zeros : List ℕ

/-- The sizes for a number of items, from a level that is too small. -/
def growTree (count size nodes : ℕ) : ℕ × ℕ :=
  if 0 < nodes ∧ nodes * 16 < count then growTree count (size + nodes) (nodes * 16)
  else (size + nodes, size + (count + 15) / 16)
termination_by count - nodes
decreasing_by omega

/-- The number of inner nodes, and how many of them are in the array. -/
def getNumNodesAndTreeSize (count : ℕ) : ℕ × ℕ := growTree count 0 1

namespace WeightedShuffle

/-- Adds the weight of an index; one that overflows the sum counts as zero. -/
def addWeight (ws : WeightedShuffle) (item : ℕ × ℕ) : WeightedShuffle :=
  if item.1 = 0 then { ws with zeros := ws.zeros ++ [item.2] }
  else if ws.weight + item.1 < 2 ^ 64 then { ws with
    weight := ws.weight + item.1
    tree := updatePath 16 (· + item.1) ws.tree (ws.numNodes + item.2) }
  else { ws with zeros := ws.zeros ++ [item.2] }

/-- No item has been added. -/
def empty (count : ℕ) : WeightedShuffle :=
  ⟨(getNumNodesAndTreeSize count).1, (getNumNodesAndTreeSize count).2, fun _ _ => 0, 0, []⟩

def new (weights : List ℕ) : WeightedShuffle :=
  weights.zipIdx.foldl addWeight (empty weights.length)

/-- Removes the weight of an index. -/
def remove (ws : WeightedShuffle) (k weight : ℕ) : WeightedShuffle :=
  { ws with
    weight := ws.weight - weight
    tree := updatePath 16 (· - weight) ws.tree (ws.numNodes + k) }

/-- The first index such that the sum of the weights up to it is above a value, and its weight. -/
def search (ws : WeightedShuffle) (val : ℕ) : Option (ℕ × ℕ) :=
  (descend 16 ws.tree ws.treeLen 0 val).map fun found => (found.1 - ws.numNodes, found.2)

/-- Removes an index, with a weight or without, given its leaf and the number before. -/
def removeLeaf (ws : WeightedShuffle) (k index above : ℕ) : WeightedShuffle :=
  if above / 16 < ws.treeLen then
    let weight := ws.tree (above / 16) (above % 16)
    if weight = 0 then { ws with zeros := ws.zeros.erase k }
    else { ws with
      weight := ws.weight - weight
      tree := updatePath 16 (· - weight) ws.tree index }
  else ws

/-- Removes an index. -/
def removeIndex (ws : WeightedShuffle) (k : ℕ) : WeightedShuffle :=
  ws.removeLeaf k (ws.numNodes + k) (ws.numNodes + k - 1)

/-- As `removeIndex`, with sums of 64 bits, which wrap around. -/
def removeIndex64 (ws : WeightedShuffle) (k : ℕ) : WeightedShuffle :=
  let index := (ws.numNodes + k) % 2 ^ 64
  ws.removeLeaf k index ((index + (2 ^ 64 - 1)) % 2 ^ 64)

/-- The number of inner nodes, and of those in the array. -/
def sizes (ws : WeightedShuffle) : ℕ × ℕ := (ws.numNodes, ws.treeLen)

/-- The next index of the shuffle. -/
def next (rng : Rng) (ws : WeightedShuffle) (s : rng.State) :
    Option (ℕ × WeightedShuffle × rng.State) :=
  if ws.weight ≠ 0 then
    -- the search returns, as the value is below the sum
    (ws.search (rng.sample ws.weight s).1).map fun found =>
      (found.1, ws.remove found.1 found.2, (rng.sample ws.weight s).2)
  else if ws.zeros = [] then none
  else
    let (index, s) := rng.sample ws.zeros.length s
    ws.zeros[index]?.map fun k => (k, { ws with zeros := swapRemove ws.zeros index }, s)

/-- The first indices of the shuffle. -/
def shuffle (rng : Rng) : ℕ → WeightedShuffle → rng.State → List ℕ
  | 0, _, _ => []
  | n + 1, ws, s =>
    match ws.next rng s with
    | none => []
    | some (k, ws, s) => k :: shuffle rng n ws s

end WeightedShuffle

open WeightedShuffle

/-! ## Weights -/

/-- The tree holds the weights `w` of `count` items. -/
structure Represents (count : ℕ) (ws : WeightedShuffle) (w : ℕ → ℕ) : Prop where
  tree : ∃ d, ws.numNodes = base 16 (d + 1) ∧ ws.treeLen = base 16 d + (count + 15) / 16 ∧
    count ≤ 16 ^ (d + 1) ∧ Sums 16 (d + 1) ws.tree w
  support : ∀ k, count ≤ k → w k = 0
  weight : ws.weight = prefixSum w count

section weights
variable {count : ℕ} {ws : WeightedShuffle} {w : ℕ → ℕ}

lemma prefixSum_of_support (h : ∀ k, count ≤ k → w k = 0) {m : ℕ} (hm : count ≤ m) :
    prefixSum w m = prefixSum w count := by
  induction m with
  | zero => rw [le_zero.mp hm]
  | succ m ih =>
    rcases eq_or_lt_of_le hm with heq | hlt
    · rw [heq]
    · rw [prefixSum_succ, h m (le_of_lt_succ hlt), add_zero, ih (le_of_lt_succ hlt)]

/-- The sizes that `new` begins with. -/
theorem growTree_spec {d : ℕ} :
    ∃ d', growTree count (base 16 d) (16 ^ d) = (base 16 (d' + 1), base 16 d' + (count + 15) / 16) ∧
      count ≤ 16 ^ (d' + 1) := by
  by_cases h : 0 < 16 ^ d ∧ 16 ^ d * 16 < count
  · obtain ⟨d', heq, hle⟩ := @growTree_spec (d + 1)
    refine ⟨d', ?_, hle⟩
    rw [growTree, if_pos h, ← base_succ, ← pow_succ]
    exact heq
  refine ⟨d, ?_, ?_⟩
  · rw [growTree, if_neg h, ← base_succ]
  · have hpos : 0 < 16 ^ d := Nat.pow_pos (by norm_num)
    rw [pow_succ]
    omega
termination_by count - 16 ^ d
decreasing_by
  rw [pow_succ]
  omega

lemma represents_empty (count : ℕ) : Represents count (.empty count) (fun _ => 0) where
  tree := by
    obtain ⟨d, heq, hle⟩ := @growTree_spec count 0
    refine ⟨d, ?_, ?_, hle, Sums.zero 16 (d + 1)⟩
    · exact congrArg Prod.fst heq
    · exact congrArg Prod.snd heq
  support _ _ := rfl
  weight := by simp [empty, prefixSum]

section
variable (h : Represents count ws w)
include h

/-- A change of one weight. -/
theorem Represents.update {ws' : WeightedShuffle} {f : ℕ → ℕ} {k x : ℕ} (hk : k < count)
    (hf : ∀ sum, w k ≤ sum → f sum + w k = sum + x) (hnodes : ws'.numNodes = ws.numNodes)
    (hlen : ws'.treeLen = ws.treeLen) (htree : ws'.tree = updatePath 16 f ws.tree (ws.numNodes + k))
    (hweight : ws'.weight + w k = ws.weight + x) :
    Represents count ws' (update w k x) where
  tree := by
    obtain ⟨d, hn, hl, hle, hsums⟩ := h.tree
    refine ⟨d, hnodes.trans hn, hlen.trans hl, hle, ?_⟩
    rw [htree, hn]
    exact hsums.update (by norm_num) (hk.trans_le hle) hf
  support m hm := by
    rw [update_of_ne (by omega)]
    exact h.support m hm
  weight := by
    have := prefixSum_update w k x count
    rw [if_pos hk, if_pos hk] at this
    have := h.weight
    omega

/-- A weight is removed. -/
theorem Represents.remove {k : ℕ} (hk : k < count) :
    Represents count (ws.remove k (w k)) (Function.update w k 0) := by
  have hle := le_prefixSum w hk
  rw [← h.weight] at hle
  refine h.update hk (fun sum hsum => by omega) rfl rfl rfl ?_
  change ws.weight - w k + w k = _
  omega

/-- The search finds the index where the sums of the weights pass the value. -/
theorem search_spec {val : ℕ} (hval : val < ws.weight) :
    ∃ k < count, ws.search val = some (k, w k) ∧ prefixSum w k ≤ val ∧
      val < prefixSum w (k + 1) := by
  obtain ⟨d, hn, hl, hle, hsums⟩ := h.tree
  -- the array has every inner node with a sum
  have hinner (level q : ℕ) (hlevel : level < d + 1) (hq : q < 16 ^ level)
      (hlt : prefixSum w (q * 16 ^ (d + 1 - level)) < prefixSum w
      ((q + 1) * 16 ^ (d + 1 - level))) :
      base 16 level + q < ws.treeLen := by
    rcases eq_or_lt_of_le (le_of_lt_succ hlevel) with rfl | hlevel
    · rw [show level + 1 - level = 1 by omega, pow_one] at hlt
      have hcount : q * 16 < count := by
        by_contra hge
        have hlow := prefixSum_of_support h.support (show count ≤ q * 16 by omega)
        have hhigh := prefixSum_of_support h.support (show count ≤ (q + 1) * 16 by omega)
        omega
      rw [hl]
      omega
    · have hbase : base 16 (level + 1) ≤ base 16 d := base_mono hlevel
      rw [base_succ] at hbase
      rw [hl]
      omega
  have hleaf : ws.treeLen ≤ base 16 (d + 1) := by
    rw [hl, base_succ]
    rw [pow_succ] at hle
    omega
  have htotal : prefixSum w ((0 + 1) * 16 ^ (d + 1 - 0)) = ws.weight := by
    rw [h.weight, Nat.zero_add, Nat.one_mul, Nat.sub_zero, prefixSum_of_support h.support hle]
  obtain ⟨k, hk, hdescend, hlow, hhigh⟩ := descend_spec hsums hinner hleaf (succ_pos d)
    (Nat.pow_pos (by norm_num)) (show prefixSum w (0 * _) + val = val by simp [prefixSum])
    (by rw [htotal]; exact hval)
  refine ⟨k, ?_, ?_, hlow, hhigh⟩
  · exact not_le.mp fun hle => ne_zero_of_passes hlow hhigh (h.support k hle)
  · rw [search, show (0 : ℕ) = base 16 0 + 0 from rfl, hdescend, Option.map_some, hn,
      Nat.add_sub_cancel_left]

/-- An index that has no weight, whatever the others without one are. -/
lemma Represents.zeros {k : ℕ} (hk : w k = 0) (zeros : List ℕ) :
    Represents count { ws with zeros := zeros } (Function.update w k 0) := by
  have hsame : Function.update w k 0 = w := by rw [← hk, Function.update_eq_self]
  rw [hsame]
  exact ⟨h.tree, h.support, h.weight⟩

/-- The weight of an index is read above its leaf, which is in the array for every item. -/
theorem tree_leaf (k : ℕ) : ((ws.numNodes + k - 1) / 16 < ws.treeLen →
      ws.tree ((ws.numNodes + k - 1) / 16) ((ws.numNodes + k - 1) % 16) = w k) ∧
    (k < count → (ws.numNodes + k - 1) / 16 < ws.treeLen) := by
  obtain ⟨d, hn, hl, hle, hsums⟩ := h.tree
  have hparent := (parent_eq (show 0 < 16 by norm_num) d k).1
  rw [hn, hl, hparent]
  refine ⟨fun hlt => ?_, fun hk => by omega⟩
  rw [← hparent]
  rw [pow_succ] at hle
  exact hsums.leaf (by norm_num) (by rw [pow_succ]; omega)

/-- An index is removed: its weight, or its place among those without. -/
theorem Represents.removeIndex (k : ℕ) :
    Represents count (ws.removeIndex k) (Function.update w k 0) ∧
      (ws.removeIndex k).numNodes = ws.numNodes ∧
      ((ws.removeIndex k).zeros = ws.zeros.erase k ∨
        (ws.removeIndex k).zeros = ws.zeros ∧ (w k ≠ 0 ∨ count ≤ k)) := by
  obtain ⟨htree, hlen⟩ := tree_leaf h k
  rw [WeightedShuffle.removeIndex, removeLeaf]
  dsimp only
  split
  · next hlt =>
    rw [htree hlt]
    split
    · next hzero => exact ⟨h.zeros hzero _, rfl, .inl rfl⟩
    · next hne =>
      have hk : k < count := not_le.mp fun hle => hne (h.support k hle)
      exact ⟨h.remove hk, rfl, .inr ⟨rfl, .inl hne⟩⟩
  · next hlt =>
    have hk : count ≤ k := not_lt.mp fun hk => hlt (hlen hk)
    exact ⟨h.zeros (h.support k hk) ws.zeros, rfl, .inr ⟨rfl, .inr hk⟩⟩

/-- One item is added, after those before it. -/
theorem Represents.addWeight {i x : ℕ} (hi : i < count) (hw : w i = 0)
    (hzeros : ws.zeros = (range i).filter (w · = 0)) :
    let y := if ws.weight + x < 2 ^ 64 then x else 0
    Represents count (ws.addWeight (x, i)) (Function.update w i y) ∧
      (ws.addWeight (x, i)).weight = ws.weight + y ∧
      (ws.addWeight (x, i)).sizes = ws.sizes ∧
      (ws.addWeight (x, i)).zeros = (range (i + 1)).filter (Function.update w i y · = 0) := by
  intro y
  have hrange : (range (i + 1)).filter (Function.update w i y · = 0) =
      ws.zeros ++ if y = 0 then [i] else [] := by
    rw [hzeros, range_succ, filter_append]
    congr 1
    · refine filter_congr fun k hk => ?_
      rw [update_of_ne (mem_range.mp hk).ne]
    · simp [filter_cons]
  have hadd : ws.addWeight (x, i) = if y = 0 then { ws with zeros := ws.zeros ++ [i] }
    else { ws with
      weight := ws.weight + y
      tree := updatePath 16 (· + y) ws.tree (ws.numNodes + i) } := by
    simp only [WeightedShuffle.addWeight, y]
    split_ifs <;> simp_all
  rw [hrange, hadd]
  split
  · next hy =>
    rw [hy]
    exact ⟨h.zeros hw _, rfl, rfl, rfl⟩
  · refine ⟨h.update hi (fun sum _ => ?_) rfl rfl rfl ?_, rfl, rfl, (append_nil _).symm⟩
    · omega
    · change ws.weight + y + w i = _
      omega

end

/-- The weights that count: one that overflows the sum of those before it counts as zero. -/
def effective (weights : List ℕ) : List ℕ :=
  weights.foldl (fun before x => before ++ [if before.sum + x < 2 ^ 64 then x else 0]) []

lemma effective_concat (weights : List ℕ) (x : ℕ) : effective (weights ++ [x]) =
    effective weights ++ [if (effective weights).sum + x < 2 ^ 64 then x else 0] := by
  rw [effective, foldl_append]
  rfl

lemma length_effective (weights : List ℕ) : (effective weights).length = weights.length := by
  induction weights using reverseRecOn with
  | nil => rfl
  | append_singleton weights x ih => simp [effective_concat, ih]

lemma effective_eq_self {weights : List ℕ} (h : weights.sum < 2 ^ 64) :
    effective weights = weights := by
  induction weights using reverseRecOn with
  | nil => rfl
  | append_singleton weights x ih =>
    rw [List.sum_append, sum_singleton] at h
    rw [effective_concat, ih (by omega), if_pos h]

lemma getD_concat (l : List ℕ) (y k : ℕ) :
    (l ++ [y]).getD k 0 = update (l.getD · 0) l.length y k := by
  rcases lt_trichotomy k l.length with hlt | rfl | hgt
  · rw [update_of_ne hlt.ne, getD_append _ _ _ _ hlt]
  · simp
  · rw [update_of_ne hgt.ne', getD_eq_default _ _ hgt.le, getD_eq_default _ _ (by simpa using hgt)]

/-- The weights of a list are held by its tree, and the others are the indices without weight. -/
theorem foldl_addWeight (weights : List ℕ) (hcount : weights.length ≤ count) :
    let w := fun k => (effective weights).getD k 0
    let ws := weights.zipIdx.foldl addWeight (.empty count)
    Represents count ws w ∧ ws.weight = (effective weights).sum ∧
      ws.sizes = getNumNodesAndTreeSize count ∧ ws.zeros = (range weights.length).filter
      (w · = 0) := by
  induction weights using reverseRecOn with
  | nil => exact ⟨represents_empty count, rfl, rfl, rfl⟩
  | append_singleton weights x ih =>
    rw [length_append, length_singleton] at hcount
    obtain ⟨hrep, hweight, hsizes, hzeros⟩ := ih (by omega)
    have hlast : (effective weights).getD weights.length 0 = 0 :=
      getD_eq_default _ _ (length_effective weights).le
    have hadd := @Represents.addWeight _ _ _ hrep weights.length x hcount hlast hzeros
    simp only [effective_concat, getD_concat, length_effective, zipIdx_append,
      foldl_append, List.sum_append, ← hweight, ← hsizes, length_append, Nat.zero_add]
    simpa using hadd

theorem represents_new (weights : List ℕ) :
    Represents weights.length (.new weights) (fun k => (effective weights).getD k 0) ∧
      (new weights).sizes = getNumNodesAndTreeSize weights.length ∧
      (new weights).zeros = (range weights.length).filter ((effective weights).getD · 0 = 0) := by
  obtain ⟨hrep, -, hsizes, hzeros⟩ := foldl_addWeight weights le_rfl
  exact ⟨hrep, hsizes, hzeros⟩

end weights

/-! ## Draws -/

/-- The indices with a weight in the order they are drawn; `total` is the sum of the weights. -/
inductive Drawn (rng : Rng) : ℕ → (ℕ → ℕ) → rng.State → List ℕ → Prop
  | done (w : ℕ → ℕ) (s : rng.State) : Drawn rng 0 w s []
  | draw {total : ℕ} {w : ℕ → ℕ} {s : rng.State} {k : ℕ} {rest : List ℕ} (hpos : total ≠ 0)
      (hlow : prefixSum w k ≤ (rng.sample total s).1)
      (hhigh : (rng.sample total s).1 < prefixSum w (k + 1))
      (hrest : Drawn rng (total - w k) (update w k 0) (rng.sample total s).2 rest) :
      Drawn rng total w s (k :: rest)

section draws
variable {rng : Rng} {total : ℕ} {w : ℕ → ℕ} {s : rng.State} {drawn drawn' : List ℕ}

/-- The weights and the generator determine the draws. -/
theorem Drawn.unique (h : Drawn rng total w s drawn) (h' : Drawn rng total w s drawn') :
    drawn = drawn' := by
  induction h generalizing drawn' with
  | done w s =>
    cases h' with
    | done => rfl
    | draw hpos => exact absurd rfl hpos
  | draw hpos hlow hhigh _ ih =>
    cases h' with
    | done => exact absurd rfl hpos
    | draw _ hlow' hhigh' hrest' =>
      obtain rfl := passes_unique hlow hhigh hlow' hhigh'
      rw [ih hrest']

/-- The draws are the indices with a weight, each once. -/
theorem Drawn.mem_iff {count : ℕ} (h : Drawn rng total w s drawn)
    (hsupport : ∀ k, count ≤ k → w k = 0) (htotal : total = prefixSum w count) :
    drawn.Nodup ∧ ∀ k, k ∈ drawn ↔ w k ≠ 0 := by
  induction h with
  | done w s =>
    refine ⟨nodup_nil, fun k => ⟨fun hk => absurd hk not_mem_nil, fun hk => ?_⟩⟩
    have hle := le_prefixSum w (not_le.mp fun hle => hk (hsupport k hle))
    omega
  | @draw total w s k rest hpos hlow hhigh _ ih =>
    have hk := ne_zero_of_passes hlow hhigh
    have hcount : k < count := not_le.mp fun hle => hk (hsupport k hle)
    have hsum := prefixSum_update w k 0 count
    rw [if_pos hcount, if_pos hcount] at hsum
    obtain ⟨hnodup, hmem⟩ := ih (fun m hm => by
      rw [update_of_ne (by omega)]
      exact hsupport m hm) (by omega)
    refine ⟨nodup_cons.mpr ⟨fun hin => (hmem k).mp hin (update_self ..), hnodup⟩, fun m => ?_⟩
    rw [mem_cons, hmem]
    by_cases hm : m = k
    · subst hm
      simp [hk]
    · simp [hm]

/-- Without weights, the others are drawn in some order. -/
theorem shuffle_zeros {ws : WeightedShuffle} (hweight : ws.weight = 0) :
    ∃ rest : List ℕ, (∀ n, ws.shuffle rng n s = rest.take n) ∧ rest.Perm ws.zeros := by
  induction hlength : ws.zeros.length generalizing ws s with
  | zero =>
    have hnil := length_eq_zero_iff.mp hlength
    refine ⟨[], fun n => ?_, hnil ▸ .nil⟩
    cases n <;> simp [WeightedShuffle.shuffle, WeightedShuffle.next, hweight, hnil]
  | succ length ih =>
    have hnil : ws.zeros ≠ [] := ne_nil_of_length_eq_add_one hlength
    have hget := getElem?_eq_getElem (rng.sample_lt (length_pos_iff.mpr hnil) s)
    have hperm := perm_cons_swapRemove hget
    obtain ⟨rest, heq, hrest⟩ := @ih (rng.sample ws.zeros.length s).2
      { ws with zeros := swapRemove ws.zeros (rng.sample ws.zeros.length s).1 } hweight
      (Nat.succ.inj (hperm.length_eq.symm.trans hlength))
    refine ⟨_ :: rest, fun n => ?_, (hrest.cons _).trans hperm.symm⟩
    cases n with
    | zero => rfl
    | succ n =>
      rw [WeightedShuffle.shuffle, WeightedShuffle.next, if_neg (by simpa using hweight),
        if_neg hnil]
      dsimp only
      rw [hget]
      exact congrArg _ (heq n)

/-- A shuffle begins with the draws, and goes on with the indices without weight. -/
theorem shuffle_eq {count : ℕ} {ws : WeightedShuffle} (h : Represents count ws w) :
    ∃ drawn rest, (∀ n, ws.shuffle rng n s = (drawn ++ rest).take n) ∧
      Drawn rng ws.weight w s drawn ∧ rest.Perm ws.zeros := by
  induction hsum : ws.weight using Nat.strong_induction_on generalizing ws w s with
  | _ total ih =>
    by_cases hweight : total = 0
    · obtain ⟨rest, heq, hperm⟩ := @shuffle_zeros rng s ws (hsum.trans hweight)
      exact ⟨[], rest, heq, hweight ▸ .done w s, hperm⟩
    have hsample := rng.sample_lt (pos_of_ne_zero hweight) s
    rw [← hsum] at hsample hweight
    obtain ⟨k, hk, hsearch, hlow, hhigh⟩ := search_spec h hsample
    have hne := ne_zero_of_passes hlow hhigh
    obtain ⟨drawn, rest, heq, hdrawn, hperm⟩ := ih (ws.weight - w k) (by omega) (h.remove hk) rfl
    refine ⟨k :: drawn, rest, fun n => ?_, hsum ▸ .draw hweight hlow hhigh hdrawn, hperm⟩
    cases n with
    | zero => rfl
    | succ n =>
      rw [WeightedShuffle.shuffle, WeightedShuffle.next, if_pos hweight, hsearch]
      exact congrArg _ (heq n)

lemma Drawn.subset_range {count : ℕ} (h : Drawn rng total w s drawn)
    (hsupport : ∀ k, count ≤ k → w k = 0) (htotal : total = prefixSum w count) :
    drawn ⊆ range count := fun k hk =>
  mem_range.mpr (not_le.mp fun hle => ((h.mem_iff hsupport htotal).2 k).mp hk (hsupport k hle))

end draws

/-! ## Removed indices -/

/-- The weights that are left when some indices have been removed. -/
def remainingWeights (weights removed : List ℕ) (k : ℕ) : ℕ :=
  if k ∈ removed then 0 else (effective weights).getD k 0

/-- A shuffle of some weights without the removed indices. -/
structure Remaining (weights removed : List ℕ) (ws : WeightedShuffle) : Prop where
  represents : Represents weights.length ws (remainingWeights weights removed)
  numNodes : ws.numNodes = (getNumNodesAndTreeSize weights.length).1
  nodup : ws.zeros.Nodup
  mem_zeros : ∀ z, z ∈ ws.zeros ↔
    z < weights.length ∧ z ∉ removed ∧ (effective weights).getD z 0 = 0

section removed
variable {weights removed : List ℕ} {ws : WeightedShuffle}

lemma Remaining.new (weights : List ℕ) : Remaining weights [] (.new weights) := by
  obtain ⟨hrep, hsizes, hzeros⟩ := represents_new weights
  refine ⟨hrep, congrArg Prod.fst hsizes, ?_, fun z => ?_⟩
  · rw [hzeros]
    exact nodup_range.filter _
  · simp [hzeros]

lemma Represents.removeIndex64 {count k : ℕ} {w : ℕ → ℕ} (h : Represents count ws w)
    (hk : ws.numNodes + k < 2 ^ 64) : ws.removeIndex64 k = ws.removeIndex k := by
  obtain ⟨d, hn, -⟩ := h.tree
  have habove : (ws.numNodes + k + (2 ^ 64 - 1)) % 2 ^ 64 = ws.numNodes + k - 1 := by
    rw [base] at hn
    omega
  rw [WeightedShuffle.removeIndex64, Nat.mod_eq_of_lt hk, habove]
  rfl

/-- One more index is removed. -/
theorem Remaining.removeIndex64 (h : Remaining weights removed ws) {k : ℕ}
    (hk : ws.numNodes + k < 2 ^ 64) :
    Remaining weights (removed ++ [k]) (ws.removeIndex64 k) := by
  rw [h.represents.removeIndex64 hk]
  obtain ⟨hrep, hnodes, hzeros⟩ := h.represents.removeIndex k
  have herase : (ws.removeIndex k).zeros = ws.zeros.erase k := by
    rcases hzeros with heq | ⟨heq, hne⟩
    · exact heq
    rw [heq, erase_of_not_mem]
    rw [h.mem_zeros]
    rintro ⟨hlt, hmem, hzero⟩
    rw [remainingWeights, if_neg hmem] at hne
    omega
  have hweights : update (remainingWeights weights removed) k 0 =
      remainingWeights weights (removed ++ [k]) := by
    funext m
    by_cases hm : m = k <;> simp [remainingWeights, hm]
  refine ⟨hweights ▸ hrep, hnodes.trans h.numNodes, herase ▸ h.nodup.erase k, fun z => ?_⟩
  rw [herase, h.nodup.mem_erase_iff, h.mem_zeros, mem_append, mem_singleton]
  tauto

lemma Remaining.foldl
    (h : ∀ k ∈ removed, (getNumNodesAndTreeSize weights.length).1 + k < 2 ^ 64) :
    Remaining weights removed (removed.foldl WeightedShuffle.removeIndex64 (.new weights)) := by
  induction removed using reverseRecOn with
  | nil => exact .new weights
  | append_singleton removed k ih =>
    have hrem := ih fun k hk => h k (mem_append_left _ hk)
    rw [foldl_concat]
    exact hrem.removeIndex64 (hrem.numNodes ▸ h k (by simp))

/-- A shuffle is the naive one: each index that is not removed comes once, first those with a
weight, by the sums of the weights that are left, and every node that is read or changed is in the
array. -/
theorem shuffle_naive (rng : Rng) (s : rng.State) (weights removed : List ℕ)
    (hremoved : ∀ k ∈ removed, (getNumNodesAndTreeSize weights.length).1 + k < 2 ^ 64) {n : ℕ}
    (hn : weights.length ≤ n) :
    let w := remainingWeights weights removed
    let ws := removed.foldl WeightedShuffle.removeIndex64 (.new weights)
    (∃ drawn rest, ws.shuffle rng n s = drawn ++ rest ∧
      Drawn rng (prefixSum w weights.length) w s drawn ∧ (drawn ++ rest).Nodup ∧
      (∀ k, k ∈ drawn ↔ w k ≠ 0) ∧
      ∀ k, k ∈ rest ↔ k < weights.length ∧ k ∉ removed ∧ w k = 0) ∧
      ∀ k < weights.length, ∀ m, (fun i => (i - 1) / 16)^[m + 1]
      (ws.numNodes + k) < ws.treeLen := by
  intro w ws
  have h : Remaining weights removed ws := .foldl hremoved
  obtain ⟨drawn, rest, heq, hdrawn, hperm⟩ := @shuffle_eq rng _ s _ _ h.represents
  rw [h.represents.weight] at hdrawn
  obtain ⟨hnodup, hmem⟩ := hdrawn.mem_iff h.represents.support rfl
  have hrest (k : ℕ) : k ∈ rest ↔ k < weights.length ∧ k ∉ removed ∧ w k = 0 := by
    rw [hperm.mem_iff, h.mem_zeros]
    refine and_congr_right fun _ => and_congr_right fun hk => ?_
    rw [show w k = _ from if_neg hk]
  have hall : (drawn ++ rest).Nodup := hnodup.append (hperm.nodup_iff.mpr h.nodup)
    fun k hk hk' => (hmem k).mp hk ((hrest k).mp hk').2.2
  have hrange : drawn ++ rest ⊆ range weights.length :=
    append_subset.mpr ⟨hdrawn.subset_range h.represents.support rfl,
      fun k hk => mem_range.mpr ((hrest k).mp hk).1⟩
  have hlength := (subperm_of_subset hall hrange).length_le
  rw [length_range] at hlength
  have heq := (heq n).trans (take_of_length_le (hlength.trans hn))
  refine ⟨⟨drawn, rest, heq, hdrawn, hall, hmem, hrest⟩, fun k hk m => ?_⟩
  have hle : (fun i => (i - 1) / 16) ≤ (id : ℕ → ℕ) := fun i => by
    change (i - 1) / 16 ≤ i
    omega
  rw [iterate_succ_apply]
  exact (iterate_le_id_of_le_id hle m _).trans_lt ((tree_leaf h.represents k).2 hk)

end removed

theorem shuffle_naive_removed :
    (∀ k ∈ [1, 7], (getNumNodesAndTreeSize 3).1 + k < 2 ^ 64) ∧
      ∃ (rng : Rng) (s : rng.State) (drawn rest : List ℕ),
        ([1, 7].foldl removeIndex64 (.new [2, 0, 5])).shuffle rng 3 s = drawn ++ rest ∧
          ∀ k, k ∈ drawn ↔ remainingWeights [2, 0, 5] [1, 7] k ≠ 0 := by
  have h : ∀ k ∈ [1, 7], (getNumNodesAndTreeSize 3).1 + k < 2 ^ 64 := by
    simp [getNumNodesAndTreeSize, growTree]
  -- zero is accepted for every range
  let rng : Rng :=
    ⟨Unit, fun _ => (0, ()), fun _ => by norm_num, fun _ _ _ => ⟨0, by simp [accepts, wmul]⟩⟩
  obtain ⟨⟨drawn, rest, heq, -, -, hdrawn, -⟩, -⟩ := shuffle_naive rng () [2, 0, 5] [1, 7] h le_rfl
  exact ⟨h, rng, (), drawn, rest, heq, hdrawn⟩

/-- An index for which the number of the leaf wraps around takes the weights of others away. -/
theorem removeIndex64_wraps : ¬∃ (rng : Rng) (s : rng.State) (n : ℕ),
    0 ∈ ([2 ^ 64 - 16].foldl removeIndex64 (.new (replicate 16 1 ++ [0]))).shuffle rng n s := by
  rintro ⟨rng, s, n, hmem⟩
  obtain ⟨hrep, hsizes, hzeros⟩ := represents_new (replicate 16 1 ++ [0])
  set ws := new (replicate 16 1 ++ [0])
  obtain ⟨hnodes, hlen⟩ : ws.numNodes = 17 ∧ ws.treeLen = 3 := by
    simpa [getNumNodesAndTreeSize, growTree, sizes] using hsizes
  set w := fun k => (effective (replicate 16 1 ++ [0])).getD k 0
  have htotal {m : ℕ} (hm : 16 ≤ m) : prefixSum w m = 16 := by
    refine (prefixSum_of_support (fun k hk => ?_) hm).trans (by decide)
    change (effective _).getD k 0 = 0
    rw [effective_eq_self (by decide), getD_append_right _ _ _ _ (by simpa using hk)]
    cases k - (replicate 16 1).length <;> rfl
  have htree : ws.tree 0 0 = 16 := by
    obtain ⟨d, -, -, hle, hsums⟩ := hrep.tree
    have hd : 16 ^ 1 ≤ 16 ^ d := by
      refine Nat.pow_le_pow_right (by norm_num) (Nat.pos_of_ne_zero ?_)
      rintro rfl
      exact absurd hle (by decide)
    simpa [base, show prefixSum w 0 = 0 from rfl, htotal hd] using
      hsums 0 0 0 (by omega) (by simp) (by norm_num)
  have hweight : (ws.removeIndex64 (2 ^ 64 - 16)).weight = 0 ∧
      (ws.removeIndex64 (2 ^ 64 - 16)).zeros = ws.zeros := by
    simp [WeightedShuffle.removeIndex64, WeightedShuffle.removeLeaf, hnodes, hlen, htree,
      hrep.weight, htotal]
  obtain ⟨rest, heq, hperm⟩ := @shuffle_zeros rng s _ hweight.1
  rw [foldl_cons, foldl_nil, heq n] at hmem
  have := hperm.mem_iff.mp (mem_of_mem_take hmem)
  rw [hweight.2, hzeros] at this
  exact absurd this (by decide)

end Trezoa.Gossip
