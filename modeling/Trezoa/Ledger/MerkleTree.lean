import Trezoa.Lib.Fallible
import Trezoa.Lib.PairedLevels

/-!
# Merkle trees of shreds

Models `ledger/src/shred/merkle_tree.rs`. The tree is the flat list of its levels; a proof is read
from this list by offsets. Nodes are joined by their first 20 bytes.

* `merkle_proofs`: every leaf has a proof, of which the root can be recomputed; a wrong index or
  size gives an error; and no other leaf and no other proof give the root.

The hash function is a parameter. The pairs of 20 bytes that are hashed cannot all have different
first 20 bytes, there are too many of them: binding is about the pairs that are hashed when the two
proofs are checked (`joinedPairs`).
-/

namespace Trezoa.Ledger

open Lib List Nat

inductive ShredType where
  | data
  | code
deriving DecidableEq

/-- The errors of the erasure code. -/
inductive ErasureError where
  | tooFewShards
  | tooManyShards
  | tooFewDataShards
  | tooFewParityShards
  | incorrectShardSize
  | emptyShard
deriving DecidableEq

/-- What goes wrong with shreds; the last one is a panic. -/
inductive Error where
  | wincodeWrite
  | erasure (error : ErasureError)
  | invalidDataSize (size payload : ℕ)
  | invalidDeshredSet
  | invalidMerkleProof
  | invalidParentSlot (slot parentSlot : ℕ)
  | invalidPayloadSize (size : ℕ)
  | invalidProofSize (proofSize : ℕ)
  | invalidShredType
  | invalidShredVariant
  | io
  | emptyIterator
  | indexOutOfBounds
deriving DecidableEq

/-- 32 bytes. -/
structure Hash where
  bytes : List UInt8
  length : bytes.length = 32
deriving DecidableEq

/-- 20 bytes. -/
structure MerkleProofEntry where
  bytes : List UInt8
  length : bytes.length = 20
deriving DecidableEq

/-- The first 20 bytes. -/
def Hash.entry (hash : Hash) : MerkleProofEntry :=
  ⟨hash.bytes.take 20, by rw [length_take, hash.length]; rfl⟩

/-- `b"\x01TREZOA_MERKLE_SHREDS_NODE"` -/
def merkleHashPrefixNode : List UInt8 :=
  [0x01, 0x54, 0x52, 0x45, 0x5a, 0x4f, 0x41, 0x5f, 0x4d, 0x45, 0x52, 0x4b, 0x4c, 0x45, 0x5f, 0x53,
    0x48, 0x52, 0x45, 0x44, 0x53, 0x5f, 0x4e, 0x4f, 0x44, 0x45]

/-- `b"\x00TREZOA_MERKLE_SHREDS_LEAF"` -/
def merkleHashPrefixLeaf : List UInt8 :=
  [0x00, 0x54, 0x52, 0x45, 0x5a, 0x4f, 0x41, 0x5f, 0x4d, 0x45, 0x52, 0x4b, 0x4c, 0x45, 0x5f, 0x53,
    0x48, 0x52, 0x45, 0x44, 0x53, 0x5f, 0x4c, 0x45, 0x41, 0x46]

/-- All nodes; the last one is the root. -/
structure MerkleTree where
  nodes : List Hash

/-- The sizes of the levels of which the nodes are joined, from a level of more than one node. -/
def joinedSizes (k : ℕ) : List ℕ := k :: if 2 < k then joinedSizes ((k + 1) / 2) else []

/-- The sizes of all levels. -/
def levelSizes (k : ℕ) : List ℕ := k :: if 1 < k then levelSizes ((k + 1) / 2) else []

/-- The number of nodes of a tree. -/
def getMerkleTreeSize (numShreds : ℕ) : ℕ := (levelSizes numShreds).sum

section
variable (hashv : List (List UInt8) → Hash)

/-- The parent of two nodes. -/
def joinNodes (node other : MerkleProofEntry) : Hash :=
  hashv [merkleHashPrefixNode, node.bytes, other.bytes]

/-- Pushes the parent of the node at an index and its neighbour, in the level that starts at an
offset. -/
def pushParent (offset size : ℕ) (nodes : List Hash) (index : ℕ) : Except Error (List Hash) :=
  match nodes[index]?, nodes[min (index + 1) (offset + size - 1)]? with
  | some node, some other => .ok (nodes ++ [joinNodes hashv node.entry other.entry])
  | _, _ => .error .indexOutOfBounds

/-- Pushes the level above the last one, which has the given size. -/
def pushLevel (nodes : List Hash) (size : ℕ) : Except Error (List Hash) :=
  let offset := nodes.length - size
  (range ((size + 1) / 2)).foldlM
    (fun nodes j => pushParent hashv offset size nodes (offset + 2 * j)) nodes

/-- The tree over the given leaves. -/
def MerkleTree.tryNew (shreds : List (Except Error Hash)) : Except Error MerkleTree :=
  if shreds.length = 0 then .error .emptyIterator
  else do
    let nodes ← shreds.mapM id
    let sizes := if 1 < shreds.length then joinedSizes shreds.length else []
    return ⟨← sizes.foldlM (pushLevel hashv) nodes⟩

/-- The root, of which there is one if the tree has nodes. -/
def MerkleTree.root (tree : MerkleTree) : Option Hash := tree.nodes.getLast?

/-- The entries that the iterator gives from a state on, or its first error. -/
def proofEntries (nodes : List Hash) (index size offset : ℕ) :
    Except Error (List MerkleProofEntry) :=
  if 1 < size then
    match nodes[offset + min (index ^^^ 1) (size - 1)]? with
    | none => .error .invalidMerkleProof
    | some node =>
      (proofEntries nodes (index / 2) ((size + 1) / 2) (offset + size)).map (node.entry :: ·)
  else if offset + 1 = nodes.length then .ok []
  else .error .invalidMerkleProof
termination_by size

/-- The proof of a leaf, consumed up to its end or its first error. -/
def MerkleTree.makeMerkleProof (tree : MerkleTree) (index size : ℕ) :
    Except Error (List MerkleProofEntry) :=
  if index ≥ size then proofEntries tree.nodes index 0 tree.nodes.length
  else proofEntries tree.nodes index size 0

/-- One step of recomputing the root. -/
def joinProofEntry (state : ℕ × Hash) (other : MerkleProofEntry) : ℕ × Hash :=
  let parent := if state.1 % 2 = 0 then joinNodes hashv state.2.entry other
    else joinNodes hashv other state.2.entry
  (state.1 / 2, parent)

/-- The root that a leaf and its proof lead to. -/
def getMerkleRoot (index : ℕ) (node : Hash) (proof : List MerkleProofEntry) : Except Error Hash :=
  let (index, root) := proof.foldl (joinProofEntry hashv) (index, node)
  if index = 0 then .ok root else .error .invalidMerkleProof

/-! ## The list of nodes -/

lemma sum_levelSizes (k : ℕ) : getMerkleTreeSize k = levelsSize k := by
  unfold getMerkleTreeSize
  induction k using levelSizes.induct with
  | case1 k ih =>
    rw [levelSizes, sum_cons]
    by_cases h : 1 < k
    · rw [if_pos h, ih h, levelsSize_of_lt h]
    · rw [if_neg h, levelsSize_of_le (by omega)]
      rfl

/-- The level above is that of the parents. -/
lemma pushLevel_eq (before l : List Hash) : pushLevel hashv (before ++ l) l.length
    = .ok (before ++ l ++ parents Hash.entry (joinNodes hashv) l) := by
  have hoffset : (before ++ l).length - l.length = before.length := by
    rw [length_append, Nat.add_sub_cancel]
  have hlength := length_parents Hash.entry (joinNodes hashv) l
  -- After `j` turns the first `j` parents are there.
  have hloop : ∀ j ≤ (l.length + 1) / 2, (range j).foldlM
      (fun nodes j => pushParent hashv before.length l.length nodes (before.length + 2 * j))
      (before ++ l) = .ok (before ++ l ++ (parents Hash.entry (joinNodes hashv) l).take j) := by
    intro j
    induction j with
    | zero =>
      intro _
      rw [take_zero, append_nil]
      rfl
    | succ j ih =>
      intro hj
      have hsmall : 2 * j < l.length := by omega
      have hother : min (2 * j + 1) (l.length - 1) < l.length := by omega
      have hparent := getElem?_parents Hash.entry (joinNodes hashv) l
        (getElem?_eq_getElem hsmall) (getElem?_eq_getElem hother)
      have hget : ∀ (rest : List Hash) (k : ℕ), k < l.length →
          (before ++ l ++ rest)[before.length + k]? = l[k]? := by
        intro rest k hk
        rw [append_assoc, getElem?_append_right (le_add_right _ _),
          Nat.add_sub_cancel_left, getElem?_append_left hk]
      have hindex : min (before.length + 2 * j + 1) (before.length + l.length - 1)
          = before.length + min (2 * j + 1) (l.length - 1) := by omega
      rw [range_succ, foldlM_append, ih (by omega)]
      refine bind_eq_ok.mpr ⟨_, rfl, foldlM_cons_eq_ok.mpr ⟨_, ?_, rfl⟩⟩
      rw [pushParent, hindex, hget _ _ hsmall, hget _ _ hother, getElem?_eq_getElem hsmall,
        getElem?_eq_getElem hother]
      rw [take_add_one, hparent, ← append_assoc]
      rfl
  rw [pushLevel, hoffset, hloop _ le_rfl, ← hlength, take_length]

/-- The levels from one of more than one node on. -/
lemma joinedSizes_foldlM (before l : List Hash) (h : 1 < l.length) :
    (joinedSizes l.length).foldlM (pushLevel hashv) (before ++ l)
      = .ok (before ++ (levels Hash.entry (joinNodes hashv) l).flatten) := by
  induction hn : l.length using Nat.strong_induction_on generalizing before l with
  | _ n ih =>
    subst hn
    have hlength := length_parents Hash.entry (joinNodes hashv) l
    rw [joinedSizes, levels_of_lt _ _ h, flatten_cons, ← append_assoc]
    refine foldlM_cons_eq_ok.mpr ⟨_, pushLevel_eq hashv before l, ?_⟩
    by_cases h2 : 2 < l.length
    · rw [if_pos h2, ← hlength]
      exact ih _ (by omega) (before ++ l) _ (by omega) rfl
    · rw [if_neg h2, levels_of_le _ _ (by omega)]
      simp
      rfl

/-- The nodes of a tree are those of its levels. -/
lemma tryNew_eq {leaves : List Hash} (h : leaves ≠ []) :
    MerkleTree.tryNew hashv (leaves.map .ok)
      = .ok ⟨(levels Hash.entry (joinNodes hashv) leaves).flatten⟩ := by
  have hne : (leaves.map (Except.ok (ε := Error))).length ≠ 0 := by
    simpa using h
  have hmapM : ∀ l : List Hash, (l.map (Except.ok (ε := Error))).mapM id = .ok l := by
    intro l
    induction l with
    | nil => rfl
    | cons a l ih =>
      rw [map_cons, mapM_cons]
      exact bind_eq_ok.mpr ⟨a, rfl, bind_eq_ok.mpr ⟨l, ih, rfl⟩⟩
  rw [MerkleTree.tryNew, if_neg hne]
  refine bind_eq_ok.mpr ⟨leaves, hmapM leaves, bind_eq_ok.mpr ⟨_, ?_, rfl⟩⟩
  rw [length_map]
  by_cases h1 : 1 < leaves.length
  · rw [if_pos h1]
    exact joinedSizes_foldlM hashv [] leaves h1
  · rw [if_neg h1, levels_of_le _ _ (by omega)]
    simp
    rfl

/-! ## Reading a proof -/

/-- A proof that is read without error ends with the last node. -/
lemma proofEntries_size {nodes : List Hash} {index size offset : ℕ} {proof : List MerkleProofEntry}
    (hsize : 0 < size) (h : proofEntries nodes index size offset = .ok proof) :
    offset + levelsSize size = nodes.length := by
  induction size using Nat.strong_induction_on generalizing index offset proof with
  | _ size ih =>
    rw [proofEntries] at h
    by_cases h1 : 1 < size
    · rw [if_pos h1] at h
      split at h
      · cases h
      obtain ⟨rest, hrest, -⟩ := map_eq_ok.mp h
      have := ih ((size + 1) / 2) (by omega) (by omega) hrest
      rw [levelsSize_of_lt h1]
      omega
    rw [if_neg h1] at h
    split at h
    · rw [levelsSize_of_le (by omega)]
      omega
    · cases h

/-- There is only one error. -/
lemma proofEntries_error {nodes : List Hash} {index size offset : ℕ} {e : Error}
    (h : proofEntries nodes index size offset = .error e) : e = .invalidMerkleProof := by
  induction size using Nat.strong_induction_on generalizing index offset with
  | _ size ih =>
    rw [proofEntries] at h
    split at h
    · rename_i h1
      split at h
      · cases h
        rfl
      cases hrest : proofEntries nodes (index / 2) ((size + 1) / 2) (offset + size) with
      | ok rest =>
        rw [hrest] at h
        cases h
      | error e' =>
        rw [hrest] at h
        cases h
        exact ih _ (by omega) hrest
    · split at h
      · cases h
      · cases h
        rfl

/-- The entries that are read from a level on are the siblings. -/
lemma proofEntries_eq (before l : List Hash) {index : ℕ} (hindex : index < l.length) :
    proofEntries (before ++ (levels Hash.entry (joinNodes hashv) l).flatten) index l.length
      before.length = .ok (siblings Hash.entry (joinNodes hashv) l index) := by
  induction hn : l.length using Nat.strong_induction_on generalizing before l index with
  | _ n ih =>
    subst hn
    have hlength := length_parents Hash.entry (joinNodes hashv) l
    rw [proofEntries]
    by_cases h1 : 1 < l.length
    · obtain ⟨sibling, hsibling, -⟩ := exists_sibling Hash.entry (joinNodes hashv) h1
        (getElem?_eq_getElem hindex)
      have hget : (before ++ (levels Hash.entry (joinNodes hashv) l).flatten)[
          before.length + min (index ^^^ 1) (l.length - 1)]? = some sibling := by
        rw [levels_of_lt _ _ h1, flatten_cons,
          getElem?_append_right (Nat.le_add_right _ _), Nat.add_sub_cancel_left,
          getElem?_append_left (by omega), hsibling]
      rw [if_pos h1, hget, siblings_of_lt _ _ h1 hsibling]
      refine map_eq_ok.mpr ⟨_, ?_, rfl⟩
      have hhalf : index / 2 < (parents Hash.entry (joinNodes hashv) l).length := by omega
      have hrest := ih (parents Hash.entry (joinNodes hashv) l).length (by omega) (before ++ l)
        (parents Hash.entry (joinNodes hashv) l) hhalf rfl
      rw [length_append, hlength, append_assoc] at hrest
      rw [levels_of_lt _ _ h1, flatten_cons]
      exact hrest
    · rw [if_neg h1, levels_of_le _ _ (by omega), siblings_of_le _ _ (by omega), if_pos]
      rw [length_append, flatten_singleton]
      omega

/-- The pairs that are hashed when a proof is checked. -/
def joinedPairs (index : ℕ) (node : Hash) (proof : List MerkleProofEntry) :
    List (MerkleProofEntry × MerkleProofEntry) :=
  (climb Hash.entry (joinNodes hashv) index node proof).2.2

/-- Recomputing the root is climbing. -/
lemma foldl_joinProofEntry (index : ℕ) (node : Hash) (proof : List MerkleProofEntry) :
    proof.foldl (joinProofEntry hashv) (index, node)
      = ((climb Hash.entry (joinNodes hashv) index node proof).1,
        (climb Hash.entry (joinNodes hashv) index node proof).2.1) := by
  induction proof generalizing index node with
  | nil => rfl
  | cons other proof ih =>
    have hstep : joinProofEntry hashv (index, node) other = (index / 2, joinNodes hashv
        (joinedPair index node.entry other).1 (joinedPair index node.entry other).2) := by
      unfold joinProofEntry joinedPair
      split <;> rfl
    rw [foldl_cons, hstep, ih]
    rfl

/-! ## Completeness and binding -/

lemma makeMerkleProof_eq {leaves : List Hash} {i : ℕ} (hlt : i < leaves.length) :
    MerkleTree.makeMerkleProof ⟨(levels Hash.entry (joinNodes hashv) leaves).flatten⟩ i
      leaves.length = .ok (siblings Hash.entry (joinNodes hashv) leaves i) := by
  rw [MerkleTree.makeMerkleProof, if_neg (by omega)]
  exact proofEntries_eq hashv [] leaves hlt

/-- The tree over some leaves has a root, to which the proof of every leaf leads. -/
theorem tree_proofs {leaves : List Hash} (hleaves : leaves ≠ []) :
    ∃ tree root, MerkleTree.tryNew hashv (leaves.map .ok) = .ok tree ∧ tree.root = some root
      ∧ ∀ (i : ℕ) (leaf : Hash), leaves[i]? = some leaf →
        ∃ proof, tree.makeMerkleProof i leaves.length = .ok proof
          ∧ proof.length = clog 2 leaves.length
          ∧ getMerkleRoot hashv i leaf proof = .ok root := by
  obtain ⟨root, pairs₀, htop, -⟩ := climb_siblings Hash.entry (joinNodes hashv)
    (getElem?_eq_getElem (length_pos_iff.mpr hleaves))
  refine ⟨_, root, tryNew_eq hashv hleaves, ?_, fun i leaf hi => ?_⟩
  · rw [MerkleTree.root, getLast?_flatten_levels, htop]
  have hlt := lt_length hi
  obtain ⟨root', pairs, htop', hclimb⟩ := climb_siblings Hash.entry (joinNodes hashv) hi
  obtain rfl : root = root' := Option.some.inj (htop.symm.trans htop')
  refine ⟨_, makeMerkleProof_eq hashv hlt, length_siblings _ _ hlt, ?_⟩
  rw [getMerkleRoot, foldl_joinProofEntry, hclimb]
  rfl

/-- Over every non-empty list of leaves there is a tree of the given size. Every leaf has a proof
with one entry for each level below the root, which leads to the root; with an index past the leaves
or another number of leaves there is an error; and if some node leads to the root with as many
entries, its first 20 bytes are those of the leaf and the entries are the proof, unless two
different pairs hashed on the way have the same first 20 bytes. -/
theorem merkle_proofs (leaves : List Hash) (hleaves : leaves ≠ []) :
    ∃ tree root, MerkleTree.tryNew hashv (leaves.map .ok) = .ok tree ∧ tree.root = some root
      ∧ tree.nodes.length = getMerkleTreeSize leaves.length
      ∧ (∀ (i : ℕ) (leaf : Hash), leaves[i]? = some leaf →
        ∃ proof, tree.makeMerkleProof i leaves.length = .ok proof
          ∧ proof.length = clog 2 leaves.length ∧ getMerkleRoot hashv i leaf proof = .ok root)
      ∧ (∀ i size, leaves.length ≤ i ∨ size ≠ leaves.length →
        tree.makeMerkleProof i size = .error .invalidMerkleProof)
      ∧ ∀ (i : ℕ) (leaf node : Hash) (proof honest : List MerkleProofEntry),
        leaves[i]? = some leaf →
        proof.length = clog 2 leaves.length → getMerkleRoot hashv i node proof = .ok root →
        tree.makeMerkleProof i leaves.length = .ok honest →
        (∀ p ∈ joinedPairs hashv i node proof, ∀ q ∈ joinedPairs hashv i leaf honest,
          (joinNodes hashv p.1 p.2).entry = (joinNodes hashv q.1 q.2).entry → p = q) →
        node.entry = leaf.entry ∧ proof = honest := by
  obtain ⟨tree, root, htree, hroot, hproofs⟩ := tree_proofs hashv hleaves
  obtain rfl := Except.ok.inj (htree.symm.trans (tryNew_eq hashv hleaves))
  have hnodes : (levels Hash.entry (joinNodes hashv) leaves).flatten.length
      = levelsSize leaves.length := length_flatten_levels _ _ leaves
  refine ⟨_, root, htree, hroot, ?_, hproofs, ?_, ?_⟩
  · rw [sum_levelSizes]
    exact hnodes
  · intro i size hwrong
    cases hresult : MerkleTree.makeMerkleProof
        ⟨(levels Hash.entry (joinNodes hashv) leaves).flatten⟩ i size with
    | error e =>
      unfold MerkleTree.makeMerkleProof at hresult
      split at hresult <;> rw [proofEntries_error hresult]
    | ok proof =>
      exfalso
      unfold MerkleTree.makeMerkleProof at hresult
      split at hresult
      · rw [proofEntries, if_neg (by omega), if_neg (by omega)] at hresult
        cases hresult
      have hsize := proofEntries_size (by omega) hresult
      rw [zero_add, hnodes] at hsize
      have := levelsSize_strictMono.injective hsize
      omega
  intro i leaf node proof honest hi hlength hnode hhonest hcollision
  rw [makeMerkleProof_eq hashv (lt_length hi)] at hhonest
  cases hhonest
  obtain ⟨root', pairs', htop, hleaf⟩ := climb_siblings Hash.entry (joinNodes hashv) hi
  rw [MerkleTree.root, getLast?_flatten_levels, htop] at hroot
  cases hroot
  rw [getMerkleRoot, foldl_joinProofEntry] at hnode
  dsimp only at hnode
  split at hnode
  · cases hnode
    refine climb_binding Hash.entry (joinNodes hashv) hi htop hlength rfl hleaf ?_
    intro p hp q hq
    refine hcollision p hp q ?_
    rw [joinedPairs, hleaf]
    exact hq
  · cases hnode

end

/-- A hash for examples: the bytes are the digits of a number. -/
def digitHash (parts : List (List UInt8)) : Hash :=
  ⟨replicate 32 (parts.flatten.foldl (fun n byte => 31 * n + byte) 7), length_replicate⟩

/-- Three leaves: the last one has a proof of two entries. -/
theorem merkle_proofs_threeLeaves : ∃ tree root proof,
    MerkleTree.tryNew digitHash ([digitHash [[2]], digitHash [[3]], digitHash [[4]]].map .ok) =
      .ok tree
    ∧ tree.makeMerkleProof 2 3 = .ok proof ∧ proof.length = clog 2 3
    ∧ getMerkleRoot digitHash 2 (digitHash [[4]]) proof = .ok root := by
  obtain ⟨tree, root, htree, -, -, hproof, -⟩ := merkle_proofs digitHash
    [digitHash [[2]], digitHash [[3]], digitHash [[4]]] (by simp)
  obtain ⟨proof, hmake, hlength, hroot⟩ := hproof 2 (digitHash [[4]]) rfl
  exact ⟨tree, root, proof, htree, hmake, hlength, hroot⟩

end Trezoa.Ledger
