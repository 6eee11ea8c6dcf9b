import Mathlib.Data.List.Nodup
import Mathlib.Data.List.Range
import Mathlib.Tactic.Ring

/-!
# The retransmit tree

Models `get_retransmit_peers`, `get_retransmit_parent` and `get_root_distance` of
`turbine/src/cluster_nodes.rs`: the nodes of a shuffle are the nodes of a tree, of which each node
sends to its children.

The positions are natural numbers: no sum or product of the code overflows.
-/

namespace Trezoa.Turbine

open List Nat

variable {T : Type}

/-! ## The code -/

/-- The greatest `usize`. -/
def usizeMax : ℕ := 2 ^ 64 - 1

/-- The peers at increasing positions `ks`; `rest` is what is left of the nodes after the position
`state`. It ends with the first position past the end. -/
def scanPeers : List ℕ → ℕ → List T → List T
  | [], _, _ => []
  | k :: ks, state, rest =>
    match rest[k - state - 1]? with
    | none => []
    | some peer => peer :: scanPeers ks k (rest.drop (k - state))

/-- The positions of the peers of the node at a position, whether or not they exist. -/
def peerIndices (fanout index : ℕ) : List ℕ :=
  let offset := (index - 1) % fanout
  let trezoaanchor := index - offset
  let step := if index = 0 then 1 else fanout
  (range fanout).map fun j => trezoaanchor * fanout + offset + 1 + j * step

/-- The position of the node that `pred` identifies, and the nodes it retransmits to. -/
def getRetransmitPeers (fanout : ℕ) (pred : T → Bool) (nodes : List T) : ℕ × List T :=
  match nodes.findIdx? pred with
  | none => (usizeMax, [])
  | some index => (index, scanPeers (peerIndices fanout index) index (nodes.drop (index + 1)))

/-- The position of the parent of a node that is not the root. -/
def parentIndex (fanout index : ℕ) : ℕ :=
  let offset := (index - 1) % fanout
  let parent := (index - 1) / fanout
  let parent := parent - (parent - 1) % fanout
  if parent = 0 then parent else parent + offset

/-- The parent of the node at a position; the root has none. -/
def getRetransmitParent (fanout index : ℕ) (nodes : List T) : Option T :=
  if index = 0 then none else nodes[parentIndex fanout index]?

/-- The distance of a position from the root, up to 3. -/
def getRootDistance (index fanout : ℕ) : ℕ :=
  if index = 0 then 0
  else if index ≤ fanout then 1
  else if index ≤ min (min (fanout + 1) usizeMax * fanout) usizeMax then 2
  else 3

/-! ## Positions -/

variable {fanout index p i : ℕ} {nodes : List T}

/-- The first layer is that of the root. -/
lemma mem_peerIndices_zero : i ∈ peerIndices fanout 0 ↔ 1 ≤ i ∧ i ≤ fanout := by
  simp only [peerIndices, mem_map, mem_range]
  constructor
  · rintro ⟨j, hj, rfl⟩
    simp
    omega
  · rintro ⟨h1, h2⟩
    exact ⟨i - 1, by omega, by simp; omega⟩

/-- The children of a node below the root: their place in the neighbourhood is that of the node, and
their neighbourhoods are those of one block. -/
lemma mem_peerIndices_pos (hfanout : 0 < fanout) (hp : 0 < p) : i ∈ peerIndices fanout p ↔
    fanout < i ∧ (i - 1) % fanout = (p - 1) % fanout
      ∧ ((i - 1) / fanout - 1) / fanout = (p - 1) / fanout := by
  have hdiv := div_add_mod (p - 1) fanout
  have hmod := mod_lt (p - 1) hfanout
  set q := (p - 1) / fanout with hq
  set offset := (p - 1) % fanout with hoffset
  have hanchor : p - offset = fanout * q + 1 := by omega
  simp only [peerIndices, if_neg hp.ne', mem_map, mem_range, ← hoffset, hanchor]
  have hform : ∀ j, (fanout * q + 1) * fanout + offset + 1 + j * fanout
      = fanout * (fanout * q + 1 + j) + offset + 1 := fun j => by ring
  constructor
  · rintro ⟨j, hj, rfl⟩
    rw [hform, Nat.add_sub_cancel, Nat.mul_add_mod, Nat.mod_eq_of_lt hmod,
      mul_add_div hfanout, div_eq_of_lt hmod]
    have hsub : fanout * q + 1 + j + 0 - 1 = fanout * q + j := by omega
    refine ⟨?_, rfl, ?_⟩
    · have : fanout * 1 ≤ fanout * (fanout * q + 1 + j) := mul_le_mul_left _ (by omega)
      omega
    · rw [hsub, mul_add_div hfanout, div_eq_of_lt hj, add_zero]
  rintro ⟨hlt, hmod', hdiv'⟩
  have hi := div_add_mod (i - 1) fanout
  have hm := div_add_mod ((i - 1) / fanout - 1) fanout
  have hj := mod_lt ((i - 1) / fanout - 1) hfanout
  have hpos : 0 < (i - 1) / fanout := div_pos (by omega) hfanout
  refine ⟨((i - 1) / fanout - 1) % fanout, hj, ?_⟩
  rw [hform]
  rw [hdiv'] at hm
  have hblock : fanout * q + 1 + ((i - 1) / fanout - 1) % fanout = (i - 1) / fanout := by omega
  rw [hblock, ← hmod']
  omega

/-- The parent of a position in the first layer. -/
lemma parentIndex_of_le (h : 0 < i) (hi : i ≤ fanout) : parentIndex fanout i = 0 := by
  have hdiv : (i - 1) / fanout = 0 := div_eq_of_lt (by omega)
  simp [parentIndex, hdiv]

section
variable (hfanout : 0 < fanout)
include hfanout

/-- The parent of a position below the first layer. -/
lemma parentIndex_of_lt (hi : fanout < i) : parentIndex fanout i
    = fanout * (((i - 1) / fanout - 1) / fanout) + 1 + (i - 1) % fanout := by
  have hpos : 0 < (i - 1) / fanout := div_pos (by omega) hfanout
  have hm := div_add_mod ((i - 1) / fanout - 1) fanout
  have hblock : (i - 1) / fanout - ((i - 1) / fanout - 1) % fanout
      = fanout * (((i - 1) / fanout - 1) / fanout) + 1 := by omega
  rw [parentIndex]
  simp only [hblock]
  rw [if_neg (by omega)]

/-- The parent is the position that a position is a child of. -/
theorem mem_peerIndices : i ∈ peerIndices fanout p ↔ 0 < i ∧ parentIndex fanout i = p := by
  rcases Nat.eq_zero_or_pos p with rfl | hp
  · rw [mem_peerIndices_zero]
    constructor
    · exact fun h => ⟨h.1, parentIndex_of_le h.1 h.2⟩
    rintro ⟨hi, hparent⟩
    refine ⟨hi, ?_⟩
    by_contra hlt
    rw [parentIndex_of_lt hfanout (by omega)] at hparent
    omega
  rw [mem_peerIndices_pos hfanout hp]
  have hdiv := div_add_mod (p - 1) fanout
  have hmod := mod_lt (i - 1) hfanout
  constructor
  · rintro ⟨hlt, hoffset, hblock⟩
    refine ⟨by omega, ?_⟩
    rw [parentIndex_of_lt hfanout hlt, hblock, hoffset]
    omega
  rintro ⟨hi, hparent⟩
  have hlt : fanout < i := by
    by_contra hle
    rw [parentIndex_of_le hi (by omega)] at hparent
    omega
  rw [parentIndex_of_lt hfanout hlt] at hparent
  have hpred : p - 1 = fanout * (((i - 1) / fanout - 1) / fanout) + (i - 1) % fanout := by omega
  refine ⟨hlt, ?_, ?_⟩
  · rw [hpred, mul_add_mod, mod_eq_of_lt hmod]
  · rw [hpred, mul_add_div hfanout, div_eq_of_lt hmod, add_zero]

/-- Parents precede their children. -/
lemma parentIndex_lt (hi : 0 < i) : parentIndex fanout i < i := by
  by_cases hle : i ≤ fanout
  · rw [parentIndex_of_le hi hle]
    exact hi
  rw [parentIndex_of_lt hfanout (by omega)]
  have hpos : 0 < (i - 1) / fanout := div_pos (by omega) hfanout
  have hdiv := div_add_mod (i - 1) fanout
  have hm := div_mul_le_self ((i - 1) / fanout - 1) fanout
  have hle : (i - 1) / fanout ≤ fanout * ((i - 1) / fanout) := Nat.le_mul_of_pos_left _ hfanout
  rw [mul_comm] at hm
  omega

/-- The positions of the peers increase, from past the node itself. -/
lemma peerIndices_increasing :
    (peerIndices fanout p).Pairwise (· < ·) ∧ ∀ k ∈ peerIndices fanout p, p < k := by
  refine ⟨?_, fun k hk => ?_⟩
  · have hstep : 0 < if p = 0 then 1 else fanout := by split <;> omega
    unfold peerIndices
    refine pairwise_map.mpr (pairwise_lt_range.imp fun {a b} hab => ?_)
    have := mul_lt_mul_of_pos_right hab hstep
    omega
  · obtain ⟨hk, hparent⟩ := (mem_peerIndices hfanout).mp hk
    rw [← hparent]
    exact parentIndex_lt hfanout hk

end

/-! ## Reading the peers -/

/-- Read by increments, the peers are the nodes at their positions. -/
lemma scanPeers_eq {ks : List ℕ} {state : ℕ} (hks : ks.Pairwise (· < ·))
    (hstate : ∀ k ∈ ks, state < k) :
    scanPeers ks state (nodes.drop (state + 1)) = ks.filterMap fun k => nodes[k]? := by
  induction ks generalizing state with
  | nil => rfl
  | cons k ks ih =>
    have hk := hstate k (.head _)
    obtain ⟨hlt, hks⟩ := pairwise_cons.mp hks
    have hget : (nodes.drop (state + 1))[k - state - 1]? = nodes[k]? := by
      rw [getElem?_drop]
      congr 1
      omega
    have hdrop : (nodes.drop (state + 1)).drop (k - state) = nodes.drop (k + 1) := by
      rw [drop_drop]
      congr 1
      omega
    rw [scanPeers, hget]
    cases hnode : nodes[k]? with
    | none =>
      -- Every later position is past the end as well.
      have hnone : ∀ k' ∈ k :: ks, nodes[k']? = none := by
        intro k' hk'
        rw [getElem?_eq_none_iff] at hnode ⊢
        rcases mem_cons.mp hk' with rfl | hk'
        · exact hnode
        · exact hnode.trans (hlt k' hk').le
      exact (filterMap_eq_nil_iff.mpr hnone).symm
    | some node =>
      simp only [filterMap_cons, hnode, hdrop]
      rw [ih hks hlt]

/-- The peers of the node at a position. -/
def peers [DecidableEq T] (fanout : ℕ) (nodes : List T) (node : T) : List T :=
  (getRetransmitPeers fanout (fun x => decide (x = node)) nodes).2

variable [DecidableEq T]

/-- The peers of a node are the nodes at their positions, and the position is that of the node. -/
lemma getRetransmitPeers_eq (hnodup : nodes.Nodup) (hfanout : 0 < fanout) {node : T}
    (hp : nodes[p]? = some node) :
    getRetransmitPeers fanout (fun x => decide (x = node)) nodes
      = (p, (peerIndices fanout p).filterMap fun k => nodes[k]?) := by
  have hfind : nodes.findIdx? (fun x => decide (x = node)) = some p := by
    rw [findIdx?_eq_some_iff_getElem]
    obtain ⟨hlt, hget⟩ := List.getElem?_eq_some_iff.mp hp
    refine ⟨hlt, by simpa using hget, fun j hj => ?_⟩
    simp only [decide_eq_true_eq]
    intro heq
    have := (List.Nodup.getElem_inj_iff hnodup).mp (heq.trans hget.symm)
    omega
  obtain ⟨hincreasing, hgreater⟩ := peerIndices_increasing (p := p) hfanout
  simp only [getRetransmitPeers, hfind]
  rw [scanPeers_eq hincreasing hgreater]

lemma mem_peers (hnodup : nodes.Nodup) (hfanout : 0 < fanout) {node x : T}
    (hp : nodes[p]? = some node) : x ∈ peers fanout nodes node
      ↔ ∃ i : ℕ, 0 < i ∧ nodes[i]? = some x ∧ parentIndex fanout i = p := by
  rw [peers, getRetransmitPeers_eq hnodup hfanout hp, mem_filterMap]
  constructor
  · rintro ⟨i, hi, hx⟩
    obtain ⟨hpos, hparent⟩ := (mem_peerIndices hfanout).mp hi
    exact ⟨i, hpos, hx, hparent⟩
  · rintro ⟨i, hpos, hx, hparent⟩
    exact ⟨i, (mem_peerIndices hfanout).mpr ⟨hpos, hparent⟩, hx⟩

/-! ## Distances -/

/-- The position is `k` parent steps away from the root. -/
inductive RootSteps (fanout : ℕ) (nodes : List T) : ℕ → ℕ → Prop
  | root : RootSteps fanout nodes 0 0
  | step {i p k : ℕ} {parent : T} (hparent : getRetransmitParent fanout i nodes = some parent)
      (hp : nodes[p]? = some parent) (hsteps : RootSteps fanout nodes p k) :
      RootSteps fanout nodes i (k + 1)

omit [DecidableEq T] in
/-- The parent of a node below the root is a node. -/
lemma exists_parent (hfanout : 0 < fanout) (hi : 0 < i) (hlt : i < nodes.length) :
    ∃ parent, getRetransmitParent fanout i nodes = some parent
      ∧ nodes[parentIndex fanout i]? = some parent := by
  have hparent : parentIndex fanout i < nodes.length := (parentIndex_lt hfanout hi).trans hlt
  exact ⟨nodes[parentIndex fanout i],
    by rw [getRetransmitParent, if_neg hi.ne', getElem?_eq_getElem hparent],
    getElem?_eq_getElem hparent⟩

/-- The second layer. -/
lemma parentIndex_le_iff (hfanout : 0 < fanout) (hi : fanout < i) :
    parentIndex fanout i ≤ fanout ↔ i ≤ (fanout + 1) * fanout := by
  rw [parentIndex_of_lt hfanout hi]
  have hmod := mod_lt (i - 1) hfanout
  have hpos : 0 < (i - 1) / fanout := div_pos (by omega) hfanout
  have hlayer : (i - 1) / fanout < fanout + 1 ↔ i ≤ (fanout + 1) * fanout := by
    rw [div_lt_iff_lt_mul hfanout]
    omega
  rw [← hlayer]
  constructor
  · intro hle
    have hzero : ((i - 1) / fanout - 1) / fanout = 0 := by
      by_contra hne
      have := Nat.le_mul_of_pos_right fanout (Nat.pos_of_ne_zero hne)
      omega
    have := (div_eq_zero_iff_lt hfanout).mp hzero
    omega
  · intro hlt
    rw [div_eq_of_lt (by omega)]
    omega

omit [DecidableEq T] in
/-- The root distance is the number of steps, up to 3. -/
lemma getRootDistance_eq (hfanout : 0 < fanout) (hsize : nodes.length ≤ usizeMax)
    (hlt : i < nodes.length) :
    ∃ k, RootSteps fanout nodes i k ∧ getRootDistance i fanout = min 3 k
      ∧ (i = 0 ↔ k = 0) ∧ (i ≤ fanout ↔ k ≤ 1) ∧ (i ≤ (fanout + 1) * fanout ↔ k ≤ 2) := by
  induction i using Nat.strong_induction_on with
  | _ i ih =>
    rcases Nat.eq_zero_or_pos i with rfl | hi
    · exact ⟨0, .root, rfl, by simp, by simp, by simp⟩
    obtain ⟨parent, hparent, hp⟩ := exists_parent hfanout hi hlt
    have hprec := parentIndex_lt hfanout hi
    obtain ⟨k, hsteps, -, hzero, hone, -⟩ := ih _ hprec (hprec.trans hlt)
    have hlayer1 : i ≤ fanout ↔ k + 1 ≤ 1 := by
      rw [show k + 1 ≤ 1 ↔ k = 0 by omega, ← hzero]
      constructor
      · exact parentIndex_of_le hi
      intro h0
      by_contra hle
      rw [parentIndex_of_lt hfanout (by omega)] at h0
      omega
    have hlayer2 : i ≤ (fanout + 1) * fanout ↔ k + 1 ≤ 2 := by
      by_cases hle : i ≤ fanout
      · have hmul : fanout ≤ (fanout + 1) * fanout := Nat.le_mul_of_pos_left _ (by omega)
        have := hlayer1.mp hle
        omega
      · rw [← parentIndex_le_iff hfanout (by omega), hone]
        omega
    refine ⟨k + 1, .step hparent hp hsteps, ?_, by omega, hlayer1, hlayer2⟩
    have hsat : i ≤ min (min (fanout + 1) usizeMax * fanout) usizeMax
        ↔ i ≤ (fanout + 1) * fanout := by
      have hi' : i ≤ usizeMax := (hlt.trans_le hsize).le
      rw [le_min_iff, and_iff_left hi']
      rcases le_total (fanout + 1) usizeMax with hle | hle
      · rw [min_eq_left hle]
      rw [min_eq_right hle]
      have hm : usizeMax ≤ usizeMax * fanout := Nat.le_mul_of_pos_right _ hfanout
      have hm' := mul_le_mul_right fanout hle
      constructor <;> intro <;> omega
    unfold getRootDistance
    rw [if_neg hi.ne']
    simp only [hsat]
    split
    · have := hlayer1.mp ‹_›
      omega
    split
    · have := hlayer2.mp ‹_›
      omega
    · omega

/-! ## The tree -/

/-- For every shuffle and every fanout: the peers of different nodes are disjoint, each node has at
most `fanout` of them, and together they are all nodes but the first; the parent of a node is the
node that it is a peer of, only the first node has none, and parents come first; the root distance
is the number of steps to the first node, up to 3. -/
theorem retransmit_tree (hnodup : nodes.Nodup) (hsize : nodes.length ≤ usizeMax)
    (hfanout : 0 < fanout) :
    (∀ (p q : ℕ) (x y : T), nodes[p]? = some x → nodes[q]? = some y → p ≠ q →
      (peers fanout nodes x).Disjoint (peers fanout nodes y))
    ∧ (∀ x ∈ nodes, (peers fanout nodes x).length ≤ fanout ∧ (peers fanout nodes x).Nodup)
    ∧ (∀ y, (∃ x ∈ nodes, y ∈ peers fanout nodes x) ↔ ∃ i : ℕ, 0 < i ∧ nodes[i]? = some y)
    ∧ (∀ (i p : ℕ) (x y : T), nodes[p]? = some x → nodes[i]? = some y →
      (getRetransmitParent fanout i nodes = some x ↔ y ∈ peers fanout nodes x))
    ∧ (∀ i < nodes.length, getRetransmitParent fanout i nodes = none ↔ i = 0)
    ∧ (∀ (i p : ℕ) (x : T), i < nodes.length → nodes[p]? = some x →
      getRetransmitParent fanout i nodes = some x → p < i)
    ∧ ∀ i < nodes.length, ∃ k, RootSteps fanout nodes i k ∧ getRootDistance i fanout = min 3 k := by
  have hinj : ∀ {i j : ℕ} {x : T}, nodes[i]? = some x → nodes[j]? = some x → i = j := by
    intro i j x hi hj
    exact (List.getElem?_inj (List.getElem?_eq_some_iff.mp hi).1 hnodup).mp (hi.trans hj.symm)
  -- the root has no parent
  have hchild : ∀ {i : ℕ} {x : T}, getRetransmitParent fanout i nodes = some x → 0 < i := by
    intro i x hparent
    rcases Nat.eq_zero_or_pos i with rfl | hpos
    · cases hparent
    · exact hpos
  refine ⟨?_, ?_, ?_, ?_, ?_, ?_, ?_⟩
  · intro p q x y hp hq hne z hz hz'
    obtain ⟨i, -, hi, hparent⟩ := (mem_peers hnodup hfanout hp).mp hz
    obtain ⟨j, -, hj, hparent'⟩ := (mem_peers hnodup hfanout hq).mp hz'
    rw [hinj hi hj, hparent'] at hparent
    exact hne hparent.symm
  · intro x hx
    obtain ⟨p, hp⟩ := mem_iff_getElem?.mp hx
    rw [peers, getRetransmitPeers_eq hnodup hfanout hp]
    refine ⟨(length_filterMap_le _ _).trans (by simp [peerIndices]), ?_⟩
    refine List.Nodup.filterMap ?_ ((peerIndices_increasing hfanout).1.imp ne_of_lt)
    intro i j x hi hj
    exact hinj hi hj
  · intro y
    constructor
    · rintro ⟨x, hx, hy⟩
      obtain ⟨p, hp⟩ := mem_iff_getElem?.mp hx
      obtain ⟨i, hpos, hi, -⟩ := (mem_peers hnodup hfanout hp).mp hy
      exact ⟨i, hpos, hi⟩
    · rintro ⟨i, hpos, hi⟩
      obtain ⟨parent, -, hp⟩ := exists_parent hfanout hpos (List.getElem?_eq_some_iff.mp hi).1
      exact ⟨parent, mem_of_getElem? hp, (mem_peers hnodup hfanout hp).mpr ⟨i, hpos, hi, rfl⟩⟩
  · intro i p x y hp hi
    rw [mem_peers hnodup hfanout hp]
    constructor
    · intro hparent
      have hpos := hchild hparent
      rw [getRetransmitParent, if_neg hpos.ne'] at hparent
      exact ⟨i, hpos, hi, hinj hparent hp⟩
    · rintro ⟨j, hpos, hj, hparent⟩
      rw [hinj hi hj, getRetransmitParent, if_neg hpos.ne', hparent]
      exact hp
  · intro i hlt
    constructor
    · intro hnone
      by_contra hne
      obtain ⟨parent, hparent, -⟩ := exists_parent hfanout (Nat.pos_of_ne_zero hne) hlt
      cases hnone.symm.trans hparent
    · rintro rfl
      rfl
  · intro i p x hlt hp hparent
    have hpos := hchild hparent
    rw [getRetransmitParent, if_neg hpos.ne'] at hparent
    rw [hinj hp hparent]
    exact parentIndex_lt hfanout hpos
  · intro i hlt
    obtain ⟨k, hsteps, hdistance, -⟩ := getRootDistance_eq hfanout hsize hlt
    exact ⟨k, hsteps, hdistance⟩

/-- Ten nodes with fanout 2. -/
theorem retransmit_tree_tenNodes : peers 2 (range 10) 2 = [4, 6]
    ∧ getRetransmitParent 2 6 (range 10) = some 2 := by
  obtain ⟨-, -, -, hparent, -⟩ :=
    retransmit_tree (nodup_range (n := 10)) (by decide) (show 0 < 2 by decide)
  have hpeers : peers 2 (range 10) 2 = [4, 6] := by decide
  refine ⟨hpeers, (hparent 6 2 2 6 (by decide) (by decide)).mpr ?_⟩
  rw [hpeers]
  decide

end Trezoa.Turbine
