import Trezoa.Turbine.ClusterNodes

/-!
# The topology of staked nodes does not depend on gossip

Whatever nodes know of each other, they agree on the places of the staked nodes in the shuffle, and
so on who retransmits to whom among them.

* `staked_topology`: a staked node sends to another exactly if the other expects it to.
-/

namespace Trezoa.Turbine

open Gossip Lib Lib.SumTree List Stakes Function

/-! ## Ordered nodes -/

/-- Whether a pubkey comes before another: by descending stake, then pubkey. -/
def Precedes (stakes : Stakes) (a b : ℕ) : Prop :=
  stakes.get b < stakes.get a ∨ stakes.get b = stakes.get a ∧ b < a

variable {stakes : Stakes}

lemma Precedes.trans {a b c : ℕ} (h : Precedes stakes a b) (h' : Precedes stakes b c) :
    Precedes stakes a c := by
  unfold Precedes at *
  omega

lemma Precedes.irrefl {a : ℕ} (h : Precedes stakes a a) : False := by
  unfold Precedes at h
  omega

/-- The nodes of a list are in order, with their stakes, and every staked one is there. -/
structure Ordered (stakes : Stakes) (nodes : List Node) : Prop where
  stake : ∀ n ∈ nodes, n.stake = stakes.get n.pubkey
  sorted : (nodes.map Node.pubkey).Pairwise (Precedes stakes)
  staked : ∀ pubkey, 0 < stakes.get pubkey → pubkey ∈ nodes.map Node.pubkey

lemma Ordered.nodup {nodes : List Node} (h : Ordered stakes nodes) :
    (nodes.map Node.pubkey).Nodup :=
  h.sorted.imp fun hab heq => (heq ▸ hab).irrefl

/-- What the comparison says of stakes and pubkeys. -/
theorem precedes_or_eq {a b : Node} (ha : a.stake = stakes.get a.pubkey)
    (hb : b.stake = stakes.get b.pubkey) (h : cmpNodesStake b a ≠ .gt) :
    Precedes stakes a.pubkey b.pubkey ∨ a.pubkey = b.pubkey := by
  rw [cmpNodesStake] at h
  unfold Precedes
  rcases lt_trichotomy b.stake a.stake with hlt | heq | hgt
  · exact .inl (.inl (by omega))
  · rcases lt_trichotomy b.pubkey a.pubkey with hlt' | heq' | hgt'
    · exact .inl (.inr ⟨by omega, hlt'⟩)
    · exact .inr heq'.symm
    · rw [compare_eq_iff_eq.mpr heq, compare_gt_iff_gt.mpr hgt'] at h
      exact absurd rfl h
  · rw [compare_gt_iff_gt.mpr hgt] at h
    exact absurd rfl h

section dedup
variable {stakes : Stakes} {nodes : List Node}

lemma mem_dedupAfter {previous n : Node} (h : n ∈ dedupAfter previous nodes) : n ∈ nodes := by
  induction nodes generalizing previous with
  | nil => exact h
  | cons node rest ih =>
    rw [dedupAfter] at h
    split at h
    · exact .tail _ (ih h)
    · rcases mem_cons.mp h with rfl | h
      · exact .head _
      · exact .tail _ (ih h)

/-- Without the repeated nodes the order is strict, and no pubkey is lost. -/
theorem dedupAfter_spec {previous : Node} (hstake : ∀ n ∈ previous :: nodes,
      n.stake = stakes.get n.pubkey)
    (hsorted : (previous :: nodes).Pairwise fun a b => cmpNodesStake b a ≠ .gt) :
    ((previous :: dedupAfter previous nodes).map Node.pubkey).Pairwise (Precedes stakes) ∧
      ∀ n ∈ nodes, n.pubkey ∈ (previous :: dedupAfter previous nodes).map Node.pubkey := by
  induction nodes generalizing previous with
  | nil => exact ⟨pairwise_singleton _ _, nofun⟩
  | cons node rest ih =>
    obtain ⟨hfirst, hrest⟩ := pairwise_cons.mp hsorted
    obtain ⟨hnode, hrest'⟩ := pairwise_cons.mp hrest
    have hprev := hstake previous (.head _)
    rw [dedupAfter]
    split
    · next heq =>
      -- the node is left out
      obtain ⟨hpairwise, hmem⟩ := @ih previous
        (fun n hn => hstake n (cons_subset_cons _ (subset_cons_self _ _) hn))
        (pairwise_cons.mpr ⟨fun b hb => hfirst b (.tail _ hb), hrest'⟩)
      exact ⟨hpairwise, forall_mem_cons.mpr ⟨heq ▸ .head _, hmem⟩⟩
    next hne =>
    obtain ⟨hpairwise, hmem⟩ := @ih node (fun n hn => hstake n (.tail _ hn)) hrest
    have hprecedes : Precedes stakes previous.pubkey node.pubkey :=
      (precedes_or_eq hprev (hstake node (.tail _ (.head _)))
        (hfirst node (.head _))).resolve_right fun heq => hne heq.symm
    refine ⟨pairwise_cons.mpr ⟨forall_mem_cons.mpr ⟨hprecedes, fun pubkey hpubkey => ?_⟩,
      hpairwise⟩, forall_mem_cons.mpr ⟨.tail _ (.head _), fun n hn => .tail _ (hmem n hn)⟩⟩
    exact hprecedes.trans ((pairwise_cons.mp hpairwise).1 pubkey hpubkey)

lemma dedupByPubkey_ordered (hstake : ∀ n ∈ nodes, n.stake = stakes.get n.pubkey)
    (hsorted : nodes.Pairwise fun a b => cmpNodesStake b a ≠ .gt)
    (hstaked : ∀ pubkey, 0 < stakes.get pubkey → pubkey ∈ nodes.map Node.pubkey) :
    Ordered stakes (dedupByPubkey nodes) := by
  cases nodes with
  | nil => exact ⟨hstake, List.Pairwise.nil, hstaked⟩
  | cons node rest =>
    obtain ⟨hpairwise, hmem⟩ := dedupAfter_spec hstake hsorted
    refine ⟨fun n hn => hstake n (cons_subset_cons _ (fun _ => mem_dedupAfter) hn), hpairwise,
      fun pubkey hpubkey => ?_⟩
    obtain ⟨n, hn, rfl⟩ := mem_map.mp (hstaked pubkey hpubkey)
    rcases mem_cons.mp hn with rfl | hn
    · exact .head _
    · exact hmem n hn

/-- Nodes that are kept with their pubkeys and stakes, every staked one among them. -/
def Keeps (nodes nodes' : List Node) : Prop :=
  (nodes'.map fun n => (n.pubkey, n.stake)).Sublist (nodes.map fun n => (n.pubkey, n.stake)) ∧
    ∀ n ∈ nodes, 0 < n.stake → n.pubkey ∈ nodes'.map Node.pubkey

lemma Keeps.cons {nodes' : List Node} (h : Keeps nodes nodes') {n n' : Node}
    (hpubkey : n'.pubkey = n.pubkey) (hstake : n'.stake = n.stake) :
    Keeps (n :: nodes) (n' :: nodes') := by
  refine ⟨?_, forall_mem_cons.mpr ⟨fun _ => hpubkey ▸ .head _, fun m hm hpos => ?_⟩⟩
  · rw [map_cons, map_cons, hpubkey, hstake]
    exact h.1.cons_cons _
  · exact .tail _ (h.2 m hm hpos)

lemma Keeps.drop {nodes' : List Node} (h : Keeps nodes nodes') {n : Node} (hzero : ¬n.stake > 0) :
    Keeps (n :: nodes) nodes' :=
  ⟨h.1.cons _, forall_mem_cons.mpr ⟨fun hpos => absurd hpos hzero, h.2⟩⟩

/-- Taking away addresses keeps pubkeys and stakes, and every staked node. -/
theorem dedupTvuAddrs_spec (addrs : List SocketAddr) (counts : ℕ → ℕ) :
    Keeps nodes (dedupTvuAddrs addrs counts nodes) := by
  induction nodes generalizing addrs counts with
  | nil => exact ⟨List.Sublist.refl _, nofun⟩
  | cons n rest ih =>
    rw [dedupTvuAddrs]
    split
    · split
      · exact (ih _ _).cons rfl rfl
      · next hzero => exact (ih _ _).drop hzero
    next info hinfo =>
    split
    · split
      · exact (ih _ _).cons rfl rfl
      · next hzero => exact (ih _ _).drop hzero
    dsimp only
    split
    · split
      · exact (ih _ _).cons (by simp [Node.pubkey, hinfo]) rfl
      · next hzero => exact (ih _ _).drop hzero
    · exact (ih _ _).cons rfl rfl

lemma dedupTvuAddrs_ordered (h : Ordered stakes nodes) (addrs : List SocketAddr)
    (counts : ℕ → ℕ) : Ordered stakes (dedupTvuAddrs addrs counts nodes) := by
  obtain ⟨hsub, hmem⟩ := @dedupTvuAddrs_spec nodes addrs counts
  refine ⟨fun n hn => ?_, ?_, fun pubkey hpubkey => ?_⟩
  · have hn' := hsub.subset (mem_map.mpr ⟨n, hn, rfl⟩)
    obtain ⟨m, hm, heq⟩ := mem_map.mp hn'
    simp only [Prod.mk.injEq] at heq
    rw [← heq.1, ← heq.2]
    exact h.stake m hm
  · have hsub' := hsub.map Prod.fst
    rw [map_map, map_map] at hsub'
    exact h.sorted.sublist hsub'
  · obtain ⟨n, hn, rfl⟩ := mem_map.mp (h.staked pubkey hpubkey)
    exact hmem n hn (by rw [h.stake n hn]; exact hpubkey)

end dedup

lemma Stakes.get_of_mem {entry : ℕ × ℕ} (h : entry ∈ stakes.entries) :
    stakes.get entry.1 = entry.2 := by
  obtain ⟨before, after, heq⟩ := append_of_mem h
  have hnodup := stakes.nodup
  rw [heq, map_append, map_cons, nodup_append'] at hnodup
  have hlookup : stakes.entries.lookup entry.1 = some entry.2 :=
    lookup_eq_some_iff.mpr ⟨before, after, heq, fun item hitem => by
      simpa using fun h => hnodup.2.2 (mem_map.mpr ⟨item, hitem, h.symm⟩) (.head _)⟩
  rw [get, hlookup]
  rfl

lemma Stakes.mem_of_get_pos {pubkey : ℕ} (h : 0 < stakes.get pubkey) :
    (pubkey, stakes.get pubkey) ∈ stakes.entries := by
  rcases hlookup : stakes.entries.lookup pubkey with _ | stake
  · rw [get, hlookup] at h
    exact absurd h (by simp)
  · obtain ⟨before, after, heq, -⟩ := lookup_eq_some_iff.mp hlookup
    rw [get, hlookup, heq]
    exact mem_append_right _ (.head _)

/-- The order of the iteration does not matter. -/
theorem Stakes.get_perm {stakes' : Stakes} (h : stakes.entries.Perm stakes'.entries) (pubkey : ℕ) :
    stakes.get pubkey = stakes'.get pubkey := by
  rcases Nat.eq_zero_or_pos (stakes.get pubkey) with hzero | hpos
  · rcases Nat.eq_zero_or_pos (stakes'.get pubkey) with hzero' | hpos'
    · rw [hzero, hzero']
    · exact get_of_mem (h.mem_iff.mpr (mem_of_get_pos hpos'))
  · exact (get_of_mem (h.mem_iff.mp (mem_of_get_pos hpos))).symm

/-- The nodes that any node keeps are in order. -/
theorem ordered_getNodes (sort : UnstableSort) (view : GossipView) (stakes : Stakes) :
    Ordered stakes (getNodes sort view stakes) := by
  have hperm := sort.perm (knownNodes view stakes)
  have hstake : ∀ n ∈ knownNodes view stakes, n.stake = stakes.get n.pubkey := by
    intro n hn
    rw [knownNodes, mem_append, mem_cons] at hn
    rcases hn with (rfl | hn) | hn
    · rfl
    · obtain ⟨node, -, rfl⟩ := mem_map.mp hn
      rfl
    · obtain ⟨entry, hentry, rfl⟩ := mem_map.mp hn
      exact (Stakes.get_of_mem (mem_of_mem_filter hentry)).symm
  have hordered : Ordered stakes (dedupByPubkey (sort.sort (knownNodes view stakes))) := by
    refine dedupByPubkey_ordered (fun n hn => hstake n (hperm.mem_iff.mp hn)) (sort.sorted _)
      fun pubkey hpubkey => ?_
    refine (hperm.map Node.pubkey).mem_iff.mpr (mem_map.mpr
      ⟨⟨.pubkey pubkey, stakes.get pubkey⟩, ?_, rfl⟩)
    refine mem_append_right _ (mem_map.mpr ⟨(pubkey, stakes.get pubkey), ?_, rfl⟩)
    exact mem_filter.mpr ⟨mem_of_get_pos hpubkey, by simpa using hpubkey⟩
  rw [getNodes]
  split
  · exact dedupTvuAddrs_ordered hordered _ _
  · exact hordered

/-! ## Positions of staked nodes -/

/-- A list in an order in which what satisfies `p` comes first. -/
theorem filter_append_filter_not {R : ℕ → ℕ → Prop} {p : ℕ → Prop} [DecidablePred p] {l : List ℕ}
    (h : l.Pairwise R) (hR : ∀ a b, R a b → p b → p a) :
    l = l.filter (fun a => p a) ++ l.filter fun a => ¬p a := by
  induction l with
  | nil => rfl
  | cons a l ih =>
    obtain ⟨hfirst, hrest⟩ := pairwise_cons.mp h
    by_cases ha : p a
    · rw [filter_cons_of_pos (by simpa using ha), filter_cons_of_neg (by simpa using ha),
        cons_append, ← ih hrest]
    have hnone : ∀ b ∈ a :: l, ¬p b := by
      intro b hb
      rcases mem_cons.mp hb with rfl | hb
      · exact ha
      · exact fun hpb => ha (hR a b (hfirst b hb) hpb)
    rw [filter_eq_nil_iff.mpr (by simpa using hnone), nil_append,
      filter_eq_self.mpr (by simpa using hnone)]

/-- The staked nodes come first, in an order of their own. -/
structure StakedFirst (get : ℕ → ℕ) (staked : List ℕ) (nodes : List Node) : Prop where
  pubkeys : ∃ rest, nodes.map Node.pubkey = staked ++ rest ∧ ∀ pubkey ∈ rest, get pubkey = 0
  nodup : (nodes.map Node.pubkey).Nodup
  stake : ∀ n ∈ nodes, n.stake = get n.pubkey
  staked : ∀ pubkey, pubkey ∈ staked ↔ 0 < get pubkey

lemma Ordered.stakedFirst {nodes : List Node} (h : Ordered stakes nodes) :
    StakedFirst stakes.get ((nodes.map Node.pubkey).filter fun pubkey => 0 < stakes.get pubkey)
      nodes where
  pubkeys := by
    refine ⟨(nodes.map Node.pubkey).filter fun pubkey => ¬0 < stakes.get pubkey, ?_, ?_⟩
    · refine filter_append_filter_not h.sorted fun a b hab hb => ?_
      unfold Precedes at hab
      omega
    · intro pubkey hpubkey
      simpa using (mem_filter.mp hpubkey).2
  nodup := h.nodup
  stake := h.stake
  staked pubkey := by
    rw [mem_filter]
    refine ⟨fun hmem => by simpa using hmem.2, fun hpos =>
      ⟨h.staked pubkey hpos, by simpa using hpos⟩⟩

/-- Any two lists of nodes for one map of stakes have the staked ones at the same positions. -/
theorem staked_unique {stakes' : Stakes} {nodes nodes' : List Node}
    (hperm : stakes.entries.Perm stakes'.entries) (h : Ordered stakes nodes)
    (h' : Ordered stakes' nodes') :
    StakedFirst stakes.get ((nodes.map Node.pubkey).filter fun pubkey => 0 < stakes.get pubkey)
      nodes' := by
  have hget : stakes'.get = stakes.get := funext fun pubkey => (get_perm hperm pubkey).symm
  have hfirst := h'.stakedFirst
  have hsorted' := h'.sorted
  have hprecedes : Precedes stakes' = Precedes stakes := by
    unfold Precedes
    rw [hget]
  rw [hget] at hfirst
  rw [hprecedes] at hsorted'
  have heq : ((nodes.map Node.pubkey).filter fun pubkey => 0 < stakes.get pubkey) =
      (nodes'.map Node.pubkey).filter fun pubkey => 0 < stakes.get pubkey := by
    refine List.Perm.eq_of_pairwise (fun a b _ _ hab hba => absurd (hab.trans hba) Precedes.irrefl)
      (h.sorted.sublist filter_sublist) (hsorted'.sublist filter_sublist) ?_
    rw [perm_ext_iff_of_nodup (h.nodup.filter _) (h'.nodup.filter _)]
    intro pubkey
    rw [h.stakedFirst.staked, hfirst.staked]
  rw [heq]
  exact hfirst

/-- The stakes of the staked nodes are all of the stakes. -/
theorem sum_staked {staked : List ℕ} {nodes : List Node} (h : StakedFirst stakes.get staked nodes) :
    (staked.map stakes.get).sum = (stakes.entries.map Prod.snd).sum := by
  obtain ⟨rest, heq, -⟩ := h.pubkeys
  have hnodup : staked.Nodup := (heq ▸ h.nodup).of_append_left
  have hperm : staked.Perm ((stakes.entries.filter fun entry => 0 < entry.2).map Prod.fst) := by
    rw [perm_ext_iff_of_nodup hnodup (stakes.nodup.sublist (filter_sublist.map _))]
    intro pubkey
    rw [h.staked, mem_map]
    constructor
    · intro hpos
      exact ⟨_, mem_filter.mpr ⟨mem_of_get_pos hpos, by simpa using hpos⟩, rfl⟩
    rintro ⟨entry, hentry, rfl⟩
    obtain ⟨hmem, hpos⟩ := mem_filter.mp hentry
    rw [Stakes.get_of_mem hmem]
    simpa using hpos
  rw [(hperm.map stakes.get).sum_eq, map_map]
  have hsnd : (stakes.entries.filter fun entry => 0 < entry.2).map (stakes.get ∘ Prod.fst) =
      (stakes.entries.filter fun entry => 0 < entry.2).map Prod.snd :=
    map_congr_left fun entry hentry => get_of_mem (mem_of_mem_filter hentry)
  rw [hsnd]
  induction stakes.entries with
  | nil => rfl
  | cons entry entries ih =>
    by_cases hpos : 0 < entry.2
    · rw [filter_cons_of_pos (by simpa using hpos), map_cons, map_cons, sum_cons, sum_cons, ih]
    · rw [filter_cons_of_neg (by simpa using hpos), map_cons, sum_cons, ih]
      omega

/-! ## Shuffles -/

section shuffles
variable {get : ℕ → ℕ} {staked : List ℕ} {nodes : List Node}

/-- The weights of a shuffle without the leader: the stakes of the staked nodes. -/
def stakedWeights (get : ℕ → ℕ) (staked : List ℕ) (leader : ℕ) : ℕ → ℕ := fun k =>
  if staked[k]? = some leader then 0 else (staked.map get).getD k 0

section
variable (h : StakedFirst get staked nodes)
include h

lemma StakedFirst.stakes_eq :
    ∃ rest, nodes.map Node.stake = staked.map get ++ rest ∧ ∀ stake ∈ rest, stake = 0 := by
  obtain ⟨rest, heq, hrest⟩ := h.pubkeys
  refine ⟨rest.map get, ?_, fun stake hstake => ?_⟩
  · rw [← map_append, ← heq, map_map]
    exact map_congr_left h.stake
  · obtain ⟨pubkey, hpubkey, rfl⟩ := mem_map.mp hstake
    exact hrest pubkey hpubkey

/-- Nodes without stake do not change the weights. -/
theorem StakedFirst.weights :
    (fun k => (nodes.map Node.stake).getD k 0) = fun k => (staked.map get).getD k 0 := by
  obtain ⟨rest, heq, hrest⟩ := h.stakes_eq
  funext k
  rw [heq, getD_eq_getElem?_getD, getD_eq_getElem?_getD]
  by_cases hk : k < (staked.map get).length
  · rw [getElem?_append_left hk]
  have hnone : (staked.map get)[k]? = none := getElem?_eq_none (by omega)
  rw [getElem?_append_right (by omega), hnone]
  rcases hget : rest[k - (staked.map get).length]? with _ | stake
  · rfl
  · exact hrest stake (mem_of_getElem? hget)

lemma StakedFirst.sum_eq : (nodes.map Node.stake).sum = (staked.map get).sum := by
  obtain ⟨rest, heq, hrest⟩ := h.stakes_eq
  rw [heq, sum_append, sum_eq_zero hrest, Nat.add_zero]

lemma StakedFirst.length_le : staked.length ≤ nodes.length := by
  obtain ⟨rest, heq, -⟩ := h.pubkeys
  have := congrArg length heq
  rw [length_map, length_append] at this
  omega

/-- The pubkey at the position of a staked node. -/
theorem StakedFirst.getElem? {k : ℕ} (hk : k < staked.length) :
    (nodes.map Node.pubkey)[k]? = staked[k]? := by
  obtain ⟨rest, heq, -⟩ := h.pubkeys
  rw [heq, getElem?_append_left hk]

end

/-- The weight of a position is positive exactly for a staked node that is not the leader. -/
theorem stakedWeights_ne_zero (hstaked : ∀ pubkey, pubkey ∈ staked ↔ 0 < get pubkey)
    {leader k : ℕ} :
    stakedWeights get staked leader k ≠ 0 ↔ ∃ pubkey, staked[k]? = some pubkey ∧
      pubkey ≠ leader := by
  rw [stakedWeights, getD_eq_getElem?_getD, getElem?_map]
  rcases hk : staked[k]? with _ | pubkey
  · simp
  have hpos := (hstaked pubkey).mp (mem_of_getElem? hk)
  by_cases heq : pubkey = leader
  · simp [heq]
  · simp [heq]
    omega

lemma stakedWeights_of_le {leader k : ℕ} (hk : staked.length ≤ k) :
    stakedWeights get staked leader k = 0 := by
  rw [stakedWeights, getElem?_eq_none hk, if_neg (by simp), getD_eq_default _ _ (by simpa using hk)]

variable {c : ClusterNodes}

/-- The index gives the position of a pubkey, and none only for one that is not there. -/
theorem index_spec (c : ClusterNodes) (pubkey : ℕ) :
    (∃ i, c.index pubkey = some i ∧ (c.nodes.map Node.pubkey)[i]? = some pubkey) ∨
      c.index pubkey = none ∧ pubkey ∉ c.nodes.map Node.pubkey := by
  rw [ClusterNodes.index]
  rcases hlast : (c.nodes.zipIdx.filter fun item => item.1.pubkey = pubkey).getLast? with _ | item
  · right
    refine ⟨by rw [hlast]; rfl, fun hmem => ?_⟩
    obtain ⟨n, hn, rfl⟩ := mem_map.mp hmem
    obtain ⟨i, hi⟩ := mem_iff_getElem?.mp hn
    have hin : (n, i) ∈ c.nodes.zipIdx.filter fun item => item.1.pubkey = n.pubkey :=
      mem_filter.mpr ⟨mk_mem_zipIdx_iff_getElem?.mpr hi, by simp⟩
    rw [getLast?_eq_none_iff.mp hlast] at hin
    cases hin
  left
  have hmem := mem_of_getLast? hlast
  obtain ⟨hzip, hpubkey⟩ := mem_filter.mp hmem
  refine ⟨item.2, by rw [hlast]; rfl, ?_⟩
  rw [getElem?_map, mk_mem_zipIdx_iff_getElem?.mp hzip]
  simpa using hpubkey

section
variable (h : StakedFirst get staked c.nodes)
  (hshuffle : c.weightedShuffle = .new (c.nodes.map Node.stake))
  (hsum : (staked.map get).sum < 2 ^ 64) (leader : ℕ)
include h hshuffle hsum

/-- The shuffle without the leader holds the weights of the other staked nodes. -/
theorem represents_shuffled :
    let shuffle := match c.index leader with
      | none => c.weightedShuffle
      | some index => c.weightedShuffle.removeIndex index
    Represents c.nodes.length shuffle (stakedWeights get staked leader) ∧
      ∀ z ∈ shuffle.zeros, staked.length ≤ z := by
  obtain ⟨hrep, -, hzeros⟩ := represents_new (c.nodes.map Node.stake)
  rw [effective_eq_self (by rw [h.sum_eq]; exact hsum), ← hshuffle] at hrep hzeros
  rw [h.weights, length_map] at hrep
  have hzeros' (z : ℕ) (hz : z ∈ c.weightedShuffle.zeros) : staked.length ≤ z := by
    by_contra hlt
    rw [hzeros, mem_filter, decide_eq_true_eq] at hz
    have hzero := hz.2
    rw [congrFun h.weights z, getD_eq_getElem _ _ (by simpa using hlt), getElem_map] at hzero
    have := (h.staked _).mp (getElem_mem (show z < staked.length by omega))
    omega
  rcases index_spec c leader with ⟨i, hi, hget⟩ | ⟨hnone, hnot⟩
  · rw [hi]
    obtain ⟨hrep', -, hsub⟩ := hrep.removeIndex i
    refine ⟨?_, fun z hz => hzeros' z ?_⟩
    rotate_left
    · rcases hsub with heq | ⟨heq, -⟩
      · exact mem_of_mem_erase (heq ▸ hz)
      · exact heq ▸ hz
    have hsame : update (fun k => (staked.map get).getD k 0) i 0 =
        stakedWeights get staked leader := by
      funext k
      rw [stakedWeights]
      by_cases hk : k < staked.length
      · have hpos := h.getElem? hk
        by_cases hki : k = i
        · subst hki
          rw [update_self, if_pos (hpos ▸ hget)]
        · rw [update_of_ne hki, if_neg]
          intro heq
          exact hki (index_unique h.nodup (hpos.trans heq) hget)
      rw [getElem?_eq_none (by omega), if_neg (by simp), getD_eq_default _ _ (by simpa using hk)]
      by_cases hki : k = i
      · rw [hki, update_self]
      · rw [update_of_ne hki, getD_eq_default _ _ (by simpa using hk)]
    rw [← hsame]
    exact hrep'
  rw [hnone]
  refine ⟨?_, hzeros'⟩
  have hsame : (fun k => (staked.map get).getD k 0) = stakedWeights get staked leader := by
    funext k
    rw [stakedWeights, if_neg]
    intro heq
    have hk := lt_length heq
    exact hnot (mem_of_getElem? ((h.getElem? hk).trans heq))
  rw [← hsame]
  exact hrep

/-- A shuffle begins with the positions of the staked nodes other than the leader, in an order that
only the stakes and the generator determine. -/
theorem shuffled_eq (rng : Rng) (seed : rng.State) :
    ∃ drawn rest, c.shuffled rng leader seed = drawn ++ rest ∧
      Drawn rng (prefixSum (stakedWeights get staked leader) staked.length)
        (stakedWeights get staked leader) seed drawn ∧ ∀ z ∈ rest, staked.length ≤ z := by
  obtain ⟨hrep, hzeros⟩ := represents_shuffled h hshuffle hsum leader
  obtain ⟨drawn, rest, heq, hdrawn, hperm⟩ := @shuffle_eq rng _ seed _ _ hrep
  have hlength := (subperm_of_subset (hdrawn.mem_iff hrep.support hrep.weight).1
    (hdrawn.subset_range hrep.support hrep.weight)).length_le
  rw [length_range] at hlength
  refine ⟨drawn, rest.take (c.nodes.length - drawn.length), ?_, ?_, fun z hz => hzeros z
    (hperm.mem_iff.mp (mem_of_mem_take hz))⟩
  · exact (heq _).trans (by rw [take_append, take_of_length_le hlength])
  rw [hrep.weight, prefixSum_of_support (fun k hk => stakedWeights_of_le hk) h.length_le] at hdrawn
  exact hdrawn

end
end shuffles

/-! ## Topology -/

namespace ClusterNodes

/-- The pubkeys of the nodes other than the leader in the order of the shuffle. -/
def order (rng : Rng) (c : ClusterNodes) (leader : ℕ) (seed : rng.State) : List ℕ :=
  (c.shuffled rng leader seed).filterMap fun k => (c.nodes.map Node.pubkey)[k]?

/-- The nodes that a node retransmits to, with their addresses. -/
def addressed (rng : Rng) (c : ClusterNodes) (leader : ℕ) (seed : rng.State) (fanout : ℕ)
    (check : SocketAddr → Bool) : List (ℕ × SocketAddr) :=
  ((c.retransmitPeers rng leader seed fanout).2.filterMap fun k =>
    c.nodes[k]?.bind fun n => n.tvu.map fun addr => (n.pubkey, addr)).filter fun item =>
      check item.2

lemma map_snd_addresses (nodes : List Node) (check : SocketAddr → Bool) (peers : List ℕ) :
    ((peers.filterMap fun k => nodes[k]?.bind fun n => n.tvu.map fun addr =>
      (n.pubkey, addr)).filter fun item => check item.2).map Prod.snd =
        (peers.filterMap fun k => nodes[k]?.bind Node.tvu).filter check := by
  induction peers with
  | nil => rfl
  | cons k peers ih =>
    rcases hn : nodes[k]? with _ | n
    · rw [filterMap_cons_none (by simp [hn]), filterMap_cons_none (by simp [hn]), ih]
    rcases htvu : n.tvu with _ | addr
    · rw [filterMap_cons_none (by simp [hn, htvu]), filterMap_cons_none (by simp [hn, htvu]), ih]
    have hitem : (nodes[k]?.bind fun n => n.tvu.map fun addr => (n.pubkey, addr)) =
        some (n.pubkey, addr) := by simp [hn, htvu]
    have haddr : nodes[k]?.bind Node.tvu = some addr := by simp [hn, htvu]
    simp only [filterMap_cons, hitem, haddr, filter_cons]
    split
    · rw [map_cons, ih]
    · exact ih

/-- The addresses that are sent to are those of these nodes. -/
theorem getRetransmitAddrs_eq (rng : Rng) (c : ClusterNodes) {leader : ℕ} (seed : rng.State)
    (fanout : ℕ) (check : SocketAddr → Bool) (hleader : leader ≠ c.pubkey) :
    c.getRetransmitAddrs rng leader seed fanout check =
      .ok (getRootDistance (c.retransmitPeers rng leader seed fanout).1 fanout,
        (c.addressed rng leader seed fanout check).map Prod.snd) := by
  rw [getRetransmitAddrs, if_neg hleader, addressed, map_snd_addresses]

end ClusterNodes

open ClusterNodes

section topology
variable {get : ℕ → ℕ} {staked drawn : List ℕ} {leader : ℕ} {c : ClusterNodes}

/-- A position in the shuffle that begins with `drawn` and goes on past the staked nodes. -/
theorem getElem?_append_drawn {rest : List ℕ} {i j k : ℕ} (hnodup : drawn.Nodup)
    (hrest : ∀ z ∈ rest, staked.length ≤ z) (hk : k < staked.length) (hj : drawn[j]? = some k) :
    (drawn ++ rest)[i]? = some k ↔ i = j := by
  have hjlt := lt_length hj
  constructor
  · intro hi
    by_cases hlt : i < drawn.length
    · rw [getElem?_append_left hlt] at hi
      exact index_unique hnodup hi hj
    · rw [getElem?_append_right (by omega)] at hi
      exact absurd (hrest k (mem_of_getElem? hi)) (by omega)
  · rintro rfl
    rw [getElem?_append_left hjlt, hj]

/-- The node with the pubkey of a staked one is at its position. -/
theorem StakedFirst.pubkey_eq_iff (h : StakedFirst get staked c.nodes) {k k' pubkey : ℕ}
    (hk : staked[k]? = some pubkey) :
    (c.nodes.map Node.pubkey)[k']? = some pubkey ↔ k' = k := by
  have hlt := lt_length hk
  have hpos := (h.getElem? hlt).trans hk
  constructor
  · intro hk'
    exact index_unique h.nodup hk' hpos
  · rintro rfl
    exact hpos

/-- Reading through a list whose elements all have an image. -/
theorem getElem?_filterMap {α β : Type} {f : α → Option β} {l : List α}
    (h : ∀ a ∈ l, (f a).isSome) (i : ℕ) : (l.filterMap f)[i]? = l[i]?.bind f := by
  induction l generalizing i with
  | nil => simp
  | cons a l ih =>
    obtain ⟨b, hb⟩ := Option.isSome_iff_exists.mp (h a (.head _))
    rw [filterMap_cons_some hb]
    cases i with
    | zero => simp [hb]
    | succ i =>
      rw [getElem?_cons_succ, getElem?_cons_succ]
      exact ih (fun a' ha' => h a' (.tail _ ha')) i

/-- The nodes before the first with a pubkey. -/
theorem takeWhile_eq_take {nodes : List Node} {j : ℕ} {n : Node} {pubkey : ℕ}
    (hj : nodes[j]? = some n) (hn : n.pubkey = pubkey)
    (hbefore : ∀ (i : ℕ) (m : Node), i < j → nodes[i]? = some m → m.pubkey ≠ pubkey) :
    nodes.takeWhile (fun n => decide (n.pubkey ≠ pubkey)) = nodes.take j := by
  obtain ⟨hlt, rfl⟩ := List.getElem?_eq_some_iff.mp hj
  rw [takeWhile_eq_take_findIdx_not, (findIdx_eq hlt).mpr]
  refine ⟨by simpa using hn, fun i hi => ?_⟩
  simpa using hbefore i _ hi (getElem?_eq_getElem _)

section
variable {rng : Rng} {seed : rng.State} {rest : List ℕ} {fanout i j k : ℕ}
  (h : StakedFirst get staked c.nodes) (hshuffled : c.shuffled rng leader seed = drawn ++ rest)
include h hshuffled

/-- A staked node at place `i` of the shuffle retransmits to the places of its peers. -/
theorem retransmitPeers_eq (hnodup : drawn.Nodup) (hrest : ∀ z ∈ rest, staked.length ≤ z)
    (hfanout : 0 < fanout) (hk : staked[k]? = some c.pubkey) (hi : drawn[i]? = some k) :
    c.retransmitPeers rng leader seed fanout =
      (i, (peerIndices fanout i).filterMap fun j => (drawn ++ rest)[j]?) := by
  have hklt := lt_length hk
  have hget := (getElem?_append_drawn hnodup hrest hklt hi).mpr rfl
  obtain ⟨hlt, hgetElem⟩ := List.getElem?_eq_some_iff.mp hget
  have hpred (k' : ℕ) : decide (c.nodes[k']?.map Node.pubkey = some c.pubkey) =
    decide (k' = k) := by
    rw [decide_eq_decide, ← getElem?_map, h.pubkey_eq_iff hk]
  have hfind : (drawn ++ rest).findIdx? (fun k' =>
      decide (c.nodes[k']?.map Node.pubkey = some c.pubkey)) = some i := by
    rw [findIdx?_eq_some_iff_getElem]
    refine ⟨hlt, by rw [hpred]; simpa using hgetElem, fun j hj => ?_⟩
    rw [hpred, decide_eq_true_eq]
    intro heq
    have := (getElem?_append_drawn hnodup hrest hklt hi).mp
      (List.getElem?_eq_some_iff.mpr ⟨hj.trans hlt, heq⟩)
    omega
  obtain ⟨hincreasing, hgreater⟩ := @peerIndices_increasing fanout i hfanout
  rw [retransmitPeers, hshuffled, getRetransmitPeers]
  simp only [hfind]
  rw [scanPeers_eq hincreasing hgreater]

/-- A staked node at place `j` of the shuffle expects shreds from the place of its parent. -/
theorem getRetransmitParent_eq (hnodup : drawn.Nodup) (hdrawn : ∀ k ∈ drawn, k < staked.length)
    (hfanout : 0 < fanout) (hleader : leader ≠ c.pubkey) (hk : staked[k]? = some c.pubkey)
    (hj : drawn[j]? = some k) :
    c.getRetransmitParent rng leader seed fanout =
      .ok (if j = 0 then none else
        drawn[parentIndex fanout j]?.bind fun k => staked[k]?) := by
  have hjlt := lt_length hj
  -- the node itself is staked
  obtain ⟨i, hi, hget⟩ : ∃ i, c.index c.pubkey = some i ∧
      (c.nodes.map Node.pubkey)[i]? = some c.pubkey := by
    rcases index_spec c c.pubkey with hindex | ⟨-, hnot⟩
    · exact hindex
    · exact absurd (mem_of_getElem? ((h.pubkey_eq_iff hk).mpr rfl)) hnot
  rw [getElem?_map] at hget
  obtain ⟨self, hself, hpubkey⟩ := Option.map_eq_some_iff.mp hget
  have hstake : (c.nodes[i]?.map Node.stake).getD 0 ≠ 0 := by
    rw [hself, Option.map_some, Option.getD_some, h.stake self (mem_of_getElem? hself), hpubkey]
    exact ((h.staked c.pubkey).mp (mem_of_getElem? hk)).ne'
  rw [ClusterNodes.getRetransmitParent, if_neg hleader, hi]
  dsimp only
  rw [if_neg hstake, hshuffled, filterMap_append]
  -- the drawn positions are those of nodes
  have hnode (k : ℕ) (hk : k ∈ drawn) : (c.nodes[k]?).isSome := by
    have hlt := (hdrawn k hk).trans_le h.length_le
    rw [getElem?_eq_getElem hlt]
    rfl
  have hfull (i k : ℕ) (hik : drawn[i]? = some k) : ((drawn.filterMap fun k => c.nodes[k]?) ++
      rest.filterMap fun k => c.nodes[k]?)[i]? = c.nodes[k]? := by
    have hread : (drawn.filterMap fun k => c.nodes[k]?)[i]? = c.nodes[k]? := by
      rw [getElem?_filterMap hnode i, hik, Option.bind_some]
    obtain ⟨n, hn⟩ := Option.isSome_iff_exists.mp (hnode k (mem_of_getElem? hik))
    rw [getElem?_append_left (lt_length (hread.trans hn)), hread]
  obtain ⟨n, hn, hnpubkey⟩ : ∃ n, c.nodes[k]? = some n ∧ n.pubkey = c.pubkey := by
    have hkget := (h.pubkey_eq_iff hk).mpr rfl
    rw [getElem?_map] at hkget
    exact Option.map_eq_some_iff.mp hkget
  have htake := takeWhile_eq_take ((hfull j k hj).trans hn) hnpubkey fun i m hij hm hmpubkey => by
    have hilt := hij.trans hjlt
    have hik := hfull i drawn[i] (getElem?_eq_getElem hilt)
    have hsame : drawn[i] = k := (h.pubkey_eq_iff hk).mp (by
      rw [getElem?_map, ← hik, hm, Option.map_some, hmpubkey])
    have := index_unique hnodup (hsame ▸ getElem?_eq_getElem hilt) hj
    omega
  have hlen := lt_length ((hfull j k hj).trans hn)
  rw [htake, length_take, Nat.min_eq_left hlen.le, Turbine.getRetransmitParent]
  congr 1
  split
  · rfl
  next hj0 =>
  have hparent := parentIndex_lt hfanout (Nat.pos_of_ne_zero hj0)
  have hplt := hparent.trans hjlt
  have hstaked := hdrawn _ (getElem_mem hplt)
  rw [getElem?_take_of_lt hparent, hfull _ _ (getElem?_eq_getElem hplt),
    getElem?_eq_getElem hplt, Option.bind_some, ← getElem?_map, h.getElem? hstaked]

/-- The order of the pubkeys begins with those of the draws, and goes on with nodes without
stake. -/
theorem order_eq (hdrawn : ∀ k ∈ drawn, k < staked.length)
    (hrest : ∀ z ∈ rest, staked.length ≤ z) :
    ∃ others, c.order rng leader seed = (drawn.filterMap fun k => staked[k]?) ++ others ∧
      ∀ pubkey ∈ others, get pubkey = 0 := by
  refine ⟨rest.filterMap fun k => (c.nodes.map Node.pubkey)[k]?, ?_, fun pubkey hpubkey => ?_⟩
  · rw [order, hshuffled, filterMap_append]
    congr 1
    exact filterMap_congr fun k hk => h.getElem? (hdrawn k hk)
  · obtain ⟨z, hz, hget⟩ := mem_filterMap.mp hpubkey
    obtain ⟨others, heq, hzero⟩ := h.pubkeys
    rw [heq, getElem?_append_right (hrest z hz)] at hget
    exact hzero pubkey (mem_of_getElem? hget)

end

section
variable (hstaked : ∀ pubkey, pubkey ∈ staked ↔ 0 < get pubkey)
  (hmem : ∀ k, k ∈ drawn ↔ stakedWeights get staked leader k ≠ 0)
include hstaked hmem

/-- The places of the draws are those of the staked nodes other than the leader, each once. -/
theorem places_spec (hnodup : drawn.Nodup) (hstakedNodup : staked.Nodup) :
    (drawn.filterMap fun k => staked[k]?).Nodup ∧
      ∀ pubkey, pubkey ∈ (drawn.filterMap fun k => staked[k]?) ↔
        0 < get pubkey ∧ pubkey ≠ leader := by
  refine ⟨hnodup.filterMap fun k k' pubkey hk hk' => ?_, fun pubkey => ?_⟩
  · exact index_unique hstakedNodup hk hk'
  rw [mem_filterMap, ← hstaked]
  constructor
  · rintro ⟨k, hk, hget⟩
    obtain ⟨pubkey', hget', hne⟩ := (stakedWeights_ne_zero hstaked).mp ((hmem k).mp hk)
    obtain rfl := Option.some.inj (hget.symm.trans hget')
    exact ⟨mem_of_getElem? hget, hne⟩
  · rintro ⟨hin, hne⟩
    obtain ⟨k, hk⟩ := mem_iff_getElem?.mp hin
    exact ⟨k, (hmem k).mpr ((stakedWeights_ne_zero hstaked).mpr ⟨pubkey, hk, hne⟩), hk⟩

/-- A staked node that is not the leader has a place. -/
theorem exists_place {pubkey : ℕ} (hpos : 0 < get pubkey) (hne : pubkey ≠ leader) :
    ∃ k i : ℕ, staked[k]? = some pubkey ∧ drawn[i]? = some k := by
  obtain ⟨k, hk⟩ := mem_iff_getElem?.mp ((hstaked pubkey).mpr hpos)
  obtain ⟨i, hi⟩ := mem_iff_getElem?.mp
    ((hmem k).mpr ((stakedWeights_ne_zero hstaked).mpr ⟨pubkey, hk, hne⟩))
  exact ⟨k, i, hk, hi⟩

end

/-- A node with an address is addressed exactly if it is among the peers. -/
theorem mem_addressed {rng : Rng} {seed : rng.State} {fanout k : ℕ} {check : SocketAddr → Bool}
    {n : Node} {addr : SocketAddr} (hnodup : (c.nodes.map Node.pubkey).Nodup)
    (hk : c.nodes[k]? = some n) (haddr : n.tvu = some addr) (hcheck : check addr = true) :
    (n.pubkey, addr) ∈ c.addressed rng leader seed fanout check ↔
      k ∈ (c.retransmitPeers rng leader seed fanout).2 := by
  rw [addressed, mem_filter, mem_filterMap]
  constructor
  · rintro ⟨⟨k', hk', hitem⟩, -⟩
    obtain ⟨n', hn', hitem⟩ := Option.bind_eq_some_iff.mp hitem
    obtain ⟨addr', -, heq⟩ := Option.map_eq_some_iff.mp hitem
    simp only [Prod.mk.injEq] at heq
    have hget {k : ℕ} {n : Node} (hk : c.nodes[k]? = some n) :
        (c.nodes.map Node.pubkey)[k]? = some n.pubkey := by
      rw [getElem?_map, hk, Option.map_some]
    exact index_unique hnodup (heq.1 ▸ hget hn') (hget hk) ▸ hk'
  · intro hpeer
    refine ⟨⟨k, hpeer, ?_⟩, hcheck⟩
    rw [hk, Option.bind_some, haddr, Option.map_some]

end topology

/-- For any map of stakes whose total fits, any leader, shred and fanout, and any two nodes,
whatever they know by gossip: the staked nodes other than the leader come first in the shuffles of
both, at the same places. So a staked node addresses another, whose address it has, exactly if the
other computes it as its parent; the addresses it sends to are those of the nodes it addresses. -/
theorem staked_topology (rng : Rng) (seed : rng.State) (stakes stakes' : Stakes)
    (hperm : stakes.entries.Perm stakes'.entries)
    (htotal : (stakes.entries.map Prod.snd).sum < 2 ^ 64) (sort sort' : UnstableSort)
    (view view' : GossipView) (leader fanout : ℕ) (hfanout : 0 < fanout)
    (check : SocketAddr → Bool) :
    let p := newClusterNodes sort view stakes
    let c := newClusterNodes sort' view' stakes'
    (∃ places rest rest', p.order rng leader seed = places ++ rest ∧
      c.order rng leader seed = places ++ rest' ∧ places.Nodup ∧
      (∀ pubkey, pubkey ∈ places ↔ 0 < stakes.get pubkey ∧ pubkey ≠ leader) ∧
      ∀ pubkey ∈ rest ++ rest', stakes.get pubkey = 0) ∧
    (0 < stakes.get p.pubkey → p.pubkey ≠ leader → 0 < stakes.get c.pubkey → c.pubkey ≠ leader →
      (∃ distance, p.getRetransmitAddrs rng leader seed fanout check =
        .ok (distance, (p.addressed rng leader seed fanout check).map Prod.snd)) ∧
      ∀ n ∈ p.nodes, n.pubkey = c.pubkey → ∀ addr, n.tvu = some addr → check addr = true →
      ((c.pubkey, addr) ∈ p.addressed rng leader seed fanout check ↔
        c.getRetransmitParent rng leader seed fanout = .ok (some p.pubkey))) := by
  intro p c
  have hp := (ordered_getNodes sort view stakes).stakedFirst
  have hc := staked_unique hperm (ordered_getNodes sort view stakes)
    (ordered_getNodes sort' view' stakes')
  set staked := ((getNodes sort view stakes).map Node.pubkey).filter fun pubkey =>
    0 < stakes.get pubkey with hstaked
  have hsum : (staked.map stakes.get).sum < 2 ^ 64 := by rw [sum_staked hp]; exact htotal
  obtain ⟨drawn, rest, hshuffled, hdrawn, hrest⟩ := shuffled_eq (c := p) hp rfl hsum leader rng seed
  obtain ⟨drawn', rest', hshuffled', hdrawn', hrest'⟩ :=
    shuffled_eq (c := c) hc rfl hsum leader rng seed
  obtain rfl := hdrawn.unique hdrawn'
  obtain ⟨hnodup, hmem⟩ := hdrawn.mem_iff (fun k hk => stakedWeights_of_le hk) rfl
  have hlt (k : ℕ) (hk : k ∈ drawn) : k < staked.length := by
    by_contra hge
    exact (hmem k).mp hk (stakedWeights_of_le (by omega))
  have hstakedNodup : staked.Nodup := by
    obtain ⟨others, heq, -⟩ := hp.pubkeys
    exact (heq ▸ hp.nodup).of_append_left
  refine ⟨?_, fun hpos hne hpos' hne' => ⟨?_, fun n hn hpubkey addr haddr hcheck => ?_⟩⟩
  · obtain ⟨others, horder, hothers⟩ := order_eq (c := p) hp hshuffled hlt hrest
    obtain ⟨others', horder', hothers'⟩ := order_eq (c := c) hc hshuffled' hlt hrest'
    obtain ⟨hplaces, hplacesMem⟩ := places_spec hp.staked hmem hnodup hstakedNodup
    refine ⟨_, others, others', horder, horder', hplaces, hplacesMem, fun pubkey hpubkey => ?_⟩
    exact (mem_append.mp hpubkey).elim (hothers pubkey) (hothers' pubkey)
  · exact ⟨_, p.getRetransmitAddrs_eq rng seed fanout check hne.symm⟩
  obtain ⟨k, i, hk, hi⟩ := exists_place hp.staked hmem hpos hne
  obtain ⟨k', j, hk', hj⟩ := exists_place hp.staked hmem hpos' hne'
  -- the node `c` is where it is in its own list
  obtain ⟨m, hm⟩ := mem_iff_getElem?.mp hn
  have hmk : m = k' := (hp.pubkey_eq_iff (c := p) hk').mp (by
    rw [getElem?_map, hm, Option.map_some, hpubkey])
  subst hmk
  rw [← hpubkey, mem_addressed hp.nodup hm haddr hcheck,
    retransmitPeers_eq (c := p) hp hshuffled hnodup hrest hfanout hk hi,
    getRetransmitParent_eq (c := c) hc hshuffled' hnodup hlt hfanout hne'.symm hk' hj]
  have hklt := hlt k (mem_of_getElem? hi)
  have hklt' := hlt m (mem_of_getElem? hj)
  simp only [mem_filterMap, getElem?_append_drawn hnodup hrest hklt' hj]
  simp only [exists_eq_right, mem_peerIndices hfanout, Except.ok.injEq]
  constructor
  · rintro ⟨hj0, hparent⟩
    rw [if_neg hj0.ne', hparent, hi, Option.bind_some, hk]
  intro hparent
  split at hparent
  · exact absurd hparent (by simp)
  next hj0 =>
  obtain ⟨k'', hk'', hget⟩ := Option.bind_eq_some_iff.mp hparent
  obtain rfl := index_unique hstakedNodup hget hk
  exact ⟨Nat.pos_of_ne_zero hj0, index_unique hnodup hk'' hi⟩

/-- A generator that always draws zero, which every range accepts. -/
def zeroRng : Rng where
  State := Unit
  next _ := (0, ())
  next_lt _ := by norm_num
  productive _ _ _ := ⟨0, by simp [accepts, wmul]⟩

/-- Whether the first node comes before the second or compares equal. -/
def NotAfter (a b : Node) : Prop := cmpNodesStake b a ≠ .gt

instance : DecidableRel NotAfter := fun _ _ => inferInstanceAs (Decidable (_ ≠ _))

/-- A contact info is above a pubkey. -/
def Node.rank (n : Node) : ℕ :=
  match n.node with
  | .contactInfo _ => 1
  | .pubkey _ => 0

lemma cmpNodesStake_eq (a b : Node) : cmpNodesStake a b =
    ((compare a.stake b.stake).then (compare a.pubkey b.pubkey)).then (compare a.rank b.rank) := by
  rcases a with ⟨_ | _, _⟩ <;> rcases b with ⟨_ | _, _⟩ <;> rfl

lemma notAfter_iff {a b : Node} : NotAfter a b ↔
    b.stake < a.stake ∨ b.stake = a.stake ∧
      (b.pubkey < a.pubkey ∨ b.pubkey = a.pubkey ∧ b.rank ≤ a.rank) := by
  rw [NotAfter, cmpNodesStake_eq, Ne, Ordering.then_eq_gt, Ordering.then_eq_gt]
  simp only [compare_gt_iff_gt, Ordering.then_eq_eq, compare_eq_iff_eq]
  omega

instance : Std.Total NotAfter := ⟨fun a b => by
  rw [notAfter_iff, notAfter_iff]
  omega⟩

instance : IsTrans Node NotAfter := ⟨fun a b c hab hbc => by
  rw [notAfter_iff] at *
  omega⟩

/-- A sort by insertion. -/
def insertionSort : UnstableSort where
  sort := List.insertionSort NotAfter
  perm := perm_insertionSort NotAfter
  sorted := pairwise_insertionSort NotAfter

def someStakes : Stakes := ⟨[(1, 5), (2, 3), (3, 4)], by decide⟩

/-- The node 1 knows the node 2. -/
def view₁ : GossipView := ⟨⟨1, some ⟨1, 8000⟩⟩, [⟨2, some ⟨2, 8000⟩⟩], true⟩

/-- The node 2 knows a node without stake only. -/
def view₂ : GossipView := ⟨⟨2, some ⟨2, 8000⟩⟩, [⟨7, some ⟨7, 8000⟩⟩], false⟩

theorem staked_topology_two_views :
    (someStakes.entries.map Prod.snd).sum < 2 ^ 64 ∧
    ((2, ⟨2, 8000⟩) ∈ (newClusterNodes insertionSort view₁ someStakes).addressed zeroRng 3 () 2
        (fun _ => true) ↔
      (newClusterNodes insertionSort view₂ someStakes).getRetransmitParent zeroRng 3 () 2 =
        .ok (some 1)) :=
  ⟨by decide, ((staked_topology zeroRng () someStakes someStakes (List.Perm.refl _) (by decide)
    insertionSort insertionSort view₁ view₂ 3 2 (by decide) fun _ => true).2 (by decide) (by decide)
    (by decide) (by decide)).2 ⟨.contactInfo ⟨2, some ⟨2, 8000⟩⟩, 3⟩ (by decide +kernel) rfl
      ⟨2, 8000⟩
    rfl rfl⟩

end Trezoa.Turbine
