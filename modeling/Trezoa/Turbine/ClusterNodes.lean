import Trezoa.Gossip.WeightedShuffle
import Trezoa.Turbine.RetransmitTree

/-!
# The nodes of a cluster as one of them sees it

Models the `ClusterNodes` of the retransmit stage of `turbine/src/cluster_nodes.rs`: the nodes that
a node knows of, by gossip or by their stake, and whom it sends shreds to or gets them from.

The sort is not stable, so that it is a parameter: it returns some sorted permutation. A map of
stakes is a list of its entries in the order of the iteration. There is one protocol, UDP.
-/

namespace Trezoa.Turbine

open Gossip

/-! ## Nodes -/

structure SocketAddr where
  ip : ℕ
  port : ℕ
deriving DecidableEq

/-- What is kept of the contact info of a node. -/
structure ContactInfo where
  pubkey : ℕ
  tvuUdp : Option SocketAddr
deriving DecidableEq

/-- A node that is known by gossip, or only by its stake. -/
inductive NodeId where
  | contactInfo (node : ContactInfo)
  | pubkey (pubkey : ℕ)
deriving DecidableEq

structure Node where
  node : NodeId
  stake : ℕ
deriving DecidableEq

namespace Node

def pubkey (n : Node) : ℕ :=
  match n.node with
  | .contactInfo node => node.pubkey
  | .pubkey pubkey => pubkey

/-- The address for shreds. -/
def tvu (n : Node) : Option SocketAddr :=
  match n.node with
  | .contactInfo node => node.tvuUdp
  | .pubkey _ => none

end Node

/-- Nodes are compared by stake and pubkey; a contact info is above a pubkey. -/
def cmpNodesStake (a b : Node) : Ordering :=
  ((compare a.stake b.stake).then (compare a.pubkey b.pubkey)).then
    (match a.node, b.node with
    | .contactInfo _, .contactInfo _ => .eq
    | .contactInfo _, .pubkey _ => .gt
    | .pubkey _, .contactInfo _ => .lt
    | .pubkey _, .pubkey _ => .eq)

/-- A sort of nodes from the greatest to the least, which need not be stable. -/
structure UnstableSort where
  sort : List Node → List Node
  perm : ∀ nodes, (sort nodes).Perm nodes
  sorted : ∀ nodes, (sort nodes).Pairwise fun a b => cmpNodesStake b a ≠ .gt

/-- The stakes of an epoch. -/
structure Stakes where
  entries : List (ℕ × ℕ)
  nodup : (entries.map Prod.fst).Nodup

/-- The stake of a pubkey, zero where it has none. -/
def Stakes.get (stakes : Stakes) (pubkey : ℕ) : ℕ := (stakes.entries.lookup pubkey).getD 0

/-- Leaves out nodes with the pubkey of the one before. -/
def dedupAfter (previous : Node) : List Node → List Node
  | [] => []
  | node :: rest =>
    if node.pubkey = previous.pubkey then dedupAfter previous rest
    else node :: dedupAfter node rest

/-- Keeps the first of consecutive nodes with one pubkey. -/
def dedupByPubkey : List Node → List Node
  | [] => []
  | node :: rest => node :: dedupAfter node rest

/-- Takes away addresses that an earlier node has, or whose IP address one has, and leaves out nodes
without stake that have none. -/
def dedupTvuAddrs : List SocketAddr → (ℕ → ℕ) → List Node → List Node
  | _, _, [] => []
  | addrs, counts, n :: rest =>
    match n.node with
    | .pubkey _ =>
      if n.stake > 0 then n :: dedupTvuAddrs addrs counts rest
      else dedupTvuAddrs addrs counts rest
    | .contactInfo info =>
      match info.tvuUdp with
      | none =>
        if n.stake > 0 then n :: dedupTvuAddrs addrs counts rest
        else dedupTvuAddrs addrs counts rest
      | some addr =>
        let counts := Function.update counts addr.ip (counts addr.ip + 1)
        if addr ∈ addrs ∨ counts addr.ip > 1 then
          if n.stake > 0 then
            ⟨.contactInfo { info with tvuUdp := none }, n.stake⟩
              :: dedupTvuAddrs (addr :: addrs) counts rest
          else dedupTvuAddrs (addr :: addrs) counts rest
        else n :: dedupTvuAddrs (addr :: addrs) counts rest

/-- What a node knows by gossip. -/
structure GossipView where
  myContactInfo : ContactInfo
  tvuPeers : List ContactInfo
  shouldDedupTvuAddrs : Bool

/-- The node itself, its peers and all staked nodes. -/
def knownNodes (view : GossipView) (stakes : Stakes) : List Node :=
  ⟨.contactInfo view.myContactInfo, stakes.get view.myContactInfo.pubkey⟩
    :: view.tvuPeers.map (fun node => ⟨.contactInfo node, stakes.get node.pubkey⟩)
    ++ (stakes.entries.filter fun entry => entry.2 > 0).map fun entry => ⟨.pubkey entry.1, entry.2⟩

/-- The nodes by descending stake and pubkey. -/
def getNodes (sort : UnstableSort) (view : GossipView) (stakes : Stakes) : List Node :=
  let nodes := dedupByPubkey (sort.sort (knownNodes view stakes))
  if view.shouldDedupTvuAddrs then dedupTvuAddrs [] (fun _ => 0) nodes else nodes

/-! ## Retransmission -/

/-- The nodes of a cluster as the node `pubkey` sees it. -/
structure ClusterNodes where
  pubkey : ℕ
  nodes : List Node
  weightedShuffle : WeightedShuffle

def newClusterNodes (sort : UnstableSort) (view : GossipView) (stakes : Stakes) : ClusterNodes :=
  let nodes := getNodes sort view stakes
  ⟨view.myContactInfo.pubkey, nodes, .new (nodes.map Node.stake)⟩

/-- A shred does not go back to the leader. -/
inductive Error where
  | loopback
deriving DecidableEq

namespace ClusterNodes

variable (rng : Rng) (c : ClusterNodes)

/-- The position of a pubkey among the nodes; the last one where there are more. -/
def index (pubkey : ℕ) : Option ℕ :=
  (c.nodes.zipIdx.filter fun item => item.1.pubkey = pubkey).getLast?.map Prod.snd

/-- The positions of the nodes other than the leader in the order of the shuffle. The leader and the
shred determine the state of the generator. -/
def shuffled (leader : ℕ) (seed : rng.State) : List ℕ :=
  let shuffle := match c.index leader with
    | none => c.weightedShuffle
    | some index => c.weightedShuffle.removeIndex index
  shuffle.shuffle rng c.nodes.length seed

/-- The place of the node in the shuffle, and the positions of those it retransmits to. -/
def retransmitPeers (leader : ℕ) (seed : rng.State) (fanout : ℕ) : ℕ × List ℕ :=
  getRetransmitPeers fanout (fun k => decide (c.nodes[k]?.map Node.pubkey = some c.pubkey))
    (c.shuffled rng leader seed)

/-- The distance from the root, and the addresses to send to. -/
def getRetransmitAddrs (leader : ℕ) (seed : rng.State) (fanout : ℕ) (check : SocketAddr → Bool) :
    Except Error (ℕ × List SocketAddr) :=
  if leader = c.pubkey then .error .loopback
  else
    let (index, peers) := c.retransmitPeers rng leader seed fanout
    let addrs := (peers.filterMap fun k => c.nodes[k]?.bind Node.tvu).filter check
    .ok (getRootDistance index fanout, addrs)

/-- The node that a shred comes from; none for the root and for a node without stake. -/
def getRetransmitParent (leader : ℕ) (seed : rng.State) (fanout : ℕ) : Except Error (Option ℕ) :=
  if leader = c.pubkey then .error .loopback
  else
    match c.index c.pubkey with
    | none => .ok none
    | some index =>
      if (c.nodes[index]?.map Node.stake).getD 0 = 0 then .ok none
      else
        let nodes := ((c.shuffled rng leader seed).filterMap fun k => c.nodes[k]?).takeWhile
          fun node => node.pubkey ≠ c.pubkey
        .ok ((Turbine.getRetransmitParent fanout nodes.length nodes).map Node.pubkey)

end ClusterNodes
end Trezoa.Turbine
