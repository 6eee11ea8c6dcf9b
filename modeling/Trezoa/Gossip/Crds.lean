import Trezoa.Lib.IndexMap
import Trezoa.Lib.OrdMap

/-!
# The gossip table

The table of the values a node knows from gossip, with the indices it keeps over them. The table is
a vector: a removed value's place is taken by the last one, and all indices are patched.

* `CrdsValue`, `CrdsValueLabel`: a signed value and the key under which one value is kept. A hash
  and a pubkey are 32 bytes, read as a number in the order of the bytes; of the contents only what
  the table reads is kept, the rest is in the hash.

Ordinals are natural numbers: a table takes fewer than `2 ^ 64` insertions. The counters of the
statistics are left out.
-/

namespace Trezoa.Gossip

open Lib

/-! ## Values -/

/-- How a node is reached; of its fields those the table reads. -/
structure ContactInfo where
  pubkey : ℕ
  wallclock : ℕ
  /-- When the node instance was first created. -/
  outset : ℕ
  shredVersion : ℕ
deriving DecidableEq

/-- The contents of a value: who it is from and when it was made, with the index of the kinds that
have several values a pubkey. -/
inductive CrdsData where
  | legacyContactInfo (pubkey wallclock : ℕ)
  | vote (index pubkey wallclock : ℕ)
  | lowestSlot (index pubkey wallclock : ℕ)
  | legacySnapshotHashes (pubkey wallclock : ℕ)
  | accountsHashes (pubkey wallclock : ℕ)
  | epochSlots (index pubkey wallclock : ℕ)
  | legacyVersion (pubkey wallclock : ℕ)
  | version (pubkey wallclock : ℕ)
  | nodeInstance (pubkey wallclock : ℕ)
  | duplicateShred (index pubkey wallclock : ℕ)
  | snapshotHashes (pubkey wallclock : ℕ)
  | contactInfo (info : ContactInfo)
  | restartLastVotedForkSlots (pubkey wallclock : ℕ)
  | restartHeaviestFork (pubkey wallclock : ℕ)
deriving DecidableEq

namespace CrdsData

/-- When the value was made. -/
def wallclock : CrdsData → ℕ
  | legacyContactInfo _ wallclock => wallclock
  | vote _ _ wallclock => wallclock
  | lowestSlot _ _ wallclock => wallclock
  | legacySnapshotHashes _ wallclock => wallclock
  | accountsHashes _ wallclock => wallclock
  | epochSlots _ _ wallclock => wallclock
  | legacyVersion _ wallclock => wallclock
  | version _ wallclock => wallclock
  | nodeInstance _ wallclock => wallclock
  | duplicateShred _ _ wallclock => wallclock
  | snapshotHashes _ wallclock => wallclock
  | contactInfo info => info.wallclock
  | restartLastVotedForkSlots _ wallclock => wallclock
  | restartHeaviestFork _ wallclock => wallclock

/-- Who the value is from. -/
def pubkey : CrdsData → ℕ
  | legacyContactInfo pubkey _ => pubkey
  | vote _ pubkey _ => pubkey
  | lowestSlot _ pubkey _ => pubkey
  | legacySnapshotHashes pubkey _ => pubkey
  | accountsHashes pubkey _ => pubkey
  | epochSlots _ pubkey _ => pubkey
  | legacyVersion pubkey _ => pubkey
  | version pubkey _ => pubkey
  | nodeInstance pubkey _ => pubkey
  | duplicateShred _ pubkey _ => pubkey
  | snapshotHashes pubkey _ => pubkey
  | contactInfo info => info.pubkey
  | restartLastVotedForkSlots pubkey _ => pubkey
  | restartHeaviestFork pubkey _ => pubkey

/-- Whether the value is a contact-info. -/
def isContactInfo : CrdsData → Bool
  | contactInfo _ => true
  | _ => false

/-- Whether the value is a vote. -/
def isVote : CrdsData → Bool
  | vote .. => true
  | _ => false

/-- Whether the value holds epoch-slots. -/
def isEpochSlots : CrdsData → Bool
  | epochSlots .. => true
  | _ => false

/-- Whether the value is a duplicate-shred. -/
def isDuplicateShred : CrdsData → Bool
  | duplicateShred .. => true
  | _ => false

end CrdsData

/-- The key of a value in the table. -/
inductive CrdsValueLabel where
  | legacyContactInfo (pubkey : ℕ)
  | vote (index pubkey : ℕ)
  | lowestSlot (pubkey : ℕ)
  | legacySnapshotHashes (pubkey : ℕ)
  | epochSlots (index pubkey : ℕ)
  | accountsHashes (pubkey : ℕ)
  | legacyVersion (pubkey : ℕ)
  | version (pubkey : ℕ)
  | nodeInstance (pubkey : ℕ)
  | duplicateShred (index pubkey : ℕ)
  | snapshotHashes (pubkey : ℕ)
  | contactInfo (pubkey : ℕ)
  | restartLastVotedForkSlots (pubkey : ℕ)
  | restartHeaviestFork (pubkey : ℕ)
deriving DecidableEq

namespace CrdsValueLabel

/-- Who the value of the label is from. -/
def pubkey : CrdsValueLabel → ℕ
  | legacyContactInfo pubkey => pubkey
  | vote _ pubkey => pubkey
  | lowestSlot pubkey => pubkey
  | legacySnapshotHashes pubkey => pubkey
  | epochSlots _ pubkey => pubkey
  | accountsHashes pubkey => pubkey
  | legacyVersion pubkey => pubkey
  | version pubkey => pubkey
  | nodeInstance pubkey => pubkey
  | duplicateShred _ pubkey => pubkey
  | snapshotHashes pubkey => pubkey
  | contactInfo pubkey => pubkey
  | restartLastVotedForkSlots pubkey => pubkey
  | restartHeaviestFork pubkey => pubkey

/-- Whether the label is that of a contact-info. -/
def isContactInfo : CrdsValueLabel → Bool
  | contactInfo _ => true
  | _ => false

/-- Whether the label is that of a vote. -/
def isVote : CrdsValueLabel → Bool
  | vote .. => true
  | _ => false

/-- Whether the label is that of epoch-slots. -/
def isEpochSlots : CrdsValueLabel → Bool
  | epochSlots .. => true
  | _ => false

/-- Whether the label is that of a duplicate-shred. -/
def isDuplicateShred : CrdsValueLabel → Bool
  | duplicateShred .. => true
  | _ => false

end CrdsValueLabel

/-- A value of the gossip network. -/
structure CrdsValue where
  data : CrdsData
  /-- The hash of the signature and the contents. -/
  hash : ℕ
deriving DecidableEq

namespace CrdsValue

/-- Who the value is from. -/
def pubkey (value : CrdsValue) : ℕ := value.data.pubkey

/-- When the value was made. -/
def wallclock (value : CrdsValue) : ℕ := value.data.wallclock

/-- The label under which the value is kept. -/
def label (value : CrdsValue) : CrdsValueLabel :=
  let pubkey := value.data.pubkey
  match value.data with
  | .legacyContactInfo .. => .legacyContactInfo pubkey
  | .vote ix .. => .vote ix pubkey
  | .lowestSlot .. => .lowestSlot pubkey
  | .legacySnapshotHashes .. => .legacySnapshotHashes pubkey
  | .accountsHashes .. => .accountsHashes pubkey
  | .epochSlots ix .. => .epochSlots ix pubkey
  | .legacyVersion .. => .legacyVersion pubkey
  | .version .. => .version pubkey
  | .nodeInstance .. => .nodeInstance pubkey
  | .duplicateShred ix .. => .duplicateShred ix pubkey
  | .snapshotHashes .. => .snapshotHashes pubkey
  | .contactInfo .. => .contactInfo pubkey
  | .restartLastVotedForkSlots .. => .restartLastVotedForkSlots pubkey
  | .restartHeaviestFork .. => .restartHeaviestFork pubkey

end CrdsValue

/-- How a value came to the node. -/
inductive GossipRoute where
  | localMessage
  | pullRequest
  | pullResponse
  | pushMessage (pubkey : ℕ)
deriving DecidableEq

/-- A value with what the table notes about it. -/
structure VersionedCrdsValue where
  /-- The position of its insertion among all insertions. -/
  ordinal : ℕ
  value : CrdsValue
  localTimestamp : ℕ
  /-- How often the value came by push, unless it was made locally. -/
  numPushRecv : Option ℕ
deriving DecidableEq

/-- A value as it enters the table. -/
def VersionedCrdsValue.new (value : CrdsValue) (cursor localTimestamp : ℕ) (route : GossipRoute) :
    VersionedCrdsValue where
  ordinal := cursor
  value := value
  localTimestamp := localTimestamp
  numPushRecv := match route with
    | .localMessage => none
    | .pullRequest => none
    | .pullResponse => some 0
    | .pushMessage _ => some 1

/-- Why the table refuses a request. -/
inductive CrdsError where
  | duplicatePush (numPushDups : ℕ)
  | insertFailed
  | unknownStakes
deriving DecidableEq

/-- How a call can panic. -/
inductive Panic where
  /-- `assert_eq!` or a debug assertion. -/
  | assertion
  /-- An index out of the bounds of a vector, or of a map without the key. -/
  | index
  /-- `unwrap` of a value that is not there. -/
  | unwrap
  /-- "this should not happen!" -/
  | unexpected
deriving DecidableEq

/-! ## The order of the values of a label -/

/-- Whether a contact-info replaces another one by its outset and wallclock, if these decide. -/
def ContactInfo.overrides (info other : ContactInfo) : Option Bool :=
  if info.pubkey ≠ other.pubkey then none
  else match compare (toLex (info.outset, info.wallclock)) (toLex (other.outset, other.wallclock))
    with
    | .lt => some false
    | .gt => some true
    | .eq => none

/-- The special case of the contact-infos. -/
def overridesContactInfo (value other : CrdsData) : Option Bool :=
  match value, other with
  | .contactInfo value, .contactInfo other => value.overrides other
  | _, _ => none

/-- Whether a value is newer than another one. -/
def overridesWallclock (value other : CrdsValue) : Bool :=
  match compare value.wallclock other.wallclock with
  | .lt => false
  | .gt => true
  -- ties are broken in the same way across the cluster
  | .eq => decide (other.hash < value.hash)

/-- Whether the first value updates the second one, which must have the same label. -/
def overrides (value : CrdsValue) (other : VersionedCrdsValue) : Except Panic Bool :=
  if value.label ≠ other.value.label then .error .assertion
  else match overridesContactInfo value.data other.value.data with
    | some out => .ok out
    | none => .ok (overridesWallclock value other.value)

/-! ## The shards -/

/-- The number of bits that select a shard. -/
def crdsShardsBits : ℕ := 12

/-- The first 8 bytes of a hash, the first one lowest. -/
def hashAsU64 (hash : ℕ) : ℕ :=
  Nat.ofDigits 256 ((List.range 8).map fun i => hash / 256 ^ (31 - i) % 256)

/-- The indices of the values, by the first bits of their hash. -/
structure CrdsShards where
  /-- Each shard maps the indices of its values to their hashes; there are `2 ^ shardBits`. -/
  shards : ℕ → IndexMap ℕ ℕ
  shardBits : ℕ

namespace CrdsShards

/-- All shards empty. -/
def new (shardBits : ℕ) : CrdsShards := ⟨fun _ => .empty, shardBits⟩

/-- The shard of a hash: the shift by 64 bits, of no shard bits, gives the only shard. -/
def shardIndex (s : CrdsShards) (hash : ℕ) : ℕ :=
  if 64 - s.shardBits < 64 then hash >>> (64 - s.shardBits) else 0

/-- The shards with the shard of a hash changed. -/
def modifyShard (s : CrdsShards) (hash : ℕ) (f : IndexMap ℕ ℕ → IndexMap ℕ ℕ) :
    Except Panic CrdsShards :=
  if s.shardIndex hash < 2 ^ s.shardBits then
    .ok { s with
      shards := Function.update s.shards (s.shardIndex hash) (f (s.shards (s.shardIndex hash))) }
  else .error .index

/-- The shards with the index of a value. -/
def insert (s : CrdsShards) (index : ℕ) (value : VersionedCrdsValue) : Except Panic CrdsShards :=
  let hash := hashAsU64 value.value.hash
  s.modifyShard hash fun shard => shard.insert index hash

/-- The shards without the index of a value. -/
def remove (s : CrdsShards) (index : ℕ) (value : VersionedCrdsValue) : Except Panic CrdsShards :=
  let hash := hashAsU64 value.value.hash
  s.modifyShard hash fun shard => shard.swapRemove index

end CrdsShards

/-! ## The table -/

/-- The table of the values and the indices over it. -/
structure Crds where
  /-- The value of each label. -/
  table : IndexMap CrdsValueLabel VersionedCrdsValue
  /-- The ordinal of the next insertion. -/
  cursor : ℕ
  shards : CrdsShards
  /-- The indices of the contact-infos. -/
  nodes : IndexSet ℕ
  /-- The indices of the votes, by their ordinals. -/
  votes : OrdMap ℕ ℕ
  /-- The indices of the epoch-slots, by their ordinals. -/
  epochSlots : OrdMap ℕ ℕ
  /-- The indices of the duplicate-shreds, by their ordinals. -/
  duplicateShreds : OrdMap ℕ ℕ
  /-- The indices of the values of each pubkey. -/
  records : OrdMap ℕ (IndexSet ℕ)
  /-- The indices of all values, by their ordinals. -/
  entries : OrdMap ℕ ℕ
  /-- The hashes of the values that were replaced or removed, with the time. -/
  purged : List (ℕ × ℕ)
  /-- The shred version of each node. -/
  shredVersions : OrdMap ℕ ℕ

/-- A cursor past an ordinal. -/
def consume (cursor ordinal : ℕ) : ℕ := max cursor (ordinal + 1)

namespace Crds

/-- An empty table. -/
def default : Crds where
  table := .empty
  cursor := 0
  shards := .new crdsShardsBits
  nodes := .empty
  votes := ∅
  epochSlots := ∅
  duplicateShreds := ∅
  records := ∅
  entries := ∅
  purged := []
  shredVersions := ∅

/-- Whether a value would update the table. -/
def upserts (c : Crds) (value : CrdsValue) : Except Panic Bool :=
  match c.table.get value.label with
  | some other => overrides value other
  | none => .ok true

/-! ### Insertion -/

/-- The index of a new value among those of its kind. -/
def indexNew (c : Crds) (value : VersionedCrdsValue) (index : ℕ) : Crds :=
  match value.value.data with
  | .contactInfo node =>
    { c with
      nodes := c.nodes.insert index ()
      shredVersions := c.shredVersions.insert value.value.pubkey node.shredVersion }
  | .vote .. => { c with votes := c.votes.insert value.ordinal index }
  | .epochSlots .. => { c with epochSlots := c.epochSlots.insert value.ordinal index }
  | .duplicateShred .. => { c with duplicateShreds := c.duplicateShreds.insert value.ordinal index }
  | _ => c

/-- A value of a new label goes to the end of the table. -/
def insertVacant (c : Crds) (value : VersionedCrdsValue) : Except Panic Crds := do
  let index := c.table.len
  let shards ← c.shards.insert index value
  let c := indexNew { c with shards } value index
  return { c with
    entries := c.entries.insert value.ordinal index
    records := c.records.insert value.value.pubkey
      ((c.records[value.value.pubkey]?.getD .empty).insert index ())
    cursor := consume c.cursor value.ordinal
    table := c.table.insert value.value.label value }

/-- The indices by kind, when a value takes the index of an older one of its label. -/
def indexReplaced (c : Crds) (value other : VersionedCrdsValue) (index : ℕ) :
    Except Panic Crds :=
  match value.value.data with
  | .contactInfo node =>
    if other.value.data.isContactInfo then
      .ok { c with
        shredVersions := c.shredVersions.insert value.value.pubkey node.shredVersion }
    else .error .assertion
  | .vote .. => .ok { c with votes := (c.votes.erase other.ordinal).insert value.ordinal index }
  | .epochSlots .. =>
    .ok { c with epochSlots := (c.epochSlots.erase other.ordinal).insert value.ordinal index }
  | .duplicateShred .. =>
    .ok { c with
      duplicateShreds := (c.duplicateShreds.erase other.ordinal).insert value.ordinal index }
  | _ => .ok c

/-- A value takes the place of the older one of its label. -/
def insertOccupied (c : Crds) (value other : VersionedCrdsValue) (index now : ℕ) :
    Except Panic Crds := do
  let shards ← c.shards.remove index other
  let shards ← shards.insert index value
  let c ← indexReplaced { c with shards } value other index
  if other.value.pubkey ≠ value.value.pubkey then .error .assertion
  else .ok { c with
    entries := (c.entries.erase other.ordinal).insert value.ordinal index
    cursor := consume c.cursor value.ordinal
    purged := c.purged ++ [(other.value.hash, now)]
    table := c.table.insert value.value.label value }

/-- A value that does not update the one of its label: outdated, or a duplicate. -/
def insertRefused (c : Crds) (value other : VersionedCrdsValue) (index now : ℕ)
    (route : GossipRoute) : Except CrdsError Unit × Crds :=
  if other.value.hash ≠ value.value.hash then
    (.error .insertFailed, { c with purged := c.purged ++ [(value.value.hash, now)] })
  else match route with
    | .pushMessage _ =>
      let numPushDups := other.numPushRecv.getD 0
      (.error (.duplicatePush numPushDups),
        { c with table := c.table.modifyIndex index fun entry =>
            { entry with numPushRecv := some (min (numPushDups + 1) 255) } })
    | _ => (.error .insertFailed, c)

/-- The insertion of a value whose label has one. -/
def insertOver (c : Crds) (value other : VersionedCrdsValue) (index now : ℕ)
    (route : GossipRoute) : Except Panic (Except CrdsError Unit × Crds) := do
  if ← overrides value.value other then
    return (.ok (), ← c.insertOccupied value other index now)
  else
    return c.insertRefused value other index now route

/-- Inserts a value: `Ok` if it is new or updates the one of its label. -/
def insert (c : Crds) (value : CrdsValue) (now : ℕ) (route : GossipRoute) :
    Except Panic (Except CrdsError Unit × Crds) :=
  let value := VersionedCrdsValue.new value c.cursor now route
  match c.table.getFull value.value.label with
  | none => (c.insertVacant value).map fun c => (.ok (), c)
  | some (index, other) => c.insertOver value other index now route

/-! ### Removal -/

/-- The indices by kind without those of a removed value. -/
def indexRemoved (c : Crds) (value : VersionedCrdsValue) (index : ℕ) : Crds :=
  match value.value.data with
  | .contactInfo _ => { c with nodes := c.nodes.swapRemove index }
  | .vote .. => { c with votes := c.votes.erase value.ordinal }
  | .epochSlots .. => { c with epochSlots := c.epochSlots.erase value.ordinal }
  | .duplicateShred .. => { c with duplicateShreds := c.duplicateShreds.erase value.ordinal }
  | _ => c

/-- The indices by kind of a value that moved from the end of the table to `index`. -/
def indexMoved (c : Crds) (value : VersionedCrdsValue) (size index : ℕ) : Crds :=
  match value.value.data with
  | .contactInfo _ => { c with nodes := (c.nodes.swapRemove size).insert index () }
  | .vote .. => { c with votes := c.votes.insert value.ordinal index }
  | .epochSlots .. => { c with epochSlots := c.epochSlots.insert value.ordinal index }
  | .duplicateShred .. => { c with duplicateShreds := c.duplicateShreds.insert value.ordinal index }
  | _ => c

/-- The records of a pubkey without an index; a pubkey without records is forgotten. -/
def removeRecord (c : Crds) (pubkey index : ℕ) : Except Panic Crds :=
  match c.records[pubkey]? with
  | none => .error .unexpected
  | some records =>
    let records := records.swapRemove index
    if records.len = 0 then
      .ok { c with
        records := c.records.erase pubkey
        shredVersions := c.shredVersions.erase pubkey }
    else .ok { c with records := c.records.insert pubkey records }

/-- All indices without those of a removed value. -/
def unindex (c : Crds) (value : VersionedCrdsValue) (index now : ℕ) : Except Panic Crds := do
  let shards ← c.shards.remove index value
  let c := indexRemoved
    { c with purged := c.purged ++ [(value.value.hash, now)], shards } value index
  removeRecord { c with entries := c.entries.erase value.ordinal } value.value.pubkey index

/-- The record of a moved value. -/
def moveRecord (c : Crds) (pubkey size index : ℕ) : Except Panic Crds :=
  match c.records[pubkey]? with
  | none => .error .unwrap
  | some records =>
    .ok { c with records := c.records.insert pubkey ((records.swapRemove size).insert index ()) }

/-- All indices of a value that moved from the end of the table to `index`. -/
def reindex (c : Crds) (value : VersionedCrdsValue) (size index : ℕ) : Except Panic Crds := do
  let shards ← c.shards.remove size value
  let shards ← shards.insert index value
  let c := indexMoved { c with shards } value size index
  moveRecord { c with entries := c.entries.insert value.ordinal index } value.value.pubkey
    size index

/-- The indices of the value that took the place of the removed one, if there is one. -/
def reindexMoved (c : Crds) (index : ℕ) : Except Panic Crds :=
  let size := c.table.len
  if index < size then
    match c.table.getIndex index with
    | none => .error .index
    | some (_, value) => c.reindex value size index
  else .ok c

/-- Removes the value of a label. -/
def remove (c : Crds) (key : CrdsValueLabel) (now : ℕ) : Except Panic Crds :=
  match c.table.getFull key with
  | none => .ok c
  | some (index, value) => do
    let c ← unindex { c with table := c.table.swapRemove key } value index now
    c.reindexMoved index

/-! ### Trimming -/

/-- What the standard library leaves open to `Crds.drop`. -/
structure DropOrder where
  /-- The order in which the keys of a hash map come. -/
  iterate : List ℕ → List ℕ
  iterate_perm : ∀ keys, (iterate keys).Perm keys
  /-- The order after `select_nth_unstable`. -/
  selectNth : ℕ → List (ℕ × ℕ) → List (ℕ × ℕ)
  selectNth_perm : ∀ n keys, (selectNth n keys).Perm keys

/-- Whether there are more pubkeys than the capacity, with a margin of 10%. -/
def shouldTrim (c : Crds) (cap : ℕ) : Bool := decide (10 * c.records.size > 11 * cap)

/-- The indices of the records of a pubkey. -/
def recordsOf (c : Crds) (pubkey : ℕ) : Except Panic (List ℕ) :=
  match c.records[pubkey]? with
  | none => .error .index
  | some records => .ok records.keys

/-- The label of the value at an index. -/
def labelAt (c : Crds) (index : ℕ) : Except Panic CrdsValueLabel :=
  match c.table.getIndex index with
  | none => .error .unwrap
  | some (label, _) => .ok label

/-- The `size` pubkeys with the lowest stakes, without those to keep. -/
def dropKeys (c : Crds) (order : DropOrder) (size : ℕ) (keep : List ℕ) (stakes : OrdMap ℕ ℕ) :
    List ℕ :=
  let keys := (order.iterate c.records.keys).map fun k => (stakes[k]?.getD 0, k)
  let keys := if size < keys.length then order.selectNth size keys else keys
  ((keys.take size).map Prod.snd).filter fun k => k ∉ keep

/-- Drops the values of the `size` pubkeys with the lowest stakes. -/
def drop (c : Crds) (order : DropOrder) (size : ℕ) (keep : List ℕ) (stakes : OrdMap ℕ ℕ)
    (now : ℕ) : Except Panic (Except CrdsError ℕ × Crds) :=
  if stakes.values.all (· = 0) then .ok (.error .unknownStakes, c)
  else do
    let indices ← (c.dropKeys order size keep stakes).mapM c.recordsOf
    let keys ← indices.flatten.mapM c.labelAt
    let c ← keys.foldlM (fun (c : Crds) key => c.remove key now) c
    return (.ok keys.length, c)

/-- Bounds the number of pubkeys by dropping those with the lowest stakes. -/
def trim (c : Crds) (order : DropOrder) (cap : ℕ) (keep : List ℕ) (stakes : OrdMap ℕ ℕ)
    (now : ℕ) : Except Panic (Except CrdsError ℕ × Crds) :=
  if c.shouldTrim cap then c.drop order (c.records.size - cap) keep stakes now
  else .ok (.ok 0, c)

/-! ### Timestamps -/

/-- A value with its timestamp raised. -/
def raiseTimestamp (now : ℕ) (entry : VersionedCrdsValue) : VersionedCrdsValue :=
  if entry.localTimestamp < now then { entry with localTimestamp := now } else entry

/-- The table with the timestamp of the value at an index raised. -/
def raiseTimestampAt (now : ℕ) (c : Crds) (index : ℕ) : Except Panic Crds :=
  if index < c.table.len then
    .ok { c with table := c.table.modifyIndex index (raiseTimestamp now) }
  else .error .index

/-- Raises the timestamp of the contact-info of a pubkey, or of all its values. -/
def updateRecordTimestamp (c : Crds) (pubkey now : ℕ) : Except Panic Crds :=
  match c.table.getFull (.contactInfo pubkey) with
  | some (index, _) => .ok { c with table := c.table.modifyIndex index (raiseTimestamp now) }
  | none =>
    match c.records[pubkey]? with
    | none => .ok c
    | some indices => indices.keys.foldlM (raiseTimestampAt now) c

/-! ### Consumers -/

/-- The value at an index that is in the table. -/
def valueAt (c : Crds) (index : ℕ) : Except Panic VersionedCrdsValue :=
  match c.table.getIndex index with
  | none => .error .index
  | some (_, value) => .ok value

/-- The values at the indices of the ordinals from the cursor on, and the cursor after them. -/
def consumeFrom (c : Crds) (index : OrdMap ℕ ℕ) (cursor : ℕ) :
    Except Panic (List VersionedCrdsValue × ℕ) := do
  let range := index.toList.filter fun entry => cursor ≤ entry.1
  let values ← range.mapM fun entry => c.valueAt entry.2
  return (values, range.foldl (fun cursor entry => consume cursor entry.1) cursor)

/-- The votes inserted since the cursor, and the cursor after them. -/
def getVotes (c : Crds) (cursor : ℕ) : Except Panic (List VersionedCrdsValue × ℕ) :=
  c.consumeFrom c.votes cursor

/-- The values inserted since the cursor, and the cursor after them. -/
def getEntries (c : Crds) (cursor : ℕ) : Except Panic (List VersionedCrdsValue × ℕ) :=
  c.consumeFrom c.entries cursor

end Crds
end Trezoa.Gossip
