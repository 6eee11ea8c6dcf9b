import Trezoa.Gossip.Consistency

/-!
# Consumers of the gossip table

A consumer keeps a cursor and asks again and again for what was inserted since. Between its requests
the table changes in any way.

* `run_consistent`: in every run no call panics, the indices are consistent and the consumers miss
  nothing.
-/

namespace Trezoa.Gossip

open Lib List

/-- A call of the table, or a request of one of the two consumers. -/
inductive Call where
  | insert (value : CrdsValue) (now : ℕ) (route : GossipRoute)
  | remove (key : CrdsValueLabel) (now : ℕ)
  | trim (order : Crds.DropOrder) (cap : ℕ) (keep : List ℕ) (stakes : OrdMap ℕ ℕ) (now : ℕ)
  | updateRecordTimestamp (pubkey now : ℕ)
  | getVotes
  | getEntries

/-- A table, and the cursors of its consumers with what they have received so far. -/
structure Node where
  crds : Crds
  votesCursor : ℕ
  votes : List VersionedCrdsValue
  entriesCursor : ℕ
  entries : List VersionedCrdsValue

namespace Node

/-- An empty table and consumers at its start. -/
def new : Node := ⟨.default, 0, [], 0, []⟩

/-- One call; what it returns beside the table is not used. -/
def step (node : Node) : Call → Except Panic Node
  | .insert value now route =>
    (node.crds.insert value now route).map fun r => { node with crds := r.2 }
  | .remove key now => (node.crds.remove key now).map fun crds => { node with crds }
  | .trim order cap keep stakes now =>
    (node.crds.trim order cap keep stakes now).map fun r => { node with crds := r.2 }
  | .updateRecordTimestamp pubkey now =>
    (node.crds.updateRecordTimestamp pubkey now).map fun crds => { node with crds }
  | .getVotes => (node.crds.getVotes node.votesCursor).map fun r =>
    { node with votes := node.votes ++ r.1, votesCursor := r.2 }
  | .getEntries => (node.crds.getEntries node.entriesCursor).map fun r =>
    { node with entries := node.entries ++ r.1, entriesCursor := r.2 }

/-- The calls one after the other. -/
def run (node : Node) (calls : List Call) : Except Panic Node := calls.foldlM step node

end Node

namespace Crds

variable {p : CrdsValue → Bool} {c c' : Crds} {m : OrdMap ℕ ℕ} {cursor : ℕ}
  {received new : List VersionedCrdsValue}

/-! ## One consumer -/

/-- What a consumer of the values with a property has received by the time its cursor is there. -/
structure Consumed (p : CrdsValue → Bool) (c : Crds) (cursor : ℕ)
    (received : List VersionedCrdsValue) : Prop where
  cursor_le : cursor ≤ c.cursor
  ordered : received.Pairwise fun a b => a.ordinal < b.ordinal
  below : ∀ v ∈ received, v.ordinal < cursor
  complete : ∀ i o v, c.entryAt i = some (o, v) → p v = true → o < cursor →
    ∃ r ∈ received, r.ordinal = o ∧ r.value = v

lemma consumed_default : Consumed p default 0 [] :=
  ⟨le_rfl, .nil, by simp, fun _ _ _ _ _ h => absurd h (Nat.not_lt_zero _)⟩

/-- New entries are above the cursor of a consumer, so that calls in between do not matter. -/
lemma Consumed.evolves (h : Consumed p c cursor received) (hevolves : c.Evolves c') :
    Consumed p c' cursor received where
  cursor_le := h.cursor_le.trans hevolves.cursor
  ordered := h.ordered
  below := h.below
  complete i o v hv hp ho := by
    rcases hevolves.entry i o v hv with ⟨j, hj⟩ | hle
    · exact h.complete j o v hj hp ho
    · exact absurd (h.cursor_le.trans hle) ho.not_ge

/-- The cursor after a range of ordinals. -/
lemma foldl_consume (range : List (ℕ × ℕ)) (cursor : ℕ) :
    cursor ≤ range.foldl (fun cursor entry => consume cursor entry.1) cursor
      ∧ (∀ entry ∈ range, entry.1 < range.foldl (fun cursor entry => consume cursor entry.1) cursor)
      ∧ ∀ bound, cursor ≤ bound → (∀ entry ∈ range, entry.1 < bound) →
        range.foldl (fun cursor entry => consume cursor entry.1) cursor ≤ bound := by
  induction range generalizing cursor with
  | nil => exact ⟨le_rfl, by simp, fun bound h _ => h⟩
  | cons entry range ih =>
    obtain ⟨hle, hlt, hbound⟩ := ih (consume cursor entry.1)
    have hconsume : cursor ≤ consume cursor entry.1 ∧ entry.1 < consume cursor entry.1 := by
      rw [consume]
      omega
    refine ⟨hconsume.1.trans hle, fun e he => ?_, fun bound hcursor hall => ?_⟩
    · rcases mem_cons.mp he with rfl | he
      · exact hconsume.2.trans_le hle
      · exact hlt e he
    · refine hbound bound ?_ fun e he => hall e (.tail _ he)
      have hentry := hall entry (.head _)
      rw [consume]
      omega

/-- The entries of an index in the order of their ordinals. -/
lemma pairwise_toList (m : OrdMap ℕ ℕ) : m.toList.Pairwise fun a b => a.1 < b.1 :=
  m.ordered_keys_toList.imp fun h => compare_lt_iff_lt.mp h

/-- A request returns, in the order of insertion, the values in the table from the cursor on, and
then the consumer has received all that are in the table. -/
theorem consumeFrom_spec (h : c.Consistent) (hm : OrdinalIndex p m c.entryAt)
    (hconsumed : Consumed p c cursor received) : ∃ new cursor',
      c.consumeFrom m cursor = .ok (new, cursor') ∧ Consumed p c cursor' (received ++ new)
      ∧ (∀ v ∈ new, p v.value = true ∧ ∃ i, c.entryAt i = some (v.ordinal, v.value))
      ∧ ∀ i o v, c.entryAt i = some (o, v) → p v = true →
        ∃ r ∈ received ++ new, r.ordinal = o ∧ r.value = v := by
  unfold consumeFrom
  generalize hrange : m.toList.filter (fun entry => decide (cursor ≤ entry.1)) = range
  have hmem : ∀ entry, entry ∈ range ↔ m[entry.1]? = some entry.2 ∧ cursor ≤ entry.1 := by
    intro entry
    rw [← hrange, mem_filter, Std.TreeMap.mem_toList_iff_getElem?_eq_some]
    simp
  obtain ⟨new, hnew, hvalues⟩ := mapM_returns (l := range)
    (g := fun entry => c.valueAt entry.2)
    (fun entry v => v.ordinal = entry.1 ∧ p v.value = true
      ∧ c.entryAt entry.2 = some (v.ordinal, v.value)) (by
      intro entry hentry
      obtain ⟨⟨o, w⟩, hw, rfl, hp⟩ := (hm entry.1 entry.2).mp ((hmem entry).mp hentry).1
      obtain ⟨⟨label, v⟩, hv, heq⟩ := Option.map_eq_some_iff.mp hw
      simp only [Prod.mk.injEq] at heq
      obtain ⟨hordinal, rfl⟩ := heq
      exact ⟨v, by rw [valueAt, hv], hordinal, hp, entryAt_of_getIndex hv⟩)
  obtain ⟨hle, hlt, hbound⟩ := foldl_consume range cursor
  generalize hcursor : range.foldl (fun cursor entry => consume cursor entry.1) cursor = cursor'
    at hle hlt hbound
  have hordinals : new.map VersionedCrdsValue.ordinal = range.map Prod.fst := by
    rw [← forall₂_eq_eq_eq, forall₂_map_left_iff, forall₂_map_right_iff]
    exact hvalues.flip.imp fun v entry hv => hv.1
  -- values and entries correspond position by position, in both directions
  have hfrom : ∀ v ∈ new, ∃ entry ∈ range, v.ordinal = entry.1 ∧ p v.value = true
      ∧ c.entryAt entry.2 = some (v.ordinal, v.value) := by
    intro v hv
    obtain ⟨n, hn, rfl⟩ := getElem_of_mem hv
    have hn' : n < range.length := hvalues.length_eq ▸ hn
    exact ⟨range[n], getElem_mem hn', hvalues.get hn' hn⟩
  have hto : ∀ entry ∈ range, ∃ v ∈ new, v.ordinal = entry.1
      ∧ c.entryAt entry.2 = some (v.ordinal, v.value) := by
    intro entry hentry
    obtain ⟨n, hn, rfl⟩ := getElem_of_mem hentry
    have hn' : n < new.length := hvalues.length_eq ▸ hn
    have hv := hvalues.get hn hn'
    exact ⟨new[n], getElem_mem hn', hv.1, hv.2.2⟩
  have hall : ∀ i o v, c.entryAt i = some (o, v) → p v = true →
      ∃ r ∈ received ++ new, r.ordinal = o ∧ r.value = v := by
    intro i o v hv hp
    rcases lt_or_ge o cursor with ho | ho
    · obtain ⟨r, hr, hreq⟩ := hconsumed.complete i o v hv hp ho
      exact ⟨r, mem_append_left _ hr, hreq⟩
    have hentry : (o, i) ∈ range := (hmem (o, i)).mpr ⟨(hm o i).mpr ⟨(o, v), hv, rfl, hp⟩, ho⟩
    obtain ⟨r, hr, hordinal, hat⟩ := hto (o, i) hentry
    cases hv.symm.trans hat
    exact ⟨r, mem_append_right _ hr, rfl, rfl⟩
  refine ⟨new, cursor', ?_, ?_, fun v hv => ?_, hall⟩
  · simp [hnew, hcursor, bind, Except.bind, pure, Except.pure]
  · constructor
    · refine hbound _ hconsumed.cursor_le fun entry hentry => ?_
      obtain ⟨v, -, hordinal, hat⟩ := hto entry hentry
      rw [← hordinal]
      exact h.ordinal_lt _ _ _ hat
    · rw [pairwise_append]
      refine ⟨hconsumed.ordered, ?_, fun a ha b hb => ?_⟩
      · have hsorted : (new.map VersionedCrdsValue.ordinal).Pairwise (· < ·) := by
          rw [hordinals, pairwise_map, ← hrange]
          exact (pairwise_toList m).filter _
        exact pairwise_map.mp hsorted
      · obtain ⟨entry, hentry, hordinal, -⟩ := hfrom b hb
        rw [hordinal]
        exact (hconsumed.below a ha).trans_le ((hmem entry).mp hentry).2
    · intro v hv
      rcases mem_append.mp hv with hv | hv
      · exact (hconsumed.below v hv).trans_le hle
      · obtain ⟨entry, hentry, hordinal, -⟩ := hfrom v hv
        rw [hordinal]
        exact hlt entry hentry
    · exact fun i o v hv hp _ => hall i o v hv hp
  · obtain ⟨entry, -, -, hp, hat⟩ := hfrom v hv
    exact ⟨hp, _, hat⟩

end Crds

/-! ## Runs -/

namespace Node

open Crds

variable {node : Node}

/-- The indices are consistent, and both consumers have received what they should. -/
structure Invariant (node : Node) : Prop where
  consistent : node.crds.Consistent
  votes : Consumed (fun v => v.data.isVote) node.crds node.votesCursor node.votes
  entries : Consumed (fun _ => true) node.crds node.entriesCursor node.entries

lemma invariant_new : new.Invariant := ⟨consistent_default, consumed_default, consumed_default⟩

/-- A call of the table does not disturb the consumers. -/
lemma Invariant.withCrds (h : node.Invariant) {crds : Crds} (hconsistent : crds.Consistent)
    (hevolves : node.crds.Evolves crds) : Invariant { node with crds } :=
  ⟨hconsistent, h.votes.evolves hevolves, h.entries.evolves hevolves⟩

/-- Every call returns and keeps the invariant. -/
theorem Invariant.step (h : node.Invariant) (call : Call) :
    ∃ node', node.step call = .ok node' ∧ node'.Invariant := by
  cases call with
  | insert value now route =>
    obtain ⟨result, crds, hcrds, hconsistent, hevolves⟩ := h.consistent.insert value now route
    exact ⟨_, by rw [Node.step, hcrds]; rfl, h.withCrds hconsistent hevolves⟩
  | remove key now =>
    obtain ⟨crds, hcrds, hconsistent, hcursor, hentry⟩ := h.consistent.remove key now
    exact ⟨_, by rw [Node.step, hcrds]; rfl, h.withCrds hconsistent
      ⟨hcursor.ge, fun i o v hv => .inl (hentry i o v hv)⟩⟩
  | trim order cap keep stakes now =>
    obtain ⟨result, crds, hcrds, hconsistent, hevolves⟩ :=
      h.consistent.trim order cap keep stakes now
    exact ⟨_, by rw [Node.step, hcrds]; rfl, h.withCrds hconsistent hevolves⟩
  | updateRecordTimestamp pubkey now =>
    obtain ⟨crds, hcrds, hconsistent, hevolves⟩ := h.consistent.updateRecordTimestamp pubkey now
    exact ⟨_, by rw [Node.step, hcrds]; rfl, h.withCrds hconsistent hevolves⟩
  | getVotes =>
    obtain ⟨received, cursor, hget, hconsumed, -⟩ :=
      consumeFrom_spec h.consistent h.consistent.indexed.votes h.votes
    refine ⟨{ node with votes := node.votes ++ received, votesCursor := cursor }, ?_,
      h.consistent, hconsumed, h.entries⟩
    rw [Node.step, Crds.getVotes, hget]
    rfl
  | getEntries =>
    obtain ⟨received, cursor, hget, hconsumed, -⟩ :=
      consumeFrom_spec h.consistent h.consistent.indexed.entries h.entries
    refine ⟨{ node with entries := node.entries ++ received, entriesCursor := cursor }, ?_,
      h.consistent, h.votes, hconsumed⟩
    rw [Node.step, Crds.getEntries, hget]
    rfl

/-- Every run returns and keeps the invariant. -/
lemma Invariant.run (h : node.Invariant) (calls : List Call) :
    ∃ node', node.run calls = .ok node' ∧ node'.Invariant :=
  foldlM_returns Node.Invariant (fun _ hnode call _ => hnode.step call) h

/-- After any calls, none of which panics, the indices are consistent. Each consumer has received
its values in the order of their insertion, none twice, and with its next request it gets values of
the table only and has then received all of its values that are in the table. -/
theorem run_consistent (calls : List Call) : ∃ node, new.run calls = .ok node
    ∧ node.crds.Consistent
    ∧ node.votes.Pairwise (fun a b => a.ordinal < b.ordinal)
    ∧ node.entries.Pairwise (fun a b => a.ordinal < b.ordinal)
    ∧ (∃ received cursor, node.crds.getVotes node.votesCursor = .ok (received, cursor)
      ∧ (node.votes ++ received).Pairwise (fun a b => a.ordinal < b.ordinal)
      ∧ (∀ v ∈ received, v.value.data.isVote = true
        ∧ ∃ i, node.crds.entryAt i = some (v.ordinal, v.value))
      ∧ ∀ i o v, node.crds.entryAt i = some (o, v) → v.data.isVote = true →
        ∃ r ∈ node.votes ++ received, r.ordinal = o ∧ r.value = v)
    ∧ ∃ received cursor, node.crds.getEntries node.entriesCursor = .ok (received, cursor)
      ∧ (node.entries ++ received).Pairwise (fun a b => a.ordinal < b.ordinal)
      ∧ (∀ v ∈ received, ∃ i, node.crds.entryAt i = some (v.ordinal, v.value))
      ∧ ∀ i o v, node.crds.entryAt i = some (o, v) →
        ∃ r ∈ node.entries ++ received, r.ordinal = o ∧ r.value = v := by
  obtain ⟨node, hrun, h⟩ := invariant_new.run calls
  obtain ⟨votes, votesCursor, hvotes, hvotesConsumed, hvotesOnly, hvotesAll⟩ :=
    consumeFrom_spec h.consistent h.consistent.indexed.votes h.votes
  obtain ⟨entries, entriesCursor, hentries, hentriesConsumed, hentriesOnly, hentriesAll⟩ :=
    consumeFrom_spec h.consistent h.consistent.indexed.entries h.entries
  exact ⟨node, hrun, h.consistent, h.votes.ordered, h.entries.ordered,
    ⟨votes, votesCursor, hvotes, hvotesConsumed.ordered, hvotesOnly, hvotesAll⟩,
    entries, entriesCursor, hentries, hentriesConsumed.ordered,
    fun v hv => (hentriesOnly v hv).2, fun i o v hv => hentriesAll i o v hv rfl⟩

end Node
end Trezoa.Gossip
