import Trezoa.Gossip.CrdsSteps

/-!
# Gossip tables converge

Two nodes that have received the same values hold the same table, in whatever order, how often, when
and by whichever route the values came.

* `insertAll_held`: after any insertions a label holds the last of its values in the order
  `CrdsValue.rank`.
* `insertAll_converges`: so the tables of two nodes with the same values agree.
-/

namespace Trezoa.Gossip

open Lib List IndexMap

/-- A value with the time and the route of its insertion. -/
structure Insertion where
  value : CrdsValue
  now : ℕ
  route : GossipRoute

namespace Crds

/-- The value the table holds for a label. -/
def held (c : Crds) (label : CrdsValueLabel) : Option CrdsValue :=
  (c.table.get label).map VersionedCrdsValue.value

/-- The insertions one after the other, whatever each of them returns. -/
def insertAll (c : Crds) (insertions : List Insertion) : Except Panic Crds :=
  insertions.foldlM (fun c i => (c.insert i.value i.now i.route).map Prod.snd) c

/-- Whether a value comes after the one that is held for its label, if there is one. -/
def Supersedes (c : Crds) (value : CrdsValue) : Prop :=
  ∀ other, c.held value.label = some other → other.rank < value.rank

/-- The later of the value held and a new one. -/
def join (held : Option CrdsValue) (value : CrdsValue) : Option CrdsValue :=
  argAux (fun b c => c.rank < b.rank) held value

variable {c c' : Crds} {value : CrdsValue} {v other : VersionedCrdsValue} {index : ℕ}
  {label : CrdsValueLabel}

/-! ## One insertion -/

lemma labelled_default : default.Labelled where
  label := by
    intro i label v h
    simp [default] at h
  shardBits := rfl

lemma Added.labelled (h : c.Labelled) (hnone : c.table.getFull v.value.label = none)
    (hadded : c.Added v c') : c'.Labelled where
  label := by
    intro i label w hw
    rw [hadded.table, getIndex_insert_of_none hnone] at hw
    split at hw
    · cases hw
      rfl
    · exact h.label i label w hw
  shardBits := by
    obtain ⟨s, hs, hbits, -⟩ := CrdsShards.insert_returns h.shardBits c.table.len v
    cases hs.symm.trans hadded.shards
    exact hbits

lemma Replaced.labelled (h : c.Labelled)
    (hsome : c.table.getFull v.value.label = some (index, other))
    (hreplaced : c.Replaced v other index c') : c'.Labelled where
  label := by
    intro i label w hw
    rw [hreplaced.table, getIndex_insert_of_some hsome] at hw
    split at hw
    · cases hw
      rfl
    · exact h.label i label w hw
  shardBits := by
    obtain ⟨s₁, hs₁, hs₂⟩ := hreplaced.shards
    obtain ⟨s, hs, hbits, -⟩ := CrdsShards.remove_returns h.shardBits index other
    cases hs.symm.trans hs₁
    obtain ⟨s', hs', hbits', -⟩ := CrdsShards.insert_returns hbits index v
    cases hs'.symm.trans hs₂
    exact hbits'

/-- What is noted beside the values does not matter for the labels. -/
lemma Kept.labelled (h : c.Labelled) (hkept : c.Kept c') : c'.Labelled where
  label := by
    intro i label v hv
    obtain ⟨w, hw, -, hvalue⟩ := hkept.exists_before hv
    rw [← hvalue]
    exact h.label i label w hw
  shardBits := hkept.shards ▸ h.shardBits

lemma Kept.held_of_held (hkept : c.Kept c') (h : c'.held label = some value) :
    c.held label = some value := by
  obtain ⟨v, hv, rfl⟩ := Option.map_eq_some_iff.mp h
  obtain ⟨i, hi⟩ := get_eq_some.mp hv
  obtain ⟨w, hw, -, hvalue⟩ := hkept.exists_before hi
  exact Option.map_eq_some_iff.mpr ⟨w, get_eq_some.mpr ⟨i, hw⟩, hvalue⟩

/-- What is noted beside the values does not matter for the values held. -/
lemma Kept.held (hkept : c.Kept c') : c'.held label = c.held label :=
  Option.ext fun _ => ⟨hkept.held_of_held, hkept.symm.held_of_held⟩

/-- Whether a value comes after the one in the table. -/
lemma supersedes_iff_of_getFull (h : c.table.getFull value.label = some (index, other)) :
    c.Supersedes value ↔ other.value.rank < value.rank := by
  simp [Supersedes, held, get_of_getFull h]

lemma supersedes_of_getFull_eq_none (h : c.table.getFull value.label = none) :
    c.Supersedes value := by
  simp [Supersedes, held, get_of_getFull_eq_none h]

lemma join_of_supersedes (h : c.Supersedes value) :
    join (c.held value.label) value = some value := by
  unfold join argAux
  cases hheld : c.held value.label with
  | none => rfl
  | some other => exact if_pos (h other hheld)

/-- A value that comes after the one held is the one held next. -/
lemma held_of_supersedes (htable : c'.table = c.table.insert v.value.label v)
    (h : c.Supersedes v.value) : c'.held label =
      if label = v.value.label then join (c.held label) v.value else c.held label := by
  rw [held, htable, get_insert]
  by_cases heq : label = v.value.label
  · subst heq
    rw [if_pos rfl, if_pos rfl, join_of_supersedes h]
    rfl
  · rw [if_neg heq, if_neg heq]
    rfl

lemma join_of_not_supersedes (h : ¬ c.Supersedes value) :
    join (c.held value.label) value = c.held value.label := by
  unfold Supersedes at h
  push Not at h
  obtain ⟨other, hother, hrank⟩ := h
  rw [hother]
  exact if_neg hrank.not_gt

/-- An insertion succeeds if the value comes after the one held; the later one of the two is
kept. -/
theorem insert_spec (h : c.Labelled) (value : CrdsValue) (now : ℕ) (route : GossipRoute) :
    ∃ result c', c.insert value now route = .ok (result, c') ∧ c'.Labelled
      ∧ (result = .ok () ↔ c.Supersedes value)
      ∧ ∀ label, c'.held label =
        if label = value.label then join (c.held label) value else c.held label := by
  rcases insert_cases h value now route with
    ⟨hnone, c', hc', hadded⟩ | ⟨index, other, hsome, hrank, c', hc', hreplaced⟩
      | ⟨index, other, hsome, hrank, error, c', hc', hkept⟩
  · have hsup := supersedes_of_getFull_eq_none hnone
    refine ⟨.ok (), c', hc', hadded.labelled h hnone, by simp [hsup], fun label => ?_⟩
    exact held_of_supersedes hadded.table hsup
  · have hsup := (supersedes_iff_of_getFull hsome).mpr hrank
    refine ⟨.ok (), c', hc', hreplaced.labelled h hsome, by simp [hsup], fun label => ?_⟩
    exact held_of_supersedes hreplaced.table hsup
  have hsup : ¬ c.Supersedes value := fun hsup => hrank ((supersedes_iff_of_getFull hsome).mp hsup)
  refine ⟨.error error, c', hc', hkept.labelled h, by simp [hsup], fun label => ?_⟩
  rw [hkept.held]
  split_ifs with heq
  · rw [heq, join_of_not_supersedes hsup]
  · rfl

/-- The prediction of an insertion. -/
lemma upserts_spec (h : c.Labelled) (value : CrdsValue) :
    ∃ b, c.upserts value = .ok b ∧ (b = true ↔ c.Supersedes value) := by
  unfold upserts
  cases hfull : c.table.getFull value.label with
  | none =>
    rw [get_of_getFull_eq_none hfull]
    exact ⟨true, rfl, by simp [supersedes_of_getFull_eq_none hfull]⟩
  | some full =>
    obtain ⟨index, other⟩ := full
    have hsame := (h.label index _ other (getFull_eq_some.mp hfull)).symm
    rw [get_of_getFull hfull]
    refine ⟨_, overrides_eq hsame, ?_⟩
    rw [decide_eq_true_iff, supersedes_iff_of_getFull hfull]

/-! ## Any number of insertions -/

/-- The values of a label, in the order of their insertion. -/
def valuesOf (insertions : List Insertion) (label : CrdsValueLabel) : List CrdsValue :=
  (insertions.map Insertion.value).filter fun value => value.label = label

/-- Each insertion keeps the later one of the two values. -/
lemma insertAll_held_foldl (insertions : List Insertion) (h : c.Labelled) :
    ∃ c', c.insertAll insertions = .ok c' ∧ c'.Labelled
      ∧ ∀ label, c'.held label = (valuesOf insertions label).foldl join (c.held label) := by
  induction insertions generalizing c with
  | nil => exact ⟨c, rfl, h, fun label => rfl⟩
  | cons i insertions ih =>
    obtain ⟨result, c₁, hinsert, hc₁, -, hheld⟩ := insert_spec h i.value i.now i.route
    obtain ⟨c', hrun, hc', hall⟩ := ih hc₁
    refine ⟨c', foldlM_cons_eq_ok.mpr ⟨c₁, by rw [hinsert]; rfl, hrun⟩, hc', fun label => ?_⟩
    rw [hall label, hheld label]
    by_cases heq : i.value.label = label
    · simp [valuesOf, heq]
    · simp [valuesOf, heq, Ne.symm heq]

/-- After any insertions a label holds the last one of its values in the order of the ranks. -/
theorem insertAll_held (insertions : List Insertion) :
    ∃ c, default.insertAll insertions = .ok c ∧ c.Labelled
      ∧ ∀ label, c.held label = (valuesOf insertions label).argmax CrdsValue.rank := by
  obtain ⟨c, hrun, hc, hheld⟩ := insertAll_held_foldl insertions labelled_default
  exact ⟨c, hrun, hc, fun label => by rw [hheld label]; rfl⟩

/-- Equal ranks are equal hashes. -/
lemma hash_eq_of_rank_eq {v w : CrdsValue} (h : v.rank = w.rank) : v.hash = w.hash := by
  have hlast : ∀ v : CrdsValue, (ofLex (ofLex v.rank).2).2 = v.hash := by
    intro v
    unfold CrdsValue.rank
    split <;> rfl
  rw [← hlast v, ← hlast w, h]

/-- Where equal hashes imply equal values, the last value of a label is unique. -/
lemma argmax_eq_some_iff {values : List CrdsValue} {v : CrdsValue}
    (hinj : ∀ v ∈ values, ∀ w ∈ values, v.hash = w.hash → v = w) :
    values.argmax CrdsValue.rank = some v ↔ v ∈ values ∧ ∀ w ∈ values, w = v ∨ w.rank < v.rank := by
  constructor
  · intro h
    have hmem := argmax_mem h
    refine ⟨hmem, fun w hw => ?_⟩
    rcases lt_or_eq_of_le (le_of_mem_argmax hw h) with hlt | heq
    · exact .inr hlt
    · exact .inl (hinj w hw v hmem (hash_eq_of_rank_eq heq))
  rintro ⟨hmem, hmax⟩
  cases hargmax : values.argmax CrdsValue.rank with
  | none =>
    rw [argmax_eq_none.mp hargmax] at hmem
    cases hmem
  | some u =>
    rcases hmax u (argmax_mem hargmax) with rfl | hlt
    · rfl
    · exact absurd hlt (le_of_mem_argmax hmem hargmax).not_gt

lemma mem_valuesOf {insertions : List Insertion} {v : CrdsValue} :
    v ∈ valuesOf insertions label ↔ v ∈ insertions.map Insertion.value ∧ v.label = label := by
  simp [valuesOf]

/-- Two nodes that received the same values, in any orders, numbers, at any times and by any routes,
hold for each label the same value: the one that comes last by wallclock and hash, and for a
contact-info by outset, wallclock and hash. An insertion into such a table succeeds exactly if the
value comes after the one that is held, as `upserts` predicts. -/
theorem insertAll_converges (l l' : List Insertion)
    (hsame : ∀ v, v ∈ l.map Insertion.value ↔ v ∈ l'.map Insertion.value)
    (hinj : ∀ v ∈ l.map Insertion.value, ∀ w ∈ l.map Insertion.value, v.hash = w.hash → v = w) :
    ∃ c c', default.insertAll l = .ok c ∧ default.insertAll l' = .ok c'
      ∧ (∀ label, c.held label = c'.held label
        ∧ (c.held label = none ↔ ∀ v ∈ l.map Insertion.value, v.label ≠ label)
        ∧ ∀ v, c.held label = some v ↔ v ∈ l.map Insertion.value ∧ v.label = label
          ∧ ∀ w ∈ l.map Insertion.value, w.label = label → w = v ∨ w.rank < v.rank)
      ∧ ∀ value now route, ∃ result c'' predicted, c.insert value now route = .ok (result, c'')
        ∧ (result = .ok () ↔ c.Supersedes value)
        ∧ c.upserts value = .ok predicted ∧ (predicted = true ↔ c.Supersedes value) := by
  obtain ⟨c, hrun, hc, hheld⟩ := insertAll_held l
  obtain ⟨c', hrun', -, hheld'⟩ := insertAll_held l'
  have hmax : ∀ label v, c.held label = some v ↔ v ∈ l.map Insertion.value ∧ v.label = label
      ∧ ∀ w ∈ l.map Insertion.value, w.label = label → w = v ∨ w.rank < v.rank := by
    intro label v
    rw [hheld label, argmax_eq_some_iff]
    · simp [mem_valuesOf, and_assoc]
    · intro v hv w hw
      exact hinj v (mem_valuesOf.mp hv).1 w (mem_valuesOf.mp hw).1
  have hmax' : ∀ label v, c'.held label = some v ↔ v ∈ l.map Insertion.value ∧ v.label = label
      ∧ ∀ w ∈ l.map Insertion.value, w.label = label → w = v ∨ w.rank < v.rank := by
    intro label v
    rw [hheld' label, argmax_eq_some_iff]
    · simp [mem_valuesOf, and_assoc, hsame]
    · intro v hv w hw
      exact hinj v ((hsame v).mpr (mem_valuesOf.mp hv).1) w ((hsame w).mpr (mem_valuesOf.mp hw).1)
  refine ⟨c, c', hrun, hrun', fun label => ⟨?_, ?_, hmax label⟩, fun value now route => ?_⟩
  · ext v
    rw [hmax label v, hmax' label v]
  · rw [hheld label, argmax_eq_none, eq_nil_iff_forall_not_mem]
    simp [mem_valuesOf]
  · obtain ⟨result, c'', hinsert, -, hresult, -⟩ := insert_spec hc value now route
    obtain ⟨predicted, hupserts, hpredicted⟩ := upserts_spec hc value
    exact ⟨result, c'', predicted, hinsert, hresult, hupserts, hpredicted⟩

/-- Two contact-infos of one node, the older one made later, and a vote of another node. -/
theorem insertAll_converges_restarted :
    let old : CrdsValue := ⟨.contactInfo ⟨7, 9, 1, 0⟩, 20⟩
    let new : CrdsValue := ⟨.contactInfo ⟨7, 5, 2, 0⟩, 10⟩
    let vote : CrdsValue := ⟨.vote 0 8 3, 30⟩
    ∃ c c', default.insertAll [⟨old, 0, .localMessage⟩, ⟨new, 1, .pullResponse⟩,
        ⟨vote, 2, .pushMessage 7⟩] = .ok c
      ∧ default.insertAll [⟨vote, 0, .pullRequest⟩, ⟨new, 1, .pushMessage 8⟩,
        ⟨old, 2, .pullResponse⟩, ⟨vote, 3, .pushMessage 7⟩] = .ok c'
      ∧ ∀ label, c.held label = c'.held label := by
  intro old new vote
  obtain ⟨c, c', hc, hc', hheld, -⟩ := insertAll_converges
    [⟨old, 0, .localMessage⟩, ⟨new, 1, .pullResponse⟩, ⟨vote, 2, .pushMessage 7⟩]
    [⟨vote, 0, .pullRequest⟩, ⟨new, 1, .pushMessage 8⟩, ⟨old, 2, .pullResponse⟩,
      ⟨vote, 3, .pushMessage 7⟩]
    (by
      intro v
      simp only [map_cons, map_nil, mem_cons, not_mem_nil, or_false]
      tauto)
    (by decide)
  exact ⟨c, c', hc, hc', fun label => (hheld label).1⟩

end Crds
end Trezoa.Gossip
