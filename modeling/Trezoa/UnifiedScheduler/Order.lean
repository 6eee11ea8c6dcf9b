import Trezoa.UnifiedScheduler.Guarantees

/-!
# The order in which the unified scheduler starts tasks

* `order_preserved`: conflicting tasks start in the order of arrival with fifo queues, and in the
  order of their ids with priority queues as far as the calls leave a choice.
* `capability_interchangeable`: for tasks that arrive in the order of their ids the two
  capabilities cannot be told apart: both machines represent the same lock table.
-/

namespace Trezoa.UnifiedScheduler

open Lib Trezoa.Lib.LockTable SchedulingStateMachine List

variable {Q : Type} [DecidableEq Q] {capability : Capability} {maxRunningTaskCount : ℕ}
  {trace : List (Call Q × Option (Task Q))} {σ σ' : Session Q} {rank : Task Q → ℕ}

/-! ## Runs as lists of calls -/

variable {result : Option (Task Q)}

lemma Run.snoc_inv {c : Call Q} (h : Run capability maxRunningTaskCount
    (trace ++ [(c, result)]) σ') :
    ∃ σ, Run capability maxRunningTaskCount trace σ ∧ σ.Valid c ∧ σ.call c = .ok (result, σ') := by
  generalize htrace : trace ++ [(c, result)] = trace' at h
  cases h with
  | nil => simp at htrace
  | @snoc trace₀ σ _ c₀ result₀ run valid step =>
    obtain ⟨rfl, hlast⟩ := append_inj' htrace rfl
    simp only [cons.injEq, Prod.mk.injEq, and_true] at hlast
    obtain ⟨rfl, rfl⟩ := hlast
    exact ⟨σ, run, valid, step⟩

/-- The calls determine the session. -/
lemma Run.unique (h : Run capability maxRunningTaskCount trace σ) :
    ∀ {σ' : Session Q}, Run capability maxRunningTaskCount trace σ' → σ = σ' := by
  induction h with
  | nil =>
    intro σ' h'
    generalize htrace : ([] : List (Call Q × Option (Task Q))) = trace' at h'
    cases h' with
    | nil => rfl
    | snoc _ _ _ => simp at htrace
  | @snoc trace σ σ₁ c result run valid step ih =>
    intro σ' h'
    obtain ⟨σ₂, run', -, step'⟩ := h'.snoc_inv
    rw [← ih run', step] at step'
    exact (Prod.mk.inj (Except.ok.inj step')).2

/-- What a call adds to the descheduled tasks. -/
lemma Session.call_descheduled {c : Call Q} (h : σ.call c = .ok (result, σ')) :
    σ'.descheduled = σ.descheduled ∨
      ∃ t, c = .descheduleTask t ∧ σ'.descheduled = σ.descheduled ++ [t] := by
  cases c with
  | scheduleOrBufferTask task forceBuffering =>
    obtain ⟨_, -, h⟩ := bind_eq_ok.mp h
    cases h
    exact Or.inl rfl
  | scheduleNextUnblockedTask =>
    obtain ⟨_, -, h⟩ := bind_eq_ok.mp h
    cases h
    exact Or.inl rfl
  | descheduleTask task =>
    obtain ⟨_, -, h⟩ := bind_eq_ok.mp h
    cases h
    exact Or.inr ⟨task, rfl, rfl⟩

/-- Descheduled tasks stay descheduled. -/
lemma Session.not_descheduled_of_call {c : Call Q} (h : σ.call c = .ok (result, σ')) {t : Task Q}
    (ht : t ∉ σ'.descheduled) :
    t ∉ σ.descheduled := by
  rcases Session.call_descheduled h with heq | ⟨u, -, heq⟩
  · rwa [← heq]
  · rw [heq, mem_append, not_or] at ht
    exact ht.1

/-! ## Order -/

/-- **A task that starts precedes every live task it conflicts with.** -/
theorem Run.rank_lt_of_start {c : Call Q} (h : Run capability maxRunningTaskCount trace σ)
    (valid : σ.Valid c) (step : σ.call c = .ok (result, σ'))
    (hr : Ranked capability rank σ'.scheduled) {a b : Task Q} (hbefore : ¬ σ.Started b)
    (hafter : σ'.Started b) (ha : a ∈ σ'.scheduled) (hd : a ∉ σ'.descheduled) (hne : a ≠ b)
    (hconf : a.Conflicts b) : rank b < rank a := by
  have hr' := hr
  rw [Session.call_scheduled step] at hr'
  obtain ⟨tbl, hσ, hI⟩ := h.inv hr'.of_append
  obtain ⟨σ₁, tbl', htable, rfl⟩ := hI.call_eq_ok hσ valid hr' step
  have hrank := fun t ht u hu => Session.rank_ne_of_valid (t := t) (u := u) valid hr' ht hu
  have hI' := (hI.callTable valid hrank htable).ofTable capability
  have hinv := hI.table_callTable valid hrank htable
  -- `b` was not returned before, so it is not descheduled after the call
  have hdb : b ∉ (σ₁.ofTable capability tbl').descheduled := by
    intro hdb
    rcases Session.call_descheduled step with heq | ⟨t, rfl, heq⟩
    · rw [heq] at hdb
      exact hbefore (Or.inl (hI.tasks.mem_returned b hdb))
    rw [heq, mem_append, mem_singleton] at hdb
    rcases hdb with hdb | rfl
    · exact hbefore (Or.inl (hI.tasks.mem_returned b hdb))
    · exact hbefore (Or.inl valid.1)
  have hsb := hI'.tasks.mem_scheduled b hafter
  have h0 : tbl'.pending b = 0 := (hI'.tasks.started_iff b hsb hdb).mp hafter
  obtain ⟨q, u, v, hqa, hqb, huv⟩ := hconf
  rw [← Session.requests_of_live ha hd] at hqa
  rw [← Session.requests_of_live hsb hdb] at hqb
  exact hinv.lt_of_conflict (Ne.symm hne) h0 hbefore hqb hqa (conflict_of_writable huv.symm)

/-- Fifo queues start conflicting tasks in the order of arrival. -/
lemma Run.fifo_order (h : Run .fifoQueueing maxRunningTaskCount trace σ)
    (hr : Ranked .fifoQueueing rank σ.scheduled) {a b : Task Q} (ha : a ∈ σ.scheduled)
    (hlt : rank a < rank b) (hconf : a.Conflicts b) (hd : a ∉ σ.descheduled) : ¬ σ.Started b := by
  induction h with
  | nil => cases ha
  | @snoc trace σ σ' c result run valid step ih =>
    intro hafter
    have hr' := hr
    rw [Session.call_scheduled step] at hr'
    by_cases hbefore : σ.Started b
    · rw [Session.call_scheduled step, mem_append] at ha
      rcases ha with ha | ha
      · exact ih hr'.of_append ha (Session.not_descheduled_of_call step hd) hbefore
      -- `a` has just arrived, behind `b`
      obtain ⟨tbl, -, hI⟩ := run.inv hr'.of_append
      have hsb := hI.tasks.mem_scheduled b hbefore
      exact lt_asymm hlt ((pairwise_append.mp (hr'.arrival rfl)).2.2 b hsb a ha)
    · have hne : a ≠ b := fun hab => lt_irrefl _ (hab ▸ hlt)
      exact lt_asymm hlt (run.rank_lt_of_start valid step hr hbefore hafter ha hd hne hconf)

/-- Priority queues: once `a` is passed in before `b` started, `b` does not start before `a` is
descheduled. -/
lemma Run.priority_order {σ₀ : Session Q} {a b : Task Q} {forceBuffering : Bool}
    (h₀ : Run .priorityQueueing maxRunningTaskCount trace σ₀) (hb : ¬ σ₀.Started b)
    (hlt : a.taskId < b.taskId) (hconf : a.Conflicts b) (rest : List (Call Q × Option (Task Q))) :
    ∀ {σ : Session Q}, Run .priorityQueueing maxRunningTaskCount
      (trace ++ (.scheduleOrBufferTask a forceBuffering, result) :: rest) σ →
    a ∈ σ.scheduled ∧ (a ∉ σ.descheduled → ¬ σ.Started b) := by
  have hne : a ≠ b := fun hab => lt_irrefl _ (hab ▸ hlt)
  have hr : ∀ l : List (Task Q), Ranked .priorityQueueing Task.taskId l := fun l =>
    ⟨fun hc => Capability.noConfusion hc, fun _ => rfl⟩
  induction rest using reverseRecOn with
  | nil =>
    intro σ h
    obtain ⟨σ₁, run, valid, step⟩ := h.snoc_inv
    obtain rfl := h₀.unique run
    have ha : a ∈ σ.scheduled := by
      rw [Session.call_scheduled step]
      exact mem_append_right _ (mem_singleton_self _)
    refine ⟨ha, fun hd hafter => ?_⟩
    exact lt_asymm hlt (run.rank_lt_of_start valid step (hr _) hb hafter ha hd hne hconf)
  | append_singleton rest last ih =>
    intro σ h
    rw [← cons_append, ← append_assoc] at h
    obtain ⟨σ₁, run, valid, step⟩ := h.snoc_inv
    obtain ⟨ha₁, hstart⟩ := ih run
    have ha : a ∈ σ.scheduled := by
      rw [Session.call_scheduled step]
      exact mem_append_left _ ha₁
    refine ⟨ha, fun hd hafter => ?_⟩
    have hbefore := hstart (Session.not_descheduled_of_call step hd)
    exact lt_asymm hlt (run.rank_lt_of_start valid step (hr _) hbefore hafter ha hd hne hconf)

/-- **Order.** With fifo queues, if `a` was passed in before `b` and they conflict, then `b` does
not start before `a` is descheduled. With priority queues, if `a` has the smaller id, they conflict,
and `b` had not started when `a` was passed in, then `b` does not start before `a` is
descheduled. -/
theorem order_preserved {a b : Task Q} (hconf : a.Conflicts b) :
    (∀ {trace : List (Call Q × Option (Task Q))} {σ : Session Q},
      Run .fifoQueueing maxRunningTaskCount trace σ → [a, b].Sublist σ.scheduled →
      a ∉ σ.descheduled → b ∉ σ.returned ∧ b ∉ σ.machine.unblockedTaskQueue) ∧
    (a.taskId < b.taskId → ∀ {trace rest : List (Call Q × Option (Task Q))} {σ₀ σ : Session Q}
      {forceBuffering : Bool} {result : Option (Task Q)},
      Run .priorityQueueing maxRunningTaskCount trace σ₀ →
      b ∉ σ₀.returned ∧ b ∉ σ₀.machine.unblockedTaskQueue →
      Run .priorityQueueing maxRunningTaskCount
        (trace ++ (.scheduleOrBufferTask a forceBuffering, result) :: rest) σ →
      a ∉ σ.descheduled → b ∉ σ.returned ∧ b ∉ σ.machine.unblockedTaskQueue) := by
  constructor
  · intro trace σ h hab hd
    have hr := ranked_arrivalRank .fifoQueueing h.nodup_taskId.of_map
    have hlt := pairwise_cons.mp ((hr.arrival rfl).sublist hab)
    exact not_or.mp (h.fifo_order hr (hab.subset (.head _))
      (hlt.1 b (mem_singleton_self _)) hconf hd)
  · intro hlt trace rest σ₀ σ forceBuffering result h₀ hb h hd
    exact not_or.mp ((h₀.priority_order (not_or.mpr hb) hlt hconf rest h).2 hd)

/-- The writer of the small run does not start before the reader it conflicts with. -/
theorem order_preserved_bufferedRun :
    (unitTask 1 .readonly).Conflicts (unitTask 3 .writable) ∧
    (∃ (trace : List (Call Unit × Option (Task Unit))) (σ : Session Unit),
      Run .fifoQueueing 1 trace σ ∧ unitTask 1 .readonly ∉ σ.descheduled ∧
      unitTask 3 .writable ∉ σ.machine.unblockedTaskQueue) ∧
    ∃ (trace : List (Call Unit × Option (Task Unit))) (σ : Session Unit),
      Run .priorityQueueing 1 trace σ ∧ unitTask 1 .readonly ∉ σ.descheduled ∧
      unitTask 3 .writable ∉ σ.machine.unblockedTaskQueue := by
  have hconf : (unitTask 1 .readonly).Conflicts (unitTask 3 .writable) :=
    ⟨(), .readonly, .writable, .head _, .head _, Or.inr rfl⟩
  refine ⟨hconf, ?_, ?_⟩
  · obtain ⟨_, σ, h, hs, -, hd, -, -, -⟩ := exists_bufferedRun .fifoQueueing
    have hnd : unitTask 1 .readonly ∉ σ.descheduled := by simp [hd]
    have hsub : [unitTask 1 .readonly, unitTask 3 .writable].Sublist σ.scheduled := by
      rw [hs]
      decide
    exact ⟨_, σ, h, hnd, ((order_preserved hconf).1 h hsub hnd).2⟩
  · obtain ⟨_, σ, h, -, -, hd, -, -, -⟩ := exists_bufferedRun .priorityQueueing
    have hnd : unitTask 1 .readonly ∉ σ.descheduled := by simp [hd]
    exact ⟨_, σ, h, hnd, ((order_preserved hconf).2 (by decide) .nil
      ⟨not_mem_nil, not_mem_nil⟩ h hnd).2⟩

/-! ## Fifo and priority queues -/

/-- Two sessions agree in everything but the contents of the usage queues. -/
def Session.Agree (σ σ' : Session Q) : Prop :=
  σ' = { σ with machine := { σ.machine with usageQueues := σ'.machine.usageQueues } }

/-- Two calls have the same outcome: they return the same task and agree afterwards, or they
panic alike. -/
def SameOutcome : Except Panic (Option (Task Q) × Session Q) →
    Except Panic (Option (Task Q) × Session Q) → Prop
  | .ok (result, σ), .ok (result', σ') => result = result' ∧ σ.Agree σ'
  | .error e, .error e' => e = e'
  | _, _ => False

omit [DecidableEq Q] in
lemma Session.agree_ofTable (σ : Session Q) (capability capability' : Capability)
    (tbl : Table Q RequestedUsage (Task Q)) :
    (σ.ofTable capability tbl).Agree (σ.ofTable capability' tbl) := rfl

omit [DecidableEq Q] in
/-- Task ids in ascending order rank the tasks for both capabilities. -/
lemma ranked_taskId {l : List (Task Q)} (hinc : l.Pairwise fun a b => a.taskId < b.taskId)
    (capability : Capability) : Ranked capability Task.taskId l :=
  ⟨fun _ => hinc, fun _ => rfl⟩

/-- A run with one capability is a run with the other, over the same lock table. -/
lemma Run.transfer (h : Run capability maxRunningTaskCount trace σ) (capability' : Capability)
    (hinc : σ.scheduled.Pairwise fun a b => a.taskId < b.taskId) :
    ∃ tbl, σ = σ.ofTable capability tbl ∧ σ.Inv Task.taskId maxRunningTaskCount tbl ∧
      Run capability' maxRunningTaskCount trace (σ.ofTable capability' tbl) := by
  induction h with
  | nil =>
    refine ⟨Table.empty, (Session.new_ofTable _ _).symm, Session.inv_new _ _ _, ?_⟩
    have hnew : (Session.new capability maxRunningTaskCount : Session Q).ofTable capability'
        Table.empty = Session.new capability' maxRunningTaskCount :=
      Session.new_ofTable capability' maxRunningTaskCount
    rw [hnew]
    exact .nil
  | @snoc trace σ σ' c result run valid step ih =>
    rw [Session.call_scheduled step] at hinc
    obtain ⟨tbl, hσ, hI, hrun⟩ := ih (pairwise_append.mp hinc).1
    have hr := ranked_taskId hinc capability
    obtain ⟨σ₁, tbl', htable, rfl⟩ := hI.call_eq_ok hσ valid hr step
    have hI' := hI.callTable valid (fun t ht u hu => Session.rank_ne_of_valid valid hr ht hu) htable
    have hcall := Session.call_ofTable hI valid (ranked_taskId hinc capability')
    rw [htable] at hcall
    exact ⟨tbl', rfl, hI'.ofTable capability, .snoc hrun valid hcall⟩

/-- **The capabilities are interchangeable for tasks that arrive in the order of their ids**: what
one machine does in a run the other does too, with the same tasks returned by the same calls, the
same queue of unblocked tasks and the same counters; and every further call has the same outcome. -/
theorem capability_interchangeable (capability' : Capability)
    (h : Run capability maxRunningTaskCount trace σ)
    (hinc : σ.scheduled.Pairwise fun a b => a.taskId < b.taskId) :
    ∃ σ', Run capability' maxRunningTaskCount trace σ' ∧ σ.Agree σ' ∧
      ∀ c, σ.Valid c → ((σ.scheduled ++ c.arrivals).Pairwise fun a b => a.taskId < b.taskId) →
        σ'.Valid c ∧ SameOutcome (σ.call c) (σ'.call c) := by
  obtain ⟨tbl, hσ, hI, hrun⟩ := h.transfer capability' hinc
  refine ⟨σ.ofTable capability' tbl, hrun, ?_, fun c hv hinc' => ?_⟩
  · rw [hσ]
    exact Session.agree_ofTable σ capability capability' tbl
  have hcall := Session.call_ofTable hI hv (ranked_taskId hinc' capability)
  have hcall' := Session.call_ofTable hI hv (ranked_taskId hinc' capability')
  rw [← hσ] at hcall
  rw [hcall, hcall']
  have hv' : (σ.ofTable capability' tbl).Valid c := by
    cases c <;> exact hv
  refine ⟨hv', ?_⟩
  cases σ.callTable Task.taskId tbl c with
  | error e => rfl
  | ok r => exact ⟨rfl, Session.agree_ofTable r.2.1 capability capability' r.2.2⟩

/-- The small run with priority queues instead of fifo queues. -/
theorem capability_interchangeable_bufferedRun :
    ∃ (trace : List (Call Unit × Option (Task Unit))) (σ σ' : Session Unit),
      Run .fifoQueueing 1 trace σ ∧ Run .priorityQueueing 1 trace σ' ∧ σ.Agree σ' ∧
      (σ.scheduled.Pairwise fun a b => a.taskId < b.taskId) := by
  obtain ⟨_, σ, h, hs, -, -, -, -, -⟩ := exists_bufferedRun .fifoQueueing
  have hinc : σ.scheduled.Pairwise fun a b => a.taskId < b.taskId := by
    rw [hs]
    decide
  obtain ⟨σ', h', hagree, -⟩ := capability_interchangeable .priorityQueueing h hinc
  exact ⟨_, σ, σ', h, h', hagree, hinc⟩

end Trezoa.UnifiedScheduler
