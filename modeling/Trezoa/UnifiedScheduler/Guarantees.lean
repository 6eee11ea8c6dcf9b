import Trezoa.UnifiedScheduler.Session

/-!
# Exclusion, bookkeeping and progress of the unified scheduler

Everything here is about every session that calls within the contract can reach (`Run`), with
either capability.
-/

namespace Trezoa.UnifiedScheduler

open Lib Trezoa.Lib.LockTable SchedulingStateMachine List RequestedUsage Nat

variable {Q : Type} [DecidableEq Q] {capability : Capability} {maxRunningTaskCount : ℕ}
  {trace : List (Call Q × Option (Task Q))} {σ σ' : Session Q} {rank : Task Q → ℕ}
  {tbl : Table Q RequestedUsage (Task Q)}

/-- Two tasks conflict: they request one usage queue, and one of them for writing. -/
def Task.Conflicts (a b : Task Q) : Prop :=
  ∃ q u v, (q, u) ∈ a.lockContexts ∧ (q, v) ∈ b.lockContexts ∧ (u = writable ∨ v = writable)

/-- The task was returned or is queued as unblocked, and it is not descheduled yet. -/
def Session.Runnable (σ : Session Q) (t : Task Q) : Prop :=
  σ.Started t ∧ t ∉ σ.descheduled

lemma conflict_of_writable {u v : RequestedUsage} (h : u = writable ∨ v = writable) :
    conflict shared u v = true := by
  rcases h with rfl | rfl
  · exact conflict_of_exclusive_left rfl
  · exact conflict_of_exclusive_right rfl

/-! ## A small run -/

/-- A task that uses the only usage queue there is. -/
def unitTask (taskId : ℕ) (usage : RequestedUsage) : Task Unit where
  taskId := taskId
  lockContexts := [((), usage)]
  distinct := by simp
  countable := by simp [counterInnerMax]

/-- Two readers are buffered and a writer is blocked behind them. -/
lemma exists_bufferedRun (capability : Capability) :
    ∃ (rest : List (Call Unit × Option (Task Unit))) (σ : Session Unit),
      Run capability 1 ((.scheduleOrBufferTask (unitTask 1 .readonly) true, none) :: rest) σ ∧
      σ.scheduled = [unitTask 1 .readonly, unitTask 2 .readonly, unitTask 3 .writable] ∧
      σ.returned = [] ∧ σ.descheduled = [] ∧
      σ.machine.unblockedTaskQueue = [unitTask 1 .readonly, unitTask 2 .readonly] ∧
      σ.machine.activeTaskCount = 3 ∧ σ.machine.unblockedTaskCount = 2 := by
  cases capability <;>
  · refine ⟨_, _, .snoc (c := .scheduleOrBufferTask (unitTask 3 .writable) true)
      (.snoc (c := .scheduleOrBufferTask (unitTask 2 .readonly) true)
        (.snoc (c := .scheduleOrBufferTask (unitTask 1 .readonly) true) .nil ?_ rfl) ?_ rfl)
      ?_ rfl, rfl, rfl, rfl, rfl, rfl, rfl⟩
    · decide
    · decide
    · decide

/-! ## Exclusion -/

/-- **Exclusion.** Two tasks that may run at the same time never conflict. -/
theorem runnable_not_conflicts (h : Run capability maxRunningTaskCount trace σ) {a b : Task Q}
    (hne : a ≠ b) (ha : σ.Runnable a) (hb : σ.Runnable b) : ¬ a.Conflicts b := by
  rintro ⟨q, u, v, hqa, hqb, huv⟩
  obtain ⟨tbl, -, hI⟩ := h.inv_arrivalRank
  have hpending : ∀ t, σ.Runnable t → tbl.pending t = 0 ∧ σ.requests t = t.lockContexts := by
    intro t ht
    have hs := hI.tasks.mem_scheduled t ht.1
    exact ⟨(hI.tasks.started_iff t hs ht.2).mp ht.1, Session.requests_of_live hs ht.2⟩
  obtain ⟨ha0, hra⟩ := hpending a ha
  obtain ⟨hb0, hrb⟩ := hpending b hb
  have hfree := hI.tasks.table.conflict_free hne ha0 hb0 (hra ▸ hqa) (hrb ▸ hqb)
  cases (conflict_of_writable huv).symm.trans hfree

/-- Two readers of one queue, both runnable. -/
theorem runnable_not_conflicts_readers :
    ∃ (trace : List (Call Unit × Option (Task Unit))) (σ : Session Unit),
      Run .priorityQueueing 1 trace σ ∧ σ.Runnable (unitTask 1 .readonly) ∧
      σ.Runnable (unitTask 2 .readonly) ∧
      ¬ (unitTask 1 .readonly).Conflicts (unitTask 2 .readonly) := by
  obtain ⟨_, σ, h, -, -, hd, hq, -, -⟩ := exists_bufferedRun .priorityQueueing
  have hrun : ∀ t ∈ σ.machine.unblockedTaskQueue, σ.Runnable t := fun t ht =>
    ⟨Or.inr ht, by simp [hd]⟩
  have h₁ := hrun (unitTask 1 .readonly) (by simp [hq])
  have h₂ := hrun (unitTask 2 .readonly) (by simp [hq])
  exact ⟨_, σ, h, h₁, h₂, runnable_not_conflicts h (by decide) h₁ h₂⟩

/-! ## Bookkeeping -/

/-- The computation returns, or it stops at the overflow of a counter and `p` holds. -/
def OkOrOverflow {α : Type} (x : Except Panic α) (p : Prop) : Prop :=
  (∃ r, x = .ok r) ∨ (x = .error .counterOverflow ∧ p)

namespace OkOrOverflow

variable {α β : Type} {x : Except Panic α} {p : Prop}

lemma imp {q : Prop} (h : OkOrOverflow x p) (hpq : p → q) : OkOrOverflow x q :=
  h.imp_right fun h => ⟨h.1, hpq h.2⟩

lemma bind {f : α → Except Panic β} (h : OkOrOverflow x p) (hf : ∀ a, ∃ b, f a = .ok b) :
    OkOrOverflow (x >>= f) p := by
  rcases h with ⟨a, rfl⟩ | ⟨rfl, hp⟩
  · exact .inl (hf a)
  · exact .inr ⟨rfl, hp⟩

lemma map (h : OkOrOverflow x p) (f : α → β) : OkOrOverflow (x.map f) p := by
  rcases h with ⟨a, rfl⟩ | ⟨rfl, hp⟩
  · exact .inl ⟨f a, rfl⟩
  · exact .inr ⟨rfl, hp⟩

/-- A counter that is incremented. -/
lemma increment {c : ℕ} {f : ℕ → Except Panic β}
    (h : c < counterInnerMax → OkOrOverflow (f (c + 1)) p) (hp : counterInnerMax ≤ c → p) :
    OkOrOverflow (ShortCounter.increment c >>= f) p := by
  by_cases hc : c < counterInnerMax
  · rw [increment_of_lt hc]
    exact h hc
  · rw [increment_of_not_lt hc]
    exact .inr ⟨rfl, hp (not_lt.mp hc)⟩

end OkOrOverflow

omit [DecidableEq Q] in
lemma runOrBufferTask_okOrOverflow {m : SchedulingStateMachine Q} (task : Task Q)
    (forceBuffering : Bool) (hr : m.runningTaskCount < counterInnerMax) :
    OkOrOverflow (m.runOrBufferTask task forceBuffering)
      (counterInnerMax ≤ m.unblockedTaskCount) := by
  unfold runOrBufferTask
  split_ifs
  · exact .increment (fun _ => .inl ⟨_, rfl⟩) id
  · exact .increment (fun _ => .inl ⟨_, rfl⟩) fun hge => absurd hge (not_le.mpr hr)

omit [DecidableEq Q] in
lemma enter_okOrOverflow {m : SchedulingStateMachine Q} (task : Task Q)
    (locked forceBuffering : Bool) (ha : m.activeTaskCount ≤ m.totalTaskCount)
    (hr : m.runningTaskCount ≤ m.totalTaskCount) :
    OkOrOverflow (m.enter task locked forceBuffering)
      (counterInnerMax ≤ m.totalTaskCount ∨ counterInnerMax ≤ m.unblockedTaskCount) := by
  unfold enter
  refine .increment (fun ht => ?_) Or.inl
  refine .increment (fun _ => ?_) fun hge => .inl (hge.trans ha)
  cases locked with
  | false => exact .inl ⟨_, rfl⟩
  | true =>
    refine OkOrOverflow.imp (runOrBufferTask_okOrOverflow task forceBuffering ?_) Or.inr
    exact hr.trans_lt ht

omit [DecidableEq Q] in
lemma scheduleNextUnblockedTask_okOrOverflow {m : SchedulingStateMachine Q}
    (hr : m.unblockedTaskQueue ≠ [] → m.runningTaskCount < counterInnerMax) :
    OkOrOverflow m.scheduleNextUnblockedTask (counterInnerMax ≤ m.unblockedTaskCount) := by
  unfold scheduleNextUnblockedTask
  split_ifs
  · exact .inl ⟨_, rfl⟩
  cases hq : m.unblockedTaskQueue with
  | nil => exact .inl ⟨_, rfl⟩
  | cons t ts =>
    have hlt := hr (by rw [hq]; exact cons_ne_nil _ _)
    refine .increment (fun _ => ?_) fun hge => absurd hge (not_le.mpr hlt)
    exact .increment (fun _ => .inl ⟨_, rfl⟩) id

namespace Session

/-- The tasks handed out or queued are some of those passed in. -/
lemma TaskInv.length_started (hI : σ.TaskInv rank tbl) :
    σ.returned.length + σ.machine.unblockedTaskQueue.length ≤ σ.scheduled.length := by
  have hsub : σ.returned ++ σ.machine.unblockedTaskQueue ⊆ σ.scheduled :=
    fun t ht => hI.mem_scheduled t (started_iff_mem.mpr ht)
  have hle := (subperm_of_subset hI.nodup hsub).length_le
  rwa [length_append] at hle

section
variable (hI : σ.Inv rank maxRunningTaskCount tbl)
include hI

/-- The tasks that wait for something, counted. -/
lemma Inv.encard_blocked :
    (σ.machine.activeTaskCount : ℕ∞) =
      σ.machine.runningTaskCount + σ.machine.unblockedTaskQueue.length +
        Set.encard {t | 0 < tbl.pending t} := by
  have hset : {t | 0 < tbl.pending t} =
      ((σ.scheduled.filter fun t => t ∉ σ.returned ++ σ.machine.unblockedTaskQueue).toFinset :
        Set (Task Q)) := by
    ext t
    simp only [Set.mem_ofPred_eq, coe_toFinset, mem_filter, decide_eq_true_eq,
      hI.tasks.pending_pos_iff, mem_live, ← started_iff_mem]
    constructor
    · exact fun h => ⟨h.1.1, h.2⟩
    · exact fun h => ⟨⟨h.1, fun hd => h.2 (.inl (hI.tasks.mem_returned t hd))⟩, h.2⟩
  have hsplit := length_filter_notMem hI.tasks.scheduled_nodup hI.tasks.nodup
    fun t ht => hI.tasks.mem_scheduled t (started_iff_mem.mpr ht)
  rw [length_append] at hsplit
  have hactive := hI.counts.active
  have hrunning := hI.counts.running
  rw [hset, Set.encard_coe_eq_coe_finsetCard,
    toFinset_card_of_nodup (hI.tasks.scheduled_nodup.filter _)]
  norm_cast
  omega

/-- `pending` counts the usage queues in which a task is blocked. -/
lemma Inv.encard_queues (t : Task Q) :
    Set.encard {q | t ∈ (tbl.cell q).waiters.map Prod.snd} = tbl.pending t := by
  have hwaits : ∀ q, t ∈ (tbl.cell q).waiters.map Prod.snd ↔ tbl.waits q t = true := by
    intro q
    rw [Table.waits_iff]
    simp
  have hset : {q | t ∈ (tbl.cell q).waiters.map Prod.snd} =
      ((((σ.requests t).filter fun p => tbl.waits p.1 t).map Prod.fst).toFinset : Set Q) := by
    ext q
    simp only [Set.mem_ofPred_eq, hwaits, coe_toFinset, mem_map, mem_filter]
    constructor
    · intro hw
      obtain ⟨m, hm⟩ := Table.waits_iff.mp hw
      exact ⟨(q, m), ⟨(hI.tasks.table.placed q m t).mp (mem_append_right _ hm), hw⟩, rfl⟩
    · rintro ⟨p, ⟨-, hw⟩, rfl⟩
      exact hw
  have hnd : (((σ.requests t).filter fun p => tbl.waits p.1 t).map Prod.fst).Nodup :=
    (hI.tasks.table.nodup t).sublist (filter_sublist.map _)
  rw [hset, Set.encard_coe_eq_coe_finsetCard, toFinset_card_of_nodup hnd, length_map,
    ← countP_eq_length_filter, ← hI.tasks.table.pending t]

/-- A machine without active tasks has no live task. -/
lemma Inv.live_eq_nil (h0 : σ.machine.activeTaskCount = 0) : σ.live = [] := by
  have hlive := hI.tasks.length_live
  have hactive := hI.counts.active
  exact length_eq_zero_iff.mp (by omega)

/-- Without active tasks the lock table is empty. -/
lemma Inv.cell_eq_empty (h0 : σ.machine.activeTaskCount = 0) (q : Q) : tbl.cell q = ⟨[], []⟩ := by
  have hnone : ∀ y, y ∉ (tbl.cell q).holders ++ (tbl.cell q).waiters := by
    intro y hy
    have hmem := mem_live.mpr (live_of_requests (hI.tasks.table.reg_ne_nil hy))
    rw [hI.live_eq_nil h0] at hmem
    cases hmem
  have hnil := append_eq_nil_iff.mp (eq_nil_iff_forall_not_mem.mpr hnone)
  exact Cell.ext hnil.1 hnil.2

/-- A task that a valid call deschedules is always let go. -/
lemma Inv.retire_ok {task : Task Q}
    (hv : σ.Valid (.descheduleTask task)) (unblocked : List (Task Q)) :
    ∃ m, σ.machine.retire unblocked = .ok m := by
  have hsub : (task :: σ.descheduled).Subperm σ.returned := by
    refine subperm_of_subset (nodup_cons.mpr ⟨hv.2, hI.tasks.nodup_descheduled⟩) ?_
    intro t ht
    rcases mem_cons.mp ht with rfl | ht
    · exact hv.1
    · exact hI.tasks.mem_returned t ht
  have hlen := hsub.length_le
  rw [length_cons] at hlen
  have hstarted := hI.tasks.length_started
  obtain ⟨total, total_le, active, handled, running, -, -, -⟩ := hI.counts
  have hr : 0 < σ.machine.runningTaskCount := by omega
  have ha : 0 < σ.machine.activeTaskCount := by omega
  have hh : σ.machine.handledTaskCount < counterInnerMax := by omega
  simp only [retire, decrement_of_pos hr, decrement_of_pos ha, increment_of_lt hh]
  exact ⟨_, rfl⟩

/-- A valid call panics only when a counter of tasks overflows. -/
lemma Inv.callTable_okOrOverflow {c : Call Q} (hv : σ.Valid c) :
    OkOrOverflow (σ.callTable rank tbl c) (counterInnerMax ≤ σ.machine.totalTaskCount ∨
      counterInnerMax ≤ σ.machine.unblockedTaskCount) := by
  have hstarted := hI.tasks.length_started
  obtain ⟨total, total_le, active, handled, running, -, -, -⟩ := hI.counts
  cases c with
  | scheduleOrBufferTask task forceBuffering =>
    refine OkOrOverflow.bind (enter_okOrOverflow task _ forceBuffering ?_ ?_) fun r => ⟨_, rfl⟩
    · omega
    · omega
  | scheduleNextUnblockedTask =>
    refine OkOrOverflow.bind (p := counterInnerMax ≤ σ.machine.totalTaskCount ∨ _)
      ((scheduleNextUnblockedTask_okOrOverflow fun hq => ?_).imp Or.inr) fun r => ⟨_, rfl⟩
    have := length_pos_iff.mpr hq
    omega
  | descheduleTask task =>
    obtain ⟨m, hm⟩ := hI.retire_ok hv (Table.releaseAll shared task task.lockContexts tbl).2
    exact .inl ⟨_, by simp only [Session.callTable, hm]; rfl⟩

end
end Session

open Session

/-- The abstract scheduler and the machine fail alike. -/
lemma Run.call_okOrOverflow (h : Run capability maxRunningTaskCount trace σ) {c : Call Q}
    (hv : σ.Valid c) :
    OkOrOverflow (σ.call c) (counterInnerMax ≤ σ.machine.totalTaskCount ∨
      counterInnerMax ≤ σ.machine.unblockedTaskCount) := by
  have hr := ranked_arrivalRank capability (nodup_append_arrivals hv h.nodup_taskId).of_map
  obtain ⟨tbl, hσ, hI⟩ := h.inv hr.of_append
  have hcall := call_ofTable hI hv hr
  rw [← hσ] at hcall
  rw [hcall]
  exact (hI.callTable_okOrOverflow hv).map _

/-- **Bookkeeping.** The active tasks are the running, the unblocked and the blocked ones; the limit
on the running tasks is kept; the counter of a task counts the usage queues in which it is blocked;
a valid call returns unless a counter of all tasks overflows; and an idle machine has fresh usage
queues. -/
theorem bookkeeping (h : Run capability maxRunningTaskCount trace σ) :
    (σ.machine.activeTaskCount : ℕ∞) =
        σ.machine.runningTaskCount + σ.machine.unblockedTaskQueue.length +
          Set.encard {t | 0 < σ.machine.blockedUsageCounts t} ∧
      σ.machine.runningTaskCount ≤ maxRunningTaskCount ∧
      (∀ t, Set.encard {q | t ∈ (σ.machine.usageQueues q).blockedUsagesFromTasks.map Prod.snd} =
        σ.machine.blockedUsageCounts t) ∧
      (∀ c, σ.Valid c → OkOrOverflow (σ.call c)
        (counterInnerMax ≤ σ.machine.totalTaskCount ∨
          counterInnerMax ≤ σ.machine.unblockedTaskCount)) ∧
      (σ.machine.activeTaskCount = 0 →
        ∀ q, σ.machine.usageQueues q = UsageQueueInner.new capability) := by
  obtain ⟨tbl, hσ, hI⟩ := h.inv_arrivalRank
  have hcounts : σ.machine.blockedUsageCounts = tbl.pending := by rw [hσ]; rfl
  have hqueues : σ.machine.usageQueues = fun q => ofCell capability (tbl.cell q) := by
    rw [hσ]
    rfl
  refine ⟨?_, hI.counts.running_le, ?_, fun c hv => h.call_okOrOverflow hv, ?_⟩
  · rw [hcounts]
    exact hI.encard_blocked
  · intro t
    rw [hcounts, hqueues, ← hI.encard_queues t]
    simp [blockedUsagesFromTasks_ofCell]
  · intro h0 q
    rw [hqueues]
    exact ofCell_eq_new.mpr (hI.cell_eq_empty h0 q)

/-- The writer of the small run is the one blocked task, and it is blocked in one queue. -/
theorem bookkeeping_bufferedRun :
    ∃ (trace : List (Call Unit × Option (Task Unit))) (σ : Session Unit),
      Run .fifoQueueing 1 trace σ ∧ σ.machine.unblockedTaskQueue.length = 2 ∧
      (3 : ℕ∞) = σ.machine.runningTaskCount + (2 : ℕ) +
        Set.encard {t | 0 < σ.machine.blockedUsageCounts t} := by
  obtain ⟨_, σ, h, -, -, -, hq, ha, -⟩ := exists_bufferedRun .fifoQueueing
  have hlen : σ.machine.unblockedTaskQueue.length = 2 := by rw [hq]; rfl
  have hcount := (bookkeeping h).1
  rw [ha, hlen] at hcount
  exact ⟨_, σ, h, hlen, hcount⟩

/-! ## Progress -/

namespace Session

/-- Some task can run as long as there are tasks. -/
lemma Inv.exists_runnable (hI : σ.Inv rank maxRunningTaskCount tbl)
    (hactive : 0 < σ.machine.activeTaskCount) : ∃ t, σ.Runnable t := by
  have hlive := hI.tasks.length_live
  have hcount := hI.counts.active
  obtain ⟨t, ht⟩ := exists_mem_of_length_pos (l := σ.live) (by omega)
  obtain ⟨hs, hd⟩ := mem_live.mp ht
  by_cases hreg : σ.requests t = []
  · refine ⟨t, (hI.tasks.started_iff t hs hd).mpr ?_, hd⟩
    rw [hI.tasks.table.pending t, hreg, countP_nil]
  have hfirm : ∀ u, σ.requests u ≠ [] → tbl.pending u = 0 → σ.Started u := by
    intro u hu h0
    obtain ⟨hus, hud⟩ := live_of_requests hu
    exact (hI.tasks.started_iff u hus hud).mpr h0
  obtain ⟨v, hv, hstarted⟩ := hI.tasks.table.exists_firm hfirm (rank t + 1) t (lt_succ_self _) hreg
  exact ⟨v, hstarted, (live_of_requests hv).2⟩

/-- A running task and an unblocked one are active. -/
lemma Inv.running_add_length_le (hI : σ.Inv rank maxRunningTaskCount tbl) :
    σ.machine.runningTaskCount + σ.machine.unblockedTaskQueue.length ≤
      σ.machine.activeTaskCount := by
  have hstarted := hI.tasks.length_started
  have hactive := hI.counts.active
  have hrunning := hI.counts.running
  omega

end Session

/-- A valid `deschedule_task` call always returns. -/
lemma Run.deschedule (h : Run capability maxRunningTaskCount trace σ) {t : Task Q}
    (hv : σ.Valid (.descheduleTask t)) :
    ∃ σ', σ.machine.descheduleTask t = .ok σ'.machine ∧
      Run capability maxRunningTaskCount (trace ++ [(.descheduleTask t, none)]) σ' ∧
      σ'.returned = σ.returned ∧ σ'.descheduled = σ.descheduled ++ [t] ∧
      σ'.machine.activeTaskCount + 1 = σ.machine.activeTaskCount ∧
      σ'.machine.unblockedTaskCount = σ.machine.unblockedTaskCount := by
  have hr := ranked_arrivalRank capability (nodup_append_arrivals hv h.nodup_taskId).of_map
  obtain ⟨tbl, hσ, hI⟩ := h.inv hr.of_append
  obtain ⟨m, hm⟩ := hI.retire_ok hv (Table.releaseAll shared t t.lockContexts tbl).2
  have hcall := call_ofTable hI hv hr
  rw [← hσ] at hcall
  simp only [callTable, hm, bind, Except.bind, Except.map] at hcall
  obtain ⟨m', hm', heq⟩ := bind_eq_ok.mp hcall
  obtain ⟨-, hsession⟩ := Prod.mk.inj (Except.ok.inj heq)
  obtain ⟨-, ha, rfl⟩ := UnifiedScheduler.retire_ok hm
  refine ⟨_, ?_, .snoc h hv hcall, rfl, rfl, ?_, rfl⟩
  · rw [hm', ← hsession]
  · show σ.machine.activeTaskCount - 1 + 1 = σ.machine.activeTaskCount
    omega

/-- With no task outstanding nothing runs, and a task can. -/
lemma Session.Inv.isTaskRunnable (hI : σ.Inv rank maxRunningTaskCount tbl)
    (hmax : 0 < maxRunningTaskCount) (hidle : ∀ t ∈ σ.returned, t ∈ σ.descheduled) :
    σ.machine.isTaskRunnable = true ∧ σ.machine.runningTaskCount = 0 := by
  have hnd := (nodup_append.mp hI.tasks.nodup).1
  have hle := (subperm_of_subset hnd hidle).length_le
  have hrunning := hI.counts.running
  rw [SchedulingStateMachine.isTaskRunnable, hI.counts.max, decide_eq_true_eq]
  omega

/-- One round of `clear_and_reinitialize`: `t` is the first unblocked task. -/
lemma Run.clear_round (h : Run capability maxRunningTaskCount trace σ)
    (hmax : 0 < maxRunningTaskCount) (hidle : ∀ t ∈ σ.returned, t ∈ σ.descheduled) {t : Task Q}
    {ts : List (Task Q)} (hq : σ.machine.unblockedTaskQueue = t :: ts)
    (hu : σ.machine.unblockedTaskCount < counterInnerMax) :
    ∃ m trace' σ', σ.machine.scheduleNextUnblockedTask = .ok (some t, m) ∧
      m.descheduleTask t = .ok σ'.machine ∧ Run capability maxRunningTaskCount trace' σ' ∧
      (∀ t ∈ σ'.returned, t ∈ σ'.descheduled) ∧
      σ'.machine.activeTaskCount + 1 = σ.machine.activeTaskCount ∧
      σ'.machine.unblockedTaskCount = σ.machine.unblockedTaskCount + 1 := by
  obtain ⟨tbl, -, hI⟩ := h.inv_arrivalRank
  obtain ⟨hrunnable, hrun⟩ := hI.isTaskRunnable hmax hidle
  have hlt : σ.machine.runningTaskCount < counterInnerMax := by omega
  let m : SchedulingStateMachine Q := { σ.machine with
    unblockedTaskQueue := ts
    runningTaskCount := σ.machine.runningTaskCount + 1
    unblockedTaskCount := σ.machine.unblockedTaskCount + 1 }
  have hnext : σ.machine.scheduleNextUnblockedTask = .ok (some t, m) := by
    simp only [scheduleNextUnblockedTask, hrunnable, hq, increment_of_lt hlt, increment_of_lt hu]
    rfl
  let σ₁ : Session Q := { σ with machine := m, returned := σ.returned ++ [t] }
  have hcall : σ.call .scheduleNextUnblockedTask = .ok (some t, σ₁) := by
    simp only [call, hnext]
    rfl
  have hrun₁ := Run.snoc (c := .scheduleNextUnblockedTask) h trivial hcall
  have hnew : t ∉ σ.returned := by
    have hnd := hI.tasks.nodup
    rw [hq, nodup_append] at hnd
    exact fun ht => hnd.2.2 t ht t (.head _) rfl
  have hv : σ₁.Valid (.descheduleTask t) :=
    ⟨mem_append_right _ (.head _), fun hd => hnew (hI.tasks.mem_returned t hd)⟩
  obtain ⟨σ', hdesched, hrun₂, hret, hdes, hactive, hunblocked⟩ := hrun₁.deschedule hv
  refine ⟨_, _, σ', hnext, hdesched, hrun₂, ?_, hactive, hunblocked⟩
  rw [hret, hdes]
  intro u hu
  rcases mem_append.mp hu with hu | hu
  · exact mem_append_left _ (hidle u hu)
  · exact mem_append_right _ hu

/-- The loop of `clear_and_reinitialize` descheduled every task, or counts more than `u32::MAX`
unblocked tasks on the way. -/
lemma Run.clearTasks (hmax : 0 < maxRunningTaskCount) (fuel : ℕ) :
    ∀ {trace : List (Call Q × Option (Task Q))} {σ : Session Q} (count : ℕ),
    Run capability maxRunningTaskCount trace σ → (∀ t ∈ σ.returned, t ∈ σ.descheduled) →
    σ.machine.activeTaskCount < fuel →
    count + σ.machine.activeTaskCount ≤ counterInnerMax →
    (∃ trace' σ', Run capability maxRunningTaskCount trace' σ' ∧ σ'.machine.activeTaskCount = 0 ∧
      SchedulingStateMachine.clearTasks fuel count σ.machine =
        .ok (count + σ.machine.activeTaskCount, σ'.machine)) ∨
    (SchedulingStateMachine.clearTasks fuel count σ.machine = .error .counterOverflow ∧
      counterInnerMax < σ.machine.unblockedTaskCount + σ.machine.activeTaskCount) := by
  induction fuel with
  | zero => exact fun _ _ _ h => absurd h (not_lt_zero _)
  | succ fuel ih =>
    intro trace σ count h hidle hfuel hcount
    obtain ⟨tbl, -, hI⟩ := h.inv_arrivalRank
    have hsum := hI.running_add_length_le
    cases hq : σ.machine.unblockedTaskQueue with
    | nil =>
      have hactive : σ.machine.activeTaskCount = 0 := by
        by_contra hne
        obtain ⟨t, hstarted, hd⟩ := hI.exists_runnable (pos_of_ne_zero hne)
        rcases hstarted with ht | ht
        · exact hd (hidle t ht)
        · rw [hq] at ht
          cases ht
      refine .inl ⟨trace, σ, h, hactive, ?_⟩
      have hnext : σ.machine.scheduleNextUnblockedTask = .ok (none, σ.machine) := by
        unfold scheduleNextUnblockedTask
        rw [hq]
        split_ifs <;> rfl
      simp only [SchedulingStateMachine.clearTasks, hnext, hactive, add_zero]
      rfl
    | cons t ts =>
      rw [hq, length_cons] at hsum
      by_cases hu : σ.machine.unblockedTaskCount < counterInnerMax
      · obtain ⟨m, trace', σ', hnext, hdesched, hrun, hidle', hactive, hunblocked⟩ :=
          h.clear_round hmax hidle hq hu
        have hinc : count < counterInnerMax := by omega
        have hround : SchedulingStateMachine.clearTasks (fuel + 1) count σ.machine =
            SchedulingStateMachine.clearTasks fuel (count + 1) σ'.machine := by
          simp only [SchedulingStateMachine.clearTasks, hnext, bind, Except.bind, hdesched,
            increment_of_lt hinc]
        rw [hround]
        have hstep := ih (count + 1) hrun hidle' (by omega) (by omega)
        have hcount' : count + 1 + σ'.machine.activeTaskCount =
            count + σ.machine.activeTaskCount := by omega
        have hsum' : σ'.machine.unblockedTaskCount + σ'.machine.activeTaskCount =
            σ.machine.unblockedTaskCount + σ.machine.activeTaskCount := by omega
        rwa [hcount', hsum'] at hstep
      refine .inr ⟨?_, by omega⟩
      have hover : σ.machine.scheduleNextUnblockedTask = .error .counterOverflow := by
        obtain ⟨hrunnable, hrun⟩ := hI.isTaskRunnable hmax hidle
        have hlt : σ.machine.runningTaskCount < counterInnerMax := by omega
        simp only [scheduleNextUnblockedTask, hrunnable, hq, increment_of_lt hlt,
          increment_of_not_lt hu]
        rfl
      simp [SchedulingStateMachine.clearTasks, hover, bind, Except.bind]

/-- Without active tasks `reinitialize` makes a fresh machine. -/
lemma Run.reinit (h : Run capability maxRunningTaskCount trace σ)
    (h0 : σ.machine.activeTaskCount = 0) :
    reinitialize σ.machine = .ok (SchedulingStateMachine.new capability maxRunningTaskCount) := by
  obtain ⟨tbl, hσ, hI⟩ := h.inv_arrivalRank
  have hsum := hI.running_add_length_le
  have hrunning : σ.machine.runningTaskCount = 0 := by omega
  have hqueue : σ.machine.unblockedTaskQueue = [] := length_eq_zero_iff.mp (by omega)
  have hcounts : σ.machine.blockedUsageCounts = fun _ => 0 := by
    rw [hσ]
    funext t
    by_contra hne
    have hlive := (hI.tasks.pending_pos_iff.mp (pos_of_ne_zero hne)).1
    rw [hI.live_eq_nil h0] at hlive
    cases hlive
  have hqueues : σ.machine.usageQueues = fun _ => UsageQueueInner.new capability := by
    rw [hσ]
    funext q
    exact ofCell_eq_new.mpr (hI.cell_eq_empty h0 q)
  simp only [h0, reinitialize, hrunning, hqueue, hcounts, hqueues, hI.counts.max,
    SchedulingStateMachine.new]
  simp

/-- **No deadlock.** As long as there are active tasks, one of them is outstanding or queued as
unblocked. So `clear_and_reinitialize`, called when no task is outstanding, descheduled all active
tasks and leaves a fresh machine; the only panic on the way is the overflow of the counter of
unblocked tasks. -/
theorem no_deadlock (h : Run capability maxRunningTaskCount trace σ)
    (hmax : 1 ≤ maxRunningTaskCount) :
    (0 < σ.machine.activeTaskCount →
      (∃ t ∈ σ.returned, t ∉ σ.descheduled) ∨ σ.machine.unblockedTaskQueue ≠ []) ∧
    ((∀ t ∈ σ.returned, t ∈ σ.descheduled) → ∀ fuel, σ.machine.activeTaskCount < fuel →
      clearAndReinitialize fuel σ.machine =
          .ok (σ.machine.activeTaskCount,
            SchedulingStateMachine.new capability maxRunningTaskCount) ∨
        clearAndReinitialize fuel σ.machine = .error .counterOverflow ∧
          counterInnerMax < σ.machine.unblockedTaskCount + σ.machine.activeTaskCount) := by
  obtain ⟨tbl, -, hI⟩ := h.inv_arrivalRank
  constructor
  · intro hactive
    obtain ⟨t, hstarted, hd⟩ := hI.exists_runnable hactive
    rcases hstarted with ht | ht
    · exact .inl ⟨t, ht, hd⟩
    · exact .inr (ne_nil_of_mem ht)
  intro hidle fuel hfuel
  have hle : 0 + σ.machine.activeTaskCount ≤ counterInnerMax := by
    have := hI.counts.active
    have := hI.counts.total_le
    omega
  rcases Run.clearTasks hmax fuel 0 h hidle hfuel hle with
    ⟨trace', σ', hrun, hactive, hclear⟩ | ⟨hclear, hover⟩
  · left
    simp [hclear, clearAndReinitialize, hrun.reinit hactive, bind, Except.bind]
  · right
    exact ⟨by simp only [hclear, clearAndReinitialize, bind, Except.bind], hover⟩

/-- The small run is cleared. -/
theorem no_deadlock_bufferedRun :
    ∃ (trace : List (Call Unit × Option (Task Unit))) (σ : Session Unit),
      Run .priorityQueueing 1 trace σ ∧ σ.machine.activeTaskCount = 3 ∧
      clearAndReinitialize 4 σ.machine =
        .ok (3, SchedulingStateMachine.new .priorityQueueing 1) := by
  obtain ⟨_, σ, h, -, hret, -, -, ha, hu⟩ := exists_bufferedRun .priorityQueueing
  refine ⟨_, σ, h, ha, ?_⟩
  rcases (no_deadlock h le_rfl).2 (by simp [hret]) 4 (by omega) with hclear | ⟨-, hover⟩
  · rw [hclear, ha]
  · rw [ha, hu, counterInnerMax] at hover
    omega

end Trezoa.UnifiedScheduler
