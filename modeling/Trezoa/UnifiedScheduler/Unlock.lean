import Trezoa.UnifiedScheduler.Lock

/-!
# Unlocking a usage queue

* `unlocks_ofCell`: both together are `Cell.release`.
-/

namespace Trezoa.UnifiedScheduler

open Lib Trezoa.Lib.LockTable SchedulingStateMachine UsageQueueInner List Cell Function

open RequestedUsage

variable {Q : Type} [DecidableEq Q] {capability : Capability} {rank : Task Q → ℕ}
  {firm : Task Q → Prop} {c : Cell RequestedUsage (Task Q)} {hs ws : List (UsageFromTask Q)}
  {u : RequestedUsage} {t : Task Q} {counts : BlockedUsageCounts Q}

/-! ## `unlock` -/

omit [DecidableEq Q] in
lemma pop_ofCell (hs ws : List (UsageFromTask Q)) :
    (ofCell capability ⟨hs, ws⟩).pop = (ws.head?, ofCell capability ⟨hs, ws.tail⟩) := by
  cases capability <;> rfl

/-- The holders without one of them. -/
lemma length_others (hI : c.Inv shared rank firm) (ht : (u, t) ∈ c.holders) :
    c.holders.length = (c.others t).length + 1 := by
  have hnd := hI.nodup
  rw [map_append, nodup_append] at hnd
  have hone : c.holders.countP (fun h => decide (h.2 = t)) = 1 := by
    have hcount := count_eq_one_of_mem hnd.1 (mem_map_of_mem ht)
    rw [List.count, countP_map] at hcount
    exact hcount
  have hsplit := length_eq_countP_add_countP (l := c.holders)
    fun h : UsageFromTask Q => decide (h.2 = t)
  rw [hone, countP_eq_length_filter] at hsplit
  rw [hsplit, Nat.add_comm]
  simp [others]

/-- `unlock` removes the holder `t`; a queue that gets free hands out its first waiter. -/
lemma unlock_ofCell (hrank : capability = .priorityQueueing → rank = Task.taskId)
    (hI : c.Inv shared rank firm) (ht : (u, t) ∈ c.holders) :
    (ofCell capability c).unlock t u =
      if (c.others t).isEmpty then
        .ok (c.waiters.head?, ofCell capability ⟨[], c.waiters.tail⟩)
      else .ok (none, ofCell capability ⟨c.others t, c.waiters⟩) := by
  rcases holders_cases hI with ⟨hnil, -⟩ | ⟨t', hone⟩ | ⟨hne, hsh⟩
  · rw [hnil] at ht
    cases ht
  · rw [hone, mem_singleton, Prod.mk.injEq] at ht
    obtain ⟨rfl, rfl⟩ := ht
    have hothers : (c.others t).isEmpty = true := by simp [others, hone]
    rw [if_pos hothers, ← pop_ofCell]
    cases capability <;> simp [ofCell, hone, fifoUsage, priorityUsage, unlock]
  obtain rfl := shared_eq_true.mp (hsh _ ht)
  have hlen := length_others hI ht
  have hsh' : ∀ x ∈ c.others t, shared x.1 = true := fun x hx => hsh x (mem_others.mp hx).1
  cases capability with
  | fifoQueueing =>
    simp only [ofCell, (usage_readonly hne hsh).1, unlock, hlen]
    by_cases hempty : c.others t = []
    · simp [hempty, pop, fifoUsage]
    · have hpos : (c.others t).length ≠ 0 := by simpa using hempty
      simp [hempty, ShortCounter.decrement, (usage_readonly hempty hsh').1, bind, Except.bind]
  | priorityQueueing =>
    obtain rfl := hrank rfl
    have hids : ((c.holders.map Prod.snd).map Task.taskId).Nodup := by
      rw [map_map]
      exact pairwise_map.mpr (hI.holders_lt.imp fun h => ne_of_lt h)
    have hremove := removeTask_eq hids (mem_map_of_mem ht)
    have hfilter : ((c.holders.map Prod.snd).filter fun v => v.taskId ≠ t.taskId) =
        (c.others t).map Prod.snd := by
      rw [filter_map]
      congr 1
      refine filter_congr fun h hh => ?_
      have hinj : h.2.taskId = t.taskId ↔ h.2 = t :=
        ⟨inj_on_of_nodup_map hids (mem_map_of_mem hh) (mem_map_of_mem ht), fun h => by rw [h]⟩
      simp [hinj]
    rw [hfilter] at hremove
    simp only [ofCell, (usage_readonly hne hsh).2, unlock, hremove, bind, Except.bind]
    by_cases hempty : c.others t = []
    · simp [hempty, pop, priorityUsage]
    · simp [hempty, (usage_readonly hempty hsh').2]

/-! ## Granting a queue that got free -/

/-- One blocked usage less for every task in `l`. -/
def lessBlocked (counts : BlockedUsageCounts Q) (l : List (Task Q)) : BlockedUsageCounts Q :=
  fun t => if t ∈ l then counts t - 1 else counts t

@[simp] lemma lessBlocked_nil (counts : BlockedUsageCounts Q) : lessBlocked counts [] = counts := by
  funext t
  simp [lessBlocked]

lemma lessBlocked_cons (counts : BlockedUsageCounts Q) {l : List (Task Q)} (ht : t ∉ l) :
    lessBlocked (update counts t (counts t - 1)) l = lessBlocked counts (t :: l) := by
  funext u
  by_cases hu : u = t
  · subst hu
    simp [lessBlocked, ht]
  · simp [lessBlocked, hu]

/-- `try_unblock` of a blocked task. -/
lemma tryUnblock_of_pos (h0 : 0 < counts t) :
    t.tryUnblock counts =
      .ok (if counts t = 1 then some t else none, update counts t (counts t - 1)) := by
  have hone : counts t - 1 = 0 ↔ counts t = 1 := by
    constructor <;> intro h <;> omega
  simp [Task.tryUnblock, ShortCounter.decrement, if_neg (Nat.ne_of_gt h0), bind, Except.bind, hone]

omit [DecidableEq Q] in
/-- A task is unblocked by its last usage. -/
lemma toList_unblocked : (if counts t = 1 then some t else none).toList =
    [t].filter fun u => decide (counts u = 1) := by
  by_cases h1 : counts t = 1 <;> simp [h1]

omit [DecidableEq Q] in
/-- A reader locks a queue that is free or held by readers in front of it. -/
lemma tryLock_append (hrank : capability = .priorityQueueing → rank = Task.taskId)
    (ws : List (UsageFromTask Q))
    (hsh : ∀ x ∈ hs, shared x.1 = true) (hlt : ∀ x ∈ hs, rank x.2 < rank t)
    (hlen : hs.length < counterInnerMax) :
    (ofCell capability ⟨hs, ws⟩).tryLock t .readonly =
      .ok (.ok, ofCell capability ⟨hs ++ [(.readonly, t)], ws⟩) := by
  by_cases hnil : hs = []
  · subst hnil
    exact tryLock_free ws t .readonly
  have hins : insertBy (reqRank rank) (readonly, t) hs = hs ++ [(.readonly, t)] :=
    insertBy_of_forall_gt _ hlt
  rw [← hins]
  exact tryLock_readonly hrank ws hnil hsh (fun x hx => (hlt x hx).ne) hlen

omit [DecidableEq Q] in
/-- `pop_lockable_readonly` of a queue that is held by readers. -/
lemma popLockableReadonly_ofCell (hne : hs ≠ []) (hsh : ∀ x ∈ hs, shared x.1 = true)
    (ws : List (UsageFromTask Q)) :
    (ofCell capability ⟨hs, ws⟩).popLockableReadonly =
      match ws with
      | (.readonly, t) :: ws => .ok (some (.readonly, t), ofCell capability ⟨hs, ws⟩)
      | ws => .ok (none, ofCell capability ⟨hs, ws⟩) := by
  rcases ws with _ | ⟨⟨u, t⟩, ws⟩
  · cases capability <;> rfl
  cases u
  · cases capability <;>
      simp [ofCell, usage_readonly hne hsh, popLockableReadonly, peekBlocked, currentUsage, pop,
        Usage.requestedUsage]
  · cases capability <;> rfl

section
variable (hrank : capability = .priorityQueueing → rank = Task.taskId)
include hrank

/-- One round of the loop for a reader. -/
lemma lockNewlyLockable_succ (ws : List (UsageFromTask Q)) (fuel : ℕ) (unblocked : List (Task Q))
    (hsh : ∀ x ∈ hs, shared x.1 = true) (hlt : ∀ x ∈ hs, rank x.2 < rank t)
    (hlen : hs.length < counterInnerMax) (hpos : 0 < counts t) :
    lockNewlyLockable (fuel + 1) (some (.readonly, t)) (ofCell capability ⟨hs, ws⟩) counts
        unblocked =
      match ws with
      | (.readonly, t') :: ws =>
        lockNewlyLockable fuel (some (.readonly, t'))
          (ofCell capability ⟨hs ++ [(.readonly, t)], ws⟩)
          (update counts t (counts t - 1))
          (unblocked ++ [t].filter fun u => decide (counts u = 1))
      | ws =>
        .ok (ofCell capability ⟨hs ++ [(.readonly, t)], ws⟩,
          update counts t (counts t - 1),
          unblocked ++ [t].filter fun u => decide (counts u = 1)) := by
  have hsh' : ∀ x ∈ hs ++ [(readonly, t)], shared x.1 = true :=
    forall_mem_append.mpr ⟨hsh, forall_mem_singleton.mpr rfl⟩
  simp only [lockNewlyLockable, tryLock_append hrank ws hsh hlt hlen, tryUnblock_of_pos hpos, bind,
    Except.bind, popLockableReadonly_ofCell (append_ne_nil_of_right_ne_nil hs
      (cons_ne_nil _ _)) hsh' ws, toList_unblocked]
  rcases ws with _ | ⟨⟨u, t'⟩, ws⟩
  · simp [lockNewlyLockable]
  · cases u <;> simp only [lockNewlyLockable]

/-- The readers behind a reader that gets the queue. -/
lemma lockNewlyLockable_readonly
    (ws : List (UsageFromTask Q)) : ∀ (fuel : ℕ) (hs : List (UsageFromTask Q)) (t : Task Q)
    (counts : BlockedUsageCounts Q) (unblocked : List (Task Q)), ws.length < fuel →
    (∀ x ∈ hs, shared x.1 = true) →
    ((hs ++ (.readonly, t) :: ws).Pairwise fun a b => reqRank rank a < reqRank rank b) →
    hs.length + ws.length < counterInnerMax → (∀ w ∈ (.readonly, t) :: ws, 0 < counts w.2) →
    lockNewlyLockable fuel (some (.readonly, t)) (ofCell capability ⟨hs, ws⟩) counts unblocked =
      .ok (ofCell capability ⟨hs ++ (.readonly, t) :: ws.takeWhile fun w => shared w.1,
          ws.dropWhile fun w => shared w.1⟩,
        lessBlocked counts (t :: (ws.takeWhile fun w => shared w.1).map Prod.snd),
        unblocked ++ (t :: (ws.takeWhile fun w => shared w.1).map Prod.snd).filter
          fun u => decide (counts u = 1)) := by
  induction ws with
  | nil =>
    intro fuel hs t counts unblocked hfuel hsh hlt hlen hpos
    obtain ⟨fuel, rfl⟩ := Nat.exists_eq_succ_of_ne_zero (Nat.ne_of_gt hfuel)
    rw [lockNewlyLockable_succ hrank [] fuel unblocked hsh
      (fun x hx => (pairwise_append.mp hlt).2.2 x hx _ (.head _)) hlen
      (hpos _ (.head _))]
    simp [← lessBlocked_cons]
  | cons w ws ih =>
    intro fuel hs t counts unblocked hfuel hsh hlt hlen hpos
    obtain ⟨fuel, rfl⟩ := Nat.exists_eq_succ_of_ne_zero (Nat.ne_of_gt (by omega : 0 < fuel))
    have hcons := (pairwise_cons.mp (pairwise_append.mp hlt).2.1).1
    rw [lockNewlyLockable_succ hrank (w :: ws) fuel unblocked hsh
      (fun x hx => (pairwise_append.mp hlt).2.2 x hx _ (.head _))
      (by simp only [length_cons] at hlen; omega) (hpos _ (.head _))]
    obtain ⟨u, t'⟩ := w
    cases u with
    | writable => simp [← lessBlocked_cons]
    | readonly =>
      -- the next reader is another task, so its counter is still the old one
      have hne : ∀ v ∈ ((readonly, t') :: ws).map Prod.snd, v ≠ t := by
        refine forall_mem_map.mpr fun w hw h => ?_
        have := hcons w hw
        simp [reqRank, h] at this
      have hsame : ∀ v ∈ ((readonly, t') :: ws).map Prod.snd,
          update counts t (counts t - 1) v = counts v :=
        fun v hv => update_of_ne (hne v hv) _ _
      have hrest := ih fuel (hs ++ [(.readonly, t)]) t'
        (update counts t (counts t - 1))
        (unblocked ++ [t].filter fun u => decide (counts u = 1))
        (by simp only [length_cons] at hfuel; omega)
        (forall_mem_append.mpr ⟨hsh, forall_mem_singleton.mpr rfl⟩)
        (by simpa using hlt)
        (by simp only [length_cons, length_append, length_nil] at hlen ⊢; omega)
        (fun v hv => by
          rw [hsame v.2 (mem_map_of_mem hv)]
          exact hpos v (.tail _ hv))
      set readers := t' :: (ws.takeWhile fun w => shared w.1).map Prod.snd
      have hsub : readers ⊆ ((readonly, t') :: ws).map Prod.snd :=
        cons_subset_cons _ (map_subset _ (takeWhile_sublist _).subset)
      have hnot : t ∉ readers := fun h => hne t (hsub h) rfl
      have hfilter : (readers.filter fun u => decide (update counts t (counts t - 1) u = 1)) =
          readers.filter fun u => decide (counts u = 1) :=
        filter_congr fun v hv => by rw [hsame v (hsub hv)]
      rw [lessBlocked_cons counts hnot, hfilter] at hrest
      simp only [hrest]
      rw [append_assoc unblocked, ← filter_append]
      simp only [takeWhile_cons, dropWhile_cons, shared_readonly, if_true,
        map_cons, append_assoc, singleton_append]
      rfl

/-- **Granting a queue that got free**: the loop hands it to `Cell.burst`. -/
lemma lockNewlyLockable_ofCell (unblocked : List (Task Q))
    (hlt : ws.Pairwise fun a b => reqRank rank a < reqRank rank b)
    (hlen : ws.length ≤ counterInnerMax) (hpos : ∀ w ∈ ws, 0 < counts w.2) :
    lockNewlyLockable (ws.tail.length + 1) ws.head? (ofCell capability ⟨[], ws.tail⟩) counts
        unblocked =
      .ok (ofCell capability ⟨burst shared ws, remaining shared ws⟩,
        lessBlocked counts ((burst shared ws).map Prod.snd),
        unblocked ++ ((burst shared ws).map Prod.snd).filter fun u => decide (counts u = 1)) := by
  rcases ws with _ | ⟨⟨u, t⟩, ws⟩
  · simp [lockNewlyLockable, burst, remaining]
  cases u with
  | readonly =>
    have hrun : lockNewlyLockable (ws.length + 1) (some (.readonly, t))
        (ofCell capability ⟨[], ws⟩) counts unblocked = _ :=
      lockNewlyLockable_readonly hrank ws (ws.length + 1) [] t counts unblocked
        (Nat.lt_succ_self _) (by simp) hlt
        (by simp only [length_cons] at hlen; simp only [length_nil]; omega) hpos
    simpa [burst, remaining] using hrun
  | writable =>
    have hp := hpos _ (.head _)
    simp only [tail_cons, head?_cons, lockNewlyLockable, tryLock_free, tryUnblock_of_pos hp, bind,
      Except.bind, burst, remaining, toList_unblocked]
    simp [← lessBlocked_cons]

/-- **Unlocking a queue is `release`.** -/
theorem unlocks_ofCell (hI : c.Inv shared rank firm) (ht : (u, t) ∈ c.holders)
    (unblocked : List (Task Q)) (hlen : c.waiters.length ≤ counterInnerMax)
    (hpos : ∀ w ∈ c.waiters, 0 < counts w.2) :
    ∃ newlyLockable usageQueue,
      (ofCell capability c).unlock t u = .ok (newlyLockable, usageQueue) ∧
      lockNewlyLockable (usageQueue.blockedUsagesFromTasks.length + 1) newlyLockable usageQueue
          counts unblocked =
        .ok (ofCell capability (c.release shared t),
          lessBlocked counts ((c.granted shared t).map Prod.snd),
          unblocked ++ ((c.granted shared t).map Prod.snd).filter
            fun u => decide (counts u = 1)) := by
  have hunlock := unlock_ofCell hrank hI ht
  by_cases hempty : (c.others t).isEmpty = true
  · rw [if_pos hempty] at hunlock
    refine ⟨_, _, hunlock, ?_⟩
    rw [blockedUsagesFromTasks_ofCell, release, granted, if_pos hempty, if_pos hempty]
    exact lockNewlyLockable_ofCell hrank unblocked hI.waiters_lt hlen hpos
  · rw [if_neg hempty] at hunlock
    refine ⟨_, _, hunlock, ?_⟩
    rw [release, granted, if_neg hempty, if_neg hempty]
    simp [lockNewlyLockable]

end
end Trezoa.UnifiedScheduler
