import Trezoa.Lib.LockTable.Table
import Trezoa.UnifiedScheduler.StateMachine

/-!
# Locking a usage queue

Both variants of `UsageQueueInner` are representations of one abstract thing, a `Cell` of the lock
table: the fifo variant forgets who the holders are and keeps their number, the priority variant
keeps them. `ofCell` is the representation.

* `prepareLock_priority`: the reblocking in `prepare_lock` is what `Cell.acquire` takes away.
* `locks_ofCell`: the way of a request through `prepare_lock`, `try_lock` and `push_blocked` is
  `Cell.acquire`. The fifo variant ranks tasks by their arrival, that is, every new task behind all
  tasks of the queue; the priority variant by task id.

No panic is reached on the representation of a cell that satisfies its invariant.
-/

namespace Trezoa.UnifiedScheduler

open Lib Trezoa.Lib.LockTable UsageQueueInner List UnifiedScheduler.Task RequestedUsage Cell

variable {Q : Type} {hs ws : List (UsageFromTask Q)} {x : UsageFromTask Q}
  {capability : Capability} {rank : Task Q → ℕ} {firm : Task Q → Prop}
  {c : Cell RequestedUsage (Task Q)} {token : BlockedUsageCounts Q} {task : Task Q}
  {usage : RequestedUsage}

/-- Readonly usages may coexist. -/
def shared : RequestedUsage → Bool
  | .readonly => true
  | .writable => false

@[simp] lemma shared_readonly : shared .readonly = true := rfl

@[simp] lemma shared_writable : shared .writable = false := rfl

lemma shared_eq_true {u : RequestedUsage} : shared u = true ↔ u = .readonly := by
  cases u <;> simp

lemma shared_eq_false {u : RequestedUsage} : shared u = false ↔ u = .writable := by
  cases u <;> simp

/-! ## The representation -/

/-- The `current_usage` of the fifo variant. -/
def fifoUsage : List (UsageFromTask Q) → Option FifoUsage
  | [] => none
  | (.readonly, _) :: hs => some (.readonly (hs.length + 1))
  | (.writable, _) :: _ => some (.writable ())

/-- The `current_usage` of the priority variant. -/
def priorityUsage : List (UsageFromTask Q) → Option (PriorityUsage Q)
  | [] => none
  | (.readonly, t) :: hs => some (.readonly (t :: hs.map Prod.snd))
  | (.writable, t) :: _ => some (.writable t)

/-- The usage queue that represents a cell. -/
def ofCell (capability : Capability) (c : Cell RequestedUsage (Task Q)) : UsageQueueInner Q :=
  match capability with
  | .fifoQueueing => .fifo (fifoUsage c.holders) c.waiters
  | .priorityQueueing => .priority (priorityUsage c.holders) c.waiters

/-- The fresh queue represents the empty cell, and nothing else does. -/
lemma ofCell_eq_new : ofCell capability c = new capability ↔ c = ⟨[], []⟩ := by
  obtain ⟨hs, ws⟩ := c
  rcases hs with _ | ⟨⟨u, t⟩, hs⟩
  · cases capability <;> simp [ofCell, new, fifoUsage, priorityUsage]
  · cases capability <;> cases u <;> simp [ofCell, new, fifoUsage, priorityUsage]

@[simp] lemma blockedUsagesFromTasks_ofCell (capability : Capability)
    (c : Cell RequestedUsage (Task Q)) :
    (ofCell capability c).blockedUsagesFromTasks = c.waiters := by
  cases capability <;> rfl

lemma usage_readonly (hne : hs ≠ []) (h : ∀ x ∈ hs, shared x.1 = true) :
    fifoUsage hs = some (.readonly hs.length) ∧
      priorityUsage hs = some (.readonly (hs.map Prod.snd)) := by
  rcases hs with _ | ⟨⟨u, t⟩, hs⟩
  · exact absurd rfl hne
  · obtain rfl : u = .readonly := shared_eq_true.mp (h _ (.head _))
    exact ⟨rfl, rfl⟩

/-- The three shapes of the holders of a cell. -/
lemma holders_cases (hI : c.Inv shared rank firm) :
    (c.holders = [] ∧ c.waiters = []) ∨ (∃ t, c.holders = [(.writable, t)]) ∨
      (c.holders ≠ [] ∧ ∀ x ∈ c.holders, shared x.1 = true) := by
  by_cases hnil : c.holders = []
  · exact Or.inl ⟨hnil, hI.occupied hnil⟩
  by_cases hex : ∃ h ∈ c.holders, shared h.1 = false
  · obtain ⟨⟨u, t⟩, hh, hsh⟩ := hex
    obtain rfl : u = .writable := shared_eq_false.mp hsh
    exact Or.inr (Or.inl ⟨t, hI.exclusive _ hh hsh⟩)
  · push Not at hex
    exact Or.inr (Or.inr ⟨hnil, fun x hx => by simpa using hex x hx⟩)

/-! ## `try_lock` and `push_blocked` -/

section queue

/-- A task with a new id is inserted. -/
lemma insertUsageFromTask_eq (hnew : ∀ w ∈ ws, w.2.taskId ≠ x.2.taskId) :
    insertUsageFromTask ws x = .ok (insertBy (reqRank taskId) x ws) := by
  refine if_neg ?_
  simpa using hnew

/-- `try_lock` of a free queue. -/
lemma tryLock_free (ws : List (UsageFromTask Q)) (task : Task Q) (usage : RequestedUsage) :
    (ofCell capability ⟨[], ws⟩).tryLock task usage =
      .ok (.ok, ofCell capability ⟨[(usage, task)], ws⟩) := by
  cases capability <;> cases usage <;> rfl

/-- A reader joins other readers. -/
lemma tryLock_readonly (hrank : capability = .priorityQueueing → rank = taskId)
    (ws : List (UsageFromTask Q)) (hne : hs ≠ [])
    (hsh : ∀ x ∈ hs, shared x.1 = true) (hnew : ∀ x ∈ hs, rank x.2 ≠ rank task)
    (hlen : hs.length < counterInnerMax) :
    (ofCell capability ⟨hs, ws⟩).tryLock task .readonly =
      .ok (.ok, ofCell capability ⟨insertBy (reqRank rank) (.readonly, task) hs, ws⟩) := by
  have hsh' : ∀ x ∈ insertBy (reqRank rank) (.readonly, task) hs, shared x.1 = true := by
    intro x hx
    rcases (mem_insertBy _).mp hx with rfl | hx
    · rfl
    · exact hsh x hx
  have hne' := insertBy_ne_nil (reqRank rank) (.readonly, task) hs
  cases capability with
  | fifoQueueing =>
    simp only [ofCell, (usage_readonly hne hsh).1, (usage_readonly hne' hsh').1, tryLock,
      ShortCounter.increment, if_pos hlen,
      (insertBy_perm (reqRank rank) (readonly, task) hs).length_eq, length_cons]
    rfl
  | priorityQueueing =>
    obtain rfl := hrank rfl
    have hinsert : insertTask (hs.map Prod.snd) task =
        .ok ((insertBy (reqRank taskId) (.readonly, task) hs).map Prod.snd) := by
      rw [insertTask, if_neg (by simpa using hnew)]
      exact congrArg _ (map_insertBy taskId Prod.snd (readonly, task) hs).symm
    simp only [ofCell, (usage_readonly hne hsh).2, (usage_readonly hne' hsh').2, tryLock, hinsert]
    rfl

/-- `try_lock` fails when a held queue and the request do not go together. -/
lemma tryLock_conflict (ws : List (UsageFromTask Q)) {h : UsageFromTask Q} (hh : h ∈ hs.head?)
    (hc : conflict shared usage h.1 = true) :
    (ofCell capability ⟨hs, ws⟩).tryLock task usage = .ok (.err, ofCell capability ⟨hs, ws⟩) := by
  rcases hs with _ | ⟨⟨u, t⟩, hs⟩
  · simp at hh
  simp only [head?_cons, Option.mem_def, Option.some.injEq] at hh
  subst hh
  cases capability <;> cases u <;> cases usage <;>
    first
      | rfl
      | (simp [conflict] at hc)

/-- `push` puts a new request in its place. -/
lemma push_ofCell (hrank : capability = .priorityQueueing → rank = taskId)
    (hlast : capability = .fifoQueueing → ∀ w ∈ ws, rank w.2 < rank x.2)
    (hnew : ∀ w ∈ ws, rank w.2 ≠ rank x.2) :
    (ofCell capability ⟨hs, ws⟩).push x =
      .ok (ofCell capability ⟨hs, insertBy (reqRank rank) x ws⟩) := by
  cases capability with
  | fifoQueueing =>
    have hins : insertBy (reqRank rank) x ws = ws ++ [x] := insertBy_of_forall_gt _ (hlast rfl)
    rw [hins]
    rfl
  | priorityQueueing =>
    obtain rfl := hrank rfl
    simp only [ofCell, push, insertUsageFromTask_eq hnew]
    rfl

/-- `push_blocked` on a held queue. -/
lemma pushBlocked_ofCell (hrank : capability = .priorityQueueing → rank = taskId) (hne : hs ≠ [])
    (hlast : capability = .fifoQueueing → ∀ w ∈ ws, rank w.2 < rank x.2)
    (hnew : ∀ w ∈ ws, rank w.2 ≠ rank x.2) :
    (ofCell capability ⟨hs, ws⟩).pushBlocked x =
      .ok (ofCell capability ⟨hs, insertBy (reqRank rank) x ws⟩) := by
  rw [← push_ofCell hrank hlast hnew]
  rcases hs with _ | ⟨⟨u, t⟩, hs⟩
  · exact absurd rfl hne
  · cases capability <;> cases u <;> rfl

/-! ## Locking a queue -/

variable [DecidableEq Q]

/-- The paths of `try_lock_usage_queues` through one queue: the request is granted, or it is
refused by `try_lock` or already by `prepare_lock` and queues up. -/
inductive Locks (q : UsageQueueInner Q) (token : BlockedUsageCounts Q) (task : Task Q)
    (usage : RequestedUsage) : Bool → UsageQueueInner Q → BlockedUsageCounts Q → Prop
  | granted {q₁ q' : UsageQueueInner Q} {token' : BlockedUsageCounts Q}
      (prepare : q.prepareLock token task usage = .ok (.ok, q₁, token'))
      (lock : q₁.tryLock task usage = .ok (.ok, q')) : Locks q token task usage true q' token'
  | refused {q₁ q₂ q' : UsageQueueInner Q} {token' : BlockedUsageCounts Q}
      (prepare : q.prepareLock token task usage = .ok (.ok, q₁, token'))
      (lock : q₁.tryLock task usage = .ok (.err, q₂))
      (push : q₂.pushBlocked (usage, task) = .ok q') : Locks q token task usage false q' token'
  | blocked {q₁ q' : UsageQueueInner Q} {token' : BlockedUsageCounts Q}
      (prepare : q.prepareLock token task usage = .ok (.err, q₁, token'))
      (push : q₁.pushBlocked (usage, task) = .ok q') : Locks q token task usage false q' token'

omit [DecidableEq Q] in
/-- A request that conflicts with some holder conflicts with the first one. -/
lemma conflict_head (hI : c.Inv shared rank firm) {h : UsageFromTask Q}
    (hh : h ∈ c.holders) (hc : conflict shared usage h.1 = true) :
    ∃ k ∈ c.holders.head?, conflict shared usage k.1 = true := by
  cases hu : shared usage with
  | true =>
    have hone := hI.exclusive h hh (exclusive_of_conflict hc hu)
    exact ⟨h, by simp [hone], hc⟩
  | false =>
    cases hhs : c.holders with
    | nil => simp [hhs] at hh
    | cons k ks => exact ⟨k, by simp, conflict_of_exclusive_left hu⟩

/-- **Locking a fifo queue is `acquire`**, for a task that ranks behind all tasks of the queue. -/
theorem locks_fifo (hI : c.Inv shared rank firm) (token : BlockedUsageCounts Q) (task : Task Q)
    (usage : RequestedUsage) (hlt : ∀ y ∈ c.holders ++ c.waiters, rank y.2 < rank task)
    (hlen : c.holders.length < counterInnerMax) :
    Locks (ofCell .fifoQueueing c) token task usage (c.admits shared rank token (usage, task))
      (ofCell .fifoQueueing (c.acquire shared rank token (usage, task))) token := by
  obtain ⟨hadm, hacq⟩ := acquire_of_forall_lt shared token (usage, task) hlt
  have hprep : (ofCell .fifoQueueing c).prepareLock token task usage =
      if c.waiters.isEmpty then .ok (.ok, ofCell .fifoQueueing c, token)
      else .ok (.err, ofCell .fifoQueueing c, token) := rfl
  cases ha : c.admits shared rank token (usage, task) with
  | true =>
    rw [ha, eq_comm, Bool.and_eq_true] at hadm
    obtain ⟨hcompat, hw⟩ := hadm
    rw [if_pos hw] at hprep
    refine .granted hprep ?_
    rw [hacq, if_pos ha]
    by_cases hnil : c.holders = []
    · have hc : c = ⟨[], c.waiters⟩ := by rw [← hnil]
      rw [hc]
      exact tryLock_free _ task usage
    have hsh : shared usage = true ∧ ∀ h ∈ c.holders, shared h.1 = true := by
      obtain ⟨k, hk⟩ := exists_mem_of_ne_nil _ hnil
      simp only [all_eq_true, Bool.not_eq_true', conflict_eq_false] at hcompat
      exact ⟨(hcompat k hk).1, fun h hh => (hcompat h hh).2⟩
    have hlt' : ∀ h ∈ c.holders, rank h.2 < rank task := fun h hh => hlt h (mem_append_left _ hh)
    have hins : insertBy (reqRank rank) (usage, task) c.holders =
        c.holders ++ [(usage, task)] := insertBy_of_forall_gt _ hlt'
    rw [← hins]
    obtain rfl := shared_eq_true.mp hsh.1
    exact tryLock_readonly (by simp) _ hnil hsh.2 (fun h hh => (hlt' h hh).ne) hlen
  | false =>
    have hlt' : ∀ w ∈ c.waiters, rank w.2 < rank task := fun w hw => hlt w (mem_append_right _ hw)
    have hpush (hne : c.holders ≠ []) :
        (ofCell .fifoQueueing c).pushBlocked (usage, task) =
          .ok (ofCell .fifoQueueing (c.acquire shared rank token (usage, task))) := by
      have hins : insertBy (reqRank rank) (usage, task) c.waiters =
          c.waiters ++ [(usage, task)] := insertBy_of_forall_gt _ hlt'
      rw [hacq, if_neg (by simp [ha]), ← hins]
      exact pushBlocked_ofCell (by simp) hne (fun _ => hlt') fun w hw => (hlt' w hw).ne
    rw [ha, eq_comm, Bool.and_eq_false_iff] at hadm
    by_cases hw : c.waiters.isEmpty = true
    · have hex : ∃ h ∈ c.holders, conflict shared usage h.1 = true := by
        simpa [hw] using hadm
      obtain ⟨h, hh, hc⟩ := hex
      obtain ⟨k, hk, hkc⟩ := conflict_head hI hh hc
      rw [if_pos hw] at hprep
      exact .refused hprep (tryLock_conflict _ hk hkc) (hpush (ne_nil_of_mem hh))
    · rw [if_neg hw] at hprep
      refine .blocked hprep (hpush fun hnil => hw ?_)
      rw [hI.occupied hnil]
      rfl

/-! ## Reblocking -/

/-- One more blocked usage for every task in `l`. -/
def reblocked (token : BlockedUsageCounts Q) (l : List (Task Q)) : BlockedUsageCounts Q :=
  fun t => if t ∈ l then token t + 1 else token t

@[simp] lemma reblocked_nil (token : BlockedUsageCounts Q) : reblocked token [] = token := by
  funext t
  simp [reblocked]

lemma reblocked_cons (token : BlockedUsageCounts Q) {t : Task Q} {l : List (Task Q)} (ht : t ∉ l) :
    reblocked (Function.update token t (token t + 1)) l = reblocked token (t :: l) := by
  funext u
  by_cases hu : u = t
  · subst hu
    simp [reblocked, ht]
  · simp [reblocked, hu]

/-- `try_reblock` of a task that is still blocked. -/
lemma tryReblock_of_pos {t : Task Q} (h0 : 0 < token t)
    (hmax : token t < counterInnerMax) :
    t.tryReblock token = .ok (true, reblocked token [t]) := by
  have hcons := reblocked_cons token (t := t) (l := []) not_mem_nil
  rw [reblocked_nil] at hcons
  simp only [tryReblock, if_neg (Nat.ne_of_gt h0), ShortCounter.increment, if_pos hmax, ← hcons]
  rfl

lemma tryReblock_of_eq_zero {t : Task Q} (h0 : token t = 0) :
    t.tryReblock token = .ok (false, token) := by
  simp [tryReblock, h0]

/-- The readers that are reblocked are those that do not run yet. -/
lemma reblockTasks_eq (ts : List (Task Q)) : ∀ token : BlockedUsageCounts Q, ts.Nodup →
    (∀ t ∈ ts, token t < counterInnerMax) →
    reblockTasks token ts =
      .ok ((ts.filter fun t => decide (0 < token t)).map taskId,
        reblocked token (ts.filter fun t => decide (0 < token t))) := by
  induction ts with
  | nil =>
    intro token _ _
    simp [reblockTasks]
  | cons t ts ih =>
    intro token hnd hmax
    obtain ⟨ht, hnd⟩ := nodup_cons.mp hnd
    have hmax' : ∀ u ∈ ts, token u < counterInnerMax := fun u hu => hmax u (.tail _ hu)
    by_cases h0 : 0 < token t
    · -- the counters of the other readers are as before
      have hother : ∀ u ∈ ts, reblocked token [t] u = token u := by
        intro u hu
        have hne : u ≠ t := fun h => ht (h ▸ hu)
        simp [reblocked, hne]
      have hfilter : (ts.filter fun u => decide (0 < reblocked token [t] u)) =
          ts.filter fun u => decide (0 < token u) :=
        filter_congr fun u hu => by rw [hother u hu]
      have hrest := ih (reblocked token [t]) hnd fun u hu => by
        rw [hother u hu]
        exact hmax' u hu
      have hupd : reblocked token [t] = Function.update token t (token t + 1) := by
        rw [← reblocked_cons token not_mem_nil, reblocked_nil]
      rw [hfilter, hupd, reblocked_cons token fun h => ht (mem_filter.mp h).1] at hrest
      simp only [reblockTasks, tryReblock_of_pos h0 (hmax t (.head _)), filter_cons, h0,
        decide_true, if_true, map_cons, hupd]
      simp [bind, Except.bind, hrest]
    · have hz : token t = 0 := Nat.eq_zero_of_not_pos h0
      simp only [reblockTasks, tryReblock_of_eq_zero hz, filter_cons, h0,
        decide_false, Bool.false_eq_true, if_false, bind, Except.bind, ih token hnd hmax']

omit [DecidableEq Q] in
/-- A task is found under its id. -/
lemma removeTask_eq {tasks : List (Task Q)} (hnd : (tasks.map taskId).Nodup) {t : Task Q}
    (ht : t ∈ tasks) :
    removeTask tasks t.taskId = .ok (t, tasks.filter fun u => u.taskId ≠ t.taskId) := by
  have hfind : (tasks.find? fun u => decide (u.taskId = t.taskId)) = some t := by
    induction tasks with
    | nil => cases ht
    | cons u us ih =>
      rw [map_cons, nodup_cons] at hnd
      rcases mem_cons.mp ht with rfl | ht
      · simp
      · have hne : u.taskId ≠ t.taskId := fun h => hnd.1 (h ▸ mem_map_of_mem ht)
        simp only [find?_cons, hne, decide_false]
        exact ih hnd.2 ht
  simp [removeTask, hfind]

/-- The loop of `prepare_lock` over the reblocked readers `ts`: they leave the current readers and
queue up in front of the waiters, behind those moved so far. -/
lemma moveReblocked_eq (ts : List (Task Q)) :
    ∀ (tasks : List (Task Q)) (done ws : List (UsageFromTask Q)),
    (tasks.map taskId).Nodup → (∀ t ∈ ts, t ∈ tasks) →
    (ts.Pairwise fun a b => a.taskId < b.taskId) →
    (∀ x ∈ done, ∀ t ∈ ts, x.2.taskId < t.taskId) → (∀ t ∈ ts, ∀ w ∈ ws, t.taskId < w.2.taskId) →
    moveReblocked (ts.map taskId) tasks (done ++ ws) =
      .ok (tasks.filter fun u => u ∉ ts, done ++ ts.map (fun t => (.readonly, t)) ++ ws) := by
  induction ts with
  | nil =>
    intro tasks done ws _ _ _ _ _
    simp [moveReblocked]
  | cons t ts ih =>
    intro tasks done ws hnd hsub hlt hdone hws
    obtain ⟨ht, hlt⟩ := pairwise_cons.mp hlt
    have hd : ∀ x ∈ done, x.2.taskId < t.taskId := fun x hx => hdone x hx t (.head _)
    have hw : ∀ w ∈ ws, t.taskId < w.2.taskId := hws t (.head _)
    have hins : insertUsageFromTask (done ++ ws) (.readonly, t) =
        .ok ((done ++ [(.readonly, t)]) ++ ws) := by
      rw [insertUsageFromTask_eq, insertBy_append _ hd hw, append_assoc]
      · rfl
      · exact forall_mem_append.mpr ⟨fun u hu => (hd u hu).ne, fun u hu => (hw u hu).ne'⟩
    have hrest := ih (tasks.filter fun u => u.taskId ≠ t.taskId) (done ++ [(.readonly, t)]) ws
      (hnd.sublist (filter_sublist.map _))
      (fun u hu => mem_filter.mpr ⟨hsub u (.tail _ hu), by
        simpa using (ht u hu).ne'⟩) hlt
      (forall_mem_append.mpr
        ⟨fun x hx u hu => (hd x hx).trans (ht u hu), forall_mem_singleton.mpr ht⟩)
      (fun u hu w hw => hws u (.tail _ hu) w hw)
    have hinj : ∀ u ∈ tasks, (u.taskId = t.taskId ↔ u = t) := fun u hu =>
      ⟨inj_on_of_nodup_map hnd hu (hsub t (.head _)), fun h => by rw [h]⟩
    have hfilter : ((tasks.filter fun u => u.taskId ≠ t.taskId).filter fun u => u ∉ ts) =
        tasks.filter fun u => u ∉ t :: ts := by
      rw [filter_filter]
      refine filter_congr fun u hu => ?_
      simp only [mem_cons, not_or, Bool.decide_and, ne_eq, hinj u hu]
      exact Bool.and_comm _ _
    simp only [map_cons, moveReblocked, bind, Except.bind,
      removeTask_eq hnd (hsub t (.head _)), hins, hrest, hfilter]
    simp

/-! ## Locking a priority queue -/

omit [DecidableEq Q] in
lemma isHigherPriority_of_lt {t u : Task Q} (h : t.taskId < u.taskId) :
    t.isHigherPriority u = .ok true := by
  simp [isHigherPriority, h]

omit [DecidableEq Q] in
lemma isHigherPriority_of_gt {t u : Task Q} (h : u.taskId < t.taskId) :
    t.isHigherPriority u = .ok false := by
  simp [isHigherPriority, h, h.not_gt]

section priority

/-- `prepare_lock` is the revocation of `acquire`, and its result says whether the request is
granted. -/
def Revokes (c : Cell RequestedUsage (Task Q)) (token : BlockedUsageCounts Q) (task : Task Q)
    (usage : RequestedUsage) : Prop :=
  (ofCell .priorityQueueing c).prepareLock token task usage =
    .ok (if c.admits shared taskId token (usage, task) then .ok else .err,
      ofCell .priorityQueueing ⟨c.kept shared taskId token (usage, task),
        c.taken shared taskId token (usage, task) ++ c.waiters⟩,
      reblocked token ((c.taken shared taskId token (usage, task)).map Prod.snd))

/-- A reader asks for a queue that is held for reading. -/
lemma prepareLock_readonly_readonly (hI : c.Inv shared taskId firm)
    (hnew : ∀ y ∈ c.holders ++ c.waiters, y.2.taskId ≠ task.taskId) (hne : c.holders ≠ [])
    (hsh : ∀ x ∈ c.holders, shared x.1 = true) : Revokes c token task .readonly := by
  have hc : ∀ h ∈ c.holders, conflict shared .readonly h.1 = false := fun h hh =>
    conflict_eq_false.mpr ⟨rfl, hsh h hh⟩
  have htaken : c.taken shared taskId token (.readonly, task) = [] := by
    refine filter_eq_nil_iff.mpr fun h hh => ?_
    simp [revocable, hc h hh]
  have hkept := kept_eq_holders htaken
  have hadm : c.admits shared taskId token (.readonly, task) = true ↔
      ∀ w ∈ c.waiters, task.taskId < w.2.taskId := by
    rw [admits_iff, hkept]
    exact and_iff_right hc
  have hself : ofCell .priorityQueueing c =
      .priority (some (.readonly (c.holders.map Prod.snd))) c.waiters := by
    simp [ofCell, (usage_readonly hne hsh).2]
  rw [Revokes, htaken, hkept, nil_append, map_nil, reblocked_nil]
  rw [hself]
  cases hws : c.waiters with
  | nil =>
    rw [if_pos (hadm.mpr (by simp [hws]))]
    simp [prepareLock, peekBlocked]
  | cons w ws =>
    obtain ⟨k, hk⟩ := exists_mem_of_ne_nil _ hne
    obtain ⟨u, t⟩ := w
    have hu := hI.front k hk (hsh k hk) (u, t) (by simp [hws])
    obtain rfl := shared_eq_false.mp hu
    -- the first waiter decides, as the others are behind it
    have hwlt := (pairwise_cons.mp (hws ▸ hI.waiters_lt)).1
    rw [hws, forall_mem_cons] at hadm
    have htne : t.taskId ≠ task.taskId := hnew (.writable, t) (by simp [hws])
    rcases lt_or_gt_of_ne htne with hlt | hlt
    · rw [if_neg fun ha => lt_asymm hlt (hadm.mp ha).1]
      simp [prepareLock, peekBlocked, isHigherPriority_of_gt hlt, bind, Except.bind]
    · rw [if_pos (hadm.mpr ⟨hlt, fun v hv => lt_trans hlt (hwlt v hv)⟩)]
      simp [prepareLock, peekBlocked, isHigherPriority_of_lt hlt, bind, Except.bind]

omit [DecidableEq Q] in
/-- The readers that `prepare_lock` collects for a writer are those that `acquire` takes the queue
from. -/
lemma filter_readers (hnew : ∀ y ∈ c.holders ++ c.waiters, y.2.taskId ≠ task.taskId) :
    (((c.holders.map Prod.snd).filter fun t => task.taskId ≤ t.taskId).filter
      fun t => decide (0 < token t)) =
      (c.taken shared taskId token (.writable, task)).map Prod.snd := by
  rw [filter_filter, filter_map]
  congr 1
  refine filter_congr fun h hh => ?_
  have hne := hnew h (mem_append_left _ hh)
  have hle : task.taskId ≤ h.2.taskId ↔ task.taskId < h.2.taskId :=
    ⟨fun hle => lt_of_le_of_ne hle hne.symm, le_of_lt⟩
  simp [revocable, conflict, hle]

/-- The readers that stay are those `acquire` keeps. -/
lemma filter_not_taken (hI : c.Inv shared rank firm) :
    ((c.holders.map Prod.snd).filter fun t =>
      t ∉ (c.taken shared rank token x).map Prod.snd) =
      (c.kept shared rank token x).map Prod.snd := by
  have hnd := hI.nodup
  rw [map_append, nodup_append] at hnd
  rw [filter_map]
  congr 1
  refine filter_congr fun h hh => ?_
  have hiff : h.2 ∈ (c.taken shared rank token x).map Prod.snd ↔
      revocable shared rank token x h = true := by
    constructor
    · intro hm
      obtain ⟨k, hk, hkh⟩ := mem_map.mp hm
      have hk' := mem_filter.mp hk
      rw [← inj_on_of_nodup_map hnd.1 hk'.1 hh hkh]
      exact hk'.2
    · exact fun hr => mem_map_of_mem (mem_filter.mpr ⟨hh, hr⟩)
  simp [hiff]

section
variable (hI : c.Inv shared taskId firm)
  (hf : ∀ h ∈ c.holders, firm h.2 ↔ token h.2 = 0)
  (hnew : ∀ y ∈ c.holders ++ c.waiters, y.2.taskId ≠ task.taskId)
  (hmax : ∀ h ∈ c.holders, token h.2 < counterInnerMax)
include hI hf hnew hmax

/-- `prepare_lock` of a queue that is held for writing. -/
lemma prepareLock_writable {t : Task Q} (hone : c.holders = [(.writable, t)]) :
    Revokes c token task usage := by
  have hmem : (writable, t) ∈ c.holders := by simp [hone]
  have hc : conflict shared usage .writable = true := conflict_of_exclusive_right rfl
  have hself : ofCell .priorityQueueing c = .priority (some (.writable t)) c.waiters := by
    simp [ofCell, hone, priorityUsage]
  by_cases hrev : 0 < token t ∧ task.taskId < t.taskId
  · -- the holder does not run yet and is less urgent: it goes back in front of the waiters
    have hr : revocable shared taskId token (usage, task) (.writable, t) = true := by
      simp [revocable, hc, hrev.1, hrev.2]
    have htaken : c.taken shared taskId token (usage, task) = [(.writable, t)] := by
      simp [taken, hone, hr]
    have hkept : c.kept shared taskId token (usage, task) = [] := by
      simp [kept, hone, hr]
    have hlt : ∀ w ∈ c.waiters, t.taskId < w.2.taskId := fun w hw =>
      hI.taken_lt hf (by rw [htaken]; exact mem_singleton_self _) hw
    have hadm : c.admits shared taskId token (usage, task) = true := by
      refine admits_iff.mpr ⟨by simp [hkept], fun w hw => ?_⟩
      exact hrev.2.trans (hlt w hw)
    have hins : insertUsageFromTask c.waiters (.writable, t) =
        .ok ((.writable, t) :: c.waiters) := by
      rw [insertUsageFromTask_eq fun w hw => (hlt w hw).ne', insertBy_of_forall_lt _ hlt]
    rw [Revokes, hself, htaken, hkept, hadm]
    simp only [prepareLock, isHigherPriority_of_lt hrev.2, bind, Except.bind,
      tryReblock_of_pos hrev.1 (hmax _ hmem), hins]
    rfl
  have hr : revocable shared taskId token (usage, task) (.writable, t) = false := by
    simpa [revocable, hc] using hrev
  have htaken : c.taken shared taskId token (usage, task) = [] := by
    simp [taken, hone, hr]
  have hkept := (kept_eq_holders htaken).trans hone
  have hadm : c.admits shared taskId token (usage, task) = false := by
    simp [admits, hkept, hc]
  have hne : t.taskId ≠ task.taskId := hnew _ (mem_append_left _ hmem)
  rw [Revokes, hself, htaken, hkept, hadm]
  rcases lt_or_gt_of_ne hne with hlt | hlt
  · simp only [prepareLock, isHigherPriority_of_gt hlt, bind, Except.bind]
    simp [ofCell, priorityUsage]
  have h0 : token t = 0 := Nat.eq_zero_of_not_pos fun h0 => hrev ⟨h0, hlt⟩
  simp only [prepareLock, isHigherPriority_of_lt hlt, bind, Except.bind, tryReblock_of_eq_zero h0]
  simp [ofCell, priorityUsage]

/-- A writer asks for a queue that is held for reading. -/
lemma prepareLock_readonly_writable (hne : c.holders ≠ [])
    (hsh : ∀ x ∈ c.holders, shared x.1 = true) : Revokes c token task .writable := by
  have hself : ofCell .priorityQueueing c =
      .priority (some (.readonly (c.holders.map Prod.snd))) c.waiters := by
    simp [ofCell, (usage_readonly hne hsh).2]
  have hlt : (c.holders.map Prod.snd).Pairwise fun a b => a.taskId < b.taskId :=
    pairwise_map.mpr hI.holders_lt
  have hids : ((c.holders.map Prod.snd).map taskId).Nodup :=
    pairwise_map.mpr (hlt.imp fun h => ne_of_lt h)
  rw [Revokes]
  set taken := c.taken shared taskId token (.writable, task) with htaken
  have hsub : taken.Sublist c.holders := filter_sublist
  have hreblock := reblockTasks_eq
    ((c.holders.map Prod.snd).filter fun t => task.taskId ≤ t.taskId) token
    (hids.of_map.filter _) fun t ht => by
      obtain ⟨h, hh, rfl⟩ := mem_map.mp (mem_filter.mp ht).1
      exact hmax h hh
  rw [filter_readers hnew, ← htaken] at hreblock
  have hmove := moveReblocked_eq (taken.map Prod.snd) (c.holders.map Prod.snd) [] c.waiters hids
    (fun t ht => (hsub.map Prod.snd).subset ht) (hlt.sublist (hsub.map _)) (by simp) (by
      intro t ht w hw
      obtain ⟨h, hh, rfl⟩ := mem_map.mp ht
      exact hI.taken_lt hf hh hw)
  have hback : (taken.map Prod.snd).map (fun t => (readonly, t)) = taken := by
    rw [map_map]
    refine (map_congr_left fun h hh => ?_).trans taken.map_id
    obtain ⟨u, t⟩ := h
    obtain rfl := shared_eq_true.mp (hsh _ (hsub.subset hh))
    rfl
  rw [nil_append, nil_append, hback, htaken, filter_not_taken hI, ← htaken] at hmove
  rw [hself]
  simp only [prepareLock, bind, Except.bind, hreblock, hmove]
  by_cases hnil : c.kept shared taskId token (.writable, task) = []
  · -- every reader lost the queue, so the writer precedes them and whoever waits behind them
    have ha : c.admits shared taskId token (.writable, task) = true :=
      eq_true_of_ne_false fun hna => hI.kept_ne_nil hf hna hnil
    simp [hnil, ha, ofCell, priorityUsage]
  have ha : c.admits shared taskId token (.writable, task) = false := by
    obtain ⟨k, hk⟩ := exists_mem_of_ne_nil _ hnil
    rw [Bool.eq_false_iff]
    intro ha
    cases (conflict_of_exclusive_left rfl).symm.trans ((admits_iff.mp ha).1 k hk)
  have hsh' : ∀ x ∈ c.kept shared taskId token (.writable, task), shared x.1 = true :=
    fun x hx => hsh x (mem_kept.mp hx).1
  simp [hnil, ha, ofCell, (usage_readonly hnil hsh').2]

variable (usage) in
/-- The revocation, whoever holds the queue. -/
lemma prepareLock_priority : Revokes c token task usage := by
  rcases holders_cases hI with ⟨hnil, hw⟩ | ⟨t, hone⟩ | ⟨hne, hsh⟩
  · obtain ⟨hs, ws⟩ := c
    subst hnil hw
    simp [Revokes, ofCell, priorityUsage, prepareLock, admits, kept, taken]
  · exact prepareLock_writable hI hf hnew hmax hone
  · cases usage with
    | readonly => exact prepareLock_readonly_readonly hI hnew hne hsh
    | writable => exact prepareLock_readonly_writable hI hf hnew hmax hne hsh

/-- **Locking a priority queue is `acquire`**, for tasks ranked by their ids. -/
theorem locks_priority (hlen : c.holders.length < counterInnerMax) :
    Locks (ofCell .priorityQueueing c) token task usage
      (c.admits shared taskId token (usage, task))
      (ofCell .priorityQueueing (c.acquire shared taskId token (usage, task)))
      (reblocked token ((c.taken shared taskId token (usage, task)).map Prod.snd)) := by
  have hprep := prepareLock_priority usage hI hf hnew hmax
  rw [Revokes] at hprep
  have hrank : Capability.priorityQueueing = .priorityQueueing →
      (taskId : Task Q → ℕ) = taskId := fun _ => rfl
  cases ha : c.admits shared taskId token (usage, task) with
  | true =>
    rw [if_pos ha] at hprep
    refine .granted hprep ?_
    rw [acquire, if_pos ha]
    by_cases hnil : c.kept shared taskId token (usage, task) = []
    · rw [hnil]
      exact tryLock_free _ task usage
    obtain ⟨hcompat, -⟩ := admits_iff.mp ha
    simp only [conflict_eq_false] at hcompat
    obtain ⟨k, hk⟩ := exists_mem_of_ne_nil _ hnil
    obtain rfl := shared_eq_true.mp (hcompat k hk).1
    refine tryLock_readonly hrank _ hnil (fun h hh => (hcompat h hh).2) ?_ ?_
    · exact fun h hh => hnew h (mem_append_left _ (mem_kept.mp hh).1)
    · exact lt_of_le_of_lt (length_filter_le _ _) hlen
  | false =>
    rw [if_neg (by simp [ha])] at hprep
    refine .blocked hprep ?_
    rw [acquire, if_neg (by simp [ha])]
    refine pushBlocked_ofCell hrank (hI.kept_ne_nil hf ha) (by simp) fun w hw => ?_
    exact hnew w ((filter_sublist.append_right _).subset hw)

end
end priority

/-- How tasks are ranked: a fifo queue puts a new task behind everyone, a priority queue goes by
task id. -/
structure Ranks (capability : Capability) (rank : Task Q → ℕ) (c : Cell RequestedUsage (Task Q))
    (task : Task Q) : Prop where
  /-- A new task of a fifo queue is last. -/
  last : capability = .fifoQueueing → ∀ y ∈ c.holders ++ c.waiters, rank y.2 < rank task
  /-- The priority queue ranks by task id. -/
  taskId : capability = .priorityQueueing → rank = taskId

/-- **Locking a queue is `acquire`.** -/
theorem locks_ofCell (hI : c.Inv shared rank firm) (hranks : Ranks capability rank c task)
    (hf : ∀ h ∈ c.holders, firm h.2 ↔ token h.2 = 0)
    (hnew : ∀ y ∈ c.holders ++ c.waiters, rank y.2 ≠ rank task)
    (hlen : c.holders.length < counterInnerMax)
    (hmax : ∀ h ∈ c.holders, token h.2 < counterInnerMax) :
    Locks (ofCell capability c) token task usage (c.admits shared rank token (usage, task))
      (ofCell capability (c.acquire shared rank token (usage, task)))
      (reblocked token ((c.taken shared rank token (usage, task)).map Prod.snd)) := by
  cases capability with
  | fifoQueueing =>
    have hlt := hranks.last rfl
    have htaken : c.taken shared rank token (usage, task) = [] := by
      refine eq_nil_iff_forall_not_mem.mpr fun h hh => ?_
      obtain ⟨hm, -, -, hgt⟩ := mem_taken.mp hh
      exact lt_asymm hgt (hlt h (mem_append_left _ hm))
    rw [htaken, map_nil, reblocked_nil]
    exact locks_fifo hI token task usage hlt hlen
  | priorityQueueing =>
    obtain rfl := hranks.taskId rfl
    exact locks_priority hI hf hnew hmax hlen

end queue
end Trezoa.UnifiedScheduler
