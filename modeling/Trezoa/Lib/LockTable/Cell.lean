import Trezoa.Lib.InsertBy

/-!
# Shared and exclusive locks with ranked, revocable grants: one resource

Clients of type `T` ask for a resource in a mode of type `M`; `shared m` says whether two holders
in mode `m` may coexist. Every client has a rank, and `pending t` counts the requests of `t` that
are not granted anywhere: a client runs only once that is zero.

* `Cell.acquire`: a request takes the resource away from every conflicting holder of larger rank
  that does not run yet (`Cell.taken`), and is granted when it is compatible with the holders that
  are left and has a smaller rank than everyone waiting (`Cell.admits`).
* `Cell.release`: a holder leaves; when the resource gets free the first waiter is granted, with
  the whole run of shared requests that follows it (`Cell.burst`).
* `Cell.Inv`: holders exclude each other, waiters ascend in rank, a free resource has no waiter,
  and **a holder that does not run yet has a smaller rank than every waiter** (`Cell.Inv.ahead`);
  kept by both operations (`Cell.Inv.acquire`, `Cell.Inv.release`).

`acquire` with a rank above every rank in the cell never revokes anything: it is first in, first
out locking. So one development covers both a queue in arrival order and a priority queue.
-/

namespace Trezoa.Lib.LockTable

open List Option

/-! ## One resource -/

/-- One resource: who holds it and who waits for it, each with the requested mode. -/
@[ext] structure Cell (M T : Type*) where
  /-- The requests that are granted. -/
  holders : List (M × T)
  /-- The requests that wait, first to be granted first. -/
  waiters : List (M × T)

section cell
variable {M T : Type*} (shared : M → Bool) (rank : T → ℕ)

/-- Two modes conflict unless both are shared. -/
def conflict (m m' : M) : Bool :=
  !(shared m && shared m')

/-- The rank of a request is the rank of its client. -/
def reqRank (x : M × T) : ℕ :=
  rank x.2

namespace Cell

/-- The resource may be taken from the holder `h` by the request `x`: they conflict, the client of
`h` does not run yet, and it has the larger rank. -/
def revocable (pending : T → ℕ) (x h : M × T) : Bool :=
  conflict shared x.1 h.1 && (decide (0 < pending h.2) && decide (rank x.2 < rank h.2))

/-- The holders that the request `x` takes the resource from. -/
def taken (pending : T → ℕ) (c : Cell M T) (x : M × T) : List (M × T) :=
  c.holders.filter (revocable shared rank pending x)

/-- The holders that the request `x` leaves in place. -/
def kept (pending : T → ℕ) (c : Cell M T) (x : M × T) : List (M × T) :=
  c.holders.filter fun h => !revocable shared rank pending x h

/-- The request is granted at once: it is compatible with the holders that stay and precedes
everyone who waits. -/
def admits (pending : T → ℕ) (c : Cell M T) (x : M × T) : Bool :=
  (c.kept shared rank pending x).all (fun h => !conflict shared x.1 h.1) &&
    c.waiters.all fun w => decide (rank x.2 < rank w.2)

/-- A new request. -/
def acquire (pending : T → ℕ) (c : Cell M T) (x : M × T) : Cell M T :=
  if c.admits shared rank pending x then
    ⟨insertBy (reqRank rank) x (c.kept shared rank pending x),
      c.taken shared rank pending x ++ c.waiters⟩
  else
    ⟨c.kept shared rank pending x,
      insertBy (reqRank rank) x (c.taken shared rank pending x ++ c.waiters)⟩

/-- The requests that are granted when the resource gets free: the first waiter and, when it is
shared, the shared requests right behind it. -/
def burst : List (M × T) → List (M × T)
  | [] => []
  | w :: ws => if shared w.1 then w :: ws.takeWhile fun x => shared x.1 else [w]

/-- The requests that keep waiting when the resource gets free. -/
def remaining : List (M × T) → List (M × T)
  | [] => []
  | w :: ws => if shared w.1 then ws.dropWhile fun x => shared x.1 else ws

variable [DecidableEq T]

/-- The holders other than `t`. -/
def others (c : Cell M T) (t : T) : List (M × T) :=
  c.holders.filter fun h => decide (h.2 ≠ t)

/-- The requests that are granted because `t` leaves. -/
def granted (c : Cell M T) (t : T) : List (M × T) :=
  if (c.others t).isEmpty then burst shared c.waiters else []

/-- The holder `t` leaves. -/
def release (c : Cell M T) (t : T) : Cell M T :=
  if (c.others t).isEmpty then ⟨burst shared c.waiters, remaining shared c.waiters⟩
  else ⟨c.others t, c.waiters⟩

end Cell
end cell

/-! ## The invariant of one resource -/

section cellInv
variable {M T : Type*} (shared : M → Bool) (rank : T → ℕ)

/-- The invariant of one resource. `firm` are the clients that run (or are about to): a resource
is never taken from them, and only they may hold it in front of a waiter of smaller rank. -/
structure Cell.Inv (firm : T → Prop) (c : Cell M T) : Prop where
  /-- No client appears twice. -/
  nodup : ((c.holders ++ c.waiters).map Prod.snd).Nodup
  /-- An exclusive holder is alone. -/
  exclusive : ∀ h ∈ c.holders, shared h.1 = false → c.holders = [h]
  /-- Holders ascend in rank. -/
  holders_lt : c.holders.Pairwise fun a b => reqRank rank a < reqRank rank b
  /-- Waiters ascend in rank. -/
  waiters_lt : c.waiters.Pairwise fun a b => reqRank rank a < reqRank rank b
  /-- Nobody waits for a free resource. -/
  occupied : c.holders = [] → c.waiters = []
  /-- Behind shared holders the first waiter is exclusive. -/
  front : ∀ h ∈ c.holders, shared h.1 = true → ∀ w ∈ c.waiters.head?, shared w.1 = false
  /-- A holder that does not run yet precedes every waiter. -/
  ahead : ∀ h ∈ c.holders, ¬ firm h.2 → ∀ w ∈ c.waiters, rank h.2 < rank w.2

variable {shared rank}

lemma conflict_of_exclusive_left {m m' : M} (h : shared m = false) :
    conflict shared m m' = true := by
  simp [conflict, h]

lemma conflict_of_exclusive_right {m m' : M} (h : shared m' = false) :
    conflict shared m m' = true := by
  simp [conflict, h]

lemma conflict_eq_false {m m' : M} :
    conflict shared m m' = false ↔ shared m = true ∧ shared m' = true := by
  simp [conflict]

lemma exclusive_of_conflict {m m' : M} (h : conflict shared m m' = true)
    (hm : shared m = true) : shared m' = false := by
  simpa [conflict, hm] using h

namespace Cell

/-- The empty resource. -/
lemma inv_empty (firm : T → Prop) : (⟨[], []⟩ : Cell M T).Inv shared rank firm where
  nodup := by simp
  exclusive := by simp
  holders_lt := by simp
  waiters_lt := by simp
  occupied := by simp
  front := by simp
  ahead := by simp

/-- The clause `ahead` is asked of fewer clients when more of them are firm. -/
lemma Inv.mono {firm firm' : T → Prop} {c : Cell M T} (hI : c.Inv shared rank firm)
    (h : ∀ t, firm t → firm' t) : c.Inv shared rank firm' :=
  { hI with ahead := fun k hk hf w hw => hI.ahead k hk (fun hf' => hf (h _ hf')) w hw }

variable {pending : T → ℕ} {c : Cell M T} {x : M × T}

lemma mem_taken {h : M × T} : h ∈ c.taken shared rank pending x ↔
    h ∈ c.holders ∧ conflict shared x.1 h.1 = true ∧ 0 < pending h.2 ∧ rank x.2 < rank h.2 := by
  simp [taken, revocable]

lemma mem_kept {k : M × T} : k ∈ c.kept shared rank pending x ↔
    k ∈ c.holders ∧ (conflict shared x.1 k.1 = true → 0 < pending k.2 → rank k.2 ≤ rank x.2) := by
  simp only [kept, revocable, mem_filter, Bool.not_eq_true', ← Bool.not_eq_true, Bool.and_eq_true,
    decide_eq_true_eq, not_and, not_lt]

lemma admits_iff : c.admits shared rank pending x = true ↔
    (∀ h ∈ c.kept shared rank pending x, conflict shared x.1 h.1 = false) ∧
      ∀ w ∈ c.waiters, rank x.2 < rank w.2 := by
  simp [admits]

lemma kept_eq_holders (ht : c.taken shared rank pending x = []) :
    c.kept shared rank pending x = c.holders := by
  refine filter_eq_self.mpr fun h hh => ?_
  simpa using filter_eq_nil_iff.mp ht h hh

variable (shared rank x) in
/-- A request depends on `pending` only at the holders. -/
lemma acquire_congr {pending' : T → ℕ} (h : ∀ k ∈ c.holders, pending k.2 = pending' k.2) :
    c.taken shared rank pending x = c.taken shared rank pending' x ∧
      c.admits shared rank pending x = c.admits shared rank pending' x ∧
      c.acquire shared rank pending x = c.acquire shared rank pending' x := by
  have hrev : ∀ k ∈ c.holders,
      revocable shared rank pending x k = revocable shared rank pending' x k := by
    intro k hk
    rw [revocable, revocable, h k hk]
  have htaken : c.taken shared rank pending x = c.taken shared rank pending' x := filter_congr hrev
  have hkept : c.kept shared rank pending x = c.kept shared rank pending' x :=
    filter_congr fun k hk => by rw [hrev k hk]
  have hadmits : c.admits shared rank pending x = c.admits shared rank pending' x := by
    rw [admits, admits, hkept]
  exact ⟨htaken, hadmits, by rw [acquire, acquire, htaken, hkept, hadmits]⟩

variable (shared rank pending c x) in
/-- `taken` and `kept` split the holders. -/
lemma taken_append_kept_perm :
    (c.taken shared rank pending x ++ c.kept shared rank pending x).Perm c.holders :=
  filter_append_perm _ _

section acquire
variable {firm : T → Prop}

/-- Whoever loses the resource precedes everyone who waits for it. -/
lemma Inv.taken_lt (hI : c.Inv shared rank firm)
    (hf : ∀ h ∈ c.holders, firm h.2 ↔ pending h.2 = 0) {h w : M × T}
    (hh : h ∈ c.taken shared rank pending x) (hw : w ∈ c.waiters) : rank h.2 < rank w.2 := by
  obtain ⟨hm, -, hp, -⟩ := mem_taken.mp hh
  exact hI.ahead h hm (fun hfh => by have := (hf h hm).mp hfh; omega) w hw

/-- A shared request cannot take the resource from one holder and leave it to another. -/
lemma Inv.exclusive_of_taken_of_kept (hI : c.Inv shared rank firm) {h k : M × T}
    (hh : h ∈ c.taken shared rank pending x) (hk : k ∈ c.kept shared rank pending x) :
    shared x.1 = false := by
  by_contra hx
  rw [Bool.not_eq_false] at hx
  obtain ⟨hm, hc, hp, hlt⟩ := mem_taken.mp hh
  have hone := hI.exclusive h hm (exclusive_of_conflict hc hx)
  obtain ⟨hkm, hle⟩ := mem_kept.mp hk
  rw [hone, mem_singleton] at hkm
  subst hkm
  exact absurd (hle hc hp) (not_le.mpr hlt)

/-- Whoever keeps the resource without running yet precedes a request that conflicts with it. -/
lemma lt_of_mem_kept (hf : ∀ h ∈ c.holders, firm h.2 ↔ pending h.2 = 0)
    (hnew : ∀ y ∈ c.holders ++ c.waiters, rank y.2 ≠ rank x.2) {k : M × T}
    (hk : k ∈ c.kept shared rank pending x) (hnf : ¬ firm k.2)
    (hc : conflict shared x.1 k.1 = true) : rank k.2 < rank x.2 := by
  obtain ⟨hm, hle⟩ := mem_kept.mp hk
  have hp : 0 < pending k.2 := Nat.pos_of_ne_zero fun h0 => hnf ((hf k hm).mpr h0)
  exact lt_of_le_of_ne (hle hc hp) (hnew k (mem_append_left _ hm))

/-- The requests after the step are the requests before it and `x`. -/
lemma acquire_perm (pending : T → ℕ) (c : Cell M T) (x : M × T) :
    ((c.acquire shared rank pending x).holders ++
      (c.acquire shared rank pending x).waiters).Perm (x :: (c.holders ++ c.waiters)) := by
  have hsplit : (c.kept shared rank pending x ++
      (c.taken shared rank pending x ++ c.waiters)).Perm (c.holders ++ c.waiters) := by
    rw [← append_assoc]
    exact (perm_append_comm.trans (taken_append_kept_perm shared rank pending c x)).append_right _
  unfold acquire
  split_ifs
  · exact ((insertBy_perm _ x _).append_right _).trans (hsplit.cons x)
  · exact ((insertBy_perm _ x _).append_left _).trans (perm_middle.trans (hsplit.cons x))

lemma mem_waiters_acquire {y : M × T} : y ∈ (c.acquire shared rank pending x).waiters ↔
    y ∈ c.taken shared rank pending x ∨ y ∈ c.waiters ∨
      (c.admits shared rank pending x = false ∧ y = x) := by
  unfold acquire
  split_ifs with ha
  · simp [ha]
  · rw [Bool.not_eq_true] at ha
    simp only [mem_insertBy, mem_append, ha, true_and]
    tauto

section
variable (hI : c.Inv shared rank firm)
include hI

lemma Inv.nodup_acquire (pending : T → ℕ)
    (hnew : ∀ y ∈ c.holders ++ c.waiters, rank y.2 ≠ rank x.2) :
    (((c.acquire shared rank pending x).holders ++
      (c.acquire shared rank pending x).waiters).map Prod.snd).Nodup := by
  refine (((acquire_perm pending c x).map Prod.snd).nodup_iff).mpr ?_
  rw [map_cons, nodup_cons]
  refine ⟨?_, hI.nodup⟩
  intro hx
  obtain ⟨y, hy, hyx⟩ := mem_map.mp hx
  exact hnew y hy (by rw [hyx])

section
variable (hf : ∀ h ∈ c.holders, firm h.2 ↔ pending h.2 = 0)
include hf

/-- After the step the requests that lost the resource are the first to wait. -/
lemma Inv.taken_append_lt :
    (c.taken shared rank pending x ++ c.waiters).Pairwise
      fun a b => reqRank rank a < reqRank rank b := by
  rw [pairwise_append]
  refine ⟨hI.holders_lt.filter _, hI.waiters_lt, fun h hh w hw => ?_⟩
  exact hI.taken_lt hf hh hw

/-- A granted request leaves the invariant intact. -/
lemma Inv.acquire_of_admits (hnew : ∀ y ∈ c.holders ++ c.waiters, rank y.2 ≠ rank x.2)
    (ha : c.admits shared rank pending x = true) :
    (c.acquire shared rank pending x).Inv shared rank firm := by
  obtain ⟨hcompat, hfirst⟩ := admits_iff.mp ha
  have hnodup := hI.nodup_acquire pending hnew
  -- an exclusive request is granted only when no holder is left
  have halone : shared x.1 = false → c.kept shared rank pending x = [] := by
    intro hx
    refine eq_nil_iff_forall_not_mem.mpr fun k hk => ?_
    cases (conflict_of_exclusive_left hx).symm.trans (hcompat k hk)
  rw [acquire, if_pos ha] at hnodup ⊢
  refine ⟨hnodup, ?_, ?_, hI.taken_append_lt hf, ?_, ?_, ?_⟩
  · intro h hh hex
    rcases (mem_insertBy _).mp hh with rfl | hk
    · simp only [halone hex]
      rfl
    · exact absurd (conflict_eq_false.mp (hcompat h hk)).2 (by simp [hex])
  · refine pairwise_insertBy _ (hI.holders_lt.filter _) fun y hy => ?_
    exact hnew y (mem_append_left _ (mem_kept.mp hy).1)
  · exact fun h => absurd h (insertBy_ne_nil _ _ _)
  · intro h hh hsh w hw
    have hx : shared x.1 = true := by
      rcases (mem_insertBy _).mp hh with rfl | hk
      · exact hsh
      · exact (conflict_eq_false.mp (hcompat h hk)).1
    -- the first waiter is one that just lost the resource, or it was the first before
    cases ht : c.taken shared rank pending x with
    | nil =>
      simp only [ht, nil_append] at hw
      cases hk : c.kept shared rank pending x with
      | nil =>
        rw [hI.occupied ((kept_eq_holders ht).symm.trans hk)] at hw
        cases hw
      | cons k ks =>
        have hkm : k ∈ c.kept shared rank pending x := by rw [hk]; exact .head _
        exact hI.front k (mem_kept.mp hkm).1 (conflict_eq_false.mp (hcompat k hkm)).2 w hw
    | cons t ts =>
      have htm : t ∈ c.taken shared rank pending x := by rw [ht]; exact .head _
      simp only [ht, cons_append, head?_cons, mem_def, some.injEq] at hw
      subst hw
      exact exclusive_of_conflict (mem_taken.mp htm).2.1 hx
  intro h hh hnf w hw
  rcases (mem_insertBy _).mp hh with rfl | hk
  · rcases mem_append.mp hw with hw | hw
    · exact (mem_taken.mp hw).2.2.2
    · exact hfirst w hw
  · rcases mem_append.mp hw with hw | hw
    · rw [halone (hI.exclusive_of_taken_of_kept hw hk)] at hk
      cases hk
    · exact hI.ahead h (mem_kept.mp hk).1 hnf w hw

/-- A request that is not granted still leaves the resource held. -/
lemma Inv.kept_ne_nil (ha : c.admits shared rank pending x = false) :
    c.kept shared rank pending x ≠ [] := by
  intro hk
  have hna : ¬ ∀ w ∈ c.waiters, rank x.2 < rank w.2 := fun hw => by
    cases ha.symm.trans (admits_iff.mpr ⟨by simp [hk], hw⟩)
  push Not at hna
  obtain ⟨w, hw, hle⟩ := hna
  -- the holder that lost the resource lies between the request and that waiter
  cases ht : c.taken shared rank pending x with
  | nil =>
    rw [hI.occupied ((kept_eq_holders ht).symm.trans hk)] at hw
    cases hw
  | cons t ts =>
    have htm : t ∈ c.taken shared rank pending x := by rw [ht]; exact .head _
    have h1 := (mem_taken.mp htm).2.2.2
    have h2 := hI.taken_lt hf htm hw
    omega

end

/-- A shared request that has to wait although a shared holder stays takes nothing away, and some
waiter precedes it. -/
lemma Inv.taken_eq_nil_of_shared (ha : c.admits shared rank pending x = false)
    (hnew : ∀ y ∈ c.holders ++ c.waiters, rank y.2 ≠ rank x.2) {k : M × T}
    (hk : k ∈ c.kept shared rank pending x) (hsh : shared k.1 = true) (hx : shared x.1 = true) :
    c.taken shared rank pending x = [] ∧ ∃ w ∈ c.waiters, rank w.2 < rank x.2 := by
  constructor
  · refine eq_nil_iff_forall_not_mem.mpr fun t ht => ?_
    cases hx.symm.trans (hI.exclusive_of_taken_of_kept ht hk)
  by_contra hno
  push Not at hno
  have hcompat : ∀ h ∈ c.kept shared rank pending x, conflict shared x.1 h.1 = false := by
    intro h hh
    refine conflict_eq_false.mpr ⟨hx, ?_⟩
    by_contra hex
    rw [Bool.not_eq_true] at hex
    have hone := hI.exclusive h (mem_kept.mp hh).1 hex
    have hkm := (mem_kept.mp hk).1
    rw [hone, mem_singleton] at hkm
    cases hex.symm.trans (hkm ▸ hsh)
  have hfirst : ∀ w ∈ c.waiters, rank x.2 < rank w.2 := fun w hw =>
    lt_of_le_of_ne (hno w hw) (hnew w (mem_append_right _ hw)).symm
  cases ha.symm.trans (admits_iff.mpr ⟨hcompat, hfirst⟩)

section
variable (hf : ∀ h ∈ c.holders, firm h.2 ↔ pending h.2 = 0)
  (hnew : ∀ y ∈ c.holders ++ c.waiters, rank y.2 ≠ rank x.2)
include hf hnew

/-- A request that has to wait leaves the invariant intact. -/
lemma Inv.acquire_of_not_admits (ha : c.admits shared rank pending x = false) :
    (c.acquire shared rank pending x).Inv shared rank firm := by
  have hnodup := hI.nodup_acquire pending hnew
  rw [acquire, if_neg (by simp [ha])] at hnodup ⊢
  have hmem : ∀ y ∈ c.taken shared rank pending x ++ c.waiters, rank y.2 ≠ rank x.2 :=
    fun y hy => hnew y ((filter_sublist.append_right _).subset hy)
  refine ⟨hnodup, ?_, hI.holders_lt.filter _, ?_, ?_, ?_, ?_⟩
  · intro h hh hex
    have hone := hI.exclusive h (mem_kept.mp hh).1 hex
    have hsub : (c.kept shared rank pending x).Sublist [h] := hone ▸ filter_sublist
    rcases sublist_singleton.mp hsub with h0 | h0
    · exact absurd h0 (hI.kept_ne_nil hf ha)
    · exact h0
  · exact pairwise_insertBy _ (hI.taken_append_lt hf) hmem
  · exact fun h => absurd h (hI.kept_ne_nil hf ha)
  · intro k hk hsh w hw
    by_cases hx : shared x.1 = true
    · -- the new request is behind the old first waiter
      obtain ⟨ht, v, hv, hlt⟩ := hI.taken_eq_nil_of_shared ha hnew hk hsh hx
      simp only [ht, nil_append] at hw
      cases hws : c.waiters with
      | nil => simp [hws] at hv
      | cons w₀ ws =>
        have hw₀ : rank w₀.2 < rank x.2 := by
          rw [hws] at hv
          rcases mem_cons.mp hv with rfl | hv
          · exact hlt
          · exact ((pairwise_cons.mp (hws ▸ hI.waiters_lt)).1 v hv).trans hlt
        have hni : ¬ reqRank rank x < reqRank rank w₀ := not_lt.mpr hw₀.le
        simp only [hws, insertBy, orderedInsert_cons, if_neg hni, head?_cons,
          mem_def, some.injEq] at hw
        subst hw
        exact hI.front k (mem_kept.mp hk).1 hsh w₀ (by simp [hws])
    rw [Bool.not_eq_true] at hx
    -- the first waiter is the request itself, or it was the first before
    cases hl : c.taken shared rank pending x ++ c.waiters with
    | nil =>
      simp only [hl, insertBy, orderedInsert_nil, head?_cons, mem_def, some.injEq] at hw
      exact hw ▸ hx
    | cons y ys =>
      by_cases hlt : reqRank rank x < reqRank rank y
      · simp only [hl, insertBy, orderedInsert_cons, if_pos hlt, head?_cons,
          mem_def, some.injEq] at hw
        exact hw ▸ hx
      simp only [hl, insertBy, orderedInsert_cons, if_neg hlt, head?_cons,
        mem_def, some.injEq] at hw
      subst hw
      cases ht : c.taken shared rank pending x with
      | nil =>
        rw [ht, nil_append] at hl
        exact hI.front k (mem_kept.mp hk).1 hsh y (by simp [hl])
      | cons t ts =>
        rw [ht, cons_append, List.cons.injEq] at hl
        have htm : t ∈ c.taken shared rank pending x := by
          rw [ht]
          exact .head _
        exact absurd (hl.1 ▸ (mem_taken.mp htm).2.2.2) hlt
  intro k hk hnf w hw
  have hkm := (mem_kept.mp hk).1
  by_cases hc : conflict shared x.1 k.1 = true
  · have hkx := lt_of_mem_kept hf hnew hk hnf hc
    rcases (mem_insertBy _).mp hw with rfl | hw
    · exact hkx
    rcases mem_append.mp hw with hw | hw
    · exact hkx.trans (mem_taken.mp hw).2.2.2
    · exact hI.ahead k hkm hnf w hw
  rw [Bool.not_eq_true, conflict_eq_false] at hc
  obtain ⟨ht, v, hv, hlt⟩ := hI.taken_eq_nil_of_shared ha hnew hk hc.2 hc.1
  rw [ht, nil_append] at hw
  rcases (mem_insertBy _).mp hw with rfl | hw
  · exact (hI.ahead k hkm hnf v hv).trans hlt
  · exact hI.ahead k hkm hnf w hw

/-- **A request leaves the invariant intact.** -/
lemma Inv.acquire : (c.acquire shared rank pending x).Inv shared rank firm := by
  cases ha : c.admits shared rank pending x with
  | true => exact hI.acquire_of_admits hf hnew ha
  | false => exact hI.acquire_of_not_admits hf hnew ha

end
end

variable (shared pending x) in
/-- A request of larger rank than everyone takes nothing away: it is granted when it is compatible
with the holders and nobody waits. -/
lemma acquire_of_forall_lt (hlt : ∀ y ∈ c.holders ++ c.waiters, rank y.2 < rank x.2) :
    c.admits shared rank pending x =
        (c.holders.all (fun h => !conflict shared x.1 h.1) && c.waiters.isEmpty) ∧
      c.acquire shared rank pending x =
        if c.admits shared rank pending x then ⟨c.holders ++ [x], c.waiters⟩
        else ⟨c.holders, c.waiters ++ [x]⟩ := by
  have ht : c.taken shared rank pending x = [] := by
    refine eq_nil_iff_forall_not_mem.mpr fun h hh => ?_
    obtain ⟨hm, -, -, hlt'⟩ := mem_taken.mp hh
    exact absurd hlt' (not_lt.mpr (hlt h (mem_append_left _ hm)).le)
  have hk := kept_eq_holders ht
  constructor
  · unfold admits
    rw [hk]
    congr 1
    cases hw : c.waiters with
    | nil => rfl
    | cons w ws =>
      have := hlt w (mem_append_right _ (by rw [hw]; exact .head _))
      simp only [all_cons, isEmpty_cons, Bool.and_eq_false_iff, decide_eq_false_iff_not]
      exact Or.inl (by omega)
  · unfold acquire
    rw [ht, hk, nil_append, insertBy_of_forall_gt, insertBy_of_forall_gt]
    · exact fun y hy => hlt y (mem_append_right _ hy)
    · exact fun y hy => hlt y (mem_append_left _ hy)

end acquire

section release
variable {firm : T → Prop}

variable (shared) in
lemma burst_append_remaining (l : List (M × T)) : burst shared l ++ remaining shared l = l := by
  cases l with
  | nil => rfl
  | cons w ws =>
    simp only [burst, remaining]
    split_ifs
    · simp
    · rfl

/-- What is granted together is shared, or it is one exclusive request. -/
lemma burst_exclusive {l : List (M × T)} {h : M × T} (hh : h ∈ burst shared l)
    (hex : shared h.1 = false) : burst shared l = [h] := by
  cases l with
  | nil => simp [burst] at hh
  | cons w ws =>
    simp only [burst] at hh ⊢
    split_ifs at hh ⊢ with hw
    · exfalso
      rcases mem_cons.mp hh with rfl | hh
      · simp [hex] at hw
      · have := mem_takeWhile_imp hh
        simp [hex] at this
    · rw [mem_singleton] at hh
      rw [hh]

lemma remaining_head {l : List (M × T)} {h w : M × T} (hh : h ∈ burst shared l)
    (hsh : shared h.1 = true) (hw : w ∈ (remaining shared l).head?) : shared w.1 = false := by
  cases l with
  | nil => simp [burst] at hh
  | cons v vs =>
    simp only [burst] at hh
    simp only [remaining] at hw
    split_ifs at hh hw with hv
    · have := head?_dropWhile_not (fun x : M × T => shared x.1) vs
      rw [mem_def] at hw
      rw [hw] at this
      simpa using this
    · rw [mem_singleton] at hh
      rw [hh] at hsh
      exact absurd hsh hv

variable [DecidableEq T]

lemma mem_others {h : M × T} {t : T} : h ∈ c.others t ↔ h ∈ c.holders ∧ h.2 ≠ t := by
  simp [others]

/-- **A release leaves the invariant intact**, whatever the firm clients are. -/
lemma Inv.release (hI : c.Inv shared rank firm) {m : M} {t : T} (ht : (m, t) ∈ c.holders) :
    (c.release shared t).Inv shared rank firm := by
  unfold Cell.release
  split_ifs with he
  · have hsplit := burst_append_remaining shared c.waiters
    have hlt : (burst shared c.waiters ++ remaining shared c.waiters).Pairwise
        fun a b => reqRank rank a < reqRank rank b := by rw [hsplit]; exact hI.waiters_lt
    obtain ⟨hb, hr, hbr⟩ := pairwise_append.mp hlt
    refine ⟨?_, ?_, hb, hr, ?_, ?_, ?_⟩
    · rw [hsplit]
      have := hI.nodup
      rw [map_append] at this
      exact (nodup_append.mp this).2.1
    · exact fun h hh hex => burst_exclusive hh hex
    · intro hnil
      cases hw : c.waiters with
      | nil => rfl
      | cons w ws =>
        simp only [hw, burst] at hnil
        split_ifs at hnil
    · exact fun h hh hsh w hw => remaining_head hh hsh hw
    · exact fun h hh _ w hw => hbr h hh w hw
  have hsub : (c.others t).Sublist c.holders := filter_sublist
  refine ⟨?_, ?_, hI.holders_lt.sublist hsub, hI.waiters_lt, ?_, ?_, ?_⟩
  · exact hI.nodup.sublist ((hsub.append_right _).map _)
  · intro h hh hex
    obtain ⟨hm, hne⟩ := mem_others.mp hh
    have hone := hI.exclusive h hm hex
    rw [hone, mem_singleton] at ht
    exact absurd (by rw [← ht]) hne
  · intro hnil
    exact absurd (isEmpty_iff.mpr hnil) he
  · exact fun h hh hsh w hw => hI.front h (mem_others.mp hh).1 hsh w hw
  · exact fun h hh hnf w hw => hI.ahead h (mem_others.mp hh).1 hnf w hw

end release
end Cell
end cellInv
end Trezoa.Lib.LockTable
