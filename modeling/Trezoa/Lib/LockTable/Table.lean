import Trezoa.Lib.LockTable.Cell

/-!
# Shared and exclusive locks with ranked, revocable grants: the table

A client asks for several resources one after the other (`Table.acquireAll`) and gives all of them
back at once (`Table.releaseAll`).

* `Table.Inv`: every resource satisfies `Cell.Inv`, a request is held or waits, and `pending`
  counts the requests that wait. Kept by `Table.acquireAll` and `Table.releaseAll` with the set of
  firm clients *unchanged*, so that whoever starts to run in a step still precedes every waiter.
-/

namespace Trezoa.Lib.LockTable

open List Function Cell

/-! ## Counting along distinct keys -/

/-- A count over a list with distinct keys goes up by one when the predicate changes at one
element. -/
lemma countP_eq_succ {α β : Type*} {f : α → β} {p g : α → Bool} {x : α} (hp : p x = false)
    (hg : g x = true) : (l : List α) → (l.map f).Nodup → x ∈ l →
      (∀ y ∈ l, f y ≠ f x → g y = p y) → l.countP g = l.countP p + 1
  | [], _, hx, _ => nomatch hx
  | y :: l, hnd, hx, hagree => by
    rw [map_cons, nodup_cons] at hnd
    rcases mem_cons.mp hx with rfl | hx'
    · rw [countP_cons_of_pos hg, countP_cons_of_neg (by simp [hp])]
      congr 1
      apply countP_congr
      intro z hz
      rw [hagree z (.tail _ hz)]
      intro hzx
      exact hnd.1 (hzx ▸ mem_map_of_mem hz)
    · have hne : f y ≠ f x := fun h => hnd.1 (h ▸ mem_map_of_mem hx')
      have ih := countP_eq_succ hp hg l hnd.2 hx' fun z hz => hagree z (.tail _ hz)
      rw [countP_cons, countP_cons, ih, hagree y (.head _) hne]
      omega

/-! ## The table of all resources -/

/-- All resources, and for every client how many of its requests wait. -/
@[ext] structure Table (R M T : Type*) where
  /-- The resources. -/
  cell : R → Cell M T
  /-- The number of requests of a client that are not granted. -/
  pending : T → ℕ

section table
variable {R M T : Type*} [DecidableEq R] [DecidableEq T] (shared : M → Bool) (rank : T → ℕ)

namespace Table

/-- The client `t` is among those that lose `r` to the request `x`. -/
def loses (tbl : Table R M T) (r : R) (x : M × T) (t : T) : Bool :=
  ((tbl.cell r).taken shared rank tbl.pending x).any fun h => decide (h.2 = t)

/-- The client `t` asks for `r` in mode `m`. -/
def acquire (tbl : Table R M T) (t : T) (q : R × M) : Table R M T where
  cell := update tbl.cell q.1 ((tbl.cell q.1).acquire shared rank tbl.pending (q.2, t))
  pending u :=
    if tbl.loses shared rank q.1 (q.2, t) u ||
        (decide (u = t) && !(tbl.cell q.1).admits shared rank tbl.pending (q.2, t)) then
      tbl.pending u + 1
    else tbl.pending u

/-- The client `t` asks for everything in `qs`, in order. -/
def acquireAll (tbl : Table R M T) (t : T) (qs : List (R × M)) : Table R M T :=
  qs.foldl (fun tbl q => tbl.acquire shared rank t q) tbl

/-- The client `u` is granted `r` because `t` leaves it. -/
def gains (tbl : Table R M T) (t : T) (r : R) (u : T) : Bool :=
  ((tbl.cell r).granted shared t).any fun h => decide (h.2 = u)

/-- The client `t` gives `r` back. -/
def release (tbl : Table R M T) (t : T) (r : R) : Table R M T where
  cell := update tbl.cell r ((tbl.cell r).release shared t)
  pending u := if tbl.gains shared t r u then tbl.pending u - 1 else tbl.pending u

/-- The clients that can run because `t` gives `r` back, in the order they are granted. -/
def unblocked (tbl : Table R M T) (t : T) (r : R) : List T :=
  (((tbl.cell r).granted shared t).map Prod.snd).filter fun u => decide (tbl.pending u = 1)

/-- The client `t` gives everything in `qs` back, in order; with the clients that can run then. -/
def releaseAll (t : T) : List (R × M) → Table R M T → Table R M T × List T
  | [], tbl => (tbl, [])
  | q :: qs, tbl =>
    let rest := releaseAll t qs (tbl.release shared t q.1)
    (rest.1, tbl.unblocked shared t q.1 ++ rest.2)

/-- The client `t` waits for `r`. -/
def waits (tbl : Table R M T) (r : R) (t : T) : Bool :=
  (tbl.cell r).waiters.any fun w => decide (w.2 = t)

/-- The invariant of the table: `reg t` are the requests of `t` that the table has seen. -/
structure Inv (reg : T → List (R × M)) (firm : T → Prop) (tbl : Table R M T) : Prop where
  /-- Every resource satisfies its invariant. -/
  cell : ∀ r, (tbl.cell r).Inv shared rank firm
  /-- A request is held or waits, and nothing else is. -/
  placed : ∀ r m t, (m, t) ∈ (tbl.cell r).holders ++ (tbl.cell r).waiters ↔ (r, m) ∈ reg t
  /-- `pending` counts the requests that wait. -/
  pending : ∀ t, tbl.pending t = (reg t).countP fun q => tbl.waits q.1 t
  /-- A client asks for a resource once. -/
  nodup : ∀ t, ((reg t).map Prod.fst).Nodup

/-- The table without any request. -/
def empty : Table R M T := ⟨fun _ => ⟨[], []⟩, fun _ => 0⟩

variable {shared rank} {reg : T → List (R × M)} {firm : T → Prop} {tbl : Table R M T}

section basic
omit [DecidableEq R]

lemma waits_iff {r : R} {t : T} : tbl.waits r t = true ↔ ∃ m, (m, t) ∈ (tbl.cell r).waiters := by
  simp [waits]

lemma waits_eq_false {r : R} {t : T} :
    tbl.waits r t = false ↔ ∀ m, (m, t) ∉ (tbl.cell r).waiters := by
  rw [← Bool.not_eq_true, waits_iff, not_exists]

lemma loses_iff {r : R} {x : M × T} {t : T} : tbl.loses shared rank r x t = true ↔
    ∃ m, (m, t) ∈ (tbl.cell r).taken shared rank tbl.pending x := by
  simp [loses]

lemma gains_iff {r : R} {t u : T} : tbl.gains shared t r u = true ↔
    ∃ m, (m, u) ∈ (tbl.cell r).granted shared t := by
  simp [gains]

lemma inv_empty (firm : T → Prop) : (empty : Table R M T).Inv shared rank (fun _ => []) firm where
  cell _ := Cell.inv_empty firm
  placed := by simp [empty]
  pending := by simp [empty]
  nodup := by simp

section
variable (hI : tbl.Inv shared rank reg firm)
include hI

lemma Inv.mono {firm' : T → Prop} (h : ∀ t, firm t → firm' t) : tbl.Inv shared rank reg firm' :=
  { hI with cell := fun r => (hI.cell r).mono h }

lemma Inv.held_of_not_waits {r : R} {m : M} {t : T}
    (hr : (r, m) ∈ reg t) (hw : tbl.waits r t = false) : (m, t) ∈ (tbl.cell r).holders :=
  (mem_append.mp ((hI.placed r m t).mpr hr)).resolve_right (waits_eq_false.mp hw m)

/-- A client does not hold what it waits for. -/
lemma Inv.not_waits_of_held {r : R} {m : M} {t : T}
    (h : (m, t) ∈ (tbl.cell r).holders) : tbl.waits r t = false := by
  refine waits_eq_false.mpr fun m' hm' => ?_
  have hnd := (hI.cell r).nodup
  rw [map_append, nodup_append] at hnd
  exact hnd.2.2 t (mem_map_of_mem h) t (mem_map_of_mem hm') rfl

/-- A client without pending requests holds everything it asked for. -/
lemma Inv.held_of_pending {r : R} {m : M} {t : T}
    (h0 : tbl.pending t = 0) (hr : (r, m) ∈ reg t) : (m, t) ∈ (tbl.cell r).holders := by
  rw [hI.pending t, countP_eq_zero] at h0
  exact hI.held_of_not_waits hr (by simpa using h0 (r, m) hr)

lemma Inv.reg_ne_nil {r : R} {y : M × T}
    (hy : y ∈ (tbl.cell r).holders ++ (tbl.cell r).waiters) : reg y.2 ≠ [] :=
  ne_nil_of_mem ((hI.placed r y.1 y.2).mp hy)

end
end basic

/-! ## Requests -/

lemma acquire_pending (tbl : Table R M T) (t u : T) (q : R × M) :
    (tbl.acquire shared rank t q).pending u =
      if tbl.loses shared rank q.1 (q.2, t) u = true ∨
          (u = t ∧ (tbl.cell q.1).admits shared rank tbl.pending (q.2, t) = false) then
        tbl.pending u + 1
      else tbl.pending u := by
  simp [acquire]

/-- Whether a client runs is not changed by the request of another one. -/
lemma pending_acquire_eq_zero {t u : T} {q : R × M} (hne : u ≠ t) :
    (tbl.acquire shared rank t q).pending u = 0 ↔ tbl.pending u = 0 := by
  rw [acquire_pending]
  split_ifs with h
  · have hl : tbl.loses shared rank q.1 (q.2, t) u = true := by simpa [hne] using h
    obtain ⟨m, hm⟩ := loses_iff.mp hl
    have hp : 0 < tbl.pending u := (mem_taken.mp hm).2.2.1
    exact ⟨False.elim, fun h0 => by omega⟩
  · exact Iff.rfl

section acquire
variable {t : T} {q : R × M}

omit [DecidableEq R] in
lemma Inv.not_mem_of_not_asked (hI : tbl.Inv shared rank reg firm)
    (hq : q.1 ∉ (reg t).map Prod.fst) {m : M} :
    (m, t) ∉ (tbl.cell q.1).holders ++ (tbl.cell q.1).waiters := by
  intro h
  exact hq (mem_map.mpr ⟨(q.1, m), (hI.placed q.1 m t).mp h, rfl⟩)

lemma waits_acquire_of_ne {r : R} (hr : r ≠ q.1) (u : T) :
    (tbl.acquire shared rank t q).waits r u = tbl.waits r u := by
  simp [waits, acquire, update_of_ne hr]

variable (shared rank tbl t q) in
lemma waits_acquire_self (u : T) : (tbl.acquire shared rank t q).waits q.1 u = true ↔
    tbl.loses shared rank q.1 (q.2, t) u = true ∨ tbl.waits q.1 u = true ∨
      ((tbl.cell q.1).admits shared rank tbl.pending (q.2, t) = false ∧ u = t) := by
  rw [waits_iff, loses_iff, waits_iff]
  simp only [acquire, update_self, mem_waiters_acquire, Prod.mk.injEq]
  constructor
  · rintro ⟨m, h | h | ⟨ha, -, rfl⟩⟩
    · exact .inl ⟨m, h⟩
    · exact .inr (.inl ⟨m, h⟩)
    · exact .inr (.inr ⟨ha, rfl⟩)
  · rintro (⟨m, h⟩ | ⟨m, h⟩ | ⟨ha, rfl⟩)
    · exact ⟨m, .inl h⟩
    · exact ⟨m, .inr (.inl h)⟩
    · exact ⟨q.2, .inr (.inr ⟨ha, rfl, rfl⟩)⟩

section
variable (hI : tbl.Inv shared rank reg firm)
include hI

lemma Inv.pending_acquire_self (hq : q.1 ∉ (reg t).map Prod.fst) :
    (tbl.acquire shared rank t q).pending t =
      (reg t ++ [q]).countP fun p => (tbl.acquire shared rank t q).waits p.1 t := by
  have hloses : tbl.loses shared rank q.1 (q.2, t) t = false := by
    rw [Bool.eq_false_iff]
    intro hl
    obtain ⟨m, hm⟩ := loses_iff.mp hl
    exact hI.not_mem_of_not_asked hq (mem_append_left _ (mem_taken.mp hm).1)
  have hwaits : tbl.waits q.1 t = false := waits_eq_false.mpr fun m hm =>
    hI.not_mem_of_not_asked hq (mem_append_right _ hm)
  have hold : (reg t).countP (fun p => (tbl.acquire shared rank t q).waits p.1 t) =
      tbl.pending t := by
    rw [hI.pending t]
    apply countP_congr
    intro p hp
    rw [waits_acquire_of_ne]
    intro h
    exact hq (h ▸ mem_map_of_mem hp)
  rw [countP_append, hold, acquire_pending]
  have hself := waits_acquire_self shared rank tbl t q t
  rw [hloses, hwaits] at hself
  simp only [Bool.false_eq_true, and_true, false_or] at hself
  cases ha : (tbl.cell q.1).admits shared rank tbl.pending (q.2, t) with
  | true => simp [hloses, ha, hself]
  | false => simp [hloses, ha, hself]

lemma Inv.pending_acquire_of_ne {u : T} (hne : u ≠ t) :
    (tbl.acquire shared rank t q).pending u =
      (reg u).countP fun p => (tbl.acquire shared rank t q).waits p.1 u := by
  have hself := waits_acquire_self shared rank tbl t q u
  simp only [hne, and_false, or_false] at hself
  rw [acquire_pending]
  cases hl : tbl.loses shared rank q.1 (q.2, t) u with
  | true =>
    obtain ⟨m, hm⟩ := loses_iff.mp hl
    have hheld := (mem_taken.mp hm).1
    have hafter := hself.mpr (.inl hl)
    have hcount := countP_eq_succ (f := Prod.fst) (x := (q.1, m))
      (p := fun p => tbl.waits p.1 u)
      (g := fun p => (tbl.acquire shared rank t q).waits p.1 u)
      (hI.not_waits_of_held hheld) hafter (reg u) (hI.nodup u)
      ((hI.placed q.1 m u).mp (mem_append_left _ hheld))
      fun p _ hp => waits_acquire_of_ne (q := q) hp u
    rw [if_pos (by simp), hI.pending u, hcount]
  | false =>
    rw [if_neg (by simp [hne]), hI.pending u]
    apply countP_congr
    intro p _
    by_cases hp : p.1 = q.1
    · rw [hp, hself, hl]
      simp
    · rw [waits_acquire_of_ne hp]

/-- **One request leaves the invariant of the table intact.** -/
lemma Inv.acquire (hq : q.1 ∉ (reg t).map Prod.fst)
    (hf : ∀ u, u ≠ t → reg u ≠ [] → (firm u ↔ tbl.pending u = 0))
    (hr : ∀ u, u ≠ t → reg u ≠ [] → rank u ≠ rank t) :
    (tbl.acquire shared rank t q).Inv shared rank (update reg t (reg t ++ [q])) firm := by
  have hne : ∀ y ∈ (tbl.cell q.1).holders ++ (tbl.cell q.1).waiters, y.2 ≠ t := by
    rintro ⟨m, u⟩ hy rfl
    exact hI.not_mem_of_not_asked hq hy
  refine ⟨fun r => ?_, fun r m u => ?_, fun u => ?_, fun u => ?_⟩
  · by_cases hrq : r = q.1
    · subst hrq
      simp only [Table.acquire, update_self]
      apply (hI.cell q.1).acquire
      · intro h hh
        have hh' := mem_append_left (tbl.cell q.1).waiters hh
        exact hf h.2 (hne h hh') (hI.reg_ne_nil hh')
      · exact fun y hy => hr y.2 (hne y hy) (hI.reg_ne_nil hy)
    · simp only [Table.acquire, update_of_ne hrq]
      exact hI.cell r
  · by_cases hrq : r = q.1
    · subst hrq
      simp only [Table.acquire, update_self]
      rw [(acquire_perm tbl.pending (tbl.cell q.1) (q.2, t)).mem_iff, mem_cons, hI.placed]
      by_cases hut : u = t
      · subst hut
        simp only [update_self, mem_append, mem_singleton, Prod.mk.injEq, and_true]
        rw [or_comm]
        exact or_congr_right ⟨fun h => by rw [h], fun h => by rw [← h]⟩
      · simp [hut]
    simp only [Table.acquire, update_of_ne hrq]
    rw [hI.placed]
    by_cases hut : u = t
    · subst hut
      simp only [update_self, mem_append, mem_singleton]
      exact ⟨Or.inl, fun h => h.resolve_right fun he => hrq (by rw [← he])⟩
    · rw [update_of_ne hut]
  · by_cases hut : u = t
    · subst hut
      rw [update_self]
      exact hI.pending_acquire_self hq
    · rw [update_of_ne hut]
      exact hI.pending_acquire_of_ne hut
  by_cases hut : u = t
  · subst hut
    rw [update_self, map_append]
    exact (hI.nodup u).append (nodup_singleton _) (by simpa using hq)
  · rw [update_of_ne hut]
    exact hI.nodup u

end

/-- Clients other than `t` run after its requests exactly when they did before. -/
lemma pending_acquireAll_eq_zero {u : T} (hne : u ≠ t) (qs : List (R × M)) :
    ∀ tbl : Table R M T, (tbl.acquireAll shared rank t qs).pending u = 0 ↔ tbl.pending u = 0 := by
  induction qs with
  | nil => exact fun tbl => Iff.rfl
  | cons q qs ih => exact fun tbl => (ih _).trans (pending_acquire_eq_zero hne)

/-- **The requests of a client leave the invariant of the table intact**, with the firm clients
unchanged: `t` itself is not firm yet, so what it was granted it holds in front of every waiter. -/
lemma Inv.acquireAll (qs : List (R × M)) : ∀ {reg : T → List (R × M)} {tbl : Table R M T},
    tbl.Inv shared rank reg firm → ((reg t ++ qs).map Prod.fst).Nodup →
    (∀ u, u ≠ t → reg u ≠ [] → (firm u ↔ tbl.pending u = 0)) →
    (∀ u, u ≠ t → reg u ≠ [] → rank u ≠ rank t) →
    (tbl.acquireAll shared rank t qs).Inv shared rank (update reg t (reg t ++ qs)) firm := by
  induction qs with
  | nil =>
    intro reg tbl hI _ _ _
    rw [append_nil, update_eq_self]
    exact hI
  | cons q qs ih =>
    intro reg tbl hI hnd hf hr
    have hq : q.1 ∉ (reg t).map Prod.fst := by
      rw [map_append, map_cons, nodup_append] at hnd
      exact fun h => hnd.2.2 q.1 h q.1 (.head _) rfl
    have hstep := hI.acquire hq hf hr
    have hrest := ih hstep (by simpa using hnd)
      (fun u hu hne => by
        rw [update_of_ne hu] at hne
        rw [pending_acquire_eq_zero hu]
        exact hf u hu hne)
      (fun u hu hne => by
        rw [update_of_ne hu] at hne
        exact hr u hu hne)
    rw [update_self, update_idem, append_assoc] at hrest
    exact hrest

end acquire

/-! ## Releases -/

section release
variable {t : T} {q : R × M} {qs : List (R × M)}

variable (shared tbl t q) in
lemma waits_release_of_ne {r : R} (hr : r ≠ q.1) (u : T) :
    (tbl.release shared t q.1).waits r u = tbl.waits r u := by
  simp [waits, release, update_of_ne hr]

/-- Whoever is granted the resource was waiting for it and does not any more. -/
lemma Inv.waits_of_gains (hI : tbl.Inv shared rank reg firm) {r : R} {u : T}
    (hg : tbl.gains shared t r u = true) :
    ∃ m, (r, m) ∈ reg u ∧ tbl.waits r u = true ∧ (tbl.release shared t r).waits r u = false := by
  obtain ⟨m, hm⟩ := gains_iff.mp hg
  unfold granted at hm
  split_ifs at hm with he
  · have hsplit := burst_append_remaining shared (tbl.cell r).waiters
    have hw : (m, u) ∈ (tbl.cell r).waiters := by
      rw [← hsplit]
      exact mem_append_left _ hm
    refine ⟨m, (hI.placed r m u).mp (mem_append_right _ hw), waits_iff.mpr ⟨m, hw⟩, ?_⟩
    refine waits_eq_false.mpr fun m' hm' => ?_
    simp only [release, update_self, Cell.release, if_pos he] at hm'
    have hnd := (hI.cell r).nodup
    rw [map_append, nodup_append, ← hsplit, map_append, nodup_append] at hnd
    exact hnd.2.1.2.2 u (mem_map_of_mem hm) u (mem_map_of_mem hm') rfl
  · cases hm

lemma waits_release_self_of_not_gains {r : R} {u : T} (hg : tbl.gains shared t r u = false) :
    (tbl.release shared t r).waits r u = tbl.waits r u := by
  simp only [waits, release, update_self, Cell.release]
  split_ifs with he
  · have hsplit := burst_append_remaining shared (tbl.cell r).waiters
    have hburst : (burst shared (tbl.cell r).waiters).any (fun w => decide (w.2 = u)) = false := by
      simpa [gains, granted, he] using hg
    conv_rhs => rw [← hsplit, any_append, hburst, Bool.false_or]
  · rfl

omit [DecidableEq R] in
lemma mem_release {r : R} (hw : tbl.waits r t = false) {y : M × T} :
    y ∈ ((tbl.cell r).release shared t).holders ++ ((tbl.cell r).release shared t).waiters ↔
      y ∈ (tbl.cell r).holders ++ (tbl.cell r).waiters ∧ y.2 ≠ t := by
  have hwt : ∀ w ∈ (tbl.cell r).waiters, w.2 ≠ t := by
    rintro ⟨m, u⟩ hm rfl
    exact waits_eq_false.mp hw m hm
  unfold Cell.release
  split_ifs with he
  · have hh : ∀ h ∈ (tbl.cell r).holders, h.2 = t := by
      intro h hm
      by_contra hne
      have := mem_others.mpr ⟨hm, hne⟩
      rw [isEmpty_iff.mp he] at this
      cases this
    rw [burst_append_remaining, mem_append]
    exact ⟨fun h => ⟨.inr h, hwt y h⟩, fun h => h.1.resolve_left fun hm => h.2 (hh y hm)⟩
  rw [mem_append, mem_append, mem_others]
  constructor
  · rintro (⟨h, hne⟩ | h)
    · exact ⟨.inl h, hne⟩
    · exact ⟨.inr h, hwt y h⟩
  · rintro ⟨h | h, hne⟩
    · exact .inl ⟨h, hne⟩
    · exact .inr h

lemma Inv.not_gains_self (hI : tbl.Inv shared rank reg firm) {r : R} (h0 : tbl.pending t = 0) :
    tbl.gains shared t r t = false := by
  rw [Bool.eq_false_iff]
  intro hg
  obtain ⟨m, hm, hw, -⟩ := hI.waits_of_gains hg
  rw [hI.pending t, countP_eq_zero] at h0
  exact h0 (r, m) hm hw

/-- **One release leaves the invariant of the table intact.** -/
lemma Inv.release (hI : tbl.Inv shared rank reg firm) (hreg : reg t = q :: qs)
    (h0 : tbl.pending t = 0) :
    (tbl.release shared t q.1).Inv shared rank (update reg t qs) firm := by
  have hheld : (q.2, t) ∈ (tbl.cell q.1).holders :=
    hI.held_of_pending h0 (by rw [hreg]; exact .head _)
  have hw := hI.not_waits_of_held hheld
  have hnd := hI.nodup t
  rw [hreg, map_cons, nodup_cons] at hnd
  refine ⟨fun r => ?_, fun r m u => ?_, fun u => ?_, fun u => ?_⟩
  · by_cases hrq : r = q.1
    · subst hrq
      simp only [Table.release, update_self]
      exact (hI.cell q.1).release hheld
    · simp only [Table.release, update_of_ne hrq]
      exact hI.cell r
  · by_cases hrq : r = q.1
    · subst hrq
      simp only [Table.release, update_self]
      rw [mem_release hw, hI.placed]
      by_cases hut : u = t
      · subst hut
        simp only [ne_eq, not_true_eq_false, and_false, update_self, false_iff]
        exact fun h => hnd.1 (mem_map.mpr ⟨(q.1, m), h, rfl⟩)
      · simp [hut]
    simp only [Table.release, update_of_ne hrq]
    rw [hI.placed]
    by_cases hut : u = t
    · subst hut
      rw [update_self, hreg, mem_cons]
      exact ⟨fun h => h.resolve_left fun he => hrq (by rw [← he]), Or.inr⟩
    · rw [update_of_ne hut]
  · by_cases hut : u = t
    · subst hut
      simp only [Table.release, hI.not_gains_self h0, Bool.false_eq_true, if_false, update_self]
      rw [h0]
      symm
      rw [hI.pending u, countP_eq_zero, hreg] at h0
      rw [countP_eq_zero]
      intro p hp
      have hpq : p.1 ≠ q.1 := fun h => hnd.1 (h ▸ mem_map_of_mem hp)
      have := waits_release_of_ne shared tbl u q hpq u
      simp only [Table.release] at this
      rw [this]
      exact h0 p (.tail _ hp)
    rw [update_of_ne hut]
    -- a task that gains the resource waits for one request less
    show (if tbl.gains shared t q.1 u then tbl.pending u - 1 else tbl.pending u) = _
    cases hg : tbl.gains shared t q.1 u with
    | true =>
      obtain ⟨m, hm, hbefore, hafter⟩ := hI.waits_of_gains hg
      have hcount := countP_eq_succ (f := Prod.fst) (x := (q.1, m))
        (p := fun p => (tbl.release shared t q.1).waits p.1 u)
        (g := fun p => tbl.waits p.1 u) hafter hbefore (reg u) (hI.nodup u) hm
        fun p _ hp => (waits_release_of_ne shared tbl t q hp u).symm
      rw [if_pos rfl, hI.pending u, hcount]
      rfl
    | false =>
      rw [if_neg (by simp), hI.pending u]
      apply countP_congr
      intro p _
      by_cases hp : p.1 = q.1
      · rw [hp, waits_release_self_of_not_gains hg]
      · rw [waits_release_of_ne shared tbl t q hp]
  by_cases hut : u = t
  · subst hut
    rw [update_self]
    exact hnd.2
  · rw [update_of_ne hut]
    exact hI.nodup u

lemma release_pending (tbl : Table R M T) (t u : T) (r : R) :
    (tbl.release shared t r).pending u =
      if tbl.gains shared t r u = true then tbl.pending u - 1 else tbl.pending u := rfl

/-- The clients that can run after a release are those whose last request was granted by it. -/
lemma Inv.mem_unblocked (hI : tbl.Inv shared rank reg firm) {r : R} {u : T} :
    u ∈ tbl.unblocked shared t r ↔ 0 < tbl.pending u ∧ (tbl.release shared t r).pending u = 0 := by
  have hmem : u ∈ ((tbl.cell r).granted shared t).map Prod.snd ↔ tbl.gains shared t r u = true := by
    rw [gains_iff]
    simp
  unfold unblocked
  rw [mem_filter, hmem, release_pending, decide_eq_true_eq]
  cases hg : tbl.gains shared t r u with
  | true =>
    obtain ⟨m, hm, hw, -⟩ := hI.waits_of_gains hg
    have hpos : 0 < tbl.pending u := by
      rw [hI.pending u]
      exact countP_pos_iff.mpr ⟨(r, m), hm, hw⟩
    simp only [if_true, true_and]
    omega
  | false =>
    simp only [Bool.false_eq_true, false_and, if_false, false_iff]
    omega

omit [DecidableEq R] in
lemma Inv.nodup_unblocked (hI : tbl.Inv shared rank reg firm) {r : R} :
    (tbl.unblocked shared t r).Nodup := by
  apply List.Nodup.filter
  unfold granted
  split_ifs
  · have hnd := (hI.cell r).nodup
    rw [map_append, nodup_append, ← burst_append_remaining shared (tbl.cell r).waiters,
      map_append, nodup_append] at hnd
    exact hnd.2.1.1
  · exact nodup_nil

variable (shared) in
lemma release_pending_le (tbl : Table R M T) (t u : T) (r : R) :
    (tbl.release shared t r).pending u ≤ tbl.pending u := by
  rw [release_pending]
  split_ifs <;> omega

variable (shared) in
lemma releaseAll_pending_le (t u : T) (qs : List (R × M)) :
    ∀ tbl : Table R M T, (releaseAll shared t qs tbl).1.pending u ≤ tbl.pending u := by
  induction qs with
  | nil => exact fun tbl => le_rfl
  | cons q qs ih => exact fun tbl => (ih _).trans (release_pending_le shared tbl t u q.1)

/-- **The release of a client leaves the invariant of the table intact**, with the firm clients
unchanged. -/
lemma Inv.releaseAll (qs : List (R × M)) : ∀ {reg : T → List (R × M)} {tbl : Table R M T},
    tbl.Inv shared rank reg firm → reg t = qs → tbl.pending t = 0 →
    (releaseAll shared t qs tbl).1.Inv shared rank (update reg t []) firm := by
  induction qs with
  | nil =>
    intro reg tbl hI hreg _
    have hupd : update reg t [] = reg := by rw [← hreg, update_eq_self]
    rw [hupd]
    exact hI
  | cons q qs ih =>
    intro reg tbl hI hreg h0
    have hstep := hI.release hreg h0
    have h0' : (tbl.release shared t q.1).pending t = 0 := by
      have := release_pending_le shared tbl t t q.1
      omega
    have hrest := ih hstep (update_self _ _ _) h0'
    rw [update_idem] at hrest
    exact hrest

/-- The clients that can run after a release: those whose requests are all granted now and were
not before, each once. -/
lemma Inv.unblocked_releaseAll (qs : List (R × M)) :
    ∀ {reg : T → List (R × M)} {tbl : Table R M T},
    tbl.Inv shared rank reg firm → reg t = qs → tbl.pending t = 0 →
    (Table.releaseAll shared t qs tbl).2.Nodup ∧ ∀ u, u ∈ (Table.releaseAll shared t qs tbl).2 ↔
      0 < tbl.pending u ∧ (Table.releaseAll shared t qs tbl).1.pending u = 0 := by
  induction qs with
  | nil =>
    intro reg tbl _ _ _
    refine ⟨nodup_nil, fun u => ?_⟩
    simp only [Table.releaseAll, not_mem_nil, false_iff]
    omega
  | cons q qs ih =>
    intro reg tbl hI hreg h0
    have hle := fun u => release_pending_le shared tbl t u q.1
    have h0' : (tbl.release shared t q.1).pending t = 0 := by
      have := hle t
      omega
    obtain ⟨hnd, hiff⟩ := ih (hI.release hreg h0) (update_self _ _ _) h0'
    simp only [Table.releaseAll]
    constructor
    · refine List.Nodup.append hI.nodup_unblocked hnd fun u hu hu' => ?_
      have h1 := (hI.mem_unblocked.mp hu).2
      have h2 := ((hiff u).mp hu').1
      omega
    intro u
    rw [mem_append, hI.mem_unblocked, hiff]
    have hle' := releaseAll_pending_le shared t u qs (tbl.release shared t q.1)
    have := hle u
    omega

end release

/-! ## What the invariant says about the clients that run -/

section
omit [DecidableEq R]
variable (hI : tbl.Inv shared rank reg firm)
include hI

/-- **No deadlock.** If every client that waits for nothing is firm, then some client is firm as
soon as there is any: a client that waits has a holder in front of it, which is firm or has a
smaller rank. -/
theorem Inv.exists_firm (hf : ∀ u, reg u ≠ [] → tbl.pending u = 0 → firm u) :
    ∀ (n : ℕ) (u : T), rank u < n → reg u ≠ [] → ∃ v, reg v ≠ [] ∧ firm v := by
  intro n
  induction n with
  | zero => exact fun u hu => absurd hu (Nat.not_lt_zero _)
  | succ n ih =>
    intro u hu hreg
    by_cases h0 : tbl.pending u = 0
    · exact ⟨u, hreg, hf u hreg h0⟩
    have hpos := Nat.pos_of_ne_zero h0
    rw [hI.pending u, countP_pos_iff] at hpos
    obtain ⟨q, -, hw⟩ := hpos
    obtain ⟨m, hm⟩ := waits_iff.mp hw
    cases hh : (tbl.cell q.1).holders with
    | nil =>
      rw [(hI.cell q.1).occupied hh] at hm
      cases hm
    | cons h hs =>
      have hmem : h ∈ (tbl.cell q.1).holders := by rw [hh]; exact .head _
      have hregh : reg h.2 ≠ [] := hI.reg_ne_nil (mem_append_left _ hmem)
      by_cases hfh : firm h.2
      · exact ⟨h.2, hregh, hfh⟩
      · have hlt := (hI.cell q.1).ahead h hmem hfh (m, u) hm
        exact ih h.2 (by simp only at hlt; omega) hregh

/-- A client that holds a resource along with another one shares it. -/
lemma Inv.shared_of_held {u v : T} (hne : u ≠ v) {r : R} {m m' : M}
    (hu : (m, u) ∈ (tbl.cell r).holders) (hv : (m', v) ∈ (tbl.cell r).holders) :
    shared m = true := by
  by_contra hs
  rw [Bool.not_eq_true] at hs
  have hone := (hI.cell r).exclusive _ hu hs
  rw [hone, mem_singleton, Prod.mk.injEq] at hv
  exact hne hv.2.symm

/-- **Exclusion.** Two clients that wait for nothing do not conflict anywhere. -/
theorem Inv.conflict_free {u v : T} (hne : u ≠ v)
    (hu : tbl.pending u = 0) (hv : tbl.pending v = 0) {r : R} {m m' : M}
    (hru : (r, m) ∈ reg u) (hrv : (r, m') ∈ reg v) : conflict shared m m' = false := by
  have hhu := hI.held_of_pending hu hru
  have hhv := hI.held_of_pending hv hrv
  exact conflict_eq_false.mpr ⟨hI.shared_of_held hne hhu hhv, hI.shared_of_held hne.symm hhv hhu⟩

/-- **Order.** A client that waits for nothing and is not firm yet precedes every other client it
conflicts with. -/
theorem Inv.lt_of_conflict {u v : T} (hne : u ≠ v)
    (hu : tbl.pending u = 0) (hnf : ¬ firm u) {r : R} {m m' : M} (hru : (r, m) ∈ reg u)
    (hrv : (r, m') ∈ reg v) (hc : conflict shared m m' = true) : rank u < rank v := by
  have hhu := hI.held_of_pending hu hru
  rcases mem_append.mp ((hI.placed r m' v).mpr hrv) with hhv | hwv
  · have hfree := conflict_eq_false.mpr
      ⟨hI.shared_of_held hne hhu hhv, hI.shared_of_held hne.symm hhv hhu⟩
    rw [hfree] at hc
    cases hc
  · exact (hI.cell r).ahead _ hhu hnf _ hwv

end
end Table
end table
end Trezoa.Lib.LockTable
