import Mathlib.Data.Finset.Max
import Mathlib.Data.List.Rotate
import Sinux.Smp.Sched

/-!
# Does the O(1) scheduler pick the best task?

Tasks are put into an empty runqueue by `enqueue_task`. `Assigned` says what is there then: the queue
of a level is a circle of its tasks, and a bit of the bitmap stands for all levels with that remainder
modulo 32. A pick goes by the lowest bit.

- `nthPick_eq`: as long as nothing else happens, picks go around the queue at the lowest bit.
- `pick_best_iff`: the tasks picked are those of the smallest priority if and only if that priority is
  at most the remainder modulo 32 of every priority present. And a tick keeps to better tasks if and
  only if the slice goes on or the task that stands first is not of a larger priority.

**Out of scope**: the moves to the expired array that a preemption makes, and other CPUs.
-/

namespace Sinux.Smp

open Function Sinux.Lib Sinux.Proc

/-! ## Bits -/

theorem findFirstBit_some {m : BitVec 32} {b : Fin 32} (h : findFirstBit m = some b) :
    m.getLsbD b = true ∧ ∀ j : Fin 32, m.getLsbD j = true → b ≤ j := by
  unfold findFirstBit at h
  rw [← List.ofFn_id] at h
  obtain ⟨hb, hmin⟩ := (List.find?_ofFn_eq_some_of_injective (i := b) Function.injective_id).mp h
  exact ⟨hb, fun j hj => Fin.not_lt.mp fun hlt => hmin j hlt hj⟩

theorem findFirstBit_none {m : BitVec 32} (h : findFirstBit m = none) (j : Fin 32) :
    m.getLsbD j = false := by
  have hj := List.find?_eq_none.mp h j (List.mem_finRange j)
  exact Bool.eq_false_iff.mpr hj

theorem getLsbD_levelBit (i : Fin maxPriority) (j : Nat) :
    (levelBit i).getLsbD j = decide (i.val % 32 = j) := by
  have hlt : i.val % 32 < 32 := Nat.mod_lt _ (by decide)
  rw [levelBit, BitVec.getLsbD_twoPow, decide_eq_true hlt, Bool.true_and]

theorem clampPriority_of_range {n : Int} (h0 : 0 ≤ n) (h : n < 140) :
    ((clampPriority n).val : Int) = n := by
  have hmin : min n.toNat 139 = n.toNat := by omega
  have hmod : n.toNat % 140 = n.toNat := Nat.mod_eq_of_lt (by omega)
  rw [clampPriority, if_neg (Int.not_lt.mpr h0), hmin, Fin.val_ofNat, hmod, Int.toNat_of_nonneg h0]

/-! ## Tasks assigned -/

/-- `enqueue_task` for one task after the other. -/
def assign (c : Fin maxCpus) (ps : List Tid) (s : Sched) : Sched :=
  ps.foldl (fun s p => enqueueTask c p s) s

/-- The tasks `ps` are in the active array. -/
structure Assigned (c : Fin maxCpus) (ps : List Tid) (s : Sched) : Prop where
  queue : ∀ i, ∃ l, Circle s.next ((s.rqs c).activeQueue i) l ∧
    l.Perm (ps.filter fun p => (s.tasks p).priority = (i.val : Int))
  bits : ∀ j : Fin 32, (s.rqs c).activePrioBitmap.getLsbD j = true ↔
    ∃ p ∈ ps, (s.tasks p).priority % 32 = (j.val : Int)
  expired : (s.rqs c).expiredPrioBitmap = 0

section

variable {c : Fin maxCpus} {ps : List Tid} {p : Tid} {s : Sched}

theorem Enqueued.priority {k : Fin maxPriority} {s' : Sched} (h : Enqueued c p k s s') (q : Tid) :
    (s'.tasks q).priority = (s.tasks q).priority := by
  rw [h.tasks]
  by_cases hq : q = p
  · rw [hq]
    show (update s.tasks p _ p).priority = _
    rw [update_self]
  · show (update s.tasks p _ q).priority = _
    rw [update_of_ne hq]

theorem Enqueued.timeslice {k : Fin maxPriority} {s' : Sched} (h : Enqueued c p k s s') (q : Tid) :
    (s'.tasks q).timeslice = (s.tasks q).timeslice := by
  rw [h.tasks]
  by_cases hq : q = p
  · rw [hq]
    show (update s.tasks p _ p).timeslice = _
    rw [update_self]
  · show (update s.tasks p _ q).timeslice = _
    rw [update_of_ne hq]

theorem assigned_empty (h : (s.rqs c).Empty) : Assigned c [] s := by
  unfold Runqueue.Empty at h
  refine ⟨fun i => ⟨[], ?_, .refl _⟩, fun j => ?_, ?_⟩
  · rw [h]
    exact Circle.nil
  · rw [h]
    simp [Runqueue.init]
  · rw [h]
    rfl

theorem mem_level_iff {i : Fin maxPriority} {l : List Tid}
    (hl : l.Perm (ps.filter fun p => (s.tasks p).priority = (i.val : Int))) :
    p ∈ l ↔ p ∈ ps ∧ (s.tasks p).priority = i.val := by
  rw [hl.mem_iff, List.mem_filter, decide_eq_true_iff]

theorem Assigned.enqueue (h : Assigned c ps s) (hp : p ∉ ps) (h0 : 0 ≤ (s.tasks p).priority)
    (h140 : (s.tasks p).priority < 140) : Assigned c (p :: ps) (enqueueTask c p s) := by
  have he := enqueueTask_spec c p s
  have hlevel := clampPriority_of_range h0 h140
  generalize clampPriority (s.tasks p).priority = k at he hlevel
  generalize enqueueTask c p s = s' at he
  obtain ⟨lk, hck, hpk⟩ := h.queue k
  have hplk : p ∉ lk := fun hx => hp ((mem_level_iff hpk).mp hx).1
  refine ⟨fun i => ?_, fun j => ?_, he.expiredPrioBitmap.trans h.expired⟩
  · simp only [he.priority, List.filter_cons]
    by_cases hik : i = k
    · subst hik
      refine ⟨insertSecond p lk, he.circle lk hck hplk, (insertSecond_perm p lk).trans ?_⟩
      rw [if_pos (decide_eq_true hlevel.symm)]
      exact hpk.cons p
    · obtain ⟨l, hc, hl⟩ := h.queue i
      have hne : ¬ (s.tasks p).priority = (i.val : Int) := fun e =>
        hik (Fin.ext (Int.ofNat_inj.mp (e.symm.trans hlevel.symm)))
      refine ⟨l, ?_, by rwa [if_neg (by simpa using hne)]⟩
      rw [he.heads i hik]
      refine hc.congr fun q hq => he.next q ?_ ?_
      · exact fun e => hp (e ▸ ((mem_level_iff hl).mp hq).1)
      · intro hhead
        rw [hhead] at hck
        obtain ⟨t, rfl⟩ := hck.exists_cons
        have hqk := ((mem_level_iff hpk).mp List.mem_cons_self).2
        exact hik (Fin.ext (Int.ofNat_inj.mp (((mem_level_iff hl).mp hq).2.symm.trans hqk)))
  · have hmod : (s.tasks p).priority % 32 = ((k.val % 32 : Nat) : Int) := by
      rw [← hlevel]
      rfl
    simp only [he.priority, List.mem_cons, exists_eq_or_imp, hmod, Int.ofNat_inj]
    rw [← h.bits j, he.bitmap]
    split_ifs with hnone
    · rw [BitVec.getLsbD_or, getLsbD_levelBit, Bool.or_eq_true, decide_eq_true_iff, or_comm]
    · -- the level was not empty, so its bit is set
      refine ⟨.inr, fun hj => hj.elim (fun hj => ?_) id⟩
      obtain ⟨q, hq⟩ := List.exists_mem_of_ne_nil lk fun e => hnone (hck.isNone_iff.mpr e)
      obtain ⟨hqs, hqk⟩ := (mem_level_iff hpk).mp hq
      refine (h.bits j).mpr ⟨q, hqs, ?_⟩
      rw [hqk, ← hj]
      rfl

end

/-! ## Picks -/

/-- The task that pick number `k` returns. -/
def nthPick (c : Fin maxCpus) : Nat → Sched → Option Tid
  | 0, s => (schedPickNext c s).1
  | k + 1, s => nthPick c k (schedPickNext c s).2

section

variable {c : Fin maxCpus} {ps l : List Tid} {p : Tid} {s : Sched} {i : Fin maxPriority}

theorem Assigned.pick (h : Assigned c ps s) (hfirst : (s.rqs c).first = some (i, p))
    (hc : Circle s.next ((s.rqs c).activeQueue i) (p :: l)) :
    (schedPickNext c s).1 = some p ∧ Assigned c ps (schedPickNext c s).2 ∧
      ((schedPickNext c s).2.rqs c).first = (l ++ [p]).head?.map (i, ·) ∧
      Circle (schedPickNext c s).2.next (((schedPickNext c s).2.rqs c).activeQueue i) (l ++ [p]) := by
  rw [schedPickNext_first hfirst]
  obtain ⟨b, hb, hbi, hhead⟩ := first_eq_some.mp hfirst
  rw [hhead] at hc
  have hrot := hc.rotate
  have hrq : ((s.setRq c (·.setActive i (s.next p))).rqs c) = (s.rqs c).setActive i (s.next p) :=
    update_self ..
  have hi : ((s.rqs c).setActive i (s.next p)).activeQueue i = s.next p := update_self ..
  have hcircle : Circle (s.setRq c (·.setActive i (s.next p))).next
      (((s.setRq c (·.setActive i (s.next p))).rqs c).activeQueue i) (l ++ [p]) := by
    rw [hrq, hi]
    exact hrot
  refine ⟨rfl, ⟨fun j => ?_, fun j => ?_, ?_⟩, ?_, hcircle⟩
  · by_cases hj : j = i
    · subst hj
      obtain ⟨l', hc', hl'⟩ := h.queue j
      rw [hhead] at hc'
      have hsame := hc'.ring_eq (Nat.le_max_left l'.length (p :: l).length)
      rw [hc.ring_eq (Nat.le_max_right ..)] at hsame
      rw [← hsame] at hl'
      exact ⟨l ++ [p], hcircle, (List.perm_append_singleton p l).trans hl'⟩
    · have hj' : ((s.rqs c).setActive i (s.next p)).activeQueue j = (s.rqs c).activeQueue j :=
        update_of_ne hj _ _
      rw [hrq, hj']
      exact h.queue j
  · rw [hrq]
    exact h.bits j
  · rw [hrq]
    exact h.expired
  · rw [hrq]
    cases hh : s.next p with
    | none =>
      rw [hrot.head_eq] at hh
      simp at hh
    | some q =>
      rw [hh] at hi
      rw [← hrot.head_eq, hh]
      exact first_eq_some.mpr ⟨b, hb, hbi, hi⟩

theorem nthPick_eq (h : Assigned c ps s) (hfirst : (s.rqs c).first = some (i, p))
    (hc : Circle s.next ((s.rqs c).activeQueue i) (p :: l)) (k : Nat) :
    nthPick c k s = ((p :: l).rotate k).head? := by
  induction k generalizing s p l with
  | zero =>
    rw [nthPick, (h.pick hfirst hc).1]
    rfl
  | succ k ih =>
    obtain ⟨-, h', hfirst', hc'⟩ := h.pick hfirst hc
    rw [nthPick, List.rotate_cons_succ]
    obtain ⟨q, t, hq⟩ := List.exists_cons_of_ne_nil (List.append_ne_nil_of_right_ne_nil l
      (List.cons_ne_nil p []))
    rw [hq] at hfirst' hc' ⊢
    exact ih h' hfirst' hc'

theorem nthPick_idle (h : Assigned c ps s) (hfirst : (s.rqs c).first = none) (k : Nat) :
    nthPick c k s = (s.rqs c).idle := by
  have hpick : schedPickNext c s = ((s.rqs c).idle, s) := by
    unfold schedPickNext
    simp only [hfirst, if_pos h.expired]
  induction k with
  | zero => rw [nthPick, hpick]
  | succ k ih => rw [nthPick, hpick, ih]

end

/-! ## The best task -/

/-- Task `t` is one of `ps`, and none of them has a smaller priority. -/
def Best (s : Sched) (ps : List Tid) (t : Tid) : Prop :=
  t ∈ ps ∧ ∀ u ∈ ps, (s.tasks t).priority ≤ (s.tasks u).priority

instance (s : Sched) (ps : List Tid) : DecidablePred (Best s ps) := fun _ =>
  inferInstanceAs (Decidable (_ ∧ _))

/-- **The best task is picked**, after `ps` was assigned. -/
structure PicksBest (c : Fin maxCpus) (ps : List Tid) (s : Sched) : Prop where
  best : ps ≠ [] → ∀ k, ∃ t, nthPick c k s = some t ∧ Best s ps t
  /-- As many picks as there are best tasks give each of them once. -/
  rotates : ∀ k, ((List.range (ps.filter (Best s ps)).length).map fun j =>
    nthPick c (k + j) s).Perm ((ps.filter (Best s ps)).map some)
  idle : ∀ k, nthPick c k s = (s.rqs c).idle → ps = []

/-- The smallest priority is at most the remainder modulo 32 of every priority. -/
def LowestFits (s : Sched) (ps : List Tid) : Prop :=
  ∀ t, Best s ps t → ∀ u ∈ ps, (s.tasks t).priority ≤ (s.tasks u).priority % 32

/-- The tasks that a pick can come to: those whose priority is the lowest remainder, and if there are
none the idle task. -/
def Front (c : Fin maxCpus) (s : Sched) (ps : List Tid) (t : Tid) : Prop :=
  (t ∈ ps ∧ ∀ u ∈ ps, (s.tasks t).priority ≤ (s.tasks u).priority % 32) ∨
  ((∀ p ∈ ps, ∃ u ∈ ps, (s.tasks u).priority % 32 < (s.tasks p).priority) ∧ (s.rqs c).idle = some t)

/-- The current task is the idle one, its slice goes on, or no task of `front` has a larger
priority. -/
def TickFits (c : Fin maxCpus) (s : Sched) (front : Tid → Prop) : Prop :=
  ∀ cur, (s.rqs c).current = some cur → (s.rqs c).idle = some cur ∨ 1 < (s.tasks cur).timeslice ∨
    ∀ t, front t → (s.tasks t).priority ≤ (s.tasks cur).priority

/-- `sched_tick` preempts for a task of strictly better priority. -/
def TickImproves (c : Fin maxCpus) (s : Sched) : Prop :=
  ∀ cur next, tickChoice c s = some (cur, next) →
    (s.tasks next).priority < (s.tasks cur).priority

section

variable {c : Fin maxCpus} {ps qs : List Tid} {s : Sched}

theorem Assigned.perm (h : Assigned c ps s) (hp : ps.Perm qs) : Assigned c qs s where
  queue := fun i => by
    obtain ⟨l, hc, hl⟩ := h.queue i
    exact ⟨l, hc, hl.trans (hp.filter _)⟩
  bits := fun j => by simp only [h.bits j, hp.mem_iff]
  expired := h.expired

theorem assigned_foldl {s₀ : Sched} (h : Assigned c qs s₀) (hnd : (ps ++ qs).Nodup)
    (hrange : ∀ p ∈ ps, 0 ≤ (s₀.tasks p).priority ∧ (s₀.tasks p).priority < 140) :
    Assigned c (ps ++ qs) (assign c ps s₀) ∧
      (∀ q, ((assign c ps s₀).tasks q).priority = (s₀.tasks q).priority ∧
        ((assign c ps s₀).tasks q).timeslice = (s₀.tasks q).timeslice) ∧
      ((assign c ps s₀).rqs c).current = (s₀.rqs c).current ∧
      ((assign c ps s₀).rqs c).idle = (s₀.rqs c).idle := by
  induction ps generalizing s₀ qs with
  | nil => exact ⟨h, fun _ => ⟨rfl, rfl⟩, rfl, rfl⟩
  | cons p ps ih =>
    have he := enqueueTask_spec c p s₀
    obtain ⟨hp, hnd'⟩ := List.nodup_cons.mp hnd
    obtain ⟨h0, h140⟩ := hrange p List.mem_cons_self
    have hstep := h.enqueue (fun hq => hp (List.mem_append_right ps hq)) h0 h140
    obtain ⟨h1, h2, h3, h4⟩ := ih hstep (List.nodup_middle.mpr hnd) fun q hq => by
      rw [he.priority]
      exact hrange q (List.mem_cons_of_mem p hq)
    exact ⟨h1.perm List.perm_middle, fun q => ⟨(h2 q).1.trans (he.priority q),
      (h2 q).2.trans (he.timeslice q)⟩, h3.trans he.current, h4.trans he.idle⟩

theorem Assigned.lowest (h : Assigned c ps s) (hps : ps ≠ []) :
    ∃ b : Fin 32, findFirstBit (s.rqs c).activePrioBitmap = some b ∧
      (∃ u ∈ ps, (s.tasks u).priority % 32 = b.val) ∧
      ∀ u ∈ ps, (b.val : Int) ≤ (s.tasks u).priority % 32 := by
  have hbit (u : Tid) : ∃ j : Fin 32, (j.val : Int) = (s.tasks u).priority % 32 :=
    ⟨⟨((s.tasks u).priority % 32).toNat, by omega⟩, by
      show (((s.tasks u).priority % 32).toNat : Int) = _
      omega⟩
  cases hb : findFirstBit (s.rqs c).activePrioBitmap with
  | none =>
    obtain ⟨u, hu⟩ := List.exists_mem_of_ne_nil ps hps
    obtain ⟨j, hj⟩ := hbit u
    have hset := (h.bits j).mpr ⟨u, hu, hj.symm⟩
    rw [findFirstBit_none hb j] at hset
    exact absurd hset Bool.false_ne_true
  | some b =>
    obtain ⟨hset, hmin⟩ := findFirstBit_some hb
    refine ⟨b, rfl, (h.bits b).mp hset, fun u hu => ?_⟩
    obtain ⟨j, hj⟩ := hbit u
    have hle := hmin j ((h.bits j).mpr ⟨u, hu, hj.symm⟩)
    rw [← hj]
    exact Int.ofNat_le.mpr hle

theorem Assigned.first_queue (h : Assigned c ps s) {i : Fin maxPriority} {p : Tid}
    (hfirst : (s.rqs c).first = some (i, p)) :
    ∃ l, Circle s.next ((s.rqs c).activeQueue i) (p :: l) ∧
      (p :: l).Perm (ps.filter fun q => (s.tasks q).priority = (i.val : Int)) := by
  obtain ⟨l, hc, hl⟩ := h.queue i
  obtain ⟨_, -, -, hhead⟩ := first_eq_some.mp hfirst
  have hc' := hc
  rw [hhead] at hc'
  obtain ⟨t, rfl⟩ := hc'.exists_cons
  exact ⟨t, hc, hl⟩

theorem PicksBest.lowestFits (hb : PicksBest c ps s) (h : Assigned c ps s)
    (hidle : ∀ p ∈ ps, (s.rqs c).idle ≠ some p) : LowestFits s ps := by
  intro t ht u hu
  have hps : ps ≠ [] := List.ne_nil_of_mem hu
  obtain ⟨t', hpick, ht'⟩ := hb.best hps 0
  obtain ⟨b, hfb, -, hmin⟩ := h.lowest hps
  cases hfirst : (s.rqs c).first with
  | none =>
    rw [nthPick_idle h hfirst] at hpick
    exact absurd hpick (hidle t' ht'.1)
  | some r =>
    obtain ⟨i, p⟩ := r
    obtain ⟨l, hc, hl⟩ := h.first_queue hfirst
    rw [nthPick_eq h hfirst hc] at hpick
    obtain rfl : p = t' := Option.some.inj hpick
    obtain ⟨b', hb', rfl, -⟩ := first_eq_some.mp hfirst
    obtain rfl : b' = b := Option.some.inj (hb'.symm.trans hfb)
    have hp := ((mem_level_iff hl).mp List.mem_cons_self).2
    calc (s.tasks t).priority ≤ (s.tasks p).priority := ht.2 p ht'.1
      _ = b'.val := hp
      _ ≤ (s.tasks u).priority % 32 := hmin u hu

theorem heads_rotate {α : Type*} (l : List α) :
    (List.range l.length).map (fun j => (l.rotate j).head?) = l.map some := by
  refine List.ext_getElem (by simp) fun j h1 h2 => ?_
  have hj : j < l.length := by simpa using h1
  simp [List.head?_rotate hj, hj]

theorem LowestFits.picksBest (hlow : LowestFits s ps) (h : Assigned c ps s)
    (hrange : ∀ p ∈ ps, 0 ≤ (s.tasks p).priority)
    (hidle : ∀ p ∈ ps, (s.rqs c).idle ≠ some p) : PicksBest c ps s := by
  by_cases hps : ps = []
  · subst hps
    exact ⟨fun hne => absurd rfl hne, fun _ => .refl _, fun _ _ => rfl⟩
  obtain ⟨b, hfb, ⟨u, hu, hub⟩, hmin⟩ := h.lowest hps
  obtain ⟨t, htmem, htmin⟩ := ps.toFinset.exists_min_image (fun p => (s.tasks p).priority)
    (List.toFinset_nonempty_iff ps |>.mpr hps)
  have ht : Best s ps t := ⟨List.mem_toFinset.mp htmem, fun v hv =>
    htmin v (List.mem_toFinset.mpr hv)⟩
  -- the lowest bit is the one of the smallest priority
  have htb : (s.tasks t).priority = b.val := by
    have h1 := hlow t ht u hu
    have h2 := hlow t ht t ht.1
    have h3 := hmin t ht.1
    have h4 := hrange t ht.1
    omega
  have hbest (v : Tid) (hv : v ∈ ps) : Best s ps v ↔ (s.tasks v).priority = b.val := by
    rw [← htb]
    exact ⟨fun hx => le_antisymm (hx.2 t ht.1) (ht.2 v hv), fun hx => ⟨hv, fun w hw => hx ▸ ht.2 w hw⟩⟩
  obtain ⟨l, hc, hl⟩ := h.queue (b.castLE (by decide))
  obtain ⟨p, hp⟩ : ∃ p, (s.rqs c).activeQueue (b.castLE (by decide)) = some p := by
    rw [← Option.isSome_iff_exists, Option.isSome_iff_ne_none]
    intro hnone
    have hmem : t ∈ l := (mem_level_iff hl).mpr ⟨ht.1, htb⟩
    rw [hc.isNone_iff.mp hnone] at hmem
    exact absurd hmem List.not_mem_nil
  have hfirst := first_eq_some.mpr ⟨b, hfb, rfl, hp⟩
  obtain ⟨l, hc, hl⟩ := h.first_queue hfirst
  have hpick := nthPick_eq h hfirst hc
  have hmem (k : Nat) : ∃ v ∈ ps, nthPick c k s = some v ∧ (s.tasks v).priority = b.val := by
    obtain ⟨v, w, hv⟩ := List.exists_cons_of_ne_nil
      (fun hnil => List.cons_ne_nil p l (List.rotate_eq_nil_iff.mp hnil) : (p :: l).rotate k ≠ [])
    have hvl : v ∈ p :: l := List.mem_rotate.mp (hv ▸ List.mem_cons_self)
    obtain ⟨hvs, hvb⟩ := (mem_level_iff hl).mp hvl
    exact ⟨v, hvs, by rw [hpick, hv]; rfl, hvb⟩
  refine ⟨fun _ k => ?_, fun k => ?_, fun k hk => ?_⟩
  · obtain ⟨v, hv, hvk, hvb⟩ := hmem k
    exact ⟨v, hvk, (hbest v hv).mpr hvb⟩
  · have hfilter : ps.filter (Best s ps) = ps.filter fun q => (s.tasks q).priority = (b.val : Int) :=
      List.filter_congr fun v hv => decide_eq_decide.mpr (hbest v hv)
    rw [hfilter]
    have hlen : (ps.filter fun q => (s.tasks q).priority = (b.val : Int)).length =
        ((p :: l).rotate k).length := by
      rw [List.length_rotate]
      exact hl.length_eq.symm
    have hpicks : ((List.range ((p :: l).rotate k).length).map fun j => nthPick c (k + j) s) =
        ((p :: l).rotate k).map some := by
      rw [← heads_rotate]
      exact List.map_congr_left fun j _ => by rw [hpick, List.rotate_rotate]
    rw [hlen, hpicks]
    exact ((List.rotate_perm _ k).trans hl).map some
  · obtain ⟨v, hv, hvk, -⟩ := hmem k
    exact absurd (hk.symm.trans hvk) (hidle v hv)

end

/-! ## The tick -/

/-- The state after `k` picks. -/
def afterPicks (c : Fin maxCpus) (k : Nat) (s : Sched) : Sched :=
  (fun s => (schedPickNext c s).2)^[k] s

section

variable {c : Fin maxCpus} {s s' : Sched} {cur next : Tid} {ps : List Tid}

theorem schedPickNext_tasks (c : Fin maxCpus) (s : Sched) :
    (schedPickNext c s).2.tasks = s.tasks := by
  unfold schedPickNext
  split
  · dsimp only
    split_ifs <;> rfl
  · split_ifs
    · rfl
    · dsimp only
      split <;> rfl

theorem tickPick_priority (c : Fin maxCpus) (cur p : Tid) (s : Sched) :
    ((tickPick c cur s).2.tasks p).priority = (s.tasks p).priority := by
  rw [tickPick, schedPickNext_tasks]
  by_cases hp : p = cur
  · rw [hp]
    show (update s.tasks cur _ cur).priority = _
    rw [update_self]
  · show (update s.tasks cur _ p).priority = _
    rw [update_of_ne hp]

/-- The pick does not look at the slices. -/
theorem tickPick_fst (c : Fin maxCpus) (cur : Tid) (s : Sched) :
    (tickPick c cur s).1 = (schedPickNext c s).1 := by
  have hrqs : (s.setTimeslice cur ((s.tasks cur).timeslice - 1)).rqs = s.rqs := rfl
  unfold tickPick schedPickNext
  rw [hrqs]
  cases (s.rqs c).first with
  | some r => rfl
  | none =>
    dsimp only
    split_ifs
    · rfl
    · have hswap : ((s.setTimeslice cur ((s.tasks cur).timeslice - 1)).setRq c Runqueue.swap).rqs =
          (s.setRq c Runqueue.swap).rqs := rfl
      rw [hswap]
      cases ((s.setRq c Runqueue.swap).rqs c).first <;> rfl

/-- **A preemption is for a task of larger priority**: the one that is picked. -/
theorem tickChoice_eq_some : tickChoice c s = some (cur, next) ↔
    (s.rqs c).current = some cur ∧ (s.rqs c).idle ≠ some cur ∧ (s.tasks cur).timeslice ≤ 1 ∧
      (schedPickNext c s).1 = some next ∧ (s.tasks cur).priority < (s.tasks next).priority := by
  unfold tickChoice preempts
  simp only [tickPick_priority, tickPick_fst]
  constructor
  · intro h
    obtain ⟨cur', hcur, h⟩ := Option.bind_eq_some_iff.mp h
    split_ifs at h with hskip
    obtain ⟨next', hnext, h⟩ := Option.bind_eq_some_iff.mp h
    split_ifs at h with hpre
    cases h
    rw [not_or] at hskip
    exact ⟨hcur, hskip.1, by omega, hnext, hpre.2⟩
  · rintro ⟨hcur, hidle, hslice, hnext, hlt⟩
    have hne : next ≠ cur := fun he => absurd hlt (he ▸ Int.lt_irrefl _)
    simp only [hcur, hnext, Option.bind_eq_bind, Option.bind_some]
    rw [if_neg (not_or.mpr ⟨hidle, by omega⟩), if_pos ⟨hne, hlt⟩]

theorem tickImproves_iff (c : Fin maxCpus) (s : Sched) :
    TickImproves c s ↔ TickFits c s fun t => (schedPickNext c s).1 = some t := by
  constructor
  · intro h cur hcur
    by_contra hno
    simp only [not_or, not_forall, Int.not_le] at hno
    obtain ⟨hidle, hslice, t, ht, hlt⟩ := hno
    have hbetter := h cur t (tickChoice_eq_some.mpr ⟨hcur, hidle, by omega, ht, hlt⟩)
    omega
  · intro h cur next hsome
    obtain ⟨hcur, hidle, hslice, hnext, hlt⟩ := tickChoice_eq_some.mp hsome
    rcases h cur hcur with hi | hs | hle
    · exact absurd hi hidle
    · omega
    · exact absurd (hle next hnext) (Int.not_le.mpr hlt)

/-- What is picked stands in front, and all tasks there have its priority. -/
theorem Assigned.front (h : Assigned c ps s) (hrange : ∀ p ∈ ps, 0 ≤ (s.tasks p).priority) :
    (∀ t, (schedPickNext c s).1 = some t → Front c s ps t) ∧
    ∀ t, Front c s ps t → ∃ t', (schedPickNext c s).1 = some t' ∧
      (s.tasks t').priority = (s.tasks t).priority := by
  -- a task whose priority is at most every remainder has the lowest one as its priority
  have hlevel {b : Fin 32} {t : Tid} (hb : ∃ u ∈ ps, (s.tasks u).priority % 32 = b.val)
      (hmin : ∀ u ∈ ps, (b.val : Int) ≤ (s.tasks u).priority % 32) (ht : t ∈ ps)
      (hle : ∀ u ∈ ps, (s.tasks t).priority ≤ (s.tasks u).priority % 32) :
      (s.tasks t).priority = b.val := by
    obtain ⟨u, hu, hub⟩ := hb
    have h1 := hle u hu
    have h2 := hmin t ht
    have h3 := hle t ht
    have h4 := hrange t ht
    omega
  cases hfirst : (s.rqs c).first with
  | some r =>
    obtain ⟨i, p⟩ := r
    rw [schedPickNext_first hfirst]
    obtain ⟨l, -, hl⟩ := h.first_queue hfirst
    obtain ⟨hp, hprio⟩ := (mem_level_iff hl).mp List.mem_cons_self
    obtain ⟨b, hfb, hlow, hmin⟩ := h.lowest (List.ne_nil_of_mem hp)
    obtain ⟨b', hb', rfl, -⟩ := first_eq_some.mp hfirst
    obtain rfl : b' = b := Option.some.inj (hb'.symm.trans hfb)
    have hle : ∀ u ∈ ps, (s.tasks p).priority ≤ (s.tasks u).priority % 32 := fun u hu =>
      hprio.le.trans (hmin u hu)
    refine ⟨fun t ht => ?_, fun t ht => ⟨p, rfl, ?_⟩⟩
    · cases ht
      exact Or.inl ⟨hp, hle⟩
    · rcases ht with ⟨ht, htle⟩ | ⟨hnone, -⟩
      · exact hprio.trans (hlevel hlow hmin ht htle).symm
      · obtain ⟨u, hu, hlt⟩ := hnone p hp
        exact absurd (hle u hu) (Int.not_le.mpr hlt)
  | none =>
    have hpick : (schedPickNext c s).1 = (s.rqs c).idle := nthPick_idle h hfirst 0
    have hnone : ¬ ∃ t ∈ ps, ∀ u ∈ ps, (s.tasks t).priority ≤ (s.tasks u).priority % 32 := by
      rintro ⟨t, ht, htle⟩
      obtain ⟨b, hfb, hlow, hmin⟩ := h.lowest (List.ne_nil_of_mem ht)
      obtain ⟨l, hc, hl⟩ := h.queue (b.castLE (by decide))
      have hmem := (mem_level_iff hl).mpr ⟨ht, hlevel hlow hmin ht htle⟩
      cases hq : (s.rqs c).activeQueue (b.castLE (by decide)) with
      | none =>
        rw [hc.isNone_iff.mp hq] at hmem
        exact absurd hmem List.not_mem_nil
      | some p =>
        rw [first_eq_some.mpr ⟨b, hfb, rfl, hq⟩] at hfirst
        cases hfirst
    push Not at hnone
    rw [hpick]
    refine ⟨fun t ht => Or.inr ⟨hnone, ht⟩, fun t ht => ?_⟩
    rcases ht with ⟨ht, htle⟩ | ⟨-, hidle⟩
    · obtain ⟨u, hu, hlt⟩ := hnone t ht
      exact absurd (htle u hu) (Int.not_le.mpr hlt)
    · exact ⟨t, hidle, rfl⟩

theorem Assigned.tickImproves_iff (h : Assigned c ps s)
    (hrange : ∀ p ∈ ps, 0 ≤ (s.tasks p).priority) :
    TickImproves c s ↔ TickFits c s (Front c s ps) := by
  obtain ⟨hpicked, hfront⟩ := h.front hrange
  rw [Smp.tickImproves_iff]
  refine forall₂_congr fun cur _ => or_congr_right (or_congr_right
    ⟨fun hle t ht => ?_, fun hle t ht => ?_⟩)
  · obtain ⟨t', ht', heq⟩ := hfront t ht
    exact heq ▸ hle t' ht'
  · exact hle t (hpicked t ht)

/-- A pick moves the head of one queue, and changes nothing that a tick looks at. -/
theorem Assigned.afterPick (h : Assigned c ps s) : Assigned c ps (schedPickNext c s).2 ∧
    ((schedPickNext c s).2.rqs c).current = (s.rqs c).current ∧
    ((schedPickNext c s).2.rqs c).idle = (s.rqs c).idle := by
  cases hfirst : (s.rqs c).first with
  | some r =>
    obtain ⟨i, p⟩ := r
    obtain ⟨l, hc, -⟩ := h.first_queue hfirst
    refine ⟨(h.pick hfirst hc).2.1, ?_⟩
    rw [schedPickNext_first hfirst]
    simp only [Sched.setRq, update_self, Runqueue.setActive, and_self]
  | none =>
    have hsame : (schedPickNext c s).2 = s := by
      unfold schedPickNext
      simp only [hfirst, if_pos h.expired]
    rw [hsame]
    exact ⟨h, rfl, rfl⟩

theorem Assigned.afterPicks (h : Assigned c ps s) (k : Nat) : Assigned c ps (afterPicks c k s) ∧
    (afterPicks c k s).tasks = s.tasks ∧
    ((afterPicks c k s).rqs c).current = (s.rqs c).current ∧
    ((afterPicks c k s).rqs c).idle = (s.rqs c).idle := by
  induction k generalizing s with
  | zero => exact ⟨h, rfl, rfl, rfl⟩
  | succ k ih =>
    obtain ⟨h', hcur, hidle⟩ := h.afterPick
    obtain ⟨h1, h2, h3, h4⟩ := ih h'
    exact ⟨h1, h2.trans (schedPickNext_tasks c s), h3.trans hcur, h4.trans hidle⟩

end

/-- **When the scheduler picks the best task**, for tasks put into an empty runqueue; and when a tick
preempts only for a better one, after any number of picks and in any other state. -/
theorem pick_best_iff {c : Fin maxCpus} {ps : List Tid} {s₀ : Sched} (h₀ : (s₀.rqs c).Empty)
    (hnd : ps.Nodup)
    (hrange : ∀ p ∈ ps, 0 ≤ (s₀.tasks p).priority ∧ (s₀.tasks p).priority < 140)
    (hidle : ∀ p ∈ ps, (s₀.rqs c).idle ≠ some p) :
    (PicksBest c ps (assign c ps s₀) ↔ LowestFits s₀ ps) ∧
      (∀ k, TickImproves c (afterPicks c k (assign c ps s₀)) ↔ TickFits c s₀ (Front c s₀ ps)) ∧
      ∀ c' s, TickImproves c' s ↔ TickFits c' s fun t => (schedPickNext c' s).1 = some t := by
  obtain ⟨h, htasks, hcur, hi⟩ := assigned_foldl (assigned_empty h₀) (by rwa [List.append_nil]) hrange
  rw [List.append_nil] at h
  have hprio (q : Tid) : ((assign c ps s₀).tasks q).priority = (s₀.tasks q).priority := (htasks q).1
  have hpos : ∀ p ∈ ps, 0 ≤ ((assign c ps s₀).tasks p).priority := fun p hp =>
    (hprio p).symm ▸ (hrange p hp).1
  refine ⟨?_, fun k => ?_, tickImproves_iff⟩
  · have hfits : LowestFits s₀ ps ↔ LowestFits (assign c ps s₀) ps := by
      simp only [LowestFits, Best, hprio]
    rw [← hi] at hidle
    rw [hfits]
    exact ⟨fun hb => hb.lowestFits h hidle, fun hl => hl.picksBest h hpos hidle⟩
  · obtain ⟨hk, hsame, hkcur, hkidle⟩ := h.afterPicks k
    rw [hk.tickImproves_iff (by rwa [hsame])]
    simp only [TickFits, Front, hsame, hkcur, hkidle, hcur, hi, htasks]

/-! ## Two assignments -/

/-- Empty runqueues with task 0 as the idle task; task `p` has priority `prio p`. -/
def idleSched (prio : Tid → Int) : Sched :=
  ⟨fun p => ⟨.ready, 5, prio p⟩, fun _ => none, fun _ => { Runqueue.init with idle := some 0 }, 1⟩

theorem idleSched_empty (prio : Tid → Int) (c : Fin maxCpus) : ((idleSched prio).rqs c).Empty := rfl

/-- Three tasks, two of them of priority 3; no slice has run out. -/
theorem pick_best_three : ∃ s : Sched, s = idleSched (fun p => if p = 2 then 40 else 3) ∧
    PicksBest 0 [1, 2, 3] (assign 0 [1, 2, 3] s) ∧
    TickImproves 0 (afterPicks 0 1 (assign 0 [1, 2, 3] s)) := by
  obtain ⟨hpick, htick, -⟩ := pick_best_iff
    (idleSched_empty (fun p => if p = 2 then 40 else 3) 0)
    (by decide +kernel : ([1, 2, 3] : List Tid).Nodup) (by decide +kernel) (by decide +kernel)
  refine ⟨_, rfl, hpick.mpr ?_, (htick 1).mpr fun cur hcur => ?_⟩
  · unfold LowestFits Best
    decide +kernel
  · cases hcur

/-- A task of the default priority 120 is not found and the idle task is returned; and task 1 of
priority 10, which is current, is preempted for task 2 of priority 20. -/
theorem default_task_not_picked :
    (schedPickNext 0 (assign 0 [1] (idleSched fun _ => 120))).1 = some 0 ∧
      ∃ s : Sched, s = ((assign 0 [2] (idleSched fun p => if p = 1 then 10 else 20)).setRq 0
        fun rq => { rq with current := some 1 }).setTimeslice 1 1 ∧
        tickChoice 0 s = some (1, 2) ∧ (s.tasks 1).priority < (s.tasks 2).priority :=
  ⟨by decide +kernel, _, rfl, by decide +kernel, by decide +kernel⟩

end Sinux.Smp
