import Std.Data.ExtTreeMap
import JudicaVM.Lib.OrderedMap
import Mathlib.Data.List.TakeWhile
import Mathlib.Tactic.Common

/-!
# Timer queues

A queue of timers filed by their time, those of one time in the order of scheduling. A drain takes out
every timer whose time has come. What a drain takes out, and what stays, is compared with the list of
all operations so far.
-/

namespace TimerQueue

open Std OrderedMap

variable {α : Type} (time : α → ℕ)

/-- Timers by time. -/
abbrev Queue (α : Type) := ExtTreeMap ℕ (List α)

def schedule (q : Queue α) (a : α) : Queue α := q.insert (time a) (q.getD (time a) [] ++ [a])

/-- The timers of all times before a bound, in the order in which they run. -/
def dueBefore (q : Queue α) (bound : ℕ) : List α := (q.toList.filter (·.1 < bound)).flatMap (·.2)

def splitOff (q : Queue α) (bound : ℕ) : Queue α := q.filter fun t _ => bound ≤ t

/-- The timers of the second queue that are not in the first one, which it extends. -/
def added (q q' : Queue α) : List α := q'.toList.flatMap fun e => e.2.drop (q.getD e.1 []).length

inductive Entry (α : Type)
  | scheduled (a : α)
  | drained (now : ℕ)
  | ran (a : α)
  deriving DecidableEq, Repr

/-- The drain takes out a timer. -/
def Entry.drains (a : α) : Entry α → Bool
  | drained now => time a ≤ now
  | _ => false

/-- The timers that were scheduled and that no later drain has taken out. -/
def waiting : List (Entry α) → List α
  | [] => []
  | .scheduled a :: es => if es.any (Entry.drains time a) then waiting es else a :: waiting es
  | _ :: es => waiting es

def Entry.scheduled? : Entry α → Option α
  | scheduled a => some a
  | _ => none

def Entry.ran? : Entry α → Option α
  | ran a => some a
  | _ => none

def Entry.isDrain : Entry α → Bool
  | drained _ => true
  | _ => false

/-- The timers that run between a drain and the next one. -/
def block (es : List (Entry α)) : List α := (es.takeWhile fun e => !e.isDrain).filterMap Entry.ran?

/-- A list of timers is what a drain takes out of the waiting ones: in the order of time, and those of
one time in the order of scheduling. -/
structure DueOrder (l waits : List α) (now : ℕ) : Prop where
  sorted : l.Pairwise fun a b => time a ≤ time b
  stable : ∀ t, l.filter (time · = t) = waits.filter fun a => time a = t ∧ t ≤ now

/-- Every drain of a list of operations is followed by the timers that it takes out, or by something
related to them, and nothing else runs. -/
structure RunsInOrder (related : List α → List α → Prop) (es : List (Entry α)) : Prop where
  first : block es = []
  due : ∀ before now after, es = before ++ .drained now :: after →
    ∃ l, DueOrder time l (waiting time before) now ∧ related (block after) l

variable {time} {es es' : List (Entry α)} {q q' : Queue α} {a : α} {now t bound : ℕ}

@[simp] theorem waiting_scheduled : waiting time (es ++ [.scheduled a]) = waiting time es ++ [a] := by
  induction es with
  | nil => simp [waiting]
  | cons e es ih =>
    cases e with
    | scheduled b =>
      simp only [List.cons_append, waiting, List.any_append, ih]
      simp only [List.any_cons, List.any_nil, Entry.drains, Bool.or_false]
      split <;> rfl
    | _ => simpa [waiting] using ih

@[simp] theorem waiting_ran : waiting time (es ++ [.ran a]) = waiting time es := by
  induction es with
  | nil => rfl
  | cons e es ih =>
    cases e with
    | scheduled b =>
      simp only [List.cons_append, waiting, List.any_append, ih]
      simp only [List.any_cons, List.any_nil, Entry.drains, Bool.or_false]
    | _ => simpa [waiting] using ih

@[simp] theorem waiting_drained :
    waiting time (es ++ [.drained now]) = (waiting time es).filter (now < time ·) := by
  induction es with
  | nil => rfl
  | cons e es ih =>
    cases e with
    | scheduled b =>
      simp only [List.cons_append, waiting, List.any_append, ih]
      simp only [List.any_cons, List.any_nil, Entry.drains, Bool.or_false]
      by_cases hb : es.any (Entry.drains time b)
      · simp [hb]
      · by_cases hlt : time b ≤ now
        · simp [hb, hlt]
        · simp [hb, hlt, Nat.lt_of_not_le hlt]
    | _ => simpa [waiting] using ih

/-- The queue holds at every time the timers that are waiting for it. -/
def Holds (time : α → ℕ) (q : Queue α) (es : List (Entry α)) : Prop :=
  ∀ t, q.getD t [] = (waiting time es).filter (time · = t)

theorem holds_empty : Holds time (∅ : Queue α) [] := fun t => by simp [waiting]

theorem Holds.ran (h : Holds time q es) (a : α) : Holds time q (es ++ [.ran a]) := by
  intro t
  rw [waiting_ran, h t]

theorem Holds.splitOff (h : Holds time q es) (now : ℕ) :
    Holds time (splitOff q (now + 1)) (es ++ [.drained now]) := by
  intro t
  rw [waiting_drained, List.filter_filter, TimerQueue.splitOff]
  have hq : (q.filter fun t _ => decide (now + 1 ≤ t)).getD t [] =
      if now < t then q.getD t [] else [] := by
    rw [ExtTreeMap.getD_filter', ExtTreeMap.getD_eq_getD_getElem?]
    by_cases ht : now < t
    · cases q[t]? <;> simp [Option.filter, Nat.succ_le_of_lt ht, ht]
    · rw [decide_eq_false (show ¬now + 1 ≤ t from ht), if_neg ht]
      cases q[t]? <;> rfl
  rw [hq, h t]
  split
  · rename_i ht
    apply List.filter_congr
    intro a _
    by_cases ha : time a = t
    · simp [ha, ht]
    · simp [ha]
  · rename_i ht
    symm
    rw [List.filter_eq_nil_iff]
    intro a _
    simp only [Bool.and_eq_true, decide_eq_true_eq]
    omega

theorem Holds.time_eq (h : Holds time q es) {l : List α} (hl : q[t]? = some l) (ha : a ∈ l) :
    time a = t := by
  have ht := h t
  rw [ExtTreeMap.getD_eq_getD_getElem?, hl, Option.getD_some] at ht
  rw [ht, List.mem_filter] at ha
  exact of_decide_eq_true ha.2

/-- What is taken from the lists of a queue, each filed under its time, by the time. -/
theorem filter_flatMap_toList {f : ℕ × List α → List α}
    (hf : ∀ e ∈ q.toList, ∀ a ∈ f e, time a = e.1) (t : ℕ) :
    (q.toList.flatMap f).filter (time · = t) = (q[t]?.map fun l => f (t, l)).getD [] := by
  have hdistinct : q.toList.Pairwise fun a b => a.1 ≠ b.1 := by
    apply ExtTreeMap.distinct_keys_toList.imp
    rintro a b hne heq
    exact hne (by rw [heq]; exact ReflCmp.compare_self)
  have hsome (l : List α) : q[t]? = some l ↔ (t, l) ∈ q.toList :=
    ExtTreeMap.mem_toList_iff_getElem?_eq_some.symm
  generalize q[t]? = o at hsome
  generalize q.toList = entries at hf hdistinct hsome
  induction entries generalizing o with
  | nil =>
    cases o with
    | none => rfl
    | some l => simpa using (hsome l).mp rfl
  | cons e entries ih =>
    obtain ⟨hhead, hrest⟩ := List.pairwise_cons.mp hdistinct
    have hf' := fun x hx => hf x (List.mem_cons_of_mem _ hx)
    rw [List.flatMap_cons, List.filter_append]
    by_cases he : e.1 = t
    · -- the entry of the time, and no other one
      have ho : o = some e.2 := (hsome e.2).mpr (by rw [← he]; exact List.mem_cons_self)
      have hnone := ih none hf' hrest fun l => by
        constructor
        · intro h
          cases h
        · intro h
          exact absurd he (hhead _ h)
      rw [hnone, ho, List.filter_eq_self.mpr, ← he]
      · simp
      · intro a ha
        simpa [he] using hf e List.mem_cons_self a ha
    · have hother : (f e).filter (time · = t) = [] := by
        rw [List.filter_eq_nil_iff]
        intro a ha
        simpa [hf e List.mem_cons_self a ha] using he
      rw [hother, List.nil_append]
      apply ih o hf' hrest
      intro l
      rw [hsome l, List.mem_cons]
      refine or_iff_right ?_
      rintro rfl
      exact he rfl

theorem Holds.dueBefore (h : Holds time q es) (now : ℕ) :
    DueOrder time (dueBefore q (now + 1)) (waiting time es) now := by
  have hmem (e : ℕ × List α) (he : e ∈ q.toList) (a : α) (ha : a ∈ e.2) : time a = e.1 :=
    h.time_eq (ExtTreeMap.mem_toList_iff_getElem?_eq_some.mp he) ha
  constructor
  · rw [TimerQueue.dueBefore, List.pairwise_flatMap]
    have hordered : q.toList.Pairwise fun a b => a.1 < b.1 := by
      apply ExtTreeMap.ordered_keys_toList.imp
      intro a b hlt
      exact Nat.compare_eq_lt.mp hlt
    constructor
    · intro e he
      apply List.pairwise_of_forall_mem_list
      intro a ha b hb
      have he' := (List.mem_filter.mp he).1
      rw [hmem e he' a ha, hmem e he' b hb]
    · apply (hordered.filter _).imp_of_mem
      intro e e' he he' hlt a ha b hb
      rw [hmem e (List.mem_filter.mp he).1 a ha, hmem e' (List.mem_filter.mp he').1 b hb]
      exact hlt.le
  · intro t
    have hflat : TimerQueue.dueBefore q (now + 1) =
        q.toList.flatMap fun e => if e.1 < now + 1 then e.2 else [] := by
      rw [TimerQueue.dueBefore, List.flatMap_def, List.flatMap_def]
      generalize q.toList = entries
      induction entries with
      | nil => rfl
      | cons e entries ih =>
        by_cases he : e.1 < now + 1 <;> simp_all
    rw [hflat, filter_flatMap_toList]
    · have ht := h t
      rw [ExtTreeMap.getD_eq_getD_getElem?] at ht
      by_cases hnow : t ≤ now
      · have hlt : t < now + 1 := Nat.lt_succ_of_le hnow
        simp only [hlt, if_true, hnow, and_true, ← ht, Option.map_id']
      · have hlt : ¬ t < now + 1 := by omega
        simp only [hlt, if_false, hnow, and_false, decide_false, List.filter_false]
        cases q[t]? <;> rfl
    · intro e he a ha
      split at ha
      · exact hmem e he a ha
      · cases ha

/-- Scheduling a list appends to the list of every time what belongs to it. -/
theorem getD_foldl_schedule (l : List α) (t : ℕ) :
    (l.foldl (schedule time) q).getD t [] = q.getD t [] ++ l.filter (time · = t) := by
  induction l generalizing q with
  | nil => simp
  | cons a l ih =>
    rw [List.foldl_cons, ih, schedule, getD_insert]
    by_cases ha : time a = t
    · simp [ha]
    · simp [ha]

theorem bag_foldl_schedule (l : List α) : bag (l.foldl (schedule time) q) = l + bag q := by
  induction l generalizing q with
  | nil => simp
  | cons a l ih =>
    rw [List.foldl_cons, ih, schedule, bag_insert_append, ← Multiset.cons_coe, Multiset.cons_add,
      Multiset.add_cons]

/-- What is added between two queues is what was scheduled, for every time in the same order. -/
theorem filter_added {l : List α} (hq : q' = l.foldl (schedule time) q) (t : ℕ) :
    (added q q').filter (time · = t) = l.filter (time · = t) := by
  have hdrop (e : ℕ × List α) (he : e ∈ q'.toList) :
      e.2.drop (q.getD e.1 []).length = l.filter (time · = e.1) := by
    have hlist := @getD_foldl_schedule _ time q l e.1
    rw [← hq, ExtTreeMap.getD_eq_getD_getElem?,
      ExtTreeMap.mem_toList_iff_getElem?_eq_some.mp he, Option.getD_some] at hlist
    rw [hlist, List.drop_left]
  rw [added, filter_flatMap_toList]
  · have hlist := @getD_foldl_schedule _ time q l t
    rw [← hq, ExtTreeMap.getD_eq_getD_getElem?] at hlist
    cases hget : q'[t]? with
    | none =>
      rw [hget, Option.getD_none] at hlist
      exact (List.append_eq_nil_iff.mp hlist.symm).2.symm
    | some l' => exact hdrop (t, l') (ExtTreeMap.mem_toList_iff_getElem?_eq_some.mpr hget)
  · intro e he a ha
    rw [hdrop e he, List.mem_filter] at ha
    exact of_decide_eq_true ha.2

theorem waiting_scheduled_all (l : List α) :
    waiting time (es ++ l.map .scheduled) = waiting time es ++ l := by
  induction l generalizing es with
  | nil => simp
  | cons a l ih =>
    rw [List.map_cons, ← List.singleton_append, ← List.append_assoc, ih, waiting_scheduled]
    simp

/-- After the operations between two queues the second one holds what is waiting. -/
theorem Holds.schedule_all (h : Holds time q es) {l : List α}
    (hq : q' = l.foldl (TimerQueue.schedule time) q) :
    Holds time q' (es ++ (added q q').map .scheduled) := by
  intro t
  rw [waiting_scheduled_all, List.filter_append, filter_added hq, hq, getD_foldl_schedule, h t]

variable {R : List α → List α → Prop}

@[simp] theorem block_append_drained (after : List (Entry α)) :
    block (es ++ .drained now :: after) = block es := by
  simp only [block]
  congr 1
  induction es with
  | nil => simp [Entry.isDrain]
  | cons e es ih =>
    simp only [List.cons_append, List.takeWhile_cons, ih]

@[simp] theorem block_append_scheduled (l : List α) :
    block (es ++ l.map .scheduled) = block es := by
  simp only [block]
  induction es with
  | nil =>
    induction l with
    | nil => rfl
    | cons a l ih => simpa [Entry.isDrain, Entry.ran?] using ih
  | cons e es ih =>
    cases h : e.isDrain
    · cases hr : e.ran? <;> simpa [h, hr] using ih
    · simp [h]

/-- A drain in a list that ends without drains is in the part before. -/
theorem drained_of_append {quiet before after : List (Entry α)}
    (hquiet : ∀ e ∈ quiet, e.isDrain = false) (h : es ++ quiet = before ++ .drained now :: after) :
    ∃ mid, es = before ++ .drained now :: mid ∧ after = mid ++ quiet := by
  have hnot : Entry.drained now ∉ quiet := fun hmem => by simpa [Entry.isDrain] using hquiet _ hmem
  rcases List.append_eq_append_iff.mp h with ⟨mid, _, hmid⟩ | ⟨mid, hes, hafter⟩
  · exact absurd (by simp [hmid]) hnot
  · cases mid with
    | nil =>
      rw [List.nil_append] at hafter
      exact absurd (by simp [← hafter]) hnot
    | cons e mid =>
      rw [List.cons_append, List.cons.injEq] at hafter
      obtain ⟨rfl, rfl⟩ := hafter
      exact ⟨mid, hes, rfl⟩

theorem RunsInOrder.nil : RunsInOrder time R [] where
  first := rfl
  due before now after h := by simp at h

theorem RunsInOrder.schedule_all (h : RunsInOrder time R es) (l : List α) :
    RunsInOrder time R (es ++ l.map .scheduled) where
  first := by rw [block_append_scheduled, h.first]
  due before now after heq := by
    have hquiet : ∀ e ∈ l.map Entry.scheduled, e.isDrain = false := by
      intro e he
      obtain ⟨a, _, rfl⟩ := List.mem_map.mp he
      rfl
    obtain ⟨mid, hes, rfl⟩ := drained_of_append hquiet heq
    rw [block_append_scheduled]
    exact h.due before now mid hes

theorem RunsInOrder.drain (h : RunsInOrder time R es) {seg : List (Entry α)} (now : ℕ)
    (hseg : ∀ e ∈ seg, e.isDrain = false)
    (hl : ∃ l, DueOrder time l (waiting time es) now ∧ R (block seg) l) :
    RunsInOrder time R (es ++ .drained now :: seg) where
  first := by rw [block_append_drained, h.first]
  due before now' after heq := by
    rw [← List.singleton_append, ← List.append_assoc] at heq
    obtain ⟨mid, hmid, rfl⟩ := drained_of_append hseg heq
    cases mid using List.reverseRecOn with
    | nil =>
      obtain ⟨rfl, hnow⟩ := List.append_inj' hmid rfl
      cases hnow
      exact hl
    | append_singleton mid e =>
      rw [← List.cons_append, ← List.append_assoc] at hmid
      obtain ⟨hes, he⟩ := List.append_inj' hmid rfl
      cases he
      rw [List.append_assoc, List.singleton_append, block_append_drained]
      exact h.due before now' mid hes

theorem RunsInOrder.mono {R' : List α → List α → Prop} (h : RunsInOrder time R es)
    (hR : ∀ l l', R l l' → R' l l') : RunsInOrder time R' es where
  first := h.first
  due before now after heq := by
    obtain ⟨l, hl, hblock⟩ := h.due before now after heq
    exact ⟨l, hl, hR _ _ hblock⟩

theorem waiting_append_quiet {seg : List (Entry α)} (hseg : ∀ e ∈ seg, e.isDrain = false) :
    waiting time (es ++ seg) = waiting time es ++ seg.filterMap Entry.scheduled? := by
  induction seg generalizing es with
  | nil => simp
  | cons e seg ih =>
    have hrest := @ih (es ++ [e]) fun x hx => hseg x (List.mem_cons_of_mem _ hx)
    rw [← List.singleton_append, ← List.append_assoc, hrest]
    cases e with
    | scheduled a => simp [Entry.scheduled?]
    | drained now => simpa [Entry.isDrain] using hseg _ List.mem_cons_self
    | ran a =>
      rw [waiting_ran]
      rfl

theorem block_quiet {seg : List (Entry α)} (hseg : ∀ e ∈ seg, e.isDrain = false) :
    block seg = seg.filterMap Entry.ran? := by
  rw [block, List.takeWhile_eq_self_iff.mpr]
  intro e he
  simp [hseg e he]

theorem exists_last_drain (h : es.countP Entry.isDrain ≠ 0) :
    ∃ before now seg, es = before ++ .drained now :: seg ∧ ∀ e ∈ seg, e.isDrain = false := by
  induction es using List.reverseRecOn with
  | nil => simp at h
  | append_singleton es e ih =>
    by_cases he : e.isDrain
    · cases e with
      | drained now => exact ⟨es, now, [], rfl, by simp⟩
      | _ => cases he
    · obtain ⟨before, now, seg, rfl, hseg⟩ := ih (by simpa [List.countP_append, he] using h)
      refine ⟨before, now, seg ++ [e], by simp, fun x hx => ?_⟩
      rcases List.mem_append.mp hx with hx | hx
      · exact hseg x hx
      · rw [List.mem_singleton.mp hx]
        simpa using he

/-- Lists that agree on the elements of every time have the same elements. -/
theorem perm_of_filter_eq {l l' : List α}
    (h : ∀ t, l.filter (time · = t) = l'.filter (time · = t)) : l.Perm l' := by
  classical
  rw [List.perm_iff_count]
  intro a
  have hcount (l : List α) : l.count a = (l.filter (time · = time a)).count a := by
    rw [List.count_filter]
    simp
  rw [hcount l, hcount l', h]

theorem DueOrder.perm {l waits : List α} (h : DueOrder time l waits now) :
    l.Perm (waits.filter (time · ≤ now)) := by
  apply perm_of_filter_eq
  intro t
  rw [h.stable, List.filter_filter]
  apply List.filter_congr
  intro a _
  by_cases ha : time a = t
  · simp [ha]
  · simp [ha]

/-- What was scheduled has run or is waiting, each as often as it was scheduled. -/
theorem RunsInOrder.perm (h : RunsInOrder time (· = ·) es) :
    (es.filterMap Entry.ran? ++ waiting time es).Perm (es.filterMap Entry.scheduled?) := by
  generalize hn : es.countP Entry.isDrain = n
  induction n generalizing es with
  | zero =>
    have hquiet : ∀ e ∈ es, e.isDrain = false := by
      simpa using List.countP_eq_zero.mp hn
    have hwaiting := @waiting_append_quiet _ time [] _ hquiet
    rw [List.nil_append] at hwaiting
    rw [← block_quiet hquiet, h.first, hwaiting]
    simp [waiting]
  | succ n ih =>
    obtain ⟨before, now, seg, rfl, hseg⟩ := exists_last_drain (by omega : es.countP _ ≠ 0)
    have hcount : before.countP Entry.isDrain = n := by
      have hzero : seg.countP Entry.isDrain = 0 := List.countP_eq_zero.mpr (by simpa using hseg)
      rw [List.countP_append, List.countP_cons_of_pos rfl, hzero] at hn
      omega
    have hbefore : RunsInOrder time (· = ·) before :=
      { first := by rw [← h.first, block_append_drained]
        due := fun b m a heq => by
          obtain ⟨l, hl, hblock⟩ := h.due b m (a ++ .drained now :: seg) (by simp [heq])
          exact ⟨l, hl, by rwa [block_append_drained] at hblock⟩ }
    obtain ⟨l, hl, hblock⟩ := h.due before now seg rfl
    rw [block_quiet hseg] at hblock
    have hwaiting : waiting time (before ++ .drained now :: seg) =
        (waiting time before).filter (now < time ·) ++ seg.filterMap Entry.scheduled? := by
      rw [← List.singleton_append, ← List.append_assoc, waiting_append_quiet hseg, waiting_drained]
    rw [hwaiting, List.filterMap_append, List.filterMap_append, List.filterMap_cons_none rfl,
      List.filterMap_cons_none rfl, hblock]
    have hsplit : (l ++ (waiting time before).filter (now < time ·)).Perm (waiting time before) := by
      have hfilter := List.filter_append_perm (fun a => decide (time a ≤ now)) (waiting time before)
      simp only [← decide_not, Nat.not_le] at hfilter
      exact (hl.perm.append_right _).trans hfilter
    calc before.filterMap Entry.ran? ++ l ++
          ((waiting time before).filter (now < time ·) ++ seg.filterMap Entry.scheduled?)
      _ = before.filterMap Entry.ran? ++ (l ++ (waiting time before).filter (now < time ·)) ++
          seg.filterMap Entry.scheduled? := by simp only [List.append_assoc]
      List.Perm _ (before.filterMap Entry.ran? ++ waiting time before ++
          seg.filterMap Entry.scheduled?) := (hsplit.append_left _).append_right _
      List.Perm _ (before.filterMap Entry.scheduled? ++ seg.filterMap Entry.scheduled?) :=
          (ih hbefore hcount).append_right _

end TimerQueue
