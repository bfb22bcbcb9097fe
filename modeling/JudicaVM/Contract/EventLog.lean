import JudicaVM.Lib.Json
import JudicaVM.Lib.Transition
import Mathlib.Data.List.Induction
import Mathlib.Logic.Function.Basic

/-!
# The event log

Writers insert occurrences into groups, each in one statement or in a transaction that is committed
or rolled back. A processor polls the occurrences of its group after the last one that it has sent,
and sends their events to the event loop one after the other.
-/

namespace JudicaVM

open Serde Transition

structure Occurrence where
  data : Json
  time : ℤ
  typeid : String
  uniqueTag : Option String

structure OccurrenceRow where
  id : ℕ
  occurrence : Occurrence
  group : ℕ

/-- How the data of an occurrence is read as an event, and whether a tag can be read. -/
structure EventCodec (Ev : Type) where
  event : Json → Option Ev
  tag : String → Bool

inductive OccurrenceConversionError
  | deserializationError
  | typeidMismatch (expected got : String)
  deriving DecidableEq

def litigatorEvent : String := "LitigatorEvent"

/-- `TaggedEvent::from_occurrence`, without the tag, of which the processor makes no use. -/
def EventCodec.fromOccurrence {Ev : Type} (K : EventCodec Ev) (o : Occurrence) :
    Except OccurrenceConversionError Ev :=
  match K.event o.data with
  | none => .error .deserializationError
  | some ev =>
    if o.typeid ≠ litigatorEvent then .error (.typeidMismatch o.typeid litigatorEvent)
    else match o.uniqueTag with
      | none => .ok ev
      | some t => if K.tag t then .ok ev else .error .deserializationError

/-- What is sent for a row, unless the row is not an event. -/
def OccurrenceRow.event? {Ev : Type} (K : EventCodec Ev) (r : OccurrenceRow) : Option Ev :=
  (K.fromOccurrence r.occurrence).toOption

/-- The committed rows and the row of the transaction that is open. -/
structure EventLog where
  groups : List (ℕ × String)
  occurrences : List OccurrenceRow
  txn : Option OccurrenceRow

inductive OccurrenceError
  | alreadyExists
  | sql
  deriving DecidableEq

namespace EventLog

variable (l : EventLog)

/-- The group has a row with the tag, which must be a tag: absent ones do not count as equal. -/
def hasTag (group : ℕ) (tag : Option String) : Prop :=
  tag.isSome ∧ ∃ r ∈ l.occurrences, r.group = group ∧ r.occurrence.uniqueTag = tag

instance (group : ℕ) (tag : Option String) : Decidable (l.hasTag group tag) :=
  inferInstanceAs (Decidable (_ ∧ _))

/-- Ids grow in commit order. -/
def IsNextId (id : ℕ) : Prop :=
  0 < id ∧ id < 2 ^ 63 ∧ ∀ r ∈ l.occurrences, r.id < id

instance (id : ℕ) : Decidable (l.IsNextId id) :=
  inferInstanceAs (Decidable (_ ∧ _ ∧ _))

/-- The statement `new_occurrence.sql`: the group must exist and must not have the tag yet. -/
def newOccurrence (group : ℕ) (o : Occurrence) (id : ℕ) : Except OccurrenceError OccurrenceRow :=
  if group ∉ l.groups.map Prod.fst then .error .sql
  else if l.hasTag group o.uniqueTag then .error .alreadyExists
  else .ok ⟨id, o, group⟩

def insertOccurrence (group : ℕ) (o : Occurrence) (id : ℕ) :
    Except OccurrenceError ℕ × EventLog :=
  match l.newOccurrence group o id with
  | .ok row => (.ok id, { l with occurrences := l.occurrences ++ [row] })
  | .error e => (.error e, l)

/-- The transaction stays open when the statement succeeds. -/
def insertOccurrenceTxn (group : ℕ) (o : Occurrence) (id : ℕ) :
    Except OccurrenceError ℕ × EventLog :=
  match l.newOccurrence group o id with
  | .ok row => (.ok id, { l with txn := some row })
  | .error e => (.error e, l)

/-- `occurrence_for_group_after_id.sql` -/
def getOccurrencesForGroupAfterId (group after : ℕ) : List OccurrenceRow :=
  (l.occurrences.filter fun r => after < r.id && r.group = group).insertionSort
    fun a b => a.id ≤ b.id

end EventLog

/-- The id before that of any row. -/
def OccurrenceID.beforeFirstRow : ℕ := 0

/-- A task in `event_log_processor_inner`, with what it has sent. -/
structure Processor (Ev : Type) where
  group : ℕ
  last : ℕ
  toProcess : List OccurrenceRow
  running : Bool
  result : Except OccurrenceConversionError Unit
  sent : List Ev

structure LogSystem (Ev : Type) where
  log : EventLog
  processors : ℕ → Option (Processor Ev)

inductive LogSystem.Event
  | newGroup (id : ℕ) (key : String)
  | insert (group : ℕ) (o : Occurrence) (id : ℕ)
  | begin (group : ℕ) (o : Occurrence) (id : ℕ)
  | commit
  | rollback
  /-- A processor starts, for the first time or again. -/
  | start (i group : ℕ)
  /-- A processor wakes up, notified or not, and reads. -/
  | poll (i : ℕ)
  /-- The next row is sent, if it is an event and the receiver has not been dropped. -/
  | send (i : ℕ) (received : Bool)
  | stop (i : ℕ)

namespace Processor

variable {Ev : Type} (K : EventCodec Ev) (p : Processor Ev)

def new (group : ℕ) : Processor Ev :=
  ⟨group, OccurrenceID.beforeFirstRow, [], true, .ok (), []⟩

def stop (result : Except OccurrenceConversionError Unit) : Processor Ev :=
  { p with running := false, result }

/-- One turn of the loop over the rows that were read. -/
def sendNext (received : Bool) : Option (Processor Ev) :=
  match p.toProcess with
  | [] => none
  | row :: rest =>
    match K.fromOccurrence row.occurrence with
    | .error e => some (p.stop (.error e))
    | .ok ev =>
      if received then
        some { p with last := row.id, toProcess := rest, sent := p.sent ++ [ev] }
      else some (p.stop (.ok ()))

end Processor

namespace LogSystem

variable {Ev : Type} (K : EventCodec Ev) (s : LogSystem Ev)

def initial : LogSystem Ev := ⟨⟨[], [], none⟩, fun _ => none⟩

def set (i : ℕ) (p : Processor Ev) : LogSystem Ev :=
  { s with processors := Function.update s.processors i (some p) }

/-- Write transactions exclude each other. -/
def step : Event → Option (LogSystem Ev)
  | .newGroup id key =>
    if s.log.txn.isNone ∧ id ∉ s.log.groups.map Prod.fst ∧ key ∉ s.log.groups.map Prod.snd then
      some { s with log := { s.log with groups := s.log.groups ++ [(id, key)] } }
    else none
  | .insert group o id =>
    if s.log.txn.isNone ∧ s.log.IsNextId id then
      some { s with log := (s.log.insertOccurrence group o id).2 }
    else none
  | .begin group o id =>
    if s.log.txn.isNone ∧ s.log.IsNextId id then
      some { s with log := (s.log.insertOccurrenceTxn group o id).2 }
    else none
  | .commit =>
    s.log.txn.map fun row =>
      { s with log := { s.log with occurrences := s.log.occurrences ++ [row], txn := none } }
  | .rollback => s.log.txn.map fun _ => { s with log := { s.log with txn := none } }
  | .start i group =>
    match s.processors i with
    | none => some (s.set i (.new group))
    | some _ => none
  | .poll i =>
    match s.processors i with
    | some p =>
      if p.running ∧ p.toProcess = [] then
        some (s.set i
          { p with toProcess := s.log.getOccurrencesForGroupAfterId p.group p.last })
      else none
    | none => none
  | .send i received =>
    match s.processors i with
    | some p => if p.running then (p.sendNext K received).map (s.set i) else none
    | none => none
  | .stop i => (s.processors i).map fun p => s.set i (p.stop p.result)

end LogSystem

section

variable {Ev : Type} {K : EventCodec Ev}

namespace EventLog

variable {l l' : EventLog} {group last id : ℕ} {o : Occurrence} {row r : OccurrenceRow}
  {done later : List OccurrenceRow}

def rowsOf (l : EventLog) (group : ℕ) : List OccurrenceRow :=
  l.occurrences.filter (·.group = group)

/-- Committed rows have positive ids that grow, and no group has a tag twice. -/
structure Ordered (l : EventLog) : Prop where
  sorted : l.occurrences.Pairwise fun a b => a.id < b.id
  positive : ∀ r ∈ l.occurrences, 0 < r.id
  tags : l.occurrences.Pairwise fun a b => a.group = b.group →
    a.occurrence.uniqueTag = b.occurrence.uniqueTag → a.occurrence.uniqueTag = none
  txn : ∀ row, l.txn = some row →
    l.IsNextId row.id ∧ ¬l.hasTag row.group row.occurrence.uniqueTag

/-- The last id of the rows that were sent. -/
def lastId (done : List OccurrenceRow) : ℕ :=
  (done.getLast?.map OccurrenceRow.id).getD OccurrenceID.beforeFirstRow

private theorem Ordered.rowsOf_sorted (hl : l.Ordered) :
    (l.rowsOf group).Pairwise fun a b => a.id < b.id :=
  hl.sorted.filter _

private theorem lastId_concat : lastId (done ++ [row]) = row.id := by
  simp [lastId]

private theorem Ordered.query_eq (hl : l.Ordered) (hrows : l.rowsOf group = done ++ later) :
    l.getOccurrencesForGroupAfterId group (lastId done) = later := by
  have hsorted : (l.rowsOf group).Pairwise fun a b => a.id < b.id := hl.rowsOf_sorted
  rw [hrows] at hsorted
  obtain ⟨hdone, hlater, hbetween⟩ := List.pairwise_append.mp hsorted
  have hold : ∀ r ∈ done, r.id ≤ lastId done := by
    intro r hr
    cases done using List.reverseRecOn with
    | nil => exact absurd hr List.not_mem_nil
    | append_singleton done last =>
      rw [lastId_concat]
      apply (List.mem_append.mp hr).elim
      · intro hmem
        have hbefore := (List.pairwise_append.mp hdone).2.2 r hmem last
        exact Nat.le_of_lt (hbefore (List.mem_singleton_self _))
      · intro hmem
        rw [List.mem_singleton.mp hmem]
  have hnew : ∀ r ∈ later, lastId done < r.id := by
    intro r hr
    cases done using List.reverseRecOn with
    | nil =>
      have hmem : r ∈ l.rowsOf group := by
        rw [hrows]
        exact hr
      exact hl.positive r (List.mem_of_mem_filter hmem)
    | append_singleton done last =>
      rw [lastId_concat]
      exact hbetween last (List.mem_append_right _ (List.mem_singleton_self _)) r hr
  have hquery : (l.occurrences.filter fun r => lastId done < r.id && r.group = group) = later := by
    rw [← List.filter_filter, ← rowsOf, hrows, List.filter_append,
      List.filter_eq_nil_iff.mpr, List.filter_eq_self.mpr, List.nil_append]
    · exact fun r hr => decide_eq_true (hnew r hr)
    · intro r hr
      simpa using hold r hr
  rw [getOccurrencesForGroupAfterId, hquery]
  exact (hlater.imp Nat.le_of_lt).insertionSort_eq

theorem Ordered.query_all (hl : l.Ordered) :
    l.getOccurrencesForGroupAfterId group OccurrenceID.beforeFirstRow = l.rowsOf group := by
  have hrows : l.rowsOf group = [] ++ l.rowsOf group := rfl
  exact hl.query_eq hrows

theorem Ordered.snoc (hl : l.Ordered) (hid : l.IsNextId row.id)
    (htag : ¬l.hasTag row.group row.occurrence.uniqueTag) :
    (⟨l.groups, l.occurrences ++ [row], none⟩ : EventLog).Ordered where
  sorted := by
    apply List.pairwise_append.mpr ⟨hl.sorted, List.pairwise_singleton _ _, _⟩
    intro a ha b hb
    rw [List.mem_singleton.mp hb]
    exact hid.2.2 a ha
  positive := by
    intro r hr
    apply (List.mem_append.mp hr).elim (hl.positive r)
    intro hnew
    rw [List.mem_singleton.mp hnew]
    exact hid.1
  tags := by
    apply List.pairwise_append.mpr ⟨hl.tags, List.pairwise_singleton _ _, _⟩
    intro a ha b hb hgroup hsame
    rw [List.mem_singleton.mp hb] at hgroup hsame
    by_contra hsome
    apply htag
    constructor
    · rw [← hsame]
      exact Option.isSome_iff_ne_none.mpr hsome
    · exact ⟨a, ha, hgroup, hsame⟩
  txn := by
    intro row h
    cases h

theorem newOccurrence_eq_ok (h : l.newOccurrence group o id = .ok row) :
    row = ⟨id, o, group⟩ ∧ ¬l.hasTag group o.uniqueTag := by
  unfold newOccurrence at h
  split_ifs at h with _ htag
  exact ⟨(Except.ok.inj h).symm, htag⟩

theorem insertOccurrence_cases : (l.insertOccurrence group o id).2 = l ∨
    ¬l.hasTag group o.uniqueTag ∧ (l.insertOccurrence group o id).2 =
      ⟨l.groups, l.occurrences ++ [⟨id, o, group⟩], l.txn⟩ := by
  unfold insertOccurrence
  cases hnew : l.newOccurrence group o id with
  | error e => exact .inl rfl
  | ok row =>
    obtain ⟨rfl, htag⟩ := newOccurrence_eq_ok hnew
    exact .inr ⟨htag, rfl⟩

theorem insertOccurrenceTxn_cases : (l.insertOccurrenceTxn group o id).2 = l ∨
    ¬l.hasTag group o.uniqueTag ∧ (l.insertOccurrenceTxn group o id).2 =
      ⟨l.groups, l.occurrences, some ⟨id, o, group⟩⟩ := by
  unfold insertOccurrenceTxn
  cases hnew : l.newOccurrence group o id with
  | error e => exact .inl rfl
  | ok row =>
    obtain ⟨rfl, htag⟩ := newOccurrence_eq_ok hnew
    exact .inr ⟨htag, rfl⟩

end EventLog

/-- The rows of the group are those that were sent, those that were read and others, and the cursor
is at the last one that was sent. -/
def Processor.Follows (K : EventCodec Ev) (l : EventLog) (p : Processor Ev) : Prop :=
  ∃ done later, l.rowsOf p.group = done ++ p.toProcess ++ later ∧
    p.sent.map some = done.map (OccurrenceRow.event? K) ∧ p.last = EventLog.lastId done

namespace Processor.Follows

variable {l l' : EventLog} {p p' : Processor Ev}

private theorem new (group : ℕ) : (Processor.new group : Processor Ev).Follows K l :=
  ⟨[], l.rowsOf group, rfl, rfl, rfl⟩

private theorem stop (h : p.Follows K l) (result : Except OccurrenceConversionError Unit) :
    (p.stop result).Follows K l :=
  h

theorem grow (h : p.Follows K l) (hgrows : l.occurrences <+: l'.occurrences) :
    p.Follows K l' := by
  obtain ⟨done, later, hrows, hsent, hlast⟩ := h
  obtain ⟨added, hadded⟩ := hgrows
  refine ⟨done, later ++ added.filter (·.group = p.group), ?_, hsent, hlast⟩
  rw [EventLog.rowsOf, ← hadded, List.filter_append, ← EventLog.rowsOf, hrows, List.append_assoc]

private theorem poll (h : p.Follows K l) (hl : l.Ordered) (hread : p.toProcess = []) :
    Processor.Follows K l
      { p with toProcess := l.getOccurrencesForGroupAfterId p.group p.last } := by
  obtain ⟨done, later, hrows, hsent, hlast⟩ := h
  rw [hread, List.append_nil] at hrows
  refine ⟨done, [], ?_, hsent, hlast⟩
  rw [hlast, hl.query_eq hrows, List.append_nil]
  exact hrows

private theorem sendNext (h : p.Follows K l) {received : Bool}
    (hsend : p.sendNext K received = some p') :
    p'.Follows K l := by
  obtain ⟨done, later, hrows, hsent, hlast⟩ := id h
  unfold Processor.sendNext at hsend
  cases hread : p.toProcess with
  | nil =>
    rw [hread] at hsend
    cases hsend
  | cons row rest =>
    rw [hread] at hsend
    cases hevent : K.fromOccurrence row.occurrence with
    | error e =>
      simp only [hevent, Option.some.injEq] at hsend
      rw [← hsend]
      exact h.stop _
    | ok ev =>
      simp only [hevent] at hsend
      cases received with
      | false =>
        obtain rfl := Option.some.inj hsend
        exact h.stop _
      | true =>
        obtain rfl := Option.some.inj hsend
        -- the row is sent and the cursor moves to it
        refine ⟨done ++ [row], later, ?_, ?_, EventLog.lastId_concat.symm⟩
        · show l.rowsOf p.group = done ++ [row] ++ rest ++ later
          rw [hrows, hread, List.append_assoc done [row], List.singleton_append]
        · show (p.sent ++ [ev]).map some = (done ++ [row]).map (OccurrenceRow.event? K)
          have hrow : OccurrenceRow.event? K row = some ev := by
            rw [OccurrenceRow.event?, hevent]
            rfl
          rw [List.map_append, List.map_append, hsent, List.map_singleton, List.map_singleton, hrow]

theorem delivered (h : p.Follows K l) :
    p.sent.map some <+: (l.rowsOf p.group).map (OccurrenceRow.event? K) := by
  obtain ⟨done, later, hrows, hsent, _⟩ := h
  rw [hrows, hsent, List.append_assoc, List.map_append]
  exact List.prefix_append _ _

end Processor.Follows

namespace LogSystem

variable {s s' : LogSystem Ev} {ev : LogSystem.Event}

/-- What every processor has sent is a part at the beginning of the committed rows of its group in
the order of their ids, each of them once, and its next poll reads exactly the others; a group has a
tag at most once; and of two processors of one group, one has sent what the other has, and perhaps
more. -/
structure Delivers (K : EventCodec Ev) (s : LogSystem Ev) : Prop where
  delivered : ∀ i p, s.processors i = some p → p.sent.map some <+:
    (s.log.getOccurrencesForGroupAfterId p.group OccurrenceID.beforeFirstRow).map
      (OccurrenceRow.event? K)
  unread : ∀ i p, s.processors i = some p → p.toProcess = [] →
    (s.log.getOccurrencesForGroupAfterId p.group OccurrenceID.beforeFirstRow).map
      (OccurrenceRow.event? K) = p.sent.map some ++
        (s.log.getOccurrencesForGroupAfterId p.group p.last).map (OccurrenceRow.event? K)
  all : ∀ group r, r ∈ s.log.getOccurrencesForGroupAfterId group OccurrenceID.beforeFirstRow ↔
    r ∈ s.log.occurrences ∧ r.group = group
  ordered : ∀ group, (s.log.getOccurrencesForGroupAfterId group
    OccurrenceID.beforeFirstRow).Pairwise fun a b => a.id < b.id
  tags : s.log.occurrences.Pairwise fun a b => a.group = b.group →
    a.occurrence.uniqueTag = b.occurrence.uniqueTag → a.occurrence.uniqueTag = none
  again : ∀ i j p q, s.processors i = some p → s.processors j = some q → p.group = q.group →
    p.sent <+: q.sent ∨ q.sent <+: p.sent

/-- The log is ordered and every processor follows it. -/
structure Inv (K : EventCodec Ev) (s : LogSystem Ev) : Prop where
  ordered : s.log.Ordered
  follows : ∀ i p, s.processors i = some p → p.Follows K s.log

theorem initial_inv : (initial : LogSystem Ev).Inv K where
  ordered := ⟨.nil, by simp [initial], .nil, by simp [initial]⟩
  follows := by
    intro i p h
    cases h

private theorem Inv.set (h : s.Inv K) {i : ℕ} {p : Processor Ev} (hp : p.Follows K s.log) :
    (s.set i p).Inv K where
  ordered := h.ordered
  follows := by
    intro j q hq
    by_cases hj : j = i
    · obtain rfl : p = q := by simpa [LogSystem.set, hj] using hq
      exact hp
    · apply h.follows j q
      simpa [LogSystem.set, hj] using hq

private theorem Inv.write (h : s.Inv K) {log : EventLog} (hordered : log.Ordered)
    (hgrows : s.log.occurrences <+: log.occurrences) : Inv K { s with log } where
  ordered := hordered
  follows i p hp := (h.follows i p hp).grow hgrows

private theorem Inv.insert (h : s.Inv K) {group id : ℕ} {o : Occurrence} (hopen : s.log.txn = none)
    (hid : s.log.IsNextId id) : Inv K { s with log := (s.log.insertOccurrence group o id).2 } := by
  apply (EventLog.insertOccurrence_cases (l := s.log)).elim
  · intro hsame
    rw [hsame]
    exact h
  · intro hstored
    rw [hstored.2]
    apply h.write
    · rw [hopen]
      exact h.ordered.snoc hid hstored.1
    · exact List.prefix_append _ _

private theorem Inv.begin (h : s.Inv K) {group id : ℕ} {o : Occurrence} (hid : s.log.IsNextId id) :
    Inv K { s with log := (s.log.insertOccurrenceTxn group o id).2 } := by
  apply (EventLog.insertOccurrenceTxn_cases (l := s.log)).elim
  · intro hsame
    rw [hsame]
    exact h
  · intro hheld
    rw [hheld.2]
    apply h.write
    · refine ⟨h.ordered.sorted, h.ordered.positive, h.ordered.tags, ?_⟩
      intro row hrow
      obtain rfl := Option.some.inj hrow
      exact ⟨hid, hheld.1⟩
    · exact List.prefix_rfl

theorem Inv.step (h : s.Inv K) (hstep : s.step K ev = some s') : s'.Inv K := by
  cases ev with
  | newGroup id key =>
    simp only [LogSystem.step] at hstep
    split_ifs at hstep
    obtain rfl := Option.some.inj hstep
    exact h.write ⟨h.ordered.sorted, h.ordered.positive, h.ordered.tags, h.ordered.txn⟩
      List.prefix_rfl
  | insert group o id =>
    simp only [LogSystem.step] at hstep
    split_ifs at hstep with hguard
    obtain rfl := Option.some.inj hstep
    exact h.insert (Option.isNone_iff_eq_none.mp hguard.1) hguard.2
  | begin group o id =>
    simp only [LogSystem.step] at hstep
    split_ifs at hstep with hguard
    obtain rfl := Option.some.inj hstep
    exact h.begin hguard.2
  | commit =>
    obtain ⟨row, hrow, rfl⟩ := Option.map_eq_some_iff.mp hstep
    obtain ⟨hid, htag⟩ := h.ordered.txn row hrow
    exact h.write (h.ordered.snoc hid htag) (List.prefix_append _ _)
  | rollback =>
    obtain ⟨row, hrow, rfl⟩ := Option.map_eq_some_iff.mp hstep
    apply h.write
    · refine ⟨h.ordered.sorted, h.ordered.positive, h.ordered.tags, ?_⟩
      intro row h
      cases h
    · exact List.prefix_rfl
  | start i group =>
    simp only [LogSystem.step] at hstep
    split at hstep
    · obtain rfl := Option.some.inj hstep
      exact h.set (.new group)
    · cases hstep
  | poll i =>
    simp only [LogSystem.step] at hstep
    split at hstep
    · rename_i p hp
      split_ifs at hstep with hguard
      obtain rfl := Option.some.inj hstep
      exact h.set ((h.follows i p hp).poll h.ordered hguard.2)
    · cases hstep
  | send i received =>
    simp only [LogSystem.step] at hstep
    split at hstep
    · rename_i p hp
      split_ifs at hstep
      obtain ⟨p', hsend, rfl⟩ := Option.map_eq_some_iff.mp hstep
      exact h.set ((h.follows i p hp).sendNext hsend)
    · cases hstep
  | stop i =>
    obtain ⟨p, hp, rfl⟩ := Option.map_eq_some_iff.mp hstep
    exact h.set ((h.follows i p hp).stop _)

theorem Inv.delivers (h : s.Inv K) : s.Delivers K where
  delivered := by
    intro i p hp
    rw [h.ordered.query_all]
    exact (h.follows i p hp).delivered
  unread := by
    intro i p hp hread
    obtain ⟨done, later, hrows, hsent, hlast⟩ := h.follows i p hp
    rw [hread, List.append_nil] at hrows
    rw [h.ordered.query_all, hlast, h.ordered.query_eq hrows, hrows, hsent, List.map_append]
  all := by
    intro group r
    rw [h.ordered.query_all, EventLog.rowsOf, List.mem_filter, decide_eq_true_iff]
  ordered := by
    intro group
    rw [h.ordered.query_all]
    exact h.ordered.rowsOf_sorted
  tags := h.ordered.tags
  again := by
    intro i j p q hp hq hgroup
    have hsent := (h.follows i p hp).delivered
    have hsent' := (h.follows j q hq).delivered
    rw [hgroup] at hsent
    -- both are parts at the beginning of the same rows
    have hboth := List.prefix_or_prefix_of_prefix hsent hsent'
    apply hboth.imp
    · intro hprefix
      simpa using hprefix.filterMap id
    · intro hprefix
      simpa using hprefix.filterMap id

end LogSystem

/-- Whatever the writers do and whenever the processors poll, events are delivered in order and
exactly once. -/
theorem events_delivered (K : EventCodec Ev) (evs : List LogSystem.Event) :
    Throughout (fun s ev => LogSystem.step K s ev) (LogSystem.Delivers K) evs .initial :=
  throughout_of_invariant (fun _ _ _ h hstep => h.step hstep) (fun _ h => h.delivers)
    LogSystem.initial_inv

end

end JudicaVM
