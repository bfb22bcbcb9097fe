import JudicaVM.Contract.EventLog
import JudicaVM.Contract.Recompilation

/-!
# Litigators

A litigator is a processor of the event log with the event loop to which it sends. Litigators start,
crash and start again while others write to the log, and the handler of a periodic action writes to
it. What a litigator knows is not stored anywhere: it is computed again from the log.
-/

namespace JudicaVM

open Checked Loop Serde Transition

variable {S : Sapio}

/-- How the data of an occurrence is read as an event or as a module. -/
structure LitigationCodec (S : Sapio) where
  events : EventCodec (LitigatorEvent S)
  module : Json → Option S.Bytes

def moduleRepo : String := "ModuleRepo"

/-- `ToOccurrence::from_occurrence` of a `ModuleRepo` -/
def LitigationCodec.moduleFromOccurrence (K : LitigationCodec S) (o : Occurrence) :
    Except OccurrenceConversionError S.Bytes :=
  match K.module o.data with
  | none => .error .deserializationError
  | some bytes =>
    if o.typeid ≠ moduleRepo then .error (.typeidMismatch o.typeid moduleRepo) else .ok bytes

namespace EventLog

variable (l : EventLog)

/-- `occurrence_group_by_key.sql` -/
def getOccurrenceGroupByKey (key : String) : Option ℕ :=
  (l.groups.find? fun g => g.2 = key).map Prod.fst

/-- `occurrence_for_group_by_tag.sql` -/
def getOccurrenceForGroupByTag (group : ℕ) (tag : String) : Option OccurrenceRow :=
  l.occurrences.find? fun r => r.group = group && r.occurrence.uniqueTag = some tag

/-- What the log answers to a handler. -/
def answers (K : LitigationCodec S) (keymap : Bool) (processes : ℕ → S.LinkedPSBT → Bool) :
    Answers S where
  moduleBytes group tag := do
    let gid ← l.getOccurrenceGroupByKey group
    let r ← l.getOccurrenceForGroupByTag gid tag
    (K.moduleFromOccurrence r.occurrence).toOption
  keymap
  processes

/-- The keys can be read, and every transaction is processed. -/
def fullAnswers (K : LitigationCodec S) : Answers S :=
  l.answers K true fun _ _ => true

/-- The first rows of a group as a new litigator handles them. -/
def replayed (K : LitigationCodec S) (group k : ℕ) : List (Answers S × LitigatorEvent S) :=
  ((l.rowsOf group).take k).filterMap fun r =>
    (r.event? K.events).map fun ev => (l.fullAnswers K, ev)

/-- Groups and occurrences are added after the others. -/
structure Extends (l l' : EventLog) : Prop where
  groups : l.groups <+: l'.groups
  occurrences : l.occurrences <+: l'.occurrences

end EventLog

/-- The processors and the event loops to which they send. -/
structure Litigation (S : Sapio) where
  logs : LogSystem (LitigatorEvent S)
  loops : ℕ → LitigatedState S ⊕ LitigatedState.End S

inductive Litigation.Event (S : Sapio)
  | log (ev : LogSystem.Event)
  /-- The handler of a periodic action commits an entry for a transaction. -/
  | emit (i : ℕ) (o : Occurrence) (id : ℕ)
  /-- A loop handles the next event, whether the keys can be read and transactions are processed or
  not. -/
  | receive (i : ℕ) (keymap : Bool) (processes : ℕ → S.LinkedPSBT → Bool)
  /-- A loop goes round after its processor has ended. -/
  | closed (i : ℕ)

def LitigatorEvent.isEmission : LitigatorEvent S → Bool
  | .emittedPSBTVia => true
  | _ => false

/-- What is sent for the row is `Event::EmittedPSBTVia`. -/
def OccurrenceRow.IsEmission (K : LitigationCodec S) (r : OccurrenceRow) : Prop :=
  (r.event? K.events).any LitigatorEvent.isEmission

instance (K : LitigationCodec S) (r : OccurrenceRow) : Decidable (r.IsEmission K) :=
  inferInstanceAs (Decidable (_ = true))

namespace Litigation

variable (K : LitigationCodec S) (w : Litigation S)

def initial : Litigation S := ⟨.initial, fun _ => .inl .initial⟩

def set (i : ℕ) (loop : LitigatedState S ⊕ LitigatedState.End S) : Litigation S :=
  { w with loops := Function.update w.loops i loop }

def step : Event S → Option (Litigation S)
  | .log ev => (w.logs.step K.events ev).map fun logs => { w with logs }
  | .emit i o id =>
    match w.logs.processors i, w.loops i with
    | some p, .inl s =>
      match p.sent[s.handled.length]? with
      | some (.syntheticPeriodicActions _) =>
        if s.program.isEmpty = false ∧ (⟨id, o, p.group⟩ : OccurrenceRow).IsEmission K then
          (w.logs.step K.events (.insert p.group o id)).map fun logs => { w with logs }
        else none
      | _ => none
    | _, _ => none
  | .receive i keymap processes =>
    match w.logs.processors i, w.loops i with
    | some p, .inl s => p.sent[s.handled.length]?.map fun ev =>
        w.set i (LitigatedState.turn (some (w.logs.log.answers K keymap processes, ev)) s)
    | _, _ => none
  | .closed i =>
    match w.logs.processors i, w.loops i with
    | some p, .inl s =>
      if p.running = false ∧ s.handled.length = p.sent.length then
        some (w.set i (LitigatedState.turn none s))
      else none
    | _, _ => none

/-- Another state is reached by events of some kind. -/
def Reaches (P : Event S → Prop) : Litigation S → Litigation S → Prop :=
  Run (fun w ev w' => w.step K ev = some w') P

end Litigation

/-- Whatever the first answers give, the others give too. -/
structure Answers.Le (a a' : Answers S) : Prop where
  moduleBytes : ∀ group tag bytes, a.moduleBytes group tag = some bytes →
    a'.moduleBytes group tag = some bytes
  keymap : a.keymap → a'.keymap
  processes : ∀ n tx, a.processes n tx → a'.processes n tx

namespace EventLog

variable {l l' l'' : EventLog} {K : LitigationCodec S} {keymap : Bool}
  {processes : ℕ → S.LinkedPSBT → Bool}

private theorem Extends.refl (l : EventLog) : l.Extends l := ⟨List.prefix_rfl, List.prefix_rfl⟩

private theorem Extends.trans (h : l.Extends l') (h' : l'.Extends l'') : l.Extends l'' :=
  ⟨h.groups.trans h'.groups, h.occurrences.trans h'.occurrences⟩

private theorem find?_of_extended {α : Type} {p : α → Bool} {xs ys : List α} {x : α} (h : xs <+: ys)
    (hx : xs.find? p = some x) : ys.find? p = some x := by
  obtain ⟨zs, rfl⟩ := h
  rw [List.find?_append, hx, Option.some_or]

theorem Extends.answers (h : l.Extends l') :
    (l.answers K keymap processes).Le (l'.fullAnswers K) where
  moduleBytes := by
    intro group tag bytes hfound
    obtain ⟨gid, hgid, hrow⟩ := Option.bind_eq_some_iff.mp hfound
    obtain ⟨r, hr, hbytes⟩ := Option.bind_eq_some_iff.mp hrow
    obtain ⟨g, hg, rfl⟩ := Option.map_eq_some_iff.mp hgid
    have hgid' : l'.getOccurrenceGroupByKey group = some g.1 := by
      rw [getOccurrenceGroupByKey, find?_of_extended h.groups hg, Option.map_some]
    have hr' : l'.getOccurrenceForGroupByTag g.1 tag = some r :=
      find?_of_extended h.occurrences hr
    exact Option.bind_eq_some_iff.mpr ⟨g.1, hgid', Option.bind_eq_some_iff.mpr ⟨r, hr', hbytes⟩⟩
  keymap := fun _ => rfl
  processes := fun _ _ _ => rfl

end EventLog

namespace LitigatedState

variable {s s' : LitigatedState S} {a a' : Answers S} {ev : LitigatorEvent S}
  {evs : List (LitigatorEvent S)} {events : List (Answers S × LitigatorEvent S)} {n k : ℕ}

private theorem forM_processPsbtFailOk_of_le (ha : a.Le a') {l : List (S.LinkedPSBT × ℕ)} {u : Unit}
    (h : l.forM (processPsbtFailOk a) = .ok u) : l.forM (processPsbtFailOk a') = .ok u := by
  induction l with
  | nil => exact h
  | cons entry l ih =>
    obtain ⟨_, hfirst, hrest⟩ := bind_eq_ok_iff.mp h
    refine bind_eq_ok_iff.mpr ⟨(), ?_, ih hrest⟩
    unfold processPsbtFailOk at hfirst ⊢
    split_ifs at hfirst with hprocesses
    exact if_pos (ha.processes _ _ hprocesses)

private theorem handle_of_le (ha : a.Le a') (h : s.handle a ev = .ok (.ok s')) :
    s.handle a' ev = .ok (.ok s') := by
  cases ev with
  | emittedPSBTVia => exact h
  | transactionFinalized => exact h
  | rebind o => exact h
  | createArgs args => exact h
  | newRecompileTriggeringObservation newInfo filter => exact h
  | moduleBytes group tag =>
    have hok : s.handleModuleBytes a group tag = .ok s' := Except.ok.inj h
    show Except.ok (s.handleModuleBytes a' group tag) = _
    unfold handleModuleBytes at hok ⊢
    cases hbytes : a.moduleBytes group tag with
    | none =>
      rw [hbytes] at hok
      cases hok
    | some bytes =>
      rw [hbytes] at hok
      rw [ha.moduleBytes group tag bytes hbytes, hok]
  | syntheticPeriodicActions time =>
    have hok : s.handleSyntheticPeriodic a = .ok (.ok s') := h
    show s.handleSyntheticPeriodic a' = _
    unfold handleSyntheticPeriodic at hok ⊢
    cases hbound : s.boundTo with
    | none =>
      rw [hbound] at hok
      exact hok
    | some out =>
      cases hcontract : s.contract with
      | error e =>
        rw [hbound, hcontract] at hok
        cases Except.ok.inj hok
      | ok c =>
        cases hbind : S.bindPsbt c out with
        | none =>
          simp only [hbound, hcontract, hbind] at hok ⊢
          exact hok
        | some program =>
          simp only [hbound, hcontract, hbind] at hok ⊢
          split_ifs at hok with hkeymap
          · obtain ⟨u, hall, hok⟩ := bind_eq_ok_iff.mp hok
            rw [if_neg (not_not.mpr (ha.keymap hkeymap))]
            exact bind_eq_ok_iff.mpr ⟨u, forM_processPsbtFailOk_of_le ha hall, hok⟩
          · cases Except.ok.inj hok

private theorem turn_of_le (ha : a.Le a') (h : turn (some (a, ev)) s = .inl s') :
    turn (some (a', ev)) s = .inl s' := by
  obtain ⟨next, hhandle, rfl⟩ := turn_eq_inl h
  have hhandle' := handle_of_le ha hhandle
  simp only [turn, hhandle] at h
  simp only [turn, hhandle', h]

theorem eventLoop_of_le (ha : a.Le a') (h : eventLoop (evs.map (a, ·)) n = .inl s) :
    eventLoop (evs.map (a', ·)) n = .inl s := by
  apply rounds_imp _ h
  intro m _ t t' hturn
  rw [List.getElem?_map] at hturn ⊢
  cases hev : evs[m]? with
  | none =>
    rw [hev] at hturn
    exact hturn
  | some ev =>
    rw [hev] at hturn
    exact turn_of_le ha hturn

theorem eventLoop_append (more : List (Answers S × LitigatorEvent S)) (hn : n ≤ events.length)
    (h : eventLoop events n = .inl s) : eventLoop (events ++ more) n = .inl s := by
  apply rounds_imp _ h
  intro m hm t t' hturn
  rwa [List.getElem?_append_left (Nat.lt_of_lt_of_le hm hn)]

theorem eventLoop_quiet (h : eventLoop events n = .inl s) (hn : events.length ≤ n) :
    eventLoop events events.length = .inl { s with eventCounter := events.length } := by
  induction n generalizing s with
  | zero =>
    obtain rfl := Sum.inl.inj h
    rw [Nat.le_zero.mp hn]
    rfl
  | succ n ih =>
    obtain hlast | hlt := Nat.eq_or_lt_of_le hn
    · rw [hlast, h, ← (eventLoop_follows h).eventCounter]
    · obtain ⟨t, ht⟩ := rounds_of_le h (Nat.le_succ n)
      have hturn := (rounds_succ_of_inl ht).symm.trans h
      rw [List.getElem?_eq_none (Nat.le_of_lt_succ hlt)] at hturn
      obtain rfl := count_eq_inl hturn
      have hquiet := ih ht (Nat.le_of_lt_succ hlt)
      exact hquiet

end LitigatedState

/-- The event loop has handled events that its processor has sent, and a new litigator that handles
them with what is in the log now comes to the same state. -/
structure LitigatedState.Computed (K : LitigationCodec S) (l : EventLog)
    (p : Processor (LitigatorEvent S)) (s : LitigatedState S) : Prop where
  handled : s.handled <+: p.sent
  replayed : eventLoop (s.handled.map (l.fullAnswers K, ·)) s.eventCounter = .inl s
  counted : s.eventCounter = s.handled.length ∨
    s.handled.length ≤ s.eventCounter ∧ s.handled.length = p.sent.length ∧ p.running = false

namespace LitigatedState.Computed

variable {K : LitigationCodec S} {l l' : EventLog} {p p' : Processor (LitigatorEvent S)}
  {s s' : LitigatedState S} {ev : LitigatorEvent S} {keymap : Bool}
  {processes : ℕ → S.LinkedPSBT → Bool}

private theorem initial (p : Processor (LitigatorEvent S)) :
    (LitigatedState.initial : LitigatedState S).Computed K l p :=
  ⟨List.nil_prefix, rfl, .inl rfl⟩

private theorem extend (h : s.Computed K l p) (hextends : l.Extends l') : s.Computed K l' p :=
  ⟨h.handled, eventLoop_of_le hextends.answers h.replayed, h.counted⟩

private theorem send (h : s.Computed K l p) (hsent : p.sent <+: p'.sent)
    (hended : p.running = false → p'.sent = p.sent ∧ p'.running = false) : s.Computed K l p' := by
  refine ⟨h.handled.trans hsent, h.replayed, h.counted.imp_right fun hquiet => ?_⟩
  obtain ⟨hle, hall, hstopped⟩ := hquiet
  obtain ⟨hsame, hstopped'⟩ := hended hstopped
  exact ⟨hle, hsame ▸ hall, hstopped'⟩

theorem receive (h : s.Computed K l p) (hnext : p.sent[s.handled.length]? = some ev)
    (hturn : turn (some (l.answers K keymap processes, ev)) s = .inl s') : s'.Computed K l p := by
  have hlt := (List.getElem?_eq_some_iff.mp hnext).1
  have hcounter : s.eventCounter = s.handled.length :=
    h.counted.elim id fun hquiet => absurd hquiet.2.1 hlt.ne
  have hturn' := turn_of_le (EventLog.Extends.refl l).answers hturn
  obtain ⟨next, hhandle, hs'⟩ := turn_eq_inl hturn
  have hkept := handle_continues hhandle
  have hhandled : s'.handled = s.handled ++ [ev] := by rw [hs', ← hkept.handled]
  have hcounted : s'.eventCounter = s.eventCounter + 1 := by rw [hs', ← hkept.eventCounter]
  constructor
  · rw [hhandled]
    obtain ⟨rest, hrest⟩ := h.handled
    rw [← hrest] at hnext ⊢
    rw [List.getElem?_append_right le_rfl, Nat.sub_self] at hnext
    cases rest with
    | nil => cases hnext
    | cons first rest =>
      obtain rfl := Option.some.inj hnext
      exact ⟨rest, by rw [List.append_assoc, List.singleton_append]⟩
  · rw [hhandled, hcounted, List.map_append, List.map_singleton]
    have hlength : s.eventCounter = (s.handled.map (l.fullAnswers K, ·)).length := by
      rw [List.length_map, hcounter]
    have hbefore := eventLoop_append [(l.fullAnswers K, ev)] hlength.le h.replayed
    refine (rounds_succ_of_inl hbefore).trans ?_
    rw [hlength, List.getElem?_concat_length]
    exact hturn'
  · left
    rw [hhandled, hcounted, hcounter, List.length_append, List.length_singleton]

private theorem closed (h : s.Computed K l p) (hall : s.handled.length = p.sent.length)
    (hended : p.running = false) (hturn : turn (S := S) none s = .inl s') : s'.Computed K l p := by
  obtain rfl := count_eq_inl hturn
  have hle : s.handled.length ≤ s.eventCounter :=
    h.counted.elim (fun heq => heq.ge) fun hquiet => hquiet.1
  refine ⟨h.handled, ?_, .inr ⟨Nat.le_succ_of_le hle, hall, hended⟩⟩
  refine (rounds_succ_of_inl h.replayed).trans ?_
  rw [List.getElem?_eq_none (by rwa [List.length_map])]
  exact hturn

end LitigatedState.Computed

/-- A processor after some events: it has sent more, unless it had ended. -/
structure Processor.Later {Ev : Type} (p p' : Processor Ev) : Prop where
  group : p'.group = p.group
  sent : p.sent <+: p'.sent
  ended : p.running = false → p'.sent = p.sent ∧ p'.running = false

namespace LogSystem

variable {Ev : Type} {K : EventCodec Ev} {s s' : LogSystem Ev} {ev : LogSystem.Event}
  {i j : ℕ} {p q q' : Processor Ev}

private theorem later_refl (p : Processor Ev) : p.Later p :=
  ⟨rfl, List.prefix_rfl, fun h => ⟨rfl, h⟩⟩

private theorem later_sendNext {received : Bool} (hrunning : p.running = true)
    (h : p.sendNext K received = some q) : p.Later q := by
  have hended : ¬p.running = false := by simp [hrunning]
  unfold Processor.sendNext at h
  split at h
  · cases h
  · split at h
    · obtain rfl := Option.some.inj h
      exact ⟨rfl, List.prefix_rfl, fun h => absurd h hended⟩
    · split_ifs at h
      · obtain rfl := Option.some.inj h
        exact ⟨rfl, List.prefix_append _ _, fun h => absurd h hended⟩
      · obtain rfl := Option.some.inj h
        exact ⟨rfl, List.prefix_rfl, fun h => absurd h hended⟩

private theorem set_later (hq : s.processors j = some q) (hlater : q.Later q')
    (hp : s.processors i = some p) : ∃ p', (s.set j q').processors i = some p' ∧ p.Later p' := by
  by_cases hi : i = j
  · subst hi
    obtain rfl := Option.some.inj (hq.symm.trans hp)
    exact ⟨q', Function.update_self .., hlater⟩
  · exact ⟨p, (Function.update_of_ne hi ..).trans hp, later_refl p⟩

private theorem step_later (h : s.step K ev = some s') : s.log.Extends s'.log ∧
    ∀ i p, s.processors i = some p → ∃ p', s'.processors i = some p' ∧ p.Later p' := by
  have hkept {l : EventLog} (hextends : s.log.Extends l) : s.log.Extends l ∧
      ∀ i p, s.processors i = some p → ∃ p', s.processors i = some p' ∧ p.Later p' :=
    ⟨hextends, fun i p hp => ⟨p, hp, later_refl p⟩⟩
  cases ev with
  | newGroup id key =>
    simp only [step] at h
    split_ifs at h
    obtain rfl := Option.some.inj h
    exact hkept ⟨List.prefix_append _ _, List.prefix_rfl⟩
  | insert group o id =>
    simp only [step] at h
    split_ifs at h
    obtain rfl := Option.some.inj h
    apply hkept
    obtain hsame | ⟨-, hstored⟩ : (s.log.insertOccurrence group o id).2 = s.log ∨ _ :=
      EventLog.insertOccurrence_cases
    · rw [hsame]
      exact .refl _
    · rw [hstored]
      exact ⟨List.prefix_rfl, List.prefix_append _ _⟩
  | begin group o id =>
    simp only [step] at h
    split_ifs at h
    obtain rfl := Option.some.inj h
    apply hkept
    obtain hsame | ⟨-, hheld⟩ : (s.log.insertOccurrenceTxn group o id).2 = s.log ∨ _ :=
      EventLog.insertOccurrenceTxn_cases
    · rw [hsame]
      exact .refl _
    · rw [hheld]
      exact ⟨List.prefix_rfl, List.prefix_rfl⟩
  | commit =>
    obtain ⟨row, -, rfl⟩ := Option.map_eq_some_iff.mp h
    exact hkept ⟨List.prefix_rfl, List.prefix_append _ _⟩
  | rollback =>
    obtain ⟨row, -, rfl⟩ := Option.map_eq_some_iff.mp h
    exact hkept ⟨List.prefix_rfl, List.prefix_rfl⟩
  | start j group =>
    simp only [step] at h
    split at h
    next hnone =>
      obtain rfl := Option.some.inj h
      refine ⟨.refl _, fun i p hp => ⟨p, ?_, later_refl p⟩⟩
      have hi : i ≠ j := by
        intro heq
        rw [heq, hnone] at hp
        cases hp
      exact (Function.update_of_ne hi ..).trans hp
    next => cases h
  | poll j =>
    simp only [step] at h
    split at h
    next q hq =>
      split_ifs at h
      obtain rfl := Option.some.inj h
      exact ⟨.refl _, fun i p hp => set_later hq ⟨rfl, List.prefix_rfl, fun h => ⟨rfl, h⟩⟩ hp⟩
    next => cases h
  | send j received =>
    simp only [step] at h
    split at h
    next q hq =>
      split_ifs at h with hrunning
      obtain ⟨q', hsend, rfl⟩ := Option.map_eq_some_iff.mp h
      exact ⟨.refl _, fun i p hp => set_later hq (later_sendNext hrunning hsend) hp⟩
    next => cases h
  | stop j =>
    obtain ⟨q, hq, rfl⟩ := Option.map_eq_some_iff.mp h
    exact ⟨.refl _, fun i p hp => set_later hq ⟨rfl, List.prefix_rfl, fun _ => ⟨rfl, rfl⟩⟩ hp⟩

end LogSystem

namespace Litigation

variable {K : LitigationCodec S} {w w' w'' : Litigation S} {ev : Litigation.Event S} {i j : ℕ}
  {p q : Processor (LitigatorEvent S)} {s t : LitigatedState S} {l : EventLog}
  {evs : List (LitigatorEvent S)} {P : Litigation.Event S → Prop}

/-- Every loop has computed its state from the log, and those of litigators that have not started
have not handled anything. -/
structure Inv (K : LitigationCodec S) (w : Litigation S) : Prop where
  logs : w.logs.Inv K.events
  computed : ∀ i p s, w.logs.processors i = some p → w.loops i = .inl s →
    s.Computed K w.logs.log p
  fresh : ∀ i, w.logs.processors i = none → w.loops i = .inl .initial

theorem initial_inv : (initial : Litigation S).Inv K where
  logs := LogSystem.initial_inv
  computed := by
    intro i p s hp
    cases hp
  fresh _ _ := rfl

theorem Inv.set (h : w.Inv K) (hp : w.logs.processors i = some p)
    {loop : LitigatedState S ⊕ LitigatedState.End S}
    (hloop : ∀ s, loop = .inl s → s.Computed K w.logs.log p) : (w.set i loop).Inv K where
  logs := h.logs
  computed := by
    intro j q s hq hs
    by_cases hj : j = i
    · subst hj
      obtain rfl := Option.some.inj (hp.symm.trans hq)
      have hset : (w.set j loop).loops j = loop := Function.update_self ..
      exact hloop s (hset.symm.trans hs)
    · exact h.computed j q s hq ((Function.update_of_ne hj ..).symm.trans hs)
  fresh := by
    intro j hnone
    have hj : j ≠ i := by
      intro heq
      rw [heq] at hnone
      cases hp.symm.trans hnone
    exact (Function.update_of_ne hj ..).trans (h.fresh j hnone)

theorem Inv.log (h : w.Inv K) {ev : LogSystem.Event} {logs : LogSystem (LitigatorEvent S)}
    (hlogs : w.logs.step K.events ev = some logs) : Inv K { w with logs } := by
  obtain ⟨hextends, hlater⟩ := LogSystem.step_later hlogs
  constructor
  · exact h.logs.step hlogs
  · intro i p' s hp' hs
    cases hp : w.logs.processors i with
    | none =>
      obtain rfl := Sum.inl.inj ((h.fresh i hp).symm.trans hs)
      exact .initial p'
    | some p =>
      obtain ⟨q, hq, hpq⟩ := hlater i p hp
      obtain rfl := Option.some.inj (hq.symm.trans hp')
      exact ((h.computed i p s hp hs).extend hextends).send hpq.sent hpq.ended
  · intro i hnone
    apply h.fresh
    cases hp : w.logs.processors i with
    | none => rfl
    | some p =>
      obtain ⟨q, hq, -⟩ := hlater i p hp
      cases hq.symm.trans hnone

theorem step_emit {o : Occurrence} {id : ℕ} (hstep : w.step K (.emit i o id) = some w') :
    ∃ p logs, w.logs.processors i = some p ∧ (⟨id, o, p.group⟩ : OccurrenceRow).IsEmission K ∧
      w.logs.step K.events (.insert p.group o id) = some logs ∧ w' = { w with logs } := by
  simp only [Litigation.step] at hstep
  split at hstep
  · rename_i p s hp hs
    split at hstep
    · split_ifs at hstep with hemits
      obtain ⟨logs, hlogs, rfl⟩ := Option.map_eq_some_iff.mp hstep
      exact ⟨p, logs, hp, hemits.2, hlogs, rfl⟩
    · cases hstep
  · cases hstep

theorem step_receive {keymap : Bool} {processes : ℕ → S.LinkedPSBT → Bool}
    (hstep : w.step K (.receive i keymap processes) = some w') :
    ∃ p s ev, w.logs.processors i = some p ∧ w.loops i = .inl s ∧
      p.sent[s.handled.length]? = some ev ∧ w' =
        w.set i (LitigatedState.turn (some (w.logs.log.answers K keymap processes, ev)) s) := by
  simp only [Litigation.step] at hstep
  split at hstep
  · rename_i p s hp hs
    obtain ⟨ev, hnext, rfl⟩ := Option.map_eq_some_iff.mp hstep
    exact ⟨p, s, ev, hp, hs, hnext, rfl⟩
  · cases hstep

private theorem step_closed (hstep : w.step K (.closed i) = some w') :
    ∃ p s, w.logs.processors i = some p ∧ w.loops i = .inl s ∧ p.running = false ∧
      s.handled.length = p.sent.length ∧ w' = w.set i (LitigatedState.turn none s) := by
  simp only [Litigation.step] at hstep
  split at hstep
  · rename_i p s hp hs
    split_ifs at hstep with hclosed
    exact ⟨p, s, hp, hs, hclosed.1, hclosed.2, (Option.some.inj hstep).symm⟩
  · cases hstep

private theorem Inv.step (h : w.Inv K) (hstep : w.step K ev = some w') : w'.Inv K := by
  cases ev with
  | log ev =>
    obtain ⟨logs, hlogs, rfl⟩ := Option.map_eq_some_iff.mp hstep
    exact h.log hlogs
  | emit i o id =>
    obtain ⟨p, logs, -, -, hlogs, rfl⟩ := step_emit hstep
    exact h.log hlogs
  | receive i keymap processes =>
    obtain ⟨p, s, ev, hp, hs, hnext, rfl⟩ := step_receive hstep
    exact h.set hp fun s' hturn => (h.computed i p s hp hs).receive hnext hturn
  | closed i =>
    obtain ⟨p, s, hp, hs, hended, hall, rfl⟩ := step_closed hstep
    exact h.set hp fun s' hturn => (h.computed i p s hp hs).closed hall hended hturn

private theorem step_extends (hstep : w.step K ev = some w') : w.logs.log.Extends w'.logs.log := by
  cases ev with
  | log ev =>
    obtain ⟨logs, hlogs, rfl⟩ := Option.map_eq_some_iff.mp hstep
    exact (LogSystem.step_later hlogs).1
  | emit i o id =>
    obtain ⟨p, logs, -, -, hlogs, rfl⟩ := step_emit hstep
    exact (LogSystem.step_later hlogs).1
  | receive i keymap processes =>
    obtain ⟨p, s, ev, -, -, -, rfl⟩ := step_receive hstep
    exact .refl _
  | closed i =>
    obtain ⟨p, s, -, -, -, -, rfl⟩ := step_closed hstep
    exact .refl _

theorem Reaches.inv (h : Reaches K P w w') (hw : w.Inv K) : w'.Inv K :=
  Run.invariant (fun _ _ _ _ hw hstep => hw.step hstep) h hw

theorem Reaches.extends (h : Reaches K P w w') : w.logs.log.Extends w'.logs.log :=
  Run.relates (I := fun _ => True) (R := fun w w' => w.logs.log.Extends w'.logs.log)
    (fun _ _ _ _ _ _ => trivial) (fun _ => .refl _) (fun _ _ _ h h' => h.trans h')
    (fun _ _ _ _ _ hstep => step_extends hstep) h trivial

end Litigation

namespace Processor.Follows

variable {K : LitigationCodec S} {p : Processor (LitigatorEvent S)} {l : EventLog}
  {evs : List (LitigatorEvent S)}

theorem rows_of_sent (h : p.Follows K.events l) (hsent : evs <+: p.sent) :
    ((l.rowsOf p.group).take evs.length).map (OccurrenceRow.event? K.events) = evs.map some := by
  have hrows : evs.map some <+: (l.rowsOf p.group).map (OccurrenceRow.event? K.events) :=
    (hsent.map some).trans h.delivered
  rw [List.map_take, List.prefix_iff_eq_take.mp hrows, List.length_map]

private theorem replayed_eq (h : p.Follows K.events l) (hsent : evs <+: p.sent) :
    l.replayed K p.group evs.length = evs.map (l.fullAnswers K, ·) := by
  have hrows := h.rows_of_sent hsent
  rw [EventLog.replayed]
  calc ((l.rowsOf p.group).take evs.length).filterMap _
      = (((l.rowsOf p.group).take evs.length).map (OccurrenceRow.event? K.events)).filterMap
          (Option.map (l.fullAnswers K, ·)) := (List.filterMap_map ..).symm
    _ = (evs.map some).filterMap (Option.map (l.fullAnswers K, ·)) := by rw [hrows]
    _ = evs.map (l.fullAnswers K, ·) := by
      rw [List.filterMap_map, ← List.filterMap_eq_map]
      rfl

end Processor.Follows

namespace Litigation

variable {K : LitigationCodec S} {w w' w'' : Litigation S} {i j : ℕ}
  {p q : Processor (LitigatorEvent S)} {s t : LitigatedState S} {l : EventLog}

/-- A new litigator that handles the same events with a later log comes to the same state. -/
theorem Inv.recomputed (h : w.Inv K) (hp : w.logs.processors i = some p) (hs : w.loops i = .inl s)
    (hextends : w.logs.log.Extends l) :
    l.replayed K p.group s.handled.length = s.handled.map (l.fullAnswers K, ·) ∧
      LitigatedState.eventLoop (l.replayed K p.group s.handled.length) s.eventCounter = .inl s := by
  have hcomputed := (h.computed i p s hp hs).extend hextends
  have hfollows := (h.logs.follows i p hp).grow hextends.occurrences
  have hreplayed := hfollows.replayed_eq hcomputed.handled
  exact ⟨hreplayed, hreplayed ▸ hcomputed.replayed⟩

/-- What a litigator has computed is computed again from the log, however much is written to it
later, and another litigator of the same group that has handled as many events, or more, has been in
the same state. -/
theorem litigators_recompute (hrun : Reaches K (fun _ => True) .initial w)
    (hlater : Reaches K (fun _ => True) w w') (hp : w.logs.processors i = some p)
    (hs : w.loops i = .inl s) :
    LitigatedState.eventLoop (w'.logs.log.replayed K p.group s.handled.length) s.eventCounter =
        .inl s ∧
      ∀ j q t, w'.logs.processors j = some q → w'.loops j = .inl t → q.group = p.group →
        s.handled.length ≤ t.handled.length →
          LitigatedState.eventLoop (t.handled.map (w'.logs.log.fullAnswers K, ·)) t.eventCounter =
              .inl t ∧
            LitigatedState.eventLoop (t.handled.map (w'.logs.log.fullAnswers K, ·))
              s.handled.length = .inl { s with eventCounter := s.handled.length } := by
  have hinv := hrun.inv initial_inv
  have hinv' := hlater.inv hinv
  obtain ⟨hreplayed, hstate⟩ := hinv.recomputed hp hs hlater.extends
  refine ⟨hstate, ?_⟩
  intro j q t hq ht hgroup hle
  obtain ⟨hreplayed', hstate'⟩ := hinv'.recomputed hq ht (.refl _)
  rw [hreplayed'] at hstate'
  refine ⟨hstate', ?_⟩
  -- both have handled rows of the same group from the first one on
  have hshorter : s.handled.map (w'.logs.log.fullAnswers K, ·) <+:
      t.handled.map (w'.logs.log.fullAnswers K, ·) := by
    rw [← hreplayed, ← hreplayed', hgroup]
    exact (List.take_prefix_take_left hle).filterMap _
  obtain ⟨more, hmore⟩ := hshorter
  have hcounted := (hinv.computed i p s hp hs).counted
  have hcounter : s.handled.length ≤ s.eventCounter :=
    hcounted.elim (fun heq => heq.ge) fun hquiet => hquiet.1
  rw [hreplayed] at hstate
  have hquiet := LitigatedState.eventLoop_quiet hstate (by rwa [List.length_map])
  rw [List.length_map] at hquiet
  rw [← hmore]
  exact LitigatedState.eventLoop_append more (List.length_map _).ge hquiet

end Litigation

def oneObservationCodec : LitigationCodec oneObservation where
  events :=
    { event := fun
        | .null => some (.moduleBytes moduleRepo "one")
        | .bool _ => some (.createArgs ⟨(), []⟩)
        | .str "bind" => some (.rebind ())
        | .str "tick" => some (.syntheticPeriodicActions 0)
        | .str "emitted" => some .emittedPSBTVia
        | data => some (.newRecompileTriggeringObservation data "block")
      tag := fun _ => true }
  module _ := some ()

def eventOf (data : Json) : Occurrence :=
  ⟨data, 0, litigatorEvent, none⟩

/-- A litigator handles the next event. -/
def handleNext (i : ℕ) : List (Litigation.Event oneObservation) :=
  [.log (.send i true), .receive i true fun _ _ => true]

/-- The module is in a group of its own; the first litigator handles all events of the other group
and emits its transaction, and a second one only loads the module. -/
def twoLitigators : List (Litigation.Event oneObservation) :=
  [.log (.newGroup 1 moduleRepo), .log (.newGroup 2 "game"),
    .log (.insert 1 ⟨.null, 0, moduleRepo, some "one"⟩ 1), .log (.insert 2 (eventOf .null) 2),
    .log (.insert 2 (eventOf (.bool true)) 3), .log (.insert 2 (eventOf (.str "bind")) 4),
    .log (.insert 2 (eventOf (.int 7)) 5), .log (.insert 2 (eventOf (.str "tick")) 6),
    .log (.start 0 2), .log (.poll 0)] ++
  handleNext 0 ++ handleNext 0 ++ handleNext 0 ++ handleNext 0 ++
  [.log (.send 0 true), .emit 0 (eventOf (.str "emitted")) 7, .receive 0 true fun _ _ => true,
    .log (.start 1 2), .log (.poll 1)] ++ handleNext 1

private theorem twoLitigators_occurs : (twoLitigators.foldlM (Litigation.step oneObservationCodec)
    Litigation.initial).isSome := by
  decide +kernel

def bothLitigators : Litigation oneObservation :=
  (twoLitigators.foldlM (Litigation.step oneObservationCodec) Litigation.initial).get
    twoLitigators_occurs

theorem bothLitigators_reached :
    Litigation.Reaches oneObservationCodec (fun _ => True) .initial bothLitigators :=
  Run.of_foldlM (fun _ _ => trivial) (Option.some_get _).symm

theorem bothLitigators_first : ∃ p s, bothLitigators.logs.processors 0 = some p ∧ p.group = 2 ∧
    bothLitigators.loops 0 = .inl s ∧ s.handled.length = 5 ∧ s.contract = .ok (1 : ℕ) :=
  ⟨_, _, rfl, rfl, rfl, rfl, rfl⟩

private theorem bothLitigators_second :
    ∃ p s, bothLitigators.logs.processors 1 = some p ∧ p.group = 2 ∧
    bothLitigators.loops 1 = .inl s ∧ s.handled.length = 1 :=
  ⟨_, _, rfl, rfl, rfl, rfl⟩

/-- The first litigator has been in the state of the second. -/
theorem litigators_recompute_both : ∃ s t, bothLitigators.loops 0 = .inl s ∧
    bothLitigators.loops 1 = .inl t ∧ t.handled.length = 1 ∧
    LitigatedState.eventLoop (bothLitigators.logs.log.replayed oneObservationCodec 2 1)
      t.eventCounter = .inl t ∧
    LitigatedState.eventLoop
      (s.handled.map (bothLitigators.logs.log.fullAnswers oneObservationCodec, ·)) 1 =
        .inl { t with eventCounter := 1 } := by
  obtain ⟨p, s, hp, hgroup, hs, hhandled, -⟩ := bothLitigators_first
  obtain ⟨q, t, hq, hgroup', ht, hhandled'⟩ := bothLitigators_second
  obtain ⟨hstate, hagree⟩ := Litigation.litigators_recompute bothLitigators_reached Run.refl hq ht
  have hpast := (hagree 0 p s hp hs (hgroup.trans hgroup'.symm) (by omega)).2
  rw [hhandled', hgroup'] at hstate
  rw [hhandled'] at hpast
  exact ⟨s, t, hs, ht, hhandled', hstate, hpast⟩

end JudicaVM
