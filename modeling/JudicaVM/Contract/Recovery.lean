import JudicaVM.Contract.Litigation

/-!
# Recovery

A litigator that starts again reads its group from the beginning and handles the events once more.
Its periodic actions may add entries for transactions to the group, after the rows that it has to
handle again. Whatever of its own steps it takes and however many, it has been in the state of the
earlier litigator or can still come to it.
-/

namespace JudicaVM

open Loop Transition

variable {S : Sapio}

namespace Litigation

/-- What the litigator with an index does itself for a group, while the keys can be read, every
transaction is processed and the loop takes what is sent. -/
def Event.Of (i group : ℕ) : Event S → Prop
  | .log (.start j group') => j = i ∧ group' = group
  | .log (.poll j) => j = i
  | .log (.send j received) => j = i ∧ received
  | .emit j _ _ => j = i
  | .receive j keymap processes => j = i ∧ keymap ∧ ∀ n tx, processes n tx
  | _ => False

/-- Entries for transactions of the group have been added to the log, and nothing else. -/
structure Emitted (K : LitigationCodec S) (group : ℕ) (l l' : EventLog) : Prop where
  groups : l'.groups = l.groups
  occurrences : ∃ rows, l'.occurrences = l.occurrences ++ rows ∧
    ∀ r ∈ rows, r.group = group ∧ r.IsEmission K

/-- The first rows of the group are the events, and the loop handles them all. -/
structure Replayable (K : LitigationCodec S) (l : EventLog) (group : ℕ)
    (evs : List (LitigatorEvent S)) (goal : LitigatedState S) : Prop where
  rows : ((l.rowsOf group).take evs.length).map (OccurrenceRow.event? K.events) = evs.map some
  loop : LitigatedState.eventLoop (evs.map (l.fullAnswers K, ·)) evs.length = .inl goal

/-- The state after steps of the litigator `j` from the state `w`, in which it had not started. -/
structure Recovering (K : LitigationCodec S) (w : Litigation S) (j group : ℕ)
    (evs : List (LitigatorEvent S)) (v : Litigation S) : Prop where
  inv : v.Inv K
  log : Emitted K group w.logs.log v.logs.log
  others : ∀ i ≠ j, v.logs.processors i = w.logs.processors i ∧ v.loops i = w.loops i
  group : ∀ q, v.logs.processors j = some q → q.group = group
  running : ∀ q, v.logs.processors j = some q → q.sent.length < evs.length → q.running
  counter : ∀ t, v.loops j = .inl t → t.eventCounter = t.handled.length

variable {K : LitigationCodec S} {w v v' : Litigation S} {i j group m : ℕ}
  {evs : List (LitigatorEvent S)} {goal s t : LitigatedState S} {l l' l'' : EventLog}
  {p q : Processor (LitigatorEvent S)} {ev : Event S}

namespace Emitted

private theorem refl (l : EventLog) : Emitted K group l l :=
  ⟨rfl, [], (List.append_nil _).symm, fun _ hr => absurd hr List.not_mem_nil⟩

private theorem trans (h : Emitted K group l l') (h' : Emitted K group l' l'') :
    Emitted K group l l'' := by
  obtain ⟨rows, hrows, hemitted⟩ := h.occurrences
  obtain ⟨rows', hrows', hemitted'⟩ := h'.occurrences
  refine ⟨h'.groups.trans h.groups, rows ++ rows', ?_, ?_⟩
  · rw [hrows', hrows, List.append_assoc]
  · intro r hr
    exact (List.mem_append.mp hr).elim (hemitted r) (hemitted' r)

private theorem extend (h : Emitted K group l l') : l.Extends l' := by
  obtain ⟨rows, hrows, -⟩ := h.occurrences
  exact ⟨h.groups ▸ List.prefix_rfl, hrows ▸ List.prefix_append _ _⟩

private theorem of_insert {logs logs' : LogSystem (LitigatorEvent S)} {o : Occurrence} {id : ℕ}
    (hemission : (⟨id, o, group⟩ : OccurrenceRow).IsEmission K)
    (hstep : logs.step K.events (.insert group o id) = some logs') :
    Emitted K group logs.log logs'.log ∧ logs'.processors = logs.processors := by
  simp only [LogSystem.step] at hstep
  split_ifs at hstep
  obtain rfl := Option.some.inj hstep
  refine ⟨?_, rfl⟩
  obtain hsame | ⟨-, hstored⟩ : (logs.log.insertOccurrence group o id).2 = logs.log ∨ _ :=
    EventLog.insertOccurrence_cases
  · rw [hsame]
    exact .refl _
  · rw [hstored]
    refine ⟨rfl, _, rfl, ?_⟩
    intro r hr
    rw [List.mem_singleton.mp hr]
    exact ⟨rfl, hemission⟩

end Emitted

private theorem Replayable.extend (h : Replayable K l group evs goal) (hextends : l.Extends l') :
    Replayable K l' group evs goal := by
  refine ⟨?_, LitigatedState.eventLoop_of_le hextends.answers h.loop⟩
  have hprefix : l.rowsOf group <+: l'.rowsOf group := hextends.occurrences.filter _
  have hlength := congrArg List.length h.rows
  rw [List.length_map, List.length_map, List.length_take] at hlength
  obtain ⟨rest, hrest⟩ := hprefix
  rw [← hrest, List.take_append_of_le_length (min_eq_left_iff.mp hlength)]
  exact h.rows

private theorem Replayable.length_le (h : Replayable K l group evs goal) :
    evs.length ≤ (l.rowsOf group).length := by
  have hlength := congrArg List.length h.rows
  rw [List.length_map, List.length_map, List.length_take] at hlength
  exact min_eq_left_iff.mp hlength

namespace Recovering

private theorem start (h : w.Inv K) (hfresh : w.logs.processors j = none) :
    Recovering K w j group evs w where
  inv := h
  log := .refl _
  others _ _ := ⟨rfl, rfl⟩
  group := by
    intro q hq
    cases hfresh.symm.trans hq
  running := by
    intro q hq
    cases hfresh.symm.trans hq
  counter := by
    intro t ht
    obtain rfl := Sum.inl.inj ((h.fresh j hfresh).symm.trans ht)
    rfl

private theorem replayable (h : Recovering K w j group evs v)
    (hgoal : Replayable K w.logs.log group evs goal) :
    Replayable K v.logs.log group evs goal :=
  hgoal.extend h.log.extend

private theorem sent (h : Recovering K w j group evs v)
    (hgoal : Replayable K w.logs.log group evs goal)
    (hq : v.logs.processors j = some q) (hm : m ≤ q.sent.length) (hle : m ≤ evs.length) :
    q.sent.take m = evs.take m := by
  have hrows := (h.replayable hgoal).rows
  have hdelivered := (h.inv.logs.follows j q hq).delivered
  rw [h.group q hq] at hdelivered
  rw [List.map_take] at hrows
  have hsome : (q.sent.take m).map some = (evs.take m).map some := by
    rw [List.map_take, List.map_take, ← hrows, List.take_take, Nat.min_eq_left hle,
      List.prefix_iff_eq_take.mp hdelivered, List.take_take, List.length_map, Nat.min_eq_left hm]
  exact List.map_injective_iff.mpr (Option.some_injective _) hsome

private theorem next_row (h : Recovering K w j group evs v)
    (hgoal : Replayable K w.logs.log group evs goal) (hq : v.logs.processors j = some q)
    {row : OccurrenceRow} {rest : List OccurrenceRow} (hread : q.toProcess = row :: rest)
    (hlt : q.sent.length < evs.length) :
    K.events.fromOccurrence row.occurrence = .ok evs[q.sent.length] := by
  obtain ⟨done, later, hrows, hsent, -⟩ := h.inv.logs.follows j q hq
  rw [h.group q hq, hread] at hrows
  have hdone : done.length = q.sent.length := by
    have hlength := congrArg List.length hsent
    rw [List.length_map, List.length_map] at hlength
    exact hlength.symm
  have hrow : (v.logs.log.rowsOf group)[q.sent.length]? = some row := by
    rw [hrows, ← hdone, List.append_assoc, List.getElem?_append_right le_rfl, Nat.sub_self]
    rfl
  have hevent : (((v.logs.log.rowsOf group).take evs.length).map
      (OccurrenceRow.event? K.events))[q.sent.length]? = (evs.map some)[q.sent.length]? := by
    rw [(h.replayable hgoal).rows]
  rw [List.getElem?_map, List.getElem?_take_of_lt hlt, hrow, List.getElem?_map,
    List.getElem?_eq_getElem hlt] at hevent
  have hsome : row.event? K.events = some evs[q.sent.length] := Option.some.inj hevent
  rw [OccurrenceRow.event?] at hsome
  cases hfrom : K.events.fromOccurrence row.occurrence with
  | error e =>
    rw [hfrom] at hsome
    cases hsome
  | ok ev =>
    rw [hfrom] at hsome
    exact congrArg Except.ok (Option.some.inj hsome)

private theorem state (h : Recovering K w j group evs v)
    (hgoal : Replayable K w.logs.log group evs goal)
    (ht : v.loops j = .inl t) (hle : t.handled.length ≤ evs.length) :
    t.handled = evs.take t.handled.length ∧
      LitigatedState.eventLoop (evs.map (v.logs.log.fullAnswers K, ·)) t.handled.length =
        .inl t := by
  cases hq : v.logs.processors j with
  | none =>
    obtain rfl := Sum.inl.inj ((h.inv.fresh j hq).symm.trans ht)
    exact ⟨rfl, rfl⟩
  | some q =>
    have hcomputed := h.inv.computed j q t hq ht
    have htaken : t.handled = evs.take t.handled.length := by
      rw [← h.sent hgoal hq hcomputed.handled.length_le hle]
      exact List.prefix_iff_eq_take.mp hcomputed.handled
    refine ⟨htaken, ?_⟩
    have hreplayed := hcomputed.replayed
    rw [h.counter t ht] at hreplayed
    have hall : evs.map (v.logs.log.fullAnswers K, ·) =
        t.handled.map (v.logs.log.fullAnswers K, ·) ++
          (evs.drop t.handled.length).map (v.logs.log.fullAnswers K, ·) := by
      rw [← List.map_append]
      congr 1
      conv_rhs => rw [htaken]
      rw [List.length_take, Nat.min_eq_left hle]
      exact (List.take_append_drop _ _).symm
    rw [hall]
    exact LitigatedState.eventLoop_append _ (List.length_map _).ge hreplayed

private theorem eq_goal (h : Recovering K w j group evs v)
    (hgoal : Replayable K w.logs.log group evs goal) (ht : v.loops j = .inl t)
    (hall : t.handled.length = evs.length) : t = goal := by
  have hstate := (h.state hgoal ht hall.le).2
  rw [hall, (h.replayable hgoal).loop] at hstate
  exact (Sum.inl.inj hstate).symm

private theorem turn_eq (h : Recovering K w j group evs v)
    (hgoal : Replayable K w.logs.log group evs goal) (hq : v.logs.processors j = some q)
    (ht : v.loops j = .inl t) (hlt : t.handled.length < evs.length) {ev : LitigatorEvent S}
    (hnext : q.sent[t.handled.length]? = some ev) :
    ∃ t', LitigatedState.turn (some (v.logs.log.fullAnswers K, ev)) t = .inl t' ∧
      t'.handled.length = t.handled.length + 1 := by
  have hsent := h.sent hgoal hq (List.getElem?_eq_some_iff.mp hnext).1 hlt
  have hev : evs[t.handled.length]? = some ev := by
    have hget : (q.sent.take (t.handled.length + 1))[t.handled.length]? =
        (evs.take (t.handled.length + 1))[t.handled.length]? := by
      rw [hsent]
    rw [List.getElem?_take_of_lt (Nat.lt_succ_self _), hnext,
      List.getElem?_take_of_lt (Nat.lt_succ_self _)] at hget
    exact hget.symm
  obtain ⟨t', hround⟩ := rounds_of_le (h.replayable hgoal).loop hlt
  have hturn := (rounds_succ_of_inl (h.state hgoal ht hlt.le).2).symm.trans hround
  rw [List.getElem?_map, hev, Option.map_some] at hturn
  refine ⟨t', hturn, ?_⟩
  obtain ⟨next, hhandle, rfl⟩ := LitigatedState.turn_eq_inl hturn
  show (next.handled ++ [ev]).length = _
  rw [List.length_append, List.length_singleton,
    (LitigatedState.handle_continues hhandle).handled]

private theorem answers_eq {keymap : Bool} {processes : ℕ → S.LinkedPSBT → Bool} (hkeymap : keymap)
    (hprocesses : ∀ n tx, processes n tx) :
    l.answers K keymap processes = l.fullAnswers K := by
  have hall : processes = fun _ _ => true := by
    funext n tx
    exact hprocesses n tx
  rw [hall, hkeymap]
  rfl

private theorem log_step (h : Recovering K w j group evs v) {logs : LogSystem (LitigatorEvent S)}
    {logEvent : LogSystem.Event} (hstep : v.logs.step K.events logEvent = some logs)
    (hlog : Emitted K group v.logs.log logs.log)
    (hothers : ∀ i ≠ j, logs.processors i = v.logs.processors i)
    (hown : ∀ q, logs.processors j = some q →
      q.group = group ∧ (q.sent.length < evs.length → q.running)) :
    Recovering K w j group evs { v with logs } where
  inv := h.inv.log hstep
  log := h.log.trans hlog
  others i hi := ⟨(hothers i hi).trans (h.others i hi).1, (h.others i hi).2⟩
  group q hq := (hown q hq).1
  running q hq := (hown q hq).2
  counter := h.counter

private theorem set_step (h : Recovering K w j group evs v) {logEvent : LogSystem.Event}
    (hstep : v.logs.step K.events logEvent = some (v.logs.set j q)) (hgroup : q.group = group)
    (hrunning : q.sent.length < evs.length → q.running) :
    Recovering K w j group evs { v with logs := v.logs.set j q } := by
  apply h.log_step hstep (.refl _)
  · intro i hi
    exact Function.update_of_ne hi ..
  · intro q' hq'
    have hset : (v.logs.set j q).processors j = some q := Function.update_self ..
    obtain rfl := Option.some.inj (hset.symm.trans hq')
    exact ⟨hgroup, hrunning⟩

/-- The processor stops only at a row that is not an event, which comes after those of the
events. -/
theorem sendNext (h : Recovering K w j group evs v)
    (hgoal : Replayable K w.logs.log group evs goal) (hq : v.logs.processors j = some q)
    (hrunning : q.running) {q' : Processor (LitigatorEvent S)}
    (hsend : q.sendNext K.events true = some q') :
    q'.group = group ∧ (q'.sent.length < evs.length → q'.running) := by
  have hgroup := h.group q hq
  unfold Processor.sendNext at hsend
  cases hread : q.toProcess with
  | nil =>
    rw [hread] at hsend
    cases hsend
  | cons row rest =>
    rw [hread] at hsend
    cases hfrom : K.events.fromOccurrence row.occurrence with
    | error e =>
      simp only [hfrom] at hsend
      obtain rfl := Option.some.inj hsend
      refine ⟨hgroup, fun hlt => ?_⟩
      have hok := h.next_row hgoal hq hread hlt
      rw [hfrom] at hok
      cases hok
    | ok ev =>
      simp only [hfrom, if_true] at hsend
      obtain rfl := Option.some.inj hsend
      exact ⟨hgroup, fun _ => hrunning⟩

private theorem receive (h : Recovering K w j group evs v) (hq : v.logs.processors j = some q)
    (ht : v.loops j = .inl t) {ev : LitigatorEvent S}
    (hnext : q.sent[t.handled.length]? = some ev) {keymap : Bool}
    {processes : ℕ → S.LinkedPSBT → Bool} :
    Recovering K w j group evs
      (v.set j (LitigatedState.turn (some (v.logs.log.answers K keymap processes, ev)) t)) where
  inv := h.inv.set hq fun _ hturn => (h.inv.computed j q t hq ht).receive hnext hturn
  log := h.log
  others i hi := ⟨(h.others i hi).1, (Function.update_of_ne hi ..).trans (h.others i hi).2⟩
  group := h.group
  running := h.running
  counter := by
    intro t' ht'
    have hset : (v.set j (LitigatedState.turn (some (v.logs.log.answers K keymap processes, ev))
        t)).loops j = _ := Function.update_self ..
    obtain ⟨next, hhandle, rfl⟩ := LitigatedState.turn_eq_inl (hset.symm.trans ht')
    have hkept := LitigatedState.handle_continues hhandle
    show next.eventCounter + 1 = (next.handled ++ [ev]).length
    rw [hkept.eventCounter, h.counter t ht, hkept.handled, List.length_append,
      List.length_singleton]

private theorem step (h : Recovering K w j group evs v)
    (hgoal : Replayable K w.logs.log group evs goal) (hev : ev.Of j group)
    (hstep : v.step K ev = some v') : Recovering K w j group evs v' := by
  cases ev with
  | log ev =>
    obtain ⟨logs, hlogs, rfl⟩ := Option.map_eq_some_iff.mp hstep
    cases ev with
    | start i group' =>
      obtain ⟨rfl, rfl⟩ := hev
      have hlogs' := hlogs
      simp only [LogSystem.step] at hlogs'
      split at hlogs'
      · obtain rfl := Option.some.inj hlogs'
        exact h.set_step hlogs rfl fun _ => rfl
      · cases hlogs'
    | poll i =>
      obtain rfl := hev
      have hlogs' := hlogs
      simp only [LogSystem.step] at hlogs'
      split at hlogs'
      · rename_i q hq
        split_ifs at hlogs'
        obtain rfl := Option.some.inj hlogs'
        exact h.set_step hlogs (h.group q hq) (h.running q hq)
      · cases hlogs'
    | send i received =>
      obtain ⟨rfl, rfl⟩ := hev
      have hlogs' := hlogs
      simp only [LogSystem.step] at hlogs'
      split at hlogs'
      · rename_i q hq
        split_ifs at hlogs' with hrunning
        obtain ⟨q', hsend, rfl⟩ := Option.map_eq_some_iff.mp hlogs'
        obtain ⟨hgroup, hrunning'⟩ := h.sendNext hgoal hq hrunning hsend
        exact h.set_step hlogs hgroup hrunning'
      · cases hlogs'
    | _ => cases hev
  | emit i o id =>
    obtain rfl := hev
    obtain ⟨q, logs, hq, hemission, hlogs, rfl⟩ := step_emit hstep
    rw [h.group q hq] at hemission hlogs
    obtain ⟨hlog, hsame⟩ := Emitted.of_insert hemission hlogs
    refine h.log_step hlogs hlog (fun i _ => congrFun hsame i) ?_
    intro q' hq'
    rw [hsame] at hq'
    exact ⟨h.group q' hq', h.running q' hq'⟩
  | receive i keymap processes =>
    obtain ⟨rfl, -, -⟩ := hev
    obtain ⟨q, t, ev, hq, ht, hnext, rfl⟩ := step_receive hstep
    exact h.receive hq ht hnext
  | closed i => cases hev

private theorem reaches (h : Recovering K w j group evs v)
    (hgoal : Replayable K w.logs.log group evs goal) (hrun : Reaches K (Event.Of j group) v v') :
    Recovering K w j group evs v' :=
  Run.invariant (fun _ _ _ hev h hstep => h.step hgoal hev hstep) hrun h

/-- The litigator can handle an event more. -/
def Advances (K : LitigationCodec S) (j group : ℕ) (v : Litigation S) (t : LitigatedState S) :
    Prop :=
  ∃ v' t', Reaches K (Event.Of j group) v v' ∧ v'.loops j = .inl t' ∧
    t'.handled.length = t.handled.length + 1

private theorem Advances.step {v' : Litigation S} (hev : ev.Of j group)
    (hstep : v.step K ev = some v')
    (h : Advances K j group v' t) : Advances K j group v t := by
  obtain ⟨u, t', hrun, hloop, hlength⟩ := h
  exact ⟨u, t', (Run.single hev hstep).trans hrun, hloop, hlength⟩

private theorem advances_receive (h : Recovering K w j group evs v)
    (hgoal : Replayable K w.logs.log group evs goal) (hq : v.logs.processors j = some q)
    (ht : v.loops j = .inl t) (hlt : t.handled.length < evs.length)
    (hsent : t.handled.length < q.sent.length) : Advances K j group v t := by
  have hnext := List.getElem?_eq_getElem hsent
  obtain ⟨t', hturn, hlength⟩ := h.turn_eq hgoal hq ht hlt hnext
  have hstep : v.step K (.receive j true fun _ _ => true) = some (v.set j (.inl t')) := by
    simp only [Litigation.step, hq, ht, hnext, Option.map_some]
    rw [← hturn]
    rfl
  refine ⟨v.set j (.inl t'), t', Run.single ?_ hstep, Function.update_self .., hlength⟩
  exact ⟨rfl, rfl, fun _ _ => rfl⟩

private theorem advances_send (h : Recovering K w j group evs v)
    (hgoal : Replayable K w.logs.log group evs goal) (hq : v.logs.processors j = some q)
    (ht : v.loops j = .inl t) (hlt : t.handled.length < evs.length)
    (hall : q.sent.length = t.handled.length) {row : OccurrenceRow} {rest : List OccurrenceRow}
    (hread : q.toProcess = row :: rest) : Advances K j group v t := by
  have hlt' : q.sent.length < evs.length := hall ▸ hlt
  let q' : Processor (LitigatorEvent S) :=
    { q with last := row.id, toProcess := rest, sent := q.sent ++ [evs[q.sent.length]] }
  have hsend : q.sendNext K.events true = some q' := by
    simp only [Processor.sendNext, hread, h.next_row hgoal hq hread hlt', if_true, q']
  have hstep : v.step K (.log (.send j true)) = some { v with logs := v.logs.set j q' } := by
    simp only [Litigation.step, LogSystem.step, hq, h.running q hq hlt', if_true, hsend,
      Option.map_some]
  have hev : (Event.log (.send j true) : Event S).Of j group := ⟨rfl, rfl⟩
  apply Advances.step hev hstep
  apply (h.step hgoal hev hstep).advances_receive hgoal (Function.update_self ..) ht hlt
  show _ < (q.sent ++ [_]).length
  rw [List.length_append, List.length_singleton, hall]
  exact Nat.lt_succ_self _

private theorem advances_poll (h : Recovering K w j group evs v)
    (hgoal : Replayable K w.logs.log group evs goal) (hq : v.logs.processors j = some q)
    (ht : v.loops j = .inl t) (hlt : t.handled.length < evs.length)
    (hall : q.sent.length = t.handled.length) (hread : q.toProcess = []) :
    Advances K j group v t := by
  have hlt' : q.sent.length < evs.length := hall ▸ hlt
  have hunread := h.inv.logs.delivers.unread j q hq hread
  rw [h.inv.logs.ordered.query_all, h.group q hq] at hunread
  have hstep : v.step K (.log (.poll j)) = some { v with logs := v.logs.set j { q with
      toProcess := v.logs.log.getOccurrencesForGroupAfterId q.group q.last } } := by
    simp only [Litigation.step, LogSystem.step, hq, h.running q hq hlt', hread, and_self, if_true,
      Option.map_some]
  have hev : (Event.log (.poll j) : Event S).Of j group := rfl
  apply Advances.step hev hstep
  cases hrows : v.logs.log.getOccurrencesForGroupAfterId group q.last with
  | nil =>
    -- there are still rows to read
    have hlength := congrArg List.length hunread
    rw [hrows, List.length_map, List.length_append, List.length_map, List.map_nil,
      List.length_nil, Nat.add_zero] at hlength
    have hle := (h.replayable hgoal).length_le
    rw [hlength] at hle
    exact absurd hle (Nat.not_le_of_lt hlt')
  | cons row rest =>
    apply (h.step hgoal hev hstep).advances_send hgoal (Function.update_self ..) ht hlt hall
    rw [h.group q hq]
    exact hrows

private theorem advances (h : Recovering K w j group evs v)
    (hgoal : Replayable K w.logs.log group evs goal) (ht : v.loops j = .inl t)
    (hlt : t.handled.length < evs.length) : Advances K j group v t := by
  cases hq : v.logs.processors j with
  | none =>
    have hstep : v.step K (.log (.start j group)) =
        some { v with logs := v.logs.set j (.new group) } := by
      simp only [Litigation.step, LogSystem.step, hq, Option.map_some]
    have hev : (Event.log (.start j group) : Event S).Of j group := ⟨rfl, rfl⟩
    obtain rfl := Sum.inl.inj ((h.inv.fresh j hq).symm.trans ht)
    apply Advances.step hev hstep
    exact (h.step hgoal hev hstep).advances_poll hgoal (Function.update_self ..) ht hlt rfl rfl
  | some q =>
    obtain hsent | hall := Nat.lt_or_eq_of_le (h.inv.computed j q t hq ht).handled.length_le
    · exact h.advances_receive hgoal hq ht hlt hsent
    · cases hread : q.toProcess with
      | nil => exact h.advances_poll hgoal hq ht hlt hall.symm hread
      | cons row rest => exact h.advances_send hgoal hq ht hlt hall.symm hread

private theorem arrives (h : Recovering K w j group evs v)
    (hgoal : Replayable K w.logs.log group evs goal) (ht : v.loops j = .inl t)
    (hle : t.handled.length ≤ evs.length) :
    ∃ u, Reaches K (Event.Of j group) v u ∧ u.loops j = .inl goal := by
  obtain ⟨n, hn⟩ := Nat.exists_eq_add_of_le hle
  induction n generalizing v t with
  | zero =>
    obtain rfl := h.eq_goal hgoal ht hn.symm
    exact ⟨v, Run.refl, ht⟩
  | succ n ih =>
    obtain ⟨v', t', hrun, ht', hlength⟩ := h.advances hgoal ht (by omega)
    obtain ⟨u, hrest, hu⟩ := ih (h.reaches hgoal hrun) ht' (by omega) (by omega)
    exact ⟨u, hrun.trans hrest, hu⟩

private theorem on_way (h : Recovering K w j group evs v)
    (hgoal : Replayable K w.logs.log group evs goal) (hev : ev.Of j group)
    (hstep : v.step K ev = some v') (ht : v.loops j = .inl t)
    (hlt : t.handled.length < evs.length) :
    ∃ t', v'.loops j = .inl t' ∧ t'.handled.length ≤ evs.length := by
  cases ev with
  | log ev =>
    obtain ⟨logs, -, rfl⟩ := Option.map_eq_some_iff.mp hstep
    exact ⟨t, ht, hlt.le⟩
  | emit i o id =>
    obtain ⟨q, logs, -, -, -, rfl⟩ := step_emit hstep
    exact ⟨t, ht, hlt.le⟩
  | receive i keymap processes =>
    obtain ⟨rfl, hkeymap, hprocesses⟩ := hev
    obtain ⟨q, s, ev, hq, hs, hnext, rfl⟩ := step_receive hstep
    obtain rfl := Sum.inl.inj (hs.symm.trans ht)
    obtain ⟨t', hturn, hlength⟩ := h.turn_eq hgoal hq ht hlt hnext
    refine ⟨t', ?_, hlength ▸ hlt⟩
    rw [answers_eq hkeymap hprocesses, hturn]
    exact Function.update_self ..
  | closed i => cases hev

end Recovering

/-- A litigator that crashes can start again at any later time, whatever others have written to the
log in between. However many of its own steps it takes, and whatever entries its periodic actions add
meanwhile, it has been in the state in which it was, or can still come to it. It writes nothing but
entries for its transactions, and leaves the other litigators alone. -/
theorem litigator_restarts (hrun : Reaches K (fun _ => True) .initial w)
    (hlater : Reaches K (fun _ => True) w v) (hp : w.logs.processors i = some p)
    (hs : w.loops i = .inl s) (hfresh : v.logs.processors j = none)
    (hown : Reaches K (Event.Of j p.group) v v') :
    Emitted K p.group v.logs.log v'.logs.log ∧
      (∀ i ≠ j, v'.logs.processors i = v.logs.processors i ∧ v'.loops i = v.loops i) ∧
      ((∃ u, Reaches K (Event.Of j p.group) v' u ∧
          u.loops j = .inl { s with eventCounter := s.handled.length }) ∨
        ∃ u, Reaches K (Event.Of j p.group) v u ∧ Reaches K (Event.Of j p.group) u v' ∧
          u.loops j = .inl { s with eventCounter := s.handled.length }) := by
  have hinv := hrun.inv initial_inv
  have hcomputed := hinv.computed i p s hp hs
  obtain ⟨hreplayed, hstate⟩ := hinv.recomputed hp hs hlater.extends
  have hgoal : Replayable K v.logs.log p.group s.handled
      { s with eventCounter := s.handled.length } := by
    constructor
    · exact ((hinv.logs.follows i p hp).grow hlater.extends.occurrences).rows_of_sent
        hcomputed.handled
    · have hcounter : s.handled.length ≤ s.eventCounter :=
        hcomputed.counted.elim (fun heq => heq.ge) fun hquiet => hquiet.1
      rw [hreplayed] at hstate
      have hquiet := LitigatedState.eventLoop_quiet hstate (by rwa [List.length_map])
      rwa [List.length_map] at hquiet
  have hstart : Recovering K v j p.group s.handled v :=
    .start (hlater.inv hinv) hfresh
  have hloop : v.loops j = .inl .initial := (hlater.inv hinv).fresh j hfresh
  have hway : Recovering K v j p.group s.handled v' ∧
      ((∃ t, v'.loops j = .inl t ∧ t.handled.length ≤ s.handled.length) ∨
        ∃ u, Reaches K (Event.Of j p.group) v u ∧ Reaches K (Event.Of j p.group) u v' ∧
          u.loops j = .inl { s with eventCounter := s.handled.length }) := by
    induction hown with
    | refl => exact ⟨hstart, .inl ⟨.initial, hloop, Nat.zero_le _⟩⟩
    | @tail v₁ v₂ hbefore hstep ih =>
      obtain ⟨ev, hev, hstep⟩ := hstep
      obtain ⟨h, hway⟩ := ih
      refine ⟨h.step hgoal hev hstep, ?_⟩
      obtain ⟨t, ht, hle⟩ | ⟨u, hvu, huv, hu⟩ := hway
      · obtain hlt | hall := Nat.lt_or_eq_of_le hle
        · exact .inl (h.on_way hgoal hev hstep ht hlt)
        · obtain rfl := h.eq_goal hgoal ht hall
          exact .inr ⟨v₁, hbefore, Run.single hev hstep, ht⟩
      · exact .inr ⟨u, hvu, huv.tail hev hstep, hu⟩
  obtain ⟨h, hway⟩ := hway
  refine ⟨h.log, h.others, hway.imp_left ?_⟩
  intro hbefore
  obtain ⟨t, ht, hle⟩ := hbefore
  exact h.arrives hgoal ht hle

end Litigation

/-- A third litigator has handled three events and has emitted the transaction in its place. -/
def thirdLitigator : List (Litigation.Event oneObservation) :=
  [.log (.start 2 2), .log (.poll 2)] ++ handleNext 2 ++ handleNext 2 ++ handleNext 2 ++
  handleNext 2 ++ [.log (.send 2 true), .emit 2 (eventOf (.str "emitted")) 8]

private theorem thirdLitigator_occurs : (thirdLitigator.foldlM (Litigation.step oneObservationCodec)
    bothLitigators).isSome := by
  decide +kernel

/-- It comes to the state of the first. -/
theorem litigator_restarts_both : ∃ (s : LitigatedState oneObservation) (v u : Litigation _),
    s.contract = .ok (1 : ℕ) ∧
    Litigation.Reaches oneObservationCodec (Litigation.Event.Of 2 2) bothLitigators v ∧
    v.logs.log.occurrences.length = bothLitigators.logs.log.occurrences.length + 1 ∧
    Litigation.Emitted oneObservationCodec 2 bothLitigators.logs.log v.logs.log ∧
    u.loops 2 = .inl { s with eventCounter := s.handled.length } := by
  obtain ⟨p, s, hp, hgroup, hs, -, hcontract⟩ := bothLitigators_first
  let v := (thirdLitigator.foldlM (Litigation.step oneObservationCodec) bothLitigators).get
    thirdLitigator_occurs
  have hown : Litigation.Reaches oneObservationCodec (Litigation.Event.Of 2 2) bothLitigators v := by
    apply Run.of_foldlM _ (Option.some_get thirdLitigator_occurs).symm
    intro ev hev
    simp only [thirdLitigator, handleNext, List.cons_append, List.nil_append, List.mem_cons,
      List.not_mem_nil, or_false] at hev
    rcases hev with rfl | rfl | rfl | rfl | rfl | rfl | rfl | rfl | rfl | rfl | rfl | rfl <;>
      simp [Litigation.Event.Of]
  have hmore : v.logs.log.occurrences.length =
      bothLitigators.logs.log.occurrences.length + 1 := by
    decide +kernel
  have hown' : Litigation.Reaches oneObservationCodec (Litigation.Event.Of 2 p.group)
      bothLitigators v := by
    rw [hgroup]
    exact hown
  obtain ⟨hemitted, -, hstate⟩ := Litigation.litigator_restarts bothLitigators_reached Run.refl hp hs
    rfl hown'
  rw [hgroup] at hemitted
  obtain ⟨u, -, hu⟩ | ⟨u, -, -, hu⟩ := hstate
  · exact ⟨s, v, u, hcontract, hown, hmore, hemitted, hu⟩
  · exact ⟨s, v, u, hcontract, hown, hmore, hemitted, hu⟩

end JudicaVM
