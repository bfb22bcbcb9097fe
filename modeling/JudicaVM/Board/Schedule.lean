import JudicaVM.Lib.TimerQueue
import JudicaVM.Board.Clock

/-!
# Scheduled callbacks

The registry of callbacks is a queue of timers. Every callback that is scheduled in the run of a game
runs once, in the first round after which its time has come.
-/

namespace JudicaVM

open Checked Std OrderedMap Transition TimerQueue GameBoard

variable {setup : GameSetup} {g g' : GameBoard} {mv : MoveEnvelope} {key : String}
  {sender : EntityID} {r : Except MoveRejectReason Unit} {calls : List (MoveEnvelope × String)}
  {es : List (Entry Callback)} {cb : Callback} {cbs : List Callback}

private theorem dequeued_callbacks : g.dequeued.callbacks = splitOff g.callbacks
    (g.elapsedTime + 1) := rfl

namespace GameBoard

/-- What the actions of callbacks do to the queue, up to the first action that aborts. Only
`schedule` adds to it, so that what an action scheduled is what the queue has gained. -/
def actions : List Callback → GameBoard → List (Entry Callback)
  | [], _ => []
  | cb :: rest, g =>
    .ran cb ::
      match cb.action g with
      | .ok g' => (added g.callbacks g'.callbacks).map .scheduled ++ actions rest g'
      | .error _ => []

/-- What one round of callbacks does to the queue: it is split, and the callbacks that are due run. -/
def roundHistory (clocked : GameBoard) : List (Entry Callback) :=
  if clocked.elapsedTime + 1 < 2 ^ 64 then
    .drained clocked.elapsedTime :: actions clocked.due clocked.dequeued
  else
    []

/-- What one call of `play` does to the queue: a round of callbacks, and what the move schedules. -/
def callHistory (g : GameBoard) (mv : MoveEnvelope) (key : String) : List (Entry Callback) :=
  match g.report mv key with
  | [] => []
  | (sender, _) :: _ =>
    match g.clockSet sender mv with
    | .error _ => []
    | .ok clocked =>
      roundHistory clocked ++
        match CallbackRegistry.run clocked, g.play mv key with
        | .ok ticked, .ok (_, g') => (added ticked.callbacks g'.callbacks).map .scheduled
        | _, _ => []

/-- What a run of calls does to the queue. -/
def callsHistory : List (MoveEnvelope × String) → GameBoard → List (Entry Callback)
  | [], _ => []
  | (mv, key) :: rest, g =>
    g.callHistory mv key ++
      match g.play mv key with
      | .ok x => callsHistory rest x.2
      | .error _ => []

/-- What the construction of a board and a run of calls do to the queue. -/
def history (calls : List (MoveEnvelope × String)) (g : GameBoard) : List (Entry Callback) :=
  (added ∅ g.callbacks).map .scheduled ++ callsHistory calls g

end GameBoard
namespace GameBoard

/-- The callbacks that were scheduled between two boards, in order. -/
def Passes (g g' : GameBoard) (l : List Callback) : Prop :=
  g'.callbacks = l.foldl (TimerQueue.schedule Callback.time) g.callbacks

private theorem Passes.mem_queue {l : List Callback} (h : g.Passes g' l) :
    cb ∈ g'.queue ↔ cb ∈ l ∨ cb ∈ g.queue := by
  rw [queue, h, bag_foldl_schedule, Multiset.mem_add, Multiset.mem_coe]
  rfl

/-- Callbacks that come again have a period. -/
def Periodic (g : GameBoard) : Prop := ∀ cb ∈ g.queue, cb.issues → 0 < cb.period

end GameBoard

private theorem Trace.passes {P : Event → Prop} (hP : ∀ e, P e → ∀ bound, e ≠ .dequeue bound)
    (h : Trace P g g') : ∃ l, g.Passes g' l ∧ ∀ cb ∈ l, P (.schedule cb) := by
  induction h with
  | refl => exact ⟨[], rfl, by simp⟩
  | tail _ hstep ih =>
    obtain ⟨l, hl, hall⟩ := ih
    obtain ⟨e, he, hstep⟩ := hstep
    have hsame (a b : GameBoard) (ha : g.Passes a l) (hb : b.callbacks = a.callbacks) :
        ∃ l, g.Passes b l ∧ ∀ cb ∈ l, P (.schedule cb) :=
      ⟨l, hb.trans ha, hall⟩
    cases hstep with
    | schedule cb hcb =>
      refine ⟨l ++ [cb], ?_, ?_⟩
      · rw [Passes, List.foldl_append, ← hl]
        rfl
      · intro c hc
        rcases List.mem_append.mp hc with hc | hc
        · exact hall c hc
        · rwa [List.mem_singleton.mp hc]
    | dequeue bound => exact absurd rfl (hP _ he bound)
    | _ => exact hsame _ _ hl rfl

private theorem Producer.sell_callbacks {p p' : Producer} (hi : g.Inv) (hb : g.Base)
    (hp : g.ProducerSound p) (h : p.sell g = .ok (p', g')) : g'.callbacks = g.callbacks := by
  simp only [sell, bind_eq_ok_iff, pure_eq_ok, Except.ok.injEq, Prod.mk.injEq] at h
  obtain ⟨⟨p1, g1⟩, hprepare, _, _, ⟨_, g2⟩, htrade, rfl, rfl⟩ := h
  obtain ⟨heffect, _, hid, _, _⟩ := prepare_effect hi hb hp hprepare
  obtain ⟨htrace, _⟩ := prepare_trace (U := fun _ => False) hi hp (fun h => h) hprepare
  have hi1 := htrace.inv hi
  have hp1 := (htrace.extends hi).producerSound hp
  have hsell := ConstantFunctionMarketMaker.doSellTrade_trace hi1 (hid ▸ hp1.party) htrade
  exact (Trace.framed hi1 (hsell.mono fun _ => IsTrade.isQuiet)).callbacks.trans heffect.callbacks

private theorem Producer.sell_id {p p' : Producer} (hi : g.Inv) (hp : g.ProducerSound p)
    (h : p.sell g = .ok (p', g')) : p'.id = p.id := by
  simp only [sell, bind_eq_ok_iff, pure_eq_ok, Except.ok.injEq, Prod.mk.injEq] at h
  obtain ⟨⟨p1, g1⟩, hprepare, _, _, ⟨_, g2⟩, htrade, rfl, rfl⟩ := h
  exact (prepare_trace (U := fun _ => False) hi hp (fun h => h) hprepare).2.1

/-- A callback comes again after the period of the one that ran, under the same id. -/
structure Callback.Repeats (cb : Callback) (g : GameBoard) (next : Callback) : Prop where
  time : next.time = g.elapsedTime + cb.period
  period : next.period = cb.period
  issues : cb.issues
  again : next.issues
  id : next.producer?.map (·.id) = cb.producer?.map (·.id)

/-- An action schedules at most one callback, which repeats the one that ran. -/
theorem Callback.action_repeats (hi : g.Inv) (hb : g.Base) (hcb : g.CallbackSound cb)
    (h : cb.action g = .ok g') :
    ∃ next : Option Callback, g.Passes g' next.toList ∧ ∀ c ∈ next, cb.Repeats g c := by
  have hproducer (callback : Producer → Callback) (p : Producer) (hp : cb.producer? = some p)
      (hsome : ∀ q, (callback q).producer? = some q) (htime : ∀ q, (callback q).time = q.elapsedTime)
      (hperiod : ∀ q, (callback q).period = q.adjustsEvery) (hcb' : callback p = cb)
      (hissues : ∀ q, (callback q).issues) (h : p.action callback g = .ok g') :
      ∃ next : Option Callback, g.Passes g' next.toList ∧ ∀ c ∈ next, cb.Repeats g c := by
    simp only [Producer.action_eq_sell, bind_eq_ok_iff, add_eq_ok_iff] at h
    obtain ⟨⟨p', b⟩, hsell, _, ⟨_, rfl⟩, balance, _, h⟩ := h
    obtain ⟨hclock, hadjusts⟩ := Producer.sell_clock hi (hcb.producer p hp) hsell
    have hsame := Producer.sell_callbacks hi hb (hcb.producer p hp) hsell
    have hid := Producer.sell_id hi (hcb.producer p hp) hsell
    have hcbperiod : cb.period = p.adjustsEvery := by rw [← hcb', hperiod]
    split at h
    · cases h
      refine ⟨some (callback { p' with elapsedTime := b.elapsedTime + p'.adjustsEvery }), ?_, ?_⟩
      · rw [Passes, Option.toList_some, List.foldl_cons, List.foldl_nil, ← hsame]
        rfl
      · intro c hc
        cases hc
        refine ⟨?_, ?_, hcb' ▸ hissues p, hissues _, ?_⟩
        · rw [htime, hcbperiod, ← hadjusts, ← hclock.1]
        · rw [hperiod, hcbperiod, ← hadjusts]
        · rw [hsome, hp, Option.map_some, Option.map_some, ← hid]
    · cases h
      exact ⟨none, hsame, by simp⟩
  cases cb with
  | powerPlantEvent ev =>
    simp only [Callback.action, PowerPlantEvent.action_eq_pay, bind_eq_ok_iff, add_eq_ok_iff,
      pure_eq_ok, Except.ok.injEq] at h
    obtain ⟨b, hpay, _, ⟨_, rfl⟩, rfl⟩ := h
    have hclock := PowerPlantEvent.pay_clock hpay
    have hsame : b.callbacks = g.callbacks := by
      simp only [PowerPlantEvent.pay, bind_eq_ok_iff, pure_eq_ok, Except.ok.injEq] at hpay
      obtain ⟨_, _, _, _, rfl⟩ := hpay
      rfl
    refine ⟨some (.powerPlantEvent { ev with time := b.elapsedTime + ev.period }), ?_, ?_⟩
    · rw [Passes, Option.toList_some, List.foldl_cons, List.foldl_nil, ← hsame]
      rfl
    · intro c hc
      cases hc
      rw [hclock.1]
      exact ⟨rfl, rfl, rfl, rfl, rfl⟩
  | asicProducer p =>
    exact hproducer _ p rfl (fun _ => rfl) (fun _ => rfl) (fun _ => rfl) rfl (fun _ => rfl) h
  | steelSmelter p =>
    exact hproducer _ p rfl (fun _ => rfl) (fun _ => rfl) (fun _ => rfl) rfl (fun _ => rfl) h
  | siliconRefinery p =>
    exact hproducer _ p rfl (fun _ => rfl) (fun _ => rfl) (fun _ => rfl) rfl (fun _ => rfl) h
  | concreteMiller p =>
    exact hproducer _ p rfl (fun _ => rfl) (fun _ => rfl) (fun _ => rfl) rfl (fun _ => rfl) h
  | coinLockup l =>
    have htrace : Trace IsQuiet g g' :=
      CoinLockup.action_trace hi (hcb.lockup l rfl) (fun _ _ => trivial) h
    exact ⟨none, (Trace.framed hi htrace).callbacks, by simp⟩

private theorem Callback.action_passes (hi : g.Inv) (hb : g.Base) (hcb : g.CallbackSound cb)
    (h : cb.action g = .ok g') :
    ∃ l, g.Passes g' l ∧
      ∀ c ∈ l, c.time = g.elapsedTime + cb.period ∧ c.period = cb.period ∧ cb.issues := by
  obtain ⟨next, hpasses, hall⟩ := Callback.action_repeats hi hb hcb h
  refine ⟨next.toList, hpasses, fun c hc => ?_⟩
  have hrepeats := hall c (Option.mem_toList.mp hc)
  exact ⟨hrepeats.time, hrepeats.period, hrepeats.issues⟩

namespace GameBoard

private theorem actions_isDrain : ∀ e ∈ actions cbs g, e.isDrain = false := by
  induction cbs generalizing g with
  | nil => simp [actions]
  | cons cb cbs ih =>
    intro e he
    rw [actions, List.mem_cons] at he
    rcases he with rfl | he
    · rfl
    · split at he
      · rcases List.mem_append.mp he with he | he
        · obtain ⟨c, _, rfl⟩ := List.mem_map.mp he
          rfl
        · exact ih e he
      · cases he

private theorem filterMap_ran_scheduled (l : List Callback) :
    (l.map Entry.scheduled).filterMap Entry.ran? = [] := by
  simp [List.filterMap_map, Function.comp_def, Entry.ran?]

private theorem ran_actions : (actions cbs g).filterMap Entry.ran? <+: cbs ∧
    ∀ g', CallbackRegistry.runAll cbs g = .ok g' → (actions cbs g).filterMap Entry.ran? = cbs := by
  induction cbs generalizing g with
  | nil => exact ⟨List.nil_prefix, fun _ _ => rfl⟩
  | cons cb cbs ih =>
    have hcons (l : List (Entry Callback)) :
        (Entry.ran cb :: l).filterMap Entry.ran? = cb :: l.filterMap Entry.ran? := rfl
    rw [actions, hcons]
    simp only [CallbackRegistry.runAll]
    cases haction : cb.action g with
    | error e => exact ⟨(List.prefix_cons_inj cb).mpr List.nil_prefix, fun g' h => by cases h⟩
    | ok g1 =>
      simp only [List.filterMap_append, filterMap_ran_scheduled, List.nil_append, ok_bind]
      exact ⟨(List.prefix_cons_inj cb).mpr ih.1, fun g' h => by rw [ih.2 g' h]⟩

/-- The callbacks of a list can run on a board. -/
structure Runnable (g : GameBoard) (cbs : List Callback) : Prop where
  inv : g.Inv
  base : g.Base
  sound : ∀ cb ∈ cbs, g.CallbackSound cb

theorem Runnable.next (h : g.Runnable (cb :: cbs)) (haction : cb.action g = .ok g') :
    g'.Runnable cbs ∧ g'.elapsedTime = g.elapsedTime := by
  have htrace := Callback.action_trace (U := fun _ => False) h.inv (h.sound cb List.mem_cons_self)
    (fun _ => False.elim) haction
  have hext := htrace.extends h.inv
  exact ⟨⟨htrace.inv h.inv, Trace.base h.inv h.base htrace,
    fun c hc => hext.callbackSound (h.sound c (List.mem_cons_of_mem _ hc))⟩,
    (htrace.sameClock fun e he => he.ne_note).1⟩

private theorem Runnable.holds (h : g.Runnable cbs) (hholds : Holds Callback.time g.callbacks es)
    (hrun : CallbackRegistry.runAll cbs g = .ok g') :
    Holds Callback.time g'.callbacks (es ++ actions cbs g) := by
  induction cbs generalizing g es with
  | nil =>
    cases hrun
    rwa [actions, List.append_nil]
  | cons cb cbs ih =>
    simp only [CallbackRegistry.runAll, bind_eq_ok_iff] at hrun
    obtain ⟨g1, haction, hrun⟩ := hrun
    obtain ⟨l, hl, _⟩ := Callback.action_passes h.inv h.base (h.sound cb List.mem_cons_self) haction
    have hnext := (hholds.ran cb).schedule_all hl
    have hrest := ih (h.next haction).1 hnext hrun
    simpa only [actions, haction, List.append_assoc, List.cons_append, List.nil_append]
      using hrest

/-- What a round leaves in the queue was there before or comes again after the period of a callback
that ran. -/
theorem Runnable.mem_queue (h : g.Runnable cbs) (hrun : CallbackRegistry.runAll cbs g = .ok g')
    {c : Callback} (hc : c ∈ g'.queue) :
    c ∈ g.queue ∨ ∃ cb ∈ cbs, c.time = g.elapsedTime + cb.period ∧ c.period = cb.period ∧ cb.issues := by
  induction cbs generalizing g with
  | nil =>
    cases hrun
    exact .inl hc
  | cons cb cbs ih =>
    simp only [CallbackRegistry.runAll, bind_eq_ok_iff] at hrun
    obtain ⟨g1, haction, hrun⟩ := hrun
    obtain ⟨l, hl, hperiod⟩ := Callback.action_passes h.inv h.base (h.sound cb List.mem_cons_self)
      haction
    obtain ⟨hnext, htime⟩ := h.next haction
    rcases ih hnext hrun with hold | ⟨cb', hcb', hagain⟩
    · rcases hl.mem_queue.mp hold with hnew | hold
      · exact .inr ⟨cb, List.mem_cons_self, hperiod c hnew⟩
      · exact .inl hold
    · rw [htime] at hagain
      exact .inr ⟨cb', List.mem_cons_of_mem _ hcb', hagain⟩

end GameBoard

theorem Reachable.runnable (h : Reachable setup g) {clocked : GameBoard}
    (hclock : g.clockSet sender mv = .ok clocked) : clocked.dequeued.Runnable clocked.due := by
  have hi := h.inv
  have hnotes : Trace (fun _ => True) g clocked := notes_trace trivial (clockSet_eq hclock)
  have hi1 := hnotes.inv hi
  have hdequeue : Trace (fun _ => True) clocked clocked.dequeued := dequeued_trace fun _ => trivial
  exact ⟨hdequeue.inv hi1, Trace.base hi1 (Trace.base hi h.supplied.1 hnotes) hdequeue,
    fun cb hcb => hi1.due_sound hcb⟩

theorem mem_queue_iff : cb ∈ g.queue ↔ g.Pending cb := mem_bag

/-- After a round every pending callback is in the future, and those that come again have a
period. -/
theorem Reachable.future (h : Reachable setup g) (hperiodic : g.Periodic) {clocked ticked : GameBoard}
    (hclock : g.clockSet sender mv = .ok clocked)
    (hrun : CallbackRegistry.run clocked = .ok ticked) :
    ticked.elapsedTime = clocked.elapsedTime ∧
      (∀ cb ∈ ticked.queue, clocked.elapsedTime < cb.time) ∧ ticked.Periodic := by
  simp only [CallbackRegistry.run, bind_eq_ok_iff, add_eq_ok_iff] at hrun
  obtain ⟨_, ⟨_, rfl⟩, hrun⟩ := hrun
  have hrunnable := h.runnable hclock
  have hcallbacks := (clockSet_spec hclock).2.1.2
  have htrace := CallbackRegistry.runAll_trace (U := fun _ => False) hrunnable.inv hrunnable.sound
    (fun _ => False.elim) hrun
  have hclocked : ∀ cb ∈ clocked.queue, cb.issues → 0 < cb.period := by
    rw [queue, hcallbacks]
    exact hperiodic
  have hkept {cb : Callback} (hcb : cb ∈ clocked.dequeued.queue) :
      clocked.elapsedTime < cb.time ∧ cb ∈ clocked.queue := by
    constructor
    · obtain ⟨time, l, hl, hmem⟩ := mem_queue_iff.mp hcb
      have hfiled := hrunnable.base.filed time l hl cb hmem
      rw [dequeued_callbacks, splitOff, ExtTreeMap.getElem?_filter', Option.filter_eq_some_iff] at hl
      have := of_decide_eq_true hl.2
      omega
    · rw [← queue_dequeued]
      exact Multiset.mem_add.mpr (.inl hcb)
  have hdue {cb : Callback} (hcb : cb ∈ clocked.due) : cb ∈ clocked.queue := by
    rw [← queue_dequeued]
    exact Multiset.mem_add.mpr (.inr (Multiset.mem_coe.mpr hcb))
  refine ⟨(htrace.sameClock fun e he => he.ne_note).1, fun cb hcb => ?_, fun cb hcb hissues => ?_⟩
  · rcases hrunnable.mem_queue hrun hcb with hold | ⟨cb', hcb', htime, _, hissues⟩
    · exact (hkept hold).1
    · have hpos := hclocked cb' (hdue hcb') hissues
      have hsame : clocked.dequeued.elapsedTime = clocked.elapsedTime := rfl
      omega
  · rcases hrunnable.mem_queue hrun hcb with hold | ⟨cb', hcb', _, hperiod, hissues'⟩
    · exact hclocked cb (hkept hold).2 hissues
    · rw [hperiod]
      exact hclocked cb' (hdue hcb') hissues'

private theorem playInner_passes {d : GameMove} (hi : g.Inv) (hsender : g.IsUser sender)
    (hdest : ∀ s, d = .sendTokens s → g.Party s.dest) (h : g.playInner d sender = .ok (r, g')) :
    ∃ l, g.Passes g' l ∧ ∀ cb ∈ l, cb.issues = false := by
  rcases playInner_cases (U := fun _ => False) hi hsender (fun _ => False.elim) hdest h with
    htrace | ⟨s, _, hchat⟩ | ⟨l, nft, _, _, _, rfl⟩ | ⟨p, nft, sale, _, _, rfl⟩
  · obtain ⟨l, hl, hall⟩ := htrace.passes fun e he bound heq => by
      subst heq
      exact he
    exact ⟨l, hl, hall⟩
  · refine ⟨[], ?_, by simp⟩
    rw [playChat_eq hchat]
    rfl
  · exact ⟨[], rfl, by simp⟩
  · exact ⟨[], rfl, by simp⟩

/-- The queue of a board holds what is waiting, and what has run is what was due. -/
structure GameBoard.Scheduling (g : GameBoard) (es : List (Entry Callback)) : Prop where
  runs : RunsInOrder Callback.time (· = ·) es
  holds : Holds Callback.time g.callbacks es
  periodic : g.Periodic

private theorem GameBoard.Scheduling.of_eq (h : g.Scheduling es)
    (heq : g'.callbacks = g.callbacks) : g'.Scheduling es where
  runs := h.runs
  holds := heq ▸ h.holds
  periodic := by
    rw [Periodic, queue, heq]
    exact h.periodic

theorem play_callbacks (hr : ∀ sender, ¬ g.Reports mv key sender)
    (h : g.play mv key = .ok (r, g')) : g'.callbacks = g.callbacks := by
  by_cases hreach : ∃ sender, g.Reaches mv key sender
  · obtain ⟨sender, hreaches⟩ := hreach
    rw [play_of_reaches hreaches, execute] at h
    split at h
    · cases h
      rfl
    · rename_i move hmove
      exact absurd ⟨hreaches, by rw [hmove]; rfl⟩ (hr sender)
  · have hignored := (play_ignored (fun sender hs => hreach ⟨sender, hs⟩) h).1
    rw [Ignored] at hignored
    rw [hignored]

private theorem Reachable.roundHistory (h : Reachable setup g) (hs : g.Scheduling es)
    {clocked : GameBoard}
    (hclock : g.clockSet sender mv = .ok clocked) :
    RunsInOrder Callback.time (· <+: ·) (es ++ roundHistory clocked) ∧
      ∀ ticked, CallbackRegistry.run clocked = .ok ticked →
        ticked.Scheduling (es ++ GameBoard.roundHistory clocked) := by
  have hcallbacks := (clockSet_spec hclock).2.1.2
  have hholds : Holds Callback.time clocked.callbacks es := hcallbacks ▸ hs.holds
  have hdue := hholds.dueBefore clocked.elapsedTime
  have hran := @ran_actions clocked.dequeued clocked.due
  rw [← block_quiet actions_isDrain] at hran
  rw [GameBoard.roundHistory]
  by_cases hroom : clocked.elapsedTime + 1 < 2 ^ 64
  · rw [if_pos hroom]
    refine ⟨(hs.runs.mono fun l l' heq => heq ▸ List.prefix_rfl).drain _ actions_isDrain
      ⟨clocked.due, hdue, hran.1⟩, fun ticked hrun => ?_⟩
    have hfuture := h.future hs.periodic hclock hrun
    simp only [CallbackRegistry.run, add_of_lt hroom, ok_bind] at hrun
    refine ⟨hs.runs.drain _ actions_isDrain ⟨clocked.due, hdue, hran.2 ticked hrun⟩, ?_, hfuture.2.2⟩
    have hrest := (h.runnable hclock).holds (hholds.splitOff clocked.elapsedTime) hrun
    rwa [List.append_assoc, List.singleton_append] at hrest
  · rw [if_neg hroom, List.append_nil]
    refine ⟨hs.runs.mono fun l l' heq => heq ▸ List.prefix_rfl, fun ticked hrun => ?_⟩
    simp only [CallbackRegistry.run, bind_eq_ok_iff, add_eq_ok_iff] at hrun
    obtain ⟨_, ⟨hlt, _⟩, _⟩ := hrun
    exact absurd hlt hroom

/-- A call that reports and returns has run a round of callbacks, and then its move. -/
theorem GameBoard.Reports.round (hr : g.Reports mv key sender) (hi : g.Inv)
    (h : g.play mv key = .ok (r, g')) :
    ∃ clocked ticked l, g.clockSet sender mv = .ok clocked ∧
      CallbackRegistry.run clocked = .ok ticked ∧ ticked.Passes g' l ∧
      ∀ cb ∈ l, cb.issues = false := by
  obtain ⟨move, g1, _, ⟨hexec, g2, hinner, hnotes⟩, _⟩ := hr.executes hi h
  obtain ⟨clocked, ticked, hclock, hroom, hrun, hlog⟩ := hexec.stages
  obtain ⟨l, hl, hissues⟩ := playInner_passes (hexec.inv hi)
    ((hexec.extends_board hi).isUser (hexec.isUser hi)) (hexec.party_dest hi) hinner
  refine ⟨clocked, ticked, l, hclock, ?_, ?_, hissues⟩
  · rw [CallbackRegistry.run, add_of_lt hroom, ok_bind]
    exact hrun
  · have hlogged : g1.callbacks = ticked.callbacks := by rw [addToEventLog_eq hlog]; rfl
    rw [Passes, hnotes, ← hlogged]
    exact hl

private theorem GameBoard.Scheduling.move (h : g.Scheduling es) {l : List Callback}
    (hl : g.Passes g' l)
    (hissues : ∀ cb ∈ l, cb.issues = false) :
    g'.Scheduling (es ++ (added g.callbacks g'.callbacks).map .scheduled) where
  runs := h.runs.schedule_all _
  holds := h.holds.schedule_all hl
  periodic := by
    intro cb hcb hcb'
    rcases hl.mem_queue.mp hcb with hnew | hold
    · rw [hissues cb hnew] at hcb'
      cases hcb'
    · exact h.periodic cb hold hcb'

private theorem Reachable.callHistory (h : Reachable setup g) (hs : g.Scheduling es) :
    RunsInOrder Callback.time (· <+: ·) (es ++ g.callHistory mv key) ∧
      ∀ r g', g.play mv key = .ok (r, g') → g'.Scheduling (es ++ g.callHistory mv key) := by
  have hpre {es : List (Entry Callback)} (hruns : RunsInOrder Callback.time (· = ·) es) :
      RunsInOrder Callback.time (· <+: ·) es :=
    hruns.mono fun l l' heq => heq ▸ List.prefix_rfl
  by_cases hr : ∃ sender, g.Reports mv key sender
  · obtain ⟨sender, hr⟩ := hr
    simp only [GameBoard.callHistory, hr.report_eq]
    cases hplay : g.play mv key with
    | ok x =>
      obtain ⟨r, g'⟩ := x
      obtain ⟨clocked, ticked, l, hclock, hrun, hl, hissues⟩ := hr.round h.inv hplay
      have hmove := ((h.roundHistory hs hclock).2 ticked hrun).move hl hissues
      simp only [hclock, hrun, ← List.append_assoc]
      refine ⟨hpre hmove.runs, fun r1 g1 heq => ?_⟩
      cases heq
      exact hmove
    | error e =>
      refine ⟨?_, fun r g' heq => by cases heq⟩
      cases hclock : g.clockSet sender mv with
      | error e =>
        rw [List.append_nil]
        exact hpre hs.runs
      | ok clocked =>
        have hround := (h.roundHistory hs hclock).1
        cases CallbackRegistry.run clocked <;> simpa using hround
  · have hnone : ∀ sender, ¬ g.Reports mv key sender := fun sender hs => hr ⟨sender, hs⟩
    rw [GameBoard.callHistory, report_eq_nil hnone, List.append_nil]
    exact ⟨hpre hs.runs, fun r g' hplay => hs.of_eq (play_callbacks hnone hplay)⟩

private theorem addProducer_passes {callback : Producer → Callback} {hashAsset : TokenPointer}
    {adjustsEvery : ℕ} (h : addProducer g callback hashAsset adjustsEvery = .ok g') :
    ∃ p : Producer, p.adjustsEvery = adjustsEvery ∧ g.Passes g' [callback p] := by
  simp only [addProducer, EntityIDAllocator.make, bind_eq_ok_iff, add_eq_ok_iff, pure_eq_ok,
    Except.ok.injEq] at h
  obtain ⟨_, ⟨_, rfl⟩, rfl⟩ := h
  exact ⟨_, rfl, rfl⟩

private theorem GameBoard.Passes.trans {g'' : GameBoard} {l l' : List Callback} (h : g.Passes g' l)
    (h' : g'.Passes g'' l') : g.Passes g'' (l ++ l') := by
  rw [Passes, List.foldl_append, ← h]
  exact h'

/-- The first payout. -/
def firstPayout : Callback := .powerPlantEvent { time := 0, period := 11_003 }

/-- The construction of a board schedules the payout and the four producers, and nothing else. -/
theorem new_addProducers (h : GameBoard.new setup = .ok g) :
    ∃ b g5 g6 g7 g8 : GameBoard, b.callbacks = ∅ ∧
      addProducer (b.schedule firstPayout) .asicProducer b.asicTokenId 10_007 = .ok g5 ∧
      addProducer g5 .steelSmelter g5.steelTokenId 5_003 = .ok g6 ∧
      addProducer g6 .siliconRefinery g6.siliconTokenId 25_013 = .ok g7 ∧
      addProducer g7 .concreteMiller g7.concreteTokenId 14_009 = .ok g8 ∧
      g.callbacks = g8.callbacks := by
  obtain ⟨start, b, hstart, hplayers, hpost⟩ := new_stages h
  have htrace := addPlayers_trace hstart.inv hplayers
  have hi := htrace.inv hstart.inv
  obtain ⟨hadded, _⟩ := addPlayers_effect hstart.inv (sortedPlayers_nodup _)
    (fun k _ => by simp [hstart.keys]) hplayers
  obtain ⟨g1, g2, g3, g4, t1, t2, g5, g6, g7, g8, ⟨h1, h2, h3, h4⟩, _, _, ⟨h5, h6, h7, h8⟩,
    hmarkets, hrest, hplants⟩ := postInit_stages hi (hstart.materials.mono (htrace.extends hstart.inv))
      hpost
  have hi1 := (makeMarket_trace h1).inv hi
  have hi2 := (makeMarket_trace h2).inv hi1
  have hi3 := (makeMarket_trace h3).inv hi2
  have hi8 := hrest.inv (hmarkets.inv hi)
  obtain ⟨hstarted, _⟩ := addStartPlants_effect hi8
    (fun p hp => isUser_of_mem_sortedIds hi8 hp) hplants
  have hempty : g4.callbacks = ∅ := by
    rw [(makeMarket_effect hi3 h4).1.callbacks, (makeMarket_effect hi2 h3).1.callbacks,
      (makeMarket_effect hi1 h2).1.callbacks, (makeMarket_effect hi h1).1.callbacks,
      hadded.callbacks, hstart.callbacks]
  exact ⟨g4.withTokens t2, g5, g6, g7, g8, hempty, h5, h6, h7, h8, hstarted.callbacks⟩

theorem new_passes (h : GameBoard.new setup = .ok g) :
    ∃ l : List Callback, g.callbacks = l.foldl (TimerQueue.schedule Callback.time) ∅ ∧
      ∀ cb ∈ l, 0 < cb.period := by
  obtain ⟨b, g5, g6, g7, g8, hempty, h5, h6, h7, h8, hlast⟩ := new_addProducers h
  obtain ⟨asic, hasic, hpasses5⟩ := addProducer_passes h5
  obtain ⟨steel, hsteel, hpasses6⟩ := addProducer_passes h6
  obtain ⟨silicon, hsilicon, hpasses7⟩ := addProducer_passes h7
  obtain ⟨concrete, hconcrete, hpasses8⟩ := addProducer_passes h8
  have hpayout : b.Passes (b.schedule firstPayout) [firstPayout] := rfl
  have hall := hpayout.trans (hpasses5.trans (hpasses6.trans (hpasses7.trans hpasses8)))
  refine ⟨_, by rw [hlast, hall, hempty], ?_⟩
  simp only [List.cons_append, List.nil_append, List.mem_cons, List.not_mem_nil, or_false,
    forall_eq_or_imp, forall_eq, Callback.period, firstPayout, hasic, hsteel, hsilicon, hconcrete]
  decide

/-- The callbacks of a run are run exactly once and in order. -/
structure GameBoard.ScheduledOnce (calls : List (MoveEnvelope × String)) (g : GameBoard) : Prop where
  /-- Every round runs what is due in order, or the beginning of it if the call aborts. -/
  order : RunsInOrder Callback.time (· <+: ·) (history calls g)
  /-- In a run whose calls return every round runs all that is due. -/
  whole : ∀ g', playAll calls g = .ok g' → RunsInOrder Callback.time (· = ·) (history calls g)
  /-- What is pending after the run is what no round has run. -/
  pending : ∀ g', playAll calls g = .ok g' → Holds Callback.time g'.callbacks (history calls g)
  once : ∀ g', playAll calls g = .ok g' →
    ((history calls g).filterMap Entry.ran? ++ waiting Callback.time (history calls g)).Perm
      ((history calls g).filterMap Entry.scheduled?)
  future : ∀ b mv key sender clocked ticked, CallAt calls g b mv key → b.Reports mv key sender →
    b.clockSet sender mv = .ok clocked → CallbackRegistry.run clocked = .ok ticked →
      ∀ cb, ticked.Pending cb → ticked.elapsedTime < cb.time

private theorem new_scheduling (h : GameBoard.new setup = .ok g) :
    g.Scheduling ((added ∅ g.callbacks).map .scheduled) := by
  obtain ⟨l, hl, hperiod⟩ := new_passes h
  refine ⟨?_, ?_, fun cb hcb _ => ?_⟩
  · simpa using RunsInOrder.nil.schedule_all (added ∅ g.callbacks)
  · simpa using holds_empty.schedule_all hl
  · rw [queue, hl, bag_foldl_schedule, bag_empty, add_zero] at hcb
    exact hperiod cb hcb

private theorem Reachable.callsHistory (h : Reachable setup g) (hs : g.Scheduling es) :
    RunsInOrder Callback.time (· <+: ·) (es ++ callsHistory calls g) ∧
      ∀ g', playAll calls g = .ok g' → g'.Scheduling (es ++ GameBoard.callsHistory calls g) := by
  induction calls generalizing g es with
  | nil =>
    rw [GameBoard.callsHistory, List.append_nil]
    refine ⟨hs.runs.mono fun l l' heq => heq ▸ List.prefix_rfl, fun g' hrun => ?_⟩
    cases hrun
    exact hs
  | cons call calls ih =>
    obtain ⟨mv, key⟩ := call
    obtain ⟨hpre, hreturns⟩ := @Reachable.callHistory _ _ mv key _ h hs
    simp only [GameBoard.callsHistory, playAll]
    cases hplay : g.play mv key with
    | error e =>
      rw [List.append_nil]
      exact ⟨hpre, fun g' hrun => by cases hrun⟩
    | ok x =>
      obtain ⟨r, g1⟩ := x
      rw [← List.append_assoc]
      exact ih (h.play hplay) (hreturns r g1 hplay)

private theorem Reachable.periodic (h : Reachable setup g) : g.Periodic := by
  induction h with
  | new h => exact (new_scheduling h).periodic
  | @play g g' mv key r hg hplay ih =>
    by_cases hr : ∃ sender, g.Reports mv key sender
    · obtain ⟨sender, hr⟩ := hr
      obtain ⟨clocked, ticked, l, hclock, hrun, hl, hissues⟩ := hr.round hg.inv hplay
      have hticked := (hg.future ih hclock hrun).2.2
      intro cb hcb hcb'
      rcases hl.mem_queue.mp hcb with hnew | hold
      · rw [hissues cb hnew] at hcb'
        cases hcb'
      · exact hticked cb hold hcb'
    · have hnone : ∀ sender, ¬ g.Reports mv key sender := fun sender hs => hr ⟨sender, hs⟩
      rw [Periodic, queue, play_callbacks hnone hplay]
      exact ih

end JudicaVM
