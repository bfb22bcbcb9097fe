import JudicaVM.Lib.OrderStatistic
import JudicaVM.Board.Endowment
import JudicaVM.Board.Sequence

/-!
# The clock

Every call that executes its move reports a time. The clock is the running maximum of the medians of
the offsets that the players have reported, and the callbacks add their periods to it.
-/

namespace JudicaVM

open Checked Std OrderedMap Transition OrderStatistic GameBoard

variable {setup : GameSetup} {g g' : GameBoard} {mv : MoveEnvelope} {key : String}
  {sender : EntityID} {r : Except MoveRejectReason Unit} {calls : List (MoveEnvelope × String)}

namespace GameBoard

/-- The call of `play` reaches the clock: its move passes every check. -/
def Reports (g : GameBoard) (mv : MoveEnvelope) (key : String) (sender : EntityID) : Prop :=
  g.Reaches mv key sender ∧ (mv.d.sanitize { g with
    playerMoveSequence := g.playerMoveSequence.insert sender mv.sequence }).isOk

instance : Decidable (g.Reports mv key sender) := inferInstanceAs (Decidable (_ ∧ _))

/-- What a call reports: the player and the time. -/
def report (g : GameBoard) (mv : MoveEnvelope) (key : String) : List (EntityID × ℕ) :=
  match g.usersByKey[key]? with
  | some sender => if g.Reports mv key sender then [(sender, mv.timeMillis)] else []
  | none => []

theorem Reports.report_eq (h : g.Reports mv key sender) :
    g.report mv key = [(sender, mv.timeMillis)] := by
  simp only [report, h.1.1, if_pos h]

theorem report_eq_nil (h : ∀ sender, ¬ g.Reports mv key sender) : g.report mv key = [] := by
  unfold report
  split
  · exact if_neg (h _)
  · rfl

/-- The tick of a player who reports a time. -/
def reportedTick (g : GameBoard) (sender : EntityID) (time : ℕ) : Tick :=
  let tick := g.ticks.getD sender { firstTime := time, elapsed := 0 }
  { tick with elapsed := max tick.elapsed (time - tick.firstTime) }

/-- The offsets of all players who have reported, with a report that is just made. -/
def reportedOffsets (g : GameBoard) (sender : EntityID) (time : ℕ) : List ℕ :=
  (g.ticks.insert sender (g.reportedTick sender time)).toList.map (·.2.elapsed)

/-- A report leaves the clock before a bound. -/
def TimeBefore (g : GameBoard) (sender : EntityID) (time bound : ℕ) : Prop :=
  g.elapsedTime < bound ∧ MedianBefore (g.reportedOffsets sender time) bound

private theorem reportedOffsets_ne_nil {time : ℕ} : g.reportedOffsets sender time ≠ [] := by
  intro h
  have hmem : (sender, g.reportedTick sender time) ∈
      (g.ticks.insert sender (g.reportedTick sender time)).toList := by
    rw [ExtTreeMap.mem_toList_iff_getElem?_eq_some, OrderedMap.getElem?_insert, if_pos rfl]
  have := List.mem_map_of_mem (f := fun x : EntityID × Tick => x.2.elapsed) hmem
  rw [reportedOffsets] at h
  simp [h] at this

/-- The median is not computed when the middle two of an even number of offsets add up to too
much. -/
theorem medianElapsed_spec {l : List ℕ} (hne : l ≠ []) {m : ℕ}
    (h : medianElapsed (l.insertionSort (· ≤ ·)) = .ok m) :
    (l.length % 2 = 0 → MedianBefore l (2 ^ 63)) ∧ ∀ b, m < b ↔ MedianBefore l b := by
  have hsorted := List.pairwise_insertionSort (· ≤ ·) l
  have hperm := List.perm_insertionSort (· ≤ ·) l
  have hne' : l.insertionSort (· ≤ ·) ≠ [] := by
    intro h
    rw [h] at hperm
    exact hne hperm.symm.eq_nil
  simp only [← MedianBefore.perm hperm, ← hperm.length_eq]
  unfold medianElapsed at h
  split at h
  · rename_i heven
    simp only [bind_eq_ok_iff, sub_eq_ok_iff, add_eq_ok_iff, pure_eq_ok, Except.ok.injEq] at h
    obtain ⟨_, ⟨_, rfl⟩, _, ⟨hlt, rfl⟩, rfl⟩ := h
    simp only [medianBefore_even hsorted heven hne']
    exact ⟨fun _ => by omega, fun b => by omega⟩
  · rename_i hodd
    cases h
    exact ⟨fun heven => absurd heven hodd, fun b => (medianBefore_odd hsorted hodd).symm⟩

private theorem updateCurrentTime_spec {time : ℕ} (h : g.updateCurrentTime sender time = .ok g') :
    ((g.reportedOffsets sender time).length % 2 = 0 →
      MedianBefore (g.reportedOffsets sender time) (2 ^ 63)) ∧
    g' = { g with
      ticks := g.ticks.insert sender (g.reportedTick sender time)
      elapsedTime := g'.elapsedTime } ∧
    ∀ b, g'.elapsedTime < b ↔ g.TimeBefore sender time b := by
  simp only [updateCurrentTime, bind_eq_ok_iff, pure_eq_ok, Except.ok.injEq] at h
  obtain ⟨m, hm, rfl⟩ := h
  obtain ⟨hsum, hmedian⟩ := medianElapsed_spec (l := g.reportedOffsets sender time)
    reportedOffsets_ne_nil hm
  refine ⟨hsum, rfl, fun b => ?_⟩
  rw [TimeBefore, ← hmedian, max_lt_iff]

theorem clockSet_spec {clocked : GameBoard} (h : g.clockSet sender mv = .ok clocked) :
    ((g.reportedOffsets sender mv.timeMillis).length % 2 = 0 →
      MedianBefore (g.reportedOffsets sender mv.timeMillis) (2 ^ 63)) ∧
    (clocked.ticks = g.ticks.insert sender (g.reportedTick sender mv.timeMillis) ∧
      clocked.callbacks = g.callbacks) ∧
    ∀ b, clocked.elapsedTime < b ↔ g.TimeBefore sender mv.timeMillis b := by
  obtain ⟨hmiddle, hset, htime⟩ := updateCurrentTime_spec h
  refine ⟨hmiddle, ?_, htime⟩
  rw [hset]
  exact ⟨rfl, rfl⟩

/-- The clock and the ticks are the same. -/
def SameClock (g g' : GameBoard) : Prop := g'.elapsedTime = g.elapsedTime ∧ g'.ticks = g.ticks

private theorem SameClock.trans {g'' : GameBoard} (h : g.SameClock g') (h' : g'.SameClock g'') :
    g.SameClock g'' :=
  ⟨h'.1.trans h.1, h'.2.trans h.2⟩

private theorem Ignored.sameClock (h : g.Ignored g') : g.SameClock g' := by
  rw [Ignored] at h
  rw [h]
  exact ⟨rfl, rfl⟩

end GameBoard

private theorem Occurs.sameClock {e : Event} (h : Occurs g e g') (he : e ≠ .note) :
    g.SameClock g' := by
  cases h with
  | note n => exact absurd rfl he
  | _ => exact ⟨rfl, rfl⟩

theorem Trace.sameClock {P : Event → Prop} (hP : ∀ e, P e → e ≠ .note) (h : Trace P g g') :
    g.SameClock g' := by
  induction h with
  | refl => exact ⟨rfl, rfl⟩
  | tail _ hstep ih =>
    obtain ⟨e, he, hstep⟩ := hstep
    exact ih.trans (hstep.sameClock (hP e he))

theorem IsCallbackEvent.ne_note {U : EntityID → Prop} {e : Event} (h : IsCallbackEvent U e) :
    e ≠ .note := by
  rintro rfl
  exact h

private theorem playInner_sameClock {d : GameMove} (hi : g.Inv) (hsender : g.IsUser sender)
    (hdest : ∀ s, d = .sendTokens s → g.Party s.dest) (h : g.playInner d sender = .ok (r, g')) :
    g.SameClock g' := by
  rcases playInner_cases (U := fun _ => False) hi hsender (fun _ => False.elim) hdest h with
    htrace | ⟨s, _, hchat⟩ | ⟨l, nft, _, _, _, rfl⟩ | ⟨p, nft, sale, _, _, rfl⟩
  · apply htrace.sameClock
    rintro e he rfl
    exact he
  · simp only [playChat, bind_eq_ok_iff, pure_eq_ok, Except.ok.injEq] at hchat
    obtain ⟨_, _, rfl⟩ := hchat
    exact ⟨rfl, rfl⟩
  · exact ⟨rfl, rfl⟩
  · exact ⟨rfl, rfl⟩

/-- A call that reports and returns has executed its move, and the clock is as it was set. -/
theorem GameBoard.Reports.executes (hr : g.Reports mv key sender) (hi : g.Inv)
    (h : g.play mv key = .ok (r, g')) :
    ∃ move g1 clocked, (Executes g mv key sender move g1 ∧
        ∃ g2, g1.playInner move sender = .ok (r, g2) ∧ g' = g2.withNotes g') ∧
      g.clockSet sender mv = .ok clocked ∧ clocked.SameClock g' := by
  obtain ⟨hreaches, hsane⟩ := hr
  rw [play_of_reaches hreaches] at h
  obtain ⟨hkey, hrunning, haccepts⟩ := hreaches
  generalize hmove : mv.d.sanitize _ = x at hsane
  cases x with
  | error e => cases hsane
  | ok move =>
    simp only [execute, hmove, bind_eq_ok_iff] at h
    obtain ⟨clocked, hclock, gb, hticks, g1, hlog, ⟨r2, g2⟩, hinner, h⟩ := h
    have hexec : Executes g mv key sender move g1 :=
      ⟨hkey, hrunning, haccepts, hmove, by simp [advance, hclock, hticks, hlog]⟩
    have hclocked : clocked.Inv :=
      (notes_trace trivial (clockSet_eq hclock) : Trace (fun _ => True) g clocked).inv hi
    have htrace := CallbackRegistry.run_trace (U := fun _ => False) hclocked
      (fun _ => False.elim) hticks
    have h1 : clocked.SameClock gb := htrace.sameClock fun e he => he.ne_note
    have h2 : gb.SameClock g1 := (addToEventLog_ignored hlog).1.sameClock
    have h3 : g1.SameClock g2 := playInner_sameClock (hexec.inv hi)
      ((hexec.extends_board hi).isUser (hexec.isUser hi)) (hexec.party_dest hi) hinner
    have hbefore : clocked.SameClock g2 := (h1.trans h2).trans h3
    cases r2 with
    | ok u =>
      simp only [pure_eq_ok, Except.ok.injEq, Prod.mk.injEq] at h
      obtain ⟨rfl, rfl⟩ := h
      exact ⟨move, g1, clocked, ⟨hexec, g2, hinner, rfl⟩, hclock, hbefore⟩
    | error e =>
      simp only [bind_eq_ok_iff, pure_eq_ok, Except.ok.injEq, Prod.mk.injEq] at h
      obtain ⟨g3, hlog3, rfl, rfl⟩ := h
      exact ⟨move, g1, clocked, ⟨hexec, g2, hinner, addToEventLog_eq hlog3⟩, hclock,
        hbefore.trans (addToEventLog_ignored hlog3).1.sameClock⟩

theorem play_sameClock (hr : ∀ sender, ¬ g.Reports mv key sender)
    (h : g.play mv key = .ok (r, g')) : g.SameClock g' := by
  by_cases hreach : ∃ sender, g.Reaches mv key sender
  · obtain ⟨sender, hreaches⟩ := hreach
    rw [play_of_reaches hreaches, execute] at h
    split at h
    · cases h
      exact ⟨rfl, rfl⟩
    · rename_i move hmove
      exact absurd ⟨hreaches, by rw [hmove]; rfl⟩ (hr sender)
  · exact (play_ignored (fun sender hs => hreach ⟨sender, hs⟩) h).1.sameClock

private theorem play_elapsedTime_le (hi : g.Inv) (h : g.play mv key = .ok (r, g')) :
    g.elapsedTime ≤ g'.elapsedTime := by
  by_cases hr : ∃ sender, g.Reports mv key sender
  · obtain ⟨sender, hr⟩ := hr
    obtain ⟨move, g1, clocked, _, hclock, hsame⟩ := hr.executes hi h
    obtain ⟨_, _, htime⟩ := clockSet_spec hclock
    rw [hsame.1]
    by_contra hlt
    have hbefore := (htime g.elapsedTime).mp (Nat.lt_of_not_le hlt)
    exact Nat.lt_irrefl _ hbefore.1
  · exact (play_sameClock (fun sender hs => hr ⟨sender, hs⟩) h).1.ge

theorem Later.elapsedTime_le (h : Later g g') (hi : g.Inv) : g.elapsedTime ≤ g'.elapsedTime := by
  induction h with
  | refl => exact le_rfl
  | tail hl hstep ih =>
    obtain ⟨mv, key, r, hplay⟩ := hstep
    exact ih.trans (play_elapsedTime_le (Later.trace hl hi |>.inv hi) hplay)

/-- The mining payout up to the addition of its period. -/
def PowerPlantEvent.pay (game : GameBoard) : Except Panic GameBoard := do
  let (total, shares) ← collectShares game game.nfts.powerPlants.toList (0, ∅)
  let tokens ← distribute game total shares
  pure { game with tokens }

theorem PowerPlantEvent.action_eq_pay {ev : PowerPlantEvent} :
    ev.action g = (do
      let g1 ← pay g
      let time ← Checked.add 64 g1.elapsedTime ev.period
      pure (g1.schedule (.powerPlantEvent { ev with time }))) := by
  simp only [action, pay, bind_assoc, pure_bind]

/-- The round of a producer up to the addition of its period. -/
def Producer.sell (self : Producer) (game : GameBoard) : Except Panic (Producer × GameBoard) := do
  let (self, game) ← self.prepare game
  let balance ← game.tokens.balanceCheck self.hashAsset self.id
  let (_, game) ← ConstantFunctionMarketMaker.doSellTrade game self.pair
    (min (balance / 100) balance) 0 none false self.id
  pure (self, game)

theorem Producer.action_eq_sell {callback : Producer → Callback} {p : Producer} :
    p.action callback g = (do
      let (p, g1) ← p.sell g
      let elapsedTime ← Checked.add 64 g1.elapsedTime p.adjustsEvery
      let balance ← g1.tokens.balanceCheck p.hashAsset p.id
      if balance > 0 then
        return g1.schedule (callback { p with elapsedTime })
      pure g1) := by
  simp only [action, sell, bind_assoc, pure_bind]

/-- What a callback adds to the clock to come again. -/
def Callback.period : Callback → ℕ
  | powerPlantEvent e => e.period
  | asicProducer p => p.adjustsEvery
  | steelSmelter p => p.adjustsEvery
  | siliconRefinery p => p.adjustsEvery
  | concreteMiller p => p.adjustsEvery
  | coinLockup _ => 0

namespace GameBoard

/-- The 64-bit additions of the clock that a call of `play` makes: of the middle two offsets, of one
to the clock when the queue is split, and of the periods of the callbacks that are due. -/
inductive ClockAdds (g : GameBoard) (mv : MoveEnvelope) (key : String) : ℕ → ℕ → Prop
  | middle {sender : EntityID} {l : List ℕ} (h : g.Reports mv key sender)
      (hl : l = (g.reportedOffsets sender mv.timeMillis).insertionSort (· ≤ ·))
      (heven : l.length % 2 = 0) :
      ClockAdds g mv key (l.getD (l.length / 2) 0) (l.getD (l.length / 2 - 1) 0)
  | split {sender : EntityID} {clocked : GameBoard} (h : g.Reports mv key sender)
      (hclock : g.clockSet sender mv = .ok clocked) : ClockAdds g mv key clocked.elapsedTime 1
  | payout {sender : EntityID} {clocked a b : GameBoard} {done rest : List Callback}
      {ev : PowerPlantEvent} (h : g.Reports mv key sender)
      (hclock : g.clockSet sender mv = .ok clocked)
      (hdue : clocked.due = done ++ .powerPlantEvent ev :: rest)
      (hdone : CallbackRegistry.runAll done clocked.dequeued = .ok a)
      (hpay : PowerPlantEvent.pay a = .ok b) : ClockAdds g mv key b.elapsedTime ev.period
  | producer {sender : EntityID} {clocked a b : GameBoard} {done rest : List Callback}
      {cb : Callback} {p p' : Producer} (h : g.Reports mv key sender)
      (hclock : g.clockSet sender mv = .ok clocked) (hdue : clocked.due = done ++ cb :: rest)
      (hdone : CallbackRegistry.runAll done clocked.dequeued = .ok a)
      (hcb : cb.producer? = some p) (hsell : p.sell a = .ok (p', b)) :
      ClockAdds g mv key b.elapsedTime p'.adjustsEvery

/-- The middle offsets with a report are small enough for the clock, and so is the clock after it for
every callback that is then due. -/
structure ReportFits (g : GameBoard) (sender : EntityID) (time : ℕ) : Prop where
  middle : (g.reportedOffsets sender time).length % 2 = 0 →
    MedianBefore (g.reportedOffsets sender time) (2 ^ 63)
  split : g.TimeBefore sender time (2 ^ 64 - 1)
  due : ∀ cb, g.Pending cb → ¬ g.TimeBefore sender time cb.time →
    g.TimeBefore sender time (2 ^ 64 - cb.period)

/-- The call of `play` does not reach the clock, or its report fits. -/
def ClockFits (g : GameBoard) (mv : MoveEnvelope) (key : String) : Prop :=
  ∀ sender, g.Reports mv key sender → g.ReportFits sender mv.timeMillis

end GameBoard

theorem Producer.sell_clock {p p' : Producer} (hi : g.Inv) (hp : g.ProducerSound p)
    (h : p.sell g = .ok (p', g')) : g.SameClock g' ∧ p'.adjustsEvery = p.adjustsEvery := by
  simp only [sell, bind_eq_ok_iff, pure_eq_ok, Except.ok.injEq, Prod.mk.injEq] at h
  obtain ⟨⟨p1, g1⟩, hprepare, _, _, ⟨_, g2⟩, htrade, rfl, rfl⟩ := h
  obtain ⟨htrace, hid, _, _⟩ := prepare_trace (U := fun _ => False) hi hp (fun h => h) hprepare
  have hparty : g1.Party p1.id := by
    rw [hid]
    exact ((htrace.extends hi).producerSound hp).party
  have htrade' := ConstantFunctionMarketMaker.doSellTrade_trace (htrace.inv hi) hparty htrade
  have hsame := (htrace.sameClock fun e he => he.ne_note).trans
    (htrade'.sameClock fun e he => (isCallbackEvent_of_trade (U := fun _ => False) (fun h => h)
      he).ne_note)
  refine ⟨hsame, ?_⟩
  unfold prepare at hprepare
  split at hprepare
  · obtain ⟨_, _, _, _, _, _, _, rfl⟩ := openMarket_cases hi hprepare
    rfl
  · cases hprepare
    rfl

theorem PowerPlantEvent.pay_clock (h : PowerPlantEvent.pay g = .ok g') : g.SameClock g' := by
  simp only [pay, bind_eq_ok_iff, pure_eq_ok, Except.ok.injEq] at h
  obtain ⟨_, _, _, _, rfl⟩ := h
  exact ⟨rfl, rfl⟩

/-- The callbacks that are due after a report are the pending ones whose time has come. -/
theorem Reachable.mem_due_iff (h : Reachable setup g) {clocked : GameBoard} {cb : Callback}
    (hclock : g.clockSet sender mv = .ok clocked) :
    cb ∈ clocked.due ↔ g.Pending cb ∧ cb.time ≤ clocked.elapsedTime := by
  obtain ⟨_, ⟨_, hcallbacks⟩, _⟩ := clockSet_spec hclock
  have hfiled := h.supplied.1.filed
  simp only [due, CallbackRegistry.dueBefore, List.mem_flatMap, List.mem_filter, Prod.exists,
    decide_eq_true_eq, ExtTreeMap.mem_toList_iff_getElem?_eq_some, hcallbacks, Pending]
  constructor
  · rintro ⟨time, l, ⟨hl, hlt⟩, hcb⟩
    have := hfiled time l hl cb hcb
    exact ⟨⟨time, l, hl, hcb⟩, by omega⟩
  · rintro ⟨⟨time, l, hl, hcb⟩, hle⟩
    have := hfiled time l hl cb hcb
    exact ⟨time, l, ⟨hl, by omega⟩, hcb⟩

private theorem Reachable.due_clock (h : Reachable setup g) {clocked a : GameBoard}
    {done rest : List Callback} {cb : Callback} (hclock : g.clockSet sender mv = .ok clocked)
    (hdue : clocked.due = done ++ cb :: rest)
    (hdone : CallbackRegistry.runAll done clocked.dequeued = .ok a) :
    a.Inv ∧ a.CallbackSound cb ∧ a.elapsedTime = clocked.elapsedTime := by
  have hi := h.inv
  have hnotes : Trace (fun _ => True) g clocked := notes_trace trivial (clockSet_eq hclock)
  have hi1 := hnotes.inv hi
  have hdequeue : Trace (fun _ => True) clocked clocked.dequeued := dequeued_trace fun _ => trivial
  have hi2 := hdequeue.inv hi1
  have hsound (c : Callback) (hc : c ∈ done ++ cb :: rest) := hi1.due_sound (hdue ▸ hc)
  have hrun := CallbackRegistry.runAll_trace (U := fun _ => False) hi2
    (fun c hc => hsound c (List.mem_append_left _ hc)) (fun _ => False.elim) hdone
  have hsame : clocked.dequeued.SameClock a := hrun.sameClock fun e he => he.ne_note
  exact ⟨hrun.inv hi2, (hrun.extends hi2).callbackSound (hsound cb (by simp)), hsame.1⟩

private theorem Reachable.due_fits (h : Reachable setup g) {clocked : GameBoard} {cb : Callback}
    (hclock : g.clockSet sender mv = .ok clocked) (hfits : g.ReportFits sender mv.timeMillis)
    (hcb : cb ∈ clocked.due) : clocked.elapsedTime + cb.period < 2 ^ 64 := by
  obtain ⟨hpending, hle⟩ := (h.mem_due_iff hclock).mp hcb
  obtain ⟨_, _, htime⟩ := clockSet_spec hclock
  have hlate : ¬ g.TimeBefore sender mv.timeMillis cb.time := by
    rw [← htime]
    omega
  have := (htime _).mpr (hfits.due cb hpending hlate)
  omega

private theorem Reachable.clockAdds_lt (h : Reachable setup g) (hfits : g.ClockFits mv key)
    {x y : ℕ}
    (hadd : g.ClockAdds mv key x y) : x + y < 2 ^ 64 := by
  cases hadd with
  | @middle sender l hr hl heven =>
    subst hl
    have hperm := List.perm_insertionSort (· ≤ ·) (g.reportedOffsets sender mv.timeMillis)
    have hne : (g.reportedOffsets sender mv.timeMillis).insertionSort (· ≤ ·) ≠ [] := by
      intro h
      rw [h] at hperm
      exact reportedOffsets_ne_nil hperm.symm.eq_nil
    have hmiddle := (hfits sender hr).middle (hperm.length_eq ▸ heven)
    rw [← MedianBefore.perm hperm,
      medianBefore_even (List.pairwise_insertionSort (· ≤ ·) _) heven hne] at hmiddle
    omega
  | @split sender clocked hr hclock =>
    obtain ⟨_, _, htime⟩ := clockSet_spec hclock
    have := (htime _).mpr (hfits sender hr).split
    omega
  | @payout sender clocked a b done rest ev hr hclock hdue hdone hpay =>
    obtain ⟨_, _, hsame⟩ := h.due_clock hclock hdue hdone
    have hmem : Callback.powerPlantEvent ev ∈ clocked.due := by simp [hdue]
    have hroom := h.due_fits hclock (hfits sender hr) hmem
    rw [(PowerPlantEvent.pay_clock hpay).1, hsame]
    exact hroom
  | @producer sender clocked a b done rest cb p p' hr hclock hdue hdone hcb hsell =>
    obtain ⟨hi, hsound, hsame⟩ := h.due_clock hclock hdue hdone
    have hmem : cb ∈ clocked.due := by simp [hdue]
    have hroom := h.due_fits hclock (hfits sender hr) hmem
    obtain ⟨hclock', hperiod⟩ := Producer.sell_clock hi (hsound.producer p hcb) hsell
    rw [hclock'.1, hsame, hperiod]
    have heq : cb.period = p.adjustsEvery := by
      cases cb <;> simp_all [Callback.producer?, Callback.period]
    omega

theorem CallbackRegistry.runAll_append {done rest : List Callback} {b : GameBoard}
    (h : runAll (done ++ rest) g = .ok b) :
    ∃ a, runAll done g = .ok a ∧ runAll rest a = .ok b := by
  induction done generalizing g with
  | nil => exact ⟨g, rfl, h⟩
  | cons cb done ih =>
    simp only [List.cons_append, CallbackRegistry.runAll, bind_eq_ok_iff] at h ⊢
    obtain ⟨g1, haction, h⟩ := h
    obtain ⟨a, ha, hrest⟩ := ih h
    exact ⟨a, ⟨g1, haction, ha⟩, hrest⟩

private theorem Callback.action_period {cb : Callback} (hi : g.Inv) (hcb : g.CallbackSound cb)
    (hlt : g.elapsedTime < 2 ^ 64) (h : cb.action g = .ok g') :
    g.elapsedTime + cb.period < 2 ^ 64 := by
  have hproducer (callback : Producer → Callback) (p : Producer) (hp : cb.producer? = some p)
      (h : p.action callback g = .ok g') : g.elapsedTime + p.adjustsEvery < 2 ^ 64 := by
    simp only [Producer.action_eq_sell, bind_eq_ok_iff, add_eq_ok_iff] at h
    obtain ⟨⟨p', b⟩, hsell, _, ⟨hfits, _⟩, _⟩ := h
    obtain ⟨hclock, hperiod⟩ := Producer.sell_clock hi (hcb.producer p hp) hsell
    rwa [hclock.1, hperiod] at hfits
  cases cb with
  | powerPlantEvent ev =>
    simp only [Callback.action, PowerPlantEvent.action_eq_pay, bind_eq_ok_iff,
      add_eq_ok_iff] at h
    obtain ⟨b, hpay, _, ⟨hfits, _⟩, _⟩ := h
    rwa [(PowerPlantEvent.pay_clock hpay).1] at hfits
  | asicProducer p => exact hproducer _ p rfl h
  | steelSmelter p => exact hproducer _ p rfl h
  | siliconRefinery p => exact hproducer _ p rfl h
  | concreteMiller p => exact hproducer _ p rfl h
  | coinLockup l => exact hlt

private theorem Reachable.clockFits (h : Reachable setup g) (hplay : g.play mv key = .ok (r, g')) :
    g.ClockFits mv key := by
  intro sender hr
  obtain ⟨move, g1, _, ⟨hexec, _⟩, _⟩ := hr.executes h.inv hplay
  obtain ⟨clocked, ticked, hclock, hroom, hrun, _⟩ := hexec.stages
  obtain ⟨hmiddle, _, htime⟩ := clockSet_spec hclock
  refine ⟨hmiddle, (htime _).mp (by omega), fun cb hpending hlate => (htime _).mp ?_⟩
  rw [← htime, Nat.not_lt] at hlate
  obtain ⟨done, rest, hdue⟩ := List.append_of_mem ((h.mem_due_iff hclock).mpr ⟨hpending, hlate⟩)
  rw [hdue] at hrun
  obtain ⟨a, hdone, hrest⟩ := CallbackRegistry.runAll_append hrun
  obtain ⟨hi, hsound, hsame⟩ := h.due_clock hclock hdue hdone
  simp only [CallbackRegistry.runAll, bind_eq_ok_iff] at hrest
  obtain ⟨b, haction, _⟩ := hrest
  have hfits := Callback.action_period hi hsound (by omega) haction
  omega

namespace GameBoard

/-- A run of calls makes a call on a board. -/
def CallAt (calls : List (MoveEnvelope × String)) (g b : GameBoard) (mv : MoveEnvelope)
    (key : String) : Prop :=
  ∃ before after, calls = before ++ (mv, key) :: after ∧ playAll before g = .ok b

/-- The clock of a run: no addition of a call overflows, and no call sets it back. -/
structure ClockSafe (calls : List (MoveEnvelope × String)) (g : GameBoard) : Prop where
  fits : ∀ b mv key x y, CallAt calls g b mv key → b.ClockAdds mv key x y → x + y < 2 ^ 64
  monotone : ∀ b mv key r b', CallAt calls g b mv key → b.play mv key = .ok (r, b') →
    b.elapsedTime ≤ b'.elapsedTime

end GameBoard

/-- The clock of a run is safe when all its reports fit, and a call whose report does not fit does not
return. -/
theorem clock_safe (h : GameBoard.new setup = .ok g)
    (hfits : ∀ b mv key, CallAt calls g b mv key → b.ClockFits mv key) :
    ClockSafe calls g ∧ ∀ b mv key, Later g b → ¬ b.ClockFits mv key →
      ∀ r b', b.play mv key ≠ .ok (r, b') := by
  have hreach : Reachable setup g := .new h
  refine ⟨⟨fun b mv key x y hcall hadd => ?_, fun b mv key r b' hcall hplay => ?_⟩,
    fun b mv key hlater hnot r b' hplay => ?_⟩
  · obtain ⟨before, after, _, hbefore⟩ := id hcall
    exact (hreach.later (later_of_playAll hbefore)).clockAdds_lt (hfits b mv key hcall) hadd
  · obtain ⟨before, after, _, hbefore⟩ := hcall
    exact play_elapsedTime_le (hreach.later (later_of_playAll hbefore)).inv hplay
  · exact hnot ((hreach.later hlater).clockFits hplay)

theorem playAll_append {before after : List (MoveEnvelope × String)} :
    playAll (before ++ after) g = (do playAll after (← playAll before g)) := by
  induction before generalizing g with
  | nil => rfl
  | cons call before ih =>
    obtain ⟨mv, key⟩ := call
    simp only [List.cons_append, playAll, bind_assoc, ih]

theorem GameBoard.CallAt.returns {b : GameBoard} (hcall : CallAt calls g b mv key)
    (h : playAll calls g = .ok g') : ∃ r b', b.play mv key = .ok (r, b') := by
  obtain ⟨before, after, rfl, hbefore⟩ := hcall
  simp only [playAll_append, hbefore, ok_bind, playAll, bind_eq_ok_iff] at h
  obtain ⟨⟨r, b'⟩, hplay, _⟩ := h
  exact ⟨r, b', hplay⟩

/-- Alice's second move reports the greatest time. -/
def leap : MoveEnvelope := { d := .heartbeat, sequence := 2, timeMillis := 2 ^ 64 - 1 }

/-- The clock of a first move is safe. -/
theorem clock_safe_opening : ∃ g, GameBoard.new twoPlayers = .ok g ∧
    ClockSafe [(opening, "alice")] g := by
  obtain ⟨g, g', hnew, hrun, _⟩ := twoPlayers_starts
  refine ⟨g, hnew, (clock_safe hnew fun b mv key hcall => ?_).1⟩
  obtain ⟨r, b', hplay⟩ := hcall.returns hrun
  obtain ⟨before, after, _, hbefore⟩ := hcall
  exact ((Reachable.new hnew).later (later_of_playAll hbefore)).clockFits hplay

/-- One player alone takes the clock to the last value of its type, to which one is then added. -/
theorem leap_overflows : ∃ g, GameBoard.new twoPlayers = .ok g ∧
    ¬ ClockSafe [(opening, "alice"), (leap, "alice")] g := by
  have h : returns (do
      let g ← GameBoard.new twoPlayers
      let b ← playAll [(opening, "alice")] g
      let clocked ← b.clockSet 0xc0de0008 leap
      pure (g, b, clocked)) (fun x =>
        x.2.1.Reports leap "alice" 0xc0de0008 ∧ x.2.2.elapsedTime = 2 ^ 64 - 1) := by
    decide +kernel
  obtain ⟨x, hok, htest⟩ := returns_iff.mp h
  simp only [bind_eq_ok_iff, pure_eq_ok, Except.ok.injEq] at hok
  obtain ⟨g, hnew, b, hfirst, clocked, hclock, rfl⟩ := hok
  obtain ⟨hreports, htime⟩ := of_decide_eq_true htest
  refine ⟨g, hnew, fun hsafe => ?_⟩
  have hcall : CallAt [(opening, "alice"), (leap, "alice")] g b leap "alice" :=
    ⟨[(opening, "alice")], [], rfl, hfirst⟩
  have hadd := hsafe.fits b leap "alice" _ _ hcall (.split hreports hclock)
  rw [htime] at hadd
  exact absurd hadd (by norm_num)

end JudicaVM
