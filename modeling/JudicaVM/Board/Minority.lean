import JudicaVM.Board.Clock

/-!
# Who moves the clock

The ticks of a board are the offsets that its players have reported in the run. Players who are fewer
than half of those who have reported, at every report, cannot take the clock past the offsets of the
others.
-/

namespace JudicaVM

open Checked Std OrderedMap Transition OrderStatistic GameBoard

variable {setup : GameSetup} {g g' : GameBoard} {mv : MoveEnvelope} {key : String}
  {sender : EntityID} {r : Except MoveRejectReason Unit} {calls : List (MoveEnvelope × String)}
  {late : EntityID → Prop} [DecidablePred late] {rs before after : List (EntityID × ℕ)}

/-- The reports of a run in order. -/
def GameBoard.reports : List (MoveEnvelope × String) → GameBoard → List (EntityID × ℕ)
  | [], _ => []
  | (mv, key) :: rest, g =>
    g.report mv key ++
      match g.play mv key with
      | .ok x => reports rest x.2
      | .error _ => []

namespace Report

/-- The times that a player has reported. -/
def times (rs : List (EntityID × ℕ)) (i : EntityID) : List ℕ := (rs.filter (·.1 = i)).map (·.2)

/-- The largest offset of a player from its first report. -/
def offset (rs : List (EntityID × ℕ)) (i : EntityID) : ℕ :=
  ((times rs i).map (· - (times rs i).headD 0)).foldl max 0

/-- The players who have reported, each once. -/
def reporters (rs : List (EntityID × ℕ)) : List EntityID := (rs.map (·.1)).dedup

/-- At every report, fewer than half of those who have reported so far are of a kind. -/
def Outnumbered (late : EntityID → Prop) [DecidablePred late] (rs : List (EntityID × ℕ)) : Prop :=
  ∀ k < rs.length,
    2 * (reporters (rs.take (k + 1))).countP late < (reporters (rs.take (k + 1))).length

instance : Decidable (Outnumbered late rs) := inferInstanceAs (Decidable (∀ k < rs.length, _))

private theorem times_snoc (x : EntityID × ℕ) (i : EntityID) :
    times (rs ++ [x]) i = times rs i ++ if x.1 = i then [x.2] else [] := by
  by_cases h : x.1 = i <;> simp [times, h]

private theorem offset_snoc (x : EntityID × ℕ) (i : EntityID) :
    offset (rs ++ [x]) i =
      if x.1 = i then max (offset rs i) (x.2 - (times rs i).headD x.2) else offset rs i := by
  rw [offset, times_snoc]
  split
  · cases h : times rs i with
    | nil => simp [offset, h]
    | cons t ts => simp [offset, h, List.foldl_append]
  · rw [List.append_nil, offset]

private theorem offset_le_snoc (x : EntityID × ℕ) (i : EntityID) : offset rs i ≤ offset
    (rs ++ [x]) i := by
  rw [offset_snoc]
  split
  · exact le_max_left _ _
  · exact le_rfl

private theorem times_eq_nil_iff {i : EntityID} : times rs i = [] ↔ i ∉ reporters rs := by
  simp only [times, reporters, List.map_eq_nil_iff, List.filter_eq_nil_iff, decide_eq_true_eq,
    List.mem_dedup, List.mem_map, not_exists, not_and]

/-- The tick of a player after the reports of a run. -/
def tick (rs : List (EntityID × ℕ)) (i : EntityID) : Option Tick :=
  (times rs i).head?.map fun firstTime => { firstTime, elapsed := offset rs i }

private theorem tick_snoc (x : EntityID × ℕ) (i : EntityID) :
    tick (rs ++ [x]) i =
      if x.1 = i then
        some
          { firstTime := (times rs i).headD x.2
            elapsed := max (offset rs i) (x.2 - (times rs i).headD x.2) }
      else tick rs i := by
  rw [tick, tick, times_snoc, offset_snoc]
  split
  · cases h : times rs i <;> simp
  · rw [List.append_nil]

end Report

open Report

namespace GameBoard

/-- The ticks of a board are those of the reports. -/
def HasTicks (g : GameBoard) (rs : List (EntityID × ℕ)) : Prop := ∀ i, g.ticks[i]? = tick rs i

private theorem HasTicks.report (h : g.HasTicks rs) (sender : EntityID) (time : ℕ) (i : EntityID) :
    (g.ticks.insert sender (g.reportedTick sender time))[i]? = tick (rs ++ [(sender, time)]) i := by
  rw [OrderedMap.getElem?_insert, tick_snoc]
  split
  · rename_i hi
    subst hi
    have hsender := h sender
    rw [tick] at hsender
    rw [reportedTick, ExtTreeMap.getD_eq_getD_getElem?, hsender]
    cases hts : times rs sender with
    | nil => simp [offset, hts]
    | cons t ts => simp
  · exact h i

private theorem keys_perm {ticks : ExtTreeMap EntityID Tick} (h : ∀ i, ticks[i]? = tick rs i) :
    (ticks.toList.map (·.1)).Perm (reporters rs) := by
  apply (List.perm_ext_iff_of_nodup _ (List.nodup_dedup _)).mpr
  · intro i
    have hmem : i ∈ ticks.toList.map (·.1) ↔ ticks[i]? ≠ none := by simp
    rw [hmem, h i, tick, ne_eq, Option.map_eq_none_iff, List.head?_eq_none_iff, times_eq_nil_iff,
      not_not, reporters]
  · rw [List.Nodup, List.pairwise_map]
    apply ExtTreeMap.distinct_keys_toList.imp
    rintro a b hne heq
    exact hne (by rw [heq]; exact ReflCmp.compare_self)

private theorem HasTicks.medianBefore (h : g.HasTicks rs) {time bound : ℕ}
    (hmajority : 2 * (reporters (rs ++ [(sender, time)])).countP late <
      (reporters (rs ++ [(sender, time)])).length)
    (hothers : ∀ i, ¬ late i → offset (rs ++ [(sender, time)]) i ≤ bound) :
    MedianBefore (g.reportedOffsets sender time) (bound + 1) := by
  have hticks := h.report sender time
  have hperm := keys_perm hticks
  rw [reportedOffsets]
  generalize g.ticks.insert sender _ = ticks at hticks hperm
  apply medianBefore_of_majority
  have hlate := hperm.countP_eq (p := fun i => decide (late i))
  rw [List.countP_map] at hlate
  have hlen := hperm.length_eq
  rw [List.length_map] at hlen
  have hcount := List.length_eq_countP_add_countP (fun x : EntityID × Tick => decide (late x.1))
    (l := ticks.toList)
  have hle : ticks.toList.countP (fun x => !decide (late x.1)) ≤
      ticks.toList.countP ((fun e => decide (e < bound + 1)) ∘ fun x => x.2.elapsed) := by
    apply List.countP_mono_left
    intro x hx hnot
    have htick : ticks[x.1]? = some x.2 := ExtTreeMap.mem_toList_iff_getElem?_eq_some.mp hx
    rw [hticks, tick, Option.map_eq_some_iff] at htick
    obtain ⟨first, _, heq⟩ := htick
    have hoffset := hothers x.1 (by simpa using hnot)
    simp only [← heq, Function.comp_apply, decide_eq_true_eq]
    omega
  rw [List.length_map, List.countP_map]
  simp only [Function.comp_def, decide_eq_true_eq, decide_not] at hlate hle hcount ⊢
  omega

/-- The clock is not past what the others have reported. -/
def HeldBack (g : GameBoard) (late : EntityID → Prop) (rs : List (EntityID × ℕ)) : Prop :=
  ∀ bound, (∀ i, ¬ late i → offset rs i ≤ bound) → g.elapsedTime ≤ bound

end GameBoard

private theorem Report.Outnumbered.of_append (h : Outnumbered late (rs ++ after)) :
    Outnumbered late rs := by
  intro k hk
  have hfew := h k (by rw [List.length_append]; omega)
  rwa [List.take_append_of_le_length hk] at hfew

private theorem Report.Outnumbered.last {x : EntityID × ℕ} (h : Outnumbered late (rs ++ [x])) :
    2 * (reporters (rs ++ [x])).countP late < (reporters (rs ++ [x])).length := by
  have hfew := h rs.length (by simp)
  rwa [List.take_of_length_le (by simp)] at hfew

private theorem play_heldBack (hi : g.Inv) (hticks : g.HasTicks rs) (hheld : g.HeldBack late rs)
    (hfew : Outnumbered late (rs ++ g.report mv key)) (h : g.play mv key = .ok (r, g')) :
    g'.HasTicks (rs ++ g.report mv key) ∧ g'.HeldBack late (rs ++ g.report mv key) := by
  by_cases hr : ∃ sender, g.Reports mv key sender
  · obtain ⟨sender, hr⟩ := hr
    obtain ⟨move, g1, clocked, _, hclock, hsame⟩ := hr.executes hi h
    obtain ⟨_, ⟨hset, _⟩, htime⟩ := clockSet_spec hclock
    rw [hr.report_eq] at hfew ⊢
    refine ⟨fun i => ?_, fun bound hothers => ?_⟩
    · rw [hsame.2, hset]
      exact hticks.report sender mv.timeMillis i
    · rw [hsame.1, ← Nat.lt_succ_iff, htime]
      constructor
      · rw [Nat.lt_succ_iff]
        apply hheld
        intro i hi'
        exact (offset_le_snoc _ i).trans (hothers i hi')
      · exact hticks.medianBefore hfew.last hothers
  · have hnone : ∀ sender, ¬ g.Reports mv key sender := fun sender hs => hr ⟨sender, hs⟩
    have hsame := play_sameClock hnone h
    rw [report_eq_nil hnone, List.append_nil]
    refine ⟨fun i => ?_, fun bound hothers => ?_⟩
    · rw [hsame.2]
      exact hticks i
    · rw [hsame.1]
      exact hheld bound hothers

private theorem playAll_heldBack (hi : g.Inv) (hticks : g.HasTicks rs) (hheld : g.HeldBack late rs)
    (hfew : Outnumbered late (rs ++ reports calls g)) (h : playAll calls g = .ok g') :
    g'.HeldBack late (rs ++ reports calls g) := by
  induction calls generalizing g rs with
  | nil =>
    cases h
    rwa [reports, List.append_nil]
  | cons call calls ih =>
    obtain ⟨mv, key⟩ := call
    simp only [playAll, bind_eq_ok_iff] at h
    obtain ⟨⟨r, g1⟩, hplay, h⟩ := h
    simp only [reports, hplay, ← List.append_assoc] at hfew ⊢
    obtain ⟨hticks1, hheld1⟩ := play_heldBack hi hticks hheld hfew.of_append hplay
    exact ih ((play_trace hi hplay).inv hi) hticks1 hheld1 hfew h

private theorem new_clock (h : GameBoard.new setup = .ok g) : g.elapsedTime = 0 ∧ g.ticks = ∅ := by
  obtain ⟨g0, hblank, htrace⟩ := new_trace h
  have hsame : ({ g0 with finishTime := setup.finishTime } : GameBoard).SameClock g :=
    htrace.sameClock fun e he => by rintro rfl; exact he
  rw [hsame.1, hsame.2]
  cases hblank
  exact ⟨rfl, rfl⟩

/-- The board has not been moved past the reports of the others by the calls of a run. -/
structure GameBoard.Resists (calls : List (MoveEnvelope × String)) (g0 : GameBoard)
    (late : EntityID → Prop) (g : GameBoard) : Prop where
  clock : g.HeldBack late (reports calls g0)
  running : ∀ bound, (∀ i, ¬ late i → offset (reports calls g0) i ≤ bound) →
    bound < g.finishTime → bound < 3 * g.finishTime / 4 → ∀ reason, g.gameIsFinished ≠ .ok (some reason)
  events : ∀ bound, (∀ i, ¬ late i → offset (reports calls g0) i ≤ bound) →
    ∀ b mv key sender clocked, CallAt calls g0 b mv key → b.Reports mv key sender →
      b.clockSet sender mv = .ok clocked → ∀ cb ∈ clocked.due, cb.time ≤ bound

private theorem gameIsFinished_early (htime : g.elapsedTime < g.finishTime)
    (hearly : g.elapsedTime < 3 * g.finishTime / 4) (reason : FinishReason) :
    g.gameIsFinished ≠ .ok (some reason) := by
  intro h
  simp only [gameIsFinished, ge_iff_le, if_neg (Nat.not_le_of_lt htime), bind_eq_ok_iff,
    pure_eq_ok, mul_eq_ok_iff] at h
  obtain ⟨_, ⟨_, rfl⟩, h⟩ := h
  rw [if_neg (Nat.not_le_of_lt hearly)] at h
  cases h

/-- Players who are always fewer than half of those who have reported cannot take the clock past the
largest offset of the others, and so neither end the game nor run a callback before it. -/
theorem minority_resisted (h : GameBoard.new setup = .ok g)
    (hfew : Outnumbered late (reports calls g)) (hrun : playAll calls g = .ok g') :
    Resists calls g late g' := by
  obtain ⟨htime, hticks⟩ := new_clock h
  have hstart : g.HasTicks [] := fun i => by simp [hticks, tick, times]
  have hheld : g.HeldBack late [] := fun bound _ => htime ▸ Nat.zero_le bound
  have hclock : g'.HeldBack late (reports calls g) :=
    playAll_heldBack (new_inv h) hstart hheld hfew hrun
  refine ⟨hclock, fun bound hothers hfinish hlast reason => ?_, ?_⟩
  · have hle := hclock bound hothers
    exact gameIsFinished_early (by omega) (by omega) reason
  · intro bound hothers b mv key sender clocked hcall hr hset cb hcb
    obtain ⟨before, after, rfl, hbefore⟩ := hcall
    have hb : Reachable setup b := (Reachable.new h).later (later_of_playAll hbefore)
    simp only [playAll_append, hbefore, ok_bind, playAll, bind_eq_ok_iff] at hrun
    obtain ⟨⟨r, b1⟩, hplay, hafter⟩ := hrun
    obtain ⟨_, _, clocked', _, hset', hsame⟩ := hr.executes hb.inv hplay
    cases hset.symm.trans hset'
    calc cb.time
      _ ≤ clocked.elapsedTime := ((hb.mem_due_iff hset).mp hcb).2
      _ = b1.elapsedTime := hsame.1.symm
      _ ≤ g'.elapsedTime := (later_of_playAll hafter).elapsedTime_le (hb.play hplay).inv
      _ ≤ bound := hclock bound hothers

/-- A game of three players. -/
def threePlayers : GameSetup :=
  { twoPlayers with players := ["carol", "bob", "alice"] }

/-- A move five seconds after the first one. -/
def fiveSeconds : MoveEnvelope := { d := .heartbeat, sequence := 2, timeMillis := 5_000 }

/-- Bob and Carol hold the clock when they have moved before Alice reports again. -/
theorem minority_resisted_three : ∃ g g', GameBoard.new threePlayers = .ok g ∧
    playAll [(opening, "bob"), (opening, "carol"), (opening, "alice"), (fiveSeconds, "alice")] g =
      .ok g' ∧
    Resists [(opening, "bob"), (opening, "carol"), (opening, "alice"), (fiveSeconds, "alice")] g
      (· = 0xc0de0008) g' := by
  have h : returns (do
      let g ← GameBoard.new threePlayers
      let g' ← playAll
        [(opening, "bob"), (opening, "carol"), (opening, "alice"), (fiveSeconds, "alice")] g
      pure (g, g')) (fun x =>
        Outnumbered (· = 0xc0de0008) (reports
          [(opening, "bob"), (opening, "carol"), (opening, "alice"), (fiveSeconds, "alice")] x.1)) := by
    decide +kernel
  obtain ⟨x, hok, htest⟩ := returns_iff.mp h
  simp only [bind_eq_ok_iff, pure_eq_ok, Except.ok.injEq] at hok
  obtain ⟨g, hnew, g', hrun, rfl⟩ := hok
  exact ⟨g, g', hnew, hrun, minority_resisted hnew (of_decide_eq_true htest) hrun⟩

/-- While the others have not moved, one of three players takes the clock where it wants. -/
theorem first_mover_sets_clock : ∃ g g', GameBoard.new threePlayers = .ok g ∧
    playAll [(opening, "alice"), (fiveSeconds, "alice")] g = .ok g' ∧
    2 * (g.users.keys.countP fun i => i = 0xc0de0008) < g.users.size ∧
    ¬ g'.HeldBack (· = 0xc0de0008) (reports [(opening, "alice"), (fiveSeconds, "alice")] g) := by
  have h : returns (do
      let g ← GameBoard.new threePlayers
      let g' ← playAll [(opening, "alice"), (fiveSeconds, "alice")] g
      pure (g, g')) (fun x =>
        reports [(opening, "alice"), (fiveSeconds, "alice")] x.1 =
            [(0xc0de0008, 0), (0xc0de0008, 5_000)] ∧
          2 * (x.1.users.keys.countP fun i => i = 0xc0de0008) < x.1.users.size ∧
          x.2.elapsedTime = 5_000) := by
    decide +kernel
  obtain ⟨x, hok, htest⟩ := returns_iff.mp h
  simp only [bind_eq_ok_iff, pure_eq_ok, Except.ok.injEq] at hok
  obtain ⟨g, hnew, g', hrun, rfl⟩ := hok
  obtain ⟨hreports, hfew, htime⟩ := of_decide_eq_true htest
  refine ⟨g, g', hnew, hrun, hfew, fun hheld => ?_⟩
  have hzero := hheld 0 fun i hi => by
    rw [hreports]
    simp [offset, times, Ne.symm hi]
  rw [htime] at hzero
  exact absurd hzero (by decide)

end JudicaVM
