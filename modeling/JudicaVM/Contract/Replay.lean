import JudicaVM.Board.Ending

/-!
# The replay of the contract

The contract replays the moves of a game from its kernel. What it finds is compared with the live
game, which was built from the setup of the host.
-/

namespace JudicaVM

open Checked Std GameBoard

/-- What the contract knows of a game: the host, the players with their amounts, and the time. -/
structure GameKernel (PK : Type) [Ord PK] [TransOrd PK] where
  gameHost : PK
  players : ExtTreeMap PK ℕ
  timeout : ℕ

section

variable {PK : Type} [Ord PK] [TransOrd PK] (pkToString : PK → String)

private theorem contractAmount_lt : 100_000_000 < 2 ^ 64 := by
  decide

/-- The setup from which the contract builds its board. -/
def GameKernel.setup (kernel : GameKernel PK) : GameSetup :=
  { players := kernel.players.keys.map pkToString
    startAmount := 100_000_000
    finishTime := kernel.timeout
    startAmount_lt := contractAmount_lt }

/-- The loop of `get_finished_board`. The first component of the result is the reason for which a
move was rejected; without one, the board after all moves is the error. -/
def replay : List (MoveEnvelope × PK) → GameBoard →
    Except Panic (Except GameBoard (FinishReason × GameBoard))
  | [], game => pure (.error game)
  | (mv, pk) :: rest, game => do
    let (r, game) ← game.play mv (pkToString pk)
    match r with
    | .error (.gameIsFinished reason) => pure (.ok (reason, game))
    | _ => replay rest game

def getFinishedBoard (kernel : GameKernel PK) (trace : List (MoveEnvelope × PK)) :
    Except Panic (Except GameBoard (FinishReason × GameBoard)) := do
  let game ← GameBoard.new (kernel.setup pkToString)
  replay pkToString trace game

/-- The moves as the live game plays them. -/
def signed (trace : List (MoveEnvelope × PK)) : List (MoveEnvelope × String) :=
  trace.map fun m => (m.1, pkToString m.2)

/-- `convert_setup_to_contract_args`: the kernel of a setup, whose players are read as keys. -/
def convertSetup {ε : Type} (pkFromStr : String → Except ε PK) (setup : GameSetup)
    (oracleKey : PK) : Except Panic (Except ε (GameKernel PK)) := do
  let amount ← Checked.div 100000 (setup.players.length % 2 ^ 64)
  match setup.players.mapM pkFromStr with
  | .error e => pure (.error e)
  | .ok keys =>
    pure (.ok
      { gameHost := oracleKey
        players := ExtTreeMap.ofList (keys.map fun k => (k, amount))
        timeout := setup.finishTime })

/-- The kernel has the players and the time of the setup. -/
structure GameKernel.Of (kernel : GameKernel PK) (setup : GameSetup) : Prop where
  players : ∀ p, p ∈ kernel.players.keys.map pkToString ↔ p ∈ setup.players
  timeout : kernel.timeout = setup.finishTime

end

variable {setup setup' : GameSetup} {g g' : GameBoard} {mv : MoveEnvelope} {key : String}
  {reason : FinishReason} {r : Except MoveRejectReason Unit}

private theorem sortedPlayers_congr {players players' : List String}
    (h : ∀ p, p ∈ players ↔ p ∈ players') : sortedPlayers players = sortedPlayers players' := by
  have hperm : (sortedPlayers players).Perm (sortedPlayers players') := by
    rw [List.perm_ext_iff_of_nodup (sortedPlayers_nodup _) (sortedPlayers_nodup _)]
    intro p
    rw [mem_sortedPlayers, mem_sortedPlayers]
    exact h p
  have hsorted (l : List String) : (sortedPlayers l).Pairwise (· ≤ ·) :=
    (List.pairwise_insertionSort (· ≤ ·) l).sublist (List.destutter_sublist _ _)
  exact hperm.eq_of_pairwise' (hsorted _) (hsorted _)

private theorem new_congr (hplayers : ∀ p, p ∈ setup.players ↔ p ∈ setup'.players)
    (hstart : setup.startAmount = setup'.startAmount)
    (hfinish : setup.finishTime = setup'.finishTime) :
    GameBoard.new setup = GameBoard.new setup' := by
  simp only [GameBoard.new, setupGame, sortedPlayers_congr hplayers, hstart, hfinish]

private theorem getCloseDistribution_ignored (h : g.Ignored g') (bounty : ℕ) (hostKey : String) :
    g'.getCloseDistribution bounty hostKey = g.getCloseDistribution bounty hostKey := by
  have husers : g'.users = g.users := by rw [h]
  have hkeys : g'.usersByKey = g.usersByKey := by rw [h]
  have htokens : g'.tokens = g.tokens := by rw [h]
  have hbtc : g'.bitcoinTokenId = g.bitcoinTokenId := by rw [h]
  simp only [getCloseDistribution, gameIsFinished_ignored h, husers, hkeys, htokens, hbtc]

private theorem playInner_rejects {d : GameMove} {sender : EntityID} {e : MoveRejectReason}
    (h : g.playInner d sender = .ok (.error e, g')) : ∃ t, e = .tradeRejected t := by
  have hreject {α : Type} {x : Except TradeError α} (hx : reject x = .error e) :
      ∃ t, e = .tradeRejected t := by
    cases x with
    | ok _ => cases hx
    | error t =>
      cases hx
      exact ⟨t, rfl⟩
  cases d <;> simp only [playInner, bind_eq_ok_iff, pure_eq_ok, Except.ok.injEq, Prod.mk.injEq,
    reduceCtorEq, false_and, and_false, exists_false] at h
  all_goals
    obtain ⟨x, _, hx, _⟩ := h
    exact hreject hx

private theorem finished_of_rejected
    (h : g.play mv key = .ok (.error (.gameIsFinished reason), g')) :
    g.gameIsFinished = .ok (some reason) := by
  rcases play_cases h with ⟨_, ⟨_, hr⟩ | ⟨sender, _, hcase⟩⟩ | ⟨sender, move, g1, g2, _, hinner, _⟩
  · cases hr
  · rcases hcase with ⟨reason', hfinished, hr⟩ | ⟨_, _, hr⟩ | ⟨_, _, e, hr⟩
    · cases hr
      exact hfinished
    · cases hr
    · cases hr
  · obtain ⟨t, ht⟩ := playInner_rejects hinner
    cases ht

private theorem playAll_of_finished {calls : List (MoveEnvelope × String)}
    (hfinished : g.gameIsFinished = .ok (some reason)) (h : playAll calls g = .ok g') :
    g.Ignored g' := by
  induction calls generalizing g with
  | nil =>
    cases h
    exact .refl _
  | cons call calls ih =>
    obtain ⟨mv, key⟩ := call
    simp only [playAll, bind_eq_ok_iff] at h
    obtain ⟨⟨r, g1⟩, hplay, hrest⟩ := h
    have hfirst := play_of_finished hfinished hplay
    exact hfirst.trans (ih ((gameIsFinished_ignored hfirst).trans hfinished) hrest)

section

variable {PK : Type} {pkToString : PK → String} {pk : PK}
  {trace before after : List (MoveEnvelope × PK)} {b b' : GameBoard}

/-- A call is rejected because the game is over. -/
def GameBoard.Rejects (g : GameBoard) (mv : MoveEnvelope) (key : String) (reason : FinishReason)
    (g' : GameBoard) : Prop :=
  g.play mv key = .ok (.error (.gameIsFinished reason), g')

theorem replay_cons_rejected (h : g.Rejects mv (pkToString pk) reason g') :
    replay pkToString ((mv, pk) :: after) g = .ok (.ok (reason, g')) := by
  unfold Rejects at h
  simp only [replay, h, ok_bind, pure_eq_ok]

theorem replay_cons (h : g.play mv (pkToString pk) = .ok (r, g'))
    (hr : ∀ reason, r ≠ .error (.gameIsFinished reason)) :
    replay pkToString ((mv, pk) :: after) g = replay pkToString after g' := by
  simp only [replay, h, ok_bind]

/-- The replay stops with the reason for which the live game rejects any of its moves, on a board
that is the same but for the log. -/
theorem replay_of_rejected (after : List (MoveEnvelope × PK))
    (h : playAll (signed pkToString before) g = .ok b)
    (hrejects : b.Rejects mv (pkToString pk) reason b') :
    ∃ c, replay pkToString (before ++ (mv, pk) :: after) g = .ok (.ok (reason, c)) ∧
      c.Ignored b' := by
  induction before generalizing g with
  | nil =>
    cases h
    exact ⟨b', replay_cons_rejected hrejects, .refl b'⟩
  | cons first rest ih =>
    obtain ⟨mv1, pk1⟩ := first
    simp only [signed, List.map_cons, playAll, bind_eq_ok_iff] at h
    obtain ⟨⟨r1, g1⟩, hplay, hrest⟩ := h
    by_cases hr : ∃ reason1, r1 = .error (.gameIsFinished reason1)
    · obtain ⟨reason1, rfl⟩ := hr
      -- the replay stops here, and the live game cannot change hereafter
      have hfinished := finished_of_rejected hplay
      have hfirst := play_of_finished hfinished hplay
      have hfinished1 := (gameIsFinished_ignored hfirst).trans hfinished
      have hmiddle := playAll_of_finished hfinished1 hrest
      have hfinished2 := (gameIsFinished_ignored hmiddle).trans hfinished1
      have hlast := finished_of_rejected hrejects
      rw [hfinished2, Except.ok.injEq, Option.some.injEq] at hlast
      subst hlast
      exact ⟨g1, replay_cons_rejected hplay, hmiddle.trans (play_of_finished hfinished2 hrejects)⟩
    · rw [List.cons_append, replay_cons hplay fun reason1 heq => hr ⟨reason1, heq⟩]
      exact ih hrest

private theorem replay_of_accepted (h : playAll (signed pkToString trace) g = .ok b)
    (haccepted : ∀ before mv pk after a a' reason, trace = before ++ (mv, pk) :: after →
      playAll (signed pkToString before) g = .ok a → ¬ a.Rejects mv (pkToString pk) reason a') :
    replay pkToString trace g = .ok (.error b) := by
  induction trace generalizing g with
  | nil =>
    cases h
    rfl
  | cons first rest ih =>
    obtain ⟨mv1, pk1⟩ := first
    simp only [signed, List.map_cons, playAll, bind_eq_ok_iff] at h
    obtain ⟨⟨r1, g1⟩, hplay, hrest⟩ := h
    have hr : ∀ reason, r1 ≠ .error (.gameIsFinished reason) := by
      rintro reason rfl
      exact haccepted [] mv1 pk1 rest g g1 reason rfl rfl hplay
    rw [replay_cons hplay hr]
    apply ih hrest
    intro before mv pk after a a' reason htrace hbefore hrejects
    refine haccepted ((mv1, pk1) :: before) mv pk after a a' reason ?_ ?_ hrejects
    · rw [htrace, List.cons_append]
    · simp only [signed, List.map_cons, playAll, hplay, ok_bind]
      exact hbefore

variable [Ord PK] [TransOrd PK] {kernel : GameKernel PK}

private theorem new_of_kernel (hkernel : kernel.Of pkToString setup)
    (hstart : setup.startAmount = 100_000_000) :
    GameBoard.new (kernel.setup pkToString) = GameBoard.new setup :=
  new_congr hkernel.players hstart.symm hkernel.timeout

omit [Ord PK] [TransOrd PK] in
private theorem map_of_mapM {ε : Type} {pkFromStr : String → Except ε PK} {players : List String}
    {keys : List PK} (hread : ∀ k, pkFromStr (pkToString k) = .ok k)
    (hnamed : ∀ p ∈ players, ∃ k, pkToString k = p) (h : players.mapM pkFromStr = .ok keys) :
    keys.map pkToString = players := by
  induction players generalizing keys with
  | nil =>
    cases h
    rfl
  | cons p players ih =>
    obtain ⟨k, hk⟩ := hnamed p List.mem_cons_self
    simp only [List.mapM_cons, bind_eq_ok_iff, pure_eq_ok, Except.ok.injEq] at h
    obtain ⟨k', hk', rest, hrest, rfl⟩ := h
    rw [← hk, hread, Except.ok.injEq] at hk'
    rw [List.map_cons, ← hk', hk, ih (fun q hq => hnamed q (List.mem_cons_of_mem _ hq)) hrest]

/-- The kernel that is derived from a setup is one of the setup, if the players are named as keys are
written. -/
theorem convertSetup_of {ε : Type} [DecidableEq PK] [LawfulEqOrd PK]
    {pkFromStr : String → Except ε PK} {oracleKey : PK}
    (hread : ∀ k, pkFromStr (pkToString k) = .ok k)
    (hnamed : ∀ p ∈ setup.players, ∃ k, pkToString k = p)
    (h : convertSetup pkFromStr setup oracleKey = .ok (.ok kernel)) :
    kernel.Of pkToString setup := by
  simp only [convertSetup, bind_eq_ok_iff] at h
  obtain ⟨amount, _, h⟩ := h
  split at h
  · cases h
  · rename_i keys hkeys
    cases h
    refine ⟨fun p => ?_, rfl⟩
    rw [← map_of_mapM hread hnamed hkeys]
    simp [ExtTreeMap.mem_ofList]

/-- The contract agrees with the live game whose players start with a hundred million. -/
theorem getFinishedBoard_agrees (hkernel : kernel.Of pkToString setup)
    (hstart : setup.startAmount = 100_000_000) (hnew : GameBoard.new setup = .ok g) :
    (∀ before mv pk after b b' reason, trace = before ++ (mv, pk) :: after →
      playAll (signed pkToString before) g = .ok b → b.Rejects mv (pkToString pk) reason b' →
        ∃ c, getFinishedBoard pkToString kernel trace = .ok (.ok (reason, c)) ∧
          c.users = b'.users ∧ ∀ bounty hostKey,
            c.getCloseDistribution bounty hostKey = b'.getCloseDistribution bounty hostKey) ∧
      ∀ b, playAll (signed pkToString trace) g = .ok b →
        (∀ before mv pk after a a' reason, trace = before ++ (mv, pk) :: after →
          playAll (signed pkToString before) g = .ok a →
            ¬ a.Rejects mv (pkToString pk) reason a') →
        ∃ c, getFinishedBoard pkToString kernel trace = .ok (.error c) := by
  have hreplay : getFinishedBoard pkToString kernel trace = replay pkToString trace g := by
    simp only [getFinishedBoard, new_of_kernel hkernel hstart, hnew, ok_bind]
  rw [hreplay]
  constructor
  · intro before mv pk after b b' reason htrace hbefore hrejects
    obtain ⟨c, hc, hignored⟩ := replay_of_rejected after hbefore hrejects
    rw [htrace]
    refine ⟨c, hc, ?_, fun bounty hostKey => ?_⟩
    · rw [hignored]
    · exact (getCloseDistribution_ignored hignored bounty hostKey).symm
  · intro b hplay haccepted
    exact ⟨b, replay_of_accepted hplay haccepted⟩

end

def alicePk : String := "79be667ef9dcbbac55a06295ce870b07029bfcdb2dce28d959f2815b16f81798"

def bobPk : String := "c6047f9441ed7d6d3045406e95c07cd85c778e4b8cef3ca7abac09b95c709ee5"

/-- A short game of two players. -/
def shortGame (startAmount : ℕ) (h : startAmount < 2 ^ 64) : GameSetup :=
  { players := [alicePk, bobPk], startAmount, finishTime := 1000, startAmount_lt := h }

def shortKernel : GameKernel String :=
  { gameHost := alicePk
    players := ExtTreeMap.ofList [(alicePk, 50000), (bobPk, 50000)]
    timeout := 1000 }

private theorem shortKernel_of {startAmount : ℕ} (h : startAmount < 2 ^ 64) :
    shortKernel.Of id (shortGame startAmount h) := by
  have hkeys : shortKernel.players.keys = [alicePk, bobPk] := by decide +kernel
  refine ⟨fun p => ?_, rfl⟩
  rw [hkeys, List.map_id]
  rfl

/-- Alice pays Bob and lets the time expire. -/
def shortMoves : List (MoveEnvelope × String) :=
  [({ d := .sendTokens { dest := 0xc0de0009, amount := 1_000_000_000, currency := 0xc0de0001 }
      sequence := 1
      timeMillis := 0 }, alicePk),
   ({ d := .heartbeat, sequence := 2, timeMillis := 2000 }, alicePk)]

def lateMove : MoveEnvelope := { d := .heartbeat, sequence := 3, timeMillis := 2000 }

/-- With a start amount of a hundred million the replay distributes the bounty as the live game. -/
theorem getFinishedBoard_agrees_short : ∃ g b b' c,
    GameBoard.new (shortGame 100_000_000 (by decide)) = .ok g ∧
    playAll (signed id shortMoves) g = .ok b ∧ b.Rejects lateMove alicePk .timeExpired b' ∧
    getFinishedBoard id shortKernel (shortMoves ++ [(lateMove, alicePk)]) =
      .ok (.ok (.timeExpired, c)) ∧
    c.getCloseDistribution 100_000 bobPk = b'.getCloseDistribution 100_000 bobPk := by
  have h : returns (do
      let g ← GameBoard.new (shortGame 100_000_000 (by decide))
      let b ← playAll (signed id shortMoves) g
      let x ← b.play lateMove alicePk
      pure (g, b, x)) (fun x => x.2.2.1 = .error (.gameIsFinished .timeExpired)) := by
    decide +kernel
  obtain ⟨x, hok, htest⟩ := returns_iff.mp h
  simp only [bind_eq_ok_iff, pure_eq_ok, Except.ok.injEq] at hok
  obtain ⟨g, hnew, b, hmoves, ⟨r, b'⟩, hlate, rfl⟩ := hok
  have hrejects : b.Rejects lateMove alicePk .timeExpired b' := by
    have hr : r = .error (.gameIsFinished .timeExpired) := of_decide_eq_true htest
    rw [Rejects, hlate, hr]
  obtain ⟨c, hc, _, hclose⟩ := (getFinishedBoard_agrees (shortKernel_of _) rfl hnew).1 shortMoves
    lateMove alicePk [] b b' .timeExpired rfl hmoves hrejects
  exact ⟨g, b, b', c, hnew, hmoves, hrejects, hc, hclose 100_000 bobPk⟩

/-- With ten million, Alice gets less from the live game than from the replay. -/
theorem getFinishedBoard_differs : ∃ g b b' c,
    GameBoard.new (shortGame 10_000_000 (by decide)) = .ok g ∧
    playAll (signed id shortMoves) g = .ok b ∧ b.Rejects lateMove alicePk .timeExpired b' ∧
    getFinishedBoard id shortKernel (shortMoves ++ [(lateMove, alicePk)]) =
      .ok (.ok (.timeExpired, c)) ∧
    b'.getCloseDistribution 100_000 bobPk = .ok (.ok [(alicePk, 30080), (bobPk, 69920)]) ∧
    c.getCloseDistribution 100_000 bobPk = .ok (.ok [(alicePk, 30770), (bobPk, 69230)]) := by
  have h : returns (do
      let g ← GameBoard.new (shortGame 10_000_000 (by decide))
      let b ← playAll (signed id shortMoves) g
      let x ← b.play lateMove alicePk
      let y ← getFinishedBoard id shortKernel (shortMoves ++ [(lateMove, alicePk)])
      pure (g, b, x, y)) (fun x => x.2.2.1.1 = .error (.gameIsFinished .timeExpired) ∧
        x.2.2.1.2.getCloseDistribution 100_000 bobPk =
          .ok (.ok [(alicePk, 30080), (bobPk, 69920)]) ∧
        returns x.2.2.2 fun y => y.1 = .timeExpired ∧
          y.2.getCloseDistribution 100_000 bobPk =
            .ok (.ok [(alicePk, 30770), (bobPk, 69230)])) := by
    decide +kernel
  obtain ⟨x, hok, htest⟩ := returns_iff.mp h
  simp only [bind_eq_ok_iff, pure_eq_ok, Except.ok.injEq] at hok
  obtain ⟨g, hnew, b, hmoves, ⟨r, b'⟩, hlate, y, hreplay, rfl⟩ := hok
  obtain ⟨hr, hlive, hcontract⟩ := of_decide_eq_true htest
  obtain ⟨⟨reason, c⟩, rfl, hc⟩ := returns_iff.mp hcontract
  obtain ⟨rfl, hclose⟩ := of_decide_eq_true hc
  have hr : r = .error (.gameIsFinished .timeExpired) := hr
  subst hr
  exact ⟨g, b, b', c, hnew, hmoves, hlate, hreplay, hlive, hclose⟩

end JudicaVM
