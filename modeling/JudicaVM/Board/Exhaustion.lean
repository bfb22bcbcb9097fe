import JudicaVM.Board.SuperMint

/-!
# Running out of ids

A shipment of nothing draws an id. After enough of them none is left, and minting aborts after its
purchases.
-/

namespace JudicaVM

open Checked Std OrderedMap Transition GameBoard

variable {setup : GameSetup} {g g' : GameBoard} {owner : EntityID}
  {bill : List (Currency × ℕ)}

private theorem estimate_of_quoted {costs : List ℕ} (hi : g.Inv) (howner : g.IsUser owner)
    (hhas : ∀ x ∈ bill, g.Has x.1) (hpos : ∀ x ∈ bill, 0 < x.2)
    (hquoted : List.Forall₂ g.Quoted bill costs)
    (hpays : ∀ c ∈ costs, c ≤ g.balance g.bitcoinTokenId owner) :
    ∃ estimates, PowerPlantProducer.estimateMaterials owner bill g = .ok (.ok estimates, g) ∧
      estimates.map (·.2.2) = costs := by
  induction bill generalizing costs with
  | nil =>
    cases hquoted
    exact ⟨[], rfl, rfl⟩
  | cons x bill ih =>
    obtain ⟨cost, costs, hx, hrest, rfl⟩ := List.forall₂_cons_left_iff.mp hquoted
    obtain ⟨outcome, htrade, hsold⟩ := simulated_of_quoted hi howner hx
      (hpos x List.mem_cons_self) (hpays cost List.mem_cons_self)
    obtain ⟨estimates, heq, hcosts⟩ := ih (fun y hy => hhas y (List.mem_cons_of_mem _ hy))
      (fun y hy => hpos y (List.mem_cons_of_mem _ hy)) hrest
      (fun c hc => hpays c (List.mem_cons_of_mem _ hc))
    obtain ⟨token, htoken⟩ := Option.isSome_iff_exists.mp (hhas x List.mem_cons_self)
    have hindex : g.tokens.index x.1 = .ok token := TokenRegistry.index_eq_ok_iff.mpr htoken
    have htrade' : ConstantFunctionMarketMaker.doBuyTrade g
        { assetA := x.1, assetB := g.bitcoinTokenId } x.2 0 none true owner =
          .ok (.ok outcome, g) := htrade
    simp only [PowerPlantProducer.estimateMaterials, hindex, ok_bind, htrade', heq, pure_eq_ok]
    exact ⟨_, rfl, by simp [hsold, hcosts]⟩

/-- Alice's plant in the game of two players, and her id. -/
def alicePlant : NftPtr := 0xc0de0016

def aliceId : EntityID := 0xc0de0008

/-- Alice ships no machines from her plant. -/
def shipNothing (sequence : ℕ) : MoveEnvelope :=
  { d := .removeTokens { nftId := alicePlant, amount := 0, currency := 0xc0de0004 }
    sequence
    timeMillis := 0 }

/-- A board on which Alice can ship: the clock stands still and no callback is due. -/
structure Idle (g : GameBoard) : Prop where
  user : g.usersByKey["alice"]? = some aliceId
  early : g.elapsedTime = 0 ∧ 2 ≤ g.finishTime ∧ g.finishTime < 2 ^ 62
  tick : g.ticks[aliceId]? = some { firstTime := 0, elapsed := 0 }
  median : medianElapsed ((g.ticks.toList.map (·.2.elapsed)).insertionSort (· ≤ ·)) = .ok 0
  quiet : ∀ x ∈ g.callbacks.toList, 1 ≤ x.1
  owned : g.ownerOf alicePlant = some aliceId
  plant : ∃ plant, g.nfts.powerPlants[alicePlant]? = some plant
  asic : g.Has 0xc0de0004

/-- The boards differ in what shipments of nothing change. -/
structure Drained (g : GameBoard) (n : ℕ) (g' : GameBoard) : Prop where
  later : Later g g'
  idle : Idle g'
  alloc : g'.alloc = g.alloc + n
  logged : g'.eventLogCounter = g.eventLogCounter + n
  counter : g'.counter aliceId = g.counter aliceId + n
  markets : g'.markets = g.markets
  balance : ∀ p i, g'.balance p i = g.balance p i

/-- The board when the move of a shipment is reached. -/
def shipStart (g : GameBoard) (sequence : ℕ) : GameBoard :=
  { g with
    playerMoveSequence := g.playerMoveSequence.insert aliceId sequence
    callbacks := CallbackRegistry.splitOff g.callbacks 1
    eventLogCounter := g.eventLogCounter + 1
    eventLog := pushBack g.eventLog
      (g.eventLogCounter + 1, aliceId, .gameMove (shipNothing sequence).d) }

/-- The board after a shipment of nothing. -/
def shipEnd (g : GameBoard) : GameBoard :=
  ((g.addNft { owner := aliceId, nftId := g.alloc + 1, transferCount := maxTransferCount } none).schedule
    (.coinLockup { id := g.alloc + 1, timeWhenFree := 1, asset := 0xc0de0004 })).withTokens
      (g.tokens.moved 0xc0de0004 alicePlant (g.alloc + 1) 0)

namespace Idle

private theorem gameIsFinished (h : Idle g) : g.gameIsFinished = .ok none := by
  obtain ⟨htime, hlow, hhigh⟩ := h.early
  have hmul : mul 64 3 g.finishTime = .ok (3 * g.finishTime) := mul_of_lt (by omega)
  have h1 : ¬ g.finishTime ≤ 0 := by omega
  have h2 : ¬ 3 * g.finishTime / 4 ≤ 0 := by omega
  simp only [GameBoard.gameIsFinished, htime, hmul, ok_bind, ge_iff_le, if_neg h1, if_neg h2,
    pure_eq_ok]

private theorem updateCurrentTime (h : Idle g) : g.updateCurrentTime aliceId 0 = .ok g := by
  have htick : g.ticks.getD aliceId { firstTime := 0, elapsed := 0 } =
      { firstTime := 0, elapsed := 0 } := by
    simp [ExtTreeMap.getD_eq_getD_getElem?, h.tick]
  have hsame : g.ticks.insert aliceId { firstTime := 0, elapsed := 0 } = g.ticks := by
    refine ExtTreeMap.ext_getElem? fun i => ?_
    rw [OrderedMap.getElem?_insert]
    split
    · rename_i heq
      rw [← heq, h.tick]
    · rfl
  have hmedian := h.median
  have htime := h.early.1
  simp only [GameBoard.updateCurrentTime, htick, Nat.sub_zero, Nat.max_self, hsame, hmedian,
    ok_bind, pure_eq_ok, htime]
  rw [← htime]

private theorem processTicks (h : Idle g) :
    g.processTicks = .ok { g with callbacks := CallbackRegistry.splitOff g.callbacks 1 } := by
  have hdue : CallbackRegistry.dueBefore g.callbacks 1 = [] := by
    simp only [CallbackRegistry.dueBefore, List.flatMap_eq_nil_iff, List.mem_filter,
      decide_eq_true_eq, and_imp]
    intro x hx hlt
    have hle := h.quiet x hx
    omega
  have hadd : add 64 0 1 = .ok 1 := rfl
  simp only [GameBoard.processTicks, CallbackRegistry.run, h.early.1, hadd, ok_bind, hdue,
    CallbackRegistry.runAll, pure_eq_ok]

end Idle

namespace Idle

private theorem withMoves (h : Idle g) (moves : ExtTreeMap EntityID ℕ) :
    Idle { g with playerMoveSequence := moves } where
  user := h.user
  early := h.early
  tick := h.tick
  median := h.median
  quiet := h.quiet
  owned := h.owned
  plant := h.plant
  asic := h.asic

private theorem sanitize (h : Idle g) (n : ℕ) : (shipNothing n).d.sanitize g = .ok
    (shipNothing n).d := by
  obtain ⟨nft, hnft, _⟩ := Option.map_eq_some_iff.mp h.owned
  have hcontains : g.nfts.nfts.contains alicePlant = true := by
    rw [ExtTreeMap.contains_eq_isSome_getElem?, hnft]
    rfl
  have hasic : g.tokens.tokens.contains 0xc0de0004 = true := by
    rw [ExtTreeMap.contains_eq_isSome_getElem?]
    exact h.asic
  simp only [shipNothing, GameMove.sanitize, RemoveTokens.sanitize, NftPtr.sanitize, hcontains,
    if_true, ok_bind, TokenPointer.sanitize, hasic, pure_eq_ok]

private theorem playInner (h : Idle g) (hi : g.Inv) (halloc : g.alloc + 1 < 2 ^ 64) (n : ℕ) :
    g.playInner (shipNothing n).d aliceId = .ok (.ok (), shipEnd g) := by
  obtain ⟨nft, hnft, howner⟩ := Option.map_eq_some_iff.mp h.owned
  obtain ⟨plant, hplant⟩ := h.plant
  obtain ⟨hid, _⟩ := hi.plants _ _ hplant
  have hindex : g.nfts.index alicePlant = .ok nft := by simp [NFTRegistry.index, hnft]
  have hmake : EntityIDAllocator.make g.alloc = .ok (g.alloc + 1) := add_of_lt halloc
  have hnone : g.nfts.nfts[g.alloc + 1]? = none := by
    simpa [IsNft] using hi.not_isNft (Nat.lt_succ_self g.alloc)
  have htransfer : g.tokens.transfer 0xc0de0004 alicePlant (g.alloc + 1) 0 =
      .ok (true, g.tokens.moved 0xc0de0004 alicePlant (g.alloc + 1) 0) := by
    rw [TokenRegistry.transfer_eq hi.tokens h.asic, if_neg (Nat.not_lt_zero _)]
  have hremove : g.playRemoveTokens aliceId
      { nftId := alicePlant, amount := 0, currency := 0xc0de0004 } = .ok (shipEnd g) := by
    simp only [playRemoveTokens, hindex, ok_bind, howner, if_true, hplant, unwrap_some,
      PowerPlant.shipHashrate, hid, CoinLockup.lockup, hmake, NFTRegistry.add,
      insertIfNew_of_none hnone, schedule, htransfer, pure_eq_ok]
    rfl
  simp only [shipNothing, GameBoard.playInner, hremove, ok_bind, pure_eq_ok]

end Idle

private theorem Idle.start (h : Idle g) (n : ℕ) : Idle (shipStart g n) where
  user := h.user
  early := h.early
  tick := h.tick
  median := h.median
  quiet := by
    intro x hx
    simp only [shipStart, CallbackRegistry.splitOff, ExtTreeMap.toList_filter, List.mem_filter] at hx
    exact h.quiet x hx.1
  owned := h.owned
  plant := h.plant
  asic := h.asic

private theorem shipStart_inv (hi : g.Inv) (n : ℕ) : (shipStart g n).Inv :=
  (Occurs.dequeue (g.withNotes (shipStart g n)) 1).inv ((Occurs.note g (shipStart g n)).inv hi)

private theorem Idle.end (h : Idle g) (hi : g.Inv) : Idle (shipEnd g) where
  user := h.user
  early := h.early
  tick := h.tick
  median := h.median
  quiet := by
    intro x hx
    rw [ExtTreeMap.mem_toList_iff_getElem?_eq_some] at hx
    have hinsert : (g.callbacks.insert 1 (g.callbacks.getD 1 [] ++
        [.coinLockup { id := g.alloc + 1, timeWhenFree := 1, asset := 0xc0de0004 }]))[x.1]? =
          some x.2 := hx
    rw [OrderedMap.getElem?_insert] at hinsert
    split at hinsert
    · omega
    · exact h.quiet x (ExtTreeMap.mem_toList_iff_getElem?_eq_some.mpr hinsert)
  owned := by
    obtain ⟨nft, hnft, howner⟩ := Option.map_eq_some_iff.mp h.owned
    have hisnft : g.IsNft alicePlant := Option.isSome_iff_exists.mpr ⟨nft, hnft⟩
    have hne : g.alloc + 1 ≠ alicePlant := by
      intro heq
      rw [← heq] at hisnft
      exact hi.not_isNft (Nat.lt_succ_self g.alloc) hisnft
    show (g.nfts.nfts.insert (g.alloc + 1) _)[alicePlant]?.map (·.owner) = _
    rw [OrderedMap.getElem?_insert, if_neg hne]
    exact h.owned
  plant := h.plant
  asic := TokenRegistry.moved_has.mpr h.asic

private theorem shipEnd_balance (h : Idle g) (p : TokenPointer) (i : EntityID) :
    (shipEnd g).balance p i = g.balance p i := by
  have hmoved : (g.tokens.moved 0xc0de0004 alicePlant (g.alloc + 1) 0).balance p i = _ :=
    TokenRegistry.moved_balance h.asic
  show (g.tokens.moved 0xc0de0004 alicePlant (g.alloc + 1) 0).balance p i = _
  rw [hmoved]
  split
  · rename_i heq
    subst heq
    simp [GameBoard.balance]
  · rfl

private theorem Idle.play (h : Idle g) (hi : g.Inv) (halloc : g.alloc + 1 < 2 ^ 64)
    (hlog : g.eventLogCounter + 1 < 2 ^ 64) (hcounter : g.counter aliceId + 1 < 2 ^ 64) :
    g.play (shipNothing (g.counter aliceId + 1)) "alice" =
      .ok (.ok (), shipEnd (shipStart g (g.counter aliceId + 1))) := by
  have hnext : acceptsSequence (g.playerMoveSequence.getD aliceId 0) (g.counter aliceId + 1) =
      .ok true := by
    have hadd : add 64 (g.playerMoveSequence.getD aliceId 0) 1 = .ok (g.counter aliceId + 1) :=
      add_of_lt hcounter
    simp [acceptsSequence, hadd]
  have hmoves := h.withMoves (g.playerMoveSequence.insert aliceId (g.counter aliceId + 1))
  have hnote : add 64 g.eventLogCounter 1 = .ok (g.eventLogCounter + 1) := add_of_lt hlog
  have hinner := (h.start (g.counter aliceId + 1)).playInner (shipStart_inv hi _) halloc
    (g.counter aliceId + 1)
  have hsequence : (shipNothing (g.counter aliceId + 1)).sequence = g.counter aliceId + 1 := rfl
  have htime : (shipNothing (g.counter aliceId + 1)).timeMillis = 0 := rfl
  simp only [GameBoard.play, h.user, h.gameIsFinished, ok_bind, hsequence, hnext, if_true, htime,
    execute, hmoves.sanitize, hmoves.updateCurrentTime, hmoves.processTicks, addToEventLog, hnote,
    pure_eq_ok]
  change (GameBoard.playInner (shipStart g _) _ _ >>= fun _ => _) = _
  rw [hinner]
  rfl

private theorem Drained.step {n : ℕ} (h : Drained g n g') (hi : g'.Inv)
    (halloc : g'.alloc + 1 < 2 ^ 64)
    (hlog : g'.eventLogCounter + 1 < 2 ^ 64) (hcounter : g'.counter aliceId + 1 < 2 ^ 64) :
    ∃ g'', Drained g (n + 1) g'' := by
  have hplay := h.idle.play hi halloc hlog hcounter
  have hstart := h.idle.start (g'.counter aliceId + 1)
  refine ⟨_, h.later.tail ⟨_, _, _, hplay⟩, hstart.end (shipStart_inv hi _), ?_, ?_, ?_, ?_, ?_⟩
  · show g'.alloc + 1 = _
    rw [h.alloc, Nat.add_assoc]
  · show g'.eventLogCounter + 1 = _
    rw [h.logged, Nat.add_assoc]
  · show (g'.playerMoveSequence.insert aliceId (g'.counter aliceId + 1)).getD aliceId 0 = _
    rw [getD_insert, if_pos rfl, h.counter, Nat.add_assoc]
  · exact h.markets
  · intro p i
    rw [shipEnd_balance hstart]
    exact h.balance p i

private theorem exists_drained (hreach : Reachable setup g) (hidle : Idle g)
    (hlog : g.eventLogCounter ≤ g.alloc) (hcounter : g.counter aliceId ≤ g.alloc) (n : ℕ)
    (hroom : g.alloc + n < 2 ^ 64) : ∃ g', Drained g n g' := by
  induction n with
  | zero => exact ⟨g, .refl, hidle, rfl, rfl, rfl, rfl, fun _ _ => rfl⟩
  | succ n ih =>
    obtain ⟨g', hdrained⟩ := ih (by omega)
    have halloc := hdrained.alloc
    have hlogged := hdrained.logged
    have hcount := hdrained.counter
    exact hdrained.step (hreach.later hdrained.later).inv (by omega) (by omega) (by omega)

private theorem GameBoard.Quoted.drained {n : ℕ} {x : Currency × ℕ} {cost : ℕ} (h : Drained g n g')
    (hbtc : g'.bitcoinTokenId = g.bitcoinTokenId) (hquoted : g.Quoted x cost) :
    g'.Quoted x cost := by
  obtain ⟨m, b, hm, hholds, hquote⟩ := hquoted
  refine ⟨m, b, ?_, ?_, ?_⟩
  · rw [h.markets, materialPair, hbtc]
    exact hm
  · rw [h.balance]
    exact hholds
  · rw [h.balance, h.balance, hbtc]
    exact hquote

private theorem Drained.estimate {n : ℕ} {kind : PlantType} {scale : ℕ}
    {estimates : List (String × ℕ × ℕ)} (hreach : Reachable setup g) (howner : g.IsUser owner)
    (hscale : 1 ≤ scale) (h : Drained g n g')
    (hestimate : PowerPlantProducer.estimateMaterialsCost g scale kind owner =
      .ok (.ok estimates, g)) :
    ∃ estimates', PowerPlantProducer.estimateMaterialsCost g' scale kind owner =
        .ok (.ok estimates', g') ∧ estimates'.map (·.2.2) = estimates.map (·.2.2) := by
  have hext := (h.later.trace hreach.inv).extends hreach.inv
  have hbtc := hext.bitcoin_eq
  simp only [PowerPlantProducer.estimateMaterialsCost, bind_eq_ok_iff] at hestimate
  obtain ⟨bill, hbill, hcosts⟩ := hestimate
  obtain ⟨hbuyable, _, _, _, hhas, hmarkets⟩ := (Stage.between hreach).buyable hscale hbill
  obtain ⟨hquoted, hle⟩ := quoted_of_estimate hreach.inv howner hmarkets hbuyable.positive hcosts
  have hbill' : kind.rawMaterialsBill g' scale = .ok bill := by
    rw [PlantType.rawMaterialsBill, hext.prices_eq]
    exact hbill
  obtain ⟨estimates', heq, hsame⟩ := estimate_of_quoted (hreach.later h.later).inv
    (hext.isUser howner) (fun x hx => hext.has _ (hhas x hx))
    hbuyable.positive
    (hquoted.imp fun _ _ hx => hx.drained h hbtc) (fun c hc => by
      obtain ⟨e, he, rfl⟩ := List.mem_map.mp hc
      rw [h.balance, hbtc]
      exact hle e he)
  refine ⟨estimates', ?_, hsame⟩
  simp only [PowerPlantProducer.estimateMaterialsCost, hbill', ok_bind]
  exact heq

private theorem twoPlayers_idle :
    ∃ g estimates, Reachable twoPlayers g ∧ Idle g ∧ g.IsUser aliceId ∧
    (g.eventLogCounter ≤ g.alloc ∧ g.counter aliceId ≤ g.alloc ∧ g.alloc < 2 ^ 64) ∧
    PowerPlantProducer.estimateMaterialsCost g 1 .flare aliceId = .ok (.ok estimates, g) ∧
    (estimates.map (·.2.2)).sum ≤ g.balance g.bitcoinTokenId aliceId := by
  have h : returns (do
      let g ← GameBoard.new twoPlayers
      let g ← playAll [(opening, "alice")] g
      let y ← PowerPlantProducer.estimateMaterialsCost g 1 .flare aliceId
      pure (g, y)) (fun x =>
        (x.1.usersByKey["alice"]? = some aliceId ∧
          (x.1.elapsedTime = 0 ∧ 2 ≤ x.1.finishTime ∧ x.1.finishTime < 2 ^ 62) ∧
          (x.1.ticks[aliceId]?.map fun t => (t.firstTime, t.elapsed)) = some (0, 0) ∧
          medianElapsed ((x.1.ticks.toList.map (·.2.elapsed)).insertionSort (· ≤ ·)) = .ok 0 ∧
          (∀ c ∈ x.1.callbacks.toList, 1 ≤ c.1) ∧ x.1.ownerOf alicePlant = some aliceId ∧
          x.1.nfts.powerPlants[alicePlant]?.isSome ∧ x.1.Has 0xc0de0004) ∧
        x.1.IsUser aliceId ∧
        (x.1.eventLogCounter ≤ x.1.alloc ∧ x.1.counter aliceId ≤ x.1.alloc ∧ x.1.alloc < 2 ^ 64) ∧
        returns x.2.1 fun estimates =>
          (estimates.map (·.2.2)).sum ≤ x.1.balance x.1.bitcoinTokenId aliceId) := by
    decide +kernel
  obtain ⟨x, hok, htest⟩ := returns_iff.mp h
  simp only [bind_eq_ok_iff, pure_eq_ok, Except.ok.injEq] at hok
  obtain ⟨g0, hnew, g, hrun, ⟨estimate, g1⟩, hestimate, rfl⟩ := hok
  obtain ⟨⟨huser, hearly, htick, hmedian, hquiet, howned, hplant, hasic⟩, halice, hroom, hcosts⟩ :=
    of_decide_eq_true htest
  obtain ⟨estimates, heq, hpays⟩ := returns_iff.mp hcosts
  have heq : estimate = .ok estimates := heq
  subst heq
  have hreach := (Reachable.new hnew).later (later_of_playAll hrun)
  obtain ⟨tick, htick, htimes⟩ := Option.map_eq_some_iff.mp htick
  obtain ⟨first, elapsed⟩ := tick
  cases htimes
  have hidle : Idle g :=
    ⟨huser, hearly, htick, hmedian, hquiet, howned, Option.isSome_iff_exists.mp hplant, hasic⟩
  obtain rfl := (Stage.between hreach).estimate_eq (Nat.le_refl 1) hestimate
  exact ⟨g1, estimates, hreach, hidle, halice, hroom, hestimate, of_decide_eq_true hpays⟩

/-- When Alice has used up the ids, a mint that she can pay aborts. -/
theorem superMint_aborts : ∃ g estimates, Reachable twoPlayers g ∧ g.IsUser aliceId ∧
    PowerPlantProducer.estimateMaterialsCost g 1 .flare aliceId = .ok (.ok estimates, g) ∧
    g.playInner (.superMintPowerPlant smallFlare) aliceId = .error .overflow := by
  obtain ⟨g0, estimates0, hreach0, hidle, halice0, ⟨hlog, hcounter, halloc⟩, hestimate0, hpays⟩ :=
    twoPlayers_idle
  obtain ⟨g, hdrained⟩ := exists_drained hreach0 hidle hlog hcounter (2 ^ 64 - 1 - g0.alloc)
    (by omega)
  have hreach := hreach0.later hdrained.later
  have hext := (hdrained.later.trace hreach0.inv).extends hreach0.inv
  have halice := hext.isUser halice0
  obtain ⟨estimates, hestimate, hsame⟩ := hdrained.estimate hreach0 halice0 (Nat.le_refl 1) hestimate0
  have hlast := hdrained.alloc
  refine ⟨g, estimates, hreach, halice, hestimate, ?_⟩
  rcases (Stage.between hreach).superMint_of_estimate (d := smallFlare) halice (Nat.le_refl 1)
    hestimate with ⟨hpoor, _⟩ | ⟨_, _, _, _, hmint⟩
  · rw [hsame, hdrained.balance, hext.bitcoin_eq] at hpoor
    omega
  · rw [if_neg (by omega)] at hmint
    exact playInner_superMint hmint

end JudicaVM
