import JudicaVM.Board.Conservation

/-!
# The supply of bitcoin and materials

Each producer issues its material once, and the one mining payout comes again after a fixed period.
While the clock fits its type this bounds the supply, and with it the reserves of every market.
-/

namespace JudicaVM

open Checked Std OrderedMap Transition GameBoard

variable {setup : GameSetup} {g g' : GameBoard} {e : Event} {q : TokenPointer} {cb cb' : Callback}
  {rest : Multiset Callback} {n : ℕ}

/-- What a producer mints of a token on its first round. -/
def Producer.issue (p : Producer) (q : TokenPointer) : ℕ :=
  if p.first then
    (if p.hashAsset = q then p.totalUnits else 0) +
      if p.priceAsset = q then p.basePrice * (p.totalUnits / 10) else 0
  else 0

def Callback.issue (cb : Callback) (q : TokenPointer) : ℕ := (cb.producer?.map (·.issue q)).getD 0

def Callback.payout? : Callback → Option PowerPlantEvent
  | powerPlantEvent e => some e
  | _ => none

/-- The number of mining payouts that a callback is. -/
def Callback.rounds (cb : Callback) : ℕ := if cb.payout?.isSome then 1 else 0

theorem Callback.rounds_of_payout {ev : PowerPlantEvent} (h : cb.payout? = some ev) :
    cb.rounds = 1 := by
  simp [rounds, h]

theorem Callback.rounds_of_none (h : cb.payout? = none) : cb.rounds = 0 := by
  simp [rounds, h]

namespace GameBoard

/-- The pending callbacks, without their order. -/
def queue (g : GameBoard) : Multiset Callback := bag g.callbacks

theorem queue_schedule : (g.schedule cb).queue = cb ::ₘ g.queue :=
  bag_insert_append g.callbacks cb.time cb

theorem queue_dequeued : g.dequeued.queue + (g.due : Multiset Callback) = g.queue := by
  have h := bag_filter_add g.callbacks fun time _ => decide (g.elapsedTime + 1 ≤ time)
  simp only [← decide_not, Nat.not_le] at h
  exact h

def materials (g : GameBoard) : List TokenPointer :=
  [g.steelTokenId, g.siliconTokenId, g.concreteTokenId, g.asicTokenId]

/-- A market that is funded on the second board but was not on the first. -/
def NewlyFunded (g g' : GameBoard) (pair : TradingPairID) : Prop :=
  ∃ m', g'.markets[pair]? = some m' ∧ 0 < m'.reserveA ∧
    ∀ m, g.markets[pair]? = some m → m.reserveA = 0

theorem NewlyFunded.split {g'' : GameBoard} {pair : TradingPairID} (h : g.NewlyFunded g'' pair) :
    g.NewlyFunded g' pair ∨ g'.NewlyFunded g'' pair := by
  obtain ⟨m'', hm'', hpos, hold⟩ := h
  by_cases hmid : ∃ m', g'.markets[pair]? = some m' ∧ 0 < m'.reserveA
  · obtain ⟨m', hm', hpos'⟩ := hmid
    exact .inl ⟨m', hm', hpos', hold⟩
  · refine .inr ⟨m'', hm'', hpos, fun m' hm' => ?_⟩
    by_contra hne
    exact hmid ⟨m', hm', Nat.pos_of_ne_zero hne⟩

/-- The clock and the queue are as before, totals too, and no market was funded. -/
structure Framed (g g' : GameBoard) : Prop where
  clock : g'.elapsedTime = g.elapsedTime
  callbacks : g'.callbacks = g.callbacks
  supply : g.SupplyEq g'
  funded : ∀ pair, ¬ g.NewlyFunded g' pair

theorem Framed.refl (g : GameBoard) : g.Framed g where
  clock := rfl
  callbacks := rfl
  supply := .refl g
  funded _ := fun ⟨m, hm, hpos, hold⟩ => hpos.ne' (hold m hm)

theorem Framed.trans {g'' : GameBoard} (h : g.Framed g') (h' : g'.Framed g'') : g.Framed g'' where
  clock := h'.clock.trans h.clock
  callbacks := h'.callbacks.trans h.callbacks
  supply := h.supply.trans h'.supply
  funded pair hnew := hnew.split.elim (h.funded pair) (h'.funded pair)

end GameBoard

/-- The events that do not issue, fund, schedule or set the clock. -/
def IsQuiet : Event → Prop
  | .mint _ _ _ => False
  | .deposit _ _ _ _ => False
  | .schedule _ => False
  | .dequeue _ => False
  | .note => False
  | _ => True

theorem Occurs.framed (hi : g.Inv) (h : Occurs g e g') (he : IsQuiet e) : g.Framed g' := by
  have hsupply : Conserves e → g.SupplyEq g' := h.supplyEq hi
  have hsame (hm : g'.markets = g.markets) (pair : TradingPairID) : ¬ g.NewlyFunded g' pair := by
    intro hnew
    obtain ⟨m, hm', hpos, hold⟩ := hnew
    exact hpos.ne' (hold m (hm ▸ hm'))
  cases h with
  | openMarket pair shares hnone hnormal hA hB hroom =>
    refine ⟨rfl, rfl, hsupply trivial, ?_⟩
    intro pair' hnew
    obtain ⟨m', hm', hpos, hold⟩ := hnew
    simp only [GameBoard.openMarket, OrderedMap.getElem?_insert] at hm'
    split at hm'
    · cases hm'
      exact hpos.ne' rfl
    · exact hpos.ne' (hold m' hm')
  | swap m selling buying sellAmt buyAmt trader h =>
    refine ⟨rfl, rfl, hsupply trivial, ?_⟩
    intro pair' hnew
    obtain ⟨m', hm', hpos, hold⟩ := hnew
    simp only [withReserves, OrderedMap.getElem?_insert] at hm'
    split at hm'
    · rename_i hpair
      subst hpair
      exact h.funded.ne' (hold m h.market)
    · exact hpos.ne' (hold m' hm')
  | mint q dest amount hq hfits hdest => exact he.elim
  | deposit m amountA amountB toMint depositor h => exact he.elim
  | schedule cb h => exact he.elim
  | dequeue bound => exact he.elim
  | note n => exact he.elim
  | transfer q payer receiver amount hq hpays hpayer hreceiver =>
    exact ⟨rfl, rfl, hsupply trivial, hsame rfl⟩
  | newNft nft plant hroom hid howner hplant => exact ⟨rfl, rfl, hsupply trivial, hsame rfl⟩
  | list asset nft sale hnft hseller hcount => exact ⟨rfl, rfl, hsupply trivial, hsame rfl⟩
  | sold asset nft sale buyer hnft hsale hseller hcount hq hpays hbuyer =>
    exact ⟨rfl, rfl, hsupply trivial, hsame rfl⟩
  | addUser player hroom => exact ⟨rfl, rfl, hsupply trivial, hsame rfl⟩
  | drawId hroom => exact ⟨rfl, rfl, hsupply trivial, hsame rfl⟩

theorem Trace.framed (hi : g.Inv) (h : Trace IsQuiet g g') : g.Framed g' :=
  Run.relates (fun _ _ _ _ hi hs => hs.inv hi) Framed.refl (fun _ _ _ => Framed.trans)
    (fun _ _ _ he hi hs => hs.framed hi he) h hi

theorem IsTrade.isQuiet {sender : EntityID} {simulate : Bool}
    (h : ConstantFunctionMarketMaker.IsTrade sender simulate e) : IsQuiet e := by
  cases e <;> simp_all [ConstantFunctionMarketMaker.IsTrade, IsQuiet]

namespace GameBoard

/-- Facts about the tokens that the board is built with, about share tokens and about the queue. -/
structure Base (g : GameBoard) : Prop where
  subsidy : g.miningSubsidy = 5_000_000_000
  bitcoin_le : g.bitcoinTokenId ≤ g.rootUser
  materials : ∀ q ∈ g.materials, g.Has q ∧ q ≤ g.rootUser ∧ q ≠ g.bitcoinTokenId
  shares : ∀ (pair : TradingPairID) m, g.markets[pair]? = some m → g.rootUser < m.lp
  filed : ∀ (time : ℕ) (l : List Callback), g.callbacks[time]? = some l → ∀ cb ∈ l, cb.time = time

private theorem Base.mono (h : g.Base) (hext : g.Extends g')
    (hshares : ∀ (pair : TradingPairID) m, g'.markets[pair]? = some m → g.rootUser < m.lp)
    (hfiled : ∀ (time : ℕ) (l : List Callback), g'.callbacks[time]? = some l →
      ∀ cb ∈ l, cb.time = time) : g'.Base := by
  have hconst := hext.constants_eq
  simp only [constants, Constants.mk.injEq] at hconst
  obtain ⟨hbtc, _, hsteel, hsilicon, hconcrete, hasic, hroot, _, hsubsidy, _, _⟩ := hconst
  refine ⟨hsubsidy ▸ h.subsidy, hbtc ▸ hroot ▸ h.bitcoin_le, fun q hq => ?_, hroot ▸ hshares, hfiled⟩
  have hq' : q ∈ g.materials := by
    simpa only [GameBoard.materials, hsteel, hsilicon, hconcrete, hasic] using hq
  obtain ⟨hhas, hle, hne⟩ := h.materials q hq'
  exact ⟨hext.has q hhas, hroot ▸ hle, hbtc ▸ hne⟩

end GameBoard

theorem Occurs.base (hi : g.Inv) (hb : g.Base) (h : Occurs g e g') : g'.Base := by
  have hext := h.extends hi
  have hset (m : ConstantFunctionMarketMakerPair) (tokens : TokenRegistry)
      (hm : g.markets[m.pair]? = some m) (pair : TradingPairID) m'
      (hm' : (g.withReserves m tokens).markets[pair]? = some m') : g.rootUser < m'.lp := by
    simp only [withReserves, OrderedMap.getElem?_insert] at hm'
    split at hm'
    · cases hm'
      exact hb.shares m.pair m hm
    · exact hb.shares pair m' hm'
  cases h with
  | openMarket pair shares hnone hnormal hA hB hroom =>
    refine hb.mono hext (fun pair' m' hm' => ?_) hb.filed
    simp only [GameBoard.openMarket, OrderedMap.getElem?_insert] at hm'
    split at hm'
    · cases hm'
      exact Nat.lt_succ_of_le (hi.ids_le _ (mem_entityIds.mpr (.inr (.inl rfl))))
    · exact hb.shares pair' m' hm'
  | swap m selling buying sellAmt buyAmt trader h => exact hb.mono hext (hset m _ h.market) hb.filed
  | deposit m amountA amountB toMint depositor h => exact hb.mono hext (hset m _ h.market) hb.filed
  | schedule cb h =>
    refine hb.mono hext hb.shares fun time l hl cb' hcb' => ?_
    simp only [GameBoard.schedule, CallbackRegistry.schedule, OrderedMap.getElem?_insert] at hl
    split at hl
    · rename_i htime
      cases hl
      rcases List.mem_append.mp hcb' with hold | hnew
      · rw [ExtTreeMap.getD_eq_getD_getElem?] at hold
        cases hc : g.callbacks[cb.time]? with
        | none => simp [hc] at hold
        | some l =>
          rw [hc] at hold
          exact (hb.filed cb.time l hc cb' hold).trans htime
      · exact (List.mem_singleton.mp hnew) ▸ htime
    · exact hb.filed time l hl cb' hcb'
  | dequeue bound =>
    refine hb.mono hext hb.shares fun time l hl => hb.filed time l ?_
    simp only [CallbackRegistry.splitOff, ExtTreeMap.getElem?_filter, Option.pfilter_eq_some_iff]
      at hl
    exact hl.1
  | _ => exact hb.mono hext hb.shares hb.filed

theorem Trace.base {P : Event → Prop} (hi : g.Inv) (hb : g.Base) (h : Trace P g g') : g'.Base :=
  (Run.invariant (I := fun s => s.Inv ∧ s.Base)
    (fun _ _ _ _ hs hstep => ⟨hstep.inv hs.1, hstep.base hs.1 hs.2⟩) h ⟨hi, hb⟩).2

namespace GameBoard

/-- The clock and the queue are as before. Of the tokens that the board was built with at most
`issued` is new, and only markets of the given pairs were funded. -/
structure Effect (issued : TokenPointer → ℕ) (pairs : TradingPairID → Prop) (g g' : GameBoard) :
    Prop where
  clock : g'.elapsedTime = g.elapsedTime
  callbacks : g'.callbacks = g.callbacks
  total_le : ∀ q, g.Has q → q ≤ g.rootUser → g'.total q ≤ g.total q + issued q
  funded : ∀ pair, g.NewlyFunded g' pair → pairs pair

variable {issued issued' : TokenPointer → ℕ} {pairs : TradingPairID → Prop}

theorem Framed.effect (issued : TokenPointer → ℕ) (h : g.Framed g') : g.Effect issued pairs g' where
  clock := h.clock
  callbacks := h.callbacks
  total_le q hq _ := (h.supply q hq).2.le.trans (Nat.le_add_right _ _)
  funded pair hnew := (h.funded pair hnew).elim

theorem Effect.trans {g'' : GameBoard} (hext : g.Extends g') (h : g.Effect issued pairs g')
    (h' : g'.Effect issued' pairs g'') :
    g.Effect (fun q => issued q + issued' q) pairs g'' where
  clock := h'.clock.trans h.clock
  callbacks := h'.callbacks.trans h.callbacks
  total_le q hq hle := by
    have hroot : g'.rootUser = g.rootUser := congrArg Constants.rootUser hext.constants_eq
    have h1 := h.total_le q hq hle
    have h2 := h'.total_le q (hext.has q hq) (hroot ▸ hle)
    omega
  funded pair hnew := hnew.split.elim (h.funded pair) (h'.funded pair)

theorem Effect.mono {pairs' : TradingPairID → Prop} (h : g.Effect issued pairs g')
    (hissued : ∀ q, issued q ≤ issued' q) (hpairs : ∀ pair, pairs pair → pairs' pair) :
    g.Effect issued' pairs' g' where
  clock := h.clock
  callbacks := h.callbacks
  total_le q hq hle := (h.total_le q hq hle).trans (Nat.add_le_add_left (hissued q) _)
  funded pair hnew := hpairs pair (h.funded pair hnew)

theorem mint_effect (pairs : TradingPairID → Prop) {p : TokenPointer} {dest : EntityID} {amount : ℕ} {tokens : TokenRegistry}
    (hi : g.Inv) (h : g.tokens.mint p dest amount = .ok tokens) :
    g.Effect (fun q => if p = q then amount else 0) pairs (g.withTokens tokens) := by
  obtain ⟨hp, _, rfl⟩ := (TokenRegistry.mint_eq_ok_iff hi.tokens).mp h
  refine ⟨rfl, rfl, fun q _ _ => (TokenRegistry.minted_total hp).le, fun pair hnew => ?_⟩
  obtain ⟨m, hm, hpos, hold⟩ := hnew
  exact (hpos.ne' (hold m hm)).elim

private theorem CanDeposit.effect {m : ConstantFunctionMarketMakerPair} {amountA amountB toMint : ℕ}
    {depositor : EntityID} (h : g.CanDeposit m amountA amountB toMint depositor) (hi : g.Inv)
    (hb : g.Base) : g.Effect (fun _ => 0) (· = m.pair)
      (g.withReserves m (g.deposited m amountA amountB toMint depositor)) := by
  refine ⟨rfl, rfl, fun q _ hle => ?_, fun pair hnew => ?_⟩
  · have hlp : m.lp ≠ q := (Nat.lt_of_le_of_lt hle (hb.shares _ m h.market)).ne'
    have htotal := h.total_eq (q := q) hi
    rw [if_neg hlp] at htotal
    exact htotal.le
  · obtain ⟨m', hm', hpos, hold⟩ := hnew
    simp only [withReserves, OrderedMap.getElem?_insert] at hm'
    split at hm'
    · exact ‹m.pair = pair›.symm
    · exact (hpos.ne' (hold m' hm')).elim

end GameBoard

open ConstantFunctionMarketMaker

theorem ensure_framed {pair : TradingPairID} {m : ConstantFunctionMarketMakerPair} (hi : g.Inv)
    (h : ConstantFunctionMarketMakerPair.ensure g pair = .ok (m, g')) : g.Framed g' := by
  have htrace := ensure_trace 0 true h
  exact Trace.framed hi (htrace.mono fun _ => IsTrade.isQuiet)

private theorem deposit_effect {id : TradingPairID} {amountA amountB : ℕ} {depositor : EntityID}
    (hi : g.Inv) (hb : g.Base) (hparty : g.Party depositor) (hne : id.assetA ≠ id.assetB)
    (hpaysA : amountA ≤ g.balance id.assetA depositor)
    (hpaysB : amountB ≤ g.balance id.assetB depositor)
    (h : deposit g id amountA amountB depositor = .ok g') :
    g.Effect (fun _ => 0) (· = id.normalize) g' := by
  obtain ⟨hne', hpaysA', hpaysB'⟩ := withAmounts_pays hne hpaysA hpaysB
  rw [deposit_normalize] at h
  rcases deposit_cases hi TradingPairID.isNormal_normalize hparty hne' hpaysA' hpaysB' h with
    ⟨rfl, -⟩ | ⟨m, g1, hensure, hrest⟩
  · exact (Framed.refl _).effect _
  have hopen := ensure_framed hi hensure
  have htrace := ensure_trace 0 true hensure
  have hi1 := htrace.inv hi
  have hb1 := Trace.base hi hb htrace
  have hm := (ConstantFunctionMarketMakerPair.ensure_cases hensure).1
  rw [TradingPairID.normalize_normalize] at hm
  rcases hrest with ⟨rfl, -⟩ | ⟨-, toMint, hcan, rfl⟩
  · exact hopen.effect _
  have hdeposit := (hcan.effect hi1 hb1).mono (fun _ => le_rfl)
    fun pair hpair => hpair.trans (hi1.markets _ m hm).pair_eq
  exact (hopen.effect fun _ => 0).trans (htrace.extends hi) hdeposit

namespace Producer

variable {p p' : Producer}

/-- The first round issues what the producer still had to issue, and funds its market. -/
theorem prepare_effect (hi : g.Inv) (hb : g.Base) (hp : g.ProducerSound p)
    (h : p.prepare g = .ok (p', g')) :
    g.Effect p.issue (· = p.pair.normalize) g' ∧ p'.first = false ∧ p'.id = p.id ∧
      p'.hashAsset = p.hashAsset ∧ p'.priceAsset = p.priceAsset := by
  unfold prepare at h
  cases hfirst : p.first with
  | false =>
    rw [hfirst] at h
    cases h
    exact ⟨(Framed.refl _).effect _, hfirst, rfl, rfl, rfl⟩
  | true =>
    rw [hfirst, if_pos rfl] at h
    obtain ⟨t1, t2, hmint1, hmint2, hpaysA, hpaysB, hdeposit, rfl⟩ := openMarket_cases hi h
    have htrace1 : Trace IsSetupEvent g (g.withTokens t1) :=
      mint_trace hi hp.party trivial hmint1
    have hi1 := htrace1.inv hi
    have hp1 := (htrace1.extends hi).producerSound hp
    have htrace2 : Trace IsSetupEvent (g.withTokens t1) (g.withTokens t2) :=
      mint_trace hi1 hp1.party trivial hmint2
    have hi2 := htrace2.inv hi1
    have hb2 := Trace.base hi1 (Trace.base hi hb htrace1) htrace2
    have hp2 := (htrace2.extends hi1).producerSound hp1
    have hdep := deposit_effect hi2 hb2 hp2.party hp.distinct hpaysA hpaysB hdeposit
    have hall := (mint_effect _ hi hmint1).trans (htrace1.extends hi)
      ((mint_effect _ hi1 hmint2).trans (htrace2.extends hi1) hdep)
    refine ⟨hall.mono (fun q => ?_) fun _ hpair => hpair, rfl, rfl, rfl, rfl⟩
    simp [issue, hfirst]

end Producer

/-- A callback that is scheduled in the place of another one issues nothing by itself. -/
structure Callback.Follows (cb : Callback) (g : GameBoard) (cb' : Callback) : Prop where
  issue : ∀ q, cb'.issue q = 0
  producer : ∀ p', cb'.producer? = some p' → ∃ p, cb.producer? = some p ∧
    p'.hashAsset = p.hashAsset ∧ p'.priceAsset = p.priceAsset
  payout : ∀ e', cb'.payout? = some e' → ∃ e, cb.payout? = some e ∧ e'.period = e.period ∧
    e'.time = g.elapsedTime + e.period

/-- What the action of a callback may issue. -/
def Callback.allowance (cb : Callback) (g : GameBoard) (q : TokenPointer) : ℕ :=
  cb.issue q + if q = g.bitcoinTokenId then g.miningSubsidy * cb.rounds else 0

/-- The market that the action of a callback may fund. -/
def Callback.Funds (cb : Callback) (pair : TradingPairID) : Prop :=
  ∃ p, cb.producer? = some p ∧ pair = p.pair.normalize

/-- The action of a callback: its effect, and perhaps a callback in its place. -/
def Callback.Ran (cb : Callback) (g g' : GameBoard) : Prop :=
  ∃ g1, g.Effect (cb.allowance g) cb.Funds g1 ∧
    (g' = g1 ∨ ∃ cb', cb.Follows g cb' ∧ g' = g1.schedule cb')

private theorem Producer.action_ran {callback : Producer → Callback} {p : Producer} (hi : g.Inv)
    (hb : g.Base) (hp : g.ProducerSound p) (hcallback : ∀ q, (callback q).producer? = some q)
    (hpayout : ∀ q, (callback q).payout? = none) (h : action callback p g = .ok g') :
    (callback p).Ran g g' := by
  simp only [action, bind_eq_ok_iff, pure_eq_ok] at h
  obtain ⟨⟨p1, g1⟩, hprepare, _, _, ⟨r, g2⟩, htrade, time, htime, balance, _, h⟩ := h
  obtain ⟨heffect, hfirst, hid, hhash, hprice⟩ := prepare_effect hi hb hp hprepare
  obtain ⟨htrace, _⟩ := prepare_trace (U := fun _ => False) hi hp (fun hf => hf) hprepare
  have hi1 := htrace.inv hi
  have hp1 := (htrace.extends hi).producerSound hp
  have hsell := doSellTrade_trace hi1 (hid ▸ hp1.party) htrade
  have hframed := Trace.framed hi1 (hsell.mono fun _ => IsTrade.isQuiet)
  have hboth := heffect.trans (htrace.extends hi) (hframed.effect fun _ => 0)
  have hallow : g.Effect ((callback p).allowance g) (callback p).Funds g2 := by
    refine hboth.mono (fun q => ?_) fun pair hpair => ⟨p, hcallback p, hpair⟩
    simp [Callback.allowance, Callback.issue, hcallback]
  refine ⟨g2, hallow, ?_⟩
  by_cases hmore : balance > 0
  · rw [if_pos hmore] at h
    cases h
    refine .inr ⟨_, ⟨fun q => ?_, fun p' hp' => ?_, fun e' he' => ?_⟩, rfl⟩
    · simp [Callback.issue, hcallback, Producer.issue, hfirst]
    · rw [hcallback, Option.some.injEq] at hp'
      subst hp'
      exact ⟨p, hcallback p, hhash, hprice⟩
    · rw [hpayout] at he'
      cases he'
  · rw [if_neg hmore] at h
    cases h
    exact .inl rfl

namespace PowerPlantEvent

theorem collectShares_sum {plants : List (NftPtr × PowerPlant)}
    {acc res : ℕ × ExtTreeMap EntityID ℕ} (hacc : acc.1 = valueSum acc.2)
    (h : collectShares g plants acc = .ok res) : res.1 = valueSum res.2 := by
  induction plants generalizing acc with
  | nil =>
    cases h
    exact hacc
  | cons plant plants ih =>
    obtain ⟨id, plant⟩ := plant
    obtain ⟨total, shares⟩ := acc
    simp only [collectShares, bind_eq_ok_iff, add_eq_ok_iff] at h
    obtain ⟨share, _, _, ⟨_, rfl⟩, nft, _, _, ⟨_, rfl⟩, h⟩ := h
    refine ih ?_ h
    have hinsert := valueSum_insert shares nft.owner (shares.getD nft.owner 0 + share)
    simp only at hacc ⊢
    omega

private theorem payout_le {subsidy total share v : ℕ} (h : payout subsidy total share = .ok v) :
    total * v ≤ share * subsidy := by
  simp only [payout, bind_eq_ok_iff, mul_eq_ok_iff, div_eq_ok_iff] at h
  obtain ⟨_, ⟨_, rfl⟩, _, ⟨_, rfl⟩, _, ⟨_, rfl⟩, _, rfl⟩ := h
  have h1 := Nat.div_mul_le_self (share * 1024 * subsidy / total) 1024
  have h2 := Nat.mul_div_le (share * 1024 * subsidy) total
  have h3 := Nat.mul_le_mul_left total h1
  have hcomm : share * 1024 * subsidy = share * subsidy * 1024 := Nat.mul_right_comm _ _ _
  rw [← Nat.mul_assoc] at h3
  omega

private theorem payouts_le {subsidy total : ℕ} {shares payouts : List (EntityID × ℕ)}
    (h : shares.mapM (fun (dest, share) => do
      let v ← payout subsidy total share
      pure (dest, v)) = .ok payouts) :
    total * (payouts.map (·.2)).sum ≤ (shares.map (·.2)).sum * subsidy := by
  induction shares generalizing payouts with
  | nil =>
    cases h
    simp
  | cons x shares ih =>
    obtain ⟨dest, share⟩ := x
    simp only [List.mapM_cons, bind_eq_ok_iff, pure_eq_ok, Except.ok.injEq] at h
    obtain ⟨_, ⟨v, hv, rfl⟩, rest, hrest, rfl⟩ := h
    have h1 := payout_le hv
    have h2 := ih hrest
    simp only [List.map_cons, List.sum_cons, Nat.mul_add, Nat.add_mul]
    omega

private theorem payAll_effect {p : TokenPointer} {payouts : List (EntityID × ℕ)}
    {tokens : TokenRegistry}
    {pairs : TradingPairID → Prop} (hi : g.Inv) (hpaid : ∀ x ∈ payouts, g.IsUser x.1)
    (h : payAll p payouts g.tokens = .ok tokens) :
    g.Effect (fun q => if p = q then (payouts.map (·.2)).sum else 0) pairs
      (g.withTokens tokens) := by
  induction payouts generalizing g with
  | nil =>
    cases h
    exact (Framed.refl g).effect _
  | cons x payouts ih =>
    obtain ⟨dest, amount⟩ := x
    simp only [payAll, bind_eq_ok_iff] at h
    obtain ⟨t1, hmint, h⟩ := h
    have hstep : Trace IsSetupEvent g (g.withTokens t1) :=
      mint_trace hi (hi.party_of_user (hpaid _ List.mem_cons_self)) trivial hmint
    have hext := hstep.extends hi
    have hrest := ih (hstep.inv hi)
      (fun y hy => hext.isUser (hpaid y (List.mem_cons_of_mem _ hy))) h
    refine ((mint_effect _ hi hmint).trans hext hrest).mono (fun q => ?_) fun _ hpair => hpair
    by_cases hq : p = q <;> simp [hq]

private theorem distribute_effect {shares : ExtTreeMap EntityID ℕ} {tokens : TokenRegistry}
    {pairs : TradingPairID → Prop} (hi : g.Inv)
    (hshares : ∀ (i : EntityID) v, shares[i]? = some v → g.IsUser i)
    (h : distribute g (valueSum shares) shares = .ok tokens) :
    g.Effect (fun q => if g.bitcoinTokenId = q then g.miningSubsidy else 0) pairs
      (g.withTokens tokens) := by
  unfold distribute at h
  split at h
  · cases h
    exact (Framed.refl g).effect _
  · rename_i hpos
    simp only [bind_eq_ok_iff] at h
    obtain ⟨payouts, hpayouts, _, _, hpay⟩ := h
    have hle := payouts_le hpayouts
    have hsum : (shares.toList.map (·.2)).sum = valueSum shares := by
      simp [valueSum, entries]
    rw [hsum] at hle
    have hle' := Nat.le_of_mul_le_mul_left hle (Nat.pos_of_ne_zero hpos)
    refine (payAll_effect hi (fun x hx => ?_) hpay).mono (fun q => ?_) fun _ hpair => hpair
    · obtain ⟨⟨dest, share⟩, hmem, hx⟩ := mem_of_mapM_eq_ok hpayouts hx
      simp only [bind_eq_ok_iff, pure_eq_ok, Except.ok.injEq] at hx
      obtain ⟨_, _, rfl⟩ := hx
      exact hshares dest share (ExtTreeMap.mem_toList_iff_getElem?_eq_some.mp hmem)
    · by_cases hq : g.bitcoinTokenId = q
      · simpa [hq] using hle'
      · simp [hq]

private theorem action_ran {ev : PowerPlantEvent} (hi : g.Inv) (h : ev.action g = .ok g') :
    (Callback.powerPlantEvent ev).Ran g g' := by
  simp only [action, bind_eq_ok_iff, add_eq_ok_iff, pure_eq_ok, Except.ok.injEq] at h
  obtain ⟨⟨total, shares⟩, hcollect, tokens, hdistribute, _, ⟨_, rfl⟩, rfl⟩ := h
  have hsum : total = valueSum shares := collectShares_sum (by simp) hcollect
  subst hsum
  have husers := collectShares_users hi (fun i v hv => by simp at hv) hcollect
  refine ⟨g.withTokens tokens, ?_, .inr ⟨_, ⟨fun q => rfl, fun p' hp' => ?_, fun e' he' => ?_⟩, rfl⟩⟩
  · refine (distribute_effect hi husers hdistribute).mono (fun q => ?_) fun _ hpair => hpair
    simp [Callback.allowance, Callback.issue, Callback.producer?, Callback.rounds,
      Callback.payout?, eq_comm]
  · cases hp'
  · cases he'
    exact ⟨ev, rfl, rfl, rfl⟩

end PowerPlantEvent

theorem Callback.action_ran (hi : g.Inv) (hb : g.Base) (hcb : g.CallbackSound cb)
    (h : cb.action g = .ok g') : cb.Ran g g' := by
  cases cb with
  | powerPlantEvent ev => exact PowerPlantEvent.action_ran hi h
  | asicProducer p =>
    exact Producer.action_ran hi hb (hcb.producer p rfl) (fun _ => rfl) (fun _ => rfl) h
  | steelSmelter p =>
    exact Producer.action_ran hi hb (hcb.producer p rfl) (fun _ => rfl) (fun _ => rfl) h
  | siliconRefinery p =>
    exact Producer.action_ran hi hb (hcb.producer p rfl) (fun _ => rfl) (fun _ => rfl) h
  | concreteMiller p =>
    exact Producer.action_ran hi hb (hcb.producer p rfl) (fun _ => rfl) (fun _ => rfl) h
  | coinLockup l =>
    have htrace : Trace IsQuiet g g' :=
      CoinLockup.action_trace hi (hcb.lockup l rfl) (fun _ _ => trivial) h
    exact ⟨g', (Trace.framed hi htrace).effect _, .inl rfl⟩

end JudicaVM
