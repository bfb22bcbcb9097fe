import JudicaVM.Board.Sales
import JudicaVM.Board.SuperMint
import JudicaVM.Lib.Aborts

/-!
# Look-ups

After sanitization the callbacks and the move look up only what exists, with one exception: the
shipment from an NFT of the player that is no power plant.
-/

namespace JudicaVM

open Checked Std OrderedMap Transition GameBoard

/-- All aborts are arithmetic: no look-up fails, nothing is unwrapped in vain, and no assertion is
violated. -/
abbrev Finds {α : Type} (x : Except Panic α) : Prop := AbortsOnly Panic.IsArithmetic x

variable {setup : GameSetup} {g g' : GameBoard} {sender : EntityID}

namespace TokenRegistry

variable {r : TokenRegistry} {p : TokenPointer} {receiver who : EntityID} {amount : ℕ}

private theorem balanceCheck_finds (hp : r.Has p) : Finds (r.balanceCheck p who) :=
  .of_ok (balanceCheck_of_has hp)

private theorem index_finds (hp : r.Has p) : Finds (r.index p) := by
  obtain ⟨t, ht⟩ := Option.isSome_iff_exists.mp hp
  exact .of_ok (index_eq_ok_iff.mpr ht)

private theorem transfer_finds (hs : r.Sound) (hp : r.Has p) :
    Finds (r.transfer p sender receiver amount) := by
  rw [transfer_eq hs hp]
  exact .ite (fun _ => .ok _) fun _ => .ok _

private theorem transfer_sound {y : Bool × TokenRegistry} (hs : r.Sound) (hp : r.Has p)
    (h : r.transfer p sender receiver amount = .ok y) : y.2.Sound ∧ ∀ q, r.Has q → y.2.Has q := by
  rw [transfer_eq hs hp] at h
  split at h
  · cases h
    exact ⟨hs, fun _ hq => hq⟩
  · rename_i hpays
    cases h
    exact ⟨moved_sound hs (Nat.le_of_not_lt hpays), fun q hq => moved_has.mpr hq⟩

private theorem mint_finds (hp : r.Has p) : Finds (r.mint p who amount) := by
  apply AbortsOnly.bind (index_finds hp)
  intro t _
  apply AbortsOnly.bind
  · apply AbortsOnly.bind add_aborts
    intro b _
    apply AbortsOnly.bind add_aborts
    intro total _
    exact .ok _
  · intro t' _
    exact .ok _

end TokenRegistry

private theorem NFTRegistry.index_finds {r : NFTRegistry} {i : NftPtr} (h : r.nfts[i]?.isSome) :
    Finds (r.index i) := by
  obtain ⟨nft, hnft⟩ := Option.isSome_iff_exists.mp h
  have hindex : r.index i = .ok nft := by simp [NFTRegistry.index, hnft]
  exact .of_ok hindex

namespace ConstantFunctionMarketMaker

open ConstantFunctionMarketMakerPair (ensure ensure_cases has_normalize)

variable {id : TradingPairID} {amountA amountB : ℕ} {cap : Option ℕ} {simulate : Bool}
  {trader : EntityID} {m : ConstantFunctionMarketMakerPair}

private theorem ensure_finds (hA : g.Has id.assetA) (hB : g.Has id.assetB) : Finds
    (ensure g id) := by
  obtain ⟨hA', hB'⟩ := has_normalize hA hB
  cases hm : g.markets[id.normalize]? with
  | some m =>
    simp only [ensure, hm]
    exact .ok _
  | none =>
    simp only [ensure, hm]
    apply AbortsOnly.bind (TokenRegistry.index_finds hA')
    intro tokenA _
    apply AbortsOnly.bind (TokenRegistry.index_finds hB')
    intro tokenB _
    apply AbortsOnly.bind add_aborts
    intro baseId _
    apply AbortsOnly.bind add_aborts
    intro id _
    exact .ok _

private theorem ensure_sound {g1 : GameBoard} (hi : g.Inv)
    (h : ensure g id.normalize = .ok (m, g1)) :
    g1.Inv ∧ g.Extends g1 ∧ g1.markets[id.normalize]? = some m ∧
      g1.MarketSound id.normalize m := by
  have htrace := ensure_trace (0 : EntityID) true h
  have hi1 := htrace.inv hi
  obtain ⟨hm, _⟩ := ensure_cases h
  rw [TradingPairID.normalize_normalize] at hm
  exact ⟨hi1, htrace.extends hi, hm, hi1.markets _ m hm⟩

private theorem roundupDiv_finds {a d : ℕ} : Finds (roundupDiv a d) := by
  apply AbortsOnly.bind add_aborts
  intro s _
  apply AbortsOnly.bind sub_aborts
  intro s' _
  exact div_aborts

private theorem buyQuote_finds {S B b : ℕ} : Finds (buyQuote S B b) := by
  apply AbortsOnly.bind mul_aborts
  intro k _
  apply AbortsOnly.bind sub_aborts
  intro rest _
  apply AbortsOnly.bind roundupDiv_finds
  intro after _
  apply AbortsOnly.bind sub_aborts
  intro sellAmt _
  apply AbortsOnly.bind add_aborts
  intro total _
  apply AbortsOnly.bind roundupDiv_finds
  intro after' _
  apply AbortsOnly.bind sub_aborts
  intro buyAmt _
  exact .ok _

private theorem sellQuote_finds {S B s : ℕ} : Finds (sellQuote S B s) := by
  apply AbortsOnly.bind mul_aborts
  intro k _
  apply AbortsOnly.bind add_aborts
  intro total _
  apply AbortsOnly.bind roundupDiv_finds
  intro after _
  apply AbortsOnly.bind sub_aborts
  intro buyAmt _
  apply AbortsOnly.bind sub_aborts
  intro rest _
  apply AbortsOnly.bind roundupDiv_finds
  intro after' _
  apply AbortsOnly.bind sub_aborts
  intro sellAmt _
  exact .ok _

private theorem closeTrade_finds {selling buying : TokenPointer} {s b : ℕ} {outcome : TradeOutcome}
    (hi : g.Inv) (hparty : g.Party trader) (hp : Priced g m selling buying s b) :
    Finds (closeTrade g m outcome selling buying s b simulate trader) := by
  rw [closeTrade_eq hi hp hparty]
  exact .ite (fun _ => .ok _) fun _ => .ite (fun _ => .ok _) fun _ => .ok _

private theorem doBuyTrade_finds (hi : g.Inv) (hparty : g.Party trader) (hA : g.Has id.assetA)
    (hB : g.Has id.assetB) : Finds (doBuyTrade g id amountA amountB cap simulate trader) := by
  obtain ⟨hA', hB'⟩ := has_normalize hA hB
  obtain ⟨amount, hw⟩ := withAmounts_eq id amountA amountB
  cases hensure : ensure g id.normalize with
  | error e =>
    have he : doBuyTrade g id amountA amountB cap simulate trader = .error e := by
      simp only [doBuyTrade, internalDoTradeBuyFixedAmount, hw, hensure, error_bind]
    rw [he]
    exact .error (ensure_finds hA' hB' e hensure)
  | ok x =>
    obtain ⟨m, g1⟩ := x
    obtain ⟨hi1, hext, hm, hsound⟩ := ensure_sound hi hensure
    rw [doBuyTrade, buyTrade_of_ensure hensure]
    cases hd : buyDirection id.normalize amount.1 amount.2 with
    | error e =>
      rw [buyTrade_refused hw hm hd]
      exact .ok _
    | ok y =>
      obtain ⟨buying, selling, b⟩ := y
      have heq := buyTrade_quoted cap simulate trader hi1 hw hm hd
      rw [heq]
      refine .ite (fun _ => .ok _) fun _ => ?_
      apply AbortsOnly.bind buyQuote_finds
      intro z hz
      refine .ite (fun _ => .ok _) fun _ => ?_
      exact closeTrade_finds hi1 (hext.party hparty)
        (buyQuote_priced hsound hm (buyDirection_eq_ok hd).1 hz)

private theorem doSellTrade_finds (hi : g.Inv) (hparty : g.Party trader) (hA : g.Has id.assetA)
    (hB : g.Has id.assetB) : Finds (doSellTrade g id amountA amountB cap simulate trader) := by
  obtain ⟨hA', hB'⟩ := has_normalize hA hB
  obtain ⟨amount, hw⟩ := withAmounts_eq id amountA amountB
  cases hensure : ensure g id.normalize with
  | error e =>
    have he : doSellTrade g id amountA amountB cap simulate trader = .error e := by
      simp only [doSellTrade, internalDoTradeSellFixedAmount, hw, hensure, error_bind]
    rw [he]
    exact .error (ensure_finds hA' hB' e hensure)
  | ok x =>
    obtain ⟨m, g1⟩ := x
    obtain ⟨hi1, hext, hm, hsound⟩ := ensure_sound hi hensure
    rw [doSellTrade, sellTrade_of_ensure hensure]
    cases hd : sellDirection id.normalize amount.1 amount.2 with
    | error e =>
      rw [sellTrade_refused hw hm hd]
      exact .ok _
    | ok y =>
      obtain ⟨buying, selling, s⟩ := y
      have heq := sellTrade_quoted cap simulate trader hi1 hw hm hd
      rw [heq]
      refine .ite (fun _ => .ok _) fun _ => ?_
      apply AbortsOnly.bind sellQuote_finds
      intro z hz
      refine .ite (fun _ => .ok _) fun _ => ?_
      exact closeTrade_finds hi1 (hext.party hparty)
        (sellQuote_priced hsound hm (sellDirection_eq_ok hd).1 hz)

private theorem deposit_finds (hi : g.Inv) (hA : g.Has id.assetA) (hB : g.Has id.assetB) :
    Finds (deposit g id amountA amountB trader) := by
  obtain ⟨hA', hB'⟩ := has_normalize hA hB
  obtain ⟨⟨a, b⟩, hw⟩ := withAmounts_eq id amountA amountB
  simp only [deposit, hw]
  refine .ite (fun _ => .ok _) fun _ => ?_
  apply AbortsOnly.bind (ensure_finds hA' hB')
  rintro ⟨m, g1⟩ hensure
  obtain ⟨hi1, _, hm, hsound⟩ := ensure_sound hi hensure
  have hpair := hsound.pair_eq
  have hasA : g1.tokens.Has m.pair.assetA := hpair ▸ hsound.hasA
  have hasB : g1.tokens.Has m.pair.assetB := hpair ▸ hsound.hasB
  rw [← hpair]
  apply AbortsOnly.bind (TokenRegistry.balanceCheck_finds hasB)
  intro amtB _
  apply AbortsOnly.bind mul_aborts
  intro lhs _
  apply AbortsOnly.bind (TokenRegistry.balanceCheck_finds hasA)
  intro amtA _
  apply AbortsOnly.bind mul_aborts
  intro rhs _
  refine .ite (fun _ => .ok _) fun _ => ?_
  apply AbortsOnly.bind (TokenRegistry.transfer_finds hi1.tokens hasA)
  rintro ⟨movedA, t1⟩ h1
  obtain ⟨hs1, hhas1⟩ := TokenRegistry.transfer_sound hi1.tokens hasA h1
  refine .ite (fun _ => .ok _) fun _ => ?_
  apply AbortsOnly.bind (TokenRegistry.transfer_finds hs1 (hhas1 _ hasB))
  rintro ⟨movedB, t2⟩ h2
  obtain ⟨hs2, hhas2⟩ := TokenRegistry.transfer_sound hs1 (hhas1 _ hasB) h2
  have hasA2 := hhas2 _ (hhas1 _ hasA)
  have hasShares : t2.Has m.lp := hhas2 _ (hhas1 _ hsound.hasShares)
  refine .ite (fun _ => ?_) fun _ => ?_
  · apply AbortsOnly.bind (TokenRegistry.transfer_finds hs2 hasA2)
    rintro ⟨_, t3⟩ _
    exact .ok _
  apply AbortsOnly.bind (TokenRegistry.index_finds hasShares)
  intro shares _
  apply AbortsOnly.bind mul_aborts
  intro scaled _
  apply AbortsOnly.bind (TokenRegistry.balanceCheck_finds hasA2)
  intro held _
  apply AbortsOnly.bind div_aborts
  intro toMint _
  apply AbortsOnly.bind (TokenRegistry.mint_finds hasShares)
  intro t3 _
  have hmarket : g1.markets[m.pair]? = some m := hpair ▸ hm
  simp only [hmarket]
  apply AbortsOnly.bind add_aborts
  intro reserveA _
  apply AbortsOnly.bind add_aborts
  intro reserveB _
  exact .ok _

end ConstantFunctionMarketMaker

private theorem runBoards_finds {boards : List (ℕ × ℕ)} {watts hashrate : ℕ} :
    Finds (PowerPlant.runBoards boards watts hashrate) := by
  induction boards generalizing watts hashrate with
  | nil => exact .ok _
  | cons board boards ih =>
    obtain ⟨hpw, units⟩ := board
    apply AbortsOnly.bind mul_aborts
    intro rate _
    apply AbortsOnly.bind add_aborts
    intro total _
    apply AbortsOnly.bind sub_aborts
    intro rest _
    exact .ite (fun _ => .ok _) fun _ => ih

private theorem computeHashrate_finds (hi : g.Inv) (plant : PowerPlant) :
    Finds (plant.computeHashrate g) := by
  apply AbortsOnly.bind
  · apply AbortsOnly.mapM
    rintro ⟨token, board⟩ hmem
    have hhas := hi.boards token board (ExtTreeMap.mem_toList_iff_getElem?_eq_some.mp hmem)
    apply AbortsOnly.bind (TokenRegistry.balanceCheck_finds hhas)
    intro count _
    exact .ok _
  · intro counts _
    exact runBoards_finds

namespace PowerPlantEvent

private theorem collectShares_finds (hi : g.Inv) {plants : List (NftPtr × PowerPlant)}
    (hplants : ∀ x ∈ plants, g.IsNft x.1) (acc : ℕ × ExtTreeMap EntityID ℕ) :
    Finds (collectShares g plants acc) := by
  induction plants generalizing acc with
  | nil => exact .ok _
  | cons x plants ih =>
    apply AbortsOnly.bind (computeHashrate_finds hi x.2)
    intro share _
    apply AbortsOnly.bind add_aborts
    intro total _
    apply AbortsOnly.bind (NFTRegistry.index_finds (hplants x List.mem_cons_self))
    intro nft _
    apply AbortsOnly.bind add_aborts
    intro v _
    exact ih (fun y hy => hplants y (List.mem_cons_of_mem _ hy)) _

private theorem payAll_finds {p : TokenPointer} {payouts : List (EntityID × ℕ)}
    {tokens : TokenRegistry}
    (hs : tokens.Sound) (hp : tokens.Has p) : Finds (payAll p payouts tokens) := by
  induction payouts generalizing tokens with
  | nil => exact .ok _
  | cons x payouts ih =>
    apply AbortsOnly.bind (TokenRegistry.mint_finds hp)
    intro t hmint
    obtain ⟨_, hfits, rfl⟩ := (TokenRegistry.mint_eq_ok_iff hs).mp hmint
    exact ih (TokenRegistry.minted_sound hs hfits) (TokenRegistry.minted_has.mpr hp)

private theorem action_finds (hi : g.Inv) (e : PowerPlantEvent) : Finds (e.action g) := by
  have hplants : ∀ x ∈ g.nfts.powerPlants.toList, g.IsNft x.1 := fun x hx =>
    (hi.plants x.1 x.2 (ExtTreeMap.mem_toList_iff_getElem?_eq_some.mp hx)).2
  apply AbortsOnly.bind (collectShares_finds hi hplants (0, ∅))
  rintro ⟨total, shares⟩ _
  apply AbortsOnly.bind
  · refine .ite (fun _ => .ok _) fun _ => ?_
    apply AbortsOnly.bind
    · apply AbortsOnly.mapM
      rintro ⟨dest, share⟩ _
      apply AbortsOnly.bind
      · apply AbortsOnly.bind mul_aborts
        intro v _
        apply AbortsOnly.bind mul_aborts
        intro v' _
        apply AbortsOnly.bind div_aborts
        intro v'' _
        exact div_aborts
      · intro v _
        exact .ok _
    · intro payouts _
      apply AbortsOnly.bind (TokenRegistry.index_finds hi.bitcoin)
      intro token _
      exact payAll_finds hi.tokens hi.bitcoin
  · intro tokens _
    apply AbortsOnly.bind add_aborts
    intro time _
    exact .ok _

end PowerPlantEvent

namespace Producer

variable {p : Producer}

private theorem openMarket_finds (hi : g.Inv) (hp : g.ProducerSound p) : Finds
    (p.openMarket g) := by
  apply AbortsOnly.bind (TokenRegistry.mint_finds hp.hasHash)
  intro t1 hmint1
  obtain ⟨_, hfits1, rfl⟩ := (TokenRegistry.mint_eq_ok_iff hi.tokens).mp hmint1
  have hs1 : (g.tokens.minted _ p.id _).Sound := TokenRegistry.minted_sound hi.tokens hfits1
  apply AbortsOnly.bind mul_aborts
  intro base _
  apply AbortsOnly.bind (TokenRegistry.mint_finds (TokenRegistry.minted_has.mpr hp.hasPrice))
  intro t2 hmint2
  have htrace : Trace (fun _ => True) g (g.withTokens t2) := by
    have hfirst : Trace (fun _ => True) g (g.withTokens _) :=
      mint_trace hi hp.party trivial hmint1
    have hp1 := (hfirst.extends hi).producerSound hp
    exact hfirst.trans (mint_trace (hfirst.inv hi) hp1.party trivial hmint2)
  have hp2 := (htrace.extends hi).producerSound hp
  apply AbortsOnly.bind
    (ConstantFunctionMarketMaker.deposit_finds (htrace.inv hi) hp2.hasHash hp2.hasPrice)
  intro g1 _
  apply AbortsOnly.bind sub_aborts
  intro rest _
  exact .ok _

private theorem action_finds (callback : Producer → Callback) (hi : g.Inv)
    (hp : g.ProducerSound p) : Finds (action callback p g) := by
  apply AbortsOnly.bind
  · exact .ite (fun _ => openMarket_finds hi hp) fun _ => .ok _
  rintro ⟨p1, g1⟩ hprepare
  obtain ⟨hfirst, hid, hhash, hprice⟩ := prepare_trace (U := fun _ => False) hi hp not_false hprepare
  have hi1 := hfirst.inv hi
  have hold := (hfirst.extends hi).producerSound hp
  have hparty : g1.Party p1.id := hid ▸ hold.party
  have hasHash : g1.Has p1.hashAsset := hhash ▸ hold.hasHash
  have hasPrice : g1.Has p1.priceAsset := hprice ▸ hold.hasPrice
  apply AbortsOnly.bind (TokenRegistry.balanceCheck_finds hasHash)
  intro balance _
  apply AbortsOnly.bind
    (ConstantFunctionMarketMaker.doSellTrade_finds hi1 hparty hasHash hasPrice)
  rintro ⟨r, g2⟩ htrade
  have hext := (ConstantFunctionMarketMaker.doSellTrade_trace hi1 hparty htrade).extends hi1
  apply AbortsOnly.bind add_aborts
  intro time _
  apply AbortsOnly.bind (TokenRegistry.balanceCheck_finds (hext.has _ hasHash))
  intro left _
  exact .ite (fun _ => .ok _) fun _ => .ok _

end Producer

private theorem CoinLockup.action_finds (hi : g.Inv) {l : CoinLockup} (hl : g.LockupSound l) :
    Finds (l.action g) := by
  apply AbortsOnly.bind (NFTRegistry.index_finds hl.1)
  intro nft _
  refine .ite (fun _ => .ok _) fun _ => ?_
  apply AbortsOnly.bind (TokenRegistry.balanceCheck_finds hl.2)
  intro balance _
  apply AbortsOnly.bind (TokenRegistry.transfer_finds hi.tokens hl.2)
  rintro ⟨_, tokens⟩ _
  exact .ok _

private theorem Callback.action_finds (hi : g.Inv) {cb : Callback} (hcb : g.CallbackSound cb) :
    Finds (cb.action g) := by
  cases cb with
  | powerPlantEvent e => exact PowerPlantEvent.action_finds hi e
  | asicProducer p => exact Producer.action_finds _ hi (hcb.producer p rfl)
  | steelSmelter p => exact Producer.action_finds _ hi (hcb.producer p rfl)
  | siliconRefinery p => exact Producer.action_finds _ hi (hcb.producer p rfl)
  | concreteMiller p => exact Producer.action_finds _ hi (hcb.producer p rfl)
  | coinLockup l => exact CoinLockup.action_finds hi (hcb.lockup l rfl)

private theorem runAll_finds {cbs : List Callback} (hi : g.Inv)
    (hcbs : ∀ cb ∈ cbs, g.CallbackSound cb) :
    Finds (CallbackRegistry.runAll cbs g) := by
  induction cbs generalizing g with
  | nil => exact .ok _
  | cons cb cbs ih =>
    have hcb := hcbs cb List.mem_cons_self
    apply AbortsOnly.bind (Callback.action_finds hi hcb)
    intro g1 haction
    have htrace := Callback.action_trace (U := fun _ => False) hi hcb (fun _ => False.elim) haction
    exact ih (htrace.inv hi) fun c hc =>
      (htrace.extends hi).callbackSound (hcbs c (List.mem_cons_of_mem _ hc))

private theorem processTicks_finds (hi : g.Inv) : Finds g.processTicks := by
  apply AbortsOnly.bind add_aborts
  intro bound _
  have htrace : Trace (fun _ => True) g
      { g with callbacks := CallbackRegistry.splitOff g.callbacks bound } :=
    Run.single (e := .dequeue bound) trivial (.dequeue g bound)
  exact runAll_finds (htrace.inv hi) fun cb hcb => (htrace.extends hi).callbackSound
    (hi.callbacks cb (CallbackRegistry.pending_of_mem_dueBefore hcb))

/-- What a move refers to exists. -/
def GameBoard.Names (g : GameBoard) : GameMove → Prop
  | .trade t => g.Has t.pair.assetA ∧ g.Has t.pair.assetB
  | .superMintPowerPlant m => 1 ≤ m.scale
  | .listNFTForSale l => g.IsNft l.nftId
  | .sendTokens s => g.Has s.currency
  | .removeTokens r => g.IsNft r.nftId ∧ g.Has r.currency
  | _ => True

private theorem GameBoard.Names.mono {d : GameMove} (h : g.Names d) (hext : g.Extends g') :
    g'.Names d := by
  cases d with
  | trade t => exact ⟨hext.has _ h.1, hext.has _ h.2⟩
  | listNFTForSale l => exact hext.nfts _ h
  | sendTokens s => exact hext.has _ h
  | removeTokens r => exact ⟨hext.nfts _ h.1, hext.has _ h.2⟩
  | superMintPowerPlant m => exact h
  | _ => exact trivial

private theorem TokenPointer.has_of_sanitize {p q : TokenPointer}
    (h : TokenPointer.sanitize p g = .ok q) :
    g.Has q := by
  unfold TokenPointer.sanitize at h
  split at h
  · rename_i hcontains
    cases h
    simpa [Has, TokenRegistry.Has] using hcontains
  · cases h

private theorem NftPtr.isNft_of_sanitize {i j : NftPtr} (h : NftPtr.sanitize i g = .ok j) :
    g.IsNft j := by
  unfold NftPtr.sanitize at h
  split at h
  · rename_i hcontains
    cases h
    simpa [IsNft] using hcontains
  · cases h

private theorem names_of_sanitize {d d' : GameMove} (h : d.sanitize g = .ok d') : g.Names d' := by
  cases d with
  | heartbeat =>
    cases h
    exact trivial
  | chat s =>
    cases h
    exact trivial
  | mintPowerPlant m =>
    simp only [GameMove.sanitize, bind_eq_ok_iff, pure_eq_ok, Except.ok.injEq] at h
    obtain ⟨m', _, rfl⟩ := h
    exact trivial
  | superMintPowerPlant m =>
    simp only [GameMove.sanitize, MintPowerPlant.sanitize, bind_eq_ok_iff, pure_eq_ok,
      Except.ok.injEq] at h
    obtain ⟨m', hm', rfl⟩ := h
    split at hm'
    · cases hm'
    · cases hm'
      exact Nat.one_le_iff_ne_zero.mpr ‹_›
  | trade t =>
    simp only [GameMove.sanitize, Trade.sanitize, TradingPairID.sanitize, bind_eq_ok_iff,
      pure_eq_ok, Except.ok.injEq] at h
    obtain ⟨_, ⟨_, ⟨_, hA, _, hB, rfl⟩, rfl⟩, rfl⟩ := h
    exact ⟨TokenPointer.has_of_sanitize hA, TokenPointer.has_of_sanitize hB⟩
  | purchaseNFT p =>
    simp only [GameMove.sanitize, bind_eq_ok_iff, pure_eq_ok, Except.ok.injEq] at h
    obtain ⟨_, _, rfl⟩ := h
    exact trivial
  | listNFTForSale l =>
    simp only [GameMove.sanitize, ListNFTForSale.sanitize, bind_eq_ok_iff, pure_eq_ok,
      Except.ok.injEq] at h
    obtain ⟨_, ⟨_, hnft, _, _, rfl⟩, rfl⟩ := h
    exact NftPtr.isNft_of_sanitize hnft
  | sendTokens s =>
    simp only [GameMove.sanitize, SendTokens.sanitize, bind_eq_ok_iff, pure_eq_ok,
      Except.ok.injEq] at h
    obtain ⟨s', hs', rfl⟩ := h
    split at hs'
    · simp only [bind_eq_ok_iff, Except.ok.injEq] at hs'
      obtain ⟨_, hcurrency, rfl⟩ := hs'
      exact TokenPointer.has_of_sanitize hcurrency
    · cases hs'
  | removeTokens r =>
    simp only [GameMove.sanitize, RemoveTokens.sanitize, bind_eq_ok_iff, pure_eq_ok,
      Except.ok.injEq] at h
    obtain ⟨_, ⟨_, hnft, _, hcurrency, rfl⟩, rfl⟩ := h
    exact ⟨NftPtr.isNft_of_sanitize hnft, TokenPointer.has_of_sanitize hcurrency⟩

namespace PowerPlantProducer

variable {owner : EntityID} {kind : PlantType} {scale : ℕ} {location : ℤ × ℤ}
  {bill : List (Currency × ℕ)}

private theorem rawMaterialsBill_finds (hstocked : g.Stocked) : Finds
    (kind.rawMaterialsBill g scale) := by
  obtain ⟨prices, hprices, _⟩ := hstocked kind
  simp only [PlantType.rawMaterialsBill, hprices, unwrap_some, ok_bind]
  apply AbortsOnly.mapM
  rintro ⟨currency, qty⟩ _
  apply AbortsOnly.bind mul_aborts
  intro total _
  exact .ok _

theorem has_of_bill (hi : g.Inv) (hbill : kind.rawMaterialsBill g scale = .ok bill) :
    ∀ x ∈ bill, g.Has x.1 := by
  intro x hx
  obtain ⟨prices, hprices, hsame⟩ := PlantType.bill_of_rawMaterialsBill hbill
  obtain ⟨y, hy, heq⟩ := hsame x hx
  exact heq ▸ hi.bills kind prices hprices y hy

private theorem missingMaterial_finds (hhas : ∀ x ∈ bill, g.Has x.1) :
    Finds (missingMaterial g owner bill) := by
  induction bill with
  | nil => exact .ok _
  | cons x bill ih =>
    apply AbortsOnly.bind (TokenRegistry.balanceCheck_finds (hhas x List.mem_cons_self))
    intro balance _
    exact .ite (fun _ => .ok _) fun _ => ih fun y hy => hhas y (List.mem_cons_of_mem _ hy)

private theorem payBill_finds {plant : NftPtr} {tokens : TokenRegistry} (hs : tokens.Sound)
    (hhas : ∀ x ∈ bill, tokens.Has x.1) : Finds (payBill owner plant bill tokens) := by
  induction bill generalizing tokens with
  | nil => exact .ok _
  | cons x bill ih =>
    have hx := hhas x List.mem_cons_self
    apply AbortsOnly.bind (TokenRegistry.transfer_finds hs hx)
    rintro ⟨_, t⟩ htransfer
    obtain ⟨hs', hkept⟩ := TokenRegistry.transfer_sound hs hx htransfer
    exact ih hs' fun y hy => hkept _ (hhas y (List.mem_cons_of_mem _ hy))

private theorem mintPowerPlant_finds (hi : g.Inv) (hstocked : g.Stocked) :
    Finds (mintPowerPlant g scale location kind owner) := by
  apply AbortsOnly.bind (rawMaterialsBill_finds hstocked)
  intro bill hbill
  have hhas := has_of_bill hi hbill
  apply AbortsOnly.bind (missingMaterial_finds hhas)
  intro missing _
  cases missing with
  | some currency => exact .ok _
  | none =>
    apply AbortsOnly.bind add_aborts
    intro nftId _
    apply AbortsOnly.bind
    · apply AbortsOnly.bind mul_aborts
      intro watts _
      exact .ok _
    · intro plant _
      apply AbortsOnly.bind (payBill_finds hi.tokens hhas)
      intro tokens _
      exact .ok _

private theorem estimateMaterials_finds (hi : g.Inv) (howner : g.IsUser owner)
    (hhas : ∀ x ∈ bill, g.Has x.1) : Finds (estimateMaterials owner bill g) := by
  induction bill generalizing g with
  | nil => exact .ok _
  | cons x bill ih =>
    have hparty := hi.party_of_user howner
    have hx := hhas x List.mem_cons_self
    apply AbortsOnly.bind (TokenRegistry.index_finds hx)
    intro token _
    apply AbortsOnly.bind (ConstantFunctionMarketMaker.doBuyTrade_finds hi hparty hx hi.bitcoin)
    rintro ⟨r, g1⟩ htrade
    have htrace := ConstantFunctionMarketMaker.doBuyTrade_trace hi hparty htrade
    have hext := htrace.extends hi
    cases r with
    | error e => exact .ok _
    | ok outcome =>
      apply AbortsOnly.bind (ih (htrace.inv hi) (hext.isUser howner)
        fun y hy => hext.has _ (hhas y (List.mem_cons_of_mem _ hy)))
      rintro ⟨r2, g2⟩ _
      exact .ok _

private theorem superMint_finds (hi : g.Inv) (hpriced : g.Priced) (hstocked : g.Stocked)
    (howner : g.IsUser owner) (hscale : 1 ≤ scale) :
    Finds (superMint g scale location kind owner) := by
  apply AbortsOnly.bind
  · apply AbortsOnly.bind (rawMaterialsBill_finds hstocked)
    intro bill hbill
    exact estimateMaterials_finds hi howner (has_of_bill hi hbill)
  rintro ⟨estimate, g1⟩ hestimate
  simp only [estimateMaterialsCost, bind_eq_ok_iff] at hestimate
  obtain ⟨bill, hbill, hcosts⟩ := hestimate
  obtain ⟨hbuyable, _, _, _, hhas, hmarkets⟩ :=
    buyable_of_bill hi hpriced hstocked hscale hbill
  obtain rfl := estimateMaterials_eq hmarkets hcosts
  cases estimate with
  | error e => exact .ok _
  | ok estimates =>
    obtain ⟨hquoted, _⟩ := quoted_of_estimate hi howner hmarkets hbuyable.positive hcosts
    apply AbortsOnly.bind (AbortsOnly.foldlM fun _ _ => add_aborts)
    intro total htotal
    apply AbortsOnly.bind (TokenRegistry.balanceCheck_finds hi.bitcoin)
    intro balance hbalance
    refine .ite (fun _ => .ok _) fun hrich => ?_
    have hpays : (estimates.map (·.2.2)).sum ≤ g1.balance g1.bitcoinTokenId owner := by
      obtain ⟨_, hbalance⟩ := TokenRegistry.balanceCheck_eq_ok_iff.mp hbalance
      have hsum := sum_of_totalCost htotal
      show _ ≤ g1.tokens.balance g1.bitcoinTokenId owner
      omega
    obtain ⟨g2, hbuy, hall⟩ := buyMaterials_eq hi howner hbuyable hquoted hpays
    simp only [hbill, ok_bind, hbuy]
    exact mintPowerPlant_finds hall.inv (hstocked.mono hall.extends_board)

end PowerPlantProducer

private theorem playTrade_finds {t : Trade} (hi : g.Inv) (hsender : g.IsUser sender)
    (hA : g.Has t.pair.assetA) (hB : g.Has t.pair.assetB) : Finds (g.playTrade sender t) := by
  have hparty := hi.party_of_user hsender
  refine .ite (fun _ => ?_) fun _ => ?_
  · exact ConstantFunctionMarketMaker.doSellTrade_finds hi hparty hA hB
  · exact ConstantFunctionMarketMaker.doBuyTrade_finds hi hparty hA hB

private theorem listNft_finds {l : ListNFTForSale} (hnft : g.IsNft l.nftId) :
    Finds (g.nftSales.listNft sender l.nftId l.price l.currency g.nfts) := by
  apply AbortsOnly.bind (NFTRegistry.index_finds hnft)
  intro nft _
  exact .ite (fun _ => .ok _) fun _ => .ok _

private theorem lockup_finds {owner : EntityID} {asset : TokenPointer} {amount free : ℕ}
    (hi : g.Inv)
    (hasset : g.Has asset) : Finds (CoinLockup.lockup g sender owner asset amount free) := by
  apply AbortsOnly.bind add_aborts
  intro nftId _
  apply AbortsOnly.bind (TokenRegistry.transfer_finds hi.tokens hasset)
  rintro ⟨_, tokens⟩ _
  exact .ok _

namespace GameBoard

/-- The move ships from an NFT of the sender that is no power plant. -/
def ShipsFromNonPlant (g : GameBoard) (d : GameMove) (sender : EntityID) : Prop :=
  ∃ r nft, d = .removeTokens r ∧ g.nfts.nfts[r.nftId]? = some nft ∧ nft.owner = sender ∧
    g.nfts.powerPlants[r.nftId]? = none

private theorem playRemoveTokens_finds {r : RemoveTokens} (hi : g.Inv) (hnft : g.IsNft r.nftId)
    (hcurrency : g.Has r.currency) (hplant : ¬ g.ShipsFromNonPlant (.removeTokens r) sender) :
    Finds (g.playRemoveTokens sender r) := by
  obtain ⟨nft, hitem⟩ := Option.isSome_iff_exists.mp hnft
  have hindex : g.nfts.index r.nftId = .ok nft := by simp [NFTRegistry.index, hitem]
  simp only [playRemoveTokens, hindex, ok_bind]
  refine .ite (fun howner => ?_) fun _ => .ok _
  cases hp : g.nfts.powerPlants[r.nftId]? with
  | none => exact absurd ⟨r, nft, rfl, hitem, howner, hp⟩ hplant
  | some plant =>
    simp only [unwrap_some, ok_bind]
    apply AbortsOnly.bind
    · apply NFTRegistry.index_finds
      rw [(hi.plants _ plant hp).1]
      exact hnft
    · intro nft' _
      exact lockup_finds hi hcurrency

private theorem playInner_aborts_of_ships {d : GameMove} (h : g.ShipsFromNonPlant d sender) :
    g.playInner d sender = .error .unwrapNone := by
  obtain ⟨r, nft, rfl, hitem, howner, hplant⟩ := h
  have hindex : g.nfts.index r.nftId = .ok nft := by simp [NFTRegistry.index, hitem]
  simp only [playInner, playRemoveTokens, hindex, ok_bind, if_pos howner, hplant]
  rfl

end GameBoard

private theorem playInner_finds {d : GameMove} (hi : g.Inv) (hpriced : g.Priced)
    (hstocked : g.Stocked)
    (hsales : g.SalesSound) (hsender : g.IsUser sender) (hnames : g.Names d)
    (hplant : ¬ g.ShipsFromNonPlant d sender) : Finds (g.playInner d sender) := by
  cases d with
  | heartbeat => exact .ok _
  | trade t =>
    apply AbortsOnly.bind (playTrade_finds hi hsender hnames.1 hnames.2)
    rintro ⟨r, g1⟩ _
    exact .ok _
  | mintPowerPlant m =>
    apply AbortsOnly.bind (PowerPlantProducer.mintPowerPlant_finds hi hstocked)
    rintro ⟨r, g1⟩ _
    exact .ok _
  | superMintPowerPlant m =>
    apply AbortsOnly.bind
      (PowerPlantProducer.superMint_finds hi hpriced hstocked hsender hnames)
    rintro ⟨r, g1⟩ _
    exact .ok _
  | purchaseNFT p =>
    obtain ⟨x, hx⟩ := purchase_returns hi hsales sender p
    simp only [playInner, hx, ok_bind]
    exact .ok _
  | listNFTForSale l =>
    apply AbortsOnly.bind (listNft_finds hnames)
    intro nftSales _
    exact .ok _
  | sendTokens s =>
    apply AbortsOnly.bind (TokenRegistry.transfer_finds hi.tokens hnames)
    rintro ⟨_, tokens⟩ _
    exact .ok _
  | removeTokens r =>
    apply AbortsOnly.bind (playRemoveTokens_finds hi hnames.1 hnames.2 hplant)
    intro g1 _
    exact .ok _
  | chat s =>
    apply AbortsOnly.bind
    · apply AbortsOnly.bind add_aborts
      intro counter _
      exact .ok _
    · intro g1 _
      exact .ok _

private theorem Occurs.powerPlants_eq {U : EntityID → Prop} {e : Event} (h : Occurs g e g')
    (he : IsTickEvent U e) : g'.nfts.powerPlants = g.nfts.powerPlants := by
  cases h with
  | newNft nft plant hroom hid howner hplant => exact he.elim
  | sold asset nft sale buyer hnft hsale hseller hcount hq hpays hbuyer => exact he.elim
  | _ => rfl

private theorem Trace.powerPlants_eq {U : EntityID → Prop} (h : Trace (IsTickEvent U) g g') :
    g'.nfts.powerPlants = g.nfts.powerPlants := by
  induction h with
  | refl => rfl
  | tail _ hstep ih =>
    obtain ⟨e, he, hocc⟩ := hstep
    exact (hocc.powerPlants_eq he).trans ih

private theorem shipsFromNonPlant_iff {d : GameMove} (hi : g.Inv) (hnames : g.Names d)
    (h : Trace (IsTickEvent fun _ => False) g g') :
    g'.ShipsFromNonPlant d sender ↔ g.ShipsFromNonPlant d sender := by
  have hkept := Trace.nftsKept hi (h.mono fun _ => IsTickEvent.keepsNfts)
  have hplants := Trace.powerPlants_eq h
  constructor
  · rintro ⟨r, nft, rfl, hitem, howner, hplant⟩
    obtain ⟨nft', hitem'⟩ := Option.isSome_iff_exists.mp hnames.1
    obtain rfl : nft' = nft := Option.some.inj ((hkept.nfts _ _ hitem').symm.trans hitem)
    exact ⟨r, nft', rfl, hitem', howner, hplants ▸ hplant⟩
  · rintro ⟨r, nft, rfl, hitem, howner, hplant⟩
    exact ⟨r, nft, rfl, hkept.nfts _ _ hitem, howner, hplants ▸ hplant⟩

/-- The callbacks look up only what exists, and so does the move, just if it does not ship from an
NFT of the sender that is no power plant. -/
theorem sanitized_finds_iff (h : Reachable setup g) (hsender : g.IsUser sender) {d d' : GameMove}
    (hsane : d.sanitize g = .ok d') {clocked : GameBoard} (hclock : clocked = g.withNotes clocked) :
    Finds clocked.processTicks ∧ ∀ ticked noted, clocked.processTicks = .ok ticked →
      noted = ticked.withNotes noted →
      (Finds (noted.playInner d' sender) ↔ ¬ g.ShipsFromNonPlant d' sender) := by
  have hfirst : Trace (IsTickEvent fun _ => False) g clocked := notes_trace trivial hclock
  have hi := h.inv
  refine ⟨processTicks_finds (hfirst.inv hi), fun ticked noted hticks hnoted => ?_⟩
  have hsecond := CallbackRegistry.run_trace (U := fun _ => False) (hfirst.inv hi)
    (fun _ => False.elim) hticks
  have htrace : Trace (IsTickEvent fun _ => False) g noted :=
    (hfirst.trans (hsecond.mono fun _ => IsCallbackEvent.isTickEvent)).trans
      (notes_trace trivial hnoted)
  have hext := htrace.extends hi
  have hnames := names_of_sanitize hsane
  rw [← shipsFromNonPlant_iff hi hnames htrace]
  constructor
  · intro hfinds hships
    rcases hfinds _ (playInner_aborts_of_ships hships) with harith | harith <;> cases harith
  · have hkept := Trace.nftsKept hi (htrace.mono fun _ => IsTickEvent.keepsNfts)
    exact playInner_finds (htrace.inv hi) (h.priced.mono hext) (h.stocked.mono hext)
      (h.salesSound.mono hext hkept) (hext.isUser hsender) (hnames.mono hext)

/-- Alice, who has the id 0xc0de0008, ships a machine from one of her NFTs. -/
def aliceShips (nftId : NftPtr) : GameMove :=
  .removeTokens { nftId, amount := 1, currency := 0xc0de0004 }

theorem sanitized_finds_plant : ∃ g ticked, Reachable twoPlayers g ∧ g.processTicks = .ok ticked ∧
    Finds (ticked.playInner (aliceShips 0xc0de0016) 0xc0de0008) := by
  have h : returns (do
      let g ← GameBoard.new twoPlayers
      let ticked ← g.processTicks
      pure (g, ticked)) (fun x => x.1.IsUser 0xc0de0008 ∧
        (aliceShips 0xc0de0016).sanitize x.1 = .ok (aliceShips 0xc0de0016) ∧
        (x.1.nfts.powerPlants[(0xc0de0016 : NftPtr)]?).isSome) := by
    decide +kernel
  obtain ⟨x, hok, htest⟩ := returns_iff.mp h
  simp only [bind_eq_ok_iff, pure_eq_ok, Except.ok.injEq] at hok
  obtain ⟨g, hnew, ticked, hticks, rfl⟩ := hok
  obtain ⟨halice, hsane, hplant⟩ := of_decide_eq_true htest
  have hclock : g = g.withNotes g := rfl
  obtain ⟨_, hmove⟩ := sanitized_finds_iff (.new hnew) halice hsane hclock
  refine ⟨g, ticked, .new hnew, hticks, (hmove ticked ticked hticks rfl).mpr ?_⟩
  rintro ⟨r, nft, hr, _, _, hnone⟩
  cases hr
  rw [hnone] at hplant
  exact absurd hplant (by decide)

/-- The shipment makes a lockup, which is an NFT of Alice. A shipment from it passes sanitization
and unwraps a power plant that is not there. -/
theorem shipment_from_lockup_aborts : ∃ g ticked, Reachable twoPlayers g ∧ g.IsUser 0xc0de0008 ∧
    (aliceShips 0xc0de0018).sanitize g = .ok (aliceShips 0xc0de0018) ∧
    g.processTicks = .ok ticked ∧
    ticked.playInner (aliceShips 0xc0de0018) 0xc0de0008 = .error .unwrapNone ∧
    ¬ Finds (ticked.playInner (aliceShips 0xc0de0018) 0xc0de0008) := by
  have h : returns (do
      let g ← GameBoard.new twoPlayers
      let g ← playAll [({ d := aliceShips 0xc0de0016, sequence := 1, timeMillis := 0 }, "alice")] g
      let ticked ← g.processTicks
      pure (g, ticked)) (fun x => x.1.IsUser 0xc0de0008 ∧
        (aliceShips 0xc0de0018).sanitize x.1 = .ok (aliceShips 0xc0de0018) ∧
        aborts (x.2.playInner (aliceShips 0xc0de0018) 0xc0de0008) .unwrapNone) := by
    decide +kernel
  obtain ⟨x, hok, htest⟩ := returns_iff.mp h
  simp only [bind_eq_ok_iff, pure_eq_ok, Except.ok.injEq] at hok
  obtain ⟨g0, hnew, g, hrun, ticked, hticks, rfl⟩ := hok
  obtain ⟨halice, hsane, habort⟩ := of_decide_eq_true htest
  have habort := aborts_iff.mp habort
  refine ⟨g, ticked, (Reachable.new hnew).later (later_of_playAll hrun), halice, hsane, hticks,
    habort, fun hfinds => ?_⟩
  rcases hfinds _ habort with h | h <;> cases h

end JudicaVM
