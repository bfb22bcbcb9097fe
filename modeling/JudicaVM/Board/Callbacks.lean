import JudicaVM.Board.Moves

/-!
# Callbacks as events

The producers mint, deposit and sell under ids of their own, the payouts mint to the owners of
plants, and a lockup pays the owner of its NFT. No user ever pays.
-/

namespace JudicaVM

open Checked Std OrderedMap Transition GameBoard

/-- The events of callbacks. Nobody in `U` pays. -/
def IsCallbackEvent (U : EntityID → Prop) : Event → Prop
  | .openMarket _ => True
  | .swap _ _ _ _ _ trader => ¬ U trader
  | .transfer _ payer _ _ => ¬ U payer
  | .deposit _ _ _ depositor => ¬ U depositor
  | .mint _ _ _ => True
  | .schedule _ => True
  | .dequeue _ => True
  | _ => False

variable {U : EntityID → Prop} {g g' : GameBoard}

theorem isCallbackEvent_of_trade {trader : EntityID} {simulate : Bool} {e : Event}
    (ht : ¬ U trader) (h : ConstantFunctionMarketMaker.IsTrade trader simulate e) :
    IsCallbackEvent U e := by
  cases e <;> simp_all [ConstantFunctionMarketMaker.IsTrade, IsCallbackEvent]

namespace GameBoard

theorem mint_trace {P : Event → Prop} {p : TokenPointer} {dest : EntityID} {amount : ℕ}
    {tokens : TokenRegistry} (hi : g.Inv) (hdest : g.Party dest) (hP : P (.mint p dest amount))
    (h : g.tokens.mint p dest amount = .ok tokens) : Trace P g (g.withTokens tokens) := by
  obtain ⟨hp, hfits, rfl⟩ := (TokenRegistry.mint_eq_ok_iff hi.tokens).mp h
  exact Run.single hP (.mint g p dest amount hp hfits hdest)

theorem balance_of_openMarket {pair : TradingPairID} {p : TokenPointer} {i : EntityID}
    (hi : g.Inv) (h : Occurs g (.openMarket pair) g') : g'.balance p i = g.balance p i := by
  cases h
  exact openMarket_balance hi

end GameBoard

namespace ConstantFunctionMarketMaker

open ConstantFunctionMarketMakerPair (ensure ensure_cases amtA_eq amtB_eq)

variable {id : TradingPairID} {amountA amountB : ℕ} {depositor : EntityID}

theorem deposit_normalize :
    deposit g id amountA amountB depositor =
      deposit g id.normalize (id.withAmounts amountA amountB).2.1
        (id.withAmounts amountA amountB).2.2 depositor := by
  have hfst : (id.withAmounts amountA amountB).1 = id.normalize := TradingPairID.withAmounts_fst
  have hnormal := TradingPairID.withAmounts_of_isNormal (p := id.normalize)
    (a := (id.withAmounts amountA amountB).2.1) (b := (id.withAmounts amountA amountB).2.2)
    TradingPairID.isNormal_normalize
  simp only [deposit, hfst, hnormal]

theorem ensure_depositor {m : ConstantFunctionMarketMakerPair} {g1 : GameBoard} (hi : g.Inv)
    (hn : id.isNormal) (hparty : g.Party depositor) (h : ensure g id = .ok (m, g1)) :
    g1.markets[id]? = some m ∧ g1.Inv ∧ g1.Party depositor ∧
      ∀ p, g1.balance p depositor = g.balance p depositor := by
  obtain ⟨hm, hopen⟩ := ensure_cases h
  rw [TradingPairID.normalize_of_isNormal hn] at hm hopen
  rcases hopen with rfl | hopen
  · exact ⟨hm, hi, hparty, fun _ => rfl⟩
  · exact ⟨hm, hopen.inv hi, (hopen.extends hi).party hparty,
      fun _ => balance_of_openMarket hi hopen⟩

private theorem transfer_both {r : TokenRegistry} {p q : TokenPointer} {payer : EntityID}
    (payee : EntityID)
    (hr : r.Sound) (hne : p ≠ q) (hp : r.Has p) (hq : r.Has q)
    (hpaysA : amountA ≤ r.balance p payer) (hpaysB : amountB ≤ r.balance q payer) :
    r.transfer p payer payee amountA = .ok (true, r.moved p payer payee amountA) ∧
    (r.moved p payer payee amountA).transfer q payer payee amountB =
      .ok (true, (r.moved p payer payee amountA).moved q payer payee amountB) ∧
    ((r.moved p payer payee amountA).moved q payer payee amountB).Sound := by
  have hmoved : (r.moved p payer payee amountA).Sound := TokenRegistry.moved_sound hr hpaysA
  have hpaysB' : amountB ≤ (r.moved p payer payee amountA).balance q payer := by
    rw [TokenRegistry.moved_balance hp, if_neg hne]
    exact hpaysB
  refine ⟨?_, ?_, TokenRegistry.moved_sound hmoved hpaysB'⟩
  · rw [TokenRegistry.transfer_eq hr hp, if_neg (Nat.not_lt_of_le hpaysA)]
  · rw [TokenRegistry.transfer_eq hmoved (TokenRegistry.moved_has.mpr hq),
      if_neg (Nat.not_lt_of_le hpaysB')]

/-- A deposit of someone who can pay changes nothing, opens a market, or goes through, the last if
it is in the proportion of the reserves. -/
theorem deposit_cases (hi : g.Inv) (hn : id.isNormal) (hparty : g.Party depositor)
    (hne : id.assetA ≠ id.assetB) (hpaysA : amountA ≤ g.balance id.assetA depositor)
    (hpaysB : amountB ≤ g.balance id.assetB depositor)
    (h : deposit g id amountA amountB depositor = .ok g') :
    (g' = g ∧ (amountA = 0 ∨ amountB = 0)) ∨ ∃ m g1, ensure g id = .ok (m, g1) ∧
      ((g' = g1 ∧ amountA * m.reserveB ≠ m.reserveA * amountB) ∨
      amountA * m.reserveB = m.reserveA * amountB ∧
      ∃ toMint, g1.CanDeposit m amountA amountB toMint depositor ∧
        g' = g1.withReserves m (g1.deposited m amountA amountB toMint depositor)) := by
  simp only [deposit, TradingPairID.withAmounts_of_isNormal hn] at h
  by_cases hzero : amountA = 0 ∨ amountB = 0
  · rw [if_pos hzero] at h
    cases h
    exact .inl ⟨rfl, hzero⟩
  rw [if_neg hzero] at h
  obtain ⟨⟨m, g1⟩, hensure, h⟩ := bind_eq_ok_iff.mp h
  refine .inr ⟨m, g1, hensure, ?_⟩
  obtain ⟨hm, hi1, hparty1, hbal⟩ := ensure_depositor hi hn hparty hensure
  have hms := hi1.markets _ m hm
  have hpair := hms.pair_eq
  subst hpair
  have hA : g1.tokens.Has m.pair.assetA := hms.hasA
  have hB : g1.tokens.Has m.pair.assetB := hms.hasB
  have hpaysA1 : amountA ≤ g1.balance m.pair.assetA depositor := hpaysA.trans_eq (hbal _).symm
  have hpaysB1 : amountB ≤ g1.balance m.pair.assetB depositor := hpaysB.trans_eq (hbal _).symm
  simp only [bind_eq_ok_iff, mul_eq_ok_iff] at h
  obtain ⟨_, hamtB, _, ⟨_, rfl⟩, _, hamtA, _, ⟨_, rfl⟩, h⟩ := h
  rw [amtA_eq hA, Except.ok.injEq] at hamtA
  rw [amtB_eq hB, Except.ok.injEq] at hamtB
  subst hamtA
  subst hamtB
  have hresA' : g1.tokens.balance m.pair.assetA m.id = m.reserveA := hms.reserveA_eq.symm
  have hresB' : g1.tokens.balance m.pair.assetB m.id = m.reserveB := hms.reserveB_eq.symm
  rw [hresA', hresB'] at h
  split at h
  · rename_i hratio
    cases h
    exact .inl ⟨rfl, hratio⟩
  rename_i hratio
  obtain ⟨htransferA, htransferB, hsound⟩ := transfer_both m.id hi1.tokens hne hA hB
    hpaysA1 hpaysB1
  simp only [htransferA, htransferB, ok_bind, Bool.not_true, Bool.false_eq_true, if_false,
    bind_eq_ok_iff, mul_eq_ok_iff, div_eq_ok_iff, hm, add_eq_ok_iff, pure_eq_ok,
    Except.ok.injEq] at h
  obtain ⟨shares, hshares, _, ⟨_, rfl⟩, amt, hamt, toMint, ⟨_, htoMint⟩, tokens, hmint, _,
    ⟨_, rfl⟩, _, ⟨_, rfl⟩, rfl⟩ := h
  obtain ⟨_, hfits, hminted⟩ := (TokenRegistry.mint_eq_ok_iff hsound).mp hmint
  have htotal : shares.total = g1.total m.lp := by
    have h1 := TokenRegistry.total_of_some (TokenRegistry.index_eq_ok_iff.mp hshares)
    simpa [GameBoard.total] using h1.symm
  have hne' : depositor ≠ m.id := fun heq => hparty1.not_market m.pair m hm heq.symm
  have hamt' : amt = m.reserveA + amountA := by
    rw [amtA_eq (TokenRegistry.moved_has.mpr (TokenRegistry.moved_has.mpr hA)),
      Except.ok.injEq, TokenRegistry.moved_balance (TokenRegistry.moved_has.mpr hB),
      if_neg hne.symm, TokenRegistry.moved_balance hA, if_pos rfl, if_neg hne', if_pos rfl] at hamt
    rw [← hamt, hms.reserveA_eq]
    rfl
  have hcan : g1.CanDeposit m amountA amountB toMint depositor :=
    { market := hm
      distinct := hne
      party := hparty1
      positive := by omega
      paysA := hpaysA1
      paysB := hpaysB1
      shares := by rw [← htotal, ← hamt', htoMint]
      fits := by simpa [GameBoard.total] using hfits }
  refine .inr ⟨not_not.mp hratio, toMint, hcan, ?_⟩
  have hresA := hcan.balance_account (q := m.pair.assetA) hi1
  have hresB := hcan.balance_account (q := m.pair.assetB) hi1
  rw [if_pos rfl, ← hms.reserveA_eq] at hresA
  rw [if_neg hne, if_pos rfl, ← hms.reserveB_eq] at hresB
  simp only [GameBoard.withReserves, hresA, hresB]
  simp only [GameBoard.deposited, hminted]

/-- Whoever can pay two amounts can pay them in the order of the normalized pair. -/
theorem withAmounts_pays (hne : id.assetA ≠ id.assetB)
    (hpaysA : amountA ≤ g.balance id.assetA depositor)
    (hpaysB : amountB ≤ g.balance id.assetB depositor) :
    id.normalize.assetA ≠ id.normalize.assetB ∧
      (id.withAmounts amountA amountB).2.1 ≤ g.balance id.normalize.assetA depositor ∧
      (id.withAmounts amountA amountB).2.2 ≤ g.balance id.normalize.assetB depositor := by
  by_cases hn : id.isNormal
  · simpa [TradingPairID.normalize_of_isNormal hn, TradingPairID.withAmounts, hn] using
      ⟨hne, hpaysA, hpaysB⟩
  · have hnot : ¬ id.assetA ≤ id.assetB := by simpa [TradingPairID.isNormal] using hn
    simpa [TradingPairID.normalize, TradingPairID.withAmounts, hn, hnot] using
      ⟨hne.symm, hpaysB, hpaysA⟩

private theorem deposit_trace (hi : g.Inv) (hparty : g.Party depositor) (huser : ¬ U depositor)
    (hne : id.assetA ≠ id.assetB) (hpaysA : amountA ≤ g.balance id.assetA depositor)
    (hpaysB : amountB ≤ g.balance id.assetB depositor)
    (h : deposit g id amountA amountB depositor = .ok g') :
    Trace (IsCallbackEvent U) g g' := by
  obtain ⟨hne', hpaysA', hpaysB'⟩ := withAmounts_pays hne hpaysA hpaysB
  rw [deposit_normalize] at h
  rcases deposit_cases hi TradingPairID.isNormal_normalize hparty hne' hpaysA' hpaysB' h with
    ⟨rfl, -⟩ | ⟨m, g1, hensure, hrest⟩
  · exact Run.refl
  have hopen : Trace (IsCallbackEvent U) g g1 :=
    (ensure_trace depositor true hensure).mono
      fun _ => isCallbackEvent_of_trade huser
  rcases hrest with ⟨rfl, -⟩ | ⟨-, toMint, hcan, rfl⟩
  · exact hopen
  · exact hopen.tail (e := .deposit m.pair _ _ depositor) huser
      (.deposit g1 m _ _ toMint depositor hcan)

end ConstantFunctionMarketMaker

namespace Producer

open ConstantFunctionMarketMaker

variable {p p' : Producer}

/-- The opening of a producer's market: two mints and a deposit that the producer can pay. -/
theorem openMarket_cases (hi : g.Inv) (h : p.openMarket g = .ok (p', g')) :
    ∃ t1 t2, g.tokens.mint p.hashAsset p.id p.totalUnits = .ok t1 ∧
      t1.mint p.priceAsset p.id (p.basePrice * (p.totalUnits / 10)) = .ok t2 ∧
      p.totalUnits / 10 ≤ (g.withTokens t2).balance p.hashAsset p.id ∧
      p.basePrice * (p.totalUnits / 10) ≤ (g.withTokens t2).balance p.priceAsset p.id ∧
      deposit (g.withTokens t2) p.pair (p.totalUnits / 10) (p.basePrice * (p.totalUnits / 10)) p.id =
        .ok g' ∧
      p' = { p with first := false, totalUnits := p.totalUnits - p.totalUnits / 10 } := by
  simp only [openMarket, bind_eq_ok_iff, mul_eq_ok_iff, sub_eq_ok_iff, pure_eq_ok,
    Except.ok.injEq, Prod.mk.injEq] at h
  obtain ⟨t1, hmint1, _, ⟨_, rfl⟩, t2, hmint2, g1, hdeposit, _, ⟨_, rfl⟩, rfl, rfl⟩ := h
  refine ⟨t1, t2, hmint1, hmint2, ?_, ?_, hdeposit, rfl⟩
  · obtain ⟨hhash, hfits, rfl⟩ := (TokenRegistry.mint_eq_ok_iff hi.tokens).mp hmint1
    obtain ⟨hprice, _, rfl⟩ :=
      (TokenRegistry.mint_eq_ok_iff (TokenRegistry.minted_sound hi.tokens hfits)).mp hmint2
    have hle : p.totalUnits / 10 ≤ p.totalUnits := Nat.div_le_self _ _
    simp only [GameBoard.balance, GameBoard.withTokens]
    rw [TokenRegistry.minted_balance hprice, TokenRegistry.minted_balance hhash]
    simp only [true_and, if_true]
    omega
  · obtain ⟨hhash, hfits, rfl⟩ := (TokenRegistry.mint_eq_ok_iff hi.tokens).mp hmint1
    obtain ⟨hprice, _, rfl⟩ :=
      (TokenRegistry.mint_eq_ok_iff (TokenRegistry.minted_sound hi.tokens hfits)).mp hmint2
    simp only [GameBoard.balance, GameBoard.withTokens]
    rw [TokenRegistry.minted_balance hprice]
    simp

private theorem openMarket_trace (hi : g.Inv) (hp : g.ProducerSound p) (huser : ¬ U p.id)
    (h : p.openMarket g = .ok (p', g')) :
    Trace (IsCallbackEvent U) g g' ∧ p'.id = p.id ∧ p'.hashAsset = p.hashAsset ∧
      p'.priceAsset = p.priceAsset := by
  obtain ⟨t1, t2, hmint1, hmint2, hpaysA, hpaysB, hdeposit, rfl⟩ := openMarket_cases hi h
  have hfirst : Trace (IsCallbackEvent U) g (g.withTokens t1) :=
    mint_trace hi hp.party trivial hmint1
  have hi1 := hfirst.inv hi
  have hp1 := (hfirst.extends hi).producerSound hp
  have hsecond : Trace (IsCallbackEvent U) (g.withTokens t1) (g.withTokens t2) :=
    mint_trace hi1 hp1.party trivial hmint2
  have hp2 := (hsecond.extends hi1).producerSound hp1
  have hthird := deposit_trace (U := U) (hsecond.inv hi1) hp2.party huser hp.distinct
    hpaysA hpaysB hdeposit
  exact ⟨hfirst.trans (hsecond.trans hthird), rfl, rfl, rfl⟩

theorem prepare_trace (hi : g.Inv) (hp : g.ProducerSound p) (huser : ¬ U p.id)
    (h : p.prepare g = .ok (p', g')) :
    Trace (IsCallbackEvent U) g g' ∧ p'.id = p.id ∧ p'.hashAsset = p.hashAsset ∧
      p'.priceAsset = p.priceAsset := by
  unfold prepare at h
  split at h
  · exact openMarket_trace hi hp huser h
  · cases h
    exact ⟨Run.refl, rfl, rfl, rfl⟩

private theorem action_trace {callback : Producer → Callback} (hi : g.Inv) (hp : g.ProducerSound p)
    (huser : ¬ U p.id) (hcallback : ∀ q, (callback q).producer? = some q)
    (hlockup : ∀ q, (callback q).lockup? = none) (h : action callback p g = .ok g') :
    Trace (IsCallbackEvent U) g g' := by
  simp only [action, bind_eq_ok_iff, pure_eq_ok] at h
  obtain ⟨⟨p1, g1⟩, hprepare, _, _, ⟨r, g2⟩, htrade, time, _, balance, _, h⟩ := h
  obtain ⟨hfirst, hid, hhash, hprice⟩ := prepare_trace (U := U) hi hp huser hprepare
  have hi1 := hfirst.inv hi
  have hold := (hfirst.extends hi).producerSound hp
  have hp1 : g1.ProducerSound p1 :=
    ⟨hid ▸ hold.le_alloc, hid ▸ hold.own_id, hhash ▸ hold.hasHash, hprice ▸ hold.hasPrice,
      hhash ▸ hprice ▸ hold.distinct⟩
  have huser1 : ¬ U p1.id := hid ▸ huser
  have hsecond : Trace (IsCallbackEvent U) g1 g2 :=
    (doSellTrade_trace hi1 hp1.party htrade).mono fun _ => isCallbackEvent_of_trade huser1
  have hboth := hfirst.trans hsecond
  by_cases hmore : balance > 0
  · rw [if_pos hmore] at h
    cases h
    have hp2 := (hsecond.extends hi1).producerSound hp1
    refine hboth.tail (e := .schedule (callback { p1 with elapsedTime := time })) trivial
      (.schedule g2 _ ⟨fun q hq => ?_, fun l hl => ?_⟩)
    · rw [hcallback, Option.some.injEq] at hq
      subst hq
      exact ⟨hp2.le_alloc, hp2.own_id, hp2.hasHash, hp2.hasPrice, hp2.distinct⟩
    · rw [hlockup] at hl
      cases hl
  · rw [if_neg hmore] at h
    cases h
    exact hboth

end Producer

namespace PowerPlantEvent

theorem collectShares_users {plants : List (NftPtr × PowerPlant)}
    {acc res : ℕ × ExtTreeMap EntityID ℕ} (hi : g.Inv)
    (hacc : ∀ (i : EntityID) v, acc.2[i]? = some v → g.IsUser i)
    (h : collectShares g plants acc = .ok res) (i : EntityID) (v : ℕ)
    (hres : res.2[i]? = some v) : g.IsUser i := by
  induction plants generalizing acc with
  | nil =>
    cases h
    exact hacc i v hres
  | cons plant plants ih =>
    obtain ⟨id, plant⟩ := plant
    obtain ⟨total, shares⟩ := acc
    simp only [collectShares, NFTRegistry.index, bind_eq_ok_iff, unwrap_eq_ok_iff] at h
    obtain ⟨_, _, _, _, nft, hnft, _, _, h⟩ := h
    refine ih (fun j w hj => ?_) h
    simp only [OrderedMap.getElem?_insert] at hj
    by_cases howner : nft.owner = j
    · exact howner ▸ (hi.nfts id nft hnft).2
    · rw [if_neg howner] at hj
      exact hacc j w hj

private theorem payAll_trace {p : TokenPointer} {payouts : List (EntityID × ℕ)}
    {tokens : TokenRegistry}
    (hi : g.Inv) (hpaid : ∀ x ∈ payouts, g.IsUser x.1)
    (h : payAll p payouts g.tokens = .ok tokens) :
    Trace (IsCallbackEvent U) g (g.withTokens tokens) := by
  induction payouts generalizing g with
  | nil =>
    cases h
    exact Run.refl
  | cons x payouts ih =>
    obtain ⟨dest, amount⟩ := x
    simp only [payAll, bind_eq_ok_iff] at h
    obtain ⟨t1, hmint, h⟩ := h
    have hstep : Trace (IsCallbackEvent U) g (g.withTokens t1) :=
      mint_trace hi (hi.party_of_user (hpaid _ List.mem_cons_self)) trivial hmint
    exact hstep.trans (ih (hstep.inv hi)
      (fun y hy => (hstep.extends hi).isUser (hpaid y (List.mem_cons_of_mem _ hy))) h)

private theorem distribute_trace {total : ℕ} {shares : ExtTreeMap EntityID ℕ}
    {tokens : TokenRegistry}
    (hi : g.Inv) (hshares : ∀ (i : EntityID) v, shares[i]? = some v → g.IsUser i)
    (h : distribute g total shares = .ok tokens) :
    Trace (IsCallbackEvent U) g (g.withTokens tokens) := by
  unfold distribute at h
  split at h
  · cases h
    exact Run.refl
  · simp only [bind_eq_ok_iff] at h
    obtain ⟨payouts, hpayouts, _, _, hpay⟩ := h
    refine payAll_trace hi (fun x hx => ?_) hpay
    obtain ⟨⟨dest, share⟩, hmem, hx⟩ := mem_of_mapM_eq_ok hpayouts hx
    simp only [bind_eq_ok_iff, pure_eq_ok, Except.ok.injEq] at hx
    obtain ⟨_, _, rfl⟩ := hx
    exact hshares dest share (ExtTreeMap.mem_toList_iff_getElem?_eq_some.mp hmem)

private theorem action_trace {e : PowerPlantEvent} (hi : g.Inv) (h : e.action g = .ok g') :
    Trace (IsCallbackEvent U) g g' := by
  simp only [action, bind_eq_ok_iff, pure_eq_ok, Except.ok.injEq] at h
  obtain ⟨⟨total, shares⟩, hshares, tokens, hpay, time, _, rfl⟩ := h
  have hpaid : Trace (IsCallbackEvent U) g (g.withTokens tokens) :=
    distribute_trace hi (collectShares_users hi (fun i v hv => by simp at hv) hshares) hpay
  refine hpaid.tail (e := .schedule (.powerPlantEvent { e with time })) trivial
    (.schedule _ _ ⟨fun q hq => ?_, fun l hl => ?_⟩)
  · cases hq
  · cases hl

end PowerPlantEvent

theorem CoinLockup.action_trace {P : Event → Prop} {l : CoinLockup} (hi : g.Inv)
    (hl : g.LockupSound l) (hP : ∀ receiver amount, P (.transfer l.asset l.id receiver amount))
    (h : l.action g = .ok g') : Trace P g g' := by
  simp only [action, NFTRegistry.index, bind_eq_ok_iff, unwrap_eq_ok_iff] at h
  obtain ⟨nft, hnft, h⟩ := h
  split at h
  · cases h
    exact Run.refl
  · simp only [bind_eq_ok_iff, pure_eq_ok, Except.ok.injEq] at h
    obtain ⟨balance, _, x, htransfer, rfl⟩ := h
    exact transfer_trace hi (hi.party_of_nft hl.1) (hi.party_of_user (hi.nfts _ _ hnft).2)
      (hP _ _) htransfer

/-- Nobody in `U` pays when the callback runs. -/
structure Callback.Spares (U : EntityID → Prop) (cb : Callback) : Prop where
  producer : ∀ p, cb.producer? = some p → ¬ U p.id
  lockup : ∀ l, cb.lockup? = some l → ¬ U l.id

theorem GameBoard.CallbackSound.spares {cb : Callback} (h : g.CallbackSound cb) (hi : g.Inv)
    (husers : ∀ i, U i → g.IsUser i) : cb.Spares U where
  producer p hp hu := (h.producer p hp).not_isUser (husers _ hu)
  lockup l hl hu := hi.not_isUser_of_isNft (h.lockup l hl).1 (husers _ hu)

private theorem Callback.Spares.action_trace {cb : Callback} (hU : cb.Spares U) (hi : g.Inv)
    (hcb : g.CallbackSound cb) (h : cb.action g = .ok g') : Trace (IsCallbackEvent U) g g' := by
  cases cb with
  | powerPlantEvent e => exact PowerPlantEvent.action_trace hi h
  | asicProducer p =>
    exact Producer.action_trace hi (hcb.producer p rfl) (hU.producer p rfl) (fun _ => rfl)
      (fun _ => rfl) h
  | steelSmelter p =>
    exact Producer.action_trace hi (hcb.producer p rfl) (hU.producer p rfl) (fun _ => rfl)
      (fun _ => rfl) h
  | siliconRefinery p =>
    exact Producer.action_trace hi (hcb.producer p rfl) (hU.producer p rfl) (fun _ => rfl)
      (fun _ => rfl) h
  | concreteMiller p =>
    exact Producer.action_trace hi (hcb.producer p rfl) (hU.producer p rfl) (fun _ => rfl)
      (fun _ => rfl) h
  | coinLockup l =>
    exact CoinLockup.action_trace hi (hcb.lockup l rfl) (fun _ _ => hU.lockup l rfl) h

theorem Callback.action_trace {cb : Callback} (hi : g.Inv) (hcb : g.CallbackSound cb)
    (husers : ∀ i, U i → g.IsUser i) (h : cb.action g = .ok g') :
    Trace (IsCallbackEvent U) g g' :=
  (hcb.spares hi husers).action_trace hi hcb h

namespace CallbackRegistry

theorem runAll_events {cbs : List Callback} (hi : g.Inv) (hcbs : ∀ cb ∈ cbs, g.CallbackSound cb)
    (hU : ∀ cb ∈ cbs, cb.Spares U) (h : runAll cbs g = .ok g') :
    Trace (IsCallbackEvent U) g g' := by
  induction cbs generalizing g with
  | nil =>
    cases h
    exact Run.refl
  | cons cb cbs ih =>
    simp only [runAll, bind_eq_ok_iff] at h
    obtain ⟨g1, haction, h⟩ := h
    have hstep := (hU cb List.mem_cons_self).action_trace hi (hcbs cb List.mem_cons_self) haction
    exact hstep.trans (ih (hstep.inv hi)
      (fun c hc => (hstep.extends hi).callbackSound (hcbs c (List.mem_cons_of_mem _ hc)))
      (fun c hc => hU c (List.mem_cons_of_mem _ hc)) h)

theorem runAll_trace {cbs : List Callback} (hi : g.Inv) (hcbs : ∀ cb ∈ cbs, g.CallbackSound cb)
    (husers : ∀ i, U i → g.IsUser i) (h : runAll cbs g = .ok g') :
    Trace (IsCallbackEvent U) g g' :=
  runAll_events hi hcbs (fun cb hcb => (hcbs cb hcb).spares hi husers) h

theorem pending_of_mem_dueBefore {bound : ℕ} {cb : Callback}
    (h : cb ∈ dueBefore g.callbacks bound) : g.Pending cb := by
  simp only [dueBefore, List.mem_flatMap, List.mem_filter, Prod.exists] at h
  obtain ⟨time, l, ⟨hl, _⟩, hmem⟩ := h
  exact ⟨time, l, ExtTreeMap.mem_toList_iff_getElem?_eq_some.mp hl, hmem⟩

private theorem run_events (hi : g.Inv) (hU : ∀ cb, g.Pending cb → cb.Spares U)
    (h : run g = .ok g') : Trace (IsCallbackEvent U) g g' := by
  simp only [run, bind_eq_ok_iff] at h
  obtain ⟨bound, _, h⟩ := h
  have hfirst : Trace (IsCallbackEvent U) g
      { g with callbacks := splitOff g.callbacks bound } :=
    Run.single (e := .dequeue bound) trivial (.dequeue g bound)
  have hext := hfirst.extends hi
  exact hfirst.trans (runAll_events (hfirst.inv hi)
    (fun cb hcb => hext.callbackSound (hi.callbacks cb (pending_of_mem_dueBefore hcb)))
    (fun cb hcb => hU cb (pending_of_mem_dueBefore hcb)) h)

theorem run_trace (hi : g.Inv) (husers : ∀ i, U i → g.IsUser i) (h : run g = .ok g') :
    Trace (IsCallbackEvent U) g g' :=
  run_events hi (fun cb hcb => (hi.callbacks cb hcb).spares hi husers) h

end CallbackRegistry
end JudicaVM
