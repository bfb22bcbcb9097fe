import JudicaVM.Board.Invariant

/-!
# Trades as events

What the two quotes compute, and that a trade is nothing, a new market, a swap, or a new market
followed by a swap.
-/

namespace JudicaVM

open Checked Std OrderedMap Transition ConstantProduct

private theorem roundupDiv_eq_ok_iff {a d c : ℕ} :
    roundupDiv a d = .ok c ↔ d ≠ 0 ∧ a + d < 2 ^ 128 ∧ a ⌈/⌉ d = c := by
  simp only [roundupDiv, bind_eq_ok_iff, add_eq_ok_iff, sub_eq_ok_iff, div_eq_ok_iff,
    Nat.ceilDiv_eq_add_pred_div]
  constructor
  · rintro ⟨_, ⟨hlt, rfl⟩, _, ⟨_, rfl⟩, hd, hc⟩
    exact ⟨hd, hlt, hc⟩
  · rintro ⟨hd, hlt, hc⟩
    exact ⟨_, ⟨hlt, rfl⟩, _, ⟨by omega, rfl⟩, hd, hc⟩

namespace ConstantFunctionMarketMaker

variable {S B s b : ℕ} {x : ℕ × ℕ}

/-- A purchase is quoted exactly when the market holds more than is bought and the arithmetic
fits. -/
theorem buyQuote_eq_ok_iff :
    buyQuote S B b = .ok x ↔
      0 < S ∧ b < B ∧ S * B + (B - b) < 2 ^ 128 ∧
        S * B + (S + swapIn S B b) < 2 ^ 128 ∧
        x = (swapIn S B b, swapOut S B (swapIn S B b)) := by
  simp only [buyQuote, bind_eq_ok_iff, mul_eq_ok_iff, sub_eq_ok_iff, add_eq_ok_iff,
    roundupDiv_eq_ok_iff, pure_eq_ok, Except.ok.injEq]
  constructor
  · rintro ⟨_, ⟨hk, rfl⟩, _, ⟨hb, rfl⟩, _, ⟨hd, hlt, rfl⟩, _, ⟨hS, rfl⟩, _, ⟨hadd, rfl⟩, _,
      ⟨hd', hlt', rfl⟩, _, ⟨hB, rfl⟩, rfl⟩
    refine ⟨?_, by omega, hlt, hlt', rfl⟩
    by_contra h0
    have hS0 : S = 0 := by omega
    subst hS0
    simp at hd'
  · rintro ⟨hS, hb, hlt, hlt', rfl⟩
    have hle : S ≤ (S * B) ⌈/⌉ (B - b) := le_ceilDiv_of_le (by omega) (by omega)
    have hle' : (S * B) ⌈/⌉ (S + swapIn S B b) ≤ B := by
      rw [Nat.mul_comm S B]
      exact ceilDiv_le_of_le (by omega) (by omega)
    exact ⟨_, ⟨by omega, rfl⟩, _, ⟨hb.le, rfl⟩, _, ⟨by omega, hlt, rfl⟩, _, ⟨hle, rfl⟩, _,
      ⟨by have := Nat.zero_le (S * B); unfold swapIn at hlt'; omega, rfl⟩, _,
      ⟨by omega, hlt', rfl⟩, _, ⟨hle', rfl⟩, rfl⟩

/-- A sale is quoted exactly when the market is funded and the arithmetic fits. -/
theorem sellQuote_eq_ok_iff :
    sellQuote S B s = .ok x ↔
      0 < S ∧ 0 < B ∧ S * B + (S + s) < 2 ^ 128 ∧
        S * B + (B - swapOut S B s) < 2 ^ 128 ∧
        x = (swapIn S B (swapOut S B s), swapOut S B s) := by
  simp only [sellQuote, bind_eq_ok_iff, mul_eq_ok_iff, sub_eq_ok_iff, add_eq_ok_iff,
    roundupDiv_eq_ok_iff, pure_eq_ok, Except.ok.injEq, Nat.mul_comm B S]
  constructor
  · rintro ⟨_, ⟨hk, rfl⟩, _, ⟨hadd, rfl⟩, _, ⟨hd, hlt, rfl⟩, _, ⟨hB, rfl⟩, _, ⟨hle, rfl⟩, _,
      ⟨hd', hlt', rfl⟩, _, ⟨hS, rfl⟩, rfl⟩
    have hpos : 0 < S * B := by
      by_contra h0
      have h0' : S * B = 0 := by omega
      rw [h0'] at hd'
      simp at hd'
    exact ⟨Nat.pos_of_mul_pos_right hpos, Nat.pos_of_mul_pos_left hpos, hlt, hlt', rfl⟩
  · rintro ⟨hS, hB, hlt, hlt', rfl⟩
    have hle' : (S * B) ⌈/⌉ (S + s) ≤ B := by
      rw [Nat.mul_comm S B]
      exact ceilDiv_le_of_le (by omega) (by omega)
    have hout := swapOut_lt (s := s) hS hB
    have hle : S ≤ (S * B) ⌈/⌉ (B - swapOut S B s) := le_ceilDiv_of_le (by omega) (by omega)
    exact ⟨_, ⟨by omega, rfl⟩, _, ⟨by omega, rfl⟩, _, ⟨by omega, hlt, rfl⟩, _, ⟨hle', rfl⟩, _,
      ⟨Nat.sub_le _ _, rfl⟩, _, ⟨by unfold swapOut at hout; omega, hlt', rfl⟩, _, ⟨hle, rfl⟩, rfl⟩

end ConstantFunctionMarketMaker

namespace TradingPairID

variable {p : TradingPairID}

theorem normalize_of_isNormal (h : p.isNormal) : p.normalize = p := by
  simp only [isNormal, decide_eq_true_eq] at h
  simp [normalize, h]

@[simp] theorem isNormal_normalize : p.normalize.isNormal := by
  unfold normalize isNormal
  split
  · simpa
  · rename_i h
    simpa using Nat.le_of_not_le h

@[simp] theorem normalize_normalize : p.normalize.normalize = p.normalize :=
  normalize_of_isNormal isNormal_normalize

theorem withAmounts_fst {a b : ℕ} : (p.withAmounts a b).1 = p.normalize := by
  unfold withAmounts
  split
  · rename_i h
    exact (normalize_of_isNormal h).symm
  · rfl

theorem withAmounts_of_isNormal {a b : ℕ} (h : p.isNormal) : p.withAmounts a b = (p, a, b) := by
  simp [withAmounts, h]

end TradingPairID

namespace ConstantFunctionMarketMakerPair

variable {g g' : GameBoard} {pair : TradingPairID} {m : ConstantFunctionMarketMakerPair}

theorem ensure_of_some (h : g.markets[pair.normalize]? = some m) : ensure g pair = .ok (m, g) := by
  simp [ensure, h]

/-- What `ensure` does: nothing to a pair that has a market, else it opens one. -/
theorem ensure_cases (h : ensure g pair = .ok (m, g')) :
    g'.markets[pair.normalize]? = some m ∧
      (g' = g ∨ Occurs g (.openMarket pair.normalize) g') := by
  simp only [ensure] at h
  cases hm : g.markets[pair.normalize]? with
  | some m' =>
    simp only [hm, pure_eq_ok, Except.ok.injEq, Prod.mk.injEq] at h
    obtain ⟨rfl, rfl⟩ := h
    exact ⟨hm, .inl rfl⟩
  | none =>
    simp only [hm, bind_eq_ok_iff, TokenRegistry.index_eq_ok_iff, EntityIDAllocator.make,
      add_eq_ok_iff, pure_eq_ok, Except.ok.injEq, Prod.mk.injEq] at h
    obtain ⟨tA, hA, tB, hB, _, ⟨_, rfl⟩, _, ⟨hroom, rfl⟩, rfl, rfl⟩ := h
    refine ⟨by simp, .inr ?_⟩
    exact .openMarket g pair.normalize _ hm TradingPairID.isNormal_normalize
      (by simp [GameBoard.Has, TokenRegistry.Has, hA])
      (by simp [GameBoard.Has, TokenRegistry.Has, hB]) hroom

theorem has_normalize (hA : g.Has pair.assetA) (hB : g.Has pair.assetB) :
    g.Has pair.normalize.assetA ∧ g.Has pair.normalize.assetB := by
  unfold TradingPairID.normalize
  split
  · exact ⟨hA, hB⟩
  · exact ⟨hB, hA⟩

theorem ensure_ok_iff (hA : g.Has pair.assetA) (hB : g.Has pair.assetB) :
    (∃ x, ensure g pair = .ok x) ↔
      (∃ m, g.markets[pair.normalize]? = some m) ∨ g.alloc + 2 < 2 ^ 64 := by
  have hhas := has_normalize hA hB
  constructor
  · rintro ⟨⟨m, g'⟩, h⟩
    obtain ⟨hm, rfl | hopen⟩ := ensure_cases h
    · exact .inl ⟨m, hm⟩
    · cases hopen
      exact .inr ‹_›
  · rintro (⟨m, hm⟩ | hroom)
    · exact ⟨_, ensure_of_some hm⟩
    · cases hm : g.markets[pair.normalize]? with
      | some m => exact ⟨_, ensure_of_some hm⟩
      | none =>
        obtain ⟨tA, htA⟩ := Option.isSome_iff_exists.mp hhas.1
        obtain ⟨tB, htB⟩ := Option.isSome_iff_exists.mp hhas.2
        have h1 : EntityIDAllocator.make g.alloc = .ok (g.alloc + 1) := add_of_lt (by omega)
        have h2 : EntityIDAllocator.make (g.alloc + 1) = .ok (g.alloc + 2) := add_of_lt (by omega)
        simp only [ensure, hm, TokenRegistry.index, htA, htB, unwrap_some, ok_bind, h1, h2,
          pure_eq_ok]
        exact ⟨_, rfl⟩

theorem amtA_eq {tokens : TokenRegistry} (h : tokens.Has m.pair.assetA) :
    m.amtA tokens = .ok (tokens.balance m.pair.assetA m.id) :=
  TokenRegistry.balanceCheck_of_has h

theorem amtB_eq {tokens : TokenRegistry} (h : tokens.Has m.pair.assetB) :
    m.amtB tokens = .ok (tokens.balance m.pair.assetB m.id) :=
  TokenRegistry.balanceCheck_of_has h

end ConstantFunctionMarketMakerPair

/-- The name of a token. -/
def GameBoard.nameOf (g : GameBoard) (p : TokenPointer) : String :=
  ((g.tokens.tokens[p]?).bind (·.nickname)).getD ""

/-- What a trade of `s` units against `b` units reports. -/
def GameBoard.tradeOutcome (g : GameBoard) (pair : TradingPairID) (selling buying : TokenPointer)
    (s b : ℕ) : TradeOutcome where
  tradingPair := pair
  assetPlayerPurchased := g.nameOf buying
  amountPlayerPurchased := b
  assetPlayerSold := g.nameOf selling
  amountPlayerSold := s

namespace ConstantFunctionMarketMaker

open ConstantFunctionMarketMakerPair (ensure ensure_of_some ensure_cases)

variable {g g' : GameBoard} {m : ConstantFunctionMarketMakerPair} {sender : EntityID}
  {tokens : TokenRegistry}

private theorem payOut_eq {p : TokenPointer} {amount : ℕ} (hs : g.tokens.Sound) (hp : g.Has p)
    (hle : amount ≤ g.balance p m.id) :
    payOut g.tokens p m.id sender amount =
      .ok (decide (0 < amount), g.tokens.paid p m.id sender amount) := by
  have hle' : ¬ g.tokens.balance p m.id < amount := Nat.not_lt_of_le hle
  rw [payOut, TokenRegistry.transfer_eq hs hp]
  by_cases h0 : amount = 0
  · simp [h0, TokenRegistry.paid]
  · simp [h0, TokenRegistry.paid, hle', Nat.pos_of_ne_zero h0]

private theorem rawSwap_eq {amountA amountB : ℕ} (hs : g.tokens.Sound) (hA : g.Has m.pair.assetA)
    (hB : g.Has m.pair.assetB) (hm : g.markets[m.pair]? = some m) (hn : m.pair.isNormal)
    (hpaid : (amountA = 0 ∧ amountB ≤ g.balance m.pair.assetB m.id ∧
        tokens = g.tokens.paid m.pair.assetB m.id sender amountB) ∨
      (amountB = 0 ∧ amountA ≤ g.balance m.pair.assetA m.id ∧
        tokens = g.tokens.paid m.pair.assetA m.id sender amountA))
    (hk : m.reserveA * m.reserveB ≤
      tokens.balance m.pair.assetA m.id * tokens.balance m.pair.assetB m.id)
    (hfits : tokens.balance m.pair.assetA m.id * tokens.balance m.pair.assetB m.id < 2 ^ 128) :
    rawSwap g m.pair amountA amountB sender = .ok (.ok (), g.withReserves m tokens) := by
  have hensure : ensure g m.pair = .ok (m, g) :=
    ensure_of_some (by rwa [TradingPairID.normalize_of_isNormal hn])
  have hk1 := mul_of_lt (hk.trans_lt hfits)
  have hk2 := mul_of_lt hfits
  have hhasA : tokens.Has m.pair.assetA := by
    rcases hpaid with ⟨_, _, rfl⟩ | ⟨_, _, rfl⟩ <;> exact TokenRegistry.paid_has.mpr hA
  have hhasB : tokens.Has m.pair.assetB := by
    rcases hpaid with ⟨_, _, rfl⟩ | ⟨_, _, rfl⟩ <;> exact TokenRegistry.paid_has.mpr hB
  have hbA : tokens.balanceCheck m.pair.assetA m.id = .ok (tokens.balance m.pair.assetA m.id) :=
    TokenRegistry.balanceCheck_of_has hhasA
  have hbB : tokens.balanceCheck m.pair.assetB m.id = .ok (tokens.balance m.pair.assetB m.id) :=
    TokenRegistry.balanceCheck_of_has hhasB
  have hzero (r : TokenRegistry) (p : TokenPointer) :
      payOut r p m.id sender 0 = .ok (false, r) := rfl
  have hsent (amount : ℕ) : (if decide (0 < amount) = true then amount else 0) = amount := by
    by_cases h0 : amount = 0
    · simp [h0]
    · simp [Nat.pos_of_ne_zero h0]
  simp only [rawSwap, TradingPairID.withAmounts_of_isNormal hn, hensure, ok_bind, pure_eq_ok]
  rcases hpaid with ⟨rfl, hle, rfl⟩ | ⟨rfl, hle, rfl⟩
  · simp only [hzero, payOut_eq hs hB hle, ok_bind, hsent, ne_eq, not_true_eq_false, or_self,
      if_false, hbA, hbB, hk1, hk2, Nat.not_lt_of_le hk, hm, Bool.false_eq_true]
    rfl
  · simp only [hzero, payOut_eq hs hA hle, ok_bind, hsent, ne_eq, not_true_eq_false, or_self,
      if_false, hbA, hbB, hk1, hk2, Nat.not_lt_of_le hk, hm, Bool.false_eq_true]
    rfl

variable {selling buying : TokenPointer} {s b : ℕ}

private theorem settle_eq (hi : g.Inv) (h : g.CanSwap m selling buying s b sender)
    (hfits : (g.balance selling m.id + s) * (g.balance buying m.id - b) < 2 ^ 128) :
    settle g m selling buying s b sender =
      .ok (.ok (), g.withReserves m (g.swapped m selling buying s b sender)) := by
  have hm := hi.markets m.pair m h.market
  have hhas := hm.has_direction h.direction
  have hne := hm.direction_ne h.direction h.funded
  have hpaid : g.tokens.transfer selling sender m.id s =
      .ok (true, g.tokens.moved selling sender m.id s) := by
    have hpays : ¬ g.tokens.balance selling sender < s := Nat.not_lt_of_le h.pays
    rw [TokenRegistry.transfer_eq hi.tokens hhas.1, if_neg hpays]
  have hcovers : b ≤ (g.withTokens (g.tokens.moved selling sender m.id s)).balance buying m.id := by
    simp only [GameBoard.balance, GameBoard.withTokens]
    rw [TokenRegistry.moved_balance hhas.1, if_neg hne]
    exact h.covers
  have hraw (amountA amountB : ℕ)
      (hcase : (amountA = 0 ∧ amountB = b ∧ buying = m.pair.assetB) ∨
        (amountB = 0 ∧ amountA = b ∧ buying = m.pair.assetA)) :
      rawSwap (g.withTokens (g.tokens.moved selling sender m.id s)) m.pair amountA amountB sender =
        .ok (.ok (), g.withReserves m (g.swapped m selling buying s b sender)) := by
    refine rawSwap_eq (TokenRegistry.moved_sound hi.tokens h.pays) (TokenRegistry.moved_has.mpr hm.hasA)
      (TokenRegistry.moved_has.mpr hm.hasB) h.market hm.normal ?_ (h.product_le hi) ?_
    · rcases hcase with ⟨rfl, rfl, rfl⟩ | ⟨rfl, rfl, rfl⟩
      · exact .inl ⟨rfl, hcovers, rfl⟩
      · exact .inr ⟨rfl, hcovers, rfl⟩
    · rw [h.reserves_mul hi]
      exact hfits
  have hswap : swapHelper (g.withTokens (g.tokens.moved selling sender m.id s)) selling buying 0 b
      sender = .ok (.ok (), g.withReserves m (g.swapped m selling buying s b sender)) := by
    have hnormal := hm.normal
    rcases h.direction with ⟨rfl, rfl⟩ | ⟨rfl, rfl⟩
    · rw [swapHelper, if_pos hnormal]
      exact hraw 0 b (.inl ⟨rfl, rfl, rfl⟩)
    · simp only [TradingPairID.isNormal, decide_eq_true_eq] at hnormal
      have hnot : ¬ m.pair.assetB ≤ m.pair.assetA := fun hle => hne (Nat.le_antisymm hle hnormal)
      simp only [swapHelper, TradingPairID.isNormal, TradingPairID.normalize, decide_eq_true_eq,
        if_neg hnot]
      exact hraw b 0 (.inr ⟨rfl, rfl, rfl⟩)
  simp only [GameBoard.withTokens] at hswap
  simp only [settle, hpaid, ok_bind, Bool.not_true, Bool.false_eq_true, if_false, hswap, pure_eq_ok]

/-- What is asked of the amounts that a trade routine has computed. -/
structure Priced (g : GameBoard) (m : ConstantFunctionMarketMakerPair)
    (selling buying : TokenPointer) (s b : ℕ) : Prop where
  market : g.markets[m.pair]? = some m
  direction : m.pair.Direction selling buying
  funded : 0 < m.reserveA
  covers : b ≤ g.balance buying m.id
  acceptable : Acceptable (g.balance selling m.id) (g.balance buying m.id) s b
  fits : (g.balance selling m.id + s) * (g.balance buying m.id - b) < 2 ^ 128

theorem Priced.canSwap (h : Priced g m selling buying s b) (hparty : g.Party sender)
    (hpays : s ≤ g.balance selling sender) : g.CanSwap m selling buying s b sender where
  market := h.market
  direction := h.direction
  funded := h.funded
  party := hparty
  pays := hpays
  covers := h.covers
  acceptable := h.acceptable

/-- A priced trade ends with a refusal of a user who cannot pay, or with a swap. -/
theorem closeTrade_eq {outcome : TradeOutcome} {simulate : Bool} (hi : g.Inv)
    (h : Priced g m selling buying s b) (hparty : g.Party sender) :
    closeTrade g m outcome selling buying s b simulate sender =
      if g.balance selling sender < s then
        .ok (.error (.insufficientTokens "User has insufficient tokens"), g)
      else if simulate then .ok (.ok outcome, g)
      else .ok (.ok outcome, g.withReserves m (g.swapped m selling buying s b sender)) := by
  have hhas := (hi.markets m.pair m h.market).has_direction h.direction
  have hbal : g.tokens.balanceCheck selling sender = .ok (g.tokens.balance selling sender) :=
    TokenRegistry.balanceCheck_of_has hhas.1
  simp only [closeTrade, hbal, ok_bind, gt_iff_lt, pure_eq_ok]
  by_cases hpays : g.balance selling sender < s
  · have hpays' : g.tokens.balance selling sender < s := hpays
    rw [if_pos hpays, if_pos hpays']
  · have hpays' : ¬ g.tokens.balance selling sender < s := hpays
    rw [if_neg hpays, if_neg hpays']
    cases simulate
    · simp only [Bool.false_eq_true, if_false,
        settle_eq hi (h.canSwap hparty (Nat.le_of_not_lt hpays)) h.fits, ok_bind]
      rfl
    · rfl

theorem buyDirection_eq_ok {id : TradingPairID} {amountA amountB amt : ℕ}
    (h : buyDirection id amountA amountB = .ok (buying, selling, amt)) :
    id.Direction selling buying ∧ 0 < amt := by
  unfold buyDirection at h
  split at h <;> cases h
  · exact ⟨.inl ⟨rfl, rfl⟩, Nat.succ_pos _⟩
  · exact ⟨.inr ⟨rfl, rfl⟩, Nat.succ_pos _⟩

theorem sellDirection_eq_ok {id : TradingPairID} {amountA amountB amt : ℕ}
    (h : sellDirection id amountA amountB = .ok (buying, selling, amt)) :
    id.Direction selling buying ∧ 0 < amt := by
  unfold sellDirection at h
  split at h <;> cases h
  · exact ⟨.inr ⟨rfl, rfl⟩, Nat.succ_pos _⟩
  · exact ⟨.inl ⟨rfl, rfl⟩, Nat.succ_pos _⟩

theorem funded_of_balance_pos {pair : TradingPairID} (h : g.MarketSound pair m)
    (hd : pair.Direction selling buying) (hpos : 0 < g.balance selling m.id) : 0 < m.reserveA := by
  refine Nat.pos_of_ne_zero fun h0 => ?_
  have hB := h.both.mp h0
  rw [h.reserveA_eq] at h0
  rw [h.reserveB_eq] at hB
  rcases hd with ⟨rfl, rfl⟩ | ⟨rfl, rfl⟩ <;> omega

theorem buyQuote_priced {pair : TradingPairID} {amt : ℕ} (hm : g.MarketSound pair m)
    (hmarket : g.markets[pair]? = some m) (hd : pair.Direction selling buying)
    (h : buyQuote (g.balance selling m.id) (g.balance buying m.id) amt = .ok (s, b)) :
    Priced g m selling buying s b := by
  obtain ⟨hS, hb, hfits, hfits', heq⟩ := buyQuote_eq_ok_iff.mp h
  obtain ⟨rfl, rfl⟩ := Prod.mk.inj heq
  have hpair := hm.pair_eq
  subst hpair
  refine ⟨hmarket, hd, funded_of_balance_pos hm hd hS, Nat.sub_le _ _, acceptable_swapOut hS, ?_⟩
  rw [sub_swapOut hS]
  exact (mul_ceilDiv_lt (by omega)).trans hfits'

theorem sellQuote_priced {pair : TradingPairID} {amt : ℕ} (hm : g.MarketSound pair m)
    (hmarket : g.markets[pair]? = some m) (hd : pair.Direction selling buying)
    (h : sellQuote (g.balance selling m.id) (g.balance buying m.id) amt = .ok (s, b)) :
    Priced g m selling buying s b := by
  obtain ⟨hS, hB, hfits, hfits', heq⟩ := sellQuote_eq_ok_iff.mp h
  obtain ⟨rfl, rfl⟩ := Prod.mk.inj heq
  have hpair := hm.pair_eq
  subst hpair
  have hlt := swapOut_lt (s := amt) hS hB
  refine ⟨hmarket, hd, funded_of_balance_pos hm hd hS, Nat.sub_le _ _, acceptable_swapIn hlt, ?_⟩
  rw [swapIn_add hlt, Nat.mul_comm]
  exact (mul_ceilDiv_lt (by omega)).trans hfits'

/-- A trade changes nothing, or it swaps. -/
def Traded (g : GameBoard) (m : ConstantFunctionMarketMakerPair) (simulate : Bool)
    (sender : EntityID) (g' : GameBoard) : Prop :=
  g' = g ∨ (simulate = false ∧ ∃ selling buying s b,
    g.CanSwap m selling buying s b sender ∧
      g' = g.withReserves m (g.swapped m selling buying s b sender))

private theorem closeTrade_traded {outcome : TradeOutcome} {simulate : Bool}
    {r : Except TradeError TradeOutcome} (hi : g.Inv) (hp : Priced g m selling buying s b)
    (hparty : g.Party sender)
    (h : closeTrade g m outcome selling buying s b simulate sender = .ok (r, g')) :
    Traded g m simulate sender g' := by
  rw [closeTrade_eq hi hp hparty] at h
  by_cases hpays : g.balance selling sender < s
  · rw [if_pos hpays] at h
    cases h
    exact .inl rfl
  · rw [if_neg hpays] at h
    cases simulate
    · cases h
      exact .inr ⟨rfl, selling, buying, s, b, hp.canSwap hparty (Nat.le_of_not_lt hpays), rfl⟩
    · cases h
      exact .inl rfl

section routines

variable {id : TradingPairID} {amountA amountB : ℕ} {cap : Option ℕ} {simulate : Bool}
  {r : Except TradeError TradeOutcome}

private theorem names_of_direction (hi : g.Inv) (hm : g.MarketSound id m)
    (hd : id.Direction selling buying) :
    ∃ ts tb ns nb, g.tokens.index selling = .ok ts ∧ g.tokens.index buying = .ok tb ∧
      ts.nickname = some ns ∧ tb.nickname = some nb := by
  obtain ⟨hs, hb⟩ := hm.has_direction hd
  obtain ⟨ts, hts⟩ := Option.isSome_iff_exists.mp hs
  obtain ⟨tb, htb⟩ := Option.isSome_iff_exists.mp hb
  obtain ⟨ns, hns⟩ := Option.isSome_iff_exists.mp (hi.tokens _ _ hts).2.2
  obtain ⟨nb, hnb⟩ := Option.isSome_iff_exists.mp (hi.tokens _ _ htb).2.2
  exact ⟨ts, tb, ns, nb, TokenRegistry.index_eq_ok_iff.mpr hts,
    TokenRegistry.index_eq_ok_iff.mpr htb, hns, hnb⟩

theorem withAmounts_eq (id : TradingPairID) (amountA amountB : ℕ) :
    ∃ amount : ℕ × ℕ, id.withAmounts amountA amountB = (id.normalize, amount) :=
  ⟨(id.withAmounts amountA amountB).2,
    Prod.ext TradingPairID.withAmounts_fst rfl⟩

private theorem nameOf_eq {p : TokenPointer} {t : TokenBase} {name : String}
    (h : g.tokens.index p = .ok t) (hname : t.nickname = some name) : g.nameOf p = name := by
  simp [GameBoard.nameOf, TokenRegistry.index_eq_ok_iff.mp h, hname]

theorem buyTrade_of_ensure {g1 : GameBoard} (h : ensure g id.normalize = .ok (m, g1)) :
    internalDoTradeBuyFixedAmount g id amountA amountB cap simulate sender =
      internalDoTradeBuyFixedAmount g1 id amountA amountB cap simulate sender := by
  obtain ⟨amount, hw⟩ := withAmounts_eq id amountA amountB
  have h1 : ensure g1 id.normalize = .ok (m, g1) := ensure_of_some (ensure_cases h).1
  simp only [internalDoTradeBuyFixedAmount, hw, h, h1]

theorem sellTrade_of_ensure {g1 : GameBoard} (h : ensure g id.normalize = .ok (m, g1)) :
    internalDoTradeSellFixedAmount g id amountA amountB cap simulate sender =
      internalDoTradeSellFixedAmount g1 id amountA amountB cap simulate sender := by
  obtain ⟨amount, hw⟩ := withAmounts_eq id amountA amountB
  have h1 : ensure g1 id.normalize = .ok (m, g1) := ensure_of_some (ensure_cases h).1
  simp only [internalDoTradeSellFixedAmount, hw, h, h1]

theorem buyTrade_ensures {x : Except TradeError TradeOutcome × GameBoard}
    (h : internalDoTradeBuyFixedAmount g id amountA amountB cap simulate sender = .ok x) :
    ∃ m g1, ensure g id.normalize = .ok (m, g1) := by
  obtain ⟨amount, hw⟩ := withAmounts_eq id amountA amountB
  simp only [internalDoTradeBuyFixedAmount, hw, bind_eq_ok_iff] at h
  obtain ⟨⟨m, g1⟩, hensure, _⟩ := h
  exact ⟨m, g1, hensure⟩

theorem sellTrade_ensures {x : Except TradeError TradeOutcome × GameBoard}
    (h : internalDoTradeSellFixedAmount g id amountA amountB cap simulate sender = .ok x) :
    ∃ m g1, ensure g id.normalize = .ok (m, g1) := by
  obtain ⟨amount, hw⟩ := withAmounts_eq id amountA amountB
  simp only [internalDoTradeSellFixedAmount, hw, bind_eq_ok_iff] at h
  obtain ⟨⟨m, g1⟩, hensure, _⟩ := h
  exact ⟨m, g1, hensure⟩

theorem buyTrade_refused {amount : ℕ × ℕ} {e : TradeError} (hw : id.withAmounts amountA amountB =
    (id.normalize, amount)) (hm : g.markets[id.normalize]? = some m)
    (hd : buyDirection id.normalize amount.1 amount.2 = .error e) :
    internalDoTradeBuyFixedAmount g id amountA amountB cap simulate sender = .ok (.error e, g) := by
  have hensure : ensure g id.normalize = .ok (m, g) := ensure_of_some (by simpa using hm)
  simp only [internalDoTradeBuyFixedAmount, hw, hensure, ok_bind, hd, pure_eq_ok]

theorem sellTrade_refused {amount : ℕ × ℕ} {e : TradeError} (hw : id.withAmounts amountA amountB =
    (id.normalize, amount)) (hm : g.markets[id.normalize]? = some m)
    (hd : sellDirection id.normalize amount.1 amount.2 = .error e) :
    internalDoTradeSellFixedAmount g id amountA amountB cap simulate sender =
      .ok (.error e, g) := by
  have hensure : ensure g id.normalize = .ok (m, g) := ensure_of_some (by simpa using hm)
  simp only [internalDoTradeSellFixedAmount, hw, hensure, ok_bind, hd, pure_eq_ok]

theorem buyTrade_quoted (cap : Option ℕ) (simulate : Bool) (sender : EntityID) {amount : ℕ × ℕ}
    (hi : g.Inv) (hw : id.withAmounts amountA amountB = (id.normalize, amount))
    (hm : g.markets[id.normalize]? = some m)
    (hd : buyDirection id.normalize amount.1 amount.2 = .ok (buying, selling, b)) :
    internalDoTradeBuyFixedAmount g id amountA amountB cap simulate sender =
      if b > g.balance buying m.id then
        .ok (.error (.insufficientTokens "Market has insufficient tokens"), g)
      else
        buyQuote (g.balance selling m.id) (g.balance buying m.id) b >>= fun x =>
          if cap.any (x.1 > ·) then .ok (.error .marketSlipped, g)
          else closeTrade g m (g.tradeOutcome id.normalize selling buying x.1 x.2) selling buying
            x.1 x.2 simulate sender := by
  have hsound := hi.markets _ m hm
  have hdir := (buyDirection_eq_ok hd).1
  obtain ⟨ts, tb, ns, nb, hts, htb, hns, hnb⟩ := names_of_direction hi hsound hdir
  obtain ⟨hs, hb⟩ := hsound.has_direction hdir
  have hensure : ensure g id.normalize = .ok (m, g) := ensure_of_some (by simpa using hm)
  simp only [internalDoTradeBuyFixedAmount, hw, hensure, ok_bind, hd, hts, htb, hns, hnb,
    unwrap_some, TokenRegistry.balanceCheck_of_has hs, TokenRegistry.balanceCheck_of_has hb,
    pure_eq_ok, GameBoard.tradeOutcome, nameOf_eq hts hns, nameOf_eq htb hnb]
  rfl

theorem sellTrade_quoted (cap : Option ℕ) (simulate : Bool) (sender : EntityID) {amount : ℕ × ℕ}
    (hi : g.Inv) (hw : id.withAmounts amountA amountB = (id.normalize, amount))
    (hm : g.markets[id.normalize]? = some m)
    (hd : sellDirection id.normalize amount.1 amount.2 = .ok (buying, selling, s)) :
    internalDoTradeSellFixedAmount g id amountA amountB cap simulate sender =
      if cap.any (g.balance buying m.id < ·) then
        .ok (.error (.insufficientTokens "Not Enough Liquidity to Buy Min"), g)
      else
        sellQuote (g.balance selling m.id) (g.balance buying m.id) s >>= fun x =>
          if cap.any (x.2 < ·) then .ok (.error .marketSlipped, g)
          else closeTrade g m (g.tradeOutcome id.normalize selling buying x.1 x.2) selling buying
            x.1 x.2 simulate sender := by
  have hsound := hi.markets _ m hm
  have hdir := (sellDirection_eq_ok hd).1
  obtain ⟨ts, tb, ns, nb, hts, htb, hns, hnb⟩ := names_of_direction hi hsound hdir
  obtain ⟨hs, hb⟩ := hsound.has_direction hdir
  have hensure : ensure g id.normalize = .ok (m, g) := ensure_of_some (by simpa using hm)
  simp only [internalDoTradeSellFixedAmount, hw, hensure, ok_bind, hd, hts, htb, hns, hnb,
    unwrap_some, TokenRegistry.balanceCheck_of_has hs, TokenRegistry.balanceCheck_of_has hb,
    pure_eq_ok, GameBoard.tradeOutcome, nameOf_eq hts hns, nameOf_eq htb hnb]
  rfl

private theorem quoted_traded {quote : Except Panic (ℕ × ℕ)} {slipped : ℕ × ℕ → Bool}
    {outcome : ℕ → ℕ → TradeOutcome} (hi : g.Inv) (hparty : g.Party sender)
    (hpriced : ∀ s b, quote = .ok (s, b) → Priced g m selling buying s b)
    (h : (quote >>= fun x =>
      if slipped x then .ok (.error .marketSlipped, g)
      else closeTrade g m (outcome x.1 x.2) selling buying x.1 x.2 simulate sender) =
        .ok (r, g')) : Traded g m simulate sender g' := by
  obtain ⟨⟨s, b⟩, hquote, h⟩ := bind_eq_ok_iff.mp h
  by_cases hslip : slipped (s, b)
  · rw [if_pos hslip] at h
    cases h
    exact .inl rfl
  · rw [if_neg hslip] at h
    exact closeTrade_traded hi (hpriced s b hquote) hparty h

private theorem buyTrade_traded (hi : g.Inv) (hparty : g.Party sender)
    (hm : g.markets[id.normalize]? =
    some m) (h : internalDoTradeBuyFixedAmount g id amountA amountB cap simulate sender =
      .ok (r, g')) : Traded g m simulate sender g' := by
  obtain ⟨amount, hw⟩ := withAmounts_eq id amountA amountB
  cases hd : buyDirection id.normalize amount.1 amount.2 with
  | error e =>
    rw [buyTrade_refused hw hm hd] at h
    cases h
    exact .inl rfl
  | ok x =>
    obtain ⟨buying, selling, b⟩ := x
    have heq := buyTrade_quoted cap simulate sender
      hi hw hm hd
    rw [heq] at h
    by_cases hlack : b > g.balance buying m.id
    · rw [if_pos hlack] at h
      cases h
      exact .inl rfl
    · rw [if_neg hlack] at h
      exact quoted_traded hi hparty
        (fun s b' => buyQuote_priced (hi.markets _ m hm) hm (buyDirection_eq_ok hd).1) h

private theorem sellTrade_traded (hi : g.Inv) (hparty : g.Party sender)
    (hm : g.markets[id.normalize]? =
    some m) (h : internalDoTradeSellFixedAmount g id amountA amountB cap simulate sender =
      .ok (r, g')) : Traded g m simulate sender g' := by
  obtain ⟨amount, hw⟩ := withAmounts_eq id amountA amountB
  cases hd : sellDirection id.normalize amount.1 amount.2 with
  | error e =>
    rw [sellTrade_refused hw hm hd] at h
    cases h
    exact .inl rfl
  | ok x =>
    obtain ⟨buying, selling, s⟩ := x
    have heq := sellTrade_quoted cap simulate sender
      hi hw hm hd
    rw [heq] at h
    by_cases hlack : cap.any (g.balance buying m.id < ·) = true
    · rw [if_pos hlack] at h
      cases h
      exact .inl rfl
    · rw [if_neg hlack] at h
      exact quoted_traded hi hparty
        (fun s' b => sellQuote_priced (hi.markets _ m hm) hm (sellDirection_eq_ok hd).1) h

end routines

/-- The events of a trade of `sender`. -/
def IsTrade (sender : EntityID) (simulate : Bool) : Event → Prop
  | .openMarket _ => True
  | .swap _ _ _ _ _ trader => trader = sender ∧ simulate = false
  | _ => False

private theorem Traded.trace {simulate : Bool} (h : Traded g m simulate sender g') :
    Trace (IsTrade sender simulate) g g' := by
  rcases h with rfl | ⟨hsim, selling, buying, s, b, hswap, rfl⟩
  · exact Run.refl
  · exact Run.single (e := .swap m.pair selling buying s b sender) ⟨rfl, hsim⟩
      (.swap g m selling buying s b sender hswap)

theorem ensure_trace (sender : EntityID) (simulate : Bool) {pair : TradingPairID}
    (h : ensure g pair = .ok (m, g')) : Trace (IsTrade sender simulate) g g' := by
  obtain ⟨_, rfl | hopen⟩ := ensure_cases h
  · exact Run.refl
  · exact Run.single (e := .openMarket pair.normalize) trivial hopen

section

variable {g g' : GameBoard} {sender : EntityID} {id : TradingPairID} {amountA amountB : ℕ}
  {cap : Option ℕ} {simulate : Bool} {r : Except TradeError TradeOutcome}

theorem doBuyTrade_trace (hi : g.Inv) (hparty : g.Party sender)
    (h : doBuyTrade g id amountA amountB cap simulate sender = .ok (r, g')) :
    Trace (IsTrade sender simulate) g g' := by
  obtain ⟨m, g1, hensure⟩ := buyTrade_ensures h
  have htrace := ensure_trace sender simulate hensure
  rw [doBuyTrade, buyTrade_of_ensure hensure] at h
  have hm := (ensure_cases hensure).1
  rw [TradingPairID.normalize_normalize] at hm
  exact htrace.trans (buyTrade_traded (htrace.inv hi) ((htrace.extends hi).party hparty) hm h).trace

theorem doSellTrade_trace (hi : g.Inv) (hparty : g.Party sender)
    (h : doSellTrade g id amountA amountB cap simulate sender = .ok (r, g')) :
    Trace (IsTrade sender simulate) g g' := by
  obtain ⟨m, g1, hensure⟩ := sellTrade_ensures h
  have htrace := ensure_trace sender simulate hensure
  rw [doSellTrade, sellTrade_of_ensure hensure] at h
  have hm := (ensure_cases hensure).1
  rw [TradingPairID.normalize_normalize] at hm
  exact htrace.trans
    (sellTrade_traded (htrace.inv hi) ((htrace.extends hi).party hparty) hm h).trace

end

end ConstantFunctionMarketMaker
end JudicaVM
