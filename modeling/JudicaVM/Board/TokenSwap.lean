import JudicaVM.Board.State

/-!
# The constant-function market maker

Markets are created on demand, filled by deposits, and traded against by the two routines for a
fixed bought amount and for a fixed sold amount. Every function takes the board and returns it.
-/

namespace JudicaVM

open Checked Std

/-- `DivExt::roundup_div`. -/
def roundupDiv (a rhs : ℕ) : Except Panic ℕ := do
  let s ← Checked.add 128 a rhs
  let s ← Checked.sub s 1
  Checked.div s rhs

/-- Two amounts given for a pair, in the order of the normalized pair. -/
def TradingPairID.withAmounts (id : TradingPairID) (amountA amountB : ℕ) :
    TradingPairID × ℕ × ℕ :=
  if id.isNormal then (id, amountA, amountB) else (id.normalize, amountB, amountA)

namespace ConstantFunctionMarketMakerPair

def hasMarket (game : GameBoard) (pair : TradingPairID) : Bool :=
  game.markets.contains pair.normalize

/-- Makes sure that the market of a pair exists. -/
def ensure (game : GameBoard) (pair : TradingPairID) :
    Except Panic (ConstantFunctionMarketMakerPair × GameBoard) := do
  let pair := pair.normalize
  match game.markets[pair]? with
  | some mkt => pure (mkt, game)
  | none =>
    let tokenA ← game.tokens.index pair.assetA
    let tokenB ← game.tokens.index pair.assetB
    let nameA := tokenA.nickname.getD (toString pair.assetA)
    let nameB := tokenB.nickname.getD (toString pair.assetB)
    let baseId ← EntityIDAllocator.make game.alloc
    let id ← EntityIDAllocator.make baseId
    let (lp, tokens) := game.tokens.newToken (.empty baseId s!"swap({nameA},{nameB})::shares")
    let mkt := { pair, id, lp, reserveA := 0, reserveB := 0 }
    pure (mkt, { game with tokens, alloc := id, markets := game.markets.insert pair mkt })

def amtA (mkt : ConstantFunctionMarketMakerPair) (tokens : TokenRegistry) : Except Panic ℕ :=
  tokens.balanceCheck mkt.pair.assetA mkt.id

def amtB (mkt : ConstantFunctionMarketMakerPair) (tokens : TokenRegistry) : Except Panic ℕ :=
  tokens.balanceCheck mkt.pair.assetB mkt.id

end ConstantFunctionMarketMakerPair

namespace ConstantFunctionMarketMaker

open ConstantFunctionMarketMakerPair (ensure)

/-- Adds two amounts to a pair and mints shares. A refused deposit moves nothing, though it may have
opened the market of the pair. -/
def deposit (game : GameBoard) (id : TradingPairID) (amountA amountB : ℕ) (depositor : EntityID) :
    Except Panic GameBoard := do
  let (id, amountA, amountB) := id.withAmounts amountA amountB
  if amountA = 0 ∨ amountB = 0 then
    return game
  let (mkt, game) ← ensure game id
  let lhs ← Checked.mul 128 amountA (← mkt.amtB game.tokens)
  let rhs ← Checked.mul 128 (← mkt.amtA game.tokens) amountB
  if lhs ≠ rhs then
    return game
  let (movedA, tokens) ← game.tokens.transfer id.assetA depositor mkt.id amountA
  if !movedA then
    return game
  let (movedB, tokens) ← tokens.transfer id.assetB depositor mkt.id amountB
  if !movedB then
    let (_, tokens) ← tokens.transfer id.assetA mkt.id depositor amountA
    return { game with tokens }
  let shares ← tokens.index mkt.lp
  let scaled ← Checked.mul 128 shares.total amountA
  let toMint ← Checked.div scaled (← mkt.amtA tokens)
  let tokens ← tokens.mint mkt.lp depositor toMint
  match game.markets[mkt.pair]? with
  | none => throw (.message "Must exist...")
  | some pair =>
    let reserveA ← Checked.add 128 pair.reserveA amountA
    let reserveB ← Checked.add 128 pair.reserveB amountB
    pure { game with
      tokens
      markets := game.markets.insert mkt.pair { pair with reserveA, reserveB } }

/-- One side of a payout. A zero amount is not sent. -/
def payOut (tokens : TokenRegistry) (p : TokenPointer) (mktId sender : EntityID) (amount : ℕ) :
    Except Panic (Bool × TokenRegistry) :=
  if amount > 0 then tokens.transfer p mktId sender amount else pure (false, tokens)

/-- The return of both sides of a payout to the market. -/
def takeBack (tokens : TokenRegistry) (pair : TradingPairID) (mktId sender : EntityID)
    (amountA amountB : ℕ) : Except Panic TokenRegistry := do
  let (undoneA, tokens) ← tokens.transfer pair.assetA sender mktId amountA
  if !undoneA then
    throw (.message "Corrupt Game")
  let (undoneB, tokens) ← tokens.transfer pair.assetB sender mktId amountB
  if !undoneB then
    throw (.message "Corrupt Game")
  pure tokens

/-- Pays two amounts out of a market if the product of its holdings stays at least the recorded
product. -/
def rawSwap (game : GameBoard) (id : TradingPairID) (amountA amountB : ℕ) (sender : EntityID) :
    Except Panic (Except TradeError Unit × GameBoard) := do
  let (id, amountA, amountB) := id.withAmounts amountA amountB
  let (mkt, game) ← ensure game id
  let (movedA, tokens) ← payOut game.tokens mkt.pair.assetA mkt.id sender amountA
  let sendAAmt := if movedA then amountA else 0
  let (movedB, tokens) ← payOut tokens mkt.pair.assetB mkt.id sender amountB
  let sendBAmt := if movedB then amountB else 0
  if sendAAmt ≠ amountA ∨ sendBAmt ≠ amountB then
    let tokens ← takeBack tokens mkt.pair mkt.id sender sendAAmt sendBAmt
    return (.error (.insufficientTokens "Insufficient funds asset"), { game with tokens })
  let aReserves2 ← tokens.balanceCheck mkt.pair.assetA mkt.id
  let bReserves2 ← tokens.balanceCheck mkt.pair.assetB mkt.id
  let k2 ← Checked.mul 128 aReserves2 bReserves2
  let k1 ← Checked.mul 128 mkt.reserveA mkt.reserveB
  if k2 < k1 then
    let tokens ← takeBack tokens mkt.pair mkt.id sender amountA amountB
    return (.error (.invalidTrade "Reserves Not Preserved"), { game with tokens })
  match game.markets[mkt.pair]? with
  | none => throw (.message "Market must exist")
  | some pair =>
    let pair := { pair with reserveA := aReserves2, reserveB := bReserves2 }
    pure (.ok (), { game with tokens, markets := game.markets.insert mkt.pair pair })

def swapHelper (game : GameBoard) (selling buying : TokenPointer) (sellAmt buyAmt : ℕ)
    (sender : EntityID) : Except Panic (Except TradeError Unit × GameBoard) :=
  let tradePair : TradingPairID := { assetA := selling, assetB := buying }
  if tradePair.isNormal then
    rawSwap game tradePair sellAmt buyAmt sender
  else
    rawSwap game tradePair.normalize buyAmt sellAmt sender

/-- The sold amount goes to the market, the market pays, and the sold amount comes back if the
market refuses. -/
def settle (game : GameBoard) (mkt : ConstantFunctionMarketMakerPair)
    (selling buying : TokenPointer) (sellAmt buyAmt : ℕ) (sender : EntityID) :
    Except Panic (Except TradeError Unit × GameBoard) := do
  let (moved, tokens) ← game.tokens.transfer selling sender mkt.id sellAmt
  if !moved then
    throw (.message "Logic Error: Invariant (Enough Balance) Already Checked")
  let (r, game) ← swapHelper { game with tokens } selling buying 0 buyAmt sender
  match r with
  | .ok () => pure (.ok (), game)
  | .error e =>
    let (_, tokens) ← game.tokens.transfer selling mkt.id sender sellAmt
    pure (.error e, { game with tokens })

/-- The common end of both trade routines, once the amounts are known. A simulation stops before
anything is moved. -/
def closeTrade (game : GameBoard) (mkt : ConstantFunctionMarketMakerPair) (outcome : TradeOutcome)
    (selling buying : TokenPointer) (sellAmt buyAmt : ℕ) (simulate : Bool) (sender : EntityID) :
    Except Panic (Except TradeError TradeOutcome × GameBoard) := do
  if sellAmt > (← game.tokens.balanceCheck selling sender) then
    return (.error (.insufficientTokens "User has insufficient tokens"), game)
  if simulate then
    return (.ok outcome, game)
  let (r, game) ← settle game mkt selling buying sellAmt buyAmt sender
  pure (r.map fun _ => outcome, game)

/-- Which asset of a normalized pair is bought, which is sold, and the fixed amount bought. -/
def buyDirection (id : TradingPairID) :
    ℕ → ℕ → Except TradeError (TokenPointer × TokenPointer × ℕ)
  | 0, 0 => .error (.invalidTrade "Both token amounts cannot be zero")
  | 0, b + 1 => .ok (id.assetB, id.assetA, b + 1)
  | a + 1, 0 => .ok (id.assetA, id.assetB, a + 1)
  | _ + 1, _ + 1 => .error (.invalidTrade "One token amount must be zero")

/-- Which asset of a normalized pair is bought, which is sold, and the fixed amount sold. -/
def sellDirection (id : TradingPairID) :
    ℕ → ℕ → Except TradeError (TokenPointer × TokenPointer × ℕ)
  | 0, 0 => .error (.invalidTrade "Both token amounts cannot be zero")
  | 0, b + 1 => .ok (id.assetA, id.assetB, b + 1)
  | a + 1, 0 => .ok (id.assetB, id.assetA, a + 1)
  | _ + 1, _ + 1 => .error (.invalidTrade "One token amount must be zero")

/-- What a purchase of `buyAmt` costs and, the cost being rounded up, what it then delivers. -/
def buyQuote (mktQtySelling mktQtyBuying buyAmt : ℕ) : Except Panic (ℕ × ℕ) := do
  let k ← Checked.mul 128 mktQtySelling mktQtyBuying
  let sellAmt ← Checked.sub (← roundupDiv k (← Checked.sub mktQtyBuying buyAmt)) mktQtySelling
  let buyAmt ← Checked.sub mktQtyBuying
    (← roundupDiv k (← Checked.add 128 mktQtySelling sellAmt))
  pure (sellAmt, buyAmt)

/-- What a sale of `sellAmt` delivers and what that delivery then costs. -/
def sellQuote (mktQtySelling mktQtyBuying sellAmt : ℕ) : Except Panic (ℕ × ℕ) := do
  let k ← Checked.mul 128 mktQtyBuying mktQtySelling
  let buyAmt ← Checked.sub mktQtyBuying
    (← roundupDiv k (← Checked.add 128 mktQtySelling sellAmt))
  let sellAmt ← Checked.sub (← roundupDiv k (← Checked.sub mktQtyBuying buyAmt)) mktQtySelling
  pure (sellAmt, buyAmt)

def internalDoTradeBuyFixedAmount (game : GameBoard) (id : TradingPairID) (amountA amountB : ℕ)
    (sellMax : Option ℕ) (simulate : Bool) (sender : EntityID) :
    Except Panic (Except TradeError TradeOutcome × GameBoard) := do
  let (id, amountA, amountB) := id.withAmounts amountA amountB
  let (mkt, game) ← ensure game id
  match buyDirection id amountA amountB with
  | .error e => pure (.error e, game)
  | .ok (buying, selling, buyAmt) =>
    let sellingAssetName ← unwrap (← game.tokens.index selling).nickname
    let buyingAssetName ← unwrap (← game.tokens.index buying).nickname
    let mktQtySelling ← game.tokens.balanceCheck selling mkt.id
    let mktQtyBuying ← game.tokens.balanceCheck buying mkt.id
    if buyAmt > mktQtyBuying then
      return (.error (.insufficientTokens "Market has insufficient tokens"), game)
    let (sellAmt, buyAmt) ← buyQuote mktQtySelling mktQtyBuying buyAmt
    if sellMax.any (sellAmt > ·) then
      return (.error .marketSlipped, game)
    let outcome : TradeOutcome :=
      { tradingPair := id
        assetPlayerPurchased := buyingAssetName
        amountPlayerPurchased := buyAmt
        assetPlayerSold := sellingAssetName
        amountPlayerSold := sellAmt }
    closeTrade game mkt outcome selling buying sellAmt buyAmt simulate sender

def internalDoTradeSellFixedAmount (game : GameBoard) (id : TradingPairID) (amountA amountB : ℕ)
    (buyMin : Option ℕ) (simulate : Bool) (sender : EntityID) :
    Except Panic (Except TradeError TradeOutcome × GameBoard) := do
  let (id, amountA, amountB) := id.withAmounts amountA amountB
  let (mkt, game) ← ensure game id
  match sellDirection id amountA amountB with
  | .error e => pure (.error e, game)
  | .ok (buying, selling, sellAmt) =>
    let assetBuyingName ← unwrap (← game.tokens.index buying).nickname
    let assetSellingName ← unwrap (← game.tokens.index selling).nickname
    let mktQtySelling ← game.tokens.balanceCheck selling mkt.id
    let mktQtyBuying ← game.tokens.balanceCheck buying mkt.id
    if buyMin.any (mktQtyBuying < ·) then
      return (.error (.insufficientTokens "Not Enough Liquidity to Buy Min"), game)
    let (sellAmt, buyAmt) ← sellQuote mktQtySelling mktQtyBuying sellAmt
    if buyMin.any (buyAmt < ·) then
      return (.error .marketSlipped, game)
    let outcome : TradeOutcome :=
      { tradingPair := id
        assetPlayerPurchased := assetBuyingName
        amountPlayerPurchased := buyAmt
        assetPlayerSold := assetSellingName
        amountPlayerSold := sellAmt }
    closeTrade game mkt outcome selling buying sellAmt buyAmt simulate sender

def doSellTrade (game : GameBoard) (id : TradingPairID) (amountA amountB : ℕ)
    (buyMin : Option ℕ) (simulate : Bool) (sender : EntityID) :
    Except Panic (Except TradeError TradeOutcome × GameBoard) :=
  internalDoTradeSellFixedAmount game id amountA amountB buyMin simulate sender

def doBuyTrade (game : GameBoard) (id : TradingPairID) (amountA amountB : ℕ)
    (sellMax : Option ℕ) (simulate : Bool) (sender : EntityID) :
    Except Panic (Except TradeError TradeOutcome × GameBoard) :=
  internalDoTradeBuyFixedAmount game id amountA amountB sellMax simulate sender

/-- What a market holds of its two assets. -/
def getPairPriceData (game : GameBoard) (id : TradingPairID) :
    Except Panic ((ℕ × ℕ) × GameBoard) := do
  let (mkt, game) ← ensure game id
  let mktQtyA ← mkt.amtA game.tokens
  let mktQtyB ← mkt.amtB game.tokens
  pure ((mktQtyA, mktQtyB), game)

end ConstantFunctionMarketMaker
end JudicaVM
