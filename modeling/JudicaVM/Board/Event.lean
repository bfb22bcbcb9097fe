import JudicaVM.Lib.ConstantProduct
import JudicaVM.Lib.Transition
import JudicaVM.Board.Balances
import JudicaVM.Board.Game

/-!
# What can happen to a board

Every function of the game changes the board by a sequence of the events below. Each event states
what it requires of the board before and what the board is after. Invariants are proved once for
each event, and the functions of the game are shown to be runs of events.
-/

namespace JudicaVM

open Checked Std OrderedMap Transition

namespace GameBoard

variable (g : GameBoard)

def balance (p : TokenPointer) (who : EntityID) : ℕ := g.tokens.balance p who

def total (p : TokenPointer) : ℕ := g.tokens.total p

def Has (p : TokenPointer) : Prop := g.tokens.Has p

def IsUser (i : EntityID) : Prop := g.users[i]?.isSome

def IsNft (i : NftPtr) : Prop := g.nfts.nfts[i]?.isSome

instance (p : TokenPointer) : Decidable (g.Has p) := inferInstanceAs (Decidable (g.tokens.Has p))

instance (i : EntityID) : Decidable (g.IsUser i) :=
  inferInstanceAs (Decidable (g.users[i]?.isSome = true))

instance (i : NftPtr) : Decidable (g.IsNft i) :=
  inferInstanceAs (Decidable (g.nfts.nfts[i]?.isSome = true))

/-- The ids of users, the root user, tokens, NFTs and markets. -/
def entityIds : Multiset EntityID :=
  keySet g.users + {g.rootUser} + keySet g.tokens.tokens + keySet g.nfts.nfts
    + (entries g.markets).map (·.2.id)

/-- An id that has been given out and is not the account of a market. -/
structure Party (i : EntityID) : Prop where
  le_alloc : i ≤ g.alloc
  not_market : ∀ (pair : TradingPairID) m, g.markets[pair]? = some m → m.id ≠ i

/-- A producer has an id of its own, which is that of nothing else. -/
structure ProducerSound (p : Producer) : Prop where
  le_alloc : p.id ≤ g.alloc
  own_id : p.id ∉ g.entityIds
  hasHash : g.Has p.hashAsset
  hasPrice : g.Has p.priceAsset
  distinct : p.hashAsset ≠ p.priceAsset

def LockupSound (l : CoinLockup) : Prop := g.IsNft l.id ∧ g.Has l.asset

end GameBoard

/-- The producer that a callback runs, if it is one. -/
def Callback.producer? : Callback → Option Producer
  | asicProducer p => some p
  | steelSmelter p => some p
  | siliconRefinery p => some p
  | concreteMiller p => some p
  | powerPlantEvent _ => none
  | coinLockup _ => none

/-- The producers and the mining payouts, as opposed to lockups. -/
def Callback.issues : Callback → Bool
  | coinLockup _ => false
  | _ => true

def Callback.lockup? : Callback → Option CoinLockup
  | coinLockup l => some l
  | _ => none

namespace GameBoard

/-- What a pending callback refers to exists. -/
structure CallbackSound (g : GameBoard) (cb : Callback) : Prop where
  producer : ∀ p, cb.producer? = some p → g.ProducerSound p
  lockup : ∀ l, cb.lockup? = some l → g.LockupSound l

/-- A new empty market and its share token, under the next two ids. -/
def openMarket (g : GameBoard) (pair : TradingPairID) (shares : String) : GameBoard :=
  { g with
    tokens := (g.tokens.newToken (.empty (g.alloc + 1) shares)).2
    alloc := g.alloc + 2
    markets := g.markets.insert pair
      { pair, id := g.alloc + 2, lp := g.alloc + 1, reserveA := 0, reserveB := 0 } }

def withTokens (g : GameBoard) (tokens : TokenRegistry) : GameBoard := { g with tokens }

/-- New tokens, and reserves of a market that are what its account then holds. -/
def withReserves (g : GameBoard) (m : ConstantFunctionMarketMakerPair) (tokens : TokenRegistry) :
    GameBoard :=
  { g with
    tokens
    markets := g.markets.insert m.pair
      { m with
        reserveA := tokens.balance m.pair.assetA m.id
        reserveB := tokens.balance m.pair.assetB m.id } }

/-- A new NFT under the next id, possibly a power plant. -/
def addNft (g : GameBoard) (nft : BaseNFT) (plant : Option PowerPlant) : GameBoard :=
  { g with
    alloc := g.alloc + 1
    nfts :=
      { nfts := g.nfts.nfts.insert nft.nftId nft
        powerPlants := match plant with
          | some plant => g.nfts.powerPlants.insert nft.nftId plant
          | none => g.nfts.powerPlants } }

/-- A new user under the next id. -/
def addUser (g : GameBoard) (player : String) : GameBoard :=
  { g with
    alloc := g.alloc + 1
    users := g.users.insert (g.alloc + 1) { key := player }
    usersByKey := g.usersByKey.insert player (g.alloc + 1) }

/-- An NFT that changed hands against payment. -/
def sell (g : GameBoard) (asset : NftPtr) (nft : BaseNFT) (sale : NFTSale) (buyer : EntityID) :
    GameBoard :=
  { g with
    nftSales := g.nftSales.erase asset
    tokens := g.tokens.moved sale.currency buyer nft.owner sale.price
    nfts := { g.nfts with nfts := g.nfts.nfts.insert asset (nft.transfer buyer) } }

/-- The clock, the chat, the log and the move counters of another board. -/
def withNotes (g n : GameBoard) : GameBoard :=
  { g with
    playerMoveSequence := n.playerMoveSequence
    elapsedTime := n.elapsedTime
    ticks := n.ticks
    chat := n.chat
    nicks := n.nicks
    chatCounter := n.chatCounter
    eventLog := n.eventLog
    eventLogCounter := n.eventLogCounter }

end GameBoard

inductive Event
  | openMarket (pair : TradingPairID)
  | transfer (p : TokenPointer) (sender receiver : EntityID) (amount : ℕ)
  | mint (p : TokenPointer) (dest : EntityID) (amount : ℕ)
  | swap (pair : TradingPairID) (selling buying : TokenPointer) (sellAmt buyAmt : ℕ)
      (trader : EntityID)
  | deposit (pair : TradingPairID) (amountA amountB : ℕ) (depositor : EntityID)
  | newNft (nft : BaseNFT) (plant : Option PowerPlant)
  | list (asset : NftPtr) (sale : NFTSale)
  | sold (asset : NftPtr) (sale : NFTSale) (buyer : EntityID)
  | schedule (cb : Callback)
  | dequeue (bound : ℕ)
  | addUser (player : String)
  | drawId
  | note

/-- The two assets of a market, in one order or the other. -/
def TradingPairID.Direction (pair : TradingPairID) (selling buying : TokenPointer) : Prop :=
  (selling = pair.assetA ∧ buying = pair.assetB) ∨ (selling = pair.assetB ∧ buying = pair.assetA)

/-- The tokens after a payment, which is left out when it is zero. -/
def TokenRegistry.paid (r : TokenRegistry) (p : TokenPointer) (sender receiver : EntityID)
    (amount : ℕ) : TokenRegistry :=
  if amount = 0 then r else r.moved p sender receiver amount

/-- What a swap needs: a funded market, a trader who can pay, and a price that does not lower the
product of the holdings. -/
structure GameBoard.CanSwap (g : GameBoard) (m : ConstantFunctionMarketMakerPair)
    (selling buying : TokenPointer) (sellAmt buyAmt : ℕ) (trader : EntityID) : Prop where
  market : g.markets[m.pair]? = some m
  direction : m.pair.Direction selling buying
  funded : 0 < m.reserveA
  party : g.Party trader
  pays : sellAmt ≤ g.balance selling trader
  covers : buyAmt ≤ g.balance buying m.id
  acceptable :
    ConstantProduct.Acceptable (g.balance selling m.id) (g.balance buying m.id) sellAmt buyAmt

/-- The tokens after a swap. -/
def GameBoard.swapped (g : GameBoard) (m : ConstantFunctionMarketMakerPair)
    (selling buying : TokenPointer) (sellAmt buyAmt : ℕ) (trader : EntityID) : TokenRegistry :=
  (g.tokens.moved selling trader m.id sellAmt).paid buying m.id trader buyAmt

/-- What a deposit needs: a depositor who can pay both amounts, in proportion to the reserves. -/
structure GameBoard.CanDeposit (g : GameBoard) (m : ConstantFunctionMarketMakerPair)
    (amountA amountB toMint : ℕ) (depositor : EntityID) : Prop where
  market : g.markets[m.pair]? = some m
  distinct : m.pair.assetA ≠ m.pair.assetB
  party : g.Party depositor
  positive : 0 < amountA ∧ 0 < amountB
  paysA : amountA ≤ g.balance m.pair.assetA depositor
  paysB : amountB ≤ g.balance m.pair.assetB depositor
  shares : toMint = g.total m.lp * amountA / (m.reserveA + amountA)
  fits : g.total m.lp + toMint < 2 ^ 128

/-- The tokens after a deposit. -/
def GameBoard.deposited (g : GameBoard) (m : ConstantFunctionMarketMakerPair)
    (amountA amountB toMint : ℕ) (depositor : EntityID) : TokenRegistry :=
  let tokens := g.tokens.moved m.pair.assetA depositor m.id amountA
  let tokens := tokens.moved m.pair.assetB depositor m.id amountB
  tokens.minted m.lp depositor toMint

/-- The events, with what they require of the board and what they make of it. -/
inductive Occurs : GameBoard → Event → GameBoard → Prop
  | openMarket (g : GameBoard) (pair : TradingPairID) (shares : String)
      (hnone : g.markets[pair]? = none) (hnormal : pair.isNormal) (hA : g.Has pair.assetA)
      (hB : g.Has pair.assetB) (hroom : g.alloc + 2 < 2 ^ 64) :
      Occurs g (.openMarket pair) (g.openMarket pair shares)
  | transfer (g : GameBoard) (p : TokenPointer) (sender receiver : EntityID) (amount : ℕ)
      (hp : g.Has p) (hpays : amount ≤ g.balance p sender) (hsender : g.Party sender)
      (hreceiver : g.Party receiver) :
      Occurs g (.transfer p sender receiver amount)
        (g.withTokens (g.tokens.moved p sender receiver amount))
  | mint (g : GameBoard) (p : TokenPointer) (dest : EntityID) (amount : ℕ) (hp : g.Has p)
      (hfits : g.total p + amount < 2 ^ 128) (hdest : g.Party dest) :
      Occurs g (.mint p dest amount) (g.withTokens (g.tokens.minted p dest amount))
  | swap (g : GameBoard) (m : ConstantFunctionMarketMakerPair) (selling buying : TokenPointer)
      (sellAmt buyAmt : ℕ) (trader : EntityID)
      (h : g.CanSwap m selling buying sellAmt buyAmt trader) :
      Occurs g (.swap m.pair selling buying sellAmt buyAmt trader)
        (g.withReserves m (g.swapped m selling buying sellAmt buyAmt trader))
  | deposit (g : GameBoard) (m : ConstantFunctionMarketMakerPair) (amountA amountB toMint : ℕ)
      (depositor : EntityID) (h : g.CanDeposit m amountA amountB toMint depositor) :
      Occurs g (.deposit m.pair amountA amountB depositor)
        (g.withReserves m (g.deposited m amountA amountB toMint depositor))
  | newNft (g : GameBoard) (nft : BaseNFT) (plant : Option PowerPlant)
      (hroom : g.alloc + 1 < 2 ^ 64) (hid : nft.nftId = g.alloc + 1) (howner : g.IsUser nft.owner)
      (hplant : ∀ p, plant = some p → p.id = nft.nftId) :
      Occurs g (.newNft nft plant) (g.addNft nft plant)
  | list (g : GameBoard) (asset : NftPtr) (nft : BaseNFT) (sale : NFTSale)
      (hnft : g.nfts.nfts[asset]? = some nft) (hseller : sale.seller = nft.owner)
      (hcount : sale.transferCount = nft.transferCount) :
      Occurs g (.list asset sale) { g with nftSales := g.nftSales.insert asset sale }
  | sold (g : GameBoard) (asset : NftPtr) (nft : BaseNFT) (sale : NFTSale) (buyer : EntityID)
      (hnft : g.nfts.nfts[asset]? = some nft) (hsale : g.nftSales[asset]? = some sale)
      (hseller : sale.seller = nft.owner) (hcount : sale.transferCount = nft.transferCount)
      (hp : g.Has sale.currency) (hpays : sale.price ≤ g.balance sale.currency buyer)
      (hbuyer : g.IsUser buyer) :
      Occurs g (.sold asset sale buyer) (g.sell asset nft sale buyer)
  | schedule (g : GameBoard) (cb : Callback) (h : g.CallbackSound cb) :
      Occurs g (.schedule cb) (g.schedule cb)
  | dequeue (g : GameBoard) (bound : ℕ) :
      Occurs g (.dequeue bound) { g with callbacks := CallbackRegistry.splitOff g.callbacks bound }
  | addUser (g : GameBoard) (player : String) (hroom : g.alloc + 1 < 2 ^ 64) :
      Occurs g (.addUser player) (g.addUser player)
  | drawId (g : GameBoard) (hroom : g.alloc + 1 < 2 ^ 64) :
      Occurs g .drawId { g with alloc := g.alloc + 1 }
  | note (g n : GameBoard) : Occurs g .note (g.withNotes n)

/-- A run of events of a kind. -/
abbrev Trace (P : Event → Prop) : GameBoard → GameBoard → Prop := Run Occurs P

end JudicaVM
