import JudicaVM.Board.Ledger

/-!
# The state of the game

The data that a game board holds, the moves that players sign, and the reasons for which the
board rejects them.
-/

namespace JudicaVM

open Checked Std

/-- A trading pair, not necessarily in normal order. -/
structure TradingPairID where
  assetA : TokenPointer
  assetB : TokenPointer
  deriving DecidableEq, Repr

namespace TradingPairID

/-- The derived order: by the first asset, then by the second. -/
instance : Ord TradingPairID where
  compare := compareLex (compareOn assetA) (compareOn assetB)

instance : TransOrd TradingPairID :=
  inferInstanceAs (TransCmp (compareLex (compareOn assetA) (compareOn assetB)))

instance : LawfulEqOrd TradingPairID where
  compare_self {p} := by
    have h : ReflCmp (compareLex (compareOn assetA) (compareOn assetB)) := inferInstance
    exact h.compare_self
  eq_of_compare {p q} h := by
    have h' := compareLex_eq_eq.mp h
    cases p
    cases q
    simp_all [compareOn]

def isNormal (p : TradingPairID) : Bool := p.assetA ≤ p.assetB

def normalize (p : TradingPairID) : TradingPairID :=
  if p.assetA ≤ p.assetB then p else { assetA := p.assetB, assetB := p.assetA }

end TradingPairID

/-- A market: its account, its share token and the recorded reserves. -/
structure ConstantFunctionMarketMakerPair where
  pair : TradingPairID
  id : EntityID
  lp : TokenPointer
  reserveA : ℕ
  reserveB : ℕ
  deriving DecidableEq, Repr

abbrev Markets := ExtTreeMap TradingPairID ConstantFunctionMarketMakerPair

inductive TradeError
  | invalidTrade (msg : String)
  | insufficientTokens (msg : String)
  | marketSlipped
  deriving DecidableEq, Repr

structure TradeOutcome where
  tradingPair : TradingPairID
  assetPlayerPurchased : String
  amountPlayerPurchased : ℕ
  assetPlayerSold : String
  amountPlayerSold : ℕ
  deriving DecidableEq, Repr

structure BaseNFT where
  owner : EntityID
  nftId : EntityID
  transferCount : ℕ
  deriving DecidableEq, Repr

inductive PlantType
  | solar
  | hydro
  | flare
  deriving DecidableEq, Repr

structure PowerPlant where
  id : NftPtr
  plantType : PlantType
  watts : ℕ
  coordinates : ℤ × ℤ
  deriving DecidableEq, Repr

structure NFTRegistry where
  nfts : ExtTreeMap NftPtr BaseNFT
  powerPlants : ExtTreeMap NftPtr PowerPlant

/-- An offer to sell an NFT. Seller and transfer count are those of the moment of listing. -/
structure NFTSale where
  price : ℕ
  currency : Currency
  seller : EntityID
  transferCount : ℕ
  deriving DecidableEq, Repr

abbrev NFTSaleRegistry := ExtTreeMap NftPtr NFTSale

/-- The parameters that the four producers of materials share. -/
structure Producer where
  id : EntityID
  totalUnits : ℕ
  basePrice : ℕ
  priceAsset : TokenPointer
  hashAsset : TokenPointer
  adjustsEvery : ℕ
  elapsedTime : ℕ
  first : Bool
  deriving DecidableEq, Repr

structure PowerPlantEvent where
  time : ℕ
  period : ℕ
  deriving DecidableEq, Repr

/-- Coins that are released to the owner of an NFT at a given time. -/
structure CoinLockup where
  id : NftPtr
  timeWhenFree : ℕ
  asset : TokenPointer
  deriving DecidableEq, Repr

/-- The implementations of the `Callback` trait. -/
inductive Callback
  | powerPlantEvent (e : PowerPlantEvent)
  | asicProducer (p : Producer)
  | steelSmelter (p : Producer)
  | siliconRefinery (p : Producer)
  | concreteMiller (p : Producer)
  | coinLockup (l : CoinLockup)
  deriving DecidableEq, Repr

/-- `Callback::time`. -/
def Callback.time : Callback → ℕ
  | powerPlantEvent e => e.time
  | asicProducer p => p.elapsedTime
  | steelSmelter p => p.elapsedTime
  | siliconRefinery p => p.elapsedTime
  | concreteMiller p => p.elapsedTime
  | coinLockup l => l.timeWhenFree

/-- Pending callbacks by time, those of one time in the order in which they were scheduled. -/
abbrev CallbackRegistry := ExtTreeMap ℕ (List Callback)

structure Trade where
  pair : TradingPairID
  amountA : ℕ
  amountB : ℕ
  sell : Bool
  cap : Option ℕ
  deriving DecidableEq, Repr

structure MintPowerPlant where
  scale : ℕ
  location : ℤ × ℤ
  plantType : PlantType
  deriving DecidableEq, Repr

structure PurchaseNFT where
  nftId : NftPtr
  limitPrice : ℕ
  currency : Currency
  deriving DecidableEq, Repr

structure ListNFTForSale where
  nftId : NftPtr
  price : ℕ
  currency : Currency
  deriving DecidableEq, Repr

structure SendTokens where
  dest : EntityID
  amount : ℕ
  currency : Currency
  deriving DecidableEq, Repr

structure RemoveTokens where
  nftId : NftPtr
  amount : ℕ
  currency : Currency
  deriving DecidableEq, Repr

inductive GameMove
  | heartbeat
  | trade (t : Trade)
  | purchaseNFT (p : PurchaseNFT)
  | listNFTForSale (l : ListNFTForSale)
  | sendTokens (s : SendTokens)
  | removeTokens (r : RemoveTokens)
  | chat (text : String)
  | mintPowerPlant (m : MintPowerPlant)
  | superMintPowerPlant (m : MintPowerPlant)
  deriving DecidableEq, Repr

structure MoveEnvelope where
  d : GameMove
  sequence : ℕ
  timeMillis : ℕ
  deriving DecidableEq, Repr

inductive FinishReason
  | timeExpired
  | dominatingPlayer (id : EntityID)
  deriving DecidableEq, Repr

inductive SanitizationError
  | invalidTokenPointer (p : TokenPointer)
  | invalidNFTPtr (p : NftPtr)
  | invalidUser (id : EntityID)
  | mintScaleIsZero
  deriving DecidableEq, Repr

inductive MoveRejectReason
  | noSuchUser
  | gameIsFinished (r : FinishReason)
  | moveSanitizationError (e : SanitizationError)
  | tradeRejected (e : TradeError)
  deriving DecidableEq, Repr

inductive LogEvent
  | gameMove (m : GameMove)
  | moveRejectReason (r : MoveRejectReason)
  deriving DecidableEq, Repr

structure UserData where
  key : String
  deriving DecidableEq, Repr

structure Tick where
  firstTime : ℕ
  elapsed : ℕ
  deriving DecidableEq, Repr

structure GameBoard where
  tokens : TokenRegistry
  markets : Markets
  alloc : ℕ
  users : ExtTreeMap EntityID UserData
  usersByKey : ExtTreeMap String EntityID
  nfts : NFTRegistry
  nftSales : NFTSaleRegistry
  playerMoveSequence : ExtTreeMap EntityID ℕ
  bitcoinTokenId : TokenPointer
  realSatsTokenId : TokenPointer
  steelTokenId : TokenPointer
  siliconTokenId : TokenPointer
  concreteTokenId : TokenPointer
  asicTokenId : TokenPointer
  rootUser : EntityID
  callbacks : CallbackRegistry
  elapsedTime : ℕ
  finishTime : ℕ
  miningSubsidy : ℕ
  ticks : ExtTreeMap EntityID Tick
  chat : List (ℕ × EntityID × String)
  nicks : ExtTreeMap EntityID String
  chatCounter : ℕ
  eventLog : List (ℕ × EntityID × LogEvent)
  eventLogCounter : ℕ
  plantPrices : PlantType → Option (List (Currency × ℕ))

/-- What the host of a game chooses. -/
structure GameSetup where
  players : List String
  startAmount : ℕ
  finishTime : ℕ
  startAmount_lt : startAmount < 2 ^ 64 := by decide
  deriving DecidableEq, Repr

end JudicaVM
