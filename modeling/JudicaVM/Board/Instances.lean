import JudicaVM.Board.TokenSwap
import Mathlib.Data.List.Sort

/-!
# NFTs, sales and scheduled callbacks

The registries of NFTs and of their sales, the power plants with their hash boards, the lockup of
coins, the producers of materials, and the registry that runs the callbacks that are due.
-/

namespace JudicaVM

open Checked Std

/-- A non-transferable NFT has this transfer count, the maximum of the type. -/
def maxTransferCount : ℕ := 2 ^ 128 - 1

def BaseNFT.transfer (nft : BaseNFT) (dest : EntityID) : BaseNFT :=
  if nft.transferCount = maxTransferCount then nft
  else { nft with owner := dest, transferCount := nft.transferCount + 1 }

namespace NFTRegistry

/-- `Index`: looking up an NFT that does not exist panics. -/
def index (r : NFTRegistry) (p : NftPtr) : Except Panic BaseNFT := unwrap r.nfts[p]?

def add (r : NFTRegistry) (nft : BaseNFT) : NftPtr × NFTRegistry :=
  (nft.nftId, { r with nfts := r.nfts.insertIfNew nft.nftId nft })

end NFTRegistry

namespace NFTSaleRegistry

/-- Lists an NFT for sale if the sender is the owner. -/
def listNft (sales : NFTSaleRegistry) (sender : EntityID) (asset : NftPtr) (price : ℕ)
    (currency : Currency) (nfts : NFTRegistry) : Except Panic NFTSaleRegistry := do
  let nft ← nfts.index asset
  if sender = nft.owner then
    let sale := { price, currency, seller := nft.owner, transferCount := nft.transferCount }
    return sales.insert asset sale
  pure sales

/-- Executes the purchase of an NFT, if it has a sale that was opened by its present owner. -/
def purchase (sales : NFTSaleRegistry) (sender : EntityID) (asset : NftPtr)
    (tokens : TokenRegistry) (nfts : NFTRegistry) (limitPrice : ℕ) (limitCurrency : Currency) :
    Except Panic (NFTSaleRegistry × TokenRegistry × NFTRegistry) := do
  match sales[asset]? with
  | none => pure (sales, tokens, nfts)
  | some sale =>
    let nft ← nfts.index asset
    if sale.seller ≠ nft.owner then
      return (sales, tokens, nfts)
    if sale.transferCount ≠ nft.transferCount then
      return (sales, tokens, nfts)
    if limitCurrency ≠ sale.currency then
      return (sales, tokens, nfts)
    if limitPrice < sale.price then
      return (sales, tokens, nfts)
    let (paid, tokens) ← tokens.transfer sale.currency sender nft.owner sale.price
    if paid then
      let nfts := { nfts with nfts := nfts.nfts.insert asset (nft.transfer sender) }
      return (sales.erase asset, tokens, nfts)
    pure (sales, tokens, nfts)

end NFTSaleRegistry

def CallbackRegistry.schedule (r : CallbackRegistry) (cb : Callback) : CallbackRegistry :=
  r.insert cb.time (r.getD cb.time [] ++ [cb])

def GameBoard.schedule (game : GameBoard) (cb : Callback) : GameBoard :=
  { game with callbacks := game.callbacks.schedule cb }

namespace CoinLockup

/-- Creates an NFT and transfers coins to it, which are released by a scheduled callback. -/
def lockup (game : GameBoard) (sender owner : EntityID) (asset : TokenPointer) (amount : ℕ)
    (timeWhenFree : ℕ) : Except Panic GameBoard := do
  let nftId ← EntityIDAllocator.make game.alloc
  -- Non transferrable
  let (id, nfts) := game.nfts.add { owner, nftId, transferCount := maxTransferCount }
  let game := { game with alloc := nftId, nfts }
  let game := game.schedule (.coinLockup { id, timeWhenFree, asset })
  let (_, tokens) ← game.tokens.transfer asset sender id amount
  pure { game with tokens }

/-- `Callback::action` of a lockup. -/
def action (self : CoinLockup) (game : GameBoard) : Except Panic GameBoard := do
  let nft ← game.nfts.index self.id
  if game.elapsedTime < self.timeWhenFree then
    return game
  let balance ← game.tokens.balanceCheck self.asset self.id
  let (_, tokens) ← game.tokens.transfer self.asset self.id nft.owner balance
  pure { game with tokens }

end CoinLockup

/-- The quantities of each material that a plant of the given scale takes. -/
def PlantType.rawMaterialsBill (self : PlantType) (game : GameBoard) (scale : ℕ) :
    Except Panic (List (Currency × ℕ)) := do
  let basePrices ← unwrap (game.plantPrices self)
  basePrices.mapM fun (cur, qty) => do
    let qty ← Checked.mul 128 qty scale
    pure (cur, qty)

namespace PowerPlant

/-- `PowerPlant::new`: one unit of scale is 100kW. -/
def new (id : NftPtr) (plantType : PlantType) (coordinates : ℤ × ℤ) (scale : ℕ) :
    Except Panic PowerPlant := do
  let watts ← Checked.mul 64 scale 100_000
  pure { id, plantType, watts, coordinates }

/-- The loop of `compute_hashrate` over the boards, the most efficient ones first. -/
def runBoards : List (ℕ × ℕ) → ℕ → ℕ → Except Panic ℕ
  | [], _, hashrate => pure hashrate
  | (hpw, units) :: rest, watts, hashrate => do
    let available := min units watts
    let hashrate ← Checked.add 128 hashrate (← Checked.mul 128 available hpw)
    let watts ← Checked.sub watts available
    if watts = 0 then pure hashrate else runBoards rest watts hashrate

/-- The order of pairs of numbers. -/
def boardLe (x y : ℕ × ℕ) : Prop := x.1 < y.1 ∨ (x.1 = y.1 ∧ x.2 ≤ y.2)

instance : DecidableRel boardLe := fun x y =>
  inferInstanceAs (Decidable (x.1 < y.1 ∨ (x.1 = y.1 ∧ x.2 ≤ y.2)))

/-- The hashes per second of a plant in a state of the game. -/
def computeHashrate (self : PowerPlant) (game : GameBoard) : Except Panic ℕ := do
  let hash ← game.tokens.hashboards.toList.mapM fun (token, hbd) => do
    let count ← game.tokens.balanceCheck token self.id
    pure (hbd.hashPerWatt, count)
  runBoards (hash.insertionSort boardLe).reverse self.watts 0

/-- Withdrawals are processed by a lockup which emulates shipping. -/
def shipHashrate (self : PowerPlant) (miners : TokenPointer) (amount : ℕ) (shippingTime : ℕ)
    (game : GameBoard) : Except Panic GameBoard := do
  let nft ← game.nfts.index self.id
  CoinLockup.lockup game self.id nft.owner miners amount shippingTime

end PowerPlant

namespace PowerPlantProducer

open ConstantFunctionMarketMaker (doBuyTrade)

/-- The first material of which the owner has less than the bill says. -/
def missingMaterial (game : GameBoard) (owner : EntityID) :
    List (Currency × ℕ) → Except Panic (Option Currency)
  | [] => pure none
  | (currency, price) :: rest => do
    if (← game.tokens.balanceCheck currency owner) < price then
      return some currency
    missingMaterial game owner rest

/-- Moves the materials of a bill from the owner to the plant. -/
def payBill (owner : EntityID) (plant : NftPtr) :
    List (Currency × ℕ) → TokenRegistry → Except Panic TokenRegistry
  | [], tokens => pure tokens
  | (currency, price) :: rest, tokens => do
    let (_, tokens) ← tokens.transfer currency owner plant price
    payBill owner plant rest tokens

/-- Mints a new power plant NFT. -/
def mintPowerPlant (game : GameBoard) (scale : ℕ) (location : ℤ × ℤ) (plantType : PlantType)
    (owner : EntityID) : Except Panic (Except TradeError Unit × GameBoard) := do
  let resources ← plantType.rawMaterialsBill game scale
  if let some currency ← missingMaterial game owner resources then
    let msg := s!"Balance Check Failed: TokenPointer(EntityID({currency}))"
    return (.error (.insufficientTokens msg), game)
  let nftId ← EntityIDAllocator.make game.alloc
  let (plantPtr, nfts) := game.nfts.add { owner, nftId, transferCount := 0 }
  let newPlant ← PowerPlant.new plantPtr plantType location scale
  let nfts := { nfts with powerPlants := nfts.powerPlants.insert plantPtr newPlant }
  let tokens ← payBill owner plantPtr resources game.tokens
  pure (.ok (), { game with alloc := nftId, nfts, tokens })

/-- The simulated purchases of `estimate_materials_cost`, up to the first that is refused. -/
def estimateMaterials (owner : EntityID) :
    List (Currency × ℕ) → GameBoard →
      Except Panic (Except TradeError (List (String × ℕ × ℕ)) × GameBoard)
  | [], game => pure (.ok [], game)
  | (material, qty) :: rest, game => do
    let token ← game.tokens.index material
    let humanName := token.nickname.getD "Material Not Found"
    let id : TradingPairID := { assetA := material, assetB := game.bitcoinTokenId }
    let (r, game) ← doBuyTrade game id qty 0 none true owner
    match r with
    | .error e => pure (.error e, game)
    | .ok outcome =>
      let (r, game) ← estimateMaterials owner rest game
      pure (r.map ((humanName, qty, outcome.amountPlayerSold) :: ·), game)

/-- The quantity and the cost in bitcoin of each material needed to build a plant. -/
def estimateMaterialsCost (game : GameBoard) (scale : ℕ) (plantType : PlantType)
    (owner : EntityID) :
    Except Panic (Except TradeError (List (String × ℕ × ℕ)) × GameBoard) := do
  let resources ← plantType.rawMaterialsBill game scale
  estimateMaterials owner resources game

/-- The purchases of `super_mint`. -/
def buyMaterials (owner : EntityID) : List (Currency × ℕ) → GameBoard → Except Panic GameBoard
  | [], game => pure game
  | (material, qty) :: rest, game => do
    let id : TradingPairID := { assetA := material, assetB := game.bitcoinTokenId }
    let (r, game) ← doBuyTrade game id qty 0 none false owner
    match r with
    | .error _ => throw (.message "buy trade may not fail here given earlier estimate")
    | .ok _ => buyMaterials owner rest game

/-- Buys the materials of a plant and mints it. -/
def superMint (game : GameBoard) (scale : ℕ) (location : ℤ × ℤ) (plantType : PlantType)
    (owner : EntityID) : Except Panic (Except TradeError Unit × GameBoard) := do
  let (r, game) ← estimateMaterialsCost game scale plantType owner
  match r with
  | .error e => pure (.error e, game)
  | .ok costEstimates =>
    let totalCost ← costEstimates.foldlM (fun total i => Checked.add 128 total i.2.2) 0
    let btcTokenPtr := game.bitcoinTokenId
    if (← game.tokens.balanceCheck btcTokenPtr owner) < totalCost then
      let msg := s!"Need at least {totalCost} of TokenPointer(EntityID({btcTokenPtr})) to mint"
      return (.error (.insufficientTokens msg), game)
    let resources ← plantType.rawMaterialsBill game scale
    let game ← buyMaterials owner resources game
    mintPowerPlant game scale location plantType owner

end PowerPlantProducer

namespace PowerPlantEvent

/-- The hashrate of every owner of plants, and the total. -/
def collectShares (game : GameBoard) :
    List (NftPtr × PowerPlant) → ℕ × ExtTreeMap EntityID ℕ →
      Except Panic (ℕ × ExtTreeMap EntityID ℕ)
  | [], acc => pure acc
  | (id, plant) :: rest, (total, shares) => do
    let share ← plant.computeHashrate game
    let total ← Checked.add 128 total share
    let nft ← game.nfts.index id
    let v ← Checked.add 128 (shares.getD nft.owner 0) share
    collectShares game rest (total, shares.insert nft.owner v)

/-- What the owner of a share of the total is paid. -/
def payout (subsidy total share : ℕ) : Except Panic ℕ := do
  let v ← Checked.mul 128 share 1024
  let v ← Checked.mul 128 v subsidy
  let v ← Checked.div v total
  Checked.div v 1024

/-- Mints to every owner in turn. -/
def payAll (p : TokenPointer) : List (EntityID × ℕ) → TokenRegistry → Except Panic TokenRegistry
  | [], tokens => pure tokens
  | (dest, amount) :: rest, tokens => do
    let tokens ← tokens.mint p dest amount
    payAll p rest tokens

/-- The tokens after every owner was paid. Nothing is paid when nobody has hashrate. -/
def distribute (game : GameBoard) (total : ℕ) (shares : ExtTreeMap EntityID ℕ) :
    Except Panic TokenRegistry :=
  if total = 0 then
    pure game.tokens
  else do
    let payouts ← shares.toList.mapM fun (dest, share) => do
      let v ← payout game.miningSubsidy total share
      pure (dest, v)
    let _ ← game.tokens.index game.bitcoinTokenId
    payAll game.bitcoinTokenId payouts game.tokens

/-- `Callback::action` of the mining payout. -/
def action (self : PowerPlantEvent) (game : GameBoard) : Except Panic GameBoard := do
  let (total, shares) ← collectShares game game.nfts.powerPlants.toList (0, ∅)
  let tokens ← distribute game total shares
  let time ← Checked.add 64 game.elapsedTime self.period
  pure ({ game with tokens }.schedule (.powerPlantEvent { self with time }))

end PowerPlantEvent

namespace Producer

open ConstantFunctionMarketMaker (deposit doSellTrade)

def pair (self : Producer) : TradingPairID :=
  { assetA := self.hashAsset, assetB := self.priceAsset }

/-- On the first round the material is minted and a tenth of it is put on its market. -/
def openMarket (self : Producer) (game : GameBoard) : Except Panic (Producer × GameBoard) := do
  let tokens ← game.tokens.mint self.hashAsset self.id self.totalUnits
  let start := self.totalUnits / 10
  let base ← Checked.mul 128 self.basePrice start
  let tokens ← tokens.mint self.priceAsset self.id base
  let game ← deposit { game with tokens } self.pair start base self.id
  let totalUnits ← Checked.sub self.totalUnits start
  pure ({ self with first := false, totalUnits }, game)

def prepare (self : Producer) (game : GameBoard) : Except Panic (Producer × GameBoard) :=
  if self.first then self.openMarket game else pure (self, game)

/-- What the four producers do: they sell a hundredth of what they hold, and come again as long
as they hold anything. `ASICProducer` computes `base` before its first mint, which matters only
for which of two panics comes first. -/
def action (callback : Producer → Callback) (self : Producer) (game : GameBoard) :
    Except Panic GameBoard := do
  let (self, game) ← self.prepare game
  let balance ← game.tokens.balanceCheck self.hashAsset self.id
  let (_, game) ← doSellTrade game self.pair (min (balance / 100) balance) 0 none false self.id
  let elapsedTime ← Checked.add 64 game.elapsedTime self.adjustsEvery
  let balance ← game.tokens.balanceCheck self.hashAsset self.id
  if balance > 0 then
    return game.schedule (callback { self with elapsedTime })
  pure game

end Producer

def ASICProducer.action : Producer → GameBoard → Except Panic GameBoard :=
  Producer.action .asicProducer

def SteelSmelter.action : Producer → GameBoard → Except Panic GameBoard :=
  Producer.action .steelSmelter

def SiliconRefinery.action : Producer → GameBoard → Except Panic GameBoard :=
  Producer.action .siliconRefinery

def ConcreteMiller.action : Producer → GameBoard → Except Panic GameBoard :=
  Producer.action .concreteMiller

/-- `Callback::action`. -/
def Callback.action : Callback → GameBoard → Except Panic GameBoard
  | powerPlantEvent e => e.action
  | asicProducer p => ASICProducer.action p
  | steelSmelter p => SteelSmelter.action p
  | siliconRefinery p => SiliconRefinery.action p
  | concreteMiller p => ConcreteMiller.action p
  | coinLockup l => l.action

namespace CallbackRegistry

/-- The callbacks of all times before `bound`, in the order in which they run. -/
def dueBefore (r : CallbackRegistry) (bound : ℕ) : List Callback :=
  (r.toList.filter (·.1 < bound)).flatMap (·.2)

/-- `split_off`: what is to be done in the future. -/
def splitOff (r : CallbackRegistry) (bound : ℕ) : CallbackRegistry :=
  r.filter fun time _ => bound ≤ time

def runAll : List Callback → GameBoard → Except Panic GameBoard
  | [], game => pure game
  | x :: rest, game => do
    let game ← x.action game
    runAll rest game

/-- Drains the queue of all callbacks at or before the current time and runs them all. -/
def run (game : GameBoard) : Except Panic GameBoard := do
  let bound ← Checked.add 64 game.elapsedTime 1
  let toDo := dueBefore game.callbacks bound
  runAll toDo { game with callbacks := splitOff game.callbacks bound }

end CallbackRegistry
end JudicaVM
