import JudicaVM.Board.Instances
import Mathlib.Data.List.Destutter
import Mathlib.Data.String.Basic

/-!
# The game board

Construction of a board from its setup, sanitization of moves, the clock, the end of the game, the
execution of moves, and the queries of the user interface.
-/

namespace JudicaVM

open Checked Std

def TokenPointer.sanitize (p : TokenPointer) (context : GameBoard) :
    Except SanitizationError TokenPointer :=
  if context.tokens.tokens.contains p then .ok p else .error (.invalidTokenPointer p)

def NftPtr.sanitize (p : NftPtr) (context : GameBoard) : Except SanitizationError NftPtr :=
  if context.nfts.nfts.contains p then .ok p else .error (.invalidNFTPtr p)

def TradingPairID.sanitize (self : TradingPairID) (context : GameBoard) :
    Except SanitizationError TradingPairID := do
  let assetA ← TokenPointer.sanitize self.assetA context
  let assetB ← TokenPointer.sanitize self.assetB context
  pure { assetA, assetB }

def Trade.sanitize (self : Trade) (context : GameBoard) : Except SanitizationError Trade := do
  let pair ← self.pair.sanitize context
  pure { self with pair }

def MintPowerPlant.sanitize (self : MintPowerPlant) : Except SanitizationError MintPowerPlant :=
  if self.scale = 0 then .error .mintScaleIsZero else .ok self

def PurchaseNFT.sanitize (self : PurchaseNFT) (context : GameBoard) :
    Except SanitizationError PurchaseNFT := do
  let nftId ← NftPtr.sanitize self.nftId context
  let currency ← TokenPointer.sanitize self.currency context
  pure { self with nftId, currency }

def ListNFTForSale.sanitize (self : ListNFTForSale) (context : GameBoard) :
    Except SanitizationError ListNFTForSale := do
  let nftId ← NftPtr.sanitize self.nftId context
  let currency ← TokenPointer.sanitize self.currency context
  pure { self with nftId, currency }

def SendTokens.sanitize (self : SendTokens) (context : GameBoard) :
    Except SanitizationError SendTokens :=
  if context.users.contains self.dest || context.nfts.nfts.contains self.dest then do
    let currency ← TokenPointer.sanitize self.currency context
    pure { self with currency }
  else
    .error (.invalidUser self.dest)

def RemoveTokens.sanitize (self : RemoveTokens) (context : GameBoard) :
    Except SanitizationError RemoveTokens := do
  let nftId ← NftPtr.sanitize self.nftId context
  let currency ← TokenPointer.sanitize self.currency context
  pure { self with nftId, currency }

def GameMove.sanitize (self : GameMove) (context : GameBoard) :
    Except SanitizationError GameMove :=
  match self with
  | .removeTokens x => return .removeTokens (← x.sanitize context)
  | .heartbeat => return .heartbeat
  | .trade x => return .trade (← x.sanitize context)
  | .mintPowerPlant x => return .mintPowerPlant (← x.sanitize)
  | .superMintPowerPlant x => return .superMintPowerPlant (← x.sanitize)
  | .purchaseNFT x => return .purchaseNFT (← x.sanitize context)
  | .listNFTForSale x => return .listNFTForSale (← x.sanitize context)
  | .sendTokens x => return .sendTokens (← x.sanitize context)
  | .chat x => return .chat x

namespace GameBoard

/-- One player of `setup_game`: a new user with the start amount of both sats tokens. -/
def addPlayer (startAmount : ℕ) (g : GameBoard) (player : String) : Except Panic GameBoard := do
  let id ← EntityIDAllocator.make g.alloc
  let users := g.users.insert id { key := player }
  let usersByKey := g.usersByKey.insert player id
  let tokens ← g.tokens.mint g.realSatsTokenId id startAmount
  let tokens ← tokens.mint g.bitcoinTokenId id startAmount
  pure { g with alloc := id, users, usersByKey, tokens }

/-- The players in the order of their keys, each once. -/
def sortedPlayers (players : List String) : List String :=
  (players.insertionSort (· ≤ ·)).destutter (· ≠ ·)

def setupGame (setup : GameSetup) (g : GameBoard) : Except Panic GameBoard :=
  (sortedPlayers setup.players).foldlM (addPlayer setup.startAmount)
    { g with finishTime := setup.finishTime }

/-- Where the players' first plants stand. -/
def startLocations : List ((ℤ × ℤ) × PlantType) :=
  [((38075660, -120030170), .flare),
   ((-2346660, -76223050), .hydro),
   ((-5203060, -66345370), .solar),
   ((66596730, 31545250), .flare),
   ((29521143, 26620126), .hydro),
   ((58162163, 39188486), .solar),
   ((28599246, 116180671), .flare),
   ((-29625744, 138416999), .hydro),
   ((-12141092, 35233406), .solar),
   ((21968789, -12535149), .flare)]

/-- The first plant of one player, with one ASIC on it. -/
def addStartPlant (g : GameBoard) (i : ℕ) (player : EntityID) : Except Panic GameBoard := do
  let nftId ← EntityIDAllocator.make g.alloc
  let (plantPtr, nfts) := g.nfts.add { owner := player, nftId, transferCount := 0 }
  match startLocations[i]? with
  | none => throw .indexOutOfBounds
  | some (coordinates, plantType) =>
    let newPlant ← PowerPlant.new plantPtr plantType coordinates 1
    let nfts := { nfts with powerPlants := nfts.powerPlants.insert plantPtr newPlant }
    let tokens ← g.tokens.mint g.asicTokenId plantPtr 1
    pure { g with alloc := nftId, nfts, tokens }

def addStartPlants : List EntityID → ℕ → GameBoard → Except Panic GameBoard
  | [], _, g => pure g
  | player :: rest, i, g => do
    let g ← addStartPlant g i player
    addStartPlants rest (i + 1) g

/-- A producer as `post_init` schedules it, under a new id. -/
def addProducer (g : GameBoard) (callback : Producer → Callback) (hashAsset : TokenPointer)
    (adjustsEvery : ℕ) : Except Panic GameBoard := do
  let id ← EntityIDAllocator.make g.alloc
  let producer : Producer :=
    { id
      totalUnits := 100_000
      basePrice := 100_000
      priceAsset := g.bitcoinTokenId
      hashAsset
      adjustsEvery
      elapsedTime := 0
      first := true }
  pure ({ g with alloc := id }.schedule (callback producer))

/-- The market of a token against bitcoin. -/
def makeMarket (g : GameBoard) (id : TokenPointer) : Except Panic GameBoard := do
  let pair : TradingPairID := { assetA := g.bitcoinTokenId, assetB := id }
  let (_, g) ← ConstantFunctionMarketMakerPair.ensure g pair
  pure g

def postInit (g : GameBoard) : Except Panic GameBoard := do
  let g ← makeMarket g g.steelTokenId
  let g ← makeMarket g g.siliconTokenId
  let g ← makeMarket g g.concreteTokenId
  let g ← makeMarket g g.asicTokenId
  let tokens ← g.tokens.mint g.bitcoinTokenId g.rootUser 10_000_000_000
  let tokens ← tokens.mint g.realSatsTokenId g.rootUser 30000
  let g := { g with tokens }
  let hashAsset ← unwrap g.tokens.hashboards.keys.head?
  let g := g.schedule (.powerPlantEvent { time := 0, period := 11_003 })
  let g ← addProducer g .asicProducer hashAsset 10_007
  let g ← addProducer g .steelSmelter g.steelTokenId 5_003
  let g ← addProducer g .siliconRefinery g.siliconTokenId 25_013
  let g ← addProducer g .concreteMiller g.concreteTokenId 14_009
  let p := ((g.usersByKey.toList.map (·.2)).insertionSort (· ≤ ·)).destutter (· ≠ ·)
  addStartPlants p 0 g

/-- The board before the players are set up, with its six tokens and the root user. -/
def blank : Except Panic GameBoard := do
  let btc ← EntityIDAllocator.make EntityIDAllocator.new
  let realSats ← EntityIDAllocator.make btc
  let concrete ← EntityIDAllocator.make realSats
  let asic ← EntityIDAllocator.make concrete
  let steel ← EntityIDAllocator.make asic
  let silicon ← EntityIDAllocator.make steel
  let tokens : TokenRegistry := { tokens := ∅, hashboards := ∅ }
  let (bitcoinTokenId, tokens) := tokens.newToken (.empty btc "Virtual Sats")
  let (realSatsTokenId, tokens) := tokens.newToken (.empty realSats "Real World Sats")
  let (concreteTokenId, tokens) := tokens.newToken (.empty concrete "Concrete (1mt)")
  let (steelTokenId, tokens) := tokens.newToken (.empty steel "Steel (1mt)")
  let (siliconTokenId, tokens) := tokens.newToken (.empty silicon "Silicon (10kg)")
  let (asicTokenId, tokens) := tokens.newToken (.empty asic "ASIC Gen 1")
  let hashBoard := { hashPerWatt := 300_000_000_000, reliability := 100 }
  let hashboards := tokens.hashboards.insert asicTokenId hashBoard
  let rootUser ← EntityIDAllocator.make silicon
  let plantPrices : PlantType → Option (List (Currency × ℕ))
    | .solar => some [(steelTokenId, 1), (siliconTokenId, 8), (concreteTokenId, 1)]
    | .hydro => some [(steelTokenId, 3), (siliconTokenId, 1), (concreteTokenId, 6)]
    | .flare => some [(steelTokenId, 4), (siliconTokenId, 2), (concreteTokenId, 4)]
  pure
    { tokens := { tokens with hashboards }
      markets := ∅
      bitcoinTokenId
      realSatsTokenId
      steelTokenId
      siliconTokenId
      concreteTokenId
      asicTokenId
      rootUser
      alloc := rootUser
      users := ∅
      usersByKey := ∅
      nfts := { nfts := ∅, powerPlants := ∅ }
      nftSales := ∅
      playerMoveSequence := ∅
      callbacks := ∅
      elapsedTime := 0
      finishTime := 0
      miningSubsidy := 100_000_000 * 50
      ticks := ∅
      chat := []
      chatCounter := 0
      eventLog := []
      eventLogCounter := 0
      plantPrices
      nicks := ∅ }

/-- `GameBoard::new`. -/
def new (setup : GameSetup) : Except Panic GameBoard := do
  let g ← blank
  let g ← setupGame setup g
  postInit g

/-- The sum of the hashrates of each owner of plants, times `denominator`, and the total. -/
def accumulateShares (g : GameBoard) (denominator : ℕ) :
    List (NftPtr × PowerPlant) → ℕ × ExtTreeMap EntityID (ℕ × ℕ) →
      Except Panic (ℕ × ExtTreeMap EntityID (ℕ × ℕ))
  | [], acc => pure acc
  | (ptr, plant) :: rest, (total, res) => do
    let rate ← plant.computeHashrate g
    let nft ← g.nfts.index ptr
    let scaled ← Checked.mul 128 rate denominator
    let res ← match res[nft.owner]? with
      | none => pure (res.insert nft.owner (scaled, denominator))
      | some v => do
        let scaled ← Checked.add 128 v.1 scaled
        pure (res.insert nft.owner (scaled, v.2))
    let total ← Checked.add 128 total rate
    accumulateShares g denominator rest (total, res)

/-- The share of every owner of plants in the total hashrate, as a fraction. -/
def getUserHashrateShare (g : GameBoard) : Except Panic (ExtTreeMap EntityID (ℕ × ℕ)) := do
  let denominator := 100000
  let (total, res) ← accumulateShares g denominator g.nfts.powerPlants.toList (0, ∅)
  if total > 0 then
    return res.map fun _ v => (v.1 / total, v.2)
  pure res

/-- The first owner in the order of ids who has half of the total hashrate. -/
def findDominating : List (EntityID × ℕ × ℕ) → Except Panic (Option EntityID)
  | [] => pure none
  | (k, v) :: rest => do
    if (← Checked.mul 128 v.1 2) ≥ v.2 then
      return some k
    findDominating rest

def gameIsFinished (g : GameBoard) : Except Panic (Option FinishReason) := do
  if g.elapsedTime ≥ g.finishTime then
    return some .timeExpired
  -- after 75 % of the game is finished
  if g.elapsedTime ≥ (← Checked.mul 64 3 g.finishTime) / 4 then
    let shares ← g.getUserHashrateShare
    let id ← findDominating shares.toList
    return id.map .dominatingPlayer
  pure none

inductive CloseError
  | gameNotFinished
  deriving DecidableEq, Repr

/-- The rewards of the players when the time has expired. -/
def timeExpiredRewards (bounty total : ℕ) (balances : List (String × ℕ)) :
    Except Panic (List (String × ℕ)) :=
  if total = 0 then
    balances.mapM fun (k, _) => do
      let reward ← Checked.div bounty (balances.length % 2 ^ 64)
      pure (k, reward)
  else
    balances.mapM fun (k, v) => do
      let reward ← Checked.div (← Checked.mul 128 v bounty) total
      pure (k, reward % 2 ^ 64)

/-- The distribution of the bounty by player key. -/
def getCloseDistribution (g : GameBoard) (bounty : ℕ) (hostKey : String) :
    Except Panic (Except CloseError (List (String × ℕ))) := do
  match ← g.gameIsFinished with
  | none => pure (.error .gameNotFinished)
  | some .timeExpired =>
    let balances ← g.usersByKey.toList.mapM fun (k, v) => do
      let balance ← g.tokens.balanceCheck g.bitcoinTokenId v
      pure (k, balance)
    let total ← balances.foldlM (fun sum b => Checked.add 128 sum b.2) 0
    let rewards ← timeExpiredRewards bounty total balances
    let sum ← rewards.foldlM (fun sum r => Checked.add 64 sum r.2) 0
    let excess ← Checked.sub bounty sum
    match rewards with
    | [] => pure (.ok [])
    | (k, reward) :: rest =>
      let reward ← Checked.add 64 reward excess
      pure (.ok ((k, reward) :: rest))
  | some (.dominatingPlayer id) =>
    let user ← unwrap g.users[id]?
    let twentyfivepercent := bounty / 4
    let rest ← Checked.sub bounty twentyfivepercent
    pure (.ok [(user.key, rest), (hostKey, twentyfivepercent)])

/-- The log and the chat keep the last thousand entries. -/
def pushBack {α : Type} (queue : List α) (x : α) : List α :=
  (if queue.length ≥ 1000 then queue.drop 1 else queue) ++ [x]

def addToEventLog (g : GameBoard) (sender : EntityID) (e : LogEvent) : Except Panic GameBoard := do
  let eventLogCounter ← Checked.add 64 g.eventLogCounter 1
  let eventLog := pushBack g.eventLog (eventLogCounter, sender, e)
  pure { g with eventLogCounter, eventLog }

/-- The median of the times that the players have reported, in order. -/
def medianElapsed (elapsed : List ℕ) : Except Panic ℕ :=
  if elapsed.length % 2 = 0 then do
    let hi := elapsed.getD (elapsed.length / 2) 0
    let lo := elapsed.getD (← Checked.sub (elapsed.length / 2) 1) 0
    let sum ← Checked.add 64 hi lo
    pure (sum / 2)
  else
    pure (elapsed.getD (elapsed.length / 2) 0)

def updateCurrentTime (g : GameBoard) (sender : EntityID) (time : ℕ) : Except Panic GameBoard := do
  let tick := g.ticks.getD sender { firstTime := time, elapsed := 0 }
  -- a time before the first one counts as the first one
  let tick := { tick with elapsed := max tick.elapsed (time - tick.firstTime) }
  let ticks := g.ticks.insert sender tick
  let elapsed := (ticks.toList.map (·.2.elapsed)).insertionSort (· ≤ ·)
  let median ← medianElapsed elapsed
  pure { g with ticks, elapsedTime := max g.elapsedTime median }

def processTicks (g : GameBoard) : Except Panic GameBoard := CallbackRegistry.run g

/-- `String::from` of an id: its hexadecimal digits. -/
def idToString (id : EntityID) : String := String.ofList (Nat.toDigits 16 id)

def isNickCommand (s : String) : Bool :=
  "/nick".toList.isPrefixOf s.toList && s.toList.all (·.toNat < 128) && s.utf8ByteSize < 32

/-- A chat message is logged; one that begins with `/nick` changes the sender's nick first. -/
def playChat (g : GameBoard) (sender : EntityID) (s : String) : Except Panic GameBoard := do
  let (nicks, s) :=
    if isNickCommand s then
      let nick := String.ofList (s.toList.dropWhile (· ≠ ' '))
      (g.nicks.insert sender nick, s!"{idToString sender} is now known as {nick}")
    else
      (g.nicks, s)
  let chatCounter ← Checked.add 64 g.chatCounter 1
  pure { g with nicks, chatCounter, chat := pushBack g.chat (chatCounter, sender, s) }

def playTrade (g : GameBoard) (sender : EntityID) (t : Trade) :
    Except Panic (Except TradeError TradeOutcome × GameBoard) :=
  if t.sell then
    ConstantFunctionMarketMaker.doSellTrade g t.pair t.amountA t.amountB t.cap false sender
  else
    ConstantFunctionMarketMaker.doBuyTrade g t.pair t.amountA t.amountB t.cap false sender

/-- Moves the coins of a plant of the sender to a lockup. -/
def playRemoveTokens (g : GameBoard) (sender : EntityID) (r : RemoveTokens) :
    Except Panic GameBoard := do
  let shippingTime := 1
  let nft ← g.nfts.index r.nftId
  if nft.owner = sender then
    let plant ← unwrap g.nfts.powerPlants[r.nftId]?
    plant.shipHashrate r.currency r.amount shippingTime g
  else
    pure g

/-- The result of a trade as the result of a move. -/
def reject {α : Type} (r : Except TradeError α) : Except MoveRejectReason Unit :=
  match r with
  | .ok _ => .ok ()
  | .error e => .error (.tradeRejected e)

/-- Processes a move without any sanitization. -/
def playInner (g : GameBoard) (d : GameMove) (sender : EntityID) :
    Except Panic (Except MoveRejectReason Unit × GameBoard) :=
  match d with
  | .heartbeat => pure (.ok (), g)
  | .trade t => do
    let (r, g) ← playTrade g sender t
    pure (reject r, g)
  | .mintPowerPlant m => do
    let (r, g) ← PowerPlantProducer.mintPowerPlant g m.scale m.location m.plantType sender
    pure (reject r, g)
  | .superMintPowerPlant m => do
    let (r, g) ← PowerPlantProducer.superMint g m.scale m.location m.plantType sender
    pure (reject r, g)
  | .purchaseNFT p => do
    let (nftSales, tokens, nfts) ←
      g.nftSales.purchase sender p.nftId g.tokens g.nfts p.limitPrice p.currency
    pure (.ok (), { g with nftSales, tokens, nfts })
  | .listNFTForSale l => do
    let nftSales ← g.nftSales.listNft sender l.nftId l.price l.currency g.nfts
    pure (.ok (), { g with nftSales })
  | .sendTokens s => do
    let (_, tokens) ← g.tokens.transfer s.currency sender s.dest s.amount
    pure (.ok (), { g with tokens })
  | .removeTokens r => do
    let g ← playRemoveTokens g sender r
    pure (.ok (), g)
  | .chat s => do
    let g ← playChat g sender s
    pure (.ok (), g)

/-- The sequence number expected next, with zero as an alternative to one for the first move. -/
def acceptsSequence (currentMove sequence : ℕ) : Except Panic Bool := do
  let next ← Checked.add 64 currentMove 1
  pure (next = sequence ∨ (currentMove = 0 ∧ sequence = 0))

/-- The stages of `play` that follow the sequence check: sanitization, the clock, the callbacks
that are due, and the move itself. -/
def execute (g : GameBoard) (d : GameMove) (timeMillis : ℕ) (sender : EntityID) :
    Except Panic (Except MoveRejectReason Unit × GameBoard) :=
  match d.sanitize g with
  | .error e => pure (.error (.moveSanitizationError e), g)
  | .ok mv => do
    let g ← g.updateCurrentTime sender timeMillis
    let g ← g.processTicks
    let g ← g.addToEventLog sender (.gameMove mv)
    let (r, g) ← g.playInner mv sender
    match r with
    | .ok () => pure (.ok (), g)
    | .error e =>
      let g ← g.addToEventLog sender (.moveRejectReason e)
      pure (.error e, g)

/-- Processes a move against the board after verifying its integrity and sanitizing it. -/
def play (g : GameBoard) (mv : MoveEnvelope) (signedBy : String) :
    Except Panic (Except MoveRejectReason Unit × GameBoard) :=
  match g.usersByKey[signedBy]? with
  | none => pure (.error .noSuchUser, g)
  | some sender => do
    match ← g.gameIsFinished with
    | some finishReason =>
      let g ← g.addToEventLog sender (.moveRejectReason (.gameIsFinished finishReason))
      pure (.error (.gameIsFinished finishReason), g)
    | none =>
      let currentMove := g.playerMoveSequence.getD sender 0
      if ← acceptsSequence currentMove mv.sequence then
        let playerMoveSequence := g.playerMoveSequence.insert sender mv.sequence
        execute { g with playerMoveSequence } mv.d mv.timeMillis sender
      else
        -- the default entry stays
        let playerMoveSequence := g.playerMoveSequence.insert sender currentMove
        pure (.ok (), { g with playerMoveSequence })

def simulateBuyTrade (g : GameBoard) (pair : TradingPairID) (amountA amountB : ℕ)
    (sender : EntityID) : Except Panic (Except TradeError TradeOutcome × GameBoard) :=
  ConstantFunctionMarketMaker.doBuyTrade g pair amountA amountB none true sender

def simulateSellTrade (g : GameBoard) (pair : TradingPairID) (amountA amountB : ℕ)
    (sender : EntityID) : Except Panic (Except TradeError TradeOutcome × GameBoard) :=
  ConstantFunctionMarketMaker.doSellTrade g pair amountA amountB none true sender

def getPowerPlantCost (g : GameBoard) (scale : ℕ) (plantType : PlantType) (signingKey : String) :
    Except Panic (Except TradeError (List (String × ℕ × ℕ)) × GameBoard) := do
  let owner ← unwrap g.usersByKey[signingKey]?
  PowerPlantProducer.estimateMaterialsCost g scale plantType owner

structure UXMaterialsPriceData where
  tradingPair : TradingPairID
  assetA : String
  mktQtyA : ℕ
  assetB : String
  mktQtyB : ℕ
  displayAsset : String
  deriving DecidableEq, Repr

/-- The loop of `get_ux_materials_prices` over the tokens. -/
def materialsPrices : List EntityID → GameBoard →
    Except Panic (List UXMaterialsPriceData × GameBoard)
  | [], g => pure ([], g)
  | id :: rest, g => do
    let token ← g.tokens.index id
    let nick := token.nickname.getD "Unknown Token"
    let pair : TradingPairID := { assetA := token.this, assetB := g.bitcoinTokenId }
    let tradingPair := pair.normalize
    if ConstantFunctionMarketMakerPair.hasMarket g tradingPair then
      let ((mktQtyA, mktQtyB), g) ← ConstantFunctionMarketMaker.getPairPriceData g tradingPair
      let tokenA ← g.tokens.index tradingPair.assetA
      let tokenB ← g.tokens.index tradingPair.assetB
      let unknown (p : TokenPointer) := s!"Unknown Token: TokenPointer(EntityID({p}))"
      let data :=
        { tradingPair
          assetA := tokenA.nickname.getD (unknown tradingPair.assetA)
          mktQtyA
          assetB := tokenB.nickname.getD (unknown tradingPair.assetB)
          mktQtyB
          displayAsset := nick }
      let (res, g) ← materialsPrices rest g
      pure (data :: res, g)
    else
      materialsPrices rest g

def getUxMaterialsPrices (g : GameBoard) : Except Panic (List UXMaterialsPriceData × GameBoard) :=
  materialsPrices g.tokens.tokens.keys g

end GameBoard
end JudicaVM
