import JudicaVM.Attest.Canonicalization
import JudicaVM.Board.Game

/-!
# The messages that envelopes carry

Any JSON value, the action of a participant, and what the host broadcasts on a channel. The numbers
of a message are read from a canonical tree and written as they were read.
-/

namespace JudicaVM

open Serde GameBoard

/-- What is read from a canonical tree is written as one. -/
abbrev Rewrites {α : Type} (decode : Json → Option α) (encode : α → Json) : Prop :=
  Yields decode fun a => (encode a).isCanonical

def EntityID.decode : Json → Option EntityID :=
  decodeFromStr (fromStrRadix16 64)

def EntityID.encode (id : EntityID) : Json :=
  .str (idToString id)

def TradingPairID.fromString (value : String) : Option TradingPairID :=
  match value.splitOn ":" with
  | [a, b] => do
    let assetA ← fromStrRadix16 64 a
    let assetB ← fromStrRadix16 64 b
    pure { assetA, assetB }
  | _ => none

def TradingPairID.decode : Json → Option TradingPairID :=
  decodeFromStr TradingPairID.fromString

def TradingPairID.encode (pair : TradingPairID) : Json :=
  .str s!"{idToString pair.assetA}:{idToString pair.assetB}"

def PlantType.decode : Json → Option PlantType :=
  enumeration fun name v =>
    match name with
    | "Solar" => unitVariant .solar v
    | "Hydro" => unitVariant .hydro v
    | "Flare" => unitVariant .flare v
    | _ => none

def PlantType.encode : PlantType → Json
  | .solar => .str "Solar"
  | .hydro => .str "Hydro"
  | .flare => .str "Flare"

def encodeNat (n : ℕ) : Json :=
  .int n

def Trade.decode : Json → Option Trade :=
  record 5 fun j => do
    let pair ← required ["pair"] 0 TradingPairID.decode j
    let amountA ← required ["amount_a"] 1 (decodeUnsigned 128) j
    let amountB ← required ["amount_b"] 2 (decodeUnsigned 128) j
    let sell ← required ["sell"] 3 decodeBool j
    let cap ← defaulted ["cap"] 4 (decodeOption (decodeUnsigned 128)) none j
    pure { pair, amountA, amountB, sell, cap }

def Trade.encode (t : Trade) : Json :=
  .obj [("pair", t.pair.encode), ("amount_a", encodeNat t.amountA),
    ("amount_b", encodeNat t.amountB), ("sell", .bool t.sell), ("cap", encodeOption encodeNat t.cap)]

def MintPowerPlant.decode : Json → Option MintPowerPlant :=
  record 3 fun j => do
    let scale ← required ["scale"] 0 (decodeUnsigned 64) j
    let location ← required ["location"] 1 (decodePair decodeI64 decodeI64) j
    let plantType ← required ["plant_type"] 2 PlantType.decode j
    pure { scale, location, plantType }

def MintPowerPlant.encode (m : MintPowerPlant) : Json :=
  .obj [("scale", encodeNat m.scale), ("location", .arr [.int m.location.1, .int m.location.2]),
    ("plant_type", m.plantType.encode)]

def PurchaseNFT.decode : Json → Option PurchaseNFT :=
  record 3 fun j => do
    let nftId ← required ["nft_id"] 0 EntityID.decode j
    let limitPrice ← required ["limit_price"] 1 (decodeUnsigned 128) j
    let currency ← required ["currency"] 2 EntityID.decode j
    pure { nftId, limitPrice, currency }

def PurchaseNFT.encode (p : PurchaseNFT) : Json :=
  .obj [("nft_id", EntityID.encode p.nftId), ("limit_price", encodeNat p.limitPrice),
    ("currency", EntityID.encode p.currency)]

def ListNFTForSale.decode : Json → Option ListNFTForSale :=
  record 3 fun j => do
    let nftId ← required ["nft_id"] 0 EntityID.decode j
    let price ← required ["price"] 1 (decodeUnsigned 128) j
    let currency ← required ["currency"] 2 EntityID.decode j
    pure { nftId, price, currency }

def ListNFTForSale.encode (l : ListNFTForSale) : Json :=
  .obj [("nft_id", EntityID.encode l.nftId), ("price", encodeNat l.price),
    ("currency", EntityID.encode l.currency)]

def SendTokens.decode : Json → Option SendTokens :=
  record 3 fun j => do
    let dest ← required ["to"] 0 EntityID.decode j
    let amount ← required ["amount"] 1 (decodeUnsigned 128) j
    let currency ← required ["currency"] 2 EntityID.decode j
    pure { dest, amount, currency }

def SendTokens.encode (s : SendTokens) : Json :=
  .obj [("to", EntityID.encode s.dest), ("amount", encodeNat s.amount),
    ("currency", EntityID.encode s.currency)]

def RemoveTokens.decode : Json → Option RemoveTokens :=
  record 3 fun j => do
    let nftId ← required ["nft_id"] 0 EntityID.decode j
    let amount ← required ["amount"] 1 (decodeUnsigned 128) j
    let currency ← required ["currency"] 2 EntityID.decode j
    pure { nftId, amount, currency }

def RemoveTokens.encode (r : RemoveTokens) : Json :=
  .obj [("nft_id", EntityID.encode r.nftId), ("amount", encodeNat r.amount),
    ("currency", EntityID.encode r.currency)]

/-- A tuple without components. -/
def Heartbeat.decode : Json → Option Unit
  | .arr [] => some ()
  | _ => none

def GameMove.decode : Json → Option GameMove :=
  enumeration fun name v =>
    match name with
    | "heartbeat" => newtypeVariant (fun j => (Heartbeat.decode j).map fun _ => .heartbeat) v
    | "trade" => newtypeVariant (fun j => (Trade.decode j).map .trade) v
    | "purchase_n_f_t" => newtypeVariant (fun j => (PurchaseNFT.decode j).map .purchaseNFT) v
    | "list_n_f_t_for_sale" =>
      newtypeVariant (fun j => (ListNFTForSale.decode j).map .listNFTForSale) v
    | "send_tokens" => newtypeVariant (fun j => (SendTokens.decode j).map .sendTokens) v
    | "remove_tokens" => newtypeVariant (fun j => (RemoveTokens.decode j).map .removeTokens) v
    | "chat" => newtypeVariant (fun j => (decodeString j).map .chat) v
    | "mint_power_plant" =>
      newtypeVariant (fun j => (MintPowerPlant.decode j).map .mintPowerPlant) v
    | "super_mint_power_plant" =>
      newtypeVariant (fun j => (MintPowerPlant.decode j).map .superMintPowerPlant) v
    | _ => none

def GameMove.encode : GameMove → Json
  | .heartbeat => .obj [("heartbeat", .arr [])]
  | .trade t => .obj [("trade", t.encode)]
  | .purchaseNFT p => .obj [("purchase_n_f_t", p.encode)]
  | .listNFTForSale l => .obj [("list_n_f_t_for_sale", l.encode)]
  | .sendTokens s => .obj [("send_tokens", s.encode)]
  | .removeTokens r => .obj [("remove_tokens", r.encode)]
  | .chat text => .obj [("chat", .str text)]
  | .mintPowerPlant m => .obj [("mint_power_plant", m.encode)]
  | .superMintPowerPlant m => .obj [("super_mint_power_plant", m.encode)]

def MoveEnvelope.decode : Json → Option MoveEnvelope :=
  record 3 fun j => do
    let d ← required ["d"] 0 GameMove.decode j
    let sequence ← required ["sequence"] 1 (decodeUnsigned 64) j
    let timeMillis ← required ["time_millis", "time"] 2 (decodeUnsigned 64) j
    pure { d, sequence, timeMillis }

def MoveEnvelope.encode (m : MoveEnvelope) : Json :=
  .obj [("d", m.d.encode), ("sequence", encodeNat m.sequence),
    ("time_millis", encodeNat m.timeMillis)]

structure Multiplexed (T : Type) where
  data : T
  channel : String
  deriving DecidableEq

inductive ParticipantAction (Psbt : Type)
  | moveEnvelope (m : MoveEnvelope)
  | custom (j : Json)
  | psbtSigningCoordination (m : Multiplexed Psbt)
  deriving DecidableEq

section

variable {Psbt : Type} (L : Libraries Psbt)

def Multiplexed.decode : Json → Option (Multiplexed Psbt) :=
  record 2 fun j => do
    let data ← required ["data"] 0 (decodeFromStr L.psbtFromStr) j
    let channel ← required ["channel"] 1 decodeString j
    pure { data, channel }

def Multiplexed.encode (m : Multiplexed Psbt) : Json :=
  .obj [("data", .str (L.psbtToString m.data)), ("channel", .str m.channel)]

def ParticipantAction.decode : Json → Option (ParticipantAction Psbt) :=
  enumeration fun name v =>
    match name with
    | "MoveEnvelope" => newtypeVariant (fun j => (MoveEnvelope.decode j).map .moveEnvelope) v
    | "Custom" => newtypeVariant (fun j => j.readCanonical.map .custom) v
    | "PsbtSigningCoordination" =>
      newtypeVariant (fun j => (Multiplexed.decode L j).map .psbtSigningCoordination) v
    | _ => none

def ParticipantAction.encode : ParticipantAction Psbt → Json
  | .moveEnvelope m => .obj [("MoveEnvelope", m.encode)]
  | .custom j => .obj [("Custom", j)]
  | .psbtSigningCoordination m => .obj [("PsbtSigningCoordination", m.encode L)]

end

structure Peer where
  serviceUrl : String
  port : ℕ

inductive BroadcastByHost
  | gameSetup (setup : GameSetup)
  | sequence (l : List CanonicalEnvelopeHash)
  | newPeer (peer : Peer)
  | heartbeat

structure Channelized (T : Type) where
  data : T
  channel : String

/-- The largest integer that a canonical form may contain. -/
def noFinishTime : ℕ := 9007199254740991

def GameSetup.decode : Json → Option GameSetup :=
  record 3 fun j => do
    let players ← required ["players"] 0 (decodeSeq decodeString) j
    let startAmount ← required ["start_amount"] 1 (decodeUnsigned 64) j
    let finishTime ← defaulted ["finish_time"] 2 (decodeUnsigned 64) noFinishTime j
    if h : startAmount < 2 ^ 64 then
      pure { players, startAmount, finishTime, startAmount_lt := h }
    else none

def GameSetup.encode (s : GameSetup) : Json :=
  .obj [("players", .arr (s.players.map .str)), ("start_amount", encodeNat s.startAmount),
    ("finish_time", encodeNat s.finishTime)]

def Peer.decode : Json → Option Peer :=
  record 2 fun j => do
    let serviceUrl ← required ["service_url"] 0 decodeString j
    let port ← required ["port"] 1 (decodeUnsigned 16) j
    pure { serviceUrl, port }

def Peer.encode (p : Peer) : Json :=
  .obj [("service_url", .str p.serviceUrl), ("port", encodeNat p.port)]

def BroadcastByHost.decode : Json → Option BroadcastByHost :=
  enumeration fun name v =>
    match name with
    | "GameSetup" => newtypeVariant (fun j => (GameSetup.decode j).map .gameSetup) v
    | "Sequence" =>
      newtypeVariant (fun j => (decodeSeq CanonicalEnvelopeHash.decode j).map .sequence) v
    | "NewPeer" => newtypeVariant (fun j => (Peer.decode j).map .newPeer) v
    | "Heartbeat" => unitVariant .heartbeat v
    | _ => none

def BroadcastByHost.encode : BroadcastByHost → Json
  | .gameSetup setup => .obj [("GameSetup", setup.encode)]
  | .sequence l => .obj [("Sequence", .arr (l.map CanonicalEnvelopeHash.encode))]
  | .newPeer peer => .obj [("NewPeer", peer.encode)]
  | .heartbeat => .str "Heartbeat"

def Channelized.decode : Json → Option (Channelized BroadcastByHost) :=
  record 2 fun j => do
    let data ← required ["data"] 0 BroadcastByHost.decode j
    let channel ← required ["channel"] 1 decodeString j
    pure { data, channel }

def Channelized.encode (c : Channelized BroadcastByHost) : Json :=
  .obj [("data", c.data.encode), ("channel", .str c.channel)]

@[simp] theorem EntityID.encode_isCanonical (id : EntityID) : (EntityID.encode id).isCanonical :=
  Json.isCanonical_str _

@[simp] theorem TradingPairID.encode_isCanonical (pair : TradingPairID) :
    pair.encode.isCanonical :=
  Json.isCanonical_str _

@[simp] theorem PlantType.encode_isCanonical (t : PlantType) : t.encode.isCanonical := by
  cases t <;> exact Json.isCanonical_str _

theorem rewrites_decodeUnsigned (width : ℕ) : Rewrites (decodeUnsigned width) encodeNat := by
  intro j n hj hn
  exact Json.isCanonical_int.mpr (yields_decodeUnsigned width j n hj hn)

private theorem newtypeVariant_rewrites {α β : Type} {decode : Json → Option α} {P : α → Prop}
    {f : α → β}
    {encode : β → Json} {v : Option Json} {m : β} (h : Yields decode P)
    (h' : ∀ a, P a → (encode (f a)).isCanonical) (hv : ∀ c ∈ v, c.isCanonical)
    (hm : newtypeVariant (fun j => (decode j).map f) v = some m) : (encode m).isCanonical := by
  apply newtypeVariant_yields (P := fun m => (encode m).isCanonical) _ hv hm
  exact yields_map h h'

private theorem Trade.rewrites : Rewrites Trade.decode Trade.encode := by
  apply yields_record
  refine yields_bind yields_any fun pair _ => ?_
  refine yields_bind (yields_required (rewrites_decodeUnsigned 128)) fun amountA hA => ?_
  refine yields_bind (yields_required (rewrites_decodeUnsigned 128)) fun amountB hB => ?_
  refine yields_bind yields_any fun sell _ => ?_
  refine yields_bind (yields_defaulted (yields_decodeOption (rewrites_decodeUnsigned 128)) ?_)
    fun cap hcap => ?_
  · simp
  · apply yields_pure
    simpa [Trade.encode, hA, hB] using isCanonical_encodeOption hcap

private theorem MintPowerPlant.rewrites : Rewrites MintPowerPlant.decode MintPowerPlant.encode := by
  apply yields_record
  refine yields_bind (yields_required (rewrites_decodeUnsigned 64)) fun scale hscale => ?_
  refine yields_bind (yields_required
    (yields_decodePair (yields_decodeInt _ _) (yields_decodeInt _ _))) fun location hlocation => ?_
  refine yields_bind yields_any fun plantType _ => ?_
  apply yields_pure
  simp [MintPowerPlant.encode, hscale, hlocation.1, hlocation.2]

private theorem PurchaseNFT.rewrites : Rewrites PurchaseNFT.decode PurchaseNFT.encode := by
  apply yields_record
  refine yields_bind yields_any fun nftId _ => ?_
  refine yields_bind (yields_required (rewrites_decodeUnsigned 128)) fun limitPrice hprice => ?_
  refine yields_bind yields_any fun currency _ => ?_
  apply yields_pure
  simp [PurchaseNFT.encode, hprice]

private theorem ListNFTForSale.rewrites : Rewrites ListNFTForSale.decode ListNFTForSale.encode := by
  apply yields_record
  refine yields_bind yields_any fun nftId _ => ?_
  refine yields_bind (yields_required (rewrites_decodeUnsigned 128)) fun price hprice => ?_
  refine yields_bind yields_any fun currency _ => ?_
  apply yields_pure
  simp [ListNFTForSale.encode, hprice]

private theorem SendTokens.rewrites : Rewrites SendTokens.decode SendTokens.encode := by
  apply yields_record
  refine yields_bind yields_any fun dest _ => ?_
  refine yields_bind (yields_required (rewrites_decodeUnsigned 128)) fun amount hamount => ?_
  refine yields_bind yields_any fun currency _ => ?_
  apply yields_pure
  simp [SendTokens.encode, hamount]

private theorem RemoveTokens.rewrites : Rewrites RemoveTokens.decode RemoveTokens.encode := by
  apply yields_record
  refine yields_bind yields_any fun nftId _ => ?_
  refine yields_bind (yields_required (rewrites_decodeUnsigned 128)) fun amount hamount => ?_
  refine yields_bind yields_any fun currency _ => ?_
  apply yields_pure
  simp [RemoveTokens.encode, hamount]

private theorem GameMove.rewrites : Rewrites GameMove.decode GameMove.encode := by
  apply yields_enumeration
  intro name v m hv hm
  split at hm
  · refine newtypeVariant_rewrites yields_any (fun _ _ => ?_) hv hm
    simp [GameMove.encode]
  · refine newtypeVariant_rewrites Trade.rewrites (fun t ht => ?_) hv hm
    simpa [GameMove.encode] using ht
  · refine newtypeVariant_rewrites PurchaseNFT.rewrites (fun p hp => ?_) hv hm
    simpa [GameMove.encode] using hp
  · refine newtypeVariant_rewrites ListNFTForSale.rewrites (fun l hl => ?_) hv hm
    simpa [GameMove.encode] using hl
  · refine newtypeVariant_rewrites SendTokens.rewrites (fun s hs => ?_) hv hm
    simpa [GameMove.encode] using hs
  · refine newtypeVariant_rewrites RemoveTokens.rewrites (fun r hr => ?_) hv hm
    simpa [GameMove.encode] using hr
  · refine newtypeVariant_rewrites yields_any (fun text _ => ?_) hv hm
    simp [GameMove.encode]
  · refine newtypeVariant_rewrites MintPowerPlant.rewrites (fun p hp => ?_) hv hm
    simpa [GameMove.encode] using hp
  · refine newtypeVariant_rewrites MintPowerPlant.rewrites (fun p hp => ?_) hv hm
    simpa [GameMove.encode] using hp
  · cases hm

private theorem MoveEnvelope.rewrites : Rewrites MoveEnvelope.decode MoveEnvelope.encode := by
  apply yields_record
  refine yields_bind (yields_required GameMove.rewrites) fun d hd => ?_
  refine yields_bind (yields_required (rewrites_decodeUnsigned 64)) fun sequence hsequence => ?_
  refine yields_bind (yields_required (rewrites_decodeUnsigned 64)) fun timeMillis htime => ?_
  apply yields_pure
  simp [MoveEnvelope.encode, hd, hsequence, htime]

private theorem ParticipantAction.rewrites {Psbt : Type} (L : Libraries Psbt) :
    Rewrites (ParticipantAction.decode L) (ParticipantAction.encode L) := by
  have hcanonical : Yields Json.readCanonical fun j => j.isCanonical :=
    fun j c _ hc => Json.isCanonical_of_readCanonical hc
  apply yields_enumeration
  intro name v m hv hm
  split at hm
  · refine newtypeVariant_rewrites MoveEnvelope.rewrites (fun m hm => ?_) hv hm
    simpa [ParticipantAction.encode] using hm
  · refine newtypeVariant_rewrites hcanonical (fun j hj => ?_) hv hm
    simpa [ParticipantAction.encode] using hj
  · refine newtypeVariant_rewrites yields_any (fun m _ => ?_) hv hm
    simp [ParticipantAction.encode, Multiplexed.encode]
  · cases hm

private theorem GameSetup.rewrites : Rewrites GameSetup.decode GameSetup.encode := by
  have hdefault : (encodeNat noFinishTime).isCanonical := by
    decide
  apply yields_record
  refine yields_bind yields_any fun players _ => ?_
  refine yields_bind (yields_required (rewrites_decodeUnsigned 64)) fun startAmount hstart => ?_
  refine yields_bind (yields_defaulted (rewrites_decodeUnsigned 64) hdefault)
    fun finishTime hfinish => ?_
  intro j setup _ hsetup
  split_ifs at hsetup
  obtain rfl := Option.some.inj hsetup
  simp [GameSetup.encode, hstart, hfinish]

private theorem Peer.rewrites : Rewrites Peer.decode Peer.encode := by
  apply yields_record
  refine yields_bind yields_any fun serviceUrl _ => ?_
  refine yields_bind (yields_required (rewrites_decodeUnsigned 16)) fun port hport => ?_
  apply yields_pure
  simp [Peer.encode, hport]

private theorem BroadcastByHost.rewrites :
    Rewrites BroadcastByHost.decode BroadcastByHost.encode := by
  apply yields_enumeration
  intro name v m hv hm
  split at hm
  · refine newtypeVariant_rewrites GameSetup.rewrites (fun s hs => ?_) hv hm
    simpa [BroadcastByHost.encode] using hs
  · refine newtypeVariant_rewrites yields_any (fun l _ => ?_) hv hm
    simp [BroadcastByHost.encode]
  · refine newtypeVariant_rewrites Peer.rewrites (fun p hp => ?_) hv hm
    simpa [BroadcastByHost.encode] using hp
  · have heq : m = .heartbeat := by
      unfold unitVariant at hm
      split at hm <;> cases hm <;> rfl
    rw [heq]
    exact Json.isCanonical_str _
  · cases hm

private theorem Channelized.rewrites : Rewrites Channelized.decode Channelized.encode := by
  apply yields_record
  refine yields_bind (yields_required BroadcastByHost.rewrites) fun data hdata => ?_
  refine yields_bind yields_any fun channel _ => ?_
  apply yields_pure
  simp [Channelized.encode, hdata]

/-- Any canonical JSON value. -/
def wrappedJson : AttestEnvelopable Json where
  deserialize := Json.readCanonical
  serialize j := j
  canonical := fun _ _ _ hc => Json.isCanonical_of_readCanonical hc

def participantAction {Psbt : Type} (L : Libraries Psbt) :
    AttestEnvelopable (ParticipantAction Psbt) where
  deserialize := ParticipantAction.decode L
  serialize := ParticipantAction.encode L
  canonical := ParticipantAction.rewrites L

def channelizedBroadcast : AttestEnvelopable (Channelized BroadcastByHost) where
  deserialize := Channelized.decode
  serialize := Channelized.encode
  canonical := Channelized.rewrites

end JudicaVM
