import JudicaVM.Attest.Payloads
import JudicaVM.Lib.Normal

/-!
# Messages as they are written

The decoders accept more than the encoders write: members in an array, members that nobody reads, a
member under another name or left out, a variant without content as an object, and texts of ids that
are not in lower case or have a sign or leading zeros. A message that is plain has none of these, and
it is exactly the plain messages that are written as they were read.
-/

namespace JudicaVM

open Serde GameBoard

variable {j : Json}

def EntityID.Plain : Json → Prop :=
  PlainText (fromStrRadix16 64) idToString

def TradingPairID.text (pair : TradingPairID) : String :=
  s!"{idToString pair.assetA}:{idToString pair.assetB}"

def TradingPairID.Plain : Json → Prop :=
  PlainText TradingPairID.fromString TradingPairID.text

/-- All digits of a number. -/
def hexText (digits n : ℕ) : String :=
  String.ofList ((Nat.toDigits 16 n).leftpad digits '0')

/-- The text of a key: its 32 bytes in hexadecimal digits. -/
def XOnlyPublicKey.toText (key : XOnlyPublicKey) : String := hexText 64 key.x

def CanonicalEnvelopeHash.Plain : Json → Prop :=
  PlainText (fun s => if s.length = 64 then ofHexDigits s.toList else none) (hexText 64)

def PlantType.Plain : Json → Prop :=
  PlainVariant fun _ _ => False

def Trade.Plain : Json → Prop :=
  PlainRecord [("amount_a", AnyJson), ("amount_b", AnyJson), ("cap", AnyJson),
    ("pair", TradingPairID.Plain), ("sell", AnyJson)]

def MintPowerPlant.Plain : Json → Prop :=
  PlainRecord [("location", AnyJson), ("plant_type", PlantType.Plain), ("scale", AnyJson)]

def PurchaseNFT.Plain : Json → Prop :=
  PlainRecord [("currency", EntityID.Plain), ("limit_price", AnyJson), ("nft_id", EntityID.Plain)]

def ListNFTForSale.Plain : Json → Prop :=
  PlainRecord [("currency", EntityID.Plain), ("nft_id", EntityID.Plain), ("price", AnyJson)]

def SendTokens.Plain : Json → Prop :=
  PlainRecord [("amount", AnyJson), ("currency", EntityID.Plain), ("to", EntityID.Plain)]

def RemoveTokens.Plain : Json → Prop :=
  PlainRecord [("amount", AnyJson), ("currency", EntityID.Plain), ("nft_id", EntityID.Plain)]

def GameMove.Plain : Json → Prop :=
  PlainVariant fun name =>
    match name with
    | "trade" => Trade.Plain
    | "purchase_n_f_t" => PurchaseNFT.Plain
    | "list_n_f_t_for_sale" => ListNFTForSale.Plain
    | "send_tokens" => SendTokens.Plain
    | "remove_tokens" => RemoveTokens.Plain
    | "mint_power_plant" => MintPowerPlant.Plain
    | "super_mint_power_plant" => MintPowerPlant.Plain
    | _ => AnyJson

def MoveEnvelope.Plain : Json → Prop :=
  PlainRecord [("d", GameMove.Plain), ("sequence", AnyJson), ("time_millis", AnyJson)]

def Multiplexed.Plain {Psbt : Type} (L : Libraries Psbt) : Json → Prop :=
  PlainRecord [("channel", AnyJson), ("data", PlainText L.psbtFromStr L.psbtToString)]

def ParticipantAction.Plain {Psbt : Type} (L : Libraries Psbt) : Json → Prop :=
  PlainVariant fun name =>
    match name with
    | "MoveEnvelope" => MoveEnvelope.Plain
    | "PsbtSigningCoordination" => Multiplexed.Plain L
    | _ => AnyJson

def GameSetup.Plain : Json → Prop :=
  PlainRecord [("finish_time", AnyJson), ("players", AnyJson), ("start_amount", AnyJson)]

def Peer.Plain : Json → Prop :=
  PlainRecord [("port", AnyJson), ("service_url", AnyJson)]

def BroadcastByHost.Plain : Json → Prop :=
  PlainVariant fun name =>
    match name with
    | "GameSetup" => GameSetup.Plain
    | "Sequence" => PlainSeq CanonicalEnvelopeHash.Plain
    | "NewPeer" => Peer.Plain
    | _ => fun _ => False

def Channelized.Plain : Json → Prop :=
  PlainRecord [("channel", AnyJson), ("data", BroadcastByHost.Plain)]

private theorem EntityID.plain_iff {id : EntityID} (h : EntityID.decode j = some id) :
    EntityID.encode id = j ↔ EntityID.Plain j :=
  plainText_iff h

private theorem TradingPairID.plain_iff {pair : TradingPairID}
    (h : TradingPairID.decode j = some pair) :
    pair.encode = j ↔ TradingPairID.Plain j := by
  show Json.str pair.text = j ↔ PlainText _ TradingPairID.text j
  exact plainText_iff h

private theorem CanonicalEnvelopeHash.plain_iff {hash : CanonicalEnvelopeHash}
    (h : CanonicalEnvelopeHash.decode j = some hash) :
    hash.encode = j ↔ CanonicalEnvelopeHash.Plain j := by
  obtain ⟨n, hn, rfl⟩ := Option.map_eq_some_iff.mp h
  show Json.str (hexText 64 n) = j ↔ PlainText _ (hexText 64) j
  exact plainText_iff hn

private theorem PlantType.plain_iff {t : PlantType} (h : PlantType.decode j = some t) :
    t.encode = j ↔ PlantType.Plain j := by
  apply plainVariant_iff h
  · intro s hs
    split at hs <;> cases hs <;> rfl
  · intro k v _ _
    cases t <;> simp [PlantType.encode]

private theorem encodeNat_of_decode {width n : ℕ} (h : decodeUnsigned width j = some n) :
    encodeNat n = j :=
  (int_of_decodeUnsigned h).symm

private theorem Trade.plain_iff {t : Trade} (h : Trade.decode j = some t) :
    t.encode.normalize = j ↔ Trade.Plain j := by
  have hwritten : t.encode.normalize =
      .obj [("amount_a", encodeNat t.amountA), ("amount_b", encodeNat t.amountB),
        ("cap", encodeOption encodeNat t.cap), ("pair", t.pair.encode), ("sell", .bool t.sell)] := by
    obtain ⟨_, _, _, _, cap⟩ := t
    cases cap <;>
      simp [Trade.encode, Json.normalize, Json.normalizeFields, Json.keepLast, Json.sortFields,
        encodeNat, encodeOption, TradingPairID.encode]
  rw [hwritten]
  apply plainRecord_iff rfl
  intro members hnames hj
  rcases members with _ | ⟨⟨_, a⟩, _ | ⟨⟨_, b⟩, _ | ⟨⟨_, c⟩, _ | ⟨⟨_, d⟩, _ | ⟨⟨_, e⟩, _ | _⟩⟩⟩⟩⟩ <;>
    simp at hnames
  obtain ⟨rfl, rfl, rfl, rfl, rfl⟩ := hnames
  subst hj
  simp [Trade.decode, record, fits, required, defaulted, member, Option.bind_eq_some_iff,
    -Bool.exists_bool] at h
  obtain ⟨pair, hpair, amountA, hA, amountB, hB, sell, hsell, cap, hcap, rfl⟩ := h
  have hcap' := encodeOption_of_decodeOption hcap fun n hn => encodeNat_of_decode hn
  simp [AnyJson, encodeNat_of_decode hA, encodeNat_of_decode hB, (bool_of_decodeBool hsell).symm,
    ← TradingPairID.plain_iff hpair, hcap']

private theorem MintPowerPlant.plain_iff {m : MintPowerPlant}
    (h : MintPowerPlant.decode j = some m) : m.encode.normalize = j ↔ MintPowerPlant.Plain j := by
  have hwritten : m.encode.normalize =
      .obj [("location", .arr [.int m.location.1, .int m.location.2]),
        ("plant_type", m.plantType.encode), ("scale", encodeNat m.scale)] := by
    obtain ⟨_, _, kind⟩ := m
    cases kind <;>
      simp [MintPowerPlant.encode, Json.normalize, Json.normalizeFields, Json.normalizeAll,
        Json.keepLast, Json.sortFields, encodeNat, PlantType.encode]
  rw [hwritten]
  apply plainRecord_iff rfl
  intro members hnames hj
  rcases members with _ | ⟨⟨_, a⟩, _ | ⟨⟨_, b⟩, _ | ⟨⟨_, c⟩, _ | _⟩⟩⟩ <;> simp at hnames
  obtain ⟨rfl, rfl, rfl⟩ := hnames
  subst hj
  simp [MintPowerPlant.decode, record, fits, required, member, Option.bind_eq_some_iff] at h
  obtain ⟨scale, hscale, x, y, hlocation, plantType, hkind, rfl⟩ := h
  have hlocation' : Json.arr [.int x, .int y] = a := by
    unfold decodePair at hlocation
    split at hlocation
    · obtain ⟨x', hx, hy⟩ := Option.bind_eq_some_iff.mp hlocation
      obtain ⟨y', hy', heq⟩ := Option.map_eq_some_iff.mp hy
      obtain ⟨rfl, rfl⟩ := Prod.mk.inj heq
      rw [int_of_decodeInt hx, int_of_decodeInt hy']
    · cases hlocation
  simp [AnyJson, encodeNat_of_decode hscale, ← PlantType.plain_iff hkind, hlocation']

private theorem PurchaseNFT.plain_iff {p : PurchaseNFT} (h : PurchaseNFT.decode j = some p) :
    p.encode.normalize = j ↔ PurchaseNFT.Plain j := by
  have hwritten : p.encode.normalize =
      .obj [("currency", EntityID.encode p.currency), ("limit_price", encodeNat p.limitPrice),
        ("nft_id", EntityID.encode p.nftId)] := by
    simp [PurchaseNFT.encode, Json.normalize, Json.normalizeFields, Json.keepLast, Json.sortFields,
      encodeNat, EntityID.encode]
  rw [hwritten]
  apply plainRecord_iff rfl
  intro members hnames hj
  rcases members with _ | ⟨⟨_, a⟩, _ | ⟨⟨_, b⟩, _ | ⟨⟨_, c⟩, _ | _⟩⟩⟩ <;> simp at hnames
  obtain ⟨rfl, rfl, rfl⟩ := hnames
  subst hj
  simp [PurchaseNFT.decode, record, fits, required, member, Option.bind_eq_some_iff] at h
  obtain ⟨nftId, hid, limitPrice, hprice, currency, hcurrency, rfl⟩ := h
  simp [AnyJson, encodeNat_of_decode hprice, ← EntityID.plain_iff hid,
    ← EntityID.plain_iff hcurrency]

private theorem ListNFTForSale.plain_iff {l : ListNFTForSale}
    (h : ListNFTForSale.decode j = some l) : l.encode.normalize = j ↔ ListNFTForSale.Plain j := by
  have hwritten : l.encode.normalize =
      .obj [("currency", EntityID.encode l.currency), ("nft_id", EntityID.encode l.nftId),
        ("price", encodeNat l.price)] := by
    simp [ListNFTForSale.encode, Json.normalize, Json.normalizeFields, Json.keepLast,
      Json.sortFields, encodeNat, EntityID.encode]
  rw [hwritten]
  apply plainRecord_iff rfl
  intro members hnames hj
  rcases members with _ | ⟨⟨_, a⟩, _ | ⟨⟨_, b⟩, _ | ⟨⟨_, c⟩, _ | _⟩⟩⟩ <;> simp at hnames
  obtain ⟨rfl, rfl, rfl⟩ := hnames
  subst hj
  simp [ListNFTForSale.decode, record, fits, required, member, Option.bind_eq_some_iff] at h
  obtain ⟨nftId, hid, price, hprice, currency, hcurrency, rfl⟩ := h
  simp [AnyJson, encodeNat_of_decode hprice, ← EntityID.plain_iff hid,
    ← EntityID.plain_iff hcurrency]

private theorem SendTokens.plain_iff {s : SendTokens} (h : SendTokens.decode j = some s) :
    s.encode.normalize = j ↔ SendTokens.Plain j := by
  have hwritten : s.encode.normalize =
      .obj [("amount", encodeNat s.amount), ("currency", EntityID.encode s.currency),
        ("to", EntityID.encode s.dest)] := by
    simp [SendTokens.encode, Json.normalize, Json.normalizeFields, Json.keepLast, Json.sortFields,
      encodeNat, EntityID.encode]
  rw [hwritten]
  apply plainRecord_iff rfl
  intro members hnames hj
  rcases members with _ | ⟨⟨_, a⟩, _ | ⟨⟨_, b⟩, _ | ⟨⟨_, c⟩, _ | _⟩⟩⟩ <;> simp at hnames
  obtain ⟨rfl, rfl, rfl⟩ := hnames
  subst hj
  simp [SendTokens.decode, record, fits, required, member, Option.bind_eq_some_iff] at h
  obtain ⟨dest, hdest, amount, hamount, currency, hcurrency, rfl⟩ := h
  simp [AnyJson, encodeNat_of_decode hamount, ← EntityID.plain_iff hdest,
    ← EntityID.plain_iff hcurrency]

private theorem RemoveTokens.plain_iff {r : RemoveTokens} (h : RemoveTokens.decode j = some r) :
    r.encode.normalize = j ↔ RemoveTokens.Plain j := by
  have hwritten : r.encode.normalize =
      .obj [("amount", encodeNat r.amount), ("currency", EntityID.encode r.currency),
        ("nft_id", EntityID.encode r.nftId)] := by
    simp [RemoveTokens.encode, Json.normalize, Json.normalizeFields, Json.keepLast, Json.sortFields,
      encodeNat, EntityID.encode]
  rw [hwritten]
  apply plainRecord_iff rfl
  intro members hnames hj
  rcases members with _ | ⟨⟨_, a⟩, _ | ⟨⟨_, b⟩, _ | ⟨⟨_, c⟩, _ | _⟩⟩⟩ <;> simp at hnames
  obtain ⟨rfl, rfl, rfl⟩ := hnames
  subst hj
  simp [RemoveTokens.decode, record, fits, required, member, Option.bind_eq_some_iff] at h
  obtain ⟨nftId, hid, amount, hamount, currency, hcurrency, rfl⟩ := h
  simp [AnyJson, encodeNat_of_decode hamount, ← EntityID.plain_iff hid,
    ← EntityID.plain_iff hcurrency]

private theorem newtypeVariant_plain_iff {α β : Type} {decode : Json → Option α} {f : α → β}
    {encode : α → Json} {written : β → Json} {v : Json} {k : String} {m : β} {P : Json → Prop}
    (hm : newtypeVariant (fun j => (decode j).map f) (some v) = some m)
    (hwritten : ∀ a, written (f a) = .obj [(k, encode a)])
    (hdecode : ∀ a, decode v = some a → ((encode a).normalize = v ↔ P v)) :
    (written m).normalize = .obj [(k, v)] ↔ P v := by
  obtain ⟨a, ha, rfl⟩ := Option.map_eq_some_iff.mp hm
  rw [hwritten, Json.normalize_single, ← hdecode a ha]
  simp

private theorem GameMove.plain_iff {m : GameMove} (h : GameMove.decode j = some m) :
    m.encode.normalize = j ↔ GameMove.Plain j := by
  apply plainVariant_iff h
  · intro s hs
    split at hs <;> cases hs
  · intro k v _ hm
    split at hm
    · obtain ⟨_, hunit, rfl⟩ := Option.map_eq_some_iff.mp hm
      unfold Heartbeat.decode at hunit
      split at hunit
      · exact iff_of_true rfl trivial
      · cases hunit
    · exact newtypeVariant_plain_iff hm (fun _ => rfl) fun _ => Trade.plain_iff
    · exact newtypeVariant_plain_iff hm (fun _ => rfl) fun _ => PurchaseNFT.plain_iff
    · exact newtypeVariant_plain_iff hm (fun _ => rfl) fun _ => ListNFTForSale.plain_iff
    · exact newtypeVariant_plain_iff hm (fun _ => rfl) fun _ => SendTokens.plain_iff
    · exact newtypeVariant_plain_iff hm (fun _ => rfl) fun _ => RemoveTokens.plain_iff
    · refine newtypeVariant_plain_iff hm (fun _ => rfl) fun text htext => ?_
      exact iff_of_true (str_of_decodeString htext).symm trivial
    · exact newtypeVariant_plain_iff hm (fun _ => rfl) fun _ => MintPowerPlant.plain_iff
    · exact newtypeVariant_plain_iff hm (fun _ => rfl) fun _ => MintPowerPlant.plain_iff
    · cases hm

private theorem MoveEnvelope.plain_iff {m : MoveEnvelope} (h : MoveEnvelope.decode j = some m) :
    m.encode.normalize = j ↔ MoveEnvelope.Plain j := by
  have hwritten : m.encode.normalize =
      .obj [("d", m.d.encode.normalize), ("sequence", encodeNat m.sequence),
        ("time_millis", encodeNat m.timeMillis)] := by
    simp [MoveEnvelope.encode, Json.normalize, Json.normalizeFields, Json.keepLast, Json.sortFields,
      encodeNat]
  rw [hwritten]
  apply plainRecord_iff rfl
  intro members hnames hj
  rcases members with _ | ⟨⟨_, a⟩, _ | ⟨⟨_, b⟩, _ | ⟨⟨_, c⟩, _ | _⟩⟩⟩ <;> simp at hnames
  obtain ⟨rfl, rfl, rfl⟩ := hnames
  subst hj
  simp [MoveEnvelope.decode, record, fits, required, member, Option.bind_eq_some_iff] at h
  obtain ⟨d, hd, sequence, hsequence, timeMillis, htime, rfl⟩ := h
  simp [AnyJson, encodeNat_of_decode hsequence, encodeNat_of_decode htime, ← GameMove.plain_iff hd]

section

variable {Psbt : Type} {L : Libraries Psbt}

private theorem Multiplexed.plain_iff {m : Multiplexed Psbt} (h : Multiplexed.decode L j = some m) :
    (m.encode L).normalize = j ↔ Multiplexed.Plain L j := by
  have hwritten : (m.encode L).normalize =
      .obj [("channel", .str m.channel), ("data", .str (L.psbtToString m.data))] := by
    simp [Multiplexed.encode, Json.normalize, Json.normalizeFields, Json.keepLast, Json.sortFields]
  rw [hwritten]
  apply plainRecord_iff rfl
  intro members hnames hj
  rcases members with _ | ⟨⟨_, a⟩, _ | ⟨⟨_, b⟩, _ | _⟩⟩ <;> simp at hnames
  obtain ⟨rfl, rfl⟩ := hnames
  subst hj
  simp [Multiplexed.decode, record, fits, required, member, Option.bind_eq_some_iff] at h
  obtain ⟨data, hdata, channel, hchannel, rfl⟩ := h
  simp [AnyJson, (str_of_decodeString hchannel).symm, ← plainText_iff hdata]

theorem ParticipantAction.plain_iff {m : ParticipantAction Psbt} (hnormal : j.Normal)
    (hcanonical : j.isCanonical) (hmixed : j.Mixed) (h : ParticipantAction.decode L j = some m) :
    (m.encode L).normalize = j ↔ ParticipantAction.Plain L j := by
  apply plainVariant_iff h
  · intro s hs
    split at hs <;> cases hs
  · intro k v hj hm
    subst hj
    split at hm
    · exact newtypeVariant_plain_iff hm (fun _ => rfl) fun _ => MoveEnvelope.plain_iff
    · refine newtypeVariant_plain_iff hm (fun _ => rfl) fun c hc => ?_
      have hv := Json.normal_single hnormal
      have hcanonical' := Json.isCanonical_obj.mp hcanonical _ List.mem_cons_self
      obtain ⟨rfl, _⟩ := hv.readValue_of_readCanonical hcanonical' hmixed.2.1 hc
      exact iff_of_true hv trivial
    · exact newtypeVariant_plain_iff hm (fun _ => rfl) fun _ => Multiplexed.plain_iff
    · cases hm

end

private theorem GameSetup.plain_iff {s : GameSetup} (h : GameSetup.decode j = some s) :
    s.encode.normalize = j ↔ GameSetup.Plain j := by
  have hwritten : s.encode.normalize =
      .obj [("finish_time", encodeNat s.finishTime), ("players", .arr (s.players.map .str)),
        ("start_amount", encodeNat s.startAmount)] := by
    simp [GameSetup.encode, Json.normalize, Json.normalizeFields, Json.keepLast, Json.sortFields,
      encodeNat, Json.normalizeAll_eq]
  rw [hwritten]
  apply plainRecord_iff rfl
  intro members hnames hj
  rcases members with _ | ⟨⟨_, a⟩, _ | ⟨⟨_, b⟩, _ | ⟨⟨_, c⟩, _ | _⟩⟩⟩ <;> simp at hnames
  obtain ⟨rfl, rfl, rfl⟩ := hnames
  subst hj
  simp [GameSetup.decode, record, fits, required, defaulted, member, Option.bind_eq_some_iff] at h
  obtain ⟨players, hplayers, startAmount, hstart, finishTime, hfinish, _, rfl⟩ := h
  have hall : PlainSeq AnyJson b := by
    unfold decodeSeq at hplayers
    split at hplayers
    · exact fun _ _ => trivial
    · cases hplayers
  have hplayers' := (plainSeq_iff hplayers fun v s hs =>
    iff_of_true (str_of_decodeString hs).symm trivial).mpr hall
  simp [AnyJson, encodeNat_of_decode hstart, encodeNat_of_decode hfinish, hplayers']

private theorem Peer.plain_iff {p : Peer} (h : Peer.decode j = some p) :
    p.encode.normalize = j ↔ Peer.Plain j := by
  have hwritten : p.encode.normalize =
      .obj [("port", encodeNat p.port), ("service_url", .str p.serviceUrl)] := by
    simp [Peer.encode, Json.normalize, Json.normalizeFields, Json.keepLast, Json.sortFields,
      encodeNat]
  rw [hwritten]
  apply plainRecord_iff rfl
  intro members hnames hj
  rcases members with _ | ⟨⟨_, a⟩, _ | ⟨⟨_, b⟩, _ | _⟩⟩ <;> simp at hnames
  obtain ⟨rfl, rfl⟩ := hnames
  subst hj
  simp [Peer.decode, record, fits, required, member, Option.bind_eq_some_iff] at h
  obtain ⟨serviceUrl, hurl, port, hport, rfl⟩ := h
  simp [AnyJson, encodeNat_of_decode hport, (str_of_decodeString hurl).symm]

private theorem normalize_sequence (l : List CanonicalEnvelopeHash) :
    (Json.arr (l.map CanonicalEnvelopeHash.encode)).normalize =
      .arr (l.map CanonicalEnvelopeHash.encode) := by
  apply Json.normal_arr.mpr
  intro j hj
  obtain ⟨hash, _, rfl⟩ := List.mem_map.mp hj
  rfl

private theorem BroadcastByHost.plain_iff {b : BroadcastByHost}
    (h : BroadcastByHost.decode j = some b) :
    b.encode.normalize = j ↔ BroadcastByHost.Plain j := by
  apply plainVariant_iff h
  · intro s hs
    split at hs <;> cases hs
    rfl
  · intro k v _ hm
    split at hm
    · exact newtypeVariant_plain_iff hm (fun _ => rfl) fun _ => GameSetup.plain_iff
    · refine newtypeVariant_plain_iff hm (fun _ => rfl) fun l hl => ?_
      rw [normalize_sequence]
      exact plainSeq_iff hl fun _ _ => CanonicalEnvelopeHash.plain_iff
    · exact newtypeVariant_plain_iff hm (fun _ => rfl) fun _ => Peer.plain_iff
    · refine iff_of_false (fun heq => ?_) id
      cases v <;> cases hm
      have hname : Json.str "Heartbeat" = .obj [("Heartbeat", .null)] := heq
      cases hname
    · cases hm

theorem Channelized.plain_iff {c : Channelized BroadcastByHost} (h : Channelized.decode j = some c) :
    c.encode.normalize = j ↔ Channelized.Plain j := by
  have hwritten : c.encode.normalize =
      .obj [("channel", .str c.channel), ("data", c.data.encode.normalize)] := by
    simp [Channelized.encode, Json.normalize, Json.normalizeFields, Json.keepLast, Json.sortFields]
  rw [hwritten]
  apply plainRecord_iff rfl
  intro members hnames hj
  rcases members with _ | ⟨⟨_, a⟩, _ | ⟨⟨_, b⟩, _ | _⟩⟩ <;> simp at hnames
  obtain ⟨rfl, rfl⟩ := hnames
  subst hj
  simp [Channelized.decode, record, fits, required, member, Option.bind_eq_some_iff] at h
  obtain ⟨data, hdata, channel, hchannel, rfl⟩ := h
  simp [AnyJson, (str_of_decodeString hchannel).symm, ← BroadcastByHost.plain_iff hdata]

end JudicaVM
