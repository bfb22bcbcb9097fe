import JudicaVM.Attest.Store
import JudicaVM.Lib.Decode
import JudicaVM.Lib.Value

/-!
# Envelopes as peers send them

An envelope is read from a JSON tree: its header directly, its message through the canonical form of
the tree. The hash of an envelope is that of its own canonical form.
-/

namespace JudicaVM

open Checked Serde

/-- What the program takes from libraries: the curve, partially signed transactions, the hash of a
text and the verification of signatures. -/
structure Libraries (Psbt : Type) where
  isPoint : ℕ → Bool
  psbtFromStr : String → Option Psbt
  psbtToString : Psbt → String
  sha256 : Json → CanonicalEnvelopeHash
  verifySchnorr : Signature → CanonicalEnvelopeHash → XOnlyPublicKey → Bool

section

variable {Psbt : Type} (L : Libraries Psbt)

def XOnlyPublicKey.decode (j : Json) : Option XOnlyPublicKey :=
  (decodeHex 64 j).bind fun x => if L.isPoint x then some ⟨x⟩ else none

def XOnlyPublicKey.encode (key : XOnlyPublicKey) : Json :=
  encodeHex 64 key.x

def CanonicalEnvelopeHash.decode (j : Json) : Option CanonicalEnvelopeHash :=
  (decodeHex 64 j).map CanonicalEnvelopeHash.mk

def CanonicalEnvelopeHash.encode (hash : CanonicalEnvelopeHash) : Json :=
  encodeHex 64 hash.digest

def BlockHash.decode (j : Json) : Option BlockHash :=
  (decodeHex 64 j).map BlockHash.mk

def BlockHash.encode (hash : BlockHash) : Json :=
  encodeHex 64 hash.digest

def Signature.decode (j : Json) : Option Signature :=
  (decodeHex 128 j).map fun n => ⟨n / 2 ^ 256, n % 2 ^ 256⟩

def Signature.encode (sig : Signature) : Json :=
  encodeHex 128 (sig.r * 2 ^ 256 + sig.s)

def Unsigned.decode : Json → Option Unsigned :=
  record 1 fun j => do
    let signature ← optional ["signature"] 0 Signature.decode j
    pure { signature }

def Unsigned.encode (u : Unsigned) : Json :=
  .obj [("signature", encodeOption Signature.encode u.signature)]

def Ancestors.decode : Json → Option Ancestors :=
  record 2 fun j => do
    let prevMsg ← required ["prev_msg"] 0 CanonicalEnvelopeHash.decode j
    let genesis ← required ["genesis"] 1 CanonicalEnvelopeHash.decode j
    pure { prevMsg, genesis }

def Ancestors.encode (a : Ancestors) : Json :=
  .obj [("prev_msg", a.prevMsg.encode), ("genesis", a.genesis.encode)]

def BitcoinCheckPoints.decode : Json → Option BitcoinCheckPoints :=
  record 1 fun j => do
    let checkpoints ← required ["checkpoints"] 0
      (decodeVector 5 (decodePair BlockHash.decode decodeI64)) j
    pure { checkpoints }

def BitcoinCheckPoints.encode (c : BitcoinCheckPoints) : Json :=
  .obj [("checkpoints", .arr (c.checkpoints.toList.map fun p => .arr [p.1.encode, .int p.2]))]

def decodeTip : Json → Option (XOnlyPublicKey × ℤ × CanonicalEnvelopeHash)
  | .arr [key, height, hash] => do
    let key ← XOnlyPublicKey.decode L key
    let height ← decodeI64 height
    let hash ← CanonicalEnvelopeHash.decode hash
    pure (key, height, hash)
  | _ => none

def encodeTip (tip : XOnlyPublicKey × ℤ × CanonicalEnvelopeHash) : Json :=
  .arr [tip.1.encode, .int tip.2.1, tip.2.2.encode]

def Header.decode : Json → Option Header :=
  record 8 fun j => do
    let key ← required ["key"] 0 (XOnlyPublicKey.decode L) j
    let point ← required ["next_nonce"] 1 (XOnlyPublicKey.decode L) j
    let ancestors ← defaulted ["ancestors"] 2 (decodeOption Ancestors.decode) none j
    let tips ← defaulted ["tips"] 3 (decodeSeq (decodeTip L)) [] j
    let height ← required ["height"] 4 decodeI64 j
    let sentTimeMs ← required ["sent_time_ms"] 5 decodeI64 j
    let unsigned ← required ["unsigned"] 6 Unsigned.decode j
    let checkpoints ← required ["checkpoints"] 7 BitcoinCheckPoints.decode j
    pure { key, nextNonce := ⟨point⟩, ancestors, tips, height, sentTimeMs, unsigned, checkpoints }

/-- The fields as they are written. Absent ancestors and tips are left out. -/
def Header.fields (h : Header) : List (String × Json) :=
  [("key", h.key.encode), ("next_nonce", h.nextNonce.point.encode)] ++
    (match h.ancestors with
      | some a => [("ancestors", a.encode)]
      | none => []) ++
    (if h.tips = [] then [] else [("tips", .arr (h.tips.map encodeTip))]) ++
    [("height", .int h.height), ("sent_time_ms", .int h.sentTimeMs),
      ("unsigned", h.unsigned.encode), ("checkpoints", h.checkpoints.encode)]

def Header.encode (h : Header) : Json :=
  .obj h.fields

/-- The integers of a header are those that a canonical form may contain. -/
structure Header.Safe (h : Header) : Prop where
  height : Json.Safe h.height
  sentTimeMs : Json.Safe h.sentTimeMs
  tips : ∀ t ∈ h.tips, Json.Safe t.2.1
  checkpoints : ∀ c ∈ h.checkpoints.checkpoints.toList, Json.Safe c.2

instance (h : Header) : Decidable h.Safe :=
  decidable_of_iff (Json.Safe h.height ∧ Json.Safe h.sentTimeMs ∧
    (∀ t ∈ h.tips, Json.Safe t.2.1) ∧ ∀ c ∈ h.checkpoints.checkpoints.toList, Json.Safe c.2)
    ⟨fun hsafe => ⟨hsafe.1, hsafe.2.1, hsafe.2.2.1, hsafe.2.2.2⟩,
      fun hsafe => ⟨hsafe.height, hsafe.sentTimeMs, hsafe.tips, hsafe.checkpoints⟩⟩

/-- The types that an envelope may carry. What is read from a canonical tree is written as one. -/
structure AttestEnvelopable (M : Type) where
  deserialize : Json → Option M
  serialize : M → Json
  canonical : Yields deserialize fun m => (serialize m).isCanonical

/-- A value whose arrays and objects are nested no deeper than the parser reads them inside of an
envelope. -/
def decodeCanonical (j : Json) : Option Json :=
  if j.depth ≤ 126 then j.readCanonical else none

structure GenericErasedEnvelope where
  header : Header
  msg : Json

def GenericErasedEnvelope.decode : Json → Option GenericErasedEnvelope :=
  record 2 fun j => do
    let header ← required ["header"] 0 (Header.decode L) j
    let msg ← required ["msg"] 1 decodeCanonical j
    pure { header, msg }

/-- `GenericEnvelope<M>` with its cached hash. -/
structure GenericEnvelope (M : Type) where
  inner : Envelope M
  cache : Option CanonicalEnvelopeHash
  deriving DecidableEq

variable {M : Type} (A : AttestEnvelopable M)

/-- The cache is not written. -/
def Envelope.encode (e : Envelope M) : Json :=
  .obj [("header", e.header.encode), ("msg", A.serialize e.msg)]

namespace GenericEnvelope

variable (e : GenericEnvelope M)

def computeHash : Except Panic CanonicalEnvelopeHash :=
  match (e.inner.encode A).toCanonical with
  | some canonical => .ok (L.sha256 canonical)
  | none => .error (.message "Canonicalization Must Succeed")

def canonicalizedHashRef : Except Panic CanonicalEnvelopeHash :=
  match e.cache with
  | some h => .ok h
  | none => e.computeHash L A

def new (header : Header) (msg : M) : Except Panic (GenericEnvelope M) := do
  let s : GenericEnvelope M := ⟨⟨header, msg⟩, none⟩
  let hash ← s.canonicalizedHashRef L A
  pure { s with cache := some hash }

/-- The envelope that a peer sent, if the tree has the form of one. -/
def decode (j : Json) : Except Panic (Option (GenericEnvelope M)) :=
  match GenericErasedEnvelope.decode L j with
  | none => .ok none
  | some erased =>
    match A.deserialize erased.msg with
    | none => .ok none
    | some msg => some <$> new L A erased.header msg

def getGenesisHash : Except Panic CanonicalEnvelopeHash :=
  match e.inner.header.ancestors with
  | some a => .ok a.genesis
  | none => e.canonicalizedHashRef L A

/-- The digest that is signed, which an envelope with a signature does not have. -/
def signatureDigest : Except Panic (Option CanonicalEnvelopeHash) :=
  if e.inner.header.unsigned.signature.isSome then .ok none
  else some <$> e.canonicalizedHashRef L A

def signatureDigestMut : Except Panic CanonicalEnvelopeHash :=
  canonicalizedHashRef L A ⟨e.inner.redacted, none⟩

def selfAuthenticate : Except Panic (Except AuthenticationError (GenericEnvelope M)) :=
  if e.inner.header.height = 0 ∧ e.inner.header.ancestors.isSome then
    .ok (.error .noAncestorsForGenesis)
  else if 0 < e.inner.header.height ∧ e.inner.header.ancestors.isNone then
    .ok (.error .missingAncestors)
  else match e.inner.header.unsigned.signature with
    | none => .ok (.error .noSignature)
    | some sig => do
      match ← signatureDigest L A ⟨e.inner.redacted, none⟩ with
      | none => pure (.error .hashingError)
      | some msg =>
        if L.verifySchnorr sig msg e.inner.header.key then pure (.ok e)
        else pure (.error .validationError)

end GenericEnvelope

/-- The values that the insert statement binds. -/
structure InsertParams where
  body : Json
  hash : CanonicalEnvelopeHash
  key : XOnlyPublicKey
  genesis : CanonicalEnvelopeHash
  prevMsg : CanonicalEnvelopeHash
  sentTime : ℤ
  height : ℤ
  nonce : ℕ

/-- The values for an authenticated envelope, or nothing when its body cannot be converted. -/
def GenericEnvelope.insertParams (e : GenericEnvelope M) :
    Except Panic (Option InsertParams) := do
  let genesis ← e.getGenesisHash L A
  let hash ← e.canonicalizedHashRef L A
  match e.inner.header.unsigned.signature with
  | none => throw (.message "Authenticated Envelope Must Have")
  | some sig =>
    pure <| (e.inner.encode A).toCanonical.map fun body =>
      { body, hash
        key := e.inner.header.key
        genesis
        prevMsg := e.inner.prevMsg
        sentTime := e.inner.header.sentTimeMs
        height := e.inner.header.height
        nonce := sig.r }

namespace Store

/-- The row that the insert statement makes of the values that it binds. -/
def rowOfParams (s : Store M) (p : InsertParams) (body : Envelope M) (userId : ℕ) (now : ℤ) :
    Row M where
  messageId := s.messages.length + 1
  body := body
  hash := p.hash
  userId := userId
  receivedTime := now
  prevMsgId := (s.rowByHash p.prevMsg).map Row.messageId
  genesisId := (s.rowByHash p.genesis).map Row.messageId
  nonce := p.nonce
  connected := p.height = 0 || s.messages.any fun m => m.hash = p.prevMsg && m.connected

def insertEnvelope (s : Store M) (p : InsertParams) (body : Envelope M) (now : ℤ) :
    Except SqliteFail Unit × Store M :=
  match s.userByKey p.key with
  | none => (.error .constraintNotNull, s)
  | some user =>
    let row := s.rowOfParams p body user.userId now
    if ¬row.passesChecks then (.error .constraintCheck, s)
    else if (s.rowByHash row.hash).isSome then (.error .constraintUnique, s)
    else (.ok (), s.push row)

end Store

/-- Nothing is returned when the body cannot be converted. -/
def GenericEnvelope.tryInsertWithTxn (s : Store M) (e : GenericEnvelope M) (now : ℤ) :
    Except Panic (Option (Except SqliteFail Unit × Store M)) := do
  let params ← e.insertParams L A
  pure (params.map fun p => s.insertEnvelope p e.inner now)

def GenericEnvelope.tryInsert (s : Store M) (e : GenericEnvelope M) (reuseSafe : Bool)
    (now : ℤ) : Except Panic (Option (Except SqliteFail Unit × Store M)) :=
  match e.inner.header.ancestors with
  | some a =>
    if reuseSafe && s.messageExistsChildren a.prevMsg then
      pure (some (.error .constraintUnique, s))
    else e.tryInsertWithTxn L A s now
  | none => e.tryInsertWithTxn L A s now

end

end JudicaVM
