import JudicaVM.Attest.Message
import JudicaVM.Lib.Closure

/-!
# The message store

The tables of the database that hold users and envelopes, the statements that insert into them and
the recursive statement that connects envelopes whose parents arrived late.
-/

namespace JudicaVM

structure User where
  userId : ℕ
  nickname : String
  key : XOnlyPublicKey
  deriving DecidableEq

/-- A row of the table `messages`. The columns that the insert statement copies from the envelope
are read off its body. -/
structure Row (M : Type) where
  messageId : ℕ
  body : Envelope M
  hash : CanonicalEnvelopeHash
  userId : ℕ
  receivedTime : ℤ
  prevMsgId : Option ℕ
  genesisId : Option ℕ
  nonce : ℕ
  connected : Bool
  deriving DecidableEq

/-- The tables. Members and subscribers of a commit group are pairs of a group and the row of a
genesis envelope. No statement deletes a row. -/
structure Store (M : Type) where
  users : List User
  messages : List (Row M)
  groupMembers : List (ℕ × ℕ)
  groupSubscribers : List (ℕ × ℕ)
  deriving DecidableEq

inductive SqliteFail
  | constraintCheck
  | constraintNotNull
  | constraintUnique
  deriving DecidableEq, Repr

namespace Row

variable {M : Type} (r : Row M)

def key : XOnlyPublicKey := r.body.header.key

def height : ℤ := r.body.header.height

def sentTime : ℤ := r.body.header.sentTimeMs

def prevMsg : CanonicalEnvelopeHash := r.body.prevMsg

def genesis : CanonicalEnvelopeHash :=
  match r.body.header.ancestors with
  | some a => a.genesis
  | none => r.hash

/-- The checks of the table that can fail. The others compare a column with the part of the body
that it was copied from, or with a field that headers do not have. -/
def passesChecks : Bool :=
  (r.height = 0 || r.genesisId.isSome) &&
  (r.connected && r.prevMsgId.isSome && r.genesisId.isSome || !r.connected ||
    r.height = 0 && r.connected) &&
  (0 < r.height || r.height = 0 && r.prevMsg = .genesis)

/-- The trigger `message_parents` on the rows that name the new row as their parent. -/
def connectGapParent (new r : Row M) : Row M :=
  if r.prevMsg = new.hash then { r with prevMsgId := some new.messageId } else r

end Row

namespace Store

variable {M : Type} {C : Crypto M} (s : Store M)

def empty : Store M := ⟨[], [], [], []⟩

def userByKey (key : XOnlyPublicKey) : Option User :=
  s.users.find? (·.key = key)

def rowByHash (hash : CanonicalEnvelopeHash) : Option (Row M) :=
  s.messages.find? (·.hash = hash)

/-- The envelope with a hash, if it can be decoded. -/
def decoded {E : Type} (decode : Envelope M → Option E) (h : CanonicalEnvelopeHash) : Option E :=
  (s.rowByHash h).bind fun r => decode r.body

/-- `messages_by_hash`: the first hash without an envelope that can be decoded is an error. -/
def messagesByHash {E : Type} (decode : Envelope M → Option E)
    (hashes : List CanonicalEnvelopeHash) : Option (List E) :=
  hashes.mapM (s.decoded decode)

/-- The row that the insert statement makes for an envelope. -/
def newRow (e : Authenticated C) (userId : ℕ) (now : ℤ) : Row M where
  messageId := s.messages.length + 1
  body := e.inner
  hash := C.canonicalizedHash e.inner
  userId := userId
  receivedTime := now
  prevMsgId := (s.rowByHash e.inner.prevMsg).map Row.messageId
  genesisId := (s.rowByHash (e.inner.getGenesisHash C)).map Row.messageId
  nonce := e.signature.r
  connected := e.inner.header.height = 0 ||
    s.messages.any fun m => m.hash = e.inner.prevMsg && m.connected

def push (row : Row M) : Store M :=
  { s with messages := (s.messages ++ [row]).map row.connectGapParent }

def tryInsertAuthenticatedEnvelopeWithTxn (e : Authenticated C) (now : ℤ) :
    Except SqliteFail Unit × Store M :=
  match s.userByKey e.inner.header.key with
  | none => (.error .constraintNotNull, s)
  | some user =>
    let row := s.newRow e user.userId now
    if ¬row.passesChecks then (.error .constraintCheck, s)
    else if (s.rowByHash row.hash).isSome then (.error .constraintUnique, s)
    else (.ok (), s.push row)

def messageExistsChildren (hash : CanonicalEnvelopeHash) : Bool :=
  s.messages.any (·.prevMsg = hash)

def tryInsertAuthenticatedEnvelope (e : Authenticated C) (reuseSafe : Bool) (now : ℤ) :
    Except SqliteFail Unit × Store M :=
  match e.inner.header.ancestors with
  | some a =>
    if reuseSafe && s.messageExistsChildren a.prevMsg then (.error .constraintUnique, s)
    else s.tryInsertAuthenticatedEnvelopeWithTxn e now
  | none => s.tryInsertAuthenticatedEnvelopeWithTxn e now

/-- The user of a key that is not registered yet. -/
def addUser (nickname : String) (key : XOnlyPublicKey) : Store M :=
  if (s.userByKey key).isSome then s
  else { s with users := s.users ++ [⟨s.users.length + 1, nickname, key⟩] }

def insertUserByGenesisEnvelope (nickname : String) (e : Authenticated C) (now : ℤ) :
    Except SqliteFail Unit × Store M :=
  (s.addUser nickname e.inner.header.key).tryInsertAuthenticatedEnvelopeWithTxn e now

end Store

/-- A row of the recursive table of `do_connect.sql`. -/
structure Updatable where
  rowId : ℕ
  messageHash : CanonicalEnvelopeHash
  prevHash : CanonicalEnvelopeHash
  isConnected : Bool
  height : ℤ
  parentId : ℕ
  genesisId : Option ℕ
  deriving DecidableEq

namespace Row

variable {M : Type} (r : Row M)

/-- A message that is to be connected to a parent. -/
def updatable (parentId : ℕ) (genesisId : Option ℕ) : Updatable where
  rowId := r.messageId
  messageHash := r.hash
  prevHash := r.prevMsg
  isConnected := r.connected
  height := r.height
  parentId := parentId
  genesisId := genesisId

/-- The genesis that a child takes from its parent. -/
def genesisForChild : Option ℕ :=
  if r.height = 0 then some r.messageId else r.genesisId

def connect (us : List Updatable) : Row M :=
  match us.find? (·.rowId = r.messageId) with
  | some u => { r with connected := true, prevMsgId := some u.parentId, genesisId := u.genesisId }
  | none => r

end Row

namespace Store

variable {M : Type} (s : Store M)

/-- The messages that are not connected although their parent is. -/
def connectable : List Updatable :=
  (s.messages.filter fun m => !m.connected).flatMap fun m =>
    (s.messages.filter fun parent => parent.hash = m.prevMsg && parent.connected).map
      fun parent => m.updatable parent.messageId parent.genesisForChild

/-- The messages whose parent is to be connected. -/
def children (asParent : Updatable) : List Updatable :=
  (s.messages.filter fun asChild => asParent.messageHash = asChild.prevMsg).map
    fun asChild => asChild.updatable asParent.rowId asParent.genesisId

/-- The recursive table. It has at most as many rows as there are choices of a message, a parent and
a genesis. -/
def updatable : List Updatable :=
  Closure.collect s.children (2 * s.messages.length ^ 3) s.connectable

/-- Connects everything that can be connected; the result counts the updated rows. -/
def attachTips : Except SqliteFail ℕ × Store M :=
  let us := s.updatable
  let messages := s.messages.map (fun r => r.connect us)
  if messages.all Row.passesChecks then
    (.ok (s.messages.countP fun r => us.any (·.rowId = r.messageId)), { s with messages })
  else
    (.error .constraintCheck, s)

end Store
end JudicaVM
