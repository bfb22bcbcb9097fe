import JudicaVM.Attest.Writers
import JudicaVM.Sequencer.Offline

/-!
# The task of the host

The host polls the store for new envelopes of its players, files them under the chains that they
claim, schedules the gap-free run of heights that is next on every chain, and publishes each batch
under its own key. A task that starts again reads what has been published.
-/

namespace JudicaVM

open Checked

section

variable {J : Type} {C : Crypto J}

namespace Store

variable (s : Store J) (key : XOnlyPublicKey)

def groupsThisChainSubscribesTo : List ℕ :=
  (s.groupSubscribers.filter fun sub => s.messages.any fun m =>
    (s.userByKey key).map User.userId = some m.userId && m.height = 0 &&
      sub.2 = m.messageId).map Prod.fst

/-- A message of a member of a group that the chain subscribes to. -/
def selects (r : Row J) : Bool :=
  s.groupMembers.any fun m =>
    m.1 ∈ s.groupsThisChainSubscribesTo key && (m.2 = r.messageId || r.genesisId = some m.2)

/-- `all_chain_commit_group_members_new_envelopes_for_chain.sql` -/
def newEnvelopes (after : ℕ) : List (Row J) :=
  s.messages.filter fun r => s.selects key r && after < r.messageId

/-- `all_messages_by_key_connected.sql` -/
def loadAllMessagesForUserByKeyConnected : List (Row J) :=
  (s.messages.filter fun r =>
    (s.userByKey key).map User.userId = some r.userId && r.connected).insertionSort
      fun a b => a.height ≤ b.height

/-- A group has a member at most once, and the member must be stored. -/
def addMemberToChainCommitGroup (group : ℕ) (genesis : CanonicalEnvelopeHash) : Store J :=
  match s.idByHash genesis with
  | none => s
  | some i =>
    if (group, i) ∈ s.groupMembers then s
    else { s with groupMembers := s.groupMembers ++ [(group, i)] }

end Store

/-- An entry of the queue `to_sequence`. -/
structure ToSequence where
  height : ℤ
  hash : CanonicalEnvelopeHash
  genesis : CanonicalEnvelopeHash
  deriving DecidableEq

def i64Max : ℤ := 2 ^ 63 - 1

/-- The loop `'scan_keys`: the height after the first one whose successor is missing. -/
def scanKeys (next : ℤ) : List ℤ → ℤ
  | [] => next
  | k :: rest => if rest.headD i64Max - k = 1 then scanKeys next rest else k + 1

def heightsFrom (first next : ℤ) : List ℤ :=
  (List.range (next - first).toNat).map fun i : ℕ => first + i

/-- The heights of each chain, counted from the first one that is scheduled. -/
def normalizeHeights (groupMinHeight : ℤ) (g : CanonicalEnvelopeHash) :
    List ToSequence → List ToSequence
  | [] => []
  | s :: rest =>
    if s.genesis = g then
      { s with height := s.height - groupMinHeight } :: normalizeHeights groupMinHeight g rest
    else { s with height := s.height - s.height } :: normalizeHeights s.height s.genesis rest

/-- The batch of a queue that is grouped by chain. -/
def schedule (shuffle : List ToSequence → List ToSequence) (queue : List ToSequence) :
    List CanonicalEnvelopeHash :=
  match queue with
  | [] => []
  | first :: _ =>
    ((shuffle (normalizeHeights first.height first.genesis queue)).insertionSort
      fun a b => a.height ≤ b.height).map ToSequence.hash

/-- The orders in which hash maps are traversed, and the outcome of the shuffle. -/
structure Choices (C : Crypto J) where
  order : List (Envelope J) → List (Envelope J)
  genera : List (Envelope J) → List CanonicalEnvelopeHash
  shuffle : List ToSequence → List ToSequence
  order_perm : ∀ l, (order l).Perm l
  genera_nodup : ∀ l, (genera l).Nodup
  mem_genera : ∀ l, ∀ e ∈ l, e.getGenesisHash C ∈ genera l
  shuffle_perm : ∀ l, (shuffle l).Perm l

/-- The variables of a task. An absent next height is read as 0. -/
structure Task (J : Type) where
  allUnprocessedMessages : List (Envelope J)
  messageByGenesis : List (Envelope J)
  nextHeightToSequence : CanonicalEnvelopeHash → ℤ
  seq : ℕ

namespace Task

def initial : Task J := ⟨[], [], fun _ => 0, 0⟩

variable (C) (oracle : XOnlyPublicKey) (t : Task J)

/-- A new envelope replaces one with its hash. -/
def fetch (s : Store J) : Task J :=
  let rows := s.newEnvelopes oracle t.seq
  { t with
    allUnprocessedMessages :=
      (t.allUnprocessedMessages.filter fun e =>
        C.canonicalizedHash e ∉ rows.map fun r => C.canonicalizedHash r.body) ++ rows.map Row.body
    seq := (rows.map Row.messageId).foldl max t.seq }

def file (t : Task J) (e : Envelope J) : Except Panic (Task J) :=
  if e.header.key = oracle then .error (.message "Chain Cannot Listen to itself, logic error")
  else if t.messageByGenesis.any fun m =>
      m.getGenesisHash C = e.getGenesisHash C && m.header.height = e.header.height then
    .error (.message "Test Invariant Failed")
  else .ok { t with messageByGenesis := t.messageByGenesis ++ [e] }

def fileAll (order : List (Envelope J) → List (Envelope J)) : Except Panic (Task J) :=
  (order t.allUnprocessedMessages).foldlM (file C oracle) { t with allUnprocessedMessages := [] }

/-- The keys of the map of a chain, in their order. -/
def heights (g : CanonicalEnvelopeHash) : List ℤ :=
  ((t.messageByGenesis.filter fun e => e.getGenesisHash C = g).map
    fun e => e.header.height).insertionSort (· ≤ ·)

def sequenceHeight (g : CanonicalEnvelopeHash) (x : Task J × List ToSequence) (k : ℤ) :
    Except Panic (Task J × List ToSequence) :=
  match x.1.messageByGenesis.find? fun e => e.getGenesisHash C = g && e.header.height = k with
  | none => .error (.message "Must be present")
  | some e => .ok
      ({ x.1 with messageByGenesis := x.1.messageByGenesis.filter fun m =>
          ¬(m.getGenesisHash C = g ∧ m.header.height = k) },
        x.2 ++ [⟨e.header.height, C.canonicalizedHash e, e.getGenesisHash C⟩])

def sequenceGenesis (x : Task J × List ToSequence) (g : CanonicalEnvelopeHash) :
    Except Panic (Task J × List ToSequence) :=
  let first := x.1.nextHeightToSequence g
  if (x.1.heights C g).head? ≠ some first then .ok x
  else
    let next := scanKeys first (x.1.heights C g)
    (heightsFrom first next).foldlM (sequenceHeight C g)
      ({ x.1 with nextHeightToSequence := Function.update x.1.nextHeightToSequence g next }, x.2)

/-- One iteration up to the batch that it publishes, which is none when the batch is empty. -/
def iterate (ch : Choices C) (s : Store J) : Except Panic (Task J × List CanonicalEnvelopeHash) := do
  let t ← (t.fetch C oracle s).fileAll C oracle ch.order
  let (t, toSequence) ← (ch.genera t.messageByGenesis).foldlM (sequenceGenesis C) (t, [])
  pure (t, schedule ch.shuffle toSequence)

def recoverMessage (t : Task J) (m : CanonicalEnvelopeHash) : Except Panic (Task J) :=
  match t.allUnprocessedMessages.find? fun e => C.canonicalizedHash e = m with
  | none => .error (.message "Message was sequenced, but was not contained in database")
  | some msg =>
    let g := msg.getGenesisHash C
    .ok
      { t with
        allUnprocessedMessages := t.allUnprocessedMessages.filter fun e => C.canonicalizedHash e ≠ m
        nextHeightToSequence := Function.update t.nextHeightToSequence g
          (max (msg.header.height + 1) (t.nextHeightToSequence g)) }

/-- The task before its loop. -/
def recover (s : Store J) (alreadySequenced : List CanonicalEnvelopeHash) :
    Except Panic (Task J) :=
  alreadySequenced.foldlM (recoverMessage C) (initial.fetch C oracle s)

end Task

/-- How the messages of the host are written in the store. A batch of hashes of 32 bytes is read as it
was written. -/
structure BroadcastCodec (J : Type) where
  decode : J → Option (Channelized BroadcastByHost)
  encode : Channelized BroadcastByHost → J
  decode_encode : ∀ batch : List CanonicalEnvelopeHash, (∀ h ∈ batch, h.digest < 2 ^ 256) →
    decode (encode ⟨.sequence batch, "default"⟩) = some ⟨.sequence batch, "default"⟩

/-- The hashes that the host has sequenced, or nothing when its chain cannot be read. -/
def Store.alreadySequenced (K : BroadcastCodec J) (s : Store J) (oracle : XOnlyPublicKey) :
    Option (List CanonicalEnvelopeHash) := do
  let v ← (s.loadAllMessagesForUserByKeyConnected oracle).mapM fun r =>
    (K.decode r.body.msg).map fun msg => (⟨r.body.header, msg⟩ : Envelope _)
  match OfflineSequencer.tryFrom ⟨v, ([] : List (CanonicalEnvelopeHash × Envelope J))⟩ with
  | .ok sequencer => some sequencer.batchesToSequence.flatten
  | .error _ => none

/-- What a transaction that publishes a batch reads and chooses. -/
structure Publication (J : Type) where
  tip : Row J
  tips : List (XOnlyPublicKey × ℤ × CanonicalEnvelopeHash)
  secret : ℕ
  nextNonce : ℕ
  sentTimeMs : ℤ
  checkpoints : BitcoinCheckPoints
  now : ℤ

namespace Signer

variable (S : Signer C) (K : BroadcastCodec J)

/-- The envelope of a batch. -/
def batchEnvelope (p : Publication J) (batch : List CanonicalEnvelopeHash) : Envelope J :=
  S.signWith (S.wrapMessage (K.encode ⟨.sequence batch, "default"⟩) p.tips p.tip.body
    (S.getPublic p.nextNonce) p.sentTimeMs p.checkpoints) p.secret

/-- One round of `retry_insert_authenticated_envelope_atomic`, unless the envelope cannot be signed. -/
def publish (s : Store J) (p : Publication J) (batch : List CanonicalEnvelopeHash) :
    Option (Except SqliteFail Unit × Store J) :=
  ((S.batchEnvelope K p batch).authenticate C).map fun e =>
    s.tryInsertAuthenticatedEnvelope e true p.now

end Signer

/-- Where a task is: it has read the chain of the host, it is at the top of its loop, it is about to
publish a batch, or it has stopped, possibly with a panic. -/
inductive Phase
  | start
  | loaded (alreadySequenced : List CanonicalEnvelopeHash)
  | polling
  | publishing (batch : List CanonicalEnvelopeHash)
  | stopped (panic : Option Panic)
  deriving DecidableEq

/-- The database and the task. The batches that were published and the task after the last of them
are kept for comparison only. -/
structure Host (J : Type) where
  store : Store J
  phase : Phase
  task : Task J
  published : List (List CanonicalEnvelopeHash)
  saved : Task J

/-- The others sign with their own keys, and an envelope that has a hash has a canonical form. -/
def StoreOp.ByOthers (key : XOnlyPublicKey) (op : StoreOp C) : Prop :=
  ∀ e ∈ op.envelope, e.inner.header.key ≠ key ∧ e.inner.header.Safe

instance (key : XOnlyPublicKey) (op : StoreOp C) : Decidable (op.ByOthers key) :=
  inferInstanceAs (Decidable (∀ e ∈ op.envelope, _))

inductive HostEvent (C : Crypto J)
  | store (op : StoreOp C)
  | addMember (group : ℕ) (genesis : CanonicalEnvelopeHash)
  | iterate (ch : Choices C)
  | publish (p : Publication J)
  | crash
  | load
  | recover

namespace Host

variable [DecidableEq J] (S : Signer C) (K : BroadcastCodec J) (h : Host J)

/-- The loop of `retry_insert_authenticated_envelope_atomic` goes on when the parent of its envelope
has a child. -/
def afterPublish (batch : List CanonicalEnvelopeHash) :
    Option (Except SqliteFail Unit × Store J) → Host J
  | some (.ok (), store) =>
    { h with store, phase := .polling, published := h.published ++ [batch], saved := h.task }
  | some (.error .constraintUnique, _) => h
  | _ => { h with phase := .stopped none }

def afterIterate : Except Panic (Task J × List CanonicalEnvelopeHash) → Host J
  | .error p => { h with phase := .stopped (some p) }
  | .ok (t, batch) =>
    { h with task := t, phase := if batch = [] then .polling else .publishing batch }

def step : HostEvent C → Option (Host J)
  | .store op =>
    if op.ByOthers S.key then some { h with store := h.store.apply op } else none
  | .addMember group genesis =>
    some { h with store := h.store.addMemberToChainCommitGroup group genesis }
  | .iterate ch =>
    match h.phase with
    | .polling => some (h.afterIterate (h.task.iterate C S.key ch h.store))
    | _ => none
  | .publish p =>
    match h.phase with
    | .publishing batch =>
      if h.store.IsTip S.key p.tip then
        some (h.afterPublish batch (S.publish K h.store p batch))
      else none
    | _ => none
  | .crash => some { h with phase := .start }
  | .load =>
    match h.phase with
    | .start =>
      match h.store.alreadySequenced K S.key with
      | some already => some { h with phase := .loaded already }
      | none => some { h with phase := .stopped none }
    | _ => none
  | .recover =>
    match h.phase with
    | .loaded already =>
      match Task.recover C S.key h.store already with
      | .ok t => some { h with task := t, phase := .polling }
      | .error p => some { h with phase := .stopped (some p) }
    | _ => none

end Host

end

end JudicaVM
