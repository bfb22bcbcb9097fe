import JudicaVM.Attest.Plain
import JudicaVM.Host.Task
import Mathlib.Data.List.Enum

/-!
# The lobby of a new game

Players join a lobby with their genesis envelopes. The setup of the game authenticates them, stores
them and founds the chain of the host, with the players as the members of a new commit group.
-/

namespace JudicaVM

open Checked

/-- Sixteen random bytes. -/
structure JoinCode where
  bytes : ℕ
  deriving DecidableEq, Repr

def JoinCode.toHex (code : JoinCode) : String := hexText 32 code.bytes

inductive AddPlayerError
  | alreadySetup
  | noMorePlayers
  | notGenesisEnvelope
  | wrongFirstMessage
  deriving DecidableEq, Repr

def maxPlayers : ℕ := 10

/-- The canonical forms of what players and the host put into envelopes. -/
structure Serializers (Psbt J : Type) where
  action : ParticipantAction Psbt → J
  broadcast : Channelized BroadcastByHost → J

/-- The envelope as it is hashed and stored. -/
def Envelope.erase {M J : Type} (serialize : M → J) (e : Envelope M) : Envelope J :=
  ⟨e.header, serialize e.msg⟩

/-- A heartbeat, with any number and any time. -/
def ParticipantAction.isHeartbeat {Psbt : Type} : ParticipantAction Psbt → Bool
  | .moveEnvelope ⟨.heartbeat, _, _⟩ => true
  | _ => false

inductive GameStartingState (Psbt : Type)
  | addingPlayers (v : List (Envelope (ParticipantAction Psbt)))
  | waitingForSetup (v : List (Envelope (ParticipantAction Psbt)))
  | setup (v : List (Envelope (ParticipantAction Psbt))) (game : GameSetup)
  deriving DecidableEq

structure FinishArgs where
  passcode : JoinCode
  code : JoinCode
  startAmount : ℕ
  startAmount_lt : startAmount < 2 ^ 64 := by decide

section

variable {Psbt J : Type} (W : Serializers Psbt J) (C : Crypto J)

namespace GameStartingState

def addPlayer (p : Envelope (ParticipantAction Psbt)) (s : GameStartingState Psbt) :
    Except AddPlayerError (GameStartingState Psbt) :=
  if (p.erase W.action).getGenesisHash C ≠ C.canonicalizedHash (p.erase W.action) then
    .error .notGenesisEnvelope
  else if ¬p.msg.isHeartbeat then .error .wrongFirstMessage
  else match s with
    | .addingPlayers v =>
      if (v ++ [p]).length = maxPlayers then .ok (.waitingForSetup (v ++ [p]))
      else .ok (.addingPlayers (v ++ [p]))
    | .setup _ _ => .error .alreadySetup
    | .waitingForSetup _ => .error .noMorePlayers

def players : GameStartingState Psbt → List (Envelope (ParticipantAction Psbt))
  | .addingPlayers v => v
  | .waitingForSetup v => v
  | .setup v _ => v

/-- The game of some players, whose lobby was opened for a number of seconds. -/
def game (v : List (Envelope (ParticipantAction Psbt))) (duration : ℕ) (args : FinishArgs) :
    GameSetup where
  players := v.map fun i => i.header.key.toText
  startAmount := args.startAmount
  finishTime := duration * 1000 % 2 ^ 64
  startAmount_lt := args.startAmount_lt

/-- The lobby is set up, whatever becomes of its players. -/
def finalizeSetup (duration : ℕ) (args : FinishArgs) :
    GameStartingState Psbt → Except AddPlayerError (GameStartingState Psbt)
  | .addingPlayers v => .ok (.setup v (game v duration args))
  | .waitingForSetup v => .ok (.setup v (game v duration args))
  | .setup _ _ => .error .alreadySetup

end GameStartingState

/-- An allocated lobby. The serial number is what weak pointers refer to. -/
structure Metadata (Psbt : Type) where
  serial : ℕ
  state : GameStartingState Psbt
  code : JoinCode
  admin : JoinCode
  duration : ℕ

structure NewGameDB (Psbt : Type) where
  states : List (Metadata Psbt)
  byTime : List ℕ
  capacity : ℕ
  allocated : ℕ

namespace NewGameDB

variable (db : NewGameDB Psbt)

/-- The capacity is at least the one that is asked for. -/
def new (capacity : ℕ) : NewGameDB Psbt := ⟨[], [], capacity, 0⟩

def lobby? (code : JoinCode) : Option (Metadata Psbt) :=
  db.states.find? (·.code = code)

/-- Makes room for a lobby when the queue is full: the oldest one is dropped. -/
def evict : NewGameDB Psbt :=
  match db.byTime with
  | [] => db
  | oldest :: rest =>
    if db.capacity = db.byTime.length then
      { db with states := db.states.filter (·.serial ≠ oldest), byTime := rest }
    else db

/-- Opens a lobby. The join code and the passcode of its owner are random. -/
def addNewGame (duration : ℕ) (code admin : JoinCode) : NewGameDB Psbt :=
  { db.evict with
    states := db.evict.states.filter (·.code ≠ code) ++
      [⟨db.allocated, .addingPlayers [], code, admin, duration⟩]
    byTime := db.evict.byTime ++ [db.allocated]
    allocated := db.allocated + 1 }

def setState (code : JoinCode) (state : GameStartingState Psbt) : NewGameDB Psbt :=
  { db with states := db.states.map fun m => if m.code = code then { m with state } else m }

end NewGameDB

inductive LobbyRequest (Psbt : Type)
  | createNewGameInstance (durationMinutes : ℕ) (code admin : JoinCode)
  | addPlayer (code : JoinCode) (envelope : Envelope (ParticipantAction Psbt))

namespace NewGameDB

variable (db : NewGameDB Psbt)

/-- The route `/game/player/new`. A code without a lobby is answered with success. -/
def addPlayer (code : JoinCode) (envelope : Envelope (ParticipantAction Psbt)) :
    Except AddPlayerError Unit × NewGameDB Psbt :=
  match db.lobby? code with
  | none => (.ok (), db)
  | some v =>
    match v.state.addPlayer W C envelope with
    | .ok state => (.ok (), db.setState code state)
    | .error e => (.error e, db)

/-- The lobbies after a request. A duration of more than 300 minutes is refused. -/
def serve : LobbyRequest Psbt → NewGameDB Psbt
  | .createNewGameInstance minutes code admin =>
    if 300 < minutes then db else db.addNewGame (minutes * 60) code admin
  | .addPlayer code envelope => (db.addPlayer W C code envelope).2

def serveAll (requests : List (LobbyRequest Psbt)) : NewGameDB Psbt :=
  requests.foldl (fun db request => db.serve W C request) db

/-- Every player that asked to join the lobby of a code was answered with success. -/
def Welcomes (code : JoinCode) : List (LobbyRequest Psbt) → NewGameDB Psbt → Prop
  | [], _ => True
  | request :: requests, db =>
    (∀ envelope, request = .addPlayer code envelope →
      (db.addPlayer W C code envelope).1 = .ok ()) ∧
    Welcomes code requests (db.serve W C request)

end NewGameDB

end

/-- The messages and users with their groups, and the tables that only the host writes. -/
structure HostTables (J : Type) where
  store : Store J
  privateKeys : List (XOnlyPublicKey × ℕ)
  messageNonces : List (XOnlyPublicKey × PrecomittedPublicNonce × ℕ)
  chainCommitGroups : List (ℕ × String)

namespace HostTables

variable {J : Type} {C : Crypto J} (t : HostTables J)

def empty : HostTables J := ⟨.empty, [], [], []⟩

/-- Neither half of the pair is stored twice. -/
def saveKeypair (kp : KeyPair C) : Bool × HostTables J :=
  if kp.key ∈ t.privateKeys.map Prod.fst ∨ kp.secret ∈ t.privateKeys.map Prod.snd then (false, t)
  else (true, { t with privateKeys := t.privateKeys ++ [(kp.key, kp.secret)] })

def saveNonceForUserByKey (kp : KeyPair C) (nonce : ℕ) : Bool × HostTables J :=
  (true, { t with messageNonces := t.messageNonces ++ [(kp.key, kp.getPublic nonce, nonce)] })

/-- The user of a player is created, or known already, and the envelope is stored if it can be. -/
def insertUser (nickname : String) (e : Authenticated C) (now : ℤ) : Bool × HostTables J :=
  (true, { t with store := (t.store.insertUserByGenesisEnvelope nickname e now).2 })

/-- The genesis envelope of the host's chain must be stored. -/
def insertChain (nickname : String) (e : Authenticated C) (now : ℤ) : Bool × HostTables J :=
  let (result, store) := t.store.insertUserByGenesisEnvelope nickname e now
  (result.toBool, { t with store })

/-- The id of the next commit group. -/
def nextGroup : ℕ := t.chainCommitGroups.length + 1

def newChainCommitGroup (name : String) : Bool × HostTables J :=
  if name ∈ t.chainCommitGroups.map Prod.snd then (false, t)
  else (true, { t with chainCommitGroups := t.chainCommitGroups ++ [(t.nextGroup, name)] })

/-- The row that links a stored genesis to a group, if the table of links can take it. -/
def link (links : List (ℕ × ℕ)) (group : ℕ) (genesis : CanonicalEnvelopeHash) : Option (ℕ × ℕ) :=
  match t.store.idByHash genesis with
  | none => none
  | some i =>
    if group ∉ t.chainCommitGroups.map Prod.fst ∨ links.contains (group, i) then none
    else some (group, i)

def addMemberToChainCommitGroup (group : ℕ) (genesis : CanonicalEnvelopeHash) :
    Bool × HostTables J :=
  match t.link t.store.groupMembers group genesis with
  | none => (false, t)
  | some row =>
    (true, { t with store := { t.store with groupMembers := t.store.groupMembers ++ [row] } })

def addSubscriberToChainCommitGroup (group : ℕ) (genesis : CanonicalEnvelopeHash) :
    Bool × HostTables J :=
  match t.link t.store.groupSubscribers group genesis with
  | none => (false, t)
  | some row =>
    (true,
      { t with store := { t.store with groupSubscribers := t.store.groupSubscribers ++ [row] } })

end HostTables

/-- A statement or a transaction: whether it succeeds, and the tables after it. -/
abbrev Statement (J : Type) := HostTables J → Bool × HostTables J

/-- Runs statements until one fails. What was written before stays. -/
def HostTables.execute {J : Type} : List (Statement J) → Statement J
  | [], t => (true, t)
  | statement :: rest, t =>
    match statement t with
    | (true, t') => execute rest t'
    | (false, t') => (false, t')

inductive FinishError
  | noSuchGame
  | wrongPasscode
  | addPlayer (e : AddPlayerError)
  | unauthorized (e : AuthenticationError)
  | databaseError
  | chain
  | panicked (p : Panic)
  | funding (text : String)
  deriving DecidableEq, Repr

/-- The errors up to the creation of the chain. -/
def FinishError.isEarly : FinishError → Bool
  | .panicked _ => false
  | .funding _ => false
  | _ => true

structure CreatedNewChain where
  sequencerKey : XOnlyPublicKey
  genesisHash : CanonicalEnvelopeHash
  groupName : String
  deriving DecidableEq, Repr

/-- The statements of a setup that may fail for a reason of their own. -/
inductive SetupStatement
  | insertUser (i : ℕ)
  | saveKeypair
  | saveNonce
  | insertChain
  | newGroup
  | addSubscriber
  | addMember (i : ℕ)
  deriving DecidableEq, Repr

/-- What a setup takes from outside: random values, clocks, failures of the database, and the
compiler, the wallet and the event log that fund the contract. -/
structure SetupWorld {J : Type} (C : Crypto J) where
  keypair : KeyPair C
  nonce : ℕ
  nextNonce : ℕ
  sentTimeMs : ℤ
  groupName : String
  now : SetupStatement → ℤ
  fails : SetupStatement → Bool
  fund : GameSetup → CreatedNewChain → Except String Unit

section

variable {Psbt J : Type} (W : Serializers Psbt J) (C : Crypto J)

def Envelope.tryAuthenticate (e : Envelope J) : Except AuthenticationError (Authenticated C) :=
  match h : e.selfAuthenticate C with
  | .ok e' => .ok ⟨e', selfAuthenticate_of_ok h⟩
  | .error err => .error err

/-- The envelopes with their checks, or the error of the first one that is refused. -/
def authenticateAll : List (Envelope J) → Except AuthenticationError (List (Authenticated C))
  | [] => .ok []
  | e :: rest =>
    match e.tryAuthenticate C with
    | .error err => .error err
    | .ok authed =>
      match authenticateAll rest with
      | .error err => .error err
      | .ok restAuthed => .ok (authed :: restAuthed)

variable {C} (world : SetupWorld C)

/-- The envelope of `generate_new_user`. -/
def SetupWorld.generateNewUser (init : J) : Envelope J :=
  world.keypair.signWith
    { header :=
        { key := world.keypair.key
          nextNonce := world.keypair.getPublic world.nextNonce
          ancestors := none
          tips := []
          height := 0
          sentTimeMs := world.sentTimeMs
          unsigned := ⟨none⟩
          checkpoints := .default }
      msg := init } world.nonce

/-- A statement, unless the database fails. -/
def SetupWorld.attempt (name : SetupStatement) (statement : Statement J) : Statement J := fun t =>
  if world.fails name then (false, t) else statement t

/-- The statements that store the players from an index on. A player that cannot be stored is passed
over. -/
def SetupWorld.insertUsers (code : JoinCode) (authed : List (Authenticated C)) (i : ℕ) :
    List (Statement J) :=
  (authed.zipIdx i).map fun entry =>
    world.attempt (.insertUser entry.2) fun t =>
      t.insertUser (code.toHex ++ "::" ++ toString entry.2) entry.1
        (world.now (.insertUser entry.2))

/-- The statements that add the members from an index on. -/
def SetupWorld.addMembers (group : ℕ) (args : List CanonicalEnvelopeHash) (i : ℕ) :
    List (Statement J) :=
  (args.zipIdx i).map fun entry =>
    world.attempt (.addMember entry.2) (·.addMemberToChainCommitGroup group entry.1)

/-- The statements for a chain with an authenticated genesis, and for its group. -/
def SetupWorld.chainStatements (e : Authenticated C) (group : ℕ)
    (args : List CanonicalEnvelopeHash) : List (Statement J) :=
  [world.attempt .saveKeypair (·.saveKeypair world.keypair),
    world.attempt .saveNonce (·.saveNonceForUserByKey world.keypair world.nextNonce),
    world.attempt .insertChain
      (·.insertChain (hexText 64 (C.canonicalizedHash e.inner).digest) e (world.now .insertChain)),
    world.attempt .newGroup (·.newChainCommitGroup world.groupName),
    world.attempt .addSubscriber
      (·.addSubscriberToChainCommitGroup group (e.inner.getGenesisHash C))] ++
    world.addMembers group args 0

/-- The route `/attestation_chain/new`. -/
def createNewAttestationChain (args : List CanonicalEnvelopeHash) (setup : GameSetup)
    (t : HostTables J) : Except FinishError CreatedNewChain × HostTables J :=
  match (world.generateNewUser (W.broadcast ⟨.gameSetup setup, "default"⟩)).tryAuthenticate C with
  | .error _ => (.error .chain, t)
  | .ok e =>
    match HostTables.execute (world.chainStatements e t.nextGroup args) t with
    | (false, t') => (.error .chain, t')
    | (true, t') =>
      (.ok ⟨e.inner.header.key, e.inner.getGenesisHash C, world.groupName⟩, t')

/-- What follows the creation of the chain. The amount for each player is a quotient by their
number; the rest depends on services outside. -/
def SetupWorld.fundContract (setup : GameSetup) (chain : CreatedNewChain) :
    Except FinishError CreatedNewChain :=
  if setup.players.length = 0 then .error (.panicked .divisionByZero)
  else match world.fund setup chain with
    | .error text => .error (.funding text)
    | .ok () => .ok chain

/-- The setup of a lobby that has been moved to its final state. -/
def setUpGame (code : JoinCode) (envelopes : List (Envelope (ParticipantAction Psbt)))
    (gs : GameSetup) (t : HostTables J) : Except FinishError CreatedNewChain × HostTables J :=
  match authenticateAll C (envelopes.map (Envelope.erase W.action)) with
  | .error e => (.error (.unauthorized e), t)
  | .ok authed =>
    match HostTables.execute (world.insertUsers code authed 0) t with
    | (false, t') => (.error .databaseError, t')
    | (true, t') =>
      match createNewAttestationChain W world
          (envelopes.map fun m => C.canonicalizedHash (m.erase W.action)) gs t' with
      | (.error e, t'') => (.error e, t'')
      | (.ok chain, t'') => (world.fundContract gs chain, t'')

/-- The route `/game/finish`. -/
def NewGameDB.finishSetup (db : NewGameDB Psbt) (t : HostTables J) (args : FinishArgs) :
    Except FinishError CreatedNewChain × NewGameDB Psbt × HostTables J :=
  match db.lobby? args.code with
  | none => (.error .noSuchGame, db, t)
  | some v =>
    if args.passcode ≠ v.admin then (.error .wrongPasscode, db, t)
    else match v.state.finalizeSetup v.duration args with
      | .error e => (.error (.addPlayer e), db, t)
      | .ok state =>
        let db' := db.setState args.code state
        match state with
        | .setup envelopes gs =>
          let (result, t') := setUpGame W world args.code envelopes gs t
          (result, db', t')
        | _ => (.error (.addPlayer .alreadySetup), db', t)

end

end JudicaVM
