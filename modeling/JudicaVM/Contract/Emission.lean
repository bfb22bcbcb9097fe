import JudicaVM.Attest.Plain
import JudicaVM.Attest.Retrying
import JudicaVM.Contract.EventLog

/-!
# Emitted transactions

The litigator reads the keys in the database, signs the transactions of a contract with those that
the template names and posts each as a message of every key that has signed it. The event log keeps
it from posting one twice: an entry is inserted first, and committed when the message has been
stored. The messages are in another database, so that a crash between the two commits leaves a
message without an entry.
-/

namespace JudicaVM

open Serde Transition

section

variable {Psbt : Type}

structure AutBroadcastOptions where
  sign : Bool
  signAll : Bool
  send : Bool
  finalize : Bool

structure AutoBroadcast where
  signerRoles : List (XOnlyPublicKey × AutBroadcastOptions)

/-- What else is used of transactions. The secret keys sign in turn. -/
structure PsbtLibraries (Psbt : Type) extends Libraries Psbt where
  autoBroadcastFromJson : Json → Option AutoBroadcast
  signPsbt : List ℕ → Psbt → Option Psbt
  txid : Psbt → String
  psbtHash : Psbt → String

variable {C : Crypto (ParticipantAction Psbt)}

/-- What is posted by a task, for the group of a contract. -/
structure Emission (C : Crypto (ParticipantAction Psbt)) where
  group : ℕ
  keypair : KeyPair C
  signed : Psbt

/-- The arguments of `process_psbt_fail_ok`: the keys are those that `get_keymap` has read. -/
structure PsbtRequest (C : Crypto (ParticipantAction Psbt)) where
  group : ℕ
  keys : List (KeyPair C)
  psbt : String
  metadata : Option Json

variable (L : PsbtLibraries Psbt)

/-- The keys in the database that the template names, with their roles. -/
def extractKeysForSimp (metadata : Option Json) (keys : List (KeyPair C)) :
    Option (List (KeyPair C)) := do
  let json ← metadata
  let auto ← L.autoBroadcastFromJson json
  pure ((auto.signerRoles.filter fun role => role.2.sign && role.2.signAll).filterMap
    fun role => keys.find? (·.key = role.1))

/-- `process_psbt_fail_ok` up to its tasks: one for each key, unless nothing was signed. -/
def PsbtRequest.process [DecidableEq Psbt] (r : PsbtRequest C) : Option (List (Emission C)) := do
  let psbt ← L.psbtFromStr r.psbt
  let skeys ← extractKeysForSimp L r.metadata r.keys
  let signed ← L.signPsbt (skeys.map KeyPair.secret) psbt
  if signed = psbt then pure []
  else pure (skeys.map fun keypair => { group := r.group, keypair, signed })

/-- The request asks for the emission: its key was read, is named by the template as one that signs
everything, and the transaction has the signatures of all such keys. -/
structure PsbtRequest.AsksFor (r : PsbtRequest C) (e : Emission C) : Prop where
  group : e.group = r.group
  read : e.keypair ∈ r.keys
  named : ∃ json auto role, r.metadata = some json ∧ L.autoBroadcastFromJson json = some auto ∧
    (e.keypair.key, role) ∈ auto.signerRoles ∧ role.sign ∧ role.signAll
  signed : ∃ psbt skeys, L.psbtFromStr r.psbt = some psbt ∧
    extractKeysForSimp L r.metadata r.keys = some skeys ∧
    L.signPsbt (skeys.map KeyPair.secret) psbt = some e.signed ∧ e.signed ≠ psbt

namespace Emission

variable (e : Emission C)

/-- `Tag::ScopedValue("signed_psbt", ..)` as text -/
def tag : String :=
  "\x7b\"scoped_value\":[\"signed_psbt\",\"emit_by:" ++ e.keypair.key.toText ++ ":psbt_hash:" ++
    L.psbtHash e.signed ++ "\"]\x7d"

/-- `Event::EmittedPSBTVia` -/
def data : Json :=
  .obj [("EmittedPSBTVia",
    .arr [.str (L.psbtToString e.signed), .str e.keypair.key.toText])]

def occurrence (time : ℤ) : Occurrence where
  data := e.data L
  time
  typeid := litigatorEvent
  uniqueTag := some (e.tag L)

def message : ParticipantAction Psbt :=
  .psbtSigningCoordination { data := e.signed, channel := L.txid e.signed }

end Emission

/-- The two databases, the keys that each litigator has read, the tasks that have been spawned and
the one that has the connection to the event log, with whether its message has been stored. The
history says what has been requested and posted, and which of that had its entry rolled back. -/
structure Emissions (C : Crypto (ParticipantAction Psbt)) where
  log : EventLog
  db : NonceStore (ParticipantAction Psbt)
  keys : List (KeyPair C)
  keymaps : ℕ → List (KeyPair C)
  queue : List (Emission C)
  task : Option (Emission C × Bool)
  requests : List (PsbtRequest C)
  posted : List (Emission C)
  cut : List (Emission C)

inductive EmissionEvent (C : Crypto (ParticipantAction Psbt))
  | newGroup (id : ℕ) (key : String)
  /-- Another writer inserts into the event log. -/
  | write (group : ℕ) (o : Occurrence) (id : ℕ)
  /-- Another writer uses the database of the messages, and may save nonces. -/
  | other (op : StoreOp C) (nonces : List (PrecomittedPublicNonce × ℕ))
  | saveKeypair (keypair : KeyPair C)
  | getKeymap (i : ℕ)
  /-- A litigator calls `process_psbt_fail_ok` with the keys that it has read. -/
  | process (i group : ℕ) (psbt : String) (metadata : Option Json)
  /-- One of the tasks gets the connection to the event log. -/
  | begin (k : ℕ) (time : ℤ) (id : ℕ)
  /-- An iteration of `retry_insert_authenticated_envelope_atomic`. -/
  | attempt (c : Surroundings)
  | commit
  /-- The commit fails. -/
  | abort
  | crash

namespace Emissions

variable (query : ∀ K : KeyPair C, TipQuery (ParticipantAction Psbt) K.key) (w : Emissions C)

def initial (db : NonceStore (ParticipantAction Psbt)) : Emissions C where
  log := ⟨[], [], none⟩
  db := db
  keys := []
  keymaps _ := []
  queue := []
  task := none
  requests := []
  posted := []
  cut := []

/-- The transaction is dropped, and its entry is lost if the message has been stored. -/
def rollback : Emissions C :=
  { w with
    log := { w.log with txn := none }
    task := none
    cut := match w.task with
      | some (e, true) => w.cut ++ [e]
      | _ => w.cut }

def step [DecidableEq Psbt] (w : Emissions C) : EmissionEvent C → Option (Emissions C)
  | .newGroup id key =>
    if w.task.isNone ∧ id ∉ w.log.groups.map Prod.fst ∧ key ∉ w.log.groups.map Prod.snd then
      some { w with log := { w.log with groups := w.log.groups ++ [(id, key)] } }
    else none
  | .write group o id =>
    if w.task.isNone ∧ w.log.IsNextId id then
      some { w with log := (w.log.insertOccurrence group o id).2 }
    else none
  | .other op nonces => some { w with db := ⟨w.db.store.apply op, w.db.messageNonces ++ nonces⟩ }
  | .saveKeypair keypair =>
    if keypair.key ∈ w.keys.map fun K => K.key then some w
    else some { w with keys := w.keys ++ [keypair] }
  | .getKeymap i => some { w with keymaps := Function.update w.keymaps i w.keys }
  | .process i group psbt metadata =>
    let r : PsbtRequest C := ⟨group, w.keymaps i, psbt, metadata⟩
    match r.process L with
    | none => some w
    | some es => some { w with queue := w.queue ++ es, requests := w.requests ++ [r] }
  | .begin k time id =>
    match w.queue[k]? with
    | some e =>
      if w.task.isNone ∧ w.log.IsNextId id then
        match w.log.insertOccurrenceTxn e.group (e.occurrence L time) id with
        | (.ok _, log) => some { w with log, queue := w.queue.eraseIdx k, task := some (e, false) }
        | (.error _, _) => some { w with queue := w.queue.eraseIdx k }
      else none
    | none => none
  | .attempt c =>
    match w.task with
    | some (e, false) =>
      match retryInsert (participantAction L.toLibraries) e.keypair (query e.keypair) (e.message L)
          c w.db with
      | .inl db => some { w with db }
      | .inr (.inserted, db) =>
        some { w with db, task := some (e, true), posted := w.posted ++ [e] }
      | .inr (_, db) => some { w.rollback with db }
    | _ => none
  | .commit =>
    match w.task, w.log.txn with
    | some (_, true), some row =>
      some { w with
        log := { w.log with occurrences := w.log.occurrences ++ [row], txn := none }
        task := none }
    | _, _ => none
  | .abort => w.task.map fun _ => w.rollback
  | .crash => some { w.rollback with queue := [], keymaps := fun _ => [] }

/-- Other writers do not use the tags of emissions. -/
def Allowed : EmissionEvent C → Prop
  | .write _ o _ => ∀ e : Emission C, o.uniqueTag ≠ some (e.tag L)
  | _ => True

def Reaches [DecidableEq Psbt] : Emissions C → Emissions C → Prop :=
  Run (fun w ev w' => w.step L query ev = some w') (Allowed L)

/-- A call of `process_psbt_fail_ok` with keys of the database has asked for the emission. -/
def Requested (e : Emission C) : Prop :=
  ∃ r ∈ w.requests, r.keys ⊆ w.keys ∧ r.AsksFor L e

/-- Emissions that the event log does not tell from another one. -/
def alike (e e' : Emission C) : Bool :=
  e'.group = e.group && e'.tag L = e.tag L

/-- How often the event log has an entry for an emission. -/
def recorded (e : Emission C) : ℕ :=
  w.log.occurrences.countP fun r => r.group = e.group && r.occurrence.uniqueTag = some (e.tag L)

/-- One if the message is stored and its entry is not committed yet. -/
def pending (e : Emission C) : ℕ :=
  match w.task with
  | some (e', true) => if alike L e e' then 1 else 0
  | _ => 0

/-- The message of an emission is in the database, as a message of its key. -/
def Stored (e : Emission C) : Prop :=
  ∃ c ∈ w.db.store.contents, c.2.header.key = e.keypair.key ∧ c.2.msg = e.message L

end Emissions

variable {L} {e e' : Emission C} {w w' : Emissions C} {K : KeyPair C} {r : PsbtRequest C}
  {msg : ParticipantAction Psbt}

private theorem extractKeysForSimp_mem {metadata : Option Json} {keys skeys : List (KeyPair C)}
    (h : extractKeysForSimp L metadata keys = some skeys) (hK : K ∈ skeys) :
    K ∈ keys ∧ ∃ json auto role, metadata = some json ∧
      L.autoBroadcastFromJson json = some auto ∧ (K.key, role) ∈ auto.signerRoles ∧
      role.sign ∧ role.signAll := by
  simp only [extractKeysForSimp, Option.bind_eq_bind, Option.bind_eq_some_iff,
    Option.pure_def, Option.some.injEq] at h
  obtain ⟨json, hjson, auto, hauto, rfl⟩ := h
  obtain ⟨⟨key, role⟩, hrole, hfound⟩ := List.mem_filterMap.mp hK
  obtain ⟨hmem, hsigns⟩ := List.mem_filter.mp hrole
  simp only [Bool.and_eq_true] at hsigns
  have hkey : K.key = key := by simpa using List.find?_some hfound
  refine ⟨List.mem_of_find?_eq_some hfound, json, auto, role, hjson, hauto, ?_, hsigns⟩
  rw [hkey]
  exact hmem

private theorem PsbtRequest.process_asksFor [DecidableEq Psbt] {es : List (Emission C)}
    (h : r.process L = some es) (he : e ∈ es) : r.AsksFor L e := by
  simp only [PsbtRequest.process, Option.bind_eq_bind, Option.bind_eq_some_iff] at h
  obtain ⟨psbt, hpsbt, skeys, hskeys, signed, hsigned, hes⟩ := h
  split_ifs at hes with hsame
  · obtain rfl := Option.some.inj hes
    exact absurd he List.not_mem_nil
  · obtain rfl := Option.some.inj hes
    obtain ⟨K, hK, rfl⟩ := List.mem_map.mp he
    obtain ⟨hread, hnamed⟩ := extractKeysForSimp_mem hskeys hK
    exact ⟨rfl, hread, hnamed, psbt, skeys, hpsbt, hskeys, hsigned, hsame⟩

private theorem retryInsert_store (A : AttestEnvelopable (ParticipantAction Psbt)) (K : KeyPair C)
    (tips : TipQuery (ParticipantAction Psbt) K.key) (msg : ParticipantAction Psbt)
    (c : Surroundings) (db : NonceStore (ParticipantAction Psbt)) :
    (∃ db', retryInsert A K tips msg c db = .inl db' ∧ db'.store = db.store) ∨
      ∃ leaving db', retryInsert A K tips msg c db = .inr (leaving, db') ∧
        Leaves K msg db.store db'.store leaving := by
  unfold retryInsert
  cases tips.tip db.store with
  | none => exact .inr ⟨.failed, db, rfl, rfl⟩
  | some tip =>
    dsimp only
    cases db.messageNonces.find? (·.1 = tip.body.header.nextNonce) with
    | none => exact .inr ⟨.failed, db, rfl, rfl⟩
    | some row =>
      dsimp only
      generalize (K.wrapMessage msg c.tips tip.body (K.getPublic c.nextNonce) c.sentTimeMs
        c.checkpoints).encode A = json
      cases json.toCanonical with
      | none => exact .inr ⟨.panicked, _, rfl, rfl⟩
      | some _ =>
        dsimp only
        cases hwrapped : Envelope.authenticate C (K.signWith (K.wrapMessage msg c.tips tip.body
            (K.getPublic c.nextNonce) c.sentTimeMs c.checkpoints) row.2) with
        | none => exact .inr ⟨.failed, _, rfl, rfl⟩
        | some wrapped =>
          have hinner := Writers.authenticate_eq hwrapped
          have hancestors : wrapped.inner.header.ancestors.isSome := by
            rw [hinner]
            rfl
          have hinsert := Writers.tryInsert_reuseSafe (s := db.store) c.now hancestors
          dsimp only
          generalize db.store.tryInsertAuthenticatedEnvelope wrapped true c.now = inserted
            at hinsert ⊢
          obtain ⟨result, s'⟩ := inserted
          obtain ⟨err, rfl, rfl⟩ | ⟨rfl, hcontents, -⟩ := hinsert
          · cases err with
            | constraintUnique => exact .inl ⟨_, rfl, rfl⟩
            | constraintCheck => exact .inr ⟨.failed, _, rfl, rfl⟩
            | constraintNotNull => exact .inr ⟨.failed, _, rfl, rfl⟩
          · refine .inr ⟨.inserted, _, rfl, wrapped, hcontents, ?_, ?_⟩
            · rw [hinner]
              rfl
            · rw [hinner]
              rfl

private theorem Leaves.grows {s s' : Store (ParticipantAction Psbt)} {leaving : Leaving}
    (h : Leaves K msg s s' leaving) : s.contents <+: s'.contents := by
  cases leaving with
  | inserted =>
    obtain ⟨wrapped, hcontents, -⟩ := h
    rw [hcontents]
    exact List.prefix_append _ _
  | failed => rw [show s' = s from h]
  | panicked => rw [show s' = s from h]

variable [DecidableEq Psbt] {query : ∀ K : KeyPair C, TipQuery (ParticipantAction Psbt) K.key}
  {ev : EmissionEvent C} {l : EventLog}

namespace Emissions

/-- What an event does. -/
inductive Moves (L : PsbtLibraries Psbt) (w : Emissions C) : Emissions C → Prop
  | kept (db : NonceStore (ParticipantAction Psbt))
      (grows : w.db.store.contents <+: db.store.contents) : Moves L w { w with db }
  | written (log : EventLog) (rows : List OccurrenceRow) (idle : w.task = none)
      (ordered : w.log.Ordered → w.log.txn = none → log.Ordered ∧ log.txn = none)
      (grows : log.occurrences = w.log.occurrences ++ rows)
      (foreign : ∀ r ∈ rows, ∀ e : Emission C, r.occurrence.uniqueTag ≠ some (e.tag L)) :
      Moves L w { w with log }
  | saved (keys : List (KeyPair C)) : Moves L w { w with keys := w.keys ++ keys }
  | read (i : ℕ) : Moves L w { w with keymaps := Function.update w.keymaps i w.keys }
  | requested (i : ℕ) (r : PsbtRequest C) (es : List (Emission C)) (read : r.keys = w.keymaps i)
      (asks : ∀ e ∈ es, r.AsksFor L e) :
      Moves L w { w with queue := w.queue ++ es, requests := w.requests ++ [r] }
  | skipped (k : ℕ) : Moves L w { w with queue := w.queue.eraseIdx k }
  | opened (e : Emission C) (k : ℕ) (time : ℤ) (id : ℕ) (idle : w.task = none)
      (queued : e ∈ w.queue) (next : w.log.IsNextId id)
      (new : ¬w.log.hasTag e.group (some (e.tag L))) :
      Moves L w { w with
        log := ⟨w.log.groups, w.log.occurrences, some ⟨id, e.occurrence L time, e.group⟩⟩
        queue := w.queue.eraseIdx k
        task := some (e, false) }
  | posted (e : Emission C) (db : NonceStore (ParticipantAction Psbt))
      (task : w.task = some (e, false)) (grows : w.db.store.contents <+: db.store.contents)
      (stored : ∃ c ∈ db.store.contents, c.2.header.key = e.keypair.key ∧ c.2.msg = e.message L) :
      Moves L w { w with db, task := some (e, true), posted := w.posted ++ [e] }
  | committed (e : Emission C) (row : OccurrenceRow) (task : w.task = some (e, true))
      (txn : w.log.txn = some row) :
      Moves L w { w with
        log := ⟨w.log.groups, w.log.occurrences ++ [row], none⟩
        task := none }
  | dropped (db : NonceStore (ParticipantAction Psbt))
      (grows : w.db.store.contents <+: db.store.contents) : Moves L w { w.rollback with db }
  | crashed : Moves L w { w.rollback with queue := [], keymaps := fun _ => [] }

private theorem write_moves {group id : ℕ} {o : Occurrence}
    (h : w.step L query (.write group o id) = some w')
    (hforeign : ∀ e : Emission C, o.uniqueTag ≠ some (e.tag L)) : w.Moves L w' := by
  simp only [step] at h
  split_ifs at h with hguard
  obtain rfl := Option.some.inj h
  have hidle := Option.isNone_iff_eq_none.mp hguard.1
  obtain hsame | ⟨htag, hstored⟩ : (w.log.insertOccurrence group o id).2 = w.log ∨ _ :=
    EventLog.insertOccurrence_cases
  · rw [hsame]
    exact .written _ [] hidle (fun hl htxn => ⟨hl, htxn⟩) (List.append_nil _).symm
      fun r hr => absurd hr List.not_mem_nil
  · rw [hstored]
    refine .written _ [⟨id, o, group⟩] hidle ?_ rfl ?_
    · intro hl htxn
      rw [htxn]
      exact ⟨hl.snoc hguard.2 htag, rfl⟩
    · intro r hr
      rw [List.mem_singleton.mp hr]
      exact hforeign

private theorem process_moves {i group : ℕ} {psbt : String} {metadata : Option Json}
    (h : w.step L query (.process i group psbt metadata) = some w') : w.Moves L w' := by
  simp only [step] at h
  split at h
  next hprocess =>
    obtain rfl := Option.some.inj h
    exact .kept w.db List.prefix_rfl
  next es hprocess =>
    obtain rfl := Option.some.inj h
    exact .requested i _ es rfl fun e he => PsbtRequest.process_asksFor hprocess he

private theorem begin_moves {k id : ℕ} {time : ℤ}
    (h : w.step L query (.begin k time id) = some w') : w.Moves L w' := by
  simp only [step] at h
  split at h
  next e hk =>
    split_ifs at h with hguard
    have hidle := Option.isNone_iff_eq_none.mp hguard.1
    unfold EventLog.insertOccurrenceTxn at h
    cases hnew : w.log.newOccurrence e.group (e.occurrence L time) id with
    | error err =>
      rw [hnew] at h
      obtain rfl := Option.some.inj h
      exact .skipped k
    | ok row =>
      rw [hnew] at h
      obtain rfl := Option.some.inj h
      obtain ⟨rfl, htag⟩ := EventLog.newOccurrence_eq_ok hnew
      exact .opened e k time id hidle (List.mem_of_getElem? hk) hguard.2 htag
  next => cases h

private theorem attempt_moves {c : Surroundings} (h : w.step L query (.attempt c) = some w') :
    w.Moves L w' := by
  simp only [step] at h
  split at h
  next e htask =>
    obtain ⟨db', hround, hstore⟩ | ⟨leaving, db', hround, hleaves⟩ :=
      retryInsert_store (participantAction L.toLibraries) e.keypair (query e.keypair)
        (e.message L) c w.db
    · rw [hround] at h
      obtain rfl := Option.some.inj h
      exact .kept db' (hstore ▸ List.prefix_rfl)
    · rw [hround] at h
      have hgrows := hleaves.grows
      cases leaving with
      | inserted =>
        obtain rfl := Option.some.inj h
        obtain ⟨wrapped, hcontents, hkey, hmsg⟩ := hleaves
        refine .posted e db' htask hgrows ⟨wrapped.entry, ?_, hkey, hmsg⟩
        rw [hcontents]
        exact List.mem_append_right _ (List.mem_singleton_self _)
      | failed =>
        obtain rfl := Option.some.inj h
        exact .dropped db' hgrows
      | panicked =>
        obtain rfl := Option.some.inj h
        exact .dropped db' hgrows
  next => cases h

private theorem step_moves (h : w.step L query ev = some w') (hallowed : Allowed L ev) :
    w.Moves L w' := by
  cases ev with
  | newGroup id key =>
    simp only [step] at h
    split_ifs at h with hguard
    obtain rfl := Option.some.inj h
    refine .written _ [] (Option.isNone_iff_eq_none.mp hguard.1) ?_ (List.append_nil _).symm ?_
    · exact fun hl htxn => ⟨⟨hl.sorted, hl.positive, hl.tags, hl.txn⟩, htxn⟩
    · exact fun r hr => absurd hr List.not_mem_nil
  | write group o id => exact write_moves h hallowed
  | other op nonces =>
    obtain rfl := Option.some.inj h
    exact .kept _ (Store.prefix_apply op)
  | saveKeypair keypair =>
    simp only [step] at h
    split_ifs at h
    · obtain rfl := Option.some.inj h
      exact .kept w.db List.prefix_rfl
    · obtain rfl := Option.some.inj h
      exact .saved [keypair]
  | getKeymap i =>
    obtain rfl := Option.some.inj h
    exact .read i
  | process i group psbt metadata => exact process_moves h
  | begin k time id => exact begin_moves h
  | attempt c => exact attempt_moves h
  | commit =>
    simp only [step] at h
    split at h
    next e row htask htxn =>
      obtain rfl := Option.some.inj h
      exact .committed e row htask htxn
    next => cases h
  | abort =>
    simp only [step, Option.map_eq_some_iff] at h
    obtain ⟨-, -, rfl⟩ := h
    exact .dropped w.db List.prefix_rfl
  | crash =>
    obtain rfl := Option.some.inj h
    exact .crashed

/-- Whatever is queued, under way or posted was requested, with keys of the database. -/
structure Asked (L : PsbtLibraries Psbt) (w : Emissions C) : Prop where
  keymaps : ∀ i, w.keymaps i ⊆ w.keys
  queue : ∀ e ∈ w.queue, w.Requested L e
  task : ∀ e stored, w.task = some (e, stored) → w.Requested L e
  posted : ∀ e ∈ w.posted, w.Requested L e

omit [DecidableEq Psbt] in
private theorem Requested.mono (h : w.Requested L e) (hrequests : w.requests ⊆ w'.requests)
    (hkeys : w.keys ⊆ w'.keys) : w'.Requested L e := by
  obtain ⟨r, hr, hread, hasks⟩ := h
  exact ⟨r, hrequests hr, List.Subset.trans hread hkeys, hasks⟩

omit [DecidableEq Psbt] in
private theorem initial_asked (db : NonceStore (ParticipantAction Psbt)) :
    (initial db : Emissions C).Asked L where
  keymaps _ := List.nil_subset _
  queue := by simp [initial]
  task := by simp [initial]
  posted := by simp [initial]

omit [DecidableEq Psbt] in
private theorem Asked.request (h : w.Asked L) {es : List (Emission C)} {i : ℕ}
    (hread : r.keys = w.keymaps i) (hasks : ∀ e ∈ es, r.AsksFor L e) :
    Asked L { w with queue := w.queue ++ es, requests := w.requests ++ [r] } := by
  have hmono : ∀ e, w.Requested L e → Requested L
      { w with queue := w.queue ++ es, requests := w.requests ++ [r] } e :=
    fun e he => he.mono (List.subset_append_left _ _) (List.Subset.refl _)
  refine ⟨h.keymaps, ?_, fun e stored he => hmono e (h.task e stored he),
    fun e he => hmono e (h.posted e he)⟩
  intro e he
  obtain hold | hnew := List.mem_append.mp he
  · exact hmono e (h.queue e hold)
  · refine ⟨r, List.mem_append_right _ (List.mem_singleton_self r), ?_, hasks e hnew⟩
    rw [hread]
    exact h.keymaps i

omit [DecidableEq Psbt] in
private theorem Asked.step (h : w.Asked L) (hmoves : w.Moves L w') : w'.Asked L := by
  cases hmoves with
  | kept db grows => exact ⟨h.keymaps, h.queue, h.task, h.posted⟩
  | written log rows idle ordered grows foreign => exact ⟨h.keymaps, h.queue, h.task, h.posted⟩
  | saved keys =>
    have hmono : ∀ e, w.Requested L e → Requested L { w with keys := w.keys ++ keys } e :=
      fun e he => he.mono (List.Subset.refl _) (List.subset_append_left _ _)
    exact ⟨fun i => List.Subset.trans (h.keymaps i) (List.subset_append_left _ _),
      fun e he => hmono e (h.queue e he), fun e stored he => hmono e (h.task e stored he),
      fun e he => hmono e (h.posted e he)⟩
  | read i =>
    refine ⟨fun j => ?_, h.queue, h.task, h.posted⟩
    by_cases hj : j = i
    · subst hj
      simp
    · simp only [Function.update_of_ne hj]
      exact h.keymaps j
  | requested i r es read asks => exact h.request read asks
  | skipped k =>
    exact ⟨h.keymaps, fun e he => h.queue e (List.mem_of_mem_eraseIdx he), h.task, h.posted⟩
  | opened e k time id idle queued next new =>
    refine ⟨h.keymaps, fun e he => h.queue e (List.mem_of_mem_eraseIdx he), ?_, h.posted⟩
    intro e' stored htask
    obtain ⟨rfl, -⟩ := Prod.mk.inj (Option.some.inj htask)
    exact h.queue e queued
  | posted e db task grows stored =>
    refine ⟨h.keymaps, h.queue, ?_, ?_⟩
    · intro e' stored htask
      obtain ⟨rfl, -⟩ := Prod.mk.inj (Option.some.inj htask)
      exact h.task e false task
    · intro e' he'
      obtain hold | hnew := List.mem_append.mp he'
      · exact h.posted e' hold
      · rw [List.mem_singleton.mp hnew]
        exact h.task e false task
  | committed e row task txn => exact ⟨h.keymaps, h.queue, nofun, h.posted⟩
  | dropped db grows => exact ⟨h.keymaps, h.queue, nofun, h.posted⟩
  | crashed => exact ⟨fun _ => List.nil_subset _, nofun, nofun, h.posted⟩

/-- The transaction that is open is that of the task. -/
def Holds (L : PsbtLibraries Psbt) (w : Emissions C) : Prop :=
  match w.task with
  | none => w.log.txn = none
  | some (e, stored) => (stored → e ∈ w.posted) ∧
      ∃ id time, w.log.txn = some ⟨id, e.occurrence L time, e.group⟩

/-- Everything that was posted has its entry, has lost it or is about to get it. -/
structure Inv (L : PsbtLibraries Psbt) (w : Emissions C) : Prop where
  ordered : w.log.Ordered
  holds : w.Holds L
  stored : ∀ e ∈ w.posted, w.Stored L e
  entries : ∀ r ∈ w.log.occurrences, ∀ e : Emission C,
    r.occurrence.uniqueTag = some (e.tag L) → ∃ e' ∈ w.posted, ∃ time, r.group = e'.group ∧
      r.occurrence = e'.occurrence L time
  accounted : ∀ e, w.posted.countP (alike L e) =
    w.recorded L e + w.cut.countP (alike L e) + w.pending L e

omit [DecidableEq Psbt] in
private theorem Stored.grow (h : w.Stored L e)
    (hgrows : w.db.store.contents <+: w'.db.store.contents) : w'.Stored L e := by
  obtain ⟨c, hc, hkey, hmsg⟩ := h
  exact ⟨c, hgrows.subset hc, hkey, hmsg⟩

omit [DecidableEq Psbt] in
private theorem initial_inv (db : NonceStore (ParticipantAction Psbt)) :
    (initial db : Emissions C).Inv L where
  ordered := ⟨.nil, by simp [initial], .nil, by simp [initial]⟩
  holds := rfl
  stored := by simp [initial]
  entries := by simp [initial]
  accounted _ := rfl

omit [DecidableEq Psbt] in
private theorem countP_foreign {rows : List OccurrenceRow}
    (hforeign : ∀ r ∈ rows, ∀ e : Emission C, r.occurrence.uniqueTag ≠ some (e.tag L)) :
    rows.countP (fun r => r.group = e.group && r.occurrence.uniqueTag = some (e.tag L)) = 0 := by
  apply List.countP_eq_zero.mpr
  intro r hr hcount
  simp only [Bool.and_eq_true, decide_eq_true_eq] at hcount
  exact hforeign r hr e hcount.2

omit [DecidableEq Psbt] in
private theorem countP_entry (e e' : Emission C) (id : ℕ) (time : ℤ) :
    [(⟨id, e'.occurrence L time, e'.group⟩ : OccurrenceRow)].countP
        (fun r => r.group = e.group && r.occurrence.uniqueTag = some (e.tag L)) =
      [e'].countP (alike L e) := by
  simp [List.countP_singleton, alike, Emission.occurrence]

omit [DecidableEq Psbt] in
private theorem Inv.grow (h : w.Inv L) {db : NonceStore (ParticipantAction Psbt)}
    (hgrows : w.db.store.contents <+: db.store.contents) : Inv L { w with db } where
  ordered := h.ordered
  holds := h.holds
  stored e he := (h.stored e he).grow hgrows
  entries := h.entries
  accounted := h.accounted

omit [DecidableEq Psbt] in
private theorem Inv.write (h : w.Inv L) {log : EventLog} {rows : List OccurrenceRow}
    (hidle : w.task = none)
    (hordered : w.log.Ordered → w.log.txn = none → log.Ordered ∧ log.txn = none)
    (hgrows : log.occurrences = w.log.occurrences ++ rows)
    (hforeign : ∀ r ∈ rows, ∀ e : Emission C, r.occurrence.uniqueTag ≠ some (e.tag L)) :
    Inv L { w with log } := by
  have hholds := h.holds
  unfold Holds at hholds
  rw [hidle] at hholds
  obtain ⟨hlog, htxn⟩ := hordered h.ordered hholds
  constructor
  · exact hlog
  · unfold Holds
    rw [hidle]
    exact htxn
  · exact h.stored
  · intro r hr e he
    rw [hgrows] at hr
    obtain hold | hnew := List.mem_append.mp hr
    · exact h.entries r hold e he
    · exact absurd he (hforeign r hnew e)
  · intro e
    have hsame := h.accounted e
    rw [recorded, hgrows, List.countP_append, countP_foreign hforeign, Nat.add_zero]
    exact hsame

omit [DecidableEq Psbt] in
private theorem Inv.open (h : w.Inv L) {queue : List (Emission C)} {time : ℤ} {id : ℕ}
    (hidle : w.task = none) (hnext : w.log.IsNextId id)
    (hnew : ¬w.log.hasTag e.group (some (e.tag L))) :
    Inv L { w with
      log := ⟨w.log.groups, w.log.occurrences, some ⟨id, e.occurrence L time, e.group⟩⟩
      queue
      task := some (e, false) } := by
  constructor
  · refine ⟨h.ordered.sorted, h.ordered.positive, h.ordered.tags, ?_⟩
    intro row hrow
    obtain rfl := Option.some.inj hrow
    exact ⟨hnext, hnew⟩
  · exact ⟨nofun, id, time, rfl⟩
  · exact h.stored
  · exact h.entries
  · intro e'
    have hsame := h.accounted e'
    rw [pending, hidle] at hsame
    exact hsame

omit [DecidableEq Psbt] in
private theorem Inv.post (h : w.Inv L) {db : NonceStore (ParticipantAction Psbt)}
    (htask : w.task = some (e, false)) (hgrows : w.db.store.contents <+: db.store.contents)
    (hstored : ∃ c ∈ db.store.contents, c.2.header.key = e.keypair.key ∧
      c.2.msg = e.message L) :
    Inv L { w with db, task := some (e, true), posted := w.posted ++ [e] } := by
  have hholds := h.holds
  unfold Holds at hholds
  rw [htask] at hholds
  obtain ⟨-, id, time, htxn⟩ := hholds
  constructor
  · exact h.ordered
  · exact ⟨fun _ => List.mem_append_right _ (List.mem_singleton_self e), id, time, htxn⟩
  · intro e' he'
    obtain hold | hnew := List.mem_append.mp he'
    · exact (h.stored e' hold).grow hgrows
    · rw [List.mem_singleton.mp hnew]
      exact hstored
  · intro r hr e' he'
    obtain ⟨e'', he'', hentry⟩ := h.entries r hr e' he'
    exact ⟨e'', List.mem_append_left _ he'', hentry⟩
  · intro e'
    have hsame := h.accounted e'
    rw [pending, htask] at hsame
    show (w.posted ++ [e]).countP (alike L e') = w.recorded L e' + w.cut.countP (alike L e') +
      if alike L e' e then 1 else 0
    rw [List.countP_append, hsame, List.countP_singleton, Nat.add_zero]

omit [DecidableEq Psbt] in
private theorem Inv.accounted_open (h : w.Inv L) (htask : w.task = some (e, true))
    (e' : Emission C) : w.posted.countP (alike L e') = w.recorded L e' +
      w.cut.countP (alike L e') + if alike L e' e then 1 else 0 := by
  have hsame := h.accounted e'
  rwa [pending, htask] at hsame

omit [DecidableEq Psbt] in
private theorem Inv.commit (h : w.Inv L) {row : OccurrenceRow} (htask : w.task = some (e, true))
    (htxn : w.log.txn = some row) :
    Inv L { w with
      log := ⟨w.log.groups, w.log.occurrences ++ [row], none⟩
      task := none } := by
  have hholds := h.holds
  unfold Holds at hholds
  rw [htask] at hholds
  obtain ⟨hposted, id, time, hopen⟩ := hholds
  obtain rfl := Option.some.inj (htxn.symm.trans hopen)
  obtain ⟨hid, htag⟩ := h.ordered.txn _ htxn
  constructor
  · exact h.ordered.snoc hid htag
  · rfl
  · exact h.stored
  · intro r hr e' he'
    obtain hold | hnew := List.mem_append.mp hr
    · exact h.entries r hold e' he'
    · rw [List.mem_singleton.mp hnew]
      exact ⟨e, hposted rfl, time, rfl, rfl⟩
  · intro e'
    have hsame := h.accounted_open htask e'
    have hentry := countP_entry (L := L) e' e id time
    show w.posted.countP (alike L e') = (w.log.occurrences ++ [_]).countP _ +
      w.cut.countP (alike L e') + 0
    rw [List.countP_append, hentry, List.countP_singleton, hsame, recorded]
    omega

omit [DecidableEq Psbt] in
private theorem Inv.rollback (h : w.Inv L) : w.rollback.Inv L := by
  have hordered : EventLog.Ordered { w.log with txn := none } :=
    ⟨h.ordered.sorted, h.ordered.positive, h.ordered.tags, nofun⟩
  refine ⟨hordered, rfl, h.stored, h.entries, fun e' => ?_⟩
  have hsame := h.accounted e'
  show w.posted.countP (alike L e') = w.recorded L e' + w.rollback.cut.countP (alike L e') + 0
  unfold pending at hsame
  unfold Emissions.rollback
  cases htask : w.task with
  | none =>
    rw [htask] at hsame
    exact hsame
  | some task =>
    obtain ⟨e, stored⟩ := task
    rw [htask] at hsame
    cases stored with
    | false => exact hsame
    | true =>
      dsimp only at hsame ⊢
      rw [List.countP_append, List.countP_singleton, hsame]
      omega

omit [DecidableEq Psbt] in
private theorem Inv.of_same (h : w.Inv L) (hlog : w'.log = w.log) (hdb : w'.db = w.db)
    (htask : w'.task = w.task) (hposted : w'.posted = w.posted) (hcut : w'.cut = w.cut) :
    w'.Inv L := by
  obtain ⟨log, db, keys, keymaps, queue, task, requests, posted, cut⟩ := w'
  obtain rfl : log = w.log := hlog
  obtain rfl : db = w.db := hdb
  obtain rfl : task = w.task := htask
  obtain rfl : posted = w.posted := hposted
  obtain rfl : cut = w.cut := hcut
  exact ⟨h.ordered, h.holds, h.stored, h.entries, h.accounted⟩

omit [DecidableEq Psbt] in
private theorem Inv.step (h : w.Inv L) (hmoves : w.Moves L w') : w'.Inv L := by
  cases hmoves with
  | kept db grows => exact h.grow grows
  | written log rows idle ordered grows foreign => exact h.write idle ordered grows foreign
  | saved keys => exact h.of_same rfl rfl rfl rfl rfl
  | read i => exact h.of_same rfl rfl rfl rfl rfl
  | requested i r es read asks => exact h.of_same rfl rfl rfl rfl rfl
  | skipped k => exact h.of_same rfl rfl rfl rfl rfl
  | opened e k time id idle queued next new => exact h.open idle next new
  | posted e db task grows stored => exact h.post task grows stored
  | committed e row task txn => exact h.commit task txn
  | dropped db grows => exact h.rollback.grow grows
  | crashed => exact h.rollback.of_same rfl rfl rfl rfl rfl

private theorem countP_le_one {α : Type} {p : α → Bool} {l : List α}
    (h : l.Pairwise fun a b => p a → p b = false) : l.countP p ≤ 1 := by
  induction l with
  | nil => exact Nat.zero_le 1
  | cons a l ih =>
    obtain ⟨hfirst, hrest⟩ := List.pairwise_cons.mp h
    by_cases ha : p a
    · have hnone : l.countP p = 0 := by
        apply List.countP_eq_zero.mpr
        intro b hb
        rw [hfirst b hb ha]
        exact Bool.false_ne_true
      rw [List.countP_cons_of_pos ha, hnone]
    · rw [List.countP_cons_of_neg ha]
      exact ih hrest

omit [DecidableEq Psbt] in
private theorem recorded_pos_iff :
    0 < w.recorded L e ↔ w.log.hasTag e.group (some (e.tag L)) := by
  rw [recorded, List.countP_pos_iff]
  simp [EventLog.hasTag]

omit [DecidableEq Psbt] in
private theorem Inv.recorded_le_one (h : w.Inv L) : w.recorded L e ≤ 1 := by
  apply countP_le_one
  apply h.ordered.tags.imp
  intro a b hab ha
  simp only [Bool.and_eq_true, decide_eq_true_eq] at ha
  rw [Bool.eq_false_iff]
  intro hb
  simp only [Bool.and_eq_true, decide_eq_true_eq] at hb
  have hnone := hab (ha.1.trans hb.1.symm) (ha.2.trans hb.2.symm)
  rw [ha.2] at hnone
  cases hnone

omit [DecidableEq Psbt] in
private theorem Inv.not_alike (h : w.Inv L) {stored : Bool} (htask : w.task = some (e', stored))
    (hrecorded : 0 < w.recorded L e) : ¬alike L e e' := by
  have hholds := h.holds
  unfold Holds at hholds
  rw [htask] at hholds
  obtain ⟨-, id, time, htxn⟩ := hholds
  intro halike
  simp only [alike, Bool.and_eq_true, decide_eq_true_eq] at halike
  apply (h.ordered.txn _ htxn).2
  show w.log.hasTag e'.group (some (e'.tag L))
  rw [halike.1, halike.2]
  exact recorded_pos_iff.mp hrecorded

omit [DecidableEq Psbt] in
private theorem Inv.once (h : w.Inv L) : w.recorded L e + w.pending L e ≤ 1 := by
  have hone := h.recorded_le_one (e := e)
  unfold pending
  split
  next e' htask =>
    split_ifs with halike
    · have hnone : w.recorded L e = 0 := by
        by_contra hne
        exact h.not_alike htask (Nat.pos_of_ne_zero hne) halike
      omega
    · omega
  next => omega

omit [DecidableEq Psbt] in
private theorem Inv.final (h : w.Inv L) (hmoves : w.Moves L w') (hrecorded : 0 < w.recorded L e) :
    0 < w'.recorded L e ∧ w'.posted.countP (alike L e) = w.posted.countP (alike L e) := by
  cases hmoves with
  | written log rows idle ordered grows foreign =>
    refine ⟨?_, rfl⟩
    rw [recorded, grows, List.countP_append]
    exact Nat.lt_of_lt_of_le hrecorded (Nat.le_add_right _ _)
  | posted e' db task grows stored =>
    refine ⟨hrecorded, ?_⟩
    show (w.posted ++ [e']).countP (alike L e) = _
    rw [List.countP_append, List.countP_singleton, if_neg (h.not_alike task hrecorded),
      Nat.add_zero]
  | committed e' row task txn =>
    refine ⟨?_, rfl⟩
    show 0 < (w.log.occurrences ++ [row]).countP _
    rw [List.countP_append]
    exact Nat.lt_of_lt_of_le hrecorded (Nat.le_add_right _ _)
  | _ => exact ⟨hrecorded, rfl⟩

private theorem Reaches.asked (h : Reaches L query w w') (hw : w.Asked L) : w'.Asked L := by
  apply Run.invariant _ h hw
  intro s ev s' hallowed hs hstep
  exact hs.step (step_moves hstep hallowed)

private theorem Reaches.inv (h : Reaches L query w w') (hw : w.Inv L) : w'.Inv L := by
  apply Run.invariant _ h hw
  intro s ev s' hallowed hs hstep
  exact hs.step (step_moves hstep hallowed)

private theorem Reaches.final (h : Reaches L query w w') (hw : w.Inv L)
    (hrecorded : 0 < w.recorded L e) :
    w'.posted.countP (alike L e) = w.posted.countP (alike L e) := by
  have hboth : w'.Inv L ∧ 0 < w'.recorded L e ∧
      w'.posted.countP (alike L e) = w.posted.countP (alike L e) := by
    apply Run.invariant (I := fun w' : Emissions C => w'.Inv L ∧ 0 < w'.recorded L e ∧
      w'.posted.countP (alike L e) = w.posted.countP (alike L e)) _ h ⟨hw, hrecorded, rfl⟩
    intro s ev s' hallowed hs hstep
    obtain ⟨hinv, hpos, hcount⟩ := hs
    have hmoves := step_moves hstep hallowed
    obtain ⟨hpos', hcount'⟩ := hinv.final hmoves hpos
    exact ⟨hinv.step hmoves, hpos', hcount'.trans hcount⟩
  exact hboth.2.2

/-- However keys are saved, tasks fail and the process crashes: what was posted is in the database and
was requested, an entry is one of something that was posted, there is at most one for an emission,
and the emission was posted once for the entry and once for every entry that was cut off. After the
entry it is not posted again. -/
theorem emissions_accounted {db : NonceStore (ParticipantAction Psbt)}
    (hrun : Reaches L query (initial db) w) (hlater : Reaches L query w w') :
    (∀ e ∈ w'.posted, w'.Stored L e ∧ w'.Requested L e) ∧
      (∀ r ∈ w'.log.occurrences, ∀ e : Emission C,
        r.occurrence.uniqueTag = some (e.tag L) → ∃ e' ∈ w'.posted, ∃ time,
          r.group = e'.group ∧ r.occurrence = e'.occurrence L time) ∧
      ∀ e : Emission C, w'.recorded L e + w'.pending L e ≤ 1 ∧
        w'.posted.countP (alike L e) =
          w'.recorded L e + w'.cut.countP (alike L e) + w'.pending L e ∧
        (0 < w.recorded L e → w'.posted.countP (alike L e) = w.posted.countP (alike L e)) := by
  have hinv := hrun.inv (initial_inv db)
  have hinv' := hlater.inv hinv
  have hasked := hlater.asked (hrun.asked (initial_asked db))
  refine ⟨fun e he => ⟨hinv'.stored e he, hasked.posted e he⟩, hinv'.entries,
    fun e => ⟨hinv'.once, hinv'.accounted e, ?_⟩⟩
  exact fun hrecorded => hlater.final hinv hrecorded

end Emissions

end

/-- The hash of an envelope is that of its height. -/
def heightCrypto : Crypto (ParticipantAction ℕ) where
  canonicalizedHash e := ⟨e.header.height.toNat + 1⟩
  verifySchnorr sig digest key := sig.s = sig.r + digest.digest * key.x

def heightSign (nonce : ℕ) (digest : CanonicalEnvelopeHash) : Signature :=
  ⟨nonce, nonce + digest.digest * 3⟩

private theorem heightSign_nonce (nonce : ℕ) (digest : CanonicalEnvelopeHash) :
    (heightSign nonce digest).r = nonce := rfl

private theorem heightSign_verifies (nonce : ℕ) (digest : CanonicalEnvelopeHash) :
    heightCrypto.verifySchnorr (heightSign nonce digest) digest ⟨3⟩ = true :=
  decide_eq_true rfl

def heightKeys : KeyPair heightCrypto where
  key := ⟨3⟩
  getPublic nonce := ⟨⟨nonce⟩⟩
  signWithPrecomittedNonce := heightSign
  nonce_eq := heightSign_nonce
  secret := 3
  verifies := heightSign_verifies

/-- Transactions are numbers, and a signature adds one. -/
def countedPsbts : PsbtLibraries ℕ where
  isPoint _ := true
  psbtFromStr _ := some 6
  psbtToString := toString
  sha256 _ := ⟨0⟩
  verifySchnorr _ _ _ := true
  autoBroadcastFromJson _ := some ⟨[(⟨3⟩, ⟨true, true, true, true⟩)]⟩
  signPsbt keys psbt := some (psbt + keys.length)
  txid := toString
  psbtHash := toString

def heightGenesis : Authenticated heightCrypto where
  inner := heightKeys.signWith
    { header :=
        { key := ⟨3⟩
          nextNonce := ⟨⟨11⟩⟩
          ancestors := none
          tips := []
          height := 0
          sentTimeMs := 0
          unsigned := ⟨none⟩
          checkpoints := .default }
      msg := .custom .null } 10
  accepted := selfAuthenticate_eq_ok_iff.mpr
    ⟨rfl, signWith_authentic 10 (fun _ => rfl) (fun h => absurd h (by decide)) rfl⟩

def signedSix : Emission heightCrypto := ⟨1, heightKeys, 7⟩

/-- The key has a chain; the process crashes after the first message was stored, and the second time
the entry is committed. -/
def crashBetween : List (EmissionEvent heightCrypto) :=
  [.newGroup 1 "game", .saveKeypair heightKeys,
    .getKeymap 0, .process 0 1 "six" (some .null), .begin 0 0 1, .attempt ⟨[], 12, 0, .default, 0⟩,
    .crash,
    .getKeymap 0, .process 0 1 "six" (some .null), .begin 0 5 1, .attempt ⟨[], 13, 0, .default, 0⟩,
    .commit,
    .process 0 1 "six" (some .null), .begin 0 9 2]

def registeredKeys : NonceStore (ParticipantAction ℕ) where
  store := (Store.empty.apply (C := heightCrypto) (.insertUser "carol" heightGenesis 0))
  messageNonces := [(⟨⟨11⟩⟩, 11)]

private theorem crashBetween_occurs : (crashBetween.foldlM
    (Emissions.step countedPsbts fun K => oldestTip K.key) (.initial registeredKeys)).isSome := by
  decide +kernel

def postedTwice : Emissions heightCrypto :=
  (crashBetween.foldlM (Emissions.step countedPsbts fun K => oldestTip K.key)
    (.initial registeredKeys)).get crashBetween_occurs

private theorem postedTwice_reached : Emissions.Reaches countedPsbts (fun K => oldestTip K.key)
    (.initial registeredKeys) postedTwice := by
  apply Run.of_foldlM _ (Option.some_get crashBetween_occurs).symm
  intro ev hev
  simp only [crashBetween, List.mem_cons, List.not_mem_nil, or_false] at hev
  rcases hev with rfl | rfl | rfl | rfl | rfl | rfl | rfl | rfl | rfl | rfl | rfl | rfl | rfl | rfl
  all_goals exact trivial

/-- The message was posted twice, once for the crash, and has one entry. -/
theorem emissions_accounted_postedTwice : postedTwice.recorded countedPsbts signedSix = 1 ∧
    postedTwice.cut.countP (Emissions.alike countedPsbts signedSix) = 1 ∧
    postedTwice.posted.countP (Emissions.alike countedPsbts signedSix) = 2 := by
  have hrecorded : postedTwice.recorded countedPsbts signedSix = 1 := by decide +kernel
  have hcut : postedTwice.cut.countP (Emissions.alike countedPsbts signedSix) = 1 := by
    decide +kernel
  obtain ⟨-, -, hcount⟩ := Emissions.emissions_accounted postedTwice_reached Run.refl
  obtain ⟨honce, haccounted, -⟩ := hcount signedSix
  refine ⟨hrecorded, hcut, ?_⟩
  omega

end JudicaVM
