import JudicaVM.Attest.Rooted
import JudicaVM.Peer.Fetching
import JudicaVM.Peer.Serving

/-!
# Pulling from peers

A node that fetches from a peer asks it for its latest tips, stores what it receives and asks for
what the received envelopes name and the store lacks. The sessions with several peers write to one
store, beside other tasks, and share the set of hashes in flight.
-/

namespace JudicaVM

open Transition

section

variable {M : Type} {C : Crypto M}

/-- The tips of other chains in the header, and the parent. -/
def Envelope.named (e : Envelope M) : List CanonicalEnvelopeHash :=
  e.header.tips.map (·.2.2) ++ (e.header.ancestors.map Ancestors.prevMsg).toList

def Authenticated.isGenesis (e : Authenticated C) : Bool :=
  e.inner.header.ancestors.isNone && e.inner.header.height = 0

def Store.insertPulled (s : Store M) (e : Authenticated C) (now : ℤ) :
    Except SqliteFail Unit × Store M :=
  if e.isGenesis then s.insertUserByGenesisEnvelope s!"user-{now}" e now
  else s.tryInsertAuthenticatedEnvelope e false now

/-- The tips to be fetched on account of an insertion. There are none when the task fails. -/
def Authenticated.unsolicited (e : Authenticated C) (allowUnsolicitedTips : Bool) :
    Except SqliteFail Unit → Option (List CanonicalEnvelopeHash)
  | .ok () => some []
  | .error .constraintUnique => some []
  | .error _ =>
    if e.isGenesis then none
    else some (if allowUnsolicitedTips then [e.inner.getGenesisHash C] else [])

/-- The tips that the store lacks, in order. -/
def Store.messageNotExists (s : Store M) (allTips : List CanonicalEnvelopeHash) :
    List CanonicalEnvelopeHash :=
  ((allTips.insertionSort (· ≤ ·)).destutter (· ≠ ·)).filter fun h => (s.rowByHash h).isNone

/-- Where the processor is, with the envelopes that are left of an answer, the tips that it has
gathered from the others and the hashes that the guard of the answer removes. -/
inductive EnvelopeProcessor (C : Crypto M)
  | receiving
  | processing (resp : List (Envelope M)) (allTips inflight : List CanonicalEnvelopeHash)
  | inserting (e : Authenticated C) (resp : List (Envelope M))
      (allTips inflight : List CanonicalEnvelopeHash)
  | requesting (unknown inflight : List CanonicalEnvelopeHash)
  | ended

inductive MissingEnvelopeFetcher
  | receiving
  | connecting (tips : List CanonicalEnvelopeHash)
  | fetching (tips : List CanonicalEnvelopeHash)
  | ended

/-- The channels and the subtasks of `fetch_from_peer`, and whether it still waits for them. The
guard of an answer is queued with it; the latest tips have an empty one. -/
structure PullSession (C : Crypto M) where
  allowUnsolicitedTips : Bool
  awaited : Bool
  nextEnvelope : List (List (Envelope M) × List CanonicalEnvelopeHash)
  processor : EnvelopeProcessor C
  tipsToResolve : List (List CanonicalEnvelopeHash)
  fetcher : MissingEnvelopeFetcher

/-- What happens in a session without an insertion and without the shared set. -/
inductive PullTurn (M : Type)
  /-- The latest tips arrive. -/
  | latest (resp : List (Envelope M))
  | receiveEnvelopes
  | authenticate
  | query
  | request
  | receiveTips
  /-- The answer of the peer arrives. -/
  | respond (resp : List (Envelope M))
  | endProcessor
  | endFetcher
  /-- `fetch_from_peer` is aborted, which leaves its subtasks to themselves. -/
  | abandon

def EnvelopeProcessor.isEnded : EnvelopeProcessor C → Bool
  | .ended => true
  | _ => false

/-- The hashes of the answer that is being processed. -/
def EnvelopeProcessor.held : EnvelopeProcessor C → List CanonicalEnvelopeHash
  | .processing _ _ inflight => inflight
  | .inserting _ _ _ inflight => inflight
  | .requesting _ inflight => inflight
  | _ => []

def EnvelopeProcessor.gathered : EnvelopeProcessor C → List CanonicalEnvelopeHash
  | .processing _ allTips _ => allTips
  | .inserting _ _ allTips _ => allTips
  | .requesting unknown _ => unknown
  | _ => []

/-- The envelope that a statement is inserting. -/
def EnvelopeProcessor.insertion : EnvelopeProcessor C → List (Authenticated C)
  | .inserting e _ _ _ => [e]
  | _ => []

def MissingEnvelopeFetcher.isEnded : MissingEnvelopeFetcher → Bool
  | .ended => true
  | _ => false

def MissingEnvelopeFetcher.held : MissingEnvelopeFetcher → List CanonicalEnvelopeHash
  | .fetching tips => tips
  | _ => []

def MissingEnvelopeFetcher.wanted : MissingEnvelopeFetcher → List CanonicalEnvelopeHash
  | .connecting tips => tips
  | _ => []

namespace PullSession

variable (t : PullSession C)

def start (allowUnsolicitedTips : Bool) : PullSession C where
  allowUnsolicitedTips
  awaited := true
  nextEnvelope := []
  processor := .receiving
  tipsToResolve := []
  fetcher := .receiving

/-- The guards in the queue and that of the answer that is being processed. -/
def guards : List (List CanonicalEnvelopeHash) :=
  t.nextEnvelope.map Prod.snd ++ [t.processor.held]

/-- The hashes that were requested from the peer and whose answer is not processed yet. -/
def held : List CanonicalEnvelopeHash :=
  t.guards.flatten ++ t.fetcher.held

/-- The hashes that are to be requested. -/
def wanted : List CanonicalEnvelopeHash :=
  t.processor.gathered ++ t.tipsToResolve.flatten ++ t.fetcher.wanted

/-- The processor ends and takes its channel with it. -/
def endProcessor : PullSession C :=
  { t with processor := .ended, nextEnvelope := [] }

def endFetcher : PullSession C :=
  { t with fetcher := .ended, tipsToResolve := [] }

/-- The session after a turn, with the guards that are dropped in it. -/
def turn (store : Store M) (shouldQuit : Bool) :
    PullTurn M → Option (PullSession C × List (List CanonicalEnvelopeHash))
  | .latest resp =>
    if t.processor.isEnded then none
    else some ({ t with nextEnvelope := t.nextEnvelope ++ [(resp, [])] }, [])
  | .receiveEnvelopes =>
    match t.processor, t.nextEnvelope with
    | .receiving, (resp, inflight) :: rest =>
      some ({ t with processor := .processing resp [] inflight, nextEnvelope := rest }, [])
    | _, _ => none
  | .authenticate =>
    match t.processor with
    | .processing (e :: resp) allTips inflight =>
      if shouldQuit then some ({ t with processor := .processing [] allTips inflight }, [])
      else
        match e.authenticate C with
        | some valid => some ({ t with processor := .inserting valid resp allTips inflight }, [])
        | none => some ({ t with processor := .processing resp allTips inflight }, [])
    | _ => none
  | .query =>
    match t.processor with
    | .processing [] allTips inflight =>
      some ({ t with processor := .requesting (store.messageNotExists allTips) inflight }, [])
    | _ => none
  | .request =>
    match t.processor with
    | .requesting unknown inflight =>
      if !unknown.isEmpty && t.fetcher.isEnded then none
      else
        let tipsToResolve := t.tipsToResolve ++ if unknown.isEmpty then [] else [unknown]
        if shouldQuit then some ({ t with tipsToResolve }.endProcessor, t.guards)
        else some ({ t with processor := .receiving, tipsToResolve }, [inflight])
    | _ => none
  | .receiveTips =>
    match t.fetcher, t.tipsToResolve with
    | .receiving, tips :: rest =>
      some ({ t with fetcher := .connecting tips, tipsToResolve := rest }, [])
    | _, _ => none
  | .respond resp =>
    match t.fetcher with
    | .fetching tips =>
      if t.processor.isEnded then none
      else some ({ t with
        fetcher := .receiving
        nextEnvelope := t.nextEnvelope ++ [(resp, tips)] }, [])
    | _ => none
  | .endProcessor =>
    match t.processor with
    | .inserting _ _ _ _ => none
    | _ => some (t.endProcessor, t.guards)
  | .endFetcher => some (t.endFetcher, [t.fetcher.held])
  | .abandon => some ({ t with awaited := false }, [])

/-- What a turn gives up, unless it is stored: the hashes of an answer that has been processed, and
those that an ended task had still to look after. -/
def releases (shouldQuit : Bool) : PullTurn M → List CanonicalEnvelopeHash
  | .request => if shouldQuit then t.guards.flatten else t.processor.held
  | .endProcessor => t.guards.flatten ++ t.processor.gathered
  | .endFetcher => t.fetcher.held ++ t.tipsToResolve.flatten ++ t.fetcher.wanted
  | _ => []

end PullSession

/-- The guards of `notified` have been dropped, and tasks are about to remove their hashes. The
statements of `blocking` belong to aborted tasks. -/
structure Puller (C : Crypto M) where
  store : Store M
  inflight : Finset CanonicalEnvelopeHash
  sessions : ℕ → Option (PullSession C)
  notified : List (List CanonicalEnvelopeHash)
  blocking : List (Authenticated C)
  shouldQuit : Bool

inductive PullEvent (C : Crypto M)
  /-- Another task uses the store. -/
  | other (op : StoreOp C)
  | start (i : ℕ) (allowUnsolicitedTips : Bool)
  | turn (i : ℕ) (ev : PullTurn M)
  /-- The statement that inserts an envelope is over. -/
  | insert (i : ℕ) (now : ℤ) (ok : Bool)
  /-- The request is filtered and sent. -/
  | fetch (i : ℕ)
  /-- `fetch_from_peer` ends and aborts its subtasks; a statement goes on if it has begun. -/
  | finish (i : ℕ) (begun : Bool)
  /-- A task that was notified acquires the lock. -/
  | cleanup (k : ℕ)
  | unblock (k : ℕ) (now : ℤ)
  | shutdown

namespace Puller

variable (s : Puller C)

def initial (store : Store M) : Puller C where
  store
  inflight := ∅
  sessions := fun _ => none
  notified := []
  blocking := []
  shouldQuit := false

/-- A session changes, and guards are dropped. -/
def put (i : ℕ) (t : Option (PullSession C)) (guards : List (List CanonicalEnvelopeHash)) :
    Puller C :=
  { s with sessions := Function.update s.sessions i t, notified := s.notified ++ guards }

def step : PullEvent C → Option (Puller C)
  | .other op => some { s with store := s.store.apply op }
  | .start i allowUnsolicitedTips =>
    match s.sessions i with
    | none => some (s.put i (some (.start allowUnsolicitedTips)) [])
    | some _ => none
  | .turn i ev =>
    match s.sessions i with
    | some t => (t.turn s.store s.shouldQuit ev).map fun after => s.put i (some after.1) after.2
    | none => none
  | .insert i now ok =>
    match s.sessions i with
    | some t =>
      match t.processor with
      | .inserting e resp allTips inflight =>
        if ok then
          let inserted := s.store.insertPulled e now
          let s := { s with store := inserted.2 }
          match e.unsolicited t.allowUnsolicitedTips inserted.1 with
          | some tips =>
            some (s.put i (some { t with
              processor := .processing resp (allTips ++ tips ++ e.inner.named) inflight }) [])
          | none => some (s.put i (some t.endProcessor) t.guards)
        else some (s.put i (some t.endProcessor) t.guards)
      | _ => none
    | none => none
  | .fetch i =>
    match s.sessions i with
    | some t =>
      match t.fetcher with
      | .connecting tips =>
        let (tips', inflight) := scheduleFetch tips.length tips s.inflight
        some ({ s with inflight }.put i (some { t with fetcher := .fetching tips' }) [])
      | _ => none
    | none => none
  | .finish i begun =>
    match s.sessions i with
    | some t =>
      if t.awaited then
        let blocking := s.blocking ++ if begun then t.processor.insertion else []
        some ({ s with blocking }.put i none t.guards)
      else none
    | none => none
  | .cleanup k =>
    match s.notified[k]? with
    | some tips => some { s with
      inflight := s.inflight \ tips.toFinset, notified := s.notified.eraseIdx k }
    | none => none
  | .unblock k now =>
    match s.blocking[k]? with
    | some e => some { s with
      store := (s.store.insertPulled e now).2, blocking := s.blocking.eraseIdx k }
    | none => none
  | .shutdown => some { s with shouldQuit := true }

/-- What a step gives up, unless it is stored. -/
def releases : PullEvent C → List CanonicalEnvelopeHash
  | .other op => op.envelope.elim [] fun e => e.inner.named
  | .turn i ev => (s.sessions i).elim [] fun t => t.releases s.shouldQuit ev
  | .insert i now ok => (s.sessions i).elim [] fun t =>
    match t.processor with
    | .inserting e _ allTips _ =>
      if ok && (e.unsolicited t.allowUnsolicitedTips (s.store.insertPulled e now).1).isSome then []
      else t.guards.flatten ++ allTips
    | _ => []
  | .finish i _ => (s.sessions i).elim [] fun t =>
    t.held ++ t.wanted ++ t.processor.insertion.flatMap fun e => e.inner.named
  | _ => []

/-- Some session looks after the hash. -/
def Somewhere (of : PullSession C → List CanonicalEnvelopeHash) (h : CanonicalEnvelopeHash) :
    Prop :=
  ∃ i t, s.sessions i = some t ∧ h ∈ of t

/-- The hash was requested in a session, and the answer is not processed yet. -/
abbrev Held : CanonicalEnvelopeHash → Prop := s.Somewhere PullSession.held

abbrev Wanted : CanonicalEnvelopeHash → Prop := s.Somewhere PullSession.wanted

/-- What can be said of a hash that an envelope names. -/
inductive Known (lost : List CanonicalEnvelopeHash) (h : CanonicalEnvelopeHash) : Prop
  | stored (hstored : s.store.Stored h)
  | held (hheld : s.Held h)
  | wanted (hwanted : s.Wanted h)
  | lost (hlost : h ∈ lost)

/-- Every hash that a stored envelope names is known, and a hash in flight is held unless it is
settled. -/
structure Explained (lost : List CanonicalEnvelopeHash) : Prop where
  contents : ∀ c ∈ s.store.contents, ∀ h ∈ c.2.named, s.Known lost h
  inflight : ∀ h ∈ s.inflight, s.store.Stored h ∨ s.Held h ∨ h ∈ lost
  blocking : ∀ e ∈ s.blocking, ∀ h ∈ e.inner.named, s.Known lost h

/-- The hashes of a step that are given up for good. -/
def loses (ev : PullEvent C) (s' : Puller C) : List CanonicalEnvelopeHash :=
  (s.releases ev).filter fun h => (s'.store.rowByHash h).isNone

end Puller

/-- What the stored envelopes name and the store lacks. -/
def Store.missing (store : Store M) : List CanonicalEnvelopeHash :=
  (store.messages.flatMap fun r => r.body.named).filter fun h => (store.rowByHash h).isNone

/-- The states that are reached from a store, each with the hashes that were given up: those that
the store lacked from the beginning, and those of every step. -/
def Puller.Reachable (store : Store M) : Puller C × List CanonicalEnvelopeHash → Prop :=
  Run (fun p (ev : PullEvent C) p' => p.1.step ev = some p'.1 ∧ p'.2 = p.2 ++ p.1.loses ev p'.1)
    (fun _ => True) (.initial store, store.missing)

/-- The state after some events, with the hashes that were given up. -/
def Puller.trace : List (PullEvent C) → Puller C × List CanonicalEnvelopeHash →
    Option (Puller C × List CanonicalEnvelopeHash)
  | [], p => some p
  | ev :: evs, p =>
    match p.1.step ev with
    | some s => trace evs (s, p.2 ++ p.1.loses ev s)
    | none => none

private theorem Puller.Reachable.trace {store : Store M} {evs : List (PullEvent C)}
    {p p' : Puller C × List CanonicalEnvelopeHash} (hp : Puller.Reachable store p)
    (htrace : Puller.trace evs p = some p') : Puller.Reachable store p' := by
  induction evs generalizing p with
  | nil =>
    cases htrace
    exact hp
  | cons ev evs ih =>
    rw [Puller.trace] at htrace
    split at htrace
    next s hstep => exact ih (hp.tail trivial ⟨hstep, rfl⟩) htrace
    · cases htrace

variable {store store' : Store M} {s s' : Puller C} {t t' : PullSession C} {quit : Bool}
  {turn : PullTurn M} {ev : PullEvent C} {guards : List (List CanonicalEnvelopeHash)}
  {lost released allTips : List CanonicalEnvelopeHash} {h : CanonicalEnvelopeHash} {i : ℕ}
  {e : Authenticated C} {now : ℤ}

theorem Store.stored_iff : store.Stored h ↔ ∃ c ∈ store.contents, c.1 = h := by
  simp [Store.Stored, Store.contents]

theorem Store.Stored.of_store (hstored : store.Stored h)
    (hstore : store' = store ∨ ∃ op : StoreOp C, store' = store.apply op) : store'.Stored h := by
  obtain rfl | ⟨op, rfl⟩ := hstore
  · exact hstored
  · obtain ⟨c, hc, heq⟩ := Store.stored_iff.mp hstored
    exact Store.stored_iff.mpr ⟨c, (Store.prefix_apply op).subset hc, heq⟩

private theorem Store.stored_of_isSome (h' : (store.rowByHash h).isNone = false) :
    store.Stored h := by
  obtain ⟨r, hr⟩ := Option.isSome_iff_exists.mp (Option.isNone_eq_false_iff.mp h')
  exact ⟨r, List.mem_of_find?_eq_some hr, by simpa using List.find?_some hr⟩

private theorem Store.mem_messageNotExists (hmem : h ∈ allTips) :
    store.Stored h ∨ h ∈ store.messageNotExists allTips := by
  cases hnone : (store.rowByHash h).isNone with
  | true => exact .inr (List.mem_filter.mpr ⟨mem_requested.mpr hmem, hnone⟩)
  | false => exact .inl (Store.stored_of_isSome hnone)

private theorem Store.contents_insertWithTxn (store : Store M) (e : Authenticated C) (now : ℤ) :
    (store.tryInsertAuthenticatedEnvelopeWithTxn e now).2.contents = store.contents ∨
      (store.tryInsertAuthenticatedEnvelopeWithTxn e now).1 = .ok () ∧
      (store.tryInsertAuthenticatedEnvelopeWithTxn e now).2.contents =
        store.contents ++ [e.entry] := by
  unfold Store.tryInsertAuthenticatedEnvelopeWithTxn
  cases store.userByKey e.inner.header.key with
  | none => exact .inl rfl
  | some user =>
    dsimp only
    split_ifs
    · exact .inl rfl
    · exact .inr ⟨rfl, Store.contents_push⟩
    · exact .inl rfl

theorem Store.contents_insertPulled (store : Store M) (e : Authenticated C) (now : ℤ) :
    (store.insertPulled e now).2.contents = store.contents ∨
      (store.insertPulled e now).1 = .ok () ∧
      (store.insertPulled e now).2.contents = store.contents ++ [e.entry] := by
  unfold Store.insertPulled
  split
  · rw [← Store.contents_addUser (s := store) s!"user-{now}" e.inner.header.key]
    exact Store.contents_insertWithTxn _ e now
  · unfold Store.tryInsertAuthenticatedEnvelope
    cases e.inner.header.ancestors with
    | none => exact Store.contents_insertWithTxn store e now
    | some a =>
      simp only [Bool.false_and, Bool.false_eq_true, if_false]
      exact Store.contents_insertWithTxn store e now

theorem Store.insertPulled_eq_apply (store : Store M) (e : Authenticated C) (now : ℤ) :
    ∃ op : StoreOp C, (store.insertPulled e now).2 = store.apply op := by
  unfold Store.insertPulled
  split
  · exact ⟨.insertUser s!"user-{now}" e now, rfl⟩
  · exact ⟨.insert e false now, rfl⟩

private theorem Store.mem_insertPulled {c : CanonicalEnvelopeHash × Envelope M}
    (hc : c ∈ (store.insertPulled e now).2.contents) : c ∈ store.contents ∨ e.inner = c.2 := by
  obtain hsame | ⟨-, hnew⟩ := store.contents_insertPulled e now
  · exact .inl (hsame ▸ hc)
  · rw [hnew, List.mem_append, List.mem_singleton] at hc
    exact hc.imp_right fun heq => congrArg Prod.snd heq.symm

namespace PullSession

private theorem mem_guards : h ∈ t.guards.flatten ↔
    h ∈ t.nextEnvelope.flatMap Prod.snd ∨ h ∈ t.processor.held := by
  rw [PullSession.guards, List.flatten_append, List.mem_append, List.flatten_singleton,
    List.flatMap_def]

private theorem mem_held : h ∈ t.held ↔
    h ∈ t.nextEnvelope.flatMap Prod.snd ∨ h ∈ t.processor.held ∨ h ∈ t.fetcher.held := by
  rw [held, List.mem_append, mem_guards, or_assoc]

private theorem mem_wanted : h ∈ t.wanted ↔
    h ∈ t.processor.gathered ∨ h ∈ t.tipsToResolve.flatten ∨ h ∈ t.fetcher.wanted := by
  rw [wanted, List.mem_append, List.mem_append, or_assoc]

/-- What a session looks after it keeps, hands on, finds stored or releases. -/
def Keeps (t t' : PullSession C) (store : Store M) (released : List CanonicalEnvelopeHash) : Prop :=
  (∀ h ∈ t.held, h ∈ t'.held ∨ h ∈ released) ∧
    ∀ h ∈ t.wanted, h ∈ t'.wanted ∨ h ∈ released ∨ store.Stored h

private theorem turn_latest_keeps {resp : List (Envelope M)}
    (hturn : t.turn store quit (.latest resp) = some (t', guards)) :
    t.Keeps t' store (t.releases quit (.latest resp)) := by
  simp only [Keeps, mem_held, mem_wanted]
  simp only [PullSession.turn] at hturn
  split at hturn
  · cases hturn
  · cases hturn
    simp only [List.flatMap_append, List.mem_append]
    tauto

private theorem turn_receiveEnvelopes_keeps
    (hturn : t.turn store quit .receiveEnvelopes = some (t', guards)) :
    t.Keeps t' store (t.releases quit .receiveEnvelopes) := by
  simp only [Keeps, mem_held, mem_wanted]
  simp only [PullSession.turn] at hturn
  split at hturn
  next hprocessor hqueue =>
    cases hturn
    simp only [hprocessor, hqueue, EnvelopeProcessor.held, EnvelopeProcessor.gathered,
      List.flatMap_cons, List.mem_append]
    tauto
  · cases hturn

private theorem turn_authenticate_keeps
    (hturn : t.turn store quit .authenticate = some (t', guards)) :
    t.Keeps t' store (t.releases quit .authenticate) := by
  simp only [Keeps, mem_held, mem_wanted]
  simp only [PullSession.turn] at hturn
  split at hturn
  next hprocessor =>
    simp only [hprocessor, EnvelopeProcessor.held, EnvelopeProcessor.gathered]
    split at hturn
    · cases hturn
      exact ⟨fun h hmem => .inl hmem, fun h hmem => .inl hmem⟩
    · split at hturn
      · cases hturn
        exact ⟨fun h hmem => .inl hmem, fun h hmem => .inl hmem⟩
      · cases hturn
        exact ⟨fun h hmem => .inl hmem, fun h hmem => .inl hmem⟩
  · cases hturn

private theorem turn_query_keeps (hturn : t.turn store quit .query = some (t', guards)) :
    t.Keeps t' store (t.releases quit .query) := by
  simp only [Keeps, mem_held, mem_wanted]
  simp only [PullSession.turn] at hturn
  split at hturn
  next allTips inflight hprocessor =>
    cases hturn
    simp only [hprocessor, EnvelopeProcessor.held, EnvelopeProcessor.gathered]
    have hunknown : ∀ h ∈ allTips, store.Stored h ∨ h ∈ store.messageNotExists allTips :=
      fun _ => Store.mem_messageNotExists
    constructor
    · tauto
    · intro h hmem
      have hfound := hunknown h
      tauto
  · cases hturn

private theorem turn_request_keeps (hturn : t.turn store quit .request = some (t', guards)) :
    t.Keeps t' store (t.releases quit .request) := by
  simp only [Keeps, mem_held, mem_wanted]
  simp only [PullSession.turn] at hturn
  split at hturn
  next unknown inflight hprocessor =>
    have hsent : (t.tipsToResolve ++ if unknown.isEmpty then [] else [unknown]).flatten =
        t.tipsToResolve.flatten ++ unknown := by
      cases unknown <;> simp
    split at hturn
    · cases hturn
    · cases quit with
      | true =>
        cases hturn
        simp only [releases, if_true, mem_guards, PullSession.endProcessor, hprocessor,
          EnvelopeProcessor.held, EnvelopeProcessor.gathered, hsent, List.mem_append]
        tauto
      | false =>
        cases hturn
        simp only [releases, Bool.false_eq_true, if_false, hprocessor, EnvelopeProcessor.held,
          EnvelopeProcessor.gathered, hsent, List.mem_append]
        tauto
  · cases hturn

private theorem turn_receiveTips_keeps
    (hturn : t.turn store quit .receiveTips = some (t', guards)) :
    t.Keeps t' store (t.releases quit .receiveTips) := by
  simp only [Keeps, mem_held, mem_wanted]
  simp only [PullSession.turn] at hturn
  split at hturn
  next hfetcher htips =>
    cases hturn
    simp only [hfetcher, htips, MissingEnvelopeFetcher.held, MissingEnvelopeFetcher.wanted,
      List.flatten_cons, List.mem_append]
    tauto
  · cases hturn

private theorem turn_respond_keeps {resp : List (Envelope M)}
    (hturn : t.turn store quit (.respond resp) = some (t', guards)) :
    t.Keeps t' store (t.releases quit (.respond resp)) := by
  simp only [Keeps, mem_held, mem_wanted]
  simp only [PullSession.turn] at hturn
  split at hturn
  next hfetcher =>
    split at hturn
    · cases hturn
    · cases hturn
      simp only [hfetcher, MissingEnvelopeFetcher.held, MissingEnvelopeFetcher.wanted,
        List.flatMap_append, List.flatMap_singleton, List.mem_append]
      tauto
  · cases hturn

private theorem turn_endProcessor_keeps
    (hturn : t.turn store quit .endProcessor = some (t', guards)) :
    t.Keeps t' store (t.releases quit .endProcessor) := by
  simp only [Keeps, mem_held, mem_wanted]
  simp only [PullSession.turn] at hturn
  split at hturn
  · cases hturn
  · cases hturn
    simp only [releases, PullSession.endProcessor, List.mem_append, mem_guards]
    tauto

private theorem turn_keeps (hturn : t.turn store quit turn = some (t', guards)) :
    t.Keeps t' store (t.releases quit turn) := by
  cases turn with
  | latest resp => exact turn_latest_keeps hturn
  | receiveEnvelopes => exact turn_receiveEnvelopes_keeps hturn
  | authenticate => exact turn_authenticate_keeps hturn
  | query => exact turn_query_keeps hturn
  | request => exact turn_request_keeps hturn
  | receiveTips => exact turn_receiveTips_keeps hturn
  | respond resp => exact turn_respond_keeps hturn
  | endProcessor => exact turn_endProcessor_keeps hturn
  | endFetcher =>
    cases hturn
    simp only [Keeps, mem_held, mem_wanted, releases, PullSession.endFetcher, List.mem_append]
    tauto
  | abandon =>
    cases hturn
    exact ⟨fun h hmem => .inl hmem, fun h hmem => .inl hmem⟩

end PullSession

namespace Puller

/-- What one step can do: the store grows, nothing that is looked after is dropped unless it is
released, and only a hash in flight may be left to another session. -/
structure Moves (s s' : Puller C) (released : List CanonicalEnvelopeHash) : Prop where
  store : s'.store = s.store ∨ ∃ op : StoreOp C, s'.store = s.store.apply op
  contents : ∀ c ∈ s'.store.contents, c ∈ s.store.contents ∨ (∃ e ∈ s.blocking, e.inner = c.2) ∨
    ∀ h ∈ c.2.named, s'.Wanted h ∨ h ∈ released
  held : ∀ h, s.Held h → s'.Held h ∨ h ∈ released
  wanted : ∀ h, s.Wanted h →
    s'.Wanted h ∨ h ∈ released ∨ s'.store.Stored h ∨ s'.Held h ∨ h ∈ s.inflight
  inflight : ∀ h ∈ s'.inflight, h ∈ s.inflight ∨ s'.Held h
  blocking : ∀ e ∈ s'.blocking, e ∈ s.blocking ∨ ∀ h ∈ e.inner.named, h ∈ released

variable {of : PullSession C → List CanonicalEnvelopeHash} {after : Option (PullSession C)}

private theorem somewhere_cases (hsessions : s'.sessions = Function.update s.sessions i after)
    (hmem : s.Somewhere of h) : s'.Somewhere of h ∨ ∃ t, s.sessions i = some t ∧ h ∈ of t := by
  obtain ⟨j, t, ht, hmem⟩ := hmem
  by_cases hj : j = i
  · subst hj
    exact .inr ⟨t, ht, hmem⟩
  · refine .inl ⟨j, t, ?_, hmem⟩
    rw [hsessions, Function.update_of_ne hj, ht]

private theorem somewhere_self (hsessions : s'.sessions = Function.update s.sessions i (some t'))
    (hmem : h ∈ of t') : s'.Somewhere of h := by
  refine ⟨i, t', ?_, hmem⟩
  rw [hsessions, Function.update_self]

private theorem Moves.frame (hsessions : s'.sessions = s.sessions)
    (hstore : s'.store = s.store ∨ ∃ op : StoreOp C, s'.store = s.store.apply op)
    (hcontents : ∀ c ∈ s'.store.contents, c ∈ s.store.contents ∨
      (∃ e ∈ s.blocking, e.inner = c.2) ∨ ∀ h ∈ c.2.named, h ∈ released)
    (hinflight : s'.inflight ⊆ s.inflight) (hblocking : s'.blocking ⊆ s.blocking) :
    s.Moves s' released := by
  have hsomewhere (of : PullSession C → List CanonicalEnvelopeHash) (h : CanonicalEnvelopeHash)
      (hmem : s.Somewhere of h) : s'.Somewhere of h := by
    obtain ⟨i, t, ht, hmem⟩ := hmem
    exact ⟨i, t, by rw [hsessions, ht], hmem⟩
  constructor
  · exact hstore
  · intro c hc
    obtain hold | hblocked | hreleased := hcontents c hc
    · exact .inl hold
    · exact .inr (.inl hblocked)
    · exact .inr (.inr fun h hh => .inr (hreleased h hh))
  · exact fun h hmem => .inl (hsomewhere _ h hmem)
  · exact fun h hmem => .inl (hsomewhere _ h hmem)
  · exact fun h hmem => .inl (hinflight hmem)
  · exact fun e he => .inl (hblocking he)

private theorem Moves.session (ht : s.sessions i = some t)
    (hsessions : s'.sessions = Function.update s.sessions i (some t'))
    (hstore : s'.store = s.store ∨ ∃ op : StoreOp C, s'.store = s.store.apply op)
    (hcontents : ∀ c ∈ s'.store.contents, c ∈ s.store.contents ∨ ∀ h ∈ c.2.named, h ∈ t'.wanted)
    (hinflight : ∀ h ∈ s'.inflight, h ∈ s.inflight ∨ h ∈ t'.held)
    (hblocking : s'.blocking = s.blocking) (hheld : ∀ h ∈ t.held, h ∈ t'.held ∨ h ∈ released)
    (hwanted : ∀ h ∈ t.wanted,
      h ∈ t'.wanted ∨ h ∈ released ∨ s.store.Stored h ∨ h ∈ t'.held ∨ h ∈ s.inflight) :
    s.Moves s' released where
  store := hstore
  contents c hc := (hcontents c hc).imp_right fun hnamed =>
    .inr fun h hh => .inl (somewhere_self hsessions (hnamed h hh))
  held h hmem := by
    obtain hrest | ⟨u, hu, hmem⟩ := somewhere_cases hsessions hmem
    · exact .inl hrest
    · rw [ht] at hu
      cases hu
      exact (hheld h hmem).imp_left (somewhere_self hsessions)
  wanted h hmem := by
    obtain hrest | ⟨u, hu, hmem⟩ := somewhere_cases hsessions hmem
    · exact .inl hrest
    · rw [ht] at hu
      cases hu
      obtain hkept | hreleased | hfound | hheld | hinflight := hwanted h hmem
      · exact .inl (somewhere_self hsessions hkept)
      · exact .inr (.inl hreleased)
      · exact .inr (.inr (.inl (hfound.of_store hstore)))
      · exact .inr (.inr (.inr (.inl (somewhere_self hsessions hheld))))
      · exact .inr (.inr (.inr (.inr hinflight)))
  inflight h hmem := (hinflight h hmem).imp_right (somewhere_self hsessions)
  blocking e he := .inl (hblocking ▸ he)

private theorem endProcessor_keeps (t : PullSession C) :
    (∀ h ∈ t.held, h ∈ t.endProcessor.held ∨ h ∈ t.guards.flatten ++ t.processor.gathered) ∧
      ∀ h ∈ t.wanted, h ∈ t.endProcessor.wanted ∨ h ∈ t.guards.flatten ++ t.processor.gathered := by
  simp only [PullSession.mem_held, PullSession.mem_wanted, List.mem_append, PullSession.mem_guards,
    PullSession.endProcessor]
  tauto

private theorem step_other_moves {op : StoreOp C} (hstep : s.step (.other op) = some s') :
    s.Moves s' (s.releases (.other op)) := by
  cases hstep
  refine .frame rfl (.inr ⟨op, rfl⟩) ?_ (Finset.Subset.refl _) (List.Subset.refl _)
  intro c hc
  obtain hsame | ⟨e, he, hnew⟩ := Store.contents_apply (s := s.store) op
  · exact .inl (hsame ▸ hc)
  · rw [hnew, List.mem_append, List.mem_singleton] at hc
    apply hc.imp_right
    rintro rfl
    refine .inr fun h hh => ?_
    rw [releases, he]
    exact hh

private theorem step_start_moves {i : ℕ} {allowUnsolicitedTips : Bool}
    (hstep : s.step (.start i allowUnsolicitedTips) = some s') :
    s.Moves s' (s.releases (.start i allowUnsolicitedTips)) := by
  simp only [step] at hstep
  split at hstep
  next hnone =>
    have hsessions : s'.sessions =
        Function.update s.sessions i (some (.start allowUnsolicitedTips)) := by
      cases hstep
      rfl
    have hkept (of : PullSession C → List CanonicalEnvelopeHash) (h : CanonicalEnvelopeHash)
        (hmem : s.Somewhere of h) : s'.Somewhere of h := by
      obtain hrest | ⟨u, hu, -⟩ := somewhere_cases hsessions hmem
      · exact hrest
      · rw [hnone] at hu
        cases hu
    cases hstep
    exact ⟨.inl rfl, fun c hc => .inl hc, fun h hmem => .inl (hkept _ h hmem),
      fun h hmem => .inl (hkept _ h hmem), fun h hmem => .inl hmem, fun e he => .inl he⟩
  · cases hstep

private theorem step_turn_moves {i : ℕ} {ev : PullTurn M} (hstep : s.step (.turn i ev) = some s') :
    s.Moves s' (s.releases (.turn i ev)) := by
  simp only [step] at hstep
  split at hstep
  next t ht =>
    obtain ⟨⟨t', guards⟩, hturn, rfl⟩ := Option.map_eq_some_iff.mp hstep
    obtain ⟨hheld, hwanted⟩ := PullSession.turn_keeps hturn
    have hreleases : s.releases (.turn i ev) = t.releases s.shouldQuit ev := by
      rw [releases, ht, Option.elim_some]
    rw [hreleases]
    refine .session ht rfl (.inl rfl) (fun c hc => .inl hc) (fun h hmem => .inl hmem) rfl
      hheld ?_
    intro h hmem
    have hkept := hwanted h hmem
    tauto
  · cases hstep

private theorem step_insert_moves {i : ℕ} {now : ℤ} {ok : Bool}
    (hstep : s.step (.insert i now ok) = some s') :
    s.Moves s' (s.releases (.insert i now ok)) := by
  simp only [step] at hstep
  split at hstep
  next t ht =>
    split at hstep
    next e resp allTips inflight hprocessor =>
      have hgathered : t.processor.gathered = allTips := by
        rw [hprocessor]
        rfl
      have hreleases : s.releases (.insert i now ok) = if ok && (e.unsolicited
          t.allowUnsolicitedTips (s.store.insertPulled e now).1).isSome then []
          else t.guards.flatten ++ t.processor.gathered := by
        rw [releases, ht, Option.elim_some, hgathered, hprocessor]
      obtain ⟨hheld, hwanted⟩ := endProcessor_keeps t
      have hcontents := Store.contents_insertPulled s.store e now
      rw [hreleases]
      split at hstep
      next hok =>
        split at hstep
        next tips htips =>
          cases hstep
          refine .session ht rfl ?_ ?_ (fun h hmem => .inl hmem) rfl ?_ ?_
          · exact .inr (s.store.insertPulled_eq_apply e now)
          · intro c hc
            apply (Store.mem_insertPulled hc).imp_right
            intro hbody h hh
            rw [← hbody] at hh
            simp only [PullSession.mem_wanted, EnvelopeProcessor.gathered, List.mem_append]
            exact .inl (.inr hh)
          · intro h hmem
            simp only [PullSession.mem_held, hprocessor, EnvelopeProcessor.held] at hmem ⊢
            exact .inl hmem
          · intro h hmem
            simp only [PullSession.mem_wanted, hprocessor, EnvelopeProcessor.gathered,
              List.mem_append] at hmem ⊢
            tauto
        next hfailed =>
          cases hstep
          have hsame : (s.store.insertPulled e now).2.contents = s.store.contents := by
            apply hcontents.resolve_right
            intro h
            rw [h.1] at hfailed
            cases hfailed
          rw [hfailed, Option.isSome_none, Bool.and_false, if_neg Bool.false_ne_true]
          refine .session ht rfl ?_ ?_ (fun h hmem => .inl hmem) rfl hheld ?_
          · exact .inr (s.store.insertPulled_eq_apply e now)
          · exact fun c hc => .inl (hsame ▸ hc)
          · exact fun h hmem => (hwanted h hmem).imp_right .inl
      next hfailed =>
        cases hstep
        rw [Bool.not_eq_true] at hfailed
        rw [hfailed, Bool.false_and, if_neg Bool.false_ne_true]
        exact .session ht rfl (.inl rfl) (fun c hc => .inl hc) (fun h hmem => .inl hmem) rfl
          hheld fun h hmem => (hwanted h hmem).imp_right .inl
    · cases hstep
  · cases hstep

private theorem step_fetch_moves {i : ℕ} (hstep : s.step (.fetch i) = some s') :
    s.Moves s' (s.releases (.fetch i)) := by
  simp only [step] at hstep
  split at hstep
  next t ht =>
    split at hstep
    next tips hfetcher =>
      cases hstep
      refine .session ht rfl (.inl rfl) (fun c hc => .inl hc) ?_ rfl ?_ ?_
      · intro h hmem
        simp only [PullSession.mem_held, MissingEnvelopeFetcher.held]
        have hnew := mem_scheduled.mp hmem
        tauto
      · intro h hmem
        simp only [PullSession.mem_held, hfetcher, MissingEnvelopeFetcher.held] at hmem ⊢
        have hnot : h ∉ ([] : List CanonicalEnvelopeHash) := List.not_mem_nil
        tauto
      · intro h hmem
        have hnew : h ∈ (scheduleFetch tips.length tips s.inflight).1 ↔
            h ∈ tips ∧ h ∉ s.inflight := mem_request
        simp only [PullSession.mem_held, PullSession.mem_wanted, hfetcher,
          MissingEnvelopeFetcher.held, MissingEnvelopeFetcher.wanted] at hmem ⊢
        tauto
    · cases hstep
  · cases hstep

private theorem step_finish_moves {i : ℕ} {begun : Bool}
    (hstep : s.step (.finish i begun) = some s') :
    s.Moves s' (s.releases (.finish i begun)) := by
  simp only [step] at hstep
  split at hstep
  next t ht =>
    split at hstep
    next hawaited =>
      have hsessions : s'.sessions = Function.update s.sessions i none := by
        cases hstep
        rfl
      have hcases (of : PullSession C → List CanonicalEnvelopeHash) (h : CanonicalEnvelopeHash)
          (hmem : s.Somewhere of h) : s'.Somewhere of h ∨ h ∈ of t := by
        obtain hrest | ⟨u, hu, hmem⟩ := somewhere_cases hsessions hmem
        · exact .inl hrest
        · rw [ht] at hu
          cases hu
          exact .inr hmem
      cases hstep
      rw [releases, ht, Option.elim_some]
      refine ⟨.inl rfl, fun c hc => .inl hc, ?_, ?_, fun h hmem => .inl hmem, ?_⟩
      · intro h hmem
        exact (hcases _ h hmem).imp_right fun hheld =>
          List.mem_append_left _ (List.mem_append_left _ hheld)
      · intro h hmem
        exact (hcases _ h hmem).imp_right fun hwanted =>
          .inl (List.mem_append_left _ (List.mem_append_right _ hwanted))
      · intro e he
        apply (List.mem_append.mp he).imp_right
        intro hbegun h hh
        apply List.mem_append_right
        apply List.mem_flatMap.mpr
        refine ⟨e, ?_, hh⟩
        cases begun with
        | true => exact hbegun
        | false => exact absurd hbegun List.not_mem_nil
    · cases hstep
  · cases hstep

private theorem step_cleanup_moves {k : ℕ} (hstep : s.step (.cleanup k) = some s') :
    s.Moves s' (s.releases (.cleanup k)) := by
  simp only [step] at hstep
  split at hstep
  · cases hstep
    exact .frame rfl (.inl rfl) (fun c hc => .inl hc) Finset.sdiff_subset
      (List.Subset.refl _)
  · cases hstep

private theorem step_unblock_moves {k : ℕ} {now : ℤ} (hstep : s.step (.unblock k now) = some s') :
    s.Moves s' (s.releases (.unblock k now)) := by
  simp only [step] at hstep
  split at hstep
  next e he =>
    cases hstep
    have hmem := List.mem_of_getElem? he
    refine .frame rfl (.inr (s.store.insertPulled_eq_apply e now)) ?_ (Finset.Subset.refl _)
      (List.eraseIdx_subset ..)
    intro c hc
    exact (Store.mem_insertPulled hc).imp_right fun hbody => .inl ⟨e, hmem, hbody⟩
  · cases hstep

private theorem step_moves (hstep : s.step ev = some s') : s.Moves s' (s.releases ev) := by
  cases ev with
  | other op => exact step_other_moves hstep
  | start i allowUnsolicitedTips => exact step_start_moves hstep
  | turn i ev => exact step_turn_moves hstep
  | insert i now ok => exact step_insert_moves hstep
  | fetch i => exact step_fetch_moves hstep
  | finish i begun => exact step_finish_moves hstep
  | cleanup k => exact step_cleanup_moves hstep
  | unblock k now => exact step_unblock_moves hstep
  | shutdown =>
    cases hstep
    exact .frame rfl (.inl rfl) (fun c hc => .inl hc) (Finset.Subset.refl _)
      (List.Subset.refl _)

private theorem Explained.step (hs : s.Explained lost) (hstep : s.step ev = some s') :
    s'.Explained (lost ++ s.loses ev s') := by
  have hmoves := step_moves hstep
  have hsettled (h : CanonicalEnvelopeHash)
      (hcases : s'.store.Stored h ∨ s'.Held h ∨ h ∈ lost ++ s.loses ev s') :
      s'.Known (lost ++ s.loses ev s') h :=
    hcases.elim .stored fun hcases => hcases.elim .held .lost
  have hreleased (h : CanonicalEnvelopeHash) (hmem : h ∈ s.releases ev) :
      s'.store.Stored h ∨ s'.Held h ∨ h ∈ lost ++ s.loses ev s' := by
    cases hnone : (s'.store.rowByHash h).isNone with
    | true => exact .inr (.inr (List.mem_append_right _ (List.mem_filter.mpr ⟨hmem, hnone⟩)))
    | false => exact .inl (Store.stored_of_isSome hnone)
  have hheld (h : CanonicalEnvelopeHash) (hmem : s.Held h) :
      s'.store.Stored h ∨ s'.Held h ∨ h ∈ lost ++ s.loses ev s' :=
    (hmoves.held h hmem).elim (fun hkept => .inr (.inl hkept)) (hreleased h)
  -- a hash that is left to another session is held there, unless it is settled
  have hinflight (h : CanonicalEnvelopeHash) (hmem : h ∈ s.inflight) :
      s'.store.Stored h ∨ s'.Held h ∨ h ∈ lost ++ s.loses ev s' := by
    obtain hstored | hmem | hlost := hs.inflight h hmem
    · exact .inl (hstored.of_store hmoves.store)
    · exact hheld h hmem
    · exact .inr (.inr (List.mem_append_left _ hlost))
  have hknown (h : CanonicalEnvelopeHash) (hknown : s.Known lost h) :
      s'.Known (lost ++ s.loses ev s') h := by
    cases hknown with
    | stored hstored => exact .stored (hstored.of_store hmoves.store)
    | held hmem => exact hsettled h (hheld h hmem)
    | wanted hmem =>
      obtain hkept | hmem | hstored | hmem | hmem := hmoves.wanted h hmem
      · exact .wanted hkept
      · exact hsettled h (hreleased h hmem)
      · exact .stored hstored
      · exact .held hmem
      · exact hsettled h (hinflight h hmem)
    | lost hlost => exact .lost (List.mem_append_left _ hlost)
  constructor
  · intro c hc h hh
    obtain hold | ⟨e, he, hbody⟩ | hnew := hmoves.contents c hc
    · exact hknown h (hs.contents c hold h hh)
    · exact hknown h (hs.blocking e he h (hbody ▸ hh))
    · exact (hnew h hh).elim .wanted fun hmem => hsettled h (hreleased h hmem)
  · intro h hmem
    obtain hold | hmem := hmoves.inflight h hmem
    · exact hinflight h hold
    · exact .inr (.inl hmem)
  · intro e he h hh
    obtain hold | hnamed := hmoves.blocking e he
    · exact hknown h (hs.blocking e hold h hh)
    · exact hsettled h (hreleased h (hnamed h hh))

private theorem initial_explained (store : Store M) :
    (initial store : Puller C).Explained store.missing := by
  constructor
  · intro c hc h hh
    obtain ⟨r, hr, rfl⟩ := List.mem_map.mp hc
    cases hnone : (store.rowByHash h).isNone with
    | true =>
      exact .lost (List.mem_filter.mpr ⟨List.mem_flatMap.mpr ⟨r, hr, hh⟩, hnone⟩)
    | false => exact .stored (Store.stored_of_isSome hnone)
  · exact fun h hmem => absurd hmem (Finset.notMem_empty h)
  · exact fun e he => absurd he List.not_mem_nil

/-- In every run of any number of sessions, beside tasks that use the same store, what a stored
envelope names is stored, is being fetched in some session, or was given up in a step before. -/
theorem gaps_explained (hrun : Reachable (C := C) store (s, lost)) :
    ∀ r ∈ s.store.messages, ∀ h ∈ r.body.named, s.Known lost h := by
  have hexplained : s.Explained lost := by
    apply Run.invariant (I := fun p : Puller C × List CanonicalEnvelopeHash => p.1.Explained p.2)
      _ hrun (initial_explained store)
    intro p ev p' _ hp hstep
    rw [hstep.2]
    exact hp.step hstep.1
  exact fun r hr => hexplained.contents _ (Store.mem_contents hr)

private theorem Reachable.store_reachable (hrun : Reachable (C := C) store (s, lost))
    (hstore : Store.Reachable C store) : Store.Reachable C s.store := by
  apply Run.invariant
    (I := fun p : Puller C × List CanonicalEnvelopeHash => Store.Reachable C p.1.store) _ hrun hstore
  intro p ev p' _ hp hstep
  obtain hsame | ⟨op, hop⟩ := (step_moves hstep.1).store
  · rwa [hsame]
  · rw [hop]
    exact Writers.reachable_apply hp op

/-- No session has anything left to do. -/
def Quiet (s : Puller C) : Prop := ∀ h, ¬s.Held h ∧ ¬s.Wanted h

private theorem prevMsg_mem_named {e : Envelope M} (h : e.header.ancestors.isSome) :
    e.prevMsg ∈ e.named := by
  obtain ⟨a, ha⟩ := Option.isSome_iff_exists.mp h
  rw [Envelope.prevMsg, Envelope.named, ha]
  exact List.mem_append_right _ (List.mem_singleton.mpr rfl)

private theorem rooted_of_closed (hlinked : store.Linked) (hsourced : store.Sourced C)
    (hclosed : ∀ r ∈ store.messages, ∀ h ∈ r.body.named, store.Stored h)
    {rank : CanonicalEnvelopeHash → ℕ}
    (hrank : ∀ r ∈ store.messages, r.height ≠ 0 → rank r.prevMsg < rank r.hash) (n : ℕ) {r : Row M}
    (hr : r ∈ store.messages) (hn : rank r.hash = n) : Rooted store.contents r.hash := by
  induction n using Nat.strong_induction_on generalizing r with
  | _ n ih =>
    by_cases h0 : r.height = 0
    · exact .genesis (Store.mem_contents hr) h0
    · have hpos : 0 < r.height := lt_of_le_of_ne (hlinked.height_nonneg hr) (Ne.symm h0)
      obtain ⟨p, hp, hhash⟩ := hclosed r hr r.prevMsg
        (prevMsg_mem_named ((hsourced.authentic hr).later hpos))
      have hlt := hrank r hr h0
      apply Rooted.child (Store.mem_contents hr)
      show Rooted store.contents r.prevMsg
      rw [← hhash] at hlt ⊢
      exact ih _ (hn ▸ hlt) hp rfl

/-- When nothing has been given up and no session has anything left to do, the store has no gaps, and
attaching the tips connects every envelope. -/
theorem quiet_pull_connects (hrun : Reachable (C := C) store (s, []))
    (hstore : Store.Reachable C store) (hquiet : s.Quiet) :
    (∀ r ∈ s.store.messages, ∀ h ∈ r.body.named, s.store.Stored h) ∧
      ∀ rank : CanonicalEnvelopeHash → ℕ,
        (∀ r ∈ s.store.messages, r.height ≠ 0 → rank r.prevMsg < rank r.hash) →
        ∀ r ∈ s.store.attachTips.2.messages, r.connected := by
  have hreachable := hrun.store_reachable hstore
  have hclosed : ∀ r ∈ s.store.messages, ∀ h ∈ r.body.named, s.store.Stored h := by
    intro r hr h hh
    cases gaps_explained hrun r hr h hh with
    | stored hstored => exact hstored
    | held hheld => exact absurd hheld (hquiet h).1
    | wanted hwanted => exact absurd hwanted (hquiet h).2
    | lost hlost => exact absurd hlost List.not_mem_nil
  refine ⟨hclosed, ?_⟩
  intro rank hrank r hr
  have hlinked := hreachable.linked
  rw [hlinked.attachTips_eq] at hr
  obtain ⟨r', hr', rfl⟩ := Store.mem_connectAll.mp hr
  exact (hlinked.connect_connected_iff hr').mpr
    (rooted_of_closed hlinked hreachable.sourced hclosed hrank _ hr' rfl)

end Puller
end

/-- The peer offers a message of alice whose parent the node lacks, and sends the parent when it is
asked for it. -/
def parentPulled : List (PullEvent smallCrypto) :=
  [.start 0 false, .turn 0 (.latest [(smallLater 5 (1, 0) 1 12 13 2).inner]),
    .turn 0 .receiveEnvelopes, .turn 0 .authenticate, .insert 0 0 true, .turn 0 .query,
    .turn 0 .request, .turn 0 .receiveTips, .fetch 0,
    .turn 0 (.respond [(smallLater 5 (0, 0) 0 11 12 1).inner]), .turn 0 .receiveEnvelopes,
    .turn 0 .authenticate, .insert 0 0 true, .turn 0 .query, .turn 0 .request]

private theorem parentPulled_occurs :
    (Puller.trace parentPulled (.initial registered, registered.missing)).isSome := by
  decide +kernel

def parentKnown : Puller smallCrypto × List CanonicalEnvelopeHash :=
  (Puller.trace parentPulled (.initial registered, registered.missing)).get parentPulled_occurs

private theorem parentKnown_reachable : Puller.Reachable registered parentKnown :=
  Puller.Reachable.trace .refl (Option.some_get _).symm

private theorem parentKnown_lost : parentKnown = (parentKnown.1, []) := by
  have hlost : parentKnown.2 = [] := by decide +kernel
  rw [← hlost]

private theorem parentKnown_quiet : parentKnown.1.Quiet := by
  have hnothing (i : ℕ) (t : PullSession smallCrypto) (ht : parentKnown.1.sessions i = some t) :
      t.held ++ t.wanted = [] := by
    cases i with
    | zero =>
      have hsession : (parentKnown.1.sessions 0).elim [] (fun t => t.held ++ t.wanted) = [] := by
        decide +kernel
      rwa [ht] at hsession
    | succ i =>
      have hnone : (parentKnown.1.sessions (i + 1)).isNone = true := rfl
      rw [ht] at hnone
      cases hnone
  intro h
  constructor
  · rintro ⟨i, t, ht, hmem⟩
    rw [(List.append_eq_nil_iff.mp (hnothing i t ht)).1] at hmem
    cases hmem
  · rintro ⟨i, t, ht, hmem⟩
    rw [(List.append_eq_nil_iff.mp (hnothing i t ht)).2] at hmem
    cases hmem

theorem gaps_explained_parentKnown :
    (∃ r ∈ parentKnown.1.store.messages, (smallLater 5 (0, 0) 0 11 12 1).entry.1 ∈ r.body.named) ∧
      parentKnown.1.Known parentKnown.2 (smallLater 5 (0, 0) 0 11 12 1).entry.1 := by
  have hnamed : ∃ r ∈ parentKnown.1.store.messages,
      (smallLater 5 (0, 0) 0 11 12 1).entry.1 ∈ r.body.named := by decide +kernel
  refine ⟨hnamed, ?_⟩
  obtain ⟨r, hr, hmem⟩ := hnamed
  exact Puller.gaps_explained parentKnown_reachable r hr _ hmem

theorem quiet_pull_connects_parentKnown :
    parentKnown.1.store.messages.map (fun r => r.height) = [0, 2, 1] ∧
      ∀ r ∈ parentKnown.1.store.attachTips.2.messages, r.connected := by
  refine ⟨by decide +kernel, ?_⟩
  have hrun : Puller.Reachable registered (parentKnown.1, []) :=
    parentKnown_lost ▸ parentKnown_reachable
  exact (Puller.quiet_pull_connects hrun registered_reachable parentKnown_quiet).2
    (fun h => h.digest) (by decide +kernel)

end JudicaVM
