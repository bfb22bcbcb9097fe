import JudicaVM.Attest.Nonces

/-!
# Writers for one key

Any number of tasks add messages for one key through `retry_insert_authenticated_envelope_atomic`:
each reads the tip of the key, looks up the secret of the nonce to which the tip commits, signs an
envelope upon the tip and offers it to a transaction that checks that the tip has no child yet. The
steps of the tasks interleave with each other and with the operations of other authors.
-/

namespace JudicaVM

open Transition

section

variable {M : Type} {C : Crypto M}

/-- A public key and the part of the signature scheme that signs with a given nonce. -/
structure Signer {M : Type} (C : Crypto M) where
  key : XOnlyPublicKey
  getPublic : ℕ → PrecomittedPublicNonce
  signWithPrecomittedNonce : ℕ → CanonicalEnvelopeHash → Signature
  nonce_eq : ∀ nonce digest,
    (signWithPrecomittedNonce nonce digest).r = (getPublic nonce).point.x

/-- A key pair, the signatures of which are valid. -/
structure KeyPair {J : Type} (C : Crypto J) extends Signer C where
  secret : ℕ
  verifies : ∀ nonce digest,
    C.verifySchnorr (signWithPrecomittedNonce nonce digest) digest key = true

/-- A task in a call, before the step that it names. -/
inductive WriterState (C : Crypto M)
  | idle
  | getTip (msg : M)
  | getSecret (msg : M) (tips : List (XOnlyPublicKey × ℤ × CanonicalEnvelopeHash))
      (myTip : Envelope M)
  | sign (msg : M) (tips : List (XOnlyPublicKey × ℤ × CanonicalEnvelopeHash)) (myTip : Envelope M)
      (secret : ℕ)
  | insert (msg : M) (wrapped : Authenticated C)

/-- The database and the tasks. The table of nonces holds public nonces and their secrets. -/
structure Writers (C : Crypto M) where
  store : Store M
  messageNonces : List (PrecomittedPublicNonce × ℕ)
  tasks : ℕ → WriterState C

inductive WriterEvent (C : Crypto M)
  | generateUser (nickname : String) (genesis : Authenticated C) (nextNonce : ℕ) (now : ℤ)
  | call (i : ℕ) (msg : M)
  | getTip (i : ℕ) (tips : List (XOnlyPublicKey × ℤ × CanonicalEnvelopeHash)) (tip : Row M)
  | getSecret (i : ℕ)
  | sign (i : ℕ) (nextNonce : ℕ) (sentTimeMs : ℤ) (checkpoints : BitcoinCheckPoints)
  | insert (i : ℕ) (now : ℤ)
  | fail (i : ℕ)
  | other (op : StoreOp C)

/-- A row that `message_tips_by_user.sql` may return: heights may tie. -/
def Store.IsTip (s : Store M) (key : XOnlyPublicKey) (tip : Row M) : Prop :=
  tip ∈ s.messages ∧ tip.connected ∧ (s.userByKey key).map User.userId = some tip.userId ∧
    ∀ m ∈ s.messages, m.connected → m.userId = tip.userId → m.height ≤ tip.height

instance [DecidableEq M] (s : Store M) (key : XOnlyPublicKey) (tip : Row M) :
    Decidable (s.IsTip key tip) :=
  inferInstanceAs (Decidable (_ ∧ _ ∧ _ ∧ ∀ m ∈ s.messages, _))

theorem selfAuthenticate_of_ok {e e' : Envelope M} (h : e.selfAuthenticate C = .ok e') :
    e'.selfAuthenticate C = .ok e' := by
  have hsame := (selfAuthenticate_eq_ok_iff.mp h).1
  rwa [← hsame] at h

/-- `self_authenticate`, with its result as a value that carries the checks. -/
def Envelope.authenticate (C : Crypto M) (e : Envelope M) : Option (Authenticated C) :=
  match h : e.selfAuthenticate C with
  | .ok e' => some ⟨e', selfAuthenticate_of_ok h⟩
  | .error _ => none

namespace Signer

variable (S : Signer C)

/-- The envelope before it is signed. -/
def wrapMessage (msg : M) (tips : List (XOnlyPublicKey × ℤ × CanonicalEnvelopeHash))
    (myTip : Envelope M) (nextNonce : PrecomittedPublicNonce) (sentTimeMs : ℤ)
    (checkpoints : BitcoinCheckPoints) : Envelope M where
  header :=
    { key := S.key
      nextNonce
      ancestors := some ⟨C.canonicalizedHash myTip, myTip.getGenesisHash C⟩
      tips
      height := myTip.header.height + 1
      sentTimeMs
      unsigned := ⟨none⟩
      checkpoints }
  msg

def signWith (e : Envelope M) (nonce : ℕ) : Envelope M :=
  { e with header := { e.header with
      unsigned := ⟨some (S.signWithPrecomittedNonce nonce (e.signatureDigestMut C))⟩ } }

end Signer

namespace Writers

variable (S : Signer C) (w : Writers C)

def setTask (i : ℕ) (task : WriterState C) : Writers C :=
  { w with tasks := Function.update w.tasks i task }

def saveNonce (nonce : ℕ) : Writers C :=
  { w with messageNonces := w.messageNonces ++ [(S.getPublic nonce, nonce)] }

/-- Generated nonces are new. -/
def Fresh (nonce : ℕ) : Prop :=
  S.getPublic nonce ∉ w.messageNonces.map Prod.fst

instance (nonce : ℕ) : Decidable (w.Fresh S nonce) :=
  inferInstanceAs (Decidable (¬_))

/-- How the loop goes on after the transaction. -/
def afterInsert (msg : M) : Except SqliteFail Unit → WriterState C
  | .ok () => .idle
  | .error .constraintUnique => .getTip msg
  | .error _ => .idle

def insertStep (i : ℕ) (msg : M) (wrapped : Authenticated C) (now : ℤ) : Writers C :=
  { w.setTask i (afterInsert msg (w.store.tryInsertAuthenticatedEnvelope wrapped true now).1) with
    store := (w.store.tryInsertAuthenticatedEnvelope wrapped true now).2 }

/-- One step of a task, or an operation of another author. -/
def step [DecidableEq M] : WriterEvent C → Option (Writers C)
  | .generateUser nickname genesis nextNonce now =>
    if genesis.inner.header.key = S.key ∧ genesis.inner.header.height = 0 ∧
        genesis.inner.header.nextNonce = S.getPublic nextNonce ∧ w.Fresh S nextNonce then
      some { w.saveNonce S nextNonce with
        store := w.store.apply (.insertUser nickname genesis now) }
    else none
  | .call i msg =>
    match w.tasks i with
    | .idle => some (w.setTask i (.getTip msg))
    | _ => none
  | .getTip i tips tip =>
    match w.tasks i with
    | .getTip msg =>
      if w.store.IsTip S.key tip then some (w.setTask i (.getSecret msg tips tip.body)) else none
    | _ => none
  | .getSecret i =>
    match w.tasks i with
    | .getSecret msg tips myTip =>
      (w.messageNonces.find? (·.1 = myTip.header.nextNonce)).map fun row =>
        w.setTask i (.sign msg tips myTip row.2)
    | _ => none
  | .sign i nextNonce sentTimeMs checkpoints =>
    match w.tasks i with
    | .sign msg tips myTip secret =>
      if w.Fresh S nextNonce then
        let e := S.wrapMessage msg tips myTip (S.getPublic nextNonce) sentTimeMs checkpoints
        let task := match (S.signWith e secret).authenticate C with
          | some wrapped => .insert msg wrapped
          | none => .idle
        some ((w.saveNonce S nextNonce).setTask i task)
      else none
    | _ => none
  | .insert i now =>
    match w.tasks i with
    | .insert msg wrapped => some (w.insertStep i msg wrapped now)
    | _ => none
  | .fail i => some (w.setTask i .idle)
  | .other op =>
    if ∀ e ∈ op.envelope, e.inner.header.key ≠ S.key then
      some { w with store := w.store.apply op }
    else none

def initial : Writers C := ⟨.empty, [], fun _ => .idle⟩

def Reachable [DecidableEq M] : Writers C → Prop :=
  Run (fun w (ev : WriterEvent C) w' => step S w ev = some w') (fun _ => True) initial

end Writers

variable {S : Signer C} {w w' : Writers C} {s s' : Store M}
  {l l' : List (CanonicalEnvelopeHash × Envelope M)} {e : Authenticated C}
  {nonces nonces' : List PrecomittedPublicNonce} {task : WriterState C}

/-- The stored envelopes of a key. -/
def Store.own (s : Store M) (key : XOnlyPublicKey) : List (CanonicalEnvelopeHash × Envelope M) :=
  s.contents.filter fun c => c.2.header.key = key

theorem own_append_of_eq (hkey : e.inner.header.key = S.key)
    (h : s'.contents = s.contents ++ [e.entry]) : s'.own S.key = s.own S.key ++ [e.entry] := by
  rw [Store.own, h, List.filter_append, ← Store.own]
  simp [Authenticated.entry, hkey]

theorem own_append_of_ne (hkey : e.inner.header.key ≠ S.key)
    (h : s'.contents = s.contents ++ [e.entry]) : s'.own S.key = s.own S.key := by
  rw [Store.own, h, List.filter_append, ← Store.own]
  simp [Authenticated.entry, hkey]

/-- The envelopes of the key commit to different saved nonces, are signed as a parent of the key
committed, and have different parents. -/
structure SingleUse (l : List (CanonicalEnvelopeHash × Envelope M))
    (nonces : List PrecomittedPublicNonce) : Prop where
  saved : ∀ c ∈ l, c.2.header.nextNonce ∈ nonces
  commitments : (l.map fun c => c.2.header.nextNonce).Nodup
  parents : ∀ c ∈ l, 0 < c.2.header.height → ∃ p ∈ l, p.1 = c.2.prevMsg ∧ c.2.SignedAsCommitted p.2
  children : ((l.filter fun c => 0 < c.2.header.height).map fun c => c.2.prevMsg).Nodup

namespace SingleUse

private theorem empty : SingleUse ([] : List (CanonicalEnvelopeHash × Envelope M)) nonces := by
  constructor <;> simp

private theorem mono (h : SingleUse l nonces) (hsub : nonces ⊆ nonces') : SingleUse l nonces' :=
  { h with saved := fun c hc => hsub (h.saved c hc) }

private theorem append (h : SingleUse l nonces) {c : CanonicalEnvelopeHash × Envelope M}
    (hsaved : c.2.header.nextNonce ∈ nonces)
    (hnew : c.2.header.nextNonce ∉ l.map fun c => c.2.header.nextNonce)
    (hparent : 0 < c.2.header.height → ∃ p ∈ l, p.1 = c.2.prevMsg ∧ c.2.SignedAsCommitted p.2)
    (hchildren : 0 < c.2.header.height → ∀ c' ∈ l, c'.2.prevMsg ≠ c.2.prevMsg) :
    SingleUse (l ++ [c]) nonces := by
  constructor
  · intro c' hc'
    rw [List.mem_append, List.mem_singleton] at hc'
    apply hc'.elim (h.saved c')
    intro heq
    rwa [heq]
  · rw [List.map_append]
    apply h.commitments.append (List.nodup_singleton _)
    simpa using hnew
  · intro c' hc' h0
    rw [List.mem_append, List.mem_singleton] at hc'
    have hp : ∃ p ∈ l, p.1 = c'.2.prevMsg ∧ c'.2.SignedAsCommitted p.2 := by
      apply hc'.elim (fun hc' => h.parents c' hc' h0)
      intro heq
      rw [heq] at h0 ⊢
      exact hparent h0
    obtain ⟨p, hp, hhash, hsigned⟩ := hp
    exact ⟨p, List.mem_append_left _ hp, hhash, hsigned⟩
  · rw [List.filter_append, List.map_append]
    apply h.children.append
    · by_cases h0 : 0 < c.2.header.height <;> simp [h0]
    · by_cases h0 : 0 < c.2.header.height
      · have hc' := hchildren h0
        simp only [h0, decide_true, List.filter_cons_of_pos, List.filter_nil, List.map_cons,
          List.map_nil, List.disjoint_singleton, List.mem_map, List.mem_filter, not_exists]
        intro c' hmem
        exact hc' c' hmem.1.1 hmem.2
      · simp [h0]

private theorem nonce_ne (h : SingleUse l nonces)
    {c c' : CanonicalEnvelopeHash × Envelope M} (hc : c ∈ l)
    (hc' : c' ∈ l) (h0 : 0 < c.2.header.height) (h0' : 0 < c'.2.header.height)
    (hne : c.2.prevMsg ≠ c'.2.prevMsg) :
    c.2.header.unsigned.signature.map Signature.r ≠
      c'.2.header.unsigned.signature.map Signature.r := by
  obtain ⟨p, hp, hhash, hsigned⟩ := h.parents c hc h0
  obtain ⟨p', hp', hhash', hsigned'⟩ := h.parents c' hc' h0'
  intro heq
  rw [hsigned, hsigned', Option.some_inj] at heq
  have hnonce : p.2.header.nextNonce = p'.2.header.nextNonce := by
    have hpoint : p.2.header.nextNonce.point = p'.2.header.nextNonce.point :=
      congrArg XOnlyPublicKey.mk heq
    exact congrArg PrecomittedPublicNonce.mk hpoint
  have hpp' := List.inj_on_of_nodup_map h.commitments hp hp' hnonce
  apply hne
  rw [← hhash, ← hhash', hpp']

end SingleUse

/-- What a task knows of the envelopes of the key. -/
def TaskOk (S : Signer C) (l : List (CanonicalEnvelopeHash × Envelope M))
    (nonces : List PrecomittedPublicNonce) : WriterState C → Prop
  | .idle => True
  | .getTip _ => True
  | .getSecret _ _ myTip => (C.canonicalizedHash myTip, myTip) ∈ l ∧ 0 ≤ myTip.header.height
  | .sign _ _ myTip secret => (C.canonicalizedHash myTip, myTip) ∈ l ∧
      0 ≤ myTip.header.height ∧ S.getPublic secret = myTip.header.nextNonce
  | .insert _ wrapped => wrapped.inner.header.key = S.key ∧ 0 < wrapped.inner.header.height ∧
      wrapped.inner.header.ancestors.isSome ∧
      (∃ p ∈ l, p.1 = wrapped.inner.prevMsg ∧ wrapped.inner.SignedAsCommitted p.2) ∧
      wrapped.inner.header.nextNonce ∈ nonces ∧
      wrapped.inner.header.nextNonce ∉ l.map fun c => c.2.header.nextNonce

/-- The nonce of the envelope that a task is about to insert. -/
def WriterState.pending : WriterState C → Option PrecomittedPublicNonce
  | .insert _ wrapped => some wrapped.inner.header.nextNonce
  | _ => none

private theorem TaskOk.mono (h : TaskOk S l nonces task) (hl : l ⊆ l') (hnonces : nonces ⊆ nonces')
    (hpending : ∀ nonce, task.pending = some nonce →
      nonce ∉ l'.map fun c => c.2.header.nextNonce) : TaskOk S l' nonces' task := by
  cases task with
  | idle => trivial
  | getTip msg => trivial
  | getSecret msg tips myTip => exact ⟨hl h.1, h.2⟩
  | sign msg tips myTip secret => exact ⟨hl h.1, h.2⟩
  | insert msg wrapped =>
    obtain ⟨hkey, h0, hancestors, ⟨p, hp, hparent⟩, hsaved, _⟩ := h
    exact ⟨hkey, h0, hancestors, ⟨p, hl hp, hparent⟩, hnonces hsaved, hpending _ rfl⟩

private theorem TaskOk.pending {nonce : PrecomittedPublicNonce} (h : TaskOk S l nonces task)
    (hpending : task.pending = some nonce) :
    nonce ∈ nonces ∧ nonce ∉ l.map fun c => c.2.header.nextNonce := by
  cases task with
  | insert msg wrapped =>
    obtain rfl := Option.some.inj hpending
    exact h.2.2.2.2
  | idle => cases hpending
  | getTip msg => cases hpending
  | getSecret msg tips myTip => cases hpending
  | sign msg tips myTip secret => cases hpending

namespace Writers

def publicNonces (w : Writers C) : List PrecomittedPublicNonce :=
  w.messageNonces.map Prod.fst

/-- The invariant of the tasks. -/
structure Honest (S : Signer C) (w : Writers C) : Prop where
  reachable : Store.Reachable C w.store
  table : ∀ row ∈ w.messageNonces, row.1 = S.getPublic row.2
  singleUse : SingleUse (w.store.own S.key) w.publicNonces
  tasks : ∀ i, TaskOk S (w.store.own S.key) w.publicNonces (w.tasks i)
  pending : ∀ i j nonce, (w.tasks i).pending = some nonce → (w.tasks j).pending = some nonce → i = j

namespace Honest

private theorem setTask (h : w.Honest S) (i : ℕ)
    (htask : TaskOk S (w.store.own S.key) w.publicNonces task)
    (hpending : ∀ nonce, task.pending = some nonce → ∀ j, (w.tasks j).pending ≠ some nonce) :
    (w.setTask i task).Honest S := by
  constructor
  · exact h.reachable
  · exact h.table
  · exact h.singleUse
  · intro j
    show TaskOk S (w.store.own S.key) w.publicNonces (Function.update w.tasks i task j)
    by_cases hj : j = i
    · subst hj
      rwa [Function.update_self]
    · rw [Function.update_of_ne hj]
      exact h.tasks j
  · intro j k nonce hj hk
    change (Function.update w.tasks i task j).pending = some nonce at hj
    change (Function.update w.tasks i task k).pending = some nonce at hk
    by_cases hji : j = i
    · by_cases hki : k = i
      · rw [hji, hki]
      · rw [hji, Function.update_self] at hj
        rw [Function.update_of_ne hki] at hk
        exact absurd hk (hpending nonce hj k)
    · rw [Function.update_of_ne hji] at hj
      by_cases hki : k = i
      · rw [hki, Function.update_self] at hk
        exact absurd hj (hpending nonce hk j)
      · rw [Function.update_of_ne hki] at hk
        exact h.pending j k nonce hj hk

theorem setIdle (h : w.Honest S) (i : ℕ) : (w.setTask i .idle).Honest S :=
  h.setTask i trivial fun nonce hnonce => by cases hnonce

private theorem publicNonces_saveNonce (nonce : ℕ) :
    (w.saveNonce S nonce).publicNonces = w.publicNonces ++ [S.getPublic nonce] := by
  simp [publicNonces, Writers.saveNonce]

theorem saveNonce (h : w.Honest S) (nonce : ℕ) : (w.saveNonce S nonce).Honest S := by
  have hsub : w.publicNonces ⊆ (w.saveNonce S nonce).publicNonces := by
    rw [publicNonces_saveNonce]
    exact List.subset_append_left _ _
  constructor
  · exact h.reachable
  · intro row hrow
    apply (List.mem_append.mp hrow).elim (h.table row)
    intro heq
    rw [List.mem_singleton.mp heq]
  · exact h.singleUse.mono hsub
  · intro i
    exact (h.tasks i).mono (List.Subset.refl _) hsub fun nonce hnonce =>
      ((h.tasks i).pending hnonce).2
  · exact h.pending

private theorem setStore (h : w.Honest S) {s : Store M} (hs : Store.Reachable C s)
    (hown : s.own S.key = w.store.own S.key) : { w with store := s }.Honest S := by
  constructor
  · exact hs
  · exact h.table
  · show SingleUse (s.own S.key) w.publicNonces
    rw [hown]
    exact h.singleUse
  · intro i
    show TaskOk S (s.own S.key) w.publicNonces (w.tasks i)
    rw [hown]
    exact h.tasks i
  · exact h.pending

private theorem appendOwn (h : w.Honest S) {s : Store M} (hs : Store.Reachable C s)
    (hkey : e.inner.header.key = S.key) (hcontents : s.contents = w.store.contents ++ [e.entry])
    (hsingle : SingleUse (w.store.own S.key ++ [e.entry]) w.publicNonces)
    (hpending : ∀ i, (w.tasks i).pending ≠ some e.inner.header.nextNonce) :
    { w with store := s }.Honest S := by
  have hown := own_append_of_eq hkey hcontents
  constructor
  · exact hs
  · exact h.table
  · show SingleUse (s.own S.key) w.publicNonces
    rwa [hown]
  · intro i
    show TaskOk S (s.own S.key) w.publicNonces (w.tasks i)
    rw [hown]
    apply (h.tasks i).mono (List.subset_append_left _ _) (List.Subset.refl _)
    intro nonce hnonce hmem
    rw [List.map_append, List.mem_append] at hmem
    apply hmem.elim ((h.tasks i).pending hnonce).2
    intro heq
    rw [List.map_singleton, List.mem_singleton] at heq
    rw [heq] at hnonce
    exact hpending i hnonce
  · exact h.pending

end Honest

theorem authenticate_eq {e : Envelope M} {wrapped : Authenticated C}
    (h : e.authenticate C = some wrapped) : wrapped.inner = e := by
  unfold Envelope.authenticate at h
  split at h
  · rename_i e' hok
    obtain rfl := Option.some.inj h
    exact (selfAuthenticate_eq_ok_iff.mp hok).1
  · cases h

theorem tryInsert_reuseSafe (now : ℤ) (hancestors : e.inner.header.ancestors.isSome) :
    (∃ err, (s.tryInsertAuthenticatedEnvelope e true now).1 = .error err ∧
      (s.tryInsertAuthenticatedEnvelope e true now).2 = s) ∨
    ((s.tryInsertAuthenticatedEnvelope e true now).1 = .ok () ∧
      (s.tryInsertAuthenticatedEnvelope e true now).2.contents = s.contents ++ [e.entry] ∧
      ∀ c ∈ s.contents, c.2.prevMsg ≠ e.inner.prevMsg) := by
  obtain ⟨a, ha⟩ := Option.isSome_iff_exists.mp hancestors
  have hprev : e.inner.prevMsg = a.prevMsg := by simp [Envelope.prevMsg, ha]
  unfold Store.tryInsertAuthenticatedEnvelope
  simp only [ha, Bool.true_and]
  split_ifs with hchildren
  · exact .inl ⟨_, rfl, rfl⟩
  · have hnone : ∀ c ∈ s.contents, c.2.prevMsg ≠ e.inner.prevMsg := by
      intro c hc
      obtain ⟨r, hr, rfl⟩ := List.mem_map.mp hc
      rw [hprev]
      intro heq
      apply hchildren
      exact List.any_eq_true.mpr ⟨r, hr, decide_eq_true heq⟩
    unfold Store.tryInsertAuthenticatedEnvelopeWithTxn
    cases s.userByKey e.inner.header.key with
    | none => exact .inl ⟨_, rfl, rfl⟩
    | some user =>
      simp only
      split_ifs
      · exact .inl ⟨_, rfl, rfl⟩
      · exact .inr ⟨rfl, Store.contents_push, hnone⟩
      · exact .inl ⟨_, rfl, rfl⟩

theorem reachable_apply (h : Store.Reachable C s) (op : StoreOp C) :
    Store.Reachable C (s.apply op) :=
  h.tail trivial rfl

namespace Honest

theorem insertStep (h : w.Honest S) {i : ℕ} {msg : M} {wrapped : Authenticated C}
    (htask : w.tasks i = .insert msg wrapped) (now : ℤ) :
    (w.insertStep i msg wrapped now).Honest S := by
  have hok := h.tasks i
  rw [htask] at hok
  obtain ⟨hkey, h0, hancestors, hparent, hsaved, hnew⟩ := hok
  have hreachable := reachable_apply h.reachable (.insert wrapped true now)
  rw [Store.apply] at hreachable
  unfold Writers.insertStep
  apply (tryInsert_reuseSafe (s := w.store) (e := wrapped) now hancestors).elim
  · intro hrefused
    obtain ⟨err, herr, hstore⟩ := hrefused
    rw [herr, hstore]
    cases err with
    | constraintUnique => exact h.setTask i trivial fun nonce hnonce => by cases hnonce
    | constraintCheck => exact h.setIdle i
    | constraintNotNull => exact h.setIdle i
  · intro hstored
    obtain ⟨hresult, hcontents, hchildren⟩ := hstored
    rw [hresult]
    apply (h.setIdle i).appendOwn hreachable hkey hcontents
    · apply h.singleUse.append hsaved hnew (fun _ => hparent)
      exact fun _ c hc => hchildren c (List.mem_filter.mp hc).1
    · intro j hj
      -- the task itself is done, and no other task holds its nonce
      change (Function.update w.tasks i .idle j).pending = _ at hj
      by_cases hji : j = i
      · rw [hji, Function.update_self] at hj
        cases hj
      · rw [Function.update_of_ne hji] at hj
        apply hji
        apply h.pending j i _ hj
        rw [htask]
        rfl

theorem signStep (h : w.Honest S) {i : ℕ} {msg : M}
    {tips : List (XOnlyPublicKey × ℤ × CanonicalEnvelopeHash)} {myTip : Envelope M} {secret : ℕ}
    (htask : w.tasks i = .sign msg tips myTip secret) {nextNonce : ℕ} (hfresh : w.Fresh S nextNonce)
    {sentTimeMs : ℤ} {checkpoints : BitcoinCheckPoints} {wrapped : Authenticated C}
    (hwrapped : wrapped.inner = S.signWith (S.wrapMessage msg tips myTip (S.getPublic nextNonce)
      sentTimeMs checkpoints) secret) :
    ((w.saveNonce S nextNonce).setTask i (.insert msg wrapped)).Honest S := by
  have hok := h.tasks i
  rw [htask] at hok
  obtain ⟨hmem, h0, hsecret⟩ := hok
  have hnonce : wrapped.inner.header.nextNonce = S.getPublic nextNonce := by rw [hwrapped]; rfl
  have hcommitted : wrapped.inner.SignedAsCommitted myTip := by
    unfold Envelope.SignedAsCommitted
    rw [hwrapped, ← hsecret]
    exact congrArg some (S.nonce_eq _ _)
  apply (h.saveNonce nextNonce).setTask i
  · refine ⟨by rw [hwrapped]; rfl, ?_, by rw [hwrapped]; rfl, ⟨_, hmem, ?_, hcommitted⟩, ?_, ?_⟩
    · rw [hwrapped]
      show 0 < myTip.header.height + 1
      omega
    · rw [hwrapped]
      rfl
    · rw [hnonce, publicNonces_saveNonce]
      simp
    · rw [hnonce]
      intro hcommits
      obtain ⟨c, hc, heq⟩ := List.mem_map.mp hcommits
      apply hfresh
      rw [← heq]
      exact h.singleUse.saved c hc
  · intro nonce hpending j hj
    obtain rfl := Option.some.inj hpending
    rw [hnonce] at hj
    exact hfresh ((h.tasks j).pending hj).1

theorem generateUser (h : w.Honest S) {nickname : String} {genesis : Authenticated C}
    {nextNonce : ℕ} {now : ℤ} (hkey : genesis.inner.header.key = S.key)
    (h0 : genesis.inner.header.height = 0)
    (hnonce : genesis.inner.header.nextNonce = S.getPublic nextNonce)
    (hfresh : w.Fresh S nextNonce) :
    { w.saveNonce S nextNonce with
      store := w.store.apply (.insertUser nickname genesis now) }.Honest S := by
  have hreachable := reachable_apply h.reachable (.insertUser nickname genesis now)
  apply (Store.contents_apply (s := w.store) (.insertUser nickname genesis now)).elim
  · intro hcontents
    apply (h.saveNonce nextNonce).setStore hreachable
    rw [Store.own, hcontents]
    rfl
  · intro hcontents
    obtain ⟨e, he, hcontents⟩ := hcontents
    obtain rfl := Option.some.inj he
    apply (h.saveNonce nextNonce).appendOwn hreachable hkey hcontents
    · apply (h.saveNonce nextNonce).singleUse.append
      · show genesis.inner.header.nextNonce ∈ _
        rw [hnonce, publicNonces_saveNonce]
        simp
      · show genesis.inner.header.nextNonce ∉ _
        rw [hnonce]
        intro hcommits
        obtain ⟨c, hc, heq⟩ := List.mem_map.mp hcommits
        apply hfresh
        rw [← heq]
        exact h.singleUse.saved c hc
      · exact fun hpos => absurd hpos (by rw [Authenticated.entry, h0]; decide)
      · exact fun hpos => absurd hpos (by rw [Authenticated.entry, h0]; decide)
    · intro i hi
      rw [hnonce] at hi
      exact hfresh ((h.tasks i).pending hi).1

theorem other (h : w.Honest S) {op : StoreOp C}
    (hop : ∀ e ∈ op.envelope, e.inner.header.key ≠ S.key) :
    { w with store := w.store.apply op }.Honest S := by
  apply h.setStore (reachable_apply h.reachable op)
  apply (Store.contents_apply (s := w.store) op).elim
  · intro hcontents
    rw [Store.own, hcontents]
    rfl
  · intro hcontents
    obtain ⟨e, he, hcontents⟩ := hcontents
    exact own_append_of_ne (hop e he) hcontents

private theorem getTip (h : w.Honest S) (i : ℕ) {msg : M}
    {tips : List (XOnlyPublicKey × ℤ × CanonicalEnvelopeHash)} {tip : Row M}
    (htip : w.store.IsTip S.key tip) : (w.setTask i (.getSecret msg tips tip.body)).Honest S := by
  obtain ⟨hmem, _, huser, _⟩ := htip
  have hsourced := h.reachable.sourced
  apply h.setTask i _ fun nonce hnonce => by cases hnonce
  refine ⟨?_, h.reachable.linked.height_nonneg hmem⟩
  -- the rows of the user are the rows of the key
  obtain ⟨u, hu, hid⟩ := Option.map_eq_some_iff.mp huser
  obtain ⟨humem, hukey⟩ := Store.userByKey_some hu
  obtain ⟨u', hu', hid', hkey'⟩ := hsourced.user tip hmem
  have hsame : u = u' := by
    apply List.inj_on_of_nodup_map _ humem hu' (hid.trans hid'.symm)
    rw [hsourced.userIds]
    exact List.nodup_range'
  apply List.mem_filter.mpr
  rw [← hsourced.hash_eq hmem]
  refine ⟨Store.mem_contents hmem, decide_eq_true ?_⟩
  rw [← hukey, hsame, hkey']
  rfl

private theorem getSecret (h : w.Honest S) {i : ℕ} {msg : M}
    {tips : List (XOnlyPublicKey × ℤ × CanonicalEnvelopeHash)} {myTip : Envelope M}
    (htask : w.tasks i = .getSecret msg tips myTip) {row : PrecomittedPublicNonce × ℕ}
    (hrow : w.messageNonces.find? (·.1 = myTip.header.nextNonce) = some row) :
    (w.setTask i (.sign msg tips myTip row.2)).Honest S := by
  have hok := h.tasks i
  rw [htask] at hok
  apply h.setTask i _ fun nonce hnonce => by cases hnonce
  refine ⟨hok.1, hok.2, ?_⟩
  rw [← h.table row (List.mem_of_find?_eq_some hrow)]
  simpa using List.find?_some hrow

theorem step [DecidableEq M] (h : w.Honest S) {ev : WriterEvent C} (hstep : w.step S ev = some w') :
    w'.Honest S := by
  cases ev with
  | generateUser nickname genesis nextNonce now =>
    simp only [Writers.step] at hstep
    split_ifs at hstep with hguard
    obtain rfl := Option.some.inj hstep
    exact h.generateUser hguard.1 hguard.2.1 hguard.2.2.1 hguard.2.2.2
  | call i msg =>
    simp only [Writers.step] at hstep
    split at hstep
    · obtain rfl := Option.some.inj hstep
      exact h.setTask i trivial fun nonce hnonce => by cases hnonce
    · cases hstep
  | getTip i tips tip =>
    simp only [Writers.step] at hstep
    split at hstep
    · split_ifs at hstep with htip
      obtain rfl := Option.some.inj hstep
      exact h.getTip i htip
    · cases hstep
  | getSecret i =>
    simp only [Writers.step] at hstep
    split at hstep
    · rename_i htask
      obtain ⟨row, hrow, rfl⟩ := Option.map_eq_some_iff.mp hstep
      exact h.getSecret htask hrow
    · cases hstep
  | sign i nextNonce sentTimeMs checkpoints =>
    simp only [Writers.step] at hstep
    split at hstep
    · rename_i htask
      split_ifs at hstep with hfresh
      obtain rfl := Option.some.inj hstep
      split
      · rename_i wrapped hwrapped
        exact h.signStep htask hfresh (authenticate_eq hwrapped)
      · exact (h.saveNonce nextNonce).setIdle i
    · cases hstep
  | insert i now =>
    simp only [Writers.step] at hstep
    split at hstep
    · rename_i htask
      obtain rfl := Option.some.inj hstep
      exact h.insertStep htask now
    · cases hstep
  | fail i =>
    obtain rfl := Option.some.inj hstep
    exact h.setIdle i
  | other op =>
    simp only [Writers.step] at hstep
    split_ifs at hstep with hop
    obtain rfl := Option.some.inj hstep
    exact h.other hop

theorem initial : (Writers.initial : Writers C).Honest S := by
  constructor
  · exact .refl
  · simp [Writers.initial]
  · exact .empty
  · exact fun i => trivial
  · intro i j nonce hi
    cases hi

end Honest

def run [DecidableEq M] (S : Signer C) : List (WriterEvent C) → Writers C → Option (Writers C)
  | [], w => some w
  | ev :: evs, w => (w.step S ev).bind (run S evs)

private theorem reachable_of_run [DecidableEq M] {evs : List (WriterEvent C)} (h : Reachable S w)
    (hrun : run S evs w = some w') : Reachable S w' := by
  induction evs generalizing w with
  | nil =>
    obtain rfl := Option.some.inj hrun
    exact h
  | cons ev evs ih =>
    obtain ⟨w₁, hstep, hrest⟩ := Option.bind_eq_some_iff.mp hrun
    exact ih (h.tail trivial hstep) hrest

private theorem Reachable.honest [DecidableEq M] (h : Reachable S w) : w.Honest S :=
  Run.invariant (fun _ _ _ _ hw hstep => Honest.step hw hstep) h .initial

end Writers

/-- The rows of the key above height 0 have different parents and are signed with different
nonces. -/
theorem honest_writer_single_use [DecidableEq M] (h : Writers.Reachable S w) :
    ∀ r ∈ w.store.messages, ∀ r' ∈ w.store.messages, r ≠ r' → r.key = S.key → r'.key = S.key →
      0 < r.height → 0 < r'.height → r.prevMsg ≠ r'.prevMsg ∧ r.nonce ≠ r'.nonce := by
  intro r hr r' hr' hne hkey hkey' h0 h0'
  have hhonest := h.honest
  have hlinked := hhonest.reachable.linked
  have hsourced := hhonest.reachable.sourced
  have hown : ∀ {r : Row M}, r ∈ w.store.messages → r.key = S.key →
      (r.hash, r.body) ∈ w.store.own S.key :=
    fun hr hkey => List.mem_filter.mpr ⟨Store.mem_contents hr, decide_eq_true hkey⟩
  have hprev : r.prevMsg ≠ r'.prevMsg := by
    intro heq
    apply hne
    have hsame := List.inj_on_of_nodup_map hhonest.singleUse.children
      (List.mem_filter.mpr ⟨hown hr hkey, decide_eq_true h0⟩)
      (List.mem_filter.mpr ⟨hown hr' hkey', decide_eq_true h0'⟩) heq
    exact hlinked.eq_of_hash hr hr' (congrArg Prod.fst hsame)
  refine ⟨hprev, ?_⟩
  have hnonce := hhonest.singleUse.nonce_ne (hown hr hkey) (hown hr' hkey') h0 h0' hprev
  obtain ⟨sig, hsig, hr⟩ := hsourced.signature_eq hr
  obtain ⟨sig', hsig', hr'⟩ := hsourced.signature_eq hr'
  rw [hr, hr']
  intro heq
  apply hnonce
  show r.body.header.unsigned.signature.map Signature.r =
    r'.body.header.unsigned.signature.map Signature.r
  rw [hsig, hsig', Option.map_some, Option.map_some, heq]

end

def smallSigner : Signer smallCrypto where
  key := ⟨5⟩
  getPublic nonce := ⟨⟨nonce⟩⟩
  signWithPrecomittedNonce nonce digest := ⟨nonce, nonce + digest.digest * 5⟩
  nonce_eq _ _ := rfl

/-- The genesis of alice and her first message, as the tips that are read. -/
def raceTips : List (Row ℕ) :=
  [⟨1, smallEnvelope 5 none 0 10 11 0, ⟨1⟩, 1, 0, none, none, 10, true⟩,
    ⟨2, smallSigner.signWith (smallSigner.wrapMessage 1 [] (smallEnvelope 5 none 0 10 11 0) ⟨⟨12⟩⟩ 0
      .default) 11, ⟨2⟩, 1, 0, some 1, some 1, 11, true⟩]

/-- Two tasks read one tip and sign with one nonce; the second one is refused and tries again. -/
def raceEvents : List (WriterEvent smallCrypto) :=
  [.generateUser "alice" (smallGenesis 5 10 11 0) 11 0, .call 0 1, .call 1 2,
    .getTip 0 [] raceTips[0], .getTip 1 [] raceTips[0], .getSecret 0, .getSecret 1,
    .sign 0 12 0 .default, .sign 1 13 0 .default, .insert 0 0, .insert 1 0,
    .getTip 1 [] raceTips[1], .getSecret 1, .sign 1 14 0 .default, .insert 1 0]

theorem honest_writer_race :
    ∃ w, Writers.Reachable smallSigner w ∧
      w.store.messages.map (fun r => (r.height, r.nonce)) = [(0, 10), (1, 11), (2, 12)] ∧
      ∀ r ∈ w.store.messages, ∀ r' ∈ w.store.messages, r ≠ r' → r.key = ⟨5⟩ → r'.key = ⟨5⟩ →
        0 < r.height → 0 < r'.height → r.prevMsg ≠ r'.prevMsg ∧ r.nonce ≠ r'.nonce := by
  have hrun : (Writers.run smallSigner raceEvents .initial).map
      (fun w => w.store.messages.map fun r => (r.height, r.nonce)) =
        some [(0, 10), (1, 11), (2, 12)] := by
    decide +kernel
  obtain ⟨w, hw, hrows⟩ := Option.map_eq_some_iff.mp hrun
  have hreachable := Writers.reachable_of_run (S := smallSigner) .refl hw
  exact ⟨w, hreachable, hrows, honest_writer_single_use hreachable⟩

end JudicaVM
