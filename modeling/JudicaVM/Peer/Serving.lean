import JudicaVM.Attest.ArrivalOrder
import JudicaVM.Attest.Push
import JudicaVM.Lib.Members
import JudicaVM.Peer.Session

/-!
# Serving a peer

A session answers what the peer requests from the store. The envelopes that the peer asks for are
looked up one by one, and the ones that it posts are authenticated before any of them is stored.
-/

namespace JudicaVM

open Members

section

variable {M : Type} {C : Crypto M}

/-- What is handed to the socket while a request is served, and what serving it results in. -/
structure Served (M : Type) where
  reply : Option (AttestSocketProtocol M)
  result : Except Exit Unit

def respond (seq : ℕ) (r : AttestResponse M) (socketOpen : Bool) : Served M where
  reply := some (.response seq r)
  result := if socketOpen then .ok () else .error (.error .socketClosed)

instance : LinearOrder CanonicalEnvelopeHash :=
  LinearOrder.lift' CanonicalEnvelopeHash.digest fun a b h => by
    cases a
    cases b
    exact congrArg CanonicalEnvelopeHash.mk h

def Store.fetchSpecificTips (s : Store M) (tips : List CanonicalEnvelopeHash) (seq : ℕ)
    (socketOpen : Bool) : Served M :=
  match s.messagesByHash some ((tips.insertionSort (· ≤ ·)).destutter (· ≠ ·)) with
  | some allTips => respond seq (.specificTips allTips) socketOpen
  | none => ⟨none, .error (.error .databaseError)⟩

/-- The outcomes of inserting envelopes one after the other, and the store after them. -/
def Store.insertAll (now : ℤ) : Store M → List (Authenticated C) → List Bool × Store M
  | s, [] => ([], s)
  | s, e :: authed =>
    let inserted := s.tryInsertAuthenticatedEnvelope e false now
    let rest := insertAll now inserted.2 authed
    (inserted.1.isOk :: rest.1, rest.2)

def Store.servePost (s : Store M) (C : Crypto M) (envelopes : List (Envelope M)) (now : ℤ)
    (seq : ℕ) (socketOpen : Bool) : Served M × Store M :=
  let inserted := s.insertAll now (authed C envelopes)
  (respond seq (.post inserted.1) socketOpen, inserted.2)

/-- `latest` are the rows of the query for the latest tips. -/
def Store.serve (s : Store M) (C : Crypto M) (latest : List (Row M)) (now : ℤ) (seq : ℕ)
    (socketOpen : Bool) : AttestRequest M → Served M × Store M
  | .latestTips => (respond seq (.latestTips (latest.map Row.body)) socketOpen, s)
  | .specificTips tips => (s.fetchSpecificTips tips seq socketOpen, s)
  | .post envelopes => s.servePost C envelopes now seq socketOpen

variable {s : Store M} {tips : List CanonicalEnvelopeHash} {seq : ℕ} {m : AttestRequest M}

private theorem Session.step_request {t : Session M} {served : Except Exit Unit}
    (hexit : t.exit = none)
    (hseq : t.seq + 1 < 2 ^ 64) :
    t.step (.receive (some (.text (some (.request seq m)))) served) = some
      (match served with
        | .ok _ => { t with seq := t.seq + 1 }
        | .error e => { t with exit := some e }) := by
  have hadd : Checked.add 64 t.seq 1 = .ok (t.seq + 1) := Checked.add_of_lt hseq
  show (if t.exit = none then
    some (t.turn (t.receive (some (.text (some (.request seq m)))) served)) else none) = _
  rw [if_pos hexit, Session.turn, hadd]
  cases served <;> rfl

/-- The peer is sent what is stored of the tips that it asks for, and the session goes on. -/
structure Store.AnswersAsKnown (s : Store M) (tips : List CanonicalEnvelopeHash) (seq : ℕ) : Prop
    where
  reply : ∃ es, (s.fetchSpecificTips tips seq true).reply =
      some (.response seq (.specificTips es)) ∧
    es.Perm ((s.messages.filter fun r => r.hash ∈ tips).map Row.body)
  continues : ∀ t : Session M, t.exit = none → t.seq + 1 < 2 ^ 64 →
    t.step (.receive (some (.text (some (.request seq (.specificTips tips)))))
      (s.fetchSpecificTips tips seq true).result) = some { t with seq := t.seq + 1 }

theorem mem_requested {h : CanonicalEnvelopeHash} :
    h ∈ (tips.insertionSort (· ≤ ·)).destutter (· ≠ ·) ↔ h ∈ tips := by
  rw [mem_destutter_ne, List.mem_insertionSort]

theorem requested_nodup (tips : List CanonicalEnvelopeHash) :
    ((tips.insertionSort (· ≤ ·)).destutter (· ≠ ·)).Nodup :=
  nodup_destutter (List.pairwise_insertionSort _ _)

private theorem Store.Linked.requested_perm (hs : s.Linked)
    (hknown : ∀ h ∈ tips, ∃ r ∈ s.messages, r.hash = h) :
    ((tips.insertionSort (· ≤ ·)).destutter (· ≠ ·)).Perm
      ((s.messages.filter fun r => r.hash ∈ tips).map Row.hash) := by
  have hnodup : ((s.messages.filter fun r => r.hash ∈ tips).map Row.hash).Nodup :=
    hs.hashes.sublist (List.filter_sublist.map _)
  apply (List.perm_ext_iff_of_nodup (requested_nodup tips) hnodup).mpr
  intro h
  rw [mem_requested, List.mem_map]
  constructor
  · intro hh
    obtain ⟨r, hr, rfl⟩ := hknown h hh
    exact ⟨r, List.mem_filter.mpr ⟨hr, decide_eq_true hh⟩, rfl⟩
  · intro hh
    obtain ⟨r, hr, rfl⟩ := hh
    exact of_decide_eq_true (List.mem_filter.mp hr).2

private theorem Store.decoded_some (h : CanonicalEnvelopeHash) :
    s.decoded some h = (s.rowByHash h).map Row.body := by
  rw [Store.decoded, Option.map_eq_bind]
  rfl

private theorem Store.messagesByHash_eq_some_iff {hashes : List CanonicalEnvelopeHash}
    {es : List (Envelope M)} : s.messagesByHash some hashes = some es ↔
      (∀ h ∈ hashes, ∃ r ∈ s.messages, r.hash = h) ∧
        es = hashes.filterMap (s.decoded some) := by
  have hsome (h : CanonicalEnvelopeHash) :
      (s.decoded some h).isSome ↔ ∃ r ∈ s.messages, r.hash = h := by
    rw [Store.decoded_some, Option.isSome_map, Store.rowByHash, List.find?_isSome]
    simp only [decide_eq_true_eq]
  rw [Store.messagesByHash, mapM_eq_some_iff]
  simp only [hsome]

/-- The answer to a request for specific tips is complete if and only if all of them are stored. -/
theorem specific_tips_answered_iff (hs : Store.Reachable C s) (tips : List CanonicalEnvelopeHash)
    (seq : ℕ) : s.AnswersAsKnown tips seq ↔ ∀ h ∈ tips, ∃ r ∈ s.messages, r.hash = h := by
  have hlinked := hs.linked
  constructor
  · intro h x hx
    obtain ⟨es, hreply, -⟩ := h.reply
    cases hfound : s.messagesByHash some ((tips.insertionSort (· ≤ ·)).destutter (· ≠ ·)) with
    | none =>
      rw [Store.fetchSpecificTips, hfound] at hreply
      cases hreply
    | some found => exact (Store.messagesByHash_eq_some_iff.mp hfound).1 x (mem_requested.mpr hx)
  · intro hknown
    have hperm := hlinked.requested_perm hknown
    obtain ⟨es, hes⟩ : ∃ es, es = ((tips.insertionSort (· ≤ ·)).destutter (· ≠ ·)).filterMap
        (s.decoded some) := ⟨_, rfl⟩
    have hfound := Store.messagesByHash_eq_some_iff.mpr
      ⟨fun h hh => hknown h (mem_requested.mp hh), hes⟩
    have hserved : s.fetchSpecificTips tips seq true = respond seq (.specificTips es) true := by
      rw [Store.fetchSpecificTips, hfound]
    have hbodies : ((s.messages.filter fun r => r.hash ∈ tips).map Row.hash).filterMap
        (s.decoded some) = (s.messages.filter fun r => r.hash ∈ tips).map Row.body := by
      rw [List.filterMap_map, ← List.filterMap_eq_map]
      apply List.filterMap_congr
      intro r hr
      show s.decoded some r.hash = some r.body
      rw [Store.decoded_some, hlinked.rowByHash_eq (List.mem_of_mem_filter hr)]
      rfl
    constructor
    · refine ⟨es, congrArg Served.reply hserved, ?_⟩
      rw [hes, ← hbodies]
      exact hperm.filterMap _
    · intro t hexit hseq
      rw [hserved, Session.step_request hexit hseq]
      rfl

def Store.Stored (s : Store M) (h : CanonicalEnvelopeHash) : Prop :=
  ∃ r ∈ s.messages, r.hash = h

/-- The place `i` of the posted envelopes, at which there is `e`, is when `e` is stored. -/
def Store.StoresAt (s : Store M) (C : Crypto M) (envelopes : List (Envelope M)) (now : ℤ) (i : ℕ)
    (e : Envelope M) : Prop :=
  ¬(s.postEnvelope C (envelopes.take i) now).Stored (C.canonicalizedHash e) ∧
    (s.postEnvelope C (envelopes.take (i + 1)) now).Stored (C.canonicalizedHash e)

/-- The envelopes before the first one that is not authentic have one outcome each, which says
whether the envelope was stored. The others have no effect, and neither have those that are rejected
by the store. -/
structure Store.ReportsPost (s : Store M) (C : Crypto M) (envelopes : List (Envelope M)) (now : ℤ)
    (seq : ℕ) (outcomes : List Bool) : Prop where
  served : s.servePost C envelopes now seq true =
    (respond seq (.post outcomes) true, s.postEnvelope C envelopes now)
  length : outcomes.length = (envelopes.takeWhile fun e => (e.authenticate C).isSome).length
  stored : ∀ i e, envelopes[i]? = some e →
    (outcomes[i]? = some true ↔ s.StoresAt C envelopes now i e)
  rejected : ∀ i, outcomes[i]? = some false → s.servePost C (envelopes.eraseIdx i) now seq true =
    (respond seq (.post (outcomes.eraseIdx i)) true, s.postEnvelope C envelopes now)
  rest : s.servePost C (envelopes.takeWhile fun e => (e.authenticate C).isSome) now seq true =
    s.servePost C envelopes now seq true

variable {envelopes : List (Envelope M)} {valid : List (Authenticated C)} {e : Authenticated C}
  {now : ℤ} {i : ℕ}

private theorem Store.insert_spec (s : Store M) (e : Authenticated C) (now : ℤ) :
    (¬s.Stored (C.canonicalizedHash e.inner) ∧
      (s.tryInsertAuthenticatedEnvelope e false now).2.Stored (C.canonicalizedHash e.inner) ∧
      (s.tryInsertAuthenticatedEnvelope e false now).1 = .ok ()) ∨
    ((s.tryInsertAuthenticatedEnvelope e false now).2 = s ∧
      (s.tryInsertAuthenticatedEnvelope e false now).1.isOk = false) := by
  have hinsert : s.tryInsertAuthenticatedEnvelope e false now =
      s.tryInsertAuthenticatedEnvelopeWithTxn e now := by
    unfold Store.tryInsertAuthenticatedEnvelope
    cases e.inner.header.ancestors <;> simp
  rw [hinsert]
  unfold Store.tryInsertAuthenticatedEnvelopeWithTxn
  cases s.userByKey e.inner.header.key with
  | none => exact .inr ⟨rfl, rfl⟩
  | some user =>
    dsimp only
    split_ifs with hchecks hnew
    · exact .inr ⟨rfl, rfl⟩
    · apply Or.inl
      refine ⟨?_, ?_, rfl⟩
      · intro h
        obtain ⟨r, hr, hhash⟩ := h
        apply hnew
        rw [Store.rowByHash, List.find?_isSome]
        exact ⟨r, hr, decide_eq_true hhash⟩
      · exact ⟨_, Store.mem_push.mpr ⟨_, .inr rfl, rfl⟩, Row.connectGapParent_hash _ _⟩
    · exact .inr ⟨rfl, rfl⟩

private theorem Store.insertAll_snd (s : Store M) (valid : List (Authenticated C)) (now : ℤ) :
    (s.insertAll now valid).2 =
      valid.foldl (fun s e => (s.tryInsertAuthenticatedEnvelope e false now).2) s := by
  induction valid generalizing s with
  | nil => rfl
  | cons e valid ih => exact ih _

private theorem Store.insertAll_length (s : Store M) (valid : List (Authenticated C)) (now : ℤ) :
    (s.insertAll now valid).1.length = valid.length := by
  induction valid generalizing s with
  | nil => rfl
  | cons e valid ih =>
    show ((insertAll now (s.tryInsertAuthenticatedEnvelope e false now).2 valid).1).length + 1 = _
    rw [ih, List.length_cons]

private theorem Store.insertAll_outcome (s : Store M) (hi : valid[i]? = some e) :
    (s.insertAll now valid).1[i]? = some true ↔
      ¬(s.insertAll now (valid.take i)).2.Stored (C.canonicalizedHash e.inner) ∧
        (s.insertAll now (valid.take (i + 1))).2.Stored (C.canonicalizedHash e.inner) := by
  induction valid generalizing s i with
  | nil => cases hi
  | cons e' valid ih =>
    cases i with
    | zero =>
      obtain rfl := Option.some.inj hi
      show some (s.tryInsertAuthenticatedEnvelope e' false now).1.isOk = some true ↔
        ¬s.Stored _ ∧ (s.tryInsertAuthenticatedEnvelope e' false now).2.Stored _
      obtain ⟨hnew, hstored, hok⟩ | ⟨hsame, hfail⟩ := s.insert_spec e' now
      · rw [hok]
        exact iff_of_true rfl ⟨hnew, hstored⟩
      · rw [hfail, hsame]
        exact iff_of_false (by decide) fun h => h.1 h.2
    | succ i => exact ih (s.tryInsertAuthenticatedEnvelope e' false now).2 hi

private theorem Store.insertAll_eraseIdx (s : Store M)
    (hi : (s.insertAll now valid).1[i]? = some false) :
    s.insertAll now (valid.eraseIdx i) =
      ((s.insertAll now valid).1.eraseIdx i, (s.insertAll now valid).2) := by
  induction valid generalizing s i with
  | nil => cases hi
  | cons e valid ih =>
    cases i with
    | zero =>
      have hfail : (s.tryInsertAuthenticatedEnvelope e false now).1.isOk = false :=
        Option.some.inj hi
      obtain ⟨-, -, hok⟩ | ⟨hsame, -⟩ := s.insert_spec e now
      · rw [hok] at hfail
        cases hfail
      · show s.insertAll now valid =
          insertAll now (s.tryInsertAuthenticatedEnvelope e false now).2 valid
        rw [hsame]
    | succ i =>
      have htail := ih (s.tryInsertAuthenticatedEnvelope e false now).2 hi
      show ((s.tryInsertAuthenticatedEnvelope e false now).1.isOk ::
          (insertAll now (s.tryInsertAuthenticatedEnvelope e false now).2
            (valid.eraseIdx i)).1, _) = _
      rw [htail]
      rfl

private theorem authed_length (envelopes : List (Envelope M)) : (authed C envelopes).length =
    (envelopes.takeWhile fun e => (e.authenticate C).isSome).length := by
  induction envelopes with
  | nil => rfl
  | cons e envelopes ih =>
    rw [authed, List.takeWhile_cons]
    cases e.authenticate C with
    | none => rfl
    | some valid => exact congrArg (· + 1) ih

private theorem authed_getElem? {a : Authenticated C} (hi : (authed C envelopes)[i]? = some a) :
    envelopes[i]? = some a.inner := by
  induction envelopes generalizing i with
  | nil => cases hi
  | cons e envelopes ih =>
    rw [authed] at hi
    cases hvalid : e.authenticate C with
    | none =>
      rw [hvalid] at hi
      cases hi
    | some valid =>
      rw [hvalid] at hi
      cases i with
      | zero =>
        obtain rfl := Option.some.inj hi
        exact congrArg some (Writers.authenticate_eq hvalid).symm
      | succ i => exact ih hi

private theorem authed_take (envelopes : List (Envelope M)) (i : ℕ) :
    authed C (envelopes.take i) = (authed C envelopes).take i := by
  induction envelopes generalizing i with
  | nil => simp [authed]
  | cons e envelopes ih =>
    cases i with
    | zero => rfl
    | succ i =>
      rw [List.take_succ_cons, authed, authed]
      cases e.authenticate C with
      | none => rfl
      | some valid => exact congrArg (valid :: ·) (ih i)

private theorem authed_eraseIdx (hi : i < (authed C envelopes).length) :
    authed C (envelopes.eraseIdx i) = (authed C envelopes).eraseIdx i := by
  induction envelopes generalizing i with
  | nil => cases hi
  | cons e envelopes ih =>
    rw [authed] at hi ⊢
    cases hvalid : e.authenticate C with
    | none =>
      rw [hvalid] at hi
      cases hi
    | some valid =>
      rw [hvalid] at hi
      cases i with
      | zero => rfl
      | succ i =>
        rw [List.eraseIdx_cons_succ, authed, hvalid]
        exact congrArg (valid :: ·) (ih (Nat.lt_of_succ_lt_succ hi))

private theorem authed_takeWhile (envelopes : List (Envelope M)) :
    authed C (envelopes.takeWhile fun e => (e.authenticate C).isSome) = authed C envelopes := by
  induction envelopes with
  | nil => rfl
  | cons e envelopes ih =>
    rw [List.takeWhile_cons]
    cases hvalid : e.authenticate C with
    | none => simp [authed, hvalid]
    | some valid =>
      show authed C (e :: _) = _
      rw [authed, authed, hvalid]
      exact congrArg (valid :: ·) ih

private theorem Store.insertAll_authed (s : Store M) (envelopes : List (Envelope M)) (now : ℤ) :
    (s.insertAll now (authed C envelopes)).2 = s.postEnvelope C envelopes now :=
  s.insertAll_snd _ now

/-- What the answer to posted envelopes reports. -/
theorem post_outcomes_reported (s : Store M) (C : Crypto M) (envelopes : List (Envelope M))
    (now : ℤ) (seq : ℕ) : ∃ outcomes, s.ReportsPost C envelopes now seq outcomes := by
  have hlength := s.insertAll_length (authed C envelopes) now
  refine ⟨(s.insertAll now (authed C envelopes)).1, ?_, ?_, ?_, ?_, ?_⟩
  · show (respond _ _ _, (s.insertAll now (authed C envelopes)).2) = _
    rw [s.insertAll_authed]
  · rw [hlength, authed_length]
  · intro i e hi
    cases hvalid : (authed C envelopes)[i]? with
    | some a =>
      have he := authed_getElem? hvalid
      rw [hi] at he
      obtain rfl := Option.some.inj he
      rw [s.insertAll_outcome hvalid, ← authed_take, ← authed_take, s.insertAll_authed,
        s.insertAll_authed]
      rfl
    | none =>
      -- neither this envelope nor one after it is inserted
      have hle : (authed C envelopes).length ≤ i := List.getElem?_eq_none_iff.mp hvalid
      have hsame : s.postEnvelope C (envelopes.take i) now =
          s.postEnvelope C (envelopes.take (i + 1)) now := by
        unfold Store.postEnvelope
        rw [authed_take, authed_take, List.take_of_length_le hle,
          List.take_of_length_le (Nat.le_succ_of_le hle)]
      have hnone : (s.insertAll now (authed C envelopes)).1[i]? = none :=
        List.getElem?_eq_none_iff.mpr (hlength ▸ hle)
      rw [hnone]
      apply iff_of_false
      · intro h
        cases h
      · intro h
        exact h.1 (hsame ▸ h.2)
  · intro i hi
    have hlt : i < (authed C envelopes).length :=
      hlength ▸ (List.getElem?_eq_some_iff.mp hi).1
    show (respond _ (.post (s.insertAll now _).1) _, (s.insertAll now _).2) = _
    rw [authed_eraseIdx hlt, s.insertAll_eraseIdx hi, s.insertAll_authed]
  · show (respond _ (.post (s.insertAll now _).1) _, (s.insertAll now _).2) = _
    rw [authed_takeWhile]
    rfl

end

private theorem lateParent_stored : ∀ h ∈ [⟨3⟩, ⟨1⟩, ⟨3⟩],
    ∃ r ∈ lateParent.messages, r.hash = (h : CanonicalEnvelopeHash) := by decide +kernel

theorem specific_tips_answered_lateParent : lateParent.AnswersAsKnown [⟨3⟩, ⟨1⟩, ⟨3⟩] 1 :=
  (specific_tips_answered_iff lateParent_reachable _ _).mpr lateParent_stored

/-- A hash that is not stored withholds the envelope with the other one and ends the session. -/
theorem unknown_tip_ends_session :
    (∃ r ∈ lateParent.messages, r.hash = ⟨2⟩) ∧
    (lateParent.fetchSpecificTips [⟨2⟩, ⟨9⟩] 1 true).reply.isNone ∧
    (({} : Session ℕ).step (.receive (some (.text (some (.request 1 (.specificTips [⟨2⟩, ⟨9⟩])))))
      (lateParent.fetchSpecificTips [⟨2⟩, ⟨9⟩] 1 true).result)).map Session.exit =
        some (some (.error .databaseError)) ∧
    ¬∀ s : Store ℕ, Store.Reachable smallCrypto s → ∀ tips seq, s.AnswersAsKnown tips seq := by
  have hfound : lateParent.messagesByHash some
      ((([⟨2⟩, ⟨9⟩] : List CanonicalEnvelopeHash).insertionSort (· ≤ ·)).destutter (· ≠ ·)) =
        none := by
    apply Option.isNone_iff_eq_none.mp
    decide +kernel
  have hserved : lateParent.fetchSpecificTips [⟨2⟩, ⟨9⟩] 1 true =
      ⟨none, .error (.error .databaseError)⟩ := by
    rw [Store.fetchSpecificTips, hfound]
  refine ⟨by decide +kernel, by rw [hserved]; rfl, by rw [hserved]; rfl, ?_⟩
  intro h
  obtain ⟨es, hreply, -⟩ := (h lateParent lateParent_reachable [⟨2⟩, ⟨9⟩] 1).reply
  rw [hserved] at hreply
  cases hreply

/-- A registered user without a later envelope. -/
def registered : Store ℕ :=
  ([.insertUser "alice" (smallGenesis 5 10 11 0) 0] : List (StoreOp smallCrypto)).foldl
    Store.apply .empty

theorem registered_reachable : Store.Reachable smallCrypto registered :=
  Store.reachable_foldl _

/-- An envelope with the signature of another one. -/
def forged : Envelope ℕ := { smallEnvelope 5 none 0 10 11 0 with msg := 7 }

/-- An envelope that is not authentic ends the handling of a post. -/
theorem forged_ends_post :
    (¬∀ s : Store ℕ, Store.Reachable smallCrypto s → ∀ envelopes now seq, ∃ outcomes,
      (s.servePost smallCrypto envelopes now seq true).1.reply =
        some (.response seq (.post outcomes)) ∧ outcomes.length = envelopes.length) ∧
    ¬∀ s : Store ℕ, Store.Reachable smallCrypto s → ∀ e envelopes now,
      e.authenticate smallCrypto = none →
        s.postEnvelope smallCrypto (e :: envelopes) now =
          s.postEnvelope smallCrypto envelopes now := by
  constructor
  · intro h
    obtain ⟨outcomes, hreply, hlength⟩ := h registered registered_reachable [forged] 0 1
    have hnone : registered.insertAll 0 (authed smallCrypto [forged]) = ([], registered) := by
      decide +kernel
    have hpost : (registered.servePost smallCrypto [forged] 0 1 true).1.reply =
        some (.response 1 (.post [])) := by
      rw [Store.servePost, hnone]
      rfl
    rw [hpost] at hreply
    obtain rfl := AttestResponse.post.inj (AttestSocketProtocol.response.inj
      (Option.some.inj hreply)).2
    cases hlength
  · intro h
    have hsame := h registered registered_reachable forged
      [(smallLater 5 (0, 0) 0 11 12 1).inner] 0 (by decide +kernel)
    have hdifferent : registered.postEnvelope smallCrypto
        [forged, (smallLater 5 (0, 0) 0 11 12 1).inner] 0 ≠
          registered.postEnvelope smallCrypto [(smallLater 5 (0, 0) 0 11 12 1).inner] 0 := by
      decide +kernel
    exact hdifferent hsame

end JudicaVM
