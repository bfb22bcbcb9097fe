import JudicaVM.Attest.Retrying
import JudicaVM.Peer.Pulling

/-!
# Learning a chain

A peer that offers the tip of a chain and answers every request can bring a node that fetches from
it to store the whole chain. The node need not know the author, and the peer need not be allowed to
send unsolicited tips: the parents lead down to the genesis, which makes the author known, and the
tip is offered again.
-/

namespace JudicaVM

open Transition

section

variable {M : Type} {C : Crypto M}

/-- The envelopes of one author from a tip down to the genesis. Beside its parent, an envelope names
tips that are stored. -/
inductive ChainDown (store : Store M) (g : Authenticated C) : List (Authenticated C) → Prop
  | genesis (hgenesis : g.isGenesis) (htips : ∀ x ∈ g.inner.header.tips, store.Stored x.2.2) :
      ChainDown store g [g]
  | later {e p : Authenticated C} {rest : List (Authenticated C)} (hheight : 0 < e.inner.header.height)
      (hancestors : e.inner.header.ancestors = some ⟨p.entry.1, g.entry.1⟩)
      (hkey : e.inner.header.key = g.inner.header.key)
      (htips : ∀ x ∈ e.inner.header.tips, store.Stored x.2.2)
      (hrest : ChainDown store g (p :: rest)) : ChainDown store g (e :: p :: rest)

/-- Below an envelope of the chain that is stored there are no gaps, and its author is known. -/
def Store.GapFree (store : Store M) : List (Authenticated C) → Prop
  | [] => True
  | e :: rest =>
    (store.Stored e.entry.1 → (∀ p ∈ rest, store.Stored p.entry.1) ∧
      (store.userByKey e.inner.header.key).isSome) ∧ GapFree store rest

/-- What is requested after an envelope has been processed. -/
def Store.unknownNames (store : Store M) (e : Authenticated C) :
    List (List CanonicalEnvelopeHash) :=
  if (store.messageNotExists e.inner.named).isEmpty then []
  else [store.messageNotExists e.inner.named]

/-- The answer of a peer that has the envelopes of a chain. -/
def answer (chain : List (Authenticated C)) (tips : List CanonicalEnvelopeHash) :
    List (Envelope M) :=
  (chain.filter fun e => e.entry.1 ∈ tips).map Authenticated.inner

/-- Events of a session with a peer that offers the tip of a chain and answers a request with the
envelopes that it asks for. -/
def Puller.ServedBy (s : Puller C) (chain : List (Authenticated C)) (i : ℕ) : PullEvent C → Prop
  | .turn j (.latest resp) => j = i ∧ ∃ tip ∈ chain.head?, resp = [tip.inner]
  | .turn j (.respond resp) => j = i ∧ ∃ t ∈ s.sessions i, resp = answer chain t.fetcher.held
  | .turn j .receiveEnvelopes | .turn j .authenticate | .turn j .query | .turn j .request
  | .turn j .receiveTips => j = i
  | .insert j _ ok => j = i ∧ ok = true
  | .fetch j => j = i
  | .cleanup _ => True
  | _ => False

/-- A session without the permission for unsolicited tips whose tasks wait. -/
def PullSession.resting (awaited : Bool)
    (nextEnvelope : List (List (Envelope M) × List CanonicalEnvelopeHash))
    (tipsToResolve : List (List CanonicalEnvelopeHash)) : PullSession C where
  allowUnsolicitedTips := false
  awaited
  nextEnvelope
  processor := .receiving
  tipsToResolve
  fetcher := .receiving

/-- The same session while its processor is at work. -/
def PullSession.busy (awaited : Bool) (processor : EnvelopeProcessor C) : PullSession C :=
  { (.resting awaited [] [] : PullSession C) with processor }

namespace Puller

variable {s s' : Puller C} {t t' : PullSession C} {i : ℕ} {ev : PullTurn M} {awaited : Bool}
  {guard : List CanonicalEnvelopeHash} {guards guards' : List (List CanonicalEnvelopeHash)}
  {chain rest : List (Authenticated C)} {e p g : Authenticated C} {now : ℤ} {store : Store M}

abbrev Serves (chain : List (Authenticated C)) (i : ℕ) : Puller C → Puller C → Prop :=
  Run (fun s ev s' => s.ServedBy chain i ev ∧ s.step ev = some s') fun _ => True

private theorem Serves.step {s'' : Puller C} {ev : PullEvent C} (h : Serves chain i s s')
    (hstep : s'.step ev = some s'') (hserved : s'.ServedBy chain i ev) : Serves chain i s s'' :=
  h.tail trivial ⟨hserved, hstep⟩

private theorem answer_singleton (hdistinct : (chain.map fun x => x.entry.1).Nodup)
    (he : e ∈ chain) : answer chain [e.entry.1] = [e.inner] := by
  have hfilter : chain.filter (fun x => x.entry.1 ∈ [e.entry.1]) = [e] := by
    apply List.perm_singleton.mp
    apply (List.perm_ext_iff_of_nodup (hdistinct.of_map.filter _) (List.nodup_singleton e)).mpr
    intro x
    simp only [List.mem_filter, List.mem_singleton, decide_eq_true_eq]
    constructor
    · exact fun hx => List.inj_on_of_nodup_map hdistinct hx.1 he hx.2
    · rintro rfl
      exact ⟨he, rfl⟩
  rw [answer, hfilter, List.map_singleton]

private theorem sessions_put :
    (s.put i (some t) guards).sessions i = some t := Function.update_self ..

private theorem step_turn (ht : s.sessions i = some t)
    (hturn : t.turn s.store s.shouldQuit ev = some (t', guards)) :
    s.step (.turn i ev) = some (s.put i (some t') guards) := by
  simp only [step, ht, hturn, Option.map_some]

private theorem step_put (hturn : t.turn s.store s.shouldQuit ev = some (t', guards')) :
    (s.put i (some t) guards).step (.turn i ev) = some (s.put i (some t') (guards ++ guards')) := by
  rw [step_turn sessions_put hturn]
  simp [put, Function.update_idem]

private theorem authenticate_inner (e : Authenticated C) : e.inner.authenticate C = some e := by
  obtain ⟨wrapped, hwrapped, hinner⟩ := exists_authenticate e.authentic
  rw [hwrapped]
  cases wrapped
  cases e
  cases hinner
  rfl

/-- An envelope that has arrived is inserted, what it names is requested, and the guard of the answer
does its work. -/
theorem serves_process (chain : List (Authenticated C))
    (hs : s.sessions i = some (.resting awaited [([e.inner], guard)] []))
    (hquit : s.shouldQuit = false)
    (hfine : e.unsolicited false (s.store.insertPulled e now).1 = some []) :
    Serves chain i s { s with
      store := (s.store.insertPulled e now).2
      inflight := s.inflight \ guard.toFinset
      sessions := Function.update s.sessions i
        (some (.resting awaited [] ((s.store.insertPulled e now).2.unknownNames e))) } := by
  have hreceive : s.step (.turn i .receiveEnvelopes) =
      some (s.put i (some (.busy awaited (.processing [e.inner] [] guard))) []) :=
    step_turn hs rfl
  have hauthenticate : (s.put i (some (.busy awaited (.processing [e.inner] [] guard))) []).step
      (.turn i .authenticate) = some (s.put i (some (.busy awaited (.inserting e [] [] guard))) []) := by
    apply step_put
    simp only [PullSession.busy, PullSession.turn, hquit, authenticate_inner, Bool.false_eq_true,
      if_false]
  obtain ⟨stored, hstored⟩ : ∃ stored, stored = { s with store := (s.store.insertPulled e now).2 } :=
    ⟨_, rfl⟩
  have hinsert : (s.put i (some (.busy awaited (.inserting e [] [] guard))) []).step
      (.insert i now true) = some (stored.put i
        (some (.busy awaited (.processing [] e.inner.named guard))) []) := by
    rw [hstored]
    simp only [step, sessions_put, PullSession.busy]
    simp [PullSession.resting, put, hfine, Function.update_idem]
  have hquery : (stored.put i (some (.busy awaited (.processing [] e.inner.named guard))) []).step
      (.turn i .query) = some (stored.put i
        (some (.busy awaited (.requesting (stored.store.messageNotExists e.inner.named) guard))) []) :=
    step_put rfl
  have hrequest : (stored.put i
      (some (.busy awaited (.requesting (stored.store.messageNotExists e.inner.named) guard))) []).step
        (.turn i .request) = some (stored.put i
          (some (.resting awaited [] (stored.store.unknownNames e))) [guard]) := by
    apply step_put
    have hquit' : stored.shouldQuit = false := by rw [hstored, hquit]
    simp only [PullSession.busy, PullSession.turn, hquit', PullSession.resting, Store.unknownNames]
    simp [MissingEnvelopeFetcher.isEnded]
  have hcleanup : (stored.put i (some (.resting awaited [] (stored.store.unknownNames e))) [guard]).step
      (.cleanup s.notified.length) = some { stored with
        inflight := s.inflight \ guard.toFinset
        sessions := Function.update s.sessions i
          (some (.resting awaited [] (stored.store.unknownNames e))) } := by
    rw [hstored]
    simp [step, put, List.eraseIdx_append_of_length_le]
  subst hstored
  have hstart : Serves chain i s s := Run.refl
  exact (((((hstart.step hreceive rfl).step hauthenticate rfl).step hinsert ⟨rfl, rfl⟩).step hquery
    rfl).step hrequest rfl).step hcleanup trivial

/-- The state after an envelope was taken from the peer. -/
def took (s : Puller C) (i : ℕ) (awaited : Bool) (e : Authenticated C) (now : ℤ) : Puller C :=
  { s with
    store := (s.store.insertPulled e now).2
    sessions := Function.update s.sessions i
      (some (.resting awaited [] ((s.store.insertPulled e now).2.unknownNames e))) }

private theorem serves_latest (hs : s.sessions i = some (.resting awaited [] []))
    (hquit : s.shouldQuit = false) (htip : e ∈ chain.head?)
    (hfine : e.unsolicited false (s.store.insertPulled e now).1 = some []) :
    Serves chain i s (s.took i awaited e now) := by
  have hlatest : s.step (.turn i (.latest [e.inner])) =
      some (s.put i (some (.resting awaited [([e.inner], [])] [])) []) := step_turn hs rfl
  have hprocess : Serves chain i (s.put i (some (.resting awaited [([e.inner], [])] [])) [])
      (s.took i awaited e now) := by
    have hafter := serves_process chain
      (s := s.put i (some (.resting awaited [([e.inner], [])] [])) []) sessions_put hquit hfine
    simpa [put, took, Function.update_idem] using hafter
  have hstart : Serves chain i s s := Run.refl
  exact (hstart.step hlatest ⟨rfl, e, htip, rfl⟩).trans hprocess

private theorem serves_request (hdistinct : (chain.map fun x => x.entry.1).Nodup)
    (hs : s.sessions i = some (.resting awaited [] [[e.entry.1]]))
    (hquit : s.shouldQuit = false) (he : e ∈ chain) (hfree : e.entry.1 ∉ s.inflight)
    (hfine : e.unsolicited false (s.store.insertPulled e now).1 = some []) :
    Serves chain i s (s.took i awaited e now) := by
  have hreceive : s.step (.turn i .receiveTips) = some (s.put i
      (some { (.resting awaited [] [] : PullSession C) with fetcher := .connecting [e.entry.1] })
        []) := step_turn hs rfl
  obtain ⟨asked, hasked⟩ : ∃ asked, asked = { s with inflight := insert e.entry.1 s.inflight } :=
    ⟨_, rfl⟩
  have hfetch : (s.put i
      (some { (.resting awaited [] [] : PullSession C) with fetcher := .connecting [e.entry.1] })
        []).step (.fetch i) = some (asked.put i
      (some { (.resting awaited [] [] : PullSession C) with fetcher := .fetching [e.entry.1] })
        []) := by
    rw [hasked]
    simp [step, put, scheduleFetch, hfree, Function.update_idem]
  have hrespond : (asked.put i
      (some { (.resting awaited [] [] : PullSession C) with fetcher := .fetching [e.entry.1] })
        []).step (.turn i (.respond [e.inner])) = some (asked.put i
          (some (.resting awaited [([e.inner], [e.entry.1])] [])) []) := step_put rfl
  have hprocess : Serves chain i (asked.put i
      (some (.resting awaited [([e.inner], [e.entry.1])] [])) []) (s.took i awaited e now) := by
    have hquit' : asked.shouldQuit = false := by rw [hasked, hquit]
    have hfine' : e.unsolicited false (asked.store.insertPulled e now).1 = some [] := by
      rwa [hasked]
    have hafter := serves_process chain
      (s := asked.put i (some (.resting awaited [([e.inner], [e.entry.1])] [])) [])
      sessions_put hquit' hfine'
    have hremoved : insert e.entry.1 s.inflight \ [e.entry.1].toFinset = s.inflight := by
      ext h
      simp only [List.toFinset_cons, List.toFinset_nil, Finset.mem_sdiff, Finset.mem_insert,
        Finset.notMem_empty, or_false]
      have hother : h = e.entry.1 → h ∉ s.inflight := fun heq => heq ▸ hfree
      tauto
    subst hasked
    simpa only [put, took, hremoved, Function.update_idem, List.append_nil] using hafter
  have hstart : Serves chain i s s := Run.refl
  have hanswer := (answer_singleton hdistinct he).symm
  exact (((hstart.step hreceive rfl).step hfetch rfl).step hrespond
    ⟨rfl, _, sessions_put, hanswer⟩).trans hprocess

end Puller

variable {store store' : Store M} {e p g : Authenticated C} {rest chain : List (Authenticated C)}
  {now : ℤ} {h : CanonicalEnvelopeHash}

/-- The author of a chain and its genesis are known. -/
structure Store.Knows (store : Store M) (g : Authenticated C) : Prop where
  author : (store.userByKey g.inner.header.key).isSome
  genesis : store.Stored g.entry.1

private theorem Store.stored_iff_isSome : store.Stored h ↔ (store.rowByHash h).isSome := by
  rw [Store.rowByHash, List.find?_isSome]
  simp only [decide_eq_true_eq]
  rfl

private theorem unsolicited_later (hlater : e.isGenesis = false) (x : Except SqliteFail Unit) :
    e.unsolicited false x = some [] := by
  unfold Authenticated.unsolicited
  split
  · rfl
  · rfl
  · rw [hlater]
    rfl

private theorem Store.insertWithTxn_stored (now : ℤ)
    (huser : (store.userByKey e.inner.header.key).isSome)
    (hchecks : ∀ userId, (store.newRow e userId now).passesChecks) :
    (store.tryInsertAuthenticatedEnvelopeWithTxn e now).2.Stored e.entry.1 ∧
      ((store.tryInsertAuthenticatedEnvelopeWithTxn e now).1 = .ok () ∨
        (store.tryInsertAuthenticatedEnvelopeWithTxn e now).1 = .error .constraintUnique) := by
  obtain ⟨user, huser⟩ := Option.isSome_iff_exists.mp huser
  unfold Store.tryInsertAuthenticatedEnvelopeWithTxn
  rw [huser]
  dsimp only
  rw [if_neg (not_not.mpr (hchecks user.userId))]
  split_ifs with hold
  · exact ⟨Store.stored_iff_isSome.mpr hold, .inr rfl⟩
  · refine ⟨?_, .inl rfl⟩
    apply Store.stored_iff.mpr
    refine ⟨e.entry, ?_, rfl⟩
    rw [Store.contents_push]
    exact List.mem_append_right _ (List.mem_singleton.mpr rfl)

private theorem Store.userByKey_addUser (nickname : String) (key : XOnlyPublicKey) :
    ((store.addUser nickname key).userByKey key).isSome := by
  unfold Store.addUser
  split
  · assumption
  · simp [Store.userByKey]

private theorem Store.insertWithTxn_users :
    (store.tryInsertAuthenticatedEnvelopeWithTxn e now).2.users = store.users := by
  unfold Store.tryInsertAuthenticatedEnvelopeWithTxn
  cases store.userByKey e.inner.header.key with
  | none => rfl
  | some user =>
    dsimp only
    split_ifs <;> rfl

private theorem Store.insertPulled_later (hlater : e.isGenesis = false) :
    store.insertPulled e now = store.tryInsertAuthenticatedEnvelopeWithTxn e now := by
  rw [Store.insertPulled, hlater, if_neg Bool.false_ne_true, Store.tryInsertAuthenticatedEnvelope]
  cases e.inner.header.ancestors <;> simp

private theorem isGenesis_iff : e.isGenesis ↔
    e.inner.header.ancestors = none ∧ e.inner.header.height = 0 := by
  simp [Authenticated.isGenesis]

private theorem Store.insertPulled_genesis (store : Store M) (now : ℤ) (hgenesis : g.isGenesis) :
    (store.insertPulled g now).2.Knows g ∧
      g.unsolicited false (store.insertPulled g now).1 = some [] := by
  obtain ⟨hancestors, hheight⟩ := isGenesis_iff.mp hgenesis
  have huser := store.userByKey_addUser s!"user-{now}" g.inner.header.key
  obtain ⟨hstored, hresult⟩ := Store.insertWithTxn_stored (e := g) now huser (by
    intro userId
    apply Row.passesChecks_iff.mpr
    refine ⟨.inl hheight, fun _ h0 => absurd hheight h0, .inr ⟨hheight, ?_⟩⟩
    simp [Row.prevMsg, Store.newRow, Envelope.prevMsg, hancestors])
  rw [Store.insertPulled, hgenesis, if_pos rfl, Store.insertUserByGenesisEnvelope]
  refine ⟨⟨?_, hstored⟩, ?_⟩
  · rw [Store.userByKey, Store.insertWithTxn_users]
    exact huser
  · obtain hok | hunique := hresult
    · rw [hok]
      rfl
    · rw [hunique]
      rfl

private theorem Store.insertPulled_users : store.users <+: (store.insertPulled e now).2.users := by
  unfold Store.insertPulled
  split
  · rw [Store.insertUserByGenesisEnvelope, Store.insertWithTxn_users]
    unfold Store.addUser
    split
    · exact List.prefix_rfl
    · exact List.prefix_append _ _
  · rw [tryInsert_users]

private theorem Store.Stored.insertPulled (hstored : store.Stored h) :
    (store.insertPulled e now).2.Stored h :=
  hstored.of_store (.inr (store.insertPulled_eq_apply e now))

private theorem Store.userByKey_insertPulled {key : XOnlyPublicKey}
    (huser : (store.userByKey key).isSome) :
    ((store.insertPulled e now).2.userByKey key).isSome := by
  rw [Store.userByKey, List.find?_isSome] at huser ⊢
  obtain ⟨user, hmem, hkey⟩ := huser
  exact ⟨user, Store.insertPulled_users.subset hmem, hkey⟩

private theorem Store.Knows.insertPulled (hknows : store.Knows g) :
    (store.insertPulled e now).2.Knows g where
  author := Store.userByKey_insertPulled hknows.author
  genesis := hknows.genesis.insertPulled

private theorem Store.insertPulled_known (now : ℤ) (hheight : 0 < e.inner.header.height)
    (hancestors : e.inner.header.ancestors = some ⟨p.entry.1, g.entry.1⟩)
    (hkey : e.inner.header.key = g.inner.header.key) (hknows : store.Knows g) :
    (store.insertPulled e now).2.Stored e.entry.1 := by
  have hlater : e.isGenesis = false := by
    simp [Authenticated.isGenesis, hancestors]
  have hgenesis : (store.rowByHash (e.inner.getGenesisHash C)).isSome := by
    rw [Envelope.getGenesisHash, hancestors]
    exact Store.stored_iff_isSome.mp hknows.genesis
  rw [Store.insertPulled_later hlater]
  apply And.left
  apply Store.insertWithTxn_stored now (hkey ▸ hknows.author)
  intro userId
  have hid : (store.newRow e userId now).genesisId.isSome := by
    simpa [Store.newRow] using hgenesis
  apply Row.passesChecks_iff.mpr
  refine ⟨.inr hid, ?_, .inl hheight⟩
  intro hconnected h0
  refine ⟨?_, hid⟩
  obtain h0' | ⟨m, hm, hhash, -⟩ := (Store.Linked.newRow_connected_iff e userId now).mp hconnected
  · exact absurd h0' h0
  · have hparent := Store.stored_iff_isSome.mp ⟨m, hm, hhash⟩
    simpa [Store.newRow] using hparent

private theorem Store.insertPulled_unknown (now : ℤ) (hheight : 0 < e.inner.header.height)
    (hancestors : e.inner.header.ancestors = some ⟨p.entry.1, g.entry.1⟩)
    (hkey : e.inner.header.key = g.inner.header.key) (hknows : ¬store.Knows g) :
    (store.insertPulled e now).2 = store := by
  have hlater : e.isGenesis = false := by
    simp [Authenticated.isGenesis, hancestors]
  rw [Store.insertPulled_later hlater, Store.tryInsertAuthenticatedEnvelopeWithTxn]
  cases huser : store.userByKey e.inner.header.key with
  | none => rfl
  | some user =>
    have hgenesis : (store.newRow e user.userId now).genesisId = none := by
      have hnone : store.rowByHash g.entry.1 = none := by
        apply Option.not_isSome_iff_eq_none.mp
        intro hsome
        apply hknows
        refine ⟨?_, Store.stored_iff_isSome.mpr hsome⟩
        rw [← hkey, huser]
        rfl
      simp only [Store.newRow, Envelope.getGenesisHash, hancestors, hnone, Option.map_none]
    have hchecks : ¬(store.newRow e user.userId now).passesChecks := by
      intro hpasses
      obtain h0 | hid := (Row.passesChecks_iff.mp hpasses).1
      · exact absurd h0 hheight.ne'
      · rw [hgenesis] at hid
        cases hid
    dsimp only
    rw [if_pos hchecks]

private theorem Store.mem_messageNotExists_iff {allTips : List CanonicalEnvelopeHash} :
    h ∈ store.messageNotExists allTips ↔ h ∈ allTips ∧ ¬store.Stored h := by
  rw [Store.messageNotExists, List.mem_filter, mem_requested, Store.stored_iff_isSome]
  simp

private theorem Store.messageNotExists_eq_nil {allTips : List CanonicalEnvelopeHash}
    (hstored : ∀ h ∈ allTips, store.Stored h) : store.messageNotExists allTips = [] := by
  apply List.eq_nil_iff_forall_not_mem.mpr
  intro h hmem
  obtain ⟨hmem, hnew⟩ := Store.mem_messageNotExists_iff.mp hmem
  exact hnew (hstored h hmem)

private theorem unknownNames_eq_nil (hstored : ∀ h ∈ e.inner.named, store.Stored h) :
    store.unknownNames e = [] := by
  rw [Store.unknownNames, Store.messageNotExists_eq_nil hstored]
  rfl

private theorem unknownNames_eq_parent (hnamed : p.entry.1 ∈ e.inner.named)
    (hothers : ∀ h ∈ e.inner.named, h = p.entry.1 ∨ store.Stored h)
    (hnew : ¬store.Stored p.entry.1) : store.unknownNames e = [[p.entry.1]] := by
  have hsingle : store.messageNotExists e.inner.named = [p.entry.1] := by
    apply List.perm_singleton.mp
    apply (List.perm_ext_iff_of_nodup _ (List.nodup_singleton _)).mpr
    · intro h
      rw [Store.mem_messageNotExists_iff, List.mem_singleton]
      constructor
      · exact fun hmem => (hothers h hmem.1).resolve_right hmem.2
      · rintro rfl
        exact ⟨hnamed, hnew⟩
    · exact (requested_nodup _).filter _
  rw [Store.unknownNames, hsingle]
  rfl

private theorem named_genesis (hgenesis : g.isGenesis)
    (htips : ∀ x ∈ g.inner.header.tips, store.Stored x.2.2) :
    ∀ h ∈ g.inner.named, store.Stored h := by
  intro h hmem
  rw [Envelope.named, (isGenesis_iff.mp hgenesis).1] at hmem
  obtain ⟨x, hx, rfl⟩ := List.mem_map.mp ((List.mem_append.mp hmem).resolve_right List.not_mem_nil)
  exact htips x hx

private theorem named_later (hancestors : e.inner.header.ancestors = some ⟨p.entry.1, g.entry.1⟩)
    (htips : ∀ x ∈ e.inner.header.tips, store.Stored x.2.2) :
    p.entry.1 ∈ e.inner.named ∧ ∀ h ∈ e.inner.named, h = p.entry.1 ∨ store.Stored h := by
  rw [Envelope.named, hancestors]
  constructor
  · exact List.mem_append_right _ (List.mem_singleton.mpr rfl)
  · intro h hmem
    obtain htip | hparent := List.mem_append.mp hmem
    · obtain ⟨x, hx, rfl⟩ := List.mem_map.mp htip
      exact .inr (htips x hx)
    · exact .inl (List.mem_singleton.mp hparent)

private theorem ChainDown.mono (hstore : ∀ h, store.Stored h → store'.Stored h)
    (hchain : ChainDown store g chain) : ChainDown store' g chain := by
  induction hchain with
  | genesis hgenesis htips => exact .genesis hgenesis fun x hx => hstore _ (htips x hx)
  | later hheight hancestors hkey htips _ ih =>
    exact .later hheight hancestors hkey (fun x hx => hstore _ (htips x hx)) ih

private theorem Store.stored_of_insertPulled (hstored : (store.insertPulled e now).2.Stored h) :
    store.Stored h ∨ h = e.entry.1 := by
  obtain ⟨c, hc, rfl⟩ := Store.stored_iff.mp hstored
  obtain hsame | ⟨-, hnew⟩ := store.contents_insertPulled e now
  · exact .inl (Store.stored_iff.mpr ⟨c, hsame ▸ hc, rfl⟩)
  · rw [hnew, List.mem_append, List.mem_singleton] at hc
    exact hc.imp (fun hc => Store.stored_iff.mpr ⟨c, hc, rfl⟩) (congrArg Prod.fst)

private theorem ChainDown.mem (hchain : ChainDown store g chain) : g ∈ chain := by
  induction hchain with
  | genesis _ _ => exact List.mem_cons_self
  | later _ _ _ _ _ ih => exact List.mem_cons_of_mem _ ih

private theorem ChainDown.knows (hchain : ChainDown store' g chain) (hgap : store.GapFree chain)
    {x : Authenticated C} (hx : x ∈ chain) (hstored : store.Stored x.entry.1) : store.Knows g := by
  induction hchain with
  | genesis _ _ =>
    rw [List.mem_singleton.mp hx] at hstored
    exact ⟨(hgap.1 hstored).2, hstored⟩
  | later _ _ hkey _ hrest ih =>
    obtain rfl | hx := List.mem_cons.mp hx
    · obtain ⟨hbelow, hauthor⟩ := hgap.1 hstored
      exact ⟨hkey ▸ hauthor, hbelow g hrest.mem⟩
    · exact ih hgap.2 hx

private theorem ChainDown.gapFree (hchain : ChainDown store' g chain)
    (hnodup : (chain.map fun x => x.entry.1).Nodup) (hknows : store.Knows g)
    (honly : ∀ x ∈ chain, store.Stored x.entry.1 → x.entry.1 = g.entry.1) :
    store.GapFree chain := by
  induction hchain with
  | genesis _ _ => exact ⟨fun _ => ⟨fun p hp => absurd hp List.not_mem_nil, hknows.author⟩, trivial⟩
  | later _ _ _ _ hrest ih =>
    obtain ⟨hnew, hnodup⟩ := List.nodup_cons.mp hnodup
    refine ⟨?_, ih hnodup fun x hx => honly x (List.mem_cons_of_mem _ hx)⟩
    intro hstored
    have hsame := honly _ List.mem_cons_self hstored
    exact absurd (List.mem_map.mpr ⟨g, hrest.mem, hsame.symm⟩) hnew

private theorem Store.GapFree.insertPulled (hgap : store.GapFree chain)
    (hother : ∀ x ∈ chain, x.entry.1 ≠ e.entry.1) :
    (store.insertPulled e now).2.GapFree chain := by
  induction chain with
  | nil => trivial
  | cons x rest ih =>
    obtain ⟨hfirst, hrest⟩ := hgap
    refine ⟨?_, ih hrest fun y hy => hother y (List.mem_cons_of_mem _ hy)⟩
    intro hstored
    have hold := (Store.stored_of_insertPulled hstored).resolve_right (hother x List.mem_cons_self)
    obtain ⟨hbelow, hauthor⟩ := hfirst hold
    exact ⟨fun y hy => (hbelow y hy).insertPulled, Store.userByKey_insertPulled hauthor⟩

namespace Puller

variable {s s' : Puller C} {i : ℕ} {awaited : Bool} {tips : List (List CanonicalEnvelopeHash)}

/-- The session waits, with requests to send, and no envelope of the chain is in flight. -/
structure Waits (s : Puller C) (chain : List (Authenticated C)) (i : ℕ) (awaited : Bool)
    (tips : List (List CanonicalEnvelopeHash)) : Prop where
  session : s.sessions i = some (.resting awaited [] tips)
  running : s.shouldQuit = false
  free : ∀ e ∈ chain, e.entry.1 ∉ s.inflight

private theorem Waits.took (e : Authenticated C) (now : ℤ) (hs : s.Waits chain i awaited tips) :
    (s.took i awaited e now).Waits chain i awaited
      ((s.store.insertPulled e now).2.unknownNames e) where
  session := Function.update_self ..
  running := hs.running
  free := hs.free

private theorem Waits.request (hdistinct : (chain.map fun x => x.entry.1).Nodup)
    (hs : s.Waits chain i awaited [[e.entry.1]]) (he : e ∈ chain)
    (hfine : e.unsolicited false (s.store.insertPulled e now).1 = some []) :
    Serves chain i s (s.took i awaited e now) :=
  serves_request hdistinct hs.session hs.running he (hs.free e he) hfine

/-- The session ends up waiting in a state whose store has all that it had before. -/
structure Reaches (chain : List (Authenticated C)) (i : ℕ) (awaited : Bool) (s s' : Puller C) :
    Prop where
  serves : Serves chain i s s'
  waits : s'.Waits chain i awaited []
  stored : ∀ h, s.store.Stored h → s'.store.Stored h

private theorem Reaches.took (hserves : Serves chain i s (s.took i awaited e now))
    (h : Reaches chain i awaited (s.took i awaited e now) s') : Reaches chain i awaited s s' where
  serves := hserves.trans h.serves
  waits := h.waits
  stored _ hstored := h.stored _ hstored.insertPulled

private theorem Reaches.here (hserves : Serves chain i s (s.took i awaited e now))
    (hs : s.Waits chain i awaited tips)
    (hnames : (s.store.insertPulled e now).2.unknownNames e = []) :
    Reaches chain i awaited s (s.took i awaited e now) where
  serves := hserves
  waits := hnames ▸ hs.took e now
  stored _ hstored := hstored.insertPulled

private theorem reaches_known (hdistinct : (chain.map fun x => x.entry.1).Nodup)
    (hchain : ChainDown s.store g (e :: rest)) (hsub : e :: rest ⊆ chain)
    (hnodup : ((e :: rest).map fun x => x.entry.1).Nodup) (hgap : s.store.GapFree (e :: rest))
    (hknows : s.store.Knows g) (hs : s.Waits chain i awaited tips)
    (hsent : e.unsolicited false (s.store.insertPulled e now).1 = some [] →
      Serves chain i s (s.took i awaited e now)) :
    ∃ s', Reaches chain i awaited s s' ∧ ∀ x ∈ e :: rest, s'.store.Stored x.entry.1 := by
  induction rest generalizing e s tips with
  | nil =>
    cases hchain with
    | genesis hgenesis htips =>
      obtain ⟨hknown, hfine⟩ := s.store.insertPulled_genesis now hgenesis
      have hnamed : ∀ h ∈ g.inner.named, (s.store.insertPulled g now).2.Stored h :=
        fun h hmem => (named_genesis hgenesis htips h hmem).insertPulled
      have hnames := unknownNames_eq_nil hnamed
      refine ⟨_, .here (hsent hfine) hs hnames, ?_⟩
      intro x hx
      rw [List.mem_singleton.mp hx]
      exact hknown.genesis
  | cons p rest ih =>
    cases hchain with
    | later hheight hancestors hkey htips hrest =>
      have hserves := hsent (unsolicited_later (by simp [Authenticated.isGenesis, hancestors]) _)
      have hstored := Store.insertPulled_known now hheight hancestors hkey hknows
      obtain ⟨hnew, hnodup'⟩ := List.nodup_cons.mp hnodup
      have hother : ∀ x ∈ p :: rest, x.entry.1 ≠ e.entry.1 := fun x hx heq =>
        hnew (List.mem_map.mpr ⟨x, hx, heq⟩)
      obtain ⟨hnamed, hothers⟩ := named_later hancestors htips
      have hothers' : ∀ h ∈ e.inner.named, h = p.entry.1 ∨
          (s.store.insertPulled e now).2.Stored h :=
        fun h hmem => (hothers h hmem).imp_right Store.Stored.insertPulled
      by_cases hp : (s.store.insertPulled e now).2.Stored p.entry.1
      · -- below the parent nothing is missing
        have hold := (Store.stored_of_insertPulled hp).resolve_right (hother p List.mem_cons_self)
        have hnames := unknownNames_eq_nil fun h hmem => (hothers' h hmem).elim (· ▸ hp) id
        refine ⟨_, .here hserves hs hnames, ?_⟩
        intro x hx
        obtain rfl | hx := List.mem_cons.mp hx
        · exact hstored
        · obtain rfl | hx := List.mem_cons.mp hx
          · exact hp
          · exact ((hgap.2.1 hold).1 x hx).insertPulled
      · have hwaits := hs.took e now
        rw [unknownNames_eq_parent hnamed hothers' hp] at hwaits
        have hsub' := (List.cons_subset.mp hsub).2
        obtain ⟨s', hreaches, hall⟩ := ih (s := s.took i awaited e now)
          (hrest.mono fun h => Store.Stored.insertPulled) hsub' hnodup' (hgap.2.insertPulled hother)
          hknows.insertPulled hwaits (hwaits.request hdistinct (hsub' List.mem_cons_self))
        refine ⟨s', hreaches.took hserves, ?_⟩
        intro x hx
        obtain rfl | hx := List.mem_cons.mp hx
        · exact hreaches.stored _ hstored
        · exact hall x hx

private theorem reaches_unknown (hdistinct : (chain.map fun x => x.entry.1).Nodup)
    (hchain : ChainDown s.store g (e :: rest)) (hsub : e :: rest ⊆ chain)
    (hnone : ∀ x ∈ e :: rest, ¬s.store.Stored x.entry.1) (hs : s.Waits chain i awaited tips)
    (hsent : e.unsolicited false (s.store.insertPulled e now).1 = some [] →
      Serves chain i s (s.took i awaited e now)) :
    ∃ s', Reaches chain i awaited s s' ∧ s'.store.Knows g ∧
      ∀ h, s'.store.Stored h → s.store.Stored h ∨ h = g.entry.1 := by
  induction rest generalizing e s tips with
  | nil =>
    cases hchain with
    | genesis hgenesis htips =>
      obtain ⟨hknown, hfine⟩ := s.store.insertPulled_genesis now hgenesis
      have hnamed : ∀ h ∈ g.inner.named, (s.store.insertPulled g now).2.Stored h :=
        fun h hmem => (named_genesis hgenesis htips h hmem).insertPulled
      have hnames := unknownNames_eq_nil hnamed
      exact ⟨_, .here (hsent hfine) hs hnames, hknown, fun h => Store.stored_of_insertPulled⟩
  | cons p rest ih =>
    cases hchain with
    | later hheight hancestors hkey htips hrest =>
      have hserves := hsent (unsolicited_later (by simp [Authenticated.isGenesis, hancestors]) _)
      have hunknown : ¬s.store.Knows g := fun hknows =>
        hnone g (List.mem_cons_of_mem _ hrest.mem) hknows.genesis
      have hsame := Store.insertPulled_unknown now hheight hancestors hkey hunknown
      obtain ⟨hnamed, hothers⟩ := named_later hancestors htips
      have hwaits := hs.took e now
      have hnone' := (List.forall_mem_cons.mp hnone).2
      rw [hsame, unknownNames_eq_parent hnamed hothers (hnone' p List.mem_cons_self)] at hwaits
      have hsub' := (List.cons_subset.mp hsub).2
      have htook : (s.took i awaited e now).store = s.store := hsame
      obtain ⟨s', hreaches, hknows, honly⟩ := ih (s := s.took i awaited e now)
        (htook ▸ hrest) hsub' (htook ▸ hnone') hwaits
        (hwaits.request hdistinct (hsub' List.mem_cons_self))
      exact ⟨s', hreaches.took hserves, hknows, fun h hstored => htook ▸ honly h hstored⟩

/-- A session that waits, while nothing of a chain is in flight and nothing is missing below what is
stored of it, can be brought to store the whole chain by a peer that offers the tip and answers
requests, known author or not, without the permission for unsolicited tips and even if the task of
the session was aborted. -/
theorem chain_learned (hchain : ChainDown s.store g (e :: rest))
    (hnodup : ((e :: rest).map fun x => x.entry.1).Nodup) (hgap : s.store.GapFree (e :: rest))
    (hs : s.Waits (e :: rest) i awaited []) :
    ∃ s', Serves (e :: rest) i s s' ∧ s'.Waits (e :: rest) i awaited [] ∧
      ∀ x ∈ e :: rest, s'.store.Stored x.entry.1 := by
  have hoffered (s : Puller C) (hs : s.Waits (e :: rest) i awaited [])
      (hfine : e.unsolicited false (s.store.insertPulled e 0).1 = some []) :
      Serves (e :: rest) i s (s.took i awaited e 0) :=
    serves_latest hs.session hs.running rfl hfine
  by_cases hknows : s.store.Knows g
  · obtain ⟨s', hreaches, hall⟩ := reaches_known hnodup hchain (List.Subset.refl _) hnodup hgap
      hknows hs (hoffered s hs)
    exact ⟨s', hreaches.serves, hreaches.waits, hall⟩
  · have hnone : ∀ x ∈ e :: rest, ¬s.store.Stored x.entry.1 := fun x hx hstored =>
      hknows (hchain.knows hgap hx hstored)
    obtain ⟨s₁, hfirst, hknows₁, honly⟩ := reaches_unknown hnodup hchain (List.Subset.refl _)
      hnone hs (hoffered s hs)
    -- the tip is offered again, now that the author is known
    have hgap₁ := hchain.gapFree hnodup hknows₁ fun x hx hstored =>
      (honly _ hstored).resolve_left (hnone x hx)
    obtain ⟨s', hreaches, hall⟩ := reaches_known hnodup (hchain.mono hfirst.stored)
      (List.Subset.refl _) hnodup hgap₁ hknows₁ hfirst.waits (hoffered s₁ hfirst.waits)
    exact ⟨s', hfirst.serves.trans hreaches.serves, hreaches.waits, hall⟩

end Puller

end

def aliceDown : List (Authenticated smallCrypto) :=
  [smallLater 5 (1, 0) 1 12 13 2, smallLater 5 (0, 0) 0 11 12 1, smallGenesis 5 10 11 0]

private theorem aliceDown_chain : ChainDown (.empty : Store ℕ)
    (smallGenesis 5 10 11 0) aliceDown := by
  have hnoTips (x : XOnlyPublicKey × ℤ × CanonicalEnvelopeHash)
      (hx : x ∈ ([] : List (XOnlyPublicKey × ℤ × CanonicalEnvelopeHash))) :
      (.empty : Store ℕ).Stored x.2.2 := absurd hx List.not_mem_nil
  exact .later (by decide) rfl rfl hnoTips
    (.later (by decide) rfl rfl hnoTips (.genesis rfl hnoTips))

/-- An empty node whose task for the session 0 has been aborted. -/
def abandonedSession : Puller smallCrypto :=
  (Puller.initial .empty).put 0 (some (.resting false [] [])) []

private theorem abandonedSession_reached :
    ((Puller.initial .empty : Puller smallCrypto).step (.start 0 false)).bind
      (Puller.step · (.turn 0 .abandon)) = some abandonedSession := by
  simp [Puller.step, Puller.initial, Puller.put, PullSession.turn, PullSession.start,
    abandonedSession, PullSession.resting, Function.update_idem]

theorem chain_learned_abandonedSession :
    ((Puller.initial .empty : Puller smallCrypto).step (.start 0 false)).bind
        (Puller.step · (.turn 0 .abandon)) = some abandonedSession ∧
    ∃ s', Puller.Serves aliceDown 0 abandonedSession s' ∧ s'.Waits aliceDown 0 false [] ∧
      ∀ x ∈ aliceDown, s'.store.Stored x.entry.1 := by
  have hgap : (.empty : Store ℕ).GapFree aliceDown := by
    have hnone (h : CanonicalEnvelopeHash) : ¬(.empty : Store ℕ).Stored h := by
      rintro ⟨r, hr, -⟩
      cases hr
    exact ⟨fun h => absurd h (hnone _), fun h => absurd h (hnone _), fun h => absurd h (hnone _),
      trivial⟩
  exact ⟨abandonedSession_reached, Puller.chain_learned aliceDown_chain (by decide) hgap
    ⟨rfl, rfl, fun e _ => Finset.notMem_empty _⟩⟩

end JudicaVM
