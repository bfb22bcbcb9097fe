import JudicaVM.Ux.Numbering

/-!
# The write handle

A call holds the write handle of its `MsgDB` from before it reads the tip until its move is stored.
The calls of one `MsgDB` therefore follow each other, and no move is stored while another call has
read the tip, as long as no other `MsgDB` of the file is opened while a call is under way.
-/

namespace JudicaVM

open Transition

section

variable {Psbt : Type} {C : Crypto (ParticipantAction Psbt)} {S : Signer C} {w w' : Watched C}
  {i j : ℕ}

private theorem SeekState.ne_idle_of_holds {state : SeekState} (h : state.holds) :
    state ≠ .idle := by
  rintro rfl
  cases h

private theorem Writers.Stores.idle [DecidableEq Psbt] {w w' : Writers C}
    {msg : ParticipantAction Psbt}
    {wrapped : Authenticated C} {now : ℤ} (h : w.Stores i msg wrapped now)
    (hstep : w.step S (.insert i now) = some w') : w'.tasks i = .idle := by
  simp only [Writers.step, h.1] at hstep
  obtain rfl := Option.some.inj hstep
  show Function.update w.tasks i _ i = _
  rw [Function.update_self, h.2]
  rfl

namespace Watched

/-- The call has read the tip. -/
def Informed (w : Watched C) (i : ℕ) : Prop :=
  (∃ nextMove prev, w.movers.seeks i = .seek nextMove (some prev)) ∨
    ∃ m, Writers.message (w.movers.writers.tasks i) = some (.moveEnvelope m)

/-- A call that is under way uses the `MsgDB` that is handed out now, under its lock from the
reading of the tip on, and the last move is still the one that it has read. -/
structure InTurn (S : Signer C) (w : Watched C) (i : ℕ) : Prop where
  current : w.movers.seeks i ≠ .idle → w.movers.msgdbs i = w.movers.database
  locked : (w.movers.seeks i).holds → w.movers.locks (w.movers.msgdbs i) = some i
  storing : ∀ m, Writers.message (w.movers.writers.tasks i) = some (.moveEnvelope m) →
    w.movers.seeks i = .store
  upToDate : w.Informed i → w.counted i = (w.moves S).length

def Serial (S : Signer C) (w : Watched C) : Prop :=
  ∀ i, w.InTurn S i

private theorem initial_serial : (initial : Watched C).Serial S := by
  intro i
  constructor
  · intro hne
    exact absurd rfl hne
  · intro hholds
    cases hholds
  · intro m hm
    cases hm
  · intro hinformed
    obtain ⟨_, _, hseek⟩ | ⟨_, hm⟩ := hinformed
    · cases hseek
    · cases hm

private theorem Serial.unique (h : w.Serial S) (hi : (w.movers.seeks i).holds)
    (hj : (w.movers.seeks j).holds) : i = j := by
  have hlocki := (h i).locked hi
  have hlockj := (h j).locked hj
  rw [(h i).current (SeekState.ne_idle_of_holds hi)] at hlocki
  rw [(h j).current (SeekState.ne_idle_of_holds hj)] at hlockj
  exact Option.some.inj (hlocki.symm.trans hlockj)

private theorem InTurn.holds (h : w.InTurn S i) (hinformed : w.Informed i) :
    (w.movers.seeks i).holds := by
  obtain ⟨_, _, hseek⟩ | ⟨m, hm⟩ := hinformed
  · rw [hseek]
    rfl
  · rw [h.storing m hm]
    rfl

private theorem Serial.undisturbed (h : w.Serial S) (ev : MoverEvent C) : w.Undisturbed S ev := by
  unfold Undisturbed
  split
  · intro m wrapped hstores
    apply (h _).upToDate (.inr ⟨m, ?_⟩)
    rw [hstores.1]
    rfl
  · trivial

private theorem InTurn.of_same (h : w.InTurn S i) (hmoves : w'.moves S = w.moves S)
    (hdatabase : w'.movers.database = w.movers.database)
    (hseek : w'.movers.seeks i = w.movers.seeks i)
    (hmsgdb : w'.movers.msgdbs i = w.movers.msgdbs i)
    (hlock : (w.movers.seeks i).holds →
      w'.movers.locks (w.movers.msgdbs i) = w.movers.locks (w.movers.msgdbs i))
    (htask : w'.movers.writers.tasks i = w.movers.writers.tasks i)
    (hcounted : w'.counted i = w.counted i) : w'.InTurn S i := by
  constructor
  · rw [hseek, hmsgdb, hdatabase]
    exact h.current
  · rw [hseek, hmsgdb]
    intro hholds
    rw [hlock hholds]
    exact h.locked hholds
  · rw [hseek, htask]
    exact h.storing
  · rw [Informed, hseek, htask, hcounted, hmoves]
    exact h.upToDate

private theorem Serial.connect (h : w.Serial S) (hquiet : ∀ i, w.movers.seeks i = .idle) (n : ℕ) :
    Serial S (⟨{ w.movers with database := n }, w.counted⟩ : Watched C) := by
  intro i
  refine ⟨?_, (h i).locked, (h i).storing, (h i).upToDate⟩
  intro hne
  exact absurd (hquiet i) hne

private theorem Serial.makeMove (h : w.Serial S) (htask : w.movers.writers.tasks i = .idle)
    (nextMove : GameMove) :
    Serial S (⟨{ w.movers.setSeek i (.waiting nextMove) with
      msgdbs := Function.update w.movers.msgdbs i w.movers.database }, w.counted⟩ : Watched C) := by
  intro j
  by_cases hj : j = i
  · subst hj
    have hseek : (w.movers.setSeek j (.waiting nextMove)).seeks j = .waiting nextMove :=
      Function.update_self ..
    constructor
    · intro _
      exact Function.update_self ..
    · intro hholds
      change ((w.movers.setSeek j (.waiting nextMove)).seeks j).holds at hholds
      rw [hseek] at hholds
      cases hholds
    · intro m hm
      change Writers.message (w.movers.writers.tasks j) = _ at hm
      rw [htask] at hm
      cases hm
    · intro hinformed
      obtain ⟨_, _, hinformed⟩ | ⟨m, hm⟩ := hinformed
      · cases hseek.symm.trans hinformed
      · change Writers.message (w.movers.writers.tasks j) = _ at hm
        rw [htask] at hm
        cases hm
  · exact (h j).of_same rfl rfl (Function.update_of_ne hj _ _) (Function.update_of_ne hj _ _)
      (fun _ => rfl) rfl rfl

private theorem Serial.update_locks (h : w.Serial S) (hholds : (w.movers.seeks j).holds)
    (hlock : w.movers.locks (w.movers.msgdbs i) ≠ some j) (owner : Option ℕ) :
    Function.update w.movers.locks (w.movers.msgdbs i) owner (w.movers.msgdbs j) =
      w.movers.locks (w.movers.msgdbs j) := by
  apply Function.update_of_ne
  intro hsame
  rw [← hsame] at hlock
  exact hlock ((h j).locked hholds)

private theorem Serial.lock (h : w.Serial S) {nextMove : GameMove}
    (hwaiting : w.movers.seeks i = .waiting nextMove)
    (hfree : w.movers.locks (w.movers.msgdbs i) = none) :
    Serial S (⟨w.movers.lock i nextMove, w.counted⟩ : Watched C) := by
  intro j
  by_cases hj : j = i
  · subst hj
    have hseek : (w.movers.lock j nextMove).seeks j = .seek nextMove none :=
      Function.update_self ..
    have hnone : ∀ m, Writers.message (w.movers.writers.tasks j) ≠ some (.moveEnvelope m) := by
      intro m hm
      cases hwaiting.symm.trans ((h j).storing m hm)
    constructor
    · intro _
      exact (h j).current (by rw [hwaiting]; exact SeekState.noConfusion)
    · intro _
      exact Function.update_self ..
    · intro m hm
      exact absurd hm (hnone m)
    · intro hinformed
      obtain ⟨_, _, hinformed⟩ | ⟨m, hm⟩ := hinformed
      · cases hseek.symm.trans hinformed
      · exact absurd hm (hnone m)
  · refine (h j).of_same rfl rfl (Function.update_of_ne hj _ _) rfl ?_ rfl rfl
    intro hholds
    apply h.update_locks hholds
    rw [hfree]
    exact Option.some_ne_none j |>.symm

private theorem Serial.release (h : w.Serial S) (hholds : (w.movers.seeks i).holds)
    (hnone : ∀ m, Writers.message (w.movers.writers.tasks i) ≠ some (.moveEnvelope m)) :
    Serial S (⟨w.movers.release i, w.counted⟩ : Watched C) := by
  intro j
  by_cases hj : j = i
  · subst hj
    have hseek : (w.movers.release j).seeks j = .idle := Function.update_self ..
    constructor
    · intro hne
      exact absurd hseek hne
    · intro hholds
      change ((w.movers.release j).seeks j).holds at hholds
      rw [hseek] at hholds
      cases hholds
    · intro m hm
      exact absurd hm (hnone m)
    · intro hinformed
      obtain ⟨_, _, hinformed⟩ | ⟨m, hm⟩ := hinformed
      · cases hseek.symm.trans hinformed
      · exact absurd hm (hnone m)
  · refine (h j).of_same rfl rfl (Function.update_of_ne hj _ _) rfl ?_ rfl rfl
    intro hholds'
    apply h.update_locks hholds'
    rw [(h i).locked hholds]
    intro heq
    exact hj (Option.some.inj heq).symm

private theorem Serial.count (h : w.Serial S) {nextMove : GameMove}
    {hash : Option CanonicalEnvelopeHash}
    (hseek : w.movers.seeks i = .seek nextMove hash) (tip : Row (ParticipantAction Psbt))
    (timeMillis : ℕ) :
    w.count S (.seek i tip timeMillis) i = (w.moves S).length ∧
      Serial S (⟨w.movers, w.count S (.seek i tip timeMillis)⟩ : Watched C) := by
  have hothers : ∀ j, j ≠ i → w.count S (.seek i tip timeMillis) j = w.counted j := by
    intro j hj
    cases hash with
    | none => simp [Watched.count, hseek, Function.update_of_ne hj]
    | some prev => simp [Watched.count, hseek]
  have hself : w.count S (.seek i tip timeMillis) i = (w.moves S).length := by
    cases hash with
    | none => simp [Watched.count, hseek]
    | some prev =>
      have hread := (h i).upToDate (.inl ⟨nextMove, prev, hseek⟩)
      simpa [Watched.count, hseek] using hread
  refine ⟨hself, ?_⟩
  intro j
  by_cases hj : j = i
  · subst hj
    exact ⟨(h j).current, (h j).locked, (h j).storing, fun _ => hself⟩
  · exact (h j).of_same rfl rfl rfl rfl (fun _ => rfl) rfl (hothers j hj)

private theorem Serial.goOn (h : w.Serial S) {movers : Movers C} (hholds : (w.movers.seeks i).holds)
    (hcounted : w.counted i = (w.moves S).length)
    (hstore : movers.writers.store = w.movers.writers.store)
    (hdatabase : movers.database = w.movers.database) (hmsgdbs : movers.msgdbs = w.movers.msgdbs)
    (hlocks : movers.locks = w.movers.locks)
    (hothers : ∀ j, j ≠ i → movers.seeks j = w.movers.seeks j ∧
      movers.writers.tasks j = w.movers.writers.tasks j)
    (hstoring : ∀ m, Writers.message (movers.writers.tasks i) = some (.moveEnvelope m) →
      movers.seeks i = .store) :
    Serial S (⟨movers, w.counted⟩ : Watched C) := by
  have hmoves : moves S (⟨movers, w.counted⟩ : Watched C) = w.moves S := by
    rw [moves, moves, hstore]
  intro j
  by_cases hj : j = i
  · subst hj
    constructor
    · intro _
      show movers.msgdbs j = movers.database
      rw [hmsgdbs, hdatabase]
      exact (h j).current (SeekState.ne_idle_of_holds hholds)
    · intro _
      show movers.locks (movers.msgdbs j) = some j
      rw [hlocks, hmsgdbs]
      exact (h j).locked hholds
    · exact hstoring
    · intro _
      rw [hmoves]
      exact hcounted
  · obtain ⟨hseek, htask⟩ := hothers j hj
    exact (h j).of_same hmoves hdatabase hseek (congrFun hmsgdbs j)
      (fun _ => congrFun hlocks _) htask rfl

private theorem Counting.own_ne_nil (hc : w.Counting S) (hinformed : w.Informed i) : w.own S ≠
    [] := by
  intro hempty
  obtain ⟨nextMove, prev, hseek⟩ | ⟨m, hm⟩ := hinformed
  · obtain ⟨before, c, after, hsplit, _⟩ := hc.reading i nextMove prev hseek
    rw [hempty] at hsplit
    cases before <;> cases hsplit
  · obtain ⟨_, before, n, after, hsplit, _⟩ := hc.calling i m hm
    rw [hempty] at hsplit
    cases before <;> cases hsplit

section

variable [DecidableEq Psbt]

private theorem Serial.seekStep (h : w.Serial S) (hc : w.Counting S) {nextMove : GameMove}
    {hash : Option CanonicalEnvelopeHash} {tip : Row (ParticipantAction Psbt)} {timeMillis : ℕ}
    (hseek : w.movers.seeks i = .seek nextMove hash) {movers : Movers C}
    (hstep : w.movers.seekStep S i nextMove tip.body timeMillis = some movers) :
    Serial S (⟨movers, w.count S (.seek i tip timeMillis)⟩ : Watched C) := by
  obtain ⟨hcounted, h'⟩ := h.count hseek tip timeMillis
  have hholds : (w.movers.seeks i).holds := by rw [hseek]; rfl
  have hnone : Writers.message (w.movers.writers.tasks i) = none :=
    hc.searching i (by rw [hseek]; rfl)
  have hno : ∀ m, Writers.message (w.movers.writers.tasks i) ≠ some (.moveEnvelope m) := by
    intro m hm
    cases hnone.symm.trans hm
  unfold Movers.seekStep at hstep
  split at hstep
  · split at hstep
    · obtain rfl := Option.some.inj hstep
      exact h'.release hholds hno
    · obtain ⟨writers, hwriters, rfl⟩ := Option.map_eq_some_iff.mp hstep
      simp only [Writers.step] at hwriters
      split at hwriters
      · obtain rfl := Option.some.inj hwriters
        refine h'.goOn hholds hcounted rfl rfl rfl rfl ?_ ?_
        · intro j hj
          exact ⟨Function.update_of_ne hj _ _, Function.update_of_ne hj _ _⟩
        · intro _ _
          exact Function.update_self ..
      · cases hwriters
  · split at hstep
    · obtain rfl := Option.some.inj hstep
      exact h'.release hholds hno
    · obtain rfl := Option.some.inj hstep
      refine h'.goOn hholds hcounted rfl rfl rfl rfl ?_ ?_
      · intro j hj
        exact ⟨Function.update_of_ne hj _ _, rfl⟩
      · intro m hm
        exact absurd hm (hno m)

private theorem WriterStep.moves_cases {ev : WriterEvent C} {writers : Writers C}
    (hw : WriterStep S w ev writers) (hc : w.Counting S) (hwriters : w'.movers.writers = writers)
    (hc' : w'.Counting S) : w'.moves S = w.moves S ∨ w.own S = [] ∨
      ∃ i m wrapped now, ev = .insert i now ∧
        w.movers.writers.Stores i (.moveEnvelope m) wrapped now := by
  have hown : w'.own S = writers.store.own S.key := by rw [own, hwriters]
  rw [hc'.moves_eq, hc.moves_eq, hown]
  cases hw.adds hc with
  | nothing hsame _ =>
    rw [hsame]
    exact .inl rfl
  | genesis hempty _ => exact .inr (.inl hempty)
  | @envelope i msg wrapped now hstores hsame =>
    cases hseq : msg.sequence with
    | none =>
      rw [hsame]
      apply Or.inl
      apply sequences_snoc_other
      rw [← hseq, ← (hc.stores hstores).1]
      rfl
    | some n =>
      obtain ⟨m, rfl, _⟩ := ParticipantAction.sequence_eq_some hseq
      exact .inr (.inr ⟨i, m, wrapped, now, rfl, hstores⟩)

private theorem Serial.writerStep (h : w.Serial S) (hc : w.Counting S) {ev : WriterEvent C}
    {writers : Writers C} (hw : WriterStep S w ev writers)
    (hc' : Counting S (⟨{ w.movers with writers }, w.counted⟩ : Watched C))
    (hcall : ∀ i m, ev ≠ .call i (.moveEnvelope m)) :
    Serial S (⟨{ w.movers with writers }, w.counted⟩ : Watched C) := by
  have hmessage : ∀ j m, Writers.message (writers.tasks j) = some (.moveEnvelope m) →
      Writers.message (w.movers.writers.tasks j) = some (.moveEnvelope m) := by
    intro j m hm
    apply (Writers.step_message hw.step hm).elim id
    intro hcalled
    exact absurd hcalled.1 (hcall j m)
  intro j
  refine ⟨(h j).current, (h j).locked, fun m hm => (h j).storing m (hmessage j m hm), ?_⟩
  intro hinformed'
  have hinformed : w.Informed j := by
    obtain hseek | ⟨m, hm⟩ := hinformed'
    · exact .inl hseek
    · exact .inr ⟨m, hmessage j m hm⟩
  obtain hmoves | hempty | ⟨i, m, wrapped, now, rfl, hstores⟩ := hw.moves_cases hc rfl hc'
  · rw [hmoves]
    exact (h j).upToDate hinformed
  · exact absurd hempty (hc.own_ne_nil hinformed)
  · -- the call that stored its move held the handle, so that no other call has read the tip
    have hstore : w.movers.seeks i = .store := (h i).storing m (by rw [hstores.1]; rfl)
    have hi : (w.movers.seeks i).holds := by rw [hstore]; rfl
    obtain rfl := h.unique hi ((h j).holds hinformed)
    obtain ⟨_, _, hseek⟩ | ⟨m', hm⟩ := hinformed'
    · cases hstore.symm.trans hseek
    · change Writers.message (writers.tasks i) = _ at hm
      rw [hstores.idle hw.step] at hm
      cases hm

private theorem Serial.step (h : w.Serial S) (hc : w.Counting S) {ev : MoverEvent C}
    (hquiet : w.Quiet ev) (hstep : w.step S ev = some w') : w'.Serial S := by
  have hc' := (hc.step hstep).1
  obtain ⟨heffect, hcounted⟩ := step_effect hstep
  obtain ⟨movers, counted⟩ := w'
  obtain rfl : counted = w.count S ev := hcounted
  cases heffect with
  | connect => exact h.connect hquiet _
  | makeNewChain hw => exact h.writerStep hc hw hc' fun _ _ hev => by cases hev
  | makeMove hseek htask => exact h.makeMove htask _
  | getHandleAll hwaiting hfree => exact h.lock hwaiting hfree
  | seek hseek hread hmovers => exact h.seekStep hc hseek hmovers
  | fail hseek =>
    apply h.release (by rw [hseek]; rfl)
    intro m hm
    cases hseek.symm.trans ((h _).storing m hm)
  | drop hstore htask =>
    apply h.release (by rw [hstore]; rfl)
    intro m hm
    rw [htask] at hm
    cases hm
  | write hw hcall =>
    refine h.writerStep hc hw hc' ?_
    rintro i m rfl
    cases (hcall i _ rfl).2

end

end Watched

/-- In a run of any calls, the moves on the chain of the key are playable in every state exactly
when no other move is stored between the reading of the tip by a call and the storing of its
move. That is so when no other `MsgDB` of the file is opened while a call is under way. -/
theorem moves_playable_iff [DecidableEq Psbt] (evs : List (MoverEvent C)) :
    (Throughout (fun w ev => Watched.step S w ev) (fun w => Playable (w.moves S)) evs .initial ↔
      Along (fun w ev => Watched.step S w ev) (Watched.Undisturbed S) evs .initial) ∧
    (Along (fun w ev => Watched.step S w ev) Watched.Quiet evs .initial →
      Throughout (fun w ev => Watched.step S w ev) (fun w => Playable (w.moves S)) evs .initial) := by
  have hc : (Watched.initial : Watched C).Counting S := Watched.initial_counting
  have hplayable : Playable ((Watched.initial : Watched C).moves S) := hc.playable_iff.mpr rfl
  have hiff : Throughout (fun w ev => Watched.step S w ev) (fun w => Playable (w.moves S)) evs
        .initial ↔
      Along (fun w ev => Watched.step S w ev) (Watched.Undisturbed S) evs .initial :=
    throughout_iff_along (I := Watched.Counting S) (fun _ _ _ hc hstep => (hc.step hstep).1)
      (fun _ _ _ hc hplayable hstep => hc.playable_step hplayable hstep) hc hplayable
  refine ⟨hiff, ?_⟩
  intro hquiet
  apply hiff.mpr
  apply Along.imp (I := fun w => w.Serial S ∧ w.Counting S) _ _ ⟨Watched.initial_serial, hc⟩ hquiet
  · intro w ev w' hw hev hstep
    exact ⟨hw.1.step hw.2 hev hstep, (hw.2.step hstep).1⟩
  · intro w ev hw _
    exact hw.1.undisturbed ev

end

/-- Envelopes are told apart by the nonce that they commit to, and a secret key is its public key. -/
def moveCrypto : Crypto (ParticipantAction Unit) where
  canonicalizedHash e := ⟨e.header.nextNonce.point.x⟩
  verifySchnorr sig digest key := sig.s = sig.r + digest.digest * key.x

private theorem moveSigner_nonce (nonce : ℕ) (digest : CanonicalEnvelopeHash) :
    (⟨nonce, nonce + digest.digest * 5⟩ : Signature).r = nonce := rfl

def moveSigner : Signer moveCrypto where
  key := ⟨5⟩
  getPublic nonce := ⟨⟨nonce⟩⟩
  signWithPrecomittedNonce nonce digest := ⟨nonce, nonce + digest.digest * 5⟩
  nonce_eq := moveSigner_nonce

/-- The envelope that `make_new_chain_genesis` makes for alice. -/
def aliceGenesis : Envelope (ParticipantAction Unit) :=
  moveSigner.signWith
    { header := { (smallEnvelope 5 none 0 10 11 0).header with unsigned := ⟨none⟩ }
      msg := .moveEnvelope { d := .heartbeat, sequence := 0, timeMillis := 0 } } 10

def aliceChain : Authenticated moveCrypto where
  inner := aliceGenesis
  accepted := by
    apply selfAuthenticate_eq_ok_iff.mpr
    exact ⟨rfl, fun _ => rfl, fun h => absurd h (Int.lt_irrefl 0), _, rfl, by decide⟩

/-- The genesis of alice and the greeting that one call stores upon it. -/
def greetingTips : List (Row (ParticipantAction Unit)) :=
  [⟨1, aliceGenesis, ⟨11⟩, 1, 0, none, none, 10, true⟩,
    ⟨2, moveSigner.signWith (moveSigner.wrapMessage
      (.moveEnvelope { d := .chat "hello", sequence := 1, timeMillis := 3 }) [] aliceGenesis ⟨⟨12⟩⟩ 0
      .default) 11, ⟨12⟩, 1, 0, some 1, some 1, 11, true⟩]

/-- A greeting and a heartbeat read one tip, since the database is opened again between them; the
heartbeat is refused and wrapped again. -/
def greetingRace : List (MoverEvent moveCrypto) :=
  [.makeNewChain "alice" aliceChain 11 0, .makeMove 0 (.chat "hello"), .getHandleAll 0, .connect,
    .makeMove 1 .heartbeat, .getHandleAll 1, .seek 0 greetingTips[0] 3, .seek 1 greetingTips[0] 4,
    .write (.getTip 0 [] greetingTips[0]), .write (.getTip 1 [] greetingTips[0]),
    .write (.getSecret 0), .write (.getSecret 1),
    .write (.sign 0 12 0 .default), .write (.sign 1 13 0 .default),
    .write (.insert 0 0), .write (.insert 1 0),
    .write (.getTip 1 [] greetingTips[1]), .write (.getSecret 1), .write (.sign 1 14 0 .default),
    .write (.insert 1 0)]

/-- Both moves are stored with number one. -/
theorem greeting_race : ∃ w, Watched.run moveSigner greetingRace .initial = some w ∧
    w.moves moveSigner = [0, 1, 1] ∧ ¬ Playable (w.moves moveSigner) := by
  have hrun : (Watched.run moveSigner greetingRace .initial).map (Watched.moves moveSigner) =
      some [0, 1, 1] := by
    decide +kernel
  obtain ⟨w, hw, hmoves⟩ := Option.map_eq_some_iff.mp hrun
  refine ⟨w, hw, hmoves, ?_⟩
  intro hplayable
  have hdistinct := hplayable.distinct
  rw [hmoves] at hdistinct
  exact absurd hdistinct (by decide)

end JudicaVM
