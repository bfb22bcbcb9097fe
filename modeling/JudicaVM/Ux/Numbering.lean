import JudicaVM.Ux.MakeMove

/-!
# The numbers of concurrent moves

What each call has read is the number of the last move that was stored when it read the tip. Its
move gets the next place on the chain exactly when no other move is stored before it, which the
write handle rules out among the calls of one `MsgDB`.
-/

namespace JudicaVM

open Checked Transition

section

variable {Psbt : Type} {C : Crypto (ParticipantAction Psbt)} {S : Signer C} {w w' : Watched C}
  {l : List (CanonicalEnvelopeHash × Envelope (ParticipantAction Psbt))}
  {c : CanonicalEnvelopeHash × Envelope (ParticipantAction Psbt)}

/-- Up to an envelope of the line there are `k` moves. -/
def CountedTo (l : List (CanonicalEnvelopeHash × Envelope (ParticipantAction Psbt)))
    (hash : CanonicalEnvelopeHash) (k : ℕ) : Prop :=
  ∃ before c after, l = before ++ c :: after ∧ c.1 = hash ∧
    (sequences (before ++ [c])).length = k

/-- A number is one more than that of the move that is the `k`th. -/
def Continues (numbers : List ℕ) (k n : ℕ) : Prop :=
  n < 2 ^ 64 ∧ ∃ before m after, numbers = before ++ m :: after ∧ before.length + 1 = k ∧ n = m + 1

private theorem CountedTo.append {hash : CanonicalEnvelopeHash} {k : ℕ} (h : CountedTo l hash k)
    (l' : List (CanonicalEnvelopeHash × Envelope (ParticipantAction Psbt))) :
    CountedTo (l ++ l') hash k := by
  obtain ⟨before, c, after, rfl, hhash, hk⟩ := h
  exact ⟨before, c, after ++ l', by simp, hhash, hk⟩

private theorem Continues.append {numbers : List ℕ} {k n : ℕ} (h : Continues numbers k n)
    (more : List ℕ) : Continues (numbers ++ more) k n := by
  obtain ⟨hn, before, m, after, rfl, hk, hm⟩ := h
  exact ⟨hn, before, m, after ++ more, by simp, hk, hm⟩

private theorem Continues.eq_count {numbers : List ℕ} {k n : ℕ} (h : Continues numbers k n)
    (hnumbers : numbers = List.range numbers.length) : n = k ∧ k ≤ numbers.length := by
  obtain ⟨_, before, m, after, hsplit, hk, hm⟩ := h
  have hget : numbers[before.length]? = some m := by
    rw [hsplit]
    simp
  have hlt : before.length < numbers.length := by
    rw [hsplit]
    simp
  rw [hnumbers, List.getElem?_range hlt] at hget
  obtain rfl := Option.some.inj hget
  omega

private theorem continues_of_add {before after : List (CanonicalEnvelopeHash × Envelope
    (ParticipantAction Psbt))} {k : ℕ} {m : MoveEnvelope} {sequence : ℕ}
    (hmsg : c.2.msg = .moveEnvelope m) (hcount : (sequences (before ++ [c])).length = k)
    (hadd : Checked.add 64 m.sequence 1 = .ok sequence) :
    Continues (sequences (before ++ c :: after)) k sequence := by
  obtain ⟨hlt, rfl⟩ := add_eq_ok_iff.mp hadd
  have hseq : c.2.msg.sequence = some m.sequence := by rw [hmsg]; rfl
  rw [sequences_snoc_move hseq, List.length_append, List.length_singleton] at hcount
  refine ⟨hlt, sequences before, m.sequence, sequences after, ?_, hcount, rfl⟩
  have hcons : before ++ c :: after = (before ++ [c]) ++ after := by simp
  rw [hcons, sequences_append, sequences_snoc_move hseq]
  simp

theorem ParticipantAction.sequence_eq_some {msg : ParticipantAction Psbt} {n : ℕ}
    (h : msg.sequence = some n) : ∃ m, msg = .moveEnvelope m ∧ m.sequence = n := by
  cases msg with
  | moveEnvelope m => exact ⟨m, rfl, Option.some.inj h⟩
  | custom j => cases h
  | psbtSigningCoordination m => cases h

/-- A message that another writer stores is no move, and no call of its task is under way. -/
theorem Movers.admits_call {w : Movers C} {i : ℕ} {msg : ParticipantAction Psbt}
    (h : w.admits (.call i msg)) : w.seeks i = .idle ∧ msg.isMove = false := by
  rw [Movers.admits, Bool.and_eq_true] at h
  obtain ⟨hmove, hidle⟩ := h
  constructor
  · split at hidle
    · assumption
    · cases hidle
  · simpa using hmove

theorem ParticipantAction.sequence_of_isFirstHeartbeat {msg : ParticipantAction Psbt}
    (h : msg.isFirstHeartbeat) : msg.sequence = some 0 := by
  cases msg with
  | moveEnvelope m =>
    rw [ParticipantAction.isFirstHeartbeat, Bool.and_eq_true] at h
    exact congrArg some (of_decide_eq_true h.2)
  | custom j => cases h
  | psbtSigningCoordination m => cases h

namespace Watched

/-- The stored envelopes of the key. -/
def own (S : Signer C) (w : Watched C) :
    List (CanonicalEnvelopeHash × Envelope (ParticipantAction Psbt)) :=
  w.movers.writers.store.own S.key

/-- The moves on the chain count from zero. -/
def Numbered (S : Signer C) (w : Watched C) : Prop :=
  w.moves S = List.range (w.moves S).length

/-- The invariant of the calls. -/
structure Counting (S : Signer C) (w : Watched C) : Prop where
  linear : w.movers.writers.Linear S
  genesis : ∀ c ∈ (w.own S).head?, c.2.msg.sequence = some 0
  bounded : ∀ n ∈ sequences (w.own S), n < 2 ^ 64
  searching : ∀ i, (w.movers.seeks i).searching →
    Writers.message (w.movers.writers.tasks i) = none
  reading : ∀ i nextMove prev, w.movers.seeks i = .seek nextMove (some prev) →
    CountedTo (w.own S) prev (w.counted i)
  calling : ∀ i m, Writers.message (w.movers.writers.tasks i) = some (.moveEnvelope m) →
    Continues (sequences (w.own S)) (w.counted i) m.sequence

theorem Counting.moves_eq (h : w.Counting S) : w.moves S = sequences (w.own S) :=
  h.linear.moveSequences_eq

theorem initial_counting : (initial : Watched C).Counting S := by
  constructor
  · exact .initial
  · intro c hc
    cases hc
  · intro n hn
    cases hn
  · intro i hseek
    cases hseek
  · intro i nextMove prev hseek
    cases hseek
  · intro i m hm
    cases hm

theorem Counting.playable_iff (h : w.Counting S) : Playable (w.moves S) ↔ w.Numbered S := by
  have hbounded : ∀ n ∈ w.moves S, n < 2 ^ 64 := by
    rw [h.moves_eq]
    exact h.bounded
  constructor
  · intro hplayable
    have hhead : ∀ n ∈ (w.moves S).head?, n = 0 := by
      rw [h.moves_eq]
      intro n hn
      cases hown : w.own S with
      | nil =>
        rw [hown] at hn
        cases hn
      | cons c l =>
        have hzero := h.genesis c (by rw [hown]; rfl)
        rw [hown] at hn
        simpa [sequences, hzero, eq_comm] using hn
    rw [Numbered, List.range_eq_range']
    exact eq_range'_of_isChain hplayable.consecutive hhead
  · intro hn
    have hlength : (w.moves S).length ≤ 2 ^ 64 := by
      by_contra hlong
      have hmem : 2 ^ 64 ∈ w.moves S := by
        rw [hn]
        exact List.mem_range.mpr (by omega)
      exact absurd (hbounded _ hmem) (Nat.lt_irrefl _)
    rw [hn]
    exact playable_range hlength

theorem Counting.stores (h : w.Counting S) {i : ℕ} {msg : ParticipantAction Psbt}
    {wrapped : Authenticated C} {now : ℤ} (hstores : w.movers.writers.Stores i msg wrapped now) :
    wrapped.inner.msg = msg ∧
      ∀ m, msg = .moveEnvelope m → Continues (sequences (w.own S)) (w.counted i) m.sequence := by
  have hbuilt := h.linear.built i
  rw [hstores.1] at hbuilt
  refine ⟨hbuilt.1, ?_⟩
  intro m hm
  apply h.calling i m
  rw [hstores.1, ← hm]
  rfl

private theorem count_eq_or (ev : MoverEvent C) (i : ℕ) :
    w.count S ev i = w.counted i ∨ ∃ nextMove, w.movers.seeks i = .seek nextMove none := by
  cases ev with
  | seek j tip timeMillis =>
    cases hseek : w.movers.seeks j with
    | seek nextMove hash =>
      cases hash with
      | none =>
        by_cases hi : i = j
        · rw [hi]
          exact .inr ⟨nextMove, hseek⟩
        · exact .inl (by simp [Watched.count, hseek, Function.update_of_ne hi])
      | some prev => exact .inl (by simp [Watched.count, hseek])
    | _ => exact .inl (by simp [Watched.count, hseek])
  | _ => exact .inl rfl

private theorem Counting.count (h : w.Counting S) (ev : MoverEvent C) :
    Counting S (⟨w.movers, w.count S ev⟩ : Watched C) := by
  refine ⟨h.linear, h.genesis, h.bounded, h.searching, ?_, ?_⟩
  · intro i nextMove prev hseek
    show CountedTo (w.own S) prev (w.count S ev i)
    apply (count_eq_or ev i).elim
    · intro heq
      rw [heq]
      exact h.reading i nextMove prev hseek
    · intro hfirst
      obtain ⟨_, hfirst⟩ := hfirst
      cases hfirst.symm.trans hseek
  · intro i m hm
    show Continues (sequences (w.own S)) (w.count S ev i) m.sequence
    apply (count_eq_or ev i).elim
    · intro heq
      rw [heq]
      exact h.calling i m hm
    · intro hfirst
      obtain ⟨nextMove, hfirst⟩ := hfirst
      have hnone := h.searching i (by rw [hfirst]; rfl)
      cases hnone.symm.trans hm

private theorem Counting.setSeek (h : w.Counting S) {i : ℕ} {state : SeekState} {movers : Movers C}
    (hwriters : movers.writers = w.movers.writers)
    (hseeks : movers.seeks = Function.update w.movers.seeks i state)
    (hsearching : state.searching → Writers.message (w.movers.writers.tasks i) = none)
    (hreading : ∀ nextMove prev, state = .seek nextMove (some prev) →
      CountedTo (w.own S) prev (w.counted i)) :
    Counting S (⟨movers, w.counted⟩ : Watched C) := by
  have hown : own S (⟨movers, w.counted⟩ : Watched C) = w.own S := by
    rw [own, own, ← hwriters]
  refine ⟨hwriters ▸ h.linear, hown ▸ h.genesis, hown ▸ h.bounded, ?_, ?_, ?_⟩
  · intro j hseek
    show Writers.message (movers.writers.tasks j) = none
    rw [hwriters]
    change (movers.seeks j).searching at hseek
    rw [hseeks] at hseek
    by_cases hj : j = i
    · subst hj
      rw [Function.update_self] at hseek
      exact hsearching hseek
    · rw [Function.update_of_ne hj] at hseek
      exact h.searching j hseek
  · intro j nextMove prev hseek
    rw [hown]
    change movers.seeks j = _ at hseek
    rw [hseeks] at hseek
    by_cases hj : j = i
    · subst hj
      rw [Function.update_self] at hseek
      exact hreading nextMove prev hseek
    · rw [Function.update_of_ne hj] at hseek
      exact h.reading j nextMove prev hseek
  · intro j m hm
    rw [hown]
    change Writers.message (movers.writers.tasks j) = _ at hm
    rw [hwriters] at hm
    exact h.calling j m hm

private theorem Counting.release (h : w.Counting S) (i : ℕ) :
    Counting S (⟨w.movers.release i, w.counted⟩ : Watched C) :=
  h.setSeek rfl rfl (fun hstate => by cases hstate) fun _ _ hstate => by cases hstate

private theorem Counting.read (h : w.Counting S) {i : ℕ} {nextMove : GameMove}
    {hash : Option CanonicalEnvelopeHash} {tip : Row (ParticipantAction Psbt)} (timeMillis : ℕ)
    (hseek : w.movers.seeks i = .seek nextMove hash)
    (hread : Movers.IsRead w.movers.writers.store S.key hash tip) :
    tip ∈ w.movers.writers.store.messages ∧ ∃ before after,
      w.own S = before ++ (tip.hash, tip.body) :: after ∧
      (sequences (before ++ [(tip.hash, tip.body)])).length =
        w.count S (.seek i tip timeMillis) i := by
  cases hash with
  | none =>
    obtain ⟨hmem, _, huser, hmax⟩ := hread
    have hkey := (h.linear.honest.reachable.sourced.userByKey_eq_iff hmem).mp huser
    have hown : (tip.hash, tip.body) ∈ w.own S :=
      List.mem_filter.mpr ⟨Store.mem_contents hmem, decide_eq_true hkey⟩
    obtain ⟨before, after, hsplit⟩ := List.append_of_mem hown
    have hlast : after = [] := by
      cases after with
      | nil => rfl
      | cons q after =>
        -- a later envelope of the line would be higher than the tip
        have hheights := h.linear.line.heights
        rw [show w.movers.writers.store.own S.key = _ from hsplit] at hheights
        have hlt := List.rel_of_pairwise_cons (List.pairwise_append.mp hheights).2.1
          List.mem_cons_self
        have hq : q ∈ w.own S := by
          rw [hsplit]
          simp
        obtain ⟨r, hr, _, hbody, hc⟩ := Writers.row_of_own h.linear hq
        have hrkey : r.key = S.key := by
          rw [Row.key, hbody]
          exact of_decide_eq_true (List.mem_filter.mp hq).2
        have hle := hmax r hr hc
          ((h.linear.honest.reachable.sourced.userId_eq_iff hr hmem).mpr (hrkey.trans hkey.symm))
        rw [Row.height, hbody] at hle
        exact absurd hlt (Int.not_lt.mpr hle)
    subst hlast
    refine ⟨hmem, before, [], hsplit, ?_⟩
    rw [Watched.count, hseek]
    show _ = Function.update w.counted i (w.moves S).length i
    rw [Function.update_self, h.moves_eq, hsplit]
  | some prev =>
    obtain ⟨before, c, after, hsplit, hhash, hcount⟩ := h.reading i nextMove prev hseek
    have hmem := List.mem_of_find?_eq_some hread
    have hprev : tip.hash = prev := by simpa using List.find?_some hread
    have hc : c ∈ w.own S := by
      rw [hsplit]
      simp
    obtain ⟨r, hr, hrhash, hbody, _⟩ := Writers.row_of_own h.linear hc
    have hsame : r = tip :=
      h.linear.honest.reachable.linked.eq_of_hash hr hmem (by rw [hrhash, hhash, hprev])
    have htip : (tip.hash, tip.body) = c := by
      rw [← hsame, hrhash, hbody]
    refine ⟨hmem, before, after, ?_, ?_⟩
    · rw [htip]
      exact hsplit
    · rw [htip, hcount, Watched.count, hseek]

private theorem Counting.walk (h : w.Counting S)
    {before after : List (CanonicalEnvelopeHash × Envelope
    (ParticipantAction Psbt))} {k : ℕ} {tip : Row (ParticipantAction Psbt)} {a : Ancestors}
    (hmem : tip ∈ w.movers.writers.store.messages)
    (hsplit : w.own S = before ++ (tip.hash, tip.body) :: after)
    (hmsg : tip.body.msg.sequence = none) (ha : tip.body.header.ancestors = some a)
    (hcount : (sequences (before ++ [(tip.hash, tip.body)])).length = k) :
    CountedTo (w.own S) a.prevMsg k := by
  rw [sequences_snoc_other hmsg] at hcount
  have hline := h.linear.line
  rw [show w.movers.writers.store.own S.key = _ from hsplit] at hline
  cases hbefore : before.getLast? with
  | none =>
    -- the first envelope of the line is a genesis, which has no ancestors
    obtain rfl := List.getLast?_eq_none_iff.mp hbefore
    have h0 : tip.body.header.height = 0 := hline.genesis _ rfl
    have hnone := (h.linear.honest.reachable.sourced.authentic hmem).genesis h0
    rw [ha] at hnone
    cases hnone
  | some c' =>
    obtain ⟨earlier, rfl⟩ := List.getLast?_eq_some_iff.mp hbefore
    have hupon : BuiltUpon c' (tip.hash, tip.body) := by
      have hchain := (List.isChain_append.mp hline.chain).2.2
      exact hchain c' (by simp) _ (by simp)
    refine ⟨earlier, c', (tip.hash, tip.body) :: after, by simpa using hsplit, ?_, hcount⟩
    rw [← hupon.1]
    simp [Envelope.prevMsg, ha]

section

variable [DecidableEq Psbt] {ev : WriterEvent C} {writers : Writers C}

/-- A step of the writers that makes chains as `make_new_chain_genesis` does. -/
structure WriterStep (S : Signer C) (w : Watched C) (ev : WriterEvent C) (writers : Writers C) :
    Prop where
  step : w.movers.writers.step S ev = some writers
  genesis : ∀ nickname genesis nextNonce now, ev = .generateUser nickname genesis nextNonce now →
    w.movers.writers.store.userByKey S.key = none ∧ genesis.inner.msg.sequence = some 0

theorem WriterStep.adds (hw : WriterStep S w ev writers) (h : w.Counting S) :
    Writers.Adds S w.movers.writers writers ev :=
  h.linear.adds (fun _ _ _ _ hev => (hw.genesis _ _ _ _ hev).1) hw.step

private theorem WriterStep.chain (hw : WriterStep S w ev writers) (h : w.Counting S) :
    (∃ more, writers.store.own S.key = w.own S ++ more) ∧
    (∀ c ∈ (writers.store.own S.key).head?, c.2.msg.sequence = some 0) ∧
    ∀ n ∈ sequences (writers.store.own S.key), n < 2 ^ 64 := by
  cases hw.adds h with
  | nothing hown _ =>
    rw [hown]
    exact ⟨⟨[], (List.append_nil _).symm⟩, h.genesis, h.bounded⟩
  | @genesis _ genesis _ _ hempty hown =>
    have hzero : genesis.entry.2.msg.sequence = some 0 := (hw.genesis _ _ _ _ rfl).2
    rw [hown]
    refine ⟨⟨[genesis.entry], ?_⟩, ?_, ?_⟩
    · show _ = w.movers.writers.store.own S.key ++ _
      rw [hempty, List.nil_append]
    · simpa using hzero
    · simp [sequences, hzero]
  | @envelope i msg wrapped now hstores hown =>
    obtain ⟨hmsg, hmove⟩ := h.stores hstores
    rw [hown]
    refine ⟨⟨_, rfl⟩, ?_, ?_⟩
    · intro c hc
      have hbuilt := h.linear.built i
      rw [hstores.1] at hbuilt
      obtain ⟨p, hp, _⟩ := hbuilt.2
      have hsome : (w.movers.writers.store.own S.key).head?.isSome :=
        List.isSome_head?.mpr (List.ne_nil_of_mem hp)
      rw [List.head?_append, Option.or_of_isSome hsome] at hc
      exact h.genesis c hc
    · intro n hn
      rw [sequences_append, List.mem_append] at hn
      apply hn.elim (h.bounded n)
      intro hn
      obtain ⟨c, hc, hseq⟩ := List.mem_filterMap.mp hn
      obtain rfl := List.mem_singleton.mp hc
      change wrapped.inner.msg.sequence = some n at hseq
      rw [hmsg] at hseq
      obtain ⟨m, rfl, rfl⟩ := ParticipantAction.sequence_eq_some hseq
      exact (hmove m rfl).1

/-- A step of the writers keeps the invariant, when the tasks that it starts have no move, or one
that continues with the move that was read. -/
theorem Counting.writerStep (h : w.Counting S) (hw : WriterStep S w ev writers)
    (hwriters : w'.movers.writers = writers) (hcounted : w'.counted = w.counted)
    (hseeks : ∀ i, (w'.movers.seeks i).searching → w.movers.seeks i = w'.movers.seeks i)
    (hcall : ∀ i msg, ev = .call i msg → (w'.movers.seeks i).searching = false ∧
      ∀ m, msg = .moveEnvelope m → Continues (sequences (w.own S)) (w.counted i) m.sequence) :
    w'.Counting S := by
  obtain ⟨⟨more, hown⟩, hgenesis, hbounded⟩ := hw.chain h
  have hown' : w'.own S = w.own S ++ more := by rw [← hown, own, hwriters]
  constructor
  · rw [hwriters]
    exact h.linear.step (fun _ _ _ _ hev => (hw.genesis _ _ _ _ hev).1) hw.step
  · rw [own, hwriters]
    exact hgenesis
  · rw [own, hwriters]
    exact hbounded
  · intro i hseek
    rw [hwriters]
    cases hmsg : Writers.message (writers.tasks i) with
    | none => rfl
    | some msg =>
      apply (Writers.step_message hw.step hmsg).elim
      · intro hbefore
        rw [h.searching i ((hseeks i hseek).symm ▸ hseek)] at hbefore
        cases hbefore
      · intro hcalled
        have hdone := (hcall i msg hcalled.1).1
        rw [hdone] at hseek
        cases hseek
  · intro i nextMove prev hseek
    have hsame := hseeks i (by rw [hseek]; rfl)
    rw [hown', hcounted]
    exact (h.reading i nextMove prev (hsame.trans hseek)).append more
  · intro i m hm
    rw [hown', hcounted, sequences_append]
    apply Continues.append
    rw [hwriters] at hm
    apply (Writers.step_message hw.step hm).elim
    · exact h.calling i m
    · intro hcalled
      exact (hcall i _ hcalled.1).2 m rfl

private theorem Counting.numbered_iff (h : w.Counting S) (hn : w.Numbered S)
    (hw : WriterStep S w ev writers) {w' : Watched C} (hwriters : w'.movers.writers = writers)
    (h' : w'.Counting S) : w'.Numbered S ↔ w.Undisturbed S (.write ev) := by
  have hown : w'.own S = writers.store.own S.key := by rw [own, hwriters]
  have hmoves := h.moves_eq
  have hmoves' := h'.moves_eq
  rw [hown] at hmoves'
  cases hw.adds h with
  | nothing hsame hstores =>
    have hundisturbed : w.Undisturbed S (.write ev) := by
      unfold Undisturbed
      split
      · intro m wrapped hstore
        rename_i hev
        cases hev
        exact absurd hstore (hstores _ _ _ _ rfl)
      · trivial
    have hnumbered : w'.Numbered S := by
      rw [Numbered, hmoves', hsame]
      exact hmoves ▸ hn
    exact iff_of_true hnumbered hundisturbed
  | @genesis _ genesis _ _ hempty hown' =>
    have hzero : genesis.entry.2.msg.sequence = some 0 := (hw.genesis _ _ _ _ rfl).2
    have hnumbered : w'.Numbered S := by
      rw [Numbered, hmoves', hown']
      simp [sequences, hzero]
    exact iff_of_true hnumbered trivial
  | @envelope i msg wrapped now hstores hown' =>
    obtain ⟨hmsg, hmove⟩ := h.stores hstores
    cases hseq : msg.sequence with
    | none =>
      have hsame : w'.moves S = w.moves S := by
        rw [hmoves', hown', hmoves]
        apply sequences_snoc_other
        rw [← hseq, ← hmsg]
        rfl
      have hnumbered : w'.Numbered S := by rwa [Numbered, hsame]
      apply iff_of_true hnumbered
      intro m wrapped' hstores'
      obtain ⟨rfl, _⟩ := WriterState.insert.inj (hstores.1.symm.trans hstores'.1)
      cases hseq
    | some n =>
      obtain ⟨m, rfl, rfl⟩ := ParticipantAction.sequence_eq_some hseq
      have hmore : w'.moves S = w.moves S ++ [m.sequence] := by
        rw [hmoves', hown', hmoves]
        apply sequences_snoc_move
        rw [← hseq, ← hmsg]
        rfl
      have hcontinues := hmove m rfl
      rw [← hmoves] at hcontinues
      obtain ⟨hcount, _⟩ := hcontinues.eq_count hn
      constructor
      · intro hn' m' wrapped' hstores'
        obtain ⟨hsame, _⟩ := WriterState.insert.inj (hstores.1.symm.trans hstores'.1)
        -- the number of the move is its place on the chain
        have hplace : m.sequence = (w.moves S).length := by
          have hget : (w'.moves S)[(w.moves S).length]? = some m.sequence := by
            rw [hmore]
            simp
          rw [hn', hmore, List.getElem?_range (by simp)] at hget
          exact (Option.some.inj hget).symm
        rw [← hcount, hplace]
      · intro hundisturbed
        have hplace : m.sequence = (w.moves S).length :=
          hcount.trans (hundisturbed m wrapped hstores)
        rw [Numbered, hmore, List.length_append, List.length_singleton, List.range_succ, ← hplace]
        congr 1
        rw [hplace]
        exact hn

private theorem Counting.seekStep (h : w.Counting S) {i : ℕ} {nextMove : GameMove}
    {hash : Option CanonicalEnvelopeHash} {tip : Row (ParticipantAction Psbt)} {timeMillis : ℕ}
    (hseek : w.movers.seeks i = .seek nextMove hash)
    (hread : Movers.IsRead w.movers.writers.store S.key hash tip) {movers : Movers C}
    (hstep : w.movers.seekStep S i nextMove tip.body timeMillis = some movers) :
    Counting S (⟨movers, w.count S (.seek i tip timeMillis)⟩ : Watched C) := by
  obtain ⟨hmem, before, after, hsplit, hcount⟩ := h.read timeMillis hseek hread
  have h' := h.count (.seek i tip timeMillis)
  have hidle : Writers.message (w.movers.writers.tasks i) = none :=
    h.searching i (by rw [hseek]; rfl)
  unfold Movers.seekStep at hstep
  split at hstep
  · rename_i m hmsg
    split at hstep
    · obtain rfl := Option.some.inj hstep
      exact h'.release i
    · rename_i sequence hadd
      obtain ⟨writers, hwriters, rfl⟩ := Option.map_eq_some_iff.mp hstep
      have hown : own S (⟨w.movers, w.count S (.seek i tip timeMillis)⟩ : Watched C) =
          before ++ (tip.hash, tip.body) :: after := hsplit
      have hw : WriterStep S (⟨w.movers, w.count S (.seek i tip timeMillis)⟩ : Watched C)
          (.call i (.moveEnvelope { d := nextMove, sequence, timeMillis })) writers :=
        ⟨hwriters, fun _ _ _ _ hev => by cases hev⟩
      refine h'.writerStep hw rfl rfl ?_ ?_
      · intro j hj
        change (Function.update w.movers.seeks i .store j).searching at hj
        show w.movers.seeks j = Function.update w.movers.seeks i .store j
        by_cases hji : j = i
        · rw [hji, Function.update_self] at hj
          cases hj
        · rw [Function.update_of_ne hji]
      · intro j msg hev
        cases hev
        constructor
        · show (Function.update w.movers.seeks i .store i).searching = false
          rw [Function.update_self]
          rfl
        · intro m' hm'
          cases hm'
          rw [hown]
          exact continues_of_add hmsg hcount hadd
  · rename_i hmsg
    have hnone : tip.body.msg.sequence = none := by
      cases hm : tip.body.msg with
      | moveEnvelope m => exact absurd hm (hmsg m)
      | custom j => rfl
      | psbtSigningCoordination m => rfl
    split at hstep
    · obtain rfl := Option.some.inj hstep
      exact h'.release i
    · rename_i a ha
      obtain rfl := Option.some.inj hstep
      refine h'.setSeek rfl rfl (fun _ => hidle) ?_
      intro nextMove' prev hstate
      obtain ⟨rfl, hprev⟩ := SeekState.seek.inj hstate
      obtain rfl := Option.some.inj hprev
      exact h.walk hmem hsplit hnone ha hcount

private theorem seekStep_store {i : ℕ} {nextMove : GameMove}
    {tip : Envelope (ParticipantAction Psbt)}
    {timeMillis : ℕ} {movers : Movers C}
    (hstep : w.movers.seekStep S i nextMove tip timeMillis = some movers) :
    movers.writers.store = w.movers.writers.store := by
  unfold Movers.seekStep at hstep
  split at hstep
  · split at hstep
    · obtain rfl := Option.some.inj hstep
      rfl
    · obtain ⟨writers, hwriters, rfl⟩ := Option.map_eq_some_iff.mp hstep
      simp only [Writers.step] at hwriters
      split at hwriters
      · obtain rfl := Option.some.inj hwriters
        rfl
      · cases hwriters
  · split at hstep
    · obtain rfl := Option.some.inj hstep
      rfl
    · obtain rfl := Option.some.inj hstep
      rfl

/-- What an event does to the calls. -/
inductive Effect (S : Signer C) (w : Watched C) : MoverEvent C → Movers C → Prop
  | connect : Effect S w .connect { w.movers with database := w.movers.database + 1 }
  | makeNewChain {nickname : String} {genesis : Authenticated C} {nextNonce : ℕ} {now : ℤ}
      {writers : Writers C}
      (hw : WriterStep S w (.generateUser nickname genesis nextNonce now) writers) :
      Effect S w (.makeNewChain nickname genesis nextNonce now) { w.movers with writers }
  | makeMove {i : ℕ} {nextMove : GameMove} (hseek : w.movers.seeks i = .idle)
      (htask : w.movers.writers.tasks i = .idle) :
      Effect S w (.makeMove i nextMove) { w.movers.setSeek i (.waiting nextMove) with
        msgdbs := Function.update w.movers.msgdbs i w.movers.database }
  | getHandleAll {i : ℕ} {nextMove : GameMove} (hwaiting : w.movers.seeks i = .waiting nextMove)
      (hfree : w.movers.locks (w.movers.msgdbs i) = none) :
      Effect S w (.getHandleAll i) (w.movers.lock i nextMove)
  | seek {i : ℕ} {tip : Row (ParticipantAction Psbt)} {timeMillis : ℕ} {nextMove : GameMove}
      {hash : Option CanonicalEnvelopeHash} {movers : Movers C}
      (hseek : w.movers.seeks i = .seek nextMove hash)
      (hread : Movers.IsRead w.movers.writers.store S.key hash tip)
      (hmovers : w.movers.seekStep S i nextMove tip.body timeMillis = some movers) :
      Effect S w (.seek i tip timeMillis) movers
  | fail {i : ℕ} {nextMove : GameMove} {hash : Option CanonicalEnvelopeHash}
      (hseek : w.movers.seeks i = .seek nextMove hash) :
      Effect S w (.fail i) (w.movers.release i)
  | drop {i : ℕ} (hstore : w.movers.seeks i = .store)
      (htask : w.movers.writers.tasks i = .idle) : Effect S w (.drop i) (w.movers.release i)
  | write {ev : WriterEvent C} {writers : Writers C} (hw : WriterStep S w ev writers)
      (hcall : ∀ i msg, ev = .call i msg → w.movers.seeks i = .idle ∧ msg.isMove = false) :
      Effect S w (.write ev) { w.movers with writers }

theorem step_effect {ev : MoverEvent C} (hstep : w.step S ev = some w') :
    Effect S w ev w'.movers ∧ w'.counted = w.count S ev := by
  obtain ⟨movers, hmovers, rfl⟩ := Option.map_eq_some_iff.mp hstep
  refine ⟨?_, rfl⟩
  cases ev with
  | connect =>
    obtain rfl := Option.some.inj hmovers
    exact .connect
  | makeNewChain nickname genesis nextNonce now =>
    simp only [Movers.step] at hmovers
    split_ifs at hmovers with hguard
    obtain ⟨writers, hwriters, rfl⟩ := Option.map_eq_some_iff.mp hmovers
    apply Effect.makeNewChain ⟨hwriters, ?_⟩
    intro _ _ _ _ hev
    cases hev
    exact ⟨hguard.2.1, ParticipantAction.sequence_of_isFirstHeartbeat hguard.2.2⟩
  | makeMove i nextMove =>
    simp only [Movers.step] at hmovers
    split at hmovers
    · rename_i hseek htask
      obtain rfl := Option.some.inj hmovers
      exact .makeMove hseek htask
    · cases hmovers
  | getHandleAll i =>
    simp only [Movers.step] at hmovers
    split at hmovers
    · rename_i nextMove hwaiting
      split_ifs at hmovers with hfree
      obtain rfl := Option.some.inj hmovers
      exact .getHandleAll hwaiting hfree
    · cases hmovers
  | seek i tip timeMillis =>
    simp only [Movers.step] at hmovers
    split at hmovers
    · rename_i nextMove hash hseek
      split_ifs at hmovers with hread
      exact .seek hseek hread hmovers
    · cases hmovers
  | fail i =>
    simp only [Movers.step] at hmovers
    split at hmovers
    · rename_i hseek
      obtain rfl := Option.some.inj hmovers
      exact .fail hseek
    · cases hmovers
  | drop i =>
    simp only [Movers.step] at hmovers
    split at hmovers
    · rename_i hstore htask
      obtain rfl := Option.some.inj hmovers
      exact .drop hstore htask
    · cases hmovers
  | write ev =>
    simp only [Movers.step] at hmovers
    split_ifs at hmovers with hadmits
    obtain ⟨writers, hwriters, rfl⟩ := Option.map_eq_some_iff.mp hmovers
    refine .write ⟨hwriters, ?_⟩ ?_
    · intro _ _ _ _ hev
      rw [hev] at hadmits
      cases hadmits
    · rintro i msg rfl
      exact Movers.admits_call hadmits

/-- Every step keeps the invariant, and the numbers go on counting exactly when it is
undisturbed. -/
theorem Counting.step (h : w.Counting S) {ev : MoverEvent C} (hstep : w.step S ev = some w') :
    w'.Counting S ∧ (w.Numbered S → (w'.Numbered S ↔ w.Undisturbed S ev)) := by
  obtain ⟨heffect, hcounted⟩ := step_effect hstep
  obtain ⟨movers, counted⟩ := w'
  obtain rfl : counted = w.count S ev := hcounted
  cases heffect with
  | connect =>
    refine ⟨?_, fun hn => iff_of_true hn trivial⟩
    exact ⟨h.linear, h.genesis, h.bounded, h.searching, h.reading, h.calling⟩
  | @makeNewChain nickname genesis nextNonce now writers hw =>
    have h' : Counting S (⟨{ w.movers with writers }, w.counted⟩ : Watched C) :=
      h.writerStep hw rfl rfl (fun _ _ => rfl) fun _ _ hev => by cases hev
    exact ⟨h', fun hn => h.numbered_iff hn hw rfl h'⟩
  | makeMove hseek htask =>
    refine ⟨h.setSeek rfl rfl ?_ ?_, fun hn => iff_of_true hn trivial⟩
    · intro _
      rw [htask]
      rfl
    · intro _ _ hstate
      cases hstate
  | getHandleAll hwaiting hfree =>
    refine ⟨h.setSeek rfl rfl ?_ ?_, fun hn => iff_of_true hn trivial⟩
    · intro _
      exact h.searching _ (by rw [hwaiting]; rfl)
    · intro _ _ hstate
      cases hstate
  | @seek i tip timeMillis nextMove hash movers hseek hread hmovers =>
    refine ⟨h.seekStep hseek hread hmovers, ?_⟩
    intro hn
    have hmoves : Watched.moves S ⟨movers, w.count S (.seek i tip timeMillis)⟩ = w.moves S := by
      rw [moves, moves, seekStep_store hmovers]
    have hnumbered : Watched.Numbered S ⟨movers, w.count S (.seek i tip timeMillis)⟩ := by
      rwa [Numbered, hmoves]
    exact iff_of_true hnumbered trivial
  | fail hseek => exact ⟨h.release _, fun hn => iff_of_true hn trivial⟩
  | drop hstore htask => exact ⟨h.release _, fun hn => iff_of_true hn trivial⟩
  | @write ev writers hw hcall =>
    have h' : Counting S (⟨{ w.movers with writers }, w.counted⟩ : Watched C) := by
      refine h.writerStep hw rfl rfl (fun _ _ => rfl) ?_
      intro i msg hev
      obtain ⟨hidle, hmove⟩ := hcall i msg hev
      refine ⟨by rw [hidle]; rfl, ?_⟩
      rintro m rfl
      cases hmove
    exact ⟨h', fun hn => h.numbered_iff hn hw rfl h'⟩

theorem Counting.playable_step (h : w.Counting S) {ev : MoverEvent C}
    (hplayable : Playable (w.moves S)) (hstep : w.step S ev = some w') :
    Playable (w'.moves S) ↔ w.Undisturbed S ev := by
  obtain ⟨h', hiff⟩ := h.step hstep
  rw [h'.playable_iff]
  exact hiff (h.playable_iff.mp hplayable)

end

end Watched

end

end JudicaVM
