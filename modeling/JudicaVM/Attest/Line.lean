import JudicaVM.Attest.Writers

/-!
# The chain of a key is a line

The tasks of a key build every envelope upon the last one of its chain. When the key has one genesis,
its envelopes form a line in the order in which they are stored.
-/

namespace JudicaVM

open Transition

variable {M : Type} {C : Crypto M} {S : Signer C} {w w' : Writers C} {s s' : Store M}
  {l : List (CanonicalEnvelopeHash × Envelope M)} {p c : CanonicalEnvelopeHash × Envelope M}
  {key : XOnlyPublicKey}

/-- The second envelope names the first one as its parent and counts one more. -/
def BuiltUpon (p c : CanonicalEnvelopeHash × Envelope M) : Prop :=
  c.2.prevMsg = p.1 ∧ c.2.header.height = p.2.header.height + 1

structure Line (l : List (CanonicalEnvelopeHash × Envelope M)) : Prop where
  genesis : ∀ c ∈ l.head?, c.2.header.height = 0
  chain : l.IsChain BuiltUpon

namespace Line

private theorem singleton (h0 : c.2.header.height = 0) : Line [c] := by
  constructor
  · simpa using h0
  · exact .singleton c

private theorem append (h : Line l) (hp : p ∈ l) (hbuilt : BuiltUpon p c)
    (hchildren : ∀ c' ∈ l, c'.2.prevMsg ≠ c.2.prevMsg) : Line (l ++ [c]) := by
  obtain ⟨before, after, rfl⟩ := List.append_of_mem hp
  have hlast : after = [] := by
    cases after with
    | nil => rfl
    | cons q after =>
      have hq : BuiltUpon p q := (List.isChain_cons_cons.mp (List.isChain_append.mp h.chain).2.1).1
      have hne := hchildren q (by simp)
      rw [hq.1, hbuilt.1] at hne
      exact absurd rfl hne
  subst hlast
  constructor
  · intro c' hc'
    apply h.genesis
    rw [List.head?_append, Option.or_of_isSome (by simp)] at hc'
    exact hc'
  · apply h.chain.append (.singleton c)
    intro x hx y hy
    simp only [List.getLast?_append, List.getLast?_singleton, Option.some_or, Option.mem_def,
      Option.some.injEq] at hx
    simp only [List.head?_cons, Option.mem_def, Option.some.injEq] at hy
    subst hx hy
    exact hbuilt

theorem heights (h : Line l) : l.Pairwise fun a b => a.2.header.height < b.2.header.height := by
  have hlt : l.IsChain fun a b => a.2.header.height < b.2.header.height := by
    apply h.chain.imp
    intro a b hab
    rw [hab.2]
    omega
  have htrans : IsTrans (CanonicalEnvelopeHash × Envelope M)
      fun a b => a.2.header.height < b.2.header.height :=
    ⟨fun _ _ _ hab hbc => Int.lt_trans hab hbc⟩
  exact List.isChain_iff_pairwise.mp hlt

end Line

private theorem Row.connected_connect {r : Row M} {us : List Updatable} (h : r.connected) :
    (r.connect us).connected := by
  unfold Row.connect
  split
  · rfl
  · exact h

/-- The rows of a key are connected. -/
def Store.OwnConnected (s : Store M) (key : XOnlyPublicKey) : Prop :=
  ∀ r ∈ s.messages, r.key = key → r.connected

private theorem Store.OwnConnected.apply (h : s.OwnConnected key) {op : StoreOp C}
    (hop : ∀ e ∈ op.envelope, e.inner.header.key = key → e.inner.header.height = 0 ∨
      ∃ r ∈ s.messages, r.hash = e.inner.prevMsg ∧ r.connected) :
    (s.apply op).OwnConnected key := by
  apply apply_preserves (I := fun s => Store.OwnConnected s key) op h
  · intro nickname e _ r hr
    rw [Store.addUser_messages] at hr
    exact h r hr
  · intro s₁ e user now s' h₁ hsame he hocc
    cases hocc with
    | envelope _ _ _ =>
      intro r hr hkey
      obtain ⟨r', hr', rfl⟩ := Store.mem_push.mp hr
      rw [Row.connectGapParent_connected]
      rw [Row.key, Row.connectGapParent_body] at hkey
      apply hr'.elim (fun hr' => h₁ r' hr' hkey)
      intro hnew
      subst hnew
      -- the parent of the new row is connected
      show (decide _ || List.any _ _) = true
      rw [Bool.or_eq_true, decide_eq_true_eq, hsame, List.any_eq_true]
      apply (hop e he hkey).imp id
      intro hparent
      obtain ⟨p, hp, hhash, hc⟩ := hparent
      exact ⟨p, hp, by simp [hhash, hc]⟩
  · intro s' hocc
    cases hocc with
    | connect _ =>
      intro r hr hkey
      obtain ⟨r', hr', rfl⟩ := Store.mem_connectAll.mp hr
      rw [Row.key, Row.connect_body] at hkey
      exact Row.connected_connect (h r' hr' hkey)

/-- The envelope that a task is about to insert has its message and is built upon a stored one. -/
def WriterState.Built (l : List (CanonicalEnvelopeHash × Envelope M)) : WriterState C → Prop
  | .insert msg wrapped => wrapped.inner.msg = msg ∧ ∃ p ∈ l, BuiltUpon p wrapped.entry
  | _ => True

namespace Writers

structure Linear (S : Signer C) (w : Writers C) : Prop where
  honest : w.Honest S
  line : Line (w.store.own S.key)
  built : ∀ i, (w.tasks i).Built (w.store.own S.key)
  connected : w.store.OwnConnected S.key

private theorem Honest.own_eq_nil (h : w.Honest S) (hnone : w.store.userByKey S.key = none) :
    w.store.own S.key = [] := by
  apply List.filter_eq_nil_iff.mpr
  intro c hc
  obtain ⟨r, hr, rfl⟩ := List.mem_map.mp hc
  intro hkey
  have huser := (h.reachable.sourced.userByKey_eq_iff hr).mpr (of_decide_eq_true hkey)
  rw [hnone] at huser
  cases huser

/-- A task is about to insert an envelope that the transaction stores. -/
def Stores (w : Writers C) (i : ℕ) (msg : M) (wrapped : Authenticated C) (now : ℤ) : Prop :=
  w.tasks i = .insert msg wrapped ∧
    (w.store.tryInsertAuthenticatedEnvelope wrapped true now).1 = .ok ()

private theorem Honest.insert_cases (h : w.Honest S) {i : ℕ} {msg : M} {wrapped : Authenticated C}
    (htask : w.tasks i = .insert msg wrapped) (now : ℤ) :
    (¬ w.Stores i msg wrapped now ∧
      ∃ task, (task = .idle ∨ task = .getTip msg) ∧
        w.insertStep i msg wrapped now = w.setTask i task) ∨
    (w.Stores i msg wrapped now ∧
      (∀ c ∈ w.store.own S.key, c.2.prevMsg ≠ wrapped.inner.prevMsg) ∧
      ∃ s, s.own S.key = w.store.own S.key ++ [wrapped.entry] ∧
        s = w.store.apply (.insert wrapped true now) ∧
        w.insertStep i msg wrapped now = { w.setTask i .idle with store := s }) := by
  have hok := h.tasks i
  rw [htask] at hok
  obtain ⟨hkey, _, hancestors, _⟩ := hok
  unfold Writers.insertStep
  apply (tryInsert_reuseSafe (s := w.store) (e := wrapped) now hancestors).elim
  · intro hrefused
    obtain ⟨err, herr, hstore⟩ := hrefused
    refine .inl ⟨?_, afterInsert msg (.error err), ?_, ?_⟩
    · intro hstores
      rw [hstores.2] at herr
      cases herr
    · cases err with
      | constraintUnique => exact .inr rfl
      | constraintCheck => exact .inl rfl
      | constraintNotNull => exact .inl rfl
    · rw [herr, hstore]
      rfl
  · intro hstored
    obtain ⟨hresult, hcontents, hchildren⟩ := hstored
    refine .inr ⟨⟨htask, hresult⟩, ?_, _, own_append_of_eq hkey hcontents, rfl, ?_⟩
    · intro c hc
      exact hchildren c (List.mem_filter.mp hc).1
    · rw [hresult]
      rfl

theorem row_of_own (h : w.Linear S) (hp : p ∈ w.store.own S.key) :
    ∃ r ∈ w.store.messages, r.hash = p.1 ∧ r.body = p.2 ∧ r.connected := by
  obtain ⟨hmem, hkey⟩ := List.mem_filter.mp hp
  obtain ⟨r, hr, rfl⟩ := List.mem_map.mp hmem
  exact ⟨r, hr, rfl, rfl, h.connected r hr (of_decide_eq_true hkey)⟩

namespace Linear

theorem initial : (Writers.initial : Writers C).Linear S := by
  constructor
  · exact .initial
  · constructor
    · intro c hc
      cases hc
    · exact .nil
  · intro i
    trivial
  · intro r hr
    cases hr

private theorem setTask (h : w.Linear S) {i : ℕ} {task : WriterState C}
    (hhonest : (w.setTask i task).Honest S) (htask : task.Built (w.store.own S.key)) :
    (w.setTask i task).Linear S := by
  refine ⟨hhonest, h.line, ?_, h.connected⟩
  intro j
  show (Function.update w.tasks i task j).Built (w.store.own S.key)
  by_cases hj : j = i
  · subst hj
    rwa [Function.update_self]
  · rw [Function.update_of_ne hj]
    exact h.built j

private theorem setIdle (h : w.Linear S) (i : ℕ) : (w.setTask i .idle).Linear S :=
  h.setTask (h.honest.setIdle i) trivial

private theorem saveNonce (h : w.Linear S) (nonce : ℕ) : (w.saveNonce S nonce).Linear S :=
  ⟨h.honest.saveNonce nonce, h.line, h.built, h.connected⟩

private theorem setStore (h : w.Linear S) {s : Store M} (hhonest : { w with store := s }.Honest S)
    (hline : Line (s.own S.key)) (hsub : w.store.own S.key ⊆ s.own S.key)
    (hconnected : s.OwnConnected S.key) : { w with store := s }.Linear S := by
  refine ⟨hhonest, hline, ?_, hconnected⟩
  intro i
  show (w.tasks i).Built (s.own S.key)
  have hbuilt := h.built i
  cases htask : w.tasks i with
  | insert msg wrapped =>
    rw [htask] at hbuilt
    obtain ⟨hmsg, p, hp, hupon⟩ := hbuilt
    exact ⟨hmsg, p, hsub hp, hupon⟩
  | _ => trivial

private theorem generateUser (h : w.Linear S) {nickname : String} {genesis : Authenticated C}
    {nextNonce : ℕ} {now : ℤ} (hnew : w.store.userByKey S.key = none)
    (hkey : genesis.inner.header.key = S.key) (h0 : genesis.inner.header.height = 0)
    (hnonce : genesis.inner.header.nextNonce = S.getPublic nextNonce)
    (hfresh : w.Fresh S nextNonce) :
    { w.saveNonce S nextNonce with
      store := w.store.apply (.insertUser nickname genesis now) }.Linear S := by
  have hempty := h.honest.own_eq_nil hnew
  apply (h.saveNonce nextNonce).setStore (h.honest.generateUser hkey h0 hnonce hfresh)
  · apply (Store.contents_apply (s := w.store) (.insertUser nickname genesis now)).elim
    · intro hcontents
      rw [Store.own, hcontents, ← Store.own, hempty]
      exact hempty ▸ h.line
    · intro hcontents
      obtain ⟨e, he, hcontents⟩ := hcontents
      obtain rfl := Option.some.inj he
      rw [own_append_of_eq hkey hcontents, hempty]
      exact Line.singleton h0
  · intro c hc
    change c ∈ w.store.own S.key at hc
    rw [hempty] at hc
    cases hc
  · apply h.connected.apply
    intro e he _
    obtain rfl := Option.some.inj he
    exact .inl h0

private theorem other (h : w.Linear S) {op : StoreOp C}
    (hop : ∀ e ∈ op.envelope, e.inner.header.key ≠ S.key) :
    { w with store := w.store.apply op }.Linear S := by
  have hown : (w.store.apply op).own S.key = w.store.own S.key := by
    apply (Store.contents_apply (s := w.store) op).elim
    · intro hcontents
      rw [Store.own, hcontents]
      rfl
    · intro hcontents
      obtain ⟨e, he, hcontents⟩ := hcontents
      exact own_append_of_ne (hop e he) hcontents
  apply h.setStore (h.honest.other hop)
  · rw [hown]
    exact h.line
  · rw [hown]
    exact List.Subset.refl _
  · apply h.connected.apply
    intro e he hkey
    exact absurd hkey (hop e he)

private theorem insertStep (h : w.Linear S) {i : ℕ} {msg : M} {wrapped : Authenticated C}
    (htask : w.tasks i = .insert msg wrapped) (now : ℤ) :
    (w.insertStep i msg wrapped now).Linear S := by
  have hhonest := h.honest.insertStep htask now
  have hbuilt := h.built i
  rw [htask] at hbuilt
  obtain ⟨_, p, hp, hupon⟩ := hbuilt
  apply (h.honest.insert_cases htask now).elim
  · intro hrefused
    obtain ⟨_, task, htask', heq⟩ := hrefused
    rw [heq] at hhonest ⊢
    apply h.setTask hhonest
    apply htask'.elim
    · intro hidle
      rw [hidle]
      trivial
    · intro hretry
      rw [hretry]
      trivial
  · intro hstored
    obtain ⟨_, hchildren, s, hown, hs, heq⟩ := hstored
    rw [heq] at hhonest ⊢
    apply (h.setIdle i).setStore hhonest
    · rw [hown]
      exact h.line.append hp hupon hchildren
    · rw [hown]
      exact List.subset_append_left _ _
    · rw [hs]
      apply h.connected.apply
      intro e he _
      obtain rfl := Option.some.inj he
      obtain ⟨r, hr, hhash, _, hc⟩ := row_of_own h hp
      exact .inr ⟨r, hr, by rw [hhash, ← hupon.1]; rfl, hc⟩

private theorem signStep (h : w.Linear S) {i : ℕ} {msg : M}
    {tips : List (XOnlyPublicKey × ℤ × CanonicalEnvelopeHash)} {myTip : Envelope M} {secret : ℕ}
    (htask : w.tasks i = .sign msg tips myTip secret) {nextNonce : ℕ} (hfresh : w.Fresh S nextNonce)
    {sentTimeMs : ℤ} {checkpoints : BitcoinCheckPoints} {wrapped : Authenticated C}
    (hwrapped : wrapped.inner = S.signWith (S.wrapMessage msg tips myTip (S.getPublic nextNonce)
      sentTimeMs checkpoints) secret) :
    ((w.saveNonce S nextNonce).setTask i (.insert msg wrapped)).Linear S := by
  have hok := h.honest.tasks i
  rw [htask] at hok
  apply (h.saveNonce nextNonce).setTask (h.honest.signStep htask hfresh hwrapped)
  refine ⟨by rw [hwrapped]; rfl, _, hok.1, ?_, ?_⟩
  · show wrapped.inner.prevMsg = _
    rw [hwrapped]
    rfl
  · show wrapped.inner.header.height = _
    rw [hwrapped]
    rfl

theorem step [DecidableEq M] (h : w.Linear S) {ev : WriterEvent C}
    (hnew : ∀ nickname genesis nextNonce now, ev = .generateUser nickname genesis nextNonce now →
      w.store.userByKey S.key = none) (hstep : w.step S ev = some w') : w'.Linear S := by
  have hhonest := h.honest.step hstep
  cases ev with
  | generateUser nickname genesis nextNonce now =>
    simp only [Writers.step] at hstep
    split_ifs at hstep with hguard
    obtain rfl := Option.some.inj hstep
    exact h.generateUser (hnew _ _ _ _ rfl) hguard.1 hguard.2.1 hguard.2.2.1 hguard.2.2.2
  | call i msg =>
    simp only [Writers.step] at hstep
    split at hstep
    · obtain rfl := Option.some.inj hstep
      exact h.setTask hhonest trivial
    · cases hstep
  | getTip i tips tip =>
    simp only [Writers.step] at hstep
    split at hstep
    · split_ifs at hstep
      obtain rfl := Option.some.inj hstep
      exact h.setTask hhonest trivial
    · cases hstep
  | getSecret i =>
    simp only [Writers.step] at hstep
    split at hstep
    · obtain ⟨row, _, rfl⟩ := Option.map_eq_some_iff.mp hstep
      exact h.setTask hhonest trivial
    · cases hstep
  | sign i nextNonce sentTimeMs checkpoints =>
    simp only [Writers.step] at hstep
    split at hstep
    · rename_i htask
      split_ifs at hstep with hfresh
      obtain rfl := Option.some.inj hstep
      split
      · rename_i wrapped hwrapped
        exact h.signStep htask hfresh (authenticate_eq hwrapped)
      · exact (h.saveNonce nextNonce).setIdle i
    · cases hstep
  | insert i now =>
    simp only [Writers.step] at hstep
    split at hstep
    · rename_i htask
      obtain rfl := Option.some.inj hstep
      exact h.insertStep htask now
    · cases hstep
  | fail i =>
    obtain rfl := Option.some.inj hstep
    exact h.setIdle i
  | other op =>
    simp only [Writers.step] at hstep
    split_ifs at hstep with hop
    obtain rfl := Option.some.inj hstep
    exact h.other hop

end Linear

/-- What a step stores under the key. -/
inductive Adds (S : Signer C) (w w' : Writers C) : WriterEvent C → Prop
  | nothing {ev : WriterEvent C} (hown : w'.store.own S.key = w.store.own S.key)
      (hstores : ∀ i msg wrapped now, ev = .insert i now → ¬ w.Stores i msg wrapped now) :
      Adds S w w' ev
  | genesis {nickname : String} {genesis : Authenticated C} {nextNonce : ℕ} {now : ℤ}
      (hempty : w.store.own S.key = []) (hown : w'.store.own S.key = [genesis.entry]) :
      Adds S w w' (.generateUser nickname genesis nextNonce now)
  | envelope {i : ℕ} {msg : M} {wrapped : Authenticated C} {now : ℤ}
      (hstores : w.Stores i msg wrapped now)
      (hown : w'.store.own S.key = w.store.own S.key ++ [wrapped.entry]) :
      Adds S w w' (.insert i now)

private theorem Adds.of_store {ev : WriterEvent C} (hstore : w'.store = w.store)
    (hev : ∀ i now, ev ≠ .insert i now) : Adds S w w' ev := by
  apply Adds.nothing
  · rw [hstore]
  · intro i _ _ now heq
    exact absurd heq (hev i now)

theorem Linear.adds [DecidableEq M] (h : w.Linear S) {ev : WriterEvent C}
    (hnew : ∀ nickname genesis nextNonce now, ev = .generateUser nickname genesis nextNonce now →
      w.store.userByKey S.key = none) (hstep : w.step S ev = some w') : Adds S w w' ev := by
  cases ev with
  | generateUser nickname genesis nextNonce now =>
    have hempty := h.honest.own_eq_nil (hnew _ _ _ _ rfl)
    simp only [Writers.step] at hstep
    split_ifs at hstep with hguard
    obtain rfl := Option.some.inj hstep
    apply (Store.contents_apply (s := w.store) (.insertUser nickname genesis now)).elim
    · intro hcontents
      apply Adds.nothing
      · show (w.store.apply (.insertUser nickname genesis now)).own S.key = _
        rw [Store.own, hcontents]
        rfl
      · intro _ _ _ _ hev
        cases hev
    · intro hcontents
      obtain ⟨e, he, hcontents⟩ := hcontents
      obtain rfl := Option.some.inj he
      apply Adds.genesis hempty
      show (w.store.apply (.insertUser nickname genesis now)).own S.key = _
      rw [own_append_of_eq hguard.1 hcontents, hempty]
      rfl
  | insert i now =>
    simp only [Writers.step] at hstep
    split at hstep
    · rename_i msg wrapped htask
      obtain rfl := Option.some.inj hstep
      apply (h.honest.insert_cases htask now).elim
      · intro hrefused
        obtain ⟨hnot, task, _, heq⟩ := hrefused
        rw [heq]
        apply Adds.nothing
        · rfl
        · intro i' msg' wrapped' now' hev hstores
          cases hev
          obtain ⟨rfl, rfl⟩ := WriterState.insert.inj (htask.symm.trans hstores.1)
          exact hnot hstores
      · intro hstored
        obtain ⟨hstores, _, s, hown, _, heq⟩ := hstored
        rw [heq]
        exact Adds.envelope hstores hown
    · cases hstep
  | other op =>
    simp only [Writers.step] at hstep
    split_ifs at hstep with hop
    obtain rfl := Option.some.inj hstep
    apply Adds.nothing
    · apply (Store.contents_apply (s := w.store) op).elim
      · intro hcontents
        show (w.store.apply op).own S.key = _
        rw [Store.own, hcontents]
        rfl
      · intro hcontents
        obtain ⟨e, he, hcontents⟩ := hcontents
        exact own_append_of_ne (hop e he) hcontents
    · intro _ _ _ _ hev
      cases hev
  | call i msg =>
    simp only [Writers.step] at hstep
    split at hstep
    · obtain rfl := Option.some.inj hstep
      exact Adds.of_store rfl (by simp)
    · cases hstep
  | getTip i tips tip =>
    simp only [Writers.step] at hstep
    split at hstep
    · split_ifs at hstep
      obtain rfl := Option.some.inj hstep
      exact Adds.of_store rfl (by simp)
    · cases hstep
  | getSecret i =>
    simp only [Writers.step] at hstep
    split at hstep
    · obtain ⟨row, _, rfl⟩ := Option.map_eq_some_iff.mp hstep
      exact Adds.of_store rfl (by simp)
    · cases hstep
  | sign i nextNonce sentTimeMs checkpoints =>
    simp only [Writers.step] at hstep
    split at hstep
    · split_ifs at hstep
      obtain rfl := Option.some.inj hstep
      exact Adds.of_store rfl (by simp)
    · cases hstep
  | fail i =>
    obtain rfl := Option.some.inj hstep
    exact Adds.of_store rfl (by simp)

/-- The message that a task is to store. -/
def message : WriterState C → Option M
  | .idle => none
  | .getTip msg => some msg
  | .getSecret msg _ _ => some msg
  | .sign msg _ _ _ => some msg
  | .insert msg _ => some msg

private theorem message_setTask {i j : ℕ} {task : WriterState C} {msg : M}
    (htask : message task = some msg → message (w.tasks i) = some msg)
    (h : message ((w.setTask i task).tasks j) = some msg) : message (w.tasks j) = some msg := by
  change message (Function.update w.tasks i task j) = some msg at h
  by_cases hj : j = i
  · subst hj
    rw [Function.update_self] at h
    exact htask h
  · rwa [Function.update_of_ne hj] at h

theorem step_message [DecidableEq M] {ev : WriterEvent C} (hstep : w.step S ev = some w') {j : ℕ}
    {msg : M} (h : message (w'.tasks j) = some msg) :
    message (w.tasks j) = some msg ∨ ev = .call j msg ∧ w.tasks j = .idle := by
  cases ev with
  | generateUser nickname genesis nextNonce now =>
    simp only [Writers.step] at hstep
    split_ifs at hstep
    obtain rfl := Option.some.inj hstep
    exact .inl h
  | call i msg' =>
    simp only [Writers.step] at hstep
    split at hstep
    · rename_i hidle
      obtain rfl := Option.some.inj hstep
      change message (Function.update w.tasks i (.getTip msg') j) = some msg at h
      by_cases hj : j = i
      · subst hj
        rw [Function.update_self] at h
        obtain rfl := Option.some.inj h
        exact .inr ⟨rfl, hidle⟩
      · rw [Function.update_of_ne hj] at h
        exact .inl h
    · cases hstep
  | getTip i tips tip =>
    simp only [Writers.step] at hstep
    split at hstep
    · rename_i htask
      split_ifs at hstep
      obtain rfl := Option.some.inj hstep
      exact .inl (message_setTask (fun hmsg => by rw [htask]; exact hmsg) h)
    · cases hstep
  | getSecret i =>
    simp only [Writers.step] at hstep
    split at hstep
    · rename_i htask
      obtain ⟨row, _, rfl⟩ := Option.map_eq_some_iff.mp hstep
      exact .inl (message_setTask (fun hmsg => by rw [htask]; exact hmsg) h)
    · cases hstep
  | sign i nextNonce sentTimeMs checkpoints =>
    simp only [Writers.step] at hstep
    split at hstep
    · rename_i htask
      split_ifs at hstep
      obtain rfl := Option.some.inj hstep
      refine .inl (message_setTask (w := w.saveNonce S nextNonce) ?_ h)
      intro hmsg
      show message (w.tasks i) = some msg
      rw [htask]
      split at hmsg
      · exact hmsg
      · cases hmsg
    · cases hstep
  | insert i now =>
    simp only [Writers.step] at hstep
    split at hstep
    · rename_i htask
      obtain rfl := Option.some.inj hstep
      refine .inl (message_setTask ?_ h)
      intro hmsg
      rw [htask]
      unfold afterInsert at hmsg
      split at hmsg
      · cases hmsg
      · exact hmsg
      · cases hmsg
    · cases hstep
  | fail i =>
    obtain rfl := Option.some.inj hstep
    refine .inl (message_setTask ?_ h)
    intro hmsg
    cases hmsg
  | other op =>
    simp only [Writers.step] at hstep
    split_ifs at hstep
    obtain rfl := Option.some.inj hstep
    exact .inl h

end Writers

end JudicaVM
