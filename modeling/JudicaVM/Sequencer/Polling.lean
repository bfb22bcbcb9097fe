import JudicaVM.Host.Run

/-!
# Readers that poll the store

A reader keeps the largest row id that it has read and asks for later rows only. It misses the rows
that its query begins to select after it has passed them.
-/

namespace JudicaVM

open Transition

section

variable {J E : Type}

/-- `get_all_connected_messages_collect_into`,
`get_all_messages_collect_into_inconsistent_skip_invalid` and
`get_all_chain_commit_group_members_new_envelopes_for_chain_into_inconsistent`. -/
inductive Reader
  | connected
  | all (skipInvalid : Bool)
  | groupMembers (key : XOnlyPublicKey)

/-- The cursor, which may be absent, and the map of a reader. -/
structure Cursor (E : Type) where
  newer : Option ℕ
  map : CanonicalEnvelopeHash → Option E

namespace Cursor

variable (c : Cursor E)

/-- The row is not after the cursor. -/
def Passed (r : Row J) : Prop := ∃ n ∈ c.newer, r.messageId ≤ n

instance (r : Row J) : Decidable (c.Passed r) :=
  inferInstanceAs (Decidable (∃ n ∈ c.newer, _))

/-- `*newer = (*newer).max(Some(id))` -/
def advance (id : ℕ) : Cursor E :=
  { c with newer := some (max (c.newer.getD 0) id) }

def insert (hash : E → CanonicalEnvelopeHash) (v : E) : Cursor E :=
  { c with map := Function.update c.map (hash v) (some v) }

/-- The map has an envelope with a hash. -/
def Has (hash : E → CanonicalEnvelopeHash) (h : CanonicalEnvelopeHash) : Prop :=
  ∃ v, c.map h = some v ∧ hash v = h

end Cursor

namespace Reader

variable (q : Reader)

def start : Reader → Cursor E
  | .groupMembers _ => { newer := some 0, map := fun _ => none }
  | _ => { newer := none, map := fun _ => none }

def selects (s : Store J) : Reader → Row J → Bool
  | .connected, r => r.connected
  | .all _, _ => true
  | .groupMembers key, r => s.selects key r

/-- The rows of the query after a cursor. -/
def query (s : Store J) (c : Cursor E) : List (Row J) :=
  s.messages.filter fun r => q.selects s r && ¬c.Passed r

/-- The loop over the rows of a query, which an envelope that cannot be decoded may end. The first
component says whether the reader returns without an error. -/
def collect (decode : Envelope J → Option E) (hash : E → CanonicalEnvelopeHash) :
    List (Row J) → Cursor E → Bool × Cursor E
  | [], c => (true, c)
  | r :: rest, c =>
    match decode r.body, q with
    | some v, _ => collect decode hash rest ((c.insert hash v).advance r.messageId)
    | none, .all true => collect decode hash rest (c.advance r.messageId)
    | none, .all false => (false, c.advance r.messageId)
    | none, _ => (false, c)

end Reader

/-- The database and a reader that polls it. -/
structure Polling (J E : Type) where
  store : Store J
  cursor : Cursor E

inductive PollingEvent {J : Type} (C : Crypto J)
  | store (op : StoreOp C)
  | addMember (group : ℕ) (genesis : CanonicalEnvelopeHash)
  | poll (rows : List (Row J))

namespace Polling

variable {C : Crypto J} (q : Reader) (decode : Envelope J → Option E)
  (hash : E → CanonicalEnvelopeHash) (p : Polling J E)

/-- The database may return the rows of a query in any order, and a row of a join more than once. -/
def step [DecidableEq J] : PollingEvent C → Option (Polling J E)
  | .store op => some { p with store := p.store.apply op }
  | .addMember group genesis =>
    some { p with store := p.store.addMemberToChainCommitGroup group genesis }
  | .poll rows =>
    if rows ⊆ q.query p.store p.cursor ∧ q.query p.store p.cursor ⊆ rows then
      some { p with cursor := (q.collect decode hash rows p.cursor).2 }
    else none

/-- The map has every row that the query without a cursor returns and that can be decoded. -/
def Complete : Prop :=
  ∀ r ∈ p.store.messages, q.selects p.store r → ∀ v, decode r.body = some v →
    p.cursor.Has hash (hash v)

/-- A change of the store selects no row that the reader has passed, unless it was selected. -/
def Quiet (s' : Store J) : Prop :=
  ∀ r' ∈ s'.messages, p.cursor.Passed r' → q.selects s' r' →
    ∃ r ∈ p.store.messages, r.messageId = r'.messageId ∧ q.selects p.store r

/-- The reader goes on when a row cannot be decoded, or all rows that it asks for can. -/
def Readable : Prop :=
  q = .all true ∨ ∀ r ∈ q.query p.store p.cursor, (decode r.body).isSome

/-- A step that does not make the reader lose a row. -/
def Undisturbed : PollingEvent C → Prop
  | .store op => p.Quiet q (p.store.apply op)
  | .addMember group genesis => p.Quiet q (p.store.addMemberToChainCommitGroup group genesis)
  | .poll _ => p.Readable q decode

/-- The reader starts upon a store with any groups. -/
structure Initial (C : Crypto J) : Prop where
  reachable : Store.Reachable C { p.store with groupMembers := [], groupSubscribers := [] }
  cursor : p.cursor = q.start

end Polling

variable {C : Crypto J} {q : Reader} {decode : Envelope J → Option E}
  {hash : E → CanonicalEnvelopeHash} {p p' : Polling J E} {c c' : Cursor E} {r : Row J}
  {rows : List (Row J)} {h : CanonicalEnvelopeHash} {s s' : Store J}

namespace Cursor

@[simp] theorem advance_map (id : ℕ) : (c.advance id).map = c.map := rfl

@[simp] theorem insert_newer (v : E) : (c.insert hash v).newer = c.newer := rfl

private theorem Has.advance (hc : c.Has hash h) (id : ℕ) : (c.advance id).Has hash h := hc

private theorem has_insert (v : E) : (c.insert hash v).Has hash (hash v) :=
  ⟨v, Function.update_self _ _ _, rfl⟩

private theorem Has.insert (hc : c.Has hash h) (v : E) : (c.insert hash v).Has hash h := by
  by_cases heq : h = hash v
  · rw [heq]
    exact has_insert v
  · obtain ⟨v', hv', hhash⟩ := hc
    exact ⟨v', (Function.update_of_ne heq _ _).trans hv', hhash⟩

private theorem le_of_advance {n id bound : ℕ} (hn : n ∈ (c.advance id).newer)
    (hc : ∀ m ∈ c.newer, m ≤ bound) (hid : id ≤ bound) : n ≤ bound := by
  have heq : max (c.newer.getD 0) id = n := Option.some.inj hn
  cases hnewer : c.newer with
  | none =>
    rw [hnewer] at heq
    simp only [Option.getD_none] at heq
    omega
  | some m =>
    have hm := hc m hnewer
    rw [hnewer] at heq
    simp only [Option.getD_some] at heq
    omega

end Cursor

namespace Reader

private theorem collect_has (hc : c.Has hash h) : (q.collect decode hash rows c).2.Has hash h := by
  induction rows generalizing c with
  | nil => exact hc
  | cons r rest ih =>
    unfold collect
    split
    · exact ih ((hc.insert _).advance _)
    · exact ih (hc.advance _)
    · exact hc.advance _
    · exact hc

theorem collect_newer_le {bound : ℕ} (hc : ∀ n ∈ c.newer, n ≤ bound)
    (hrows : ∀ r ∈ rows, r.messageId ≤ bound) :
    ∀ n ∈ (q.collect decode hash rows c).2.newer, n ≤ bound := by
  induction rows generalizing c with
  | nil => exact hc
  | cons r rest ih =>
    obtain ⟨hr, hrest⟩ := List.forall_mem_cons.mp hrows
    unfold collect
    split
    · exact ih (fun n hn => Cursor.le_of_advance hn hc hr) hrest
    · exact ih (fun n hn => Cursor.le_of_advance hn hc hr) hrest
    · exact fun n hn => Cursor.le_of_advance hn hc hr
    · exact hc

private theorem has_of_collect (hread : q = .all true ∨ ∀ r ∈ rows, (decode r.body).isSome)
    (hr : r ∈ rows)
    {v : E} (hv : decode r.body = some v) :
    (q.collect decode hash rows c).2.Has hash (hash v) := by
  induction rows generalizing c with
  | nil => cases hr
  | cons r' rest ih =>
    have hrest := hread.imp_right fun hall => (List.forall_mem_cons.mp hall).2
    unfold collect
    rcases List.mem_cons.mp hr with rfl | hmem
    · simp only [hv]
      exact collect_has ((Cursor.has_insert v).advance _)
    · split
      · exact ih hrest hmem
      · exact ih hrest hmem
      · rename_i hnone
        have hsome := (hread.resolve_left (by rintro ⟨⟩)) r' List.mem_cons_self
        rw [hnone] at hsome
        cases hsome
      · rename_i hnone hskip _
        have hsome := (hread.resolve_left hskip) r' List.mem_cons_self
        rw [hnone] at hsome
        cases hsome

end Reader

/-- The ids and envelopes of a table are those of an earlier one, but for later ids. -/
structure Store.Grows (s s' : Store J) : Prop where
  length : s.messages.length ≤ s'.messages.length
  rows : ∀ r' ∈ s'.messages, s.messages.length < r'.messageId ∨
    ∃ r ∈ s.messages, r.messageId = r'.messageId ∧ r.body = r'.body

namespace Store.Grows

theorem of_messages (h : s'.messages = s.messages) : s.Grows s' :=
  ⟨by rw [h], fun r' hr' => .inr ⟨r', h ▸ hr', rfl, rfl⟩⟩

private theorem push {e : Authenticated C} {userId : ℕ} {now : ℤ}
    (hsame : s'.messages = s.messages) : s.Grows (s'.push (s'.newRow e userId now)) := by
  constructor
  · simp [Store.push, hsame]
  · intro r hr
    obtain ⟨r', hr', rfl⟩ := mem_push.mp hr
    rw [Row.connectGapParent_messageId, Row.connectGapParent_body]
    rcases hr' with hold | rfl
    · exact .inr ⟨r', hsame ▸ hold, rfl, rfl⟩
    · apply Or.inl
      show s.messages.length < s'.messages.length + 1
      rw [hsame]
      exact Nat.lt_succ_self _

private theorem connectAll : s.Grows s.connectAll := by
  constructor
  · simp [Store.connectAll]
  · intro r hr
    obtain ⟨r', hr', rfl⟩ := mem_connectAll.mp hr
    exact .inr ⟨r', hr', by simp, by simp⟩

theorem apply (op : StoreOp C) : s.Grows (s.apply op) := by
  apply apply_preserves (I := fun s' => s.Grows s') op (of_messages rfl)
  · exact fun nickname e _ => of_messages (by simp)
  · intro s₁ e user now s' _ hsame _ hocc
    cases hocc with
    | envelope _ _ _ => exact push hsame
  · intro s' hocc
    cases hocc with
    | connect _ => exact connectAll

end Store.Grows

namespace Polling

/-- The map has the rows that the reader has passed. -/
structure Sound (q : Reader) (decode : Envelope J → Option E) (hash : E → CanonicalEnvelopeHash)
    (p : Polling J E) : Prop where
  linked : p.store.Linked
  newer_le : ∀ n ∈ p.cursor.newer, n ≤ p.store.messages.length
  passed : ∀ r ∈ p.store.messages, p.cursor.Passed r → q.selects p.store r →
    ∀ v, decode r.body = some v → p.cursor.Has hash (hash v)

private theorem Initial.sound (hinit : p.Initial q C) : p.Sound q decode hash := by
  have hlinked : p.store.Linked := hinit.reachable.linked.of_messages rfl
  have hnewer : ∀ n ∈ p.cursor.newer, n = 0 := by
    rw [hinit.cursor]
    cases q <;> simp [Reader.start]
  refine ⟨hlinked, fun n hn => ?_, fun r hr hpassed => ?_⟩
  · rw [hnewer n hn]
    exact Nat.zero_le _
  · obtain ⟨n, hn, hle⟩ := hpassed
    have hid : r.messageId ∈ p.store.messages.map Row.messageId := List.mem_map_of_mem hr
    rw [hlinked.ids, List.mem_range'_1] at hid
    have hzero := hnewer n hn
    omega

private theorem Sound.change (hp : p.Sound q decode hash) (hgrows : p.store.Grows s')
    (hlinked : s'.Linked) (hquiet : p.Quiet q s') :
    Sound q decode hash { p with store := s' } := by
  refine ⟨hlinked, fun n hn => (hp.newer_le n hn).trans hgrows.length, ?_⟩
  intro r' hr' hpassed hselects v hv
  obtain ⟨r, hr, hid, hselected⟩ := hquiet r' hr' hpassed hselects
  obtain ⟨n, hn, hle⟩ := hpassed
  have hbound := hp.newer_le n hn
  rcases hgrows.rows r' hr' with hlater | ⟨r₁, hr₁, hid₁, hbody⟩
  · omega
  · obtain rfl := hp.linked.eq_of_messageId hr hr₁ (hid.trans hid₁.symm)
    have hpassed : p.cursor.Passed r := ⟨n, hn, by rw [hid]; exact hle⟩
    exact hp.passed r hr hpassed hselected v (hbody ▸ hv)

private theorem Sound.collect (hp : p.Sound q decode hash) (hread : p.Readable q decode)
    (hsub : rows ⊆ q.query p.store p.cursor) (hsup : q.query p.store p.cursor ⊆ rows) :
    Complete q decode hash { p with cursor := (q.collect decode hash rows p.cursor).2 } := by
  intro r hr hselects v hv
  by_cases hpassed : p.cursor.Passed r
  · exact Reader.collect_has (hp.passed r hr hpassed hselects v hv)
  · have hquery : r ∈ q.query p.store p.cursor := by
      simp only [Reader.query, List.mem_filter, Bool.and_eq_true, decide_eq_true_eq]
      exact ⟨hr, hselects, hpassed⟩
    have hread : q = .all true ∨ ∀ r ∈ rows, (decode r.body).isSome :=
      hread.imp_right fun hall r hr => hall r (hsub hr)
    exact Reader.has_of_collect hread (hsup hquery) hv

private theorem Sound.step [DecidableEq J] {ev : PollingEvent C} (hp : p.Sound q decode hash)
    (hev : p.Undisturbed q decode ev) (hstep : p.step q decode hash ev = some p') :
    p'.Sound q decode hash ∧ ∀ rows, ev = .poll rows → p'.Complete q decode hash := by
  cases ev with
  | store op =>
    obtain rfl := Option.some.inj hstep
    exact ⟨hp.change (.apply op) (hp.linked.apply op) hev, fun rows h => by cases h⟩
  | addMember group genesis =>
    obtain rfl := Option.some.inj hstep
    have hmessages := Store.addMember_messages (s := p.store) group genesis
    exact ⟨hp.change (.of_messages hmessages) (hp.linked.of_messages hmessages) hev,
      fun rows h => by cases h⟩
  | poll rows =>
    simp only [Polling.step, Option.ite_none_right_eq_some, Option.some.injEq] at hstep
    obtain ⟨hrows, rfl⟩ := hstep
    have hcomplete := hp.collect hev hrows.1 hrows.2
    refine ⟨⟨hp.linked, ?_, fun r hr _ => hcomplete r hr⟩, fun _ _ => hcomplete⟩
    apply Reader.collect_newer_le hp.newer_le
    exact fun r hr => hp.linked.messageId_le (List.mem_filter.mp (hrows.1 hr)).1

/-- The states that are reached by steps that do not make the reader lose a row. -/
def UndisturbedRun [DecidableEq J] (C : Crypto J) (q : Reader) (decode : Envelope J → Option E)
    (hash : E → CanonicalEnvelopeHash) : Polling J E → Polling J E → Prop :=
  Run (fun p (ev : PollingEvent C) p' => p.Undisturbed q decode ev ∧
    p.step q decode hash ev = some p') fun _ => True

private theorem UndisturbedRun.sound [DecidableEq J] (hp : p.Sound q decode hash)
    (hrun : UndisturbedRun C q decode hash p p') : p'.Sound q decode hash :=
  Run.invariant (I := Sound q decode hash) (fun _ _ _ _ hp hstep => (hp.step hstep.1 hstep.2).1)
    hrun hp

private theorem undisturbed_all (hnewer : ∀ n ∈ p.cursor.newer, n ≤ p.store.messages.length)
    (ev : PollingEvent C) : p.Undisturbed (.all true) decode ev := by
  have hquiet {s' : Store J} (hgrows : p.store.Grows s') : p.Quiet (.all true) s' := by
    rintro r' hr' ⟨n, hn, hle⟩ _
    have hbound := hnewer n hn
    rcases hgrows.rows r' hr' with hlater | ⟨r, hr, hid, _⟩
    · omega
    · exact ⟨r, hr, hid, rfl⟩
  cases ev with
  | store op => exact hquiet (.apply op)
  | addMember group genesis => exact hquiet (.of_messages (Store.addMember_messages group genesis))
  | poll rows => exact .inl rfl

/-- The states that a reader reaches. -/
def Reaches [DecidableEq J] (C : Crypto J) (q : Reader) (decode : Envelope J → Option E)
    (hash : E → CanonicalEnvelopeHash) : Polling J E → Polling J E → Prop :=
  Run (fun p (ev : PollingEvent C) p' => p.step q decode hash ev = some p') fun _ => True

/-- The reader of all messages that skips what it cannot decode is sound in every run. -/
theorem Reaches.sound_all [DecidableEq J] (hp : p.Sound (.all true) decode hash)
    (hrun : Reaches C (.all true) decode hash p p') : p'.Sound (.all true) decode hash :=
  Run.invariant (I := Sound (.all true) decode hash) (fun _ ev _ _ hp hstep =>
    (hp.step (undisturbed_all hp.newer_le ev) hstep).1) hrun hp

end Polling

/-- Nothing is lost in a run in which the query selects no row that the reader has passed and no
envelope ends a poll. -/
theorem polls_complete [DecidableEq J] {p₀ : Polling J E} (hinit : p₀.Initial q C)
    (hrun : Polling.UndisturbedRun C q decode hash p₀ p) (hread : p.Readable q decode)
    (hstep : p.step q decode hash (.poll rows : PollingEvent C) = some p') :
    p'.Complete q decode hash := by
  have hread : p.Undisturbed q decode (.poll rows : PollingEvent C) := hread
  exact ((hrun.sound hinit.sound).step hread hstep).2 rows rfl

namespace Polling

instance [DecidableEq J] (q : Reader) (p : Polling J E) (s' : Store J) : Decidable (p.Quiet q s') :=
  inferInstanceAs (Decidable (∀ r' ∈ s'.messages, p.cursor.Passed r' → q.selects s' r' →
    ∃ r ∈ p.store.messages, r.messageId = r'.messageId ∧ q.selects p.store r))

/-- The state after a poll that returns the rows in the order of the table. -/
def polled (q : Reader) (decode : Envelope J → Option E) (hash : E → CanonicalEnvelopeHash)
    (p : Polling J E) : Polling J E :=
  { p with cursor := (q.collect decode hash (q.query p.store p.cursor) p.cursor).2 }

private theorem step_polled [DecidableEq J] (p : Polling J E) :
    p.step q decode hash (.poll (q.query p.store p.cursor) : PollingEvent C) =
      some (p.polled q decode hash) :=
  if_pos ⟨List.Subset.refl _, List.Subset.refl _⟩

end Polling

/-- Alice's genesis, her message at height 2 without its parent, and Bob's genesis. -/
def gapStore : Store ℕ :=
  ([.insertUser "alice" (smallGenesis 5 10 11 0) 0,
    .insert (smallLater 5 (1, 0) 1 12 13 2) false 0,
    .insertUser "bob" (smallGenesis 6 20 21 3) 0].foldl Store.apply (.empty : Store ℕ))

/-- Alice's message at height 1. -/
def gapMessage : StoreOp smallCrypto := .insert (smallLater 5 (0, 0) 0 11 12 1) false 0

/-- The store after Alice's message has arrived. -/
def lateStore : Store ℕ := gapStore.apply gapMessage

abbrev smallHash : Envelope ℕ → CanonicalEnvelopeHash := smallCrypto.canonicalizedHash

/-- A reader of the small scheme, which decodes every envelope. -/
abbrev smallPolled (q : Reader) (p : Polling ℕ (Envelope ℕ)) : Polling ℕ (Envelope ℕ) :=
  p.polled q some smallHash

/-- The reader of connected messages has read Alice's genesis and Bob's. -/
def gapRead : Polling ℕ (Envelope ℕ) :=
  smallPolled .connected ⟨gapStore, Reader.connected.start⟩

private theorem gapRead_initial : Polling.Initial (E := Envelope ℕ) .connected
    ⟨gapStore, Reader.connected.start⟩ smallCrypto := by
  constructor
  · exact Store.reachable_foldl _
  · rfl

theorem polls_complete_gap : (smallPolled .connected { gapRead with store := lateStore }).Complete
    .connected some smallHash := by
  have hdecodes (p : Polling ℕ (Envelope ℕ)) : p.Readable .connected some :=
    .inr fun r _ => rfl
  have hfirst : Polling.UndisturbedRun smallCrypto .connected some smallHash
      ⟨gapStore, Reader.connected.start⟩ gapRead :=
    Run.single (e := .poll _) trivial ⟨hdecodes _, Polling.step_polled _⟩
  have hquiet : gapRead.Quiet .connected (gapRead.store.apply gapMessage) := by
    decide +kernel
  have hev : gapRead.Undisturbed .connected some (.store gapMessage) := hquiet
  have hrun := hfirst.tail (e := .store gapMessage) trivial ⟨hev, rfl⟩
  exact polls_complete (C := smallCrypto) gapRead_initial hrun (hdecodes _) (Polling.step_polled _)

/-- The host's genesis, Alice's two messages and Bob's genesis, of which Bob is in the group to which
the host subscribes. -/
def groupStore : Store ℕ :=
  { ([.insertUser "host" (smallGenesis 9 30 31 4) 0,
      .insertUser "alice" (smallGenesis 5 10 11 0) 0,
      .insert (smallLater 5 (0, 0) 0 11 12 1) false 0,
      .insertUser "bob" (smallGenesis 6 20 21 3) 0].foldl Store.apply (.empty : Store ℕ)) with
    groupMembers := [(1, 4)]
    groupSubscribers := [(1, 1)] }

/-- The host has read Bob's genesis. -/
def groupRead : Polling ℕ (Envelope ℕ) :=
  smallPolled (.groupMembers ⟨9⟩) ⟨groupStore, (Reader.groupMembers ⟨9⟩).start⟩

/-- Alice becomes a member of the group. -/
def groupJoined : Polling ℕ (Envelope ℕ) :=
  { groupRead with store := groupRead.store.addMemberToChainCommitGroup 1 ⟨1⟩ }

/-- The message at height 2, which is connected after the reader has passed it, is missing from the
map of the reader of connected messages, and the messages of Alice, who joins the group late, from
the map of the host. -/
theorem rows_lost :
    (∃ p₀ p p', p₀.Initial (E := Envelope ℕ) .connected smallCrypto ∧
      Polling.Reaches smallCrypto .connected some smallHash p₀ p ∧
      p.step .connected some smallHash (.poll (Reader.connected.query p.store p.cursor) :
        PollingEvent smallCrypto) = some p' ∧
      ¬p'.Complete .connected some smallHash) ∧
    ∃ p₀ p p', p₀.Initial (E := Envelope ℕ) (.groupMembers ⟨9⟩) smallCrypto ∧
      Polling.Reaches smallCrypto (.groupMembers ⟨9⟩) some smallHash p₀ p ∧
      p.step (.groupMembers ⟨9⟩) some smallHash
        (.poll ((Reader.groupMembers ⟨9⟩).query p.store p.cursor) : PollingEvent smallCrypto) =
          some p' ∧
      ¬p'.Complete (.groupMembers ⟨9⟩) some smallHash := by
  constructor
  · refine ⟨_, { gapRead with store := lateStore.apply (.attachTips : StoreOp smallCrypto) }, _,
      gapRead_initial, ?_, Polling.step_polled _, ?_⟩
    · have hfirst : Polling.Reaches smallCrypto .connected some smallHash
          ⟨gapStore, Reader.connected.start⟩ gapRead :=
        Run.single (e := .poll _) trivial (Polling.step_polled _)
      exact (hfirst.tail (e := .store gapMessage) trivial rfl).tail (e := .store .attachTips) trivial rfl
    · intro hcomplete
      have hrow : ∃ r ∈ (lateStore.apply (.attachTips : StoreOp smallCrypto)).messages,
          r.connected ∧ (smallPolled .connected { gapRead with
            store := lateStore.apply (.attachTips : StoreOp smallCrypto) }).cursor.map
              (smallHash r.body) = none := by
        decide +kernel
      obtain ⟨r, hr, hconnected, hnone⟩ := hrow
      obtain ⟨v, hv, _⟩ := hcomplete r hr hconnected r.body rfl
      rw [hnone] at hv
      cases hv
  · refine ⟨⟨groupStore, (Reader.groupMembers ⟨9⟩).start⟩, groupJoined, _, ⟨?_, rfl⟩, ?_,
      Polling.step_polled _, ?_⟩
    · exact Store.reachable_foldl _
    · have hfirst : Polling.Reaches smallCrypto (.groupMembers ⟨9⟩) some smallHash
          ⟨groupStore, (Reader.groupMembers ⟨9⟩).start⟩ groupRead :=
        Run.single (e := .poll _) trivial (Polling.step_polled _)
      exact hfirst.tail (e := .addMember 1 ⟨1⟩) trivial rfl
    · intro hcomplete
      have hrow : ∃ r ∈ groupJoined.store.messages, groupJoined.store.selects ⟨9⟩ r ∧
          (smallPolled (.groupMembers ⟨9⟩) groupJoined).cursor.map (smallHash r.body) = none := by
        decide +kernel
      obtain ⟨r, hr, hselects, hnone⟩ := hrow
      obtain ⟨v, hv, _⟩ := hcomplete r hr hselects r.body rfl
      rw [hnone] at hv
      cases hv

end

end JudicaVM
