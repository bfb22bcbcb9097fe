import JudicaVM.Attest.Writers
import Mathlib.Data.List.MinMax
import Mathlib.Data.List.Sort

/-!
# Pushing to a peer

A peer is sent what is newer than the tips it reports, and the genesis of every chain of which
nothing newer was found. It inserts what it receives for the users that it knows and connects it.
-/

namespace JudicaVM

open Transition

section

variable {M : Type} {C : Crypto M}

/-- The rows of `all_tips_for_all_users.sql`: for each user a connected row of the greatest height,
in any order. -/
structure Store.IsAllTips (s : Store M) (tips : List (Row M)) : Prop where
  tip : ∀ t ∈ tips, t ∈ s.messages ∧ t.connected ∧
    ∀ m ∈ s.messages, m.connected → m.userId = t.userId → m.height ≤ t.height
  users : (tips.map Row.userId).Nodup
  all : ∀ m ∈ s.messages, m.connected → ∃ t ∈ tips, t.userId = m.userId

/-- The rows of `connected_messages_newer_than_for_genesis.sql`. -/
structure Store.IsNewerThan (s : Store M) (genesis : CanonicalEnvelopeHash) (height : ℤ)
    (rows : List (Row M)) : Prop where
  perm : rows.Perm (s.messages.filter fun m => m.genesis = genesis && m.connected && height < m.height)
  sorted : rows.Pairwise fun a b => a.height ≤ b.height

def Store.allGenesis (s : Store M) : List (Row M) :=
  s.messages.filter fun m => m.height = 0

/-- The map `tip_tracker`, with its entries in the order in which it is iterated. -/
abbrev TipTracker (M : Type) := List (CanonicalEnvelopeHash × Envelope M)

/-- A tip replaces the one that is known for its genesis when it is higher. -/
def trackTip (C : Crypto M) (tracker : TipTracker M) (t : Envelope M) : TipTracker M :=
  match tracker.find? fun entry => entry.1 = t.getGenesisHash C with
  | none => (t.getGenesisHash C, t) :: tracker
  | some previous =>
    if previous.2.header.height < t.header.height then
      tracker.map fun entry => if entry.1 = t.getGenesisHash C then (entry.1, t) else entry
    else tracker

/-- The rows of `get_connected_messages_newer_than_envelopes` for the tips of the tracker. -/
inductive Store.NewerThanTips (s : Store M) (C : Crypto M) :
    List (Envelope M) → List (Row M) → Prop
  | nil : NewerThanTips s C [] []
  | cons {t : Envelope M} {rows : List (Row M)} {tips : List (Envelope M)} {rest : List (Row M)}
      (hrows : s.IsNewerThan (t.getGenesisHash C) t.header.height rows)
      (hrest : NewerThanTips s C tips rest) : NewerThanTips s C (t :: tips) (rows ++ rest)

/-- What is sent: the newer messages, and the genesis of every chain that is not among them. -/
def toBroadcast (s : Store M) (msgs : List (Row M)) : List (Envelope M) :=
  let followingChains := msgs.map Row.genesis
  (msgs ++ s.allGenesis.filter fun g => g.genesis ∉ followingChains).map Row.body

/-- The envelopes before the first one that is not authentic. -/
def authed (C : Crypto M) : List (Envelope M) → List (Authenticated C)
  | [] => []
  | e :: envelopes =>
    match e.authenticate C with
    | some valid => valid :: authed C envelopes
    | none => []

def Store.postEnvelope (s : Store M) (C : Crypto M) (envelopes : List (Envelope M)) (now : ℤ) :
    Store M :=
  (authed C envelopes).foldl (fun s e => (s.tryInsertAuthenticatedEnvelope e false now).2) s

structure PushState (M : Type) where
  receiver : Store M
  tracker : TipTracker M

/-- The receiver reports its tips, the sender tracks them and posts what it finds, and the receiver
attaches the tips. -/
structure PushCycle (C : Crypto M) (s : Store M) (p : PushState M) (sent : List (Envelope M))
    (p' : PushState M) : Prop where
  track : ∃ tips, p.receiver.IsAllTips tips ∧
    p'.tracker.Perm ((tips.filterMap fun t => t.body.authenticate C).foldl
      (fun tracker t => trackTip C tracker t.inner) p.tracker)
  broadcast : ∃ msgs, s.NewerThanTips C (p'.tracker.map Prod.snd) msgs ∧ sent = toBroadcast s msgs
  receive : ∃ now, p'.receiver = (p.receiver.postEnvelope C sent now).attachTips.2

/-- The states after a number of cycles. -/
inductive PushCycles (C : Crypto M) (s : Store M) : ℕ → PushState M → PushState M → Prop
  | zero {p : PushState M} : PushCycles C s 0 p p
  | succ {n : ℕ} {p p' p'' : PushState M} {sent : List (Envelope M)} (h : PushCycles C s n p p')
      (hcycle : PushCycle C s p' sent p'') : PushCycles C s (n + 1) p p''

/-- The chain of a genesis has no two connected envelopes of one height. -/
def Store.Unforked (s : Store M) (genesis : CanonicalEnvelopeHash) : Prop :=
  ∀ a ∈ s.messages, ∀ b ∈ s.messages, a.connected → b.connected → a.genesis = genesis →
    b.genesis = genesis → a.height = b.height → a = b

instance [DecidableEq M] (s : Store M) (genesis : CanonicalEnvelopeHash) :
    Decidable (s.Unforked genesis) :=
  inferInstanceAs (Decidable (∀ a ∈ s.messages, ∀ b ∈ s.messages, _))

/-- The receiver stores the connected envelopes of the unforked chains of the sender. -/
def Replicated (s receiver : Store M) : Prop :=
  ∀ m ∈ s.messages, m.connected → s.Unforked m.genesis →
    ∃ m' ∈ receiver.messages, m'.body = m.body

/-- After a number of cycles everything is replicated and there is nothing more to send. -/
def Converges (C : Crypto M) (k : ℕ) (s receiver : Store M) : Prop :=
  ∀ n p, k ≤ n → PushCycles C s n ⟨receiver, []⟩ p →
    Replicated s p.receiver ∧ ∀ sent p', PushCycle C s p sent p' → sent = []

variable {s receiver : Store M} {p p' : PushState M} {sent : List (Envelope M)} {k n : ℕ}

private theorem exists_highest {rows : List (Row M)} (h : rows ≠ []) :
    ∃ t ∈ rows, ∀ m ∈ rows, m.height ≤ t.height := by
  cases hmax : List.argmax Row.height rows with
  | none => exact absurd (List.argmax_eq_none.mp hmax) h
  | some t =>
    refine ⟨t, List.argmax_mem hmax, ?_⟩
    intro m hm
    exact List.le_of_mem_argmax hm hmax

private theorem Store.exists_isAllTips (s : Store M) : ∃ tips, s.IsAllTips tips := by
  have hchoice : ∀ users : List ℕ, (∀ u ∈ users, ∃ m ∈ s.messages, m.connected ∧ m.userId = u) →
      ∃ tips : List (Row M), tips.map Row.userId = users ∧
        ∀ t ∈ tips, t ∈ s.messages ∧ t.connected ∧
          ∀ m ∈ s.messages, m.connected → m.userId = t.userId → m.height ≤ t.height := by
    intro users husers
    induction users with
    | nil => exact ⟨[], rfl, fun t ht => by cases ht⟩
    | cons u users ih =>
      obtain ⟨tips, hmap, htips⟩ := ih fun u hu => husers u (List.mem_cons_of_mem _ hu)
      obtain ⟨m, hm, hc, rfl⟩ := husers u List.mem_cons_self
      have hrow : m ∈ s.messages.filter fun r => r.connected && r.userId = m.userId :=
        List.mem_filter.mpr ⟨hm, by simp [hc]⟩
      obtain ⟨t, ht, hmax⟩ := exists_highest (List.ne_nil_of_mem hrow)
      obtain ⟨htmem, htest⟩ := List.mem_filter.mp ht
      rw [Bool.and_eq_true, decide_eq_true_eq] at htest
      refine ⟨t :: tips, by rw [List.map_cons, hmap, htest.2], ?_⟩
      intro t' ht'
      apply (List.mem_cons.mp ht').elim
      · rintro rfl
        refine ⟨htmem, htest.1, ?_⟩
        intro r hr hrc huser
        exact hmax r (List.mem_filter.mpr ⟨hr, by simp [hrc, huser, htest.2]⟩)
      · exact htips t'
  obtain ⟨tips, hmap, htips⟩ := hchoice
    ((s.messages.filter fun m => m.connected).map Row.userId).dedup (by
      intro u hu
      obtain ⟨m, hm, rfl⟩ := List.mem_map.mp (List.mem_dedup.mp hu)
      obtain ⟨hmem, hc⟩ := List.mem_filter.mp hm
      exact ⟨m, hmem, hc, rfl⟩)
  refine ⟨tips, htips, by rw [hmap]; exact List.nodup_dedup _, ?_⟩
  intro m hm hc
  apply List.mem_map.mp
  rw [hmap, List.mem_dedup]
  exact List.mem_map_of_mem (List.mem_filter.mpr ⟨hm, hc⟩)

private theorem Store.exists_newerThanTips (s : Store M) (C : Crypto M) (tips : List (Envelope M)) :
    ∃ msgs, s.NewerThanTips C tips msgs := by
  induction tips with
  | nil => exact ⟨[], .nil⟩
  | cons t tips ih =>
    obtain ⟨rest, hrest⟩ := ih
    let found := s.messages.filter fun m =>
      m.genesis = t.getGenesisHash C && m.connected && t.header.height < m.height
    have hrows : s.IsNewerThan (t.getGenesisHash C) t.header.height
        (found.insertionSort fun a b => a.height ≤ b.height) := by
      constructor
      · exact List.perm_insertionSort _ _
      · exact List.pairwise_insertionSort _ _
    exact ⟨_, .cons hrows hrest⟩

private theorem exists_pushCycle (C : Crypto M) (s : Store M) (p : PushState M) :
    ∃ sent p', PushCycle C s p sent p' := by
  obtain ⟨tips, htips⟩ := p.receiver.exists_isAllTips
  let tracker := (tips.filterMap fun t => t.body.authenticate C).foldl
    (fun tracker t => trackTip C tracker t.inner) p.tracker
  obtain ⟨msgs, hmsgs⟩ := s.exists_newerThanTips C (tracker.map Prod.snd)
  exact ⟨toBroadcast s msgs,
    ⟨(p.receiver.postEnvelope C (toBroadcast s msgs) 0).attachTips.2, tracker⟩,
    ⟨tips, htips, List.Perm.refl _⟩, ⟨msgs, hmsgs, rfl⟩, ⟨0, rfl⟩⟩

private theorem exists_pushCycles (C : Crypto M) (s : Store M) (p : PushState M) (n : ℕ) :
    ∃ p', PushCycles C s n p p' := by
  induction n with
  | zero => exact ⟨p, .zero⟩
  | succ n ih =>
    obtain ⟨p', hp'⟩ := ih
    obtain ⟨sent, p'', hcycle⟩ := exists_pushCycle C s p'
    exact ⟨p'', hp'.succ hcycle⟩

private theorem Store.NewerThanTips.mem {tips : List (Envelope M)} {msgs : List (Row M)} {m : Row M}
    (h : s.NewerThanTips C tips msgs) (hm : m ∈ msgs) : m ∈ s.messages ∧ m.connected := by
  induction h with
  | nil => cases hm
  | cons hrows _ ih =>
    apply (List.mem_append.mp hm).elim _ ih
    intro hm
    obtain ⟨hmem, htest⟩ := List.mem_filter.mp (hrows.perm.mem_iff.mp hm)
    simp only [Bool.and_eq_true] at htest
    exact ⟨hmem, htest.1.2⟩

private theorem toBroadcast_ne_nil {msgs : List (Row M)} {g : Row M} (hg : g ∈ s.messages)
    (h0 : g.height = 0) : toBroadcast s msgs ≠ [] := by
  intro hempty
  obtain ⟨hmsgs, hgenesis⟩ := List.append_eq_nil_iff.mp (List.map_eq_nil_iff.mp hempty)
  rw [hmsgs] at hgenesis
  apply List.filter_eq_nil_iff.mp hgenesis g
  · exact List.mem_filter.mpr ⟨hg, decide_eq_true h0⟩
  · simp

private theorem Rooted.exists_genesis {l : List (CanonicalEnvelopeHash × Envelope M)}
    {h : CanonicalEnvelopeHash} (hr : Rooted l h) : ∃ c ∈ l, c.2.header.height = 0 := by
  induction hr with
  | genesis hmem hheight => exact ⟨_, hmem, hheight⟩
  | child _ _ ih => exact ih

private theorem Store.not_connected (hs : Store.Reachable C s)
    (hnone : ∀ m ∈ s.messages, m.height ≠ 0)
    {m : Row M} (hm : m ∈ s.messages) : ¬ m.connected := by
  intro hc
  obtain ⟨c, hmem, h0⟩ := (hs.linked.rooted m hm hc).exists_genesis
  obtain ⟨g, hg, rfl⟩ := List.mem_map.mp hmem
  exact hnone g hg h0

private theorem toBroadcast_eq_nil (hs : Store.Reachable C s)
    (hnone : ∀ m ∈ s.messages, m.height ≠ 0)
    {tips : List (Envelope M)} {msgs : List (Row M)} (h : s.NewerThanTips C tips msgs) :
    toBroadcast s msgs = [] := by
  have hmsgs : msgs = [] := by
    apply List.eq_nil_iff_forall_not_mem.mpr
    intro m hm
    obtain ⟨hmem, hc⟩ := h.mem hm
    exact Store.not_connected hs hnone hmem hc
  have hgenesis : s.allGenesis = [] := by
    apply List.filter_eq_nil_iff.mpr
    intro m hm h0
    exact hnone m hm (of_decide_eq_true h0)
  rw [toBroadcast, hmsgs, hgenesis]
  rfl

/-- A genesis is sent again in every cycle, so that pushing converges exactly for senders that store
no genesis. -/
theorem push_converges_iff (hs : Store.Reachable C s) (receiver : Store M) (k : ℕ) :
    Converges C k s receiver ↔ ∀ m ∈ s.messages, m.height ≠ 0 := by
  constructor
  · intro h m hm h0
    obtain ⟨p, hp⟩ := exists_pushCycles C s ⟨receiver, []⟩ k
    obtain ⟨sent, p', hcycle⟩ := exists_pushCycle C s p
    have hempty := (h k p (Nat.le_refl k) hp).2 sent p' hcycle
    obtain ⟨msgs, _, hsent⟩ := hcycle.broadcast
    rw [hsent] at hempty
    exact toBroadcast_ne_nil hm h0 hempty
  · intro hnone n p _ _
    constructor
    · intro m hm hc
      exact absurd hc (Store.not_connected hs hnone hm)
    · intro sent p' hcycle
      obtain ⟨msgs, hmsgs, rfl⟩ := hcycle.broadcast
      exact toBroadcast_eq_nil hs hnone hmsgs

theorem tryInsert_users (s : Store M) (e : Authenticated C) (reuseSafe : Bool) (now : ℤ) :
    (s.tryInsertAuthenticatedEnvelope e reuseSafe now).2.users = s.users := by
  have hcases : (s.tryInsertAuthenticatedEnvelope e reuseSafe now).2 = s ∨
      ∃ user, s.Occurs (.envelope e user now)
        (s.tryInsertAuthenticatedEnvelope e reuseSafe now).2 := insert_cases
  apply hcases.elim
  · intro h
    rw [h]
  · intro h
    obtain ⟨user, h⟩ := h
    generalize (s.tryInsertAuthenticatedEnvelope e reuseSafe now).2 = s' at h
    cases h
    rfl

private theorem attachTips_users (s : Store M) : s.attachTips.2.users = s.users := by
  unfold Store.attachTips
  simp only
  split <;> rfl

private theorem postEnvelope_kept (hs : Store.Reachable C s) (envelopes : List (Envelope M))
    (now : ℤ) :
    Store.Reachable C (s.postEnvelope C envelopes now) ∧
      (s.postEnvelope C envelopes now).users = s.users := by
  unfold Store.postEnvelope
  generalize authed C envelopes = es
  induction es generalizing s with
  | nil => exact ⟨hs, rfl⟩
  | cons e es ih =>
    have hnext : Store.Reachable C (s.tryInsertAuthenticatedEnvelope e false now).2 :=
      Writers.reachable_apply hs (.insert e false now)
    obtain ⟨hreachable, husers⟩ := ih hnext
    exact ⟨hreachable, husers.trans (tryInsert_users s e false now)⟩

private theorem PushCycles.kept (hr : Store.Reachable C receiver) {p₀ : PushState M}
    (h₀ : p₀.receiver = receiver) (h : PushCycles C s n p₀ p) :
    Store.Reachable C p.receiver ∧ p.receiver.users = receiver.users := by
  induction h with
  | zero =>
    rw [h₀]
    exact ⟨hr, rfl⟩
  | succ _ hcycle ih =>
    obtain ⟨hreachable, husers⟩ := ih h₀
    obtain ⟨now, hreceive⟩ := hcycle.receive
    obtain ⟨hposted, hsame⟩ := postEnvelope_kept hreachable _ now
    rw [hreceive]
    constructor
    · exact Writers.reachable_apply hposted (.attachTips)
    · rw [attachTips_users, hsame, husers]

private theorem unknown_author_never_stored (hr : Store.Reachable C receiver) {key : XOnlyPublicKey}
    (hnone : receiver.userByKey key = none) (h : PushCycles C s n ⟨receiver, []⟩ p) :
    ∀ r ∈ p.receiver.messages, r.key ≠ key := by
  obtain ⟨hreachable, husers⟩ := h.kept hr rfl
  intro r hrow hkey
  have huser := (hreachable.sourced.userByKey_eq_iff hrow).mpr hkey
  rw [Store.userByKey, husers] at huser
  rw [Store.userByKey] at hnone
  rw [hnone] at huser
  cases huser

end

/-- The chain of alice: her genesis and a message upon it. -/
def aliceChainStore : Store ℕ :=
  ([.insertUser "alice" (smallGenesis 5 10 11 0) 0,
    .insert (smallLater 5 (0, 0) 0 11 12 1) false 0].foldl Store.apply (.empty : Store ℕ))

private theorem aliceChainStore_reachable : Store.Reachable smallCrypto aliceChainStore :=
  Store.reachable_foldl _

private theorem aliceChainStore_genesis : ∃ m ∈ aliceChainStore.messages, m.height = 0 := by
  decide +kernel

/-- A sender with a genesis never runs out of messages to send, not even to itself; an empty sender
has none. -/
theorem push_converges_alice :
    ¬ Converges smallCrypto 2 aliceChainStore aliceChainStore ∧
      Converges smallCrypto 2 .empty aliceChainStore := by
  constructor
  · rw [push_converges_iff aliceChainStore_reachable]
    intro hnone
    obtain ⟨m, hm, h0⟩ := aliceChainStore_genesis
    exact hnone m hm h0
  · rw [push_converges_iff .refl]
    intro m hm
    cases hm

/-- The chain of an author whom the receiver does not know is never replicated, and a chain that is
replicated is sent again. -/
theorem alice_pushed_in_vain :
    (∀ n p, PushCycles smallCrypto aliceChainStore n ⟨.empty, []⟩ p →
      p.receiver.messages = [] ∧ ¬ Replicated aliceChainStore p.receiver) ∧
    (∀ n p sent p', PushCycles smallCrypto aliceChainStore n ⟨aliceChainStore, []⟩ p →
      PushCycle smallCrypto aliceChainStore p sent p' → sent ≠ []) ∧
    ∀ k, ¬ Converges smallCrypto k aliceChainStore .empty := by
  have hunknown : ∀ n p, PushCycles smallCrypto aliceChainStore n ⟨.empty, []⟩ p →
      p.receiver.messages = [] ∧ ¬ Replicated aliceChainStore p.receiver := by
    intro n p h
    have hempty : p.receiver.messages = [] := by
      apply List.eq_nil_iff_forall_not_mem.mpr
      intro r hr
      have hnone : Store.userByKey (.empty : Store ℕ) r.key = none := rfl
      exact unknown_author_never_stored .refl hnone h r hr rfl
    refine ⟨hempty, ?_⟩
    intro hreplicated
    have hchain : ∃ m ∈ aliceChainStore.messages, m.connected ∧
        aliceChainStore.Unforked m.genesis := by
      decide +kernel
    obtain ⟨m, hm, hc, hunforked⟩ := hchain
    obtain ⟨m', hm', _⟩ := hreplicated m hm hc hunforked
    rw [hempty] at hm'
    cases hm'
  refine ⟨hunknown, ?_, ?_⟩
  · intro n p sent p' _ hcycle
    obtain ⟨msgs, _, hsent⟩ := hcycle.broadcast
    obtain ⟨m, hm, h0⟩ := aliceChainStore_genesis
    rw [hsent]
    exact toBroadcast_ne_nil hm h0
  · intro k h
    obtain ⟨p, hp⟩ := exists_pushCycles smallCrypto aliceChainStore ⟨.empty, []⟩ k
    exact (hunknown k p hp).2 (h k p (Nat.le_refl k) hp).1

end JudicaVM
