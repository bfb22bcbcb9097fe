import JudicaVM.Host.Rounds

/-!
# Restarting the host

On well-formed chains and with the same members, a task that starts again at any point knows what a
task knows that has kept running from the last batch.
-/

namespace JudicaVM

open Transition

section

variable {J : Type} {C : Crypto J} {S : Signer C} {K : BroadcastCodec J} {s s' : Store J}
  {t t' : Task J} {key : XOnlyPublicKey} {done : List (Envelope J)}

/-- Different messages of the groups have different places, no member is the host, and every envelope
claims the genesis of its parent. -/
structure Store.WellFormed (C : Crypto J) (key : XOnlyPublicKey) (s : Store J) : Prop where
  playable : s.Playable C key
  genesis : SameGenesis C s.contents

/-- After their next fetch two tasks have the same next heights and the same pending messages. -/
structure Task.Agree (C : Crypto J) (key : XOnlyPublicKey) (s : Store J) (t t' : Task J) :
    Prop where
  next : (t.fetch C key s).nextHeightToSequence = (t'.fetch C key s).nextHeightToSequence
  pending : (t.fetch C key s).pending.Perm (t'.fetch C key s).pending

private theorem Task.Tracks.agree_fetch (h : t.Tracks C key s done) (h' : t'.Tracks C key s done)
    (hs : s.Ready C key) : t.Agree C key s t' := by
  have hagree := (h.fetch hs.linked hs.sourced).agree (h'.fetch hs.linked hs.sourced)
    fetch_selected fetch_selected
  exact ⟨hagree.1, hagree.2⟩

def HostEvent.KeepsMembers : HostEvent C → Prop
  | .addMember _ _ => False
  | _ => True

namespace Host

variable [DecidableEq J] {h h₀ : Host J}

/-- The members stay the same and the store stays well formed. -/
def Regular (S : Signer C) (K : BroadcastCodec J) (h : Host J) (ev : HostEvent C) : Prop :=
  ev.KeepsMembers ∧ ∀ h' ∈ h.step S K ev, h'.store.WellFormed C S.key

omit [DecidableEq J] in
private theorem afterIterate_store
    (out : Except Checked.Panic (Task J × List CanonicalEnvelopeHash)) :
    (h.afterIterate out).store = h.store := by
  cases out <;> rfl

private theorem regular_rule (hzero : ∀ e, C.canonicalizedHash e ≠ .genesis) :
    Rule S K (Regular S K) (fun s t done => t.Tracks C S.key s done)
      fun s t done => t.Tracks C S.key s done := by
  constructor
  · intro h op hs hop hallowed
    have hwf : (h.store.apply op).WellFormed C S.key := by
      apply hallowed.2 { h with store := h.store.apply op }
      simp [Host.step, hop]
    have hsteady := (hs.apply hzero hop).2.2.2 hwf.genesis
    have hlength := Store.length_le_of_prefix (Store.prefix_apply (s := h.store) op)
    have hkept (t : Task J) (done : List (Envelope J)) (hP : t.Tracks C S.key h.store done) :
        t.Tracks C S.key (h.store.apply op) done :=
      hP.steady (hsteady.mono hP.seq_le) hlength
    exact ⟨fun _ => hkept h.task, hkept h.saved⟩
  · exact fun h group genesis hs hallowed => hallowed.1.elim
  · intro s s' t done hs _ hpre hsteady hP
    exact hP.steady (hsteady.mono hP.seq_le) (Store.length_le_of_prefix hpre)
  · exact fun s t done hs hP => hP
  · intro h ch done hs hlog hphase _ hallowed hP
    have hwf : h.store.WellFormed C S.key := by
      have hstep := hallowed.2 (h.afterIterate (h.task.iterate C S.key ch h.store))
        (by simp [Host.step, hphase])
      rwa [afterIterate_store] at hstep
    obtain ⟨_, t, batch, _, hiterate, hP'⟩ := hP.iterate hs hwf.playable hlog ch
    exact ⟨t, batch, hiterate, hP'⟩
  · intro h done hs _ _ hQ
    have hsequenced := hQ.sequenced hs
    obtain ⟨t, hrecover, hP, _⟩ := recover_eq hs.linked hs.sourced
      (fun e he => hQ.done_subset he) hQ.gapless hsequenced.nodup
    exact ⟨t, hrecover, hP⟩

/-- In every state of a regular run, a task that starts again reads what was published, finds all of
it, and agrees with a task that has kept running from the last batch. -/
theorem restart_agrees (hzero : ∀ e, C.canonicalizedHash e ≠ .genesis)
    (hbound : ∀ e, (C.canonicalizedHash e).digest < 2 ^ 256) (hinit : h₀.Initial S K)
    (hrun : Run (fun h ev h' => h.Regular S K ev ∧ h.step S K ev = some h') (fun _ => True) h₀ h) :
    h.store.alreadySequenced K S.key = some h.published.flatten ∧
    (∃ t, Task.recover C S.key h.store h.published.flatten = .ok t ∧
      t.Agree C S.key h.store h.saved) ∧
    (h.phase = .polling → h.task.Agree C S.key h.store h.saved) ∧
    (∀ panic, h.phase ≠ .stopped (some panic)) ∧
    ∃ done, h.published.flatten = done.map C.canonicalizedHash ∧ h.store.Sequenced C done := by
  have hlinked := (hinit.ready hzero).linked
  have hh := (regular_rule hzero).holds hzero hbound hinit (.initial hlinked) hrun
  obtain ⟨done, hdone, hQ, hfollows⟩ := hh.knows
  have hsequenced := hQ.sequenced hh.ready
  unfold Follows at hfollows
  refine ⟨hh.log.alreadySequenced_eq hh.ready.sourced, ?_, ?_, ?_, done, hdone, hsequenced⟩
  · obtain ⟨t, hrecover, hP, _⟩ := recover_eq hh.ready.linked hh.ready.sourced
      (fun e he => hQ.done_subset he) hQ.gapless hsequenced.nodup
    refine ⟨t, ?_, hP.agree_fetch hQ hh.ready⟩
    rw [hdone, hrecover]
  · intro hphase
    rw [hphase] at hfollows
    exact hfollows.agree_fetch hQ hh.ready
  · intro panic hphase
    simp [hphase] at hfollows

end Host

end

instance {J : Type} {C : Crypto J} (ev : HostEvent C) : Decidable ev.KeepsMembers :=
  match ev with
  | .addMember _ _ => isFalse id
  | .store _ => isTrue trivial
  | .iterate _ => isTrue trivial
  | .publish _ => isTrue trivial
  | .crash => isTrue trivial
  | .load => isTrue trivial
  | .recover => isTrue trivial

instance {J : Type} {C : Crypto J} [DecidableEq J] (key : XOnlyPublicKey) (s : Store J) :
    Decidable (s.WellFormed C key) :=
  decidable_of_iff (s.Playable C key ∧ ∀ x ∈ s.contents, ∀ y ∈ s.contents, y.1 = x.2.prevMsg →
      x.2.getGenesisHash C = y.2.getGenesisHash C)
    ⟨fun h => ⟨h.1, h.2⟩, fun h => ⟨h.playable, h.genesis⟩⟩

instance {J : Type} {C : Crypto J} [DecidableEq J] (S : Signer C) (K : BroadcastCodec J)
    (h : Host J) (ev : HostEvent C) : Decidable (h.Regular S K ev) :=
  inferInstanceAs (Decidable (_ ∧ ∀ h' ∈ h.step S K ev, _))

/-- The host crashes before it publishes the batch of its second iteration, and starts again. -/
def tinyCrash : List (HostEvent tinyCrypto) :=
  tinyEvents ++ [.iterate (inOrder _), .crash, .load, .recover]

theorem restart_agrees_tiny : ∃ h : Host (Option (List CanonicalEnvelopeHash)),
    h.published = [[tinyHash 6 0, tinyHash 6 1]] ∧ h.phase = .polling ∧
      h.task.Agree tinyCrypto tinySigner.key h.store h.saved := by
  have hstate : (tinyHost.after tinySigner tinyCodec (Host.Regular tinySigner tinyCodec)
      tinyCrash).any fun h => h.published = [[tinyHash 6 0, tinyHash 6 1]] ∧
        h.phase = .polling := by
    decide +kernel
  obtain ⟨h, hafter, hstate⟩ := (Option.any_eq_true _ _).mp hstate
  obtain ⟨hpublished, hphase⟩ := of_decide_eq_true hstate
  have hagree := Host.restart_agrees tinyCrypto_ne_genesis tinyCrypto_lt tinyHost_initial
    (Host.run_of_after hafter)
  exact ⟨h, hpublished, hphase, hagree.2.2.1 hphase⟩

end JudicaVM
