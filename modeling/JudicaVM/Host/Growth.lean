import JudicaVM.Attest.Genesis
import JudicaVM.Host.Tracking

/-!
# How the store grows

Rows keep their ids and their envelopes, but attaching the tips gives a row the genesis of its
parent. The selection among old rows is steady when envelopes claim the genesis of their parents.
-/

namespace JudicaVM

open Closure Transition

section

variable {J : Type} {C : Crypto J} {s s' : Store J} {r p row : Row J} {u : Updatable}
  {l l' : List (CanonicalEnvelopeHash × Envelope J)} {e : Envelope J} {key : XOnlyPublicKey}

/-- The envelope or a stored ancestor of it claims another genesis than its stored parent. -/
inductive Strays (C : Crypto J) (l : List (CanonicalEnvelopeHash × Envelope J)) : Envelope J → Prop
  | parent {e p : Envelope J} (hp : (e.prevMsg, p) ∈ l)
      (hne : e.getGenesisHash C ≠ p.getGenesisHash C) : Strays C l e
  | ancestor {e p : Envelope J} (hp : (e.prevMsg, p) ∈ l) (h : Strays C l p) : Strays C l e

theorem Strays.mono (hsub : l ⊆ l') (h : Strays C l e) : Strays C l' e := by
  induction h with
  | parent hp hne => exact .parent (hsub hp) hne
  | ancestor hp _ ih => exact .ancestor (hsub hp) ih

/-- Every stored envelope claims the genesis of its stored parent. -/
def SameGenesis (C : Crypto J) (l : List (CanonicalEnvelopeHash × Envelope J)) : Prop :=
  ∀ x ∈ l, ∀ y ∈ l, y.1 = x.2.prevMsg → x.2.getGenesisHash C = y.2.getGenesisHash C

private theorem SameGenesis.mono (hsub : l ⊆ l') (h : SameGenesis C l') : SameGenesis C l :=
  fun x hx y hy => h x (hsub hx) y (hsub hy)

private theorem SameGenesis.not_strays (h : SameGenesis C l) {hash : CanonicalEnvelopeHash}
    (he : (hash, e) ∈ l) : ¬Strays C l e := by
  intro hstrays
  induction hstrays generalizing hash with
  | parent hp hne => exact hne (h _ he _ hp rfl)
  | ancestor hp _ ih => exact ih hp

/-- A row whose ancestors all claim its genesis is linked to it. -/
structure Store.Straight (C : Crypto J) (s : Store J) : Prop where
  genesis : ∀ r ∈ s.messages, r.height = 0 → r.genesisId = none
  later : ∀ r ∈ s.messages, r.height ≠ 0 → ¬Strays C s.contents r.body →
    r.genesisId = s.idByHash r.genesis

theorem Store.Sourced.zeroFree (hs : s.Sourced C)
    (hzero : ∀ e, C.canonicalizedHash e ≠ .genesis) : s.ZeroFree := by
  intro r hr
  rw [hs.hash_eq hr]
  exact hzero r.body

private theorem Store.Sourced.genesis_of_not_strays (hs : s.Sourced C) (hr : r ∈ s.messages)
    (hp : p ∈ s.messages) (hhash : p.hash = r.prevMsg) (h : ¬Strays C s.contents r.body) :
    r.genesis = p.genesis ∧ ¬Strays C s.contents p.body := by
  have hmem : (r.body.prevMsg, p.body) ∈ s.contents := by
    have hp' := mem_contents hp
    rwa [hhash] at hp'
  constructor
  · rw [hs.genesis_eq hr, hs.genesis_eq hp]
    by_contra hne
    exact h (.parent hmem hne)
  · intro hstrays
    exact h (.ancestor hmem hstrays)

private theorem Store.Straight.genesisForChild_eq (hg : s.Straight C) (hs : s.Linked)
    (hsourced : s.Sourced C) (hp : p ∈ s.messages) (h : ¬Strays C s.contents p.body) :
    p.genesisForChild = s.idByHash p.genesis := by
  unfold Row.genesisForChild
  split_ifs with h0
  · rw [hsourced.genesis_of_height hp h0, hs.idByHash_hash hp]
  · exact hg.later p hp h0 h

private theorem Store.Straight.updatable_genesis (hg : s.Straight C) (hs : s.Linked)
    (hsourced : s.Sourced C) (hu : u ∈ s.updatable) (hr : r ∈ s.messages)
    (hid : u.rowId = r.messageId) (h : ¬Strays C s.contents r.body) :
    u.genesisId = s.idByHash r.genesis := by
  obtain ⟨c, hc, hreach⟩ := mem_updatable.mp hu
  induction hreach generalizing r with
  | refl =>
    obtain ⟨m, hm, _, parent, hparent, hhash, _, rfl⟩ := mem_connectable.mp hc
    obtain rfl := hs.eq_of_messageId hm hr hid
    obtain ⟨hsame, hnot⟩ := hsourced.genesis_of_not_strays hm hparent hhash h
    rw [hsame]
    exact hg.genesisForChild_eq hs hsourced hparent hnot
  | tail hreach' hstep ih =>
    have hmem := mem_updatable.mpr ⟨c, hc, hreach'⟩
    obtain ⟨m, hm, hhash, rfl⟩ := mem_children.mp hstep
    obtain rfl := hs.eq_of_messageId hm hr hid
    obtain ⟨p, _, hattaches⟩ := hs.attaches hmem
    have hparent : p.hash = m.prevMsg := hattaches.messageHash.symm.trans hhash
    obtain ⟨hsame, hnot⟩ := hsourced.genesis_of_not_strays hm hattaches.row hparent h
    rw [hsame]
    exact ih hmem hattaches.row hattaches.rowId hnot

namespace Store.Straight

theorem empty : Store.Straight C (.empty : Store J) := by
  constructor <;> simp [Store.empty]

theorem addUser (hg : s.Straight C) (nickname : String) (key : XOnlyPublicKey) :
    (s.addUser nickname key).Straight C := by
  constructor
  · simpa using hg.genesis
  · simpa using hg.later

theorem push (hg : s.Straight C) (hs : s.Linked) {e : Authenticated C} {userId : ℕ} {now : ℤ}
    (hchecks : (s.newRow e userId now).passesChecks)
    (hnew : s.rowByHash (C.canonicalizedHash e.inner) = none) :
    (s.push (s.newRow e userId now)).Straight C := by
  constructor
  · intro r hr h0
    obtain ⟨r', hr', rfl⟩ := mem_push.mp hr
    rw [Row.connectGapParent_height] at h0
    rw [Row.connectGapParent_genesisId]
    rcases hr' with hold | rfl
    · exact hg.genesis r' hold h0
    · have hgenesis : e.inner.getGenesisHash C = C.canonicalizedHash e.inner := by
        unfold Envelope.getGenesisHash
        rw [e.authentic.genesis h0]
      simp only [newRow, hgenesis, hnew, Option.map_none]
  · intro r hr h0 hnot
    obtain ⟨r', hr', rfl⟩ := mem_push.mp hr
    rw [Row.connectGapParent_height] at h0
    rw [Row.connectGapParent_body] at hnot
    rw [Row.connectGapParent_genesisId, Row.connectGapParent_genesis]
    have hlink : r'.genesisId = s.idByHash r'.genesis ∧ r'.genesisId.isSome := by
      rcases hr' with hold | rfl
      · refine ⟨hg.later r' hold h0 ?_, hs.genesis_isSome hold h0⟩
        intro hstrays
        apply hnot
        apply hstrays.mono
        rw [contents_push]
        exact List.subset_append_left _ _
      · exact ⟨rfl, (Row.passesChecks_iff.mp hchecks).1.resolve_left h0⟩
    obtain ⟨i, hi⟩ := Option.isSome_iff_exists.mp hlink.2
    rw [idByHash_push_of_some (hlink.1.symm.trans hi), hi]

theorem connectAll (hg : s.Straight C) (hs : s.Linked) (hsourced : s.Sourced C)
    (hzero : s.ZeroFree) : s.connectAll.Straight C := by
  constructor
  · intro r hr h0
    obtain ⟨r', hr', rfl⟩ := mem_connectAll.mp hr
    rw [Row.connect_height] at h0
    rw [hs.connect_of_connected hzero hr' (hs.root r' hr' h0)]
    exact hg.genesis r' hr' h0
  · intro r hr h0 hnot
    obtain ⟨r', hr', rfl⟩ := mem_connectAll.mp hr
    rw [Row.connect_height] at h0
    rw [Row.connect_body, contents_connectAll] at hnot
    rw [idByHash_connectAll, Row.connect_genesis]
    apply (hs.connect_cases hr').elim
    · intro h
      rw [h.1]
      exact hg.later r' hr' h0 hnot
    · intro h
      obtain ⟨u, hu, p, hattaches, heq⟩ := h
      rw [heq]
      exact hg.updatable_genesis hs hsourced hu hr' hattaches.rowId hnot

end Store.Straight

namespace Store

/-- The host's groups and their members are the same. -/
structure SameGroups (key : XOnlyPublicKey) (s s' : Store J) : Prop where
  members : s'.groupMembers = s.groupMembers
  groups : s'.groupsThisChainSubscribesTo key = s.groupsThisChainSubscribesTo key

private theorem SameGroups.selects_eq {r' : Row J} (h : s.SameGroups key s')
    (hid : r'.messageId = r.messageId) (hgenesis : r'.genesisId = r.genesisId) :
    s'.selects key r' = s.selects key r := by
  rw [selects, selects, h.members, h.groups, hid, hgenesis]

private theorem SameGroups.of_rows {f : Row J → Row J} {new : List (Row J)}
    (hmessages : s'.messages = s.messages.map f ++ new)
    (hmembers : s'.groupMembers = s.groupMembers)
    (hsubscribers : s'.groupSubscribers = s.groupSubscribers)
    (huser : s'.userByKey key = s.userByKey key)
    (hf : ∀ r, (f r).messageId = r.messageId ∧ (f r).userId = r.userId ∧ (f r).height = r.height)
    (hnew : ∀ r ∈ new, (s.userByKey key).map User.userId = some r.userId → r.height ≠ 0) :
    s.SameGroups key s' := by
  refine ⟨hmembers, ?_⟩
  rw [groupsThisChainSubscribesTo, groupsThisChainSubscribesTo, hsubscribers, huser, hmessages]
  congr 1
  apply List.filter_congr
  intro sub _
  have hnone : (new.any fun m => (s.userByKey key).map User.userId = some m.userId &&
      m.height = 0 && sub.2 = m.messageId) = false := by
    apply List.any_eq_false.mpr
    intro r hr
    simp only [Bool.and_eq_true, decide_eq_true_eq, not_and]
    intro h _
    exact absurd h.2 (hnew r hr h.1)
  rw [List.any_append, hnone, Bool.or_false, List.any_map]
  congr 1
  funext r
  obtain ⟨hid, huserId, hheight⟩ := hf r
  rw [Function.comp_apply, hid, huserId, hheight]

private theorem SameGroups.steadyUpTo {f : Row J → Row J} {new : List (Row J)} {n : ℕ}
    (h : s.SameGroups key s') (hmessages : s'.messages = s.messages.map f ++ new)
    (hf : ∀ r ∈ s.messages, (f r).messageId = r.messageId ∧ (f r).body = r.body ∧
      (f r).genesisId = r.genesisId)
    (hnew : ∀ r ∈ new, n < r.messageId) : s.SteadyUpTo key n s' := by
  intro m hm
  have hnone : (new.filter fun r => s'.selects key r && r.messageId ≤ m) = [] := by
    apply List.filter_eq_nil_iff.mpr
    intro r hr
    have hlt := hnew r hr
    have hgt : ¬r.messageId ≤ m := by omega
    simp [hgt]
  rw [selectedUpTo, selectedUpTo, hmessages, List.filter_append, hnone, List.append_nil,
    List.filter_map, List.map_map]
  have hfilter : s.messages.filter ((fun r => s'.selects key r && r.messageId ≤ m) ∘ f) =
      s.messages.filter fun r => s.selects key r && r.messageId ≤ m := by
    apply List.filter_congr
    intro r hr
    obtain ⟨hid, _, hgenesis⟩ := hf r hr
    rw [Function.comp_apply, h.selects_eq hid hgenesis, hid]
  rw [hfilter]
  apply List.map_congr_left
  intro r hr
  exact (hf r (List.mem_filter.mp hr).1).2.1

private theorem push_messages : (s.push row).messages =
    s.messages.map row.connectGapParent ++ [row.connectGapParent row] := by
  simp [Store.push]

private theorem connectAll_messages :
    s.connectAll.messages = s.messages.map (fun r => r.connect s.updatable) ++ [] := by
  simp [Store.connectAll]

private theorem SameGroups.addUser {nickname : String} {key' : XOnlyPublicKey} (hne : key' ≠ key) :
    s.SameGroups key (s.addUser nickname key') := by
  have huser : (s.addUser nickname key').userByKey key = s.userByKey key := by
    unfold Store.addUser userByKey
    split
    · rfl
    · simp [List.find?_append, hne]
  have hrest : (s.addUser nickname key').groupMembers = s.groupMembers ∧
      (s.addUser nickname key').groupSubscribers = s.groupSubscribers := by
    unfold Store.addUser
    split <;> exact ⟨rfl, rfl⟩
  have hmessages : (s.addUser nickname key').messages = s.messages.map id ++ [] := by simp
  apply SameGroups.of_rows hmessages hrest.1 hrest.2 huser
  · exact fun _ => ⟨rfl, rfl, rfl⟩
  · simp

/-- A new row that does not start a chain of the host leaves the groups unchanged. -/
theorem SameGroups.push
    (hrow : (s.userByKey key).map User.userId = some row.userId → row.height ≠ 0) :
    s.SameGroups key (s.push row) := by
  refine SameGroups.of_rows push_messages rfl rfl rfl ?_ ?_
  · exact fun r => ⟨by simp, by simp, by simp⟩
  · simpa using hrow

private theorem SameGroups.connectAll : s.SameGroups key s.connectAll := by
  refine SameGroups.of_rows connectAll_messages rfl rfl rfl ?_ ?_
  · exact fun r => ⟨by simp, by simp, by simp⟩
  · simp

private theorem SameGroups.refl : s.SameGroups key s := ⟨rfl, rfl⟩

private theorem SameGroups.trans {s'' : Store J} (h : s.SameGroups key s')
    (h' : s'.SameGroups key s'') :
    s.SameGroups key s'' :=
  ⟨h'.members.trans h.members, h'.groups.trans h.groups⟩

private theorem SteadyUpTo.refl {n : ℕ} : s.SteadyUpTo key n s := fun _ _ => rfl

theorem SteadyUpTo.mono {m n : ℕ} (h : s.SteadyUpTo key n s') (hle : m ≤ n) :
    s.SteadyUpTo key m s' :=
  fun k hk => h k (hk.trans hle)

private theorem SteadyUpTo.trans {s'' : Store J} {n : ℕ} (h : s.SteadyUpTo key n s')
    (h' : s'.SteadyUpTo key n s'') : s.SteadyUpTo key n s'' :=
  fun m hm => (h' m hm).trans (h m hm)

private theorem steadyUpTo_addUser {nickname : String} {key' : XOnlyPublicKey} {n : ℕ}
    (hne : key' ≠ key) :
    s.SteadyUpTo key n (s.addUser nickname key') := by
  have hmessages : (s.addUser nickname key').messages = s.messages.map id ++ [] := by simp
  apply (SameGroups.addUser hne).steadyUpTo hmessages
  · exact fun r _ => ⟨rfl, rfl, rfl⟩
  · simp

theorem steadyUpTo_push {n : ℕ} (hid : n < row.messageId)
    (hrow : (s.userByKey key).map User.userId = some row.userId → row.height ≠ 0) :
    s.SteadyUpTo key n (s.push row) := by
  apply (SameGroups.push hrow).steadyUpTo push_messages
  · exact fun r _ => ⟨by simp, by simp, by simp⟩
  · simpa using hid

private theorem steadyUpTo_connectAll {n : ℕ} (hg : s.Straight C) (hg' : s.connectAll.Straight C)
    (hsame : SameGenesis C s.contents) : s.SteadyUpTo key n s.connectAll := by
  apply SameGroups.connectAll.steadyUpTo connectAll_messages
  · intro r hr
    refine ⟨by simp, by simp, ?_⟩
    have hr' := mem_connectAll.mpr ⟨r, hr, rfl⟩
    by_cases h0 : r.height = 0
    · rw [hg.genesis r hr h0]
      exact hg'.genesis _ hr' (by simpa using h0)
    · have hnot := hsame.not_strays (mem_contents hr)
      rw [hg.later r hr h0 hnot, hg'.later _ hr' (by simpa using h0) (by simpa using hnot)]
      simp
  · simp

/-- What holds of a store in which the others write messages that have a canonical form. -/
structure Ready (C : Crypto J) (key : XOnlyPublicKey) (s : Store J) : Prop where
  linked : s.Linked
  sourced : s.Sourced C
  straight : s.Straight C
  bounded : ∀ r ∈ s.messages, r.key ≠ key → r.height < i64Max - 1

namespace Ready

private theorem addUser (hs : s.Ready C key) (nickname : String) (key' : XOnlyPublicKey) :
    (s.addUser nickname key').Ready C key := by
  refine ⟨hs.linked.addUser _ _, hs.sourced.addUser _ _, hs.straight.addUser _ _, ?_⟩
  simpa using hs.bounded

theorem push (hs : s.Ready C key) {e : Authenticated C} {user : User} {now : ℤ}
    (huser : s.userByKey e.inner.header.key = some user)
    (hchecks : (s.newRow e user.userId now).passesChecks)
    (hnew : s.rowByHash (C.canonicalizedHash e.inner) = none)
    (hheight : e.inner.header.key ≠ key → e.inner.header.height < i64Max - 1) :
    (s.push (s.newRow e user.userId now)).Ready C key := by
  refine ⟨hs.linked.push hchecks hnew, hs.sourced.push huser,
    hs.straight.push hs.linked hchecks hnew, ?_⟩
  intro r hr
  obtain ⟨r', hr', rfl⟩ := mem_push.mp hr
  rw [Row.key, Row.connectGapParent_body, Row.connectGapParent_height]
  rcases hr' with hold | rfl
  · exact hs.bounded r' hold
  · exact hheight

private theorem connectAll (hs : s.Ready C key) (hzero : s.ZeroFree) :
    s.connectAll.Ready C key := by
  refine ⟨hs.linked.connectAll, hs.sourced.connectAll,
    hs.straight.connectAll hs.linked hs.sourced hzero, ?_⟩
  intro r hr
  obtain ⟨r', hr', rfl⟩ := mem_connectAll.mp hr
  rw [Row.key, Row.connect_body, Row.connect_height]
  exact hs.bounded r' hr'

private theorem userId_ne (hs : s.Ready C key) {e : Authenticated C} {user : User}
    (huser : s.userByKey e.inner.header.key = some user) (hne : e.inner.header.key ≠ key) :
    (s.userByKey key).map User.userId ≠ some user.userId := by
  intro heq
  obtain ⟨u, hu, hid⟩ := Option.map_eq_some_iff.mp heq
  obtain ⟨hmem, hkey⟩ := userByKey_some hu
  obtain ⟨hmem', hkey'⟩ := userByKey_some huser
  have hnodup : (s.users.map User.userId).Nodup := by
    rw [hs.sourced.userIds]
    exact List.nodup_range'
  rw [List.inj_on_of_nodup_map hnodup hmem hmem' hid] at hkey
  exact hne (hkey'.symm.trans hkey)

/-- What an operation of another author leaves as it was. The selection is steady when envelopes
claim the genesis of their parents. -/
theorem apply (hs : s.Ready C key) (hzero : ∀ e, C.canonicalizedHash e ≠ .genesis)
    {op : StoreOp C} (hop : op.ByOthers key) :
    (s.apply op).Ready C key ∧ s.SameGroups key (s.apply op) ∧
      s.contents <+: (s.apply op).contents ∧
      (SameGenesis C (s.apply op).contents →
        s.SteadyUpTo key s.messages.length (s.apply op)) := by
  apply apply_preserves (I := fun s' => s'.Ready C key ∧ s.SameGroups key s' ∧
    s.contents <+: s'.contents ∧ (SameGenesis C s'.contents →
      s.SteadyUpTo key s.messages.length s')) op
  · exact ⟨hs, .refl, List.prefix_refl _, fun _ => .refl⟩
  · intro nickname e he
    have hne := (hop e he).1
    refine ⟨hs.addUser _ _, .addUser hne, ?_, fun _ => steadyUpTo_addUser hne⟩
    rw [contents_addUser]
  · intro s₁ e user now s' hs₁ hsame he hocc
    obtain ⟨hready, hgroups, hpre, hsteady⟩ := hs₁
    obtain ⟨hne, hsafe⟩ := hop e he
    cases hocc with
    | envelope huser hchecks hnew =>
      have hrow := hready.userId_ne huser hne
      refine ⟨hready.push huser hchecks hnew fun _ => ?_,
        hgroups.trans (.push fun h => absurd h hrow), ?_, ?_⟩
      · have hle : e.inner.header.height ≤ Serde.Json.maxSafe := hsafe.height.2
        have hlt : Serde.Json.maxSafe < i64Max - 1 := by decide
        omega
      · rw [contents_push]
        exact hpre.trans (List.prefix_append _ _)
      · intro hsame'
        rw [contents_push] at hsame'
        apply (hsteady (hsame'.mono (List.subset_append_left _ _))).trans
        apply steadyUpTo_push _ fun h => absurd h hrow
        show s.messages.length < s₁.messages.length + 1
        rw [hsame]
        omega
  · intro s' hocc
    cases hocc with
    | connect _ =>
      have hready := hs.connectAll (hs.sourced.zeroFree hzero)
      refine ⟨hready, .connectAll, ?_, ?_⟩
      · rw [contents_connectAll]
      · intro hsame
        rw [contents_connectAll] at hsame
        exact steadyUpTo_connectAll hs.straight hready.straight hsame

end Ready

end Store

end

end JudicaVM
