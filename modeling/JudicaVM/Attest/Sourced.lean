import JudicaVM.Attest.Connected

/-!
# Where the rows come from

Every row holds an authenticated envelope under its own hash, and belongs to the user of its key.
-/

namespace JudicaVM

open Transition

variable {M : Type} {C : Crypto M} {s s' : Store M} {r r' row : Row M}

structure Store.Sourced (C : Crypto M) (s : Store M) : Prop where
  userIds : s.users.map User.userId = List.range' 1 s.users.length
  keys : (s.users.map User.key).Nodup
  body : ∀ r ∈ s.messages, ∃ e : Authenticated C, r.body = e.inner ∧
    r.hash = C.canonicalizedHash e.inner ∧ r.nonce = e.signature.r
  user : ∀ r ∈ s.messages, ∃ u ∈ s.users, u.userId = r.userId ∧ u.key = r.key

private theorem Store.mem_users_addUser {nickname : String} {key : XOnlyPublicKey} {u : User}
    (h : u ∈ s.users) : u ∈ (s.addUser nickname key).users := by
  unfold addUser
  split
  · exact h
  · exact List.mem_append_left _ h

theorem Store.userByKey_some {key : XOnlyPublicKey} {u : User} (h : s.userByKey key = some u) :
    u ∈ s.users ∧ u.key = key :=
  ⟨List.mem_of_find?_eq_some h, by simpa using List.find?_some h⟩

namespace Store.Sourced

theorem empty : Store.Sourced C (.empty : Store M) := by
  constructor <;> simp [Store.empty]

theorem addUser (hs : s.Sourced C) (nickname : String) (key : XOnlyPublicKey) :
    (s.addUser nickname key).Sourced C := by
  have hmessages := Store.addUser_messages (s := s) nickname key
  constructor
  · unfold Store.addUser
    split
    · exact hs.userIds
    · simp [hs.userIds, List.range'_1_concat, Nat.add_comm]
  · unfold Store.addUser
    split
    · exact hs.keys
    · rename_i hnew
      have hfresh : ∀ u ∈ s.users, u.key ≠ key := by simpa [Store.userByKey] using hnew
      simp only [List.map_append, List.map_cons, List.map_nil]
      apply hs.keys.append (List.nodup_singleton _)
      intro k hk hkey
      obtain ⟨u, hu, rfl⟩ := List.mem_map.mp hk
      exact hfresh u hu (List.mem_singleton.mp hkey)
  · rw [hmessages]
    exact hs.body
  · rw [hmessages]
    intro r hr
    obtain ⟨u, hu, huser⟩ := hs.user r hr
    exact ⟨u, Store.mem_users_addUser hu, huser⟩

theorem push (hs : s.Sourced C) {e : Authenticated C} {u : User} {now : ℤ}
    (huser : s.userByKey e.inner.header.key = some u) :
    (s.push (s.newRow e u.userId now)).Sourced C := by
  constructor
  · exact hs.userIds
  · exact hs.keys
  · intro r hr
    obtain ⟨r', hr', rfl⟩ := Store.mem_push.mp hr
    rw [Row.connectGapParent_body, Row.connectGapParent_hash, Row.connectGapParent_nonce]
    apply hr'.elim (hs.body r')
    intro h
    rw [h]
    exact ⟨e, rfl, rfl, rfl⟩
  · intro r hr
    obtain ⟨r', hr', rfl⟩ := Store.mem_push.mp hr
    rw [Row.connectGapParent_userId, Row.key, Row.connectGapParent_body]
    apply hr'.elim (hs.user r')
    intro h
    rw [h]
    obtain ⟨hu, hkey⟩ := Store.userByKey_some huser
    exact ⟨u, hu, rfl, hkey⟩

theorem connectAll (hs : s.Sourced C) : s.connectAll.Sourced C := by
  constructor
  · exact hs.userIds
  · exact hs.keys
  · intro r hr
    obtain ⟨r', hr', rfl⟩ := Store.mem_connectAll.mp hr
    rw [Row.connect_body, Row.connect_hash, Row.connect_nonce]
    exact hs.body r' hr'
  · intro r hr
    obtain ⟨r', hr', rfl⟩ := Store.mem_connectAll.mp hr
    rw [Row.connect_userId, Row.key, Row.connect_body]
    exact hs.user r' hr'

theorem occurs {ev : StoreEvent C} (hs : s.Sourced C) (h : s.Occurs ev s') : s'.Sourced C := by
  cases h with
  | user => exact hs.addUser _ _
  | envelope huser _ _ => exact hs.push huser
  | connect _ => exact hs.connectAll

theorem hash_eq (hs : s.Sourced C) (hr : r ∈ s.messages) :
    r.hash = C.canonicalizedHash r.body := by
  obtain ⟨e, hbody, hhash, _⟩ := hs.body r hr
  rw [hbody, hhash]

theorem authentic (hs : s.Sourced C) (hr : r ∈ s.messages) : r.body.Authentic C := by
  obtain ⟨e, hbody, _⟩ := hs.body r hr
  rw [hbody]
  exact e.authentic

theorem signature_eq (hs : s.Sourced C) (hr : r ∈ s.messages) :
    ∃ sig, r.body.header.unsigned.signature = some sig ∧ r.nonce = sig.r := by
  obtain ⟨e, hbody, _, hnonce⟩ := hs.body r hr
  exact ⟨e.signature, by rw [hbody, e.signature_eq], hnonce⟩

theorem genesis_eq (hs : s.Sourced C) (hr : r ∈ s.messages) :
    r.genesis = r.body.getGenesisHash C := by
  unfold Row.genesis Envelope.getGenesisHash
  cases r.body.header.ancestors with
  | none => exact hs.hash_eq hr
  | some a => rfl

theorem userId_eq_iff (hs : s.Sourced C) (hr : r ∈ s.messages) (hr' : r' ∈ s.messages) :
    r.userId = r'.userId ↔ r.key = r'.key := by
  obtain ⟨u, hu, hid, hkey⟩ := hs.user r hr
  obtain ⟨u', hu', hid', hkey'⟩ := hs.user r' hr'
  rw [← hid, ← hid', ← hkey, ← hkey']
  constructor
  · intro h
    have hnodup : (s.users.map User.userId).Nodup := by
      rw [hs.userIds]
      exact List.nodup_range'
    rw [List.inj_on_of_nodup_map hnodup hu hu' h]
  · intro h
    rw [List.inj_on_of_nodup_map hs.keys hu hu' h]

/-- A row belongs to the user of a key exactly when its envelope has this key. -/
theorem userByKey_eq_iff {key : XOnlyPublicKey} (hs : s.Sourced C) (hr : r ∈ s.messages) :
    (s.userByKey key).map User.userId = some r.userId ↔ r.key = key := by
  obtain ⟨u, hu, hid, hkey⟩ := hs.user r hr
  constructor
  · intro h
    obtain ⟨u', hu', hid'⟩ := Option.map_eq_some_iff.mp h
    obtain ⟨hmem, hkey'⟩ := Store.userByKey_some hu'
    have hnodup : (s.users.map User.userId).Nodup := by
      rw [hs.userIds]
      exact List.nodup_range'
    rw [← hkey, List.inj_on_of_nodup_map hnodup hu hmem (hid.trans hid'.symm), hkey']
  · intro h
    cases hfind : s.userByKey key with
    | none =>
      have hnone := List.find?_eq_none.mp hfind u hu
      simp [hkey, h] at hnone
    | some u' =>
      obtain ⟨hmem, hkey'⟩ := Store.userByKey_some hfind
      have hsame : u'.key = u.key := by rw [hkey', hkey, h]
      rw [Option.map_some, List.inj_on_of_nodup_map hs.keys hmem hu hsame, hid]

end Store.Sourced

theorem Store.Reachable.sourced (h : Store.Reachable C s) : s.Sourced C :=
  h.invariant .empty fun _ _ _ hs => hs.occurs

end JudicaVM
