import JudicaVM.Host.Log

/-!
# Publishing a batch

A batch is stored as the child of the last row of the host's chain.
-/

namespace JudicaVM

section

variable {J : Type} {C : Crypto J} {S : Signer C} {K : BroadcastCodec J} {s s' : Store J}
  {r tip : Row J} {p : Publication J} {batch : List CanonicalEnvelopeHash}
  {published : List (List CanonicalEnvelopeHash)}

namespace Signer

@[simp] theorem batchEnvelope_key : (S.batchEnvelope K p batch).header.key = S.key := rfl

@[simp] theorem batchEnvelope_height :
    (S.batchEnvelope K p batch).header.height = p.tip.height + 1 := rfl

@[simp] theorem batchEnvelope_prevMsg :
    (S.batchEnvelope K p batch).prevMsg = C.canonicalizedHash p.tip.body := rfl

@[simp] theorem batchEnvelope_getGenesisHash :
    (S.batchEnvelope K p batch).getGenesisHash C = p.tip.body.getGenesisHash C := rfl

@[simp] theorem batchEnvelope_msg :
    (S.batchEnvelope K p batch).msg = K.encode ⟨.sequence batch, "default"⟩ := rfl

end Signer

private theorem tryInsert_ok {e : Authenticated C} {reuseSafe : Bool} {now : ℤ}
    (h : s.tryInsertAuthenticatedEnvelope e reuseSafe now = (.ok (), s')) :
    ∃ user, s.userByKey e.inner.header.key = some user ∧
      (s.newRow e user.userId now).passesChecks ∧
      s.rowByHash (C.canonicalizedHash e.inner) = none ∧
      s' = s.push (s.newRow e user.userId now) := by
  have htxn : s.tryInsertAuthenticatedEnvelopeWithTxn e now = (.ok (), s') := by
    unfold Store.tryInsertAuthenticatedEnvelope at h
    split at h
    · split_ifs at h
      · cases h
      · exact h
    · exact h
  unfold Store.tryInsertAuthenticatedEnvelopeWithTxn at htxn
  cases huser : s.userByKey e.inner.header.key with
  | none => simp [huser] at htxn
  | some user =>
    simp only [huser] at htxn
    split_ifs at htxn with hchecks hstored
    · cases htxn
    · refine ⟨user, rfl, hchecks, ?_, ?_⟩
      · simpa [Store.newRow] using hstored
      · exact (Prod.mk.inj htxn).2.symm
    · cases htxn

namespace Store.Log

theorem tip_spec (h : s.Log C K S.key published) (hs : s.Ready C S.key)
    (htip : s.IsTip S.key tip) :
    tip ∈ s.messages ∧ tip.key = S.key ∧ tip.height = published.length := by
  obtain ⟨hmem, _, huser, hmax⟩ := htip
  have hkey := (hs.sourced.userByKey_eq_iff hmem).mp huser
  refine ⟨hmem, hkey, ?_⟩
  have hheight (r : Row J) (hr : r ∈ s.messages) (hkey : r.key = S.key) :
      r.height ∈ heightsFrom 0 (published.length + 1) := by
    rw [← h.heights, own_eq, List.map_map]
    apply List.mem_map.mpr
    exact ⟨r, List.mem_filter.mpr ⟨hr, decide_eq_true hkey⟩, rfl⟩
  have hle := (mem_heightsFrom.mp (hheight tip hmem hkey)).2
  have hlast : (published.length : ℤ) ∈ heightsFrom 0 (published.length + 1) :=
    mem_heightsFrom.mpr ⟨by omega, by omega⟩
  rw [← h.heights, own_eq, List.map_map] at hlast
  obtain ⟨r, hr, hrheight⟩ := List.mem_map.mp hlast
  obtain ⟨hr, hrkey⟩ := List.mem_filter.mp hr
  have hrkey : r.key = S.key := of_decide_eq_true hrkey
  have hge := hmax r hr (h.connected r hr hrkey)
    ((hs.sourced.userId_eq_iff hr hmem).mpr (hrkey.trans hkey.symm))
  have hrheight : r.height = published.length := hrheight
  omega

/-- Publishing a batch extends the chain of the host and leaves the selection as it was. -/
theorem publish (h : s.Log C K S.key published) (hs : s.Ready C S.key)
    (htip : s.IsTip S.key p.tip) (hbatch : ∀ hash ∈ batch, hash.digest < 2 ^ 256)
    (hpublish : S.publish K s p batch = some (.ok (), s')) :
    s'.Ready C S.key ∧ s'.Log C K S.key (published ++ [batch]) ∧ s.SameGroups S.key s' ∧
      s.contents <+: s'.contents ∧ s.SteadyUpTo S.key s.messages.length s' := by
  obtain ⟨hmem, hkey, hheight⟩ := h.tip_spec hs htip
  obtain ⟨e, hauth, hinsert⟩ := Option.map_eq_some_iff.mp hpublish
  have he := Writers.authenticate_eq hauth
  obtain ⟨user, huser, hchecks, hnew, rfl⟩ := tryInsert_ok hinsert
  generalize hrow : s.newRow e user.userId p.now = row at hchecks
  have hbody : row.body = S.batchEnvelope K p batch := by
    rw [← hrow]
    exact he
  have hrowkey : row.key = S.key := by rw [Row.key, hbody, Signer.batchEnvelope_key]
  have hrowheight : row.height = published.length + 1 := by
    rw [Row.height, hbody, Signer.batchEnvelope_height, hheight]
  have h0 : row.height ≠ 0 := by omega
  have hsteady : s.SteadyUpTo S.key s.messages.length (s.push row) := by
    apply steadyUpTo_push _ fun _ => h0
    rw [← hrow]
    exact Nat.lt_succ_self _
  obtain ⟨ms, hms, hbatches⟩ := h.decodes
  have hown : (s.push row).own S.key =
      s.own S.key ++ if row.key = S.key then [(row.hash, row.body)] else [] := own_push
  rw [if_pos hrowkey] at hown
  refine ⟨?_, ?_, .push fun _ => h0, ?_, hsteady⟩
  · rw [← hrow] at hchecks ⊢
    apply hs.push huser hchecks hnew
    intro hne
    rw [he] at hne
    exact absurd rfl hne
  · constructor
    · have hlength : ((published ++ [batch]).length : ℤ) = published.length + 1 := by simp
      rw [hown, List.map_append, h.heights, hlength,
        heightsFrom_succ (b := (published.length : ℤ) + 1) (by omega)]
      congr 1
      exact congrArg (fun k => [k]) hrowheight
    · refine ⟨ms ++ [⟨.sequence batch, "default"⟩], ?_, ?_⟩
      · rw [hown, List.map_append, hms, List.map_append, List.map_singleton, List.map_singleton,
          hbody, Signer.batchEnvelope_msg, K.decode_encode batch hbatch]
      · rw [List.filterMap_append, hbatches]
        rfl
    · intro r hr hrkey
      obtain ⟨r', hr', rfl⟩ := mem_push.mp hr
      rw [Row.key, Row.connectGapParent_body] at hrkey
      rw [Row.connectGapParent_connected]
      rcases hr' with hold | rfl
      · exact h.connected r' hold hrkey
      · rw [← hrow]
        apply (Linked.newRow_connected_iff e user.userId p.now).mpr
        refine .inr ⟨p.tip, hmem, ?_, htip.2.1⟩
        rw [he, Signer.batchEnvelope_prevMsg, hs.sourced.hash_eq hmem]
    · apply h.links_push
      intro _ g hg hgkey hall
      have hgenesis : row.body.getGenesisHash C = g.hash := by
        rw [hbody, Signer.batchEnvelope_getGenesisHash]
        exact hall p.tip hmem hkey
      refine ⟨hgenesis, fun _ => ?_⟩
      have hlink : row.genesisId = s.idByHash (row.body.getGenesisHash C) := by rw [← hrow]; rfl
      rw [hlink, hgenesis, hs.linked.idByHash_hash hg]
  · rw [contents_push]
    exact List.prefix_append _ _

end Store.Log

end

end JudicaVM
