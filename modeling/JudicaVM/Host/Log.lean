import JudicaVM.Host.Growth

/-!
# The chain of the host

The host writes its batches upon its genesis, so that its connected chain is read back as the batches
that were published.
-/

namespace JudicaVM

section

variable {J : Type} {C : Crypto J} {S : Signer C} {K : BroadcastCodec J} {s s' : Store J}
  {r row : Row J} {e : Envelope J} {key : XOnlyPublicKey}
  {published : List (List CanonicalEnvelopeHash)}

namespace Store

theorem own_eq : s.own key = (s.messages.filter (·.key = key)).map fun r => (r.hash, r.body) := by
  rw [own, contents, List.filter_map]
  rfl

/-- The chain of the host: a genesis and the batches that were published. -/
structure Log (C : Crypto J) (K : BroadcastCodec J) (key : XOnlyPublicKey)
    (published : List (List CanonicalEnvelopeHash)) (s : Store J) : Prop where
  heights : (s.own key).map (fun c => c.2.header.height) = heightsFrom 0 (published.length + 1)
  decodes : ∃ ms : List (Channelized BroadcastByHost),
    (s.own key).map (fun c => K.decode c.2.msg) = ms.map some ∧
      ms.filterMap (fun m => m.data.batch?) = published
  connected : ∀ r ∈ s.messages, r.key = key → r.connected
  links : ∃ g ∈ s.messages, g.key = key ∧ ∀ r ∈ s.messages, r.key = key →
    r.body.getGenesisHash C = g.hash ∧ (r.height ≠ 0 → r.genesisId = some g.messageId)

namespace Log

private theorem addUser (h : s.Log C K key published) (nickname : String) (key' : XOnlyPublicKey) :
    (s.addUser nickname key').Log C K key published := by
  obtain ⟨heights, decodes, connected, links⟩ := h
  constructor
  · simpa [own] using heights
  · simpa [own] using decodes
  · simpa using connected
  · simpa using links

theorem own_push : (s.push row).own key =
    s.own key ++ if row.key = key then [(row.hash, row.body)] else [] := by
  rw [own, contents_push, List.filter_append, ← own]
  congr 1
  unfold Row.key
  split_ifs with hkey
  · simp [hkey]
  · simp [hkey]

theorem links_push (h : s.Log C K key published) (hrow : row.key = key →
    ∀ g ∈ s.messages, g.key = key → (∀ r ∈ s.messages, r.key = key →
      r.body.getGenesisHash C = g.hash) → row.body.getGenesisHash C = g.hash ∧
        (row.height ≠ 0 → row.genesisId = some g.messageId)) :
    ∃ g ∈ (s.push row).messages, g.key = key ∧ ∀ r ∈ (s.push row).messages, r.key = key →
      r.body.getGenesisHash C = g.hash ∧ (r.height ≠ 0 → r.genesisId = some g.messageId) := by
  obtain ⟨g, hg, hkey, hall⟩ := h.links
  refine ⟨_, mem_push.mpr ⟨g, .inl hg, rfl⟩, ?_, ?_⟩
  · rw [Row.key, Row.connectGapParent_body]
    exact hkey
  · intro r hr hr'
    obtain ⟨r, hmem, rfl⟩ := mem_push.mp hr
    rw [Row.key, Row.connectGapParent_body] at hr'
    rw [Row.connectGapParent_body, Row.connectGapParent_hash, Row.connectGapParent_height,
      Row.connectGapParent_genesisId, Row.connectGapParent_messageId]
    rcases hmem with hold | rfl
    · exact hall r hold hr'
    · exact hrow hr' g hg hkey fun r hr hkey => (hall r hr hkey).1

private theorem push_other (h : s.Log C K key published) (hrow : row.key ≠ key) :
    (s.push row).Log C K key published := by
  have hown : (s.push row).own key = s.own key := by
    rw [own_push, if_neg hrow, List.append_nil]
  constructor
  · rw [hown]
    exact h.heights
  · rw [hown]
    exact h.decodes
  · intro r hr hkey
    obtain ⟨r, hmem, rfl⟩ := mem_push.mp hr
    rw [Row.key, Row.connectGapParent_body] at hkey
    rw [Row.connectGapParent_connected]
    rcases hmem with hold | rfl
    · exact h.connected r hold hkey
    · exact absurd hkey hrow
  · exact h.links_push fun hkey => absurd hkey hrow

private theorem connectAll (h : s.Log C K key published) (hs : s.Linked) (hzero : s.ZeroFree) :
    s.connectAll.Log C K key published := by
  have hown : s.connectAll.own key = s.own key := by rw [own, contents_connectAll, ← own]
  -- the rows of the host are connected already
  have hrows : ∀ r ∈ s.messages, r.key = key → r.connect s.updatable = r :=
    fun r hr hkey => hs.connect_of_connected hzero hr (h.connected r hr hkey)
  have hrow : ∀ r ∈ s.connectAll.messages, r.key = key → r ∈ s.messages := by
    intro r hr hkey
    obtain ⟨r', hr', rfl⟩ := mem_connectAll.mp hr
    rw [Row.key, Row.connect_body] at hkey
    rwa [hrows r' hr' hkey]
  constructor
  · rw [hown]
    exact h.heights
  · rw [hown]
    exact h.decodes
  · exact fun r hr hkey => h.connected r (hrow r hr hkey) hkey
  · obtain ⟨g, hg, hkey, hall⟩ := h.links
    refine ⟨g, mem_connectAll.mpr ⟨g, hg, hrows g hg hkey⟩, hkey, ?_⟩
    exact fun r hr hr' => hall r (hrow r hr hr') hr'

theorem apply (h : s.Log C K key published) (hs : s.Ready C key)
    (hzero : ∀ e, C.canonicalizedHash e ≠ .genesis) {op : StoreOp C} (hop : op.ByOthers key) :
    (s.apply op).Log C K key published := by
  apply apply_preserves (I := fun s' => s'.Log C K key published) op h
  · exact fun nickname e _ => h.addUser nickname e.inner.header.key
  · intro s₁ e user now s' hs₁ _ he hocc
    cases hocc with
    | envelope _ _ _ => exact hs₁.push_other (hop e he).1
  · intro s' hocc
    cases hocc with
    | connect _ => exact h.connectAll hs.linked (hs.sourced.zeroFree hzero)

private theorem load_eq (h : s.Log C K key published) (hs : s.Sourced C) :
    s.loadAllMessagesForUserByKeyConnected key = s.messages.filter (·.key = key) := by
  have hfilter : (s.messages.filter fun r =>
      (s.userByKey key).map User.userId = some r.userId && r.connected) =
        s.messages.filter (·.key = key) := by
    apply List.filter_congr
    intro r hr
    by_cases hkey : r.key = key
    · simp [hs.userByKey_eq_iff hr, hkey, h.connected r hr hkey]
    · simp [hs.userByKey_eq_iff hr, hkey]
  rw [loadAllMessagesForUserByKeyConnected, hfilter]
  apply List.Pairwise.insertionSort_eq
  have hheights := h.heights
  rw [own_eq, List.map_map] at hheights
  have hsorted := heightsFrom_sorted 0 (published.length + 1)
  rw [← hheights, List.pairwise_map] at hsorted
  exact hsorted.imp le_of_lt

private theorem mapM_decode {rs : List (Row J)} {ms : List (Channelized BroadcastByHost)}
    (h : rs.map (fun r => K.decode r.body.msg) = ms.map some) :
    ∃ v : List (Envelope (Channelized BroadcastByHost)),
      (rs.mapM fun r => (K.decode r.body.msg).map fun msg =>
        (⟨r.body.header, msg⟩ : Envelope _)) = some v ∧
      v.map Envelope.header = rs.map (fun r => r.body.header) ∧ v.map Envelope.msg = ms := by
  induction rs generalizing ms with
  | nil =>
    rw [List.map_nil, eq_comm, List.map_eq_nil_iff] at h
    exact ⟨[], rfl, rfl, h.symm⟩
  | cons r rs ih =>
    obtain ⟨m, rest, rfl, hm, hrest⟩ := List.map_eq_cons_iff.mp h.symm
    obtain ⟨v, hv, hheaders, hmsgs⟩ := ih hrest.symm
    refine ⟨⟨r.body.header, m⟩ :: v, ?_, by simp [hheaders], by simp [hmsgs]⟩
    have hdecode : K.decode r.body.msg = some m := hm.symm
    rw [List.mapM_cons, hdecode, hv]
    rfl

private theorem heightsFrom_isChain (a b : ℤ) : (heightsFrom a b).IsChain fun x y => x + 1 = y := by
  rw [heightsFrom, List.isChain_map, List.isChain_range]
  intro m _
  rw [Nat.cast_succ, add_assoc]

theorem alreadySequenced_eq (h : s.Log C K key published) (hs : s.Sourced C) :
    s.alreadySequenced K key = some published.flatten := by
  obtain ⟨ms, hms, hbatches⟩ := h.decodes
  rw [own_eq, List.map_map] at hms
  obtain ⟨v, hv, hheaders, hmsgs⟩ := mapM_decode hms
  have hheights : v.map (fun e => e.header.height) = heightsFrom 0 (published.length + 1) := by
    rw [← h.heights, own_eq, List.map_map]
    have hheights := congrArg (List.map Header.height) hheaders
    rwa [List.map_map, List.map_map] at hheights
  have hkeys : ∀ e ∈ v, e.header.key = key := by
    intro e he
    have hmem : e.header ∈ v.map Envelope.header := List.mem_map_of_mem he
    rw [hheaders] at hmem
    obtain ⟨r, hr, hheader⟩ := List.mem_map.mp hmem
    rw [← hheader]
    exact of_decide_eq_true (List.mem_filter.mp hr).2
  have hread : OfflineSequencer.tryFrom ⟨v, ([] : List (CanonicalEnvelopeHash × Envelope J))⟩ =
      .ok ⟨v.filterMap fun e => e.msg.data.batch?, []⟩ := by
    apply OfflineSequencer.tryFrom_eq
    · intro e he
      have hhead := congrArg List.head? hheights
      have hzero : (heightsFrom 0 (published.length + 1)).head? = some 0 := by
        simp [heightsFrom, List.head?_range]
      rw [hzero, List.head?_map, he, Option.map_some] at hhead
      exact Option.some.inj hhead
    · have hchain := heightsFrom_isChain 0 (published.length + 1)
      rwa [← hheights, List.isChain_map] at hchain
    · apply List.Pairwise.isChain
      apply List.pairwise_of_forall_mem_list
      intro a ha b hb
      rw [hkeys a ha, hkeys b hb]
  have hpublished : v.filterMap (fun e => e.msg.data.batch?) = published := by
    rw [← hbatches, ← hmsgs, List.filterMap_map]
    rfl
  rw [alreadySequenced, h.load_eq hs, hv]
  simp only [Option.bind_eq_bind, Option.bind_some, hread, hpublished]

end Log
end Store

end

end JudicaVM
