import JudicaVM.Attest.Extraction

/-!
# The extractor of discrete logarithms

One pass of the extractor takes the reused nonces of the database by key, and tries the last two
envelopes of every key that it does not know yet. The nonces of the two need not agree.
-/

namespace JudicaVM

open Checked Members

section

variable {M : Type} {C : Crypto M} (K : Curve C)

/-- A call of `extract_sk_from_envelopes` that returned. -/
structure ExtractCall (M : Type) where
  key : XOnlyPublicKey
  e1 : Envelope M
  e2 : Envelope M
  result : Option ℕ

/-- The known keys, the discovered logarithms in the event log, each under its own tag, and the
calls of the pass. -/
structure DlogExtractor (M : Type) where
  known : List XOnlyPublicKey
  evlog : List (XOnlyPublicKey × ℕ)
  calls : List (ExtractCall M)

inductive DlogFail
  | invariantBroken
  | panic (p : Panic)

namespace DlogExtractor

variable (st : DlogExtractor M)

/-- A tag that is taken already is not inserted again. -/
def insertNewOccurrence (key : XOnlyPublicKey) (dlogDiscovered : ℕ) :
    List (XOnlyPublicKey × ℕ) :=
  if st.evlog.any (·.2 = dlogDiscovered) then st.evlog else st.evlog ++ [(key, dlogDiscovered)]

/-- The body of the loop over the reused nonces. -/
def tryKey (k : XOnlyPublicKey) (v : List (Envelope M)) :
    Except DlogFail Unit × DlogExtractor M :=
  match v.getLast?, v.dropLast.getLast? with
  | some e1, some e2 =>
    match K.extractSkFromEnvelopes e1 e2 with
    | .error p => (.error (.panic p), st)
    | .ok none => (.ok (), { st with calls := st.calls ++ [⟨k, e1, e2, none⟩] })
    | .ok (some sk) =>
      (.ok (), ⟨k :: st.known, st.insertNewOccurrence k sk, st.calls ++ [⟨k, e1, e2, some sk⟩]⟩)
  | _, _ => (.error .invariantBroken, st)

def tryKeys : List (XOnlyPublicKey × List (Envelope M)) → DlogExtractor M →
    Except DlogFail Unit × DlogExtractor M
  | [], st => (.ok (), st)
  | (k, v) :: entries, st =>
    match st.tryKey K k v with
    | (.ok (), st') => tryKeys entries st'
    | (.error fail, st') => (.error fail, st')

/-- A pass over the reused nonces, from which the known keys are removed. -/
def pass (reusedNonceMap : List (XOnlyPublicKey × List (Envelope M))) :
    Except DlogFail Unit × DlogExtractor M :=
  tryKeys K (reusedNonceMap.filter fun entry => entry.1 ∉ st.known) st

end DlogExtractor

/-- The entries of the hash map that `get_reused_nonces` builds from its rows, in any order. -/
structure IsReusedNonceMap (rows : List (Row M))
    (entries : List (XOnlyPublicKey × List (Envelope M))) : Prop where
  keys : (entries.map Prod.fst).Nodup
  mem : ∀ k v, (k, v) ∈ entries ↔ v = getReusedNonces rows k ∧ v ≠ []

/-- Two envelopes are extracted that share a nonce, and the secret key is in the event log. -/
def DlogExtractor.Discovers (st : DlogExtractor M) (key : XOnlyPublicKey) : Prop :=
  ∃ call ∈ st.calls, call.key = key ∧
    call.e1.extractUsedNonce K = call.e2.extractUsedNonce K ∧
    ∃ sk, call.result = some sk ∧ K.IsSecretKey key sk ∧ ∃ o ∈ st.evlog, o.2 = sk

/-- The challenge of the signature of a row. -/
def Row.challenge (r : Row M) : ℕ :=
  K.challenge ⟨r.nonce⟩ r.key (r.body.signatureDigestMut C)

/-- Two stored envelopes of a key share their nonce but not their challenge. -/
def Store.Exposed (s : Store M) (key : XOnlyPublicKey) : Prop :=
  ∃ r ∈ s.messages, ∃ r' ∈ s.messages, r.key = key ∧ r'.key = key ∧ r.nonce = r'.nonce ∧
    r.challenge K % field ≠ r'.challenge K % field

/-- Every order of the rows and of the keys leads to the discovery. -/
def Store.AlwaysDiscovers (s : Store M) (st : DlogExtractor M) (key : XOnlyPublicKey) : Prop :=
  ∀ rows entries, rows.Perm s.reusedNonces → IsReusedNonceMap rows entries →
    (st.pass K entries).2.Discovers K key

/-- No two rows that the query returns for a key have one nonce and one challenge. -/
def Store.Separated (s : Store M) (key : XOnlyPublicKey) : Prop :=
  ∀ r ∈ s.reusedNonces, ∀ r' ∈ s.reusedNonces, r ≠ r' → r.key = key → r'.key = key →
    r.nonce = r'.nonce → r.challenge K % field ≠ r'.challenge K % field

/-- The rows that the query returns for a key have one nonce. -/
def Store.OneNonce (s : Store M) (key : XOnlyPublicKey) : Prop :=
  ∀ r ∈ s.reusedNonces, ∀ r' ∈ s.reusedNonces, r.key = key → r'.key = key → r.nonce = r'.nonce

variable {K} {s : Store M} {r r' : Row M} {rows : List (Row M)} {k key : XOnlyPublicKey}
  {st st' : DlogExtractor M} {entries : List (XOnlyPublicKey × List (Envelope M))}

private theorem Store.Sourced.exists_authenticated (hs : s.Sourced C) (hr : r ∈ s.messages) :
    ∃ e : Authenticated C, r.body = e.inner ∧ r.nonce = e.signature.r ∧
      r.challenge K = e.challenge K := by
  obtain ⟨e, hbody, _, hnonce⟩ := hs.body r hr
  refine ⟨e, hbody, hnonce, ?_⟩
  rw [Row.challenge, Authenticated.challenge, Row.key, hbody, hnonce]

private theorem Store.Sourced.extract_of_nonce_ne (hs : s.Sourced C) (hr : r ∈ s.messages)
    (hr' : r' ∈ s.messages) (hnonce : r.nonce ≠ r'.nonce) :
    K.extractSkFromEnvelopes r.body r'.body = .ok none := by
  obtain ⟨e, hbody, he, _⟩ := hs.exists_authenticated (K := K) hr
  obtain ⟨e', hbody', he', _⟩ := hs.exists_authenticated (K := K) hr'
  rw [hbody, hbody']
  apply JudicaVM.extract_of_nonce_ne
  rwa [← he, ← he']

private theorem Store.Sourced.extract_of_challenge_eq (hs : s.Sourced C) (hr : r ∈ s.messages)
    (hr' : r' ∈ s.messages) (hkey : r.key = r'.key) (hnonce : r.nonce = r'.nonce)
    (hchallenge : r.challenge K % field = r'.challenge K % field) :
    ∃ p, K.extractSkFromEnvelopes r.body r'.body = .error p := by
  obtain ⟨e, hbody, he, hc⟩ := hs.exists_authenticated (K := K) hr
  obtain ⟨e', hbody', he', hc'⟩ := hs.exists_authenticated (K := K) hr'
  rw [Row.key, Row.key, hbody, hbody'] at hkey
  rw [hbody, hbody']
  apply JudicaVM.extract_of_challenge_eq hkey
  · rw [← he, ← he', hnonce]
  · rw [← hc, ← hc', hchallenge]

private theorem Store.Sourced.extract_of_challenge_ne (hs : s.Sourced C) (hr : r ∈ s.messages)
    (hr' : r' ∈ s.messages) (hkey : r.key = r'.key) (hnonce : r.nonce = r'.nonce)
    (hchallenge : r.challenge K % field ≠ r'.challenge K % field) :
    r.body.extractUsedNonce K = r'.body.extractUsedNonce K ∧
    ∃ sk, K.extractSkFromEnvelopes r.body r'.body = .ok (some sk) ∧ K.IsSecretKey r.key sk := by
  obtain ⟨e, hbody, he, hc⟩ := hs.exists_authenticated (K := K) hr
  obtain ⟨e', hbody', he', hc'⟩ := hs.exists_authenticated (K := K) hr'
  rw [Row.key, Row.key, hbody, hbody'] at hkey
  rw [Row.key, hbody, hbody']
  constructor
  · rw [e.extractUsedNonce_eq, e'.extractUsedNonce_eq, ← he, ← he', hnonce]
  · apply JudicaVM.extract_of_challenge_ne hkey
    · rw [← he, ← he', hnonce]
    · rwa [← hc, ← hc']

private theorem Store.Linked.nodup_messages (hs : s.Linked) : s.messages.Nodup :=
  List.Nodup.of_map _ hs.hashes

private theorem Store.Sourced.exists_partner (hs : s.Sourced C) (hlinked : s.Linked)
    (hr : r ∈ s.reusedNonces) : ∃ r' ∈ s.reusedNonces, r' ≠ r ∧ r'.key = r.key := by
  obtain ⟨hmem, hcount⟩ := List.mem_filter.mp hr
  have hcount := of_decide_eq_true hcount
  rw [List.countP_eq_length_filter] at hcount
  obtain ⟨r', hr', hne⟩ := exists_ne_of_one_lt (hlinked.nodup_messages.filter _) hcount r
  obtain ⟨hmem', hsame⟩ := List.mem_filter.mp hr'
  rw [Bool.and_eq_true, decide_eq_true_eq, decide_eq_true_eq] at hsame
  have hkey := (hs.userId_eq_iff hmem' hmem).mp hsame.2
  exact ⟨r', hs.mem_reusedNonces hmem' hmem hne hkey hsame.1, hne, hkey⟩

private theorem Store.Sourced.exists_pair (hs : s.Sourced C) (hlinked : s.Linked)
    (hrows : rows.Perm s.reusedNonces) (hv : getReusedNonces rows k ≠ []) :
    ∃ r ∈ s.reusedNonces, ∃ r' ∈ s.reusedNonces, r ≠ r' ∧ r.key = k ∧ r'.key = k ∧
      ∃ t, getReusedNonces rows k = t ++ [r'.body, r.body] := by
  have hmem : ∀ r, r ∈ rows.filter (·.key = k) ↔ r ∈ s.reusedNonces ∧ r.key = k := by
    intro r
    rw [List.mem_filter, hrows.mem_iff, decide_eq_true_eq]
  have hnodup : (rows.filter (·.key = k)).Nodup :=
    (hrows.nodup_iff.mpr (hlinked.nodup_messages.filter _)).filter _
  obtain ⟨x, hx⟩ := List.exists_mem_of_ne_nil _ hv
  obtain ⟨r, hr, _⟩ := List.mem_map.mp hx
  obtain ⟨r', hr', hne, hkey⟩ := hs.exists_partner hlinked ((hmem r).mp hr).1
  have hr'' := (hmem r').mpr ⟨hr', hkey.trans ((hmem r).mp hr).2⟩
  have hlength : 1 < (rows.filter (·.key = k)).length := by
    have hcount := one_lt_countP (p := fun _ => true) hr hr'' (Ne.symm hne) rfl rfl
    rwa [List.countP_true] at hcount
  obtain ⟨t, a, b, ht⟩ := exists_last_two hlength
  have ha := (hmem a).mp (by simp [ht])
  have hb := (hmem b).mp (by simp [ht])
  have hab : b ≠ a := by
    rw [ht] at hnodup
    have hlast := (List.nodup_append.mp hnodup).2.1
    exact Ne.symm (by simpa using hlast)
  refine ⟨b, hb.1, a, ha.1, hab, hb.2, ha.2, t.map Row.body, ?_⟩
  rw [getReusedNonces, ht]
  simp

private theorem Store.mem_messages_of_reused (hr : r ∈ s.reusedNonces) : r ∈ s.messages :=
  (List.mem_filter.mp hr).1

namespace DlogExtractor

private theorem tryKey_eq (st : DlogExtractor M) (k : XOnlyPublicKey) (t : List (Envelope M))
    (e1 e2 : Envelope M) :
    st.tryKey K k (t ++ [e2, e1]) = match K.extractSkFromEnvelopes e1 e2 with
      | .error p => (.error (.panic p), st)
      | .ok none => (.ok (), { st with calls := st.calls ++ [⟨k, e1, e2, none⟩] })
      | .ok (some sk) =>
        (.ok (), ⟨k :: st.known, st.insertNewOccurrence k sk,
          st.calls ++ [⟨k, e1, e2, some sk⟩]⟩) := by
  simp [tryKey]

/-- What was called and logged before stays. -/
structure Extends (st st' : DlogExtractor M) : Prop where
  calls : st.calls ⊆ st'.calls
  evlog : st.evlog ⊆ st'.evlog

private theorem Extends.refl : st.Extends st :=
  ⟨List.Subset.refl _, List.Subset.refl _⟩

private theorem Extends.trans {st'' : DlogExtractor M} (h : st.Extends st')
    (h' : st'.Extends st'') : st.Extends st'' :=
  ⟨List.Subset.trans h.calls h'.calls, List.Subset.trans h.evlog h'.evlog⟩

private theorem insertNewOccurrence_subset (k : XOnlyPublicKey) (sk : ℕ) :
    st.evlog ⊆ st.insertNewOccurrence k sk := by
  unfold insertNewOccurrence
  split
  · exact List.Subset.refl _
  · exact List.subset_append_left _ _

private theorem mem_insertNewOccurrence (k : XOnlyPublicKey) (sk : ℕ) :
    ∃ o ∈ st.insertNewOccurrence k sk, o.2 = sk := by
  unfold insertNewOccurrence
  split
  · rename_i h
    simpa using h
  · exact ⟨(k, sk), by simp, rfl⟩

private theorem tryKey_spec (v : List (Envelope M)) :
    st.Extends (st.tryKey K k v).2 ∧
      ∀ call ∈ (st.tryKey K k v).2.calls, call ∈ st.calls ∨ call.key = k := by
  unfold tryKey
  split
  · split
    · exact ⟨.refl, fun call hcall => .inl hcall⟩
    · refine ⟨⟨List.subset_append_left _ _, List.Subset.refl _⟩, fun call hcall => ?_⟩
      rw [List.mem_append, List.mem_singleton] at hcall
      exact hcall.imp id fun h => by rw [h]
    · refine ⟨⟨List.subset_append_left _ _, insertNewOccurrence_subset _ _⟩,
        fun call hcall => ?_⟩
      rw [List.mem_append, List.mem_singleton] at hcall
      exact hcall.imp id fun h => by rw [h]
  · exact ⟨.refl, fun call hcall => .inl hcall⟩

private theorem tryKeys_spec :
    st.Extends (tryKeys K entries st).2 ∧
      ∀ call ∈ (tryKeys K entries st).2.calls, call ∈ st.calls ∨
        call.key ∈ entries.map Prod.fst := by
  induction entries generalizing st with
  | nil => exact ⟨.refl, fun call hcall => .inl hcall⟩
  | cons entry entries ih =>
    have hstep : st.Extends (st.tryKey K entry.1 entry.2).2 ∧
        ∀ call ∈ (st.tryKey K entry.1 entry.2).2.calls, call ∈ st.calls ∨ call.key = entry.1 :=
      tryKey_spec entry.2
    rw [tryKeys]
    generalize st.tryKey K entry.1 entry.2 = result at hstep
    cases result with
    | mk outcome st' =>
      cases outcome with
      | error fail =>
        refine ⟨hstep.1, fun call hcall => ?_⟩
        apply (hstep.2 call hcall).imp id
        intro h
        simp [h]
      | ok u =>
        refine ⟨hstep.1.trans ih.1, fun call hcall => ?_⟩
        apply (ih.2 call hcall).elim
        · intro h
          apply (hstep.2 call h).imp id
          intro h
          simp [h]
        · exact fun h => .inr (List.mem_cons_of_mem _ h)

private theorem pass_cons (hknown : k ∉ st.known) (v : List (Envelope M)) :
    st.pass K ((k, v) :: entries) =
      tryKeys K ((k, v) :: entries.filter fun entry => entry.1 ∉ st.known) st := by
  rw [pass, List.filter_cons_of_pos (by simpa using hknown)]

/-- The entries whose last envelopes are extracted without a panic. -/
def Extractable (K : Curve C) (v : List (Envelope M)) : Prop :=
  ∃ t e1 e2 o, v = t ++ [e2, e1] ∧ K.extractSkFromEnvelopes e1 e2 = .ok o

private theorem tryKey_ok {v : List (Envelope M)} (h : Extractable K v) :
    ∃ st', st.tryKey K k v = (.ok (), st') := by
  obtain ⟨t, e1, e2, o, rfl, ho⟩ := h
  rw [tryKey_eq, ho]
  cases o with
  | none => exact ⟨_, rfl⟩
  | some sk => exact ⟨_, rfl⟩

private theorem tryKeys_discovers (st : DlogExtractor M)
    (hall : ∀ entry ∈ entries, Extractable K entry.2) {e1 e2 : Envelope M} {t : List (Envelope M)}
    {sk : ℕ} (hmem : (key, t ++ [e2, e1]) ∈ entries)
    (hextract : K.extractSkFromEnvelopes e1 e2 = .ok (some sk)) :
    (⟨key, e1, e2, some sk⟩ : ExtractCall M) ∈ (tryKeys K entries st).2.calls ∧
      ∃ o ∈ (tryKeys K entries st).2.evlog, o.2 = sk := by
  induction entries generalizing st with
  | nil => cases hmem
  | cons entry entries ih =>
    obtain ⟨st', hstep⟩ : ∃ st', st.tryKey K entry.1 entry.2 = (.ok (), st') :=
      tryKey_ok (hall entry List.mem_cons_self)
    rw [tryKeys, hstep]
    cases List.mem_cons.mp hmem with
    | inl heq =>
      subst heq
      rw [tryKey_eq, hextract] at hstep
      obtain ⟨_, rfl⟩ := Prod.mk.inj hstep
      obtain ⟨o, ho, hsk⟩ : ∃ o ∈ st.insertNewOccurrence key sk, o.2 = sk :=
        mem_insertNewOccurrence key sk
      have hspec := fun st : DlogExtractor M => (tryKeys_spec : st.Extends (tryKeys K entries st).2 ∧ _).1
      have hrest := hspec ⟨key :: st.known, st.insertNewOccurrence key sk,
        st.calls ++ [⟨key, e1, e2, some sk⟩]⟩
      exact ⟨hrest.calls (by simp), o, hrest.evlog ho, hsk⟩
    | inr hmem =>
      exact ih _ (fun entry' h => hall entry' (List.mem_cons_of_mem _ h)) hmem

end DlogExtractor

private theorem exists_map_first (rows : List (Row M)) (hk : getReusedNonces rows k ≠ []) :
    ∃ entries, IsReusedNonceMap rows ((k, getReusedNonces rows k) :: entries) := by
  have hkeys : ∀ k, k ∈ rows.map Row.key ↔ getReusedNonces rows k ≠ [] := by
    intro k
    simp [getReusedNonces, List.filter_eq_nil_iff]
  refine ⟨(((rows.map Row.key).dedup).erase k).map fun k => (k, getReusedNonces rows k), ?_, ?_⟩
  · rw [List.map_cons, List.map_map]
    have hid : (Prod.fst ∘ fun k => (k, getReusedNonces rows k)) = (id : XOnlyPublicKey → _) := rfl
    rw [hid, List.map_id, List.nodup_cons]
    exact ⟨(List.nodup_dedup _).not_mem_erase, (List.nodup_dedup _).erase k⟩
  · intro k' v
    rw [List.mem_cons, List.mem_map]
    constructor
    · intro h
      apply h.elim
      · intro heq
        obtain ⟨rfl, rfl⟩ := Prod.mk.inj heq
        exact ⟨rfl, hk⟩
      · intro hmem
        obtain ⟨k'', hk'', heq⟩ := hmem
        obtain ⟨rfl, rfl⟩ := Prod.mk.inj heq
        exact ⟨rfl, (hkeys _).mp (List.mem_dedup.mp (List.mem_of_mem_erase hk''))⟩
    · intro h
      by_cases hkk : k' = k
      · subst hkk
        exact .inl (by rw [h.1])
      · refine .inr ⟨k', ?_, by rw [h.1]⟩
        rw [List.mem_erase_of_ne hkk, List.mem_dedup, hkeys, ← h.1]
        exact h.2

private theorem exists_rows_last (hr : r ∈ s.reusedNonces) (hr' : r' ∈ s.reusedNonces)
    (hne : r ≠ r') (hk : r.key = k) (hk' : r'.key = k) :
    ∃ rows t, rows.Perm s.reusedNonces ∧ getReusedNonces rows k = t ++ [r'.body, r.body] := by
  obtain ⟨t, ht⟩ := exists_perm_append [r', r] s.reusedNonces (by simpa using Ne.symm hne)
    (by simp [hr, hr'])
  refine ⟨t ++ [r', r], (t.filter (·.key = k)).map Row.body, ?_, ?_⟩
  · exact List.perm_append_comm.trans ht.symm
  · simp [getReusedNonces, hk, hk']

private theorem Store.Sourced.extractable (hs : s.Sourced C) (hlinked : s.Linked)
    (hseparated : s.Separated K k) (hrows : rows.Perm s.reusedNonces)
    (hv : getReusedNonces rows k ≠ []) :
    DlogExtractor.Extractable K (getReusedNonces rows k) := by
  obtain ⟨r, hr, r', hr', hne, hkey, hkey', t, ht⟩ := hs.exists_pair hlinked hrows hv
  have hmem := mem_messages_of_reused hr
  have hmem' := mem_messages_of_reused hr'
  by_cases hnonce : r.nonce = r'.nonce
  · obtain ⟨_, sk, hextract, _⟩ := hs.extract_of_challenge_ne hmem hmem'
      (hkey.trans hkey'.symm) hnonce (hseparated r hr r' hr' hne hkey hkey' hnonce)
    exact ⟨t, _, _, _, ht, hextract⟩
  · exact ⟨t, _, _, _, ht, hs.extract_of_nonce_ne hmem hmem' hnonce⟩

private theorem Store.Sourced.alwaysDiscovers (hs : s.Sourced C) (hlinked : s.Linked)
    (hknown : key ∉ st.known) (hexposed : s.Exposed K key) (hone : s.OneNonce key)
    (hseparated : ∀ k ∉ st.known, s.Separated K k) : s.AlwaysDiscovers K st key := by
  intro rows entries hrows hmap
  have hv : getReusedNonces rows key ≠ [] := by
    obtain ⟨r, hr, r', hr', hkey, hkey', hnonce, hchallenge⟩ := hexposed
    have hne : r ≠ r' := fun h => hchallenge (by rw [h])
    have hmem := hs.mem_getReusedNonces hr hr' hne (hkey.trans hkey'.symm) hnonce hrows
    rw [hkey] at hmem
    exact List.ne_nil_of_mem hmem
  obtain ⟨r, hr, r', hr', hne, hkey, hkey', t, ht⟩ := hs.exists_pair hlinked hrows hv
  have hnonce := hone r hr r' hr' hkey hkey'
  obtain ⟨hused, sk, hextract, hsecret⟩ := hs.extract_of_challenge_ne (K := K)
    (mem_messages_of_reused hr) (mem_messages_of_reused hr') (hkey.trans hkey'.symm) hnonce
    (hseparated key hknown r hr r' hr' hne hkey hkey' hnonce)
  have hentry : (key, t ++ [r'.body, r.body]) ∈
      entries.filter fun entry => entry.1 ∉ st.known := by
    apply List.mem_filter.mpr
    refine ⟨(hmap.mem _ _).mpr ⟨ht.symm, by simp⟩, by simpa using hknown⟩
  have hall : ∀ entry ∈ entries.filter (fun entry => entry.1 ∉ st.known),
      DlogExtractor.Extractable K entry.2 := by
    intro entry hentry
    obtain ⟨hmem, hnew⟩ := List.mem_filter.mp hentry
    obtain ⟨heq, hne⟩ := (hmap.mem entry.1 entry.2).mp hmem
    rw [heq] at hne ⊢
    exact hs.extractable hlinked (hseparated _ (of_decide_eq_true hnew)) hrows hne
  obtain ⟨hcall, hlog⟩ := DlogExtractor.tryKeys_discovers st hall hentry hextract
  rw [hkey] at hsecret
  exact ⟨_, hcall, rfl, hused, sk, rfl, hsecret, hlog⟩

private theorem Store.AlwaysDiscovers.oneNonce (h : s.AlwaysDiscovers K st key) (hs : s.Sourced C)
    (hknown : key ∉ st.known) (hcalls : st.calls = []) : s.OneNonce key := by
  intro r hr r' hr' hkey hkey'
  by_contra hnonce
  have hne : r ≠ r' := fun h => hnonce (by rw [h])
  obtain ⟨rows, t, hrows, ht⟩ := exists_rows_last hr hr' hne hkey hkey'
  have hv : getReusedNonces rows key ≠ [] := by simp [ht]
  obtain ⟨entries, hmap⟩ := exists_map_first rows hv
  have hextract := hs.extract_of_nonce_ne (K := K) (mem_messages_of_reused hr)
    (mem_messages_of_reused hr') hnonce
  have hrest : key ∉ (entries.filter fun entry => entry.1 ∉ st.known).map Prod.fst := by
    intro hmem
    obtain ⟨entry, hentry, hkey⟩ := List.mem_map.mp hmem
    apply (List.nodup_cons.mp hmap.keys).1
    exact List.mem_map.mpr ⟨entry, (List.mem_filter.mp hentry).1, hkey⟩
  obtain ⟨call, hcall, hcallKey, _, sk, hsk, _⟩ := h rows _ hrows hmap
  rw [DlogExtractor.pass_cons hknown, DlogExtractor.tryKeys, ht, DlogExtractor.tryKey_eq, hextract,
    hcalls] at hcall
  apply (DlogExtractor.tryKeys_spec.2 call hcall).elim
  · intro hmem
    rw [List.nil_append, List.mem_singleton] at hmem
    rw [hmem] at hsk
    cases hsk
  · intro hmem
    rw [hcallKey] at hmem
    exact hrest hmem

private theorem Store.AlwaysDiscovers.separated (h : s.AlwaysDiscovers K st key) (hs : s.Sourced C)
    (hknown : k ∉ st.known) (hcalls : st.calls = []) : s.Separated K k := by
  intro r hr r' hr' hne hkey hkey' hnonce hchallenge
  obtain ⟨rows, t, hrows, ht⟩ := exists_rows_last hr hr' hne hkey hkey'
  have hv : getReusedNonces rows k ≠ [] := by simp [ht]
  obtain ⟨entries, hmap⟩ := exists_map_first rows hv
  obtain ⟨p, hextract⟩ := hs.extract_of_challenge_eq (mem_messages_of_reused hr)
    (mem_messages_of_reused hr') (hkey.trans hkey'.symm) hnonce hchallenge
  obtain ⟨call, hcall, _⟩ := h rows _ hrows hmap
  rw [DlogExtractor.pass_cons hknown, DlogExtractor.tryKeys, ht, DlogExtractor.tryKey_eq, hextract,
    hcalls] at hcall
  cases hcall

/-- An exposed key is discovered in every order exactly when its reused nonces are one nonce and no
unknown key makes the extractor panic. -/
theorem exposed_key_discovered_iff (hs : Store.Reachable C s) (hcalls : st.calls = [])
    (hknown : key ∉ st.known) (hexposed : s.Exposed K key) :
    s.AlwaysDiscovers K st key ↔ s.OneNonce key ∧ ∀ k ∉ st.known, s.Separated K k := by
  constructor
  · intro h
    constructor
    · exact h.oneNonce hs.sourced hknown hcalls
    · exact fun k hk => h.separated hs.sourced hk hcalls
  · intro h
    exact hs.sourced.alwaysDiscovers hs.linked hknown hexposed h.1 h.2

end

instance {M : Type} {C : Crypto M} (K : Curve C) (s : Store M) (key : XOnlyPublicKey) :
    Decidable (s.Exposed K key) :=
  inferInstanceAs (Decidable (∃ r ∈ s.messages, ∃ r' ∈ s.messages, _))

instance {M : Type} (s : Store M) (key : XOnlyPublicKey) : Decidable (s.OneNonce key) :=
  inferInstanceAs (Decidable (∀ r ∈ s.reusedNonces, ∀ r' ∈ s.reusedNonces, _))

/-- Alice uses a nonce twice. -/
def exposedOnce : Store ℕ :=
  ([.insertUser "alice" (residueAlice 10 11 0 none (by decide +kernel)) 0,
    .insert (residueAlice 20 12 1 (some (0, 0)) (by decide +kernel)) false 0,
    .insert (residueAlice 20 13 2 (some (0, 0)) (by decide +kernel)) false 0].foldl
      Store.apply (.empty : Store ℕ))

/-- Alice uses two nonces twice, in turns. -/
def exposedTwice : Store ℕ :=
  ([.insertUser "alice" (residueAlice 10 11 0 none (by decide +kernel)) 0,
    .insert (residueAlice 20 12 1 (some (0, 0)) (by decide +kernel)) false 0,
    .insert (residueAlice 30 13 2 (some (0, 0)) (by decide +kernel)) false 0,
    .insert (residueAlice 20 14 3 (some (0, 0)) (by decide +kernel)) false 0,
    .insert (residueAlice 30 15 4 (some (0, 0)) (by decide +kernel)) false 0].foldl
      Store.apply (.empty : Store ℕ))

theorem exposed_key_discovered_once :
    exposedOnce.reusedNonces.map Row.nonce = [20, 20] ∧
    exposedOnce.AlwaysDiscovers residueCurve ⟨[], [], []⟩ ⟨5⟩ := by
  have hexposed : exposedOnce.Exposed residueCurve ⟨5⟩ := by decide +kernel
  have hone : exposedOnce.OneNonce ⟨5⟩ := by decide +kernel
  have hseparated : ∀ r ∈ exposedOnce.reusedNonces, ∀ r' ∈ exposedOnce.reusedNonces, r ≠ r' →
      r.challenge residueCurve % field ≠ r'.challenge residueCurve % field := by decide +kernel
  constructor
  · decide +kernel
  · apply (exposed_key_discovered_iff (Store.reachable_foldl _) rfl (by simp) hexposed).mpr
    exact ⟨hone, fun k _ r hr r' hr' hne _ _ _ => hseparated r hr r' hr' hne⟩

theorem exposed_key_missed :
    ∃ s, Store.Reachable residueCrypto s ∧ s.Exposed residueCurve ⟨5⟩ ∧
      s.reusedNonces.map Row.nonce = [20, 30, 20, 30] ∧
      ¬s.AlwaysDiscovers residueCurve ⟨[], [], []⟩ ⟨5⟩ := by
  have hexposed : exposedTwice.Exposed residueCurve ⟨5⟩ := by decide +kernel
  have hnonces : exposedTwice.reusedNonces.map Row.nonce = [20, 30, 20, 30] := by decide +kernel
  have hreachable : Store.Reachable residueCrypto exposedTwice := Store.reachable_foldl _
  refine ⟨exposedTwice, hreachable, hexposed, hnonces, ?_⟩
  intro h
  have hone := h.oneNonce hreachable.sourced (by simp) rfl
  revert hone
  decide +kernel

end JudicaVM
