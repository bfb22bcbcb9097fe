import JudicaVM.Attest.Wire

/-!
# Canonical forms of envelopes

An envelope with a canonical message has a canonical form exactly when the integers of its header
are those that a canonical form may contain. Where it has one, its hash, its signature and its row
are those of the store.
-/

namespace JudicaVM

open Checked Serde

variable {h : Header}

@[simp] theorem XOnlyPublicKey.encode_isCanonical (key : XOnlyPublicKey) :
    key.encode.isCanonical :=
  isCanonical_encodeHex _ _

@[simp] theorem CanonicalEnvelopeHash.encode_isCanonical (hash : CanonicalEnvelopeHash) :
    hash.encode.isCanonical :=
  isCanonical_encodeHex _ _

@[simp] theorem BlockHash.encode_isCanonical (hash : BlockHash) : hash.encode.isCanonical :=
  isCanonical_encodeHex _ _

@[simp] theorem Ancestors.encode_isCanonical (a : Ancestors) : a.encode.isCanonical := by
  simp [Ancestors.encode]

@[simp] theorem Unsigned.encode_isCanonical (u : Unsigned) : u.encode.isCanonical := by
  have hsignature : (encodeOption Signature.encode u.signature).isCanonical :=
    isCanonical_encodeOption fun _ _ => isCanonical_encodeHex _ _
  simpa [Unsigned.encode] using hsignature

private theorem encodeTip_isCanonical_iff {tip : XOnlyPublicKey × ℤ × CanonicalEnvelopeHash} :
    (encodeTip tip).isCanonical ↔ Json.Safe tip.2.1 := by
  simp [encodeTip]

private theorem BitcoinCheckPoints.encode_isCanonical_iff {c : BitcoinCheckPoints} :
    c.encode.isCanonical ↔ ∀ p ∈ c.checkpoints.toList, Json.Safe p.2 := by
  have hpair (p : BlockHash × ℤ) :
      (Json.arr [p.1.encode, .int p.2]).isCanonical ↔ Json.Safe p.2 := by
    simp
  rw [BitcoinCheckPoints.encode, Json.isCanonical_obj]
  simp only [List.mem_singleton, forall_eq, Json.isCanonical_arr, List.forall_mem_map]
  simp only [← Json.isCanonical_arr, hpair]

private theorem tips_isCanonical_iff :
    (Json.arr (h.tips.map encodeTip)).isCanonical ↔ ∀ t ∈ h.tips, Json.Safe t.2.1 := by
  simp only [Json.isCanonical_arr, List.forall_mem_map, encodeTip_isCanonical_iff]

private theorem Header.mem_fields_iff {f : String × Json} : f ∈ h.fields ↔
    f = ("key", h.key.encode) ∨ f = ("next_nonce", h.nextNonce.point.encode) ∨
    (∃ a, h.ancestors = some a ∧ f = ("ancestors", a.encode)) ∨
    (h.tips ≠ [] ∧ f = ("tips", .arr (h.tips.map encodeTip))) ∨
    f = ("height", .int h.height) ∨ f = ("sent_time_ms", .int h.sentTimeMs) ∨
    f = ("unsigned", h.unsigned.encode) ∨ f = ("checkpoints", h.checkpoints.encode) := by
  unfold Header.fields
  cases h.ancestors <;> by_cases htips : h.tips = [] <;> simp [htips]

theorem Header.encode_isCanonical_iff : h.encode.isCanonical ↔ h.Safe := by
  rw [Header.encode, Json.isCanonical_obj]
  constructor
  · intro hfields
    constructor
    · exact Json.isCanonical_int.mp
        (hfields ("height", .int h.height) (mem_fields_iff.mpr (by simp)))
    · exact Json.isCanonical_int.mp
        (hfields ("sent_time_ms", .int h.sentTimeMs) (mem_fields_iff.mpr (by simp)))
    · by_cases htips : h.tips = []
      · simp [htips]
      · exact tips_isCanonical_iff.mp
          (hfields ("tips", _) (mem_fields_iff.mpr (by simp [htips])))
    · exact BitcoinCheckPoints.encode_isCanonical_iff.mp
        (hfields ("checkpoints", h.checkpoints.encode) (mem_fields_iff.mpr (by simp)))
  · intro hsafe f hf
    rcases mem_fields_iff.mp hf with rfl | rfl | hf | hf | rfl | rfl | rfl | rfl
    · exact XOnlyPublicKey.encode_isCanonical _
    · exact XOnlyPublicKey.encode_isCanonical _
    · obtain ⟨a, _, rfl⟩ := hf
      exact a.encode_isCanonical
    · obtain ⟨_, rfl⟩ := hf
      exact tips_isCanonical_iff.mpr hsafe.tips
    · exact Json.isCanonical_int.mpr hsafe.height
    · exact Json.isCanonical_int.mpr hsafe.sentTimeMs
    · exact h.unsigned.encode_isCanonical
    · exact BitcoinCheckPoints.encode_isCanonical_iff.mpr hsafe.checkpoints

private theorem Header.fields_nodup : (h.fields.map Prod.fst).Nodup := by
  unfold Header.fields
  cases h.ancestors <;> by_cases htips : h.tips = [] <;> simp [htips]

@[simp] theorem XOnlyPublicKey.encode_wellKeyed (key : XOnlyPublicKey) : key.encode.WellKeyed :=
  trivial

@[simp] theorem CanonicalEnvelopeHash.encode_wellKeyed (hash : CanonicalEnvelopeHash) :
    hash.encode.WellKeyed :=
  trivial

@[simp] theorem BlockHash.encode_wellKeyed (hash : BlockHash) : hash.encode.WellKeyed := trivial

private theorem Unsigned.encode_wellKeyed (u : Unsigned) : u.encode.WellKeyed := by
  have hsignature : (encodeOption Signature.encode u.signature).WellKeyed := by
    cases u.signature <;> trivial
  simpa [Unsigned.encode] using hsignature

private theorem Ancestors.encode_wellKeyed (a : Ancestors) : a.encode.WellKeyed := by
  simp [Ancestors.encode]

private theorem BitcoinCheckPoints.encode_wellKeyed (c : BitcoinCheckPoints) :
    c.encode.WellKeyed := by
  have hpair (p : BlockHash × ℤ) : (Json.arr [p.1.encode, .int p.2]).WellKeyed := by
    simp
  rw [BitcoinCheckPoints.encode, Json.wellKeyed_obj]
  constructor
  · exact List.nodup_singleton _
  · simp only [List.mem_singleton, forall_eq, Json.wellKeyed_arr, List.forall_mem_map]
    exact fun p _ => Json.wellKeyed_arr.mp (hpair p)

theorem Header.encode_wellKeyed : h.encode.WellKeyed := by
  rw [Header.encode, Json.wellKeyed_obj]
  constructor
  · exact fields_nodup
  · intro f hf
    rcases mem_fields_iff.mp hf with rfl | rfl | hf | hf | rfl | rfl | rfl | rfl
    · exact XOnlyPublicKey.encode_wellKeyed _
    · exact XOnlyPublicKey.encode_wellKeyed _
    · obtain ⟨a, _, rfl⟩ := hf
      exact a.encode_wellKeyed
    · obtain ⟨_, rfl⟩ := hf
      simp only [Json.wellKeyed_arr, List.forall_mem_map]
      intro t _
      simp [encodeTip]
    · exact Json.wellKeyed_int
    · exact Json.wellKeyed_int
    · exact h.unsigned.encode_wellKeyed
    · exact h.checkpoints.encode_wellKeyed

section

variable {M Psbt : Type} {L : Libraries Psbt} {A : AttestEnvelopable M} {e : Envelope M}

theorem Envelope.encode_isCanonical (hheader : e.header.Safe)
    (hmsg : (A.serialize e.msg).isCanonical) : (e.encode A).isCanonical := by
  rw [Envelope.encode, Json.isCanonical_obj]
  intro f hf
  rcases List.mem_cons.mp hf with rfl | hf
  · exact Header.encode_isCanonical_iff.mpr hheader
  · obtain rfl := List.mem_singleton.mp hf
    exact hmsg

theorem Envelope.toCanonical_encode (hheader : e.header.Safe)
    (hmsg : (A.serialize e.msg).isCanonical) :
    (e.encode A).toCanonical = some (e.encode A).normalize :=
  Json.toCanonical_of_isCanonical (encode_isCanonical hheader hmsg)

private theorem Envelope.safe_of_toCanonical {c : Json} (h : (e.encode A).toCanonical = some c) :
    e.header.Safe := by
  apply Header.encode_isCanonical_iff.mp
  have hnames : ([("header", e.header.encode), ("msg", A.serialize e.msg)].map Prod.fst).Nodup := by
    simp
  exact Json.isCanonical_of_field hnames h List.mem_cons_self Header.encode_wellKeyed

/-- What the store takes from the libraries. -/
def Libraries.crypto (L : Libraries Psbt) (A : AttestEnvelopable M) : Crypto M where
  canonicalizedHash e := L.sha256 (e.encode A).normalize
  verifySchnorr := L.verifySchnorr

namespace GenericEnvelope

variable {g : GenericEnvelope M} {j : Json}

/-- An envelope that has a canonical form, with its hash in the cache. -/
structure Sound (L : Libraries Psbt) (A : AttestEnvelopable M) (g : GenericEnvelope M) : Prop where
  header : g.inner.header.Safe
  msg : (A.serialize g.inner.msg).isCanonical
  cache : g.cache = some ((L.crypto A).canonicalizedHash g.inner)

private theorem computeHash_eq (hheader : g.inner.header.Safe)
    (hmsg : (A.serialize g.inner.msg).isCanonical) :
    g.computeHash L A = .ok ((L.crypto A).canonicalizedHash g.inner) := by
  rw [computeHash, Envelope.toCanonical_encode hheader hmsg]
  rfl

private theorem safe_of_computeHash {h : CanonicalEnvelopeHash} (hh : g.computeHash L A = .ok h) :
    g.inner.header.Safe := by
  unfold computeHash at hh
  split at hh
  · rename_i c hc
    exact Envelope.safe_of_toCanonical hc
  · cases hh

theorem new_eq_ok_iff {header : Header} {msg : M} (hmsg : (A.serialize msg).isCanonical) :
    new L A header msg = .ok g ↔
      header.Safe ∧ g = ⟨⟨header, msg⟩, some ((L.crypto A).canonicalizedHash ⟨header, msg⟩)⟩ := by
  constructor
  · intro h
    obtain ⟨hash, hhash, h⟩ := bind_eq_ok_iff.mp h
    have hsafe : header.Safe := safe_of_computeHash hhash
    have heq := computeHash_eq (L := L) (g := ⟨⟨header, msg⟩, none⟩) hsafe hmsg
    obtain rfl := Except.ok.inj (hhash.symm.trans heq)
    exact ⟨hsafe, (Except.ok.inj h).symm⟩
  · intro h
    obtain ⟨hsafe, rfl⟩ := h
    have heq := computeHash_eq (L := L) (g := ⟨⟨header, msg⟩, none⟩) hsafe hmsg
    exact bind_eq_ok_iff.mpr ⟨_, heq, rfl⟩

private theorem erased_msg_isCanonical {erased : GenericErasedEnvelope}
    (h : GenericErasedEnvelope.decode L j = some erased) : erased.msg.isCanonical := by
  unfold GenericErasedEnvelope.decode record at h
  split_ifs at h
  obtain ⟨header, _, h⟩ := Option.bind_eq_some_iff.mp h
  obtain ⟨msg, hmsg, h⟩ := Option.bind_eq_some_iff.mp h
  obtain rfl := Option.some.inj h
  obtain ⟨v, _, hmsg⟩ := Option.bind_eq_some_iff.mp hmsg
  obtain ⟨t, _, hmsg⟩ := Option.bind_eq_some_iff.mp hmsg
  unfold decodeCanonical at hmsg
  split_ifs at hmsg
  exact Json.isCanonical_of_readCanonical hmsg

/-- The header and the message of what a peer sent, when it has the form of an envelope. -/
def parts (L : Libraries Psbt) (A : AttestEnvelopable M) (j : Json) : Option (Header × M) := do
  let erased ← GenericErasedEnvelope.decode L j
  let msg ← A.deserialize erased.msg
  pure (erased.header, msg)

private theorem parts_msg_isCanonical {header : Header} {msg : M}
    (h : parts L A j = some (header, msg)) : (A.serialize msg).isCanonical := by
  obtain ⟨erased, herased, h⟩ := Option.bind_eq_some_iff.mp h
  obtain ⟨msg', hmsg, h⟩ := Option.bind_eq_some_iff.mp h
  obtain ⟨_, rfl⟩ := Prod.mk.inj (Option.some.inj h)
  exact A.canonical _ _ (erased_msg_isCanonical herased) hmsg

private theorem decode_of_parts_none (h : parts L A j = none) : decode L A j = .ok none := by
  unfold decode
  unfold parts at h
  cases herased : GenericErasedEnvelope.decode L j with
  | none => rfl
  | some erased =>
    rw [herased] at h
    cases hmsg : A.deserialize erased.msg with
    | none => simp [hmsg]
    | some msg => simp [hmsg] at h

private theorem decode_of_parts_some {header : Header} {msg : M}
    (h : parts L A j = some (header, msg)) :
    decode L A j = some <$> new L A header msg := by
  obtain ⟨erased, herased, h⟩ := Option.bind_eq_some_iff.mp h
  obtain ⟨msg', hmsg, h⟩ := Option.bind_eq_some_iff.mp h
  obtain ⟨rfl, rfl⟩ := Prod.mk.inj (Option.some.inj h)
  simp [decode, herased, hmsg]

theorem decode_sound (h : decode L A j = .ok (some g)) : g.Sound L A := by
  cases hparts : parts L A j with
  | none =>
    rw [decode_of_parts_none hparts] at h
    cases h
  | some p =>
    have hmsg := parts_msg_isCanonical hparts
    rw [decode_of_parts_some hparts, map_eq_pure_bind, bind_eq_ok_iff] at h
    obtain ⟨g', hnew, h⟩ := h
    obtain rfl := Option.some.inj (Except.ok.inj h)
    obtain ⟨hsafe, rfl⟩ := (new_eq_ok_iff hmsg).mp hnew
    exact ⟨hsafe, hmsg, rfl⟩

namespace Sound

variable (hg : g.Sound L A)

include hg

theorem canonicalizedHashRef_eq :
    g.canonicalizedHashRef L A = .ok ((L.crypto A).canonicalizedHash g.inner) := by
  rw [canonicalizedHashRef, hg.cache]

private theorem redacted_header : g.inner.redacted.header.Safe :=
  ⟨hg.header.height, hg.header.sentTimeMs, hg.header.tips, hg.header.checkpoints⟩

private theorem signatureDigestMut_eq :
    g.signatureDigestMut L A = .ok (g.inner.signatureDigestMut (L.crypto A)) :=
  computeHash_eq (g := ⟨g.inner.redacted, none⟩) hg.redacted_header hg.msg

private theorem signatureDigest_redacted :
    signatureDigest L A ⟨g.inner.redacted, none⟩ =
      .ok (some (g.inner.signatureDigestMut (L.crypto A))) := by
  have hhash := computeHash_eq (L := L) (g := ⟨g.inner.redacted, none⟩) hg.redacted_header hg.msg
  change some <$> computeHash L A ⟨g.inner.redacted, none⟩ = _
  rw [hhash]
  rfl

private theorem selfAuthenticate_eq :
    g.selfAuthenticate L A =
      .ok ((g.inner.selfAuthenticate (L.crypto A)).map fun _ => g) := by
  unfold selfAuthenticate Envelope.selfAuthenticate
  split_ifs with hgenesis hlater
  · rfl
  · rfl
  · cases g.inner.header.unsigned.signature with
    | none => rfl
    | some sig =>
      simp only [hg.signatureDigest_redacted, ok_bind]
      change (if L.verifySchnorr _ _ _ then _ else _) =
        Except.ok (Except.map _ (if L.verifySchnorr _ _ _ then _ else _))
      split_ifs <;> rfl

private theorem getGenesisHash_eq :
    g.getGenesisHash L A = .ok (g.inner.getGenesisHash (L.crypto A)) := by
  unfold getGenesisHash Envelope.getGenesisHash
  cases g.inner.header.ancestors with
  | none => exact hg.canonicalizedHashRef_eq
  | some a => rfl

private theorem insertParams_eq {sig : Signature}
    (hsig : g.inner.header.unsigned.signature = some sig) :
    g.insertParams L A = .ok (some
      { body := (g.inner.encode A).normalize
        hash := (L.crypto A).canonicalizedHash g.inner
        key := g.inner.header.key
        genesis := g.inner.getGenesisHash (L.crypto A)
        prevMsg := g.inner.prevMsg
        sentTime := g.inner.header.sentTimeMs
        height := g.inner.header.height
        nonce := sig.r }) := by
  rw [insertParams, hg.getGenesisHash_eq, ok_bind, hg.canonicalizedHashRef_eq, ok_bind, hsig,
    Envelope.toCanonical_encode hg.header hg.msg]
  rfl

variable (haccepted : g.inner.selfAuthenticate (L.crypto A) = .ok g.inner) (s : Store M) (now : ℤ)

private theorem tryInsertWithTxn_eq :
    g.tryInsertWithTxn L A s now =
      .ok (some (s.tryInsertAuthenticatedEnvelopeWithTxn ⟨g.inner, haccepted⟩ now)) := by
  rw [tryInsertWithTxn, hg.insertParams_eq (Authenticated.signature_eq ⟨g.inner, haccepted⟩)]
  rfl

private theorem tryInsert_eq (reuseSafe : Bool) :
    g.tryInsert L A s reuseSafe now =
      .ok (some (s.tryInsertAuthenticatedEnvelope ⟨g.inner, haccepted⟩ reuseSafe now)) := by
  unfold tryInsert Store.tryInsertAuthenticatedEnvelope
  cases g.inner.header.ancestors with
  | none => exact hg.tryInsertWithTxn_eq haccepted s now
  | some a =>
    simp only
    split_ifs with hreuse
    · rfl
    · exact hg.tryInsertWithTxn_eq haccepted s now

end Sound

/-- Decoding a tree returns, and so does everything that is done with the envelope: hashing it,
computing what is signed, authenticating it and storing it once it is authenticated. -/
def Completes (L : Libraries Psbt) (A : AttestEnvelopable M) (j : Json) : Prop :=
  ∃ o, decode L A j = .ok o ∧ ∀ g ∈ o,
    (∃ hash, g.canonicalizedHashRef L A = .ok hash) ∧
    (∃ digest, g.signatureDigestMut L A = .ok digest) ∧
    ∃ r, g.selfAuthenticate L A = .ok r ∧
      ∀ g', r = .ok g' → ∀ (s : Store M) (reuseSafe : Bool) (now : ℤ),
        ∃ out, g'.tryInsert L A s reuseSafe now = .ok out

/-- When the tree has the form of an envelope, its header has no integer that is too large. -/
def HeaderSafe (L : Libraries Psbt) (A : AttestEnvelopable M) (j : Json) : Prop :=
  ∀ p ∈ parts L A j, p.1.Safe

private theorem Sound.completes (hg : g.Sound L A) :
    (∃ hash, g.canonicalizedHashRef L A = .ok hash) ∧
    (∃ digest, g.signatureDigestMut L A = .ok digest) ∧
    ∃ r, g.selfAuthenticate L A = .ok r ∧
      ∀ g', r = .ok g' → ∀ (s : Store M) (reuseSafe : Bool) (now : ℤ),
        ∃ out, g'.tryInsert L A s reuseSafe now = .ok out := by
  refine ⟨⟨_, hg.canonicalizedHashRef_eq⟩, ⟨_, hg.signatureDigestMut_eq⟩, _,
    hg.selfAuthenticate_eq, ?_⟩
  intro g' hg' s reuseSafe now
  cases haccepted : g.inner.selfAuthenticate (L.crypto A) with
  | error err =>
    rw [haccepted] at hg'
    cases hg'
  | ok e =>
    rw [haccepted] at hg'
    obtain rfl := Except.ok.inj hg'
    obtain ⟨rfl, _⟩ := selfAuthenticate_eq_ok_iff.mp haccepted
    exact ⟨_, hg.tryInsert_eq haccepted s now reuseSafe⟩

theorem completes_iff (j : Json) : Completes L A j ↔ HeaderSafe L A j := by
  cases hparts : parts L A j with
  | none =>
    have hdecode := decode_of_parts_none hparts
    constructor
    · intro _ p hp
      rw [hparts] at hp
      cases hp
    · intro _
      exact ⟨none, hdecode, fun g hg => by cases hg⟩
  | some p =>
    obtain ⟨header, msg⟩ := p
    have hmsg := parts_msg_isCanonical hparts
    have hdecode := decode_of_parts_some hparts
    constructor
    · intro h p hp
      obtain ⟨o, ho, _⟩ := h
      rw [hdecode, map_eq_pure_bind, bind_eq_ok_iff] at ho
      obtain ⟨g, hnew, _⟩ := ho
      rw [hparts] at hp
      obtain rfl := Option.some.inj hp
      exact ((new_eq_ok_iff hmsg).mp hnew).1
    · intro h
      have hnew := (new_eq_ok_iff (L := L) hmsg).mpr ⟨h _ hparts, rfl⟩
      rw [hnew] at hdecode
      refine ⟨_, hdecode, ?_⟩
      intro g hg
      rw [Option.mem_def] at hg
      apply Sound.completes
      apply decode_sound (j := j)
      rw [hdecode, ← hg]
      rfl

end GenericEnvelope

end

end JudicaVM
