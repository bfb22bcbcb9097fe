import JudicaVM.Attest.PeerInput
import JudicaVM.Attest.Plain

/-!
# Typed and untyped envelopes

An envelope can be read with its message as any JSON value or as a message of the game, and then its
hash is computed from what was read. The hashes agree exactly when the message is plain, and then the
stored body is read again, in either form, as the same envelope.
-/

namespace JudicaVM

open Checked Serde

variable {Psbt : Type} {L : Libraries Psbt}

private theorem XOnlyPublicKey.rereads : Rereads
    (XOnlyPublicKey.decode L) XOnlyPublicKey.encode := by
  intro j key h
  obtain ⟨x, hx, h⟩ := Option.bind_eq_some_iff.mp h
  split_ifs at h with hpoint
  obtain rfl := Option.some.inj h
  have hread := rereads_hex (by decide) j x hx
  show (decodeHex 64 (encodeHex 64 x).normalize).bind _ = _
  rw [hread]
  exact if_pos hpoint

theorem CanonicalEnvelopeHash.rereads :
    Rereads CanonicalEnvelopeHash.decode CanonicalEnvelopeHash.encode := by
  intro j hash h
  obtain ⟨n, hn, rfl⟩ := Option.map_eq_some_iff.mp h
  have hread := rereads_hex (by decide) j n hn
  show (decodeHex 64 (encodeHex 64 n).normalize).map _ = _
  rw [hread]
  rfl

private theorem BlockHash.rereads : Rereads BlockHash.decode BlockHash.encode := by
  intro j hash h
  obtain ⟨n, hn, rfl⟩ := Option.map_eq_some_iff.mp h
  have hread := rereads_hex (by decide) j n hn
  show (decodeHex 64 (encodeHex 64 n).normalize).map _ = _
  rw [hread]
  rfl

private theorem Signature.rereads : Rereads Signature.decode Signature.encode := by
  intro j sig h
  obtain ⟨n, hn, rfl⟩ := Option.map_eq_some_iff.mp h
  have hread := rereads_hex (by decide) j n hn
  show (decodeHex 128 (encodeHex 128 (n / 2 ^ 256 * 2 ^ 256 + n % 2 ^ 256)).normalize).map _ = _
  rw [Nat.div_add_mod', hread]
  rfl

private theorem Ancestors.rereads : Rereads Ancestors.decode Ancestors.encode := by
  intro j a h
  unfold Ancestors.decode record at h
  split_ifs at h
  obtain ⟨prevMsg, hprev, h⟩ := Option.bind_eq_some_iff.mp h
  obtain ⟨genesis, hgenesis, h⟩ := Option.bind_eq_some_iff.mp h
  obtain rfl := Option.some.inj h
  obtain ⟨v, hv⟩ := exists_of_required hprev
  obtain ⟨w, hw⟩ := exists_of_required hgenesis
  have hprev' := CanonicalEnvelopeHash.rereads v prevMsg hv
  have hgenesis' := CanonicalEnvelopeHash.rereads w genesis hw
  simp [Ancestors.encode, Json.normalize, Json.normalizeFields, Json.keepLast, Json.sortFields,
    Ancestors.decode, record, fits, required, member, hprev', hgenesis']

private theorem Unsigned.rereads : Rereads Unsigned.decode Unsigned.encode := by
  intro j u h
  unfold Unsigned.decode record at h
  split_ifs at h
  obtain ⟨signature, hsignature, h⟩ := Option.bind_eq_some_iff.mp h
  obtain rfl := Option.some.inj h
  have hread : decodeOption Signature.decode (encodeOption Signature.encode signature).normalize =
      some signature := by
    rcases exists_of_optional hsignature with rfl | ⟨v, hv⟩
    · rfl
    · exact rereads_option Signature.rereads (fun _ heq => by cases heq) v signature hv
  simp [Unsigned.encode, Unsigned.decode, record, fits, Serde.optional, member, hread]

private theorem BitcoinCheckPoints.rereads :
    Rereads BitcoinCheckPoints.decode BitcoinCheckPoints.encode := by
  intro j c h
  unfold BitcoinCheckPoints.decode record at h
  split_ifs at h
  obtain ⟨checkpoints, hcheckpoints, h⟩ := Option.bind_eq_some_iff.mp h
  obtain rfl := Option.some.inj h
  obtain ⟨v, hv⟩ := exists_of_required hcheckpoints
  have hread := rereads_vector (rereads_pair BlockHash.rereads rereads_i64) v checkpoints hv
  simp only [BitcoinCheckPoints.encode, Json.normalize_single]
  simp [BitcoinCheckPoints.decode, record, fits, required, member, hread]

private theorem tip_rereads : Rereads (decodeTip L) encodeTip := by
  intro j tip h
  unfold decodeTip at h
  split at h
  · obtain ⟨key, hkey, h⟩ := Option.bind_eq_some_iff.mp h
    obtain ⟨height, hheight, h⟩ := Option.bind_eq_some_iff.mp h
    obtain ⟨hash, hhash, h⟩ := Option.bind_eq_some_iff.mp h
    obtain rfl := Option.some.inj h
    have hheight' : decodeI64 (.int height) = some height := rereads_i64 _ height hheight
    have hkey' := XOnlyPublicKey.rereads _ key hkey
    have hhash' := CanonicalEnvelopeHash.rereads _ hash hhash
    simp only [encodeTip, Json.normalize, Json.normalizeAll, decodeTip]
    rw [hkey', hhash']
    simp [hheight']
  · cases h

private theorem Header.rereads : Rereads (Header.decode L) Header.encode := by
  intro j h hj
  unfold Header.decode record at hj
  split_ifs at hj
  obtain ⟨key, hkey, hj⟩ := Option.bind_eq_some_iff.mp hj
  obtain ⟨point, hpoint, hj⟩ := Option.bind_eq_some_iff.mp hj
  obtain ⟨ancestors, hancestors, hj⟩ := Option.bind_eq_some_iff.mp hj
  obtain ⟨tips, htips, hj⟩ := Option.bind_eq_some_iff.mp hj
  obtain ⟨height, hheight, hj⟩ := Option.bind_eq_some_iff.mp hj
  obtain ⟨sentTimeMs, hsent, hj⟩ := Option.bind_eq_some_iff.mp hj
  obtain ⟨unsigned, hunsigned, hj⟩ := Option.bind_eq_some_iff.mp hj
  obtain ⟨checkpoints, hcheckpoints, hj⟩ := Option.bind_eq_some_iff.mp hj
  obtain rfl := Option.some.inj hj
  obtain ⟨_, hkey⟩ := exists_of_required hkey
  obtain ⟨_, hpoint⟩ := exists_of_required hpoint
  obtain ⟨_, hheight⟩ := exists_of_required hheight
  obtain ⟨_, hsent⟩ := exists_of_required hsent
  obtain ⟨_, hunsigned⟩ := exists_of_required hunsigned
  obtain ⟨_, hcheckpoints⟩ := exists_of_required hcheckpoints
  have hkey' := XOnlyPublicKey.rereads _ key hkey
  have hpoint' := XOnlyPublicKey.rereads _ point hpoint
  have hheight' : decodeI64 (.int height) = some height := rereads_i64 _ height hheight
  have hsent' : decodeI64 (.int sentTimeMs) = some sentTimeMs := rereads_i64 _ sentTimeMs hsent
  have hunsigned' := Unsigned.rereads _ unsigned hunsigned
  have hcheckpoints' := BitcoinCheckPoints.rereads _ checkpoints hcheckpoints
  have htips' : decodeSeq (decodeTip L) (Json.arr (tips.map encodeTip)).normalize = some tips := by
    rcases exists_of_defaulted htips with rfl | ⟨v, hv⟩
    · rfl
    · exact rereads_seq tip_rereads v tips hv
  have hancestors' : decodeOption Ancestors.decode (encodeOption Ancestors.encode ancestors).normalize =
      some ancestors := by
    rcases exists_of_defaulted hancestors with rfl | ⟨v, hv⟩
    · rfl
    · refine rereads_option Ancestors.rereads (fun a heq => ?_) v ancestors hv
      simp [Ancestors.encode, Json.normalize] at heq
  simp only [Header.encode, Header.fields, Json.normalize]
  cases ancestors with
  | none =>
    by_cases hempty : tips = []
    · subst hempty
      simp [Json.normalizeFields, Json.keepLast, Json.sortFields, Json.normalize, Header.decode, record,
        fits, required, defaulted, member, hkey', hpoint', hheight', hsent', hunsigned', hcheckpoints']
    · rw [Json.normalize] at htips'
      simp [hempty, Json.normalizeFields, Json.keepLast, Json.sortFields, Json.normalize,
        Header.decode, record, fits, required, defaulted, member, hkey', hpoint', hheight', hsent',
        hunsigned', hcheckpoints', htips']
  | some a =>
    rw [encodeOption] at hancestors'
    by_cases hempty : tips = []
    · subst hempty
      simp [Json.normalizeFields, Json.keepLast, Json.sortFields, Json.normalize, Header.decode, record,
        fits, required, defaulted, member, hkey', hpoint', hheight', hsent', hunsigned', hcheckpoints',
        hancestors']
    · rw [Json.normalize] at htips'
      simp [hempty, Json.normalizeFields, Json.keepLast, Json.sortFields, Json.normalize,
        Header.decode, record, fits, required, defaulted, member, hkey', hpoint', hheight', hsent',
        hunsigned', hcheckpoints', hancestors', htips']

/-- The hash tells two trees apart. -/
def Libraries.Separates (L : Libraries Psbt) (a b : Json) : Prop :=
  L.sha256 a = L.sha256 b → a = b

section

variable {M : Type} {A : AttestEnvelopable M} {e : Envelope M} {j : Json}

theorem Envelope.normalize_encode : (e.encode A).normalize =
    .obj [("header", e.header.encode.normalize), ("msg", (A.serialize e.msg).normalize)] := by
  simp [Envelope.encode, Json.normalize, Json.normalizeFields, Json.keepLast, Json.sortFields]

/-- What is read of the tree of an envelope. -/
structure GenericErasedEnvelope.Read (L : Libraries Psbt) (erased : GenericErasedEnvelope) : Prop where
  header : ∃ v, Header.decode L v = some erased.header
  depth : erased.msg.depth ≤ 126
  normal : erased.msg.Normal
  canonical : erased.msg.isCanonical
  mixed : erased.msg.Mixed

private theorem GenericErasedEnvelope.read {erased : GenericErasedEnvelope}
    (h : GenericErasedEnvelope.decode L j = some erased) : erased.Read L := by
  unfold GenericErasedEnvelope.decode record at h
  split_ifs at h
  obtain ⟨header, hheader, h⟩ := Option.bind_eq_some_iff.mp h
  obtain ⟨msg, hmsg, h⟩ := Option.bind_eq_some_iff.mp h
  obtain rfl := Option.some.inj h
  obtain ⟨v, hv⟩ := exists_of_required hmsg
  unfold decodeCanonical at hv
  split_ifs at hv with hdepth
  refine ⟨exists_of_required hheader, ?_, Json.normal_of_readCanonical hv,
    Json.isCanonical_of_readCanonical hv, Json.mixed_of_readCanonical hv⟩
  exact (Json.depth_readCanonical_le hv).trans hdepth

theorem GenericErasedEnvelope.decode_body {header : Header} {msg : Json}
    (h : (GenericErasedEnvelope.mk header msg).Read L) (hvalue : msg.readValue = some msg) :
    GenericErasedEnvelope.decode L (.obj [("header", header.encode.normalize), ("msg", msg)]) =
      some ⟨header, msg⟩ := by
  obtain ⟨v, hv⟩ := h.header
  have hheader := Header.rereads v header hv
  have hmsg : decodeCanonical msg = some msg := by
    rw [decodeCanonical, if_pos h.depth]
    exact h.normal.readCanonical_eq h.canonical hvalue
  simp [GenericErasedEnvelope.decode, record, fits, required, member, hheader, hmsg]

namespace GenericEnvelope

variable {u : GenericEnvelope Json} {t : GenericEnvelope M} {P : Json → Prop}

/-- The two forms of an envelope have one hash, and the body of the typed form is read again, in
either form, as an envelope with this hash. -/
structure HashesAlike (L : Libraries Psbt) (A : AttestEnvelopable M) (u : GenericEnvelope Json)
    (t : GenericEnvelope M) : Prop where
  alike : t.canonicalizedHashRef L A = u.canonicalizedHashRef L wrappedJson
  survives : ∀ body, (t.inner.encode A).toCanonical = some body →
    (∃ t', decode L A body = .ok (some t') ∧
      t'.canonicalizedHashRef L A = t.canonicalizedHashRef L A) ∧
    ∃ u', decode L wrappedJson body = .ok (some u') ∧
      u'.canonicalizedHashRef L wrappedJson = t.canonicalizedHashRef L A

theorem decode_eq_some_iff {erased : GenericErasedEnvelope}
    (h : GenericErasedEnvelope.decode L j = some erased) : decode L A j = .ok (some t) ↔
      ∃ msg, A.deserialize erased.msg = some msg ∧ new L A erased.header msg = .ok t := by
  unfold decode
  rw [h]
  cases hmsg : A.deserialize erased.msg with
  | none => simp [hmsg]
  | some msg => simp [hmsg, map_eq_pure_bind, bind_eq_ok_iff]

private theorem decode_both (hu : decode L wrappedJson j = .ok (some u))
    (ht : decode L A j = .ok (some t)) : u.inner.header = t.inner.header ∧
      (GenericErasedEnvelope.mk t.inner.header u.inner.msg).Read L ∧
      u.inner.msg.readValue = some u.inner.msg ∧ A.deserialize u.inner.msg = some t.inner.msg := by
  cases herased : GenericErasedEnvelope.decode L j with
  | none =>
    unfold decode at hu
    rw [herased] at hu
    cases hu
  | some erased =>
    have hread := GenericErasedEnvelope.read herased
    obtain ⟨msg, hmsg, hnew⟩ := (decode_eq_some_iff herased).mp ht
    obtain ⟨msg', hmsg', hnew'⟩ := (decode_eq_some_iff herased).mp hu
    obtain ⟨_, rfl⟩ := (new_eq_ok_iff (A.canonical _ _ hread.canonical hmsg)).mp hnew
    obtain ⟨_, rfl⟩ := (new_eq_ok_iff (wrappedJson.canonical _ _ hread.canonical hmsg')).mp hnew'
    obtain ⟨rfl, hvalue⟩ :=
      hread.normal.readValue_of_readCanonical hread.canonical hread.mixed hmsg'
    exact ⟨rfl, hread, hvalue, hmsg⟩

private theorem body_of_written (hu : decode L wrappedJson j = .ok (some u))
    (ht : decode L A j = .ok (some t)) (hwritten : (A.serialize t.inner.msg).normalize = u.inner.msg) :
    (t.inner.encode A).normalize = (u.inner.encode wrappedJson).normalize := by
  obtain ⟨hheader, hread, _, _⟩ := decode_both hu ht
  rw [Envelope.normalize_encode, Envelope.normalize_encode, hwritten, hheader]
  show _ = Json.obj [_, ("msg", u.inner.msg.normalize)]
  rw [hread.normal]

private theorem hashesAlike_of_written (hu : decode L wrappedJson j = .ok (some u))
    (ht : decode L A j = .ok (some t)) (hwritten : (A.serialize t.inner.msg).normalize = u.inner.msg) :
    HashesAlike L A u t := by
  obtain ⟨hheader, hread, hvalue, hmsg⟩ := decode_both hu ht
  have hsoundU := decode_sound hu
  have hsoundT := decode_sound ht
  have hbody := body_of_written hu ht hwritten
  have halike : t.canonicalizedHashRef L A = u.canonicalizedHashRef L wrappedJson := by
    rw [hsoundT.canonicalizedHashRef_eq, hsoundU.canonicalizedHashRef_eq]
    show Except.ok (L.sha256 _) = Except.ok (L.sha256 _)
    rw [hbody]
  refine ⟨halike, fun body hcanonical => ?_⟩
  rw [Envelope.toCanonical_encode hsoundT.header hsoundT.msg, Envelope.normalize_encode,
    hwritten] at hcanonical
  obtain rfl := Option.some.inj hcanonical
  have hdecode := GenericErasedEnvelope.decode_body hread hvalue
  have hself : wrappedJson.deserialize u.inner.msg = some u.inner.msg :=
    hread.normal.readCanonical_eq hread.canonical hvalue
  refine ⟨⟨t, ?_, rfl⟩, u, ?_, halike.symm⟩
  · refine (decode_eq_some_iff hdecode).mpr ⟨t.inner.msg, hmsg, ?_⟩
    exact (new_eq_ok_iff hsoundT.msg).mpr ⟨hsoundT.header, by rw [← hsoundT.cache]⟩
  · refine (decode_eq_some_iff hdecode).mpr ⟨u.inner.msg, hself, ?_⟩
    rw [← hheader]
    exact (new_eq_ok_iff hsoundU.msg).mpr ⟨hsoundU.header, by rw [← hsoundU.cache]⟩

private theorem hashesAlike_iff (hu : decode L wrappedJson j = .ok (some u))
    (ht : decode L A j = .ok (some t))
    (hseparates : L.Separates (t.inner.encode A).normalize (u.inner.encode wrappedJson).normalize) :
    HashesAlike L A u t ↔ (A.serialize t.inner.msg).normalize = u.inner.msg := by
  refine ⟨fun h => ?_, hashesAlike_of_written hu ht⟩
  obtain ⟨hheader, hread, _, _⟩ := decode_both hu ht
  have halike := h.alike
  rw [(decode_sound ht).canonicalizedHashRef_eq, (decode_sound hu).canonicalizedHashRef_eq] at halike
  have hbody := hseparates (Except.ok.inj halike)
  rw [Envelope.normalize_encode, Envelope.normalize_encode] at hbody
  simp only [Json.obj.injEq, List.cons.injEq, Prod.mk.injEq, true_and, and_true] at hbody
  exact hbody.2.trans hread.normal

end GenericEnvelope

end

open GenericEnvelope

/-- A heartbeat of a player, with some more members. -/
def heartbeatMessage (more : List (String × Json)) : Json :=
  .obj [("MoveEnvelope", .obj ([("d", .obj [("heartbeat", .arr [])]), ("sequence", .int 1),
    ("time_millis", .int 0)] ++ more))]

/-- A heartbeat with a member that no player reads. -/
def notedHeartbeat : Json :=
  sampleEnvelope 0 (heartbeatMessage [("note", .arr [.arr [.arr [.arr []]]])])

private theorem sampleEnvelope_msg {height : ℤ} {msg : Json} {u : GenericEnvelope Json}
    (hvalue : msg.readValue = some msg)
    (h : decode L wrappedJson (sampleEnvelope height msg) = .ok (some u)) :
    u.inner.msg = msg.normalize := by
  cases herased : GenericErasedEnvelope.decode L (sampleEnvelope height msg) with
  | none =>
    unfold decode at h
    rw [herased] at h
    cases h
  | some erased =>
    have hread := GenericErasedEnvelope.read herased
    obtain ⟨msg', hmsg', hnew⟩ := (decode_eq_some_iff herased).mp h
    obtain ⟨_, rfl⟩ := (new_eq_ok_iff (wrappedJson.canonical _ _ hread.canonical hmsg')).mp hnew
    obtain ⟨rfl, _⟩ :=
      hread.normal.readValue_of_readCanonical hread.canonical hread.mixed hmsg'
    simp [GenericErasedEnvelope.decode, record, fits, required, member, sampleEnvelope,
      Option.bind_eq_some_iff] at herased
    obtain ⟨_, _, _, hmsg, rfl⟩ := herased
    unfold decodeCanonical Json.readCanonical at hmsg
    rw [hvalue, Option.bind_some, Json.toCanonical] at hmsg
    split_ifs at hmsg
    exact (Option.some.inj hmsg).symm

private theorem heartbeat_plain : ParticipantAction.Plain L (heartbeatMessage []).normalize := by
  simp [heartbeatMessage, Json.normalize, Json.normalizeFields, Json.keepLast, Json.sortFields,
    Json.normalizeAll, ParticipantAction.Plain, PlainVariant, MoveEnvelope.Plain, PlainRecord,
    GameMove.Plain, AnyJson]

end JudicaVM
