import JudicaVM.Attest.Alike

/-!
# Envelopes that are read again

What the host broadcasts is read again from the tree that is written for it, and so is an envelope
whose message is.
-/

namespace JudicaVM

open Checked Serde

private theorem rereads_unsigned (width : ℕ) : Rereads (decodeUnsigned width) encodeNat := by
  intro j n h
  rwa [int_of_decodeUnsigned h] at h

private theorem rereads_string : Rereads decodeString Json.str :=
  fun _ _ _ => rfl

private theorem GameSetup.rereads : Rereads GameSetup.decode GameSetup.encode := by
  intro j setup h
  unfold GameSetup.decode record at h
  split_ifs at h
  obtain ⟨players, hplayers, h⟩ := Option.bind_eq_some_iff.mp h
  obtain ⟨startAmount, hstart, h⟩ := Option.bind_eq_some_iff.mp h
  obtain ⟨finishTime, hfinish, h⟩ := Option.bind_eq_some_iff.mp h
  split_ifs at h with hlt
  obtain rfl := Option.some.inj h
  obtain ⟨_, hplayers⟩ := exists_of_required hplayers
  obtain ⟨_, hstart⟩ := exists_of_required hstart
  have hplayers' := rereads_seq rereads_string _ players hplayers
  have hstart' := rereads_unsigned 64 _ startAmount hstart
  have hfinish' : decodeUnsigned 64 (encodeNat finishTime).normalize = some finishTime := by
    apply (exists_of_defaulted hfinish).elim
    · intro heq
      rw [heq]
      decide
    · intro hread
      obtain ⟨v, hv⟩ := hread
      exact rereads_unsigned 64 v finishTime hv
  have hwritten (s : GameSetup) : s.encode.normalize =
      .obj [("finish_time", (encodeNat s.finishTime).normalize),
        ("players", (Json.arr (s.players.map .str)).normalize),
        ("start_amount", (encodeNat s.startAmount).normalize)] := by
    simp [GameSetup.encode, Json.normalize, Json.normalizeFields, Json.keepLast, Json.sortFields]
  have hdecode {u v w : Json} (hu : decodeUnsigned 64 u = some finishTime)
      (hv : decodeSeq decodeString v = some players)
      (hw : decodeUnsigned 64 w = some startAmount) : GameSetup.decode
        (.obj [("finish_time", u), ("players", v), ("start_amount", w)]) =
      some ⟨players, startAmount, finishTime, hlt⟩ := by
    simp only [GameSetup.decode, record, fits, required, defaulted, member]
    simp [hu, hv, hw]
    exact hlt
  rw [hwritten]
  exact hdecode hfinish' hplayers' hstart'

private theorem Peer.rereads : Rereads Peer.decode Peer.encode := by
  intro j p h
  unfold Peer.decode record at h
  split_ifs at h
  obtain ⟨serviceUrl, _, h⟩ := Option.bind_eq_some_iff.mp h
  obtain ⟨port, hport, h⟩ := Option.bind_eq_some_iff.mp h
  obtain rfl := Option.some.inj h
  obtain ⟨_, hport⟩ := exists_of_required hport
  have hport' := rereads_unsigned 16 _ port hport
  have hwritten (p : Peer) : p.encode.normalize =
      .obj [("port", (encodeNat p.port).normalize), ("service_url", .str p.serviceUrl)] := by
    simp [Peer.encode, Json.normalize, Json.normalizeFields, Json.keepLast, Json.sortFields]
  have hdecode {v : Json} (hv : decodeUnsigned 16 v = some port) :
      Peer.decode (.obj [("port", v), ("service_url", .str serviceUrl)]) =
        some ⟨serviceUrl, port⟩ := by
    simp [Peer.decode, record, fits, required, member, decodeString, hv]
  rw [hwritten]
  exact hdecode hport'

theorem BroadcastByHost.rereads : Rereads BroadcastByHost.decode BroadcastByHost.encode := by
  intro j b h
  obtain ⟨⟨name, content⟩, _, h⟩ := Option.bind_eq_some_iff.mp h
  dsimp only at h
  split at h
  · obtain ⟨v, _, h⟩ := Option.bind_eq_some_iff.mp h
    obtain ⟨setup, hsetup, rfl⟩ := Option.map_eq_some_iff.mp h
    have hvariant (v : Json) : decode (.obj [("GameSetup", v)]) =
        (GameSetup.decode v).map gameSetup := rfl
    rw [encode, Json.normalize_single, hvariant, GameSetup.rereads v setup hsetup]
    rfl
  · obtain ⟨v, _, h⟩ := Option.bind_eq_some_iff.mp h
    obtain ⟨l, hl, rfl⟩ := Option.map_eq_some_iff.mp h
    have hread := rereads_seq CanonicalEnvelopeHash.rereads v l hl
    have hvariant (v : Json) : decode (.obj [("Sequence", v)]) =
        (decodeSeq CanonicalEnvelopeHash.decode v).map sequence := rfl
    rw [encode, Json.normalize_single, hvariant, hread]
    rfl
  · obtain ⟨v, _, h⟩ := Option.bind_eq_some_iff.mp h
    obtain ⟨peer, hpeer, rfl⟩ := Option.map_eq_some_iff.mp h
    have hvariant (v : Json) : decode (.obj [("NewPeer", v)]) = (Peer.decode v).map newPeer := rfl
    rw [encode, Json.normalize_single, hvariant, Peer.rereads v peer hpeer]
    rfl
  · have heq : b = .heartbeat := by
      unfold unitVariant at h
      split at h <;> cases h <;> rfl
    rw [heq]
    rfl
  · cases h

private theorem Channelized.rereads : Rereads Channelized.decode Channelized.encode := by
  intro j c h
  unfold Channelized.decode record at h
  split_ifs at h
  obtain ⟨data, hdata, h⟩ := Option.bind_eq_some_iff.mp h
  obtain ⟨channel, _, h⟩ := Option.bind_eq_some_iff.mp h
  obtain rfl := Option.some.inj h
  obtain ⟨_, hdata⟩ := exists_of_required hdata
  have hdata' := BroadcastByHost.rereads _ data hdata
  simp [Channelized.encode, Json.normalize, Json.normalizeFields, Json.keepLast, Json.sortFields,
    Channelized.decode, record, fits, required, member, decodeString, hdata']

private theorem Channelized.readValue_encode (c : Channelized BroadcastByHost) :
    c.encode.normalize.readValue = some c.encode.normalize := by
  have hall {elements : List Json} (h : ∀ j ∈ elements, j.readValue = some j) :
      Json.readValues elements = some elements := by
    induction elements with
    | nil => rfl
    | cons j rest ih =>
      obtain ⟨hj, hrest⟩ := List.forall_mem_cons.mp h
      simp [Json.readValues, hj, ih hrest]
  have hplayers (l : List String) : Json.readValues (l.map Json.str) = some (l.map Json.str) :=
    hall (List.forall_mem_map.mpr fun _ _ => rfl)
  have hhashes (l : List CanonicalEnvelopeHash) :
      Json.readValues (l.map CanonicalEnvelopeHash.encode) =
        some (l.map CanonicalEnvelopeHash.encode) :=
    hall (List.forall_mem_map.mpr fun _ _ => rfl)
  have hnormal (l : List CanonicalEnvelopeHash) :
      Json.normalizeAll (l.map CanonicalEnvelopeHash.encode) =
        l.map CanonicalEnvelopeHash.encode := by
    rw [Json.normalizeAll_eq, List.map_map]
    rfl
  have hnormal' (l : List String) : Json.normalizeAll (l.map Json.str) = l.map Json.str := by
    rw [Json.normalizeAll_eq, List.map_map]
    rfl
  obtain ⟨data, channel⟩ := c
  cases data <;>
    simp [Channelized.encode, BroadcastByHost.encode, GameSetup.encode, Peer.encode, encodeNat,
      Json.normalize, Json.normalizeFields, Json.keepLast, Json.sortFields, Json.readValue,
      Json.readFields, Json.numberToken, hplayers, hhashes, hnormal, hnormal']

private theorem Channelized.depth_encode_le (c : Channelized BroadcastByHost) :
    c.encode.depth ≤ 126 := by
  have hflat {α : Type} (f : α → Json) (hf : ∀ a, (f a).depth = 0) (l : List α) :
      Json.depths (l.map f) = 0 := by
    induction l with
    | nil => rfl
    | cons a l ih => simp [Json.depths, hf, ih]
  have hplayers (l : List String) : Json.depths (l.map Json.str) = 0 :=
    hflat _ (fun _ => rfl) l
  have hhashes (l : List CanonicalEnvelopeHash) :
      Json.depths (l.map CanonicalEnvelopeHash.encode) = 0 :=
    hflat _ (fun _ => rfl) l
  obtain ⟨data, channel⟩ := c
  cases data <;>
    simp [Channelized.encode, BroadcastByHost.encode, GameSetup.encode, Peer.encode, encodeNat,
      Json.depth, Json.fieldDepths, hplayers, hhashes]

section

variable {Psbt M : Type} {L : Libraries Psbt} {A : AttestEnvelopable M} {e : Envelope M}

/-- The envelope with its message read as one of a type. -/
def Envelope.readAs (A : AttestEnvelopable M) (e : Envelope Json) : Option (Envelope M) :=
  (A.deserialize e.msg).map fun msg => ⟨e.header, msg⟩

/-- The envelope that is read from a tree, unless that fails or panics. -/
def AttestEnvelopable.readEnvelope (A : AttestEnvelopable M) (L : Libraries Psbt) (j : Json) :
    Option (Envelope M) :=
  (GenericEnvelope.decode L A j).toOption.join.map GenericEnvelope.inner

/-- What an envelope has that was read from a tree. -/
structure Envelope.Received (L : Libraries Psbt) (e : Envelope Json) : Prop where
  read : (GenericErasedEnvelope.mk e.header e.msg).Read L
  value : e.msg.readValue = some e.msg
  safe : e.header.Safe

private theorem readEnvelope_encode (hheader : ∃ v, Header.decode L v = some e.header)
    (hsafe : e.header.Safe) (hcanonical : (A.serialize e.msg).isCanonical)
    (hdepth : (A.serialize e.msg).normalize.depth ≤ 126)
    (hvalue : (A.serialize e.msg).normalize.readValue = some (A.serialize e.msg).normalize)
    (hread : A.deserialize (A.serialize e.msg).normalize = some e.msg) :
    A.readEnvelope L (e.encode A).normalize = some e := by
  have hbody : (GenericErasedEnvelope.mk e.header (A.serialize e.msg).normalize).Read L :=
    ⟨hheader, hdepth, Json.normal_normalize _, Json.isCanonical_normalize _ hcanonical,
      Json.mixed_readValue _ hvalue⟩
  have hdecode := GenericErasedEnvelope.decode_body hbody hvalue
  have hnew := (GenericEnvelope.new_eq_ok_iff (L := L) hcanonical).mpr ⟨hsafe, rfl⟩
  have hsome := (GenericEnvelope.decode_eq_some_iff hdecode).mpr ⟨e.msg, hread, hnew⟩
  rw [AttestEnvelopable.readEnvelope, Envelope.normalize_encode, hsome]
  rfl

variable {u : Envelope Json}

theorem Envelope.Received.broadcast_rereads {e : Envelope (Channelized BroadcastByHost)}
    (hu : u.Received L) (h : u.readAs channelizedBroadcast = some e) :
    channelizedBroadcast.readEnvelope L (e.encode channelizedBroadcast).normalize = some e := by
  obtain ⟨msg, hmsg, rfl⟩ := Option.map_eq_some_iff.mp h
  apply readEnvelope_encode
  · exact hu.read.header
  · exact hu.safe
  · exact channelizedBroadcast.canonical _ _ hu.read.canonical hmsg
  · exact (Json.depth_normalize_le _).trans msg.depth_encode_le
  · exact msg.readValue_encode
  · exact Channelized.rereads _ msg hmsg

/-- What is written for an envelope is read, with its message as one of a type, as the envelope is. -/
theorem Envelope.Received.readEnvelope_eq (hu : u.Received L) :
    A.readEnvelope L (u.encode wrappedJson).normalize = u.readAs A := by
  have hdecode := GenericErasedEnvelope.decode_body hu.read hu.value
  have hwritten : (wrappedJson.serialize u.msg).normalize = u.msg := hu.read.normal
  rw [AttestEnvelopable.readEnvelope, Envelope.normalize_encode, hwritten, readAs]
  cases hmsg : A.deserialize u.msg with
  | none =>
    rw [GenericEnvelope.decode, hdecode]
    simp only [hmsg]
    rfl
  | some msg =>
    have hcanonical := A.canonical _ _ hu.read.canonical hmsg
    have hsome := (GenericEnvelope.decode_eq_some_iff hdecode).mpr
      ⟨msg, hmsg, (GenericEnvelope.new_eq_ok_iff hcanonical).mpr ⟨hu.safe, rfl⟩⟩
    rw [hsome]
    rfl

end

end JudicaVM
