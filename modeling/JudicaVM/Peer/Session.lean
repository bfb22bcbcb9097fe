import JudicaVM.Attest.Message
import JudicaVM.Lib.OrderedMap
import JudicaVM.Lib.Transition

/-!
# Request routing of a peer session

One task runs the session with a peer. In every turn it takes either a frame from the socket or a
request that some other task of the node has put into one of three queues. A request is remembered
under the number of its turn until the peer answers to that number, and the answer goes to the
oneshot channel that came with the request. Frames are whatever the peer sends.
-/

namespace JudicaVM

open Checked OrderedMap Std Transition

section

variable {M : Type}

/-- The requests `LatestTips`, `SpecificTips` and `Post` with what they carry. -/
inductive AttestRequest (M : Type)
  | latestTips
  | specificTips (tips : List CanonicalEnvelopeHash)
  | post (envelopes : List (Envelope M))

/-- The answers to them; the outcome of a posted envelope is its field `success`. -/
inductive AttestResponse (M : Type)
  | latestTips (envelopes : List (Envelope M))
  | specificTips (envelopes : List (Envelope M))
  | post (outcomes : List Bool)

inductive AttestSocketProtocol (M : Type)
  | request (seq : ℕ) (m : AttestRequest M)
  | response (seq : ℕ) (r : AttestResponse M)

/-- A frame of the socket: a text, which reads as a message of the protocol or does not, or a frame
of another type. -/
inductive Frame (M : Type)
  | text (read : Option (AttestSocketProtocol M))
  | other

abbrev ResponseCode := ℕ

def AttestRequest.responseCodeOf : AttestRequest M → ResponseCode
  | .latestTips => 0
  | .specificTips _ => 1
  | .post _ => 2

def AttestResponse.responseCodeOf : AttestResponse M → ResponseCode
  | .latestTips _ => 0
  | .specificTips _ => 1
  | .post _ => 2

inductive AttestProtocolError
  | jsonError
  | reqwetError
  | socketError
  | hostnameUnknown
  | nonZeroSync
  | incorrectMessageOwned
  | cookieMissMatch
  | timedOut
  | socketClosed
  | failedToAuthenticate
  | alreadyConnected
  | invalidSetup
  | databaseError
  | responseTypeIncorrect
  | unrequestedResponse
  | invalidChallengeHashString
  | selfConnection
  deriving DecidableEq

/-- How the task of a session ends. -/
inductive Exit
  | ok (text : String)
  | error (e : AttestProtocolError)
  | panicked
  deriving DecidableEq

/-- The sending half of a oneshot channel, which is known by its number. -/
inductive AnySender
  | latestTips (chan : ℕ)
  | post (chan : ℕ)
  | specificTips (chan : ℕ)
  deriving DecidableEq

def AnySender.chan : AnySender → ℕ
  | .latestTips chan => chan
  | .post chan => chan
  | .specificTips chan => chan

structure ResponseRouter where
  code : ResponseCode
  sender : AnySender

/-- The variables of the loop that requests and answers change. -/
structure Inflight where
  defecit : ℤ := 0
  inflightRequests : ExtTreeMap ℕ ResponseRouter := ∅

/-- Only allow 10 outstanding messages. -/
def maxMessageDefecit : ℤ := 10

/-- `sent` is what sending the request through the socket results in. -/
def handleInternalRequest (t : Inflight) (seq : ℕ) (msg : AttestRequest M)
    (responseChan : AnySender) (sent : Except Exit Unit) : Except Exit Inflight := do
  let inflightRequests := t.inflightRequests.insert seq ⟨msg.responseCodeOf, responseChan⟩
  let defecit := t.defecit + 1
  sent
  return ⟨defecit, inflightRequests⟩

/-- The loop after an answer, and the channel that the answer is sent to. -/
def routeResponse (t : Inflight) (seq : ℕ) (r : AttestResponse M) : Except Exit (Inflight × ℕ) :=
  let t' : Inflight := ⟨t.defecit - 1, t.inflightRequests.erase seq⟩
  match t.inflightRequests[seq]? with
  | none => .error (.error .unrequestedResponse)
  | some k =>
    if r.responseCodeOf ≠ k.code then .error (.error .responseTypeIncorrect)
    else
      match k.sender, r with
      | .latestTips s, .latestTips _ => .ok (t', s)
      | .post s, .post _ => .ok (t', s)
      | .specificTips s, .specificTips _ => .ok (t', s)
      | _, _ => .error (.error .responseTypeIncorrect)

/-- An answer that goes to the channel of a request. -/
structure Answer (M : Type) where
  seq : ℕ
  response : AttestResponse M
  chan : ℕ

/-- `served` is what serving a request of the peer from the database results in. -/
def handleMessageFromPeer (t : Inflight) (msg : Frame M) (served : Except Exit Unit) :
    Except Exit (Inflight × Option (Answer M)) :=
  match msg with
  | .other => .error (.error .incorrectMessageOwned)
  | .text none => .error (.error .jsonError)
  | .text (some (.request _ _)) => served.map fun _ => (t, none)
  | .text (some (.response seq r)) =>
    (routeResponse t seq r).map fun routed => (routed.1, some ⟨seq, r, routed.2⟩)

/-- A request that the session has taken from its queue, with its number. -/
structure Asked (M : Type) where
  seq : ℕ
  request : AttestRequest M
  chan : ℕ

/-- The receiving halves of the three queues, with the number of the oneshot channel that comes
with each request. -/
structure ProtocolReceiver (M : Type) where
  latestTips : List ℕ := []
  specificTips : List (List CanonicalEnvelopeHash × ℕ) := []
  post : List (List (Envelope M) × ℕ) := []

inductive RequestQueue
  | post
  | specificTips
  | latestTips

namespace ProtocolReceiver

variable (receiver : ProtocolReceiver M)

def send (chan : ℕ) : AttestRequest M → ProtocolReceiver M
  | .latestTips => { receiver with latestTips := receiver.latestTips ++ [chan] }
  | .specificTips tips => { receiver with specificTips := receiver.specificTips ++ [(tips, chan)] }
  | .post envelopes => { receiver with post := receiver.post ++ [(envelopes, chan)] }

/-- The first request of a queue with its oneshot channel, and the queues without it. -/
def recv : RequestQueue → Option ((AttestRequest M × AnySender) × ProtocolReceiver M)
  | .post =>
    match receiver.post with
    | [] => none
    | (envelopes, chan) :: rest =>
      some ((.post envelopes, .post chan), { receiver with post := rest })
  | .specificTips =>
    match receiver.specificTips with
    | [] => none
    | (tips, chan) :: rest =>
      some ((.specificTips tips, .specificTips chan), { receiver with specificTips := rest })
  | .latestTips =>
    match receiver.latestTips with
    | [] => none
    | chan :: rest =>
      some ((.latestTips, .latestTips chan), { receiver with latestTips := rest })

/-- The requests that wait, with their oneshot channels. -/
def requests : List (AttestRequest M × ℕ) :=
  receiver.latestTips.map (fun chan => (.latestTips, chan)) ++
    receiver.specificTips.map (fun entry => (.specificTips entry.1, entry.2)) ++
    receiver.post.map fun entry => (.post entry.1, entry.2)

end ProtocolReceiver

/-- A running or ended session. `made` lists the requests of the node, each with a oneshot channel
that is known by its place in the list, and the tasks that wait on the channels in `dropped` have
given up. The session's history is recorded: what it has asked, which numbers it has accepted an
answer to and what it has sent to which channel. -/
structure Session (M : Type) where
  seq : ℕ := 0
  inflight : Inflight := {}
  receiver : ProtocolReceiver M := {}
  made : List (AttestRequest M) := []
  dropped : List ℕ := []
  asked : List (Asked M) := []
  answered : List ℕ := []
  delivered : List (Answer M) := []
  exit : Option Exit := none

/-- A task of the node makes a oneshot channel and puts a request into a queue, a task gives up
waiting, and the turns of the loop: with a frame (`none` where the socket is disconnected), and with
a request from one of the queues. -/
inductive SessionEvent (M : Type)
  | request (m : AttestRequest M)
  | drop (chan : ℕ)
  | receive (msg : Option (Frame M)) (served : Except Exit Unit)
  | ask (queue : RequestQueue) (sent : Except Exit Unit)

namespace Session

variable (s : Session M)

def request (m : AttestRequest M) : Session M :=
  { s with made := s.made ++ [m], receiver := s.receiver.send s.made.length m }

/-- A oneshot channel takes the answer unless nobody waits on it any more. -/
def deliver (a : Answer M) : Session M :=
  { s with answered := a.seq :: s.answered,
           delivered := if a.chan ∈ s.dropped then s.delivered else s.delivered ++ [a] }

def receive (msg : Option (Frame M)) (served : Except Exit Unit) (seq : ℕ) :
    Except Exit (Session M) :=
  match msg with
  | none => .error (.ok "Peer Disconnected from us")
  | some msg =>
    (handleMessageFromPeer s.inflight msg served).map fun handled =>
      match handled.2 with
      | none => { s with seq, inflight := handled.1 }
      | some a => { s.deliver a with seq, inflight := handled.1 }

def ask (taken : (AttestRequest M × AnySender) × ProtocolReceiver M) (sent : Except Exit Unit)
    (seq : ℕ) : Except Exit (Session M) :=
  (handleInternalRequest s.inflight seq taken.1.1 taken.1.2 sent).map fun inflight =>
    { s with seq, inflight, receiver := taken.2,
             asked := s.asked ++ [⟨seq, taken.1.1, taken.1.2.chan⟩] }

/-- A turn of the loop. The session ends where the turn fails. -/
def turn (act : ℕ → Except Exit (Session M)) : Session M :=
  match add 64 s.seq 1 with
  | .error _ => { s with exit := some .panicked }
  | .ok seq =>
    match act seq with
    | .error e => { s with exit := some e }
    | .ok s' => s'

def step : SessionEvent M → Option (Session M)
  | .request m => if s.exit = none then some (s.request m) else none
  | .drop chan => some { s with dropped := chan :: s.dropped }
  | .receive msg served => if s.exit = none then some (s.turn (s.receive msg served)) else none
  | .ask queue sent =>
    if s.exit = none ∧ s.inflight.defecit < maxMessageDefecit then
      (s.receiver.recv queue).map fun taken => s.turn (s.ask taken sent)
    else none

/-- Any interleaving of requests of the node and frames of the peer. -/
def Step (s : Session M) (ev : SessionEvent M) (s' : Session M) : Prop := s.step ev = some s'

end Session

/-- The oneshot channel of a request as the type of the request makes it. -/
def AttestRequest.sender (m : AttestRequest M) (chan : ℕ) : AnySender :=
  match m with
  | .latestTips => .latestTips chan
  | .specificTips _ => .specificTips chan
  | .post _ => .post chan

def Asked.router (a : Asked M) : ResponseRouter :=
  ⟨a.request.responseCodeOf, a.request.sender a.chan⟩

@[simp] theorem AttestRequest.chan_sender (m : AttestRequest M) (chan : ℕ) :
    (m.sender chan).chan = chan := by
  cases m <;> rfl

private theorem handleInternalRequest_eq_ok_iff {t t' : Inflight} {seq : ℕ} {m : AttestRequest M}
    {sender : AnySender} {sent : Except Exit Unit} :
    handleInternalRequest t seq m sender sent = .ok t' ↔
      sent = .ok () ∧
        t' = ⟨t.defecit + 1, t.inflightRequests.insert seq ⟨m.responseCodeOf, sender⟩⟩ := by
  cases sent <;> simp [handleInternalRequest, bind, Except.bind, pure, Except.pure, eq_comm]

/-- An answer to a request in flight is sent to the channel of that request when it has its kind.
The session ends otherwise. -/
theorem routeResponse_router {t : Inflight} {seq : ℕ} {a : Asked M}
    (h : t.inflightRequests[seq]? = some a.router) (r : AttestResponse M) :
    routeResponse t seq r =
      if r.responseCodeOf = a.request.responseCodeOf then
        .ok (⟨t.defecit - 1, t.inflightRequests.erase seq⟩, a.chan)
      else .error (.error .responseTypeIncorrect) := by
  obtain ⟨q, m, chan⟩ := a
  cases m <;> cases r <;>
    simp [routeResponse, h, Asked.router, AttestRequest.sender, AttestRequest.responseCodeOf,
      AttestResponse.responseCodeOf]

private theorem routeResponse_none {t : Inflight} {seq : ℕ} (h : t.inflightRequests[seq]? = none)
    (r : AttestResponse M) : routeResponse t seq r = .error (.error .unrequestedResponse) := by
  simp [routeResponse, h]

namespace ProtocolReceiver

variable {receiver receiver' : ProtocolReceiver M}

private theorem recv_cases {queue : RequestQueue} {m : AttestRequest M} {sender : AnySender}
    (h : receiver.recv queue = some ((m, sender), receiver')) :
    ∃ chan, sender = m.sender chan ∧
      receiver.requests.Perm ((m, chan) :: receiver'.requests) := by
  cases queue with
  | post =>
    cases hq : receiver.post with
    | nil => simp [recv, hq] at h
    | cons first rest =>
      simp only [recv, hq, Option.some.injEq, Prod.mk.injEq] at h
      obtain ⟨⟨rfl, rfl⟩, rfl⟩ := h
      refine ⟨first.2, rfl, ?_⟩
      simp only [requests, hq, List.map_cons]
      exact List.perm_middle
  | specificTips =>
    cases hq : receiver.specificTips with
    | nil => simp [recv, hq] at h
    | cons first rest =>
      simp only [recv, hq, Option.some.injEq, Prod.mk.injEq] at h
      obtain ⟨⟨rfl, rfl⟩, rfl⟩ := h
      refine ⟨first.2, rfl, ?_⟩
      simp only [requests, hq, List.map_cons]
      exact List.perm_middle.append_right _
  | latestTips =>
    cases hq : receiver.latestTips with
    | nil => simp [recv, hq] at h
    | cons first rest =>
      simp only [recv, hq, Option.some.injEq, Prod.mk.injEq] at h
      obtain ⟨⟨rfl, rfl⟩, rfl⟩ := h
      refine ⟨first, rfl, ?_⟩
      simp [requests, hq]

private theorem requests_send (chan : ℕ) (m : AttestRequest M) :
    (receiver.send chan m).requests.Perm ((m, chan) :: receiver.requests) := by
  cases m with
  | latestTips =>
    simp only [requests, send, List.map_append, List.append_assoc]
    exact List.perm_middle
  | specificTips tips =>
    simp only [requests, send, List.map_append, ← List.append_assoc]
    exact (List.perm_append_singleton _ _).append_right _
  | post envelopes =>
    simp only [requests, send, List.map_append, ← List.append_assoc]
    exact List.perm_append_singleton _ _

end ProtocolReceiver

namespace Session

variable {s s' : Session M} {ev : SessionEvent M}

/-- What a step of a session can do. -/
inductive Effect (s : Session M) : Session M → Prop
  | request (hrunning : s.exit = none) (m : AttestRequest M) : Effect s (s.request m)
  | drop (chan : ℕ) : Effect s { s with dropped := chan :: s.dropped }
  | quit (hrunning : s.exit = none) (e : Exit) : Effect s { s with exit := some e }
  | serve (hrunning : s.exit = none) : Effect s { s with seq := s.seq + 1 }
  | answer (hrunning : s.exit = none) (a : Answer M) (inflight : Inflight)
      (hroute : routeResponse s.inflight a.seq a.response = .ok (inflight, a.chan)) :
      Effect s { s.deliver a with seq := s.seq + 1, inflight }
  | ask (hrunning : s.exit = none) (m : AttestRequest M) (chan : ℕ) (receiver : ProtocolReceiver M)
      (hroom : s.inflight.defecit < maxMessageDefecit)
      (htaken : s.receiver.requests.Perm ((m, chan) :: receiver.requests)) :
      Effect s { s with
        seq := s.seq + 1, receiver, asked := s.asked ++ [⟨s.seq + 1, m, chan⟩],
        inflight := ⟨s.inflight.defecit + 1, s.inflight.inflightRequests.insert (s.seq + 1)
          (Asked.router ⟨s.seq + 1, m, chan⟩)⟩ }

private theorem turn_cases (act : ℕ → Except Exit (Session M)) :
    (∃ e, s.turn act = { s with exit := some e }) ∨ act (s.seq + 1) = .ok (s.turn act) := by
  cases hadd : add 64 s.seq 1 with
  | error p => exact .inl ⟨.panicked, by simp [turn, hadd]⟩
  | ok seq =>
    obtain ⟨-, rfl⟩ := add_eq_ok_iff.mp hadd
    cases hact : act (s.seq + 1) with
    | error e => exact .inl ⟨e, by simp [turn, hadd, hact]⟩
    | ok t => exact .inr (by simp [turn, hadd, hact])

private theorem receive_cases {msg : Option (Frame M)} {served : Except Exit Unit} {seq : ℕ}
    (h : s.receive msg served seq = .ok s') :
    s' = { s with seq } ∨ ∃ (a : Answer M) (inflight : Inflight),
      routeResponse s.inflight a.seq a.response = .ok (inflight, a.chan) ∧
      s' = { s.deliver a with seq, inflight } := by
  rcases msg with _ | ((_ | (⟨q, m⟩ | ⟨q, r⟩)) | _)
  · cases h
  · cases h
  · cases served with
    | error e => cases h
    | ok _ => exact .inl (Except.ok.inj h).symm
  · cases hroute : routeResponse s.inflight q r with
    | error e => simp [receive, handleMessageFromPeer, hroute, Except.map] at h
    | ok routed =>
      have hs : { s.deliver ⟨q, r, routed.2⟩ with seq, inflight := routed.1 } = s' := by
        simpa [receive, handleMessageFromPeer, hroute, Except.map] using h
      exact .inr ⟨⟨q, r, routed.2⟩, routed.1, hroute, hs.symm⟩
  · cases h

private theorem ask_cases {m : AttestRequest M} {sender : AnySender} {receiver : ProtocolReceiver M}
    {sent : Except Exit Unit} {seq : ℕ} (h : s.ask ((m, sender), receiver) sent seq = .ok s') :
    s' = { s with
      seq, receiver, asked := s.asked ++ [⟨seq, m, sender.chan⟩],
      inflight := ⟨s.inflight.defecit + 1,
        s.inflight.inflightRequests.insert seq ⟨m.responseCodeOf, sender⟩⟩ } := by
  cases hsent : handleInternalRequest s.inflight seq m sender sent with
  | error e => simp [ask, hsent, Except.map] at h
  | ok inflight =>
    obtain ⟨-, rfl⟩ := handleInternalRequest_eq_ok_iff.mp hsent
    simpa [ask, hsent, Except.map] using h.symm

private theorem step_effect (h : Step s ev s') : Effect s s' := by
  cases ev with
  | request m =>
    obtain ⟨hrunning, hs⟩ := Option.ite_none_right_eq_some.mp h
    cases hs
    exact .request hrunning m
  | drop chan =>
    cases h
    exact .drop chan
  | receive msg served =>
    obtain ⟨hrunning, hs⟩ := Option.ite_none_right_eq_some.mp h
    cases hs
    rcases s.turn_cases (s.receive msg served) with ⟨e, hturn⟩ | hturn
    · rw [hturn]
      exact .quit hrunning e
    · rcases receive_cases hturn with hs | ⟨a, inflight, hroute, hs⟩
      · rw [hs]
        exact .serve hrunning
      · rw [hs]
        exact .answer hrunning a inflight hroute
  | ask queue sent =>
    obtain ⟨⟨hrunning, hroom⟩, hs⟩ := Option.ite_none_right_eq_some.mp h
    obtain ⟨⟨⟨m, sender⟩, receiver⟩, hrecv, rfl⟩ := Option.map_eq_some_iff.mp hs
    obtain ⟨chan, rfl, htaken⟩ := ProtocolReceiver.recv_cases hrecv
    rcases s.turn_cases (s.ask ((m, m.sender chan), receiver) sent) with ⟨e, hturn⟩ | hturn
    · rw [hturn]
      exact .quit hrunning e
    · have hs := ask_cases hturn
      rw [AttestRequest.chan_sender] at hs
      rw [hs]
      exact .ask hrunning m chan receiver hroom htaken

/-- The requests that were asked or wait, with their oneshot channels. -/
def requests (s : Session M) : List (AttestRequest M × ℕ) :=
  s.asked.map (fun a => (a.request, a.chan)) ++ s.receiver.requests

/-- The table holds what was asked and not answered, under distinct numbers, and every answer that
was delivered went to the channel of the request with its number. -/
structure Routed (s : Session M) : Prop where
  seq_le : ∀ a ∈ s.asked, a.seq ≤ s.seq
  seqs : (s.asked.map Asked.seq).Nodup
  made : ∀ entry ∈ s.requests, s.made[entry.2]? = some entry.1
  chans : (s.requests.map Prod.snd).Nodup
  lookup : ∀ q k, s.inflight.inflightRequests[q]? = some k ↔
    ∃ a ∈ s.asked, a.seq = q ∧ q ∉ s.answered ∧ k = a.router
  answered : ∀ q ∈ s.answered, ∃ a ∈ s.asked, a.seq = q
  defecit : s.inflight.defecit = s.inflight.inflightRequests.size
  defecit_le : s.inflight.defecit ≤ maxMessageDefecit
  delivered : ∀ d ∈ s.delivered, d.seq ∈ s.answered ∧ ∃ a ∈ s.asked,
    a.seq = d.seq ∧ a.chan = d.chan ∧ a.request.responseCodeOf = d.response.responseCodeOf
  once : (s.delivered.map Answer.chan).Nodup

namespace Routed

private theorem initial : Routed ({} : Session M) where
  seq_le := by simp
  seqs := by simp
  made := by simp [requests, ProtocolReceiver.requests]
  chans := by simp [requests, ProtocolReceiver.requests]
  lookup := by simp
  answered := by simp
  defecit := by simp
  defecit_le := by simp [maxMessageDefecit]
  delivered := by simp
  once := by simp

variable (hs : s.Routed)
include hs

private theorem eq_of_seq {a b : Asked M} (ha : a ∈ s.asked) (hb : b ∈ s.asked)
    (h : a.seq = b.seq) : a = b :=
  List.inj_on_of_nodup_map hs.seqs ha hb h

private theorem eq_of_chan {a b : Asked M} (ha : a ∈ s.asked) (hb : b ∈ s.asked)
    (h : a.chan = b.chan) :
    a = b := by
  have hnodup := hs.chans
  rw [requests, List.map_append, List.map_map] at hnodup
  exact List.inj_on_of_nodup_map hnodup.of_append_left ha hb h

private theorem request (m : AttestRequest M) : (s.request m).Routed := by
  have hperm : (s.request m).requests.Perm ((m, s.made.length) :: s.requests) :=
    ((ProtocolReceiver.requests_send s.made.length m).append_left _).trans List.perm_middle
  have hlt : ∀ entry ∈ s.requests, entry.2 < s.made.length := by
    intro entry hentry
    exact (List.getElem?_eq_some_iff.mp (hs.made entry hentry)).1
  exact {
    hs with
    made := by
      intro entry hentry
      show (s.made ++ [m])[entry.2]? = some entry.1
      rcases List.mem_cons.mp (hperm.mem_iff.mp hentry) with rfl | hentry
      · simp
      · rw [List.getElem?_append_left (hlt entry hentry)]
        exact hs.made entry hentry
    chans := by
      rw [(hperm.map Prod.snd).nodup_iff, List.map_cons, List.nodup_cons]
      refine ⟨?_, hs.chans⟩
      intro hmem
      obtain ⟨entry, hentry, heq⟩ := List.mem_map.mp hmem
      exact Nat.ne_of_lt (hlt entry hentry) heq }

private theorem serve : ({ s with seq := s.seq + 1 } : Session M).Routed :=
  { hs with seq_le := fun a ha => Nat.le_succ_of_le (hs.seq_le a ha) }

private theorem ask {m : AttestRequest M} {chan : ℕ} {receiver : ProtocolReceiver M}
    (hroom : s.inflight.defecit < maxMessageDefecit)
    (htaken : s.receiver.requests.Perm ((m, chan) :: receiver.requests)) :
    ({ s with
        seq := s.seq + 1, receiver, asked := s.asked ++ [⟨s.seq + 1, m, chan⟩],
        inflight := ⟨s.inflight.defecit + 1, s.inflight.inflightRequests.insert (s.seq + 1)
          (Asked.router ⟨s.seq + 1, m, chan⟩)⟩ } : Session M).Routed := by
  have hfresh : ∀ a ∈ s.asked, a.seq ≠ s.seq + 1 := by
    intro a ha heq
    have hle := hs.seq_le a ha
    omega
  have hunanswered : s.seq + 1 ∉ s.answered := by
    intro hmem
    obtain ⟨a, ha, heq⟩ := hs.answered _ hmem
    exact hfresh a ha heq
  have habsent : s.inflight.inflightRequests[s.seq + 1]? = none := by
    apply Option.eq_none_iff_forall_ne_some.mpr
    intro k hk
    obtain ⟨a, ha, heq, -⟩ := (hs.lookup _ k).mp hk
    exact hfresh a ha heq
  have hperm : ((s.asked ++ [(⟨s.seq + 1, m, chan⟩ : Asked M)]).map
      (fun a => (a.request, a.chan)) ++ receiver.requests).Perm s.requests := by
    rw [List.map_append, List.append_assoc]
    exact htaken.symm.append_left _
  exact {
    seq_le := by
      intro a ha
      rcases List.mem_append.mp ha with ha | ha
      · exact Nat.le_succ_of_le (hs.seq_le a ha)
      · rw [List.mem_singleton.mp ha]
    seqs := by
      rw [List.map_append, List.nodup_append]
      refine ⟨hs.seqs, List.nodup_singleton _, ?_⟩
      intro q hq q' hq' heq
      obtain ⟨a, ha, rfl⟩ := List.mem_map.mp hq
      exact hfresh a ha (heq.trans (List.mem_singleton.mp hq'))
    made := fun entry hentry => hs.made entry (hperm.mem_iff.mp hentry)
    chans := (hperm.map Prod.snd).nodup_iff.mpr hs.chans
    lookup := by
      intro q k
      rw [getElem?_insert]
      by_cases hq : s.seq + 1 = q
      · subst hq
        constructor
        · intro hk
          simp only [if_true, Option.some.injEq] at hk
          exact ⟨_, List.mem_append_right _ (List.mem_singleton_self _), rfl, hunanswered, hk.symm⟩
        · rintro ⟨a, ha, heq, -, rfl⟩
          rcases List.mem_append.mp ha with ha | ha
          · exact absurd heq (hfresh a ha)
          · rw [if_pos rfl, List.mem_singleton.mp ha]
      · rw [if_neg hq, hs.lookup]
        constructor
        · rintro ⟨a, ha, h⟩
          exact ⟨a, List.mem_append_left _ ha, h⟩
        · rintro ⟨a, ha, heq, h⟩
          rcases List.mem_append.mp ha with ha | ha
          · exact ⟨a, ha, heq, h⟩
          · rw [List.mem_singleton.mp ha] at heq
            exact absurd heq hq
    answered := by
      intro q hq
      obtain ⟨a, ha, heq⟩ := hs.answered q hq
      exact ⟨a, List.mem_append_left _ ha, heq⟩
    defecit := by
      have hsize : (s.inflight.inflightRequests.insert (s.seq + 1)
          (Asked.router ⟨s.seq + 1, m, chan⟩)).size = s.inflight.inflightRequests.size + 1 := by
        rw [ExtTreeMap.size_insert, if_neg]
        simp [ExtTreeMap.contains_eq_isSome_getElem?, habsent]
      show s.inflight.defecit + 1 = _
      rw [hsize, hs.defecit]
      rfl
    defecit_le := Int.add_one_le_of_lt hroom
    delivered := by
      intro d hd
      obtain ⟨hanswered, a, ha, h⟩ := hs.delivered d hd
      exact ⟨hanswered, a, List.mem_append_left _ ha, h⟩
    once := hs.once }

private theorem answer {a : Asked M} {d : Answer M} (ha : a ∈ s.asked) (hseq : a.seq = d.seq)
    (hchan : a.chan = d.chan) (hkind : a.request.responseCodeOf = d.response.responseCodeOf)
    (hwaits : d.seq ∉ s.answered) :
    ({ s.deliver d with
        seq := s.seq + 1,
        inflight := ⟨s.inflight.defecit - 1, s.inflight.inflightRequests.erase d.seq⟩ } :
      Session M).Routed := by
  have hentry : s.inflight.inflightRequests[d.seq]? = some a.router :=
    (hs.lookup _ _).mpr ⟨a, ha, hseq, hwaits, rfl⟩
  have hsize : (s.inflight.inflightRequests.erase d.seq).size + 1 =
      s.inflight.inflightRequests.size := by
    have hcontains : s.inflight.inflightRequests.contains d.seq := by
      rw [ExtTreeMap.contains_eq_isSome_getElem?, hentry]
      rfl
    have hpos : s.inflight.inflightRequests.size ≠ 0 := by
      intro hzero
      rw [ExtTreeMap.eq_empty_iff_size_eq_zero.mpr hzero] at hentry
      simp at hentry
    rw [ExtTreeMap.size_erase, if_pos hcontains]
    omega
  have hmem : ∀ d' ∈ (s.deliver d).delivered, d' ∈ s.delivered ∨ d' = d := by
    intro d' hd'
    by_cases hdropped : d.chan ∈ s.dropped
    · exact .inl (by simpa [deliver, hdropped] using hd')
    · simpa [deliver, hdropped] using hd'
  exact {
    hs with
    seq_le := fun b hb => Nat.le_succ_of_le (hs.seq_le b hb)
    lookup := by
      intro q k
      show (s.inflight.inflightRequests.erase d.seq)[q]? = some k ↔
        ∃ b ∈ s.asked, b.seq = q ∧ q ∉ d.seq :: s.answered ∧ k = b.router
      simp only [ExtTreeMap.getElem?_erase, LawfulEqCmp.compare_eq_iff_eq]
      by_cases hq : d.seq = q
      · simp [hq]
      · have hq' : q ≠ d.seq := fun h => hq h.symm
        rw [if_neg hq, hs.lookup]
        simp [hq']
    answered := by
      intro q hq
      rcases List.mem_cons.mp hq with rfl | hq
      · exact ⟨a, ha, hseq⟩
      · exact hs.answered q hq
    defecit := by
      show s.inflight.defecit - 1 = _
      rw [hs.defecit, ← hsize]
      simp
    defecit_le := Int.le_trans (Int.sub_le_self _ (by decide)) hs.defecit_le
    delivered := by
      intro d' hd'
      rcases hmem d' hd' with hd' | rfl
      · obtain ⟨hanswered, h⟩ := hs.delivered d' hd'
        exact ⟨List.mem_cons_of_mem _ hanswered, h⟩
      · exact ⟨List.mem_cons_self, a, ha, hseq, hchan, hkind⟩
    once := by
      by_cases hdropped : d.chan ∈ s.dropped
      · simpa [deliver, hdropped] using hs.once
      · have hnew : d.chan ∉ s.delivered.map Answer.chan := by
          intro hmem
          obtain ⟨d', hd', heq⟩ := List.mem_map.mp hmem
          obtain ⟨hanswered, b, hb, hbseq, hbchan, -⟩ := hs.delivered d' hd'
          have hab := hs.eq_of_chan hb ha (hbchan.trans (heq.trans hchan.symm))
          rw [← hbseq, hab, hseq] at hanswered
          exact hwaits hanswered
        show ((s.deliver d).delivered.map Answer.chan).Nodup
        rw [deliver, if_neg hdropped, List.map_append, List.nodup_append]
        refine ⟨hs.once, List.nodup_singleton _, ?_⟩
        intro chan hmem chan' hchan' heq
        rw [heq, List.mem_singleton.mp hchan'] at hmem
        exact hnew hmem }

private theorem effect (h : Effect s s') : s'.Routed := by
  cases h with
  | request hrunning m => exact hs.request m
  | drop chan => exact { hs with }
  | quit hrunning e => exact { hs with }
  | serve hrunning => exact hs.serve
  | answer hrunning d inflight hroute =>
    cases hentry : s.inflight.inflightRequests[d.seq]? with
    | none =>
      rw [routeResponse_none hentry] at hroute
      cases hroute
    | some k =>
      obtain ⟨a, ha, hseq, hwaits, rfl⟩ := (hs.lookup _ k).mp hentry
      rw [routeResponse_router hentry] at hroute
      split at hroute
      · rename_i hkind
        obtain ⟨hinflight, hchan⟩ := Prod.mk.inj (Except.ok.inj hroute)
        rw [← hinflight]
        exact hs.answer ha hseq hchan hkind.symm hwaits
      · cases hroute
  | ask hrunning m chan receiver hroom htaken => exact hs.ask hroom htaken

end Routed

private theorem routed (h : Run Step (fun _ => True) ({} : Session M) s) : s.Routed :=
  Run.invariant (fun _ _ _ _ hi hstep => hi.effect (step_effect hstep)) h Routed.initial

/-- A request with this number and of the kind of the answer has been asked, and no answer to it has
been accepted. -/
def Awaits (s : Session M) (seq : ℕ) (r : AttestResponse M) : Prop :=
  ∃ a ∈ s.asked, a.seq = seq ∧ seq ∉ s.answered ∧ a.request.responseCodeOf = r.responseCodeOf

/-- The requests in flight. -/
def outstanding (s : Session M) : List (Asked M) := s.asked.filter fun a => a.seq ∉ s.answered

namespace Routed

variable (hs : s.Routed)
include hs

private theorem keys_perm :
    (s.outstanding.map Asked.seq).Perm s.inflight.inflightRequests.keys := by
  have hkeys : s.inflight.inflightRequests.keys.Nodup := by
    apply ExtTreeMap.distinct_keys.imp
    intro q q' hne heq
    exact hne (LawfulEqCmp.compare_eq_iff_eq.mpr heq)
  have hseqs : (s.outstanding.map Asked.seq).Nodup := hs.seqs.sublist (List.filter_sublist.map _)
  rw [List.perm_ext_iff_of_nodup hseqs hkeys]
  intro q
  rw [ExtTreeMap.mem_keys, ExtTreeMap.mem_iff_isSome_getElem?, Option.isSome_iff_exists]
  constructor
  · intro hq
    obtain ⟨a, ha, rfl⟩ := List.mem_map.mp hq
    obtain ⟨ha, hwaits⟩ := List.mem_filter.mp ha
    exact ⟨a.router, (hs.lookup _ _).mpr ⟨a, ha, rfl, of_decide_eq_true hwaits, rfl⟩⟩
  · rintro ⟨k, hk⟩
    obtain ⟨a, ha, rfl, hwaits, -⟩ := (hs.lookup _ _).mp hk
    exact List.mem_map_of_mem (List.mem_filter.mpr ⟨ha, decide_eq_true hwaits⟩)

private theorem outstanding_length : s.outstanding.length = s.inflight.inflightRequests.size := by
  rw [← List.length_map Asked.seq, hs.keys_perm.length_eq, ExtTreeMap.length_keys]

private theorem routeResponse_unawaited {seq : ℕ} {r : AttestResponse M} (h : ¬ s.Awaits seq r) :
    ∃ e, routeResponse s.inflight seq r = .error e := by
  cases hentry : s.inflight.inflightRequests[seq]? with
  | none => exact ⟨_, routeResponse_none hentry r⟩
  | some k =>
    obtain ⟨a, ha, hseq, hwaits, rfl⟩ := (hs.lookup _ k).mp hentry
    rw [routeResponse_router hentry, if_neg]
    · exact ⟨_, rfl⟩
    · intro hkind
      exact h ⟨a, ha, hseq, hwaits, hkind.symm⟩

end Routed

private theorem delivered_of_exit (h : Run Step (fun _ => True) s s') (hexit : s.exit ≠ none) :
    s'.delivered = s.delivered ∧ s'.exit = s.exit := by
  induction h with
  | refl => exact ⟨rfl, rfl⟩
  | tail _ hstep ih =>
    obtain ⟨ev, -, hstep⟩ := hstep
    rw [← ih.2] at hexit
    cases step_effect hstep with
    | drop chan => exact ih
    | _ => contradiction

private theorem Routed.unawaited (hs : s.Routed) {seq : ℕ} {r : AttestResponse M}
    {served : Except Exit Unit} (h : ¬ s.Awaits seq r)
    (hstep : Step s (.receive (some (.text (some (.response seq r)))) served) s') :
    s'.exit ≠ none ∧ s'.delivered = s.delivered := by
  obtain ⟨hrunning, hs'⟩ := Option.ite_none_right_eq_some.mp hstep
  cases hs'
  obtain ⟨e, hroute⟩ := hs.routeResponse_unawaited h
  rcases s.turn_cases (s.receive (some (.text (some (.response seq r)))) served) with
    ⟨e', hturn⟩ | hturn
  · rw [hturn]
    exact ⟨by simp, rfl⟩
  · simp [receive, handleMessageFromPeer, hroute, Except.map] at hturn

theorem Routed.awaited (hs : s.Routed) {a : Asked M} {r : AttestResponse M}
    {served : Except Exit Unit} (ha : a ∈ s.asked) (hwaits : a.seq ∉ s.answered)
    (hkind : a.request.responseCodeOf = r.responseCodeOf) (hseq : s.seq + 1 < 2 ^ 64)
    (hstep : Step s (.receive (some (.text (some (.response a.seq r)))) served) s') :
    s'.exit = none ∧
      s'.delivered =
        if a.chan ∈ s.dropped then s.delivered else s.delivered ++ [⟨a.seq, r, a.chan⟩] := by
  obtain ⟨hrunning, hs'⟩ := Option.ite_none_right_eq_some.mp hstep
  cases hs'
  have hentry : s.inflight.inflightRequests[a.seq]? = some a.router :=
    (hs.lookup _ _).mpr ⟨a, ha, rfl, hwaits, rfl⟩
  have hroute := routeResponse_router hentry r
  rw [if_pos hkind.symm] at hroute
  rw [turn, add_of_lt hseq]
  simp [receive, handleMessageFromPeer, hroute, Except.map, deliver, hrunning]

private theorem Routed.delivered_seqs (hs : s.Routed) : (s.delivered.map Answer.seq).Nodup := by
  have honce := hs.once
  rw [List.Nodup, List.pairwise_map] at honce ⊢
  apply honce.imp_of_mem
  intro d d' hd hd' hne heq
  obtain ⟨-, a, ha, hseq, hchan, -⟩ := hs.delivered d hd
  obtain ⟨-, b, hb, hseq', hchan', -⟩ := hs.delivered d' hd'
  have hab := hs.eq_of_seq ha hb (hseq.trans (heq.trans hseq'.symm))
  rw [← hchan, hab, hchan'] at hne
  exact hne rfl

/-- Routing for any interleaving of requests of the node and frames of the peer. -/
theorem requests_routed (h : Run Step (fun _ => True) ({} : Session M) s) :
    (s.exit = none → s.inflight.defecit = s.inflight.inflightRequests.size ∧
      s.inflight.inflightRequests.size = s.outstanding.length ∧
      0 ≤ s.inflight.defecit ∧ s.inflight.defecit ≤ maxMessageDefecit) ∧
    (s.asked.map Asked.seq).Nodup ∧
    (∀ d ∈ s.delivered, ∃! a, a ∈ s.asked ∧ a.seq = d.seq ∧ a.chan = d.chan ∧
      a.request.responseCodeOf = d.response.responseCodeOf ∧ s.made[d.chan]? = some a.request) ∧
    (s.delivered.map Answer.chan).Nodup ∧ (s.delivered.map Answer.seq).Nodup ∧
    ∀ seq r served s', ¬ s.Awaits seq r →
      Step s (.receive (some (.text (some (.response seq r)))) served) s' → s'.exit ≠ none ∧
        ∀ s'', Run Step (fun _ => True) s' s'' → s''.delivered = s.delivered := by
  have hs := routed h
  refine ⟨?_, hs.seqs, ?_, hs.once, hs.delivered_seqs, ?_⟩
  · intro _
    refine ⟨hs.defecit, hs.outstanding_length.symm, ?_, hs.defecit_le⟩
    rw [hs.defecit]
    exact Int.natCast_nonneg _
  · intro d hd
    obtain ⟨-, a, ha, hseq, hchan, hkind⟩ := hs.delivered d hd
    have hmade : s.made[a.chan]? = some a.request := by
      apply hs.made (a.request, a.chan)
      exact List.mem_append_left _ (List.mem_map_of_mem (f := fun a => (a.request, a.chan)) ha)
    refine ⟨a, ⟨ha, hseq, hchan, hkind, hchan ▸ hmade⟩, ?_⟩
    rintro b ⟨hb, hbseq, -⟩
    exact hs.eq_of_seq hb ha (hbseq.trans hseq.symm)
  · intro seq r served s' hunawaited hstep
    obtain ⟨hexit, hdelivered⟩ := hs.unawaited hunawaited hstep
    refine ⟨hexit, ?_⟩
    intro s'' hrun
    rw [(delivered_of_exit hrun hexit).1, hdelivered]

/-- An empty answer to the request with number 1. -/
def latestTipsAnswer : Frame ℕ := .text (some (.response 1 (.latestTips [])))

/-- A session that has asked for the latest tips. -/
def asking : Session ℕ where
  seq := 1
  inflight := ⟨1, (∅ : ExtTreeMap ℕ ResponseRouter).insert 1 ⟨0, .latestTips 0⟩⟩
  made := [.latestTips]
  asked := [⟨1, .latestTips, 0⟩]

/-- The same session after the answer. -/
def exchange : Session ℕ where
  seq := 2
  inflight := ⟨0, ((∅ : ExtTreeMap ℕ ResponseRouter).insert 1 ⟨0, .latestTips 0⟩).erase 1⟩
  made := [.latestTips]
  asked := [⟨1, .latestTips, 0⟩]
  answered := [1]
  delivered := [⟨1, .latestTips [], 0⟩]

private theorem exchange_run : Run Step (fun _ => True) ({} : Session ℕ) exchange := by
  have hrequest : Step ({} : Session ℕ) (.request .latestTips) (request {} .latestTips) := rfl
  have hask : Step (request {} .latestTips) (.ask .latestTips (.ok ())) asking := rfl
  have hreceive : Step asking (.receive (some latestTipsAnswer) (.ok ())) exchange := rfl
  exact ((Run.single trivial hrequest).tail trivial hask).tail trivial hreceive

theorem requests_routed_exchange :
    exchange.inflight.defecit = exchange.inflight.inflightRequests.size ∧
      (∃! a, a ∈ exchange.asked ∧ a.seq = 1 ∧ a.chan = 0 ∧
        a.request.responseCodeOf = 0 ∧ exchange.made[0]? = some a.request) ∧
      ∀ s', Step exchange (.receive (some latestTipsAnswer) (.ok ())) s' → s'.exit ≠ none := by
  obtain ⟨hturn, -, hdelivered, -, -, hunawaited⟩ := requests_routed exchange_run
  refine ⟨(hturn rfl).1, hdelivered _ List.mem_cons_self, ?_⟩
  intro s' hstep
  refine (hunawaited 1 (.latestTips []) (.ok ()) s' ?_ hstep).1
  rintro ⟨a, -, -, hwaits, -⟩
  exact hwaits List.mem_cons_self

end Session
end
end JudicaVM
