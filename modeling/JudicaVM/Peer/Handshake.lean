import JudicaVM.Lib.Normal
import JudicaVM.Lib.OrderedMap
import JudicaVM.Lib.Transition
import JudicaVM.Peer.Session
import JudicaVM.Peer.Connections
import Mathlib.Data.Finset.Insert

/-!
# The authentication handshake

The server of a socket sends the hash of a random cookie, posts the cookie to the address that the
client claims, and waits until the client sends it back. A node keeps the hashes that its own clients
wait for in one jar. The other end of a socket may be anybody, and so may be who posts a cookie.
-/

namespace JudicaVM

open Serde Std Transition

/-- 32 bytes, the most significant first. -/
abbrev Secret := BitVec 256

abbrev Challenge := BitVec 256

def toHex (bytes : BitVec 256) : String :=
  String.ofList ((Nat.toDigits 16 bytes.toNat).leftpad 64 '0')

def fromHex (s : String) : Option Challenge :=
  if s.length = 64 then (ofHexDigits s.toList).map (BitVec.ofNat 256) else none

/-- The sending half of the channel of a client, with the time of its challenge. -/
abbrev CookieJar := ExtTreeMap Challenge (ℕ × ℤ)

namespace CookieJar

/-- Once there are more than 100 challenges, those of more than 20 seconds ago go, and if that is
not enough, the least one. -/
def collectGarbage (cookiejar : CookieJar) (now : ℤ) : CookieJar :=
  if 100 < cookiejar.size then
    let kept := cookiejar.filter fun _ x => now - 1000 * 20 < x.2
    if 100 < kept.size then
      match kept.minKey? with
      | some unstale => kept.erase unstale
      | none => kept
    else kept
  else cookiejar

/-- The clock is read for the collection and again for the entry. -/
def expectACookie (cookiejar : CookieJar) (challenge : Challenge) (chan : ℕ) (now later : ℤ) :
    CookieJar :=
  (cookiejar.collectGarbage now).insert challenge (chan, later)

theorem getElem?_expectACookie_self (cookiejar : CookieJar) (challenge : Challenge) (chan : ℕ)
    (now later : ℤ) :
    (cookiejar.expectACookie challenge chan now later)[challenge]? = some (chan, later) := by
  rw [expectACookie, OrderedMap.getElem?_insert, if_pos rfl]

end CookieJar

/-- What `t_recv` returns. -/
inductive SocketRead
  | text (s : String)
  | other
  | failed
  | closed
  deriving DecidableEq

def SocketRead.onlyText : SocketRead → Except AttestProtocolError String
  | .text s => .ok s
  | .other => .error .incorrectMessageOwned
  | .failed => .error .socketError
  | .closed => .error .socketClosed

inductive ServerPhase
  | awaitingName
  | awaitingAck (s : ServiceUrl)
  | authenticating (s : ServiceUrl)
  | awaitingResponse (s : ServiceUrl)
  | accepted (s : ServiceUrl)
  | failed (e : AttestProtocolError)
  deriving DecidableEq

/-- A run of `handshake_protocol_server` at a node. -/
structure ServerSession where
  node : ServiceUrl
  phase : ServerPhase
  deriving DecidableEq

inductive ClientPhase
  | awaitingChallenge
  | awaitingCookie (challenge : Challenge)
  | learned (challenge : Challenge) (cookie : Secret)
  /-- The cookie was handed to the socket, which may have failed. -/
  | answered (challenge : Challenge) (cookie : Secret) (sent : Bool)
  | failed (e : AttestProtocolError)
  deriving DecidableEq

/-- A run of `handshake_protocol_client` at a node, with the peer that it has dialled. -/
structure ClientSession where
  node : ServiceUrl
  peer : ServiceUrl
  phase : ClientPhase
  deriving DecidableEq

/-- What the handshakes take from libraries and from their environment: a hash function, the cookie
that every server session draws, how names are written as JSON, and the addresses behind which the
code runs. -/
structure CookieScheme (ι : Type) where
  hash : Secret → Challenge
  newCookie : ι → Secret
  readName : String → Option ServiceUrl
  writeName : ServiceUrl → String
  honest : ServiceUrl → Bool

def ServerPhase.onAck (s : ServiceUrl) (r : SocketRead) : ServerPhase :=
  match r.onlyText with
  | .error e => .failed e
  | .ok challengeAck => if challengeAck = "" then .authenticating s else .failed .nonZeroSync

variable {ι : Type}

namespace CookieScheme

variable (H : CookieScheme ι)

/-- The name, the client for the post and the sending of the challenge. -/
def onName (r : SocketRead) (client sent : Bool) : ServerPhase :=
  match r.onlyText with
  | .error e => .failed e
  | .ok t =>
    match H.readName t with
    | none => .failed .jsonError
    | some s =>
      if client then if sent then .awaitingAck s else .failed .socketClosed
      else .failed .reqwetError

def onResponse (j : ι) (s : ServiceUrl) (r : SocketRead) : ServerPhase :=
  match r.onlyText with
  | .error e => .failed e
  | .ok c => if c = toHex (H.newCookie j) then .accepted s else .failed .cookieMissMatch

end CookieScheme

/-- The jars of the nodes, the sessions, and the cookies that others than honest nodes have seen. -/
structure Handshakes (ι : Type) where
  jar : ServiceUrl → CookieJar := fun _ => ∅
  server : ι → Option ServerSession := fun _ => none
  client : ℕ → Option ClientSession := fun _ => none
  seen : Finset Secret := ∅

inductive HandshakeEvent (ι : Type)
  | accept (j : ι) (node : ServiceUrl)
  | name (j : ι) (r : SocketRead) (client sent : Bool)
  | ack (j : ι) (r : SocketRead)
  /-- The post to `/authenticate`, which is delivered if it returns well. -/
  | authenticate (j : ι) (delivered ok : Bool)
  | response (j : ι) (r : SocketRead)
  | serverTimeout (j : ι)
  | dial (i : ℕ) (node peer : ServiceUrl) (sent : Bool)
  | challenge (i : ℕ) (r : SocketRead) (now later : ℤ)
  | answer (i : ℕ) (sent : Bool)
  /-- No cookie arrives in time, its channel is dropped, or the challenge cannot be acknowledged. -/
  | clientTimeout (i : ℕ)
  /-- Anybody posts a cookie to `/authenticate` of a node. -/
  | post (node : ServiceUrl) (cookie : Secret)

namespace Handshakes

variable [DecidableEq ι] (s : Handshakes ι)

def setServer (j : ι) (v : ServerSession) : Handshakes ι :=
  { s with server := Function.update s.server j (some v) }

def setClient (i : ℕ) (c : ClientSession) : Handshakes ι :=
  { s with client := Function.update s.client i (some c) }

def setJar (node : ServiceUrl) (cookiejar : CookieJar) : Handshakes ι :=
  { s with jar := Function.update s.jar node cookiejar }

/-- The cookie reaches the client unless it has dropped its channel. -/
def resolve (chan : ℕ) (cookie : Secret) : Handshakes ι :=
  match s.client chan with
  | some ⟨node, peer, .awaitingCookie challenge⟩ =>
    s.setClient chan ⟨node, peer, .learned challenge cookie⟩
  | _ => s

def addACookie (H : CookieScheme ι) (node : ServiceUrl) (cookie : Secret) : Handshakes ι :=
  let k := H.hash cookie
  match (s.jar node)[k]? with
  | some (chan, _) => (s.setJar node ((s.jar node).erase k)).resolve chan cookie
  | none => s

/-- The post of a server: an honest address adds the cookie to its jar, any other one sees it. -/
def authenticate (H : CookieScheme ι) (cookie : Secret) (name : ServiceUrl) (delivered : Bool) :
    Handshakes ι :=
  if H.honest name then
    if delivered then s.addACookie H name cookie else s
  else { s with seen := insert cookie s.seen }

def step (H : CookieScheme ι) : HandshakeEvent ι → Option (Handshakes ι)
  | .accept j node =>
    match s.server j with
    | none => some (s.setServer j ⟨node, .awaitingName⟩)
    | some _ => none
  | .name j r client sent =>
    match s.server j with
    | some ⟨node, .awaitingName⟩ => some (s.setServer j ⟨node, H.onName r client sent⟩)
    | _ => none
  | .ack j r =>
    match s.server j with
    | some ⟨node, .awaitingAck name⟩ => some (s.setServer j ⟨node, .onAck name r⟩)
    | _ => none
  | .authenticate j delivered ok =>
    match s.server j with
    | some ⟨node, .authenticating name⟩ =>
      if ok && H.honest name && !delivered then none
      else
        let phase := if ok then .awaitingResponse name else .failed .failedToAuthenticate
        some ((s.setServer j ⟨node, phase⟩).authenticate H (H.newCookie j) name delivered)
    | _ => none
  | .response j r =>
    match s.server j with
    | some ⟨node, .awaitingResponse name⟩ => some (s.setServer j ⟨node, H.onResponse j name r⟩)
    | _ => none
  | .serverTimeout j =>
    match s.server j with
    | some ⟨node, .awaitingResponse _⟩ => some (s.setServer j ⟨node, .failed .timedOut⟩)
    | _ => none
  | .dial i node peer sent =>
    match s.client i with
    | none =>
      let phase := if sent then .awaitingChallenge else .failed .socketClosed
      some (s.setClient i ⟨node, peer, phase⟩)
    | some _ => none
  | .challenge i r now later =>
    match s.client i with
    | some ⟨node, peer, .awaitingChallenge⟩ =>
      match r.onlyText with
      | .error e => some (s.setClient i ⟨node, peer, .failed e⟩)
      | .ok challengeHashString =>
        match fromHex challengeHashString with
        | none => some (s.setClient i ⟨node, peer, .failed .invalidChallengeHashString⟩)
        | some challenge =>
          some ((s.setJar node ((s.jar node).expectACookie challenge i now later)).setClient i
            ⟨node, peer, .awaitingCookie challenge⟩)
    | _ => none
  | .answer i sent =>
    match s.client i with
    | some ⟨node, peer, .learned challenge cookie⟩ =>
      some ({ s with seen := insert cookie s.seen }.setClient i
        ⟨node, peer, .answered challenge cookie sent⟩)
    | _ => none
  | .clientTimeout i =>
    match s.client i with
    | some ⟨node, peer, .awaitingCookie _⟩ => some (s.setClient i ⟨node, peer, .failed .timedOut⟩)
    | _ => none
  | .post node cookie => some (s.addACookie H node cookie)

/-- Nobody can utter a cookie that only honest nodes have seen. -/
def Utterable (H : CookieScheme ι) : HandshakeEvent ι → Prop
  | .name _ (.text t) _ _ => ∀ j, t = toHex (H.newCookie j) → H.newCookie j ∈ s.seen
  | .ack _ (.text t) => ∀ j, t = toHex (H.newCookie j) → H.newCookie j ∈ s.seen
  | .response _ (.text t) => ∀ j, t = toHex (H.newCookie j) → H.newCookie j ∈ s.seen
  | .challenge _ (.text t) _ _ => ∀ j, t = toHex (H.newCookie j) → H.newCookie j ∈ s.seen
  | .post _ cookie => ∀ j, cookie = H.newCookie j → cookie ∈ s.seen
  | _ => True

def Step (H : CookieScheme ι) (s : Handshakes ι) (ev : HandshakeEvent ι) (s' : Handshakes ι) : Prop :=
  s.Utterable H ev ∧ s.step H ev = some s'

/-- The states that are reached under any interleaving, whoever is at the other ends. -/
def Reachable (H : CookieScheme ι) : Handshakes ι → Prop :=
  Run (Step H) (fun _ => True) {}

/-- A client of a node has received the cookie of a server session, for the challenge that it has
registered, and has sent it on. -/
def Vouches (H : CookieScheme ι) (i : ℕ) (j : ι) (name : ServiceUrl) : Prop :=
  ∃ peer sent, s.client i =
    some ⟨name, peer, .answered (H.hash (H.newCookie j)) (H.newCookie j) sent⟩

/-- A client that waits for a cookie is in the jar of its node. -/
def Registered (s : Handshakes ι) : Prop :=
  ∀ (i : ℕ) (node peer : ServiceUrl) (k : Challenge),
    s.client i = some ⟨node, peer, .awaitingCookie k⟩ →
      ∃ time : ℤ, (s.jar node)[k]? = some (i, time)

/-- A challenge comes while the jar has room, and nobody at the node waits for it. -/
def Roomy (s : Handshakes ι) : HandshakeEvent ι → Prop
  | .challenge i (.text t) _ _ => ∀ (node peer : ServiceUrl) (k : Challenge),
      s.client i = some ⟨node, peer, .awaitingChallenge⟩ → fromHex t = some k →
        (s.jar node).size ≤ 100 ∧ k ∉ s.jar node
  | _ => True

end Handshakes

/-- The post of the cookie is over or will not be made. -/
def ServerPhase.Posted : ServerPhase → Prop
  | .awaitingName | .awaitingAck _ | .authenticating _ => False
  | _ => True

/-- The address to which the cookie was posted. -/
def ServerPhase.name? : ServerPhase → Option ServiceUrl
  | .awaitingResponse s | .accepted s => some s
  | _ => none

/-- The client was given a challenge, and waits for no other one than this. -/
def ClientPhase.WaitsFor (k : Challenge) : ClientPhase → Prop
  | .awaitingChallenge => False
  | .awaitingCookie challenge => challenge = k
  | _ => True

def ClientPhase.answered? : ClientPhase → Bool
  | .answered .. => true
  | _ => false

/-- The cookie that the client has, with the challenge to which it belongs. -/
def ClientPhase.knows : ClientPhase → Option (Challenge × Secret)
  | .learned challenge cookie | .answered challenge cookie _ => some (challenge, cookie)
  | _ => none

namespace Handshakes

variable {H : CookieScheme ι} {s s' : Handshakes ι}

/-- A server session is done with its post, and if it still has a name, it is this one. -/
def PostedTo (s : Handshakes ι) (j : ι) (node : ServiceUrl) : Prop :=
  ∃ v, s.server j = some v ∧ v.phase.Posted ∧ ∀ name, v.phase.name? = some name → name = node

structure Sound (H : CookieScheme ι) (s : Handshakes ι) : Prop where
  jar : ∀ (node : ServiceUrl) (k : Challenge) (chan : ℕ) (time : ℤ), (s.jar node)[k]? = some (chan, time) →
    ∃ peer phase, s.client chan = some ⟨node, peer, phase⟩ ∧ phase.WaitsFor k
  knows : ∀ i c k cookie, s.client i = some c → c.phase.knows = some (k, cookie) →
    H.hash cookie = k
  source : ∀ i node peer k j, s.client i = some ⟨node, peer, .learned k (H.newCookie j)⟩ →
    H.newCookie j ∉ s.seen → s.PostedTo j node
  seen : ∀ j, H.newCookie j ∈ s.seen → ∃ v, s.server j = some v ∧ v.phase.Posted ∧
    ∀ name, v.phase.name? = some name → H.honest name → ∃ i, s.Vouches H i j name
  accepted : ∀ j node name, s.server j = some ⟨node, .accepted name⟩ → H.newCookie j ∈ s.seen

variable {i : ℕ} {j j' : ι} {node : ServiceUrl}

@[simp] theorem setClient_client_self (c : ClientSession) : (s.setClient i c).client i = some c :=
  Function.update_self ..

theorem setClient_client_of_ne (c : ClientSession) {x : ℕ} (h : x ≠ i) :
    (s.setClient i c).client x = s.client x := Function.update_of_ne h ..

@[simp] theorem setJar_jar_self (cookiejar : CookieJar) :
    (s.setJar node cookiejar).jar node = cookiejar := Function.update_self ..

theorem setJar_jar_of_ne (cookiejar : CookieJar) {x : ServiceUrl} (h : x ≠ node) :
    (s.setJar node cookiejar).jar x = s.jar x := Function.update_of_ne h ..

private theorem Sound.setClient (hs : s.Sound H) {c : ClientSession}
    (hanswered : ∀ w, s.client i = some w → w.phase.answered? = false)
    (hjar : ∀ k time, (s.jar c.node)[k]? = some (i, time) → c.phase.WaitsFor k)
    (hnode : ∀ w, s.client i = some w → w.node = c.node)
    (hknows : ∀ k cookie, c.phase.knows = some (k, cookie) → H.hash cookie = k)
    (hsource : ∀ k j, c.phase = .learned k (H.newCookie j) → H.newCookie j ∉ s.seen →
      s.PostedTo j c.node) :
    (s.setClient i c).Sound H where
  jar node k chan time hk := by
    obtain ⟨peer, phase, hc, hwaits⟩ := hs.jar node k chan time hk
    by_cases hi : chan = i
    · subst hi
      obtain rfl : node = c.node := hnode _ hc
      exact ⟨c.peer, c.phase, setClient_client_self c, hjar k time hk⟩
    · exact ⟨peer, phase, (setClient_client_of_ne c hi).trans hc, hwaits⟩
  knows x w k cookie hx hknow := by
    by_cases hi : x = i
    · subst hi
      obtain rfl : c = w := Option.some.inj ((setClient_client_self c).symm.trans hx)
      exact hknows k cookie hknow
    · exact hs.knows x w k cookie ((setClient_client_of_ne c hi).symm.trans hx) hknow
  source x node peer k j hx hseen := by
    by_cases hi : x = i
    · subst hi
      obtain rfl := Option.some.inj ((setClient_client_self c).symm.trans hx)
      exact hsource k j rfl hseen
    · exact hs.source x node peer k j ((setClient_client_of_ne c hi).symm.trans hx) hseen
  seen j hj := by
    obtain ⟨v, hv, hposted, hname⟩ := hs.seen j hj
    refine ⟨v, hv, hposted, ?_⟩
    intro name hn hhonest
    obtain ⟨x, peer, sent, hx⟩ := hname name hn hhonest
    have hi : x ≠ i := by
      intro hi
      subst hi
      exact Bool.noConfusion (hanswered _ hx)
    exact ⟨x, peer, sent, (setClient_client_of_ne c hi).trans hx⟩
  accepted := hs.accepted

private theorem Sound.setJar (hs : s.Sound H) {cookiejar : CookieJar}
    (hjar : ∀ k chan time, cookiejar[k]? = some (chan, time) →
      ∃ peer phase, s.client chan = some ⟨node, peer, phase⟩ ∧ phase.WaitsFor k) :
    (s.setJar node cookiejar).Sound H where
  jar x k chan time hk := by
    by_cases hx : x = node
    · subst hx
      rw [setJar_jar_self] at hk
      exact hjar k chan time hk
    · rw [setJar_jar_of_ne cookiejar hx] at hk
      exact hs.jar x k chan time hk
  knows := hs.knows
  source := hs.source
  seen := hs.seen
  accepted := hs.accepted

private theorem mem_collectGarbage {cookiejar : CookieJar} {now : ℤ} {k : Challenge} {x : ℕ × ℤ}
    (h : (cookiejar.collectGarbage now)[k]? = some x) : cookiejar[k]? = some x := by
  have hfilter : ∀ {y}, (cookiejar.filter fun _ x => now - 1000 * 20 < x.2)[k]? = some y →
      cookiejar[k]? = some y := by
    intro y hy
    rw [ExtTreeMap.getElem?_filter'] at hy
    exact (Option.filter_eq_some_iff.mp hy).1
  unfold CookieJar.collectGarbage at h
  split at h
  · simp only at h
    split at h
    · split at h
      · rw [ExtTreeMap.getElem?_erase] at h
        split at h
        · cases h
        · exact hfilter h
      · exact hfilter h
    · exact hfilter h
  · exact h

private theorem Sound.expect (hs : s.Sound H) {peer : ServiceUrl} {challenge : Challenge}
    {now later : ℤ}
    (hi : s.client i = some ⟨node, peer, .awaitingChallenge⟩) :
    ((s.setClient i ⟨node, peer, .awaitingCookie challenge⟩).setJar node
      ((s.jar node).expectACookie challenge i now later)).Sound H := by
  have hclient : ∀ w, s.client i = some w → w = ⟨node, peer, .awaitingChallenge⟩ :=
    fun w hw => Option.some.inj (hw.symm.trans hi)
  -- a client without a challenge has no entry
  have hold : ∀ (k : Challenge) (time : ℤ), (s.jar node)[k]? ≠ some (i, time) := by
    intro k time hk
    obtain ⟨p, phase, hc, hwaits⟩ := hs.jar node k i time hk
    cases hclient _ hc
    exact hwaits
  have hset := hs.setClient (i := i) (c := ⟨node, peer, .awaitingCookie challenge⟩)
    (fun w hw => by rw [hclient w hw]; rfl) (fun k time hk => absurd hk (hold k time))
    (fun w hw => by rw [hclient w hw]) (fun _ _ hk => by cases hk) (fun _ _ hk => by cases hk)
  apply hset.setJar
  intro k chan time hk
  rw [CookieJar.expectACookie, OrderedMap.getElem?_insert] at hk
  split at hk
  · rename_i hkc
    cases hk
    exact ⟨peer, .awaitingCookie challenge, setClient_client_self _, hkc⟩
  · exact hset.jar node k chan time (mem_collectGarbage hk)

private theorem Sound.addACookie (hs : s.Sound H) {cookie : Secret}
    (hsource : ∀ j, cookie = H.newCookie j → cookie ∉ s.seen → s.PostedTo j node) :
    (s.addACookie H node cookie).Sound H := by
  unfold Handshakes.addACookie
  simp only
  split
  next chan time hk =>
    obtain ⟨peer, phase, hc, hwaits⟩ := hs.jar node _ chan time hk
    have herased : (s.setJar node ((s.jar node).erase (H.hash cookie))).Sound H := by
      apply hs.setJar
      intro k x t hx
      rw [ExtTreeMap.getElem?_erase] at hx
      split at hx
      · cases hx
      · exact hs.jar node k x t hx
    unfold resolve
    split
    next n p challenge hchan =>
      cases hchan.symm.trans hc
      obtain rfl : challenge = H.hash cookie := hwaits
      have hclient : ∀ w, s.client chan = some w →
          w = ⟨node, peer, .awaitingCookie (H.hash cookie)⟩ :=
        fun w hw => Option.some.inj (hw.symm.trans hc)
      apply herased.setClient
      · intro w hw
        rw [hclient w hw]
        rfl
      · exact fun _ _ _ => trivial
      · intro w hw
        rw [hclient w hw]
      · intro k c hknows
        cases hknows
        rfl
      · intro k j hlearned hseen
        cases hlearned
        exact hsource j rfl hseen
    · exact herased
  · exact hs

private theorem Sound.answer (hs : s.Sound H) {peer : ServiceUrl} {challenge : Challenge}
    {cookie : Secret}
    {sent : Bool}
    (hi : s.client i = some ⟨node, peer, .learned challenge cookie⟩) :
    ({ s with seen := insert cookie s.seen }.setClient i
      ⟨node, peer, .answered challenge cookie sent⟩).Sound H := by
  have hclient : ∀ w, s.client i = some w → w = ⟨node, peer, .learned challenge cookie⟩ :=
    fun w hw => Option.some.inj (hw.symm.trans hi)
  obtain rfl : H.hash cookie = challenge := hs.knows i _ _ _ hi rfl
  have hset := hs.setClient (i := i) (c := ⟨node, peer, .answered (H.hash cookie) cookie sent⟩)
    (fun w hw => by rw [hclient w hw]; rfl) (fun _ _ _ => trivial)
    (fun w hw => by rw [hclient w hw]) (fun _ _ hk => by cases hk; rfl) (fun _ _ hk => by cases hk)
  refine ⟨hset.jar, hset.knows, ?_, ?_, ?_⟩
  · intro x n p k j hx hseen
    exact hset.source x n p k j hx fun h => hseen (Finset.mem_insert_of_mem h)
  · intro j hj
    by_cases hold : H.newCookie j ∈ s.seen
    · exact hset.seen j hold
    · -- the cookie was unseen, so its session has posted it to the node of this client
      obtain rfl : H.newCookie j = cookie := (Finset.mem_insert.mp hj).resolve_right hold
      obtain ⟨v, hv, hposted, hname⟩ := hs.source i node peer _ j hi hold
      refine ⟨v, hv, hposted, ?_⟩
      intro name hn _
      obtain rfl := hname name hn
      exact ⟨i, peer, sent, setClient_client_self _⟩
  · intro j n name hj
    exact Finset.mem_insert_of_mem (hs.accepted j n name hj)

private theorem Sound.disclose (hs : s.Sound H) (hinj : Function.Injective H.newCookie)
    {v : ServerSession}
    (hv : s.server j = some v) (hposted : v.phase.Posted)
    (hname : ∀ name, v.phase.name? = some name → ¬H.honest name) :
    Sound H { s with seen := insert (H.newCookie j) s.seen } where
  jar := hs.jar
  knows := hs.knows
  source i n p k x hc hseen :=
    hs.source i n p k x hc fun h => hseen (Finset.mem_insert_of_mem h)
  seen x hx := by
    obtain hx | hx := Finset.mem_insert.mp hx
    · obtain rfl := hinj hx
      exact ⟨v, hv, hposted, fun name hn hhonest => absurd hhonest (hname name hn)⟩
    · exact hs.seen x hx
  accepted x n name hx := Finset.mem_insert_of_mem (hs.accepted x n name hx)

private theorem Sound.authenticate (hs : s.Sound H) (hinj : Function.Injective H.newCookie)
    {v : ServerSession} {name : ServiceUrl} {delivered : Bool} (hv : s.server j = some v)
    (hposted : v.phase.Posted) (hname : ∀ n, v.phase.name? = some n → n = name) :
    (s.authenticate H (H.newCookie j) name delivered).Sound H := by
  unfold Handshakes.authenticate
  split
  · split
    · apply hs.addACookie
      intro k hk _
      obtain rfl := hinj hk
      exact ⟨v, hv, hposted, hname⟩
    · exact hs
  · rename_i hhonest
    apply hs.disclose hinj hv hposted
    intro n hn
    rwa [hname n hn]

private theorem accepted_of_onResponse {r : SocketRead} {name name' : ServiceUrl}
    (h : H.onResponse j name r = .accepted name') : r = .text (toHex (H.newCookie j)) := by
  unfold CookieScheme.onResponse at h
  cases r with
  | text t =>
    simp only [SocketRead.onlyText] at h
    split at h
    · rename_i ht
      rw [ht]
    · cases h
  | other | failed | closed => cases h

private theorem name_of_onResponse {r : SocketRead} {name name' : ServiceUrl}
    (h : (H.onResponse j name r).name? = some name') : name = name' := by
  unfold CookieScheme.onResponse at h
  split at h
  · cases h
  · split at h
    · exact Option.some.inj h
    · cases h

private theorem posted_onResponse (r : SocketRead) (name : ServiceUrl) :
    (H.onResponse j name r).Posted := by
  unfold CookieScheme.onResponse
  split
  · trivial
  · split <;> trivial

private theorem not_accepted_onName (r : SocketRead) (client sent : Bool) (name : ServiceUrl) :
    H.onName r client sent ≠ .accepted name := by
  unfold CookieScheme.onName
  split
  · simp
  · split
    · simp
    · split_ifs <;> simp

private theorem not_accepted_onAck (r : SocketRead) (s name : ServiceUrl) :
    ServerPhase.onAck s r ≠ .accepted name := by
  unfold ServerPhase.onAck
  split
  · simp
  · split <;> simp

private theorem Sound.setClient_of_idle (hs : s.Sound H) {c : ClientSession}
    (hi : s.client i = none ∨ ∃ w, s.client i = some w ∧ w.phase.answered? = false ∧
      w.node = c.node ∧ (w.phase = .awaitingChallenge ∨ ∀ k, c.phase.WaitsFor k))
    (hknows : c.phase.knows = none) : (s.setClient i c).Sound H := by
  have hclient : ∀ w, s.client i = some w → w.phase.answered? = false ∧ w.node = c.node ∧
      (w.phase = .awaitingChallenge ∨ ∀ k, c.phase.WaitsFor k) := by
    intro w hw
    obtain hnone | ⟨x, hx, hrest⟩ := hi
    · cases hw.symm.trans hnone
    · cases hw.symm.trans hx
      exact hrest
  apply hs.setClient
  · exact fun w hw => (hclient w hw).1
  · intro k time hk
    obtain ⟨peer, phase, hc, hwaits⟩ := hs.jar _ k i time hk
    obtain hphase | hall := (hclient _ hc).2.2
    · obtain rfl : phase = .awaitingChallenge := hphase
      exact absurd hwaits id
    · exact hall k
  · exact fun w hw => (hclient w hw).2.1
  · intro k cookie hk
    cases hknows.symm.trans hk
  · intro k x hlearned
    rw [hlearned] at hknows
    cases hknows

variable [DecidableEq ι]

@[simp] theorem setServer_server_self (v : ServerSession) : (s.setServer j v).server j = some v :=
  Function.update_self ..

theorem setServer_server_of_ne (v : ServerSession) (h : j' ≠ j) :
    (s.setServer j v).server j' = s.server j' := Function.update_of_ne h ..

private theorem PostedTo.setServer {v : ServerSession}
    (h : s.PostedTo j' node)
    (hkeeps : ∀ w, s.server j = some w → w.phase.Posted →
      v.phase.Posted ∧ ∀ name, v.phase.name? = some name → w.phase.name? = some name) :
    (s.setServer j v).PostedTo j' node := by
  obtain ⟨w, hw, hposted, hname⟩ := h
  by_cases hij : j' = j
  · subst hij
    obtain ⟨hv, hvname⟩ := hkeeps w hw hposted
    exact ⟨v, setServer_server_self v, hv, fun name hn => hname name (hvname name hn)⟩
  · exact ⟨w, (setServer_server_of_ne v hij).trans hw, hposted, hname⟩

private theorem Sound.setServer (hs : s.Sound H) {v : ServerSession}
    (hkeeps : ∀ w, s.server j = some w → w.phase.Posted →
      v.phase.Posted ∧ ∀ name, v.phase.name? = some name → w.phase.name? = some name)
    (haccepted : ∀ name, v.phase = .accepted name → H.newCookie j ∈ s.seen) :
    (s.setServer j v).Sound H where
  jar := hs.jar
  knows := hs.knows
  source i node peer k x hc hseen := (hs.source i node peer k x hc hseen).setServer hkeeps
  seen x hx := by
    obtain ⟨w, hw, hposted, hname⟩ := hs.seen x hx
    by_cases hij : x = j
    · subst hij
      obtain ⟨hv, hvname⟩ := hkeeps w hw hposted
      exact ⟨v, setServer_server_self v, hv, fun name hn => hname name (hvname name hn)⟩
    · exact ⟨w, (setServer_server_of_ne v hij).trans hw, hposted, hname⟩
  accepted x node name hx := by
    by_cases hij : x = j
    · subst hij
      have hv : some v = some ⟨node, .accepted name⟩ := (setServer_server_self v).symm.trans hx
      exact haccepted name (by rw [Option.some.inj hv])
    · exact hs.accepted x node name ((setServer_server_of_ne v hij).symm.trans hx)

private theorem Sound.setServer_of_not_posted (hs : s.Sound H) {v : ServerSession}
    {old : Option ServerSession}
    (hold : s.server j = old) (hposted : ∀ w ∈ old, ¬w.phase.Posted)
    (haccepted : ∀ name, v.phase ≠ .accepted name) : (s.setServer j v).Sound H := by
  apply hs.setServer
  · intro w hw hw'
    exact absurd hw' (hposted w (hold.symm.trans hw))
  · exact fun name hn => absurd hn (haccepted name)

private theorem Sound.step_authenticate (hs : s.Sound H) (hinj : Function.Injective H.newCookie)
    {delivered ok : Bool} (h : s.step H (.authenticate j delivered ok) = some s') : s'.Sound H := by
  simp only [step] at h
  split at h
  next n name hj =>
    split at h
    · cases h
    · cases h
      apply (hs.setServer_of_not_posted hj (by simp [ServerPhase.Posted]) _).authenticate hinj
        (setServer_server_self _)
      · cases ok <;> trivial
      · cases ok
        · intro _ hn
          cases hn
        · exact fun m hn => (Option.some.inj hn).symm
      · cases ok <;> simp
  · cases h

private theorem Sound.step_response (hs : s.Sound H) {r : SocketRead}
    (hutter : s.Utterable H (.response j r))
    (h : s.step H (.response j r) = some s') : s'.Sound H := by
  simp only [step] at h
  split at h
  next n name hj =>
    cases h
    apply hs.setServer
    · intro w hw _
      cases hw.symm.trans hj
      exact ⟨posted_onResponse r name, fun m hm => congrArg some (name_of_onResponse hm)⟩
    · intro m hm
      obtain rfl := accepted_of_onResponse hm
      exact hutter j rfl
  · cases h

private theorem Sound.step_challenge (hs : s.Sound H) {r : SocketRead} {now later : ℤ}
    (h : s.step H (.challenge i r now later) = some s') : s'.Sound H := by
  simp only [step] at h
  split at h
  next node peer hi =>
    have hfails : ∀ e, (s.setClient i ⟨node, peer, .failed e⟩).Sound H := fun e =>
      hs.setClient_of_idle (.inr ⟨_, hi, rfl, rfl, .inl rfl⟩) rfl
    split at h
    · cases h
      exact hfails _
    · split at h
      · cases h
        exact hfails _
      · cases h
        exact hs.expect hi
  · cases h

private theorem Sound.step (hs : s.Sound H) (hinj : Function.Injective H.newCookie)
    {ev : HandshakeEvent ι}
    (h : Step H s ev s') : s'.Sound H := by
  obtain ⟨hutter, htaken⟩ := h
  cases ev with
  | accept x n =>
    simp only [Handshakes.step] at htaken
    split at htaken
    · cases htaken
      exact hs.setServer_of_not_posted ‹_› (by simp) (by simp)
    · cases htaken
  | name x r client sent =>
    simp only [Handshakes.step] at htaken
    split at htaken
    next n hx =>
      cases htaken
      exact hs.setServer_of_not_posted hx (by simp [ServerPhase.Posted]) (not_accepted_onName r client sent)
    · cases htaken
  | ack x r =>
    simp only [Handshakes.step] at htaken
    split at htaken
    next n name hx =>
      cases htaken
      exact hs.setServer_of_not_posted hx (by simp [ServerPhase.Posted]) (not_accepted_onAck r name)
    · cases htaken
  | authenticate x delivered ok => exact hs.step_authenticate hinj htaken
  | response x r => exact hs.step_response hutter htaken
  | serverTimeout x =>
    simp only [Handshakes.step] at htaken
    split at htaken
    next n name hx =>
      cases htaken
      exact hs.setServer (fun _ _ _ => ⟨trivial, fun m hm => by cases hm⟩) (fun m hm => by cases hm)
    · cases htaken
  | dial x n peer sent =>
    simp only [Handshakes.step] at htaken
    split at htaken
    · cases htaken
      exact hs.setClient_of_idle (.inl ‹_›) (by cases sent <;> rfl)
    · cases htaken
  | challenge x r now later => exact hs.step_challenge htaken
  | answer x sent =>
    simp only [Handshakes.step] at htaken
    split at htaken
    next n peer challenge cookie hx =>
      cases htaken
      exact hs.answer hx
    · cases htaken
  | clientTimeout x =>
    simp only [Handshakes.step] at htaken
    split at htaken
    next n peer challenge hx =>
      cases htaken
      exact hs.setClient_of_idle (.inr ⟨_, hx, rfl, rfl, .inr fun _ => trivial⟩) rfl
    · cases htaken
  | post n cookie =>
    cases htaken
    apply hs.addACookie
    exact fun j hj hseen => absurd (hutter j hj) hseen

private theorem Reachable.sound (hinj : Function.Injective H.newCookie) (h : Reachable H s) :
    s.Sound H :=
  h.invariant (fun _ _ _ _ hs hstep => Sound.step hs hinj hstep)
    { jar := fun _ _ _ _ hk => by simp at hk
      knows := fun _ _ _ _ hc => by cases hc
      source := fun _ _ _ _ _ hc => by cases hc
      seen := fun _ hj => by simp at hj
      accepted := fun _ _ _ hj => by cases hj }

/-- Whoever is at the other end of the socket: a session that has accepted an honest address was
answered by a client at that address, for the challenge of this session and of no other one. -/
theorem handshake_authenticates (hinj : Function.Injective H.newCookie) (h : Reachable H s)
    {name : ServiceUrl} (hj : s.server j = some ⟨node, .accepted name⟩) (hname : H.honest name) :
    ∃ i, s.Vouches H i j name ∧ ∀ j', s.Vouches H i j' name → j' = j := by
  have hs := h.sound hinj
  obtain ⟨v, hv, _, hvouched⟩ := hs.seen j (hs.accepted j node name hj)
  cases hv.symm.trans hj
  obtain ⟨i, peer, sent, hi⟩ := hvouched name rfl hname
  refine ⟨i, ⟨peer, sent, hi⟩, ?_⟩
  intro j' hj'
  obtain ⟨peer', sent', hi'⟩ := hj'
  have hsame := Option.some.inj (hi'.symm.trans hi)
  simp only [ClientSession.mk.injEq, ClientPhase.answered.injEq] at hsame
  exact hinj hsame.2.2.2.1

end Handshakes
end JudicaVM
