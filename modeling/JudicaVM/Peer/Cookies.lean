import JudicaVM.Peer.Handshake

/-!
# Relayed handshakes and the cookie jar

A client answers the challenge that its peer hands it, whoever drew it, so a peer can relay the
handshake of another server. A jar never holds more than 101 challenges, and as long as it has room
no cookie misses the client that waits for it.
-/

namespace JudicaVM

open Serde Std Transition

variable {ι : Type}

private theorem fromHex_toHex (k : Challenge) : fromHex (toHex k) = some k := by
  have hdigits : ofHexDigits (toHex k).toList = some k.toNat := by
    rw [toHex, String.toList_ofList, List.leftpad, ofHexDigits_append, ofHexDigits_replicate]
    exact ofHexDigits_toDigits k.toNat
  have hfits : (Nat.toDigits 16 k.toNat).length ≤ 64 :=
    (Nat.length_toDigits_le_iff (by decide) (by decide)).mpr k.isLt
  have hlength : (toHex k).length = 64 := by
    rw [toHex, String.length_ofList, List.length_leftpad]
    omega
  rw [fromHex, if_pos hlength, hdigits]
  simp

private theorem toHex_injective : Function.Injective toHex := by
  intro k k' h
  have hread := fromHex_toHex k
  rw [h, fromHex_toHex] at hread
  exact (Option.some.inj hread).symm

private theorem toHex_ne_empty (k : Challenge) : toHex k ≠ "" := by
  intro h
  have hread := fromHex_toHex k
  rw [h] at hread
  cases hread

/-- The name is read back, and neither the name nor the hash of a cookie is taken for a cookie. -/
structure CookieScheme.Lawful (H : CookieScheme ι) (name : ServiceUrl) : Prop where
  injective : Function.Injective H.newCookie
  readName_writeName : H.readName (H.writeName name) = some name
  writeName_ne : ∀ j, H.writeName name ≠ toHex (H.newCookie j)
  hash_ne : ∀ j j', H.hash (H.newCookie j) ≠ H.newCookie j'

namespace Handshakes

variable {H : CookieScheme ι} {s : Handshakes ι} {i : ℕ} {j : ι} {name server peer : ServiceUrl}

private theorem addACookie_of_entry {node : ServiceUrl} {cookie : Secret} {chan : ℕ} {time : ℤ}
    {challenge : Challenge} (hk : (s.jar node)[H.hash cookie]? = some (chan, time))
    (hc : s.client chan = some ⟨name, peer, .awaitingCookie challenge⟩) :
    s.addACookie H node cookie = (s.setJar node ((s.jar node).erase (H.hash cookie))).setClient chan
      ⟨name, peer, .learned challenge cookie⟩ := by
  have hc' : (s.setJar node ((s.jar node).erase (H.hash cookie))).client chan = _ := hc
  simp only [addACookie, hk, resolve, hc']

variable [DecidableEq ι]

/-- The states differ in one client and one server session only, beside the jars and what was
seen. -/
structure Beside (i : ℕ) (j : ι) (s s' : Handshakes ι) : Prop where
  client : ∀ i' ≠ i, s'.client i' = s.client i'
  server : ∀ j' ≠ j, s'.server j' = s.server j'

omit [DecidableEq ι] in
private theorem Beside.trans {s' s'' : Handshakes ι} (h : Beside i j s s')
    (h' : Beside i j s' s'') : Beside i j s s'' where
  client i' hi := (h'.client i' hi).trans (h.client i' hi)
  server j' hj := (h'.server j' hj).trans (h.server j' hj)

private theorem exists_challenged (hH : H.Lawful name) (hi : s.client i = none)
    (hj : s.server j = none)
    (server peer : ServiceUrl) :
    ∃ s', Run (Step H) (fun _ => True) s s' ∧
      s'.client i = some ⟨name, peer, .awaitingChallenge⟩ ∧
      s'.server j = some ⟨server, .awaitingAck name⟩ ∧ Beside i j s s' := by
  let s₁ := s.setClient i ⟨name, peer, .awaitingChallenge⟩
  let s₂ := s₁.setServer j ⟨server, .awaitingName⟩
  let s₃ := s₂.setServer j ⟨server, .awaitingAck name⟩
  have hdial : Step H s (.dial i name peer true) s₁ := ⟨trivial, by simp [step, hi, s₁]⟩
  have haccept : Step H s₁ (.accept j server) s₂ := by
    have hnone : s₁.server j = none := hj
    exact ⟨trivial, by simp [step, hnone, s₂]⟩
  have hname : Step H s₂ (.name j (.text (H.writeName name)) true true) s₃ := by
    refine ⟨fun x hx => absurd hx (hH.writeName_ne x), ?_⟩
    simp [step, s₂, s₃, CookieScheme.onName, SocketRead.onlyText, hH.readName_writeName]
  have hbeside : Beside i j s s₃ := by
    constructor
    · exact fun i' hi' => setClient_client_of_ne _ hi'
    · intro j' hj'
      rw [setServer_server_of_ne _ hj', setServer_server_of_ne _ hj']
      rfl
  exact ⟨s₃, ((Run.single trivial hdial).tail trivial haccept).tail trivial hname,
    setClient_client_self _, setServer_server_self _, hbeside⟩

private theorem exists_learned (hH : H.Lawful name) (hname : H.honest name)
    (hi : s.client i = some ⟨name, peer, .awaitingChallenge⟩)
    (hj : s.server j = some ⟨server, .awaitingAck name⟩) :
    ∃ s', Run (Step H) (fun _ => True) s s' ∧
      s'.client i = some ⟨name, peer, .learned (H.hash (H.newCookie j)) (H.newCookie j)⟩ ∧
      s'.server j = some ⟨server, .awaitingResponse name⟩ ∧ Beside i j s s' := by
  let k := H.hash (H.newCookie j)
  let cookiejar := (s.jar name).expectACookie k i 0 0
  let s₁ := (s.setJar name cookiejar).setClient i ⟨name, peer, .awaitingCookie k⟩
  let s₂ := s₁.setServer j ⟨server, .authenticating name⟩
  let s₃ := s₂.setServer j ⟨server, .awaitingResponse name⟩
  let s₄ := (s₃.setJar name (cookiejar.erase k)).setClient i
    ⟨name, peer, .learned k (H.newCookie j)⟩
  have hchallenge : Step H s (.challenge i (.text (toHex k)) 0 0) s₁ := by
    refine ⟨fun x hx => absurd (toHex_injective hx) (hH.hash_ne j x), ?_⟩
    simp [step, hi, SocketRead.onlyText, fromHex_toHex, s₁, cookiejar]
  have hack : Step H s₁ (.ack j (.text "")) s₂ := by
    have hj₁ : s₁.server j = some ⟨server, .awaitingAck name⟩ := hj
    refine ⟨fun x hx => absurd hx.symm (toHex_ne_empty _), ?_⟩
    simp [step, hj₁, ServerPhase.onAck, SocketRead.onlyText, s₂]
  have hauthenticate : Step H s₂ (.authenticate j true true) s₄ := by
    have hjar : s₃.jar name = cookiejar := setJar_jar_self cookiejar
    have hentry : (s₃.jar name)[k]? = some (i, 0) := by
      rw [hjar]
      exact CookieJar.getElem?_expectACookie_self ..
    have hadded : s₃.addACookie H name (H.newCookie j) = s₄ := by
      rw [addACookie_of_entry hentry (setClient_client_self _), hjar]
    refine ⟨trivial, ?_⟩
    simp only [step, s₂, setServer_server_self, hname]
    simpa [authenticate, hname] using hadded
  have hbeside : Beside i j s s₄ := by
    constructor
    · intro i' hi'
      have hlearned : s₄.client i' = s₁.client i' := setClient_client_of_ne _ hi'
      exact hlearned.trans (setClient_client_of_ne _ hi')
    · intro j' hj'
      have hwaiting : s₄.server j' = s₂.server j' := setServer_server_of_ne _ hj'
      exact hwaiting.trans (setServer_server_of_ne _ hj')
  exact ⟨s₄, ((Run.single trivial hchallenge).tail trivial hack).tail trivial hauthenticate,
    setClient_client_self _, setServer_server_self _, hbeside⟩

private theorem exists_accepted {challenge : Challenge}
    (hi : s.client i = some ⟨name, peer, .learned challenge (H.newCookie j)⟩)
    (hj : s.server j = some ⟨server, .awaitingResponse name⟩) (hH : H.Lawful name) :
    ∃ s', Run (Step H) (fun _ => True) s s' ∧
      s'.client i = some ⟨name, peer, .answered challenge (H.newCookie j) true⟩ ∧
      s'.server j = some ⟨server, .accepted name⟩ ∧ Beside i j s s' := by
  let s₁ := { s with seen := insert (H.newCookie j) s.seen }.setClient i
    ⟨name, peer, .answered challenge (H.newCookie j) true⟩
  let s₂ := s₁.setServer j ⟨server, .accepted name⟩
  have hanswer : Step H s (.answer i true) s₁ := ⟨trivial, by simp [step, hi, s₁]⟩
  have hresponse : Step H s₁ (.response j (.text (toHex (H.newCookie j)))) s₂ := by
    have hj₁ : s₁.server j = some ⟨server, .awaitingResponse name⟩ := hj
    refine ⟨?_, by simp [step, hj₁, CookieScheme.onResponse, SocketRead.onlyText, s₂]⟩
    intro x hx
    obtain rfl := hH.injective (toHex_injective hx)
    exact Finset.mem_insert_self _ _
  have hbeside : Beside i j s s₂ :=
    ⟨fun i' hi' => setClient_client_of_ne _ hi', fun j' hj' => setServer_server_of_ne _ hj'⟩
  exact ⟨s₂, (Run.single trivial hanswer).tail trivial hresponse, setClient_client_self _,
    setServer_server_self _, hbeside⟩

private theorem exists_relayed (hH : H.Lawful name) (hname : H.honest name) (hi : s.client i = none)
    (hj : s.server j = none) (server peer : ServiceUrl) :
    ∃ s', Run (Step H) (fun _ => True) s s' ∧
      (s'.server j = some ⟨server, .accepted name⟩ ∧ s'.client i = some
        ⟨name, peer, .answered (H.hash (H.newCookie j)) (H.newCookie j) true⟩) ∧
      Beside i j s s' := by
  obtain ⟨s₁, hrun₁, hi, hj, hbeside₁⟩ := exists_challenged hH hi hj server peer
  obtain ⟨s₂, hrun₂, hi, hj, hbeside₂⟩ := exists_learned hH hname hi hj
  obtain ⟨s₃, hrun₃, hi, hj, hbeside₃⟩ := exists_accepted hi hj hH
  exact ⟨s₃, (hrun₁.trans hrun₂).trans hrun₃, ⟨hj, hi⟩, (hbeside₁.trans hbeside₂).trans hbeside₃⟩

/-- Whatever has happened so far, any server can be made to accept any honest address while a client
there talks to any other peer: the handshake does not bind the peer that the client has dialled. -/
theorem handshake_relayed (h : Reachable H s) (hH : H.Lawful name) (hname : H.honest name)
    (hi : s.client i = none) (hj : s.server j = none) (server peer : ServiceUrl) :
    ∃ s', Run (Step H) (fun _ => True) s s' ∧ Reachable H s' ∧
      s'.server j = some ⟨server, .accepted name⟩ ∧ s'.client i = some
        ⟨name, peer, .answered (H.hash (H.newCookie j)) (H.newCookie j) true⟩ := by
  obtain ⟨s', hrun, ⟨haccepted, hanswered⟩, -⟩ := exists_relayed hH hname hi hj server peer
  exact ⟨s', hrun, h.trans hrun, haccepted, hanswered⟩

/-- Two sessions, whose cookies are 31 zero bytes and a bit, and an honest node. -/
def twoCookies : CookieScheme Bool where
  hash cookie :=
    if cookie = 0 then 0x66687aadf862bd776c8fc18b8e9f8e20089714856ee233b3902a591d0d5f2925
    else if cookie = 1 then 0xec4916dd28fc4c10d78e287ca5d9cc51ee1ae73cbfde08c6b37324cbfaac8bc5
    else cookie
  newCookie j := if j then 1 else 0
  readName t := if t = "[\"127.0.0.1\",14322]" then some ⟨"127.0.0.1", 14322⟩ else none
  writeName n := "[\"" ++ n.host ++ "\"," ++ toString n.port ++ "]"
  honest n := n = ⟨"127.0.0.1", 14322⟩

private theorem twoCookies_lawful : twoCookies.Lawful ⟨"127.0.0.1", 14322⟩ where
  injective := by
    unfold Function.Injective
    decide
  readName_writeName := by decide
  writeName_ne := by decide
  hash_ne := by decide

theorem handshake_relayed_twoCookies :
    ∃ s s', Reachable twoCookies s ∧
      s.server false = some ⟨⟨"a.onion", 80⟩, .accepted ⟨"127.0.0.1", 14322⟩⟩ ∧
      Run (Step twoCookies) (fun _ => True) s s' ∧ Reachable twoCookies s' ∧
      s'.server true = some ⟨⟨"c.onion", 80⟩, .accepted ⟨"127.0.0.1", 14322⟩⟩ ∧
      s'.client 1 = some ⟨⟨"127.0.0.1", 14322⟩, ⟨"b.onion", 80⟩, .answered
        (twoCookies.hash (twoCookies.newCookie true)) (twoCookies.newCookie true) true⟩ := by
  obtain ⟨s, hrun, ⟨hj, -⟩, hbeside⟩ := exists_relayed (i := 0) (j := false) (s := {})
    twoCookies_lawful (by decide) rfl rfl ⟨"a.onion", 80⟩ ⟨"b.onion", 80⟩
  obtain ⟨s', hafter⟩ := handshake_relayed (i := 1) (j := true) hrun twoCookies_lawful (by decide)
    (hbeside.client 1 (by decide)) (hbeside.server true (by decide)) ⟨"c.onion", 80⟩ ⟨"b.onion", 80⟩
  exact ⟨s, s', hrun, hj, hafter⟩

/-- Two servers have accepted the node, and each was answered by a client of its own. -/
theorem handshake_authenticates_twoCookies :
    ∃ s, Reachable twoCookies s ∧
      s.server false = some ⟨⟨"a.onion", 80⟩, .accepted ⟨"127.0.0.1", 14322⟩⟩ ∧
      s.server true = some ⟨⟨"c.onion", 80⟩, .accepted ⟨"127.0.0.1", 14322⟩⟩ ∧
      ∃ i i', i ≠ i' ∧ s.Vouches twoCookies i false ⟨"127.0.0.1", 14322⟩ ∧
        s.Vouches twoCookies i' true ⟨"127.0.0.1", 14322⟩ := by
  obtain ⟨s, hrun, ⟨hj, -⟩, hbeside⟩ := exists_relayed (i := 0) (j := false) (s := {})
    twoCookies_lawful (by decide) rfl rfl ⟨"a.onion", 80⟩ ⟨"b.onion", 80⟩
  obtain ⟨s', hrun', ⟨hj', -⟩, hbeside'⟩ := exists_relayed (i := 1) (j := true)
    twoCookies_lawful (by decide) (hbeside.client 1 (by decide)) (hbeside.server true (by decide))
    ⟨"c.onion", 80⟩ ⟨"b.onion", 80⟩
  have hreach : Reachable twoCookies s' := Run.trans hrun hrun'
  have hj : s'.server false = _ := (hbeside'.server false (by decide)).trans hj
  obtain ⟨i, hi, honly⟩ := handshake_authenticates twoCookies_lawful.injective hreach hj (by decide)
  obtain ⟨i', hi', -⟩ := handshake_authenticates twoCookies_lawful.injective hreach hj' (by decide)
  refine ⟨s', hreach, hj, hj', i, i', ?_, hi, hi'⟩
  rintro rfl
  exact Bool.noConfusion (honly true hi')

end Handshakes

namespace CookieJar

variable {cookiejar : CookieJar}

private theorem size_collectGarbage (now : ℤ) (h : cookiejar.size ≤ 101) :
    (cookiejar.collectGarbage now).size ≤ 100 := by
  unfold collectGarbage
  split
  · have hkept : (cookiejar.filter fun _ x => now - 1000 * 20 < x.2).size ≤ 101 :=
      ExtTreeMap.size_filter_le_size.trans h
    simp only
    split
    · rename_i hfull
      split
      next unstale hmin =>
        have hmem := ExtTreeMap.minKey?_mem hmin
        rw [ExtTreeMap.size_erase, if_pos (ExtTreeMap.contains_iff_mem.mpr hmem)]
        omega
      next hmin =>
        rw [ExtTreeMap.minKey?_eq_none_iff] at hmin
        rw [hmin, ExtTreeMap.size_empty]
        exact Nat.zero_le _
    · omega
  · omega

private theorem size_expectACookie (challenge : Challenge) (chan : ℕ) (now later : ℤ)
    (h : cookiejar.size ≤ 101) : (cookiejar.expectACookie challenge chan now later).size ≤ 101 := by
  have hcollected := size_collectGarbage now h
  have hinsert := ExtTreeMap.size_insert_le (t := cookiejar.collectGarbage now) (k := challenge)
    (v := (chan, later))
  unfold expectACookie
  omega

end CookieJar

namespace Handshakes

variable {H : CookieScheme ι} {s s' : Handshakes ι}

def Bounded (s : Handshakes ι) : Prop := ∀ node, (s.jar node).size ≤ 101

private theorem Bounded.setJar (h : s.Bounded) {node : ServiceUrl} {cookiejar : CookieJar}
    (hsize : cookiejar.size ≤ 101) : (s.setJar node cookiejar).Bounded := by
  intro x
  by_cases hx : x = node
  · subst hx
    rwa [setJar_jar_self]
  · rw [setJar_jar_of_ne cookiejar hx]
    exact h x

private theorem Bounded.addACookie (h : s.Bounded) (node : ServiceUrl) (cookie : Secret) :
    (s.addACookie H node cookie).Bounded := by
  unfold Handshakes.addACookie
  simp only
  split
  · have hset : (s.setJar node ((s.jar node).erase (H.hash cookie))).Bounded :=
      h.setJar (ExtTreeMap.size_erase_le.trans (h node))
    unfold resolve
    split
    · exact hset
    · exact hset
  · exact h

private theorem Bounded.authenticate (h : s.Bounded) (cookie : Secret) (name : ServiceUrl)
    (delivered : Bool) : (s.authenticate H cookie name delivered).Bounded := by
  unfold Handshakes.authenticate
  split
  · split
    · exact h.addACookie name cookie
    · exact h
  · exact h

variable [DecidableEq ι]

private theorem Bounded.step (h : s.Bounded) {ev : HandshakeEvent ι}
    (htaken : s.step H ev = some s') :
    s'.Bounded := by
  cases ev with
  | authenticate j delivered ok =>
    simp only [Handshakes.step] at htaken
    split at htaken
    · split at htaken
      · cases htaken
      · cases htaken
        exact Bounded.authenticate (s := s.setServer j _) h _ _ _
    · cases htaken
  | challenge i r now later =>
    simp only [Handshakes.step] at htaken
    split at htaken
    · split at htaken
      · cases htaken
        exact h
      · split at htaken
        · cases htaken
          exact h
        · cases htaken
          exact h.setJar (CookieJar.size_expectACookie _ _ _ _ (h _))
    · cases htaken
  | post node cookie =>
    cases htaken
    exact h.addACookie node cookie
  | _ =>
    simp only [Handshakes.step] at htaken
    split at htaken
    · cases htaken
      exact h
    · cases htaken

theorem Reachable.jar_size (h : Reachable H s) (node : ServiceUrl) : (s.jar node).size ≤ 101 := by
  have hbounded : s.Bounded :=
    h.invariant (fun _ _ _ _ hs hstep => Bounded.step hs hstep.2) fun _ => Nat.zero_le _
  exact hbounded node

omit [DecidableEq ι]

private theorem Registered.setClient (h : s.Registered) {i : ℕ} {c : ClientSession}
    (hc : ∀ k, c.phase ≠ .awaitingCookie k) : (s.setClient i c).Registered := by
  intro x node peer k hx
  by_cases hi : x = i
  · subst hi
    rw [setClient_client_self] at hx
    exact absurd (congrArg ClientSession.phase (Option.some.inj hx)) (hc k)
  · rw [setClient_client_of_ne c hi] at hx
    exact h x node peer k hx

private theorem Registered.resolve {chan : ℕ} {cookie : Secret}
    (h : ∀ x node peer k, s.client x = some ⟨node, peer, .awaitingCookie k⟩ → x ≠ chan →
      ∃ time, (s.jar node)[k]? = some (x, time)) : (s.resolve chan cookie).Registered := by
  unfold Handshakes.resolve
  split
  next node peer challenge hchan =>
    intro x n p k hx
    by_cases hne : x = chan
    · subst hne
      rw [setClient_client_self] at hx
      cases hx
    · rw [setClient_client_of_ne _ hne] at hx
      exact h x n p k hx hne
  next hnone =>
    intro x n p k hx
    apply h x n p k hx
    intro hne
    subst hne
    exact hnone _ _ _ hx

private theorem Registered.addACookie (h : s.Registered) (node : ServiceUrl) (cookie : Secret) :
    (s.addACookie H node cookie).Registered := by
  unfold Handshakes.addACookie
  simp only
  split
  next chan time hentry =>
    apply Registered.resolve
    intro x n peer k hx hne
    obtain ⟨t, ht⟩ := h x n peer k hx
    refine ⟨t, ?_⟩
    by_cases hn : n = node
    · subst hn
      rw [setJar_jar_self, ExtTreeMap.getElem?_erase, if_neg]
      · exact ht
      · intro hk
        obtain rfl := LawfulEqOrd.compare_eq_iff_eq.mp hk
        rw [hentry] at ht
        exact hne (congrArg Prod.fst (Option.some.inj ht)).symm
    · rw [setJar_jar_of_ne _ hn]
      exact ht
  · exact h

private theorem Registered.authenticate (h : s.Registered) (cookie : Secret) (name : ServiceUrl)
    (delivered : Bool) : (s.authenticate H cookie name delivered).Registered := by
  unfold Handshakes.authenticate
  split
  · split
    · exact h.addACookie name cookie
    · exact h
  · exact h

private theorem Registered.expect (h : s.Registered) {i : ℕ} {node peer : ServiceUrl}
    {challenge : Challenge} {now later : ℤ} (hroom : (s.jar node).size ≤ 100)
    (hnew : challenge ∉ s.jar node) :
    ((s.setJar node ((s.jar node).expectACookie challenge i now later)).setClient i
      ⟨node, peer, .awaitingCookie challenge⟩).Registered := by
  have hcollect : (s.jar node).collectGarbage now = s.jar node := if_neg (by omega)
  intro x n p k hx
  by_cases hi : x = i
  · subst hi
    rw [setClient_client_self] at hx
    cases hx
    refine ⟨later, ?_⟩
    show ((s.setJar node _).jar node)[challenge]? = _
    rw [setJar_jar_self]
    exact CookieJar.getElem?_expectACookie_self ..
  · rw [setClient_client_of_ne _ hi] at hx
    obtain ⟨t, ht⟩ := h x n p k hx
    refine ⟨t, ?_⟩
    show ((s.setJar node _).jar n)[k]? = _
    by_cases hn : n = node
    · subst hn
      have hk : challenge ≠ k := by
        intro hk
        subst hk
        rw [ExtTreeMap.getElem?_eq_none hnew] at ht
        cases ht
      rw [setJar_jar_self, CookieJar.expectACookie, hcollect, OrderedMap.getElem?_insert,
        if_neg hk]
      exact ht
    · rw [setJar_jar_of_ne _ hn]
      exact ht

variable [DecidableEq ι]

private theorem Registered.step (h : s.Registered) {ev : HandshakeEvent ι} (hroomy : s.Roomy ev)
    (htaken : s.step H ev = some s') : s'.Registered := by
  cases ev with
  | authenticate j delivered ok =>
    simp only [Handshakes.step] at htaken
    split at htaken
    · split at htaken
      · cases htaken
      · cases htaken
        exact Registered.authenticate (s := s.setServer j _) h _ _ _
    · cases htaken
  | dial i node peer sent =>
    simp only [Handshakes.step] at htaken
    split at htaken
    · cases htaken
      exact h.setClient (by cases sent <;> simp)
    · cases htaken
  | challenge i r now later =>
    simp only [Handshakes.step] at htaken
    split at htaken
    next node peer hi =>
      split at htaken
      · cases htaken
        exact h.setClient (by simp)
      next t ht =>
        obtain rfl : r = .text t := by
          cases r with
          | text t' => rw [Except.ok.inj ht]
          | other | failed | closed => cases ht
        split at htaken
        · cases htaken
          exact h.setClient (by simp)
        next challenge hread =>
          cases htaken
          obtain ⟨hroom, hnew⟩ := hroomy node peer challenge hi hread
          exact h.expect hroom hnew
    · cases htaken
  | answer i sent =>
    simp only [Handshakes.step] at htaken
    split at htaken
    · cases htaken
      exact Registered.setClient (s := { s with seen := _ }) h (by simp)
    · cases htaken
  | clientTimeout i =>
    simp only [Handshakes.step] at htaken
    split at htaken
    · cases htaken
      exact h.setClient (by simp)
    · cases htaken
  | post node cookie =>
    cases htaken
    exact h.addACookie node cookie
  | _ =>
    simp only [Handshakes.step] at htaken
    split at htaken
    · cases htaken
      exact h
    · cases htaken

/-- While the jars have room, the cookie of every client that waits still finds it, whoever else
posts cookies and sends challenges. -/
theorem waiting_registered
    (h : Run (fun s ev s' => Step H s ev s' ∧ s.Roomy ev) (fun _ => True) {} s) {i : ℕ}
    {node peer : ServiceUrl} {cookie : Secret}
    (hi : s.client i = some ⟨node, peer, .awaitingCookie (H.hash cookie)⟩) :
    (s.addACookie H node cookie).client i =
      some ⟨node, peer, .learned (H.hash cookie) cookie⟩ := by
  have hregistered : s.Registered := h.invariant
    (fun _ _ _ _ hs hstep => Registered.step hs hstep.2 hstep.1.2) fun _ _ _ _ hc => by cases hc
  obtain ⟨time, htime⟩ := hregistered i node peer _ hi
  rw [addACookie_of_entry htime hi, setClient_client_self]

theorem waiting_registered_twoCookies :
    ∃ s : Handshakes Bool,
      (s.addACookie twoCookies ⟨"127.0.0.1", 14322⟩ 0).client 0 =
        some ⟨⟨"127.0.0.1", 14322⟩, ⟨"b.onion", 80⟩, .learned (twoCookies.hash 0) 0⟩ := by
  let s₁ : Handshakes Bool :=
    ({} : Handshakes Bool).setClient 0
      ⟨⟨"127.0.0.1", 14322⟩, ⟨"b.onion", 80⟩, .awaitingChallenge⟩
  let s₂ : Handshakes Bool :=
    (s₁.setJar ⟨"127.0.0.1", 14322⟩
      ((∅ : CookieJar).expectACookie (twoCookies.hash 0) 0 0 0)).setClient 0
      ⟨⟨"127.0.0.1", 14322⟩, ⟨"b.onion", 80⟩, .awaitingCookie (twoCookies.hash 0)⟩
  have hdial : Step twoCookies {} (.dial 0 ⟨"127.0.0.1", 14322⟩ ⟨"b.onion", 80⟩ true) s₁ :=
    ⟨trivial, rfl⟩
  have hchallenge : Step twoCookies s₁
      (.challenge 0 (.text (toHex (twoCookies.hash 0))) 0 0) s₂ := by
    refine ⟨fun x hx => absurd (toHex_injective hx) (twoCookies_lawful.hash_ne false x), ?_⟩
    simp [step, s₁, s₂, SocketRead.onlyText, fromHex_toHex]
    rfl
  have hroomy : s₁.Roomy (HandshakeEvent.challenge 0 (.text (toHex (twoCookies.hash 0))) 0 0 :
      HandshakeEvent Bool) := fun _ _ _ _ _ => ⟨Nat.zero_le _, ExtTreeMap.not_mem_empty⟩
  refine ⟨s₂, waiting_registered (H := twoCookies) ?_ (setClient_client_self _)⟩
  exact (Run.single trivial ⟨hdial, trivial⟩).tail trivial ⟨hchallenge, hroomy⟩

end Handshakes
end JudicaVM
