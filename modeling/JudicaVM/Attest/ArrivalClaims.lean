import JudicaVM.Attest.ArrivalRace

/-!
# Claims that must agree

Every rooted envelope can arrive after its ancestors, so that it is linked to the genesis that it
claims, and before its parent, so that it is linked to the genesis that the parent claims. The order
of arrival does not matter exactly when these claims agree.
-/

namespace JudicaVM

open Transition Closure Members

section

variable {M : Type} {C : Crypto M} {P : Pool C} {s s' : Store M} {r g : Row M}
  {h : CanonicalEnvelopeHash} {e p x : Authenticated C} {c : Bool} {m n : ℕ}
  {l : List (CanonicalEnvelopeHash × Envelope M)}

/-- The number of parents between an envelope and a genesis envelope. -/
inductive RootedAt (l : List (CanonicalEnvelopeHash × Envelope M)) :
    ℕ → CanonicalEnvelopeHash → Prop
  | genesis {h : CanonicalEnvelopeHash} {e : Envelope M} (hmem : (h, e) ∈ l)
      (hheight : e.header.height = 0) : RootedAt l 0 h
  | child {n : ℕ} {h : CanonicalEnvelopeHash} {e : Envelope M} (hmem : (h, e) ∈ l)
      (hheight : e.header.height ≠ 0) (hparent : RootedAt l n e.prevMsg) : RootedAt l (n + 1) h

private theorem Rooted.exists_rootedAt (hr : Rooted l h) : ∃ n, RootedAt l n h := by
  induction hr with
  | genesis hmem hheight => exact ⟨0, .genesis hmem hheight⟩
  | @child h e hmem _ ih =>
    by_cases h0 : e.header.height = 0
    · exact ⟨0, .genesis hmem h0⟩
    · obtain ⟨n, hn⟩ := ih
      exact ⟨n + 1, .child hmem h0 hn⟩

private theorem RootedAt.unique (hnodup : (l.map Prod.fst).Nodup) (hm : RootedAt l m h)
    (hn : RootedAt l n h) : m = n := by
  have hbody : ∀ {h : CanonicalEnvelopeHash} {e e' : Envelope M}, (h, e) ∈ l → (h, e') ∈ l →
      e = e' :=
    fun he he' => congrArg Prod.snd (List.inj_on_of_nodup_map hnodup he he' rfl)
  induction hm generalizing n with
  | genesis hmem hheight =>
    cases hn with
    | genesis => rfl
    | child hmem' hheight' =>
      rw [hbody hmem' hmem] at hheight'
      exact absurd hheight hheight'
  | child hmem hheight _ ih =>
    cases hn with
    | genesis hmem' hheight' =>
      rw [hbody hmem' hmem] at hheight'
      exact absurd hheight' hheight
    | child hmem' _ hparent =>
      rw [hbody hmem' hmem] at hparent
      rw [ih hparent]

namespace Pool

private theorem accepted_nodup (P : Pool C) : (P.accepted.map Prod.fst).Nodup := by
  rw [accepted, List.map_append, List.map_map, List.map_map]
  apply List.Nodup.sublist _ P.hashes
  exact (List.Sublist.refl _).append (List.filter_sublist.map _)

private theorem mem_accepted (hx : x ∈ P.later) (hdirect : P.Direct x) : x.entry ∈ P.accepted := by
  apply List.mem_append_right
  apply List.mem_map_of_mem
  exact List.mem_filter.mpr ⟨hx, decide_eq_true hdirect⟩

private theorem accepted_cases {y : Envelope M} (hmem : (h, y) ∈ P.accepted) :
    (∃ g ∈ P.genesis, g.envelope.entry = (h, y)) ∨
      ∃ q ∈ P.later, P.Direct q ∧ q.entry = (h, y) := by
  apply (List.mem_append.mp hmem).elim
  · intro hmem
    obtain ⟨g, hg, heq⟩ := List.mem_map.mp hmem
    exact .inl ⟨g, hg, heq⟩
  · intro hmem
    obtain ⟨q, hq, heq⟩ := List.mem_map.mp hmem
    obtain ⟨hq, hdirect⟩ := List.mem_filter.mp hq
    exact .inr ⟨q, hq, of_decide_eq_true hdirect, heq⟩

private theorem Direct.rootedAt (hx : x ∈ P.later) (hdirect : P.Direct x)
    (hn : RootedAt P.accepted n x.entry.1) :
    ∃ m, n = m + 1 ∧ RootedAt P.accepted m x.inner.prevMsg := by
  have hmem := mem_accepted hx hdirect
  have hbody : ∀ {y : Envelope M}, (x.entry.1, y) ∈ P.accepted → y = x.inner :=
    fun hy => congrArg Prod.snd (List.inj_on_of_nodup_map P.accepted_nodup hy hmem rfl)
  cases hn with
  | genesis hmem' hheight =>
    rw [hbody hmem'] at hheight
    exact absurd hheight (P.later_height x hx)
  | child hmem' _ hparent =>
    rw [hbody hmem'] at hparent
    exact ⟨_, rfl, hparent⟩

end Pool

private theorem ParentConnected.kept (hx : ParentConnected s x) (hkept : s.Kept s') :
    ParentConnected s' x := by
  obtain ⟨q, hq, hhash, hc⟩ := hx
  obtain ⟨q', hq', _, _, hhash', hc', _⟩ := hkept q hq
  exact ⟨q', hq', hhash'.trans hhash, hc'.trans hc⟩

private theorem Stored.parentConnected (hp : Stored s p true)
    (hparent : p.entry.1 = x.inner.prevMsg) :
    ParentConnected s x := by
  obtain ⟨r, hr, _, _, hhash, _, hc, _⟩ := hp
  exact ⟨r, hr, hhash.trans hparent, hc⟩

/-- Envelopes after whose arrival the parent of an envelope is connected. -/
structure Pool.Line (P : Pool C) (n : ℕ) (x : Authenticated C) (line : List (Authenticated C)) :
    Prop where
  subset : ∀ y ∈ line, y ∈ P.later
  nodup : line.Nodup
  below : ∀ y ∈ line, ∃ m < n, RootedAt P.accepted m y.entry.1
  parent : ParentConnected (P.base.receiveAll line) x

private theorem Pool.Line.not_mem {line : List (Authenticated C)} (hline : P.Line n x line)
    (hm : RootedAt P.accepted m e.entry.1) (hle : n ≤ m) : e ∉ line := by
  intro he
  obtain ⟨k, hk, hrooted⟩ := hline.below e he
  rw [hrooted.unique P.accepted_nodup hm] at hk
  omega

private theorem Pool.Line.stored {line : List (Authenticated C)} (hline : P.Line n x line)
    (hx : x ∈ P.later) (hdirect : P.Direct x) (hn : RootedAt P.accepted n x.entry.1) :
    Stored (P.base.receiveAll (line ++ [x])) x true := by
  rw [receiveAll_append]
  apply hdirect.stored line hline.subset hx (hline.not_mem hn le_rfl)
  exact ⟨fun _ => hline.parent, fun _ => rfl⟩

private theorem Pool.exists_line (hx : x ∈ P.later) (hdirect : P.Direct x)
    (hn : RootedAt P.accepted n x.entry.1) : ∃ line, P.Line n x line := by
  induction n generalizing x with
  | zero =>
    obtain ⟨m, hm, _⟩ := hdirect.rootedAt hx hn
    cases hm
  | succ n ih =>
    obtain ⟨m, hm, hparent⟩ := hdirect.rootedAt hx hn
    obtain rfl := Nat.succ.inj hm
    obtain ⟨y, hy⟩ : ∃ y, (x.inner.prevMsg, y) ∈ P.accepted := by
      cases hparent with
      | genesis hmem _ => exact ⟨_, hmem⟩
      | child hmem _ _ => exact ⟨_, hmem⟩
    apply (Pool.accepted_cases hy).elim
    · intro hg
      obtain ⟨g, hg, heq⟩ := hg
      obtain ⟨q, hq, hhash, hc⟩ := Pool.genesis_stored hg []
      refine ⟨[], by simp, List.nodup_nil, by simp, q, hq, ?_, hc⟩
      rw [hhash, heq]
    · intro hq
      obtain ⟨q, hq, hqdirect, heq⟩ := hq
      have hqhash : q.entry.1 = x.inner.prevMsg := congrArg Prod.fst heq
      have hqn : RootedAt P.accepted n q.entry.1 := by rwa [hqhash]
      obtain ⟨line, hline⟩ := ih hq hqdirect hqn
      refine ⟨line ++ [q], ?_, ?_, ?_, ?_⟩
      · intro y hy
        rw [List.mem_append, List.mem_singleton] at hy
        apply hy.elim (hline.subset y)
        intro heq
        rwa [heq]
      · apply hline.nodup.append (List.nodup_singleton q)
        rw [List.disjoint_singleton]
        exact hline.not_mem hqn le_rfl
      · intro y hy
        rw [List.mem_append, List.mem_singleton] at hy
        apply hy.elim
        · intro hy
          obtain ⟨k, hk, hrooted⟩ := hline.below y hy
          exact ⟨k, by omega, hrooted⟩
        · intro heq
          rw [heq]
          exact ⟨n, by omega, hqn⟩
      · exact (hline.stored hq hqdirect hqn).parentConnected hqhash

private theorem Pool.zeroFree_receiveAll {es : List (Authenticated C)}
    (hes : ∀ y ∈ es, y ∈ P.later) : (P.base.receiveAll es).ZeroFree := by
  intro r hr
  have hmem := receiveAll_contents_subset es (Store.mem_contents hr)
  rw [P.base_contents, List.mem_append] at hmem
  cases hmem with
  | inl hmem =>
    obtain ⟨g, hg, heq⟩ := List.mem_map.mp hmem
    have hzero := P.genesis_zero g hg
    rwa [heq] at hzero
  | inr hmem =>
    obtain ⟨y, hy, heq⟩ := List.mem_map.mp hmem
    have hzero := P.later_zero y (hes y hy)
    rwa [heq] at hzero

/-- The genesis that a store shows for a hash. -/
def Store.viewGenesis (s : Store M) (h : CanonicalEnvelopeHash) : Option CanonicalEnvelopeHash :=
  (s.attachTips.2.view h).bind fun v => v.2.2

private theorem Store.Linked.viewGenesis_eq (hs : s.Linked) (hr : r ∈ s.messages)
    (hg : g ∈ s.messages)
    (hlink : (r.connect s.updatable).genesisId = some g.messageId) :
    s.viewGenesis r.hash = some g.hash := by
  have hr' := Store.mem_connectAll.mpr ⟨r, hr, rfl⟩
  have hg' := Store.mem_connectAll.mpr ⟨g, hg, rfl⟩
  have hfind := hs.connectAll.rowByHash_eq hr'
  have hid := hs.connectAll.hashOfId_eq hg'
  rw [Row.connect_hash] at hfind hid
  rw [Row.connect_messageId] at hid
  rw [Store.viewGenesis, hs.attachTips_eq, Store.view, hfind, Option.map_some, Option.bind_some,
    hlink, Option.bind_some, hid]

private theorem Stored.viewGenesis_eq (hs : s.Linked) (hzero : s.ZeroFree) (hx : Stored s x true) :
    s.viewGenesis x.entry.1 = some (x.inner.getGenesisHash C) := by
  obtain ⟨r, hr, g, hg, hhash, _, hc, hlink, hgenesis⟩ := hx
  rw [← hhash, ← hgenesis]
  apply hs.viewGenesis_eq hr hg
  rw [hs.connect_of_connected hzero hr hc, hlink]

private theorem Stored.viewGenesis_of_parent (hs : s.Linked) (hzero : s.ZeroFree)
    (hx : Stored s x false)
    (hp : Stored s p true) (hparent : p.entry.1 = x.inner.prevMsg)
    (h0 : p.inner.header.height ≠ 0) :
    s.viewGenesis x.entry.1 = some (p.inner.getGenesisHash C) := by
  obtain ⟨r, hr, _, _, hhash, hbody, hc, _⟩ := hx
  obtain ⟨q, hq, g, hg, hqhash, hqbody, hqc, hlink, hgenesis⟩ := hp
  have hqr : q.hash = r.prevMsg := by
    rw [hqhash, hparent, Row.prevMsg, hbody]
  have hq0 : q.height ≠ 0 := by
    rwa [Row.height, hqbody]
  rw [← hhash, ← hgenesis]
  apply hs.viewGenesis_eq hr hg
  rw [hs.connect_of_parent hzero hr hq hqr hqc hc, Row.genesisForChild, if_neg hq0, hlink]

/-- A rooted envelope whose claim differs from that of its parent shows in which order the two
arrived. -/
theorem Pool.OrderIndependent.sameGenesis (hP : P.OrderIndependent) (he : e ∈ P.later)
    (hp : p ∈ P.later) (hedirect : P.Direct e) (hpdirect : P.Direct p)
    (hrooted : Rooted P.accepted e.entry.1) (hparent : p.entry.1 = e.inner.prevMsg) :
    e.inner.getGenesisHash C = p.inner.getGenesisHash C := by
  obtain ⟨k, hk⟩ := hrooted.exists_rootedAt
  obtain ⟨n, rfl, hn⟩ := hedirect.rootedAt he hk
  rw [← hparent] at hn
  obtain ⟨line, hline⟩ := Pool.exists_line hp hpdirect hn
  have hpline : p ∉ line := hline.not_mem hn le_rfl
  have heline : e ∉ line := hline.not_mem hk (by omega)
  have hne : e ≠ p := by
    intro heq
    subst heq
    have hkn := hk.unique P.accepted_nodup hn
    omega
  obtain ⟨rest, hperm⟩ := exists_perm_append (line ++ [p, e]) P.later (by
    apply hline.nodup.append (by simpa using Ne.symm hne)
    simp [hpline, heline]) (by
    intro y hy
    rw [List.mem_append] at hy
    apply hy.elim (hline.subset y)
    intro hy
    simp only [List.mem_cons, List.not_mem_nil, or_false] at hy
    exact hy.elim (fun h => h ▸ hp) fun h => h ▸ he)
  have hswap : (line ++ [e, p] ++ rest).Perm P.later :=
    (((List.Perm.swap p e []).append_left line).append_right rest).trans hperm.symm
  have hmem : ∀ y ∈ line ++ [p, e] ++ rest, y ∈ P.later := fun y hy => hperm.mem_iff.mpr hy
  have hmem' : ∀ y ∈ line ++ [e, p] ++ rest, y ∈ P.later := fun y hy => hswap.mem_iff.mp hy
  have hpre : ∀ y ∈ line ++ [p], y ∈ P.later :=
    fun y hy => hmem y (by simp at hy ⊢; tauto)
  have hpre' : ∀ y ∈ line ++ [e], y ∈ P.later :=
    fun y hy => hmem y (by simp at hy ⊢; tauto)
  -- after its parent, the envelope is connected at once
  have hfirst : (P.base.receiveAll (line ++ [p, e] ++ rest)).viewGenesis e.entry.1 =
      some (e.inner.getGenesisHash C) := by
    apply Stored.viewGenesis_eq (Pool.receiving_receiveAll hmem).linked
      (Pool.zeroFree_receiveAll hmem)
    have hconnected := (hline.stored hp hpdirect hn).parentConnected hparent
    have hstored := hedirect.stored _ hpre he (by simp [heline, hne])
      ⟨fun _ => hconnected, fun _ => rfl⟩
    have hlast := hstored.kept (receiveAll_kept rest)
    simpa [Store.receiveAll] using hlast
  -- before its parent, it is connected when the tips are attached
  have hsecond : (P.base.receiveAll (line ++ [e, p] ++ rest)).viewGenesis e.entry.1 =
      some (p.inner.getGenesisHash C) := by
    have hnone : ¬ParentConnected (P.base.receiveAll line) e := by
      intro h
      obtain ⟨q, hq, hhash, _⟩ := h
      exact Pool.not_stored line hline.subset hp hpline hq (hhash.trans hparent.symm)
    have hestored : Stored (P.base.receiveAll (line ++ [e])) e false := by
      rw [receiveAll_append]
      exact hedirect.stored line hline.subset he heline
        ⟨fun h => absurd h (by decide), fun h => absurd h hnone⟩
    have hkept : (P.base.receiveAll line).Kept (P.base.receiveAll (line ++ [e])) := by
      rw [receiveAll_append]
      exact receiveAll_kept [e]
    have hpstored : Stored (P.base.receiveAll (line ++ [e, p])) p true := by
      have hstored := hpdirect.stored _ hpre' hp (by simp [hpline, Ne.symm hne])
        ⟨fun _ => hline.parent.kept hkept, fun _ => rfl⟩
      simpa [Store.receiveAll] using hstored
    have helast : Stored (P.base.receiveAll (line ++ [e, p] ++ rest)) e false := by
      have hlast := hestored.kept (receiveAll_kept (p :: rest))
      rw [← receiveAll_append] at hlast
      simpa using hlast
    have hplast : Stored (P.base.receiveAll (line ++ [e, p] ++ rest)) p true := by
      rw [receiveAll_append]
      exact hpstored.kept (receiveAll_kept rest)
    exact helast.viewGenesis_of_parent (Pool.receiving_receiveAll hmem').linked
      (Pool.zeroFree_receiveAll hmem') hplast hparent (P.later_height p hp)
  have hagree := hP.deliver_eq hperm.symm hswap e.entry.1
  rw [Store.viewGenesis, hagree, ← Store.viewGenesis, hsecond] at hfirst
  exact (Option.some.inj hfirst).symm

/-- The stores agree after every order of arrival exactly when the claims of the pool agree. -/
theorem arrival_order_iff (P : Pool C) : P.OrderIndependent ↔ P.ClaimsAgree := by
  constructor
  · intro hP
    constructor
    · exact fun e he r hr hauthor hpos hdirect => hP.noLate he hr hauthor hpos hdirect
    · exact fun e he p hp hedirect hpdirect hrooted hparent =>
        hP.sameGenesis he hp hedirect hpdirect hrooted hparent
  · exact fun hP => hP.orderIndependent

end

/-- A message of alice upon her genesis, and an answer of mallory upon it that claims his own. -/
def racingPool : Pool smallCrypto where
  genesis := [⟨"alice", smallGenesis 5 10 11 0, 0⟩, ⟨"mallory", smallGenesis 6 20 21 1, 0⟩]
  later := [smallLater 5 (0, 0) 0 11 12 2, smallLater 6 (2, 1) 1 21 22 3]
  genesis_height := by decide
  later_height := by decide
  hashes := by decide
  genesis_zero := by decide
  later_zero := by decide

theorem arrival_order_matters :
    ∃ P : Pool smallCrypto, ¬P.OrderIndependent ∧
      (deliver P.genesis [⟨smallLater 5 (0, 0) 0 11 12 2, 0⟩,
        ⟨smallLater 6 (2, 1) 1 21 22 3, 0⟩]).view ⟨4⟩ = some (true, some ⟨3⟩, some ⟨2⟩) ∧
      (deliver P.genesis [⟨smallLater 6 (2, 1) 1 21 22 3, 0⟩,
        ⟨smallLater 5 (0, 0) 0 11 12 2, 0⟩]).view ⟨4⟩ = some (true, some ⟨3⟩, some ⟨1⟩) := by
  have hfirst : (deliver racingPool.genesis [⟨smallLater 5 (0, 0) 0 11 12 2, 0⟩,
      ⟨smallLater 6 (2, 1) 1 21 22 3, 0⟩]).view ⟨4⟩ = some (true, some ⟨3⟩, some ⟨2⟩) := by
    decide +kernel
  have hsecond : (deliver racingPool.genesis [⟨smallLater 6 (2, 1) 1 21 22 3, 0⟩,
      ⟨smallLater 5 (0, 0) 0 11 12 2, 0⟩]).view ⟨4⟩ = some (true, some ⟨3⟩, some ⟨1⟩) := by
    decide +kernel
  refine ⟨racingPool, ?_, hfirst, hsecond⟩
  intro h
  have hagree := h [⟨smallLater 5 (0, 0) 0 11 12 2, 0⟩, ⟨smallLater 6 (2, 1) 1 21 22 3, 0⟩]
    [⟨smallLater 6 (2, 1) 1 21 22 3, 0⟩, ⟨smallLater 5 (0, 0) 0 11 12 2, 0⟩]
    (List.Perm.refl _) (List.Perm.swap _ _ _) ⟨4⟩
  rw [hfirst, hsecond] at hagree
  cases hagree

end JudicaVM
