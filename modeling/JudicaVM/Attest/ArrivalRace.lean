import JudicaVM.Attest.ArrivalOrder
import JudicaVM.Lib.Members

/-!
# Arrivals that race

When the claims of a pool do not agree, two orders of arrival leave different stores: an envelope is
refused before the one that it claims as its genesis has arrived, and it is linked to its own claim
after its parent but to the claim of the parent before it.
-/

namespace JudicaVM

open Transition Closure Members

section

variable {M : Type} {C : Crypto M} {P : Pool C} {s s' : Store M} {r : Row M}
  {h : CanonicalEnvelopeHash} {e p x : Authenticated C} {c : Bool}
  {l : List (CanonicalEnvelopeHash × Envelope M)}

def Store.receiveAll (s : Store M) (es : List (Authenticated C)) : Store M :=
  es.foldl (fun s e => s.receive ⟨e, 0⟩) s

private theorem deliver_eq (es : List (Authenticated C)) :
    deliver P.genesis (es.map fun e => ⟨e, 0⟩) =
      ((P.genesis.foldl Store.register .empty).receiveAll es).attachTips.2 := by
  simp only [deliver, Store.receiveAll, List.foldl_map]

theorem receiveAll_append (es es' : List (Authenticated C)) :
    s.receiveAll (es ++ es') = (s.receiveAll es).receiveAll es' :=
  List.foldl_append

theorem receiveAll_kept (es : List (Authenticated C)) : s.Kept (s.receiveAll es) := by
  induction es generalizing s with
  | nil => exact .refl
  | cons e es ih => exact (receive_kept _).trans ih

private theorem receiveAll_users (es : List (Authenticated C)) :
    (s.receiveAll es).users = s.users := by
  induction es generalizing s with
  | nil => rfl
  | cons e es ih => exact ih.trans (receive_users _)

private theorem receiveAll_receiving (hs : s.Receiving C) {es : List (Authenticated C)}
    (h0 : ∀ e ∈ es, e.inner.header.height ≠ 0) : (s.receiveAll es).Receiving C := by
  induction es generalizing s with
  | nil => exact hs
  | cons e es ih =>
    exact ih (hs.receive (h0 e List.mem_cons_self)) fun x hx => h0 x (List.mem_cons_of_mem _ hx)

private theorem receive_contents_subset (e : Authenticated C) :
    (s.receive ⟨e, 0⟩).contents ⊆ s.contents ++ [e.entry] := by
  apply (receive_cases (s := s) ⟨e, 0⟩).elim
  · intro h
    rw [h]
    exact List.subset_append_left _ _
  · intro h
    obtain ⟨user, _, _, _, h⟩ := h
    rw [h, Store.contents_push]
    exact List.Subset.refl _

theorem receiveAll_contents_subset (es : List (Authenticated C)) :
    (s.receiveAll es).contents ⊆ s.contents ++ es.map Authenticated.entry := by
  induction es generalizing s with
  | nil => simp [Store.receiveAll]
  | cons e es ih =>
    intro y hy
    have hy' := ih hy
    rw [List.mem_append] at hy'
    rw [List.map_cons, List.mem_append, List.mem_cons]
    apply hy'.elim
    · intro hy
      have hmem := receive_contents_subset e hy
      rw [List.mem_append, List.mem_singleton] at hmem
      exact hmem.elim .inl fun h => .inr (.inl h)
    · exact fun hy => .inr (.inr hy)

/-- An envelope is stored, with a link to the genesis that it claims. -/
def Stored (s : Store M) (x : Authenticated C) (c : Bool) : Prop :=
  ∃ r ∈ s.messages, ∃ g ∈ s.messages, r.hash = x.entry.1 ∧ r.body = x.inner ∧ r.connected = c ∧
    r.genesisId = some g.messageId ∧ g.hash = x.inner.getGenesisHash C

theorem Stored.kept (hx : Stored s x c) (hkept : s.Kept s') : Stored s' x c := by
  obtain ⟨r, hr, g, hg, hhash, hbody, hc, hlink, hgenesis⟩ := hx
  obtain ⟨r', hr', _, hbody', hhash', hc', hlink'⟩ := hkept r hr
  obtain ⟨g', hg', hid, _, hghash, _⟩ := hkept g hg
  refine ⟨r', hr', g', hg', hhash'.trans hhash, hbody'.trans hbody, hc'.trans hc, ?_,
    hghash.trans hgenesis⟩
  rw [hlink', hlink, hid]

/-- The parent of an envelope is stored and connected. -/
def ParentConnected (s : Store M) (x : Authenticated C) : Prop :=
  ∃ q ∈ s.messages, q.hash = x.inner.prevMsg ∧ q.connected

private theorem receive_accepts (h0 : 0 < x.inner.header.height)
    (hauthor : (s.userByKey x.inner.header.key).isSome)
    (hgenesis : ∃ g ∈ s.messages, g.hash = x.inner.getGenesisHash C)
    (hnew : ∀ r ∈ s.messages, r.hash ≠ x.entry.1)
    (hc : c = true ↔ ParentConnected s x) :
    (s.receive ⟨x, 0⟩).contents = s.contents ++ [x.entry] ∧ Stored (s.receive ⟨x, 0⟩) x c := by
  have hne : x.inner.header.height ≠ 0 := by omega
  obtain ⟨user, huser⟩ := Option.isSome_iff_exists.mp hauthor
  have hchecks := (newRow_passesChecks_iff (s := s) user.userId 0 hne).mpr
    ⟨h0, hgenesis⟩
  have hfresh : s.rowByHash (C.canonicalizedHash x.inner) = none :=
    Store.rowByHash_eq_none_iff.mpr hnew
  have hlink := idByHash_isSome_iff.mpr hgenesis
  obtain ⟨i, hi⟩ := Option.isSome_iff_exists.mp hlink
  obtain ⟨g, hg, hghash, hid⟩ := Store.exists_of_idByHash hi
  rw [receive_eq (a := ⟨x, 0⟩) huser hchecks hfresh]
  constructor
  · exact Store.contents_push
  · refine ⟨(s.newRow x user.userId 0).connectGapParent (s.newRow x user.userId 0),
      Store.mem_push.mpr ⟨_, .inr rfl, rfl⟩,
      (s.newRow x user.userId 0).connectGapParent g, Store.mem_push.mpr ⟨g, .inl hg, rfl⟩,
      by simp [Store.newRow, Authenticated.entry], by simp [Store.newRow], ?_, ?_,
      by simpa using hghash⟩
    · rw [Row.connectGapParent_connected, Bool.eq_iff_iff, hc,
        Store.Linked.newRow_connected_iff]
      exact ⟨fun h => h.resolve_left hne, .inr⟩
    · rw [Row.connectGapParent_genesisId, Row.connectGapParent_messageId, hid]
      exact hi

theorem Store.Linked.connect_of_parent (hs : s.Linked) (hzero : s.ZeroFree) {p : Row M}
    (hr : r ∈ s.messages) (hp : p ∈ s.messages) (hhash : p.hash = r.prevMsg) (hpc : p.connected)
    (hrc : r.connected = false) : (r.connect s.updatable).genesisId = p.genesisForChild := by
  have hrooted : Rooted s.contents r.hash := by
    apply Rooted.child (mem_contents hr)
    have hparent := hs.rooted p hp hpc
    rwa [hhash] at hparent
  have hconnected := (hs.connect_connected_iff hr).mpr hrooted
  apply (hs.connect_cases hr).elim
  · intro h
    rw [h.1, hrc] at hconnected
    cases hconnected
  · intro h
    obtain ⟨u, hu, q, hattaches, heq⟩ := h
    have hqp := hs.eq_of_hash hattaches.parent hp (hattaches.prevMsg.trans hhash.symm)
    subst hqp
    rw [heq]
    obtain ⟨c, hc, hreach⟩ := mem_updatable.mp hu
    cases hreach with
    | refl =>
      obtain ⟨m, hm, _, parent, hparent, hphash, _, rfl⟩ := mem_connectable.mp hc
      have hmr := hs.eq_of_messageId hm hr hattaches.rowId
      subst hmr
      rw [hs.eq_of_hash hparent hattaches.parent (hphash.trans hhash.symm)]
      rfl
    | tail hreach' hstep =>
      -- the parent would be in the recursive table, whose rows are not connected
      obtain ⟨m, hm, hmhash, rfl⟩ := mem_children.mp hstep
      have hmr := hs.eq_of_messageId hm hr hattaches.rowId
      subst hmr
      obtain ⟨p', hp', _, hphash', hpc'⟩ :=
        hs.updatable_not_connected hzero (mem_updatable.mpr ⟨c, hc, hreach'⟩)
      rw [hs.eq_of_hash hattaches.parent hp' (hhash.trans (hmhash.symm.trans hphash')), hpc'] at hpc
      cases hpc

def Pool.base (P : Pool C) : Store M :=
  P.genesis.foldl Store.register .empty

private theorem Pool.users_receiveAll (es : List (Authenticated C)) (key : XOnlyPublicKey) :
    ((P.base.receiveAll es).userByKey key).isSome ↔
      ∃ g ∈ P.genesis, g.envelope.inner.header.key = key := by
  rw [← P.registered.users key, Store.userByKey, receiveAll_users]
  rfl

theorem Pool.receiving_receiveAll {es : List (Authenticated C)} (hes : ∀ e ∈ es, e ∈ P.later) :
    (P.base.receiveAll es).Receiving C :=
  receiveAll_receiving P.registered.receiving fun e he => P.later_height e (hes e he)

theorem Pool.base_contents : P.base.contents = P.genesis.map fun g => g.envelope.entry :=
  P.registered.contents

private theorem Pool.later_inj (he : e ∈ P.later) (hp : p ∈ P.later) (h : e.entry.1 = p.entry.1) :
    e = p :=
  List.inj_on_of_nodup_map (List.nodup_append.mp P.hashes).2.1 he hp h

private theorem Pool.genesis_ne {g : Registration C} (hg : g ∈ P.genesis) (he : e ∈ P.later) :
    g.envelope.entry.1 ≠ e.entry.1 :=
  (List.nodup_append.mp P.hashes).2.2 _ (List.mem_map_of_mem hg) _ (List.mem_map_of_mem he)

theorem Pool.not_stored (es : List (Authenticated C)) (hes : ∀ y ∈ es, y ∈ P.later)
    (hx : x ∈ P.later) (hxes : x ∉ es) (hr : r ∈ (P.base.receiveAll es).messages) :
    r.hash ≠ x.entry.1 := by
  intro hhash
  have hmem := receiveAll_contents_subset es (Store.mem_contents hr)
  rw [P.base_contents, List.mem_append] at hmem
  cases hmem with
  | inl hmem =>
    obtain ⟨g, hg, heq⟩ := List.mem_map.mp hmem
    exact P.genesis_ne hg hx ((congrArg Prod.fst heq).trans hhash)
  | inr hmem =>
    obtain ⟨y, hy, heq⟩ := List.mem_map.mp hmem
    apply hxes
    rwa [P.later_inj hx (hes y hy) (hhash.symm.trans (congrArg Prod.fst heq).symm)]

theorem Pool.genesis_stored {g : Registration C} (hg : g ∈ P.genesis)
    (es : List (Authenticated C)) :
    ∃ r ∈ (P.base.receiveAll es).messages, r.hash = g.envelope.entry.1 ∧ r.connected := by
  have hmem : g.envelope.entry ∈ P.base.contents := by
    rw [P.base_contents]
    exact List.mem_map_of_mem hg
  obtain ⟨r, hr, hhash, hbody⟩ := exists_row_of_contents hmem
  have hroot := P.registered.receiving.linked.root r hr (P.registered.roots r hr)
  obtain ⟨r', hr', _, _, hhash', hc, _⟩ := receiveAll_kept es r hr
  exact ⟨r', hr', hhash'.trans hhash, hc.trans hroot⟩

theorem Pool.Direct.stored (hdirect : P.Direct x) (es : List (Authenticated C))
    (hes : ∀ y ∈ es, y ∈ P.later) (hx : x ∈ P.later) (hxes : x ∉ es)
    (hc : c = true ↔ ParentConnected (P.base.receiveAll es) x) :
    Stored ((P.base.receiveAll es).receive ⟨x, 0⟩) x c := by
  obtain ⟨hauthor, hpos, g, hg, hgenesis⟩ := hdirect
  obtain ⟨q, hq, hhash, _⟩ := Pool.genesis_stored hg es
  exact (receive_accepts hpos ((Pool.users_receiveAll es _).mpr hauthor)
    ⟨q, hq, hhash.trans hgenesis⟩ (fun r => Pool.not_stored es hes hx hxes) hc).2

private theorem exists_decision (q : Prop) : ∃ c : Bool, c = true ↔ q := by
  classical
  exact ⟨decide q, decide_eq_true_iff⟩

private theorem view_isSome_iff : (s.view h).isSome ↔ ∃ r ∈ s.messages, r.hash = h := by
  simp [Store.view, Store.rowByHash]

theorem Pool.OrderIndependent.deliver_eq (hP : P.OrderIndependent) {es es' : List (Authenticated C)}
    (hes : es.Perm P.later) (hes' : es'.Perm P.later) (h : CanonicalEnvelopeHash) :
    ((P.base.receiveAll es).attachTips.2).view h =
      ((P.base.receiveAll es').attachTips.2).view h := by
  have hagree := hP (es.map fun e => ⟨e, 0⟩) (es'.map fun e => ⟨e, 0⟩)
    (by simpa [Function.comp_def] using hes) (by simpa [Function.comp_def] using hes') h
  rwa [JudicaVM.deliver_eq, JudicaVM.deliver_eq] at hagree

/-- An envelope that claims a later one as its genesis is stored after it and refused before it. -/
theorem Pool.OrderIndependent.noLate (hP : P.OrderIndependent) (he : e ∈ P.later)
    (hp : p ∈ P.later) (hauthor : P.HasAuthor e) (hpos : 0 < e.inner.header.height)
    (hdirect : P.Direct p) : p.entry.1 ≠ e.inner.getGenesisHash C := by
  intro hclaim
  have hne : p ≠ e := by
    intro heq
    subst heq
    obtain ⟨_, _, g, hg, hgenesis⟩ := hdirect
    exact P.genesis_ne hg hp (hgenesis.trans hclaim.symm)
  obtain ⟨rest, hperm⟩ := exists_perm_append [p, e] P.later
    (by simpa using hne) (by simp [hp, he])
  rw [List.cons_append, List.cons_append, List.nil_append] at hperm
  have hmem : ∀ y ∈ p :: e :: rest, y ∈ P.later := fun y hy => hperm.mem_iff.mpr hy
  have hnodup : (p :: e :: rest).Nodup :=
    hperm.nodup_iff.mp (List.Nodup.of_map _ (List.nodup_append.mp P.hashes).2.1)
  have herest : e ∉ rest := (List.nodup_cons.mp (List.nodup_cons.mp hnodup).2).1
  have hview := hP.deliver_eq hperm.symm
    ((List.Perm.swap p e rest).trans hperm.symm) e.entry.1
  -- after the envelope that it claims, the envelope is stored
  have hfirst : ((P.base.receiveAll (p :: e :: rest)).attachTips.2.view e.entry.1).isSome := by
    apply view_isSome_iff.mpr
    have hpre : ∀ y ∈ [p], y ∈ P.later := by
      intro y hy
      rwa [List.mem_singleton.mp hy]
    obtain ⟨c, hc⟩ := exists_decision (ParentConnected (P.base.receiveAll []) p)
    obtain ⟨r, hr, _, _, hhash, _⟩ := hdirect.stored [] (by simp) hp (by simp) hc
    obtain ⟨c', hc'⟩ := exists_decision (ParentConnected (P.base.receiveAll [p]) e)
    have hstored : Stored ((P.base.receiveAll [p]).receive ⟨e, 0⟩) e c' := by
      apply (receive_accepts hpos ((Pool.users_receiveAll [p] _).mpr hauthor) _ _ hc').2
      · exact ⟨r, hr, hhash.trans hclaim⟩
      · exact fun r hr => Pool.not_stored [p] hpre he (by simpa using Ne.symm hne) hr
    have hlast : Stored (P.base.receiveAll (p :: e :: rest)) e c' :=
      hstored.kept (receiveAll_kept rest)
    obtain ⟨r', hr', _, _, hhash', _⟩ := hlast
    rw [(Pool.receiving_receiveAll hmem).linked.attachTips_eq]
    exact ⟨_, Store.mem_connectAll.mpr ⟨r', hr', rfl⟩, by rw [Row.connect_hash, hhash']⟩
  -- before it, the envelope is refused, and it does not arrive again
  have hmem' : ∀ y ∈ e :: p :: rest, y ∈ P.later :=
    fun y hy => hmem y ((List.Perm.swap p e rest).mem_iff.mp hy)
  have hrefused : P.base.receive ⟨e, 0⟩ = P.base := by
    apply (receive_cases _).resolve_right
    intro h
    obtain ⟨user, _, hchecks, _, _⟩ := h
    obtain ⟨_, r, hr, hhash⟩ := (newRow_passesChecks_iff _ _ (P.later_height e he)).mp hchecks
    exact Pool.not_stored [] (by simp) hp (by simp) hr (hhash.trans hclaim.symm)
  have hsecond : ¬((P.base.receiveAll (e :: p :: rest)).attachTips.2.view e.entry.1).isSome := by
    intro hsome
    obtain ⟨r, hr, hhash⟩ := view_isSome_iff.mp hsome
    rw [(Pool.receiving_receiveAll hmem').linked.attachTips_eq] at hr
    obtain ⟨r', hr', rfl⟩ := Store.mem_connectAll.mp hr
    rw [Row.connect_hash] at hhash
    have hdrop : P.base.receiveAll (e :: p :: rest) = P.base.receiveAll (p :: rest) :=
      congrArg (fun s => Store.receiveAll s (p :: rest)) hrefused
    rw [hdrop] at hr'
    apply Pool.not_stored _ (fun y hy => hmem' y (List.mem_cons_of_mem _ hy)) he _ hr' hhash
    rw [List.mem_cons]
    exact fun h => h.elim (fun h => hne h.symm) herest
  rw [← hview] at hsecond
  exact hsecond hfirst

end
end JudicaVM
