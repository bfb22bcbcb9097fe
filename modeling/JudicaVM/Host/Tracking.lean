import JudicaVM.Host.Batch

/-!
# What a task knows of the store

A task holds the selected messages up to its cursor, but for those that are sequenced. Fetching
extends the cursor to the whole store, an iteration moves a batch to the sequenced messages, and a
task that starts again holds what is left.
-/

namespace JudicaVM

open Checked

section

variable {J : Type} {C : Crypto J} {oracle : XOnlyPublicKey} {s s' : Store J} {t t' : Task J}
  {done : List (Envelope J)} {n : ℕ}

namespace Store

/-- The selected messages up to a row. -/
def selectedUpTo (s : Store J) (oracle : XOnlyPublicKey) (n : ℕ) : List (Envelope J) :=
  (s.messages.filter fun r => s.selects oracle r && r.messageId ≤ n).map Row.body

def selected (s : Store J) (oracle : XOnlyPublicKey) : List (Envelope J) :=
  (s.messages.filter (s.selects oracle)).map Row.body

/-- A change of the store that does not alter what is selected up to a row. -/
def SteadyUpTo (oracle : XOnlyPublicKey) (n : ℕ) (s s' : Store J) : Prop :=
  ∀ m ≤ n, s'.selectedUpTo oracle m = s.selectedUpTo oracle m

/-- A store whose selected messages have different places, while no member of a group is the host
itself. -/
structure Playable (C : Crypto J) (oracle : XOnlyPublicKey) (s : Store J) : Prop where
  unique : ∀ r ∈ s.messages, ∀ r' ∈ s.messages, s.selects oracle r → s.selects oracle r' →
    r.body.slot C = r'.body.slot C → r = r'
  others : ∀ m ∈ s.groupMembers, m.1 ∈ s.groupsThisChainSubscribesTo oracle →
    ∀ r ∈ s.messages, r.messageId = m.2 → r.key ≠ oracle

theorem mem_selected {e : Envelope J} :
    e ∈ s.selected oracle ↔ ∃ r ∈ s.messages, s.selects oracle r ∧ r.body = e := by
  simp [selected, and_assoc]

private theorem selectedUpTo_subset : s.selectedUpTo oracle n ⊆ s.selected oracle := by
  intro e he
  obtain ⟨r, hr, rfl⟩ := List.mem_map.mp he
  rw [List.mem_filter, Bool.and_eq_true] at hr
  exact mem_selected.mpr ⟨r, hr.1, hr.2.1, rfl⟩

private theorem selectedUpTo_eq_selected
    (h : ∀ r ∈ s.messages, s.selects oracle r → r.messageId ≤ n) :
    s.selectedUpTo oracle n = s.selected oracle := by
  unfold selectedUpTo selected
  congr 1
  apply List.filter_congr
  intro r hr
  cases hselects : s.selects oracle r with
  | false => rfl
  | true => simpa using h r hr hselects

private theorem selected_perm (s : Store J) (oracle : XOnlyPublicKey) (n : ℕ) :
    ((s.newEnvelopes oracle n).map Row.body ++ s.selectedUpTo oracle n).Perm
      (s.selected oracle) := by
  unfold newEnvelopes selectedUpTo selected
  rw [← List.map_append]
  apply List.Perm.map
  have hsplit := List.filter_append_perm (fun r : Row J => n < r.messageId)
    (s.messages.filter (s.selects oracle))
  rw [List.filter_filter, List.filter_filter] at hsplit
  convert hsplit using 2
  · apply List.filter_congr
    intro r _
    rw [Bool.and_comm]
  · apply List.filter_congr
    intro r _
    by_cases hn : n < r.messageId
    · simp [hn, not_le.mpr hn]
    · simp [hn, not_lt.mp hn]

private theorem Playable.slots_nodup (hp : s.Playable C oracle) (hs : s.Linked) :
    ((s.selected oracle).map (Envelope.slot C)).Nodup := by
  have hmessages : s.messages.Nodup := hs.hashes.of_map
  rw [selected, List.map_map]
  apply List.Nodup.map_on _ (hmessages.filter _)
  intro r hr r' hr' heq
  rw [List.mem_filter] at hr hr'
  exact hp.unique r hr.1 r' hr'.1 hr.2 hr'.2 heq

theorem hashes_nodup (hs : s.Linked) (hsourced : s.Sourced C) :
    ((s.selected oracle).map C.canonicalizedHash).Nodup := by
  have hhashes : (s.selected oracle).map C.canonicalizedHash =
      (s.messages.filter (s.selects oracle)).map Row.hash := by
    rw [selected, List.map_map]
    apply List.map_congr_left
    intro r hr
    exact (hsourced.hash_eq (List.mem_filter.mp hr).1).symm
  rw [hhashes]
  exact hs.hashes.sublist (List.filter_sublist.map _)

private theorem eq_of_canonicalizedHash (hs : s.Linked) (hsourced : s.Sourced C) {e e' : Envelope J}
    (he : e ∈ s.selected oracle) (he' : e' ∈ s.selected oracle)
    (h : C.canonicalizedHash e = C.canonicalizedHash e') : e = e' := by
  obtain ⟨r, hr, _, rfl⟩ := mem_selected.mp he
  obtain ⟨r', hr', _, rfl⟩ := mem_selected.mp he'
  rw [← hsourced.hash_eq hr, ← hsourced.hash_eq hr'] at h
  rw [hs.eq_of_hash hr hr' h]

end Store

theorem foldl_max (l : List ℕ) (m : ℕ) : m ≤ l.foldl max m ∧ ∀ i ∈ l, i ≤ l.foldl max m := by
  induction l generalizing m with
  | nil => simp
  | cons a l ih =>
    obtain ⟨hle, hall⟩ := ih (max m a)
    rw [List.foldl_cons]
    constructor
    · exact (le_max_left m a).trans hle
    · intro i hi
      rcases List.mem_cons.mp hi with rfl | hi
      · exact (le_max_right m i).trans hle
      · exact hall i hi

private theorem foldl_max_le {l : List ℕ} {m n : ℕ} (hm : m ≤ n) (hl : ∀ i ∈ l, i ≤ n) :
    l.foldl max m ≤ n := by
  induction l generalizing m with
  | nil => exact hm
  | cons a l ih =>
    rw [List.foldl_cons]
    apply ih (max_le hm (hl a List.mem_cons_self))
    exact fun i hi => hl i (List.mem_cons_of_mem _ hi)

namespace Task

theorem messageId_le_fetch_seq {r : Row J} (hr : r ∈ s.messages) (hselects : s.selects oracle r) :
    r.messageId ≤ (t.fetch C oracle s).seq := by
  obtain ⟨hle, hall⟩ := foldl_max ((s.newEnvelopes oracle t.seq).map Row.messageId) t.seq
  by_cases hold : r.messageId ≤ t.seq
  · exact hold.trans hle
  · apply hall
    apply List.mem_map_of_mem
    apply List.mem_filter.mpr ⟨hr, _⟩
    simp [hselects, not_le.mp hold]

theorem fetch_seq_le (hs : s.Linked) (h : t.seq ≤ s.messages.length) :
    (t.fetch C oracle s).seq ≤ s.messages.length := by
  apply foldl_max_le h
  intro i hi
  obtain ⟨r, hr, rfl⟩ := List.mem_map.mp hi
  exact hs.messageId_le (List.mem_filter.mp hr).1

/-- A fetch adds the selected messages above the cursor, and replaces none below it. -/
theorem fetch_pending (hs : s.Linked) (hsourced : s.Sourced C)
    (hold : ∀ e ∈ t.allUnprocessedMessages, ∃ r ∈ s.messages, r.messageId ≤ t.seq ∧ r.body = e) :
    (t.fetch C oracle s).pending.Perm
      ((s.newEnvelopes oracle t.seq).map Row.body ++ t.pending) := by
  have hkept : (t.allUnprocessedMessages.filter fun e => C.canonicalizedHash e ∉
      (s.newEnvelopes oracle t.seq).map fun r => C.canonicalizedHash r.body) =
        t.allUnprocessedMessages := by
    apply List.filter_eq_self.mpr
    intro e he
    apply decide_eq_true
    intro hmem
    obtain ⟨r, hr, hhash⟩ := List.mem_map.mp hmem
    obtain ⟨hr, hnew⟩ := List.mem_filter.mp hr
    obtain ⟨r', hr', hseq, rfl⟩ := hold e he
    rw [← hsourced.hash_eq hr, ← hsourced.hash_eq hr'] at hhash
    rw [hs.eq_of_hash hr hr' hhash] at hnew
    simp only [Bool.and_eq_true, decide_eq_true_eq] at hnew
    omega
  rw [Task.pending, Task.fetch, hkept, Task.pending, List.append_assoc]
  exact List.perm_append_comm_assoc _ _ _

end Task

theorem mem_slots_of_heights {g : CanonicalEnvelopeHash} {k next : ℤ}
    (h : (done.filter fun e => e.getGenesisHash C = g).map (fun e => e.header.height) =
      heightsFrom 0 next) : (g, k) ∈ done.map (Envelope.slot C) ↔ 0 ≤ k ∧ k < next := by
  rw [← mem_heightsFrom, ← h]
  simp [Envelope.slot, and_assoc]

namespace Task.Emits

variable {batch : List (Envelope J)}

theorem perm_done (h : t.Emits C t' batch) (done : List (Envelope J)) :
    (t'.pending ++ (done ++ batch)).Perm (t.pending ++ done) := by
  have hswap : (t'.pending ++ (done ++ batch)).Perm (batch ++ t'.pending ++ done) := by
    rw [← List.append_assoc]
    exact List.perm_append_comm.trans (by rw [List.append_assoc])
  exact hswap.trans (h.perm.append_right done)

theorem heights_done (h : t.Emits C t' batch) {g : CanonicalEnvelopeHash}
    (hdone : (done.filter fun e => e.getGenesisHash C = g).map (fun e => e.header.height) =
      heightsFrom 0 (t.nextHeightToSequence g)) (hpos : 0 ≤ t.nextHeightToSequence g) :
    ((done ++ batch).filter fun e => e.getGenesisHash C = g).map (fun e => e.header.height) =
      heightsFrom 0 (t'.nextHeightToSequence g) := by
  rw [List.filter_append, List.map_append, hdone, h.heights,
    heightsFrom_append hpos (h.next_le g)]

end Task.Emits

/-- The task holds what is selected up to its cursor and not sequenced yet, and the heights that
are sequenced of each chain are those before its next height. -/
structure Task.Tracks (C : Crypto J) (oracle : XOnlyPublicKey) (s : Store J) (t : Task J)
    (done : List (Envelope J)) : Prop where
  perm : (t.pending ++ done).Perm (s.selectedUpTo oracle t.seq)
  heights : ∀ g, (done.filter fun e => e.getGenesisHash C = g).map (fun e => e.header.height) =
    heightsFrom 0 (t.nextHeightToSequence g)
  next_nonneg : ∀ g, 0 ≤ t.nextHeightToSequence g
  seq_le : t.seq ≤ s.messages.length

namespace Task.Tracks

theorem initial (hs : s.Linked) : Task.Tracks C oracle s .initial [] := by
  have hempty : s.selectedUpTo oracle 0 = [] := by
    rw [Store.selectedUpTo, List.map_eq_nil_iff, List.filter_eq_nil_iff]
    intro r hr
    have hmem : r.messageId ∈ List.range' 1 s.messages.length := hs.ids ▸ List.mem_map_of_mem hr
    have hpos := (List.mem_range'_1.mp hmem).1
    simp [Nat.pos_iff_ne_zero.mp hpos]
  constructor
  · show List.Perm [] (s.selectedUpTo oracle 0)
    rw [hempty]
  · intro g
    exact (heightsFrom_self 0).symm
  · exact fun g => le_rfl
  · exact Nat.zero_le _

theorem steady (h : t.Tracks C oracle s done) (hsteady : s.SteadyUpTo oracle t.seq s')
    (hlength : s.messages.length ≤ s'.messages.length) : t.Tracks C oracle s' done := by
  constructor
  · rw [hsteady t.seq le_rfl]
    exact h.perm
  · exact h.heights
  · exact h.next_nonneg
  · exact h.seq_le.trans hlength

theorem fetch_selected : s.selectedUpTo oracle (t.fetch C oracle s).seq = s.selected oracle := by
  apply Store.selectedUpTo_eq_selected
  exact fun r hr hselects => messageId_le_fetch_seq hr hselects

theorem fetch (h : t.Tracks C oracle s done) (hs : s.Linked) (hsourced : s.Sourced C) :
    (t.fetch C oracle s).Tracks C oracle s done := by
  have hold : ∀ e ∈ t.allUnprocessedMessages,
      ∃ r ∈ s.messages, r.messageId ≤ t.seq ∧ r.body = e := by
    intro e he
    have hmem : e ∈ s.selectedUpTo oracle t.seq :=
      h.perm.subset (List.mem_append_left _ (List.mem_append_left _ he))
    obtain ⟨r, hr, hbody⟩ := List.mem_map.mp hmem
    obtain ⟨hr, hseq⟩ := List.mem_filter.mp hr
    simp only [Bool.and_eq_true, decide_eq_true_eq] at hseq
    exact ⟨r, hr, hseq.2, hbody⟩
  constructor
  · rw [fetch_selected]
    have hpending : ((t.fetch C oracle s).pending ++ done).Perm _ :=
      (fetch_pending hs hsourced hold).append_right done
    rw [List.append_assoc] at hpending
    exact hpending.trans ((h.perm.append_left _).trans (s.selected_perm oracle t.seq))
  · exact h.heights
  · exact h.next_nonneg
  · exact fetch_seq_le hs h.seq_le

theorem pending_subset (h : t.Tracks C oracle s done) : t.pending ⊆ s.selected oracle :=
  fun _ he => Store.selectedUpTo_subset (h.perm.subset (List.mem_append_left _ he))

theorem done_subset (h : t.Tracks C oracle s done) : done ⊆ s.selected oracle :=
  fun _ he => Store.selectedUpTo_subset (h.perm.subset (List.mem_append_right _ he))

theorem mem_done_slots (h : t.Tracks C oracle s done) {g : CanonicalEnvelopeHash} {k : ℤ} :
    (g, k) ∈ done.map (Envelope.slot C) ↔ 0 ≤ k ∧ k < t.nextHeightToSequence g :=
  mem_slots_of_heights (h.heights g)

theorem orderly (h : t.Tracks C oracle s done) (hs : s.Linked) (hp : s.Playable C oracle)
    (hothers : ∀ r ∈ s.messages, s.selects oracle r → r.key ≠ oracle)
    (hbounds : ∀ r ∈ s.messages, r.key ≠ oracle → r.height < i64Max - 1)
    (hselected : s.selectedUpTo oracle t.seq = s.selected oracle) : t.Orderly C oracle := by
  have hslots : ((t.pending ++ done).map (Envelope.slot C)).Nodup := by
    rw [(h.perm.map _).nodup_iff, hselected]
    exact hp.slots_nodup hs
  rw [List.map_append] at hslots
  constructor
  · intro e he
    obtain ⟨r, hr, hselects, rfl⟩ := Store.mem_selected.mp (h.pending_subset he)
    exact hothers r hr hselects
  · exact (List.nodup_append.mp hslots).1
  · intro e he
    obtain ⟨r, hr, _, rfl⟩ := Store.mem_selected.mp (h.pending_subset he)
    by_contra hlt
    have hdone := h.mem_done_slots.mpr ⟨hs.height_nonneg hr, not_le.mp hlt⟩
    exact (List.nodup_append.mp hslots).2.2 _ (List.mem_map_of_mem he) _ hdone rfl
  · intro e he
    obtain ⟨r, hr, hselects, rfl⟩ := Store.mem_selected.mp (h.pending_subset he)
    exact hbounds r hr (hothers r hr hselects)

theorem emits (h : t.Tracks C oracle s done) {batch : List (Envelope J)}
    (hemits : t.Emits C t' batch) : t'.Tracks C oracle s (done ++ batch) := by
  constructor
  · rw [hemits.seq]
    exact (hemits.perm_done done).trans h.perm
  · exact fun g => hemits.heights_done (h.heights g) (h.next_nonneg g)
  · exact fun g => (h.next_nonneg g).trans (hemits.next_le g)
  · rw [hemits.seq]
    exact h.seq_le

/-- Two tasks that know the same sequenced messages and have passed the whole store agree. -/
theorem agree (h : t.Tracks C oracle s done) (h' : t'.Tracks C oracle s done)
    (hselected : s.selectedUpTo oracle t.seq = s.selected oracle)
    (hselected' : s.selectedUpTo oracle t'.seq = s.selected oracle) :
    t.nextHeightToSequence = t'.nextHeightToSequence ∧ t.pending.Perm t'.pending := by
  constructor
  · funext g
    have hheights := (h.heights g).symm.trans (h'.heights g)
    have hlength := congrArg List.length hheights
    simp only [heightsFrom, List.length_map, List.length_range, sub_zero] at hlength
    have hpos := h.next_nonneg g
    have hpos' := h'.next_nonneg g
    omega
  · have hperm := h.perm
    rw [hselected, ← hselected'] at hperm
    exact (List.perm_append_right_iff done).mp (hperm.trans h'.perm.symm)

end Task.Tracks

theorem heightsFrom_succ {a b : ℤ} (hab : a ≤ b) :
    heightsFrom a (b + 1) = heightsFrom a b ++ [b] := by
  rw [← heightsFrom_append (b := b) hab (by omega)]
  congr 1
  simp [heightsFrom]

private theorem eq_of_heightsFrom_append {m n k : ℤ} {rest : List ℤ} (hm : 0 ≤ m)
    (h : heightsFrom 0 m ++ k :: rest = heightsFrom 0 n) : k = m := by
  have hlength : (heightsFrom 0 m).length = m.toNat := by simp [heightsFrom]
  have hget := congrArg (fun l => l[m.toNat]?) h
  simp only [← hlength, List.getElem?_append_right (le_refl _), Nat.sub_self,
    List.getElem?_cons_zero] at hget
  rw [hlength, heightsFrom, List.getElem?_map] at hget
  obtain ⟨i, hi, hk⟩ := Option.map_eq_some_iff.mp hget.symm
  have hrange := List.getElem?_eq_some_iff.mp hi
  obtain ⟨_, hi⟩ := hrange
  rw [List.getElem_range] at hi
  omega

/-- The heights of every chain are those from 0 on. -/
def Gapless (C : Crypto J) (done : List (Envelope J)) : Prop :=
  ∀ g, ∃ n, (done.filter fun e => e.getGenesisHash C = g).map (fun e => e.header.height) =
    heightsFrom 0 n

theorem Task.Tracks.gapless (h : t.Tracks C oracle s done) : Gapless C done :=
  fun g => ⟨_, h.heights g⟩

private theorem Gapless.next {e : Envelope J} {rest : List (Envelope J)}
    (h : Gapless C (done ++ e :: rest)) (ht : t.Tracks C oracle s done) :
    e.header.height = t.nextHeightToSequence (e.getGenesisHash C) := by
  obtain ⟨n, hn⟩ := h (e.getGenesisHash C)
  rw [List.filter_append, List.map_append, ht.heights, List.filter_cons_of_pos (by simp),
    List.map_cons] at hn
  exact eq_of_heightsFrom_append (ht.next_nonneg _) hn

namespace Task.Tracks

private theorem recoverMessage_eq (h : t.Tracks C oracle s done) (hs : s.Linked)
    (hsourced : s.Sourced C)
    (hfiled : t.messageByGenesis = []) {e : Envelope J} {rest : List (Envelope J)}
    (he : e ∈ s.selected oracle) (hselected : s.selectedUpTo oracle t.seq = s.selected oracle)
    (hgapless : Gapless C (done ++ e :: rest)) (hnew : e ∉ done) :
    ∃ t', t.recoverMessage C (C.canonicalizedHash e) = .ok t' ∧
      t'.Tracks C oracle s (done ++ [e]) ∧ t'.messageByGenesis = [] ∧ t'.seq = t.seq := by
  have hpending : t.pending = t.allUnprocessedMessages := by
    rw [Task.pending, hfiled, List.append_nil]
  have hperm := h.perm
  rw [hselected, hpending] at hperm
  have hmem : e ∈ t.allUnprocessedMessages :=
    (List.mem_append.mp (hperm.mem_iff.mpr he)).resolve_right hnew
  have hsub : ∀ e' ∈ t.allUnprocessedMessages, e' ∈ s.selected oracle :=
    fun e' he' => hperm.subset (List.mem_append_left _ he')
  have hinj : ∀ e' ∈ t.allUnprocessedMessages,
      C.canonicalizedHash e' = C.canonicalizedHash e → e' = e :=
    fun e' he' heq => Store.eq_of_canonicalizedHash hs hsourced (hsub e' he') he heq
  have hfind : t.allUnprocessedMessages.find?
      (fun e' => C.canonicalizedHash e' = C.canonicalizedHash e) = some e := by
    cases hfind : t.allUnprocessedMessages.find?
        (fun e' => C.canonicalizedHash e' = C.canonicalizedHash e) with
    | none =>
      have hnone := List.find?_eq_none.mp hfind e hmem
      simp at hnone
    | some e' =>
      have htest : C.canonicalizedHash e' = C.canonicalizedHash e := by
        simpa using List.find?_some hfind
      rw [hinj e' (List.mem_of_find?_eq_some hfind) htest]
  have hnext := hgapless.next h
  have hpos := h.next_nonneg (e.getGenesisHash C)
  have hunique : (t.allUnprocessedMessages.map C.canonicalizedHash).Nodup := by
    have hall := (hperm.map C.canonicalizedHash).nodup_iff.mpr (Store.hashes_nodup hs hsourced)
    rw [List.map_append] at hall
    exact (List.nodup_append.mp hall).1
  refine ⟨{ t with
    allUnprocessedMessages := t.allUnprocessedMessages.filter
      fun e' => C.canonicalizedHash e' ≠ C.canonicalizedHash e
    nextHeightToSequence := Function.update t.nextHeightToSequence (e.getGenesisHash C)
      (max (e.header.height + 1) (t.nextHeightToSequence (e.getGenesisHash C))) },
    by rw [Task.recoverMessage, hfind], ?_, hfiled, rfl⟩
  constructor
  · have hsplit := Members.perm_cons_filter hunique hmem
    rw [hselected, Task.pending]
    simp only [hfiled, List.append_nil]
    rw [← List.append_assoc]
    apply List.perm_append_comm.trans
    rw [← List.append_assoc, List.singleton_append]
    exact (hsplit.append_right done).trans hperm
  · intro g
    rw [List.filter_append, List.map_append, h.heights]
    by_cases hg : e.getGenesisHash C = g
    · subst hg
      simp only [Function.update_self]
      rw [← hnext, max_eq_left (by omega), heightsFrom_succ (by omega)]
      simp
    · simp only [Function.update_of_ne (Ne.symm hg)]
      simp [hg]
  · intro g
    by_cases hg : g = e.getGenesisHash C
    · simp only [hg, Function.update_self]
      exact hpos.trans (le_max_right _ _)
    · simp only [Function.update_of_ne hg]
      exact h.next_nonneg g
  · exact h.seq_le

private theorem recoverAll_eq (h : t.Tracks C oracle s done) (hs : s.Linked)
    (hsourced : s.Sourced C)
    (hfiled : t.messageByGenesis = []) {rest : List (Envelope J)}
    (hsub : ∀ e ∈ rest, e ∈ s.selected oracle)
    (hselected : s.selectedUpTo oracle t.seq = s.selected oracle)
    (hgapless : Gapless C (done ++ rest)) (hnodup : (done ++ rest).Nodup) :
    ∃ t', (rest.map C.canonicalizedHash).foldlM (Task.recoverMessage C) t = .ok t' ∧
      t'.Tracks C oracle s (done ++ rest) ∧
      s.selectedUpTo oracle t'.seq = s.selected oracle := by
  induction rest generalizing t done with
  | nil =>
    refine ⟨t, rfl, ?_, hselected⟩
    rwa [List.append_nil]
  | cons e rest ih =>
    have hnew : e ∉ done := by
      intro hmem
      exact (List.nodup_append.mp hnodup).2.2 e hmem e List.mem_cons_self rfl
    obtain ⟨t₁, hstep, htracks, hfiled₁, hseq⟩ :=
      h.recoverMessage_eq hs hsourced hfiled (hsub e List.mem_cons_self) hselected hgapless hnew
    have hassoc : done ++ e :: rest = (done ++ [e]) ++ rest := by simp
    rw [hassoc] at hgapless hnodup ⊢
    rw [← hseq] at hselected
    obtain ⟨t', hrest, h'⟩ := ih htracks hfiled₁
      (fun e' he' => hsub e' (List.mem_cons_of_mem _ he')) hselected hgapless hnodup
    refine ⟨t', ?_, h'⟩
    rw [List.map_cons, List.foldlM_cons, hstep, ok_bind, hrest]

end Task.Tracks

theorem recover_eq (hs : s.Linked) (hsourced : s.Sourced C)
    (hsub : ∀ e ∈ done, e ∈ s.selected oracle) (hgapless : Gapless C done)
    (hnodup : done.Nodup) :
    ∃ t, Task.recover C oracle s (done.map C.canonicalizedHash) = .ok t ∧
      t.Tracks C oracle s done ∧ s.selectedUpTo oracle t.seq = s.selected oracle := by
  have hinitial : Task.Tracks C oracle s .initial [] := .initial hs
  have hfetch := hinitial.fetch hs hsourced
  exact hfetch.recoverAll_eq hs hsourced rfl hsub Task.Tracks.fetch_selected hgapless hnodup

end

end JudicaVM
