import JudicaVM.Host.Task
import JudicaVM.Lib.Members

/-!
# The batch of one iteration

Every chain contributes its gap-free run of heights, the chains take turns, and what is left stays
filed.
-/

namespace JudicaVM

open Checked

private theorem scanKeys_spec {first : ℤ} (next₀ : ℤ) {keys : List ℤ}
    (hsorted : keys.Pairwise (· < ·))
    (hmax : ∀ k ∈ keys, k < i64Max - 1) (hfirst : keys.head? = some first) :
    first < scanKeys next₀ keys ∧ scanKeys next₀ keys ∉ keys ∧
      ∀ k, first ≤ k → k < scanKeys next₀ keys → k ∈ keys := by
  induction keys generalizing first with
  | nil => cases hfirst
  | cons k rest ih =>
    obtain rfl := Option.some.inj hfirst
    obtain ⟨hk, hrest⟩ := List.pairwise_cons.mp hsorted
    cases rest with
    | nil =>
      have hbound := hmax k List.mem_cons_self
      have hgap : i64Max - k ≠ 1 := by omega
      rw [scanKeys, List.headD_nil, if_neg hgap]
      simp only [List.mem_singleton]
      refine ⟨by omega, by omega, ?_⟩
      intro j hj hj'
      omega
    | cons k' rest =>
      rw [scanKeys, List.headD_cons]
      split_ifs with hnext
      · obtain ⟨hlt, hnot, hall⟩ := ih hrest (fun j hj => hmax j (List.mem_cons_of_mem _ hj)) rfl
        refine ⟨by omega, ?_, ?_⟩
        · intro hmem
          apply (List.mem_cons.mp hmem).elim _ hnot
          omega
        · intro j hj hj'
          by_cases heq : j = k
          · exact heq ▸ List.mem_cons_self
          · exact List.mem_cons_of_mem _ (hall j (by omega) hj')
      · refine ⟨by omega, ?_, ?_⟩
        · intro hmem
          have hlt := hk k' List.mem_cons_self
          rcases List.mem_cons.mp hmem with heq | hmem
          · omega
          · rcases List.mem_cons.mp hmem with heq | hmem
            · omega
            · have hlt' := (List.pairwise_cons.mp hrest).1 _ hmem
              omega
        · intro j hj hj'
          have heq : j = k := by omega
          exact heq ▸ List.mem_cons_self

theorem mem_heightsFrom {first next k : ℤ} : k ∈ heightsFrom first next ↔ first ≤ k ∧ k < next := by
  simp only [heightsFrom, List.mem_map, List.mem_range]
  constructor
  · intro h
    obtain ⟨i, hi, rfl⟩ := h
    omega
  · intro h
    exact ⟨(k - first).toNat, by omega, by omega⟩

theorem heightsFrom_sorted (first next : ℤ) : (heightsFrom first next).Pairwise (· < ·) := by
  rw [heightsFrom, List.pairwise_map]
  exact List.pairwise_lt_range.imp fun h => by omega

theorem heightsFrom_self (first : ℤ) : heightsFrom first first = [] := by
  simp [heightsFrom]

theorem heightsFrom_append {a b c : ℤ} (hab : a ≤ b) (hbc : b ≤ c) :
    heightsFrom a b ++ heightsFrom b c = heightsFrom a c := by
  have hsorted : (heightsFrom a b ++ heightsFrom b c).Pairwise (· < ·) := by
    apply List.pairwise_append.mpr ⟨heightsFrom_sorted _ _, heightsFrom_sorted _ _, _⟩
    intro k hk k' hk'
    have h := mem_heightsFrom.mp hk
    have h' := mem_heightsFrom.mp hk'
    omega
  have hperm : (heightsFrom a b ++ heightsFrom b c).Perm (heightsFrom a c) := by
    apply (List.perm_ext_iff_of_nodup (hsorted.imp ne_of_lt)
      ((heightsFrom_sorted _ _).imp ne_of_lt)).mpr
    intro k
    rw [List.mem_append, mem_heightsFrom, mem_heightsFrom, mem_heightsFrom]
    omega
  exact hperm.eq_of_pairwise' (hsorted.imp le_of_lt) ((heightsFrom_sorted _ _).imp le_of_lt)

section

variable {J : Type} {C : Crypto J}

/-- The place of an envelope: the chain that it claims, and its height. -/
def Envelope.slot (C : Crypto J) (e : Envelope J) : CanonicalEnvelopeHash × ℤ :=
  (e.getGenesisHash C, e.header.height)

/-- The entry of an envelope in the queue. -/
def Envelope.scheduled (C : Crypto J) (e : Envelope J) : ToSequence :=
  ⟨e.header.height, C.canonicalizedHash e, e.getGenesisHash C⟩

variable {t t' : Task J} {g : CanonicalEnvelopeHash} {e : Envelope J}

/-- A task whose filed envelopes are others. -/
def Task.withFiled (t : Task J) (filed : List (Envelope J)) : Task J :=
  { t with messageByGenesis := filed }

private theorem sequenceHeight_eq (queue : List ToSequence)
    (hnodup : (t.messageByGenesis.map (Envelope.slot C)).Nodup) {k : ℤ}
    (hk : (g, k) ∈ t.messageByGenesis.map (Envelope.slot C)) :
    ∃ e ∈ t.messageByGenesis, e.slot C = (g, k) ∧
      ∃ filed, (e :: filed).Perm t.messageByGenesis ∧
        Task.sequenceHeight C g (t, queue) k = .ok (t.withFiled filed, queue ++ [e.scheduled C]) := by
  have hslot (e : Envelope J) : e.slot C = (g, k) ↔
      e.getGenesisHash C = g ∧ e.header.height = k := Prod.mk_inj
  obtain ⟨e₀, he₀, hslot₀⟩ := List.mem_map.mp hk
  cases hfind : t.messageByGenesis.find?
      (fun e => e.getGenesisHash C = g && e.header.height = k) with
  | none =>
    have hnone := List.find?_eq_none.mp hfind e₀ he₀
    simp [(hslot e₀).mp hslot₀] at hnone
  | some e =>
    have he := List.mem_of_find?_eq_some hfind
    have hes : e.slot C = (g, k) := by
      have htest := List.find?_some hfind
      rw [hslot]
      simpa using htest
    refine ⟨e, he, hes, t.messageByGenesis.filter fun m => m.slot C ≠ e.slot C,
      Members.perm_cons_filter hnodup he, ?_⟩
    simp only [Task.sequenceHeight, hfind, hes, ne_eq, hslot]
    rfl

private theorem sequenceHeights_eq (queue : List ToSequence) {ks : List ℤ}
    (hnodup : (t.messageByGenesis.map (Envelope.slot C)).Nodup)
    (hks : ks.Nodup) (hmem : ∀ k ∈ ks, (g, k) ∈ t.messageByGenesis.map (Envelope.slot C)) :
    ∃ run filed, run.map (Envelope.slot C) = ks.map (fun k => (g, k)) ∧
      (run ++ filed).Perm t.messageByGenesis ∧
      ks.foldlM (Task.sequenceHeight C g) (t, queue) =
        .ok (t.withFiled filed, queue ++ run.map (Envelope.scheduled C)) := by
  induction ks generalizing t queue with
  | nil => exact ⟨[], t.messageByGenesis, rfl, .refl _, by simp [Task.withFiled]⟩
  | cons k ks ih =>
    obtain ⟨hk, hks⟩ := List.nodup_cons.mp hks
    obtain ⟨e, he, hslot, filed, hperm, hstep⟩ :=
      sequenceHeight_eq queue hnodup (hmem k List.mem_cons_self)
    have hslots := hperm.map (Envelope.slot C)
    rw [List.map_cons, hslot] at hslots
    have hnodup' := (List.nodup_cons.mp (hslots.nodup_iff.mpr hnodup)).2
    have hmem' : ∀ k' ∈ ks, (g, k') ∈ (t.withFiled filed).messageByGenesis.map (Envelope.slot C) := by
      intro k' hk'
      have hin := hslots.mem_iff.mpr (hmem k' (List.mem_cons_of_mem _ hk'))
      apply (List.mem_cons.mp hin).resolve_left
      intro heq
      exact hk ((Prod.mk.inj heq).2 ▸ hk')
    obtain ⟨run, filed', hrun, hperm', hfold⟩ :=
      ih (t := t.withFiled filed) (queue ++ [e.scheduled C]) hnodup' hks hmem'
    refine ⟨e :: run, filed', ?_, ?_, ?_⟩
    · rw [List.map_cons, List.map_cons, hrun, hslot]
    · exact (hperm'.cons e).trans hperm
    · rw [List.foldlM_cons, hstep, ok_bind, hfold]
      simp [Task.withFiled]

/-- What is filed has different places, none before the next height of its chain. -/
structure Task.Filed (C : Crypto J) (t : Task J) : Prop where
  slots : (t.messageByGenesis.map (Envelope.slot C)).Nodup
  next_le : ∀ e ∈ t.messageByGenesis,
    t.nextHeightToSequence (e.getGenesisHash C) ≤ e.header.height
  height_lt : ∀ e ∈ t.messageByGenesis, e.header.height < i64Max - 1

private theorem mem_heights {k : ℤ} :
    k ∈ t.heights C g ↔ (g, k) ∈ t.messageByGenesis.map (Envelope.slot C) := by
  simp [Task.heights, Envelope.slot, and_assoc]

private theorem heights_sorted (hslots : (t.messageByGenesis.map (Envelope.slot C)).Nodup) :
    (t.heights C g).Pairwise (· < ·) := by
  have hnodup : (t.heights C g).Nodup := by
    apply (List.perm_insertionSort _ _).nodup_iff.mpr
    apply List.Nodup.map_on _ (hslots.of_map.filter _)
    intro e he e' he' heq
    have hg := (List.mem_filter.mp he).2
    have hg' := (List.mem_filter.mp he').2
    apply List.inj_on_of_nodup_map hslots (List.mem_filter.mp he).1 (List.mem_filter.mp he').1
    simp only [decide_eq_true_eq] at hg hg'
    rw [Envelope.slot, Envelope.slot, hg, hg', heq]
  have hsorted : (t.heights C g).Pairwise (· ≤ ·) := List.pairwise_insertionSort _ _
  exact (hsorted.and hnodup).imp fun h => lt_of_le_of_ne h.1 h.2

private theorem head_heights_iff (ht : t.Filed C) :
    (t.heights C g).head? = some (t.nextHeightToSequence g) ↔
      (g, t.nextHeightToSequence g) ∈ t.messageByGenesis.map (Envelope.slot C) := by
  rw [← mem_heights]
  constructor
  · exact List.mem_of_head?
  · intro hmem
    cases hkeys : t.heights C g with
    | nil => simp [hkeys] at hmem
    | cons k rest =>
      have hk : k ∈ t.heights C g := hkeys ▸ List.mem_cons_self
      obtain ⟨e, he, hslot⟩ := List.mem_map.mp (mem_heights.mp hk)
      obtain ⟨rfl, rfl⟩ := Prod.mk.inj hslot
      have hle := ht.next_le e he
      rw [List.head?_cons, Option.some_inj]
      have hsorted := heights_sorted (g := e.getGenesisHash C) ht.slots
      rw [hkeys] at hmem hsorted
      rcases List.mem_cons.mp hmem with heq | hmem
      · exact heq.symm
      · have hlt := (List.pairwise_cons.mp hsorted).1 _ hmem
        omega

/-- The task after a chain contributed its heights before `last`. -/
def Task.advanced (t : Task J) (g : CanonicalEnvelopeHash) (last : ℤ) (filed : List (Envelope J)) :
    Task J :=
  { t with
    messageByGenesis := filed
    nextHeightToSequence := Function.update t.nextHeightToSequence g last }

private theorem sequenceGenesis_eq (queue : List ToSequence) (ht : t.Filed C) :
    ∃ run filed last, t.nextHeightToSequence g ≤ last ∧
      run.map (Envelope.slot C) =
        (heightsFrom (t.nextHeightToSequence g) last).map (fun k => (g, k)) ∧
      (run ++ filed).Perm t.messageByGenesis ∧
      (g, last) ∉ t.messageByGenesis.map (Envelope.slot C) ∧
      Task.sequenceGenesis C (t, queue) g =
        .ok (t.advanced g last filed, queue ++ run.map (Envelope.scheduled C)) := by
  by_cases hhead : (t.heights C g).head? = some (t.nextHeightToSequence g)
  · have hmax : ∀ k ∈ t.heights C g, k < i64Max - 1 := by
      intro k hk
      obtain ⟨e, he, hslot⟩ := List.mem_map.mp (mem_heights.mp hk)
      rw [← (Prod.mk.inj hslot).2]
      exact ht.height_lt e he
    obtain ⟨hlt, hnot, hall⟩ :=
      scanKeys_spec (t.nextHeightToSequence g) (heights_sorted ht.slots) hmax hhead
    generalize hlast : scanKeys (t.nextHeightToSequence g) (t.heights C g) = last at hlt hnot hall
    have hmem : ∀ k ∈ heightsFrom (t.nextHeightToSequence g) last,
        (g, k) ∈ t.messageByGenesis.map (Envelope.slot C) := by
      intro k hk
      obtain ⟨hle, hlt⟩ := mem_heightsFrom.mp hk
      exact mem_heights.mp (hall k hle hlt)
    obtain ⟨run, filed, hrun, hperm, hfold⟩ := sequenceHeights_eq queue
      (t := t.advanced g last t.messageByGenesis) ht.slots
      ((heightsFrom_sorted _ _).imp ne_of_lt) hmem
    refine ⟨run, filed, last, hlt.le, hrun, hperm, fun h => hnot (mem_heights.mpr h), ?_⟩
    simp only [Task.sequenceGenesis, ne_eq, hhead, not_true_eq_false, if_false, hlast]
    exact hfold
  · refine ⟨[], t.messageByGenesis, t.nextHeightToSequence g, le_refl _, ?_, .refl _, ?_, ?_⟩
    · rw [heightsFrom_self]
      rfl
    · rwa [← head_heights_iff ht]
    · simp only [Task.sequenceGenesis, ne_eq, hhead, not_false_eq_true, if_true]
      simp [Task.advanced]

private theorem Task.Filed.advanced (ht : t.Filed C) {run filed : List (Envelope J)} {last : ℤ}
    (hrun : run.map (Envelope.slot C) =
      (heightsFrom (t.nextHeightToSequence g) last).map (fun k => (g, k)))
    (hperm : (run ++ filed).Perm t.messageByGenesis) : (t.advanced g last filed).Filed C := by
  have hslots : ((run ++ filed).map (Envelope.slot C)).Nodup :=
    (hperm.map _).nodup_iff.mpr ht.slots
  rw [List.map_append] at hslots
  have hmem : ∀ e ∈ filed, e ∈ t.messageByGenesis :=
    fun e he => hperm.subset (List.mem_append_right _ he)
  constructor
  · exact (List.nodup_append.mp hslots).2.1
  · intro e he
    show Function.update t.nextHeightToSequence g last (e.getGenesisHash C) ≤ _
    by_cases hg : e.getGenesisHash C = g
    · rw [hg, Function.update_self]
      by_contra hlt
      have hle := ht.next_le e (hmem e he)
      rw [hg] at hle
      have hin : e.slot C ∈ run.map (Envelope.slot C) := by
        rw [hrun]
        apply List.mem_map.mpr
        exact ⟨e.header.height, mem_heightsFrom.mpr ⟨hle, not_le.mp hlt⟩, by rw [← hg]; rfl⟩
      exact (List.nodup_append.mp hslots).2.2 _ hin _ (List.mem_map_of_mem he) rfl
    · rw [Function.update_of_ne hg]
      exact ht.next_le e (hmem e he)
  · exact fun e he => ht.height_lt e (hmem e he)

/-- The task after each chain contributed a run, which ends where the next envelope is missing. -/
structure Task.Advances (C : Crypto J) (t t' : Task J) (genera : List CanonicalEnvelopeHash)
    (run : CanonicalEnvelopeHash → List (Envelope J)) : Prop where
  filed : t'.Filed C
  perm : (genera.flatMap run ++ t'.messageByGenesis).Perm t.messageByGenesis
  unprocessed : t'.allUnprocessedMessages = t.allUnprocessedMessages
  seq : t'.seq = t.seq
  slots : ∀ g ∈ genera, (run g).map (Envelope.slot C) =
    (heightsFrom (t.nextHeightToSequence g) (t'.nextHeightToSequence g)).map fun k => (g, k)
  next_le : ∀ g, t.nextHeightToSequence g ≤ t'.nextHeightToSequence g
  others : ∀ g, g ∉ genera → t'.nextHeightToSequence g = t.nextHeightToSequence g
  missing : ∀ g ∈ genera,
    (g, t'.nextHeightToSequence g) ∉ t.messageByGenesis.map (Envelope.slot C)

private theorem sequenceAll_eq (queue : List ToSequence) {genera : List CanonicalEnvelopeHash}
    (ht : t.Filed C)
    (hgenera : genera.Nodup) :
    ∃ t' run, t.Advances C t' genera run ∧
      genera.foldlM (Task.sequenceGenesis C) (t, queue) =
        .ok (t', queue ++ (genera.flatMap run).map (Envelope.scheduled C)) := by
  induction genera generalizing t queue with
  | nil =>
    refine ⟨t, fun _ => [],
      ⟨ht, .refl _, rfl, rfl, by simp, fun _ => le_refl _, fun _ _ => rfl, by simp⟩, ?_⟩
    simp
  | cons g genera ih =>
    obtain ⟨hg, hgenera⟩ := List.nodup_cons.mp hgenera
    obtain ⟨run, filed, last, hlast, hrun, hperm, hmissing, hstep⟩ :=
      sequenceGenesis_eq queue (g := g) ht
    obtain ⟨t', runs, hadv, hfold⟩ := ih (t := t.advanced g last filed)
      (queue ++ run.map (Envelope.scheduled C)) (ht.advanced hrun hperm) hgenera
    have hnext : t'.nextHeightToSequence g = last := by
      rw [hadv.others g hg]
      exact Function.update_self _ _ _
    have hother : ∀ g', g' ≠ g →
        (t.advanced g last filed).nextHeightToSequence g' = t.nextHeightToSequence g' :=
      fun g' hne => Function.update_of_ne hne _ _
    have hruns : (g :: genera).flatMap (Function.update runs g run) =
        run ++ genera.flatMap runs := by
      rw [List.flatMap_cons, Function.update_self]
      congr 1
      apply List.flatMap_congr
      intro g' hg'
      have hne : g' ≠ g := by
        intro heq
        exact hg (heq ▸ hg')
      exact Function.update_of_ne hne _ _
    refine ⟨t', Function.update runs g run, ?_, ?_⟩
    · constructor
      · exact hadv.filed
      · rw [hruns, List.append_assoc]
        exact (hadv.perm.append_left run).trans hperm
      · exact hadv.unprocessed
      · exact hadv.seq
      · intro g' hg'
        by_cases heq : g' = g
        · rw [heq, Function.update_self, hnext]
          exact hrun
        · have hmem := (List.mem_cons.mp hg').resolve_left heq
          rw [Function.update_of_ne heq, ← hother g' heq]
          exact hadv.slots g' hmem
      · intro g'
        by_cases heq : g' = g
        · rw [heq, hnext]
          exact hlast
        · rw [← hother g' heq]
          exact hadv.next_le g'
      · intro g' hg'
        rw [List.mem_cons, not_or] at hg'
        rw [hadv.others g' hg'.2, hother g' hg'.1]
      · intro g' hg'
        rcases List.mem_cons.mp hg' with rfl | hg'
        · rwa [hnext]
        · intro hin
          rw [← (hperm.map (Envelope.slot C)).mem_iff, List.map_append, List.mem_append, hrun] at hin
          apply hin.elim _ (hadv.missing g' hg')
          intro hin
          obtain ⟨k, _, heq⟩ := List.mem_map.mp hin
          exact hg ((Prod.mk.inj heq).1 ▸ hg')
    · rw [List.foldlM_cons, hstep, ok_bind, hfold, hruns]
      simp

/-- An entry with its height counted from the first one of its chain. -/
def ToSequence.ranked (first : CanonicalEnvelopeHash → ℤ) (s : ToSequence) : ToSequence :=
  { s with height := s.height - first s.genesis }

section

variable {first : CanonicalEnvelopeHash → ℤ} {run : CanonicalEnvelopeHash → List ToSequence}
  {genera : List CanonicalEnvelopeHash}

private theorem normalizeHeights_run {l rest : List ToSequence} (hl : ∀ s ∈ l, s.genesis = g) :
    normalizeHeights (first g) g (l ++ rest) =
      l.map (ToSequence.ranked first) ++ normalizeHeights (first g) g rest := by
  induction l with
  | nil => rfl
  | cons s l ih =>
    have hs := hl s List.mem_cons_self
    rw [List.cons_append, normalizeHeights, if_pos hs,
      ih fun s' hs' => hl s' (List.mem_cons_of_mem _ hs')]
    rw [List.map_cons, List.cons_append, ToSequence.ranked, hs]

private theorem normalizeHeights_others {m : ℤ} (hgenera : genera.Nodup) (hg : g ∉ genera)
    (hgenesis : ∀ g ∈ genera, ∀ s ∈ run g, s.genesis = g)
    (hfirst : ∀ g ∈ genera, ∀ s ∈ (run g).head?, s.height = first g) :
    normalizeHeights m g (genera.flatMap run) =
      (genera.flatMap run).map (ToSequence.ranked first) := by
  induction genera generalizing m g with
  | nil => rfl
  | cons g' genera ih =>
    obtain ⟨hg', hgenera⟩ := List.nodup_cons.mp hgenera
    rw [List.mem_cons, not_or] at hg
    have ih' {m : ℤ} {g : CanonicalEnvelopeHash} (hg : g ∉ genera) := ih (m := m) hgenera hg
      (fun g hg => hgenesis g (List.mem_cons_of_mem _ hg))
      (fun g hg => hfirst g (List.mem_cons_of_mem _ hg))
    have hrun := hgenesis g' List.mem_cons_self
    have hheight := hfirst g' List.mem_cons_self
    rw [List.flatMap_cons]
    cases hl : run g' with
    | nil => exact ih' hg.2
    | cons s l =>
      rw [hl] at hrun hheight
      have hs := hrun s List.mem_cons_self
      have hne : s.genesis ≠ g := fun heq => hg.1 (heq.symm.trans hs)
      rw [List.cons_append, normalizeHeights, if_neg hne, hs, hheight s rfl,
        normalizeHeights_run fun s' hs' => hrun s' (List.mem_cons_of_mem _ hs'), ih' hg',
        List.map_cons, List.map_append]
      rw [ToSequence.ranked, hs, hheight s rfl]

private theorem normalizeHeights_eq (hgenera : genera.Nodup)
    (hgenesis : ∀ g ∈ genera, ∀ s ∈ run g, s.genesis = g)
    (hfirst : ∀ g ∈ genera, ∀ s ∈ (run g).head?, s.height = first g) {s : ToSequence}
    (hhead : (genera.flatMap run).head? = some s) :
    normalizeHeights s.height s.genesis (genera.flatMap run) =
      (genera.flatMap run).map (ToSequence.ranked first) := by
  induction genera with
  | nil => cases hhead
  | cons g genera ih =>
    obtain ⟨hg, hgenera⟩ := List.nodup_cons.mp hgenera
    have hgenesis' := fun g hg => hgenesis g (List.mem_cons_of_mem _ hg)
    have hfirst' := fun g hg => hfirst g (List.mem_cons_of_mem _ hg)
    rw [List.flatMap_cons] at hhead ⊢
    cases hl : run g with
    | nil =>
      rw [hl] at hhead
      exact ih hgenera hgenesis' hfirst' hhead
    | cons s' l =>
      have hrun := hgenesis g List.mem_cons_self
      have hheight := hfirst g List.mem_cons_self
      rw [hl] at hhead hrun hheight
      obtain rfl := Option.some.inj hhead
      rw [hheight s' rfl, hrun s' List.mem_cons_self, normalizeHeights_run hrun,
        normalizeHeights_others hgenera hg hgenesis' hfirst', List.map_append]

end

/-- How many envelopes of its chain come before an envelope in its batch. -/
def Envelope.rank (first : CanonicalEnvelopeHash → ℤ) (C : Crypto J) (e : Envelope J) : ℤ :=
  e.header.height - first (e.getGenesisHash C)

instance : Std.Total fun a b : ToSequence => a.height ≤ b.height :=
  ⟨fun a b => le_total a.height b.height⟩

instance : IsTrans ToSequence fun a b => a.height ≤ b.height :=
  ⟨fun _ _ _ => le_trans⟩

private theorem Task.Advances.head_slot {genera : List CanonicalEnvelopeHash}
    {run : CanonicalEnvelopeHash → List (Envelope J)} (hadv : t.Advances C t' genera run)
    (hg : g ∈ genera) (he : e ∈ (run g).head?) :
    e.header.height = t.nextHeightToSequence g := by
  have hslots := congrArg List.head? (hadv.slots g hg)
  rw [List.head?_map, he, Option.map_some] at hslots
  cases hheights : heightsFrom (t.nextHeightToSequence g) (t'.nextHeightToSequence g) with
  | nil => simp [hheights] at hslots
  | cons k rest =>
    have hk : k = t.nextHeightToSequence g := by
      have hzero := congrArg List.head? hheights
      rw [heightsFrom, List.head?_map, List.head?_range] at hzero
      split_ifs at hzero
      · cases hzero
      · simpa using (Option.some.inj hzero).symm
    rw [hheights, List.map_cons, List.head?_cons, Option.some_inj] at hslots
    rw [← hk]
    exact (Prod.mk.inj hslots).2

private theorem Task.Advances.exists_batch {genera : List CanonicalEnvelopeHash}
    {run : CanonicalEnvelopeHash → List (Envelope J)} (hadv : t.Advances C t' genera run)
    (hgenera : genera.Nodup) {shuffle : List ToSequence → List ToSequence}
    (hshuffle : ∀ l, (shuffle l).Perm l) :
    ∃ batch : List (Envelope J), batch.Perm (genera.flatMap run) ∧
      (batch.Pairwise fun a b =>
        a.rank t.nextHeightToSequence C ≤ b.rank t.nextHeightToSequence C) ∧
      schedule shuffle ((genera.flatMap run).map (Envelope.scheduled C)) =
        batch.map C.canonicalizedHash := by
  have hqueue : (genera.flatMap run).map (Envelope.scheduled C) =
      genera.flatMap fun g => (run g).map (Envelope.scheduled C) := List.map_flatMap
  have hgenesis : ∀ g ∈ genera, ∀ s ∈ (run g).map (Envelope.scheduled C), s.genesis = g := by
    intro g hg s hs
    obtain ⟨e, he, rfl⟩ := List.mem_map.mp hs
    have hslot : e.slot C ∈ (run g).map (Envelope.slot C) := List.mem_map_of_mem he
    rw [hadv.slots g hg] at hslot
    obtain ⟨k, _, hk⟩ := List.mem_map.mp hslot
    exact (Prod.mk.inj hk).1.symm
  have hfirst : ∀ g ∈ genera, ∀ s ∈ ((run g).map (Envelope.scheduled C)).head?,
      s.height = t.nextHeightToSequence g := by
    intro g hg s hs
    rw [List.head?_map, Option.mem_def, Option.map_eq_some_iff] at hs
    obtain ⟨e, he, rfl⟩ := hs
    exact hadv.head_slot hg he
  cases hhead : ((genera.flatMap run).map (Envelope.scheduled C)).head? with
  | none =>
    rw [List.head?_eq_none_iff, List.map_eq_nil_iff] at hhead
    rw [hhead]
    exact ⟨[], .nil, .nil, rfl⟩
  | some s =>
    rw [hqueue] at hhead
    have hnorm := normalizeHeights_eq hgenera hgenesis hfirst hhead
    rw [← hqueue] at hnorm hhead
    have hschedule : schedule shuffle ((genera.flatMap run).map (Envelope.scheduled C)) =
        ((shuffle (normalizeHeights s.height s.genesis
          ((genera.flatMap run).map (Envelope.scheduled C)))).insertionSort
            fun a b => a.height ≤ b.height).map ToSequence.hash := by
      cases hl : (genera.flatMap run).map (Envelope.scheduled C) with
      | nil => simp [hl] at hhead
      | cons s' rest =>
        rw [hl] at hhead
        obtain rfl := Option.some.inj hhead
        rfl
    rw [hnorm, List.map_map] at hschedule
    have hperm := (List.perm_insertionSort (fun a b : ToSequence => a.height ≤ b.height) _).trans
      (hshuffle ((genera.flatMap run).map
        (ToSequence.ranked t.nextHeightToSequence ∘ Envelope.scheduled C)))
    obtain ⟨batch, hbatch, hsorted⟩ := Members.exists_map_of_perm hperm
    refine ⟨batch, hbatch, ?_, ?_⟩
    · have hpairwise := List.pairwise_insertionSort (fun a b : ToSequence => a.height ≤ b.height)
        (shuffle ((genera.flatMap run).map
          (ToSequence.ranked t.nextHeightToSequence ∘ Envelope.scheduled C)))
      rw [hsorted, List.pairwise_map] at hpairwise
      exact hpairwise
    · rw [hschedule, hsorted, List.map_map]
      rfl

private theorem Task.Advances.mem_slots {genera : List CanonicalEnvelopeHash}
    {run : CanonicalEnvelopeHash → List (Envelope J)} (hadv : t.Advances C t' genera run) {k : ℤ} :
    (g, k) ∈ (genera.flatMap run).map (Envelope.slot C) ↔
      k ∈ heightsFrom (t.nextHeightToSequence g) (t'.nextHeightToSequence g) := by
  rw [List.map_flatMap, List.mem_flatMap]
  constructor
  · intro h
    obtain ⟨g', hg', hk⟩ := h
    rw [hadv.slots g' hg'] at hk
    obtain ⟨k', hk', heq⟩ := List.mem_map.mp hk
    obtain ⟨rfl, rfl⟩ := Prod.mk.inj heq
    exact hk'
  · intro hk
    by_cases hg : g ∈ genera
    · refine ⟨g, hg, ?_⟩
      rw [hadv.slots g hg]
      exact List.mem_map_of_mem hk
    · rw [hadv.others g hg, heightsFrom_self] at hk
      cases hk

private theorem Task.Advances.batch_heights {genera : List CanonicalEnvelopeHash}
    {run : CanonicalEnvelopeHash → List (Envelope J)} (hadv : t.Advances C t' genera run)
    (hslots : (t.messageByGenesis.map (Envelope.slot C)).Nodup) {batch : List (Envelope J)}
    (hperm : batch.Perm (genera.flatMap run))
    (hsorted : batch.Pairwise fun a b =>
      a.rank t.nextHeightToSequence C ≤ b.rank t.nextHeightToSequence C) :
    (batch.filter fun e => e.getGenesisHash C = g).map (fun e => e.header.height) =
      heightsFrom (t.nextHeightToSequence g) (t'.nextHeightToSequence g) := by
  have hnodup : (batch.map (Envelope.slot C)).Nodup := by
    apply (hperm.map _).nodup_iff.mpr
    have hall := ((hadv.perm.map (Envelope.slot C)).nodup_iff.mpr hslots)
    rw [List.map_append] at hall
    exact (List.nodup_append.mp hall).1
  have hsame : ∀ e ∈ batch.filter (fun e => e.getGenesisHash C = g), e.getGenesisHash C = g := by
    intro e he
    simpa using (List.mem_filter.mp he).2
  have hle : ((batch.filter fun e => e.getGenesisHash C = g).map
      fun e => e.header.height).Pairwise (· ≤ ·) := by
    rw [List.pairwise_map]
    apply (hsorted.filter _).imp_of_mem
    intro a b ha hb h
    rw [Envelope.rank, Envelope.rank, hsame a ha, hsame b hb] at h
    omega
  have hdistinct : ((batch.filter fun e => e.getGenesisHash C = g).map
      fun e => e.header.height).Nodup := by
    apply List.Nodup.map_on _ (hnodup.of_map.filter _)
    intro a ha b hb heq
    apply List.inj_on_of_nodup_map hnodup (List.mem_filter.mp ha).1 (List.mem_filter.mp hb).1
    rw [Envelope.slot, Envelope.slot, hsame a ha, hsame b hb, heq]
  have hperm' : ((batch.filter fun e => e.getGenesisHash C = g).map
      fun e => e.header.height).Perm
        (heightsFrom (t.nextHeightToSequence g) (t'.nextHeightToSequence g)) := by
    apply (List.perm_ext_iff_of_nodup hdistinct ((heightsFrom_sorted _ _).imp ne_of_lt)).mpr
    intro k
    rw [← hadv.mem_slots, ← (hperm.map (Envelope.slot C)).mem_iff]
    simp [Envelope.slot, and_assoc]
  exact hperm'.eq_of_pairwise' hle ((heightsFrom_sorted _ _).imp le_of_lt)

variable {oracle : XOnlyPublicKey}

private theorem file_eq (hkey : e.header.key ≠ oracle)
    (hslot : e.slot C ∉ t.messageByGenesis.map (Envelope.slot C)) :
    Task.file C oracle t e = .ok (t.withFiled (t.messageByGenesis ++ [e])) := by
  have hnone : ¬(t.messageByGenesis.any fun m =>
      m.getGenesisHash C = e.getGenesisHash C && m.header.height = e.header.height) = true := by
    intro hany
    obtain ⟨m, hm, htest⟩ := List.any_eq_true.mp hany
    apply hslot
    refine List.mem_map.mpr ⟨m, hm, ?_⟩
    simpa [Envelope.slot] using htest
  rw [Task.file, if_neg hkey, if_neg hnone]
  rfl

private theorem file_foldlM {l : List (Envelope J)} (hkeys : ∀ e ∈ l, e.header.key ≠ oracle)
    (hslots : ((t.messageByGenesis ++ l).map (Envelope.slot C)).Nodup) :
    l.foldlM (Task.file C oracle) t = .ok (t.withFiled (t.messageByGenesis ++ l)) := by
  induction l generalizing t with
  | nil => simp [Task.withFiled]
  | cons e l ih =>
    have hassoc : t.messageByGenesis ++ e :: l = (t.messageByGenesis ++ [e]) ++ l := by simp
    have hslot : e.slot C ∉ t.messageByGenesis.map (Envelope.slot C) := by
      rw [List.map_append] at hslots
      intro hmem
      exact (List.nodup_append.mp hslots).2.2 _ hmem _ (List.mem_cons_self) rfl
    rw [hassoc] at hslots
    rw [List.foldlM_cons, file_eq (hkeys e List.mem_cons_self) hslot, ok_bind,
      ih (fun e he => hkeys e (List.mem_cons_of_mem _ he)) hslots, hassoc]
    rfl

/-- What a task holds, filed or not. -/
def Task.pending (t : Task J) : List (Envelope J) :=
  t.allUnprocessedMessages ++ t.messageByGenesis

private theorem fileAll_eq {order : List (Envelope J) → List (Envelope J)}
    (horder : ∀ l, (order l).Perm l)
    (hkeys : ∀ e ∈ t.allUnprocessedMessages, e.header.key ≠ oracle)
    (hslots : (t.pending.map (Envelope.slot C)).Nodup) :
    ∃ filed, filed.Perm t.pending ∧ t.fileAll C oracle order =
      .ok { t with allUnprocessedMessages := [], messageByGenesis := filed } := by
  have hperm : (t.messageByGenesis ++ order t.allUnprocessedMessages).Perm t.pending :=
    ((horder _).append_left _).trans List.perm_append_comm
  refine ⟨_, hperm, ?_⟩
  apply file_foldlM (t := { t with allUnprocessedMessages := [] })
  · exact fun e he => hkeys e ((horder _).subset he)
  · exact (hperm.map _).nodup_iff.mpr hslots

/-- A task emits a batch of what it holds: every chain contributes its heights from the next one up
to the first that is missing, and the ranks do not decrease. -/
structure Task.Emits (C : Crypto J) (t t' : Task J) (batch : List (Envelope J)) : Prop where
  unprocessed : t'.allUnprocessedMessages = []
  seq : t'.seq = t.seq
  perm : (batch ++ t'.pending).Perm t.pending
  sorted : batch.Pairwise fun a b =>
    a.rank t.nextHeightToSequence C ≤ b.rank t.nextHeightToSequence C
  heights : ∀ g, (batch.filter fun e => e.getGenesisHash C = g).map (fun e => e.header.height) =
    heightsFrom (t.nextHeightToSequence g) (t'.nextHeightToSequence g)
  next_le : ∀ g, t.nextHeightToSequence g ≤ t'.nextHeightToSequence g
  missing : ∀ g, (g, t'.nextHeightToSequence g) ∉ t.pending.map (Envelope.slot C)

/-- What a task may hold: envelopes of others at different places, none before the next height of
its chain. -/
structure Task.Orderly (C : Crypto J) (oracle : XOnlyPublicKey) (t : Task J) : Prop where
  keys : ∀ e ∈ t.pending, e.header.key ≠ oracle
  slots : (t.pending.map (Envelope.slot C)).Nodup
  next_le : ∀ e ∈ t.pending, t.nextHeightToSequence (e.getGenesisHash C) ≤ e.header.height
  height_lt : ∀ e ∈ t.pending, e.header.height < i64Max - 1

theorem iterate_eq {s : Store J} (ch : Choices C)
    (horderly : (t.fetch C oracle s).Orderly C oracle) :
    ∃ t' batch, (t.fetch C oracle s).Emits C t' batch ∧
      t.iterate C oracle ch s = .ok (t', batch.map C.canonicalizedHash) := by
  generalize hf : t.fetch C oracle s = f at horderly
  obtain ⟨filed, hfiled, hfile⟩ := fileAll_eq ch.order_perm
    (fun e he => horderly.keys e (List.mem_append_left _ he)) horderly.slots
  generalize hf₁ : ({ f with allUnprocessedMessages := [], messageByGenesis := filed } : Task J) = f₁
    at hfile
  have hnext : f₁.nextHeightToSequence = f.nextHeightToSequence := by rw [← hf₁]
  have hperm₁ : f₁.messageByGenesis.Perm f.pending := by rw [← hf₁]; exact hfiled
  have hready : f₁.Filed C := by
    constructor
    · exact (hperm₁.map _).nodup_iff.mpr horderly.slots
    · intro e he
      rw [hnext]
      exact horderly.next_le e (hperm₁.subset he)
    · exact fun e he => horderly.height_lt e (hperm₁.subset he)
  obtain ⟨t', run, hadv, hfold⟩ := sequenceAll_eq [] hready
    (ch.genera_nodup f₁.messageByGenesis)
  obtain ⟨batch, hbatch, hsorted, hschedule⟩ :=
    hadv.exists_batch (ch.genera_nodup _) ch.shuffle_perm
  rw [hnext] at hsorted
  refine ⟨t', batch, ?_, ?_⟩
  · have hempty : t'.allUnprocessedMessages = [] := by
      rw [hadv.unprocessed, ← hf₁]
    constructor
    · exact hempty
    · rw [hadv.seq, ← hf₁]
    · rw [Task.pending, hempty, List.nil_append]
      exact (hbatch.append_right _).trans (hadv.perm.trans hperm₁)
    · exact hsorted
    · intro g
      have hheights := hadv.batch_heights (g := g) hready.slots hbatch (by rw [hnext]; exact hsorted)
      rwa [hnext] at hheights
    · intro g
      rw [← hnext]
      exact hadv.next_le g
    · intro g hmem
      rw [← (hperm₁.map (Envelope.slot C)).mem_iff] at hmem
      obtain ⟨e, he, hslot⟩ := List.mem_map.mp hmem
      have hg := ch.mem_genera _ e he
      rw [(Prod.mk.inj hslot).1] at hg
      exact hadv.missing g hg hmem
  · rw [Task.iterate, hf, hfile, ok_bind, hfold, ok_bind]
    simp only [List.nil_append, hschedule, pure_eq_ok]

theorem Task.Emits.mem_iff {batch : List (Envelope J)} (h : t.Emits C t' batch)
    (horderly : t.Orderly C oracle) :
    e ∈ batch ↔ e ∈ t.pending ∧ ∀ k, t.nextHeightToSequence (e.getGenesisHash C) ≤ k →
      k ≤ e.header.height → (e.getGenesisHash C, k) ∈ t.pending.map (Envelope.slot C) := by
  have hslot (g : CanonicalEnvelopeHash) (k : ℤ) : (g, k) ∈ batch.map (Envelope.slot C) ↔
      k ∈ heightsFrom (t.nextHeightToSequence g) (t'.nextHeightToSequence g) := by
    rw [← h.heights]
    simp [Envelope.slot, and_assoc]
  have hsub : ∀ e ∈ batch, e ∈ t.pending :=
    fun e he => h.perm.subset (List.mem_append_left _ he)
  constructor
  · intro he
    refine ⟨hsub e he, ?_⟩
    intro k hk hk'
    have hheight := mem_heightsFrom.mp ((hslot _ _).mp (List.mem_map_of_mem he))
    have hmem := (hslot (e.getGenesisHash C) k).mpr (mem_heightsFrom.mpr ⟨hk, by omega⟩)
    obtain ⟨e', he', heq⟩ := List.mem_map.mp hmem
    exact List.mem_map.mpr ⟨e', hsub e' he', heq⟩
  · intro hrun
    obtain ⟨he, hrun⟩ := hrun
    have hle := horderly.next_le e he
    have hlt : e.header.height < t'.nextHeightToSequence (e.getGenesisHash C) := by
      by_contra hge
      exact h.missing _ (hrun _ (h.next_le _) (not_lt.mp hge))
    have hmem := (hslot _ _).mpr (mem_heightsFrom.mpr ⟨hle, hlt⟩)
    obtain ⟨e', he', heq⟩ := List.mem_map.mp hmem
    rwa [← List.inj_on_of_nodup_map horderly.slots (hsub e' he') he heq]

end

end JudicaVM
