import JudicaVM.Board.Supply
import Mathlib.Algebra.Order.BigOperators.Group.Multiset

/-!
# The size of reserves

Only the markets of bitcoin against a material are ever funded, and both supplies are bounded. The
bounds hold along every run because what the pending callbacks may still issue is counted in.
-/

namespace JudicaVM

open Checked Std OrderedMap Transition GameBoard

variable {setup : GameSetup} {g g' : GameBoard} {e : Event} {q : TokenPointer} {cb cb' : Callback}
  {pending rest : Multiset Callback} {n : ℕ}

private theorem TradingPairID.normalize_direction (p : TradingPairID) :
    p.normalize.Direction p.assetA p.assetB := by
  unfold normalize
  split
  · exact .inl ⟨rfl, rfl⟩
  · exact .inr ⟨rfl, rfl⟩

namespace GameBoard

/-- The supply of a board on which `pending` is still to run, after so many mining payouts. -/
structure Supplied (g : GameBoard) (pending : Multiset Callback) (rounds : ℕ) : Prop where
  producers : ∀ cb ∈ pending, ∀ p, cb.producer? = some p →
    p.hashAsset ∈ g.materials ∧ p.priceAsset = g.bitcoinTokenId
  payouts : ∀ cb ∈ pending, ∀ e, cb.payout? = some e → e.period = 11_003 ∧ 11_003 * rounds ≤ e.time
  once : (pending.map (·.rounds)).sum ≤ 1
  rounds_le : 11_003 * rounds ≤ 2 ^ 64 + 11_003
  material_le : ∀ q ∈ g.materials, g.total q + (pending.map (·.issue q)).sum ≤ 100_010
  bitcoin_le : g.total g.bitcoinTokenId + (pending.map (·.issue g.bitcoinTokenId)).sum ≤
    2 ^ 68 + 5_000_000_000 * rounds
  funded : ∀ (pair : TradingPairID) m, g.markets[pair]? = some m → 0 < m.reserveA →
    ∃ q ∈ g.materials, pair.Direction q g.bitcoinTokenId

private theorem materials_eq (h : g'.constants = g.constants) : g'.materials = g.materials := by
  simp only [constants, Constants.mk.injEq] at h
  simp only [materials, h]

theorem bitcoin_eq (h : g'.constants = g.constants) : g'.bitcoinTokenId = g.bitcoinTokenId :=
  congrArg Constants.bitcoinTokenId h

/-- The supply as it is on another board with the same tokens, totals and funded markets. -/
theorem Supplied.of_le (h : g.Supplied pending n) (hconst : g'.constants = g.constants)
    (htotal : ∀ q, q ∈ g.materials ∨ q = g.bitcoinTokenId → g'.total q ≤ g.total q)
    (hfunded : ∀ pair, ¬ g.NewlyFunded g' pair) : g'.Supplied pending n where
  producers := by
    rw [materials_eq hconst, bitcoin_eq hconst]
    exact h.producers
  payouts := h.payouts
  once := h.once
  rounds_le := h.rounds_le
  material_le := by
    rw [materials_eq hconst]
    exact fun q hq => (Nat.add_le_add_right (htotal q (.inl hq)) _).trans (h.material_le q hq)
  bitcoin_le := by
    rw [bitcoin_eq hconst]
    exact (Nat.add_le_add_right (htotal _ (.inr rfl)) _).trans h.bitcoin_le
  funded := by
    rw [materials_eq hconst, bitcoin_eq hconst]
    intro pair m' hm' hpos
    by_cases hold : ∃ m, g.markets[pair]? = some m ∧ m.reserveA ≠ 0
    · obtain ⟨m, hm, hne⟩ := hold
      exact h.funded pair m hm (Nat.pos_of_ne_zero hne)
    · exact absurd ⟨m', hm', hpos, fun m hm => by_contra fun hne => hold ⟨m, hm, hne⟩⟩
        (hfunded pair)

theorem not_newlyFunded_of_eq (h : g'.markets = g.markets) (pair : TradingPairID) :
    ¬ g.NewlyFunded g' pair :=
  fun ⟨m, hm, hpos, hold⟩ => hpos.ne' (hold m (h ▸ hm))

theorem Supplied.withNotes (h : g.Supplied pending n) (notes : GameBoard) :
    (g.withNotes notes).Supplied pending n :=
  h.of_le rfl (fun _ _ => le_rfl) (not_newlyFunded_of_eq rfl)

theorem Supplied.dequeued (h : g.Supplied g.queue n) :
    g.dequeued.Supplied (g.dequeued.queue + (g.due : Multiset Callback)) n := by
  rw [queue_dequeued]
  exact h.of_le rfl (fun _ _ => le_rfl) (not_newlyFunded_of_eq rfl)

private theorem Supplied.effect (h : g.Supplied (cb ::ₘ rest) n) (hi : g.Inv) (hb : g.Base)
    (hconst : g'.constants = g.constants) (heffect : g.Effect (cb.allowance g) cb.Funds g')
    (htime : cb.time ≤ g.elapsedTime) (hclock : g.elapsedTime < 2 ^ 64) :
    g'.Supplied rest (n + cb.rounds) ∧ cb.rounds + (rest.map (·.rounds)).sum ≤ 1 := by
  have honce : cb.rounds + (rest.map (·.rounds)).sum ≤ 1 := by simpa using h.once
  refine ⟨⟨?_, ?_, by omega, ?_, ?_, ?_, ?_⟩, honce⟩
  · rw [materials_eq hconst, bitcoin_eq hconst]
    exact fun c hc => h.producers c (Multiset.mem_cons_of_mem hc)
  · intro c hc ev hev
    have hle := Multiset.le_sum_of_mem (Multiset.mem_map_of_mem (·.rounds) hc)
    rw [Callback.rounds_of_payout hev] at hle
    have hzero : cb.rounds = 0 := by omega
    rw [hzero]
    exact h.payouts c (Multiset.mem_cons_of_mem hc) ev hev
  · cases hev : cb.payout? with
    | none =>
      rw [Callback.rounds_of_none hev]
      exact h.rounds_le
    | some ev =>
      have hround := (h.payouts cb (Multiset.mem_cons_self _ _) ev hev).2
      have hevtime : ev.time = cb.time := by
        cases cb <;> cases hev
        rfl
      rw [Callback.rounds_of_payout hev]
      omega
  · rw [materials_eq hconst]
    intro q hq
    obtain ⟨hhas, hroot, hne⟩ := hb.materials q hq
    have htotal := heffect.total_le q hhas hroot
    have hold := h.material_le q hq
    simp only [Callback.allowance, if_neg hne, Multiset.map_cons, Multiset.sum_cons] at htotal hold
    omega
  · rw [bitcoin_eq hconst]
    have htotal := heffect.total_le _ hi.bitcoin hb.bitcoin_le
    have hold := h.bitcoin_le
    simp only [Callback.allowance, if_true, hb.subsidy, Multiset.map_cons, Multiset.sum_cons]
      at htotal hold
    omega
  · rw [materials_eq hconst, bitcoin_eq hconst]
    intro pair m' hm' hpos
    by_cases hold : ∃ m, g.markets[pair]? = some m ∧ m.reserveA ≠ 0
    · obtain ⟨m, hm, hne⟩ := hold
      exact h.funded pair m hm (Nat.pos_of_ne_zero hne)
    · obtain ⟨p, hp, rfl⟩ := heffect.funded pair
        ⟨m', hm', hpos, fun m hm => by_contra fun hne => hold ⟨m, hm, hne⟩⟩
      obtain ⟨hhash, hprice⟩ := h.producers cb (Multiset.mem_cons_self _ _) p hp
      exact ⟨p.hashAsset, hhash, hprice ▸ p.pair.normalize_direction⟩

theorem Supplied.cons (h : g.Supplied pending n) (hissue : ∀ q, cb.issue q = 0)
    (hproducer : ∀ p, cb.producer? = some p →
      p.hashAsset ∈ g.materials ∧ p.priceAsset = g.bitcoinTokenId)
    (hpayout : ∀ e, cb.payout? = some e → e.period = 11_003 ∧ 11_003 * n ≤ e.time)
    (honce : cb.rounds + (pending.map (·.rounds)).sum ≤ 1) :
    g.Supplied (cb ::ₘ pending) n where
  producers := by
    intro c hc
    rcases Multiset.mem_cons.mp hc with rfl | hc
    · exact hproducer
    · exact h.producers c hc
  payouts := by
    intro c hc
    rcases Multiset.mem_cons.mp hc with rfl | hc
    · exact hpayout
    · exact h.payouts c hc
  once := by simpa using honce
  rounds_le := h.rounds_le
  material_le q hq := by simpa [hissue] using h.material_le q hq
  bitcoin_le := by simpa [hissue] using h.bitcoin_le
  funded := h.funded

theorem Framed.supplied (hi : g.Inv) (hb : g.Base) (hext : g.Extends g') (h : g.Framed g')
    (hs : g.Supplied g.queue n) : g'.Supplied g'.queue n := by
  have hqueue : g'.queue = g.queue := congrArg bag h.callbacks
  rw [hqueue]
  refine hs.of_le hext.constants_eq (fun q hq => (h.supply q ?_).2.le) h.funded
  rcases hq with hq | rfl
  · exact (hb.materials q hq).1
  · exact hi.bitcoin

private theorem Supplied.ran (h : g.Supplied (g.queue + (cb ::ₘ rest)) n) (hi : g.Inv) (hb : g.Base)
    (hext : g.Extends g') (hran : cb.Ran g g') (htime : cb.time ≤ g.elapsedTime)
    (hclock : g.elapsedTime < 2 ^ 64) :
    g'.elapsedTime = g.elapsedTime ∧ ∃ n', g'.Supplied (g'.queue + rest) n' := by
  obtain ⟨g1, heffect, hcase⟩ := hran
  have hqueue : g1.queue = g.queue := congrArg bag heffect.callbacks
  have hconst : g1.constants = g.constants := by
    rcases hcase with rfl | ⟨cb', _, rfl⟩
    · exact hext.constants_eq
    · exact hext.constants_eq
  rw [Multiset.add_cons] at h
  obtain ⟨hmid, honce⟩ := h.effect hi hb hconst heffect htime hclock
  rcases hcase with rfl | ⟨cb', hfollows, rfl⟩
  · exact ⟨heffect.clock, _, hqueue ▸ hmid⟩
  · refine ⟨heffect.clock, n + cb.rounds, ?_⟩
    rw [queue_schedule, hqueue, Multiset.cons_add]
    refine Supplied.cons (g := g1.schedule cb')
      (hmid.of_le rfl (fun _ _ => le_rfl) (not_newlyFunded_of_eq rfl)) hfollows.issue ?_ ?_ ?_
    · intro p' hp'
      obtain ⟨p, hp, hhash, hprice⟩ := hfollows.producer p' hp'
      have hold := h.producers cb (Multiset.mem_cons_self _ _) p hp
      have hmaterials : (g1.schedule cb').materials = g.materials := materials_eq hconst
      have hbitcoin : (g1.schedule cb').bitcoinTokenId = g.bitcoinTokenId := bitcoin_eq hconst
      rw [hmaterials, hbitcoin, hhash, hprice]
      exact hold
    · intro ev' hev'
      obtain ⟨ev, hev, hperiod, hnext⟩ := hfollows.payout ev' hev'
      obtain ⟨hold, hround⟩ := h.payouts cb (Multiset.mem_cons_self _ _) ev hev
      have hevtime : ev.time = cb.time := by
        cases cb <;> cases hev
        rfl
      rw [Callback.rounds_of_payout hev, hperiod, hnext, hold]
      omega
    · cases hev' : cb'.payout? with
      | none =>
        rw [Callback.rounds_of_none hev']
        omega
      | some ev' =>
        obtain ⟨ev, hev, _⟩ := hfollows.payout ev' hev'
        rw [Callback.rounds_of_payout hev'] 
        rw [Callback.rounds_of_payout hev] at honce
        exact honce

end GameBoard

theorem CallbackRegistry.runAll_supplied {cbs : List Callback} {rest : Multiset Callback}
    (hi : g.Inv) (hb : g.Base) (hcbs : ∀ cb ∈ cbs, g.CallbackSound cb ∧ cb.time ≤ g.elapsedTime)
    (hclock : g.elapsedTime < 2 ^ 64)
    (hs : g.Supplied (g.queue + ((cbs : Multiset Callback) + rest)) n)
    (h : runAll cbs g = .ok g') : ∃ n', g'.Supplied (g'.queue + rest) n' := by
  induction cbs generalizing g n with
  | nil =>
    cases h
    exact ⟨n, by simpa using hs⟩
  | cons cb cbs ih =>
    simp only [runAll, bind_eq_ok_iff] at h
    obtain ⟨g1, haction, h⟩ := h
    obtain ⟨hsound, htime⟩ := hcbs cb List.mem_cons_self
    have htrace := Callback.action_trace (U := fun _ => False) hi hsound (fun _ => False.elim)
      haction
    have hext := htrace.extends hi
    rw [← Multiset.cons_coe, Multiset.cons_add] at hs
    obtain ⟨hsame, n', hs'⟩ := hs.ran hi hb hext (Callback.action_ran hi hb hsound haction) htime
      hclock
    refine ih (htrace.inv hi) (Trace.base hi hb htrace) (fun c hc => ?_) (hsame ▸ hclock) hs' h
    rw [hsame]
    exact (hcbs c (List.mem_cons_of_mem _ hc)).imp_left hext.callbackSound

end JudicaVM
