import JudicaVM.Board.Payout

/-!
# Mining payouts

Every payout mints to each owner of plants a share of the subsidy in proportion to hashrate, rounded
down. It does so on all boards of a game, also between the callbacks of a call.
-/

namespace JudicaVM

open Checked Std OrderedMap Transition GameBoard PowerPlantEvent

variable {setup : GameSetup} {g g' : GameBoard} {i : EntityID}

/-- The boards inside a call of `play` while the callbacks that are due run. -/
inductive Ticking (setup : GameSetup) : GameBoard → Prop
  | call {g clocked g' : GameBoard} {mv : MoveEnvelope} {sender : EntityID}
      {done rest : List Callback} (h : Reachable setup g) (hclock : g.clockSet sender mv = .ok clocked)
      (hbound : clocked.elapsedTime + 1 < 2 ^ 64) (hdue : clocked.due = done ++ rest)
      (hrun : CallbackRegistry.runAll done clocked.dequeued = .ok g') : Ticking setup g'

namespace GameBoard

/-- The owners of plants, each once. -/
def plantOwners (g : GameBoard) : List EntityID :=
  (g.nfts.powerPlants.toList.filterMap fun x => g.ownerOf x.1).dedup

/-- The share of an owner of plants in the subsidy. -/
def mined (g : GameBoard) (i : EntityID) : ℕ :=
  if g.totalHashrate = 0 then 0 else g.ownerHashrate i * g.miningSubsidy / g.totalHashrate

/-- Every owner of plants has received the share, and nobody anything else. -/
structure PaysMiners (g : GameBoard) (tokens : TokenRegistry) : Prop where
  rates : ∀ x ∈ g.nfts.powerPlants.toList, x.2.computeHashrate g = .ok (g.hashrate x.2)
  balances : ∀ q i, tokens.balance q i = g.balance q i +
    if g.bitcoinTokenId = q ∧ i ∈ g.plantOwners then g.mined i else 0
  totals : ∀ q, tokens.total q = g.total q +
    if g.bitcoinTokenId = q then (g.plantOwners.map g.mined).sum else 0
  at_most : (g.plantOwners.map g.mined).sum ≤ g.miningSubsidy
  short : 0 < g.totalHashrate →
    g.miningSubsidy < (g.plantOwners.map g.mined).sum + g.plantOwners.length

/-- A board that can pay out: the machines are few, and so is the bitcoin. -/
structure Mines (g : GameBoard) : Prop extends g.Powered where
  subsidy : g.miningSubsidy = 5_000_000_000
  bitcoin : g.total g.bitcoinTokenId + g.miningSubsidy < 2 ^ 128

end GameBoard

private theorem mines_of_supplied {pending : Multiset Callback} {n : ℕ} (hi : g.Inv) (hb : g.Base)
    (hs : g.Supplied pending n)
    (hboards : ∃ board, g.tokens.hashboards.toList = [(g.asicTokenId, board)] ∧
      board.hashPerWatt = hashPerWatt) : g.Mines where
  inv := hi
  boards := hboards
  machines := by
    have hle := hs.material_le g.asicTokenId (by simp [materials])
    omega
  subsidy := hb.subsidy
  bitcoin := by
    have hle := hs.bitcoin_le
    have hrounds := hs.rounds_le
    rw [hb.subsidy]
    omega

private theorem Reachable.mines (h : Reachable setup g) : g.Mines := by
  obtain ⟨hb, n, hs⟩ := h.supplied
  exact mines_of_supplied h.inv hb hs h.hashboards

private theorem Ticking.mines (h : Ticking setup g) : g.Mines := by
  obtain @⟨origin, clocked, _, mv, sender, done, rest, hreach, hclock, hbound, hdue, hrun⟩ := h
  obtain ⟨hb, n, hs⟩ := hreach.supplied
  have hi := hreach.inv
  have hnotes : Trace (fun _ => True) origin clocked := notes_trace trivial (clockSet_eq hclock)
  have hi1 := hnotes.inv hi
  have hb1 := Trace.base hi hb hnotes
  have hs1 : clocked.Supplied clocked.queue n := by
    rw [clockSet_eq hclock]
    exact hs.withNotes clocked
  obtain ⟨n', hs'⟩ := supplied_of_due hi1 hb1 hs1 hbound hdue hrun
  have hdequeue : Trace (fun _ => True) clocked clocked.dequeued := dequeued_trace fun _ => trivial
  have hcalls := CallbackRegistry.runAll_trace (U := fun _ => False) (hdequeue.inv hi1)
    (fun cb hcb => hi1.due_sound (hdue ▸ List.mem_append_left rest hcb)) (fun _ => False.elim) hrun
  have htrace : Trace (fun _ => True) origin g :=
    hnotes.trans (hdequeue.trans (hcalls.mono fun _ _ => trivial))
  refine mines_of_supplied (htrace.inv hi) (Trace.base hi hb htrace) hs' ?_
  have hconst := (htrace.extends hi).constants_eq
  simp only [constants, Constants.mk.injEq] at hconst
  obtain ⟨-, -, -, -, -, hasic, -, -, -, -, hboards⟩ := hconst
  rw [hasic, hboards]
  exact hreach.hashboards

section

variable {plants : List (NftPtr × PowerPlant)} {x : NftPtr × PowerPlant}

/-- What the loop over the plants holds after the plants of a list. -/
structure Collected (g : GameBoard) (plants : List (NftPtr × PowerPlant))
    (acc : ℕ × ExtTreeMap EntityID ℕ) : Prop where
  total : acc.1 = g.rateSum plants
  shares : ∀ i : EntityID, acc.2[i]? =
    if g.owned plants i = [] then none else some (g.rateSum (g.owned plants i))

private theorem Collected.step {rest : List (NftPtr × PowerPlant)} {acc : ℕ × ExtTreeMap EntityID ℕ}
    (h : Collected g plants acc) (hruns : g.Runs x) (hfits : g.rateSum (plants ++ [x]) < 2 ^ 128) :
    ∃ acc', collectShares g (x :: rest) acc = collectShares g rest acc' ∧
      Collected g (plants ++ [x]) acc' := by
  obtain ⟨total, shares⟩ := acc
  obtain ⟨ptr, plant⟩ := x
  obtain ⟨hrate, nft, hnft⟩ := hruns
  have htotal : total = g.rateSum plants := h.total
  have hone : g.rateSum [(ptr, plant)] = g.hashrate plant := by simp [rateSum]
  have howner : g.ownerOf ptr = some nft.owner := by simp [ownerOf, hnft]
  have hindex : g.nfts.index ptr = .ok nft := by simp [NFTRegistry.index, hnft]
  have hsum := rateSum_append (g := g) plants [(ptr, plant)]
  rw [hone] at hsum
  have hself : g.owned (plants ++ [(ptr, plant)]) nft.owner =
      g.owned plants nft.owner ++ [(ptr, plant)] := by
    simp [owned, howner]
  have hshare : shares.getD nft.owner 0 = g.rateSum (g.owned plants nft.owner) := by
    rw [ExtTreeMap.getD_eq_getD_getElem?, show shares[nft.owner]? = _ from h.shares nft.owner]
    split
    · rename_i hnil
      simp [hnil, rateSum]
    · rfl
  have hle : g.rateSum (g.owned plants nft.owner) ≤ g.rateSum plants := rateSum_owned_le
  refine ⟨(total + g.hashrate plant, shares.insert nft.owner
    (g.rateSum (g.owned (plants ++ [(ptr, plant)]) nft.owner))), ?_, ?_, ?_⟩
  · have hadd : add 128 total (g.hashrate plant) = .ok (total + g.hashrate plant) :=
      add_of_lt (by omega)
    have hadd' : add 128 (g.rateSum (g.owned plants nft.owner)) (g.hashrate plant) =
        .ok (g.rateSum (g.owned plants nft.owner) + g.hashrate plant) :=
      add_of_lt (by omega)
    rw [hself, rateSum_append, hone]
    simp only [collectShares, hrate, hadd, hindex, hshare, hadd', ok_bind]
  · rw [hsum, htotal]
  · intro i
    rw [getElem?_insert]
    split
    · rename_i heq
      rw [← heq, if_neg (by rw [hself]; simp)]
    · rename_i hne
      have hother : g.owned (plants ++ [(ptr, plant)]) i = g.owned plants i := by
        simp [owned, howner, hne]
      rw [hother]
      exact h.shares i

private theorem Collected.run {rest : List (NftPtr × PowerPlant)} {acc : ℕ × ExtTreeMap EntityID ℕ}
    (h : Collected g plants acc) (hruns : ∀ x ∈ rest, g.Runs x)
    (hfits : g.rateSum (plants ++ rest) < 2 ^ 128) :
    ∃ acc', collectShares g rest acc = .ok acc' ∧ Collected g (plants ++ rest) acc' := by
  induction rest generalizing plants acc with
  | nil => exact ⟨acc, rfl, by rwa [List.append_nil]⟩
  | cons x rest ih =>
    have hsplit : plants ++ x :: rest = (plants ++ [x]) ++ rest := by simp
    rw [hsplit] at hfits ⊢
    have hpre : g.rateSum (plants ++ [x]) < 2 ^ 128 := by
      rw [rateSum_append (plants ++ [x])] at hfits
      omega
    obtain ⟨acc1, hstep, hacc⟩ := h.step (hruns x List.mem_cons_self) hpre
    rw [hstep]
    exact ih hacc (fun y hy => hruns y (List.mem_cons_of_mem _ hy)) hfits

end

private theorem GameBoard.Mines.collects (h : g.Mines) :
    ∃ shares, collectShares g g.nfts.powerPlants.toList (0, ∅) = .ok (g.totalHashrate, shares) ∧
      Collected g g.nfts.powerPlants.toList (g.totalHashrate, shares) := by
  have hfits : g.rateSum ([] ++ g.nfts.powerPlants.toList) < 2 ^ 128 := by
    have hle : g.rateSum ([] ++ g.nfts.powerPlants.toList) ≤ 100_010 * hashPerWatt :=
      h.totalHashrate_le
    have hlt : 100_010 * hashPerWatt < 2 ^ 128 := by norm_num [hashPerWatt]
    exact hle.trans_lt hlt
  have hstart : Collected g [] (0, ∅) := ⟨rfl, fun i => by simp [owned]⟩
  obtain ⟨⟨total, shares⟩, hok, hcollected⟩ := hstart.run (fun x hx => h.runs hx) hfits
  rw [List.nil_append] at hcollected
  have htotal : total = g.totalHashrate := hcollected.total
  subst htotal
  exact ⟨shares, hok, hcollected⟩

section

variable {l : List (EntityID × ℕ)} {p q : TokenPointer} {tokens : TokenRegistry}

/-- What a list of payments has for one receiver. -/
def credit (l : List (EntityID × ℕ)) (i : EntityID) : ℕ := ((l.filter (·.1 = i)).map (·.2)).sum

private theorem credit_cons {x : EntityID × ℕ} :
    credit (x :: l) i = (if x.1 = i then x.2 else 0) + credit l i := by
  unfold credit
  by_cases hx : x.1 = i <;> simp [hx]

private theorem credit_of_not_mem (h : i ∉ l.map (·.1)) : credit l i = 0 := by
  induction l with
  | nil => rfl
  | cons x l ih =>
    rw [List.map_cons, List.mem_cons, not_or] at h
    rw [credit_cons, if_neg (Ne.symm h.1), Nat.zero_add]
    exact ih h.2

private theorem credit_of_mem {v : ℕ} (hnodup : (l.map (·.1)).Nodup) (h : (i, v) ∈ l) :
    credit l i = v := by
  induction l with
  | nil => cases h
  | cons x l ih =>
    rw [List.map_cons, List.nodup_cons] at hnodup
    rw [credit_cons]
    rcases List.mem_cons.mp h with rfl | h
    · rw [if_pos rfl, credit_of_not_mem hnodup.1, Nat.add_zero]
    · have hne : x.1 ≠ i := fun heq => hnodup.1 (heq ▸ List.mem_map.mpr ⟨(i, v), h, rfl⟩)
      rw [if_neg hne, Nat.zero_add]
      exact ih hnodup.2 h

private theorem payAll_eq (hs : tokens.Sound) (hp : tokens.Has p)
    (hfits : tokens.total p + (l.map (·.2)).sum < 2 ^ 128) :
    ∃ tokens', payAll p l tokens = .ok tokens' ∧
      (∀ q i, tokens'.balance q i = tokens.balance q i + if p = q then credit l i else 0) ∧
      ∀ q, tokens'.total q = tokens.total q + if p = q then (l.map (·.2)).sum else 0 := by
  induction l generalizing tokens with
  | nil => exact ⟨tokens, rfl, fun q i => by simp [credit], fun q => by simp⟩
  | cons x l ih =>
    obtain ⟨dest, amount⟩ := x
    rw [List.map_cons, List.sum_cons] at hfits
    have hmint : tokens.mint p dest amount = .ok (tokens.minted p dest amount) :=
      (TokenRegistry.mint_eq_ok_iff hs).mpr ⟨hp, by omega, rfl⟩
    have hsound : (tokens.minted p dest amount).Sound :=
      TokenRegistry.minted_sound hs (show tokens.total p + amount < 2 ^ 128 by omega)
    have htotal : (tokens.minted p dest amount).total p = tokens.total p + amount := by
      rw [TokenRegistry.minted_total hp, if_pos rfl]
    obtain ⟨tokens', hok, hbalances, htotals⟩ := ih hsound (TokenRegistry.minted_has.mpr hp)
      (by rw [htotal]; omega)
    refine ⟨tokens', ?_, fun q i => ?_, fun q => ?_⟩
    · rw [payAll, hmint, ok_bind]
      exact hok
    · rw [hbalances, TokenRegistry.minted_balance hp, credit_cons]
      by_cases hq : p = q
      · by_cases hdest : dest = i
        · simp only [hq, hdest, and_self, if_true]
          omega
        · simp [hq, hdest]
      · simp [hq]
    · rw [htotals, TokenRegistry.minted_total hp, List.map_cons, List.sum_cons]
      by_cases hq : p = q
      · simp only [hq, if_true]
        omega
      · simp [hq]

end

private theorem payout_eq {subsidy total share : ℕ} (htotal : 0 < total)
    (hfits : share * 1024 * subsidy < 2 ^ 128) (hsubsidy : 0 < subsidy) :
    payout subsidy total share = .ok (share * subsidy / total) := by
  have hscaled : share * 1024 < 2 ^ 128 := (Nat.le_mul_of_pos_right _ hsubsidy).trans_lt hfits
  simp only [payout, mul_of_lt hscaled, mul_of_lt hfits, ok_bind, div_of_ne htotal.ne']
  rw [div_of_ne (by norm_num), Proportional.share_scaled (by norm_num)]

private theorem mem_plantOwners : i ∈ g.plantOwners ↔ g.owned g.nfts.powerPlants.toList i ≠ [] := by
  rw [plantOwners, List.mem_dedup, List.mem_filterMap]
  constructor
  · intro ⟨x, hx, howner⟩ hnil
    have hmem : x ∈ g.owned g.nfts.powerPlants.toList i :=
      List.mem_filter.mpr ⟨hx, decide_eq_true howner⟩
    rw [hnil] at hmem
    cases hmem
  · intro hne
    obtain ⟨x, hx⟩ := List.exists_mem_of_ne_nil _ hne
    obtain ⟨hmem, howner⟩ := List.mem_filter.mp hx
    exact ⟨x, hmem, of_decide_eq_true howner⟩

namespace Collected

variable {shares : ExtTreeMap EntityID ℕ} {total v : ℕ}

private theorem mem_iff (h : Collected g g.nfts.powerPlants.toList (total, shares)) :
    (i, v) ∈ shares.toList ↔ i ∈ g.plantOwners ∧ v = g.ownerHashrate i := by
  rw [ExtTreeMap.mem_toList_iff_getElem?_eq_some, mem_plantOwners, show shares[i]? = _ from
    h.shares i]
  by_cases hnil : g.owned g.nfts.powerPlants.toList i = []
  · simp [hnil]
  · rw [if_neg hnil, Option.some.injEq]
    exact ⟨fun heq => ⟨hnil, heq.symm⟩, fun heq => heq.2.symm⟩

private theorem keys_nodup (shares : ExtTreeMap EntityID ℕ) : (shares.toList.map (·.1)).Nodup := by
  rw [ExtTreeMap.map_fst_toList_eq_keys]
  exact ExtTreeMap.nodup_keys

private theorem keys_perm (h : Collected g g.nfts.powerPlants.toList (total, shares)) :
    (shares.toList.map (·.1)).Perm g.plantOwners := by
  apply (List.perm_ext_iff_of_nodup (keys_nodup shares) (List.nodup_dedup _)).mpr
  intro i
  show i ∈ _ ↔ i ∈ g.plantOwners
  constructor
  · intro hmem
    obtain ⟨⟨j, v⟩, hx, rfl⟩ := List.mem_map.mp hmem
    exact (h.mem_iff.mp hx).1
  · intro hmem
    exact List.mem_map.mpr ⟨(i, _), h.mem_iff.mpr ⟨hmem, rfl⟩, rfl⟩

/-- The payments that are computed from the shares. -/
def payments (g : GameBoard) (shares : ExtTreeMap EntityID ℕ) : List (EntityID × ℕ) :=
  shares.toList.map fun x => (x.1, x.2 * g.miningSubsidy / g.totalHashrate)

private theorem payments_keys : (payments g shares).map (·.1) = shares.toList.map (·.1) := by
  rw [payments, List.map_map]
  rfl

private theorem payments_credit (h : Collected g g.nfts.powerPlants.toList (total, shares))
    (hpos : 0 < g.totalHashrate) :
    credit (payments g shares) i = if i ∈ g.plantOwners then g.mined i else 0 := by
  split
  · rename_i hmem
    apply credit_of_mem
    · rw [payments_keys]
      exact keys_nodup shares
    · rw [mined, if_neg hpos.ne']
      exact List.mem_map.mpr ⟨(i, _), h.mem_iff.mpr ⟨hmem, rfl⟩, rfl⟩
  · rename_i hnot
    apply credit_of_not_mem
    rw [payments_keys, h.keys_perm.mem_iff]
    exact hnot

private theorem payments_sum (h : Collected g g.nfts.powerPlants.toList (total, shares))
    (hpos : 0 < g.totalHashrate) :
    ((payments g shares).map (·.2)).sum = (g.plantOwners.map g.mined).sum := by
  have hmap : (payments g shares).map (·.2) = (shares.toList.map (·.1)).map g.mined := by
    rw [payments, List.map_map, List.map_map]
    apply List.map_congr_left
    intro x hx
    show x.2 * g.miningSubsidy / g.totalHashrate = g.mined x.1
    rw [mined, if_neg hpos.ne', (h.mem_iff.mp hx).2]
  rw [hmap]
  exact (h.keys_perm.map g.mined).sum_eq

private theorem payments_eq : (payments g shares).map (·.2) =
    Proportional.shares g.miningSubsidy g.totalHashrate (shares.toList.map (·.2)) := by
  rw [payments, Proportional.shares, List.map_map, List.map_map]
  rfl

end Collected

private theorem GameBoard.Mines.action (h : g.Mines) (ev : PowerPlantEvent) :
    ∃ tokens, ev.action g = (add 64 g.elapsedTime ev.period).map (fun time =>
        (g.withTokens tokens).schedule (.powerPlantEvent { ev with time })) ∧
      g.PaysMiners tokens := by
  obtain ⟨shares, hcollect, hcollected⟩ := h.collects
  have hrates : ∀ x ∈ g.nfts.powerPlants.toList, x.2.computeHashrate g = .ok (g.hashrate x.2) :=
    fun x hx => (h.runs hx).1
  have haction (tokens : TokenRegistry) (hdistribute : distribute g g.totalHashrate shares =
      .ok tokens) : ev.action g = (add 64 g.elapsedTime ev.period).map (fun time =>
        (g.withTokens tokens).schedule (.powerPlantEvent { ev with time })) := by
    simp only [PowerPlantEvent.action, hcollect, hdistribute, ok_bind]
    cases add 64 g.elapsedTime ev.period <;> rfl
  by_cases hzero : g.totalHashrate = 0
  · have hnothing : g.mined = fun _ => 0 := by
      funext i
      rw [mined, if_pos hzero]
    have hsum : (g.plantOwners.map g.mined).sum = 0 := by simp [hnothing]
    have hdistribute : distribute g g.totalHashrate shares = .ok g.tokens := by
      rw [distribute, if_pos hzero]
      rfl
    refine ⟨g.tokens, haction g.tokens hdistribute, hrates, fun q i => ?_, fun q => ?_, ?_, ?_⟩
    · rw [hnothing, ite_self]
      rfl
    · rw [hsum, ite_self]
      rfl
    · rw [hsum]
      exact Nat.zero_le _
    · intro hpos
      exact absurd hzero hpos.ne'
  · have hpos := Nat.pos_of_ne_zero hzero
    have hsum : (shares.toList.map (·.2)).sum = g.totalHashrate := by
      have hvalues : g.totalHashrate = valueSum shares := collectShares_sum (by simp) hcollect
      rw [hvalues]
      simp [valueSum, entries]
    have hle : (g.plantOwners.map g.mined).sum ≤ g.miningSubsidy := by
      rw [← hcollected.payments_sum hpos, Collected.payments_eq]
      exact Proportional.sum_shares_le hpos hsum
    have hlt : g.miningSubsidy < (g.plantOwners.map g.mined).sum + g.plantOwners.length := by
      have hlength : (shares.toList.map (·.2)).length = g.plantOwners.length := by
        rw [← hcollected.keys_perm.length_eq, List.length_map, List.length_map]
      rw [← hcollected.payments_sum hpos, Collected.payments_eq, ← hlength]
      exact Proportional.lt_sum_shares_add_length hpos hsum
    have hpayouts : (shares.toList.mapM fun x => do
        let v ← payout g.miningSubsidy g.totalHashrate x.2
        pure (x.1, v)) = .ok (Collected.payments g shares) := by
      apply mapM_eq_map
      intro x hx
      have hshare : x.2 ≤ 100_010 * hashPerWatt := by
        have hmem := List.single_le_sum (fun _ _ => Nat.zero_le _) _
          (List.mem_map.mpr ⟨x, hx, rfl⟩ : x.2 ∈ shares.toList.map (·.2))
        exact (hmem.trans_eq hsum).trans h.totalHashrate_le
      have hfits : x.2 * 1024 * g.miningSubsidy < 2 ^ 128 := by
        rw [h.subsidy]
        have hlarge : 100_010 * hashPerWatt * 1024 * 5_000_000_000 < 2 ^ 128 := by
          norm_num [hashPerWatt]
        exact (Nat.mul_le_mul_right _ (Nat.mul_le_mul_right _ hshare)).trans_lt hlarge
      rw [payout_eq hpos hfits (by rw [h.subsidy]; norm_num)]
      rfl
    have htotal : g.tokens.total g.bitcoinTokenId +
        ((Collected.payments g shares).map (·.2)).sum < 2 ^ 128 := by
      have hbitcoin := h.bitcoin
      rw [hcollected.payments_sum hpos]
      exact Nat.lt_of_le_of_lt (Nat.add_le_add_left hle _) hbitcoin
    obtain ⟨tokens, hpay, hbalances, htotals⟩ := payAll_eq h.inv.tokens h.inv.bitcoin htotal
    have hdistribute : distribute g g.totalHashrate shares = .ok tokens := by
      obtain ⟨t, ht⟩ := Option.isSome_iff_exists.mp h.inv.bitcoin
      have hindex : g.tokens.index g.bitcoinTokenId = .ok t := TokenRegistry.index_eq_ok_iff.mpr ht
      rw [distribute, if_neg hzero]
      simp only [hpayouts, ok_bind, hindex, hpay]
    refine ⟨tokens, haction tokens hdistribute, hrates, fun q i => ?_, fun q => ?_, hle,
      fun _ => hlt⟩
    · rw [hbalances, hcollected.payments_credit hpos]
      by_cases hq : g.bitcoinTokenId = q
      · simp [hq, balance]
      · simp [hq, balance]
    · rw [htotals, hcollected.payments_sum hpos]
      rfl

/-- Every payout of a game pays the owners of plants their shares of the subsidy. Nothing overflows
but perhaps the time of the next payout. -/
theorem mining_pays (h : Reachable setup g ∨ Ticking setup g) (ev : PowerPlantEvent) :
    ∃ tokens, ev.action g = (add 64 g.elapsedTime ev.period).map (fun time =>
        (g.withTokens tokens).schedule (.powerPlantEvent { ev with time })) ∧
      g.PaysMiners tokens := by
  rcases h with h | h
  · exact h.mines.action ev
  · exact h.mines.action ev

/-- Two players with one machine each halve the subsidy. -/
theorem mining_pays_two : ∃ g tokens, Reachable twoPlayers g ∧ g.PaysMiners tokens ∧
    tokens.balance g.bitcoinTokenId 0xc0de0008 =
      g.balance g.bitcoinTokenId 0xc0de0008 + 2_500_000_000 := by
  have h : returns (GameBoard.new twoPlayers) (fun g =>
      0xc0de0008 ∈ g.plantOwners ∧ g.mined 0xc0de0008 = 2_500_000_000) := by
    decide +kernel
  obtain ⟨g, hnew, htest⟩ := returns_iff.mp h
  obtain ⟨howner, hmined⟩ := of_decide_eq_true htest
  have hreach : Reachable twoPlayers g := .new hnew
  obtain ⟨tokens, -, hpays⟩ := mining_pays (.inl hreach) { time := 0, period := 11_003 }
  refine ⟨g, tokens, hreach, hpays, ?_⟩
  rw [hpays.balances, if_pos ⟨rfl, howner⟩, hmined]

end JudicaVM
