import JudicaVM.Board.Ending
import JudicaVM.Lib.Proportional

/-!
# The payout

The distribution of the bounty of a finished game. When the time has expired every player receives
a share by balance, rounded down, and the first one what is left; when a player dominates, three
quarters go to that player.
-/

namespace JudicaVM

open Checked Std OrderedMap Transition GameBoard

variable {setup : GameSetup} {g g' : GameBoard} {bounty : ℕ} {hostKey : String}

private theorem Occurs.alloc_lt {e : Event} (h : Occurs g e g') (hlt : g.alloc < 2 ^ 64) :
    g'.alloc < 2 ^ 64 := by
  cases h with
  | openMarket pair shares hnone hnormal hA hB hroom => exact hroom
  | newNft nft plant hroom hid howner hplant => exact hroom
  | addUser player hroom => exact hroom
  | drawId hroom => exact hroom
  | _ => exact hlt

private theorem Trace.alloc_lt {P : Event → Prop} (h : Trace P g g') (hlt : g.alloc < 2 ^ 64) :
    g'.alloc < 2 ^ 64 :=
  Run.invariant (I := fun s => s.alloc < 2 ^ 64) (fun _ _ _ _ hi hs => Occurs.alloc_lt hs hi) h hlt

private theorem Reachable.alloc_lt (h : Reachable setup g) : g.alloc < 2 ^ 64 := by
  induction h with
  | new hnew =>
    obtain ⟨g0, hblank, htrace⟩ := new_trace hnew
    have hblank' : returns blank (fun g0 => g0.alloc < 2 ^ 64) := by decide
    obtain ⟨g1, hg1, hlt⟩ := returns_iff.mp hblank'
    cases hblank.symm.trans hg1
    exact htrace.alloc_lt (of_decide_eq_true hlt)
  | play hg hplay ih => exact (play_trace hg.inv hplay).alloc_lt ih

private theorem GameBoard.Inv.size_le (hi : g.Inv) : g.usersByKey.size ≤ g.alloc := by
  have hroot : g.rootUser ∉ g.usersByKey.toList.map (·.2) := by
    intro hmem
    obtain ⟨⟨key, i⟩, hkey, rfl⟩ := List.mem_map.mp hmem
    exact hi.not_isUser_root
      (isUser_of_key hi (ExtTreeMap.mem_toList_iff_getElem?_eq_some.mp hkey))
  have hnodup := List.nodup_cons.mpr ⟨hroot, nodup_ids_of_keys hi⟩
  have hle : g.rootUser :: g.usersByKey.toList.map (·.2) ⊆ List.range (g.alloc + 1) := by
    intro i hmem
    rw [List.mem_range, Nat.lt_succ_iff]
    apply hi.ids_le
    rcases List.mem_cons.mp hmem with rfl | hmem
    · exact mem_entityIds.mpr (.inr (.inl rfl))
    · obtain ⟨⟨key, i⟩, hkey, rfl⟩ := List.mem_map.mp hmem
      exact mem_entityIds.mpr
        (.inl (isUser_of_key hi (ExtTreeMap.mem_toList_iff_getElem?_eq_some.mp hkey)))
  have hlen := (hnodup.subperm hle).length_le
  simp only [List.length_cons, List.length_map, ExtTreeMap.length_toList, List.length_range] at hlen
  omega

namespace GameBoard

/-- What all players hold together. -/
def playersTotal (g : GameBoard) : ℕ :=
  (g.usersByKey.toList.map fun x => g.balance g.bitcoinTokenId x.2).sum

/-- The share of a player by balance, or an equal share when nobody holds anything. -/
def bountyShare (g : GameBoard) (bounty : ℕ) (i : EntityID) : ℕ :=
  if g.playersTotal = 0 then bounty / g.usersByKey.size
  else g.balance g.bitcoinTokenId i * bounty / g.playersTotal

/-- The shares of all players in the order of their keys. -/
def bountyShares (g : GameBoard) (bounty : ℕ) : List (String × ℕ) :=
  g.usersByKey.toList.map fun x => (x.1, g.bountyShare bounty x.2)

/-- Every player receives the share, and the first one in addition what is left. -/
structure SharesBounty (g : GameBoard) (bounty : ℕ) (dist : List (String × ℕ)) : Prop where
  once : (dist.map (·.1)).Nodup
  keys : ∀ k : String, k ∈ dist.map (·.1) ↔ g.usersByKey[k]?.isSome
  amounts : ∃ excess < g.usersByKey.size,
    dist = (g.bountyShares bounty).modifyHead fun x => (x.1, x.2 + excess)

/-- The host receives a quarter, rounded down, and the player the rest. -/
def SplitsBounty (g : GameBoard) (bounty : ℕ) (hostKey : String) (id : EntityID)
    (dist : List (String × ℕ)) : Prop :=
  ∃ user, g.users[id]? = some user ∧
    dist = [(user.key, bounty - bounty / 4), (hostKey, bounty / 4)]

/-- How the bounty is distributed when the game is over. -/
def Distributes (g : GameBoard) (bounty : ℕ) (hostKey : String) (dist : List (String × ℕ)) :
    FinishReason → Prop
  | .timeExpired => g.SharesBounty bounty dist
  | .dominatingPlayer id => g.SplitsBounty bounty hostKey id dist

end GameBoard

private theorem GameBoard.playersTotal_lt (hi : g.Inv) : g.playersTotal < 2 ^ 128 := by
  have hle := TokenRegistry.sum_balance_le_total (p := g.bitcoinTokenId) hi.tokens
    (nodup_ids_of_keys hi)
  rw [List.map_map] at hle
  exact hle.trans_lt (TokenRegistry.total_lt hi.tokens)

private theorem GameBoard.sum_bountyShares (hplayers : 0 < g.usersByKey.size) :
    ((g.bountyShares bounty).map (·.2)).sum ≤ bounty ∧
      bounty < ((g.bountyShares bounty).map (·.2)).sum + g.usersByKey.size := by
  have hshares : (g.bountyShares bounty).map (·.2) =
      g.usersByKey.toList.map fun x => g.bountyShare bounty x.2 := by
    rw [bountyShares, List.map_map]
    rfl
  rw [hshares]
  by_cases hzero : g.playersTotal = 0
  · have heach : (g.usersByKey.toList.map fun x => g.bountyShare bounty x.2) =
        List.replicate g.usersByKey.size (bounty / g.usersByKey.size) := by
      simp only [bountyShare, if_pos hzero, List.map_const', ExtTreeMap.length_toList]
    have hdiv := Nat.div_add_mod bounty g.usersByKey.size
    have hmod := Nat.mod_lt bounty hplayers
    rw [heach, List.sum_replicate, smul_eq_mul]
    omega
  · have heach : (g.usersByKey.toList.map fun x => g.bountyShare bounty x.2) =
        Proportional.shares bounty g.playersTotal
          (g.usersByKey.toList.map fun x => g.balance g.bitcoinTokenId x.2) := by
      simp only [bountyShare, if_neg hzero, Proportional.shares, List.map_map]
      rfl
    have hpos := Nat.pos_of_ne_zero hzero
    have hlt : bounty < (Proportional.shares bounty g.playersTotal _).sum + _ :=
      Proportional.lt_sum_shares_add_length hpos
        (show (g.usersByKey.toList.map fun x => g.balance g.bitcoinTokenId x.2).sum = _ from rfl)
    rw [List.length_map, ExtTreeMap.length_toList] at hlt
    rw [heach]
    exact ⟨Proportional.sum_shares_le hpos rfl, hlt⟩

private theorem timeExpiredRewards_eq (hplayers : 0 < g.usersByKey.size)
    (hsize : g.usersByKey.size < 2 ^ 64)
    (hbalances : ∀ (k : String) i, g.usersByKey[k]? = some i →
      g.balance g.bitcoinTokenId i < 2 ^ 64) (hbounty : bounty < 2 ^ 64) :
    timeExpiredRewards bounty g.playersTotal
      (g.usersByKey.toList.map fun x => (x.1, g.balance g.bitcoinTokenId x.2)) =
        .ok (g.bountyShares bounty) := by
  unfold timeExpiredRewards
  by_cases hzero : g.playersTotal = 0
  · have hdiv : div bounty (g.usersByKey.size % 2 ^ 64) = .ok (bounty / g.usersByKey.size) := by
      rw [Nat.mod_eq_of_lt hsize]
      exact div_of_ne hplayers.ne'
    rw [if_pos hzero, List.length_map, ExtTreeMap.length_toList, hdiv]
    apply (mapM_eq_map fun x _ => by rfl).trans
    simp only [bountyShares, bountyShare, if_pos hzero, List.map_map]
    rfl
  · rw [if_neg hzero]
    have hshares : g.bountyShares bounty =
        (g.usersByKey.toList.map fun x => (x.1, g.balance g.bitcoinTokenId x.2)).map
          fun x => (x.1, x.2 * bounty / g.playersTotal) := by
      simp only [bountyShares, bountyShare, if_neg hzero, List.map_map]
      rfl
    rw [hshares]
    apply mapM_eq_map
    intro x hx
    obtain ⟨⟨key, i⟩, hmem, rfl⟩ := List.mem_map.mp hx
    have hbalance := hbalances key i (ExtTreeMap.mem_toList_iff_getElem?_eq_some.mp hmem)
    have hmul : mul 128 (g.balance g.bitcoinTokenId i) bounty =
        .ok (g.balance g.bitcoinTokenId i * bounty) := by
      apply mul_of_lt
      calc g.balance g.bitcoinTokenId i * bounty
        _ < 2 ^ 64 * 2 ^ 64 := Nat.mul_lt_mul'' hbalance hbounty
        _ = 2 ^ 128 := by norm_num
    have hle : g.balance g.bitcoinTokenId i ≤ g.playersTotal :=
      List.single_le_sum (fun _ _ => Nat.zero_le _) _
        (List.mem_map.mpr ⟨_, hmem, rfl⟩)
    have hshare : g.balance g.bitcoinTokenId i * bounty / g.playersTotal < 2 ^ 64 :=
      (Proportional.share_le hle).trans_lt hbounty
    simp only [hmul, ok_bind, div_of_ne hzero, pure_eq_ok, Nat.mod_eq_of_lt hshare]

private theorem modifyHead_keys {l : List (String × ℕ)} {excess : ℕ} :
    (l.modifyHead fun x => (x.1, x.2 + excess)).map (·.1) = l.map (·.1) := by
  cases l <;> rfl

private theorem bountyShares_keys : (g.bountyShares bounty).map (·.1) = g.usersByKey.keys := by
  rw [bountyShares, List.map_map, ← ExtTreeMap.map_fst_toList_eq_keys]
  rfl

private theorem Reachable.sharesBounty (h : Reachable setup g) (hplayers : 0 < g.usersByKey.size)
    (hbalances : ∀ (k : String) i, g.usersByKey[k]? = some i →
      g.balance g.bitcoinTokenId i < 2 ^ 64) (hbounty : bounty < 2 ^ 64)
    (hfinished : g.gameIsFinished = .ok (some .timeExpired)) :
    ∃ dist, g.getCloseDistribution bounty hostKey = .ok (.ok dist) ∧
      (dist.map (·.2)).sum = bounty ∧ g.SharesBounty bounty dist := by
  have hi := h.inv
  have hsize : g.usersByKey.size < 2 ^ 64 := hi.size_le.trans_lt h.alloc_lt
  have htotal : (g.usersByKey.toList.map fun x => (x.1, g.balance g.bitcoinTokenId x.2)).foldlM
      (fun sum b => add 128 sum b.2) 0 = .ok g.playersTotal := by
    have hsum : ((g.usersByKey.toList.map fun x => (x.1, g.balance g.bitcoinTokenId x.2)).map
        (·.2)).sum = g.playersTotal := by
      rw [List.map_map]
      rfl
    rw [foldlM_add_eq, hsum, Nat.zero_add]
    rw [hsum, Nat.zero_add]
    exact g.playersTotal_lt hi
  have hle : ((g.bountyShares bounty).map (·.2)).sum ≤ bounty := (g.sum_bountyShares hplayers).1
  have hlt : bounty < ((g.bountyShares bounty).map (·.2)).sum + g.usersByKey.size :=
    (g.sum_bountyShares hplayers).2
  have hrewards : (g.bountyShares bounty).foldlM (fun sum r => add 64 sum r.2) 0 =
      .ok ((g.bountyShares bounty).map (·.2)).sum := by
    rw [foldlM_add_eq, Nat.zero_add]
    rw [Nat.zero_add]
    exact hle.trans_lt hbounty
  have hlen : (g.bountyShares bounty).length = g.usersByKey.size := by
    rw [bountyShares, List.length_map, ExtTreeMap.length_toList]
  simp only [getCloseDistribution, hfinished, ok_bind]
  rw [mapM_eq_map (g := fun x => (x.1, g.balance g.bitcoinTokenId x.2))]
  rotate_left
  · intro x _
    simp only [TokenRegistry.balanceCheck_of_has hi.bitcoin, ok_bind]
    rfl
  simp only [ok_bind, htotal, timeExpiredRewards_eq hplayers hsize hbalances hbounty, hrewards,
    sub_of_le hle]
  cases hshares : g.bountyShares bounty with
  | nil =>
    rw [hshares] at hlen
    exact absurd hlen hplayers.ne
  | cons x rest =>
    rw [hshares] at hle hlt
    have hsum : ((x :: rest).map (·.2)).sum = x.2 + (rest.map (·.2)).sum := rfl
    have hfirst : add 64 x.2 (bounty - ((x :: rest).map (·.2)).sum) =
        .ok (x.2 + (bounty - ((x :: rest).map (·.2)).sum)) := add_of_lt (by omega)
    simp only [hfirst, ok_bind, pure_eq_ok]
    have hdist : (x.1, x.2 + (bounty - ((x :: rest).map (·.2)).sum)) :: rest =
        (g.bountyShares bounty).modifyHead
          fun y => (y.1, y.2 + (bounty - ((x :: rest).map (·.2)).sum)) := by
      rw [hshares]
      rfl
    refine ⟨_, rfl, ?_, ?_, fun k => ?_, _, ?_, hdist⟩
    · rw [List.map_cons, List.sum_cons]
      omega
    · rw [hdist, modifyHead_keys, bountyShares_keys]
      exact ExtTreeMap.nodup_keys
    · rw [hdist, modifyHead_keys, bountyShares_keys, ExtTreeMap.mem_keys]
      exact ExtTreeMap.isSome_getElem?_iff_mem.symm
    · omega

private theorem Reachable.isUser_of_dominates (h : Reachable setup g) {id : EntityID}
    (hdom : g.Dominates id) : g.IsUser id := by
  have hpos : g.ownerHashrate id ≠ 0 := by
    obtain ⟨hpos, hhalf⟩ := hdom
    omega
  have howned : g.owned g.nfts.powerPlants.toList id ≠ [] := by
    intro hnil
    simp [ownerHashrate, hnil, rateSum] at hpos
  obtain ⟨x, hx⟩ := List.exists_mem_of_ne_nil _ howned
  have howner := of_decide_eq_true (List.mem_filter.mp hx).2
  obtain ⟨nft, hnft, rfl⟩ := Option.map_eq_some_iff.mp howner
  exact (h.inv.nfts x.1 nft hnft).2

private theorem Reachable.dominates_of_finished (h : Reachable setup g) {id : EntityID}
    (hfinished : g.gameIsFinished = .ok (some (.dominatingPlayer id))) : g.Dominates id := by
  obtain ⟨shares, found, hok, hfound, hleast⟩ := h.findDominating
  unfold gameIsFinished at hfinished
  split at hfinished
  · cases hfinished
  · obtain ⟨_, _, hfinished⟩ := bind_eq_ok_iff.mp hfinished
    split at hfinished
    · simp only [hok, hfound, ok_bind, pure_eq_ok, Except.ok.injEq, Option.map_eq_some_iff,
        FinishReason.dominatingPlayer.injEq, exists_eq_right] at hfinished
      exact ((hleast id).mp hfinished).1
    · cases hfinished

private theorem Reachable.splitsBounty (h : Reachable setup g) {id : EntityID}
    (hfinished : g.gameIsFinished = .ok (some (.dominatingPlayer id))) :
    ∃ dist, g.getCloseDistribution bounty hostKey = .ok (.ok dist) ∧
      (dist.map (·.2)).sum = bounty ∧ g.SplitsBounty bounty hostKey id dist := by
  obtain ⟨user, huser⟩ :=
    Option.isSome_iff_exists.mp (h.isUser_of_dominates (h.dominates_of_finished hfinished))
  have hquarter : bounty / 4 ≤ bounty := Nat.div_le_self _ _
  have hdist : g.getCloseDistribution bounty hostKey =
      .ok (.ok [(user.key, bounty - bounty / 4), (hostKey, bounty / 4)]) := by
    simp only [getCloseDistribution, hfinished, ok_bind, huser, unwrap_some, sub_of_le hquarter,
      pure_eq_ok]
  refine ⟨_, hdist, ?_, user, huser, rfl⟩
  show bounty - bounty / 4 + (bounty / 4 + 0) = bounty
  omega

/-- The whole bounty of a finished game is distributed. -/
theorem bounty_distributed {reason : FinishReason} (h : Reachable setup g)
    (hplayers : g.usersByKey ≠ ∅)
    (hbalances : ∀ (k : String) i, g.usersByKey[k]? = some i →
      g.balance g.bitcoinTokenId i < 2 ^ 64)
    (hfinished : g.gameIsFinished = .ok (some reason)) (hbounty : bounty < 2 ^ 64)
    (hostKey : String) :
    ∃ dist, g.getCloseDistribution bounty hostKey = .ok (.ok dist) ∧
      (dist.map (·.2)).sum = bounty ∧ g.Distributes bounty hostKey dist reason := by
  cases reason with
  | timeExpired =>
    have hsize : 0 < g.usersByKey.size := by
      apply Nat.pos_of_ne_zero
      intro hzero
      exact hplayers (ExtTreeMap.eq_empty_iff_size_eq_zero.mpr hzero)
    exact h.sharesBounty hsize hbalances hbounty hfinished
  | dominatingPlayer id => exact h.splitsBounty hfinished

/-- Two players with equal balances share an odd bounty. -/
theorem bounty_distributed_expired : ∃ g dist, Reachable twoPlayers g ∧
    g.gameIsFinished = .ok (some .timeExpired) ∧
    g.getCloseDistribution 100_001 "host" = .ok (.ok dist) ∧ (dist.map (·.2)).sum = 100_001 ∧
    g.SharesBounty 100_001 dist := by
  have h : returns (do
      let g ← GameBoard.new twoPlayers
      let g' ← playAll [(opening, "alice"), (expiry, "alice")] g
      pure (g, g')) (fun x => x.2.gameIsFinished = .ok (some .timeExpired) ∧
        x.2.usersByKey.toList ≠ [] ∧
        ∀ y ∈ x.2.usersByKey.toList, x.2.balance x.2.bitcoinTokenId y.2 < 2 ^ 64) := by
    decide +kernel
  obtain ⟨x, hok, htest⟩ := returns_iff.mp h
  simp only [bind_eq_ok_iff, pure_eq_ok, Except.ok.injEq] at hok
  obtain ⟨g, hnew, g', hrun, rfl⟩ := hok
  obtain ⟨hfinished, hplayers, hbalances⟩ := of_decide_eq_true htest
  have hg : Reachable twoPlayers g' := (Reachable.new hnew).later (later_of_playAll hrun)
  obtain ⟨dist, hdist, hsum, hshares⟩ := bounty_distributed hg
    (fun heq => hplayers (by simp [heq]))
    (fun k i hk => hbalances _ (ExtTreeMap.mem_toList_iff_getElem?_eq_some.mpr hk)) hfinished
    (show 100_001 < 2 ^ 64 by decide) "host"
  exact ⟨g', dist, hg, hfinished, hdist, hsum, hshares⟩

end JudicaVM
