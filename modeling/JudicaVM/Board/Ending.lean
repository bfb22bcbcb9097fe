import JudicaVM.Board.Endowment
import JudicaVM.Board.Sequence

/-!
# The end of the game

Whether a game is over is computed from the whole board on every call. The rounded shares of the
owners of plants decide it as the exact ones do, and once a game is over nothing but the log changes.
-/

namespace JudicaVM

open Checked Std OrderedMap Transition GameBoard

variable {setup : GameSetup} {g g' : GameBoard} {mv : MoveEnvelope} {key : String}
  {sender : EntityID} {reason : FinishReason} {r : Except MoveRejectReason Unit}

theorem GameBoard.Ignored.refl (g : GameBoard) : g.Ignored g := rfl

theorem GameBoard.Ignored.trans {g'' : GameBoard} (h : g.Ignored g') (h' : g'.Ignored g'') :
    g.Ignored g'' := by
  unfold Ignored at *
  rw [h] at h'
  exact h'

private theorem computeHashrate_ignored {plant : PowerPlant} (h : g.Ignored g') :
    plant.computeHashrate g' = plant.computeHashrate g := by
  rw [h]
  rfl

private theorem accumulateShares_ignored {d : ℕ} {plants : List (NftPtr × PowerPlant)}
    {acc : ℕ × ExtTreeMap EntityID (ℕ × ℕ)} (h : g.Ignored g') :
    accumulateShares g' d plants acc = accumulateShares g d plants acc := by
  have hnfts : g'.nfts = g.nfts := by rw [h]
  induction plants generalizing acc with
  | nil => rfl
  | cons x rest ih => simp only [accumulateShares, computeHashrate_ignored h, hnfts, ih]

/-- Whether the game is over depends neither on the log nor on the counters. -/
theorem gameIsFinished_ignored (h : g.Ignored g') : g'.gameIsFinished = g.gameIsFinished := by
  have hnfts : g'.nfts = g.nfts := by rw [h]
  have htime : g'.elapsedTime = g.elapsedTime := by rw [h]
  have hfinish : g'.finishTime = g.finishTime := by rw [h]
  simp only [gameIsFinished, getUserHashrateShare, accumulateShares_ignored h, hnfts, htime,
    hfinish]

theorem play_of_finished (hfinished : g.gameIsFinished = .ok (some reason))
    (h : g.play mv key = .ok (r, g')) : g.Ignored g' := by
  have hnot : ∀ sender, ¬ g.Reaches mv key sender := by
    intro sender hreach
    have hrunning := hreach.2.1
    rw [hfinished] at hrunning
    cases hrunning
  exact (play_ignored hnot h).1

namespace GameBoard

/-- The hashrate of a plant, as the board computes it. -/
def hashrate (g : GameBoard) (plant : PowerPlant) : ℕ :=
  match plant.computeHashrate g with
  | .ok rate => rate
  | .error _ => 0

/-- The owner of an NFT. -/
def ownerOf (g : GameBoard) (ptr : NftPtr) : Option EntityID := g.nfts.nfts[ptr]?.map (·.owner)

/-- The hashrate of the plants of a list. -/
def rateSum (g : GameBoard) (plants : List (NftPtr × PowerPlant)) : ℕ :=
  (plants.map fun x => g.hashrate x.2).sum

/-- The plants of a list that a player owns. -/
def owned (g : GameBoard) (plants : List (NftPtr × PowerPlant)) (i : EntityID) :
    List (NftPtr × PowerPlant) :=
  plants.filter fun x => g.ownerOf x.1 = some i

def totalHashrate (g : GameBoard) : ℕ := g.rateSum g.nfts.powerPlants.toList

def ownerHashrate (g : GameBoard) (i : EntityID) : ℕ :=
  g.rateSum (g.owned g.nfts.powerPlants.toList i)

/-- The owner has at least one half of a positive total hashrate. -/
def Dominates (g : GameBoard) (i : EntityID) : Prop :=
  0 < g.totalHashrate ∧ g.totalHashrate ≤ 2 * g.ownerHashrate i

instance (i : EntityID) : Decidable (g.Dominates i) := inferInstanceAs (Decidable (_ ∧ _))

end GameBoard

/-- The boards of the machines: one kind, with a fixed efficiency. -/
def hashPerWatt : ℕ := 300_000_000_000

/-- What is fixed when a board is built is what the blank board has, and the finish time. -/
theorem Reachable.constants_eq (h : Reachable setup g) :
    ∃ g0, blank = .ok g0 ∧ g.constants = { g0.constants with finishTime := setup.finishTime } := by
  induction h with
  | new h =>
    obtain ⟨g0, hblank, htrace⟩ := new_trace h
    have hi := (blank_spec hblank).1.setFinishTime setup.finishTime
    exact ⟨g0, hblank, (htrace.extends hi).constants_eq⟩
  | play hg hplay ih =>
    obtain ⟨g0, hblank, heq⟩ := ih
    exact ⟨g0, hblank, ((play_trace hg.inv hplay).extends hg.inv).constants_eq.trans heq⟩

theorem Reachable.hashboards (h : Reachable setup g) :
    ∃ board, g.tokens.hashboards.toList = [(g.asicTokenId, board)] ∧
      board.hashPerWatt = hashPerWatt := by
  obtain ⟨g0, hblank, hconst⟩ := h.constants_eq
  simp only [constants, Constants.mk.injEq] at hconst
  obtain ⟨_, _, _, _, _, hasic, _, _, _, _, hboards⟩ := hconst
  have hblank' : returns blank (fun g0 =>
      g0.tokens.hashboards.toList.map (fun x => (x.1, x.2.hashPerWatt)) =
        [(g0.asicTokenId, hashPerWatt)]) := by
    decide +kernel
  obtain ⟨g1, hg1, htest⟩ := returns_iff.mp hblank'
  cases hblank.symm.trans hg1
  obtain ⟨⟨token, board⟩, hlist, heq⟩ := List.map_eq_singleton_iff.mp (of_decide_eq_true htest)
  simp only [Prod.mk.injEq] at heq
  rw [hasic, hboards]
  exact ⟨board, by rw [hlist, heq.1], heq.2⟩

private theorem runBoards_single {hpw units watts : ℕ} (hfits : min units watts * hpw < 2 ^ 128) :
    PowerPlant.runBoards [(hpw, units)] watts 0 = .ok (min units watts * hpw) := by
  simp only [PowerPlant.runBoards, mul_of_lt hfits, ok_bind]
  rw [add_of_lt (by rwa [Nat.zero_add]), ok_bind, sub_of_le (min_le_right _ _), ok_bind,
    Nat.zero_add]
  split <;> rfl

private theorem computeHashrate_of_single {plant : PowerPlant} {token : TokenPointer}
    {board : HashBoardData}
    {units : ℕ} (hboards : g.tokens.hashboards.toList = [(token, board)])
    (hcount : g.tokens.balanceCheck token plant.id = .ok units)
    (hfits : min units plant.watts * board.hashPerWatt < 2 ^ 128) :
    plant.computeHashrate g = .ok (min units plant.watts * board.hashPerWatt) := by
  have hsorted (x : ℕ × ℕ) : ([x].insertionSort PowerPlant.boardLe).reverse = [x] := rfl
  simp only [PowerPlant.computeHashrate, hboards, List.mapM_cons, List.mapM_nil, hcount, ok_bind,
    pure_eq_ok, hsorted]
  exact runBoards_single hfits

/-- A board with one kind of machines, of which there are few. -/
structure GameBoard.Powered (g : GameBoard) : Prop where
  inv : g.Inv
  boards : ∃ board, g.tokens.hashboards.toList = [(g.asicTokenId, board)] ∧
    board.hashPerWatt = hashPerWatt
  machines : g.total g.asicTokenId ≤ 100_010

private theorem Reachable.powered (h : Reachable setup g) : g.Powered where
  inv := h.inv
  boards := h.hashboards
  machines := by
    obtain ⟨_, n, hsupplied⟩ := h.supplied
    have hle := hsupplied.material_le g.asicTokenId (by simp [materials])
    omega

private theorem GameBoard.Powered.computeHashrate (h : g.Powered) (plant : PowerPlant) :
    plant.computeHashrate g =
      .ok (min (g.balance g.asicTokenId plant.id) plant.watts * hashPerWatt) := by
  obtain ⟨board, hboards, hpower⟩ := h.boards
  have hhas : g.tokens.Has g.asicTokenId := by
    have hmem : (g.asicTokenId, board) ∈ g.tokens.hashboards.toList := by simp [hboards]
    exact h.inv.boards _ _ (ExtTreeMap.mem_toList_iff_getElem?_eq_some.mp hmem)
  have hbalance : g.balance g.asicTokenId plant.id ≤ 100_010 :=
    (TokenRegistry.balance_le_total h.inv.tokens).trans h.machines
  have hfits : 100_010 * hashPerWatt < 2 ^ 128 := by norm_num [hashPerWatt]
  rw [← hpower] at hfits ⊢
  apply computeHashrate_of_single hboards (TokenRegistry.balanceCheck_of_has hhas)
  exact (Nat.mul_le_mul_right _ ((min_le_left _ _).trans hbalance)).trans_lt hfits

private theorem GameBoard.Powered.hashrate_eq (h : g.Powered) (plant : PowerPlant) :
    g.hashrate plant = min (g.balance g.asicTokenId plant.id) plant.watts * hashPerWatt := by
  rw [hashrate, h.computeHashrate]

section

variable {plants : List (NftPtr × PowerPlant)} {x : NftPtr × PowerPlant} {i : EntityID}

theorem rateSum_append (xs ys : List (NftPtr × PowerPlant)) :
    g.rateSum (xs ++ ys) = g.rateSum xs + g.rateSum ys := by
  simp [rateSum]

theorem rateSum_owned_le : g.rateSum (g.owned plants i) ≤ g.rateSum plants := by
  induction plants with
  | nil => exact Nat.le_refl _
  | cons x plants ih =>
    have hsum : g.rateSum (x :: plants) = g.hashrate x.2 + g.rateSum plants := by simp [rateSum]
    unfold owned at *
    rw [List.filter_cons]
    split
    · have hhead : g.rateSum (x :: plants.filter fun x => g.ownerOf x.1 = some i) =
          g.hashrate x.2 + g.rateSum (plants.filter fun x => g.ownerOf x.1 = some i) := by
        simp [rateSum]
      omega
    · omega

/-- What the loop over the plants holds after the plants of a list. -/
structure Accumulated (g : GameBoard) (d : ℕ) (plants : List (NftPtr × PowerPlant))
    (acc : ℕ × ExtTreeMap EntityID (ℕ × ℕ)) : Prop where
  total : acc.1 = g.rateSum plants
  shares : ∀ i : EntityID, acc.2[i]? =
    if g.owned plants i = [] then none else some (g.rateSum (g.owned plants i) * d, d)

/-- A plant of the board: it has a hashrate and an owner. -/
def GameBoard.Runs (g : GameBoard) (x : NftPtr × PowerPlant) : Prop :=
  x.2.computeHashrate g = .ok (g.hashrate x.2) ∧ ∃ nft, g.nfts.nfts[x.1]? = some nft

private theorem Accumulated.step {d : ℕ} {rest : List (NftPtr × PowerPlant)}
    {acc : ℕ × ExtTreeMap EntityID (ℕ × ℕ)} (h : Accumulated g d plants acc) (hd : 0 < d)
    (hruns : g.Runs x) (hfits : g.rateSum (plants ++ [x]) * d < 2 ^ 128) :
    ∃ acc', accumulateShares g d (x :: rest) acc = accumulateShares g d rest acc' ∧
      Accumulated g d (plants ++ [x]) acc' := by
  obtain ⟨total, res⟩ := acc
  obtain ⟨ptr, plant⟩ := x
  obtain ⟨hrate, nft, hnft⟩ := hruns
  have htotal : total = g.rateSum plants := h.total
  have hone : g.rateSum [(ptr, plant)] = g.hashrate plant := by simp [rateSum]
  have howner : g.ownerOf ptr = some nft.owner := by simp [ownerOf, hnft]
  have hindex : g.nfts.index ptr = .ok nft := by simp [NFTRegistry.index, hnft]
  have hsum := rateSum_append (g := g) plants [(ptr, plant)]
  rw [hone] at hsum
  rw [hsum, Nat.add_mul] at hfits
  have hother (i : EntityID) (hne : nft.owner ≠ i) :
      g.owned (plants ++ [(ptr, plant)]) i = g.owned plants i := by
    simp [owned, howner, hne]
  have hself : g.owned (plants ++ [(ptr, plant)]) nft.owner =
      g.owned plants nft.owner ++ [(ptr, plant)] := by
    simp [owned, howner]
  have hle : g.rateSum (g.owned plants nft.owner) * d ≤ g.rateSum plants * d :=
    Nat.mul_le_mul_right d rateSum_owned_le
  have hscaled : mul 128 (g.hashrate plant) d = .ok (g.hashrate plant * d) :=
    mul_of_lt (by omega)
  have hadd : add 128 total (g.hashrate plant) = .ok (total + g.hashrate plant) := by
    apply add_of_lt
    have h1 := Nat.le_mul_of_pos_right (g.rateSum plants) hd
    have h2 := Nat.le_mul_of_pos_right (g.hashrate plant) hd
    omega
  have hfinal : res[nft.owner]? =
      if g.owned plants nft.owner = [] then none
      else some (g.rateSum (g.owned plants nft.owner) * d, d) := h.shares nft.owner
  -- the new entry, in both cases of the map
  refine ⟨(total + g.hashrate plant, res.insert nft.owner
    (g.rateSum (g.owned (plants ++ [(ptr, plant)]) nft.owner) * d, d)), ?_, ?_, ?_⟩
  · rw [hself, rateSum_append, hone]
    by_cases hfirst : g.owned plants nft.owner = []
    · rw [if_pos hfirst] at hfinal
      simp only [accumulateShares, hrate, hindex, hscaled, hfinal, hadd, ok_bind, pure_eq_ok, hfirst]
      simp [rateSum]
    · rw [if_neg hfirst] at hfinal
      have hshare : add 128 (g.rateSum (g.owned plants nft.owner) * d) (g.hashrate plant * d) =
          .ok ((g.rateSum (g.owned plants nft.owner) + g.hashrate plant) * d) := by
        rw [Nat.add_mul]
        exact add_of_lt (by omega)
      simp only [accumulateShares, hrate, hindex, hscaled, hfinal, hshare, hadd, ok_bind, pure_eq_ok]
  · rw [hsum, htotal]
  · intro i
    rw [getElem?_insert]
    split
    · rename_i heq
      rw [← heq, if_neg (by rw [hself]; simp)]
    · rename_i hne
      rw [hother i hne]
      exact h.shares i

private theorem Accumulated.run {d : ℕ} {rest : List (NftPtr × PowerPlant)}
    {acc : ℕ × ExtTreeMap EntityID (ℕ × ℕ)} (h : Accumulated g d plants acc) (hd : 0 < d)
    (hruns : ∀ x ∈ rest, g.Runs x) (hfits : g.rateSum (plants ++ rest) * d < 2 ^ 128) :
    ∃ acc', accumulateShares g d rest acc = .ok acc' ∧ Accumulated g d (plants ++ rest) acc' := by
  induction rest generalizing plants acc with
  | nil => exact ⟨acc, rfl, by rwa [List.append_nil]⟩
  | cons x rest ih =>
    have hsplit : plants ++ x :: rest = (plants ++ [x]) ++ rest := by simp
    rw [hsplit] at hfits ⊢
    have hpre : g.rateSum (plants ++ [x]) * d < 2 ^ 128 := by
      have hle : g.rateSum (plants ++ [x]) ≤ g.rateSum ((plants ++ [x]) ++ rest) := by
        rw [rateSum_append (plants ++ [x])]
        exact Nat.le_add_right _ _
      exact (Nat.mul_le_mul_right d hle).trans_lt hfits
    obtain ⟨acc1, hstep, hacc⟩ := h.step hd (hruns x List.mem_cons_self) hpre
    rw [hstep]
    exact ih hacc (fun y hy => hruns y (List.mem_cons_of_mem _ hy)) hfits

end

theorem GameBoard.Powered.totalHashrate_le (h : g.Powered) :
    g.totalHashrate ≤ 100_010 * hashPerWatt := by
  have hids : (g.nfts.powerPlants.toList.map fun x => x.2.id).Nodup := by
    have hkeys : (g.nfts.powerPlants.toList.map (·.1)).Nodup := by
      rw [ExtTreeMap.map_fst_toList_eq_keys]
      exact ExtTreeMap.nodup_keys
    have heq : g.nfts.powerPlants.toList.map (fun x => x.2.id) =
        g.nfts.powerPlants.toList.map (·.1) := by
      apply List.map_congr_left
      intro x hx
      exact (h.inv.plants x.1 x.2 (ExtTreeMap.mem_toList_iff_getElem?_eq_some.mp hx)).1
    rwa [heq]
  have hmachines := (TokenRegistry.sum_balance_le_total (p := g.asicTokenId) h.inv.tokens
    hids).trans h.machines
  have hle (l : List (NftPtr × PowerPlant)) :
      g.rateSum l ≤
        ((l.map fun x => x.2.id).map (g.tokens.balance g.asicTokenId)).sum * hashPerWatt := by
    induction l with
    | nil => exact Nat.zero_le _
    | cons x l ih =>
      have hone : g.hashrate x.2 ≤ g.tokens.balance g.asicTokenId x.2.id * hashPerWatt := by
        rw [h.hashrate_eq]
        exact Nat.mul_le_mul_right _ (min_le_left _ _)
      simp only [rateSum, List.map_cons, List.sum_cons, Nat.add_mul] at ih ⊢
      exact Nat.add_le_add hone ih
  exact (hle _).trans (Nat.mul_le_mul_right _ hmachines)

theorem GameBoard.Powered.runs (h : g.Powered) {x : NftPtr × PowerPlant}
    (hx : x ∈ g.nfts.powerPlants.toList) : g.Runs x := by
  have hplant := h.inv.plants x.1 x.2 (ExtTreeMap.mem_toList_iff_getElem?_eq_some.mp hx)
  refine ⟨?_, Option.isSome_iff_exists.mp hplant.2⟩
  rw [h.computeHashrate, h.hashrate_eq]

private theorem Reachable.getUserHashrateShare (h : Reachable setup g) :
    ∃ shares, g.getUserHashrateShare = .ok shares ∧ ∀ i : EntityID, shares[i]? =
      if g.owned g.nfts.powerPlants.toList i = [] then none
      else some (g.ownerHashrate i * 100000 / g.totalHashrate, 100000) := by
  have hfits : g.rateSum ([] ++ g.nfts.powerPlants.toList) * 100000 < 2 ^ 128 := by
    have hle := Nat.mul_le_mul_right 100000 h.powered.totalHashrate_le
    have hlt : 100_010 * hashPerWatt * 100000 < 2 ^ 128 := by norm_num [hashPerWatt]
    exact hle.trans_lt hlt
  have hstart : Accumulated g 100000 [] (0, ∅) := ⟨rfl, fun i => by simp [owned]⟩
  obtain ⟨⟨total, res⟩, hacc, htotal, hshares⟩ :=
    hstart.run (by norm_num) (fun x hx => h.powered.runs hx) hfits
  have hsum : total = g.totalHashrate := htotal
  have hshares (i : EntityID) : res[i]? =
      if g.owned g.nfts.powerPlants.toList i = [] then none
      else some (g.ownerHashrate i * 100000, 100000) := hshares i
  simp only [GameBoard.getUserHashrateShare, hacc, ok_bind, pure_eq_ok]
  by_cases hpos : total > 0
  · rw [if_pos hpos]
    refine ⟨_, rfl, fun i => ?_⟩
    rw [ExtTreeMap.getElem?_map, hshares, hsum]
    split <;> rfl
  · rw [if_neg hpos]
    refine ⟨_, rfl, fun i => ?_⟩
    have hzero : g.totalHashrate = 0 := by omega
    have howner : g.ownerHashrate i = 0 :=
      Nat.eq_zero_of_le_zero (hzero ▸ rateSum_owned_le)
    rw [hshares, howner, Nat.zero_mul, Nat.zero_div]

private theorem half_le_iff {x total : ℕ} (hpos : 0 < total) :
    100000 ≤ x * 100000 / total * 2 ↔ total ≤ 2 * x := by
  have hhalf : 100000 ≤ x * 100000 / total * 2 ↔ 50000 ≤ x * 100000 / total := by omega
  rw [hhalf, Nat.le_div_iff_mul_le hpos]
  omega

section

variable {shares : List (EntityID × ℕ × ℕ)} {i : EntityID}

private theorem findDominating_eq (hfits : ∀ x ∈ shares, x.2.1 * 2 < 2 ^ 128) :
    findDominating shares =
      .ok ((shares.find? fun x => x.2.2 ≤ x.2.1 * 2).map (·.1)) := by
  induction shares with
  | nil => rfl
  | cons x shares ih =>
    obtain ⟨k, v⟩ := x
    have hmul : mul 128 v.1 2 = .ok (v.1 * 2) := mul_of_lt (hfits _ List.mem_cons_self)
    simp only [findDominating, hmul, ok_bind, pure_eq_ok]
    by_cases hhalf : v.2 ≤ v.1 * 2
    · rw [if_pos hhalf, List.find?_cons_of_pos (by simpa using hhalf)]
      rfl
    · rw [if_neg hhalf, List.find?_cons_of_neg (by simpa using hhalf)]
      exact ih fun y hy => hfits y (List.mem_cons_of_mem _ hy)

private theorem find?_map_eq_some_iff {p : EntityID × ℕ × ℕ → Bool}
    (hsorted : shares.Pairwise fun x y => x.1 < y.1) :
    (shares.find? p).map (·.1) = some i ↔
      (∃ v, (i, v) ∈ shares ∧ p (i, v)) ∧ ∀ x ∈ shares, p x → i ≤ x.1 := by
  induction shares with
  | nil => simp
  | cons x shares ih =>
    obtain ⟨hhead, htail⟩ := List.pairwise_cons.mp hsorted
    by_cases hp : p x
    · rw [List.find?_cons_of_pos hp, Option.map_some, Option.some.injEq]
      constructor
      · rintro rfl
        refine ⟨⟨x.2, List.mem_cons_self, hp⟩, fun y hy _ => ?_⟩
        rcases List.mem_cons.mp hy with rfl | hy
        · exact Nat.le_refl _
        · exact (hhead y hy).le
      · rintro ⟨⟨v, hmem, _⟩, hleast⟩
        rcases List.mem_cons.mp hmem with rfl | hmem
        · rfl
        · have hlt : x.1 < i := hhead _ hmem
          exact absurd (hleast x List.mem_cons_self hp) (Nat.not_le_of_lt hlt)
    · rw [List.find?_cons_of_neg hp, ih htail]
      constructor
      · rintro ⟨⟨v, hmem, hv⟩, hleast⟩
        refine ⟨⟨v, List.mem_cons_of_mem _ hmem, hv⟩, fun y hy hy' => ?_⟩
        rcases List.mem_cons.mp hy with rfl | hy
        · exact absurd hy' hp
        · exact hleast y hy hy'
      · rintro ⟨⟨v, hmem, hv⟩, hleast⟩
        rcases List.mem_cons.mp hmem with rfl | hmem
        · exact absurd hv hp
        · exact ⟨⟨v, hmem, hv⟩, fun y hy => hleast y (List.mem_cons_of_mem _ hy)⟩

end

/-- The rules by which a game ends, on the exact hashrates. -/
structure GameBoard.EndsExactly (g : GameBoard) : Prop where
  total : ∃ finished, g.gameIsFinished = .ok finished
  expired : g.gameIsFinished = .ok (some .timeExpired) ↔ g.finishTime ≤ g.elapsedTime
  dominated : ∀ i : EntityID, g.gameIsFinished = .ok (some (.dominatingPlayer i)) ↔
    g.elapsedTime < g.finishTime ∧ 3 * g.finishTime / 4 ≤ g.elapsedTime ∧
      g.Dominates i ∧ ∀ j : EntityID, g.Dominates j → i ≤ j

private theorem mem_shares_iff {shares : ExtTreeMap EntityID (ℕ × ℕ)} {i : EntityID}
    (hshares : ∀ i : EntityID, shares[i]? =
      if g.owned g.nfts.powerPlants.toList i = [] then none
      else some (g.ownerHashrate i * 100000 / g.totalHashrate, 100000)) :
    (∃ v, (i, v) ∈ shares.toList ∧ v.2 ≤ v.1 * 2) ↔ g.Dominates i := by
  simp only [ExtTreeMap.mem_toList_iff_getElem?_eq_some, hshares]
  constructor
  · rintro ⟨v, hv, hhalf⟩
    split at hv
    · cases hv
    · cases hv
      -- a share of nothing is zero
      have hpos : 0 < g.totalHashrate := by
        rcases Nat.eq_zero_or_pos g.totalHashrate with hzero | hpos
        · simp [hzero] at hhalf
        · exact hpos
      exact ⟨hpos, (half_le_iff hpos).mp hhalf⟩
  · rintro ⟨hpos, hhalf⟩
    have howned : g.owned g.nfts.powerPlants.toList i ≠ [] := by
      intro hnil
      have hzero : g.ownerHashrate i = 0 := by simp [ownerHashrate, hnil, rateSum]
      omega
    exact ⟨_, if_neg howned, (half_le_iff hpos).mpr hhalf⟩

theorem Reachable.findDominating (h : Reachable setup g) :
    ∃ shares found, g.getUserHashrateShare = .ok shares ∧
      findDominating shares.toList = .ok found ∧ ∀ i : EntityID, found = some i ↔
        g.Dominates i ∧ ∀ j : EntityID, g.Dominates j → i ≤ j := by
  obtain ⟨shares, hok, hshares⟩ := h.getUserHashrateShare
  have hfits : ∀ x ∈ shares.toList, x.2.1 * 2 < 2 ^ 128 := by
    rintro ⟨i, v⟩ hx
    rw [ExtTreeMap.mem_toList_iff_getElem?_eq_some, hshares] at hx
    split at hx
    · cases hx
    · cases hx
      have hle : g.ownerHashrate i * 100000 / g.totalHashrate ≤ 100000 :=
        Nat.div_le_of_le_mul (Nat.mul_le_mul_right _ rateSum_owned_le)
      show g.ownerHashrate i * 100000 / g.totalHashrate * 2 < 2 ^ 128
      omega
  have hsorted : shares.toList.Pairwise fun x y => x.1 < y.1 :=
    ExtTreeMap.ordered_keys_toList.imp fun hlt => Nat.compare_eq_lt.mp hlt
  refine ⟨shares, _, hok, findDominating_eq hfits, fun i => ?_⟩
  rw [find?_map_eq_some_iff hsorted]
  simp only [decide_eq_true_eq, mem_shares_iff hshares]
  refine and_congr_right fun _ => ⟨fun hleast j hj => ?_, fun hleast x hx hhalf => ?_⟩
  · obtain ⟨v, hv, hhalf⟩ := (mem_shares_iff hshares).mpr hj
    exact hleast (j, v) hv hhalf
  · exact hleast x.1 ((mem_shares_iff hshares).mp ⟨x.2, hx, hhalf⟩)

private theorem Reachable.endsExactly (h : Reachable setup g)
    (hfinish : g.finishTime ≤ 2 ^ 53 - 1) : g.EndsExactly := by
  obtain ⟨shares, found, hok, hfound, hleast⟩ := h.findDominating
  have hmul : mul 64 3 g.finishTime = .ok (3 * g.finishTime) := mul_of_lt (by omega)
  by_cases hexpired : g.finishTime ≤ g.elapsedTime
  · have heq : g.gameIsFinished = .ok (some .timeExpired) := by
      simp [gameIsFinished, hexpired]
    refine ⟨⟨_, heq⟩, by simp [heq, hexpired], fun i => ?_⟩
    rw [heq]
    constructor
    · intro hi
      cases hi
    · intro hi
      omega
  · by_cases hlast : 3 * g.finishTime / 4 ≤ g.elapsedTime
    · have heq : g.gameIsFinished = .ok (found.map .dominatingPlayer) := by
        simp [gameIsFinished, hexpired, hmul, hlast, hok, hfound]
      refine ⟨⟨_, heq⟩, ?_, fun i => ?_⟩
      · rw [heq]
        cases found <;> simp [hexpired]
      · have hi := hleast i
        rw [heq]
        cases found with
        | none => simpa [hlast, Nat.lt_of_not_le hexpired] using hi
        | some k => simpa [hlast, Nat.lt_of_not_le hexpired] using hi
    · have heq : g.gameIsFinished = .ok none := by
        simp [gameIsFinished, hexpired, hmul, hlast]
      refine ⟨⟨_, heq⟩, by simp [heq, hexpired], fun i => by simp [heq, hlast]⟩

namespace GameBoard

/-- The boards differ only in the log and its counter. -/
def Logged (g g' : GameBoard) : Prop :=
  g' = { g with eventLog := g'.eventLog, eventLogCounter := g'.eventLogCounter }

/-- From now on every call of a registered player is refused for the same reason and changes the
log alone. It aborts when the counter of the log is at its maximum. -/
def Final (g : GameBoard) (reason : FinishReason) : Prop :=
  ∀ g', Later g g' → g.Logged g' ∧
    ∀ mv (key : String) sender, g'.usersByKey[key]? = some sender →
      if g'.eventLogCounter + 1 < 2 ^ 64 then
        ∃ g'', g'.play mv key = .ok (.error (.gameIsFinished reason), g'') ∧ g'.Logged g''
      else g'.play mv key = .error .overflow

end GameBoard

private theorem GameBoard.Logged.trans {g'' : GameBoard} (h : g.Logged g') (h' : g'.Logged g'') :
    g.Logged g'' := by
  unfold Logged at *
  rw [h] at h'
  exact h'

private theorem GameBoard.Logged.ignored (h : g.Logged g') : g.Ignored g' := by
  have hmoves : g'.playerMoveSequence = g.playerMoveSequence := by rw [h]
  unfold Ignored
  rw [hmoves]
  exact h

private theorem play_finished (hfinished : g.gameIsFinished = .ok (some reason))
    (hkey : g.usersByKey[key]? = some sender) :
    g.play mv key =
      (g.addToEventLog sender (.moveRejectReason (.gameIsFinished reason))).bind fun g =>
        .ok (.error (.gameIsFinished reason), g) := by
  simp only [GameBoard.play, hkey, hfinished, ok_bind]
  rfl

private theorem addToEventLog_of_lt {e : LogEvent} (h : g.eventLogCounter + 1 < 2 ^ 64) :
    ∃ g', g.addToEventLog sender e = .ok g' ∧ g.Logged g' ∧
      g'.eventLogCounter = g.eventLogCounter + 1 := by
  rw [addToEventLog, add_of_lt h]
  exact ⟨_, rfl, rfl, rfl⟩

private theorem addToEventLog_of_not_lt {e : LogEvent} (h : ¬ g.eventLogCounter + 1 < 2 ^ 64) :
    g.addToEventLog sender e = .error .overflow := by
  rw [addToEventLog, add, if_neg h]
  rfl

private theorem play_logged (hfinished : g.gameIsFinished = .ok (some reason))
    (h : g.play mv key = .ok (r, g')) : g.Logged g' := by
  cases hkey : g.usersByKey[key]? with
  | none =>
    simp only [GameBoard.play, hkey, pure_eq_ok, Except.ok.injEq, Prod.mk.injEq] at h
    exact h.2 ▸ rfl
  | some sender =>
    rw [play_finished hfinished hkey] at h
    change (g.addToEventLog sender _ >>= fun g => _) = _ at h
    simp only [addToEventLog, bind_eq_ok_iff, pure_eq_ok, Except.ok.injEq, Prod.mk.injEq] at h
    obtain ⟨_, ⟨_, _, rfl⟩, _, rfl⟩ := h
    rfl

private theorem Later.logged (hl : Later g g') (hfinished : g.gameIsFinished = .ok (some reason)) :
    g.Logged g' := by
  induction hl with
  | refl => rfl
  | tail _ hstep ih =>
    obtain ⟨mv, key, r, hplay⟩ := hstep
    exact ih.trans (play_logged ((gameIsFinished_ignored ih.ignored).trans hfinished) hplay)

private theorem final_of_finished (hfinished : g.gameIsFinished = .ok (some reason)) :
    g.Final reason := by
  intro g' hl
  have hlogged := hl.logged hfinished
  have hfinished' := (gameIsFinished_ignored hlogged.ignored).trans hfinished
  refine ⟨hlogged, fun mv key sender hkey => ?_⟩
  rw [play_finished hfinished' hkey]
  split
  · rename_i hlt
    obtain ⟨g'', hlog, hlogged', _⟩ := addToEventLog_of_lt hlt
    exact ⟨g'', by rw [hlog]; rfl, hlogged'⟩
  · rename_i hlt
    rw [addToEventLog_of_not_lt hlt]
    rfl

/-- The end of the game is final, and the exact shares of the total hashrate decide it. -/
theorem ending_final (h : Reachable setup g) (hfinish : g.finishTime ≤ 2 ^ 53 - 1) :
    (∀ reason, g.gameIsFinished = .ok (some reason) → g.Final reason) ∧ g.EndsExactly :=
  ⟨fun _ hfinished => final_of_finished hfinished, h.endsExactly hfinish⟩

def expiry : MoveEnvelope := { d := .heartbeat, sequence := 2, timeMillis := 2_000_000 }

private theorem twoPlayers_expires : ∃ g, Reachable twoPlayers g ∧ g.finishTime ≤ 2 ^ 53 - 1 ∧
    g.gameIsFinished = .ok (some .timeExpired) ∧ g.eventLogCounter < 2 ^ 64 ∧
    g.usersByKey["alice"]?.isSome := by
  have h : returns (do
      let g ← GameBoard.new twoPlayers
      let g' ← playAll [(opening, "alice"), (expiry, "alice")] g
      pure (g, g')) (fun x => x.2.finishTime ≤ 2 ^ 53 - 1 ∧
        x.2.gameIsFinished = .ok (some .timeExpired) ∧ x.2.eventLogCounter < 2 ^ 64 ∧
        x.2.usersByKey["alice"]?.isSome) := by
    decide +kernel
  obtain ⟨x, hok, htest⟩ := returns_iff.mp h
  simp only [bind_eq_ok_iff, pure_eq_ok, Except.ok.injEq] at hok
  obtain ⟨g, hnew, g', hrun, rfl⟩ := hok
  exact ⟨g', (Reachable.new hnew).later (later_of_playAll hrun), of_decide_eq_true htest⟩

theorem ending_final_expired : ∃ g, Reachable twoPlayers g ∧ g.Final .timeExpired ∧
    g.EndsExactly := by
  obtain ⟨g, hg, hfinish, hfinished, _⟩ := twoPlayers_expires
  obtain ⟨hfinal, hexact⟩ := ending_final hg hfinish
  exact ⟨g, hg, hfinal .timeExpired hfinished, hexact⟩

private theorem later_counter (hfinished : g.gameIsFinished = .ok (some reason))
    (hkey : g.usersByKey[key]? = some sender) (n : ℕ) (hlt : g.eventLogCounter + n < 2 ^ 64) :
    ∃ g', Later g g' ∧ g'.eventLogCounter = g.eventLogCounter + n := by
  induction n with
  | zero => exact ⟨g, .refl, rfl⟩
  | succ n ih =>
    obtain ⟨g1, hl, hcounter⟩ := ih (by omega)
    have hlogged := hl.logged hfinished
    have hkey1 : g1.usersByKey[key]? = some sender := by rw [hlogged]; exact hkey
    have hfinished1 := (gameIsFinished_ignored hlogged.ignored).trans hfinished
    have hlt1 : g1.eventLogCounter + 1 < 2 ^ 64 := by omega
    obtain ⟨g2, hlog, _, hcounter2⟩ := addToEventLog_of_lt hlt1
    have hplay : g1.play opening key = .ok (.error (.gameIsFinished reason), g2) := by
      rw [play_finished hfinished1 hkey1, hlog]
      rfl
    exact ⟨g2, hl.tail ⟨opening, key, _, hplay⟩, by omega⟩

/-- After 2^64 - 1 logged events the next call on a finished game aborts. -/
theorem exhausted_log_aborts : ∃ g g' sender, Reachable twoPlayers g ∧
    g.finishTime ≤ 2 ^ 53 - 1 ∧ g.gameIsFinished = .ok (some .timeExpired) ∧ Later g g' ∧
    g'.usersByKey["alice"]? = some sender ∧ g'.play opening "alice" = .error .overflow := by
  obtain ⟨g, hg, hfinish, hfinished, hcounter, hkey⟩ := twoPlayers_expires
  obtain ⟨sender, hsender⟩ := Option.isSome_iff_exists.mp hkey
  obtain ⟨g', hl, hmax⟩ := later_counter hfinished hsender (2 ^ 64 - 1 - g.eventLogCounter) (by omega)
  obtain ⟨hlogged, hcalls⟩ := final_of_finished hfinished g' hl
  have hsender' : g'.usersByKey["alice"]? = some sender := by rw [hlogged]; exact hsender
  have hcall := hcalls opening "alice" sender hsender'
  rw [if_neg (by omega)] at hcall
  exact ⟨g, g', sender, hg, hfinish, hfinished, hl, hsender', hcall⟩

end JudicaVM
