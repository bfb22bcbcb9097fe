import JudicaVM.Board.Lookups
import JudicaVM.Board.Shipping

/-!
# The bills of minted plants

The materials of a plant are not burned: they wait on the account of the plant. Only a shipment takes
anything from there, and a shipment may take any token, so the plants of a run keep what they were
built from exactly as long as no shipment touches it.
-/

namespace JudicaVM

open Checked Std OrderedMap Transition GameBoard

variable {setup : GameSetup} {g g0 g' : GameBoard} {mv : MoveEnvelope} {key : String}
  {r : Except MoveRejectReason Unit} {sender : EntityID} {i : NftPtr} {c : Currency}
  {d : MintPowerPlant} {calls before after : List (MoveEnvelope × String)}

namespace GameBoard

/-- What the bill of a plant says of a material: the price in it, times the scale. -/
def billOf (g : GameBoard) (d : MintPowerPlant) (c : Currency) : ℕ :=
  ((((g.plantPrices d.plantType).getD []).filter (·.1 = c)).map (·.2)).sum * d.scale

/-- A call mints the plant `i`. -/
def Mints (g : GameBoard) (mv : MoveEnvelope) (key : String) (i : NftPtr) (d : MintPowerPlant) :
    Prop :=
  ∃ r g' sender move g1, g.play mv key = .ok (r, g') ∧ Executes g mv key sender move g1 ∧
    (move = .mintPowerPlant d ∨ move = .superMintPowerPlant d) ∧
    g.nfts.powerPlants[i]? = none ∧ g'.nfts.powerPlants[i]?.isSome

/-- A call of the run mints the plant `i`. -/
def MintedIn (calls : List (MoveEnvelope × String)) (g0 : GameBoard) (i : NftPtr)
    (d : MintPowerPlant) : Prop :=
  ∃ b mv key, CallAt calls g0 b mv key ∧ b.Mints mv key i d

/-- The minted plants hold their bills, which together fit the supply of each material. -/
structure KeepsBills (calls : List (MoveEnvelope × String)) (g0 g : GameBoard) : Prop where
  each : ∀ i d, MintedIn calls g0 i d → ∀ c, g.billOf d c ≤ g.balance c i
  together : ∀ plants : List (NftPtr × MintPowerPlant), (plants.map (·.1)).Nodup →
    (∀ x ∈ plants, MintedIn calls g0 x.1 x.2) →
    ∀ c, (plants.map fun x => g.billOf x.2 c).sum ≤ g.total c

/-- Every shipment from a plant minted before leaves what the bill says. -/
def SparesBills (calls : List (MoveEnvelope × String)) (g0 : GameBoard) : Prop :=
  ∀ before mv key after b sender x b1 d, calls = before ++ (mv, key) :: after →
    playAll before g0 = .ok b → Executes b mv key sender (.removeTokens x) b1 →
    b1.CanShip x sender → x.amount ≤ b1.balance x.currency x.nftId →
    MintedIn before g0 x.nftId d →
    b1.billOf d x.currency + x.amount ≤ b1.balance x.currency x.nftId

end GameBoard

private theorem billOf_eq (hext : g.Extends g') : g'.billOf d = g.billOf d := by
  unfold billOf
  rw [hext.prices_eq]

private theorem filter_key {prices : List (Currency × ℕ)} {x : Currency × ℕ}
    (hnodup : (prices.map (·.1)).Nodup) (hx : x ∈ prices) :
    prices.filter (·.1 = x.1) = [x] := by
  induction prices with
  | nil => cases hx
  | cons y prices ih =>
    obtain ⟨hy, hnodup⟩ := List.nodup_cons.mp hnodup
    rcases List.mem_cons.mp hx with rfl | hx
    · rw [List.filter_cons_of_pos (by simp), List.filter_eq_nil_iff.mpr]
      intro z hz heq
      exact hy (List.mem_map.mpr ⟨z, hz, of_decide_eq_true heq⟩)
    · have hne : y.1 ≠ x.1 := fun heq => hy (List.mem_map.mpr ⟨x, hx, heq.symm⟩)
      rw [List.filter_cons_of_neg (by simpa using hne), ih hnodup hx]

private theorem pays_of_missingMaterial {owner : EntityID} {bill : List (Currency × ℕ)}
    (h : PowerPlantProducer.missingMaterial g owner bill = .ok none) :
    ∀ x ∈ bill, x.2 ≤ g.balance x.1 owner := by
  induction bill with
  | nil => exact fun x hx => by cases hx
  | cons y bill ih =>
    simp only [PowerPlantProducer.missingMaterial, bind_eq_ok_iff] at h
    obtain ⟨balance, hbalance, h⟩ := h
    split at h
    · cases h
    · rename_i henough
      intro x hx
      rcases List.mem_cons.mp hx with rfl | hx
      · obtain ⟨_, rfl⟩ := TokenRegistry.balanceCheck_eq_ok_iff.mp hbalance
        exact Nat.le_of_not_lt henough
      · exact ih h x hx

private theorem mintPowerPlant_keeps {x : Except TradeError Unit} (hi : g.Inv)
    (hstocked : g.Stocked)
    (hsender : g.IsUser sender)
    (h : PowerPlantProducer.mintPowerPlant g d.scale d.location d.plantType sender = .ok (x, g'))
    (hnone : g.nfts.powerPlants[i]? = none) (hsome : g'.nfts.powerPlants[i]?.isSome) :
    g.billOf d c ≤ g'.balance c i := by
  obtain ⟨prices, hprices, hsound⟩ := hstocked d.plantType
  have h' := h
  simp only [PowerPlantProducer.mintPowerPlant, bind_eq_ok_iff] at h'
  obtain ⟨bill, hbill, missing, hmissing, h'⟩ := h'
  cases missing with
  | some currency =>
    cases h'
    rw [hnone] at hsome
    cases hsome
  | none =>
    simp only [EntityIDAllocator.make, PowerPlant.new, bind_eq_ok_iff, add_eq_ok_iff,
      mul_eq_ok_iff] at h'
    obtain ⟨_, ⟨hroom, _⟩, _, ⟨_, ⟨hwatts, _⟩, _⟩, _⟩ := h'
    have heq := rawMaterialsBill_eq hprices hbill
    have hkeys : bill.map (·.1) = prices.map (·.1) := by
      rw [heq, List.map_map]
      rfl
    have hnodup : (bill.map (·.1)).Nodup := hkeys ▸ hsound.nodup
    have hhas := PowerPlantProducer.has_of_bill hi hbill
    rw [mintPowerPlant_eq hi hbill hhas hnodup (pays_of_missingMaterial hmissing) hwatts,
      if_pos hroom] at h
    cases h
    have hid : i = g.alloc + 1 := by
      by_contra hne
      have hsome' : (g.nfts.powerPlants.insert (g.alloc + 1) _)[i]?.isSome := hsome
      rw [OrderedMap.getElem?_insert, if_neg (Ne.symm hne), hnone] at hsome'
      cases hsome'
    subst hid
    have hne : sender ≠ g.alloc + 1 := by
      rintro rfl
      exact hi.not_isUser (Nat.lt_succ_self _) hsender
    unfold billOf
    rw [hprices, Option.getD_some]
    by_cases hc : c ∈ prices.map (·.1)
    · obtain ⟨y, hy, rfl⟩ := List.mem_map.mp hc
      have hmem : (y.1, y.2 * d.scale) ∈ bill := heq ▸ List.mem_map.mpr ⟨y, hy, rfl⟩
      have hbalance := billed_balance_of_mem (x := (y.1, y.2 * d.scale)) hhas hnodup hne hmem
      rw [filter_key hsound.nodup hy]
      show [y.2].sum * d.scale ≤ (g.tokens.billed sender (g.alloc + 1) bill).balance y.1 _
      rw [hbalance, List.sum_singleton]
      exact Nat.le_add_left _ _
    · rw [List.filter_eq_nil_iff.mpr, List.map_nil, List.sum_nil, Nat.zero_mul]
      · exact Nat.zero_le _
      · intro y hy heq
        exact hc (List.mem_map.mpr ⟨y, hy, of_decide_eq_true heq⟩)

private theorem playInner_mints {move : GameMove} (hi : g.Inv) (hstocked : g.Stocked)
    (hsender : g.IsUser sender)
    (hmove : move = .mintPowerPlant d ∨ move = .superMintPowerPlant d)
    (h : g.playInner move sender = .ok (r, g')) (hnone : g.nfts.powerPlants[i]? = none)
    (hsome : g'.nfts.powerPlants[i]?.isSome) : g.billOf d c ≤ g'.balance c i := by
  rcases hmove with rfl | rfl
  · simp only [playInner, bind_eq_ok_iff] at h
    obtain ⟨x, hmint, h⟩ := h
    cases h
    exact mintPowerPlant_keeps hi hstocked hsender hmint hnone hsome
  · simp only [playInner, bind_eq_ok_iff] at h
    obtain ⟨x, hmint, h⟩ := h
    cases h
    obtain ⟨g1, htrades, hrest⟩ := PowerPlantProducer.superMint_stages hi hsender hmint
    have hnfts : g1.nfts = g.nfts := by
      apply htrades.nfts_eq
      intro e he htouches
      obtain ⟨_, htrade⟩ := he
      cases e <;> simp_all [ConstantFunctionMarketMaker.IsTrade, Event.TouchesNfts]
    have hext := htrades.extends hi
    rw [← hnfts] at hnone
    rcases hrest with heq | hmint
    · rw [heq, hnone] at hsome
      cases hsome
    · rw [← billOf_eq hext]
      exact mintPowerPlant_keeps (htrades.inv hi) (hstocked.mono hext) (hext.isUser hsender) hmint
        hnone hsome

private theorem Reachable.plant_not_lockup {l : CoinLockup} (h : Reachable setup g)
    (hplant : g.nfts.powerPlants[i]?.isSome) (hl : l ∈ lockups g.queue) : l.id ≠ i := by
  rintro rfl
  obtain ⟨owner, hsealed⟩ := h.lockupsSealed.sealed l hl
  rw [hsealed.plant] at hplant
  cases hplant

private theorem play_plant (h : Reachable setup g) (hplay : g.play mv key = .ok (r, g'))
    (hplant : g.nfts.powerPlants[i]?.isSome) :
    g.balance c i ≤ g'.balance c i ∨
      ∃ sender x g1, Executes g mv key sender (.removeTokens x) g1 ∧ g1.CanShip x sender ∧
        x.nftId = i ∧ x.currency = c ∧ x.amount ≤ g1.balance c i ∧
        g'.balance c i + x.amount = g1.balance c i := by
  have hi := h.inv
  rcases play_cases hplay with ⟨hnotes, _⟩ | ⟨sender, move, g1, g2, hexec, hinner, hnotes⟩
  · left
    rw [hnotes]
    exact le_rfl
  have hnft : g.IsNft i := by
    obtain ⟨plant, hplant⟩ := Option.isSome_iff_exists.mp hplant
    exact (hi.plants i plant hplant).2
  obtain ⟨clocked, hround⟩ := hexec.round h
  have hfirst : g.balance c i ≤ g1.balance c i :=
    hround.balance_mono hi hnft fun l hl _ => h.plant_not_lockup hplant hl
  have hi1 := hexec.inv hi
  have hext := hexec.extends_board hi
  have hsender := hext.isUser (hexec.isUser hi)
  have hnft1 : g1.IsNft i := by rwa [IsNft, hround.nfts_eq]
  have hlast : g'.balance c i = g2.balance c i := by
    rw [hnotes]
    rfl
  rw [hlast]
  rcases playInner_ships hi1 hsender (hexec.party_dest hi) hinner with
    ⟨_, htrace⟩ | ⟨x, rfl, hship, hlockup⟩
  · have hne : i ≠ sender := by
      rintro rfl
      exact hi1.not_isUser_of_isNft hnft1 hsender
    have hsecond := htrace.balance_mono (p := c) hi1 (fun e he hpays => hne (he i hpays))
      (hi1.party_of_nft hnft1)
    exact .inl (hfirst.trans hsecond)
  · have hid : i ≠ g1.alloc + 1 := by
      rintro rfl
      exact hi1.not_isNft (Nat.lt_succ_self _) hnft1
    rw [CoinLockup.lockup_balance hi1 hid hlockup]
    by_cases htaken : x.currency = c ∧ x.nftId = i ∧ x.amount ≤ g1.balance c i
    · obtain ⟨hcurrency, hnftId, hamount⟩ := htaken
      rw [if_pos ⟨hcurrency, hnftId, hamount⟩]
      exact .inr ⟨sender, x, g1, hexec, hship, hnftId, hcurrency, hamount, Nat.sub_add_cancel hamount⟩
    · rw [if_neg htaken]
      exact .inl hfirst

private theorem play_ships {x : RemoveTokens} {g1 : GameBoard} (hi : g.Inv)
    (hexec : Executes g mv key sender (.removeTokens x) g1) (hship : g1.CanShip x sender)
    (hamount : x.amount ≤ g1.balance x.currency x.nftId) (hplay : g.play mv key = .ok (r, g')) :
    g'.balance x.currency x.nftId + x.amount = g1.balance x.currency x.nftId := by
  obtain ⟨g2, hinner, hnotes⟩ := hexec.play_eq hplay
  have hi1 := hexec.inv hi
  simp only [playInner, playRemoveTokens_ships hi1 hship, bind_eq_ok_iff] at hinner
  obtain ⟨_, hlockup, hinner⟩ := hinner
  cases hinner
  have hid : x.nftId ≠ g1.alloc + 1 := by
    intro heq
    obtain ⟨nft, hnft, _⟩ := hship.nft
    have hisnft : g1.IsNft x.nftId := Option.isSome_iff_exists.mpr ⟨nft, hnft⟩
    exact hi1.not_isNft (heq ▸ Nat.lt_succ_self g1.alloc) hisnft
  rw [hnotes]
  show g2.balance _ _ + _ = _
  rw [CoinLockup.lockup_balance hi1 hid hlockup, if_pos ⟨rfl, rfl, hamount⟩]
  exact Nat.sub_add_cancel hamount

private theorem mints_of_sane (hsane : ∀ b, mv.d.sanitize b = .ok (.superMintPowerPlant d))
    (hplay : g.play mv key = .ok (r, g')) (hnone : g.nfts.powerPlants[i]? = none)
    (hsome : g'.nfts.powerPlants[i]?.isSome) : g.Mints mv key i d := by
  rcases play_cases hplay with ⟨hnotes, _⟩ | ⟨sender, move, g1, g2, hexec, _, _⟩
  · rw [hnotes] at hsome
    exact absurd hsome (by rw [show (g.withNotes g').nfts = g.nfts from rfl, hnone]; simp)
  · have hmove := (hsane _).symm.trans hexec.sane
    cases hmove
    exact ⟨r, g', sender, _, g1, hplay, hexec, .inr rfl, hnone, hsome⟩

namespace GameBoard

private theorem CallAt.concat {b : GameBoard} {mv' : MoveEnvelope} {key' : String}
    (h : CallAt (before ++ [(mv, key)]) g0 b mv' key') :
    CallAt before g0 b mv' key' ∨ (mv' = mv ∧ key' = key ∧ playAll before g0 = .ok b) := by
  obtain ⟨first, rest, heq, hfirst⟩ := h
  rcases List.eq_nil_or_concat rest with rfl | ⟨rest, last, rfl⟩
  · obtain ⟨rfl, hlast⟩ := List.append_inj' heq rfl
    cases hlast
    exact .inr ⟨rfl, rfl, hfirst⟩
  · left
    rw [List.concat_eq_append, ← List.cons_append, ← List.append_assoc] at heq
    exact ⟨first, rest, (List.append_inj' heq rfl).1, hfirst⟩

private theorem MintedIn.append (h : MintedIn before g0 i d) : MintedIn
    (before ++ after) g0 i d := by
  obtain ⟨b, mv, key, ⟨first, rest, rfl, hfirst⟩, hmints⟩ := h
  exact ⟨b, mv, key, ⟨first, rest ++ after, by simp, hfirst⟩, hmints⟩

private theorem MintedIn.concat {b : GameBoard} (hb : playAll before g0 = .ok b)
    (h : MintedIn (before ++ [(mv, key)]) g0 i d) : MintedIn before g0 i d ∨ b.Mints mv key i d := by
  obtain ⟨b', mv', key', hcall, hmints⟩ := h
  rcases hcall.concat with hcall | ⟨rfl, rfl, hb'⟩
  · exact .inl ⟨b', mv', key', hcall, hmints⟩
  · cases hb.symm.trans hb'
    exact .inr hmints

private theorem SparesBills.earlier (h : SparesBills (before ++ after) g0) :
    SparesBills before g0 := by
  intro first mv key rest b sender x b1 d heq
  exact h first mv key (rest ++ after) b sender x b1 d (by rw [heq]; simp)

end GameBoard

private theorem minted_billed (hnew : GameBoard.new setup = .ok g0)
    (hrun : playAll calls g0 = .ok g)
    (hspares : SparesBills calls g0) (hminted : MintedIn calls g0 i d) :
    g.nfts.powerPlants[i]?.isSome ∧ ∀ c, g.billOf d c ≤ g.balance c i := by
  induction calls using List.reverseRecOn generalizing g i d with
  | nil =>
    obtain ⟨b, mv, key, ⟨first, rest, heq, _⟩, _⟩ := hminted
    simp at heq
  | append_singleton before call ih =>
    obtain ⟨mv, key⟩ := call
    simp only [playAll_append, playAll, bind_eq_ok_iff, pure_eq_ok, Except.ok.injEq] at hrun
    obtain ⟨b, hb, ⟨r, g'⟩, hplay, rfl⟩ := hrun
    have hreach : Reachable setup b := (Reachable.new hnew).later (later_of_playAll hb)
    have htrace := play_trace hreach.inv hplay
    have hext := htrace.extends hreach.inv
    rcases hminted.concat hb with hold | ⟨r', g2, sender, move, g1, hplay', hexec, hmove, hnone, hsome⟩
    · obtain ⟨hplant, hbill⟩ := ih hb hspares.earlier hold
      obtain ⟨plant, hplant'⟩ := Option.isSome_iff_exists.mp hplant
      refine ⟨?_, fun c => ?_⟩
      · exact Option.isSome_iff_exists.mpr ⟨plant, (htrace.grows hreach.inv).plants i plant hplant'⟩
      · show g'.billOf d c ≤ g'.balance c i
        rw [billOf_eq hext]
        rcases play_plant (c := c) hreach hplay hplant with
          hle | ⟨sender, x, g1, hexec, hship, rfl, rfl, hamount, htaken⟩
        · exact (hbill c).trans hle
        · have hleft := hspares before mv key [] b sender x g1 d rfl hb hexec hship hamount hold
          rw [billOf_eq (hexec.extends_board hreach.inv)] at hleft
          omega
    · cases hplay.symm.trans hplay'
      refine ⟨hsome, fun c => ?_⟩
      obtain ⟨g3, hinner, hnotes⟩ := hexec.play_eq hplay
      have hext1 := hexec.extends_board hreach.inv
      have hi1 := hexec.inv hreach.inv
      obtain ⟨clocked, hround⟩ := hexec.round hreach
      have hkeeps := playInner_mints (c := c) hi1 (hreach.stocked.mono hext1)
        (hext1.isUser (hexec.isUser hreach.inv)) hmove hinner (hround.nfts_eq ▸ hnone)
        (by rw [hnotes] at hsome; exact hsome)
      rw [billOf_eq hext1] at hkeeps
      show g'.billOf d c ≤ g'.balance c i
      rw [billOf_eq hext, hnotes]
      exact hkeeps

private theorem keepsBills (hnew : GameBoard.new setup = .ok g0) (hrun : playAll calls g0 = .ok g)
    (hspares : SparesBills calls g0) : KeepsBills calls g0 g where
  each _ _ hminted := (minted_billed hnew hrun hspares hminted).2
  together plants hnodup hminted c := by
    have hreach : Reachable setup g := (Reachable.new hnew).later (later_of_playAll hrun)
    have hle : (plants.map fun x => g.billOf x.2 c).sum ≤
        (plants.map fun x => g.tokens.balance c x.1).sum := by
      apply List.sum_le_sum
      intro x hx
      exact (minted_billed hnew hrun hspares (hminted x hx)).2 c
    have hfits := TokenRegistry.sum_balance_le_total (p := c) hreach.inv.tokens hnodup
    rw [List.map_map] at hfits
    exact hle.trans hfits

/-- On every board of a run the minted plants keep their bills, if and only if the shipments of the
run leave them there. -/
theorem bills_kept (hnew : GameBoard.new setup = .ok g0) (hrun : playAll calls g0 = .ok g) :
    (∀ before after b, calls = before ++ after → playAll before g0 = .ok b →
      KeepsBills before g0 b) ↔ SparesBills calls g0 := by
  constructor
  · intro hkeeps before mv key after b sender x b1 d hcalls hb hexec hship hamount hminted
    obtain ⟨r, b', hplay⟩ := CallAt.returns ⟨before, after, hcalls, hb⟩ hrun
    have hreach : Reachable setup b := (Reachable.new hnew).later (later_of_playAll hb)
    have hafter : playAll (before ++ [(mv, key)]) g0 = .ok b' := by
      simp only [playAll_append, hb, ok_bind, playAll, hplay, pure_eq_ok]
    have hbill := (hkeeps (before ++ [(mv, key)]) after b' (by rw [hcalls]; simp) hafter).each
      x.nftId d hminted.append x.currency
    have htaken := play_ships hreach.inv hexec hship hamount hplay
    rw [billOf_eq ((play_trace hreach.inv hplay).extends hreach.inv)] at hbill
    rw [billOf_eq (hexec.extends_board hreach.inv)]
    omega
  · intro hspares before after b hcalls hb
    subst hcalls
    exact keepsBills hnew hb hspares.earlier

/-- Alice's second move mints a small flare. -/
def mintFlare : MoveEnvelope := { d := .superMintPowerPlant smallFlare, sequence := 2, timeMillis := 0 }

/-- Alice's third move ships the steel of the flare. -/
def shipSteel : MoveEnvelope :=
  { d := .removeTokens { nftId := 0xc0de0018, amount := 4, currency := 0xc0de0005 }
    sequence := 3
    timeMillis := 0 }

/-- What Alice gives to the flare after it is minted, and ships again. -/
def spareSats : RemoveTokens := { nftId := 0xc0de0018, amount := 5, currency := 0xc0de0001 }

def giveSats : MoveEnvelope :=
  { d := .sendTokens { dest := 0xc0de0018, amount := 5, currency := 0xc0de0001 }
    sequence := 3
    timeMillis := 0 }

def shipSats : MoveEnvelope := { d := .removeTokens spareSats, sequence := 4, timeMillis := 0 }

/-- Alice mints a flare, gives something to it and takes it away again. -/
def sparedBill : List (MoveEnvelope × String) :=
  [(opening, "alice"), (mintFlare, "alice"), (giveSats, "alice"), (shipSats, "alice")]

private theorem sparedBill_runs :
    ∃ g0 g, GameBoard.new twoPlayers = .ok g0 ∧ playAll sparedBill g0 = .ok g ∧
    g.balance 0xc0de0001 0xc0de0018 = 0 ∧
    ∀ b, playAll [(opening, "alice"), (mintFlare, "alice"), (giveSats, "alice")] g0 = .ok b →
      b.usersByKey["alice"]? = some 0xc0de0008 ∧
      ∀ b1, ({ b with playerMoveSequence := b.playerMoveSequence.insert 0xc0de0008 4 } :
          GameBoard).advance (.removeTokens spareSats) 0 0xc0de0008 = .ok b1 →
        b1.billOf smallFlare 0xc0de0001 + 5 ≤ b1.balance 0xc0de0001 0xc0de0018 := by
  have h : returns (do
      let g0 ← GameBoard.new twoPlayers
      let b ← playAll [(opening, "alice"), (mintFlare, "alice"), (giveSats, "alice")] g0
      let b1 ← ({ b with playerMoveSequence := b.playerMoveSequence.insert 0xc0de0008 4 } :
        GameBoard).advance (.removeTokens spareSats) 0 0xc0de0008
      let g ← playAll [(shipSats, "alice")] b
      pure (b, b1, g)) (fun x => x.1.usersByKey["alice"]? = some 0xc0de0008 ∧
        x.2.1.billOf smallFlare 0xc0de0001 + 5 ≤ x.2.1.balance 0xc0de0001 0xc0de0018 ∧
        x.2.2.balance 0xc0de0001 0xc0de0018 = 0) := by
    decide +kernel
  obtain ⟨x, hok, htest⟩ := returns_iff.mp h
  simp only [bind_eq_ok_iff, pure_eq_ok, Except.ok.injEq] at hok
  obtain ⟨g0, hnew, b, hb, b1, hadvance, g, hg, rfl⟩ := hok
  obtain ⟨hkey, hspares, hshipped⟩ := of_decide_eq_true htest
  refine ⟨g0, g, hnew, ?_, hshipped, ?_⟩
  · show playAll ([(opening, "alice"), (mintFlare, "alice"), (giveSats, "alice")] ++
      [(shipSats, "alice")]) g0 = _
    rw [playAll_append, hb, ok_bind, hg]
  · intro b' hb'
    cases hb.symm.trans hb'
    refine ⟨hkey, fun b1' hadvance' => ?_⟩
    cases hadvance.symm.trans hadvance'
    exact hspares

private theorem sparedBill_mints {g0 : GameBoard} {i : NftPtr} {d : MintPowerPlant}
    (h : MintedIn [(opening, "alice"), (mintFlare, "alice"), (giveSats, "alice")] g0 i d) :
    d = smallFlare := by
  obtain ⟨b, mv, key, ⟨before, after, hcalls, -⟩, -, -, sender, move, g1, -, hexec, hmove, -⟩ := h
  have hsane := hexec.sane
  rcases before with _ | ⟨_, _ | ⟨_, _ | ⟨_, _ | ⟨_, _⟩⟩⟩⟩ <;> cases hcalls
  · cases hsane
    simp at hmove
  · cases hsane
    simp only [reduceCtorEq, false_or, GameMove.superMintPowerPlant.injEq] at hmove
    exact hmove.symm
  · simp only [giveSats, GameMove.sanitize, bind_eq_ok_iff, pure_eq_ok, Except.ok.injEq] at hsane
    obtain ⟨x, -, rfl⟩ := hsane
    simp at hmove

/-- The flare keeps its bill when what was given to it is shipped. -/
theorem bills_kept_flare : ∃ g0 g, GameBoard.new twoPlayers = .ok g0 ∧
    playAll sparedBill g0 = .ok g ∧ g.balance 0xc0de0001 0xc0de0018 = 0 ∧
    ∀ before after b, sparedBill = before ++ after →
      playAll before g0 = .ok b → KeepsBills before g0 b := by
  obtain ⟨g0, g, hnew, hrun, hshipped, hspares⟩ := sparedBill_runs
  refine ⟨g0, g, hnew, hrun, hshipped, (bills_kept hnew hrun).mpr ?_⟩
  intro before mv key after b sender x b1 d hcalls hb hexec _ _ hminted
  have hsane := hexec.sane
  rcases before with _ | ⟨_, _ | ⟨_, _ | ⟨_, _ | ⟨_, _ | ⟨_, _⟩⟩⟩⟩⟩ <;> cases hcalls
  · cases hsane
  · cases hsane
  · simp only [giveSats, GameMove.sanitize, bind_eq_ok_iff, pure_eq_ok, Except.ok.injEq] at hsane
    obtain ⟨_, -, hsane⟩ := hsane
    cases hsane
  · obtain ⟨hkey, hafter⟩ := hspares b hb
    obtain rfl := Option.some.inj (hexec.user.symm.trans hkey)
    obtain rfl := sparedBill_mints hminted
    simp only [shipSats, GameMove.sanitize, RemoveTokens.sanitize, NftPtr.sanitize,
      TokenPointer.sanitize, bind_eq_ok_iff, pure_eq_ok, Except.ok.injEq] at hsane
    obtain ⟨_, ⟨i, hi, c, hc, rfl⟩, hsane⟩ := hsane
    split_ifs at hi hc
    cases hi
    cases hc
    cases hsane
    exact hafter b1 hexec.advanced

/-- A shipment takes the steel of a flare that was just minted. -/
theorem bill_shipped : ∃ g0 g, GameBoard.new twoPlayers = .ok g0 ∧
    playAll [(opening, "alice"), (mintFlare, "alice"), (shipSteel, "alice")] g0 = .ok g ∧
    ¬ KeepsBills [(opening, "alice"), (mintFlare, "alice"), (shipSteel, "alice")] g0 g := by
  have h : returns (do
      let g0 ← GameBoard.new twoPlayers
      let b ← playAll [(opening, "alice")] g0
      let minted ← b.play mintFlare "alice"
      let g ← playAll [(shipSteel, "alice")] minted.2
      pure (b, minted.2, g)) (fun x =>
        x.1.nfts.powerPlants[(0xc0de0018 : NftPtr)]?.isSome = false ∧
          x.2.1.nfts.powerPlants[(0xc0de0018 : NftPtr)]?.isSome ∧
          x.2.2.balance 0xc0de0005 0xc0de0018 < x.2.2.billOf smallFlare 0xc0de0005) := by
    decide +kernel
  obtain ⟨x, hok, htest⟩ := returns_iff.mp h
  simp only [bind_eq_ok_iff, pure_eq_ok, Except.ok.injEq] at hok
  obtain ⟨g0, hnew, b, hb, ⟨r, b'⟩, hplay, g, hg, rfl⟩ := hok
  obtain ⟨hnone, hsome, hlt⟩ := of_decide_eq_true htest
  have hrun : playAll [(opening, "alice"), (mintFlare, "alice"), (shipSteel, "alice")] g0 = .ok g := by
    show playAll ([(opening, "alice")] ++ [(mintFlare, "alice"), (shipSteel, "alice")]) g0 = _
    rw [playAll_append, hb, ok_bind]
    simp only [playAll, hplay, ok_bind]
    exact hg
  have hnone : b.nfts.powerPlants[(0xc0de0018 : NftPtr)]? = none := by
    rwa [Option.isSome_eq_false_iff, Option.isNone_iff_eq_none] at hnone
  have hmints : b.Mints mintFlare "alice" 0xc0de0018 smallFlare :=
    mints_of_sane (fun _ => rfl) hplay hnone hsome
  refine ⟨g0, g, hnew, hrun, fun hkeeps => Nat.not_le_of_lt hlt ?_⟩
  exact hkeeps.each _ _ ⟨b, _, _, ⟨[(opening, "alice")], [(shipSteel, "alice")], rfl, hb⟩, hmints⟩ _

end JudicaVM
