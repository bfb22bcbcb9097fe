import JudicaVM.Board.Simulation
import JudicaVM.Board.Ending

/-!
# What a new board holds

The construction of a board, in its three stages: the players are enrolled, the markets and the
producers are set up, and every player receives a first plant. There are places for ten plants.
-/

namespace JudicaVM

open Checked Std Members OrderedMap Transition GameBoard

variable {setup : GameSetup} {g g' g0 : GameBoard} {amount : ℕ} {players : List String}
  {player : String}

/-- The ids that every board gives out first. -/
structure GameBoard.Ids (g : GameBoard) : Prop where
  bitcoin : g.bitcoinTokenId = 0xc0de0001
  realSats : g.realSatsTokenId = 0xc0de0002
  asic : g.asicTokenId = 0xc0de0004
  root : g.rootUser = 0xc0de0007
  hasRealSats : g.Has g.realSatsTokenId

private theorem GameBoard.Ids.mono (h : g.Ids) (hext : g.Extends g') : g'.Ids := by
  have hconst := hext.constants_eq
  simp only [constants, Constants.mk.injEq] at hconst
  obtain ⟨hbitcoin, hreal, -, -, -, hasic, hroot, -⟩ := hconst
  refine ⟨hbitcoin.trans h.bitcoin, hreal.trans h.realSats, hasic.trans h.asic,
    hroot.trans h.root, ?_⟩
  rw [hreal]
  exact hext.has _ h.hasRealSats

/-- A board after the players of a list have been enrolled. -/
structure Enrolled (amount : ℕ) (players : List String) (g : GameBoard) : Prop where
  inv : g.Inv
  materials : g.Materials
  ids : g.Ids
  keys : ∀ k : String, g.usersByKey[k]?.isSome ↔ k ∈ players
  users : ∀ (i : EntityID) u, g.users[i]? = some u → g.usersByKey[u.key]? = some i
  endowed : ∀ (k : String) i, g.usersByKey[k]? = some i →
    g.balance g.realSatsTokenId i = amount ∧ g.balance g.bitcoinTokenId i = amount
  totals : g.total g.realSatsTokenId = players.length * amount ∧
    g.total g.bitcoinTokenId = players.length * amount
  machines : g.total g.asicTokenId = 0
  alloc : g.alloc = 0xc0de0007 + players.length
  bare : g.nfts.powerPlants = ∅

private theorem TokenRegistry.mint_both {r : TokenRegistry} {p q : TokenPointer} {i : EntityID}
    (hr : r.Sound) (hne : p ≠ q) (hp : r.Has p) (hq : r.Has q)
    (hfitsp : r.total p + amount < 2 ^ 128) (hfitsq : r.total q + amount < 2 ^ 128) :
    ∃ r1 r2, r.mint p i amount = .ok r1 ∧ r1.mint q i amount = .ok r2 ∧
      (∀ x j, r2.balance x j =
        r.balance x j + if (x = p ∨ x = q) ∧ i = j then amount else 0) ∧
      ∀ x, r2.total x = r.total x + if x = p ∨ x = q then amount else 0 := by
  have hsound : (r.minted p i amount).Sound := minted_sound hr hfitsp
  have hq1 : (r.minted p i amount).Has q := minted_has.mpr hq
  have htotal : (r.minted p i amount).total q = r.total q := by
    rw [minted_total hp, if_neg hne, Nat.add_zero]
  refine ⟨r.minted p i amount, (r.minted p i amount).minted q i amount,
    (mint_eq_ok_iff hr).mpr ⟨hp, hfitsp, rfl⟩,
    (mint_eq_ok_iff hsound).mpr ⟨hq1, htotal ▸ hfitsq, rfl⟩, ?_, ?_⟩
  · intro x j
    rw [minted_balance hq1, minted_balance hp]
    by_cases hx : q = x
    · simp [← hx, hne]
    · by_cases hx' : p = x
      · simp [← hx', hne.symm]
      · simp [hx, hx', Ne.symm hx, Ne.symm hx']
  · intro x
    rw [minted_total hq1, minted_total hp]
    by_cases hx : q = x
    · simp [← hx, hne]
    · by_cases hx' : p = x
      · simp [← hx', hne.symm]
      · simp [hx, hx', Ne.symm hx, Ne.symm hx']

private theorem Enrolled.addPlayer_eq (h : Enrolled amount players g) (player : String)
    (hroom : g.alloc + 1 < 2 ^ 64) (hfits : (players.length + 1) * amount < 2 ^ 128) :
    ∃ tokens : TokenRegistry, addPlayer amount g player = .ok { g with
        alloc := g.alloc + 1
        users := g.users.insert (g.alloc + 1) { key := player }
        usersByKey := g.usersByKey.insert player (g.alloc + 1)
        tokens } ∧
      (∀ q i, tokens.balance q i = g.balance q i +
        if (q = g.realSatsTokenId ∨ q = g.bitcoinTokenId) ∧ g.alloc + 1 = i then amount else 0) ∧
      ∀ q, tokens.total q =
        g.total q + if q = g.realSatsTokenId ∨ q = g.bitcoinTokenId then amount else 0 := by
  have hne : g.realSatsTokenId ≠ g.bitcoinTokenId := by
    rw [h.ids.realSats, h.ids.bitcoin]
    decide
  rw [Nat.succ_mul] at hfits
  have hreal : g.total g.realSatsTokenId + amount < 2 ^ 128 := h.totals.1 ▸ hfits
  have hbitcoin : g.total g.bitcoinTokenId + amount < 2 ^ 128 := h.totals.2 ▸ hfits
  obtain ⟨t1, t2, hmint1, hmint2, hbalance, htotal⟩ := TokenRegistry.mint_both (i := g.alloc + 1)
    h.inv.tokens hne h.ids.hasRealSats h.inv.bitcoin hreal hbitcoin
  refine ⟨t2, ?_, hbalance, htotal⟩
  simp only [addPlayer, EntityIDAllocator.make, add_of_lt hroom, ok_bind, hmint1, hmint2, pure_eq_ok]

private theorem Enrolled.step (h : Enrolled amount players g) (hnew : player ∉ players)
    (hroom : g.alloc + 1 < 2 ^ 64) (hfits : (players.length + 1) * amount < 2 ^ 128) :
    ∃ g', addPlayer amount g player = .ok g' ∧ Enrolled amount (players ++ [player]) g' := by
  have hi := h.inv
  have htotals := h.totals
  obtain ⟨tokens, hok, hbalance, htotal⟩ := h.addPlayer_eq player hroom hfits
  have htrace := addPlayer_trace hi hok
  have hext := htrace.extends hi
  have hplayer : g.usersByKey[player]? = none := by
    by_contra hsome
    exact hnew ((h.keys player).mp (Option.isSome_iff_ne_none.mpr hsome))
  have hold {k : String} {i : EntityID} (hk : g.usersByKey[k]? = some i) : i ≠ g.alloc + 1 := by
    have hle := hi.ids_le i (mem_entityIds.mpr (.inl (isUser_of_key hi hk)))
    exact (Nat.lt_succ_of_le hle).ne
  refine ⟨_, hok, htrace.inv hi, h.materials.mono hext, h.ids.mono hext, ?_, ?_, ?_, ⟨?_, ?_⟩, ?_,
    ?_, h.bare⟩
  · intro k
    show (g.usersByKey.insert player (g.alloc + 1))[k]?.isSome ↔ k ∈ players ++ [player]
    rw [OrderedMap.getElem?_insert, List.mem_append, List.mem_singleton]
    by_cases hk : player = k
    · simp [hk]
    · rw [if_neg hk, h.keys k, or_iff_left (Ne.symm hk)]
  · intro i u hu
    show (g.usersByKey.insert player (g.alloc + 1))[u.key]? = some i
    have hu' : (g.users.insert (g.alloc + 1) { key := player })[i]? = some u := hu
    rw [OrderedMap.getElem?_insert] at hu' ⊢
    by_cases hnext : g.alloc + 1 = i
    · rw [if_pos hnext, Option.some.injEq] at hu'
      rw [← hu', if_pos rfl, hnext]
    · rw [if_neg hnext] at hu'
      have hkey := h.users i u hu'
      have hne : player ≠ u.key := by
        intro heq
        rw [← heq, hplayer] at hkey
        cases hkey
      rw [if_neg hne]
      exact hkey
  · intro k i hk
    have hk' : (g.usersByKey.insert player (g.alloc + 1))[k]? = some i := hk
    rw [OrderedMap.getElem?_insert] at hk'
    show tokens.balance g.realSatsTokenId i = amount ∧ tokens.balance g.bitcoinTokenId i = amount
    rw [hbalance, hbalance]
    by_cases hkey : player = k
    · rw [if_pos hkey, Option.some.injEq] at hk'
      have hzero (q : TokenPointer) : g.balance q i = 0 :=
        hi.balance_eq_zero (by rw [← hk']; exact Nat.lt_succ_self _)
      simp [hzero, hk']
    · rw [if_neg hkey] at hk'
      simp [h.endowed k i hk', (hold hk').symm]
  · show tokens.total g.realSatsTokenId = _
    rw [htotal, if_pos (.inl rfl), htotals.1, List.length_append, List.length_singleton,
      Nat.succ_mul]
  · show tokens.total g.bitcoinTokenId = _
    rw [htotal, if_pos (.inr rfl), htotals.2, List.length_append, List.length_singleton,
      Nat.succ_mul]
  · show tokens.total g.asicTokenId = 0
    rw [htotal, h.machines, h.ids.asic, h.ids.realSats, h.ids.bitcoin]
    rfl
  · show g.alloc + 1 = _
    rw [h.alloc, List.length_append, List.length_singleton, Nat.add_assoc]

private theorem Enrolled.run {rest : List String} (h : Enrolled amount players g)
    (hnodup : (players ++ rest).Nodup) (hroom : 0xc0de0007 + (players ++ rest).length < 2 ^ 64)
    (hfits : (players ++ rest).length * amount < 2 ^ 128) :
    ∃ g', rest.foldlM (addPlayer amount) g = .ok g' ∧ Enrolled amount (players ++ rest) g' := by
  induction rest generalizing players g with
  | nil => exact ⟨g, rfl, by rwa [List.append_nil]⟩
  | cons player rest ih =>
    have hsplit : players ++ player :: rest = (players ++ [player]) ++ rest := by simp
    have hnew : player ∉ players := by
      rw [List.nodup_append] at hnodup
      exact fun hmem => hnodup.2.2 player hmem player List.mem_cons_self rfl
    have hlength : (players ++ player :: rest).length = players.length + 1 + rest.length := by
      simp only [List.length_append, List.length_cons]
      omega
    have hle : (players.length + 1) * amount ≤ (players ++ player :: rest).length * amount :=
      Nat.mul_le_mul_right _ (by omega)
    obtain ⟨g1, hok, henrolled⟩ := h.step hnew (by rw [h.alloc]; omega) (hle.trans_lt hfits)
    rw [hsplit] at hnodup hroom hfits ⊢
    obtain ⟨g', hrun, hall⟩ := ih henrolled hnodup hroom hfits
    refine ⟨g', ?_, hall⟩
    rw [List.foldlM_cons, hok, ok_bind]
    exact hrun

private theorem Enrolled.size (h : Enrolled amount players g) (hnodup : players.Nodup) :
    g.usersByKey.size = players.length := by
  rw [← ExtTreeMap.length_keys]
  apply List.Perm.length_eq
  rw [List.perm_ext_iff_of_nodup ExtTreeMap.nodup_keys hnodup]
  intro k
  rw [ExtTreeMap.mem_keys, ← ExtTreeMap.isSome_getElem?_iff_mem]
  exact h.keys k

/-- What the setup of markets and producers leaves as it is. It draws at most `n` ids. -/
structure Furnishes (g g' : GameBoard) (n : ℕ) : Prop where
  inv : g'.Inv
  extends_board : g.Extends g'
  users : g'.users = g.users
  keys : g'.usersByKey = g.usersByKey
  nfts : g'.nfts = g.nfts
  balances : ∀ q i, i ≠ g.rootUser → g'.balance q i = g.balance q i
  totals : ∀ q, q ≠ g.realSatsTokenId → q ≠ g.bitcoinTokenId → g'.total q = g.total q
  alloc : g'.alloc ≤ g.alloc + n

private theorem Furnishes.trans {g1 : GameBoard} {n k : ℕ} (h : Furnishes g g1 n)
    (h' : Furnishes g1 g' k) : Furnishes g g' (n + k) := by
  have hconst := h.extends_board.constants_eq
  simp only [constants, Constants.mk.injEq] at hconst
  obtain ⟨hbitcoin, hreal, -, -, -, -, hroot, -⟩ := hconst
  refine ⟨h'.inv, h.extends_board.trans h'.extends_board, h'.users.trans h.users,
    h'.keys.trans h.keys, h'.nfts.trans h.nfts, fun q i hi => ?_, fun q hq hq' => ?_, ?_⟩
  · rw [h'.balances q i (hroot ▸ hi), h.balances q i hi]
  · rw [h'.totals q (hreal ▸ hq) (hbitcoin ▸ hq'), h.totals q hq hq']
  · have halloc := h.alloc
    have halloc' := h'.alloc
    omega

private theorem makeMarket_furnishes {p : TokenPointer} (hi : g.Inv) (hp : g.Has p)
    (hroom : g.alloc + 2 < 2 ^ 64) :
    ∃ g', makeMarket g p = .ok g' ∧ Furnishes g g' 2 ∧ g.Unmoved g' := by
  obtain ⟨⟨m, g'⟩, hensure⟩ : ∃ x, ConstantFunctionMarketMakerPair.ensure g
      { assetA := g.bitcoinTokenId, assetB := p } = .ok x :=
    (ConstantFunctionMarketMakerPair.ensure_ok_iff hi.bitcoin hp).mpr (.inr hroom)
  have hok : makeMarket g p = .ok g' := by
    rw [makeMarket, hensure]
    rfl
  have hu := ensure_unmoved hi hensure
  have htrace := makeMarket_trace hok
  have hframe : g'.users = g.users ∧ g'.usersByKey = g.usersByKey ∧ g'.nfts = g.nfts ∧
      g'.alloc ≤ g.alloc + 2 := by
    obtain ⟨-, rfl | hopen⟩ := ConstantFunctionMarketMakerPair.ensure_cases hensure
    · exact ⟨rfl, rfl, rfl, Nat.le_add_right _ _⟩
    · cases hopen
      exact ⟨rfl, rfl, rfl, le_rfl⟩
  exact ⟨g', hok, ⟨htrace.inv hi, htrace.extends hi, hframe.1, hframe.2.1, hframe.2.2.1,
    fun q i _ => hu.balances q i, fun q _ _ => hu.totals q, hframe.2.2.2⟩, hu⟩

private theorem mintRoot_furnishes {q : TokenPointer} {n : ℕ} (hi : g.Inv) (hq : g.Has q)
    (hsats : q = g.realSatsTokenId ∨ q = g.bitcoinTokenId) (hfits : g.total q + n < 2 ^ 128) :
    ∃ tokens, g.tokens.mint q g.rootUser n = .ok tokens ∧ Furnishes g (g.withTokens tokens) 0 ∧
      ∀ p, p ≠ q → tokens.total p = g.total p := by
  have hmint : g.tokens.mint q g.rootUser n = .ok (g.tokens.minted q g.rootUser n) :=
    (TokenRegistry.mint_eq_ok_iff hi.tokens).mpr ⟨hq, hfits, rfl⟩
  have htrace : Trace IsPostInitEvent g (g.withTokens (g.tokens.minted q g.rootUser n)) :=
    mint_trace hi (hi.party_of_mem (.inr (.inl rfl))) trivial hmint
  have htotal (p : TokenPointer) (hp : p ≠ q) :
      (g.tokens.minted q g.rootUser n).total p = g.total p := by
    rw [TokenRegistry.minted_total hq, if_neg hp.symm]
    rfl
  refine ⟨_, hmint, ⟨htrace.inv hi, htrace.extends hi, rfl, rfl, rfl, fun p i hne => ?_,
    fun p hp hp' => htotal p ?_, le_rfl⟩, htotal⟩
  · show (g.tokens.minted q g.rootUser n).balance p i = g.balance p i
    rw [TokenRegistry.minted_balance hq, if_neg fun h => hne h.2.symm]
    rfl
  · rcases hsats with rfl | rfl
    · exact hp
    · exact hp'

private theorem addProducer_furnishes (callback : Producer → Callback) {hashAsset : TokenPointer}
    (adjustsEvery : ℕ) (hi : g.Inv) (hhas : g.Has hashAsset) (hne : hashAsset ≠ g.bitcoinTokenId)
    (hcallback : ∀ q, (callback q).producer? = some q) (hlockup : ∀ q, (callback q).lockup? = none)
    (hroom : g.alloc + 1 < 2 ^ 64) :
    ∃ g', addProducer g callback hashAsset adjustsEvery = .ok g' ∧ Furnishes g g' 1 := by
  obtain ⟨p, hok⟩ : ∃ p, addProducer g callback hashAsset adjustsEvery =
      .ok ({ g with alloc := g.alloc + 1 }.schedule (callback p)) := by
    simp only [addProducer, EntityIDAllocator.make, add_of_lt hroom, ok_bind]
    exact ⟨_, rfl⟩
  have htrace := addProducer_trace hi hhas hne hcallback hlockup hok
  exact ⟨_, hok, htrace.inv hi, htrace.extends hi, rfl, rfl, rfl, fun _ _ _ => rfl,
    fun _ _ _ => rfl, le_rfl⟩

private theorem schedule_furnishes {cb : Callback} (hi : g.Inv) (hcb : g.CallbackSound cb) :
    Furnishes g (g.schedule cb) 0 := by
  have hstep : Occurs g (.schedule cb) (g.schedule cb) := .schedule g cb hcb
  exact ⟨hstep.inv hi, hstep.extends hi, rfl, rfl, rfl, fun _ _ _ => rfl, fun _ _ _ => rfl, le_rfl⟩

private theorem postInit_furnishes (hi : g.Inv) (hm : g.Materials) (hids : g.Ids)
    (hroom : g.alloc + 12 < 2 ^ 64) (hbitcoin : g.total g.bitcoinTokenId < 2 ^ 127)
    (hreal : g.total g.realSatsTokenId < 2 ^ 127) :
    ∃ g8, postInit g = addStartPlants g8.sortedIds 0 g8 ∧ Furnishes g g8 12 := by
  obtain ⟨g1, h1, hf1, hu1⟩ := makeMarket_furnishes hi hm.steel.1 (by omega)
  have hm1 := hm.mono hf1.extends_board
  have ha1 := hf1.alloc
  obtain ⟨g2, h2, hf2, hu2⟩ := makeMarket_furnishes hf1.inv hm1.silicon.1 (by omega)
  have hm2 := hm1.mono hf2.extends_board
  have ha2 := hf2.alloc
  obtain ⟨g3, h3, hf3, hu3⟩ := makeMarket_furnishes hf2.inv hm2.concrete.1 (by omega)
  have hm3 := hm2.mono hf3.extends_board
  have ha3 := hf3.alloc
  obtain ⟨g4, h4, hf4, hu4⟩ := makeMarket_furnishes hf3.inv hm3.asic.1 (by omega)
  have ha4 := hf4.alloc
  have hu := ((hu1.trans hu2).trans hu3).trans hu4
  have hf := ((hf1.trans hf2).trans hf3).trans hf4
  have hids4 := hids.mono hf.extends_board
  have hi4 := hf.inv
  have hsame : g4.bitcoinTokenId = g.bitcoinTokenId ∧ g4.realSatsTokenId = g.realSatsTokenId :=
    ⟨hids4.bitcoin.trans hids.bitcoin.symm, hids4.realSats.trans hids.realSats.symm⟩
  have hne : g4.realSatsTokenId ≠ g4.bitcoinTokenId := by
    rw [hids4.realSats, hids4.bitcoin]
    decide
  obtain ⟨t1, hmint1, hf5, htotal1⟩ := mintRoot_furnishes (n := 10_000_000_000) hi4 hi4.bitcoin
    (.inr rfl) (by rw [hsame.1, hu.totals]; omega)
  obtain ⟨t2, hmint2, hf6, -⟩ := mintRoot_furnishes (g := g4.withTokens t1) (n := 30000) hf5.inv
    (hf5.extends_board.has _ hids4.hasRealSats) (.inl rfl) (by
      show t1.total g4.realSatsTokenId + 30000 < 2 ^ 128
      rw [htotal1 _ hne, hsame.2, hu.totals]
      omega)
  have hf46 := hf5.trans hf6
  have hm4 := hm3.mono hf4.extends_board
  have hm6 := hm4.mono hf46.extends_board
  have hasic6 : (g4.withTokens t2).tokens.hashboards.keys.head? = some g4.asicTokenId := hm6.boards
  have hf7 : Furnishes ((g4.withTokens t1).withTokens t2)
      ((g4.withTokens t2).schedule (.powerPlantEvent { time := 0, period := 11_003 })) 0 := by
    refine schedule_furnishes hf6.inv ⟨fun q hq => ?_, fun l hl => ?_⟩
    · cases hq
    · cases hl
  have hf47 := hf46.trans hf7
  have hm7 := hm4.mono hf47.extends_board
  have ha7 := hf47.alloc
  obtain ⟨g8, h8, hf8⟩ := addProducer_furnishes .asicProducer 10_007 hf7.inv hm7.asic.1
    hm7.asic.2 (fun _ => rfl) (fun _ => rfl) (by omega)
  have hm8 := hm7.mono hf8.extends_board
  have ha8 := hf8.alloc
  obtain ⟨g9, h9, hf9⟩ := addProducer_furnishes .steelSmelter 5_003 hf8.inv hm8.steel.1
    hm8.steel.2 (fun _ => rfl) (fun _ => rfl) (by omega)
  have hm9 := hm8.mono hf9.extends_board
  have ha9 := hf9.alloc
  obtain ⟨g10, h10, hf10⟩ := addProducer_furnishes .siliconRefinery 25_013 hf9.inv hm9.silicon.1
    hm9.silicon.2 (fun _ => rfl) (fun _ => rfl) (by omega)
  have hm10 := hm9.mono hf10.extends_board
  have ha10 := hf10.alloc
  obtain ⟨g11, h11, hf11⟩ := addProducer_furnishes .concreteMiller 14_009 hf10.inv
    hm10.concrete.1 hm10.concrete.2 (fun _ => rfl) (fun _ => rfl) (by omega)
  refine ⟨g11, ?_, (((((hf.trans hf47).trans hf8).trans hf9).trans hf10).trans hf11)⟩
  have hmint2' : t1.mint g4.realSatsTokenId g4.rootUser 30000 = .ok t2 := hmint2
  have h8' : addProducer ((g4.withTokens t2).schedule
      (.powerPlantEvent { time := 0, period := 11_003 })) .asicProducer g4.asicTokenId 10_007 =
      .ok g8 := h8
  have hhash : unwrap t2.hashboards.keys.head? = .ok g4.asicTokenId := by
    rw [show t2.hashboards.keys.head? = _ from hasic6]
    rfl
  simp only [postInit, h1, h2, h3, h4, ok_bind, hmint1, hmint2', hhash]
  rw [show ({ g4 with tokens := t2 } : GameBoard) = g4.withTokens t2 from rfl, h8']
  simp only [ok_bind, h9, h10, h11]
  rfl

/-- A plant of scale one with one machine. -/
def GameBoard.IsStarter (g : GameBoard) (ptr : NftPtr) (plant : PowerPlant) : Prop :=
  plant.watts = 100_000 ∧ g.balance g.asicTokenId ptr = 1

/-- A board after the users of a list have received their first plants. -/
structure Planted (g0 g : GameBoard) (done : List EntityID) : Prop where
  inv : g.Inv
  extends_board : g0.Extends g
  users : g.users = g0.users
  keys : g.usersByKey = g0.usersByKey
  balances : ∀ q i, q ≠ g.asicTokenId → g.balance q i = g0.balance q i
  machines : g.total g.asicTokenId = done.length
  alloc : g.alloc = g0.alloc + done.length
  owned : ∀ (ptr : NftPtr) plant, g.nfts.powerPlants[ptr]? = some plant →
    ∃ i ∈ done, g.ownerOf ptr = some i ∧ g.IsStarter ptr plant
  each : ∀ i ∈ done, ∃ ptr plant, g.nfts.powerPlants[ptr]? = some plant ∧ g.ownerOf ptr = some i ∧
    ∀ (ptr' : NftPtr) plant', g.nfts.powerPlants[ptr']? = some plant' → g.ownerOf ptr' = some i →
      ptr' = ptr

private theorem Planted.step {done : List EntityID} {player : EntityID} (h : Planted g0 g done)
    (hm : g.Materials) (hplayer : g.IsUser player) (hnew : player ∉ done)
    (hplace : done.length < startLocations.length) (hroom : g.alloc + 1 < 2 ^ 64) :
    ∃ g', addStartPlant g done.length player = .ok g' ∧ Planted g0 g' (done ++ [player]) := by
  have hi := h.inv
  obtain ⟨⟨coordinates, kind⟩, hlocation⟩ : ∃ x, startLocations[done.length]? = some x :=
    ⟨_, List.getElem?_eq_getElem hplace⟩
  let plant : PowerPlant := { id := g.alloc + 1, plantType := kind, watts := 100_000, coordinates }
  let nft : BaseNFT := { owner := player, nftId := g.alloc + 1, transferCount := 0 }
  let tokens := g.tokens.minted g.asicTokenId (g.alloc + 1) 1
  have hasic : g.tokens.Has g.asicTokenId := hm.asic.1
  have hfits : g.tokens.total g.asicTokenId + 1 < 2 ^ 128 := by
    rw [show g.tokens.total g.asicTokenId = _ from h.machines]
    have hten : startLocations.length = 10 := rfl
    omega
  have hmint : g.tokens.mint g.asicTokenId (g.alloc + 1) 1 = .ok tokens :=
    (TokenRegistry.mint_eq_ok_iff hi.tokens).mpr ⟨hasic, hfits, rfl⟩
  have hok : addStartPlant g done.length player =
      .ok ((g.addNft nft (some plant)).withTokens tokens) := by
    have hwatts : mul 64 1 100_000 = .ok 100_000 := by decide
    have hplant := congrArg (fun b : GameBoard => b.withTokens tokens)
      (addPlant_eq_addNft nft plant hi rfl)
    have hmint' : g.tokens.mint g.asicTokenId (g.nfts.add nft).1 1 = .ok tokens := hmint
    simp only [addStartPlant, EntityIDAllocator.make, add_of_lt hroom, ok_bind, hlocation,
      PowerPlant.new, pure_eq_ok, hwatts]
    rw [hmint', ok_bind]
    exact congrArg Except.ok hplant
  have htrace := addStartPlant_trace hi hplayer hok
  have hext := htrace.extends hi
  have hbalance (q : TokenPointer) (i : EntityID) : tokens.balance q i =
      g.balance q i + if g.asicTokenId = q ∧ g.alloc + 1 = i then 1 else 0 :=
    TokenRegistry.minted_balance hasic
  have hplants (ptr : NftPtr) : (g.addNft nft (some plant)).nfts.powerPlants[ptr]? =
      if g.alloc + 1 = ptr then some plant else g.nfts.powerPlants[ptr]? :=
    OrderedMap.getElem?_insert _ _ _ _
  have howner (ptr : NftPtr) : (g.addNft nft (some plant)).ownerOf ptr =
      if g.alloc + 1 = ptr then some player else g.ownerOf ptr := by
    show ((g.nfts.nfts.insert (g.alloc + 1) nft)[ptr]?).map (·.owner) = _
    rw [OrderedMap.getElem?_insert]
    split <;> rfl
  have hold {ptr : NftPtr} {p : PowerPlant} (hp : g.nfts.powerPlants[ptr]? = some p) :
      g.alloc + 1 ≠ ptr := by
    have hle := hi.ids_le ptr (mem_entityIds.mpr (.inr (.inr (.inr (.inl (hi.plants ptr p hp).2)))))
    exact (Nat.lt_succ_of_le hle).ne'
  refine ⟨_, hok, htrace.inv hi, h.extends_board.trans hext, h.users, h.keys, ?_, ?_, ?_, ?_, ?_⟩
  · intro q i hq
    show tokens.balance q i = g0.balance q i
    rw [hbalance, if_neg fun heq => hq heq.1.symm]
    exact h.balances q i hq
  · show tokens.total g.asicTokenId = (done ++ [player]).length
    rw [TokenRegistry.minted_total hasic, if_pos rfl, List.length_append, List.length_singleton]
    exact congrArg (· + 1) h.machines
  · show g.alloc + 1 = _
    rw [h.alloc, List.length_append, List.length_singleton, Nat.add_assoc]
  · intro ptr p hp
    have hp' : (g.addNft nft (some plant)).nfts.powerPlants[ptr]? = some p := hp
    show ∃ i ∈ done ++ [player], (g.addNft nft (some plant)).ownerOf ptr = some i ∧
      p.watts = 100_000 ∧ tokens.balance g.asicTokenId ptr = 1
    rw [hplants] at hp'
    rw [hbalance, howner]
    by_cases hnext : g.alloc + 1 = ptr
    · rw [if_pos hnext, Option.some.injEq] at hp'
      have hzero : g.balance g.asicTokenId ptr = 0 :=
        hi.balance_eq_zero (by rw [← hnext]; exact Nat.lt_succ_self _)
      refine ⟨player, List.mem_append_right _ List.mem_cons_self, if_pos hnext, ?_, ?_⟩
      · rw [← hp']
      · rw [hzero, if_pos ⟨rfl, hnext⟩]
    · rw [if_neg hnext] at hp'
      obtain ⟨i, hmem, hown, hwatts, hone⟩ := h.owned ptr p hp'
      rw [if_neg hnext, if_neg fun heq => hnext heq.2]
      exact ⟨i, List.mem_append_left _ hmem, hown, hwatts, hone⟩
  · intro i hmem
    show ∃ ptr p, (g.addNft nft (some plant)).nfts.powerPlants[ptr]? = some p ∧
      (g.addNft nft (some plant)).ownerOf ptr = some i ∧ ∀ (ptr' : NftPtr) p',
        (g.addNft nft (some plant)).nfts.powerPlants[ptr']? = some p' →
          (g.addNft nft (some plant)).ownerOf ptr' = some i → ptr' = ptr
    simp only [hplants, howner]
    rcases List.mem_append.mp hmem with hdone | hlast
    · obtain ⟨ptr, p, hp, hown, honly⟩ := h.each i hdone
      refine ⟨ptr, p, ?_, ?_, fun ptr' p' hp' hown' => ?_⟩
      · rw [if_neg (hold hp), hp]
      · rw [if_neg (hold hp), hown]
      · by_cases hnext : g.alloc + 1 = ptr'
        · rw [if_pos hnext, Option.some.injEq] at hown'
          exact absurd (hown' ▸ hdone) hnew
        · rw [if_neg hnext] at hp' hown'
          exact honly ptr' p' hp' hown'
    · rw [List.mem_singleton] at hlast
      subst hlast
      refine ⟨g.alloc + 1, plant, if_pos rfl, if_pos rfl, fun ptr' p' hp' hown' => ?_⟩
      by_cases hnext : g.alloc + 1 = ptr'
      · exact hnext.symm
      · rw [if_neg hnext] at hp' hown'
        obtain ⟨j, hj, hown, -⟩ := h.owned ptr' p' hp'
        rw [hown, Option.some.injEq] at hown'
        exact absurd (hown' ▸ hj) hnew

private theorem Planted.run {done rest : List EntityID} (h : Planted g0 g done) (hm : g0.Materials)
    (husers : ∀ i ∈ rest, g0.IsUser i) (hnodup : (done ++ rest).Nodup)
    (hplaces : (done ++ rest).length ≤ startLocations.length)
    (hroom : g0.alloc + (done ++ rest).length < 2 ^ 64) :
    ∃ g', addStartPlants rest done.length g = .ok g' ∧ Planted g0 g' (done ++ rest) := by
  induction rest generalizing done g with
  | nil => exact ⟨g, rfl, by rwa [List.append_nil]⟩
  | cons player rest ih =>
    have hsplit : done ++ player :: rest = (done ++ [player]) ++ rest := by simp
    have hnew : player ∉ done := by
      rw [List.nodup_append] at hnodup
      exact fun hmem => hnodup.2.2 player hmem player List.mem_cons_self rfl
    have hlength : (done ++ player :: rest).length = done.length + 1 + rest.length := by
      simp only [List.length_append, List.length_cons]
      omega
    have hplayer := h.extends_board.isUser (husers player List.mem_cons_self)
    obtain ⟨g1, hok, hplanted⟩ := h.step (hm.mono h.extends_board) hplayer hnew (by omega)
      (by rw [h.alloc]; omega)
    rw [hsplit] at hnodup hplaces hroom ⊢
    obtain ⟨g', hrun, hall⟩ := ih hplanted (fun i hi => husers i (List.mem_cons_of_mem _ hi)) hnodup
      hplaces hroom
    refine ⟨g', ?_, hall⟩
    rw [addStartPlants, hok, ok_bind]
    rw [List.length_append, List.length_singleton] at hrun
    exact hrun

/-- What a setup asks of a board: one user for each distinct player, with the start amount of both
sats, and one starter plant for each user and no other plants. -/
structure GameBoard.Founded (g : GameBoard) (setup : GameSetup) : Prop where
  users : ∀ k : String, (∃ i : EntityID, g.users[i]? = some { key := k }) ↔ k ∈ setup.players
  once : ∀ (i j : EntityID) u, g.users[i]? = some u → g.users[j]? = some u → i = j
  keys : ∀ (k : String) i, g.usersByKey[k]? = some i ↔ g.users[i]? = some { key := k }
  endowed : ∀ i, g.IsUser i → g.balance g.realSatsTokenId i = setup.startAmount ∧
    g.balance g.bitcoinTokenId i = setup.startAmount
  plant : ∀ i, g.IsUser i → ∃ ptr plant, g.nfts.powerPlants[ptr]? = some plant ∧
    g.ownerOf ptr = some i ∧ g.IsStarter ptr plant ∧ ∀ (ptr' : NftPtr) plant',
      g.nfts.powerPlants[ptr']? = some plant' → g.ownerOf ptr' = some i → ptr' = ptr
  owned : ∀ (ptr : NftPtr) plant, g.nfts.powerPlants[ptr]? = some plant →
    ∃ i, g.IsUser i ∧ g.ownerOf ptr = some i

private theorem blank_returns : ∃ g, blank = .ok g ∧ g.Ids ∧ g.alloc = 0xc0de0007 ∧ g.users = ∅ ∧
    g.usersByKey = ∅ ∧ g.nfts.powerPlants = ∅ := by
  have h : returns blank (fun g => (g.bitcoinTokenId = 0xc0de0001 ∧ g.realSatsTokenId = 0xc0de0002 ∧
      g.asicTokenId = 0xc0de0004 ∧ g.rootUser = 0xc0de0007 ∧ g.Has g.realSatsTokenId) ∧
        g.alloc = 0xc0de0007) := by
    decide +kernel
  obtain ⟨g, hok, htest⟩ := returns_iff.mp h
  obtain ⟨⟨hbitcoin, hreal, hasic, hroot, hhas⟩, halloc⟩ := of_decide_eq_true htest
  refine ⟨g, hok, ⟨hbitcoin, hreal, hasic, hroot, hhas⟩, halloc, ?_⟩
  cases hok
  exact ⟨rfl, rfl, rfl⟩

private theorem length_sortedPlayers (players : List String) :
    (sortedPlayers players).length = players.dedup.length := by
  apply List.Perm.length_eq
  rw [List.perm_ext_iff_of_nodup (sortedPlayers_nodup _) (List.nodup_dedup _)]
  intro p
  rw [mem_sortedPlayers, List.mem_dedup]

private theorem enrolled_of_setup (setup : GameSetup) (hcount : setup.players.dedup.length ≤ 10) :
    ∃ g0 g1, blank = .ok g0 ∧ setupGame setup g0 = .ok g1 ∧
      Enrolled setup.startAmount (sortedPlayers setup.players) g1 := by
  obtain ⟨g0, hblank, hids, halloc, husers, hkeys, hplants⟩ := blank_returns
  obtain ⟨hi, hm⟩ := blank_spec hblank
  have htotal := (blank_unissued hblank).total_eq
  have hstart : Enrolled setup.startAmount [] { g0 with finishTime := setup.finishTime } := by
    refine ⟨hi.setFinishTime _, ⟨hm.steel, hm.silicon, hm.concrete, hm.asic, hm.boards⟩,
      ⟨hids.bitcoin, hids.realSats, hids.asic, hids.root, hids.hasRealSats⟩, ?_, ?_, ?_, ?_,
      htotal _, halloc, hplants⟩
    · intro k
      show g0.usersByKey[k]?.isSome ↔ k ∈ []
      simp [hkeys]
    · intro i u hu
      have hu' : g0.users[i]? = some u := hu
      simp [husers] at hu'
    · intro k i hk
      have hk' : g0.usersByKey[k]? = some i := hk
      simp [hkeys] at hk'
    · rw [List.length_nil, Nat.zero_mul]
      exact ⟨htotal _, htotal _⟩
  have hlength := length_sortedPlayers setup.players
  have hamount := setup.startAmount_lt
  have hfits : ([] ++ sortedPlayers setup.players).length * setup.startAmount < 2 ^ 128 := by
    rw [List.nil_append, hlength]
    calc setup.players.dedup.length * setup.startAmount
      _ ≤ 10 * 2 ^ 64 := Nat.mul_le_mul hcount hamount.le
      _ < 2 ^ 128 := by norm_num
  have hroom : 0xc0de0007 + ([] ++ sortedPlayers setup.players).length < 2 ^ 64 := by
    rw [List.nil_append, hlength]
    omega
  obtain ⟨g1, hok, henrolled⟩ := hstart.run (sortedPlayers_nodup setup.players) hroom hfits
  exact ⟨g0, g1, hblank, hok, henrolled⟩

private theorem new_founded (setup : GameSetup) (hcount : setup.players.dedup.length ≤ 10) :
    ∃ g, GameBoard.new setup = .ok g ∧ g.Founded setup := by
  obtain ⟨g0, g1, hblank, hsetup, h1⟩ := enrolled_of_setup setup hcount
  have hlength := length_sortedPlayers setup.players
  have hamount := setup.startAmount_lt
  have hsupply : (sortedPlayers setup.players).length * setup.startAmount < 2 ^ 127 := by
    rw [hlength]
    calc setup.players.dedup.length * setup.startAmount
      _ ≤ 10 * 2 ^ 64 := Nat.mul_le_mul hcount hamount.le
      _ < 2 ^ 127 := by norm_num
  have halloc := h1.alloc
  obtain ⟨g8, hpost, hf⟩ := postInit_furnishes h1.inv h1.materials h1.ids (by omega)
    (by rw [h1.totals.2]; exact hsupply) (by rw [h1.totals.1]; exact hsupply)
  have hi8 := hf.inv
  have hm8 := h1.materials.mono hf.extends_board
  have hids8 : g8.sortedIds.Nodup := nodup_destutter (List.pairwise_insertionSort _ _)
  have hlength8 : g8.sortedIds.length = (sortedPlayers setup.players).length := by
    rw [length_sortedIds hi8, hf.keys, h1.size (sortedPlayers_nodup _)]
  have hne : g1.asicTokenId ≠ g1.realSatsTokenId ∧ g1.asicTokenId ≠ g1.bitcoinTokenId := by
    rw [h1.ids.asic, h1.ids.realSats, h1.ids.bitcoin]
    decide
  have hconst := hf.extends_board.constants_eq
  simp only [constants, Constants.mk.injEq] at hconst
  obtain ⟨hbitcoin, hreal, -, -, -, hasic, -⟩ := hconst
  have hstart : Planted g8 g8 [] := by
    refine ⟨hi8, .refl _, rfl, rfl, fun _ _ _ => rfl, ?_, rfl, fun ptr plant hp => ?_, fun i hi => ?_⟩
    · rw [hasic, hf.totals _ hne.1 hne.2, h1.machines]
      rfl
    · rw [hf.nfts, h1.bare] at hp
      simp at hp
    · cases hi
  have halloc8 := hf.alloc
  have hten : startLocations.length = 10 := rfl
  obtain ⟨g, hok, hplanted⟩ := hstart.run hm8 (fun i => isUser_of_mem_sortedIds hi8)
    (by rwa [List.nil_append]) (by rw [List.nil_append]; omega) (by rw [List.nil_append]; omega)
  rw [List.nil_append] at hplanted
  have hnew : GameBoard.new setup = .ok g := by
    simp only [GameBoard.new, hblank, hsetup, ok_bind]
    exact hpost.trans hok
  have husers : g.users = g1.users := hplanted.users.trans hf.users
  have hkeys : g.usersByKey = g1.usersByKey := hplanted.keys.trans hf.keys
  have hfiled (k : String) (i : EntityID) :
      g.usersByKey[k]? = some i ↔ g.users[i]? = some { key := k } := by
    constructor
    · exact hplanted.inv.keys k i
    · intro hu
      rw [husers] at hu
      rw [hkeys]
      exact h1.users i _ hu
  have hmem (i : EntityID) (hu : g.IsUser i) : i ∈ g8.sortedIds := by
    obtain ⟨u, hu⟩ := Option.isSome_iff_exists.mp hu
    have hkey := (hfiled u.key i).mpr hu
    rw [hplanted.keys] at hkey
    rw [sortedIds, mem_destutter_ne, List.mem_insertionSort]
    exact List.mem_map.mpr ⟨_, ExtTreeMap.mem_toList_iff_getElem?_eq_some.mpr hkey, rfl⟩
  have hasic' : g.asicTokenId = g8.asicTokenId :=
    congrArg Constants.asicTokenId hplanted.extends_board.constants_eq
  refine ⟨g, hnew, ⟨fun k => ?_, fun i j u hi hj => ?_, hfiled, fun i hu => ?_, fun i hu => ?_,
    fun ptr plant hp => ?_⟩⟩
  · rw [← mem_sortedPlayers, ← h1.keys k, Option.isSome_iff_exists, ← hkeys]
    simp only [hfiled]
  · have hkey := (hfiled u.key i).mpr hi
    rw [(hfiled u.key j).mpr hj] at hkey
    exact (Option.some.inj hkey).symm
  · have hnotroot : i ≠ g1.rootUser := by
      intro heq
      apply h1.inv.not_isUser_root
      rw [← heq, IsUser, ← husers]
      exact hu
    obtain ⟨u, hu⟩ := Option.isSome_iff_exists.mp hu
    have hkey := (hfiled u.key i).mpr hu
    rw [hkeys] at hkey
    have hendowed := h1.endowed u.key i hkey
    have hbalance (q : TokenPointer) (hq : q ≠ g.asicTokenId) : g.balance q i = g1.balance q i := by
      rw [hplanted.balances q i hq, hf.balances q i hnotroot]
    have hsats := hplanted.extends_board.constants_eq
    simp only [constants, Constants.mk.injEq] at hsats
    rw [hsats.1, hsats.2.1, hbitcoin, hreal]
    rw [hbalance _ (by rw [hasic', hasic]; exact hne.1.symm),
      hbalance _ (by rw [hasic', hasic]; exact hne.2.symm)]
    exact hendowed
  · obtain ⟨ptr, plant, hp, hown, honly⟩ := hplanted.each i (hmem i hu)
    obtain ⟨j, -, -, hstarter⟩ := hplanted.owned ptr plant hp
    exact ⟨ptr, plant, hp, hown, hstarter, honly⟩
  · obtain ⟨i, hi, hown, -⟩ := hplanted.owned ptr plant hp
    exact ⟨i, hplanted.extends_board.isUser (isUser_of_mem_sortedIds hi8 hi), hown⟩

/-- A board is built, and as the setup asks, exactly if there are at most ten distinct players. -/
theorem new_founded_iff (setup : GameSetup) :
    (∃ g, GameBoard.new setup = .ok g ∧ g.Founded setup) ↔ setup.players.dedup.length ≤ 10 := by
  constructor
  · intro ⟨g, hnew, _⟩
    rw [← length_sortedPlayers]
    exact new_count hnew
  · exact new_founded setup

/-- Eleven players. -/
def elevenPlayers : GameSetup :=
  { players := ["a", "b", "c", "d", "e", "f", "g", "h", "i", "j", "k"]
    startAmount := 1
    finishTime := 1_000_000 }

/-- For an eleventh player there is no place. -/
theorem eleven_players_abort : GameBoard.new elevenPlayers = .error .indexOutOfBounds := by
  have h : aborts (GameBoard.new elevenPlayers) .indexOutOfBounds := by decide +kernel
  exact aborts_iff.mp h

end JudicaVM
