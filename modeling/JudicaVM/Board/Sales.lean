import JudicaVM.Board.Custody

/-!
# Sales of NFTs

A sale is open for the ownership period in which it was listed. A purchase pays its listed price
against the NFT, unless the NFT is one that does not change hands.
-/

namespace JudicaVM

open Checked Std OrderedMap Transition GameBoard

variable {setup : GameSetup} {origin g g' : GameBoard} {e : Event} {asset : NftPtr}
  {nft : BaseNFT} {sale : NFTSale} {sender : EntityID} {p : PurchaseNFT}

namespace GameBoard

/-- An NFT keeps its entry as long as its transfer count stays. -/
def Counts (g g' : GameBoard) : Prop :=
  ∀ (i : NftPtr) n, g.nfts.nfts[i]? = some n → ∃ n', g'.nfts.nfts[i]? = some n' ∧
    n.transferCount ≤ n'.transferCount ∧ (n'.transferCount = n.transferCount → n' = n)

private theorem Counts.refl (g : GameBoard) :
    g.Counts g := fun _ n hn => ⟨n, hn, le_rfl, fun _ => rfl⟩

private theorem Counts.trans {g'' : GameBoard} (h : g.Counts g') (h' : g'.Counts g'') :
    g.Counts g'' := by
  intro i n hn
  obtain ⟨n1, hn1, hle1, heq1⟩ := h i n hn
  obtain ⟨n2, hn2, hle2, heq2⟩ := h' i n1 hn1
  refine ⟨n2, hn2, hle1.trans hle2, fun hcount => ?_⟩
  have hsame : n1.transferCount = n.transferCount := by omega
  rw [← heq1 hsame]
  exact heq2 (by omega)

private theorem NftsKept.counts (h : g.NftsKept g') : g.Counts g' :=
  fun i n hn => ⟨n, h.nfts i n hn, le_rfl, fun _ => rfl⟩

end GameBoard

private theorem BaseNFT.transfer_counts (nft : BaseNFT) (dest : EntityID) :
    nft.transferCount ≤ (nft.transfer dest).transferCount ∧
      ((nft.transfer dest).transferCount = nft.transferCount → nft.transfer dest = nft) := by
  unfold BaseNFT.transfer
  split
  · exact ⟨le_rfl, fun _ => rfl⟩
  · exact ⟨Nat.le_succ _, fun heq => absurd heq (Nat.succ_ne_self _)⟩

private theorem sell_counts (hitem : g.nfts.nfts[asset]? = some nft) :
    g.Counts (g.sell asset nft sale sender) := by
  intro i n hn
  simp only [sell, OrderedMap.getElem?_insert]
  by_cases hi : asset = i
  · subst hi
    cases hitem.symm.trans hn
    rw [if_pos rfl]
    exact ⟨_, rfl, nft.transfer_counts sender⟩
  · rw [if_neg hi]
    exact ⟨n, hn, le_rfl, fun _ => rfl⟩

private theorem playInner_counts {d : GameMove} {r : Except MoveRejectReason Unit} (hi : g.Inv)
    (hsender : g.IsUser sender) (h : g.playInner d sender = .ok (r, g')) : g.Counts g' := by
  rcases playInner_nfts hi hsender h with hkept | ⟨l, nft, _, _, _, rfl⟩ |
    ⟨p, nft, sale, _, hsell, rfl⟩
  · exact hkept.counts
  · exact Counts.refl g
  · exact sell_counts hsell.item

private theorem counts_withNotes (h : g.Counts g') (n : GameBoard) : g.Counts (g'.withNotes n) := h

private theorem play_counts {mv : MoveEnvelope} {key : String} {r : Except MoveRejectReason Unit}
    (hi : g.Inv) (h : g.play mv key = .ok (r, g')) : g.Counts g' := by
  rcases play_cases h with ⟨hnotes, _⟩ | ⟨sender, move, g1, g2, hexec, hinner, hnotes⟩
  · rw [hnotes]
    exact counts_withNotes (Counts.refl g) g'
  · rw [hnotes]
    have hsender := (hexec.extends_board hi).isUser (hexec.isUser hi)
    have hmove := playInner_counts (hexec.inv hi) hsender hinner
    exact counts_withNotes ((hexec.nftsKept hi).counts.trans hmove) g'

private theorem Later.counts (hl : Later g g') (hi : g.Inv) : g.Counts g' := by
  induction hl with
  | refl => exact Counts.refl g
  | tail hl hstep ih =>
    obtain ⟨mv, key, r, hplay⟩ := hstep
    exact ih.trans (play_counts ((Later.trace hl hi).inv hi) hplay)

/-- The sale was listed by the owner of the NFT, and on all boards since then the NFT has had the
same entry: it has not changed hands. -/
def ListedSince (setup : GameSetup) (g : GameBoard) (asset : NftPtr) (sale : NFTSale)
    (nft : BaseNFT) : Prop :=
  ∃ g0 mv key g1 r g2, Reachable setup g0 ∧
    Executes g0 mv key sale.seller
      (.listNFTForSale { nftId := asset, price := sale.price, currency := sale.currency }) g1 ∧
    g1.nfts.nfts[asset]? = some nft ∧ nft.owner = sale.seller ∧
    g0.play mv key = .ok (r, g2) ∧ Later g2 g ∧
    ∀ b, Later g2 b → Later b g → b.nfts.nfts[asset]? = some nft

private theorem playInner_list_nfts {l : ListNFTForSale} {r : Except MoveRejectReason Unit}
    (h : g.playInner (.listNFTForSale l) sender = .ok (r, g')) : g'.nfts = g.nfts := by
  simp only [playInner, bind_eq_ok_iff] at h
  obtain ⟨_, _, h⟩ := h
  cases h
  rfl

private theorem Listed.since (h : Listed setup g asset sale) (hnft : g.nfts.nfts[asset]? = some nft)
    (hcount : sale.transferCount = nft.transferCount) : ListedSince setup g asset sale nft := by
  obtain ⟨g0, mv, key, g1, listed, r, g2, h0, hexec, hlisted, hown, hcount0, hplay, hlater⟩ := h
  have hi2 : g2.Inv := (h0.play hplay).inv
  have hstart : g2.nfts.nfts[asset]? = some listed := by
    obtain ⟨g3, hinner, hnotes⟩ := hexec.play_eq hplay
    rw [hnotes]
    show g3.nfts.nfts[asset]? = some listed
    rw [playInner_list_nfts hinner]
    exact hlisted
  obtain ⟨n, hn, _, hsame⟩ := hlater.counts hi2 asset listed hstart
  have heq : n = nft := Option.some.inj (hn.symm.trans hnft)
  subst heq
  have hnow : n = listed := hsame (by omega)
  subst hnow
  refine ⟨g0, mv, key, g1, r, g2, h0, hexec, hlisted, hown, hplay, hlater, fun b hb hg => ?_⟩
  obtain ⟨m, hm, hle, hfirst⟩ := hb.counts hi2 asset n hstart
  obtain ⟨m', hm', hle', _⟩ := hg.counts ((hb.trace hi2).inv hi2) asset m hm
  have heq : m' = n := Option.some.inj (hm'.symm.trans hnft)
  subst heq
  rw [hm, hfirst (by omega)]

namespace GameBoard

/-- The price went from the buyer to the owner of the NFT, who is the buyer now, and the listing is
gone. -/
structure Sold (g : GameBoard) (asset : NftPtr) (nft : BaseNFT) (sale : NFTSale) (buyer : EntityID)
    (g' : GameBoard) : Prop where
  item : g.nfts.nfts[asset]? = some nft
  listed : g.nftSales[asset]? = some sale
  pays : nft.owner ≠ buyer →
    g'.balance sale.currency buyer + sale.price = g.balance sale.currency buyer
  receives : nft.owner ≠ buyer →
    g'.balance sale.currency nft.owner = g.balance sale.currency nft.owner + sale.price
  others : ∀ q who, q ≠ sale.currency ∨ who ≠ buyer ∧ who ≠ nft.owner ∨ nft.owner = buyer →
    g'.balance q who = g.balance q who
  owner : ∃ nft', g'.nfts.nfts[asset]? = some nft' ∧ nft'.owner = buyer
  unlisted : g'.nftSales[asset]? = none

/-- The purchase is all or nothing, and the listing it accepts is of the present ownership period. -/
structure SaleSafe (g : GameBoard) (setup : GameSetup) (origin : GameBoard) (p : PurchaseNFT)
    (buyer : EntityID) (g' : GameBoard) : Prop where
  atomic : g' = g ∨ ∃ nft sale, g.Sold p.nftId nft sale buyer g'
  replay : ∀ nft sale, g.CanSell p nft sale buyer → ListedSince setup origin p.nftId sale nft

/-- A player buys an NFT of another one that does not change hands. -/
def PaysForNothing (g : GameBoard) (p : PurchaseNFT) (buyer : EntityID) : Prop :=
  ∃ nft sale, g.CanSell p nft sale buyer ∧ nft.transferCount = maxTransferCount ∧
    nft.owner ≠ buyer

end GameBoard

private theorem sanitize_listNFTForSale {d : GameMove} {l : ListNFTForSale}
    (h : d.sanitize g = .ok (.listNFTForSale l)) : g.Has l.currency ∧ g.IsNft l.nftId := by
  cases d <;> simp only [GameMove.sanitize, bind_eq_ok_iff, pure_eq_ok, Except.ok.injEq,
    reduceCtorEq, and_false, exists_false] at h
  obtain ⟨l', hl', heq⟩ := h
  cases heq
  simp only [ListNFTForSale.sanitize, NftPtr.sanitize, TokenPointer.sanitize,
    bind_eq_ok_iff] at hl'
  obtain ⟨_, hnft, _, hcurrency, hl'⟩ := hl'
  cases hl'
  split at hnft
  · split at hcurrency
    · rename_i hcn hcc
      cases hnft
      cases hcurrency
      exact ⟨by simpa [Has, TokenRegistry.Has] using hcc, by simpa [IsNft] using hcn⟩
    · cases hcurrency
  · cases hnft

private theorem Listed.exists (h : Listed setup g asset sale) :
    g.Has sale.currency ∧ g.IsNft asset := by
  obtain ⟨g0, mv, key, g1, nft, r, g2, h0, hexec, _, _, _, hplay, hlater⟩ := h
  obtain ⟨hhas, hnft⟩ := sanitize_listNFTForSale hexec.sane
  have hfirst := (play_trace h0.inv hplay).extends h0.inv
  have hi2 := (h0.play hplay).inv
  have hext := hfirst.trans ((hlater.trace hi2).extends hi2)
  exact ⟨hext.has _ hhas, hext.nfts _ hnft⟩

private theorem Stage.nftsKept (h : Stage setup origin g) : origin.NftsKept g := by
  cases h with
  | between h => exact NftsKept.refl _
  | during h hexec => exact hexec.nftsKept h.inv

/-- What the open sales refer to exists. -/
def GameBoard.SalesSound (g : GameBoard) : Prop :=
  ∀ (asset : NftPtr) (sale : NFTSale), g.nftSales[asset]? = some sale →
    g.Has sale.currency ∧ g.IsNft asset

theorem Reachable.salesSound (h : Reachable setup g) : g.SalesSound :=
  fun asset sale hsale => (h.listed asset sale hsale).exists

theorem GameBoard.SalesSound.mono (h : g.SalesSound) (hext : g.Extends g')
    (hkept : g.NftsKept g') : g'.SalesSound := by
  intro asset sale hsale
  obtain ⟨hhas, hnft⟩ := h asset sale (hkept.sales ▸ hsale)
  exact ⟨hext.has _ hhas, hext.nfts _ hnft⟩

theorem purchase_returns (hi : g.Inv) (hsales : g.SalesSound) (buyer : EntityID)
    (p : PurchaseNFT) :
    ∃ x, g.nftSales.purchase buyer p.nftId g.tokens g.nfts p.limitPrice p.currency = .ok x := by
  unfold NFTSaleRegistry.purchase
  cases hsale : g.nftSales[p.nftId]? with
  | none => exact ⟨_, rfl⟩
  | some sale =>
    obtain ⟨hhas, hisnft⟩ := hsales _ _ hsale
    obtain ⟨nft, hnft⟩ := Option.isSome_iff_exists.mp hisnft
    have hindex : g.nfts.index p.nftId = .ok nft := by simp [NFTRegistry.index, hnft]
    simp only [hindex, ok_bind, TokenRegistry.transfer_eq hi.tokens hhas]
    by_cases hpays : g.tokens.balance sale.currency buyer < sale.price
    · simp only [if_pos hpays, ok_bind]
      repeat' split
      all_goals exact ⟨_, rfl⟩
    · simp only [if_neg hpays, ok_bind]
      repeat' split
      all_goals exact ⟨_, rfl⟩

private theorem purchase_of_canSell (hi : g.Inv) (h : g.CanSell p nft sale sender) :
    g.nftSales.purchase sender p.nftId g.tokens g.nfts p.limitPrice p.currency =
      .ok ((g.sell p.nftId nft sale sender).nftSales, (g.sell p.nftId nft sale sender).tokens,
        (g.sell p.nftId nft sale sender).nfts) := by
  have hindex : g.nfts.index p.nftId = .ok nft := by simp [NFTRegistry.index, h.item]
  have htransfer : g.tokens.transfer sale.currency sender nft.owner sale.price =
      .ok (true, g.tokens.moved sale.currency sender nft.owner sale.price) := by
    rw [TokenRegistry.transfer_eq hi.tokens h.has]
    exact if_neg (Nat.not_lt_of_le h.pays)
  unfold NFTSaleRegistry.purchase
  simp only [h.listed, hindex, ok_bind, h.seller, h.count, ← h.currency,
    Nat.not_lt_of_le h.limit, htransfer, ne_eq, not_true_eq_false, if_false]
  rfl

private theorem sold_sell (hsell : g.CanSell p nft sale sender)
    (hmoves : nft.transferCount ≠ maxTransferCount ∨ nft.owner = sender) :
    g.Sold p.nftId nft sale sender (g.sell p.nftId nft sale sender) := by
  have hbalance (q : TokenPointer) (who : EntityID) :
      (g.sell p.nftId nft sale sender).balance q who = _ :=
    TokenRegistry.moved_balance hsell.has
  have hpays := hsell.pays
  refine ⟨hsell.item, hsell.listed, fun hne => ?_, fun hne => ?_, fun q who hother => ?_, ?_, ?_⟩
  · rw [hbalance, if_pos rfl, if_pos rfl, if_neg hne]
    show g.balance sale.currency sender - sale.price + 0 + sale.price = _
    omega
  · rw [hbalance, if_pos rfl, if_neg (Ne.symm hne), if_pos rfl]
    rfl
  · rw [hbalance]
    by_cases hq : sale.currency = q
    · subst hq
      rw [if_pos rfl]
      show g.balance sale.currency who - _ + _ = _
      rcases hother with hq | ⟨hbuyer, hseller⟩ | hsame
      · exact absurd rfl hq
      · rw [if_neg (Ne.symm hbuyer), if_neg (Ne.symm hseller)]
        rfl
      · rw [hsame]
        split
        · rename_i hwho
          subst hwho
          omega
        · rfl
    · rw [if_neg hq]
      rfl
  · refine ⟨nft.transfer sender, by simp [sell], ?_⟩
    unfold BaseNFT.transfer
    split
    · rename_i hmax
      exact hmoves.resolve_left (fun hne => hne hmax)
    · rfl
  · simp [sell]

private theorem not_safe_sell (hsell : g.CanSell p nft sale sender)
    (hmax : nft.transferCount = maxTransferCount) (hne : nft.owner ≠ sender) :
    ¬ g.SaleSafe setup origin p sender (g.sell p.nftId nft sale sender) := by
  intro hsafe
  rcases hsafe.atomic with hsame | ⟨_, _, hsold⟩
  · have hlisted := hsell.listed
    rw [← hsame] at hlisted
    simp [sell] at hlisted
  · obtain ⟨nft', hnft', hown⟩ := hsold.owner
    have hkept : nft.transfer sender = nft := if_pos hmax
    simp only [sell, hkept, OrderedMap.getElem?_insert, if_true, Option.some.injEq] at hnft'
    exact hne (hnft' ▸ hown)

/-- A purchase is all or nothing and uses a listing of the present ownership period, just if it does
not pay for an NFT that does not change hands. -/
theorem purchase_safe_iff (h : Stage setup origin g) (p : PurchaseNFT) (sender : EntityID) :
    ∃ g', g.playInner (.purchaseNFT p) sender = .ok (.ok (), g') ∧
      (g.SaleSafe setup origin p sender g' ↔ ¬ g.PaysForNothing p sender) := by
  have hi := h.inv
  have hreplay : ∀ nft sale, g.CanSell p nft sale sender →
      ListedSince setup origin p.nftId sale nft := by
    intro nft sale hsell
    have hlisted := h.listed _ _ hsell.listed
    obtain ⟨n, hn⟩ := Option.isSome_iff_exists.mp hlisted.exists.2
    have heq : n = nft := Option.some.inj ((h.nftsKept.nfts _ _ hn).symm.trans hsell.item)
    exact hlisted.since (heq ▸ hn) hsell.count
  have hsales := h.reachable.salesSound.mono h.extends_board h.nftsKept
  obtain ⟨x, hx⟩ := purchase_returns hi hsales sender p
  have hinner : g.playInner (.purchaseNFT p) sender =
      .ok (.ok (), { g with nftSales := x.1, tokens := x.2.1, nfts := x.2.2 }) := by
    simp only [playInner, hx, ok_bind]
    rfl
  refine ⟨_, hinner, ?_⟩
  by_cases hsells : ∃ nft sale, g.CanSell p nft sale sender
  · obtain ⟨nft, sale, hsell⟩ := hsells
    cases hx.symm.trans (purchase_of_canSell hi hsell)
    constructor
    · rintro hsafe ⟨nft', sale', hsell', hmax, hne⟩
      cases hsell.item.symm.trans hsell'.item
      exact not_safe_sell hsell hmax hne hsafe
    · intro hpays
      refine ⟨.inr ⟨nft, sale, sold_sell hsell ?_⟩, hreplay⟩
      by_contra hstuck
      push Not at hstuck
      exact hpays ⟨nft, sale, hsell, hstuck.1, hstuck.2⟩
  · have hsame : x = (g.nftSales, g.tokens, g.nfts) := by
      rcases purchase_cases hi hx with hsame | ⟨nft, sale, hsell, _⟩
      · exact hsame
      · exact absurd ⟨nft, sale, hsell⟩ hsells
    subst hsame
    constructor
    · rintro _ ⟨nft, sale, hsell, _⟩
      exact hsells ⟨nft, sale, hsell⟩
    · exact fun _ => ⟨.inl rfl, hreplay⟩

/-- Bob's purchase of Alice's plant. -/
def bobBuys (nftId : NftPtr) : PurchaseNFT := { nftId, limitPrice := 7, currency := 0xc0de0001 }

theorem purchase_safe_plant : ∃ g g', Reachable twoPlayers g ∧
    g.playInner (.purchaseNFT (bobBuys 0xc0de0016)) 0xc0de0009 = .ok (.ok (), g') ∧
    g.SaleSafe twoPlayers g (bobBuys 0xc0de0016) 0xc0de0009 g' := by
  have h : returns (do
      let g ← GameBoard.new twoPlayers
      playAll [(aliceLists, "alice")] g) (fun g =>
        (g.nfts.nfts[(0xc0de0016 : NftPtr)]?.map (·.transferCount)) = some 0) := by
    decide +kernel
  obtain ⟨g, hok, htest⟩ := returns_iff.mp h
  simp only [bind_eq_ok_iff] at hok
  obtain ⟨g0, hnew, hrun⟩ := hok
  have hreach := (Reachable.new hnew).later (later_of_playAll hrun)
  obtain ⟨g', hinner, hiff⟩ := purchase_safe_iff (.between hreach) (bobBuys 0xc0de0016) 0xc0de0009
  refine ⟨g, g', hreach, hinner, hiff.mpr ?_⟩
  rintro ⟨nft, sale, hsell, hmax, _⟩
  have hitem : g.nfts.nfts[(0xc0de0016 : NftPtr)]? = some nft := hsell.item
  have hcount := of_decide_eq_true htest
  rw [hitem, Option.map_some, hmax] at hcount
  exact absurd hcount (by decide)

/-- Alice ships her machine, which makes a lockup, and offers the lockup for five coins. -/
def aliceListsLockup : List (MoveEnvelope × String) :=
  [({ d := .removeTokens { nftId := 0xc0de0016, amount := 1, currency := 0xc0de0004 }
      sequence := 1
      timeMillis := 0 }, "alice"),
   ({ d := .listNFTForSale { nftId := 0xc0de0018, price := 5, currency := 0xc0de0001 }
      sequence := 2
      timeMillis := 0 }, "alice")]

/-- Bob pays five coins for the lockup, and Alice keeps it. -/
theorem purchase_pays_for_nothing : ∃ g g', Reachable twoPlayers g ∧
    g.playInner (.purchaseNFT (bobBuys 0xc0de0018)) 0xc0de0009 = .ok (.ok (), g') ∧
    g'.balance 0xc0de0001 0xc0de0009 + 5 = g.balance 0xc0de0001 0xc0de0009 ∧
    g'.balance 0xc0de0001 0xc0de0008 = g.balance 0xc0de0001 0xc0de0008 + 5 ∧
    (g'.nfts.nfts[(0xc0de0018 : NftPtr)]?.map (·.owner)) = some 0xc0de0008 ∧
    ¬ g.SaleSafe twoPlayers g (bobBuys 0xc0de0018) 0xc0de0009 g' := by
  have h : returns (do
      let g ← GameBoard.new twoPlayers
      let g ← playAll aliceListsLockup g
      let y ← g.playInner (.purchaseNFT (bobBuys 0xc0de0018)) 0xc0de0009
      pure (g, y)) (fun x => x.2.1 = .ok () ∧
        x.2.2.balance 0xc0de0001 0xc0de0009 + 5 = x.1.balance 0xc0de0001 0xc0de0009 ∧
        x.2.2.balance 0xc0de0001 0xc0de0008 = x.1.balance 0xc0de0001 0xc0de0008 + 5 ∧
        (x.2.2.nfts.nfts[(0xc0de0018 : NftPtr)]?.map (·.owner)) = some 0xc0de0008) := by
    decide +kernel
  obtain ⟨x, hok, htest⟩ := returns_iff.mp h
  simp only [bind_eq_ok_iff, pure_eq_ok, Except.ok.injEq] at hok
  obtain ⟨g0, hnew, g, hrun, ⟨r, g'⟩, hinner, rfl⟩ := hok
  obtain ⟨hr, hpaid, hreceived, howner⟩ := of_decide_eq_true htest
  have hr : r = .ok () := hr
  subst hr
  refine ⟨g, g', (Reachable.new hnew).later (later_of_playAll hrun), hinner, hpaid, hreceived,
    howner, fun hsafe => ?_⟩
  rcases hsafe.atomic with hsame | ⟨_, _, hsold⟩
  · rw [hsame] at hpaid
    exact absurd hpaid (by simp)
  · obtain ⟨nft', hnft', hown⟩ := hsold.owner
    have hnft' : g'.nfts.nfts[(0xc0de0018 : NftPtr)]? = some nft' := hnft'
    rw [hnft', Option.map_some, hown] at howner
    exact absurd howner (by decide)

end JudicaVM
