import JudicaVM.Board.Reachable

/-!
# Custody

A move of one player takes no coins from another, and takes an NFT from another only as the sale
that its owner has opened, at the listed price.
-/

namespace JudicaVM

open Checked Std OrderedMap Transition GameBoard

variable {setup : GameSetup} {origin g g' : GameBoard} {e : Event} {p : TokenPointer}
  {U : EntityID → Prop} {sender other : EntityID}

/-- The event takes coins from an account. -/
def Event.PaysFrom (i : EntityID) : Event → Prop
  | .transfer _ payer _ _ => payer = i
  | .swap _ _ _ _ _ trader => trader = i
  | .deposit _ _ _ depositor => depositor = i
  | .sold _ _ buyer => buyer = i
  | _ => False

private theorem Occurs.balance_mono {i : EntityID} (hi : g.Inv) (h : Occurs g e g')
    (he : ¬ e.PaysFrom i)
    (hparty : g.Party i) : g.balance p i ≤ g'.balance p i := by
  cases h with
  | openMarket pair shares hnone hnormal hA hB hroom => exact (openMarket_balance hi).ge
  | transfer q payer receiver amount hq hpays hpayer hreceiver =>
    have hpayer : payer ≠ i := he
    have heq : (g.tokens.moved q payer receiver amount).balance p i = _ :=
      TokenRegistry.moved_balance hq
    simp only [GameBoard.balance, withTokens, heq, if_neg hpayer]
    split
    · rename_i hp
      subst hp
      exact Nat.le_add_right _ _
    · exact le_rfl
  | mint q dest amount hq hfits hdest =>
    have heq : (g.tokens.minted q dest amount).balance p i = _ := TokenRegistry.minted_balance hq
    simp only [GameBoard.balance, withTokens, heq]
    exact Nat.le_add_right _ _
  | swap m selling buying sellAmt buyAmt trader h =>
    have hacc : m.id ≠ i := hparty.not_market m.pair m h.market
    exact (h.balance_other hi hacc he).ge
  | deposit m amountA amountB toMint depositor h =>
    have hacc : m.id ≠ i := hparty.not_market m.pair m h.market
    exact (h.balance_other hi hacc he).ge
  | sold asset nft sale buyer hnft hsale hseller hcount hq hpays hbuyer =>
    have hbuyer : buyer ≠ i := he
    have heq : (g.tokens.moved sale.currency buyer nft.owner sale.price).balance p i = _ :=
      TokenRegistry.moved_balance hq
    simp only [GameBoard.balance, GameBoard.sell, heq, if_neg hbuyer]
    split
    · rename_i hp
      subst hp
      exact Nat.le_add_right _ _
    · exact le_rfl
  | _ => exact le_rfl

theorem Trace.balance_mono {P : Event → Prop} {i : EntityID} (hi : g.Inv) (h : Trace P g g')
    (hP : ∀ e, P e → ¬ e.PaysFrom i) (hparty : g.Party i) : g.balance p i ≤ g'.balance p i := by
  have hrel := Run.relates (I := fun s => s.Inv ∧ s.Party i)
    (R := fun s s' => s.balance p i ≤ s'.balance p i)
    (fun _ _ _ _ hs hstep => ⟨hstep.inv hs.1, (hstep.extends hs.1).party hs.2⟩)
    (fun _ => le_rfl) (fun _ _ _ => Nat.le_trans)
    (fun _ _ _ he hs hstep => hstep.balance_mono hs.1 (hP _ he) hs.2) h
  exact hrel ⟨hi, hparty⟩

private theorem IsPlayerEvent.not_paysFrom (h : IsPlayerEvent U sender e) (hother : U other)
    (hne : other ≠ sender) : ¬ e.PaysFrom other := by
  cases e with
  | transfer q payer receiver amount =>
    rintro rfl
    exact h.elim hne fun hnot => hnot hother
  | swap pair selling buying sellAmt buyAmt trader => exact fun heq => hne (heq.symm.trans h)
  | deposit pair amountA amountB depositor => exact h.elim
  | sold asset sale buyer => exact fun heq => hne (heq.symm.trans h)
  | _ => exact fun hf => hf

private theorem Trace.balance_le (hi : g.Inv) (h : Trace (IsPlayerEvent (· = other) sender) g g')
    (huser : g.IsUser other) (hne : other ≠ sender) : g.balance p other ≤ g'.balance p other :=
  h.balance_mono hi (fun _ he => he.not_paysFrom rfl hne) (hi.party_of_user huser)

private theorem playInner_balance_le {d : GameMove} {r : Except MoveRejectReason Unit} (hi : g.Inv)
    (hsender : g.IsUser sender) (huser : g.IsUser other) (hne : other ≠ sender)
    (h : g.playInner d sender = .ok (r, g')) : g.balance p other ≤ g'.balance p other := by
  by_cases hsend : ∃ s, d = .sendTokens s
  · -- the receiver may be the account of a market, so this is not a run of events
    obtain ⟨s, rfl⟩ := hsend
    simp only [playInner, bind_eq_ok_iff] at h
    obtain ⟨⟨moved, tokens⟩, htransfer, h⟩ := h
    cases h
    have hp := TokenRegistry.has_of_transfer htransfer
    rw [TokenRegistry.transfer_eq hi.tokens hp] at htransfer
    split at htransfer <;> cases htransfer
    · exact le_rfl
    · simp only [GameBoard.balance]
      rw [TokenRegistry.moved_balance hp, if_neg hne.symm]
      split
      · rename_i hcurrency
        subst hcurrency
        exact Nat.le_add_right _ _
      · exact le_rfl
  · have htrace := playInner_trace (U := (· = other)) hi hsender (fun i hi' => hi' ▸ huser)
      (fun s hs => absurd ⟨s, hs⟩ hsend) h
    exact Trace.balance_le hi htrace huser hne

/-- The events that neither list nor sell an NFT. -/
def KeepsNfts : Event → Prop
  | .list _ _ => False
  | .sold _ _ _ => False
  | _ => True

namespace GameBoard

/-- The NFTs of the first board are unchanged on the second, and so are the sales. -/
structure NftsKept (g g' : GameBoard) : Prop where
  nfts : ∀ (i : NftPtr) n, g.nfts.nfts[i]? = some n → g'.nfts.nfts[i]? = some n
  sales : g'.nftSales = g.nftSales

theorem NftsKept.refl (g : GameBoard) : g.NftsKept g := ⟨fun _ _ h => h, rfl⟩

private theorem NftsKept.trans {g'' : GameBoard} (h : g.NftsKept g') (h' : g'.NftsKept g'') :
    g.NftsKept g'' :=
  ⟨fun i n hn => h'.nfts i n (h.nfts i n hn), h'.sales.trans h.sales⟩

private theorem nftsKept_of_eq (hn : g'.nfts = g.nfts) (hs : g'.nftSales = g.nftSales) :
    g.NftsKept g' :=
  ⟨fun _ _ h => hn ▸ h, hs⟩

end GameBoard

private theorem IsMoveOf.keepsNfts (h : IsMoveOf U sender e) : KeepsNfts e := by
  cases e <;> simp_all [IsMoveOf, KeepsNfts]

theorem IsTickEvent.keepsNfts (h : IsTickEvent U e) : KeepsNfts e := by
  cases e <;> simp_all [IsTickEvent, IsCallbackEvent, KeepsNfts]

private theorem IsSetupEvent.keepsNfts (h : IsSetupEvent e) : KeepsNfts e := by
  cases e <;> simp_all [IsSetupEvent, KeepsNfts]

private theorem Occurs.nftsKept (hi : g.Inv) (h : Occurs g e g') (he : KeepsNfts e) :
    g.NftsKept g' := by
  cases h with
  | newNft nft plant hroom hid howner hplant =>
    refine ⟨fun i n hn => ?_, rfl⟩
    have hne : nft.nftId ≠ i := fun heq => hi.not_isNft (i := i)
      (by rw [← heq, hid]; exact Nat.lt_succ_self _) (by simp [IsNft, hn])
    simpa [addNft, OrderedMap.getElem?_insert, hne] using hn
  | list asset nft sale hnft hseller hcount => exact he.elim
  | sold asset nft sale buyer hnft hsale hseller hcount hq hpays hbuyer => exact he.elim
  | _ => exact nftsKept_of_eq rfl rfl

theorem Trace.nftsKept (hi : g.Inv) (h : Trace KeepsNfts g g') : g.NftsKept g' :=
  Run.relates (fun _ _ _ _ hi hs => hs.inv hi) NftsKept.refl (fun _ _ _ => NftsKept.trans)
    (fun _ _ _ he hi hs => hs.nftsKept hi he) h hi

theorem Executes.nftsKept {mv : MoveEnvelope} {key : String} {move : GameMove} (hi : g.Inv)
    (h : Executes g mv key sender move g') : g.NftsKept g' := by
  have htrace := h.trace (U := fun _ => False) hi (fun _ => False.elim)
  exact Trace.nftsKept hi (htrace.mono fun _ => IsTickEvent.keepsNfts)

/-- A move keeps all NFTs and sales, or lists one NFT of the player, or is a purchase. -/
theorem playInner_nfts {d : GameMove} {r : Except MoveRejectReason Unit} (hi : g.Inv)
    (hsender : g.IsUser sender) (h : g.playInner d sender = .ok (r, g')) :
    g.NftsKept g' ∨
      (∃ l nft, d = .listNFTForSale l ∧ g.nfts.nfts[l.nftId]? = some nft ∧ nft.owner = sender ∧
        g' = g.listed l nft) ∨
      ∃ p nft sale, d = .purchaseNFT p ∧ g.CanSell p nft sale sender ∧
        g' = g.sell p.nftId nft sale sender := by
  by_cases hsend : ∃ s, d = .sendTokens s
  · obtain ⟨s, rfl⟩ := hsend
    simp only [playInner, bind_eq_ok_iff] at h
    obtain ⟨_, _, h⟩ := h
    cases h
    exact .inl (nftsKept_of_eq rfl rfl)
  · rcases playInner_cases (U := fun _ => False) hi hsender (fun _ => False.elim)
      (fun s hs => absurd ⟨s, hs⟩ hsend) h with htrace | ⟨s, _, hchat⟩ | hrest
    · exact .inl (Trace.nftsKept hi (htrace.mono fun _ => IsMoveOf.keepsNfts))
    · rw [playChat_eq hchat]
      exact .inl (nftsKept_of_eq rfl rfl)
    · exact .inr hrest

/-- A sale was opened by a call of its seller, who then owned the NFT. -/
def Listed (setup : GameSetup) (g : GameBoard) (asset : NftPtr) (sale : NFTSale) : Prop :=
  ∃ g0 mv key g1 nft r g2, Reachable setup g0 ∧
    Executes g0 mv key sale.seller
      (.listNFTForSale { nftId := asset, price := sale.price, currency := sale.currency }) g1 ∧
    g1.nfts.nfts[asset]? = some nft ∧ nft.owner = sale.seller ∧
    nft.transferCount = sale.transferCount ∧ g0.play mv key = .ok (r, g2) ∧ Later g2 g

private theorem Listed.later {asset : NftPtr} {sale : NFTSale} (h : Listed setup g asset sale)
    (hl : Later g g') : Listed setup g' asset sale := by
  obtain ⟨g0, mv, key, g1, nft, r, g2, h0, hexec, hnft, hown, hcount, hplay, hlater⟩ := h
  exact ⟨g0, mv, key, g1, nft, r, g2, h0, hexec, hnft, hown, hcount, hplay, hlater.trans hl⟩

private theorem new_nftSales (h : GameBoard.new setup = .ok g) : g.nftSales = ∅ := by
  obtain ⟨g0, hblank, htrace⟩ := new_trace h
  have hkept := Trace.nftsKept ((blank_spec hblank).1.setFinishTime _)
    (htrace.mono fun _ => IsSetupEvent.keepsNfts)
  rw [hkept.sales]
  cases hblank
  rfl

theorem Reachable.listed (h : Reachable setup g) (asset : NftPtr) (sale : NFTSale)
    (hsale : g.nftSales[asset]? = some sale) : Listed setup g asset sale := by
  induction h with
  | new h =>
    rw [new_nftSales h] at hsale
    simp at hsale
  | @play g g' mv key r hg hplay ih =>
    have hlater : Later g g' := .single ⟨mv, key, r, hplay⟩
    rcases play_cases hplay with ⟨hnotes, _⟩ | ⟨sender, move, g1, g2, hexec, hinner, hnotes⟩
    · rw [hnotes] at hsale
      exact (ih hsale).later hlater
    · rw [hnotes] at hsale
      have hkept := hexec.nftsKept hg.inv
      have hsender := (hexec.extends_board hg.inv).isUser (hexec.isUser hg.inv)
      rcases playInner_nfts (hexec.inv hg.inv) hsender hinner with hsame |
        ⟨l, nft, rfl, hnft, hown, rfl⟩ | ⟨p, nft, sold, rfl, _, rfl⟩
      · refine (ih ?_).later hlater
        rw [← hkept.sales, ← hsame.sales]
        exact hsale
      · simp only [withNotes, GameBoard.listed, OrderedMap.getElem?_insert] at hsale
        split at hsale
        · rename_i hasset
          cases hsale
          subst hasset hown
          exact ⟨g, mv, key, g1, nft, r, g', hg, hexec, hnft, rfl, rfl, hplay, .refl⟩
        · rw [hkept.sales] at hsale
          exact (ih hsale).later hlater
      · simp only [withNotes, GameBoard.sell, ExtTreeMap.getElem?_erase] at hsale
        split at hsale
        · cases hsale
        · rw [hkept.sales] at hsale
          exact (ih hsale).later hlater

theorem Stage.listed (h : Stage setup origin g) (asset : NftPtr) (sale : NFTSale)
    (hsale : g.nftSales[asset]? = some sale) : Listed setup origin asset sale := by
  cases h with
  | between h => exact h.listed asset sale hsale
  | during h hexec =>
    rw [(hexec.nftsKept h.inv).sales] at hsale
    exact h.listed asset sale hsale

/-- A move of one player lowers no balance of another user. An NFT of another user stays with that
user, unless it is bought by the move: then its owner had listed it, and is paid the listed price. -/
theorem playInner_custody (h : Stage setup origin g) {d : GameMove} {r : Except MoveRejectReason Unit}
    (hsender : g.IsUser sender) (hother : g.IsUser other) (hne : other ≠ sender)
    (hinner : g.playInner d sender = .ok (r, g')) :
    (∀ p, g.balance p other ≤ g'.balance p other) ∧
      ∀ (i : NftPtr) n, g.nfts.nfts[i]? = some n → n.owner = other →
        (∃ n', g'.nfts.nfts[i]? = some n' ∧ n'.owner = other) ∨
          ∃ purchase sale, d = .purchaseNFT purchase ∧ purchase.nftId = i ∧
            g.nftSales[i]? = some sale ∧ sale.seller = other ∧ Listed setup origin i sale ∧
            g'.balance sale.currency other = g.balance sale.currency other + sale.price := by
  have hi := h.inv
  refine ⟨fun p => playInner_balance_le hi hsender hother hne hinner, fun i n hn hown => ?_⟩
  rcases playInner_nfts hi hsender hinner with hsame | ⟨l, nft, _, _, _, rfl⟩ |
    ⟨purchase, nft, sale, rfl, hsell, rfl⟩
  · exact .inl ⟨n, hsame.nfts i n hn, hown⟩
  · exact .inl ⟨n, hn, hown⟩
  · by_cases hitem : purchase.nftId = i
    · subst hitem
      have heq : nft = n := Option.some.inj (hsell.item.symm.trans hn)
      subst heq
      have hseller : sale.seller = other := hsell.seller.trans hown
      refine .inr ⟨purchase, sale, rfl, rfl, hsell.listed, hseller,
        h.listed _ _ hsell.listed, ?_⟩
      simp only [GameBoard.balance, GameBoard.sell]
      rw [TokenRegistry.moved_balance hsell.has, if_pos rfl, if_neg hne.symm, if_pos hown,
        Nat.sub_zero]
    · refine .inl ⟨n, ?_, hown⟩
      simpa [GameBoard.sell, OrderedMap.getElem?_insert, hitem] using hn

/-- Alice offers her plant for five coins. -/
def aliceLists : MoveEnvelope :=
  { d := .listNFTForSale { nftId := 0xc0de0016, price := 5, currency := 0xc0de0001 }
    sequence := 1
    timeMillis := 0 }

/-- The purchase of Alice's plant by Bob. -/
theorem playInner_custody_sale : ∃ g g' r, Reachable twoPlayers g ∧
    g.playInner (.purchaseNFT { nftId := 0xc0de0016, limitPrice := 7, currency := 0xc0de0001 })
      0xc0de0009 = .ok (r, g') ∧
    (g'.nfts.nfts[(0xc0de0016 : NftPtr)]?.map (·.owner)) = some 0xc0de0009 ∧
    (∀ p, g.balance p 0xc0de0008 ≤ g'.balance p 0xc0de0008) ∧
    ∃ sale, Listed twoPlayers g 0xc0de0016 sale ∧
      g'.balance sale.currency 0xc0de0008 = g.balance sale.currency 0xc0de0008 + sale.price := by
  have h : returns (do
      let g ← GameBoard.new twoPlayers
      let g ← playAll [(aliceLists, "alice")] g
      let y ← g.playInner (.purchaseNFT
        { nftId := 0xc0de0016, limitPrice := 7, currency := 0xc0de0001 }) 0xc0de0009
      pure (g, y)) (fun x =>
        x.1.IsUser 0xc0de0009 ∧ x.1.IsUser 0xc0de0008 ∧
        (x.1.nfts.nfts[(0xc0de0016 : NftPtr)]?.map (·.owner)) = some 0xc0de0008 ∧
        (x.2.2.nfts.nfts[(0xc0de0016 : NftPtr)]?.map (·.owner)) = some 0xc0de0009) := by
    decide +kernel
  obtain ⟨x, hok, htest⟩ := returns_iff.mp h
  simp only [bind_eq_ok_iff, pure_eq_ok, Except.ok.injEq] at hok
  obtain ⟨g0, hnew, g, hplay, ⟨r, g'⟩, hinner, rfl⟩ := hok
  obtain ⟨hbob, halice, hbefore, hafter⟩ := of_decide_eq_true htest
  have hreach := (Reachable.new hnew).later (later_of_playAll hplay)
  obtain ⟨hbalance, hnfts⟩ := playInner_custody (.between hreach) hbob halice (by decide) hinner
  refine ⟨g, g', r, hreach, hinner, hafter, hbalance, ?_⟩
  obtain ⟨n, hn, hown⟩ := Option.map_eq_some_iff.mp hbefore
  rcases hnfts _ n hn hown with ⟨n', hn', hown'⟩ | ⟨_, sale, _, _, _, _, hlisted, hpaid⟩
  · rw [hn'] at hafter
    simp only [Option.map_some, Option.some.injEq] at hafter
    rw [hown'] at hafter
    exact absurd hafter (by decide)
  · exact ⟨sale, hlisted, hpaid⟩

end JudicaVM
