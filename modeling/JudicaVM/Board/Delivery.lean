import JudicaVM.Board.Shipping

/-!
# Deliveries

A shipment is a lockup that is free at time one, whatever the time of the shipment is. Until the
first callbacks at time one or later its tokens wait on the NFT of the lockup, and these callbacks
deliver them; so the delivery takes the shipping time only if the clock moves in between.
-/

namespace JudicaVM

open Checked Std OrderedMap Transition GameBoard

variable {setup : GameSetup} {g g' : GameBoard} {mv : MoveEnvelope} {key : String}
  {r : Except MoveRejectReason Unit} {sender owner : EntityID} {l : CoinLockup} {amount due : ℕ}
  {calls : List (MoveEnvelope × String)}

namespace GameBoard

/-- A call processes ticks, with the clock at `time`. -/
def TicksAt (g : GameBoard) (mv : MoveEnvelope) (key : String) (time : ℕ) : Prop :=
  ∃ sender move g1, Executes g mv key sender move g1 ∧ g1.elapsedTime = time

/-- A lockup is pending, its NFT has the tokens, and nobody but its owner can own that. -/
structure Waits (g : GameBoard) (l : CoinLockup) (amount : ℕ) (owner : EntityID) : Prop where
  pending : l ∈ lockups g.queue
  holds : amount ≤ g.balance l.asset l.id
  sealed : g.Sealed l.id owner

/-- Among the callbacks of a call the lockup runs once, and its owner gets all that its NFT has. -/
def Releases (g : GameBoard) (mv : MoveEnvelope) (key : String) (l : CoinLockup) (amount : ℕ)
    (owner : EntityID) : Prop :=
  ∃ sender clocked done rest a b, g.usersByKey[key]? = some sender ∧
    g.clockSet sender mv = .ok clocked ∧ clocked.due = done ++ .coinLockup l :: rest ∧
    .coinLockup l ∉ done ∧ .coinLockup l ∉ rest ∧
    CallbackRegistry.runAll done clocked.dequeued = .ok a ∧ (Callback.coinLockup l).action a = .ok b ∧
    amount ≤ a.balance l.asset l.id ∧ b.balance l.asset l.id = 0 ∧
    b.balance l.asset owner = a.balance l.asset owner + a.balance l.asset l.id

/-- In a run the tokens of a lockup wait for the first call that processes ticks at `due` or later;
this call delivers them, and the lockup does not come back. -/
inductive Delivery (due : ℕ) (l : CoinLockup) (amount : ℕ) (owner : EntityID) :
    List (MoveEnvelope × String) → GameBoard → Prop
  | nil {g : GameBoard} (hwaits : g.Waits l amount owner) : Delivery due l amount owner [] g
  | wait {g g' : GameBoard} {mv : MoveEnvelope} {key : String} {r : Except MoveRejectReason Unit}
      {calls : List (MoveEnvelope × String)} (hwaits : g.Waits l amount owner)
      (hplay : g.play mv key = .ok (r, g')) (hearly : ∀ time, g.TicksAt mv key time → time < due)
      (hrest : Delivery due l amount owner calls g') :
      Delivery due l amount owner ((mv, key) :: calls) g
  | release {g g' : GameBoard} {mv : MoveEnvelope} {key : String}
      {r : Except MoveRejectReason Unit} {calls : List (MoveEnvelope × String)} {time : ℕ}
      (hwaits : g.Waits l amount owner) (hplay : g.play mv key = .ok (r, g'))
      (hticks : g.TicksAt mv key time) (hlate : due ≤ time)
      (hreleases : g.Releases mv key l amount owner)
      (hnever : ∀ before after b, calls = before ++ after → playAll before g' = .ok b →
        l ∉ lockups b.queue) :
      Delivery due l amount owner ((mv, key) :: calls) g

/-- The first call of a run that processes ticks at `start` or later does so at a time of which `P`
holds. -/
def FirstTickFrom (start : ℕ) (P : ℕ → Prop) : List (MoveEnvelope × String) → GameBoard → Prop
  | [], _ => True
  | (mv, key) :: calls, g => (∀ time, g.TicksAt mv key time → start ≤ time → P time) ∧
      ((∀ time, g.TicksAt mv key time → time < start) →
        ∀ r g', g.play mv key = .ok (r, g') → FirstTickFrom start P calls g')

private theorem Delivery.waits (h : Delivery due l amount owner calls g) :
    g.Waits l amount owner := by
  cases h <;> assumption

end GameBoard

section

variable {clocked g1 : GameBoard}

private theorem GameBoard.Waits.early (hw : g.Waits l amount owner) (h : Reachable setup g)
    (hround : Round g mv sender clocked g1) (hearly : g1.elapsedTime < l.timeWhenFree) :
    g1.Waits l amount owner := by
  rw [hround.elapsedTime_eq] at hearly
  have hnot : l ∉ lockups (clocked.due : Multiset Callback) := by
    intro hl
    exact Nat.not_le_of_lt hearly (hround.mem_due.mp hl).2
  have hpending : l ∈ lockups g1.queue := by
    have hl := hw.pending
    rw [← hround.lockups_add, Multiset.mem_add] at hl
    exact hl.resolve_right hnot
  have hmono : g.balance l.asset l.id ≤ g1.balance l.asset l.id := by
    apply hround.balance_mono h.inv hw.sealed.isNft
    intro l' hl' hle hid
    have hsame := Multiset.inj_on_of_nodup_map h.lockupsSealed.nodup l' hl' l hw.pending hid
    rw [hsame, hround.elapsedTime_eq] at hle
    exact Nat.not_le_of_lt hearly hle
  exact ⟨hpending, hw.holds.trans hmono, hw.sealed.of_eq hround.nfts_eq⟩

private theorem CoinLockup.action_balance {b : GameBoard} (hi : g.Inv) (hs : g.Sealed l.id owner)
    (hfree : l.timeWhenFree ≤ g.elapsedTime) (h : (Callback.coinLockup l).action g = .ok b) :
    b.balance l.asset l.id = 0 ∧
      b.balance l.asset owner = g.balance l.asset owner + g.balance l.asset l.id := by
  obtain ⟨nft, hnft, rfl, _⟩ := hs.nft
  have hne : nft.owner ≠ l.id := by
    intro heq
    exact hi.not_isUser_of_isNft hs.isNft (heq ▸ (hi.nfts _ nft hnft).2)
  simp only [Callback.action, CoinLockup.action, NFTRegistry.index, hnft, unwrap_some, ok_bind,
    if_neg (Nat.not_lt_of_le hfree), bind_eq_ok_iff, pure_eq_ok, Except.ok.injEq] at h
  obtain ⟨balance, hbalance, ⟨paid, tokens⟩, htransfer, rfl⟩ := h
  obtain ⟨hhas, rfl⟩ := TokenRegistry.balanceCheck_eq_ok_iff.mp hbalance
  rw [TokenRegistry.transfer_eq hi.tokens hhas, if_neg (Nat.lt_irrefl _)] at htransfer
  cases htransfer
  refine ⟨?_, ?_⟩
  · show (g.tokens.moved _ _ _ _).balance _ _ = _
    rw [TokenRegistry.moved_balance hhas, if_pos rfl, if_pos rfl, if_neg hne, Nat.sub_self]
  · show (g.tokens.moved _ _ _ _).balance _ _ = _
    rw [TokenRegistry.moved_balance hhas, if_pos rfl, if_neg (Ne.symm hne), if_pos rfl, Nat.sub_zero]
    rfl

private theorem GameBoard.Waits.late (hw : g.Waits l amount owner) (h : Reachable setup g)
    (hround : Round g mv sender clocked g1) (hkey : g.usersByKey[key]? = some sender)
    (hlate : l.timeWhenFree ≤ g1.elapsedTime) :
    g.Releases mv key l amount owner ∧ l ∉ lockups g1.queue := by
  rw [hround.elapsedTime_eq] at hlate
  have hmem : .coinLockup l ∈ clocked.due :=
    Multiset.mem_coe.mp (mem_lockups.mp (hround.mem_due.mpr ⟨hw.pending, hlate⟩))
  obtain ⟨done, rest, hdue⟩ := List.append_of_mem hmem
  have hsplit : lockups g.queue =
      l ::ₘ (lockups g1.queue + (lockups (done : Multiset Callback) +
        lockups (rest : Multiset Callback))) := by
    rw [← hround.lockups_add, hdue, ← Multiset.coe_add, lockups_add, ← Multiset.cons_coe]
    have hcons : lockups (.coinLockup l ::ₘ (rest : Multiset Callback)) =
        l ::ₘ lockups (rest : Multiset Callback) := Multiset.filterMap_cons_some _ _ _ rfl
    rw [hcons, Multiset.add_cons, Multiset.add_cons]
  have hids := h.lockupsSealed.nodup
  rw [hsplit, Multiset.map_cons, Multiset.nodup_cons] at hids
  have hother : ∀ l' ∈ lockups g1.queue + (lockups (done : Multiset Callback) +
      lockups (rest : Multiset Callback)), l'.id ≠ l.id := by
    intro l' hl' hid
    exact hids.1 (Multiset.mem_map.mpr ⟨l', hl', hid⟩)
  obtain ⟨ticked, hrun, _, _⟩ := hround.run
  rw [hdue] at hrun
  obtain ⟨a, hdone, hrun⟩ := CallbackRegistry.runAll_append hrun
  simp only [CallbackRegistry.runAll, bind_eq_ok_iff] at hrun
  obtain ⟨b, haction, _⟩ := hrun
  have htrace := hround.trace (U := fun _ => False) hdue
    (fun cb hcb => (hround.runnable.sound cb (hdue ▸ List.mem_append_left _ hcb)).spares
      hround.runnable.inv fun _ => False.elim) hdone
  have hnfts : a.nfts = g.nfts := by
    refine (htrace.nfts_eq fun _ he => he.keepsNfts).trans ?_
    show clocked.nfts = _
    rw [hround.notes]
    rfl
  have htime : a.elapsedTime = clocked.elapsedTime :=
    (htrace.sameClock fun _ he => he.ne_note).1
  have hbalance : g.balance l.asset l.id ≤ a.balance l.asset l.id := by
    apply hround.balance_le h.inv hw.sealed.isNft hdue _ hdone
    intro l' hl'
    exact hother l' (Multiset.mem_add.mpr (.inr (Multiset.mem_add.mpr (.inl hl'))))
  obtain ⟨hempty, hcredit⟩ := CoinLockup.action_balance (htrace.inv hround.runnable.inv)
    (hw.sealed.of_eq hnfts) (htime ▸ hlate) haction
  refine ⟨⟨sender, clocked, done, rest, a, b, hkey, hround.clock, hdue, fun hl => ?_,
    fun hl => ?_, hdone, haction, hw.holds.trans hbalance, hempty, hcredit⟩, fun hl => ?_⟩
  · refine hother l (Multiset.mem_add.mpr (.inr (Multiset.mem_add.mpr (.inl ?_)))) rfl
    exact mem_lockups.mpr (Multiset.mem_coe.mpr hl)
  · refine hother l (Multiset.mem_add.mpr (.inr (Multiset.mem_add.mpr (.inr ?_)))) rfl
    exact mem_lockups.mpr (Multiset.mem_coe.mpr hl)
  · exact hother l (Multiset.mem_add.mpr (.inl hl)) rfl

private theorem GameBoard.Waits.move {move : GameMove} {g2 : GameBoard}
    (hw : g1.Waits l amount owner)
    (hi : g.Inv) (hexec : Executes g mv key sender move g1)
    (hinner : g1.playInner move sender = .ok (r, g2)) : g2.Waits l amount owner := by
  have hi1 := hexec.inv hi
  have hsender := (hexec.extends_board hi).isUser (hexec.isUser hi)
  have hnft := hw.sealed.isNft
  have htrace := hexec.move_trace (U := fun _ => False) hi (fun _ => False.elim) hinner
  have hsealed := htrace.sealed hi1 hw.sealed
  rcases playInner_ships hi1 hsender (hexec.party_dest hi) hinner with
    ⟨hsame, hpaid⟩ | ⟨x, rfl, hship, hlockup⟩
  · have hne : l.id ≠ sender := by
      intro heq
      exact hi1.not_isUser_of_isNft hnft (heq ▸ hsender)
    have hmono := hpaid.balance_mono (p := l.asset) hi1 (fun e he hpays => hne (he l.id hpays))
      (hi1.party_of_nft hnft)
    refine ⟨?_, hw.holds.trans hmono, hsealed⟩
    rw [queue, hsame]
    exact hw.pending
  · have hid : l.id ≠ g1.alloc + 1 := by
      intro heq
      exact hi1.not_isNft (heq ▸ Nat.lt_succ_self g1.alloc) hnft
    have hplant : x.nftId ≠ l.id := by
      intro heq
      have hsome := hship.plant
      rw [heq, hw.sealed.plant] at hsome
      cases hsome
    refine ⟨?_, ?_, hsealed⟩
    · obtain ⟨paid, tokens, _, _, rfl⟩ := CoinLockup.lockup_eq hi1 hlockup
      rw [lockups_lockedUp]
      exact Multiset.mem_cons_of_mem hw.pending
    · rw [CoinLockup.lockup_balance hi1 hid hlockup, if_neg fun hall => hplant hall.2.1]
      exact hw.holds

private theorem Executes.lockups_move {move : GameMove} {g2 : GameBoard} (hi : g.Inv)
    (hexec : Executes g mv key sender move g1) (hinner : g1.playInner move sender = .ok (r, g2))
    (hl : l ∈ lockups g2.queue) : l ∈ lockups g1.queue ∨ ¬ g1.IsNft l.id := by
  have hi1 := hexec.inv hi
  rcases playInner_ships hi1 ((hexec.extends_board hi).isUser (hexec.isUser hi))
    (hexec.party_dest hi) hinner with ⟨hsame, _⟩ | ⟨x, _, _, hlockup⟩
  · left
    rw [queue, hsame] at hl
    exact hl
  · obtain ⟨paid, tokens, _, _, rfl⟩ := CoinLockup.lockup_eq hi1 hlockup
    rw [lockups_lockedUp, Multiset.mem_cons] at hl
    rcases hl with rfl | hl
    · exact .inr (hi1.not_isNft (Nat.lt_succ_self _))
    · exact .inl hl

end

private theorem GameBoard.Waits.play (hw : g.Waits l amount owner) (h : Reachable setup g)
    (hplay : g.play mv key = .ok (r, g'))
    (hearly : ∀ time, g.TicksAt mv key time → time < l.timeWhenFree) : g'.Waits l amount owner := by
  rcases play_cases hplay with ⟨hnotes, _⟩ | ⟨sender, move, g1, g2, hexec, hinner, hnotes⟩
  · rw [hnotes]
    exact ⟨hw.pending, hw.holds, hw.sealed.of_eq rfl⟩
  · obtain ⟨clocked, hround⟩ := hexec.round h
    have hw1 := hw.early h hround (hearly _ ⟨sender, move, g1, hexec, rfl⟩)
    have hw2 := hw1.move h.inv hexec hinner
    rw [hnotes]
    exact ⟨hw2.pending, hw2.holds, hw2.sealed.of_eq rfl⟩

private theorem GameBoard.Waits.release {time : ℕ} (hw : g.Waits l amount owner)
    (h : Reachable setup g)
    (hplay : g.play mv key = .ok (r, g')) (hticks : g.TicksAt mv key time)
    (hlate : l.timeWhenFree ≤ time) :
    g.Releases mv key l amount owner ∧ l ∉ lockups g'.queue := by
  obtain ⟨sender, move, g1, hexec, rfl⟩ := hticks
  obtain ⟨clocked, hround⟩ := hexec.round h
  obtain ⟨hreleases, hgone⟩ := hw.late h hround hexec.user hlate
  obtain ⟨g2, hinner, hnotes⟩ := hexec.play_eq hplay
  refine ⟨hreleases, fun hl => ?_⟩
  rw [hnotes] at hl
  rcases hexec.lockups_move h.inv hinner hl with hl | hnft
  · exact hgone hl
  · exact hnft (hw.sealed.of_eq hround.nfts_eq).isNft

private theorem play_lockups (h : Reachable setup g) (hplay : g.play mv key = .ok (r, g'))
    (hl : l ∈ lockups g'.queue) : l ∈ lockups g.queue ∨ ¬ g.IsNft l.id := by
  rcases play_cases hplay with ⟨hnotes, _⟩ | ⟨sender, move, g1, g2, hexec, hinner, hnotes⟩
  · rw [hnotes] at hl
    exact .inl hl
  · obtain ⟨clocked, hround⟩ := hexec.round h
    rw [hnotes] at hl
    rcases hexec.lockups_move h.inv hinner hl with hl | hnft
    · left
      rw [← hround.lockups_add]
      exact Multiset.mem_add.mpr (.inl hl)
    · right
      rwa [IsNft, hround.nfts_eq] at hnft

private theorem lockup_gone (h : Reachable setup g) (hrun : playAll calls g = .ok g')
    (hnft : g.IsNft l.id) (hgone : l ∉ lockups g.queue) : l ∉ lockups g'.queue := by
  induction calls generalizing g with
  | nil =>
    cases hrun
    exact hgone
  | cons call calls ih =>
    obtain ⟨mv, key⟩ := call
    simp only [playAll, bind_eq_ok_iff] at hrun
    obtain ⟨⟨r, g1⟩, hplay, hrun⟩ := hrun
    obtain ⟨nft, hn⟩ := Option.isSome_iff_exists.mp hnft
    obtain ⟨nft', hn', _⟩ := ((play_trace h.inv hplay).grows h.inv).nfts l.id nft hn
    refine ih (h.play hplay) hrun (Option.isSome_iff_exists.mpr ⟨nft', hn'⟩) fun hl => ?_
    rcases play_lockups h hplay hl with hl | hnot
    · exact hgone hl
    · exact hnot hnft

private theorem GameBoard.TicksAt.elapsedTime_eq {time : ℕ} (h : g.TicksAt mv key time)
    (hreach : Reachable setup g) (hplay : g.play mv key = .ok (r, g')) : g'.elapsedTime = time := by
  obtain ⟨sender, move, g1, hexec, rfl⟩ := h
  obtain ⟨clocked, hround⟩ := hexec.round hreach
  have hreports : g.Reports mv key sender :=
    ⟨⟨hexec.user, hexec.running, hexec.accepted⟩, by rw [hexec.sane]; rfl⟩
  obtain ⟨_, _, clocked', _, hclock, hsame⟩ := hreports.executes hreach.inv hplay
  cases hround.clock.symm.trans hclock
  exact hsame.1.trans hround.elapsedTime_eq.symm

private theorem delivery_iff (h : Reachable setup g) (hw : g.Waits l amount owner)
    (hdue : l.timeWhenFree ≤ due) (hrun : playAll calls g = .ok g') :
    Delivery due l amount owner calls g ↔ FirstTickFrom l.timeWhenFree (due ≤ ·) calls g := by
  induction calls generalizing g with
  | nil => exact iff_of_true (.nil hw) trivial
  | cons call calls ih =>
    obtain ⟨mv, key⟩ := call
    simp only [playAll, bind_eq_ok_iff] at hrun
    obtain ⟨⟨r, g1⟩, hplay, hrun⟩ := hrun
    have h1 := h.play hplay
    by_cases hlate : ∃ time, g.TicksAt mv key time ∧ l.timeWhenFree ≤ time
    · obtain ⟨time, hticks, hfree⟩ := hlate
      obtain ⟨hreleases, hgone⟩ := hw.release h hplay hticks hfree
      have htime := hticks.elapsedTime_eq h hplay
      constructor
      · intro hdelivery
        cases hdelivery with
        | wait _ hplay' _ hrest =>
          cases hplay.symm.trans hplay'
          exact absurd hrest.waits.pending hgone
        | release _ _ hticks' hlate' _ _ =>
          have htime' := hticks'.elapsedTime_eq h hplay
          refine ⟨fun t ht _ => ?_, fun hearly => ?_⟩
          · rw [← ht.elapsedTime_eq h hplay, htime']
            exact hlate'
          · exact absurd (hearly time hticks) (Nat.not_lt_of_le hfree)
      · intro hfirst
        refine .release hw hplay hticks (hfirst.1 time hticks hfree) hreleases ?_
        intro before after b _ hbefore
        obtain ⟨n, hn, _⟩ := hw.sealed.nft
        obtain ⟨n', hn', _⟩ := ((play_trace h.inv hplay).grows h.inv).nfts l.id n hn
        exact lockup_gone h1 hbefore (Option.isSome_iff_exists.mpr ⟨n', hn'⟩) hgone
    · have hearly : ∀ time, g.TicksAt mv key time → time < l.timeWhenFree := by
        intro time hticks
        exact Nat.lt_of_not_le fun hfree => hlate ⟨time, hticks, hfree⟩
      have hrest := ih h1 (hw.play h hplay hearly) hrun
      constructor
      · intro hdelivery
        cases hdelivery with
        | wait _ hplay' _ hdelivery =>
          cases hplay.symm.trans hplay'
          refine ⟨fun time hticks hfree => absurd hfree (Nat.not_le_of_lt (hearly time hticks)), ?_⟩
          intro _ r2 g2 hplay2
          cases hplay.symm.trans hplay2
          exact hrest.mp hdelivery
        | release _ _ hticks hlate' _ _ =>
          exact absurd ⟨_, hticks, hdue.trans hlate'⟩ hlate
      · intro hfirst
        refine .wait hw hplay (fun time hticks => ?_) (hrest.mpr (hfirst.2 hearly r g1 hplay))
        exact (hearly time hticks).trans_le hdue

private theorem shipment_waits {x : RemoveTokens} {g1 : GameBoard} (hi : g.Inv)
    (hexec : Executes g mv key sender (.removeTokens x) g1) (hship : g1.CanShip x sender)
    (hamount : x.amount ≤ g1.balance x.currency x.nftId) (hplay : g.play mv key = .ok (r, g')) :
    g'.Waits (newLockup g1 x.currency 1) x.amount sender := by
  obtain ⟨g2, hinner, hnotes⟩ := hexec.play_eq hplay
  have hi1 := hexec.inv hi
  simp only [playInner, playRemoveTokens_ships hi1 hship, bind_eq_ok_iff] at hinner
  obtain ⟨_, hlockup, hinner⟩ := hinner
  cases hinner
  obtain ⟨paid, tokens, _, htransfer, heq⟩ := CoinLockup.lockup_eq hi1 hlockup
  rw [heq] at hnotes
  have hhas := TokenRegistry.has_of_transfer htransfer
  have hpays : ¬ g1.tokens.balance x.currency x.nftId < x.amount := Nat.not_lt_of_le hamount
  rw [TokenRegistry.transfer_eq hi1.tokens hhas, if_neg hpays] at htransfer
  cases htransfer
  rw [hnotes]
  refine ⟨?_, ?_, ?_⟩
  · show _ ∈ lockups (g1.lockedUp sender x.currency 1 g1.tokens).queue
    rw [lockups_lockedUp]
    exact Multiset.mem_cons_self _ _
  · show _ ≤ (g1.tokens.moved _ _ _ _).balance x.currency (g1.alloc + 1)
    rw [TokenRegistry.moved_balance hhas, if_pos rfl, if_pos rfl]
    exact Nat.le_add_left _ _
  · have hsealed : (g1.lockedUp sender x.currency 1 g1.tokens).Sealed (g1.alloc + 1) sender :=
      lockedUp_sealed hi1
    exact hsealed.of_eq rfl

/-- A shipment takes the shipping time if and only if the first callbacks that find the clock moved
find it past the time of the shipment. -/
theorem shipment_delivered {x : RemoveTokens} {g1 g2 : GameBoard} (h : Reachable setup g)
    (hexec : Executes g mv key sender (.removeTokens x) g1) (hship : g1.CanShip x sender)
    (hamount : x.amount ≤ g1.balance x.currency x.nftId) (hplay : g.play mv key = .ok (r, g'))
    (hrun : playAll calls g' = .ok g2) :
    Delivery (g1.elapsedTime + 1) (newLockup g1 x.currency 1) x.amount sender calls g' ↔
      FirstTickFrom 1 (g1.elapsedTime + 1 ≤ ·) calls g' :=
  delivery_iff (h.play hplay) (shipment_waits h.inv hexec hship hamount hplay)
    (Nat.le_add_left 1 _) hrun

/-- One machine of Alice's plant. -/
def oneMachine : RemoveTokens := { nftId := 0xc0de0016, amount := 1, currency := 0xc0de0004 }

/-- Alice's second move ships a machine after three seconds. -/
def shipMachine : MoveEnvelope := { d := .removeTokens oneMachine, sequence := 2, timeMillis := 3000 }

/-- Alice's third move reports a time. -/
def waitUntil (time : ℕ) : MoveEnvelope := { d := .heartbeat, sequence := 3, timeMillis := time }

private theorem twoPlayers_ships : ∃ g g1 r g', Reachable twoPlayers g ∧
    Executes g shipMachine "alice" 0xc0de0008 (.removeTokens oneMachine) g1 ∧
    g1.CanShip oneMachine 0xc0de0008 ∧ 1 ≤ g1.balance 0xc0de0004 0xc0de0016 ∧
    g1.elapsedTime = 3000 ∧ g.play shipMachine "alice" = .ok (r, g') ∧
    (∃ a, playAll [(waitUntil 3000, "alice")] g' = .ok a ∧ a.elapsedTime = 3000 ∧
      a.balance 0xc0de0004 (newLockup g1 0xc0de0004 1).id = 0) ∧
    ∃ b, playAll [(waitUntil 5000, "alice")] g' = .ok b ∧ b.elapsedTime = 5000 := by
  have h : returns (do
      let g0 ← GameBoard.new twoPlayers
      let g ← playAll [(opening, "alice")] g0
      let finished ← g.gameIsFinished
      let accepted ← acceptsSequence (g.playerMoveSequence.getD 0xc0de0008 0) 2
      let g1 ← ({ g with
        playerMoveSequence := g.playerMoveSequence.insert 0xc0de0008 2 } : GameBoard).advance
          (.removeTokens oneMachine) 3000 0xc0de0008
      let shipped ← g.play shipMachine "alice"
      let a ← playAll [(waitUntil 3000, "alice")] shipped.2
      let b ← playAll [(waitUntil 5000, "alice")] shipped.2
      pure ((g, finished, accepted, g1), a, b)) (fun x =>
        (x.1.1.usersByKey["alice"]? = some 0xc0de0008 ∧ x.1.2.1 = none ∧ x.1.2.2.1 = true ∧
          shipMachine.d.sanitize { x.1.1 with
            playerMoveSequence := x.1.1.playerMoveSequence.insert 0xc0de0008 2 } =
              .ok (.removeTokens oneMachine)) ∧
          ((x.1.2.2.2.nfts.nfts[(0xc0de0016 : NftPtr)]?.map (·.owner)) = some 0xc0de0008 ∧
            x.1.2.2.2.nfts.powerPlants[(0xc0de0016 : NftPtr)]?.isSome) ∧
          (1 ≤ x.1.2.2.2.balance 0xc0de0004 0xc0de0016 ∧ x.1.2.2.2.elapsedTime = 3000) ∧
          (x.2.1.elapsedTime = 3000 ∧
            x.2.1.balance 0xc0de0004 (newLockup x.1.2.2.2 0xc0de0004 1).id = 0) ∧
          x.2.2.elapsedTime = 5000) := by
    decide +kernel
  obtain ⟨x, hok, htest⟩ := returns_iff.mp h
  simp only [bind_eq_ok_iff, pure_eq_ok, Except.ok.injEq] at hok
  obtain ⟨g0, hnew, g, hg, finished, hfinished, accepted, haccepted, g1, hadvance, ⟨r, g'⟩, hplay,
    a, ha, b, hb, rfl⟩ := hok
  obtain ⟨⟨hkey, rfl, rfl, hsane⟩, ⟨howner, hplant⟩, ⟨hamount, htime⟩, hsame, hlater⟩ :=
    of_decide_eq_true htest
  obtain ⟨nft, hnft, hown⟩ := Option.map_eq_some_iff.mp howner
  exact ⟨g, g1, r, g', (Reachable.new hnew).later (later_of_playAll hg),
    ⟨hkey, hfinished, haccepted, hsane, hadvance⟩, ⟨⟨nft, hnft, hown⟩, hplant⟩, hamount, htime, hplay,
    ⟨a, ha, hsame⟩, b, hb, hlater⟩

/-- A machine shipped after three seconds arrives after five. -/
theorem shipment_delivered_later : ∃ g g1 g', Reachable twoPlayers g ∧
    Executes g shipMachine "alice" 0xc0de0008 (.removeTokens oneMachine) g1 ∧
    g1.elapsedTime = 3000 ∧
    Delivery 3001 (newLockup g1 0xc0de0004 1) 1 0xc0de0008 [(waitUntil 5000, "alice")] g' := by
  obtain ⟨g, g1, r, g', hg, hexec, hship, hamount, htime, hplay, _, b, hb, hlater⟩ := twoPlayers_ships
  have hdelivery := (shipment_delivered hg hexec hship hamount hplay hb).mpr
  rw [htime] at hdelivery
  refine ⟨g, g1, g', hg, hexec, htime, hdelivery ⟨fun time hticks _ => ?_, fun _ _ _ _ => trivial⟩⟩
  simp only [playAll, bind_eq_ok_iff, pure_eq_ok, Except.ok.injEq] at hb
  obtain ⟨⟨_, _⟩, hplay', rfl⟩ := hb
  rw [← hticks.elapsedTime_eq (hg.play hplay) hplay', hlater]
  decide

/-- A machine shipped after three seconds arrives with the next call, at the same time. -/
theorem delivery_at_once : ∃ g g1 r g' a, Reachable twoPlayers g ∧
    Executes g shipMachine "alice" 0xc0de0008 (.removeTokens oneMachine) g1 ∧
    g1.CanShip oneMachine 0xc0de0008 ∧ 1 ≤ g1.balance 0xc0de0004 0xc0de0016 ∧
    g1.elapsedTime = 3000 ∧ g.play shipMachine "alice" = .ok (r, g') ∧
    playAll [(waitUntil 3000, "alice")] g' = .ok a ∧
    ¬ Delivery (g1.elapsedTime + 1) (newLockup g1 0xc0de0004 1) 1 0xc0de0008
      [(waitUntil 3000, "alice")] g' := by
  obtain ⟨g, g1, r, g', hg, hexec, hship, hamount, htime, hplay, ⟨a, ha, hsame, hnone⟩, _⟩ :=
    twoPlayers_ships
  refine ⟨g, g1, r, g', a, hg, hexec, hship, hamount, htime, hplay, ha, fun hdelivery => ?_⟩
  simp only [playAll, bind_eq_ok_iff, pure_eq_ok, Except.ok.injEq] at ha
  obtain ⟨⟨_, _⟩, hplay', rfl⟩ := ha
  cases hdelivery with
  | wait _ hplay2 _ hrest =>
    cases hplay'.symm.trans hplay2
    have hholds := hrest.waits.holds
    rw [show (newLockup g1 0xc0de0004 1).asset = 0xc0de0004 from rfl, hnone] at hholds
    cases hholds
  | release _ _ hticks hlate _ _ =>
    rw [← hticks.elapsedTime_eq (hg.play hplay) hplay', hsame, htime] at hlate
    exact absurd hlate (by decide)

end JudicaVM
