import JudicaVM.Board.Custody
import JudicaVM.Board.Registries

/-!
# Shipments

What a player removes from a plant waits on the NFT of a lockup, which cannot be transferred and is
no plant. Nothing but the callback of the lockup takes it from there.
-/

namespace JudicaVM

open Checked Std OrderedMap Transition TimerQueue GameBoard

variable {setup : GameSetup} {g g' : GameBoard} {e : Event} {cb : Callback} {cbs : List Callback}
  {mv : MoveEnvelope} {key : String} {r : Except MoveRejectReason Unit} {sender owner : EntityID}
  {i : NftPtr} {p : TokenPointer} {U : EntityID → Prop}

/-- The lockups among some callbacks. -/
def lockups (s : Multiset Callback) : Multiset CoinLockup := s.filterMap Callback.lockup?

theorem lockups_add (s t : Multiset Callback) : lockups (s + t) = lockups s + lockups t :=
  Multiset.filterMap_add _ _ _

theorem mem_lockups {s : Multiset Callback} {l : CoinLockup} :
    l ∈ lockups s ↔ .coinLockup l ∈ s := by
  simp only [lockups, Multiset.mem_filterMap]
  constructor
  · rintro ⟨cb, hcb, hl⟩
    cases cb <;> cases hl
    exact hcb
  · intro hl
    exact ⟨_, hl, rfl⟩

private theorem lockups_eq_zero {s : Multiset Callback} (h : ∀ cb ∈ s, cb.issues) :
    lockups s = 0 := by
  apply Multiset.eq_zero_of_forall_notMem
  intro l hl
  cases h _ (mem_lockups.mp hl)

private theorem GameBoard.Passes.lockups {l : List Callback} (h : g.Passes g' l) :
    lockups g'.queue = lockups (l : Multiset Callback) + lockups g.queue := by
  rw [queue, h, bag_foldl_schedule, lockups_add]
  rfl

private theorem GameBoard.Runnable.lockups (h : g.Runnable cbs)
    (hrun : CallbackRegistry.runAll cbs g = .ok g') : lockups g'.queue = lockups g.queue := by
  induction cbs generalizing g with
  | nil =>
    cases hrun
    rfl
  | cons cb cbs ih =>
    simp only [CallbackRegistry.runAll, bind_eq_ok_iff] at hrun
    obtain ⟨g1, haction, hrun⟩ := hrun
    obtain ⟨next, hl, hrepeats⟩ := Callback.action_repeats h.inv h.base
      (h.sound cb List.mem_cons_self) haction
    have hzero : JudicaVM.lockups (next.toList : Multiset Callback) = 0 :=
      lockups_eq_zero fun c hc => (hrepeats c (Option.mem_toList.mp hc)).again
    rw [ih (h.next haction).1 hrun, hl.lockups, hzero, zero_add]

/-- An NFT that cannot be transferred and is no plant. -/
structure GameBoard.Sealed (g : GameBoard) (i : NftPtr) (owner : EntityID) : Prop where
  nft : ∃ n, g.nfts.nfts[i]? = some n ∧ n.owner = owner ∧ n.transferCount = maxTransferCount
  plant : g.nfts.powerPlants[i]? = none

theorem GameBoard.Sealed.isNft (h : g.Sealed i owner) : g.IsNft i := by
  obtain ⟨n, hn, _⟩ := h.nft
  exact Option.isSome_iff_exists.mpr ⟨n, hn⟩

theorem GameBoard.Sealed.of_eq (h : g.Sealed i owner) (hnfts : g'.nfts = g.nfts) :
    g'.Sealed i owner := by
  obtain ⟨hnft, hplant⟩ := h
  exact ⟨hnfts ▸ hnft, hnfts ▸ hplant⟩

private theorem Occurs.sealed (h : Occurs g e g') (hi : g.Inv) (hs : g.Sealed i owner) :
    g'.Sealed i owner := by
  obtain ⟨n, hn, hown, hcount⟩ := hs.nft
  cases h with
  | newNft nft plant hroom hid howner hplant =>
    have hne : nft.nftId ≠ i := by
      rintro rfl
      exact hi.not_isNft (hid ▸ Nat.lt_succ_self _) hs.isNft
    refine ⟨⟨n, ?_, hown, hcount⟩, ?_⟩
    · show (g.nfts.nfts.insert nft.nftId nft)[i]? = some n
      rw [OrderedMap.getElem?_insert, if_neg hne]
      exact hn
    · cases plant with
      | none => exact hs.plant
      | some plant =>
        show (g.nfts.powerPlants.insert nft.nftId plant)[i]? = none
        rw [OrderedMap.getElem?_insert, if_neg hne]
        exact hs.plant
  | sold asset nft sale buyer hnft hsale hseller hcount' hp hpays hbuyer =>
    refine ⟨⟨n, ?_, hown, hcount⟩, hs.plant⟩
    show (g.nfts.nfts.insert asset (nft.transfer buyer))[i]? = some n
    rw [OrderedMap.getElem?_insert]
    split
    · rename_i heq
      subst heq
      cases hn.symm.trans hnft
      rw [BaseNFT.transfer, if_pos hcount]
    · exact hn
  | _ => exact hs.of_eq rfl

theorem Trace.sealed {P : Event → Prop} (h : Trace P g g') (hi : g.Inv) (hs : g.Sealed i owner) :
    g'.Sealed i owner :=
  (Run.invariant (I := fun s => s.Inv ∧ s.Sealed i owner)
    (fun _ _ _ _ hs hstep => ⟨hstep.inv hs.1, hstep.sealed hs.1 hs.2⟩) h ⟨hi, hs⟩).2

/-- Nobody but the sender pays in the event. -/
def Event.PaidBy (sender : EntityID) (e : Event) : Prop := ∀ i, e.PaysFrom i → i = sender

private theorem IsOwnEvent.paidBy (h : IsOwnEvent sender e) : e.PaidBy sender := by
  intro i hi
  cases e <;> simp_all [IsOwnEvent, Event.PaysFrom]

private theorem IsOwnEvent.isQuiet (h : IsOwnEvent sender e) : IsQuiet e := by
  cases e <;> simp_all [IsOwnEvent, IsQuiet]

/-- A move other than a shipment schedules nothing, and nobody but its player pays. -/
theorem playInner_ships {d : GameMove} (hi : g.Inv) (hsender : g.IsUser sender)
    (hdest : ∀ s, d = .sendTokens s → g.Party s.dest) (h : g.playInner d sender = .ok (r, g')) :
    (g'.callbacks = g.callbacks ∧ Trace (Event.PaidBy sender) g g') ∨
      ∃ x, d = .removeTokens x ∧ g.CanShip x sender ∧
        CoinLockup.lockup g x.nftId sender x.currency x.amount 1 = .ok g' := by
  rcases playInner_kinds hi hsender hdest h with htrace | ⟨s, rfl, hchat⟩ |
    ⟨l, nft, rfl, hnft, hown, rfl⟩ | ⟨x, nft, sale, rfl, hsell, rfl⟩ | ⟨x, rfl, hremove⟩
  · left
    refine ⟨(Trace.framed hi (htrace.mono fun _ => IsOwnEvent.isQuiet)).callbacks, ?_⟩
    exact htrace.mono fun _ => IsOwnEvent.paidBy
  · left
    have heq := playChat_eq hchat
    refine ⟨?_, notes_trace (fun i hpays => hpays.elim) heq⟩
    rw [heq]
    rfl
  · left
    refine ⟨rfl, ?_⟩
    let sale : NFTSale :=
      { price := l.price
        currency := l.currency
        seller := nft.owner
        transferCount := nft.transferCount }
    exact Run.single (e := .list l.nftId sale) (fun i hpays => hpays.elim)
      (.list g l.nftId nft sale hnft rfl rfl)
  · left
    refine ⟨rfl, ?_⟩
    exact Run.single (e := .sold x.nftId sale sender) (fun i hpays => hpays.symm)
      (.sold g x.nftId nft sale sender hsell.item hsell.listed hsell.seller hsell.count hsell.has
        hsell.pays hsender)
  · rcases playRemoveTokens_cases hi hremove with rfl | ⟨hship, hlockup⟩
    · exact .inl ⟨rfl, Run.refl⟩
    · exact .inr ⟨x, rfl, hship, hlockup⟩

private theorem IsCallbackEvent.not_paysFrom (h : IsCallbackEvent U e) {i : EntityID} (hU : U i) :
    ¬ e.PaysFrom i := by
  intro hpays
  cases e <;> simp_all [IsCallbackEvent, Event.PaysFrom]

/-- The event adds an NFT or gives it another owner. -/
def Event.TouchesNfts : Event → Prop
  | .newNft _ _ => True
  | .sold _ _ _ => True
  | _ => False

private theorem Occurs.nfts_eq (h : Occurs g e g') (he : ¬ e.TouchesNfts) : g'.nfts = g.nfts := by
  cases h with
  | newNft nft plant hroom hid howner hplant => exact absurd trivial he
  | sold asset nft sale buyer hnft hsale hseller hcount hp hpays hbuyer => exact absurd trivial he
  | _ => rfl

theorem Trace.nfts_eq {P : Event → Prop} (h : Trace P g g') (hP : ∀ e, P e → ¬ e.TouchesNfts) :
    g'.nfts = g.nfts := by
  induction h with
  | refl => rfl
  | tail _ hstep ih =>
    obtain ⟨e, he, hstep⟩ := hstep
    exact (hstep.nfts_eq (hP e he)).trans ih

theorem IsCallbackEvent.keepsNfts (h : IsCallbackEvent U e) : ¬ e.TouchesNfts := by
  intro htouches
  cases e <;> simp_all [IsCallbackEvent, Event.TouchesNfts]

/-- A round of callbacks: the clock is set, what is due runs, and the move is logged. -/
structure Round (g : GameBoard) (mv : MoveEnvelope) (sender : EntityID) (clocked g1 : GameBoard) :
    Prop where
  clock : g.clockSet sender mv = .ok clocked
  notes : clocked = g.withNotes clocked
  runnable : clocked.dequeued.Runnable clocked.due
  run : ∃ ticked, CallbackRegistry.runAll clocked.due clocked.dequeued = .ok ticked ∧
    g1 = ticked.withNotes g1 ∧ g1.elapsedTime = clocked.elapsedTime
  due : ∀ cb, cb ∈ clocked.due ↔ g.Pending cb ∧ cb.time ≤ clocked.elapsedTime

theorem Executes.round {move : GameMove} {g1 : GameBoard} (h : Executes g mv key sender move g1)
    (hr : Reachable setup g) : ∃ clocked, Round g mv sender clocked g1 := by
  obtain ⟨clocked, ticked, hclock, hroom, hrun, hlog⟩ := h.stages
  have hrunnable := hr.runnable hclock
  have htrace := CallbackRegistry.runAll_trace (U := fun _ => False) hrunnable.inv hrunnable.sound
    (fun _ => False.elim) hrun
  have htime : ticked.elapsedTime = clocked.elapsedTime :=
    (htrace.sameClock fun e he => he.ne_note).1
  have hlogged : g1.elapsedTime = ticked.elapsedTime := by
    simp only [addToEventLog, bind_eq_ok_iff, pure_eq_ok, Except.ok.injEq] at hlog
    obtain ⟨_, _, rfl⟩ := hlog
    rfl
  exact ⟨clocked, hclock, clockSet_eq hclock, hrunnable,
    ⟨ticked, hrun, addToEventLog_eq hlog, hlogged.trans htime⟩, fun cb => hr.mem_due_iff hclock⟩

namespace Round

variable {clocked g1 : GameBoard}

theorem elapsedTime_eq (h : Round g mv sender clocked g1) :
    g1.elapsedTime = clocked.elapsedTime := by
  obtain ⟨_, _, _, htime⟩ := h.run
  exact htime

theorem nfts_eq (h : Round g mv sender clocked g1) : g1.nfts = g.nfts := by
  obtain ⟨ticked, hrun, hnotes, _⟩ := h.run
  have htrace := CallbackRegistry.runAll_trace (U := fun _ => False) h.runnable.inv
    h.runnable.sound (fun _ => False.elim) hrun
  have hticked : ticked.nfts = clocked.nfts := htrace.nfts_eq fun _ he => he.keepsNfts
  have hclocked : clocked.nfts = g.nfts := by
    rw [h.notes]
    rfl
  rw [hnotes]
  exact hticked.trans hclocked

/-- The lockups that are pending are those that were, less those that were due. -/
theorem lockups_add (h : Round g mv sender clocked g1) :
    lockups g1.queue + lockups (clocked.due : Multiset Callback) = lockups g.queue := by
  obtain ⟨ticked, hrun, hnotes, _⟩ := h.run
  have hqueue : g1.queue = ticked.queue := by
    rw [hnotes]
    rfl
  have hclocked : clocked.queue = g.queue := by
    rw [h.notes]
    rfl
  rw [hqueue, h.runnable.lockups hrun, ← JudicaVM.lockups_add, queue_dequeued, hclocked]

theorem mem_due (h : Round g mv sender clocked g1) {l : CoinLockup} :
    l ∈ lockups (clocked.due : Multiset Callback) ↔
      l ∈ lockups g.queue ∧ l.timeWhenFree ≤ clocked.elapsedTime := by
  rw [mem_lockups, mem_lockups, Multiset.mem_coe, h.due, mem_queue_iff]
  rfl

private theorem spares (h : Round g mv sender clocked g1) (hi : g.Inv) (hnft : g.IsNft i)
    (hcb : cb ∈ clocked.due) (hfree : ∀ l, cb.lockup? = some l → l.id ≠ i) :
    cb.Spares (· = i) where
  producer q hq := by
    rintro rfl
    have hsound := hi.callbacks cb ((h.due cb).mp hcb).1
    exact (hsound.producer q hq).own_id (mem_entityIds.mpr (.inr (.inr (.inr (.inl hnft)))))
  lockup l hl := hfree l hl

private theorem extends_board (h : Round g mv sender clocked g1) (hi : g.Inv) :
    g.Extends clocked.dequeued := by
  have hnotes : Trace (fun _ => True) g clocked := notes_trace trivial h.notes
  have hdequeue : Trace (fun _ => True) clocked clocked.dequeued := dequeued_trace fun _ => trivial
  exact (hnotes.extends hi).trans (hdequeue.extends (hnotes.inv hi))

theorem trace {done rest : List Callback} {a : GameBoard} (h : Round g mv sender clocked g1)
    (hdue : clocked.due = done ++ rest) (hU : ∀ cb ∈ done, cb.Spares U)
    (hrun : CallbackRegistry.runAll done clocked.dequeued = .ok a) :
    Trace (IsCallbackEvent U) clocked.dequeued a := by
  apply CallbackRegistry.runAll_events h.runnable.inv (fun cb hcb => ?_) hU hrun
  exact h.runnable.sound cb (hdue ▸ List.mem_append_left _ hcb)

/-- The first callbacks of a round take nothing from an NFT unless its lockup is among them. -/
theorem balance_le {done rest : List Callback} {a : GameBoard} (h : Round g mv sender clocked g1)
    (hi : g.Inv) (hnft : g.IsNft i) (hdue : clocked.due = done ++ rest)
    (hfree : ∀ l ∈ lockups (done : Multiset Callback), l.id ≠ i)
    (hrun : CallbackRegistry.runAll done clocked.dequeued = .ok a) :
    g.balance p i ≤ a.balance p i := by
  have hspares : ∀ cb ∈ done, cb.Spares (· = i) := by
    intro cb hcb
    refine h.spares hi hnft (hdue ▸ List.mem_append_left _ hcb) fun l hl => ?_
    exact hfree l ((Multiset.mem_filterMap _ _).mpr ⟨cb, Multiset.mem_coe.mpr hcb, hl⟩)
  have hmono : clocked.dequeued.balance p i ≤ a.balance p i :=
    (h.trace hdue hspares hrun).balance_mono h.runnable.inv (fun _ he => he.not_paysFrom rfl)
      ((h.extends_board hi).party (hi.party_of_nft hnft))
  have hbefore : clocked.dequeued.balance p i = g.balance p i := by
    show clocked.balance p i = _
    rw [h.notes]
    rfl
  rwa [hbefore] at hmono

/-- The callbacks of a call take nothing from an NFT whose lockup is not due. -/
theorem balance_mono (h : Round g mv sender clocked g1) (hi : g.Inv) (hnft : g.IsNft i)
    (hfree : ∀ l ∈ lockups g.queue, l.timeWhenFree ≤ g1.elapsedTime → l.id ≠ i) :
    g.balance p i ≤ g1.balance p i := by
  obtain ⟨ticked, hrun, hnotes, htime⟩ := h.run
  have hmono : g.balance p i ≤ ticked.balance p i := by
    refine h.balance_le hi hnft (List.append_nil _).symm (fun l hl => ?_) hrun
    obtain ⟨hpending, hle⟩ := h.mem_due.mp hl
    exact hfree l hpending (htime ▸ hle)
  rw [hnotes]
  exact hmono

end Round

/-- The pending lockups have different NFTs, which are sealed. -/
structure GameBoard.LockupsSealed (g : GameBoard) : Prop where
  nodup : ((lockups g.queue).map (·.id)).Nodup
  sealed : ∀ l ∈ lockups g.queue, ∃ owner, g.Sealed l.id owner

private theorem GameBoard.LockupsSealed.of_le (h : g.LockupsSealed)
    (hle : lockups g'.queue ≤ lockups g.queue)
    (hsealed : ∀ i owner, g.Sealed i owner → g'.Sealed i owner) : g'.LockupsSealed where
  nodup := Multiset.nodup_of_le (Multiset.map_le_map hle) h.nodup
  sealed l hl := by
    obtain ⟨owner, howner⟩ := h.sealed l (Multiset.mem_of_le hle hl)
    exact ⟨owner, hsealed _ _ howner⟩

private theorem lockedUp_queue {asset : TokenPointer} {time : ℕ} {tokens : TokenRegistry} :
    (g.lockedUp owner asset time tokens).queue = .coinLockup (newLockup g asset time) ::ₘ g.queue :=
  queue_schedule

theorem lockups_lockedUp {asset : TokenPointer} {time : ℕ} {tokens : TokenRegistry} :
    lockups (g.lockedUp owner asset time tokens).queue =
      newLockup g asset time ::ₘ lockups g.queue := by
  rw [lockedUp_queue]
  exact Multiset.filterMap_cons_some _ _ _ rfl

theorem lockedUp_sealed {asset : TokenPointer} {time : ℕ} {tokens : TokenRegistry} (hi : g.Inv) :
    (g.lockedUp owner asset time tokens).Sealed (g.alloc + 1) owner where
  nft := by
    refine ⟨lockupNft g owner, ?_, rfl, rfl⟩
    show (g.nfts.nfts.insert (g.alloc + 1) (lockupNft g owner))[g.alloc + 1]? = _
    rw [OrderedMap.getElem?_insert, if_pos rfl]
  plant := hi.not_plant (Nat.lt_succ_self _)

/-- A shipment takes the amount from its payer, if the payer has it, and nothing from others. -/
theorem CoinLockup.lockup_balance {payer : EntityID} {asset : TokenPointer} {amount time : ℕ}
    (hi : g.Inv) (hne : i ≠ g.alloc + 1)
    (h : CoinLockup.lockup g payer owner asset amount time = .ok g') :
    g'.balance p i =
      if asset = p ∧ payer = i ∧ amount ≤ g.balance p i then g.balance p i - amount
      else g.balance p i := by
  obtain ⟨paid, tokens, _, htransfer, rfl⟩ := CoinLockup.lockup_eq hi h
  have hhas := TokenRegistry.has_of_transfer htransfer
  rw [TokenRegistry.transfer_eq hi.tokens hhas] at htransfer
  show tokens.balance p i = _
  by_cases hpoor : g.tokens.balance asset payer < amount
  · rw [if_pos hpoor] at htransfer
    cases htransfer
    rw [if_neg]
    · rfl
    · rintro ⟨rfl, rfl, henough⟩
      exact absurd hpoor (Nat.not_lt_of_le henough)
  · rw [if_neg hpoor] at htransfer
    cases htransfer
    rw [TokenRegistry.moved_balance hhas, if_neg (Ne.symm hne), Nat.add_zero]
    by_cases hasset : asset = p
    · subst hasset
      by_cases hpayer : payer = i
      · subst hpayer
        rw [if_pos rfl, if_pos rfl, if_pos ⟨rfl, rfl, Nat.le_of_not_lt hpoor⟩]
        rfl
      · rw [if_pos rfl, if_neg hpayer, if_neg fun hall => hpayer hall.2.1]
        rfl
    · rw [if_neg hasset, if_neg fun hall => hasset hall.1]
      rfl

private theorem GameBoard.LockupsSealed.lockedUp {asset : TokenPointer} {time : ℕ}
    {tokens : TokenRegistry}
    (h : g.LockupsSealed) (hi : g.Inv)
    (hsealed : ∀ i owner', g.Sealed i owner' → (g.lockedUp owner asset time tokens).Sealed i owner') :
    (g.lockedUp owner asset time tokens).LockupsSealed where
  nodup := by
    rw [lockups_lockedUp, Multiset.map_cons, Multiset.nodup_cons]
    refine ⟨fun hmem => ?_, h.nodup⟩
    obtain ⟨l, hl, hid⟩ := Multiset.mem_map.mp hmem
    obtain ⟨owner', howner⟩ := h.sealed l hl
    have hisnft := howner.isNft
    rw [hid] at hisnft
    exact hi.not_isNft (Nat.lt_succ_self g.alloc) hisnft
  sealed l hl := by
    rw [lockups_lockedUp] at hl
    rcases Multiset.mem_cons.mp hl with rfl | hl
    · exact ⟨owner, lockedUp_sealed hi⟩
    · obtain ⟨owner', howner⟩ := h.sealed l hl
      exact ⟨owner', hsealed _ _ howner⟩

private theorem Executes.move_lockupsSealed {move : GameMove} {g1 g2 : GameBoard}
    (h : Executes g mv key sender move g1) (hi : g.Inv) (hl : g1.LockupsSealed)
    (hinner : g1.playInner move sender = .ok (r, g2)) : g2.LockupsSealed := by
  have hi1 := h.inv hi
  have htrace := h.move_trace (U := fun _ => False) hi (fun _ => False.elim) hinner
  rcases playInner_ships hi1 ((h.extends_board hi).isUser (h.isUser hi)) (h.party_dest hi) hinner with
    ⟨hsame, _⟩ | ⟨x, _, _, hlockup⟩
  · refine hl.of_le ?_ fun i owner hs => htrace.sealed hi1 hs
    rw [queue, hsame]
    exact le_rfl
  · obtain ⟨paid, tokens, _, _, rfl⟩ := CoinLockup.lockup_eq hi1 hlockup
    exact hl.lockedUp hi1 fun i owner hs => htrace.sealed hi1 hs

private theorem new_lockups (h : GameBoard.new setup = .ok g) : lockups g.queue = 0 := by
  obtain ⟨l, hl, hperiod⟩ := new_passes h
  apply Multiset.eq_zero_of_forall_notMem
  intro x hx
  have hmem := mem_lockups.mp hx
  rw [queue, hl, bag_foldl_schedule, bag_empty, add_zero] at hmem
  exact absurd (hperiod _ (Multiset.mem_coe.mp hmem)) (Nat.lt_irrefl 0)

theorem Reachable.lockupsSealed (h : Reachable setup g) : g.LockupsSealed := by
  induction h with
  | new hnew =>
    have hzero := new_lockups hnew
    exact ⟨by rw [hzero]; exact Multiset.nodup_zero, fun l hl => by rw [hzero] at hl; cases hl⟩
  | play hg hplay ih =>
    have hi := hg.inv
    rcases play_cases hplay with ⟨hnotes, _⟩ | ⟨sender, move, g1, g2, hexec, hinner, hnotes⟩
    · rw [hnotes]
      exact ih.of_le le_rfl fun i owner hs => hs.of_eq rfl
    · obtain ⟨clocked, hround⟩ := hexec.round hg
      have hround1 : g1.LockupsSealed := by
        refine ih.of_le ?_ fun i owner hs => hs.of_eq hround.nfts_eq
        rw [← hround.lockups_add]
        exact Multiset.le_add_right _ _
      have hmoved := hexec.move_lockupsSealed hi hround1 hinner
      rw [hnotes]
      exact hmoved.of_le le_rfl fun i owner hs => hs.of_eq rfl

end JudicaVM
