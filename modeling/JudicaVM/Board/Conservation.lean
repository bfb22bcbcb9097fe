import JudicaVM.Board.Reachable

/-!
# Conservation of supply

Only the mints of producers and of mining payouts, and the shares of a deposit, change the total of
a token. No move of a player does.
-/

namespace JudicaVM

open Checked Std OrderedMap Transition GameBoard

variable {setup : GameSetup} {origin g g' : GameBoard} {e : Event} {p : TokenPointer}
  {sender : EntityID}

/-- The events that leave the total of every token as it is. -/
def Conserves : Event → Prop
  | .mint _ _ _ => False
  | .deposit _ _ _ _ => False
  | _ => True

private theorem IsPlayerEvent.conserves {U : EntityID → Prop} (h : IsPlayerEvent U sender e) :
    Conserves e := by
  cases e <;> simp_all [IsPlayerEvent, IsMoveOf, Conserves]

namespace GameBoard

/-- The existing tokens keep their totals. -/
def SupplyEq (g g' : GameBoard) : Prop := ∀ p, g.Has p → g'.Has p ∧ g'.total p = g.total p

theorem SupplyEq.refl (g : GameBoard) : g.SupplyEq g := fun _ hp => ⟨hp, rfl⟩

theorem SupplyEq.trans {g'' : GameBoard} (h : g.SupplyEq g') (h' : g'.SupplyEq g'') :
    g.SupplyEq g'' := by
  intro p hp
  obtain ⟨hp', htotal⟩ := h p hp
  obtain ⟨hp'', htotal'⟩ := h' p hp'
  exact ⟨hp'', htotal'.trans htotal⟩

theorem openMarket_total {pair : TradingPairID} {shares : String} (hi : g.Inv) (hp : g.Has p) :
    (g.openMarket pair shares).total p = g.total p := by
  have hle : p ≤ g.alloc := hi.ids_le p (mem_entityIds.mpr (.inr (.inr (.inl hp))))
  have hne : g.alloc + 1 ≠ p := fun heq => by
    subst heq
    exact Nat.not_succ_le_self g.alloc hle
  simp [total, TokenRegistry.total, openMarket, TokenRegistry.newToken_getElem?, TokenBase.empty,
    hne]

end GameBoard

theorem Occurs.supplyEq (hi : g.Inv) (h : Occurs g e g') (he : Conserves e) : g.SupplyEq g' := by
  intro p hp
  refine ⟨(h.extends hi).has p hp, ?_⟩
  cases h with
  | openMarket pair shares hnone hnormal hA hB hroom => exact openMarket_total hi hp
  | transfer q payer receiver amount hq hpays hpayer hreceiver => exact TokenRegistry.moved_total
  | mint q dest amount hq hfits hdest => exact he.elim
  | swap m selling buying sellAmt buyAmt trader h => exact swapped_total
  | deposit m amountA amountB toMint depositor h => exact he.elim
  | sold asset nft sale buyer hnft hsale hseller hcount hq hpays hbuyer =>
    exact TokenRegistry.moved_total
  | _ => rfl

private theorem Trace.supplyEq (hi : g.Inv) (h : Trace Conserves g g') : g.SupplyEq g' :=
  Run.relates (fun _ _ _ _ hi hs => hs.inv hi) SupplyEq.refl (fun _ _ _ => SupplyEq.trans)
    (fun _ _ _ he hi hs => hs.supplyEq hi he) h hi

private theorem playInner_supplyEq {d : GameMove} {r : Except MoveRejectReason Unit} (hi : g.Inv)
    (hsender : g.IsUser sender) (h : g.playInner d sender = .ok (r, g')) : g.SupplyEq g' := by
  by_cases hsend : ∃ s, d = .sendTokens s
  · -- the receiver may be the account of a market, so this is not a run of events
    obtain ⟨s, rfl⟩ := hsend
    simp only [playInner, bind_eq_ok_iff] at h
    obtain ⟨⟨moved, tokens⟩, htransfer, h⟩ := h
    cases h
    rw [TokenRegistry.transfer_eq hi.tokens (TokenRegistry.has_of_transfer htransfer)] at htransfer
    split at htransfer <;> cases htransfer
    · exact .refl g
    · exact fun q hq => ⟨TokenRegistry.moved_has.mpr hq, TokenRegistry.moved_total⟩
  · have htrace := playInner_trace (U := fun _ => False) hi hsender (fun _ => False.elim)
      (fun s hs => absurd ⟨s, hs⟩ hsend) h
    exact Trace.supplyEq hi (htrace.mono fun _ => IsPlayerEvent.conserves)

private theorem GameBoard.SupplyEq.of_notes (h : g' = g.withNotes g') : g.SupplyEq g' := by
  rw [h]
  exact SupplyEq.refl g

/-- The parts of a call that executes the move of its sender: the clock, the callbacks that are due, in
their order, the log, the move, and notes of its result. -/
structure CallParts (g : GameBoard) (mv : MoveEnvelope) (key : String)
    (r : Except MoveRejectReason Unit) (g' : GameBoard) where
  sender : EntityID
  move : GameMove
  clocked : GameBoard
  ticked : GameBoard
  logged : GameBoard
  moved : GameBoard
  executes : Executes g mv key sender move logged
  clock : g.clockSet sender mv = .ok clocked
  ticks : CallbackRegistry.runAll clocked.due clocked.dequeued = .ok ticked
  log : ticked.addToEventLog sender (.gameMove move) = .ok logged
  inner : logged.playInner move sender = .ok (r, moved)
  noted : g' = moved.withNotes g'

/-- Every part but the producers and the payouts keeps the totals. -/
structure CallParts.KeepsSupply {mv : MoveEnvelope} {key : String}
    {r : Except MoveRejectReason Unit} (c : CallParts g mv key r g') : Prop where
  clock : g.SupplyEq c.clocked
  dequeued : c.clocked.SupplyEq c.clocked.dequeued
  callback : ∀ done cb rest a b, c.clocked.due = done ++ cb :: rest →
    CallbackRegistry.runAll done c.clocked.dequeued = .ok a → cb.action a = .ok b →
      cb.issues = false → a.SupplyEq b
  log : c.ticked.SupplyEq c.logged
  move : c.logged.SupplyEq c.moved
  noted : c.moved.SupplyEq g'

private theorem Callback.action_supplyEq {cb : Callback} (hi : g.Inv) (hcb : g.CallbackSound cb)
    (hissues : cb.issues = false) (h : cb.action g = .ok g') : g.SupplyEq g' := by
  cases cb with
  | coinLockup l =>
    have htrace : Trace Conserves g g' :=
      CoinLockup.action_trace hi (hcb.lockup l rfl) (fun _ _ => trivial) h
    exact Trace.supplyEq hi htrace
  | _ => cases hissues

private theorem CallParts.keepsSupply {mv : MoveEnvelope} {key : String}
    {r : Except MoveRejectReason Unit} (c : CallParts g mv key r g') (hi : g.Inv) :
    c.KeepsSupply := by
  have hclock : Trace Conserves g c.clocked := notes_trace trivial (clockSet_eq c.clock)
  have hi1 := hclock.inv hi
  have hdequeue : Trace Conserves c.clocked c.clocked.dequeued := dequeued_trace fun _ => trivial
  have hi2 := hdequeue.inv hi1
  have hruns {cbs : List Callback} {a : GameBoard} (hcbs : ∀ cb ∈ cbs, cb ∈ c.clocked.due)
      (h : CallbackRegistry.runAll cbs c.clocked.dequeued = .ok a) :
      Trace (IsCallbackEvent fun _ => False) c.clocked.dequeued a :=
    CallbackRegistry.runAll_trace hi2 (fun cb hcb => hi1.due_sound (hcbs cb hcb))
      (fun _ => False.elim) h
  have hticks := hruns (fun _ hcb => hcb) c.ticks
  have hi3 := hticks.inv hi2
  have hlog : Trace Conserves c.ticked c.logged := notes_trace trivial (addToEventLog_eq c.log)
  have hext := (hclock.extends hi).trans ((hdequeue.extends hi1).trans
    ((hticks.extends hi2).trans (hlog.extends hi3)))
  refine ⟨.of_notes (clockSet_eq c.clock), Trace.supplyEq hi1 hdequeue, ?_,
    .of_notes (addToEventLog_eq c.log), ?_, .of_notes c.noted⟩
  · intro done cb rest a b hdue hdone haction hissues
    have hmem (c' : Callback) (hc' : c' ∈ done ++ cb :: rest) : c' ∈ c.clocked.due := hdue ▸ hc'
    have hrun := hruns (fun c' hc' => hmem c' (List.mem_append_left _ hc')) hdone
    have hsound := (hrun.extends hi2).callbackSound (hi1.due_sound (hmem cb (by simp)))
    exact Callback.action_supplyEq (hrun.inv hi2) hsound hissues haction
  · have hsender := hext.isUser (isUser_of_key hi c.executes.user)
    exact playInner_supplyEq (hlog.inv hi3) hsender c.inner

private theorem play_parts {mv : MoveEnvelope} {key : String} {r : Except MoveRejectReason Unit}
    (h : g.play mv key = .ok (r, g')) :
    g' = g.withNotes g' ∨ Nonempty (CallParts g mv key r g') := by
  rcases play_cases h with ⟨hnotes, _⟩ | ⟨sender, move, g1, g2, hexec, hinner, hnotes⟩
  · exact .inl hnotes
  · obtain ⟨clocked, ticked, hclock, _, hrun, hlog⟩ := hexec.stages
    exact .inr ⟨⟨sender, move, clocked, ticked, g1, g2, hexec, hclock, hrun, hlog, hinner, hnotes⟩⟩

/-- On every board between and inside calls, the cached total of a token is the sum of its balances;
the move of a player keeps the totals of all tokens; and a call only leaves notes, or it executes a
move and none of its parts changes a total, but for the producers and mining payouts that are due. -/
theorem supply_conserved (h : Stage setup origin g) :
    (∀ (p : TokenPointer) t, g.tokens.tokens[p]? = some t → t.total = valueSum t.balances) ∧
      (∀ d sender r g', g.IsUser sender → g.playInner d sender = .ok (r, g') → g.SupplyEq g') ∧
      ∀ mv key r g', origin.play mv key = .ok (r, g') →
        g' = origin.withNotes g' ∨ ∃ c : CallParts origin mv key r g', c.KeepsSupply := by
  have hi := h.inv
  refine ⟨fun p t ht => (hi.tokens p t ht).1.total_eq,
    fun d sender r g' hsender hinner => playInner_supplyEq hi hsender hinner,
    fun mv key r g' hplay => ?_⟩
  obtain hnotes | ⟨⟨c⟩⟩ := play_parts hplay
  · exact .inl hnotes
  · exact .inr ⟨c, c.keepsSupply h.reachable.inv⟩

/-- The first move of a game of two players, in which the producers and the payout are due. -/
theorem supply_conserved_twoPlayers : ∃ g g', GameBoard.new twoPlayers = .ok g ∧
    (∀ (p : TokenPointer) t, g.tokens.tokens[p]? = some t → t.total = valueSum t.balances) ∧
    playAll [(opening, "alice")] g = .ok g' ∧
    ∀ d sender r g2, g'.IsUser sender → g'.playInner d sender = .ok (r, g2) → g'.SupplyEq g2 := by
  obtain ⟨g, g', hnew, hplay, _⟩ := twoPlayers_starts
  have hstart : Reachable twoPlayers g := .new hnew
  exact ⟨g, g', hnew, (supply_conserved (.between hstart)).1, hplay,
    (supply_conserved (.between (hstart.later (later_of_playAll hplay)))).2.1⟩

end JudicaVM
