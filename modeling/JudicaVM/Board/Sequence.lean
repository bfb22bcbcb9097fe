import JudicaVM.Board.Reachable
import Mathlib.Data.List.Range

/-!
# Sequence numbers

Which calls of a run reach the execution of their move, in terms of the sequence numbers that the
players sign.
-/

namespace JudicaVM

open Checked Std OrderedMap Transition GameBoard

variable {setup : GameSetup} {g g' : GameBoard} {mv : MoveEnvelope} {key : String}
  {sender : EntityID} {r : Except MoveRejectReason Unit} {calls : List (MoveEnvelope × String)}

namespace GameBoard

/-- The sequence number of the last move of a player that was executed. -/
def counter (g : GameBoard) (sender : EntityID) : ℕ := g.playerMoveSequence.getD sender 0

/-- The call of `play` passes every check before the execution of its move. -/
def Reaches (g : GameBoard) (mv : MoveEnvelope) (key : String) (sender : EntityID) : Prop :=
  g.usersByKey[key]? = some sender ∧ g.gameIsFinished = .ok none ∧
    acceptsSequence (g.counter sender) mv.sequence = .ok true

/-- The call of `play` has number zero, and the player has made no numbered move yet. -/
def CallsZero (g : GameBoard) (mv : MoveEnvelope) (key : String) (sender : EntityID) : Prop :=
  g.usersByKey[key]? = some sender ∧ g.gameIsFinished = .ok none ∧ g.counter sender = 0 ∧
    mv.sequence = 0

instance : Decidable (g.Reaches mv key sender) :=
  inferInstanceAs (Decidable (_ ∧ _ ∧ _))

instance : Decidable (g.CallsZero mv key sender) :=
  inferInstanceAs (Decidable (_ ∧ _ ∧ _ ∧ _))

/-- The sequence numbers of the calls of a run that pass a test on the board they are made on. The
run ends with the first call that aborts. -/
def numbers (test : GameBoard → MoveEnvelope → String → Bool) :
    List (MoveEnvelope × String) → GameBoard → List ℕ
  | [], _ => []
  | (mv, key) :: rest, g =>
    (if test g mv key then [mv.sequence] else []) ++
      match g.play mv key with
      | .ok x => numbers test rest x.2
      | .error _ => []

/-- The sequence numbers of a player that reach execution in a run. -/
def executed (sender : EntityID) (calls : List (MoveEnvelope × String)) (g : GameBoard) : List ℕ :=
  numbers (fun g mv key => g.Reaches mv key sender) calls g

/-- The calls with number zero of a player before its first numbered move. -/
def zeros (sender : EntityID) (calls : List (MoveEnvelope × String)) (g : GameBoard) : List ℕ :=
  numbers (fun g mv key => g.CallsZero mv key sender) calls g

/-- The boards differ only in the log and in the entries of the move counters. -/
def Ignored (g g' : GameBoard) : Prop :=
  g' = { g with
    playerMoveSequence := g'.playerMoveSequence
    eventLog := g'.eventLog
    eventLogCounter := g'.eventLogCounter }

/-- Every move is executed at most once and in order, and the other calls are ignored. -/
structure InOrder (calls : List (MoveEnvelope × String)) (g : GameBoard) : Prop where
  consecutive : ∀ sender, (executed sender calls g).IsChain fun a b => b = a + 1
  once : ∀ sender, (executed sender calls g).Nodup
  ignored : ∀ before mv key after b r b', calls = before ++ (mv, key) :: after →
    playAll before g = .ok b → (∀ sender, ¬ b.Reaches mv key sender) →
    b.play mv key = .ok (r, b') → b.Ignored b'

end GameBoard

private theorem acceptsSequence_eq_true {c n : ℕ} (h : acceptsSequence c n = .ok true) :
    n = c + 1 ∨ (c = 0 ∧ n = 0) := by
  simp only [acceptsSequence, bind_eq_ok_iff, add_eq_ok_iff, pure_eq_ok, Except.ok.injEq,
    decide_eq_true_eq] at h
  obtain ⟨next, ⟨_, rfl⟩, hn⟩ := h
  exact hn.imp Eq.symm id

private theorem GameBoard.CallsZero.reaches (h : g.CallsZero mv key sender) :
    g.Reaches mv key sender := by
  obtain ⟨hkey, hrunning, hcounter, hzero⟩ := h
  refine ⟨hkey, hrunning, ?_⟩
  rw [hcounter, hzero]
  decide

private theorem Occurs.counters {e : Event} (h : Occurs g e g') (he : e ≠ .note) :
    g'.playerMoveSequence = g.playerMoveSequence := by
  cases h with
  | note n => exact absurd rfl he
  | _ => rfl

private theorem Trace.counters {P : Event → Prop} (hP : ∀ e, P e → e ≠ .note) (h : Trace P g g') :
    g'.playerMoveSequence = g.playerMoveSequence := by
  induction h with
  | refl => rfl
  | tail _ hstep ih =>
    obtain ⟨e, he, hstep⟩ := hstep
    exact (hstep.counters (hP e he)).trans ih

private theorem updateCurrentTime_counters {time : ℕ}
    (h : g.updateCurrentTime sender time = .ok g') :
    g'.playerMoveSequence = g.playerMoveSequence := by
  simp only [updateCurrentTime, bind_eq_ok_iff, pure_eq_ok, Except.ok.injEq] at h
  obtain ⟨_, _, rfl⟩ := h
  rfl

theorem addToEventLog_ignored {e : LogEvent} (h : g.addToEventLog sender e = .ok g') :
    g.Ignored g' ∧ g'.playerMoveSequence = g.playerMoveSequence := by
  simp only [addToEventLog, bind_eq_ok_iff, pure_eq_ok, Except.ok.injEq] at h
  obtain ⟨_, _, rfl⟩ := h
  exact ⟨rfl, rfl⟩

private theorem playChat_counters {s : String} (h : g.playChat sender s = .ok g') :
    g'.playerMoveSequence = g.playerMoveSequence := by
  simp only [playChat, bind_eq_ok_iff, pure_eq_ok, Except.ok.injEq] at h
  obtain ⟨_, _, rfl⟩ := h
  rfl

private theorem processTicks_counters (hi : g.Inv) (h : g.processTicks = .ok g') :
    g'.playerMoveSequence = g.playerMoveSequence := by
  have htrace := CallbackRegistry.run_trace (U := fun _ => False) hi (fun _ => False.elim) h
  refine htrace.counters fun e he => ?_
  rintro rfl
  exact he

private theorem playInner_counters {d : GameMove} (hi : g.Inv) (hsender : g.IsUser sender)
    (hdest : ∀ s, d = .sendTokens s → g.Party s.dest) (h : g.playInner d sender = .ok (r, g')) :
    g'.playerMoveSequence = g.playerMoveSequence := by
  rcases playInner_cases (U := fun _ => False) hi hsender (fun _ => False.elim) hdest h with
    htrace | ⟨s, _, hchat⟩ | ⟨l, nft, _, _, _, rfl⟩ | ⟨p, nft, sale, _, _, rfl⟩
  · refine htrace.counters fun e he => ?_
    rintro rfl
    exact he
  · exact playChat_counters hchat
  · rfl
  · rfl

theorem play_of_reaches (h : g.Reaches mv key sender) :
    g.play mv key = execute { g with
      playerMoveSequence := g.playerMoveSequence.insert sender mv.sequence } mv.d mv.timeMillis
        sender := by
  obtain ⟨hkey, hrunning, haccepts⟩ := h
  simp only [counter] at haccepts
  simp only [GameBoard.play, hkey, hrunning, haccepts, ok_bind, if_true]

/-- A call that does not reach execution is ignored, and the counters read as before. -/
theorem play_ignored (h : ∀ sender, ¬ g.Reaches mv key sender) (hplay : g.play mv key = .ok (r, g')) :
    g.Ignored g' ∧ ∀ i, g'.counter i = g.counter i := by
  unfold GameBoard.play at hplay
  cases hkey : g.usersByKey[key]? with
  | none =>
    simp only [hkey, pure_eq_ok, Except.ok.injEq, Prod.mk.injEq] at hplay
    obtain ⟨_, rfl⟩ := hplay
    exact ⟨rfl, fun _ => rfl⟩
  | some sender =>
    simp only [hkey, bind_eq_ok_iff] at hplay
    obtain ⟨finished, hfinished, hplay⟩ := hplay
    cases finished with
    | some reason =>
      simp only [bind_eq_ok_iff, pure_eq_ok, Except.ok.injEq, Prod.mk.injEq] at hplay
      obtain ⟨g1, hlog, _, rfl⟩ := hplay
      obtain ⟨hignored, hcounters⟩ := addToEventLog_ignored hlog
      exact ⟨hignored, fun i => by rw [counter, counter, hcounters]⟩
    | none =>
      simp only [bind_eq_ok_iff] at hplay
      obtain ⟨accepted, haccepted, hplay⟩ := hplay
      cases accepted with
      | true => exact absurd ⟨hkey, hfinished, haccepted⟩ (h sender)
      | false =>
        simp only [Bool.false_eq_true, if_false, pure_eq_ok, Except.ok.injEq,
          Prod.mk.injEq] at hplay
        obtain ⟨_, rfl⟩ := hplay
        refine ⟨rfl, fun i => ?_⟩
        -- the entry that is written is the one that was read
        simp only [counter, getD_insert]
        split
        · rename_i heq
          rw [heq]
        · rfl

private theorem execute_counters {d : GameMove} {time : ℕ} (hi : g.Inv) (hsender : g.IsUser sender)
    (h : g.execute d time sender = .ok (r, g')) :
    g'.playerMoveSequence = g.playerMoveSequence := by
  simp only [execute] at h
  split at h
  · simp only [pure_eq_ok, Except.ok.injEq, Prod.mk.injEq] at h
    rw [h.2]
  · rename_i move hsane
    simp only [bind_eq_ok_iff] at h
    obtain ⟨ga, hclock, gb, hticks, g1, hlog, ⟨r2, g2⟩, hinner, h⟩ := h
    have hadvance : g.advance move time sender = .ok g1 := by
      simp only [advance, hclock, hticks, hlog, ok_bind]
    have htrace := advance_trace (U := fun _ => False) hi (fun _ => False.elim) hadvance
    have hext := htrace.extends hi
    have hparty (s : SendTokens) (hs : move = .sendTokens s) : g1.Party s.dest := by
      subst hs
      have hdest := sanitize_sendTokens hsane
      exact hext.party (hi.party_of_mem (hdest.imp id fun hn => .inr (.inr hn)))
    have hclocked : ga.Inv := (notes_trace trivial (updateCurrentTime_eq hclock) :
      Trace (fun _ => True) g ga).inv hi
    have hmove : g2.playerMoveSequence = g.playerMoveSequence :=
      calc g2.playerMoveSequence
        _ = g1.playerMoveSequence :=
          playInner_counters (htrace.inv hi) (hext.isUser hsender) hparty hinner
        _ = gb.playerMoveSequence := (addToEventLog_ignored hlog).2
        _ = ga.playerMoveSequence := processTicks_counters hclocked hticks
        _ = g.playerMoveSequence := updateCurrentTime_counters hclock
    cases r2 with
    | ok u =>
      simp only [pure_eq_ok, Except.ok.injEq, Prod.mk.injEq] at h
      rw [← h.2, hmove]
    | error e =>
      simp only [bind_eq_ok_iff, pure_eq_ok, Except.ok.injEq, Prod.mk.injEq] at h
      obtain ⟨g3, hlog3, _, rfl⟩ := h
      rw [(addToEventLog_ignored hlog3).2, hmove]

private theorem play_counter (hi : g.Inv) (h : g.play mv key = .ok (r, g')) (i : EntityID) :
    g'.counter i = if g.Reaches mv key i then mv.sequence else g.counter i := by
  by_cases hreach : ∃ sender, g.Reaches mv key sender
  · obtain ⟨sender, hs⟩ := hreach
    have hiff : g.Reaches mv key i ↔ sender = i := by
      constructor
      · intro hi'
        exact Option.some.inj (hs.1.symm.trans hi'.1)
      · rintro rfl
        exact hs
    rw [play_of_reaches hs] at h
    have hi1 : ({ g with playerMoveSequence := g.playerMoveSequence.insert sender mv.sequence } :
        GameBoard).Inv :=
      (notes_trace trivial rfl : Trace (fun _ => True) g _).inv hi
    have huser : g.IsUser sender := isUser_of_key hi hs.1
    have hcounters := execute_counters hi1 huser h
    simp only [counter, hcounters, getD_insert, hiff]
  · have hall : ∀ sender, ¬ g.Reaches mv key sender := fun s hs => hreach ⟨s, hs⟩
    rw [if_neg (hall i)]
    exact (play_ignored hall h).2 i

private theorem executed_cons : executed sender ((mv, key) :: calls) g =
    (if g.Reaches mv key sender then [mv.sequence] else []) ++
      match g.play mv key with
      | .ok x => executed sender calls x.2
      | .error _ => [] := by
  simp only [executed, numbers, decide_eq_true_eq]

private theorem zeros_cons : zeros sender ((mv, key) :: calls) g =
    (if g.CallsZero mv key sender then [mv.sequence] else []) ++
      match g.play mv key with
      | .ok x => zeros sender calls x.2
      | .error _ => [] := by
  simp only [zeros, numbers, decide_eq_true_eq]

private theorem zeros_eq_nil (hi : g.Inv) (hpos : g.counter sender ≠ 0) : zeros sender calls g =
    [] := by
  induction calls generalizing g with
  | nil => rfl
  | cons call calls ih =>
    obtain ⟨mv, key⟩ := call
    have hnot : ¬ g.CallsZero mv key sender := fun h => hpos h.2.2.1
    rw [zeros_cons, if_neg hnot, List.nil_append]
    cases hplay : g.play mv key with
    | error e => rfl
    | ok x =>
      obtain ⟨r, g1⟩ := x
      apply ih ((play_trace hi hplay).inv hi)
      rw [play_counter hi hplay]
      split
      · rename_i hreach
        have haccepts := acceptsSequence_eq_true hreach.2.2
        omega
      · exact hpos

/-- What a player executes is zero as often as it is called, and then the numbers that follow the
counter. -/
theorem executed_eq (sender : EntityID) (calls : List (MoveEnvelope × String)) (hi : g.Inv) :
    ∃ k, executed sender calls g =
      List.replicate (zeros sender calls g).length 0 ++ List.range' (g.counter sender + 1) k := by
  induction calls generalizing g with
  | nil => exact ⟨0, rfl⟩
  | cons call calls ih =>
    obtain ⟨mv, key⟩ := call
    rw [executed_cons, zeros_cons]
    cases hplay : g.play mv key with
    | error e =>
      by_cases hzero : g.CallsZero mv key sender
      · refine ⟨0, ?_⟩
        simp [hzero, hzero.reaches, hzero.2.2.2]
      · by_cases hreach : g.Reaches mv key sender
        · refine ⟨1, ?_⟩
          have hnext : mv.sequence = g.counter sender + 1 :=
            (acceptsSequence_eq_true hreach.2.2).resolve_right fun h =>
              hzero ⟨hreach.1, hreach.2.1, h⟩
          simp [hzero, hreach, hnext]
        · exact ⟨0, by simp [hzero, hreach]⟩
    | ok x =>
      obtain ⟨r, g1⟩ := x
      have hi1 := (play_trace hi hplay).inv hi
      have hcounter := play_counter hi hplay sender
      obtain ⟨k, hrest⟩ := ih hi1
      by_cases hzero : g.CallsZero mv key sender
      · refine ⟨k, ?_⟩
        rw [if_pos hzero.reaches, hzero.2.2.2] at hcounter
        simp [hzero, hzero.reaches, hzero.2.2.1, hzero.2.2.2, hrest, hcounter,
          List.replicate_succ]
      · by_cases hreach : g.Reaches mv key sender
        · have hnext : mv.sequence = g.counter sender + 1 :=
            (acceptsSequence_eq_true hreach.2.2).resolve_right fun h =>
              hzero ⟨hreach.1, hreach.2.1, h⟩
          rw [if_pos hreach, hnext] at hcounter
          have hnone : zeros sender calls g1 = [] := by
            apply zeros_eq_nil hi1
            omega
          refine ⟨k + 1, ?_⟩
          simp [hzero, hreach, hnext, hrest, hcounter, hnone, List.range'_succ]
        · rw [if_neg hreach] at hcounter
          exact ⟨k, by simp [hzero, hreach, hrest, hcounter]⟩

private theorem isChain_range' (a n : ℕ) : (List.range' a n).IsChain fun a b => b = a + 1 := by
  induction n generalizing a with
  | zero => exact .nil
  | succ n ih =>
    rw [List.range'_succ, List.isChain_cons]
    refine ⟨fun b hb => ?_, ih (a + 1)⟩
    cases n with
    | zero => simp at hb
    | succ n =>
      rw [List.range'_succ] at hb
      simpa [eq_comm] using hb

private theorem length_zeros_le : (zeros sender calls g).length ≤ calls.countP
    (·.1.sequence = 0) := by
  induction calls generalizing g with
  | nil => exact Nat.le_refl _
  | cons call calls ih =>
    obtain ⟨mv, key⟩ := call
    rw [zeros_cons, List.length_append, List.countP_cons, Nat.add_comm]
    apply Nat.add_le_add
    · split
      · exact ih
      · exact Nat.zero_le _
    · by_cases hzero : g.CallsZero mv key sender
      · simp [hzero, hzero.2.2.2]
      · simp [hzero]

private theorem executed_interval (hi : g.Inv) (hzeros : (zeros sender calls g).length ≤ 1) :
    ∃ a k, executed sender calls g = List.range' a k := by
  obtain ⟨k, hk⟩ := executed_eq sender calls hi
  by_cases hnone : zeros sender calls g = []
  · exact ⟨_, k, by simpa [hnone] using hk⟩
  · have hcounter : g.counter sender = 0 := by
      by_contra hpos
      exact hnone (zeros_eq_nil hi hpos)
    have hone : (zeros sender calls g).length = 1 :=
      Nat.le_antisymm hzeros (List.length_pos_iff.mpr hnone)
    refine ⟨0, k + 1, ?_⟩
    rw [hk, hone, hcounter, List.range'_succ]
    rfl

/-- The calls of a run are executed at most once and in order exactly if no player makes two calls
with number zero before its first numbered move. -/
theorem inOrder_iff (h : GameBoard.new setup = .ok g) :
    InOrder calls g ↔ ∀ sender, (zeros sender calls g).length ≤ 1 := by
  have hi := new_inv h
  constructor
  · intro horder sender
    by_contra htwice
    obtain ⟨k, hk⟩ := executed_eq sender calls hi
    have honce := horder.once sender
    rw [hk, List.nodup_append, List.nodup_replicate] at honce
    omega
  · intro hzeros
    refine ⟨fun sender => ?_, fun sender => ?_, ?_⟩
    · obtain ⟨a, k, hk⟩ := executed_interval hi (hzeros sender)
      rw [hk]
      exact isChain_range' a k
    · obtain ⟨a, k, hk⟩ := executed_interval hi (hzeros sender)
      rw [hk]
      exact List.nodup_range'
    · intro before mv key after b r b' _ _ hnot hplay
      exact (play_ignored hnot hplay).1

/-- Beginning with a counter, every number is the one that is expected next. -/
def AcceptsAll : ℕ → List ℕ → Prop
  | _, [] => True
  | c, n :: rest => acceptsSequence c n = .ok true ∧ AcceptsAll n rest

/-- The game goes on before every call of a run. -/
def GameBoard.Running : List (MoveEnvelope × String) → GameBoard → Prop
  | [], _ => True
  | (mv, key) :: rest, g =>
    g.gameIsFinished = .ok none ∧ ∀ r g', g.play mv key = .ok (r, g') → Running rest g'

private theorem acceptsSequence_succ {c : ℕ} (h : c + 1 < 2 ^ 64) :
    acceptsSequence c (c + 1) = .ok true := by
  simp [acceptsSequence, add_of_lt h]

private theorem acceptsAll_range' {c k : ℕ} (h : c + k < 2 ^ 64) : AcceptsAll c
    (List.range' (c + 1) k) := by
  induction k generalizing c with
  | zero => trivial
  | succ k ih => exact ⟨acceptsSequence_succ (by omega), ih (by omega)⟩

private theorem acceptsAll_range {k : ℕ} (h : k ≤ 2 ^ 64) : AcceptsAll 0 (List.range k) := by
  cases k with
  | zero => trivial
  | succ k =>
    rw [List.range_eq_range', List.range'_succ]
    exact ⟨by decide, acceptsAll_range' (by omega)⟩

private theorem Occurs.usersByKey_eq {e : Event} (h : Occurs g e g') (he : IsPlayEvent e) :
    g'.usersByKey = g.usersByKey := by
  cases h with
  | addUser player => exact he.elim
  | _ => rfl

private theorem play_usersByKey (hi : g.Inv) (h : g.play mv key = .ok (r, g')) :
    g'.usersByKey = g.usersByKey := by
  have htrace := play_events hi h
  clear h
  induction htrace with
  | refl => rfl
  | tail _ hstep ih =>
    obtain ⟨e, he, hstep⟩ := hstep
    exact (hstep.usersByKey_eq he).trans ih

/-- The moves that a player sends to a running game with the numbers that are expected are all
executed, whatever the other players send between them. -/
theorem executed_of_acceptsAll (hi : g.Inv) (hkey : g.usersByKey[key]? = some sender)
    (hrun : playAll calls g = .ok g') (hrunning : g.Running calls)
    (haccepts : AcceptsAll (g.counter sender) ((calls.filter (·.2 = key)).map (·.1.sequence))) :
    executed sender calls g = (calls.filter (·.2 = key)).map (·.1.sequence) := by
  induction calls generalizing g with
  | nil => rfl
  | cons call calls ih =>
    obtain ⟨mv, key'⟩ := call
    obtain ⟨⟨r, g1⟩, hplay, hrest⟩ := bind_eq_ok_iff.mp hrun
    have hi1 := (play_trace hi hplay).inv hi
    have hkey1 : g1.usersByKey[key]? = some sender := by
      rw [play_usersByKey hi hplay]
      exact hkey
    have hcounter := play_counter hi hplay sender
    rw [executed_cons, hplay]
    by_cases hsame : key' = key
    · subst hsame
      simp only [List.filter_cons, decide_true, if_true, List.map_cons] at haccepts ⊢
      have hreach : g.Reaches mv key' sender := ⟨hkey, hrunning.1, haccepts.1⟩
      rw [if_pos hreach] at hcounter ⊢
      rw [← hcounter] at haccepts
      show mv.sequence :: executed sender calls g1 = _
      rw [ih hi1 hkey1 hrest (hrunning.2 r g1 hplay) haccepts.2]
    · have hother : ¬ g.Reaches mv key' sender := by
        intro hreach
        have husers := (hi.keys key' sender hreach.1).symm.trans (hi.keys key sender hkey)
        injection husers with husers
        injection husers with hkeys
        exact hsame hkeys
      rw [if_neg hother] at hcounter ⊢
      have hfilter : ((mv, key') :: calls).filter (·.2 = key) = calls.filter (·.2 = key) := by
        simp [hsame]
      rw [hfilter] at haccepts ⊢
      rw [← hcounter] at haccepts
      exact ih hi1 hkey1 hrest (hrunning.2 r g1 hplay) haccepts

private theorem new_counter (h : GameBoard.new setup = .ok g) (sender : EntityID) :
    g.counter sender = 0 := by
  obtain ⟨g0, hblank, htrace⟩ := new_trace h
  have hmoves : g.playerMoveSequence =
      ({ g0 with finishTime := setup.finishTime } : GameBoard).playerMoveSequence := by
    apply Trace.counters _ htrace
    rintro e he rfl
    exact he
  rw [counter, hmoves]
  cases hblank
  rfl

/-- The numbers count the moves one by one, and a game executes all of them. -/
structure Playable (numbers : List ℕ) : Prop where
  consecutive : numbers.IsChain fun a b => b = a + 1
  distinct : numbers.Nodup
  executed : ∀ setup g calls key sender g', GameBoard.new setup = .ok g →
    g.usersByKey[key]? = some sender → playAll calls g = .ok g' → g.Running calls →
    (calls.filter (·.2 = key)).map (·.1.sequence) = numbers → executed sender calls g = numbers

theorem playable_range {k : ℕ} (h : k ≤ 2 ^ 64) : Playable (List.range k) := by
  constructor
  · rw [List.range_eq_range']
    exact isChain_range' 0 k
  · exact List.nodup_range
  · intro setup g calls key sender g' hnew hkey hrun hrunning hnumbers
    rw [← hnumbers]
    apply executed_of_acceptsAll (new_inv hnew) hkey hrun hrunning
    rw [hnumbers, new_counter hnew]
    exact acceptsAll_range h

theorem eq_range'_of_isChain {numbers : List ℕ} (h : numbers.IsChain fun a b => b = a + 1) {a : ℕ}
    (ha : ∀ n ∈ numbers.head?, n = a) : numbers = List.range' a numbers.length := by
  induction numbers generalizing a with
  | nil => rfl
  | cons n numbers ih =>
    obtain rfl := ha n rfl
    rw [List.length_cons, List.range'_succ]
    rw [List.isChain_cons] at h
    congr 1
    exact ih h.2 h.1

/-- Alice pays five coins to Bob, with number zero. -/
def sendZero : MoveEnvelope :=
  { d := .sendTokens { dest := 0xc0de0009, amount := 5, currency := 0xc0de0001 }
    sequence := 0
    timeMillis := 0 }

/-- One payment with number zero, followed by a numbered move, is in order. -/
theorem inOrder_payment : ∃ g, GameBoard.new twoPlayers = .ok g ∧
    InOrder [(sendZero, "alice"), (opening, "alice")] g := by
  obtain ⟨g, _, hnew, _⟩ := twoPlayers_starts
  refine ⟨g, hnew, (inOrder_iff hnew).mpr fun sender => ?_⟩
  exact length_zeros_le.trans (by decide)

/-- The same payment with number zero is executed as often as it is sent. -/
theorem payment_repeats : ∃ g g1 g2, GameBoard.new twoPlayers = .ok g ∧
    playAll [(sendZero, "alice")] g = .ok g1 ∧ playAll [(sendZero, "alice")] g1 = .ok g2 ∧
    executed 0xc0de0008 [(sendZero, "alice"), (sendZero, "alice")] g = [0, 0] ∧
    g2.balance 0xc0de0001 0xc0de0009 = g1.balance 0xc0de0001 0xc0de0009 + 5 ∧
    ¬ InOrder [(sendZero, "alice"), (sendZero, "alice")] g := by
  have h : returns (do
      let g ← GameBoard.new twoPlayers
      let g1 ← playAll [(sendZero, "alice")] g
      let g2 ← playAll [(sendZero, "alice")] g1
      pure (g, g1, g2)) (fun x =>
        executed 0xc0de0008 [(sendZero, "alice"), (sendZero, "alice")] x.1 = [0, 0] ∧
          x.2.2.balance 0xc0de0001 0xc0de0009 = x.2.1.balance 0xc0de0001 0xc0de0009 + 5) := by
    decide +kernel
  obtain ⟨x, hok, htest⟩ := returns_iff.mp h
  simp only [bind_eq_ok_iff, pure_eq_ok, Except.ok.injEq] at hok
  obtain ⟨g, hnew, g1, hfirst, g2, hsecond, rfl⟩ := hok
  obtain ⟨hexecuted, hpaid⟩ := of_decide_eq_true htest
  refine ⟨g, g1, g2, hnew, hfirst, hsecond, hexecuted, hpaid, ?_⟩
  intro horder
  have honce := horder.once 0xc0de0008
  rw [hexecuted] at honce
  exact absurd honce (by decide)

end JudicaVM
