import JudicaVM.Lib.Checked
import JudicaVM.Lib.Json
import JudicaVM.Lib.Loop

/-!
# The event loop of the litigator

The loop takes the events of a contract from a channel and handles them one after the other. A
periodic action binds the contract to its output and waits until each of the transactions has been
processed, which may take for ever. When the senders of the channel are dropped and it is empty,
there is no event to take, and the loop goes round all the same.
-/

namespace JudicaVM

open Checked Loop Serde

/-- What the loop uses of compiled contracts and of the modules that compile them. -/
structure Sapio where
  Compiled : Type
  ContinuationPoint : Type
  EffectPath : Type
  Arguments : Type
  Bytes : Type
  Module : Type
  OutPoint : Type
  Script : Type
  LinkedPSBT : Type
  decidablePath : DecidableEq EffectPath
  decidableScript : DecidableEq Script
  continuationPoints : Compiled → List ContinuationPoint
  path : ContinuationPoint → EffectPath
  /-- The filter of the point's `EventRecompiler`. -/
  recompiler : ContinuationPoint → Option String
  /-- The validator of the point's schema. -/
  validator : ContinuationPoint → Option (Json → Bool)
  /-- The script of the address. -/
  script : Compiled → Script
  newHandle : Bytes → Except String Module
  call : Module → Arguments → List ((EffectPath × String) × Json) → Option Compiled
  /-- The transactions of the program that a contract is bound to. -/
  bindPsbt : Compiled → OutPoint → Option (List LinkedPSBT)

attribute [instance] Sapio.decidablePath Sapio.decidableScript

variable {S : Sapio}

/-- The effects are the entries of a map from paths to maps from keys to values. -/
structure CreateArgs (S : Sapio) where
  arguments : S.Arguments
  effects : List ((S.EffectPath × String) × Json)

/-- The events, without what is only logged. -/
inductive LitigatorEvent (S : Sapio)
  | moduleBytes (group tag : String)
  | createArgs (args : CreateArgs S)
  | transactionFinalized
  | rebind (o : S.OutPoint)
  | syntheticPeriodicActions (time : ℤ)
  | newRecompileTriggeringObservation (newInfo : Json) (filter : String)
  | emittedPSBTVia

/-- What the databases answer while an event is handled: the bytes of a module under a group and a
tag, whether the keys can be read, and whether `process_psbt_fail_ok` comes back from the `n`th of
some transactions. -/
structure Answers (S : Sapio) where
  moduleBytes : String → String → Option S.Bytes
  keymap : Bool
  processes : ℕ → S.LinkedPSBT → Bool

inductive HandlerError
  | text (message : String)
  | database

/-- A handler that does not come back to the loop: it panics, or waits for ever. -/
inductive Halt
  | panicked (p : Panic)
  | stuck

/-- The state of a contract with its history: the events that have been handled and the keys under
which effects have been written. -/
structure LitigatedState (S : Sapio) where
  boundTo : Option S.OutPoint
  module : Option S.Bytes
  args : Except String (CreateArgs S)
  contract : Except String S.Compiled
  eventCounter : ℕ
  handled : List (LitigatorEvent S)
  written : List String

namespace LitigatedState

variable (s : LitigatedState S)

def initial : LitigatedState S where
  boundTo := none
  module := none
  args := .error "No Args Loaded"
  contract := .error "No Compiled Object"
  eventCounter := 0
  handled := []
  written := []

/-- The closure that makes a handle of the module. -/
def loadModule : Except String S.Module :=
  match s.module with
  | none => .error "No Module Loaded"
  | some bytes => S.newHandle bytes

/-- Whatever `process_psbt_fail_ok` returns is only logged. -/
def processPsbtFailOk (a : Answers S) (entry : S.LinkedPSBT × ℕ) : Except Halt Unit :=
  if a.processes entry.2 entry.1 then .ok () else .error .stuck

/-- The transactions of the program that the contract is bound to. -/
def program : List S.LinkedPSBT :=
  match s.boundTo, s.contract with
  | some out, .ok c => (S.bindPsbt c out).getD []
  | _, _ => []

def handleSyntheticPeriodic (a : Answers S) :
    Except Halt (Except HandlerError (LitigatedState S)) :=
  match s.boundTo with
  | none => .ok (.ok s)
  | some out =>
    match s.contract with
    | .error e => .ok (.error (.text e))
    | .ok c =>
      match S.bindPsbt c out with
      | none => .ok (.ok s)
      | some program => do
        if ¬a.keymap then return .error .database
        program.zipIdx.forM (processPsbtFailOk a)
        return .ok s

def handleModuleBytes (a : Answers S) (group tag : String) :
    Except HandlerError (LitigatedState S) :=
  match a.moduleBytes group tag with
  | none => .error .database
  | some bytes => .ok { s with module := some bytes }

def handleCreateArgs (args : CreateArgs S) : Except HandlerError (LitigatedState S) :=
  match s.loadModule with
  | .error e => .error (.text e)
  | .ok m =>
    match S.call m args.arguments args.effects with
    | none => .error (.text "First Run of contract must pass")
    | some c => .ok { s with contract := .ok c, args := .ok args }

def handleRebind (o : S.OutPoint) : LitigatedState S :=
  { s with boundTo := some o }

/-- The key of the effects of an event. -/
def eventKey (eventCounter : ℕ) : String := "event" ++ toString eventCounter

def eventKeyFilterHit (api : S.ContinuationPoint) (filter : String) : Bool :=
  (S.recompiler api).any fun f => f = filter || f = "*"

def validateApi (api : S.ContinuationPoint) (newInfo : Json) : Bool :=
  (S.validator api).any fun validate => validate newInfo

/-- The continuation points of a contract that take a value. -/
def apisFor (contract : S.Compiled) (newInfo : Json) (filter : String) :
    List S.ContinuationPoint :=
  ((S.continuationPoints contract).filter fun api => eventKeyFilterHit api filter).filter
    fun api => validateApi api newInfo

def saveEffect (idx : String) (newInfo : Json) (effects : List ((S.EffectPath × String) × Json))
    (api : S.ContinuationPoint) : Except Panic (List ((S.EffectPath × String) × Json)) :=
  if effects.any fun entry => entry.1 = (S.path api, idx) then
    .error (.message "NewRecompileTrigger Would Overwrite Existing state")
  else .ok (effects ++ [((S.path api, idx), newInfo)])

/-- The end of `handle_new_information`, once effects have been saved. -/
def recompile (args : CreateArgs S) (contract : S.Compiled) (idx : String)
    (effects : List ((S.EffectPath × String) × Json)) : Except HandlerError (LitigatedState S) :=
  let s' := { s with written := s.written ++ [idx] }
  match s.loadModule with
  | .error e => .error (.text e)
  | .ok m =>
    match S.call m args.arguments effects with
    | none => .ok s'
    | some newContract =>
      if S.script contract ≠ S.script newContract then
        .error (.text "Critical Invariant Failed: Contract address mutated after recompile")
      else .ok { s' with args := .ok { args with effects }, contract := .ok newContract }

def handleNewInformation (newInfo : Json) (filter : String) :
    Except Panic (Except HandlerError (LitigatedState S)) :=
  match s.args, s.contract with
  | .error e, _ => .ok (.error (.text e))
  | .ok _, .error e => .ok (.error (.text e))
  | .ok args, .ok contract => do
    let idx := eventKey s.eventCounter
    let apis := apisFor contract newInfo filter
    let effects ← apis.foldlM (saveEffect idx newInfo) args.effects
    if apis.isEmpty then return .ok s
    else return s.recompile args contract idx effects

def handle (a : Answers S) :
    LitigatorEvent S → Except Halt (Except HandlerError (LitigatedState S))
  | .emittedPSBTVia => .ok (.ok s)
  | .transactionFinalized => .ok (.ok s)
  | .syntheticPeriodicActions _ => s.handleSyntheticPeriodic a
  | .moduleBytes group tag => .ok (s.handleModuleBytes a group tag)
  | .createArgs args => .ok (s.handleCreateArgs args)
  | .rebind o => .ok (.ok (s.handleRebind o))
  | .newRecompileTriggeringObservation newInfo filter =>
    (s.handleNewInformation newInfo filter).mapError .panicked

/-- How the loop ends, with the state before the event that it could not handle. -/
inductive End (S : Sapio)
  | returned (e : HandlerError) (s : LitigatedState S)
  | halted (h : Halt)

/-- `state.event_counter += 1` -/
def count : LitigatedState S ⊕ End S :=
  match add 64 s.eventCounter 1 with
  | .error p => .inr (.halted (.panicked p))
  | .ok eventCounter => .inl { s with eventCounter }

/-- The body of the loop, for what is received from the channel. -/
def turn : Option (Answers S × LitigatorEvent S) → LitigatedState S → LitigatedState S ⊕ End S
  | none, s => s.count
  | some (a, ev), s =>
    match s.handle a ev with
    | .error h => .inr (.halted h)
    | .ok (.error e) => .inr (.returned e s)
    | .ok (.ok s') => { s' with handled := s'.handled ++ [ev] }.count

/-- The loop of `event_loop_inner` on a channel with some events, the senders of which are
dropped. -/
def eventLoop (events : List (Answers S × LitigatorEvent S)) : ℕ → LitigatedState S ⊕ End S :=
  rounds turn (fun n => events[n]?) initial

/-- The loop returns after it has handled some of the events in order, with their number as its
counter and without writing effects under one key twice. -/
def EndsWithInput (events : List (Answers S × LitigatorEvent S)) : Prop :=
  ∃ n e s, eventLoop events n = .inr (.returned e s) ∧ s.handled <+: events.map Prod.snd ∧
    s.eventCounter = s.handled.length ∧ s.written.Nodup

/-- The handler of an event fails. -/
def Refuses (s : LitigatedState S) (a : Answers S) : LitigatorEvent S → Prop
  | .emittedPSBTVia => False
  | .transactionFinalized => False
  | .rebind _ => False
  | .syntheticPeriodicActions _ => ∃ out, s.boundTo = some out ∧
      ∀ c, s.contract = .ok c → (S.bindPsbt c out).isSome ∧ ¬a.keymap
  | .moduleBytes group tag => a.moduleBytes group tag = none
  | .createArgs args => ∀ m, s.loadModule = .ok m → S.call m args.arguments args.effects = none
  | .newRecompileTriggeringObservation newInfo filter =>
      ∀ args contract, s.args = .ok args → s.contract = .ok contract →
        apisFor contract newInfo filter ≠ [] ∧
        ∃ effects, (apisFor contract newInfo filter).foldlM
            (saveEffect (eventKey s.eventCounter) newInfo) args.effects = .ok effects ∧
          ∀ m, s.loadModule = .ok m → ∃ newContract,
            S.call m args.arguments effects = some newContract ∧
            S.script contract ≠ S.script newContract

variable {s s' : LitigatedState S} {a : Answers S} {ev : LitigatorEvent S} {e : HandlerError}
  {newInfo : Json} {filter : String} {args : CreateArgs S} {contract : S.Compiled} {idx : String}
  {effects : List ((S.EffectPath × String) × Json)}
  {events : List (Answers S × LitigatorEvent S)} {n : ℕ}

private theorem handleSyntheticPeriodic_error_iff :
    (∃ e, s.handleSyntheticPeriodic a = .ok (.error e)) ↔ ∃ out, s.boundTo = some out ∧
      ∀ c, s.contract = .ok c → (S.bindPsbt c out).isSome ∧ ¬a.keymap := by
  unfold handleSyntheticPeriodic
  cases hbound : s.boundTo with
  | none => simp
  | some out =>
    cases hcontract : s.contract with
    | error e => simp
    | ok c =>
      cases hbind : S.bindPsbt c out with
      | none => simp [hbind]
      | some program =>
        by_cases hkeymap : a.keymap
        · simp [hbind, hkeymap, bind_eq_ok_iff]
        · simp [hbind, hkeymap]

theorem handleSyntheticPeriodic_eq (h : s.handleSyntheticPeriodic a = .ok (.ok s')) : s' = s := by
  unfold handleSyntheticPeriodic at h
  split at h
  · exact (Except.ok.inj (Except.ok.inj h)).symm
  · split at h
    · cases Except.ok.inj h
    · split at h
      · exact (Except.ok.inj (Except.ok.inj h)).symm
      · split_ifs at h
        · obtain ⟨_, -, h⟩ := bind_eq_ok_iff.mp h
          exact (Except.ok.inj (Except.ok.inj h)).symm
        · cases Except.ok.inj h

private theorem handleCreateArgs_error_iff : (∃ e, s.handleCreateArgs args = .error e) ↔
    ∀ m, s.loadModule = .ok m → S.call m args.arguments args.effects = none := by
  unfold handleCreateArgs
  cases s.loadModule with
  | error e => simp
  | ok m => cases hcall : S.call m args.arguments args.effects <;> simp [hcall]

private theorem recompile_error_iff : (∃ e, s.recompile args contract idx effects = .error e) ↔
    ∀ m, s.loadModule = .ok m → ∃ newContract, S.call m args.arguments effects = some newContract ∧
      S.script contract ≠ S.script newContract := by
  unfold recompile
  cases s.loadModule with
  | error e => simp
  | ok m =>
    cases hcall : S.call m args.arguments effects with
    | none => simp [hcall]
    | some newContract =>
      by_cases h : S.script contract = S.script newContract <;> simp [hcall, h]

private theorem handleNewInformation_error_iff :
    (∃ e, s.handleNewInformation newInfo filter = .ok (.error e)) ↔
      s.Refuses a (.newRecompileTriggeringObservation newInfo filter) := by
  unfold handleNewInformation Refuses
  cases s.args with
  | error e => simp
  | ok args =>
    cases s.contract with
    | error e => simp
    | ok contract =>
      simp only [Except.ok.injEq]
      cases hsaved : (apisFor contract newInfo filter).foldlM
        (saveEffect (eventKey s.eventCounter) newInfo) args.effects with
      | error p =>
        constructor
        · intro h
          obtain ⟨e, h⟩ := h
          cases h
        · intro h
          obtain ⟨-, effects, heffects, -⟩ := h args contract rfl rfl
          rw [hsaved] at heffects
          cases heffects
      | ok effects =>
        have hend : (∃ e, s.recompile args contract (eventKey s.eventCounter) effects = .error e) ↔
            _ := recompile_error_iff
        by_cases hempty : (apisFor contract newInfo filter).isEmpty
        · constructor
          · intro h
            obtain ⟨e, h⟩ := h
            have hok := (if_pos hempty).symm.trans h
            cases hok
          · intro h
            exact absurd (List.isEmpty_iff.mp hempty) (h args contract rfl rfl).1
        · constructor
          · intro h
            obtain ⟨e, h⟩ := h
            have herror := Except.ok.inj ((if_neg hempty).symm.trans h)
            intro args' contract' hargs hcontract
            subst hargs hcontract
            refine ⟨fun h => hempty (List.isEmpty_iff.mpr h), effects, hsaved, ?_⟩
            exact hend.mp ⟨e, herror⟩
          · intro h
            obtain ⟨-, effects', heffects, hcalls⟩ := h args contract rfl rfl
            rw [hsaved] at heffects
            obtain rfl := Except.ok.inj heffects
            obtain ⟨e, herror⟩ := hend.mpr hcalls
            exact ⟨e, (if_neg hempty).trans (congrArg Except.ok herror)⟩

private theorem handle_error_iff : (∃ e, s.handle a ev = .ok (.error e)) ↔ s.Refuses a ev := by
  cases ev with
  | emittedPSBTVia => simp [handle, Refuses]
  | transactionFinalized => simp [handle, Refuses]
  | rebind o => simp [handle, Refuses]
  | syntheticPeriodicActions time => exact handleSyntheticPeriodic_error_iff
  | moduleBytes group tag =>
    simp only [handle, Refuses, handleModuleBytes]
    cases a.moduleBytes group tag <;> simp
  | createArgs args =>
    simp only [handle, Except.ok.injEq]
    exact handleCreateArgs_error_iff
  | newRecompileTriggeringObservation newInfo filter =>
    simp only [handle, mapError_eq_ok_iff]
    exact handleNewInformation_error_iff

/-- What no handler changes, and the key under which at most it writes. -/
structure Continues (s s' : LitigatedState S) : Prop where
  eventCounter : s'.eventCounter = s.eventCounter
  handled : s'.handled = s.handled
  written : s'.written = s.written ∨ s'.written = s.written ++ [eventKey s.eventCounter]

private theorem Continues.refl (s : LitigatedState S) : Continues s s := ⟨rfl, rfl, .inl rfl⟩

private theorem recompile_continues
    (h : s.recompile args contract (eventKey s.eventCounter) effects = .ok s') :
    Continues s s' := by
  unfold recompile at h
  cases hload : s.loadModule with
  | error e =>
    rw [hload] at h
    cases h
  | ok m =>
    rw [hload] at h
    dsimp only at h
    cases hcall : S.call m args.arguments effects with
    | none =>
      rw [hcall] at h
      obtain rfl := Except.ok.inj h
      exact ⟨rfl, rfl, .inr rfl⟩
    | some newContract =>
      rw [hcall] at h
      dsimp only at h
      split_ifs at h
      obtain rfl := Except.ok.inj h
      exact ⟨rfl, rfl, .inr rfl⟩

private theorem handleNewInformation_continues
    (h : s.handleNewInformation newInfo filter = .ok (.ok s')) : Continues s s' := by
  unfold handleNewInformation at h
  cases hargs : s.args with
  | error e =>
    rw [hargs] at h
    cases h
  | ok args =>
    cases hcontract : s.contract with
    | error e =>
      rw [hargs, hcontract] at h
      cases h
    | ok contract =>
      rw [hargs, hcontract] at h
      obtain ⟨effects, -, h⟩ := bind_eq_ok_iff.mp h
      split at h
      · obtain rfl := Except.ok.inj (Except.ok.inj h)
        exact .refl s
      · exact recompile_continues (Except.ok.inj h)

theorem handle_continues (h : s.handle a ev = .ok (.ok s')) : Continues s s' := by
  cases ev with
  | emittedPSBTVia =>
    obtain rfl := Except.ok.inj (Except.ok.inj h)
    exact .refl s
  | transactionFinalized =>
    obtain rfl := Except.ok.inj (Except.ok.inj h)
    exact .refl s
  | rebind o =>
    obtain rfl := Except.ok.inj (Except.ok.inj h)
    exact ⟨rfl, rfl, .inl rfl⟩
  | syntheticPeriodicActions time =>
    obtain rfl := handleSyntheticPeriodic_eq h
    exact .refl _
  | moduleBytes group tag =>
    have hok : s.handleModuleBytes a group tag = .ok s' := Except.ok.inj h
    unfold handleModuleBytes at hok
    split at hok
    · cases hok
    · obtain rfl := Except.ok.inj hok
      exact ⟨rfl, rfl, .inl rfl⟩
  | createArgs args =>
    have hok : s.handleCreateArgs args = .ok s' := Except.ok.inj h
    unfold handleCreateArgs at hok
    split at hok
    · cases hok
    · split at hok
      · cases hok
      · obtain rfl := Except.ok.inj hok
        exact ⟨rfl, rfl, .inl rfl⟩
  | newRecompileTriggeringObservation newInfo filter =>
    exact handleNewInformation_continues (mapError_eq_ok_iff.mp h)

private theorem eventKey_injective {m n : ℕ} (h : eventKey m = eventKey n) : m = n := by
  have hchars := congrArg String.toList h
  rw [eventKey, eventKey, String.toList_append, String.toList_append] at hchars
  have hdigits : (Nat.repr m).toList = (Nat.repr n).toList := List.append_cancel_left hchars
  rw [Nat.toList_repr, Nat.toList_repr] at hdigits
  rw [← Nat.ofDigitChars_ten_toDigits (n := m), hdigits, Nat.ofDigitChars_ten_toDigits]

theorem count_eq_inl (h : s.count = .inl s') :
    s' = { s with eventCounter := s.eventCounter + 1 } := by
  unfold count at h
  cases hadd : add 64 s.eventCounter 1 with
  | error p =>
    rw [hadd] at h
    cases h
  | ok c =>
    rw [hadd] at h
    obtain rfl := (add_eq_ok_iff.mp hadd).2
    exact (Sum.inl.inj h).symm

private theorem count_not_returned : s.count ≠ .inr (.returned e s') := by
  unfold count
  cases add 64 s.eventCounter 1 <;> simp

theorem turn_eq_inl {entry : Answers S × LitigatorEvent S}
    (h : turn (some entry) s = .inl s') :
    ∃ next, s.handle entry.1 entry.2 = .ok (.ok next) ∧
      s' = { next with
        handled := next.handled ++ [entry.2]
        eventCounter := next.eventCounter + 1 } := by
  cases hhandle : s.handle entry.1 entry.2 with
  | error p =>
    simp only [turn, hhandle] at h
    cases h
  | ok result =>
    cases result with
    | error e =>
      simp only [turn, hhandle] at h
      cases h
    | ok next =>
      simp only [turn, hhandle] at h
      exact ⟨next, rfl, count_eq_inl h⟩

private theorem turn_eq_returned_iff {received : Option (Answers S × LitigatorEvent S)} :
    turn received s = .inr (.returned e s') ↔
      s' = s ∧ ∃ entry, received = some entry ∧ s.handle entry.1 entry.2 = .ok (.error e) := by
  cases received with
  | none => simp [turn, count_not_returned]
  | some entry =>
    cases hhandle : s.handle entry.1 entry.2 with
    | error p => simp [turn, hhandle]
    | ok result =>
      cases result with
      | error e' => simp [turn, hhandle, and_comm, eq_comm]
      | ok next => simp [turn, hhandle, count_not_returned]

/-- The history after some rounds: the counter is the number of the rounds, and the keys are those
of earlier rounds. -/
structure Follows (events : List (Answers S × LitigatorEvent S)) (n : ℕ) (s : LitigatedState S) :
    Prop where
  eventCounter : s.eventCounter = n
  handled : s.handled = (events.take n).map Prod.snd
  written : s.written.Nodup
  keys : ∀ key ∈ s.written, ∃ m < n, key = eventKey m

private theorem Follows.initial : Follows events 0 (initial : LitigatedState S) where
  eventCounter := rfl
  handled := rfl
  written := List.nodup_nil
  keys := fun _ h => by cases h

private theorem Follows.turn (hs : Follows events n s) (h : turn events[n]? s = .inl s') :
    Follows events (n + 1) s' := by
  have hearlier : ∀ key ∈ s.written, ∃ m < n + 1, key = eventKey m := by
    intro key hkey
    obtain ⟨m, hm, heq⟩ := hs.keys key hkey
    exact ⟨m, Nat.lt_succ_of_lt hm, heq⟩
  cases hnext : events[n]? with
  | none =>
    rw [hnext] at h
    obtain rfl := count_eq_inl h
    have hle := List.getElem?_eq_none_iff.mp hnext
    constructor
    · exact congrArg (· + 1) hs.eventCounter
    · rw [List.take_of_length_le (Nat.le_succ_of_le hle), hs.handled, List.take_of_length_le hle]
    · exact hs.written
    · exact hearlier
  | some entry =>
    rw [hnext] at h
    obtain ⟨next, hhandle, rfl⟩ := turn_eq_inl h
    have hkept := handle_continues hhandle
    constructor
    · show next.eventCounter + 1 = n + 1
      rw [hkept.eventCounter, hs.eventCounter]
    · show next.handled ++ [entry.2] = _
      rw [hkept.handled, hs.handled, List.take_add_one, hnext, List.map_append]
      rfl
    · show next.written.Nodup
      apply hkept.written.elim
      · intro hsame
        rw [hsame]
        exact hs.written
      · intro hnew
        rw [hnew, hs.eventCounter]
        apply hs.written.append (List.nodup_singleton _)
        intro key hkey hlast
        obtain ⟨m, hm, rfl⟩ := hs.keys key hkey
        exact absurd (eventKey_injective (List.mem_singleton.mp hlast)) hm.ne
    · show ∀ key ∈ next.written, _
      intro key hkey
      apply hkept.written.elim
      · intro hsame
        exact hearlier key (hsame ▸ hkey)
      · intro hnew
        rw [hnew, hs.eventCounter] at hkey
        apply (List.mem_append.mp hkey).elim (hearlier key)
        intro hlast
        exact ⟨n, Nat.lt_succ_self n, List.mem_singleton.mp hlast⟩

theorem eventLoop_follows (h : eventLoop events n = .inl s) : Follows events n s :=
  Loop.invariant .initial (fun _ _ _ hs hturn => hs.turn hturn) h

/-- The loop ends with its input if and only if an event of the input is refused when its turn
comes. -/
theorem event_loop_ends_iff (events : List (Answers S × LitigatorEvent S)) :
    EndsWithInput events ↔ ∃ k a ev s, events[k]? = some (a, ev) ∧
      eventLoop events k = .inl s ∧ s.Refuses a ev := by
  constructor
  · intro h
    obtain ⟨n, e, s', hreturned, -⟩ := h
    obtain ⟨k, s, -, hround, hturn⟩ := exists_last_round hreturned
    obtain ⟨-, entry, hevent, herror⟩ := turn_eq_returned_iff.mp hturn
    exact ⟨k, entry.1, entry.2, s, hevent, hround, handle_error_iff.mp ⟨e, herror⟩⟩
  · intro h
    obtain ⟨k, a, ev, s, hevent, hround, hrefuses⟩ := h
    obtain ⟨e, herror⟩ := handle_error_iff.mpr hrefuses
    have hturn := turn_eq_returned_iff.mpr ⟨rfl, (a, ev), hevent, herror⟩
    have hfollows := eventLoop_follows hround
    have hlt := (List.getElem?_eq_some_iff.mp hevent).1
    refine ⟨k + 1, e, s, (rounds_succ_of_inl hround).trans hturn, ?_, ?_, hfollows.written⟩
    · rw [hfollows.handled, List.map_take]
      exact List.take_prefix _ _
    · rw [hfollows.handled, hfollows.eventCounter, List.length_map, List.length_take,
        Nat.min_eq_left hlt.le]

end LitigatedState

/-- Contracts without continuation points. -/
def noContracts : Sapio where
  Compiled := Unit
  ContinuationPoint := Unit
  EffectPath := Unit
  Arguments := Unit
  Bytes := Unit
  Module := Unit
  OutPoint := Unit
  Script := Unit
  LinkedPSBT := Unit
  decidablePath := inferInstance
  decidableScript := inferInstance
  continuationPoints _ := []
  path := id
  recompiler _ := none
  validator _ := none
  script := id
  newHandle := .ok
  call _ _ _ := none
  bindPsbt _ _ := none

/-- After one event, and after none, the loop goes round until its counter overflows. -/
theorem closed_channel_never_ends :
    ¬∀ (S : Sapio) (events : List (Answers S × LitigatorEvent S)),
      LitigatedState.EndsWithInput events := by
  intro h
  obtain ⟨n, e, s', hreturned, -⟩ :=
    h noContracts [(⟨fun _ _ => none, true, fun _ _ => true⟩, .rebind ())]
  obtain ⟨k, s, -, -, hturn⟩ := Loop.exists_last_round hreturned
  cases k with
  | zero => exact LitigatedState.count_not_returned hturn
  | succ k => exact LitigatedState.count_not_returned hturn

end JudicaVM
