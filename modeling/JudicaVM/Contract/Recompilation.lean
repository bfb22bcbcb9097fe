import JudicaVM.Contract.EventLoop
import Mathlib.Data.List.Nodup

/-!
# Recompiled contracts

What the event loop holds of a contract is explained by the events that it has handled: the
arguments are those of the last creation with the entries of the observations that were taken since,
and the contract is compiled from exactly these arguments.
-/

namespace JudicaVM

open Checked Loop Serde

variable {S : Sapio}

/-- Effects that are saved after the others. -/
def CreateArgs.save (args : CreateArgs S) (added : List ((S.EffectPath × String) × Json)) :
    CreateArgs S :=
  { args with effects := args.effects ++ added }

namespace LitigatedState

section

variable (s : LitigatedState S)

/-- The contract that the loaded module makes of some arguments. -/
def compile (args : CreateArgs S) : Option S.Compiled :=
  match s.loadModule with
  | .error _ => none
  | .ok m => S.call m args.arguments args.effects

/-- One entry for each continuation point of the contract that takes the observation. -/
def entries (newInfo : Json) (filter : String) : List ((S.EffectPath × String) × Json) :=
  match s.contract with
  | .error _ => []
  | .ok contract =>
    (apisFor contract newInfo filter).map fun api =>
      ((S.path api, eventKey s.eventCounter), newInfo)

/-- An observation adds its entries if the module compiles a contract from them. -/
def added : LitigatorEvent S → List ((S.EffectPath × String) × Json)
  | .newRecompileTriggeringObservation newInfo filter =>
    match s.args with
    | .error _ => []
    | .ok args =>
      if (s.compile (args.save (s.entries newInfo filter))).isSome then s.entries newInfo filter
      else []
  | _ => []

end

/-- What the event of a round adds. -/
def addedAt (events : List (Answers S × LitigatorEvent S)) (k : ℕ) :
    List ((S.EffectPath × String) × Json) :=
  match eventLoop events k, events[k]? with
  | .inl s, some (_, ev) => s.added ev
  | _, _ => []

/-- The module that is loaded before a round compiles the contract from the arguments. -/
def CompilesAt (events : List (Answers S × LitigatorEvent S)) (k : ℕ) (args : CreateArgs S)
    (contract : S.Compiled) : Prop :=
  ∃ s, eventLoop events k = .inl s ∧ s.compile args = some contract

/-- A contract after `n` rounds that was created in round `k` and compiled for the last time in
round `j`, which is that of the creation or of an observation that was taken. -/
structure Recompiled (events : List (Answers S × LitigatorEvent S)) (n k j : ℕ)
    (created args : CreateArgs S) (contract : S.Compiled) : Prop where
  creation : ∃ a, events[k]? = some (a, .createArgs created)
  last : ∀ i, k < i → i < n → ∀ a args', events[i]? ≠ some (a, .createArgs args')
  created_le : k ≤ j
  compiled_lt : j < n
  taken : j = k ∨ addedAt events j ≠ []
  args_eq : args = created.save ((List.range' (k + 1) (n - (k + 1))).flatMap (addedAt events))
  compiled : CompilesAt events j args contract
  settled : ∀ i, j < i → i < n → addedAt events i = []
  address : ∃ first, CompilesAt events k created first ∧ S.script contract = S.script first
  keys : (created.effects.map Prod.fst).Nodup → (args.effects.map Prod.fst).Nodup

variable {s s' : LitigatedState S} {a : Answers S} {ev : LitigatorEvent S} {newInfo : Json}
  {filter idx : String} {args created : CreateArgs S} {contract : S.Compiled}
  {effects effects' : List ((S.EffectPath × String) × Json)} {api : S.ContinuationPoint}
  {apis : List S.ContinuationPoint} {events : List (Answers S × LitigatorEvent S)} {n k j : ℕ}

private theorem saveEffect_eq_ok (h : saveEffect idx newInfo effects api = .ok effects') :
    effects' = effects ++ [((S.path api, idx), newInfo)] ∧
      (S.path api, idx) ∉ effects.map Prod.fst := by
  unfold saveEffect at h
  split_ifs at h with hany
  refine ⟨(Except.ok.inj h).symm, ?_⟩
  intro hmem
  obtain ⟨entry, hentry, hkey⟩ := List.mem_map.mp hmem
  exact hany (List.any_eq_true.mpr ⟨entry, hentry, decide_eq_true hkey⟩)

private theorem foldlM_saveEffect
    (h : apis.foldlM (saveEffect idx newInfo) effects = .ok effects') :
    effects' = effects ++ apis.map (fun api => ((S.path api, idx), newInfo)) ∧
      ((effects.map Prod.fst).Nodup → (effects'.map Prod.fst).Nodup) := by
  induction apis generalizing effects with
  | nil =>
    obtain rfl := Except.ok.inj h
    exact ⟨(List.append_nil _).symm, id⟩
  | cons api apis ih =>
    rw [List.foldlM_cons] at h
    obtain ⟨next, hnext, h⟩ := bind_eq_ok_iff.mp h
    obtain ⟨rfl, hnew⟩ := saveEffect_eq_ok hnext
    obtain ⟨hall, hnodup⟩ := ih h
    constructor
    · rw [hall, List.append_assoc, List.map_cons, List.singleton_append]
    · intro hold
      apply hnodup
      rw [List.map_append, List.map_singleton]
      apply hold.append (List.nodup_singleton _)
      intro key hkey hlast
      rw [List.mem_singleton.mp hlast] at hkey
      exact hnew hkey

/-- A contract is created, recompiled with more effects, or kept. -/
inductive Moves (s : LitigatedState S) (ev : LitigatorEvent S) (s' : LitigatedState S) : Prop
  | created (args : CreateArgs S) (contract : S.Compiled) (event : ev = .createArgs args)
      (compiled : s.compile args = some contract) (args_eq : s'.args = .ok args)
      (contract_eq : s'.contract = .ok contract)
  | recompiled (args : CreateArgs S) (contract newContract : S.Compiled)
      (event : ∀ args', ev ≠ .createArgs args') (before : s.args = .ok args)
      (contractBefore : s.contract = .ok contract)
      (taken : s.added ev ≠ [])
      (compiled : s.compile (args.save (s.added ev)) = some newContract)
      (address : S.script contract = S.script newContract)
      (keys : (args.effects.map Prod.fst).Nodup →
        ((args.save (s.added ev)).effects.map Prod.fst).Nodup)
      (args_eq : s'.args = .ok (args.save (s.added ev)))
      (contract_eq : s'.contract = .ok newContract)
  | kept (event : ∀ args', ev ≠ .createArgs args') (added : s.added ev = [])
      (args_eq : s'.args = s.args) (contract_eq : s'.contract = s.contract)

private theorem handleNewInformation_moves
    (h : s.handleNewInformation newInfo filter = .ok (.ok s')) :
    Moves s (.newRecompileTriggeringObservation newInfo filter) s' := by
  unfold handleNewInformation at h
  cases hargs : s.args with
  | error e =>
    rw [hargs] at h
    cases h
  | ok args =>
    cases hcontract : s.contract with
    | error e =>
      rw [hargs, hcontract] at h
      cases h
    | ok contract =>
      rw [hargs, hcontract] at h
      obtain ⟨effects, hsaved, h⟩ := bind_eq_ok_iff.mp h
      obtain ⟨heffects, hnodup⟩ := foldlM_saveEffect hsaved
      have hentries : s.entries newInfo filter =
          (apisFor contract newInfo filter).map fun api =>
            ((S.path api, eventKey s.eventCounter), newInfo) := by
        rw [entries, hcontract]
      have hsame : args.save (s.entries newInfo filter) = { args with effects } := by
        rw [hentries, heffects, CreateArgs.save]
      split at h
      next hempty =>
        obtain rfl := Except.ok.inj (Except.ok.inj h)
        refine .kept (fun _ => nofun) ?_ rfl rfl
        have hnone : s.entries newInfo filter = [] := by
          rw [hentries, List.isEmpty_iff.mp hempty, List.map_nil]
        simp only [added, hargs, hnone, ite_self]
      next hempty =>
        have hok : s.recompile args contract (eventKey s.eventCounter) effects = .ok s' :=
          Except.ok.inj h
        unfold recompile at hok
        cases hload : s.loadModule with
        | error e =>
          rw [hload] at hok
          cases hok
        | ok m =>
          have hcompile : s.compile { args with effects } = S.call m args.arguments effects := by
            rw [compile, hload]
          rw [hload] at hok
          dsimp only at hok
          cases hcall : S.call m args.arguments effects with
          | none =>
            rw [hcall] at hok
            obtain rfl := Except.ok.inj hok
            refine .kept (fun _ => nofun) ?_ rfl rfl
            simp only [added, hargs, hsame, hcompile, hcall, Option.isSome_none,
              Bool.false_eq_true, if_false]
          | some newContract =>
            rw [hcall] at hok
            dsimp only at hok
            split_ifs at hok with haddress
            obtain rfl := Except.ok.inj hok
            have hadded : s.added (.newRecompileTriggeringObservation newInfo filter) =
                s.entries newInfo filter := by
              simp only [added, hargs, hsame, hcompile, hcall, Option.isSome_some, if_true]
            refine .recompiled args contract newContract (fun _ => nofun) hargs hcontract ?_ ?_
              (not_not.mp haddress) ?_ ?_ rfl
            · rw [hadded, hentries]
              intro hnone
              exact hempty (List.isEmpty_iff.mpr (List.map_eq_nil_iff.mp hnone))
            · rw [hadded, hsame, hcompile, hcall]
            · rw [hadded, hsame]
              exact hnodup
            · rw [hadded, hsame]

private theorem handle_moves (h : s.handle a ev = .ok (.ok s')) : Moves s ev s' := by
  cases ev with
  | emittedPSBTVia =>
    obtain rfl := Except.ok.inj (Except.ok.inj h)
    exact .kept (fun _ => nofun) rfl rfl rfl
  | transactionFinalized =>
    obtain rfl := Except.ok.inj (Except.ok.inj h)
    exact .kept (fun _ => nofun) rfl rfl rfl
  | rebind o =>
    obtain rfl := Except.ok.inj (Except.ok.inj h)
    exact .kept (fun _ => nofun) rfl rfl rfl
  | syntheticPeriodicActions time =>
    obtain rfl := handleSyntheticPeriodic_eq h
    exact .kept (fun _ => nofun) rfl rfl rfl
  | moduleBytes group tag =>
    have hok : s.handleModuleBytes a group tag = .ok s' := Except.ok.inj h
    unfold handleModuleBytes at hok
    split at hok
    · cases hok
    · obtain rfl := Except.ok.inj hok
      exact .kept (fun _ => nofun) rfl rfl rfl
  | createArgs args =>
    have hok : s.handleCreateArgs args = .ok s' := Except.ok.inj h
    unfold handleCreateArgs at hok
    cases hload : s.loadModule with
    | error e =>
      rw [hload] at hok
      cases hok
    | ok m =>
      rw [hload] at hok
      dsimp only at hok
      cases hcall : S.call m args.arguments args.effects with
      | none =>
        rw [hcall] at hok
        cases hok
      | some contract =>
        rw [hcall] at hok
        obtain rfl := Except.ok.inj hok
        refine .created args contract rfl ?_ rfl rfl
        rw [compile, hload]
        exact hcall
  | newRecompileTriggeringObservation newInfo filter =>
    exact handleNewInformation_moves (mapError_eq_ok_iff.mp h)

private theorem addedAt_eq {entry : Answers S × LitigatorEvent S}
    (hloop : eventLoop events n = .inl s)
    (hevent : events[n]? = some entry) : addedAt events n = s.added entry.2 := by
  simp only [addedAt, hloop, hevent]

private theorem Recompiled.rounds_succ (h : k < n) : List.range' (k + 1) (n + 1 - (k + 1)) =
    List.range' (k + 1) (n - (k + 1)) ++ [n] := by
  obtain ⟨m, rfl⟩ := Nat.exists_eq_add_of_lt h
  have hlength : k + m + 1 + 1 - (k + 1) = m + 1 := by omega
  have hlength' : k + m + 1 - (k + 1) = m := by omega
  rw [hlength, hlength', List.range'_concat]
  congr 2
  omega

private theorem save_nil : args.save [] = args := by
  rw [CreateArgs.save, List.append_nil]

private theorem save_save : (args.save effects).save effects' = args.save
    (effects ++ effects') := by
  rw [CreateArgs.save, CreateArgs.save, CreateArgs.save, List.append_assoc]

private theorem Recompiled.keep (h : Recompiled events n k j created args contract)
    (hnone : addedAt events n = []) (hevent : ∀ a args', events[n]? ≠ some (a, .createArgs args')) :
    Recompiled events (n + 1) k j created args contract where
  creation := h.creation
  last := by
    intro i hk hi
    obtain hlt | rfl := Nat.lt_succ_iff_lt_or_eq.mp hi
    · exact h.last i hk hlt
    · exact hevent
  created_le := h.created_le
  compiled_lt := Nat.lt_succ_of_lt h.compiled_lt
  taken := h.taken
  args_eq := by
    have hk : k < n := Nat.lt_of_le_of_lt h.created_le h.compiled_lt
    rw [rounds_succ hk, List.flatMap_append, List.flatMap_singleton, hnone, List.append_nil]
    exact h.args_eq
  compiled := h.compiled
  settled := by
    intro i hj hi
    obtain hlt | rfl := Nat.lt_succ_iff_lt_or_eq.mp hi
    · exact h.settled i hj hlt
    · exact hnone
  address := h.address
  keys := h.keys

private theorem Recompiled.create (hevent : events[n]? = some (a, .createArgs args))
    (hcompiles : CompilesAt events n args contract) :
    Recompiled events (n + 1) n n args args contract where
  creation := ⟨a, hevent⟩
  last := by
    intro i hn hi
    omega
  created_le := le_rfl
  compiled_lt := Nat.lt_succ_self n
  taken := .inl rfl
  args_eq := by
    rw [Nat.sub_self, List.range'_zero, List.flatMap_nil, save_nil]
  compiled := hcompiles
  settled := by
    intro i hn hi
    omega
  address := ⟨contract, hcompiles, rfl⟩
  keys := id

private theorem Recompiled.grow {newContract : S.Compiled}
    (h : Recompiled events n k j created args contract)
    (hevent : ∀ a args', events[n]? ≠ some (a, .createArgs args'))
    (htaken : addedAt events n ≠ [])
    (hcompiles : CompilesAt events n (args.save (addedAt events n)) newContract)
    (haddress : S.script contract = S.script newContract)
    (hkeys : (args.effects.map Prod.fst).Nodup →
      ((args.save (addedAt events n)).effects.map Prod.fst).Nodup) :
    Recompiled events (n + 1) k n created (args.save (addedAt events n)) newContract where
  creation := h.creation
  last := by
    intro i hk hi
    obtain hlt | rfl := Nat.lt_succ_iff_lt_or_eq.mp hi
    · exact h.last i hk hlt
    · exact hevent
  created_le := Nat.le_trans h.created_le h.compiled_lt.le
  compiled_lt := Nat.lt_succ_self n
  taken := .inr htaken
  args_eq := by
    have hk : k < n := Nat.lt_of_le_of_lt h.created_le h.compiled_lt
    rw [rounds_succ hk, List.flatMap_append, List.flatMap_singleton, ← save_save, ← h.args_eq]
  compiled := hcompiles
  settled := by
    intro i hn hi
    omega
  address := by
    obtain ⟨first, hfirst, hscript⟩ := h.address
    exact ⟨first, hfirst, haddress.symm.trans hscript⟩
  keys := hkeys ∘ h.keys

/-- If a contract is held, it is explained by the events of the rounds. -/
def Explained (events : List (Answers S × LitigatorEvent S)) (n : ℕ) (s : LitigatedState S) :
    Prop :=
  ∀ contract, s.contract = .ok contract →
    ∃ k j created args, s.args = .ok args ∧ Recompiled events n k j created args contract

private theorem Explained.turn (hloop : eventLoop events n = .inl s) (hs : Explained events n s)
    (h : turn events[n]? s = .inl s') : Explained events (n + 1) s' := by
  cases hnext : events[n]? with
  | none =>
    rw [hnext] at h
    obtain rfl := count_eq_inl h
    intro contract hcontract
    obtain ⟨k, j, created, args, hargs, hrecompiled⟩ := hs contract hcontract
    have hnone : addedAt events n = [] := by simp only [addedAt, hloop, hnext]
    exact ⟨k, j, created, args, hargs, hrecompiled.keep hnone fun _ _ => hnext ▸ nofun⟩
  | some entry =>
    rw [hnext] at h
    obtain ⟨next, hhandle, rfl⟩ := turn_eq_inl h
    have hadded := addedAt_eq hloop hnext
    intro c hc
    have hc : next.contract = .ok c := hc
    show ∃ k j created args, next.args = .ok args ∧ _
    cases handle_moves hhandle with
    | created args contract event compiled args_eq contract_eq =>
      obtain rfl := Except.ok.inj (contract_eq.symm.trans hc)
      have hevent : events[n]? = some (entry.1, .createArgs args) := by rw [hnext, ← event]
      exact ⟨n, n, args, args, args_eq, .create hevent ⟨s, hloop, compiled⟩⟩
    | recompiled args contract newContract event before contractBefore taken compiled address keys
        args_eq contract_eq =>
      obtain rfl := Except.ok.inj (contract_eq.symm.trans hc)
      obtain ⟨k, j, created, args', hargs', hrecompiled⟩ := hs contract contractBefore
      obtain rfl := Except.ok.inj (before.symm.trans hargs')
      rw [← hadded] at taken compiled keys args_eq
      refine ⟨k, n, created, _, args_eq, ?_⟩
      refine hrecompiled.grow ?_ taken ⟨s, hloop, compiled⟩ address keys
      intro a args' heq
      rw [hnext] at heq
      exact event args' (congrArg Prod.snd (Option.some.inj heq))
    | kept event added args_eq contract_eq =>
      obtain ⟨k, j, created, args, hargs, hrecompiled⟩ := hs c (contract_eq ▸ hc)
      refine ⟨k, j, created, args, args_eq.trans hargs, ?_⟩
      apply hrecompiled.keep (hadded.trans added)
      intro a args' heq
      rw [hnext] at heq
      exact event args' (congrArg Prod.snd (Option.some.inj heq))

/-- The contract that is held after any number of rounds is what the module made of the arguments of
the last creation and of every observation that was taken since, at the address of the creation. -/
theorem contract_recompiled (h : eventLoop events n = .inl s) (hcontract : s.contract = .ok contract) :
    ∃ k j created args, s.args = .ok args ∧ Recompiled events n k j created args contract := by
  have hexplained : eventLoop events n = .inl s ∧ Explained events n s := by
    apply Loop.invariant (I := fun n s => eventLoop events n = .inl s ∧ Explained events n s) _ _ h
    · exact ⟨rfl, fun _ h => by cases h⟩
    · intro n s s' hs hturn
      exact ⟨(rounds_succ_of_inl hs.1).trans hturn, hs.2.turn hs.1 hturn⟩
  exact hexplained.2 contract hcontract

end LitigatedState

/-- A contract that takes every observation, compiles with at most one and has one transaction. -/
def oneObservation : Sapio where
  Compiled := ℕ
  ContinuationPoint := Unit
  EffectPath := Unit
  Arguments := Unit
  Bytes := Unit
  Module := Unit
  OutPoint := Unit
  Script := Unit
  LinkedPSBT := Unit
  decidablePath := inferInstance
  decidableScript := inferInstance
  continuationPoints _ := [()]
  path := id
  recompiler _ := some "*"
  validator _ := some fun _ => true
  script _ := ()
  newHandle := .ok
  call _ _ effects := if effects.length ≤ 1 then some effects.length else none
  bindPsbt _ _ := some [()]

def twoObservations : List (Answers oneObservation × LitigatorEvent oneObservation) :=
  let answers : Answers oneObservation := ⟨fun _ _ => some (), true, fun _ _ => true⟩
  [(answers, .moduleBytes "modules" "one"), (answers, .createArgs ⟨(), []⟩),
    (answers, .newRecompileTriggeringObservation .null "block"),
    (answers, .newRecompileTriggeringObservation .null "block")]

/-- The second observation is not taken. -/
theorem contract_recompiled_twoObservations :
    ∃ s k j created args, LitigatedState.eventLoop twoObservations 4 = .inl s ∧
      s.args = .ok args ∧ args.effects = [(((), "event2"), .null)] ∧
      LitigatedState.Recompiled twoObservations 4 k j created args (1 : ℕ) := by
  obtain ⟨s, hloop, hargs, hcontract⟩ : ∃ s, LitigatedState.eventLoop twoObservations 4 = .inl s ∧
      s.args = .ok ⟨(), [(((), "event2"), .null)]⟩ ∧ s.contract = .ok (1 : ℕ) :=
    ⟨_, rfl, rfl, rfl⟩
  obtain ⟨k, j, created, args, hargs', hrecompiled⟩ :=
    LitigatedState.contract_recompiled hloop hcontract
  obtain rfl := Except.ok.inj (hargs.symm.trans hargs')
  exact ⟨s, k, j, created, _, hloop, hargs, rfl, hrecompiled⟩

end JudicaVM
