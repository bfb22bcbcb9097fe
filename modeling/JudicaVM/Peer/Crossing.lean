import JudicaVM.Peer.Connections

/-!
# Crossing connections

Two nodes dial each other at the same time. Each of the two sockets has an end at either node, a
client's where it was dialled and a server's at the other node. Once the handshake is over at an
end, the end registers the session in the table of its node and closes the socket where it is
refused.
-/

namespace JudicaVM

open Checked

inductive Node
  | alice
  | bob
  deriving DecidableEq, Repr

def Node.other : Node → Node
  | .alice => .bob
  | .bob => .alice

/-- The socket that a node has dialled. -/
structure Socket where
  dialler : Node
  deriving DecidableEq, Repr

def Socket.role (k : Socket) (e : Node) : Role :=
  if k.dialler = e then .client else .server

def ServiceUrl.lt (a b : ServiceUrl) : Bool :=
  a.host < b.host || (a.host = b.host && a.port < b.port)

def preferredRole (myName peerName : ServiceUrl) : Except AttestProtocolError Role :=
  if myName.lt peerName then .ok .client
  else if myName = peerName then .error .selfConnection
  else .ok .server

/-- Where `run_protocol` is at one end of a socket. -/
inductive Progress
  | handshake
  | completed
  | running (chan : ℕ)
  | quit (res : Exit)
  deriving DecidableEq

/-- Whether the socket has been closed at this end. -/
def Progress.hasQuit : Progress → Bool
  | .quit _ => true
  | _ => false

structure Crossing where
  tables : Node → Connections
  progress : Node → Socket → Progress

/-- The handshake completes at an end, the end registers its session, or a session sees that the
other end has closed the socket. -/
inductive CrossingEvent
  | complete (e : Node) (k : Socket)
  | register (e : Node) (k : Socket)
  | disconnect (e : Node) (k : Socket)
  deriving DecidableEq

namespace Crossing

variable (s : Crossing)

def setProgress (e : Node) (k : Socket) (p : Progress) : Crossing :=
  { s with progress := fun e' k' => if e' = e ∧ k' = k then p else s.progress e' k' }

def setTable (e : Node) (t : Connections) : Crossing :=
  { s with tables := Function.update s.tables e t }

/-- `run_protocol_inner` from the end of the handshake to its loop. -/
def register (name : Node → ServiceUrl) (e : Node) (k : Socket) : Crossing :=
  match preferredRole (name e) (name e.other) with
  | .error err => s.setProgress e k (.quit (.error err))
  | .ok preferRole =>
    let registered := (s.tables e).setConnOpenProb (name e.other) preferRole (k.role e)
    match registered.1 with
    | none => (s.setTable e registered.2).setProgress e k (.quit (.error .alreadyConnected))
    | some chan => (s.setTable e registered.2).setProgress e k (.running chan)

/-- The server waits for the cookie that the client sends at the end of its handshake. -/
def step (name : Node → ServiceUrl) : CrossingEvent → Option Crossing
  | .complete e k =>
    if s.progress e k = .handshake ∧
        (k.role e = .client ∨ s.progress e.other k ≠ .handshake) then
      some (s.setProgress e k .completed)
    else none
  | .register e k => if s.progress e k = .completed then some (s.register name e k) else none
  | .disconnect e k =>
    match s.progress e k with
    | .running chan =>
      if (s.progress e.other k).hasQuit then
        some ((s.setTable e ((s.tables e).dropReceiver (name e.other) chan)).setProgress e k
          (.quit (.ok "Peer Disconnected from us")))
      else none
    | _ => none

/-- Both nodes have dialled, and neither has a session with the other. -/
structure Dialled (name : Node → ServiceUrl) (s : Crossing) : Prop where
  handshake : ∀ e k, s.progress e k = .handshake
  unopened : ∀ e chan role, (s.tables e).connections (name e.other) ≠ some (.opened chan role)

/-- The events that lead from two crossing attempts to a state. -/
inductive Crosses (name : Node → ServiceUrl) (s₀ : Crossing) : List CrossingEvent → Crossing → Prop
  | start (h : s₀.Dialled name) : Crosses name s₀ [] s₀
  | step {events : List CrossingEvent} {ev : CrossingEvent} {s s' : Crossing}
      (h : Crosses name s₀ events s) (hstep : s.step name ev = some s') :
      Crosses name s₀ (events ++ [ev]) s'

def registers (e : Node) : CrossingEvent → Option Socket
  | .register e' k => if e' = e then some k else none
  | _ => none

/-- The socket of the first call of `set_conn_open_prob` at a node. -/
def firstRegistered (e : Node) (events : List CrossingEvent) : Option Socket :=
  events.findSome? (registers e)

def IsRunning (e : Node) (k : Socket) : Prop := ∃ chan, s.progress e k = .running chan

/-- Both handshakes have completed at both ends, and the ends have registered or been refused. -/
def Completed : Prop := ∀ e k, s.IsRunning e k ∨ (s.progress e k).hasQuit

/-- Both nodes have kept one and the same socket, and its session runs at both. -/
def Agrees : Prop := ∃ k, ∀ e k', s.IsRunning e k' ↔ k' = k

variable {name : Node → ServiceUrl} {s s' s₀ : Crossing} {events : List CrossingEvent}

private theorem preferredRole_self (a : ServiceUrl) :
    preferredRole a a = .error .selfConnection := by
  simp [preferredRole, ServiceUrl.lt]

private theorem preferredRole_of_ne {a b : ServiceUrl} (h : a ≠ b) :
    ∃ role, preferredRole a b = .ok role := by
  by_cases hlt : a.lt b
  · exact ⟨.client, by simp [preferredRole, hlt]⟩
  · exact ⟨.server, by simp [preferredRole, hlt, h]⟩

private theorem names_eq_iff (e : Node) : name e = name e.other ↔ name .alice = name .bob := by
  cases e with
  | alice => exact Iff.rfl
  | bob => exact eq_comm

/-- What a step does to the entries that the two nodes keep for each other, and to the sockets. -/
inductive Effect (name : Node → ServiceUrl) (s : Crossing) : CrossingEvent → Crossing → Prop
  | complete (e : Node) (k : Socket) (hhandshake : s.progress e k = .handshake) :
      Effect name s (.complete e k) (s.setProgress e k .completed)
  | fail (e : Node) (k : Socket) (err : AttestProtocolError)
      (hcompleted : s.progress e k = .completed) (hsame : name .alice = name .bob) :
      Effect name s (.register e k) (s.setProgress e k (.quit (.error err)))
  | refuse (e : Node) (k : Socket) (hcompleted : s.progress e k = .completed)
      (hne : name .alice ≠ name .bob) (chan : ℕ) (role : Role)
      (hopened : (s.tables e).connections (name e.other) = some (.opened chan role)) :
      Effect name s (.register e k)
        ((s.setTable e (s.tables e)).setProgress e k (.quit (.error .alreadyConnected)))
  | keep (e : Node) (k : Socket) (t : Connections) (chan : ℕ) (role : Role)
      (hcompleted : s.progress e k = .completed) (hne : name .alice ≠ name .bob)
      (hnew : ∀ chan role, (s.tables e).connections (name e.other) ≠ some (.opened chan role))
      (hopened : t.connections (name e.other) = some (.opened chan role)) :
      Effect name s (.register e k) ((s.setTable e t).setProgress e k (.running chan))
  | disconnect (e : Node) (k : Socket) (t : Connections) (chan : ℕ)
      (hrunning : s.progress e k = .running chan) (hquit : (s.progress e.other k).hasQuit)
      (htable : t.connections = (s.tables e).connections) :
      Effect name s (.disconnect e k)
        ((s.setTable e t).setProgress e k (.quit (.ok "Peer Disconnected from us")))

private theorem setConnOpenProb_cases (t : Connections) (svc : ServiceUrl)
    (preferRole role : Role) : (∃ chan role', t.connections svc = some (.opened chan role') ∧
      t.setConnOpenProb svc preferRole role = (none, t)) ∨
    (∀ chan role', t.connections svc ≠ some (.opened chan role')) ∧
      t.setConnOpenProb svc preferRole role = t.newOpen svc role := by
  cases hentry : t.connections svc with
  | none => exact .inr ⟨by simp, by simp [Connections.setConnOpenProb, hentry]⟩
  | some p =>
    cases p with
    | opened chan role' =>
      exact .inl ⟨chan, role', rfl, by simp [Connections.setConnOpenProb, hentry]⟩
    | closed => exact .inr ⟨by simp, by simp [Connections.setConnOpenProb, hentry]⟩
    | pending cookie => exact .inr ⟨by simp, by simp [Connections.setConnOpenProb, hentry]⟩

private theorem register_effect {e : Node} {k : Socket} (hcompleted : s.progress e k = .completed) :
    Effect name s (.register e k) (s.register name e k) := by
  by_cases hsame : name .alice = name .bob
  · have hself := (names_eq_iff e).mpr hsame
    simp only [register, ← hself, preferredRole_self]
    exact .fail e k _ hcompleted hsame
  · obtain ⟨preferRole, hrole⟩ := preferredRole_of_ne fun h => hsame ((names_eq_iff e).mp h)
    simp only [register, hrole]
    rcases setConnOpenProb_cases (s.tables e) (name e.other) preferRole (k.role e) with
      ⟨chan, role, hopened, heq⟩ | ⟨hnew, heq⟩
    · rw [heq]
      exact .refuse e k hcompleted hsame chan role hopened
    · rw [heq]
      exact .keep e k _ _ (k.role e) hcompleted hsame hnew (Connections.connections_set_self _)

private theorem step_effect {ev : CrossingEvent} (hstep : s.step name ev = some s') :
    Effect name s ev s' := by
  cases ev with
  | complete e k =>
    obtain ⟨hguard, hstep⟩ := Option.ite_none_right_eq_some.mp hstep
    cases hstep
    exact .complete e k hguard.1
  | register e k =>
    obtain ⟨hcompleted, hstep⟩ := Option.ite_none_right_eq_some.mp hstep
    cases hstep
    exact register_effect hcompleted
  | disconnect e k =>
    simp only [step] at hstep
    split at hstep
    · rename_i chan hrunning
      obtain ⟨hquit, hstep⟩ := Option.ite_none_right_eq_some.mp hstep
      cases hstep
      exact .disconnect e k _ chan hrunning hquit rfl
    · cases hstep

private theorem firstRegistered_append (e : Node) (ev : CrossingEvent) :
    firstRegistered e (events ++ [ev]) = (firstRegistered e events).or (registers e ev) := by
  simp [firstRegistered, List.findSome?_append]

/-- The entry that a node keeps for the other is open once it has registered a session, which is
the session that it runs, and a socket is closed only after some node has registered the other. -/
structure Tracked (name : Node → ServiceUrl) (events : List CrossingEvent) (s : Crossing) :
    Prop where
  unopened : ∀ e, firstRegistered e events = none →
    ∀ chan role, (s.tables e).connections (name e.other) ≠ some (.opened chan role)
  opened : name .alice ≠ name .bob → ∀ e k, firstRegistered e events = some k →
    ∃ chan role, (s.tables e).connections (name e.other) = some (.opened chan role)
  running : ∀ e k, s.IsRunning e k → name .alice ≠ name .bob ∧ firstRegistered e events = some k
  registered : ∀ e k, firstRegistered e events = some k →
    s.IsRunning e k ∨ (s.progress e k).hasQuit
  quit : name .alice ≠ name .bob → ∀ e k, (s.progress e k).hasQuit →
    ∃ e' k', firstRegistered e' events = some k' ∧ k' ≠ k

private theorem progress_setProgress (e : Node) (k : Socket) (p : Progress) (e' : Node)
    (k' : Socket) :
    (s.setProgress e k p).progress e' k' = if e' = e ∧ k' = k then p else s.progress e' k' := rfl

private theorem tables_setProgress (e : Node) (k : Socket) (p : Progress) :
    (s.setProgress e k p).tables = s.tables := rfl

private theorem tables_setTable_of_ne {e e' : Node} (h : e' ≠ e) (t : Connections) :
    (s.setTable e t).tables e' = s.tables e' := by
  simp [setTable, h]

private theorem connections_setTable {e e' : Node} {t : Connections}
    (h : t.connections = (s.tables e).connections) :
    ((s.setTable e t).tables e').connections = (s.tables e').connections := by
  by_cases he : e' = e
  · subst he
    simp [setTable, h]
  · simp [setTable, he]

private theorem setTable_self (s : Crossing) (e : Node) : s.setTable e (s.tables e) = s := by
  simp [setTable]

namespace Tracked

private theorem initial (h : s₀.Dialled name) : Tracked name [] s₀ where
  unopened e _ := h.unopened e
  opened _ e k hfirst := by cases hfirst
  running e k hrunning := by
    obtain ⟨chan, hrunning⟩ := hrunning
    rw [h.handshake] at hrunning
    cases hrunning
  registered e k hfirst := by cases hfirst
  quit _ e k hquit := by
    rw [h.handshake] at hquit
    cases hquit

variable (hs : Tracked name events s)
include hs

private theorem ne_of_waits {e : Node} {k k' : Socket} (hrunning : ¬ s.IsRunning e k)
    (hquit : ¬ (s.progress e k).hasQuit) (hfirst : firstRegistered e events = some k') :
    k' ≠ k := by
  rintro rfl
  rcases hs.registered e _ hfirst with h | h
  · exact hrunning h
  · exact hquit h

/-- A step that leaves the tables and what is registered, and closes a socket only where some node
has registered the other. -/
theorem move {e : Node} {k : Socket} {p : Progress} {t : Connections} {ev : CrossingEvent}
    (hev : ∀ e', firstRegistered e' (events ++ [ev]) = firstRegistered e' events)
    (htable : t.connections = (s.tables e).connections) (hp : ∀ chan, p ≠ .running chan)
    (hold : firstRegistered e events = some k → p.hasQuit)
    (hnew : name .alice ≠ name .bob → p.hasQuit →
      ∃ e' k', firstRegistered e' events = some k' ∧ k' ≠ k) :
    Tracked name (events ++ [ev]) ((s.setTable e t).setProgress e k p) where
  unopened e' hfirst := by
    rw [tables_setProgress, connections_setTable htable]
    exact hs.unopened e' (hev e' ▸ hfirst)
  opened hne e' k' hfirst := by
    rw [tables_setProgress, connections_setTable htable]
    exact hs.opened hne e' k' (hev e' ▸ hfirst)
  running e' k' hrunning := by
    obtain ⟨chan, hrunning⟩ := hrunning
    rw [progress_setProgress] at hrunning
    split at hrunning
    · exact absurd hrunning (hp chan)
    · rw [hev]
      exact hs.running e' k' ⟨chan, hrunning⟩
  registered e' k' hfirst := by
    rw [hev] at hfirst
    rw [IsRunning, progress_setProgress]
    split
    · rename_i heq
      obtain ⟨rfl, rfl⟩ := heq
      exact .inr (hold hfirst)
    · exact hs.registered e' k' hfirst
  quit hne e' k' hquit := by
    simp only [hev]
    rw [progress_setProgress] at hquit
    split at hquit
    · rename_i heq
      rw [heq.2]
      exact hnew hne hquit
    · exact hs.quit hne e' k' hquit

private theorem complete {e : Node} {k : Socket} (hhandshake : s.progress e k = .handshake) :
    Tracked name (events ++ [.complete e k]) (s.setProgress e k .completed) := by
  rw [← s.setTable_self e]
  apply hs.move
  · intro e'
    simp [firstRegistered_append, registers]
  · rfl
  · simp
  · intro hfirst
    have hrunning : ¬ s.IsRunning e k := by simp [IsRunning, hhandshake]
    have hquit : ¬ (s.progress e k).hasQuit := by simp [Progress.hasQuit, hhandshake]
    exact absurd rfl (hs.ne_of_waits hrunning hquit hfirst)
  · simp [Progress.hasQuit]

private theorem disconnect {e : Node} {k : Socket} {t : Connections} {res : Exit}
    (hquit : (s.progress e.other k).hasQuit) (htable : t.connections = (s.tables e).connections) :
    Tracked name (events ++ [.disconnect e k]) ((s.setTable e t).setProgress e k (.quit res)) := by
  apply hs.move
  · intro e'
    simp [firstRegistered_append, registers]
  · exact htable
  · simp
  · intro _
    rfl
  · intro hne _
    exact hs.quit hne e.other k hquit

private theorem refuse {e : Node} {k : Socket} {res : Exit}
    (hcompleted : s.progress e k = .completed)
    {chan : ℕ} {role : Role}
    (hopened : (s.tables e).connections (name e.other) = some (.opened chan role)) :
    Tracked name (events ++ [.register e k])
      ((s.setTable e (s.tables e)).setProgress e k (.quit res)) := by
  cases hfirst : firstRegistered e events with
  | none => exact absurd hopened (hs.unopened e hfirst chan role)
  | some k' =>
    have hrunning : ¬ s.IsRunning e k := by simp [IsRunning, hcompleted]
    have hquit : ¬ (s.progress e k).hasQuit := by simp [Progress.hasQuit, hcompleted]
    apply hs.move
    · intro e'
      rw [firstRegistered_append]
      by_cases he : e = e'
      · simp [← he, hfirst]
      · simp [registers, he]
    · rfl
    · simp
    · intro _
      rfl
    · intro _ _
      exact ⟨e, k', hfirst, hs.ne_of_waits hrunning hquit hfirst⟩

private theorem fail {e : Node} {k : Socket} {res : Exit} (hsame : name .alice = name .bob) :
    Tracked name (events ++ [.register e k]) (s.setProgress e k (.quit res)) where
  unopened e' hfirst := by
    rw [firstRegistered_append, Option.or_eq_none_iff] at hfirst
    exact hs.unopened e' hfirst.1
  opened hne := absurd hsame hne
  running e' k' hrunning := by
    obtain ⟨chan, hrunning⟩ := hrunning
    rw [progress_setProgress] at hrunning
    split at hrunning
    · cases hrunning
    · exact absurd hsame (hs.running e' k' ⟨chan, hrunning⟩).1
  registered e' k' hfirst := by
    rw [IsRunning, progress_setProgress]
    split
    · exact .inr rfl
    · rename_i hne
      rw [firstRegistered_append, Option.or_eq_some_iff] at hfirst
      rcases hfirst with hfirst | ⟨-, hfirst⟩
      · exact hs.registered e' k' hfirst
      · simp only [registers, Option.ite_none_right_eq_some, Option.some.injEq] at hfirst
        exact absurd ⟨hfirst.1.symm, hfirst.2.symm⟩ hne
  quit hne := absurd hsame hne

private theorem keep {e : Node} {k : Socket} {t : Connections} {chan : ℕ} {role : Role}
    (hne : name .alice ≠ name .bob)
    (hnew : ∀ chan role, (s.tables e).connections (name e.other) ≠ some (.opened chan role))
    (hopened : t.connections (name e.other) = some (.opened chan role)) :
    Tracked name (events ++ [.register e k])
      ((s.setTable e t).setProgress e k (.running chan)) := by
  have hnone : firstRegistered e events = none := by
    apply Option.eq_none_iff_forall_ne_some.mpr
    intro k' hfirst
    obtain ⟨chan', role', hentry⟩ := hs.opened hne e k' hfirst
    exact hnew chan' role' hentry
  have hfirst : ∀ e', firstRegistered e' (events ++ [.register e k]) =
      if e = e' then some k else firstRegistered e' events := by
    intro e'
    rw [firstRegistered_append]
    by_cases he : e = e'
    · simp [← he, hnone, registers]
    · simp [registers, he]
  exact {
    unopened := by
      intro e' hnone'
      rw [hfirst] at hnone'
      split at hnone'
      · cases hnone'
      · rename_i he
        rw [tables_setProgress, tables_setTable_of_ne (Ne.symm he)]
        exact hs.unopened e' hnone'
    opened := by
      intro _ e' k' hsome
      rw [hfirst] at hsome
      split at hsome
      · rename_i he
        subst he
        exact ⟨chan, role, by simp [tables_setProgress, setTable, hopened]⟩
      · rename_i he
        rw [tables_setProgress, tables_setTable_of_ne (Ne.symm he)]
        exact hs.opened hne e' k' hsome
    running := by
      intro e' k' hrunning
      obtain ⟨chan', hrunning⟩ := hrunning
      rw [progress_setProgress] at hrunning
      split at hrunning
      · rename_i heq
        rw [hfirst, if_pos heq.1.symm, heq.2]
        exact ⟨hne, rfl⟩
      · have hold := (hs.running e' k' ⟨chan', hrunning⟩).2
        rw [hfirst, if_neg]
        · exact ⟨hne, hold⟩
        · rintro rfl
          rw [hnone] at hold
          cases hold
    registered := by
      intro e' k' hsome
      rw [IsRunning, progress_setProgress]
      split
      · exact .inl ⟨chan, rfl⟩
      · rename_i hother
        rw [hfirst] at hsome
        split at hsome
        · rename_i he
          exact absurd ⟨he.symm, (Option.some.inj hsome).symm⟩ hother
        · exact hs.registered e' k' hsome
    quit := by
      intro _ e' k' hquit
      rw [progress_setProgress] at hquit
      split at hquit
      · cases hquit
      · obtain ⟨e₁, k₁, hfirst₁, hne₁⟩ := hs.quit hne e' k' hquit
        refine ⟨e₁, k₁, ?_, hne₁⟩
        rw [hfirst, if_neg]
        · exact hfirst₁
        · rintro rfl
          rw [hnone] at hfirst₁
          cases hfirst₁ }

private theorem effect {ev : CrossingEvent} (heff : Effect name s ev s') :
    Tracked name (events ++ [ev]) s' := by
  cases heff with
  | complete e k hhandshake => exact hs.complete hhandshake
  | fail e k err hcompleted hsame => exact hs.fail hsame
  | refuse e k hcompleted hne chan role hopened => exact hs.refuse hcompleted hopened
  | keep e k t chan role hcompleted hne hnew hopened => exact hs.keep hne hnew hopened
  | disconnect e k t chan hrunning hquit htable => exact hs.disconnect hquit htable

end Tracked

private theorem Crosses.tracked (h : Crosses name s₀ events s) : Tracked name events s := by
  induction h with
  | start h => exact Tracked.initial h
  | step _ hstep ih => exact ih.effect (step_effect hstep)

/-- Once everything has completed, the nodes agree on a socket exactly when they have different
names and both have registered the same socket first. -/
theorem agrees_iff (h : Crosses name s₀ events s) (hcompleted : s.Completed) :
    s.Agrees ↔ name .alice ≠ name .bob ∧
      ∃ k, ∀ e, firstRegistered e events = some k := by
  have hs := h.tracked
  constructor
  · intro hagrees
    obtain ⟨k, hagrees⟩ := hagrees
    have hrunning : ∀ e, s.IsRunning e k := fun e => (hagrees e k).mpr rfl
    exact ⟨(hs.running .alice k (hrunning .alice)).1, k, fun e => (hs.running e k (hrunning e)).2⟩
  · intro hsame
    obtain ⟨hne, k, hfirst⟩ := hsame
    refine ⟨k, fun e k' => ⟨?_, ?_⟩⟩
    · intro hrunning
      have hfirst' := (hs.running e k' hrunning).2
      rw [hfirst] at hfirst'
      exact (Option.some.inj hfirst').symm
    · rintro rfl
      rcases hcompleted e k' with hrunning | hquit
      · exact hrunning
      · obtain ⟨e', k₁, hfirst₁, hne₁⟩ := hs.quit hne e k' hquit
        rw [hfirst] at hfirst₁
        exact absurd (Option.some.inj hfirst₁).symm hne₁

/-- Where the nodes have registered different sockets first, no session is left that does not see
its socket closed. -/
theorem disconnects (h : Crosses name s₀ events s) (hcompleted : s.Completed)
    (hdiffer : ∀ e, firstRegistered e events ≠ firstRegistered e.other events) {e : Node}
    {k : Socket} (hrunning : s.IsRunning e k) :
    ∃ s', s.step name (.disconnect e k) = some s' := by
  have hs := h.tracked
  obtain ⟨chan, hchan⟩ := hrunning
  have hquit : (s.progress e.other k).hasQuit := by
    rcases hcompleted e.other k with hother | hquit
    · have hsame := (hs.running e k ⟨chan, hchan⟩).2.trans (hs.running e.other k hother).2.symm
      exact absurd hsame (hdiffer e)
    · exact hquit
  have hstep : s.step name (.disconnect e k) =
      some ((s.setTable e ((s.tables e).dropReceiver (name e.other) chan)).setProgress e k
        (.quit (.ok "Peer Disconnected from us"))) := by
    simp only [step, hchan]
    exact if_pos hquit
  exact ⟨_, hstep⟩

def run (name : Node → ServiceUrl) : List CrossingEvent → Crossing → Option Crossing
  | [], s => some s
  | ev :: events, s => s.step name ev >>= run name events

private theorem Crosses.run {later : List CrossingEvent} (h : Crosses name s₀ events s)
    (hrun : run name later s = some s') : Crosses name s₀ (events ++ later) s' := by
  induction later generalizing events s with
  | nil =>
    cases hrun
    rwa [List.append_nil]
  | cons ev later ih =>
    obtain ⟨s₁, hstep, hrest⟩ := Option.bind_eq_some_iff.mp hrun
    simpa using ih (h.step hstep) hrest

def localName : Node → ServiceUrl
  | .alice => ⟨"127.0.0.1", 14322⟩
  | .bob => ⟨"127.0.0.1", 14323⟩

/-- Both nodes have set the other one pending and dialled. -/
def dialled : Crossing where
  tables e := (({} : Connections).setConnPending (localName e.other) true).2
  progress _ _ := .handshake

private theorem dialled_dialled : dialled.Dialled localName where
  handshake _ _ := rfl
  unopened e chan role := by
    cases e <;> simp [dialled, Connections.setConnPending, Connections.newPending,
      Connections.fetchCookie, Connections.connections_set_self]

/-- The handshakes complete on both sockets, and both nodes register the one of bob last. -/
def ordered : List CrossingEvent :=
  [.complete .alice ⟨.alice⟩, .complete .bob ⟨.bob⟩, .complete .alice ⟨.bob⟩,
    .complete .bob ⟨.alice⟩, .register .alice ⟨.alice⟩, .register .bob ⟨.alice⟩,
    .register .alice ⟨.bob⟩, .register .bob ⟨.bob⟩]

/-- Each node registers the session that it has dialled as soon as its handshake is over. -/
def eager : List CrossingEvent :=
  [.complete .alice ⟨.alice⟩, .register .alice ⟨.alice⟩, .complete .bob ⟨.bob⟩,
    .register .bob ⟨.bob⟩, .complete .alice ⟨.bob⟩, .complete .bob ⟨.alice⟩,
    .register .alice ⟨.bob⟩, .register .bob ⟨.alice⟩, .disconnect .alice ⟨.alice⟩,
    .disconnect .bob ⟨.bob⟩]

private theorem ordered_completed : ∃ s, Crosses localName dialled ordered s ∧ s.Completed := by
  have h : (run localName ordered dialled).any fun s =>
      s.progress .alice ⟨.alice⟩ = .running 0 ∧ s.progress .bob ⟨.alice⟩ = .running 0 ∧
        (s.progress .alice ⟨.bob⟩).hasQuit ∧ (s.progress .bob ⟨.bob⟩).hasQuit := by
    decide +kernel
  obtain ⟨s, hrun, htest⟩ := (Option.any_eq_true _ _).mp h
  obtain ⟨halice, hbob, hquit, hquit'⟩ := of_decide_eq_true htest
  refine ⟨s, (Crosses.start dialled_dialled).run hrun, ?_⟩
  rintro (_ | _) ⟨_ | _⟩
  · exact .inl ⟨0, halice⟩
  · exact .inr hquit
  · exact .inl ⟨0, hbob⟩
  · exact .inr hquit'

theorem agrees_ordered : ∃ s, Crosses localName dialled ordered s ∧ s.Agrees := by
  obtain ⟨s, hcrosses, hcompleted⟩ := ordered_completed
  refine ⟨s, hcrosses, (agrees_iff hcrosses hcompleted).mpr ⟨by decide, ⟨.alice⟩, ?_⟩⟩
  intro e
  cases e <;> rfl

/-- Both nodes refuse the session that the other one keeps, and none is left. -/
theorem crossing_lost : ∃ s, Crosses localName dialled eager s ∧ s.Completed ∧
    (∀ e k, ¬ s.IsRunning e k) ∧ ¬ s.Agrees := by
  have h : (run localName eager dialled).any fun s =>
      ((s.progress .alice ⟨.alice⟩).hasQuit ∧ (s.progress .bob ⟨.alice⟩).hasQuit) ∧
        (s.progress .alice ⟨.bob⟩).hasQuit ∧ (s.progress .bob ⟨.bob⟩).hasQuit := by
    decide +kernel
  obtain ⟨s, hrun, htest⟩ := (Option.any_eq_true _ _).mp h
  obtain ⟨⟨halice, hbob⟩, halice', hbob'⟩ := of_decide_eq_true htest
  have hquit : ∀ e k, (s.progress e k).hasQuit := by
    rintro (_ | _) ⟨_ | _⟩
    · exact halice
    · exact halice'
    · exact hbob
    · exact hbob'
  have hnone : ∀ e k, ¬ s.IsRunning e k := by
    rintro e k ⟨chan, hrunning⟩
    have hclosed := hquit e k
    rw [hrunning] at hclosed
    cases hclosed
  refine ⟨s, (Crosses.start dialled_dialled).run hrun, fun e k => .inr (hquit e k), hnone, ?_⟩
  rintro ⟨k, hagrees⟩
  exact hnone .alice k ((hagrees .alice k).mpr rfl)

end Crossing
end JudicaVM
