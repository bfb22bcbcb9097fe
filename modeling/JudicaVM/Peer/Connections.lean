import JudicaVM.Peer.Session
import Mathlib.Logic.Function.Basic

/-!
# The connection table

A node keeps one entry for every peer: no session, an attempt of its own to connect, or the sending
halves of the queues of a session. The session holds the receiving halves, and dropping them at its
end is visible only through the sending halves.
-/

namespace JudicaVM

open Checked

structure ServiceUrl where
  host : String
  port : ℕ
  deriving DecidableEq, Repr

inductive Role
  | server
  | client
  deriving DecidableEq, Repr

/-- The channels of a session are known by their number. -/
inductive PeerState
  | opened (chan : ℕ) (role : Role)
  | closed
  | pending (cookie : ℕ)
  deriving DecidableEq, Repr

/-- The table of one node with the counter `PENDING_COOKIE`, the number of channels made so far and
the receivers that sessions hold. -/
structure Connections where
  connections : ServiceUrl → Option PeerState := fun _ => none
  pendingCookie : ℕ := 0
  made : ℕ := 0
  live : List (ServiceUrl × ℕ) := []

namespace Connections

variable (t : Connections)

def isClosed (chan : ℕ) : Bool := chan ∉ t.live.map Prod.snd

def set (svc : ServiceUrl) (p : PeerState) : Connections :=
  { t with connections := Function.update t.connections svc (some p) }

/-- `fetch_add` wraps around. -/
def fetchCookie : ℕ × Connections :=
  (t.pendingCookie, { t with pendingCookie := (t.pendingCookie + 1) % 2 ^ 64 })

def setConnClosedFromPending (svc : ServiceUrl) (currentCookie : ℕ) : Except Panic Connections :=
  match t.connections svc with
  | none => .error (.message "If we have a cookie the service is present")
  | some (.pending cookie) =>
    if cookie = currentCookie then .ok (t.set svc .closed) else .ok t
  | some _ => .ok t

/-- The entry becomes an attempt with a new cookie. -/
def newPending (svc : ServiceUrl) : Option ℕ × Connections :=
  (some t.fetchCookie.1, t.fetchCookie.2.set svc (.pending t.fetchCookie.1))

def setConnPending (svc : ServiceUrl) (force : Bool) : Option ℕ × Connections :=
  match t.connections svc with
  | none => t.newPending svc
  | some .closed => t.newPending svc
  | some (.opened chan _) => if t.isClosed chan then t.newPending svc else (none, t)
  | some (.pending _) => if force then t.newPending svc else (none, t)

/-- The entry becomes that of a new session, which holds the receiver. -/
def newOpen (svc : ServiceUrl) (role : Role) : Option ℕ × Connections :=
  (some t.made,
    { t.set svc (.opened t.made role) with made := t.made + 1, live := (svc, t.made) :: t.live })

/-- Registers a session after its handshake. The preferred role is not looked at. -/
def setConnOpenProb (svc : ServiceUrl) (_preferRole role : Role) : Option ℕ × Connections :=
  match t.connections svc with
  | none => t.newOpen svc role
  | some (.opened _ _) => (none, t)
  | some .closed => t.newOpen svc role
  | some (.pending _) => t.newOpen svc role

/-- A session ends and drops its receiver. -/
def dropReceiver (svc : ServiceUrl) (chan : ℕ) : Connections :=
  { t with live := t.live.erase (svc, chan) }

end Connections

/-- The calls that change the table, each of which holds its lock, and the ends of sessions. -/
inductive ConnectionEvent
  | setConnPending (svc : ServiceUrl) (force : Bool)
  | setConnClosedFromPending (svc : ServiceUrl) (currentCookie : ℕ)
  | setConnOpenProb (svc : ServiceUrl) (preferRole role : Role)
  | sessionEnd (svc : ServiceUrl) (chan : ℕ)
  deriving DecidableEq

namespace Connections

/-- A call that panics leaves the table as it is. -/
def step (t : Connections) : ConnectionEvent → Option Connections
  | .setConnPending svc force => some (t.setConnPending svc force).2
  | .setConnClosedFromPending svc currentCookie =>
    match t.setConnClosedFromPending svc currentCookie with
    | .ok t' => some t'
    | .error _ => some t
  | .setConnOpenProb svc preferRole role => some (t.setConnOpenProb svc preferRole role).2
  | .sessionEnd svc chan => if (svc, chan) ∈ t.live then some (t.dropReceiver svc chan) else none

def run : List ConnectionEvent → Connections → Option Connections
  | [], t => some t
  | ev :: events, t => t.step ev >>= run events

/-- Whether a session with the peer has ended since it was last set pending. -/
def endedSince (svc : ServiceUrl) (ended : Bool) : ConnectionEvent → Bool
  | .setConnPending svc' _ => if svc' = svc then false else ended
  | .sessionEnd svc' _ => if svc' = svc then true else ended
  | _ => ended

def Ended (svc : ServiceUrl) (events : List ConnectionEvent) : Prop :=
  events.foldl (endedSince svc) false = true

instance (svc : ServiceUrl) (events : List ConnectionEvent) : Decidable (Ended svc events) :=
  inferInstanceAs (Decidable (_ = _))

/-- At most one session with a peer holds a receiver. -/
def Exclusive (t : Connections) (svc : ServiceUrl) : Prop :=
  ∀ chan chan', (svc, chan) ∈ t.live → (svc, chan') ∈ t.live → chan = chan'

/-- Where no session with a peer holds a receiver, the next handshake gets one. -/
def Admits (t : Connections) (svc : ServiceUrl) : Prop :=
  (∀ chan, (svc, chan) ∉ t.live) → ∀ preferRole role, ∃ chan,
    (t.setConnOpenProb svc preferRole role).1 = some chan

/-- The entry of a peer is that of a session that has ended. -/
def Stale (t : Connections) (svc : ServiceUrl) : Prop :=
  ∃ chan role, t.connections svc = some (.opened chan role) ∧ (svc, chan) ∉ t.live

/-- Every receiver that is held belongs to the session of the entry, and entries of different peers
are those of different sessions. -/
structure Consistent (t : Connections) : Prop where
  opened : ∀ svc chan, (svc, chan) ∈ t.live → ∃ role, t.connections svc = some (.opened chan role)
  chan_lt : ∀ svc chan role, t.connections svc = some (.opened chan role) → chan < t.made
  owner : ∀ svc svc' chan role role', t.connections svc = some (.opened chan role) →
    t.connections svc' = some (.opened chan role') → svc = svc'
  nodup : t.live.Nodup

variable {t t' : Connections} {svc : ServiceUrl} {events : List ConnectionEvent}

theorem connections_set_self (p : PeerState) : (t.set svc p).connections svc = some p := by
  simp [set]

private theorem connections_set_of_ne {svc' : ServiceUrl} (h : svc' ≠ svc) (p : PeerState) :
    (t.set svc p).connections svc' = t.connections svc' := by
  simp [set, h]

namespace Consistent

private theorem initial (cookie : ℕ) : Consistent { pendingCookie := cookie } where
  opened := by simp
  chan_lt := by simp
  owner := by simp
  nodup := List.nodup_nil

private theorem of_eq (h : t.Consistent) (hconnections : t'.connections = t.connections)
    (hmade : t'.made = t.made) (hlive : t'.live = t.live) : t'.Consistent where
  opened := by
    rw [hlive, hconnections]
    exact h.opened
  chan_lt := by
    rw [hmade, hconnections]
    exact h.chan_lt
  owner := by
    rw [hconnections]
    exact h.owner
  nodup := hlive ▸ h.nodup

private theorem isClosed_iff (h : t.Consistent) {chan : ℕ} {role : Role}
    (hentry : t.connections svc = some (.opened chan role)) :
    t.isClosed chan ↔ (svc, chan) ∉ t.live := by
  simp only [isClosed, decide_eq_true_iff, not_iff_not]
  constructor
  · intro hmem
    obtain ⟨⟨svc', chan'⟩, hlive, rfl⟩ := List.mem_map.mp hmem
    obtain ⟨role', hentry'⟩ := h.opened svc' _ hlive
    rw [h.owner svc svc' _ role role' hentry hentry']
    exact hlive
  · intro hmem
    exact List.mem_map_of_mem hmem

private theorem idle_of_stale (h : t.Consistent) (hstale : t.Stale svc) (chan : ℕ) :
    (svc, chan) ∉ t.live := by
  intro hmem
  obtain ⟨chan', role', hentry', hclosed⟩ := hstale
  obtain ⟨role, hentry⟩ := h.opened svc chan hmem
  rw [hentry] at hentry'
  cases hentry'
  exact hclosed hmem

private theorem exclusive (h : t.Consistent) (svc : ServiceUrl) : t.Exclusive svc := by
  intro chan chan' hmem hmem'
  obtain ⟨role, hentry⟩ := h.opened svc chan hmem
  obtain ⟨role', hentry'⟩ := h.opened svc chan' hmem'
  rw [hentry] at hentry'
  cases hentry'
  rfl

private theorem opened_of_set {p : PeerState} {svc' : ServiceUrl} {chan : ℕ} {role : Role}
    (hp : ∀ chan role, p ≠ .opened chan role)
    (hentry : (t.set svc p).connections svc' = some (.opened chan role)) :
    t.connections svc' = some (.opened chan role) := by
  by_cases hsvc : svc' = svc
  · subst hsvc
    rw [connections_set_self] at hentry
    exact absurd (Option.some.inj hentry) (hp chan role)
  · rwa [connections_set_of_ne hsvc] at hentry

private theorem set (h : t.Consistent) {p : PeerState} (hidle : ∀ chan, (svc, chan) ∉ t.live)
    (hp : ∀ chan role, p ≠ .opened chan role) : (t.set svc p).Consistent where
  opened := by
    intro svc' chan hmem
    have hne : svc' ≠ svc := by
      rintro rfl
      exact hidle chan hmem
    obtain ⟨role, hentry⟩ := h.opened svc' chan hmem
    exact ⟨role, (connections_set_of_ne hne p).trans hentry⟩
  chan_lt := by
    intro svc' chan role hentry
    exact h.chan_lt svc' chan role (opened_of_set hp hentry)
  owner := by
    intro svc₁ svc₂ chan role role' h₁ h₂
    exact h.owner svc₁ svc₂ chan role role' (opened_of_set hp h₁) (opened_of_set hp h₂)
  nodup := h.nodup

private theorem opened_of_newOpen {svc' : ServiceUrl} {chan : ℕ} {role role' : Role}
    (hentry : (t.newOpen svc role).2.connections svc' = some (.opened chan role')) :
    svc' = svc ∧ chan = t.made ∨ t.connections svc' = some (.opened chan role') := by
  by_cases hsvc : svc' = svc
  · subst hsvc
    simp only [Connections.newOpen, Connections.set, Function.update_self, Option.some.injEq,
      PeerState.opened.injEq] at hentry
    exact .inl ⟨rfl, hentry.1.symm⟩
  · exact .inr (by simpa [Connections.newOpen, Connections.set, hsvc] using hentry)

private theorem newOpen (h : t.Consistent) (hidle : ∀ chan, (svc, chan) ∉ t.live) (role : Role) :
    (t.newOpen svc role).2.Consistent where
  opened := by
    intro svc' chan hmem
    rcases List.mem_cons.mp hmem with heq | hlive
    · cases heq
      exact ⟨role, by simp [Connections.newOpen, Connections.set]⟩
    · have hne : svc' ≠ svc := by
        rintro rfl
        exact hidle chan hlive
      obtain ⟨role', hentry⟩ := h.opened svc' chan hlive
      exact ⟨role', by simp [Connections.newOpen, Connections.set, hne, hentry]⟩
  chan_lt := by
    intro svc' chan role' hentry
    show chan < t.made + 1
    rcases opened_of_newOpen hentry with ⟨-, rfl⟩ | hentry
    · exact Nat.lt_succ_self _
    · exact Nat.lt_succ_of_lt (h.chan_lt svc' chan role' hentry)
  owner := by
    intro svc₁ svc₂ chan role₁ role₂ h₁ h₂
    rcases opened_of_newOpen h₁ with ⟨rfl, rfl⟩ | h₁ <;> rcases opened_of_newOpen h₂ with h₂ | h₂
    · exact h₂.1.symm
    · exact absurd (h.chan_lt _ _ _ h₂) (Nat.lt_irrefl _)
    · exact absurd (h.chan_lt _ _ _ (h₂.2 ▸ h₁)) (Nat.lt_irrefl _)
    · exact h.owner _ _ _ _ _ h₁ h₂
  nodup := List.nodup_cons.mpr ⟨hidle _, h.nodup⟩

private theorem dropReceiver (h : t.Consistent) (svc : ServiceUrl) (chan : ℕ) :
    (t.dropReceiver svc chan).Consistent where
  opened := fun svc' chan' hmem => h.opened svc' chan' (List.mem_of_mem_erase hmem)
  chan_lt := h.chan_lt
  owner := h.owner
  nodup := h.nodup.erase _

end Consistent

/-- What the calls and the ends of sessions do to the table. -/
inductive Effect (t : Connections) : ConnectionEvent → Connections → Prop
  | keepPending (svc : ServiceUrl) (force : Bool) (hfresh : ¬ t.Stale svc) :
      Effect t (.setConnPending svc force) t
  | newPending (svc : ServiceUrl) (force : Bool) (hidle : ∀ chan, (svc, chan) ∉ t.live) :
      Effect t (.setConnPending svc force) (t.newPending svc).2
  | keepClosed (svc : ServiceUrl) (currentCookie : ℕ) :
      Effect t (.setConnClosedFromPending svc currentCookie) t
  | close (svc : ServiceUrl) (currentCookie : ℕ)
      (hpending : t.connections svc = some (.pending currentCookie)) :
      Effect t (.setConnClosedFromPending svc currentCookie) (t.set svc .closed)
  | refuse (svc : ServiceUrl) (preferRole role : Role) :
      Effect t (.setConnOpenProb svc preferRole role) t
  | newOpen (svc : ServiceUrl) (preferRole role : Role)
      (hnew : ∀ chan role, t.connections svc ≠ some (.opened chan role)) :
      Effect t (.setConnOpenProb svc preferRole role) (t.newOpen svc role).2
  | sessionEnd (svc : ServiceUrl) (chan : ℕ) (hlive : (svc, chan) ∈ t.live) :
      Effect t (.sessionEnd svc chan) (t.dropReceiver svc chan)

private theorem Consistent.idle_of_not_opened (h : t.Consistent)
    (hnew : ∀ chan role, t.connections svc ≠ some (.opened chan role)) (chan : ℕ) :
    (svc, chan) ∉ t.live := by
  intro hmem
  obtain ⟨role, hentry⟩ := h.opened svc chan hmem
  exact hnew chan role hentry

private theorem step_effect {ev : ConnectionEvent} (h : t.Consistent)
    (hstep : t.step ev = some t') : Effect t ev t' := by
  cases ev with
  | setConnPending svc force =>
    obtain rfl := Option.some.inj hstep
    cases hentry : t.connections svc with
    | none =>
      simp only [setConnPending, hentry]
      exact .newPending svc force (h.idle_of_not_opened (by simp [hentry]))
    | some p =>
      cases p with
      | closed =>
        simp only [setConnPending, hentry]
        exact .newPending svc force (h.idle_of_not_opened (by simp [hentry]))
      | opened chan role =>
        simp only [setConnPending, hentry]
        split
        · rename_i hclosed
          refine .newPending svc force (h.idle_of_stale ⟨chan, role, hentry, ?_⟩)
          exact (h.isClosed_iff hentry).mp hclosed
        · rename_i hopen
          refine .keepPending svc force ?_
          rintro ⟨chan', role', hentry', hclosed⟩
          rw [hentry] at hentry'
          cases hentry'
          exact hopen ((h.isClosed_iff hentry).mpr hclosed)
      | pending cookie =>
        simp only [setConnPending, hentry]
        split
        · exact .newPending svc force (h.idle_of_not_opened (by simp [hentry]))
        · refine .keepPending svc force ?_
          rintro ⟨chan, role, hentry', -⟩
          rw [hentry] at hentry'
          cases hentry'
  | setConnClosedFromPending svc currentCookie =>
    simp only [step, setConnClosedFromPending] at hstep
    split at hstep <;> rename_i hcall
    · split at hcall
      · cases hcall
      · rename_i hentry
        split at hcall
        · rename_i heq
          cases hcall
          cases hstep
          exact .close svc currentCookie (heq ▸ hentry)
        · cases hcall
          cases hstep
          exact .keepClosed svc currentCookie
      · cases hcall
        cases hstep
        exact .keepClosed svc currentCookie
    · cases hstep
      exact .keepClosed svc currentCookie
  | setConnOpenProb svc preferRole role =>
    obtain rfl := Option.some.inj hstep
    cases hentry : t.connections svc with
    | none =>
      simp only [setConnOpenProb, hentry]
      exact .newOpen svc preferRole role (by simp [hentry])
    | some p =>
      cases p with
      | closed =>
        simp only [setConnOpenProb, hentry]
        exact .newOpen svc preferRole role (by simp [hentry])
      | opened chan role' =>
        simp only [setConnOpenProb, hentry]
        exact .refuse svc preferRole role
      | pending cookie =>
        simp only [setConnOpenProb, hentry]
        exact .newOpen svc preferRole role (by simp [hentry])
  | sessionEnd svc chan =>
    obtain ⟨hlive, hstep⟩ := Option.ite_none_right_eq_some.mp hstep
    cases hstep
    exact .sessionEnd svc chan hlive

private theorem Consistent.effect {ev : ConnectionEvent} (h : t.Consistent)
    (heff : Effect t ev t') : t'.Consistent := by
  cases heff with
  | keepPending | keepClosed | refuse => exact h
  | newPending svc force hidle =>
    have hset : (t.set svc (.pending t.pendingCookie)).Consistent := h.set hidle (by simp)
    exact hset.of_eq rfl rfl rfl
  | close svc currentCookie hpending =>
    exact h.set (h.idle_of_not_opened (by simp [hpending])) (by simp)
  | newOpen svc preferRole role hnew => exact h.newOpen (h.idle_of_not_opened hnew) role
  | sessionEnd svc chan hlive => exact h.dropReceiver svc chan

private theorem stale_congr (hconnections : t'.connections svc = t.connections svc)
    (hlive : ∀ chan, (svc, chan) ∈ t'.live ↔ (svc, chan) ∈ t.live) :
    t'.Stale svc ↔ t.Stale svc := by
  simp only [Stale, hconnections, hlive]

private theorem not_stale {p : PeerState} (hentry : t.connections svc = some p)
    (hp : ∀ chan role, p ≠ .opened chan role) : ¬ t.Stale svc := by
  rintro ⟨chan, role, hentry', -⟩
  rw [hentry] at hentry'
  exact hp chan role (Option.some.inj hentry')

private theorem Consistent.stale_iff {ev : ConnectionEvent} {ended : Bool} (h : t.Consistent)
    (heff : Effect t ev t') (hended : ended = true ↔ t.Stale svc) :
    endedSince svc ended ev = true ↔ t'.Stale svc := by
  cases heff with
  | keepPending svc' force hfresh =>
    by_cases hsvc : svc' = svc
    · subst hsvc
      simpa [endedSince] using hfresh
    · simpa [endedSince, hsvc] using hended
  | newPending svc' force hidle =>
    by_cases hsvc : svc' = svc
    · subst hsvc
      have hentry : (t.newPending svc').2.connections svc' = some (.pending t.pendingCookie) :=
        connections_set_self _
      simpa [endedSince] using not_stale hentry (by simp)
    · have hentry : (t.newPending svc').2.connections svc = t.connections svc :=
        connections_set_of_ne (Ne.symm hsvc) _
      rw [stale_congr hentry fun _ => Iff.rfl, ← hended]
      simp [endedSince, hsvc]
  | keepClosed svc' currentCookie => exact hended
  | close svc' currentCookie hpending =>
    by_cases hsvc : svc' = svc
    · subst hsvc
      have hentry : (t.set svc' .closed).connections svc' = some .closed := connections_set_self _
      have hold := not_stale hpending (by simp)
      have hnew := not_stale hentry (by simp)
      simpa [endedSince, hnew, hold] using hended
    · have hentry : (t.set svc' .closed).connections svc = t.connections svc :=
        connections_set_of_ne (Ne.symm hsvc) _
      rw [stale_congr hentry fun _ => Iff.rfl]
      exact hended
  | refuse svc' preferRole role => exact hended
  | newOpen svc' preferRole role hnew =>
    by_cases hsvc : svc' = svc
    · subst hsvc
      have hold : ¬ t.Stale svc' := by
        rintro ⟨chan, role', hentry, -⟩
        exact hnew chan role' hentry
      have hfresh : ¬ (t.newOpen svc' role).2.Stale svc' := by
        rintro ⟨chan, role', hentry, hclosed⟩
        rcases Consistent.opened_of_newOpen hentry with ⟨-, rfl⟩ | hentry
        · exact hclosed List.mem_cons_self
        · exact hnew chan role' hentry
      simpa [endedSince, hfresh, hold] using hended
    · have hentry : (t.newOpen svc' role).2.connections svc = t.connections svc :=
        connections_set_of_ne (Ne.symm hsvc) _
      have hlive : ∀ chan, (svc, chan) ∈ (t.newOpen svc' role).2.live ↔ (svc, chan) ∈ t.live := by
        simp [Connections.newOpen, Connections.set, Ne.symm hsvc]
      rw [stale_congr hentry hlive]
      exact hended
  | sessionEnd svc' chan hlive =>
    by_cases hsvc : svc' = svc
    · subst hsvc
      obtain ⟨role, hentry⟩ := h.opened svc' chan hlive
      have hstale : (t.dropReceiver svc' chan).Stale svc' :=
        ⟨chan, role, hentry, h.nodup.not_mem_erase⟩
      simpa [endedSince] using hstale
    · have hmem : ∀ chan', (svc, chan') ∈ (t.dropReceiver svc' chan).live ↔
          (svc, chan') ∈ t.live := by
        intro chan'
        exact List.mem_erase_of_ne (by simp [Ne.symm hsvc])
      have hentry : (t.dropReceiver svc' chan).connections svc = t.connections svc := rfl
      rw [stale_congr hentry hmem, ← hended]
      simp [endedSince, hsvc]

private theorem run_invariant {t₀ : Connections} (h : t₀.Consistent) {ended : Bool}
    (hended : ended = true ↔ t₀.Stale svc) (hrun : run events t₀ = some t) :
    t.Consistent ∧ (events.foldl (endedSince svc) ended = true ↔ t.Stale svc) := by
  induction events generalizing t₀ ended with
  | nil =>
    cases hrun
    exact ⟨h, hended⟩
  | cons ev events ih =>
    obtain ⟨t₁, hstep, hrest⟩ := Option.bind_eq_some_iff.mp hrun
    have heff := step_effect h hstep
    exact ih (h.effect heff) (h.stale_iff heff hended) hrest

private theorem Consistent.admits_iff (h : t.Consistent) : t.Admits svc ↔ ¬ t.Stale svc := by
  constructor
  · intro hadmits hstale
    obtain ⟨chan, hsome⟩ := hadmits (h.idle_of_stale hstale) .client .server
    obtain ⟨chan', role, hentry, -⟩ := hstale
    simp [setConnOpenProb, hentry] at hsome
  · intro hfresh hidle preferRole role
    cases hentry : t.connections svc with
    | none => exact ⟨t.made, by simp [setConnOpenProb, hentry, Connections.newOpen]⟩
    | some p =>
      cases p with
      | opened chan role' => exact absurd ⟨chan, role', hentry, hidle chan⟩ hfresh
      | closed => exact ⟨t.made, by simp [setConnOpenProb, hentry, Connections.newOpen]⟩
      | pending cookie => exact ⟨t.made, by simp [setConnOpenProb, hentry, Connections.newOpen]⟩

/-- One session at a time holds a receiver, and the next handshake gets one as long as no session
with the peer has ended since it was last set pending. -/
theorem admitted_iff {cookie : ℕ} (h : run events { pendingCookie := cookie } = some t)
    (svc : ServiceUrl) : t.Exclusive svc ∧ t.Admits svc ↔ ¬ Ended svc events := by
  have hstale : ¬ ({ pendingCookie := cookie } : Connections).Stale svc := by simp [Stale]
  have hfirst : false = true ↔ ({ pendingCookie := cookie } : Connections).Stale svc := by
    simpa using hstale
  obtain ⟨hconsistent, hended⟩ := run_invariant (Consistent.initial cookie) hfirst h
  rw [Ended, hended, ← hconsistent.admits_iff]
  exact and_iff_right (hconsistent.exclusive svc)

def bob : ServiceUrl := ⟨"127.0.0.1", 14322⟩

/-- A session that the node has opened to a peer ends, and the node opens another one. -/
def redial : List ConnectionEvent :=
  [.setConnPending bob true, .setConnOpenProb bob .client .client, .sessionEnd bob 0,
    .setConnPending bob true]

theorem admitted_redial : ∃ t, run redial { pendingCookie := 0 } = some t ∧
    (t.Exclusive bob ∧ t.Admits bob ↔ ¬ Ended bob redial) ∧ ¬ Ended bob redial := by
  have hrun : ∃ t, run redial { pendingCookie := 0 } = some t := ⟨_, rfl⟩
  obtain ⟨t, hrun⟩ := hrun
  exact ⟨t, hrun, admitted_iff hrun bob, by decide⟩

/-- A session that the peer has opened ends, and the peer, which connects again, is refused. -/
theorem reconnect_refused :
    ∃ t, run [.setConnOpenProb bob .client .server, .sessionEnd bob 0] {} = some t ∧
      (∀ chan, (bob, chan) ∉ t.live) ∧ (t.setConnOpenProb bob .client .server).1 = none ∧
      ¬ t.Admits bob := by
  refine ⟨_, rfl, ?_, rfl, ?_⟩
  · intro chan hmem
    cases hmem
  · intro hadmits
    obtain ⟨chan, hsome⟩ := hadmits (fun chan hmem => by cases hmem) .client .server
    cases hsome

end Connections
end JudicaVM
