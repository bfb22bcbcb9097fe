import JudicaVM.Lib.Transition
import JudicaVM.Peer.Connections
import Mathlib.Data.List.Nodup
import Mathlib.Data.List.Perm.Basic
import Mathlib.Data.List.Basic

/-!
# The services of the peers

The table `hidden_services` says from which peers a node fetches and to which it pushes. One task
scans it, starts a task for each of these purposes, and aborts the tasks that are not wanted any
longer. Others change the table meanwhile, and tasks end on their own. Only the tasks of the loop are
counted here, not the subtasks that these spawn and that an abort does not reach.
-/

namespace JudicaVM

open Transition

structure PeerInfo where
  serviceUrl : String
  port : ℕ
  fetchFrom : Bool
  pushTo : Bool
  allowUnsolicitedTips : Bool
  deriving DecidableEq

def PeerInfo.service (p : PeerInfo) : ServiceUrl := ⟨p.serviceUrl, p.port⟩

/-- What is not given stays. -/
def PeerInfo.update (p : PeerInfo) (fetchFrom pushTo allowUnsolicitedTips : Option Bool) :
    PeerInfo :=
  { p with
    fetchFrom := fetchFrom.getD p.fetchFrom
    pushTo := pushTo.getD p.pushTo
    allowUnsolicitedTips := allowUnsolicitedTips.getD p.allowUnsolicitedTips }

/-- `UNIQUE(service_url, port)` -/
structure HiddenServices where
  rows : List PeerInfo
  unique : (rows.map PeerInfo.service).Nodup

namespace HiddenServices

def empty : HiddenServices := ⟨[], List.nodup_nil⟩

variable (t : HiddenServices)

def has (service : ServiceUrl) : Bool := service ∈ t.rows.map PeerInfo.service

def push (p : PeerInfo) (h : t.has p.service = false) : HiddenServices where
  rows := t.rows ++ [p]
  unique := by
    rw [List.map_append, List.map_singleton]
    apply t.unique.append (List.nodup_singleton _)
    intro service hold hnew
    rw [List.mem_singleton] at hnew
    subst hnew
    exact of_decide_eq_false h hold

/-- The insertion fails on a service that the table has. -/
def insertHiddenService (p : PeerInfo) : Option HiddenServices :=
  if h : t.has p.service = false then some (t.push p h) else none

/-- `update/hidden_service.sql`: what is not given is false in a new row. -/
def upsertHiddenService (service : ServiceUrl) (fetchFrom pushTo allowUnsolicitedTips : Option Bool) :
    HiddenServices :=
  if h : t.has service = false then
    t.push (PeerInfo.update ⟨service.host, service.port, false, false, false⟩ fetchFrom pushTo
      allowUnsolicitedTips) h
  else
    { rows := t.rows.map fun p =>
        if p.service = service then p.update fetchFrom pushTo allowUnsolicitedTips else p
      unique := by
        have hsame : (fun p => PeerInfo.service
            (if p.service = service then p.update fetchFrom pushTo allowUnsolicitedTips else p)) =
            PeerInfo.service := by
          funext p
          split <;> rfl
        rw [List.map_map]
        exact (congrArg (fun f => (t.rows.map f).Nodup) hsame).mpr t.unique }

end HiddenServices

inductive PeerType
  | push
  | fetch
  deriving DecidableEq

abbrev TaskID := ServiceUrl × PeerType × Bool

/-- What a task does, for which peer. -/
def TaskID.purpose (id : TaskID) : ServiceUrl × PeerType := (id.1, id.2.1)

def PeerInfo.tasks (p : PeerInfo) : List TaskID :=
  (if p.fetchFrom then [(p.service, .fetch, p.allowUnsolicitedTips)] else []) ++
    (if p.pushTo then [(p.service, .push, p.allowUnsolicitedTips)] else [])

/-- The set `create_services`. -/
def HiddenServices.createServices (t : HiddenServices) : List TaskID :=
  t.rows.flatMap PeerInfo.tasks

inductive ServicesPhase
  | waiting
  | reading
  | scanning (snapshot : HiddenServices)
  | ended

/-- The table, the loop of `startup` with its tasks by number, the tasks that run and how many were
spawned. -/
structure PeerServices where
  hiddenServices : HiddenServices
  phase : ServicesPhase
  taskSet : List (TaskID × ℕ)
  running : List (TaskID × ℕ)
  spawned : ℕ
  shouldQuit : Bool

inductive ServicesEvent
  | insert (p : PeerInfo)
  | upsert (service : ServiceUrl) (fetchFrom pushTo allowUnsolicitedTips : Option Bool)
  | shutdown
  | finish (task : ℕ)
  /-- A query comes, or the channel of queries is closed. -/
  | query (closed : Bool)
  | tick
  | read (ok : Bool)
  /-- The order in which the set of new services is traversed. -/
  | scan (order : List TaskID)

namespace PeerServices

def initial (hiddenServices : HiddenServices) : PeerServices where
  hiddenServices
  phase := .waiting
  taskSet := []
  running := []
  spawned := 0
  shouldQuit := false

variable (s : PeerServices)

/-- The answer to `RunningTasks`. -/
def runningTasks : List TaskID := s.taskSet.map Prod.fst

def isFinished (task : ℕ) : Bool := task ∉ s.running.map Prod.snd

/-- The tasks that are not finished, and whose service is wanted or is not. -/
def retained (create : List TaskID) : List (TaskID × ℕ) :=
  s.taskSet.filter fun x => !s.isFinished x.2 && x.1 ∈ create

def aborted (create : List TaskID) : List (TaskID × ℕ) :=
  s.taskSet.filter fun x => !s.isFinished x.2 && x.1 ∉ create

/-- What is left in the set after the retained services were taken from it. -/
def missing (create : List TaskID) : List TaskID :=
  create.filter fun id => id ∉ (s.retained create).map Prod.fst

def scan (create order : List TaskID) : PeerServices :=
  let started := order.zipIdx s.spawned
  { s with
    taskSet := s.retained create ++ started
    running := (s.running.filter fun x => x.2 ∉ (s.aborted create).map Prod.snd) ++ started
    spawned := s.spawned + order.length }

/-- The top of the loop. -/
def loop : PeerServices := { s with phase := if s.shouldQuit then .ended else .waiting }

/-- The handles are dropped at the end of the loop, and the tasks go on. -/
def step : ServicesEvent → Option PeerServices
  | .insert p =>
    (s.hiddenServices.insertHiddenService p).map fun hiddenServices => { s with hiddenServices }
  | .upsert service fetchFrom pushTo allowUnsolicitedTips =>
    some { s with
      hiddenServices :=
        s.hiddenServices.upsertHiddenService service fetchFrom pushTo allowUnsolicitedTips }
  | .shutdown => some { s with shouldQuit := true }
  | .finish task => some { s with running := s.running.filter fun x => x.2 ≠ task }
  | .query closed =>
    match s.phase with
    | .waiting => some (if closed then s.loop else { s with phase := .reading })
    | _ => none
  | .tick =>
    match s.phase with
    | .waiting => some { s with phase := if s.shouldQuit then .ended else .reading }
    | _ => none
  | .read ok =>
    match s.phase with
    | .reading => some { s with phase := if ok then .scanning s.hiddenServices else .ended }
    | _ => none
  | .scan order =>
    match s.phase with
    | .scanning snapshot =>
      if order.Perm (s.missing snapshot.createServices) then
        some (s.scan snapshot.createServices order).loop
      else none
    | _ => none

def Reachable (t : HiddenServices) : PeerServices → Prop :=
  Run (fun s (ev : ServicesEvent) s' => s.step ev = some s') (fun _ => True) (initial t)

end PeerServices

private theorem PeerInfo.mem_tasks {p : PeerInfo} {id : TaskID} (h : id ∈ p.tasks) :
    id.1 = p.service ∧ id.2.2 = p.allowUnsolicitedTips := by
  unfold PeerInfo.tasks at h
  obtain h | h := List.mem_append.mp h
  · split at h
    · rw [List.mem_singleton] at h
      subst h
      exact ⟨rfl, rfl⟩
    · cases h
  · split at h
    · rw [List.mem_singleton] at h
      subst h
      exact ⟨rfl, rfl⟩
    · cases h

private theorem PeerInfo.tasks_nodup (p : PeerInfo) : (p.tasks.map TaskID.purpose).Nodup := by
  unfold PeerInfo.tasks
  split <;> split <;> simp [TaskID.purpose]

namespace HiddenServices

private theorem createServices_nodup (t : HiddenServices) :
    (t.createServices.map TaskID.purpose).Nodup := by
  obtain ⟨rows, hunique⟩ := t
  unfold createServices
  induction rows with
  | nil => exact List.nodup_nil
  | cons p rows ih =>
    rw [List.map_cons, List.nodup_cons] at hunique
    obtain ⟨hfirst, hrest⟩ := hunique
    rw [List.flatMap_cons, List.map_append]
    apply p.tasks_nodup.append (ih hrest)
    intro purpose hp hq
    obtain ⟨id, hid, rfl⟩ := List.mem_map.mp hp
    obtain ⟨id', hid', heq⟩ := List.mem_map.mp hq
    obtain ⟨q, hq, hid'⟩ := List.mem_flatMap.mp hid'
    have hservice : id'.1 = id.1 := congrArg (fun purpose : ServiceUrl × PeerType => purpose.1) heq
    rw [(PeerInfo.mem_tasks hid).1, (PeerInfo.mem_tasks hid').1] at hservice
    exact hfirst (hservice ▸ List.mem_map_of_mem hq)

end HiddenServices

namespace PeerServices

variable {s s' : PeerServices} {t snapshot : HiddenServices} {order : List TaskID} {x : TaskID × ℕ}

/-- The numbers of tasks are used once, a task that runs is known to the loop, and no two of them do
the same for one peer. -/
structure Sound (s : PeerServices) : Prop where
  spawned : ∀ x ∈ s.taskSet ++ s.running, x.2 < s.spawned
  agree : ∀ x ∈ s.taskSet, ∀ y ∈ s.running, x.2 = y.2 → x = y
  tracked : s.phase ≠ .ended → s.running ⊆ s.taskSet
  exclusive : (s.running.map fun x => x.1.purpose).Nodup

private theorem mem_retained {create : List TaskID} (hs : s.Sound) (hphase : s.phase ≠ .ended) :
    x ∈ s.retained create ↔ x ∈ s.running ∧ x.1 ∈ create := by
  simp only [retained, isFinished, List.mem_filter, Bool.and_eq_true, Bool.not_eq_true',
    decide_eq_false_iff_not, decide_eq_true_eq, not_not]
  constructor
  · intro h
    obtain ⟨y, hy, heq⟩ := List.mem_map.mp h.2.1
    rw [hs.agree x h.1 y hy heq.symm]
    exact ⟨hy, hs.agree x h.1 y hy heq.symm ▸ h.2.2⟩
  · exact fun h => ⟨hs.tracked hphase h.1, List.mem_map_of_mem h.1, h.2⟩

private theorem mem_unaborted {create : List TaskID} (hs : s.Sound) (hphase : s.phase ≠ .ended) :
    x ∈ s.running.filter (fun x => x.2 ∉ (s.aborted create).map Prod.snd) ↔
      x ∈ s.retained create := by
  rw [mem_retained hs hphase, List.mem_filter, decide_eq_true_eq]
  apply and_congr_right
  intro hx
  rw [← not_iff_comm]
  simp only [aborted, isFinished, List.mem_map, List.mem_filter, Bool.and_eq_true,
    Bool.not_eq_true', decide_eq_false_iff_not, decide_eq_true_eq, not_not]
  constructor
  · exact fun hid => ⟨x, ⟨hs.tracked hphase hx, ⟨x, hx, rfl⟩, hid⟩, rfl⟩
  · intro h
    obtain ⟨y, hy, heq⟩ := h
    rw [← hs.agree y hy.1 x hx heq]
    exact hy.2.2

variable {create : List TaskID}

private theorem mem_scan_running (hs : s.Sound) (hphase : s.phase ≠ .ended) :
    x ∈ (s.scan create order).running ↔ x ∈ (s.scan create order).taskSet := by
  simp only [scan, List.mem_append, mem_unaborted hs hphase]

private theorem scan_runs (hs : s.Sound) (hphase : s.phase ≠ .ended)
    (horder : order.Perm (s.missing create)) {id : TaskID} :
    id ∈ (s.scan create order).running.map Prod.fst ↔ id ∈ create := by
  simp only [scan, List.map_append, List.mem_append]
  rw [List.zipIdx_map_fst, horder.mem_iff, missing, List.mem_filter, decide_eq_true_eq]
  have hold : id ∈ (s.running.filter fun x => x.2 ∉ (s.aborted create).map Prod.snd).map Prod.fst ↔
      id ∈ (s.retained create).map Prod.fst :=
    (List.mem_map.trans (exists_congr fun x => and_congr_left fun _ =>
      mem_unaborted hs hphase)).trans List.mem_map.symm
  rw [hold]
  constructor
  · intro h
    obtain h | h := h
    · obtain ⟨x, hx, rfl⟩ := List.mem_map.mp h
      exact ((mem_retained hs hphase).mp hx).2
    · exact h.1
  · intro h
    by_cases hid : id ∈ (s.retained create).map Prod.fst
    · exact .inl hid
    · exact .inr ⟨h, hid⟩

private theorem Sound.scan (hs : s.Sound) (hphase : s.phase ≠ .ended)
    (hcreate : (create.map TaskID.purpose).Nodup) (horder : order.Perm (s.missing create)) :
    (s.scan create order).Sound := by
  have hretained : ∀ x ∈ s.retained create, x ∈ s.taskSet ∧ x ∈ s.running := by
    intro x hx
    exact ⟨(List.mem_filter.mp hx).1, ((mem_retained hs hphase).mp hx).1⟩
  have hold : ∀ x ∈ s.retained create, x.2 < s.spawned := fun x hx =>
    hs.spawned x (List.mem_append_left _ (hretained x hx).1)
  have hcases : ∀ x ∈ (s.scan create order).running,
      x ∈ s.retained create ∨ x ∈ order.zipIdx s.spawned := by
    intro x hx
    exact List.mem_append.mp ((mem_scan_running hs hphase).mp hx)
  refine ⟨?_, ?_, fun _ x hx => (mem_scan_running hs hphase).mp hx, ?_⟩
  · intro x hx
    have hx : x ∈ (s.scan create order).running := (List.mem_append.mp hx).elim
      (mem_scan_running hs hphase).mpr id
    show x.2 < s.spawned + order.length
    obtain hx | hx := hcases x hx
    · have hlt := hold x hx
      omega
    · exact List.snd_lt_add_of_mem_zipIdx hx
  · intro x hx y hy heq
    obtain hx | hx := hcases x ((mem_scan_running hs hphase).mpr hx)
    · obtain hy | hy := hcases y hy
      · exact hs.agree x (hretained x hx).1 y (hretained y hy).2 heq
      · have hlt := hold x hx
        have hge := List.le_snd_of_mem_zipIdx hy
        omega
    · obtain hy | hy := hcases y hy
      · have hlt := hold y hy
        have hge := List.le_snd_of_mem_zipIdx hx
        omega
      · obtain ⟨_, hx⟩ := List.mem_zipIdx_iff_le_and_getElem?_sub.mp hx
        obtain ⟨_, hy⟩ := List.mem_zipIdx_iff_le_and_getElem?_sub.mp hy
        rw [heq, hy] at hx
        exact Prod.ext (Option.some.inj hx).symm heq
  · show (((s.running.filter _) ++ order.zipIdx s.spawned).map fun x => x.1.purpose).Nodup
    rw [List.map_append]
    apply (hs.exclusive.sublist (List.filter_sublist.map _)).append
    · have hmap : ((order.zipIdx s.spawned).map fun x => x.1.purpose) = order.map TaskID.purpose := by
        rw [← List.zipIdx_map_fst s.spawned order, List.map_map]
        rw [List.zipIdx_map_fst]
        rfl
      rw [hmap, (horder.map _).nodup_iff]
      exact hcreate.sublist (List.filter_sublist.map _)
    · intro purpose hp hq
      obtain ⟨x, hx, rfl⟩ := List.mem_map.mp hp
      obtain ⟨y, hy, heq⟩ := List.mem_map.mp hq
      have hx := (mem_unaborted hs hphase).mp hx
      have hy := List.mem_filter.mp (horder.subset (List.fst_mem_of_mem_zipIdx hy))
      have hid : y.1 = x.1 :=
        List.inj_on_of_nodup_map hcreate hy.1 ((mem_retained hs hphase).mp hx).2 heq
      apply of_decide_eq_true hy.2
      rw [hid]
      exact List.mem_map_of_mem hx

private theorem Sound.of_eq (hs : s.Sound) (htaskSet : s'.taskSet = s.taskSet)
    (hrunning : s'.running = s.running) (hspawned : s'.spawned = s.spawned)
    (hphase : s'.phase ≠ .ended → s.phase ≠ .ended) : s'.Sound := by
  constructor
  · rw [htaskSet, hrunning, hspawned]
    exact hs.spawned
  · rw [htaskSet, hrunning]
    exact hs.agree
  · rw [htaskSet, hrunning]
    exact fun h => hs.tracked (hphase h)
  · rw [hrunning]
    exact hs.exclusive

private theorem Sound.finish (hs : s.Sound) (task : ℕ) :
    Sound { s with running := s.running.filter fun x => x.2 ≠ task } := by
  have hsub : s.running.filter (fun x => x.2 ≠ task) ⊆ s.running :=
    List.filter_sublist.subset
  refine ⟨?_, fun x hx y hy => hs.agree x hx y (hsub hy), fun h x hx => hs.tracked h (hsub hx), ?_⟩
  · intro x hx
    obtain hx | hx := List.mem_append.mp hx
    · exact hs.spawned x (List.mem_append_left _ hx)
    · exact hs.spawned x (List.mem_append_right _ (hsub hx))
  · exact hs.exclusive.sublist (List.filter_sublist.map _)

private theorem Sound.loop (hs : s.Sound) (hphase : s.phase ≠ .ended) : s.loop.Sound :=
  hs.of_eq rfl rfl rfl fun _ => hphase

private theorem Sound.step (hs : s.Sound) {ev : ServicesEvent} (h : s.step ev = some s') :
    s'.Sound := by
  cases ev with
  | insert p =>
    obtain ⟨t, _, rfl⟩ := Option.map_eq_some_iff.mp h
    exact hs.of_eq rfl rfl rfl id
  | upsert service fetchFrom pushTo allowUnsolicitedTips =>
    cases h
    exact hs.of_eq rfl rfl rfl id
  | shutdown =>
    cases h
    exact hs.of_eq rfl rfl rfl id
  | finish task =>
    cases h
    exact hs.finish task
  | query closed =>
    simp only [PeerServices.step] at h
    split at h
    next hphase =>
      have hgoes : s.phase ≠ .ended := by simp [hphase]
      cases h
      cases closed
      · exact hs.of_eq rfl rfl rfl fun _ => hgoes
      · exact hs.loop hgoes
    · cases h
  | tick =>
    simp only [PeerServices.step] at h
    split at h
    next hphase =>
      cases h
      exact hs.of_eq rfl rfl rfl fun _ => by simp [hphase]
    · cases h
  | read ok =>
    simp only [PeerServices.step] at h
    split at h
    next hphase =>
      cases h
      exact hs.of_eq rfl rfl rfl fun _ => by simp [hphase]
    · cases h
  | scan order =>
    simp only [PeerServices.step] at h
    split at h
    next snapshot hphase =>
      split at h
      next horder =>
        have hgoes : s.phase ≠ .ended := by simp [hphase]
        cases h
        exact (hs.scan hgoes snapshot.createServices_nodup horder).loop hgoes
      · cases h
    · cases h

private theorem Reachable.sound (h : Reachable t s) : s.Sound :=
  h.invariant (fun _ _ _ _ hs hstep => Sound.step hs hstep) (by constructor <;> simp [initial])

/-- A table with one peer, and the tasks after the first scan of it. -/
def onePeer : HiddenServices := ⟨[⟨"a.onion", 80, true, true, false⟩], by decide⟩

def onePeerServed : PeerServices where
  hiddenServices := onePeer
  phase := .waiting
  taskSet := [((⟨"a.onion", 80⟩, .fetch, false), 0), ((⟨"a.onion", 80⟩, .push, false), 1)]
  running := [((⟨"a.onion", 80⟩, .fetch, false), 0), ((⟨"a.onion", 80⟩, .push, false), 1)]
  spawned := 2
  shouldQuit := false

private theorem onePeer_scanning :
    Reachable onePeer { initial onePeer with phase := .scanning onePeer } := by
  have hquery : (initial onePeer).step (.query false) =
      some { initial onePeer with phase := .reading } := rfl
  have hread : step { initial onePeer with phase := .reading } (.read true) =
      some { initial onePeer with phase := .scanning onePeer } := rfl
  exact (Run.single trivial hquery).tail trivial hread

private theorem onePeer_scanned :
    step { initial onePeer with phase := .scanning onePeer }
      (.scan [(⟨"a.onion", 80⟩, .fetch, false), (⟨"a.onion", 80⟩, .push, false)]) =
        some onePeerServed := rfl

private theorem onePeerServed_reachable : Reachable onePeer onePeerServed :=
  onePeer_scanning.tail trivial onePeer_scanned

/-- However the table changes and whenever tasks end, the loop never has two tasks that fetch from one
peer, nor two that push to it. -/
theorem peer_tasks_exclusive (h : Reachable t s) {x y : TaskID × ℕ} (hx : x ∈ s.running)
    (hy : y ∈ s.running) (hpurpose : x.1.purpose = y.1.purpose) : x = y :=
  List.inj_on_of_nodup_map h.sound.exclusive hx hy hpurpose

theorem peer_tasks_exclusive_onePeer :
    (((⟨"a.onion", 80⟩, .push, false), 1) : TaskID × ℕ) = ((⟨"a.onion", 80⟩, .push, false), 1) :=
  peer_tasks_exclusive onePeerServed_reachable (by decide) (by decide) rfl

/-- After every scan exactly the services of the table that it has read are served, and the tasks that
ran for them were left alone. -/
theorem scan_reconciles (h : Reachable t s) (hphase : s.phase = .scanning snapshot)
    (hstep : s.step (.scan order) = some s') :
    (∀ id, (∃ task, (id, task) ∈ s'.running) ↔ id ∈ snapshot.createServices) ∧
      (∀ id, id ∈ s'.runningTasks ↔ id ∈ snapshot.createServices) ∧
      ∀ x ∈ s.running, x.1 ∈ snapshot.createServices → x ∈ s'.running := by
  have hs := h.sound
  have hgoes : s.phase ≠ .ended := by simp [hphase]
  simp only [step, hphase] at hstep
  split at hstep
  next horder =>
    cases hstep
    have hruns : ∀ id, (∃ task, (id, task) ∈ (s.scan snapshot.createServices order).running) ↔
        id ∈ snapshot.createServices := by
      intro id
      rw [← scan_runs hs hgoes horder]
      simp
    refine ⟨hruns, ?_, ?_⟩
    · intro id
      rw [← hruns]
      simp only [mem_scan_running hs hgoes]
      show id ∈ (s.scan snapshot.createServices order).taskSet.map Prod.fst ↔ _
      simp
    · intro x hx hid
      exact List.mem_append_left _ ((mem_unaborted hs hgoes).mpr
        ((mem_retained hs hgoes).mpr ⟨hx, hid⟩))
  · cases hstep

/-- After the first scan the row stops to ask for pushing, another peer comes, and the loop reads the
table again. -/
def pushStops : List ServicesEvent :=
  [.upsert ⟨"a.onion", 80⟩ none (some false) none, .insert ⟨"b.onion", 80, true, false, true⟩, .tick,
    .read true]

private theorem pushStops_occur : (pushStops.foldlM step onePeerServed).isSome := by decide +kernel

def rescanning : PeerServices := (pushStops.foldlM step onePeerServed).get pushStops_occur

private theorem rescanning_reachable : Reachable onePeer rescanning :=
  onePeerServed_reachable.trans
    (Run.of_foldlM (fun _ _ => trivial) (Option.some_get pushStops_occur).symm)

private theorem rescan_occurs :
    (rescanning.step (.scan [(⟨"b.onion", 80⟩, .fetch, true)])).isSome := by
  decide +kernel

def rescanned : PeerServices :=
  (rescanning.step (.scan [(⟨"b.onion", 80⟩, .fetch, true)])).get rescan_occurs

private theorem rescanned_scan :
    rescanning.step (.scan [(⟨"b.onion", 80⟩, .fetch, true)]) = some rescanned :=
  (Option.some_get rescan_occurs).symm

theorem scan_reconciles_rescanned :
    (∀ id, (∃ task, (id, task) ∈ rescanned.running) ↔
        id ∈ rescanning.hiddenServices.createServices) ∧
      (∀ id, id ∈ rescanned.runningTasks ↔ id ∈ rescanning.hiddenServices.createServices) ∧
      ((⟨"a.onion", 80⟩, .fetch, false), 0) ∈ rescanned.running ∧
      (∃ task, ((⟨"a.onion", 80⟩, .push, false), task) ∈ rescanning.running) ∧
      (¬∃ task, ((⟨"a.onion", 80⟩, .push, false), task) ∈ rescanned.running) ∧
      ∃ task, ((⟨"b.onion", 80⟩, .fetch, true), task) ∈ rescanned.running := by
  have hphase : rescanning.phase = .scanning rescanning.hiddenServices := rfl
  obtain ⟨hruns, hanswer, hkept⟩ := scan_reconciles rescanning_reachable hphase rescanned_scan
  refine ⟨hruns, hanswer, hkept _ (by decide +kernel) (by decide +kernel),
    ⟨1, by decide +kernel⟩, ?_, ?_⟩
  · rw [hruns]
    decide +kernel
  · rw [hruns]
    decide +kernel

private theorem scanning_of_step {ev : ServicesEvent} (h : s.step ev = some s')
    (hphase : s'.phase = .scanning snapshot) :
    s.phase = .scanning snapshot ∨ s.hiddenServices = snapshot := by
  have hloop : ∀ u : PeerServices, u.loop.phase ≠ .scanning snapshot := by
    intro u
    unfold loop
    cases u.shouldQuit <;> simp
  cases ev with
  | insert p =>
    obtain ⟨t, _, rfl⟩ := Option.map_eq_some_iff.mp h
    exact .inl hphase
  | upsert | shutdown | finish =>
    cases h
    exact .inl hphase
  | query closed =>
    simp only [step] at h
    split at h
    · cases h
      cases closed
      · cases hphase
      · exact absurd hphase (hloop s)
    · cases h
  | tick =>
    simp only [step] at h
    split at h
    · cases h
      cases hquit : s.shouldQuit <;> simp [hquit] at hphase
    · cases h
  | read ok =>
    simp only [step] at h
    split at h
    · cases h
      cases ok
      · cases hphase
      · exact .inr (ServicesPhase.scanning.inj hphase)
    · cases h
  | scan order =>
    simp only [step] at h
    split at h
    · split at h
      · cases h
        exact absurd hphase (hloop _)
      · cases h
    · cases h

private theorem running_of_step (hs : s.Sound) {ev : ServicesEvent} (h : s.step ev = some s')
    (hfinish : ev ≠ .finish x.2) (hx : x ∈ s.running)
    (hread : ∀ snapshot, s.phase = .scanning snapshot → x.1 ∈ snapshot.createServices) :
    x ∈ s'.running := by
  cases ev with
  | insert p =>
    obtain ⟨t, _, rfl⟩ := Option.map_eq_some_iff.mp h
    exact hx
  | upsert | shutdown =>
    cases h
    exact hx
  | finish task =>
    cases h
    apply List.mem_filter.mpr
    refine ⟨hx, decide_eq_true ?_⟩
    intro heq
    exact hfinish (congrArg ServicesEvent.finish heq.symm)
  | query closed =>
    simp only [step] at h
    split at h
    · cases h
      cases closed <;> exact hx
    · cases h
  | tick | read =>
    simp only [step] at h
    split at h
    · cases h
      exact hx
    · cases h
  | scan order =>
    simp only [step] at h
    split at h
    next snapshot hphase =>
      have hgoes : s.phase ≠ .ended := by simp [hphase]
      split at h
      · cases h
        exact List.mem_append_left _ ((mem_unaborted hs hgoes).mpr
          ((mem_retained hs hgoes).mpr ⟨hx, hread snapshot hphase⟩))
      · cases h
    · cases h

/-- The task runs, and neither the table nor what the loop has read of it asks for its end. -/
structure Kept (x : TaskID × ℕ) (s : PeerServices) : Prop where
  sound : s.Sound
  runs : x ∈ s.running
  wanted : x.1 ∈ s.hiddenServices.createServices
  read : ∀ snapshot, s.phase = .scanning snapshot → x.1 ∈ snapshot.createServices

private theorem Kept.step (hs : s.Kept x) {ev : ServicesEvent} (h : s.step ev = some s')
    (hwanted : x.1 ∈ s'.hiddenServices.createServices) (hfinish : ev ≠ .finish x.2) :
    s'.Kept x := by
  refine ⟨hs.sound.step h, running_of_step hs.sound h hfinish hs.runs hs.read, hwanted, ?_⟩
  intro snapshot hphase
  obtain hold | rfl := scanning_of_step h hphase
  · exact hs.read snapshot hold
  · exact hs.wanted

/-- A task whose service stays in the table unchanged is not restarted, whatever happens to the other
services. -/
theorem wanted_task_kept (h : Reachable t s) (hphase : s.phase = .waiting) (hx : x ∈ s.running)
    (hwanted : x.1 ∈ s.hiddenServices.createServices)
    (hrun : Run (fun s ev s' => s.step ev = some s' ∧
      x.1 ∈ s'.hiddenServices.createServices) (fun ev => ev ≠ .finish x.2) s s') :
    x ∈ s'.running := by
  have hkept : s'.Kept x := hrun.invariant
    (fun _ _ _ hfinish hs hstep => Kept.step hs hstep.1 hstep.2 hfinish)
    ⟨h.sound, hx, hwanted, fun _ hscanning => by simp [hphase] at hscanning⟩
  exact hkept.runs

/-- The row of the task stops to ask for pushing only. -/
def fetchStays : List ServicesEvent :=
  [.upsert ⟨"a.onion", 80⟩ none (some false) none, .tick, .read true, .scan []]

/-- A step after which the task is still wanted. -/
def fetchWanted (s : PeerServices) (ev : ServicesEvent) : Option PeerServices :=
  (s.step ev).filter fun s' =>
    (⟨"a.onion", 80⟩, .fetch, false) ∈ s'.hiddenServices.createServices

private theorem fetchStays_occurs : (fetchStays.foldlM fetchWanted onePeerServed).isSome := by
  decide +kernel

def fetchOnly : PeerServices :=
  (fetchStays.foldlM fetchWanted onePeerServed).get fetchStays_occurs

theorem wanted_task_kept_fetchOnly :
    ((⟨"a.onion", 80⟩, .fetch, false), 0) ∈ fetchOnly.running ∧
      ((⟨"a.onion", 80⟩, .push, false), 1) ∉ fetchOnly.running := by
  refine ⟨?_, by decide +kernel⟩
  apply wanted_task_kept onePeerServed_reachable rfl (by decide) (by decide)
  have hrun := Run.of_foldlM (P := fun ev => ev ≠ .finish 0) ?_
    (Option.some_get fetchStays_occurs).symm
  · apply hrun.of_step
    intro s ev s' hstep
    obtain ⟨hstep, hwanted⟩ := Option.filter_eq_some_iff.mp hstep
    exact ⟨hstep, of_decide_eq_true hwanted⟩
  · simp [fetchStays]

end PeerServices
end JudicaVM
