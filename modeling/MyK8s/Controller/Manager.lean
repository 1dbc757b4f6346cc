import MyK8s.Lib.Levels
import MyK8s.ApiServer.Alone
import MyK8s.ApiServer.Streams
import MyK8s.Controller.WorkQueue

/-!
# The managers

`src/controller/manager.rs`, `src/controller/endpoints_manager.rs` and `run` of `src/scheduler.rs` are one
program: informers and a resync put keys into a work queue, and a worker takes them out and reconciles. A key
whose reconcile fails comes back after a delay (`RateLimiter`, `backoff_for` and `add_after` of
`src/controller/workqueue.rs`).

Each informer reads a watch stream of the server, and the worker's requests interleave with the writes of
others. `Tasks` is in what the managers differ. What an act can make a manager miss is `Misses`, and a
key that is outdated is owed, at the worker, or was missed and never owed since (`outdated_cases`).
-/

namespace MyK8s.ApiServer

/-! ## What a call sends, and what a reader has ahead -/

/-- The events of a call on the channel of a kind. -/
def StoreCall.sends (kind : Kind) (db : Db) (call : StoreCall) : List (WatchEvent kind.Obj) :=
  if h : call.kind = kind then h ▸ (call.op.run .none db).events else []

namespace Stream

section Steps

variable {T : Type} [ResourceMeta T]

/-- What a live stream forwards. -/
def Hears (params : Params T) (s : Stream T) (event : WatchEvent T) : Prop :=
  ∃ rv, s.phase = .live rv ∧ forwards params rv event = true

/-- The events that the reader of the stream is still to get, of those that there are. -/
def ahead (params : Params T) (s : Stream T) : List (WatchEvent T) :=
  match s.phase with
  | .scanned items => catchUp params items
  | .live rv => s.received params rv
  | _ => []

variable {params : Params T} {db : Db} {s : Stream T} {event : WatchEvent T}

theorem mem_ahead_receive {events : List (WatchEvent T)} :
    event ∈ (s.receive events).ahead params ↔
      event ∈ s.ahead params ∨ event ∈ events ∧ s.Hears params event := by
  unfold ahead Hears
  rw [phase_receive]
  cases hs : s.phase with
  | live rv =>
    simp only
    rw [received_receive hs, List.mem_append, List.mem_filter]
    refine or_congr_right (and_congr_right fun _ => ?_)
    constructor
    · exact fun hf => ⟨rv, rfl, hf⟩
    · rintro ⟨rv', hrv, hf⟩
      cases hrv
      exact hf
  | _ => simp

/-- A step of the stream takes nothing from its reader. -/
theorem mem_ahead_poll (h : event ∈ s.ahead params) : event ∈ (s.poll params db).ahead params := by
  cases hs : s.phase with
  | scanned items =>
    have hmem : event ∈ catchUp params items := by
      unfold ahead at h
      rwa [hs] at h
    unfold ahead poll
    simp only [hs]
    exact List.mem_append_left _ hmem
  | live rv =>
    unfold ahead at h ⊢
    rw [phase_poll_live hs]
    rw [hs] at h
    simp only at h ⊢
    rwa [received_poll hs]
  | _ =>
    unfold ahead at h
    rw [hs] at h
    cases h

/-- The reader gets the first event that has been yielded. -/
theorem mem_ahead_next {first : WatchEvent T} {rest : List (WatchEvent T)}
    (hs : s.yielded = first :: rest) (h : event ∈ s.ahead params) :
    event = first ∨ event ∈ ({ s with yielded := rest } : Stream T).ahead params := by
  unfold ahead at h ⊢
  cases hphase : s.phase with
  | live rv =>
    rw [hphase] at h
    simp only at h ⊢
    unfold received at h ⊢
    rw [hs, List.cons_append] at h
    exact List.mem_cons.mp h
  | scanned items =>
    rw [hphase] at h
    exact .inr h
  | _ =>
    rw [hphase] at h
    cases h

end Steps

end Stream

end MyK8s.ApiServer

namespace MyK8s.Controller

open ApiServer
open Process (Proc Fate)

/-! ## Rate limiting -/

/-- The consecutive failures of each key. -/
structure RateLimiter where
  failures : Std.ExtTreeMap String UInt32

namespace RateLimiter

def new : RateLimiter := ⟨∅⟩

/-- The count after one more failure (it wraps, where it is not checked). -/
def failure (rl : RateLimiter) (key : String) : UInt32 × RateLimiter :=
  let n := rl.failures[key]?.getD 0 + 1
  (n, ⟨rl.failures.insert key n⟩)

def forget (rl : RateLimiter) (key : String) : RateLimiter := ⟨rl.failures.erase key⟩

end RateLimiter

/-- `BASE_MS`. -/
def backoffBaseMs : ℕ := 500

/-- `MAX`, in milliseconds. -/
def backoffMaxMs : ℕ := 300000

/-- `backoff_for`, in milliseconds. -/
def backoffFor (failures : UInt32) : ℕ :=
  let exp := min (failures.toNat - 1) 20
  min (min (backoffBaseMs * 2 ^ exp) u64Max) backoffMaxMs

/-! ## A manager -/

/-- A task of the worker. -/
abbrev Job := Proc Db ApiCall ApiCall.Reply (Except ClientError Unit)

/-- In what the managers differ. An informer that `asks` lists objects of the server before it adds keys. -/
structure Tasks (ι : Type) where
  kind : ι → Kind
  keys : (i : ι) → Db → WatchEvent (kind i).Obj → List String
  asks : ι → Bool
  resync : Db → List String
  reconcile : Stamp → String → Client Unit

/-- The objects at the server, what each informer reads, and the rest of the manager. -/
structure Manager {ι : Type} (C : Tasks ι) where
  db : Db
  feeds : (i : ι) → Option (Stream (C.kind i).Obj)
  queue : WorkQueue
  limiter : RateLimiter
  /-- The keys of `add_after` that wait, with the delay that they were given. -/
  timers : List (String × ℕ)
  worker : Option (String × Job)

/-- What happens next. -/
inductive ManagerAct (ι : Type)
  /-- Somebody else writes. -/
  | write (w : Write)
  | connect (i : ι)
  | poll (i : ι)
  | disconnect (i : ι)
  /-- The informer gets an event. If it asks the server, it is answered or not. -/
  | handle (i : ι) (answered : Bool)
  | resync
  | get (stamp : Stamp)
  /-- The worker reads or writes. -/
  | access
  /-- A write of the worker is answered with an error, done or not. -/
  | fail (e : ApiError) (done : Bool)
  /-- A read of the worker fails. -/
  | unreachable (e : ClientError)
  | finish
  /-- A delay is over. -/
  | fire (n : ℕ)
  /-- The manager is started anew. -/
  | crash

/-- `watch_…(Some("0"))`. -/
def fromZero (T : Type) : Params T := ⟨0, fun _ => true⟩

namespace Manager

variable {ι : Type} {C : Tasks ι}

def start (db : Db) : Manager C := ⟨db, fun _ => none, .new, .new, [], none⟩

/-- A call changes the objects, and the streams that are there receive its events. -/
def commit (m : Manager C) (call : StoreCall) : Manager C :=
  { m with
    db := StoreCall.step m.db (call, .none)
    feeds := fun i => (m.feeds i).map (Stream.receive (call.sends (C.kind i) m.db)) }

def addAll (q : WorkQueue) (keys : List String) : WorkQueue := keys.foldl WorkQueue.add q

/-- What the worker does when `reconcile` has returned. -/
def finish (m : Manager C) (key : String) : Except ClientError Unit → Manager C
  | .ok () => { m with worker := none, limiter := m.limiter.forget key, queue := m.queue.done key }
  | .error _ =>
    let (attempt, limiter) := m.limiter.failure key
    let delay := backoffFor attempt
    { m with
      worker := none
      limiter := limiter
      queue := m.queue.done key
      timers := m.timers ++ [(key, delay)] }

section Step

variable [DecidableEq ι]

def step (m : Manager C) : ManagerAct ι → Manager C
  | .write w => m.commit w.call
  | .connect i =>
    match m.feeds i with
    | none => { m with feeds := Function.update m.feeds i (some .closed) }
    | some _ => m
  | .poll i =>
    { m with feeds := Function.update m.feeds i ((m.feeds i).map (Stream.poll (fromZero _) m.db)) }
  | .disconnect i => { m with feeds := Function.update m.feeds i none }
  | .handle i answered =>
    match m.feeds i with
    | some ⟨phase, queue, event :: rest⟩ =>
      { m with
        feeds := Function.update m.feeds i (some ⟨phase, queue, rest⟩)
        queue := if C.asks i && !answered then m.queue else addAll m.queue (C.keys i m.db event) }
    | _ => m
  | .resync => { m with queue := addAll m.queue (C.resync m.db) }
  | .get stamp =>
    match m.worker, m.queue.tryGet with
    | none, (some key, queue) =>
      { m with queue := queue, worker := some (key, (C.reconcile stamp key).run) }
    | _, _ => m
  | .access =>
    match m.worker with
    | some (key, .read next) => { m with worker := some (key, next m.db) }
    | some (key, .write call next) =>
      { m.commit call.storeCall with worker := some (key, next (call.exec m.db).1) }
    | _ => m
  | .fail e done =>
    match m.worker with
    | some (key, .write call next) =>
      { (if done then m.commit call.storeCall else m) with worker := some (key, next (.error e)) }
    | _ => m
  | .unreachable e =>
    match m.worker with
    | some (key, .read _) => { m with worker := some (key, .ret (.error e)) }
    | _ => m
  | .finish =>
    match m.worker with
    | some (key, .ret r) => m.finish key r
    | _ => m
  | .fire n =>
    match m.timers[n]? with
    | some (key, _) => { m with queue := m.queue.add key, timers := m.timers.eraseIdx n }
    | none => m
  | .crash => start m.db

def run (m : Manager C) (acts : List (ManagerAct ι)) : Manager C := acts.foldl step m

theorem run_concat (m : Manager C) (acts : List (ManagerAct ι)) (act : ManagerAct ι) :
    m.run (acts ++ [act]) = (m.run acts).step act := List.foldl_concat ..

end Step

/-! ## What a manager has yet to do -/

/-- An event that an informer is still to get makes it add the key. -/
def Told (m : Manager C) (k : String) : Prop :=
  ∃ i s, m.feeds i = some s ∧ ∃ event ∈ s.ahead (fromZero _), k ∈ C.keys i m.db event

/-- The key is in the queue, or waits for the end of a delay, or an informer will be told of it. -/
def Owes (m : Manager C) (k : String) : Prop :=
  k ∈ m.queue.dirty ∨ (∃ delay, (k, delay) ∈ m.timers) ∨ m.Told k

/-- The worker has the key. -/
def Working (m : Manager C) (k : String) : Prop := ∃ job, m.worker = some (k, job)

theorem mem_dirty_addAll {q : WorkQueue} {keys : List String} {k : String} :
    k ∈ (addAll q keys).dirty ↔ k ∈ q.dirty ∨ k ∈ keys := by
  induction keys generalizing q with
  | nil => simp [addAll]
  | cons key keys ih =>
    show k ∈ (addAll (q.add key) keys).dirty ↔ _
    rw [ih, WorkQueue.mem_dirty_add, List.mem_cons]
    tauto

end Manager

/-- What a controller is after: which keys are outdated, which writes of others do not matter to a key, and
which of its writes it goes on after, although they have come to nothing that helps. -/
structure Purpose where
  outdated : String → Db → Prop
  rely : String → Db → Db → Prop
  ignored : ApiCall → Fate → Db → Prop
  /-- What the worker writes for one key may matter to another. -/
  shared : Prop

namespace Purpose

variable {ι : Type}

/-- What does not matter to a key, where the objects are kept in order. -/
def keeps (P : Purpose) (k : String) (db db' : Db) : Prop :=
  (WellFormed db → WellFormed db') ∧ P.rely k db db'

def scheme (P : Purpose) : Levels.Scheme Db ApiCall String ApiCall.Reply ApiError where
  outdated := P.outdated
  rely := P.keeps
  setting := ⟨ApiCall.exec, fun e _ => .error e, P.ignored⟩

/-- A write of the worker for a key keeps the objects in order, and matters to no other key if keys are not
shared. -/
def Own (P : Purpose) (C : Tasks ι) (key : String) (seen : List Db) (call : ApiCall) : Prop :=
  (∀ db ∈ seen, WellFormed db) → call.op.storeOp.Addressed ∧ ∀ db, WellFormed db →
    (¬ P.shared → ∀ k ≠ key, P.rely k db (call.exec db).2) ∧
      ∀ i event, key ∈ C.keys i db event → key ∈ C.keys i (call.exec db).2 event

/-- What makes the tasks serve the purpose. -/
structure Served (P : Purpose) (C : Tasks ι) : Prop where
  refl : ∀ k db, P.rely k db db
  trans : ∀ k db db' db'', P.rely k db db' → P.rely k db' db'' → P.rely k db db''
  outdated : ∀ k db db', P.rely k db db' → P.outdated k db' → P.outdated k db
  /-- An event that tells of the key tells of it until something is written that matters. -/
  told : ∀ k db db' i event, WellFormed db → WellFormed db' → P.rely k db db' →
    k ∈ C.keys i db event → k ∈ C.keys i db' event
  own : ∀ stamp key, Proc.writes (P.Own C key) (fun _ _ => True) (C.reconcile stamp key) []
  settles : ∀ stamp key db, WellFormed db → P.scheme.Settles key (C.reconcile stamp key).run db

variable {P : Purpose} {C : Tasks ι}

theorem Served.isPreorder (h : P.Served C) (k : String) : IsPreorder Db (P.scheme.rely k) where
  refl db := ⟨id, h.refl k db⟩
  trans _ _ _ h1 h2 := ⟨h2.1 ∘ h1.1, h.trans k _ _ _ h1.2 h2.2⟩

end Purpose

namespace Manager

variable {ι : Type} {C : Tasks ι}

/-! ## What a manager can miss -/

/-- No informer that listens is told of the key by the events of the call. -/
def Unheard (m : Manager C) (k : String) (call : StoreCall) : Prop :=
  ∀ i s, m.feeds i = some s → ∀ event ∈ call.sends (C.kind i) m.db, s.Hears (fromZero _) event →
    k ∉ C.keys i (StoreCall.step m.db (call, .none)) event

/-- A write of the worker comes to what it ignores, or it is for another key and matters to this one; and no
informer is told. -/
def Spoils (P : Purpose) (m : Manager C) (k key : String) (call : ApiCall) (fate : Fate) : Prop :=
  (fate ≠ .refused → m.Unheard k call.storeCall) ∧
    ((key = k ∧ P.ignored call fate m.db) ∨
      (key ≠ k ∧ fate ≠ .refused ∧ P.shared ∧ ¬ P.rely k m.db (call.exec m.db).2))

/-- The act makes the manager miss that the key may be outdated: a write that matters to the key is in no
live stream as an event that tells of it; a stream ends before its reader has got such an event; the reader
has got it and does not get an answer; a write of the worker spoils it; or the manager is started anew. -/
def Misses (P : Purpose) (m : Manager C) (k : String) : ManagerAct ι → Prop
  | .write w => ¬ P.rely k m.db (w.step m.db) ∧ ∀ i s, m.feeds i = some s →
      ∀ event ∈ w.events (C.kind i) m.db, s.Hears (fromZero _) event → k ∉ C.keys i (w.step m.db) event
  | .disconnect i => ∃ s, m.feeds i = some s ∧ ∃ event ∈ s.ahead (fromZero _), k ∈ C.keys i m.db event
  | .handle i answered => C.asks i = true ∧ answered = false ∧
      ∃ s event rest, m.feeds i = some s ∧ s.yielded = event :: rest ∧ k ∈ C.keys i m.db event
  | .access => ∃ key call next, m.worker = some (key, .write call next) ∧ m.Spoils P k key call .answered
  | .fail _ done => ∃ key call next, m.worker = some (key, .write call next) ∧
      m.Spoils P k key call (if done then .lost else .refused)
  | .crash => m.Owes k ∨ m.Working k
  | _ => False

/-- The key was outdated at the start or has been missed, and it has not been owed since. -/
def Missed [DecidableEq ι] (P : Purpose) (m : Manager C) (acts : List (ManagerAct ι)) (k : String) : Prop :=
  (P.outdated k m.db ∧ ∀ past, past <+: acts → ¬ (m.run past).Owes k) ∨
    ∃ past act rest, acts = past ++ act :: rest ∧ (m.run past).Misses P k act ∧
      ∀ mid, mid <+: rest → ¬ (m.run (past ++ act :: mid)).Owes k

/-! ## What an act can do -/

variable {P : Purpose} {m m' : Manager C} {k key : String} {missed : Set String}

/-- As a state of the library. -/
def levels (m : Manager C) (missed : Set String) : Levels.State Db ApiCall String ApiCall.Reply ClientError :=
  ⟨m.db, {k | m.Owes k ∨ k ∈ missed}, m.worker⟩

/-- The objects are in order, and so is what the worker will write. -/
structure Safe (P : Purpose) (m : Manager C) : Prop where
  db : WellFormed m.db
  worker : ∀ key job, m.worker = some (key, job) →
    ∃ seen, (∀ db ∈ seen, WellFormed db) ∧ Proc.wp (P.Own C key) (fun _ _ => True) job seen

theorem safe_start {db : Db} (h : WellFormed db) : (start db : Manager C).Safe P :=
  ⟨h, fun _ _ hno => by cases hno⟩

theorem not_told_start (db : Db) : ¬ (start db : Manager C).Told k := by
  rintro ⟨i, s, hs, -⟩
  cases hs

theorem not_owes_start (db : Db) : ¬ (start db : Manager C).Owes k := by
  rintro (h | ⟨delay, h⟩ | h)
  · exact absurd h (Finset.notMem_empty k)
  · cases h
  · exact not_told_start db h

theorem not_working_of_isNone (h : m.worker.isNone = true) : ¬ m.Working k := by
  rintro ⟨job, hjob⟩
  rw [hjob] at h
  cases h

/-- Nothing is owed where everything has been handled. -/
theorem not_owes_of_handled (hdirty : k ∉ m.queue.dirty) (htimers : m.timers = [])
    (hfeeds : ∀ i, ((m.feeds i).map fun s => (s.ahead (fromZero _)).length) = some 0) : ¬ m.Owes k := by
  rintro (h | ⟨delay, h⟩ | ⟨i, s, hs, event, hevent, -⟩)
  · exact hdirty h
  · rw [htimers] at h
    cases h
  · have hi := hfeeds i
    rw [hs] at hi
    rw [List.eq_nil_of_length_eq_zero (Option.some.inj hi)] at hevent
    cases hevent

theorem feeds_commit {call : StoreCall} {i : ι} {s : Stream (C.kind i).Obj} (hs : m.feeds i = some s) :
    (m.commit call).feeds i = some (s.receive (call.sends (C.kind i) m.db)) :=
  congrArg (Option.map (Stream.receive (call.sends (C.kind i) m.db))) hs

/-- A commit leaves what is owed, where the events still tell of the key. -/
theorem Told.commit {call : StoreCall} (h : m.Told k)
    (hk : ∀ i event, k ∈ C.keys i m.db event → k ∈ C.keys i (m.commit call).db event) :
    (m.commit call).Told k := by
  obtain ⟨i, s, hs, event, hevent, hkeys⟩ := h
  exact ⟨i, _, feeds_commit hs, event, Stream.mem_ahead_receive.mpr (.inl hevent), hk i event hkeys⟩

theorem Owes.commit {call : StoreCall} (h : m.Owes k)
    (hk : ∀ i event, k ∈ C.keys i m.db event → k ∈ C.keys i (m.commit call).db event) :
    (m.commit call).Owes k := by
  rcases h with h | h | h
  · exact .inl h
  · exact .inr (.inl h)
  · exact .inr (.inr (h.commit hk))

/-- What a live stream hears of a commit is told. -/
theorem told_commit {call : StoreCall} {i : ι} {s : Stream (C.kind i).Obj} (hs : m.feeds i = some s)
    {event : WatchEvent (C.kind i).Obj} (hevent : event ∈ call.sends (C.kind i) m.db)
    (hhears : s.Hears (fromZero _) event) (hk : k ∈ C.keys i (m.commit call).db event) :
    (m.commit call).Told k :=
  ⟨i, _, feeds_commit hs, event, Stream.mem_ahead_receive.mpr (.inr ⟨hevent, hhears⟩), hk⟩

/-- Where the queue, the delays and the streams lose nothing, the manager owes what it has owed. -/
theorem Owes.mono (h : m.Owes k) (hdirty : k ∈ m.queue.dirty → k ∈ m'.queue.dirty)
    (htimers : ∀ delay, (k, delay) ∈ m.timers → m'.Owes k) (htold : m.Told k → m'.Owes k) : m'.Owes k := by
  rcases h with h | ⟨delay, h⟩ | h
  · exact .inl (hdirty h)
  · exact htimers delay h
  · exact htold h

/-- The streams are the same. -/
theorem Told.congr (h : m.Told k) (hdb : m'.db = m.db) (hfeeds : m'.feeds = m.feeds) : m'.Told k := by
  unfold Told at h ⊢
  rw [hdb, hfeeds]
  exact h

/-- A key that has been missed, or may be so by the act. -/
def missedBy (P : Purpose) (m : Manager C) (act : ManagerAct ι) (missed : Set String) : Set String :=
  {k | m.Misses P k act ∨ k ∈ missed}

section Steps

variable {act : ManagerAct ι}

/-- A key that is not pending after the act. -/
theorem not_pending (hk : k ∉ (m'.levels (missedBy P m act missed)).pending) :
    ¬ m'.Owes k ∧ ¬ m.Misses P k act ∧ k ∉ missed := by
  obtain ⟨howes, hk⟩ := not_or.mp hk
  exact ⟨howes, not_or.mp hk⟩

theorem not_pending_of {k : String} (howes : ¬ m.Owes k) (hmissed : k ∉ missed) :
    k ∉ (m.levels missed).pending := not_or.mpr ⟨howes, hmissed⟩

/-- The worker does nothing. -/
theorem levels_other (act : ManagerAct ι) (hworker : m'.worker = m.worker)
    (hk : ∀ k, ¬ m'.Owes k → ¬ m.Misses P k act → ¬ m.Owes k ∧ P.keeps k m.db m'.db) :
    P.scheme.Step (m.levels missed) (m'.levels (missedBy P m act missed)) := by
  refine .other hworker fun k hpending => ?_
  obtain ⟨howes, hmisses, hmissed⟩ := not_pending hpending
  obtain ⟨hold, hkeeps⟩ := hk k howes hmisses
  exact ⟨not_pending_of hold hmissed, hkeeps⟩

theorem keeps_refl (hs : P.Served C) (k : String) (db : Db) : P.keeps k db db := ⟨id, hs.refl k db⟩

/-- Neither the worker nor the objects change. -/
theorem levels_quiet (hs : P.Served C) (hworker : m'.worker = m.worker) (hdb : m'.db = m.db)
    (hk : ∀ k, m.Owes k → m'.Owes k ∨ m.Misses P k act) :
    P.scheme.Step (m.levels missed) (m'.levels (missedBy P m act missed)) := by
  refine levels_other act hworker fun k howes hmisses => ⟨fun hold => ?_, ?_⟩
  · exact (hk k hold).elim howes hmisses
  · rw [hdb]
    exact keeps_refl hs k m.db

/-- Nothing happens. -/
theorem levels_idle (hs : P.Served C) (hno : m' = m) :
    P.scheme.Step (m.levels missed) (m'.levels (missedBy P m act missed)) := by
  subst hno
  exact levels_quiet hs rfl rfl fun k hk => .inl hk

/-! ## What the worker does -/

/-- The worker goes on, and neither the objects nor what is owed changes. -/
theorem levels_work (hs : P.Served C) {job : Job} (job' : Job) (hworker : m.worker = some (key, job))
    (hm' : m' = { m with worker := some (key, job') })
    (hjob : ¬ m.Misses P key act → P.scheme.Settles key job m.db → P.scheme.Settles key job' m.db) :
    P.scheme.Step (m.levels missed) (m'.levels (missedBy P m act missed)) := by
  subst hm'
  refine .work key job job' hworker rfl (fun hpending => hjob (not_pending hpending).2.1) fun k hpending => ?_
  obtain ⟨howes, -, hmissed⟩ := not_pending hpending
  refine ⟨not_pending_of (fun hold => howes ?_) hmissed, fun _ => keeps_refl hs k m.db⟩
  exact hold.mono id (fun delay hd => .inr (.inl ⟨delay, hd⟩)) fun htold => .inr (.inr (htold.congr rfl rfl))

/-- What is heard of a write of the worker is owed. -/
theorem unheard_of_not_owes {call : StoreCall} {work : Option (String × Job)}
    (howes : ¬ ({ m.commit call with worker := work } : Manager C).Owes k) : m.Unheard k call :=
  fun _ _ hfeed _ hevent hhears hkeys =>
    howes (.inr (.inr ((told_commit hfeed hevent hhears hkeys).congr rfl rfl)))

/-- The worker writes. -/
theorem levels_commit {call : ApiCall} {job : Job} (job' : Job) (fate : Fate)
    (hworker : m.worker = some (key, job)) (hm : WellFormed m.db) (hs : P.Served C)
    (hown : call.op.storeOp.Addressed ∧ ∀ db, WellFormed db →
      (¬ P.shared → ∀ k ≠ key, P.rely k db (call.exec db).2) ∧
        ∀ i event, key ∈ C.keys i db event → key ∈ C.keys i (call.exec db).2 event)
    (hfate : fate ≠ .refused) (hmisses : ∀ k, m.Spoils P k key call fate → m.Misses P k act)
    (hm' : m' = { m.commit call.storeCall with worker := some (key, job') })
    (hjob : ¬ P.ignored call fate m.db → P.scheme.Settles key job m.db →
      P.scheme.Settles key job' (call.exec m.db).2) :
    P.scheme.Step (m.levels missed) (m'.levels (missedBy P m act missed)) := by
  subst hm'
  obtain ⟨haddressed, hown⟩ := hown
  obtain ⟨hcross, htold⟩ := hown m.db hm
  have hwf' : WellFormed (call.exec m.db).2 := ApiCall.wellFormed_exec hm rfl haddressed
  refine .work key job job' hworker rfl (fun hpending => hjob fun hignored => ?_) fun k hpending => ?_
  · obtain ⟨howes, hno, -⟩ := not_pending hpending
    exact hno (hmisses key ⟨fun _ => unheard_of_not_owes howes, .inl ⟨rfl, hignored⟩⟩)
  obtain ⟨howes, hno, hmissed⟩ := not_pending hpending
  have hrely : k ≠ key → P.rely k m.db (call.exec m.db).2 := by
    intro hne
    by_contra hmatters
    refine hno (hmisses k ⟨fun _ => unheard_of_not_owes howes, .inr ⟨Ne.symm hne, hfate, ?_, hmatters⟩⟩)
    by_contra hunshared
    exact hmatters (hcross hunshared k hne)
  have hkeys : ∀ i event, k ∈ C.keys i m.db event → k ∈ C.keys i (call.exec m.db).2 event := by
    intro i event
    by_cases heq : k = key
    · subst heq
      exact htold i event
    · exact hs.told k _ _ i event hm hwf' (hrely heq)
  refine ⟨not_pending_of (fun hold => howes ?_) hmissed, fun hne => ⟨fun _ => hwf', hrely hne⟩⟩
  exact (@Owes.commit _ _ m k call.storeCall hold hkeys).mono id (fun delay hd => .inr (.inl ⟨delay, hd⟩))
    fun htold => .inr (.inr (htold.congr rfl rfl))

/-! ## One act -/

variable [DecidableEq ι]

/-- One stream is another one, of which at most the key that is said is no longer ahead. -/
theorem Told.update {i : ι} {o : Option (Stream (C.kind i).Obj)} (h : m.Told k) (hdb : m'.db = m.db)
    (hfeeds : m'.feeds = Function.update m.feeds i o)
    (hi : ∀ s, m.feeds i = some s → ∀ event ∈ s.ahead (fromZero _), k ∈ C.keys i m.db event →
      m'.Owes k ∨ ∃ s', o = some s' ∧ event ∈ s'.ahead (fromZero _)) : m'.Owes k := by
  obtain ⟨j, s, hs, event, hevent, hkeys⟩ := h
  by_cases hj : j = i
  · subst hj
    rcases hi s hs event hevent hkeys with hdone | ⟨s', rfl, hahead⟩
    · exact hdone
    · refine .inr (.inr ⟨j, s', ?_, event, hahead, ?_⟩)
      · rw [hfeeds, Function.update_self]
      · rwa [hdb]
  · refine .inr (.inr ⟨j, s, ?_, event, hevent, ?_⟩)
    · rw [hfeeds, Function.update_of_ne hj, hs]
    · rwa [hdb]

/-- A write that is not missed leaves what is owed, or makes the key owed. -/
theorem keeps_write {w : Write}
    (htold : P.rely k m.db (w.step m.db) →
      ∀ i event, k ∈ C.keys i m.db event → k ∈ C.keys i (w.step m.db) event)
    (howes : ¬ (m.step (.write w)).Owes k) (hmisses : ¬ m.Misses P k (.write w)) :
    ¬ m.Owes k ∧ P.rely k m.db (w.step m.db) := by
  have hrely : P.rely k m.db (w.step m.db) := by
    by_contra hno
    refine hmisses ⟨hno, fun i s hfeed event hevent hhears hkeys => howes (.inr (.inr ?_))⟩
    exact told_commit hfeed hevent hhears hkeys
  exact ⟨fun hold => howes (hold.commit (htold hrely)), hrely⟩

theorem levels_write (hs : P.Served C) (hm : m.Safe P) (w : Write) :
    P.scheme.Step (m.levels missed) ((m.step (.write w)).levels (missedBy P m (.write w) missed)) := by
  refine levels_other (.write w) rfl fun k howes hmisses => ?_
  obtain ⟨hold, hrely⟩ := keeps_write
    (fun hrely i event => hs.told k _ _ i event hm.db (hm.db.write w) hrely) howes hmisses
  exact ⟨hold, fun hwf => hwf.write w, hrely⟩

theorem owes_handle {i : ι} {answered : Bool} (h : m.Owes k) :
    (m.step (.handle i answered)).Owes k ∨ m.Misses P k (.handle i answered) := by
  cases hfeed : m.feeds i with
  | none =>
    left
    simpa only [step, hfeed] using h
  | some s =>
    obtain ⟨phase, queue, yielded⟩ := s
    cases yielded with
    | nil =>
      left
      simpa only [step, hfeed] using h
    | cons event rest =>
      by_cases hlost : C.asks i = true ∧ answered = false ∧ k ∈ C.keys i m.db event
      · exact .inr ⟨hlost.1, hlost.2.1, _, event, rest, hfeed, rfl, hlost.2.2⟩
      left
      set m' := m.step (.handle i answered) with hm'
      simp only [step, hfeed] at hm'
      have hdirty : k ∈ m.queue.dirty → k ∈ m'.queue.dirty := by
        intro hk
        rw [hm']
        dsimp only
        split
        · exact hk
        · exact mem_dirty_addAll.mpr (.inl hk)
      refine h.mono hdirty (fun delay hd => .inr (.inl ⟨delay, by rw [hm']; exact hd⟩)) fun htold => ?_
      refine @Told.update _ _ m m' k _ i (some ⟨phase, queue, rest⟩) htold (by rw [hm']) (by rw [hm']) ?_
      intro s hs event' hevent' hkeys
      cases Option.some.inj (hfeed.symm.trans hs)
      rcases Stream.mem_ahead_next rfl hevent' with rfl | hrest
      · refine .inl (.inl ?_)
        rw [hm']
        dsimp only
        rw [if_neg]
        · exact mem_dirty_addAll.mpr (.inr hkeys)
        · intro hno
          rw [Bool.and_eq_true, Bool.not_eq_true'] at hno
          exact hlost ⟨hno.1, hno.2, hkeys⟩
      · exact .inr ⟨_, rfl, hrest⟩

theorem owes_poll (i : ι) (h : m.Owes k) : (m.step (.poll i)).Owes k := by
  refine h.mono id (fun delay hd => .inr (.inl ⟨delay, hd⟩)) fun htold => ?_
  refine @Told.update _ _ m (m.step (.poll i)) k _ i _ htold rfl rfl fun s hs event hevent _ => ?_
  rw [hs]
  exact .inr ⟨_, rfl, Stream.mem_ahead_poll hevent⟩

theorem owes_connect (i : ι) (h : m.Owes k) : (m.step (.connect i)).Owes k := by
  cases hfeed : m.feeds i with
  | some s => simpa only [step, hfeed] using h
  | none =>
    simp only [step, hfeed]
    refine h.mono id (fun delay hd => .inr (.inl ⟨delay, hd⟩)) fun htold => ?_
    refine @Told.update _ _ m _ k _ i _ htold rfl rfl fun s hs event hevent _ => ?_
    rw [hfeed] at hs
    cases hs

theorem owes_disconnect (i : ι) (h : m.Owes k) :
    (m.step (.disconnect i)).Owes k ∨ m.Misses P k (.disconnect i) := by
  by_cases hmisses : m.Misses P k (.disconnect i)
  · exact .inr hmisses
  refine .inl (h.mono id (fun delay hd => .inr (.inl ⟨delay, hd⟩)) fun htold => ?_)
  refine @Told.update _ _ m (m.step (.disconnect i)) k _ i _ htold rfl rfl fun s hs event hevent hkeys => ?_
  exact absurd ⟨s, hs, event, hevent, hkeys⟩ hmisses

theorem owes_resync (h : m.Owes k) : (m.step .resync).Owes k := by
  refine h.mono (fun hk => mem_dirty_addAll.mpr (.inl hk)) (fun delay hd => .inr (.inl ⟨delay, hd⟩)) ?_
  exact fun htold => .inr (.inr (htold.congr rfl rfl))

/-- The timers of other keys stay when one fires. -/
theorem mem_eraseIdx_of_ne {key : String} {delay : ℕ} {timers : List (String × ℕ)} {n d : ℕ}
    (hn : timers[n]? = some (key, delay)) (hd : (k, d) ∈ timers) (hne : k ≠ key) :
    (k, d) ∈ timers.eraseIdx n := by
  obtain ⟨j, hj, hget⟩ := List.mem_iff_getElem.mp hd
  rw [List.mem_eraseIdx_iff_getElem]
  refine ⟨j, hj, fun hjn => hne ?_, hget⟩
  obtain ⟨hlt, hget'⟩ := List.getElem?_eq_some_iff.mp hn
  subst hjn
  rw [hget] at hget'
  exact congrArg Prod.fst hget'

theorem owes_fire (n : ℕ) (h : m.Owes k) : (m.step (.fire n)).Owes k := by
  cases hn : m.timers[n]? with
  | none => simpa only [step, hn] using h
  | some timer =>
    obtain ⟨key, delay⟩ := timer
    simp only [step, hn]
    refine h.mono (fun hk => WorkQueue.mem_dirty_add.mpr (.inr hk)) (fun d hd => ?_) ?_
    · by_cases heq : k = key
      · exact .inl (WorkQueue.mem_dirty_add.mpr (.inl heq))
      · exact .inr (.inl ⟨d, mem_eraseIdx_of_ne hn hd heq⟩)
    · exact fun htold => .inr (.inr (htold.congr rfl rfl))

theorem levels_get (hs : P.Served C) (hm : m.Safe P) (stamp : Stamp) :
    P.scheme.Step (m.levels missed) ((m.step (.get stamp)).levels (missedBy P m (.get stamp) missed)) := by
  cases hworker : m.worker with
  | some work => exact levels_idle hs (by simp only [step, hworker])
  | none =>
    cases hget : m.queue.tryGet with
    | mk o queue =>
      cases o with
      | none => exact levels_idle hs (by simp only [step, hworker, hget])
      | some key =>
        have hstep : m.step (.get stamp) =
            { m with queue := queue, worker := some (key, (C.reconcile stamp key).run) } := by
          simp only [step, hworker, hget]
        refine .take key (C.reconcile stamp key).run hworker ?_ ?_ (hs.settles stamp key m.db hm.db) ?_
        · show (m.step (.get stamp)).worker = _
          rw [hstep]
        · show (m.step (.get stamp)).db = m.db
          rw [hstep]
        · intro k hpending hne
          obtain ⟨howes, -, hmissed⟩ := not_pending hpending
          refine not_pending_of (fun hold => howes ?_) hmissed
          rw [hstep]
          refine hold.mono (fun hk => ?_) (fun delay hd => .inr (.inl ⟨delay, hd⟩))
            fun htold => .inr (.inr (htold.congr rfl rfl))
          have hdirty := (@WorkQueue.mem_dirty_tryGet m.queue k).mpr ⟨hk, fun hhands => ?_⟩
          · rwa [hget] at hdirty
          · rw [hget] at hhands
            exact hne (Option.some.inj hhands).symm

theorem levels_access (hs : P.Served C) (hm : m.Safe P) :
    P.scheme.Step (m.levels missed) ((m.step .access).levels (missedBy P m .access missed)) := by
  have hrefl := (hs.isPreorder · |>.refl)
  cases hworker : m.worker with
  | none =>
    exact levels_idle hs (by simp only [step, hworker])
  | some work =>
    obtain ⟨key, job⟩ := work
    cases job with
    | ret r =>
      exact levels_idle hs (by simp only [step, hworker])
    | read next =>
      refine levels_work hs (next m.db) hworker (by simp only [step, hworker]) fun _ hsettles => ?_
      exact hsettles m.db (hrefl key m.db)
    | write call next =>
      obtain ⟨seen, hseen, hwp⟩ := hm.worker key _ hworker
      refine levels_commit (next (call.exec m.db).1) .answered hworker hm.db hs (hwp.1 hseen) ?_
        (fun k hspoils => ⟨key, call, next, hworker, hspoils⟩) (by simp only [step, hworker]) ?_
      · rintro ⟨⟩
      · exact fun hignored hsettles => (hsettles m.db (hrefl key m.db)).1 hignored

theorem levels_fail (hs : P.Served C) (hm : m.Safe P) (e : ApiError) (done : Bool) :
    P.scheme.Step (m.levels missed) ((m.step (.fail e done)).levels (missedBy P m (.fail e done) missed)) := by
  have hrefl := (hs.isPreorder · |>.refl)
  cases hworker : m.worker with
  | none =>
    exact levels_idle hs (by simp only [step, hworker])
  | some work =>
    obtain ⟨key, job⟩ := work
    cases job with
    | ret r =>
      exact levels_idle hs (by simp only [step, hworker])
    | read next =>
      exact levels_idle hs (by simp only [step, hworker])
    | write call next =>
      obtain ⟨seen, hseen, hwp⟩ := hm.worker key _ hworker
      cases done with
      | true =>
        refine levels_commit (next (.error e)) .lost hworker hm.db hs (hwp.1 hseen) ?_
          (fun k hspoils => ⟨key, call, next, hworker, hspoils⟩) (by simp only [step, hworker, if_true]) ?_
        · rintro ⟨⟩
        · exact fun hignored hsettles => ((hsettles m.db (hrefl key m.db)).2 e).2 hignored
      | false =>
        refine levels_work hs (next (.error e)) hworker
          (by simp only [step, hworker, Bool.false_eq_true, if_false]) fun hmisses hsettles => ?_
        refine ((hsettles m.db (hrefl key m.db)).2 e).1 fun hignored => hmisses ⟨key, call, next, hworker, ?_⟩
        exact ⟨fun hno => absurd rfl hno, .inl ⟨rfl, hignored⟩⟩

theorem levels_unreachable (hs : P.Served C) (e : ClientError) :
    P.scheme.Step (m.levels missed)
      ((m.step (.unreachable e)).levels (missedBy P m (.unreachable e) missed)) := by
  cases hworker : m.worker with
  | none => exact levels_idle hs (by simp only [step, hworker])
  | some work =>
    obtain ⟨key, job⟩ := work
    cases job with
    | ret r => exact levels_idle hs (by simp only [step, hworker])
    | write call next => exact levels_idle hs (by simp only [step, hworker])
    | read next =>
      refine levels_work hs (.ret (.error e)) hworker (by simp only [step, hworker]) fun _ _ => ?_
      rintro db - a ⟨⟩

omit [DecidableEq ι] in
/-- What is owed is still so when the worker has finished. -/
theorem Owes.finish {r : Except ClientError Unit} (h : m.Owes k) : (m.finish key r).Owes k := by
  cases r with
  | ok a =>
    refine h.mono (fun hk => ?_) (fun delay hd => .inr (.inl ⟨delay, hd⟩))
      fun htold => .inr (.inr (htold.congr rfl rfl))
    show k ∈ (m.queue.done key).dirty
    rwa [WorkQueue.dirty_done]
  | error e =>
    refine h.mono (fun hk => ?_) (fun delay hd => .inr (.inl ⟨delay, List.mem_append_left _ hd⟩))
      fun htold => .inr (.inr (htold.congr rfl rfl))
    show k ∈ (m.queue.done key).dirty
    rwa [WorkQueue.dirty_done]

omit [DecidableEq ι] in
theorem finish_frame (m : Manager C) (key : String) (r : Except ClientError Unit) :
    (m.finish key r).worker = none ∧ (m.finish key r).db = m.db := by
  cases r <;> exact ⟨rfl, rfl⟩

theorem levels_finish (hs : P.Served C) :
    P.scheme.Step (m.levels missed) ((m.step .finish).levels (missedBy P m .finish missed)) := by
  cases hworker : m.worker with
  | none => exact levels_idle hs (by simp only [step, hworker])
  | some work =>
    obtain ⟨key, job⟩ := work
    cases job with
    | read next => exact levels_idle hs (by simp only [step, hworker])
    | write call next => exact levels_idle hs (by simp only [step, hworker])
    | ret r =>
      have hstep : m.step .finish = m.finish key r := by simp only [step, hworker]
      rw [hstep]
      obtain ⟨hnone, hdb⟩ := m.finish_frame key r
      refine .finish key r hworker hnone hdb ?_ fun k hpending => ?_
      · rintro e rfl
        refine .inl (.inr (.inl ⟨backoffFor (m.limiter.failure key).1, ?_⟩))
        exact List.mem_append_right _ List.mem_cons_self
      · obtain ⟨howes, -, hmissed⟩ := not_pending hpending
        exact not_pending_of (fun hold => howes hold.finish) hmissed

theorem levels_crash :
    P.scheme.Step (m.levels missed) ((m.step .crash).levels (missedBy P m .crash missed)) := by
  refine .crash rfl rfl (fun k job hworker => ?_) fun k hpending => ?_
  · exact .inr (.inl (.inr ⟨job, hworker⟩))
  · obtain ⟨-, hmisses, hmissed⟩ := not_pending hpending
    exact not_pending_of (fun hold => hmisses (.inl hold)) hmissed

/-- **What one act does** is a step of the library. -/
theorem levels_step (hs : P.Served C) (hm : m.Safe P) (act : ManagerAct ι) :
    P.scheme.Step (m.levels missed) ((m.step act).levels (missedBy P m act missed)) := by
  cases act with
  | write w => exact levels_write hs hm w
  | connect i =>
    have hframe : (m.step (.connect i)).worker = m.worker ∧ (m.step (.connect i)).db = m.db := by
      simp only [step]
      split <;> exact ⟨rfl, rfl⟩
    exact levels_quiet hs hframe.1 hframe.2 fun k hk => .inl (owes_connect i hk)
  | poll i => exact levels_quiet hs rfl rfl fun k hk => .inl (owes_poll i hk)
  | disconnect i => exact levels_quiet hs rfl rfl fun k hk => owes_disconnect i hk
  | handle i answered =>
    have hframe : (m.step (.handle i answered)).worker = m.worker ∧ (m.step (.handle i answered)).db = m.db := by
      simp only [step]
      split <;> exact ⟨rfl, rfl⟩
    exact levels_quiet hs hframe.1 hframe.2 fun k hk => owes_handle hk
  | resync => exact levels_quiet hs rfl rfl fun k hk => .inl (owes_resync hk)
  | get stamp => exact levels_get hs hm stamp
  | access => exact levels_access hs hm
  | fail e done => exact levels_fail hs hm e done
  | unreachable e => exact levels_unreachable hs e
  | finish => exact levels_finish hs
  | fire n =>
    have hframe : (m.step (.fire n)).worker = m.worker ∧ (m.step (.fire n)).db = m.db := by
      simp only [step]
      split <;> exact ⟨rfl, rfl⟩
    exact levels_quiet hs hframe.1 hframe.2 fun k hk => .inl (owes_fire n hk)
  | crash => exact levels_crash

/-! ## Runs -/

omit [DecidableEq ι] in
theorem Safe.congr (h : m.Safe P) (hdb : m'.db = m.db) (hworker : m'.worker = m.worker) : m'.Safe P :=
  ⟨hdb ▸ h.db, fun key job hjob => h.worker key job (hworker ▸ hjob)⟩

omit [DecidableEq ι] in
/-- The worker goes on. -/
theorem safe_working {job : Job} (seen : List Db) (hdb : WellFormed m'.db)
    (hworker : m'.worker = some (key, job)) (hseen : ∀ db ∈ seen, WellFormed db)
    (hwp : Proc.wp (P.Own C key) (fun _ _ => True) job seen) : m'.Safe P := by
  refine ⟨hdb, fun key' job' hjob => ?_⟩
  obtain ⟨rfl, rfl⟩ := Prod.mk.inj (Option.some.inj (hworker.symm.trans hjob))
  exact ⟨seen, hseen, hwp⟩

/-- What the worker has next, where it is safe. -/
theorem Safe.access (hm : m.Safe P) : (m.step .access).Safe P := by
  cases hworker : m.worker with
  | none => simpa only [step, hworker] using hm
  | some work =>
    obtain ⟨key, job⟩ := work
    obtain ⟨seen, hseen, hwp⟩ := hm.worker key job hworker
    cases job with
    | ret r => simpa only [step, hworker] using hm
    | read next =>
      simp only [step, hworker]
      refine safe_working _ hm.db rfl (List.forall_mem_cons.mpr ⟨hm.db, hseen⟩) (hwp m.db)
    | write call next =>
      simp only [step, hworker]
      exact safe_working _ (ApiCall.wellFormed_exec hm.db rfl (hwp.1 hseen).1) rfl hseen (hwp.2 _)

theorem Safe.fail (hm : m.Safe P) (e : ApiError) (done : Bool) : (m.step (.fail e done)).Safe P := by
  cases hworker : m.worker with
  | none => simpa only [step, hworker] using hm
  | some work =>
    obtain ⟨key, job⟩ := work
    obtain ⟨seen, hseen, hwp⟩ := hm.worker key job hworker
    cases job with
    | ret r => simpa only [step, hworker] using hm
    | read next => simpa only [step, hworker] using hm
    | write call next =>
      simp only [step, hworker]
      cases done with
      | true => exact safe_working _ (ApiCall.wellFormed_exec hm.db rfl (hwp.1 hseen).1) rfl hseen (hwp.2 _)
      | false => exact safe_working _ hm.db rfl hseen (hwp.2 _)

theorem Safe.get (hs : P.Served C) (hm : m.Safe P) (stamp : Stamp) : (m.step (.get stamp)).Safe P := by
  simp only [step]
  split
  · rename_i key queue _ _
    refine safe_working [] hm.db rfl (List.forall_mem_nil _) ?_
    exact Proc.wp_mono (fun _ _ h => h) (fun _ _ _ => trivial) (hs.own stamp key)
  · exact hm

omit [DecidableEq ι] in
theorem Safe.idle (hdb : WellFormed m'.db) (hworker : m'.worker = none) : m'.Safe P := by
  refine ⟨hdb, fun key job hjob => ?_⟩
  rw [hworker] at hjob
  cases hjob

theorem Safe.step (hs : P.Served C) (hm : m.Safe P) (act : ManagerAct ι) : (m.step act).Safe P := by
  cases act with
  | write w => exact ⟨hm.db.write w, hm.worker⟩
  | connect i =>
    simp only [Manager.step]
    split
    · exact hm.congr rfl rfl
    · exact hm
  | poll i => exact hm.congr rfl rfl
  | disconnect i => exact hm.congr rfl rfl
  | handle i answered =>
    simp only [Manager.step]
    split
    · exact hm.congr rfl rfl
    · exact hm
  | resync => exact hm.congr rfl rfl
  | get stamp => exact hm.get hs stamp
  | access => exact hm.access
  | fail e done => exact hm.fail e done
  | unreachable e =>
    simp only [Manager.step]
    split
    · exact safe_working [] hm.db rfl (List.forall_mem_nil _) trivial
    · exact hm
  | finish =>
    simp only [Manager.step]
    split
    · rename_i key r hworker
      obtain ⟨hnone, hdb⟩ := m.finish_frame key r
      exact Safe.idle (hdb ▸ hm.db) hnone
    · exact hm
  | fire n =>
    simp only [Manager.step]
    split
    · exact hm.congr rfl rfl
    · exact hm
  | crash => exact safe_start hm.db

/-- As a machine of the library. -/
def machine (P : Purpose) : Levels.Machine (Manager C) (ManagerAct ι) String :=
  ⟨step, Owes, fun m act k => m.Misses P k act⟩

/-- What has been missed was not owed since some time before, or it was missed after that. -/
theorem missed_append {past rest : List (ManagerAct ι)} (h : m.Missed P (past ++ rest) k) :
    ¬ (m.run past).Owes k ∨
      ∃ mid act, mid ++ [act] <+: rest ∧ (m.run (past ++ mid)).Misses P k act :=
  @Levels.Machine.missed_append _ _ _ (machine P) (P.outdated · m.db) m past rest k h

/-- **Along every run**, a key that is neither owed nor missed is in the hands of the worker, or is not
outdated. -/
theorem inv_run (hs : P.Served C) {db : Db} (hdb : WellFormed db) (acts : List (ManagerAct ι)) :
    ((start db : Manager C).run acts).Safe P ∧
      P.scheme.Inv (((start db : Manager C).run acts).levels
        {k | (start db : Manager C).Missed P acts k}) := by
  have hpre := hs.isPreorder
  exact @Levels.Machine.inv_run _ _ _ _ _ _ _ _ (machine P) P.scheme (Safe P) Manager.db Manager.worker
    (start db) hpre (fun m act hm => hm.step hs act) (fun m act missed hm => levels_step hs hm act)
    (fun k t t' hkeeps => hs.outdated k t t' hkeeps.2) (safe_start hdb) rfl (fun k => not_owes_start db) acts

/-- A key that is outdated is owed, or at the worker, or has been missed. -/
theorem outdated_cases (hs : P.Served C) {db : Db} (hdb : WellFormed db) (acts : List (ManagerAct ι))
    (hout : P.outdated k ((start db : Manager C).run acts).db) :
    ((start db : Manager C).run acts).Owes k ∨ ((start db : Manager C).run acts).Working k ∨
      (start db : Manager C).Missed P acts k := by
  rcases (inv_run hs hdb acts).2.pending_or_working hout with (howes | hmissed) | hworking
  · exact .inl howes
  · exact .inr (.inr hmissed)
  · exact .inr (.inl hworking)

/-- **Settled.** A key that has been owed is not outdated when, without being missed since, it is neither
owed nor at the worker any more. -/
theorem settled (hs : P.Served C) {db : Db} (hdb : WellFormed db) {past rest : List (ManagerAct ι)}
    (howed : ((start db : Manager C).run past).Owes k)
    (hrest : ∀ mid act, mid ++ [act] <+: rest → ¬ ((start db : Manager C).run (past ++ mid)).Misses P k act)
    (howes : ¬ ((start db : Manager C).run (past ++ rest)).Owes k)
    (hworking : ¬ ((start db : Manager C).run (past ++ rest)).Working k) :
    ¬ P.outdated k ((start db : Manager C).run (past ++ rest)).db := by
  intro hout
  rcases outdated_cases hs hdb _ hout with hno | hno | hmissed
  · exact howes hno
  · exact hworking hno
  · rcases missed_append hmissed with hno | ⟨mid, act, hmid, hmisses⟩
    · exact hno howed
    · exact hrest mid act hmid hmisses

/-! ## Live streams -/

/-- No stream waits for events that are older than the counter. -/
def UpToCounter (m : Manager C) : Prop :=
  ∀ i s rv, m.feeds i = some s → s.phase = .live rv → rv ≤ currentRv m.db

/-- All informers have a live stream. -/
def Live (m : Manager C) : Prop := ∀ i, ∃ s rv, m.feeds i = some s ∧ s.phase = .live rv

omit [DecidableEq ι] in
theorem UpToCounter.commit (h : m.UpToCounter) (call : StoreCall) : (m.commit call).UpToCounter := by
  intro i s rv hs hphase
  obtain ⟨s, hold, rfl⟩ := Option.map_eq_some_iff.mp (show (m.feeds i).map _ = some s from hs)
  rw [Stream.phase_receive] at hphase
  exact (h i s rv hold hphase).trans (stores_lawful.count_le m.db (call, .none))

omit [DecidableEq ι] in
theorem UpToCounter.congr (h : m.UpToCounter) (hdb : m'.db = m.db) (hfeeds : m'.feeds = m.feeds) :
    m'.UpToCounter := by
  unfold UpToCounter at h ⊢
  rw [hdb, hfeeds]
  exact h

theorem UpToCounter.update {i : ι} {o : Option (Stream (C.kind i).Obj)} (h : m.UpToCounter)
    (hdb : m'.db = m.db) (hfeeds : m'.feeds = Function.update m.feeds i o)
    (hi : ∀ s rv, o = some s → s.phase = .live rv → rv ≤ currentRv m.db) : m'.UpToCounter := by
  intro j s rv hs hphase
  rw [hfeeds] at hs
  rw [hdb]
  by_cases hj : j = i
  · subst hj
    rw [Function.update_self] at hs
    exact hi s rv hs hphase
  · rw [Function.update_of_ne hj] at hs
    exact h j s rv hs hphase

theorem UpToCounter.step (h : m.UpToCounter) (act : ManagerAct ι) : (m.step act).UpToCounter := by
  cases act with
  | write w => exact h.commit w.call
  | connect i =>
    simp only [Manager.step]
    split
    · refine h.update rfl rfl fun s rv hs hphase => ?_
      cases hs
      cases hphase
    · exact h
  | poll i =>
    refine h.update rfl rfl fun s' rv hs' hphase => ?_
    obtain ⟨s, hs, rfl⟩ := Option.map_eq_some_iff.mp hs'
    rcases Stream.phase_poll_eq_live hphase with hold | rfl
    · exact h i s rv hs hold
    · exact le_rfl
  | disconnect i =>
    exact h.update rfl rfl fun s rv hs => by cases hs
  | handle i answered =>
    simp only [Manager.step]
    split
    · rename_i phase queue event rest hs
      refine h.update rfl rfl fun s' rv hs' hphase => ?_
      cases hs'
      exact h i _ rv hs hphase
    · exact h
  | resync => exact h.congr rfl rfl
  | get stamp =>
    simp only [Manager.step]
    split
    · exact h.congr rfl rfl
    · exact h
  | access =>
    simp only [Manager.step]
    split
    · exact h.congr rfl rfl
    · exact UpToCounter.congr (h.commit _) rfl rfl
    · exact h
  | fail e done =>
    simp only [Manager.step]
    split
    · cases done
      · exact h.congr rfl rfl
      · exact UpToCounter.congr (h.commit _) rfl rfl
    · exact h
  | unreachable e =>
    simp only [Manager.step]
    split
    · exact h.congr rfl rfl
    · exact h
  | finish =>
    simp only [Manager.step]
    split
    · rename_i key r _
      cases r <;> exact h.congr rfl rfl
    · exact h
  | fire n =>
    simp only [Manager.step]
    split
    · exact h.congr rfl rfl
    · exact h
  | crash =>
    intro i s rv hs
    cases hs

theorem upToCounter_run (db : Db) (acts : List (ManagerAct ι)) :
    ((start db : Manager C).run acts).UpToCounter := by
  induction acts using List.reverseRecOn with
  | nil =>
    intro i s rv hs
    cases hs
  | append_singleton acts act ih =>
    rw [run_concat]
    exact ih.step act

omit [DecidableEq ι] in
theorem Live.commit (h : m.Live) (call : StoreCall) : (m.commit call).Live := by
  intro i
  obtain ⟨s, rv, hs, hphase⟩ := h i
  exact ⟨_, rv, feeds_commit hs, by rw [Stream.phase_receive, hphase]⟩

/-- Streams stay live until they end. -/
theorem Live.step (h : m.Live) {act : ManagerAct ι} (hend : ∀ i, act ≠ .disconnect i)
    (hcrash : act ≠ .crash) : (m.step act).Live := by
  have hupdate : ∀ i (s : Stream (C.kind i).Obj) rv, s.phase = .live rv → ∀ m' : Manager C,
      m'.feeds = Function.update m.feeds i (some s) → m'.Live := by
    intro i s rv hphase m' hfeeds j
    rw [hfeeds]
    by_cases hj : j = i
    · subst hj
      exact ⟨s, rv, Function.update_self .., hphase⟩
    · rw [Function.update_of_ne hj]
      exact h j
  cases act with
  | write w => exact h.commit w.call
  | connect i =>
    obtain ⟨s, rv, hs, -⟩ := h i
    simp only [Manager.step, hs]
    exact h
  | poll i =>
    obtain ⟨s, rv, hs, hphase⟩ := h i
    exact hupdate i _ rv (Stream.phase_poll_live hphase) _ (by simp only [Manager.step, hs]; rfl)
  | disconnect i => exact absurd rfl (hend i)
  | handle i answered =>
    obtain ⟨s, rv, hs, hphase⟩ := h i
    simp only [Manager.step]
    split
    · rename_i phase queue event rest hs'
      cases Option.some.inj (hs.symm.trans hs')
      exact hupdate i ⟨phase, queue, rest⟩ rv hphase _ rfl
    · exact h
  | resync => exact h
  | get stamp =>
    simp only [Manager.step]
    split <;> exact h
  | access =>
    simp only [Manager.step]
    split
    · exact h
    · exact h.commit _
    · exact h
  | fail e done =>
    simp only [Manager.step]
    split
    · cases done
      · exact h
      · exact h.commit _
    · exact h
  | unreachable e =>
    simp only [Manager.step]
    split <;> exact h
  | finish =>
    simp only [Manager.step]
    split
    · rename_i key r _
      cases r <;> exact h
    · exact h
  | fire n =>
    simp only [Manager.step]
    split <;> exact h
  | crash => exact absurd rfl hcrash

/-- In a run where no stream ends and the manager goes on, live streams stay live. -/
theorem live_run (calm : Manager C → ManagerAct ι → Prop) (hend : ∀ m i, ¬ calm m (.disconnect i))
    (hcrash : ∀ m, ¬ calm m .crash) {past rest : List (ManagerAct ι)} (hlive : (m.run past).Live)
    (hcalm : ∀ mid act, mid ++ [act] <+: rest → calm (m.run (past ++ mid)) act) :
    ∀ mid, mid <+: rest → (m.run (past ++ mid)).Live := by
  refine Runs.prefix_induction (by rwa [List.append_nil]) fun mid act hmid ih => ?_
  rw [← List.append_assoc, run_concat]
  have hact := hcalm mid act hmid
  refine ih.step ?_ ?_
  · rintro i rfl
    exact hend _ i hact
  · rintro rfl
    exact hcrash _ hact


omit [DecidableEq ι] in
/-- A live stream hears of every write, as long as the counter counts. -/
theorem UpToCounter.hears (h : m.UpToCounter) (hwf : WellFormed m.db) (hmax : currentRv m.db < u64Max)
    {i : ι} {s : Stream (C.kind i).Obj} {rv : ℕ} (hs : m.feeds i = some s) (hphase : s.phase = .live rv)
    {w : Write} {event : WatchEvent (C.kind i).Obj} (hevent : event ∈ w.events (C.kind i) m.db) :
    s.Hears (fromZero _) event := by
  rcases w.cases hwf (C.kind i) with ⟨hno, -⟩ | ⟨e, he, -, hrv, -⟩
  · rw [hno] at hevent
    cases hevent
  · rw [he] at hevent
    obtain rfl := List.mem_singleton.mp hevent
    refine ⟨rv, hphase, ?_⟩
    have hle := h i s rv hs hphase
    rw [saturatingSucc, if_pos hmax] at hrv
    simp only [Stream.forwards, fromZero, Bool.and_true, decide_eq_true_eq]
    omega

end Steps

end Manager

end MyK8s.Controller
