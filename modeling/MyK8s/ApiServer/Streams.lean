import MyK8s.Lib.Runs
import MyK8s.ApiServer.Watch

/-!
# Watch streams

`stream_events` of `src/apiserver/watch.rs`: subscribe, scan the objects, read the counter, yield
what has been scanned, and from then on forward the events that are newer than the counter. Each is
a step of the stream (`Stream.poll`), and writes to the store come in between. The channel never
lags.

The client that has read all of the stream has a copy of the store, or not:
`watch_complete_iff` for a write between the two reads of the snapshot, `filtered_watch_iff` for
objects that stop matching a filter, `resume_iff` for objects deleted while the client was away.
-/

namespace MyK8s.ApiServer

open ResourceMeta (getMeta)

/-! ## A stream -/

/-- How far a stream has got. -/
inductive Phase (T : Type)
  | opened
  | subscribed
  | scanned (items : List T)
  | live (snapshotRv : ℕ)
  | failed (e : StoreError)

/-- A stream: what its receiver has in its queue, and what it has yielded. -/
structure Stream (T : Type) where
  phase : Phase T
  queue : List (WatchEvent T)
  yielded : List (WatchEvent T)

/-- The arguments of `stream_events`. -/
structure Params (T : Type) where
  fromRv : ℕ
  filter : T → Bool

section Steps

variable {T : Type} [ResourceMeta T]

/-- The objects of the snapshot that are yielded. -/
def Params.shows (params : Params T) (obj : T) : Bool :=
  decide (params.fromRv < resourceRv obj) && params.filter obj

namespace Stream

def closed : Stream T := ⟨.opened, [], []⟩

/-- An event goes to the receivers that exist. -/
def receive (events : List (WatchEvent T)) (s : Stream T) : Stream T :=
  match s.phase with
  | .opened => s
  | .failed _ => s
  | _ => { s with queue := s.queue ++ events }

/-- The events of the live phase that are forwarded. -/
def forwards (params : Params T) (snapshotRv : ℕ) (event : WatchEvent T) : Bool :=
  decide (snapshotRv < resourceRv event.object) && params.filter event.object

def catchUp (params : Params T) (items : List T) : List (WatchEvent T) :=
  (items.filter params.shows).map fun obj => ⟨.added, obj⟩

/-- The next step of the stream, on what the database is now. -/
def poll (params : Params T) (db : Db) (s : Stream T) : Stream T :=
  match s.phase with
  | .opened => { s with phase := .subscribed }
  | .subscribed =>
    match ResourceStore.items T db with
    | .ok items => { s with phase := .scanned items }
    | .error e => { s with phase := .failed e }
  | .scanned items =>
    { s with phase := .live (currentRv db), yielded := catchUp params items }
  | .live snapshotRv =>
    match s.queue with
    | [] => s
    | event :: queue =>
      { s with
        queue := queue
        yielded := s.yielded ++ if forwards params snapshotRv event then [event] else [] }
  | .failed _ => s

/-- All that is in the queue is read. -/
def drain (params : Params T) (db : Db) (s : Stream T) : Stream T :=
  (poll params db)^[s.queue.length] s

/-- What the client of a live stream has been sent, when it has read all of it. -/
def received (params : Params T) (snapshotRv : ℕ) (s : Stream T) : List (WatchEvent T) :=
  s.yielded ++ s.queue.filter (forwards params snapshotRv)

variable {params : Params T} {db : Db} {s : Stream T} {rv : ℕ}

omit [ResourceMeta T] in
@[simp] theorem phase_receive (events : List (WatchEvent T)) :
    (s.receive events).phase = s.phase := by
  unfold receive
  split <;> rfl

omit [ResourceMeta T] in
@[simp] theorem yielded_receive (events : List (WatchEvent T)) :
    (s.receive events).yielded = s.yielded := by
  unfold receive
  split <;> rfl

omit [ResourceMeta T] in
theorem mem_queue_receive {events : List (WatchEvent T)} {event : WatchEvent T}
    (h : event ∈ (s.receive events).queue) : event ∈ s.queue ∨ event ∈ events := by
  unfold receive at h
  split at h
  · exact .inl h
  · exact .inl h
  · exact List.mem_append.mp h

theorem phase_poll_live (hs : s.phase = .live rv) : (s.poll params db).phase = .live rv := by
  obtain ⟨phase, queue, yielded⟩ := s
  obtain rfl : phase = .live rv := hs
  cases queue with
  | nil => rfl
  | cons event queue => rfl

/-- Reading the queue is what the client has been sent already. -/
theorem received_poll (hs : s.phase = .live rv) :
    (s.poll params db).received params rv = s.received params rv := by
  obtain ⟨phase, queue, yielded⟩ := s
  obtain rfl : phase = .live rv := hs
  cases queue with
  | nil => rfl
  | cons event queue =>
    unfold received
    by_cases hf : forwards params rv event
    · simp [poll, hf]
    · simp [poll, hf]

theorem received_receive (hs : s.phase = .live rv) (events : List (WatchEvent T)) :
    (s.receive events).received params rv =
      s.received params rv ++ events.filter (forwards params rv) := by
  unfold receive received
  rw [hs]
  simp

theorem mem_queue_poll {event : WatchEvent T} (h : event ∈ (s.poll params db).queue) :
    event ∈ s.queue := by
  obtain ⟨phase, queue, yielded⟩ := s
  unfold poll at h
  cases phase with
  | subscribed =>
    simp only at h
    split at h
    · exact h
    · exact h
  | live rv =>
    cases queue with
    | nil => exact h
    | cons e queue => exact List.mem_cons_of_mem e h
  | _ => exact h

/-- The threshold of a live stream is what the counter was when it became live. -/
theorem phase_poll_eq_live (h : (s.poll params db).phase = .live rv) :
    s.phase = .live rv ∨ rv = currentRv db := by
  obtain ⟨phase, queue, yielded⟩ := s
  unfold poll at h
  cases phase with
  | opened => cases h
  | subscribed =>
    simp only at h
    split at h
    · cases h
    · cases h
  | scanned items => exact .inr (Phase.live.inj h).symm
  | live rv' =>
    cases queue with
    | nil => exact .inl h
    | cons e queue => exact .inl h
  | failed e => cases h

theorem yielded_poll (h : ∀ rv, (s.poll params db).phase ≠ .live rv) :
    (s.poll params db).yielded = s.yielded ∧ ∀ rv, s.phase ≠ .live rv := by
  obtain ⟨phase, queue, yielded⟩ := s
  cases phase with
  | opened => exact ⟨rfl, fun _ hrv => by cases hrv⟩
  | subscribed =>
    refine ⟨?_, fun _ hrv => by cases hrv⟩
    unfold poll
    simp only
    split <;> rfl
  | scanned items => exact absurd rfl (h (currentRv db))
  | live rv => exact absurd (phase_poll_live rfl) (h rv)
  | failed e => exact ⟨rfl, fun _ hrv => by cases hrv⟩

theorem yielded_drain (hs : s.phase = .live rv) :
    (s.drain params db).yielded = s.received params rv := by
  obtain ⟨phase, queue, yielded⟩ := s
  obtain rfl : phase = .live rv := hs
  induction queue generalizing yielded with
  | nil => simp [drain, received]
  | cons event queue ih =>
    have hdrain : drain params db ⟨.live rv, event :: queue, yielded⟩ =
        drain params db (poll params db ⟨.live rv, event :: queue, yielded⟩) := rfl
    calc (drain params db ⟨.live rv, event :: queue, yielded⟩).yielded
        = (drain params db (poll params db ⟨.live rv, event :: queue, yielded⟩)).yielded := by
          rw [hdrain]
      _ = received params rv (poll params db ⟨.live rv, event :: queue, yielded⟩) := ih _
      _ = received params rv ⟨.live rv, event :: queue, yielded⟩ := received_poll rfl

end Stream

/-! ## The snapshot -/

theorem getElem?_foldl_added {objs : List T} (hnodup : (objs.map fun obj => (getMeta obj).name).Nodup)
    (cache : Cache T) {obj : T} (hobj : obj ∈ objs) :
    ((objs.map fun obj => ⟨.added, obj⟩).foldl applyWatchEvent cache)[(getMeta obj).name]? =
      some obj := by
  induction objs generalizing cache with
  | nil => cases hobj
  | cons o objs ih =>
    rw [List.map_cons, List.nodup_cons] at hnodup
    rw [List.map_cons, List.foldl_cons]
    rcases List.mem_cons.mp hobj with rfl | hobj
    · rw [getElem?_foldl_of_forall_ne, getElem?_applyWatchEvent]
      · simp [WatchEvent.name, WatchEvent.value]
      · intro event hevent
        obtain ⟨o, ho, rfl⟩ := List.mem_map.mp hevent
        intro heq
        exact hnodup.1 (List.mem_map.mpr ⟨o, ho, heq⟩)
    · exact ih hnodup.2 _ hobj

end Steps

/-- What a client has under a name when it has been sent the snapshot of a well-formed database: the
stored object, if it is shown, and else what it had before. -/
theorem getElem?_foldl_catchUp {kind : Kind} {db : Db} (h : WellFormed db)
    {items : List kind.Obj} (hitems : ResourceStore.items kind.Obj db = .ok items)
    (params : Params kind.Obj) (base : Cache kind.Obj) (name : String) :
    ((Stream.catchUp params items).foldl applyWatchEvent base)[name]? =
      ((stored kind db name).filter params.shows).or base[name]? := by
  obtain ⟨objs, hobjs, hmem, hnodup⟩ := h.items_ok kind
  obtain rfl := Except.ok.inj (hitems.symm.trans hobjs)
  unfold Stream.catchUp
  have hshown : ((items.filter params.shows).map fun obj => (getMeta obj).name).Nodup :=
    hnodup.sublist (List.filter_sublist.map _)
  cases hv : (stored kind db name).filter params.shows with
  | some obj =>
    obtain ⟨hs, hshow⟩ := Option.filter_eq_some_iff.mp hv
    obtain ⟨rfl, hstored⟩ := h.stored_eq_some.mp hs
    rw [Option.some_or]
    exact getElem?_foldl_added hshown base
      (List.mem_filter.mpr ⟨(hmem obj).mpr hstored, hshow⟩)
  | none =>
    rw [Option.none_or]
    refine getElem?_foldl_of_forall_ne ?_ base
    intro event hevent heq
    obtain ⟨obj, hobj, rfl⟩ := List.mem_map.mp hevent
    obtain ⟨hobj, hshow⟩ := List.mem_filter.mp hobj
    have hs : stored kind db name = some obj := h.stored_eq_some.mpr ⟨heq, (hmem obj).mp hobj⟩
    rw [hs, Option.filter_some, if_pos hshow] at hv
    cases hv

/-! ## A store and a stream -/

/-- The database and one stream on the objects of a kind. -/
structure Watched (kind : Kind) where
  db : Db
  stream : Stream kind.Obj

inductive Act
  | write (w : Write)
  | poll

namespace Watched

variable {kind : Kind}

/-- A write commits and emits in one step. -/
def step (params : Params kind.Obj) (s : Watched kind) : Act → Watched kind
  | .write w => ⟨w.step s.db, s.stream.receive (w.events kind s.db)⟩
  | .poll => { s with stream := s.stream.poll params s.db }

@[simp] theorem db_step_write (params : Params kind.Obj) (s : Watched kind) (w : Write) :
    (s.step params (.write w)).db = w.step s.db := rfl

@[simp] theorem db_step_poll (params : Params kind.Obj) (s : Watched kind) :
    (s.step params .poll).db = s.db := rfl

def run (params : Params kind.Obj) (s : Watched kind) (acts : List Act) : Watched kind :=
  acts.foldl (step params) s

/-- The cache of a client that has read all events that were emitted. -/
def cache (params : Params kind.Obj) (base : Cache kind.Obj) (s : Watched kind) : Cache kind.Obj :=
  (s.stream.drain params s.db).yielded.foldl applyWatchEvent base

/-- The stream before its first step, on a database. -/
def start (db : Db) : Watched kind := ⟨db, .closed⟩

/-- What holds of the store and the stream at all times: nothing in the queue is newer than the
counter, and nothing has been yielded before the snapshot. -/
structure Inv (s : Watched kind) : Prop where
  db : WellFormed s.db
  queue : ∀ event ∈ s.stream.queue, resourceRv event.object ≤ currentRv s.db
  yielded : (∀ rv, s.stream.phase ≠ .live rv) → s.stream.yielded = []
  live : ∀ rv, s.stream.phase = .live rv → rv ≤ currentRv s.db

theorem inv_start {db : Db} (h : WellFormed db) : (start db : Watched kind).Inv where
  db := h
  queue := by simp [start, Stream.closed]
  yielded _ := rfl
  live rv hrv := by cases hrv

theorem Inv.step {s : Watched kind} (h : s.Inv) (params : Params kind.Obj) (act : Act) :
    (s.step params act).Inv := by
  cases act with
  | write w =>
    have hle : currentRv s.db ≤ currentRv (w.step s.db) := stores_lawful.count_le _ _
    refine ⟨h.db.write w, fun event hevent => ?_, fun hlive => ?_, fun rv hrv => ?_⟩
    · rcases Stream.mem_queue_receive hevent with hold | hnew
      · exact (h.queue event hold).trans hle
      · rcases w.cases h.db kind with ⟨hno, -⟩ | ⟨e, he, hcount, hrv, -⟩
        · rw [hno] at hnew
          cases hnew
        · rw [he] at hnew
          obtain rfl := List.mem_singleton.mp hnew
          exact (hrv.trans hcount.symm).le
    · simp only [Watched.step, Stream.phase_receive, Stream.yielded_receive] at hlive ⊢
      exact h.yielded hlive
    · simp only [Watched.step, Stream.phase_receive] at hrv
      exact (h.live rv hrv).trans hle
  | poll =>
    refine ⟨h.db, fun event hevent => h.queue event (Stream.mem_queue_poll hevent), fun hlive => ?_,
      fun rv hrv => ?_⟩
    · obtain ⟨hyielded, hold⟩ := Stream.yielded_poll hlive
      exact hyielded.trans (h.yielded hold)
    · rcases Stream.phase_poll_eq_live hrv with hold | rfl
      · exact h.live rv hold
      · exact le_rfl

theorem Inv.run {s : Watched kind} (h : s.Inv) (params : Params kind.Obj) (acts : List Act) :
    (s.run params acts).Inv := by
  have hstep : ∀ (s : Watched kind) (act : Act), s.Inv → True → (s.step params act).Inv :=
    fun _ act hs _ => hs.step params act
  exact Runs.invariant_of_ok hstep h (fun _ _ _ => trivial) acts List.prefix_rfl

/-! ## The live phase -/

section Live

variable {params : Params kind.Obj} {base : Cache kind.Obj} {s : Watched kind} {rv : ℕ}

theorem cache_eq (hs : s.stream.phase = .live rv) :
    s.cache params base = (s.stream.received params rv).foldl applyWatchEvent base := by
  unfold cache
  rw [Stream.yielded_drain hs]

theorem phase_step_live (hs : s.stream.phase = .live rv) (act : Act) :
    (s.step params act).stream.phase = .live rv := by
  cases act with
  | write w => exact (Stream.phase_receive _).trans hs
  | poll => exact Stream.phase_poll_live hs

theorem phase_run_live (hs : s.stream.phase = .live rv) (acts : List Act) :
    (s.run params acts).stream.phase = .live rv := by
  induction acts generalizing s with
  | nil => exact hs
  | cons act acts ih => exact ih (phase_step_live hs act)

theorem cache_poll (params : Params kind.Obj) (base : Cache kind.Obj)
    (hs : s.stream.phase = .live rv) :
    (s.step params .poll).cache params base = s.cache params base := by
  rw [cache_eq (phase_step_live hs .poll), cache_eq hs]
  exact congrArg _ (Stream.received_poll hs)

/-- **A write in the live phase**: nothing happens to store and cache, or the object that it leaves
is in the store and, if its event passes the filter, in the cache. -/
theorem cache_write (params : Params kind.Obj) (base : Cache kind.Obj) (h : s.Inv)
    (hs : s.stream.phase = .live rv) (hrv : rv < u64Max) (w : Write) :
    (w.events kind s.db = [] ∧ (∀ name, stored kind (w.step s.db) name = stored kind s.db name) ∧
      (s.step params (.write w)).cache params base = s.cache params base) ∨
    ∃ event, w.events kind s.db = [event] ∧
      (∀ name, stored kind (w.step s.db) name =
        if event.name = name then event.value else stored kind s.db name) ∧
      ∀ name, ((s.step params (.write w)).cache params base)[name]? =
        if event.name = name ∧ params.filter event.object = true then event.value
        else (s.cache params base)[name]? := by
  have hcache : (s.step params (.write w)).cache params base =
      ((w.events kind s.db).filter (Stream.forwards params rv)).foldl applyWatchEvent
        (s.cache params base) := by
    rw [cache_eq (phase_step_live hs (.write w)), cache_eq hs, ← List.foldl_append]
    exact congrArg _ (Stream.received_receive hs _)
  rcases w.cases h.db kind with ⟨hno, hstored⟩ | ⟨event, hevent, -, hversion, hstored⟩
  · rw [hno] at hcache
    exact .inl ⟨hno, hstored, hcache⟩
  · refine .inr ⟨event, hevent, hstored, fun name => ?_⟩
    have hnew : rv < resourceRv event.object := by
      have hle := h.live rv hs
      rw [hversion]
      unfold saturatingSucc
      split <;> omega
    have hforward : Stream.forwards params rv event = params.filter event.object := by
      simp [Stream.forwards, hnew]
    rw [hcache, hevent]
    by_cases hf : params.filter event.object = true
    · simp [hforward, hf]
    · simp [hforward, hf]

/-- The events that the writes of a run send. -/
def sent (kind : Kind) : Db → List Act → List (WatchEvent kind.Obj)
  | _, [] => []
  | db, .poll :: acts => sent kind db acts
  | db, .write w :: acts => w.events kind db ++ sent kind (w.step db) acts

/-- The client of a stream without a filter has what is stored under the name. -/
def Agrees (params : Params kind.Obj) (base : Cache kind.Obj) (s : Watched kind) (name : String) :
    Prop := stored kind s.db name = (s.cache params base)[name]?

theorem agrees_write_iff (h : s.Inv) (hs : s.stream.phase = .live rv) (hrv : rv < u64Max)
    (hall : ∀ obj, params.filter obj = true) (w : Write) (name : String) :
    Agrees params base (s.step params (.write w)) name ↔
      Agrees params base s name ∨ ∃ event ∈ w.events kind s.db, event.name = name := by
  unfold Agrees
  rcases cache_write params base h hs hrv w with ⟨hno, hstored, hcache⟩ | ⟨event, hevent, hstored, hcache⟩
  · rw [hcache, hno]
    simp only [Watched.step, hstored, List.not_mem_nil, false_and, exists_false, or_false]
  · rw [hcache, hevent]
    simp only [Watched.step, hstored, hall, and_true, List.mem_singleton, exists_eq_left]
    by_cases hn : event.name = name
    · simp [hn]
    · simp [hn]

/-- **The live phase** of a stream without a filter: in the end the client has what is stored under
the name, if it had in the beginning or if the object has been written since. -/
theorem agrees_run_iff (h : s.Inv) (hs : s.stream.phase = .live rv) (hrv : rv < u64Max)
    (hall : ∀ obj, params.filter obj = true) (acts : List Act) (name : String) :
    Agrees params base (s.run params acts) name ↔
      Agrees params base s name ∨ ∃ event ∈ sent kind s.db acts, event.name = name := by
  induction acts generalizing s with
  | nil => simp [run, sent]
  | cons act acts ih =>
    refine (ih (h.step params act) (phase_step_live hs act)).trans ?_
    cases act with
    | write w =>
      rw [agrees_write_iff h hs hrv hall w name]
      simp only [sent, List.mem_append, or_and_right, exists_or, or_assoc, Watched.step]
    | poll =>
      have hkept : Agrees params base (s.step params .poll) name ↔ Agrees params base s name := by
        unfold Agrees
        rw [cache_poll params base hs]
        rfl
      rw [hkept]
      rfl

/-- The snapshot is complete: what has been emitted by now is not newer than the counter. -/
theorem cache_of_scanned (params : Params kind.Obj) (base : Cache kind.Obj) (h : s.Inv)
    {items : List kind.Obj} (hs : s.stream.phase = .scanned items) :
    (s.step params .poll).stream.phase = .live (currentRv s.db) ∧
      (s.step params .poll).cache params base =
        (Stream.catchUp params items).foldl applyWatchEvent base := by
  obtain ⟨db, ⟨phase, queue, yielded⟩⟩ := s
  obtain rfl : phase = .scanned items := hs
  refine ⟨rfl, ?_⟩
  rw [cache_eq rfl]
  have hold : queue.filter (Stream.forwards params (currentRv db)) = [] := by
    rw [List.filter_eq_nil_iff]
    intro event hevent
    have hle : resourceRv event.object ≤ currentRv db := h.queue event hevent
    simp only [Stream.forwards, Bool.and_eq_true, decide_eq_true_eq]
    omega
  simp [Stream.received, Watched.step, Stream.poll, hold]

end Live

/-! ## The snapshot and the writes -/

section Snapshot

variable (params : Params kind.Obj) (base : Cache kind.Obj) {s : Watched kind}

theorem phase_poll_subscribed (hs : s.stream.phase = .subscribed) {items : List kind.Obj}
    (hitems : ResourceStore.items kind.Obj s.db = .ok items) :
    (s.step params .poll).stream.phase = .scanned items := by
  obtain ⟨db, ⟨phase, queue, yielded⟩⟩ := s
  obtain rfl : phase = .subscribed := hs
  simp only [Watched.step, Stream.poll, hitems]

/-- While the stream is at the same step, writes change the store and the queue. -/
theorem run_writes (writes : List Write) :
    (s.run params (writes.map .write)).db = writes.foldl Write.step s.db ∧
      (s.run params (writes.map .write)).stream.phase = s.stream.phase := by
  induction writes generalizing s with
  | nil => exact ⟨rfl, rfl⟩
  | cons w writes ih =>
    obtain ⟨hdb, hphase⟩ := @ih (s.step params (.write w))
    exact ⟨hdb, hphase.trans (Stream.phase_receive _)⟩

/-- From revision 0 on, everything that is stored is new. -/
theorem filter_shows {db : Db} (h : WellFormed db) (hzero : params.fromRv = 0) (name : String) :
    (stored kind db name).filter params.shows = (stored kind db name).filter params.filter := by
  cases hs : stored kind db name with
  | none => rfl
  | some obj =>
    have hpos := (h.resourceRv_stored hs).1
    have hshow : params.shows obj = params.filter obj := by simp [Params.shows, hzero, hpos]
    rw [Option.filter_some, Option.filter_some, hshow]

/-- From the scan to the read of the counter: the client has what the scan has found, whatever has
been written in between. -/
theorem cache_of_subscribed (h : s.Inv) (hs : s.stream.phase = .subscribed) (gap : List Write)
    (name : String) :
    let s' := s.run params (.poll :: gap.map .write ++ [.poll])
    s'.db = gap.foldl Write.step s.db ∧ s'.stream.phase = .live (currentRv s'.db) ∧
      (s'.cache params base)[name]? =
        ((stored kind s.db name).filter params.shows).or base[name]? := by
  intro s'
  obtain ⟨items, hitems, -, -⟩ := h.db.items_ok kind
  have hscan := phase_poll_subscribed params hs hitems
  obtain ⟨hdb, hphase⟩ := run_writes params gap (s := s.step params .poll)
  rw [hscan] at hphase
  have hrun : s' = ((s.step params .poll).run params (gap.map .write)).step params .poll := by
    simp [s', run]
  have hlive := cache_of_scanned params base ((h.step params .poll).run params (gap.map .write)) hphase
  rw [hrun]
  refine ⟨hdb, hlive.1, ?_⟩
  rw [hlive.2]
  exact getElem?_foldl_catchUp h.db hitems params base name

/-- A stream that is opened while nothing is written. -/
theorem cache_of_opened {db : Db} (h : WellFormed db) :
    let s := (start db : Watched kind).run params [.poll, .poll, .poll]
    s.Inv ∧ s.stream.phase = .live (currentRv db) ∧
      ∀ name, (s.cache params base)[name]? =
        ((stored kind db name).filter params.shows).or base[name]? := by
  intro s
  have hsub : ((start db : Watched kind).run params [.poll]).Inv := (inv_start h).run params _
  refine ⟨(inv_start h).run params _, ?_, fun name => ?_⟩
  · exact (cache_of_subscribed params base hsub rfl [] "").2.1
  · exact (cache_of_subscribed params base hsub rfl [] name).2.2

end Snapshot

end Watched

open Watched (start sent)

/-! ## No write is lost -/

section Claims

variable {kind : Kind}

theorem WellFormed.writes {db : Db} (h : WellFormed db) (writes : List Write) :
    WellFormed (writes.foldl Write.step db) := by
  induction writes generalizing db with
  | nil => exact h
  | cons w writes ih => exact ih (h.write w)

theorem currentRv_le_writes (db : Db) (writes : List Write) :
    currentRv db ≤ currentRv (writes.foldl Write.step db) := by
  induction writes generalizing db with
  | nil => exact le_rfl
  | cons w writes ih => exact (stores_lawful.count_le _ _).trans (ih (w.step db))

/-- A stream without a filter. -/
def Params.everything (kind : Kind) (fromRv : ℕ) : Params kind.Obj := ⟨fromRv, fun _ => true⟩

/-- The client that has read all events has the objects of the store. -/
def Mirrors (params : Params kind.Obj) (base : Cache kind.Obj) (s : Watched kind) : Prop :=
  ∀ name, ResourceStore.get kind.Obj s.db name = .ok ((s.cache params base)[name]?)

theorem mirrors_iff {params : Params kind.Obj} {base : Cache kind.Obj} {s : Watched kind}
    (h : s.Inv) : Mirrors params base s ↔ ∀ name, s.Agrees params base name := by
  refine forall_congr' fun name => ?_
  rw [h.db.get_eq, Except.ok.injEq]
  rfl

/-- **The two reads of the snapshot.** In every run of one writer and a stream from revision 0, with
any writes between the steps of the stream: a client that has read everything has the objects of the
store if and only if each object is, when the counter is read, what it was when it was scanned, or
is written again later. -/
theorem watch_complete_iff (kind : Kind) (before : List Act) (gap : List Write) (after : List Act) :
    let params := Params.everything kind 0
    let scanned := (start ∅).run params before
    let counted := scanned.run params (.poll :: gap.map .write ++ [.poll])
    scanned.stream.phase = .subscribed → currentRv counted.db < u64Max →
      (Mirrors params ∅ (counted.run params after) ↔
        ∀ name, ResourceStore.get kind.Obj scanned.db name =
            ResourceStore.get kind.Obj counted.db name ∨
          ∃ event ∈ sent kind counted.db after, event.name = name) := by
  intro params scanned counted hopen hmax
  have hinv : scanned.Inv := (Watched.inv_start .empty).run params before
  have hcounted : counted.Inv := hinv.run params _
  rw [mirrors_iff (hcounted.run params after)]
  refine forall_congr' fun name => ?_
  obtain ⟨-, hlive, hcache⟩ := Watched.cache_of_subscribed params ∅ hinv hopen gap name
  rw [Watched.agrees_run_iff hcounted hlive hmax (fun _ => rfl), hinv.db.get_eq, hcounted.db.get_eq,
    Except.ok.injEq]
  refine or_congr_left ?_
  have hall : (stored kind scanned.db name).filter params.shows = stored kind scanned.db name := by
    rw [Watched.filter_shows params hinv.db rfl]
    cases stored kind scanned.db name <;> rfl
  unfold Watched.Agrees
  rw [hcache, hall]
  simp [eq_comm]

def createPod (name : String) (nodeName : Option String) : Write where
  call := ⟨.pod, .createPrestamped (samplePod name none nodeName)⟩
  addressed := trivial

/-- A pod is written before the stream is opened and another one while it is live. -/
theorem watch_complete_quiet :
    Mirrors (Params.everything .pod 0) ∅
      (((start ∅).run (Params.everything .pod 0) [.write (createPod "a" none), .poll]).run
        (Params.everything .pod 0) [.poll, .poll] |>.run (Params.everything .pod 0)
          [.write (createPod "b" none), .poll]) :=
  (watch_complete_iff .pod [.write (createPod "a" none), .poll] []
    [.write (createPod "b" none), .poll] rfl (by decide +kernel)).mpr fun _ => .inl rfl

/-- A pod that is created between the scan and the read of the counter is never seen. -/
theorem watch_misses_gap : ¬ Mirrors (Params.everything .pod 0) ∅
    ((start ∅).run (Params.everything .pod 0)
      [.poll, .poll, .write (createPod "web" none), .poll, .poll]) := by
  intro h
  have hweb := congrArg (fun r => r.toOption.join.isSome) (h "web")
  revert hweb
  decide +kernel

/-! ## Filters -/

/-- The client that has read all events has the objects of the store that satisfy the filter. -/
def MirrorsFiltered (params : Params kind.Obj) (s : Watched kind) : Prop :=
  ∀ name, (ResourceStore.get kind.Obj s.db name).map (Option.filter params.filter) =
    .ok ((s.cache params ∅)[name]?)

/-- A write that replaces or removes an object that satisfies the filter does so with an event that
satisfies it too. -/
def KeepsFilter (params : Params kind.Obj) (s : Watched kind) : Act → Prop
  | .poll => True
  | .write w => ∀ event ∈ w.events kind s.db, ∀ old,
    ResourceStore.get kind.Obj s.db event.name = .ok (some old) →
      params.filter old = true → params.filter event.object = true

theorem mirrorsFiltered_iff {params : Params kind.Obj} {s : Watched kind} (h : s.Inv) :
    MirrorsFiltered params s ↔
      ∀ name, (stored kind s.db name).filter params.filter = (s.cache params ∅)[name]? := by
  refine forall_congr' fun name => ?_
  rw [h.db.get_eq, Except.map, Except.ok.injEq]

theorem filter_value {event : WatchEvent kind.Obj} (f : kind.Obj → Bool) :
    event.value.filter f = if f event.object = true then event.value else none := by
  unfold WatchEvent.value
  cases event.eventType with
  | deleted => simp
  | _ => rw [Option.filter_some]

theorem mirrorsFiltered_step_iff {params : Params kind.Obj} {s : Watched kind} {rv : ℕ}
    (h : s.Inv) (hs : s.stream.phase = .live rv) (hrv : rv < u64Max)
    (hm : MirrorsFiltered params s) (act : Act) :
    MirrorsFiltered params (s.step params act) ↔ KeepsFilter params s act := by
  rw [mirrorsFiltered_iff h] at hm
  rw [mirrorsFiltered_iff (h.step params act)]
  cases act with
  | poll =>
    rw [Watched.cache_poll params ∅ hs]
    exact iff_of_true hm trivial
  | write w =>
    rcases Watched.cache_write params ∅ h hs hrv w with
      ⟨hno, hstored, hcache⟩ | ⟨event, hevent, hstored, hcache⟩
    · simp only [KeepsFilter, hno, hcache, Watched.db_step_write, hstored]
      exact iff_of_true hm (by simp)
    · simp only [KeepsFilter, hevent, hcache, Watched.db_step_write, hstored, List.mem_singleton,
        forall_eq, h.db.get_eq, Except.ok.injEq]
      constructor
      · intro hall old hold hf
        by_contra hnf
        have hname := hall event.name
        rw [if_pos rfl, filter_value, if_neg hnf, if_neg (fun hc => hnf hc.2), ← hm, hold,
          Option.filter_some, if_pos hf] at hname
        cases hname
      · intro hkeep name
        by_cases hn : event.name = name
        · subst hn
          rw [if_pos rfl, filter_value]
          by_cases hf : params.filter event.object = true
          · rw [if_pos hf, if_pos ⟨rfl, hf⟩]
          · rw [if_neg hf, if_neg (fun hc => hf hc.2), ← hm]
            cases hold : stored kind s.db event.name with
            | none => rfl
            | some old =>
              rw [Option.filter_some, if_neg fun hc => hf (hkeep old hold hc)]
        · rw [if_neg hn, if_neg (fun hc => hn hc.1), hm]

/-- **Objects that leave the view.** On any store content, a stream is opened with a filter, and then
any writes are made. The client has the objects that satisfy the filter at all times, if and only if
no write replaces one of them by an object that does not satisfy it. -/
theorem filtered_watch_iff (calls : List (StoreCall × Faults))
    (ha : ∀ call ∈ calls, call.1.op.Addressed) (hmax : currentRv (dbAfter calls) < u64Max)
    (filter : kind.Obj → Bool) (acts : List Act) :
    let params : Params kind.Obj := ⟨0, filter⟩
    let opened := (start (dbAfter calls)).run params [.poll, .poll, .poll]
    (∀ past, past <+: acts → MirrorsFiltered params (opened.run params past)) ↔
      ∀ past act, past ++ [act] <+: acts → KeepsFilter params (opened.run params past) act := by
  intro params opened
  have hwf : WellFormed (dbAfter calls) := WellFormed.empty.foldl ha
  obtain ⟨hinv, hlive, hcache⟩ := Watched.cache_of_opened params ∅ hwf
  have hopened : MirrorsFiltered params opened := by
    rw [mirrorsFiltered_iff hinv]
    intro name
    rw [hcache name, Watched.filter_shows params hwf rfl]
    exact (Option.or_none).symm
  let Good (s : Watched kind) : Prop := s.Inv ∧
    s.stream.phase = .live (currentRv (dbAfter calls)) ∧ MirrorsFiltered params s
  have hstep : ∀ s act, Good s → (Good (s.step params act) ↔ KeepsFilter params s act) := by
    rintro s act ⟨hs, hphase, hm⟩
    rw [← mirrorsFiltered_step_iff hs hphase hmax hm act]
    exact ⟨fun hg => hg.2.2, fun hg =>
      ⟨hs.step params act, Watched.phase_step_live hphase act, hg⟩⟩
  refine Iff.trans ?_ (Runs.invariant_iff_ok hstep ⟨hinv, hlive, hopened⟩ acts)
  refine forall₂_congr fun past _ => ?_
  exact ⟨fun hm => ⟨hinv.run params past, Watched.phase_run_live hlive past, hm⟩, fun hg => hg.2.2⟩

/-- The filter of `list_or_watch_pods` for `spec.nodeName`. -/
def onNode (node : String) (pod : Pod) : Bool := pod.spec.nodeName == some node

/-- A pod is created on the node that is watched. -/
theorem filtered_watch_create :
    let params : Params Kind.pod.Obj := ⟨0, onNode "a"⟩
    MirrorsFiltered params (((start ∅).run params [.poll, .poll, .poll]).run params
      [.write (createPod "web" (some "a"))]) := by
  refine (@filtered_watch_iff .pod [] (by simp) (by decide) (onNode "a")
    [.write (createPod "web" (some "a"))]).mpr ?_ _ List.prefix_rfl
  intro past act hp
  cases past with
  | cons a past =>
    have hlen := hp.length_le
    simp at hlen
  | nil =>
    obtain ⟨rfl, -⟩ := List.cons_prefix_cons.mp hp
    -- nothing is stored that the create could replace
    intro event _ old hold
    cases hold

def moveWeb : Write where
  call := ⟨.pod, .replaceSpec "web" (samplePod "web" (some "1") (some "b"))⟩
  addressed := rfl

/-- The pod is moved to another node, and the client of the first node keeps it. -/
theorem filtered_watch_keeps_moved :
    let params : Params Kind.pod.Obj := ⟨0, onNode "a"⟩
    ¬ MirrorsFiltered params (((start ∅).run params [.poll, .poll, .poll]).run params
      [.write (createPod "web" (some "a")), .write moveWeb]) := by
  intro params h
  have hweb := congrArg (fun r => r.toOption.join.isSome) (h "web")
  revert hweb
  decide +kernel

/-! ## Resuming -/

/-- Writes give what they leave a revision beyond what the counter was. -/
theorem stored_of_old_revision {db : Db} (h : WellFormed db) (hmax : currentRv db < u64Max)
    (writes : List Write) {name : String} {obj : kind.Obj}
    (hs : stored kind (writes.foldl Write.step db) name = some obj)
    (hold : resourceRv obj ≤ currentRv db) : stored kind db name = some obj := by
  induction writes using List.reverseRecOn with
  | nil => exact hs
  | append_singleton writes w ih =>
    rw [List.foldl_concat] at hs
    rcases w.cases (h.writes writes) kind with ⟨-, hsame⟩ | ⟨event, -, -, hrv, hstored⟩
    · rw [hsame] at hs
      exact ih hs
    · rw [hstored] at hs
      split at hs
      · have hle := currentRv_le_writes db writes
        have hobj : obj = event.object := by
          unfold WatchEvent.value at hs
          split at hs
          · cases hs
          · exact (Option.some.inj hs).symm
        rw [hobj, hrv] at hold
        unfold saturatingSucc at hold
        split at hold <;> omega
      · exact ih hs

/-- What the client has under a name when the stream is opened. -/
theorem agrees_resumed_iff {db : Db} (h : WellFormed db) (writes : List Write)
    (hmax : currentRv (writes.foldl Write.step db) < u64Max) {base : Cache kind.Obj}
    (hbase : ∀ name, stored kind db name = base[name]?) (name : String) :
    let params := Params.everything kind (currentRv db)
    let opened := (start (writes.foldl Write.step db)).run params [.poll, .poll, .poll]
    opened.Agrees params base name ↔ ∀ obj, stored kind db name = some obj →
      ∃ obj', stored kind (writes.foldl Write.step db) name = some obj' := by
  intro params opened
  obtain ⟨-, -, hcache⟩ := Watched.cache_of_opened params base (h.writes writes)
  unfold Watched.Agrees
  rw [hcache name, ← hbase name]
  have hdb : opened.db = writes.foldl Write.step db := rfl
  rw [hdb]
  have hlt := (currentRv_le_writes db writes).trans_lt hmax
  cases hnow : stored kind (writes.foldl Write.step db) name with
  | none =>
    cases stored kind db name with
    | none => simp
    | some old => simp
  | some obj =>
    refine iff_of_true ?_ fun _ _ => ⟨obj, rfl⟩
    by_cases hnew : currentRv db < resourceRv obj
    · have hshow : params.shows obj = true := by simp [Params.shows, params, Params.everything, hnew]
      rw [Option.filter_some, if_pos hshow, Option.some_or]
    · have hshow : ¬ params.shows obj = true := by simp [Params.shows, params, Params.everything, hnew]
      have hold := stored_of_old_revision h hlt writes hnow (by omega)
      rw [Option.filter_some, if_neg hshow, Option.none_or, hold]

/-- **Resuming at a revision.** A client that has the objects of the store at the revision that a
history has reached opens a stream from it, after more writes. When it has read everything, it has
the objects of the store if and only if each object that it had is still there when the stream is
opened, perhaps in a newer version, or is written again later. -/
theorem resume_iff (calls : List (StoreCall × Faults)) (ha : ∀ call ∈ calls, call.1.op.Addressed)
    (writes : List Write) (acts : List Act) (base : Cache kind.Obj)
    (hbase : ∀ name, ResourceStore.get kind.Obj (dbAfter calls) name = .ok base[name]?) :
    let db := writes.foldl Write.step (dbAfter calls)
    let params := Params.everything kind (currentRv (dbAfter calls))
    let opened := (start db).run params [.poll, .poll, .poll]
    currentRv db < u64Max → (Mirrors params base (opened.run params acts) ↔
      ∀ name obj, ResourceStore.get kind.Obj (dbAfter calls) name = .ok (some obj) →
        (∃ obj', ResourceStore.get kind.Obj db name = .ok (some obj')) ∨
          ∃ event ∈ sent kind db acts, event.name = name) := by
  intro db params opened hmax
  have hwf : WellFormed (dbAfter calls) := WellFormed.empty.foldl ha
  have hnow : WellFormed db := hwf.writes writes
  have hbase' : ∀ name, stored kind (dbAfter calls) name = base[name]? := fun name =>
    Except.ok.inj ((hwf.get_eq kind name).symm.trans (hbase name))
  obtain ⟨hinv, hlive, -⟩ := Watched.cache_of_opened params base hnow
  rw [mirrors_iff (hinv.run params acts)]
  refine forall_congr' fun name => ?_
  have hopened := agrees_resumed_iff hwf writes hmax hbase' name
  refine (Watched.agrees_run_iff hinv hlive hmax (fun _ => rfl) acts name).trans ?_
  refine (or_congr_left hopened).trans ?_
  simp only [hwf.get_eq, hnow.get_eq, Except.ok.injEq, forall_or_right]
  rfl

/-- The history in which a pod is created, and the copy of a client that has seen it. -/
def created : List (StoreCall × Faults) := [((createPod "web" none).call, .none)]

def createdCache : Cache Kind.pod.Obj :=
  (∅ : Cache Kind.pod.Obj).insert "web" (stamped 1 (samplePod "web" none none))

theorem created_addressed : ∀ call ∈ created, call.1.op.Addressed := by
  intro call hcall
  obtain rfl := List.mem_singleton.mp hcall
  trivial

theorem get_created (name : String) :
    ResourceStore.get Kind.pod.Obj (dbAfter created) name = .ok createdCache[name]? := by
  have hwf : WellFormed (dbAfter created) := WellFormed.empty.foldl created_addressed
  have hstored := @StoreOp.StartsFrom.stored_step .pod (.createPrestamped _) ∅
    (samplePod "web" none none) ⟨rfl, rfl⟩ name
  rw [hwf.get_eq .pod]
  refine congrArg Except.ok (hstored.trans ?_)
  unfold createdCache
  rw [Std.ExtTreeMap.getElem?_insert]
  by_cases hn : "web" = name
  · subst hn
    rfl
  · have hne : ¬ compare "web" name = .eq := by simpa using hn
    exact (if_neg hn).trans (if_neg hne).symm

/-- The client misses nothing and hears of another pod. -/
theorem resume_created :
    let params := Params.everything .pod (currentRv (dbAfter created))
    Mirrors params createdCache (((start (dbAfter created)).run params [.poll, .poll, .poll]).run
      params [.write (createPod "b" none), .poll]) :=
  (resume_iff created created_addressed [] [.write (createPod "b" none), .poll] createdCache
    get_created (by decide +kernel)).mpr fun _ obj hobj => .inl ⟨obj, hobj⟩

def deleteWebPod : Write where
  call := ⟨.pod, .delete "web" "1"⟩
  addressed := trivial

/-- The pod is deleted while the client is away, and the client is not told. -/
theorem resume_misses_delete :
    (∀ name, ResourceStore.get Kind.pod.Obj (dbAfter created) name = .ok createdCache[name]?) ∧
      let params := Params.everything .pod (currentRv (dbAfter created))
      ¬ Mirrors params createdCache ((start (deleteWebPod.step (dbAfter created))).run params
        [.poll, .poll, .poll]) := by
  refine ⟨get_created, ?_⟩
  intro params h
  have hweb := congrArg (fun r => r.toOption.join.isSome) (h "web")
  revert hweb
  decide +kernel

end Claims

end MyK8s.ApiServer
