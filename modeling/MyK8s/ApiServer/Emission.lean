import MyK8s.ApiServer.Streams

/-!
# The order of events

In direct mode the handlers write to the stores from threads of their own. The transaction gives a
write its revision, and the event goes out after it: between the two, another writer may commit and
emit.

`emission_iff`: a watcher sees the events in the order of their revisions exactly if no event
overtakes an older one that is on its way. Then what it has folded last of an object is the last
write to it.
-/

namespace MyK8s.ApiServer

open ResourceMeta (getMeta)

/-! ## Concurrent writers -/

/-- A live watcher: its snapshot, and the events it has been sent since. -/
structure Watcher (T : Type) where
  snapshot : List T
  snapshotRv : ℕ
  forwarded : List (WatchEvent T)

/-- The database, the events that are committed and not yet emitted, and a watcher. -/
structure Writers (kind : Kind) where
  db : Db
  inFlight : List (WatchEvent kind.Obj)
  watcher : Option (Watcher kind.Obj)

/-- A transaction, the `emit` of one that is in flight, or the opening of the watch. -/
inductive WriterAct
  | commit (w : Write)
  | emit (i : ℕ)
  | watch

section Watcher

variable {T : Type} [ResourceMeta T]

/-- The live phase of `stream_events` forwards what is newer than the snapshot. -/
def Watcher.newer (w : Watcher T) (event : WatchEvent T) : Bool :=
  decide (w.snapshotRv < resourceRv event.object)

def Watcher.hear (w : Watcher T) (event : WatchEvent T) : Watcher T :=
  { w with forwarded := w.forwarded ++ if w.newer event then [event] else [] }

@[simp] theorem Watcher.newer_hear (w : Watcher T) (event : WatchEvent T) :
    (w.hear event).newer = w.newer := rfl

/-- What the client makes of the snapshot and the events. -/
def Watcher.cache (w : Watcher T) : Cache T :=
  w.forwarded.foldl applyWatchEvent
    ((Stream.catchUp ⟨0, fun _ => true⟩ w.snapshot).foldl applyWatchEvent ∅)

/-- Events of increasing revisions. -/
def Increasing (events : List (WatchEvent T)) : Prop :=
  events.Pairwise fun a b => resourceRv a.object < resourceRv b.object

end Watcher

theorem Watcher.cache_hear {T : Type} [ResourceMeta T] (w : Watcher T) (event : WatchEvent T) :
    (w.hear event).cache =
      (if w.newer event then [event] else []).foldl applyWatchEvent w.cache := by
  simp [cache, hear]

/-- Taking an element out of a list, in front of the others that satisfy a predicate. -/
theorem ite_append_filter_eraseIdx {α : Type} {l : List α} {i : ℕ} {a : α} (hi : l[i]? = some a)
    (p : α → Bool) (hfirst : p a = true → ∀ b ∈ l.take i, p b = false) :
    (if p a then [a] else []) ++ (l.eraseIdx i).filter p = l.filter p := by
  obtain ⟨hlt, rfl⟩ := List.getElem?_eq_some_iff.mp hi
  have hsplit : l = l.take i ++ l[i] :: l.drop (i + 1) := by
    rw [List.getElem_cons_drop, List.take_append_drop]
  rw [List.eraseIdx_eq_take_drop_succ]
  conv_rhs => rw [hsplit]
  rw [List.filter_append, List.filter_append, List.filter_cons]
  by_cases hp : p l[i] = true
  · have hnil : (l.take i).filter p = [] := by
      rw [List.filter_eq_nil_iff]
      intro b hb
      simp [hfirst hp b hb]
    simp [hp, hnil]
  · simp [hp]

namespace Writers

variable {kind : Kind}

def step (s : Writers kind) : WriterAct → Writers kind
  | .commit w => { s with db := w.step s.db, inFlight := s.inFlight ++ w.events kind s.db }
  | .emit i =>
    match s.inFlight[i]? with
    | none => s
    | some event =>
      { s with
        inFlight := s.inFlight.eraseIdx i
        watcher := s.watcher.map (·.hear event) }
  | .watch =>
    match s.watcher with
    | some _ => s
    | none =>
      match ResourceStore.list kind.Obj s.db with
      | .ok (items, rv) => { s with watcher := some ⟨items, rv, []⟩ }
      | .error _ => s

def run (s : Writers kind) (acts : List WriterAct) : Writers kind := acts.foldl step s

theorem step_emit_none {s : Writers kind} {i : ℕ} (hi : s.inFlight[i]? = none) :
    s.step (.emit i) = s := by
  simp only [step, hi]

theorem step_emit {s : Writers kind} {i : ℕ} {event : WatchEvent kind.Obj}
    (hi : s.inFlight[i]? = some event) : s.step (.emit i) =
      ⟨s.db, s.inFlight.eraseIdx i, s.watcher.map (·.hear event)⟩ := by
  simp only [step, hi]

theorem step_watch_some {s : Writers kind} {w : Watcher kind.Obj} (hw : s.watcher = some w) :
    s.step .watch = s := by
  simp only [step, hw]

theorem step_watch {s : Writers kind} (hw : s.watcher = none) {items : List kind.Obj} {rv : ℕ}
    (hlist : ResourceStore.list kind.Obj s.db = .ok (items, rv)) :
    s.step .watch = ⟨s.db, s.inFlight, some ⟨items, rv, []⟩⟩ := by
  simp only [step, hw, hlist]

/-- The stores before the first write. -/
def fresh : Writers kind := ⟨∅, [], none⟩

/-- No event is emitted while an older one, that the watcher is to be sent, is in flight. -/
def InOrder (s : Writers kind) : WriterAct → Prop
  | .emit i => ∀ w, s.watcher = some w → ∀ event, s.inFlight[i]? = some event → w.newer event →
    ∀ other ∈ s.inFlight, w.newer other → resourceRv event.object ≤ resourceRv other.object
  | _ => True

/-- The watcher has been sent events of increasing revisions. An object without an event in flight is
in the cache as it was written last. -/
def Ordered (s : Writers kind) : Prop :=
  ∀ w, s.watcher = some w → Increasing w.forwarded ∧
    ∀ name, (∀ event ∈ s.inFlight, event.name ≠ name) →
      ResourceStore.get kind.Obj s.db name = .ok w.cache[name]?

/-! ## What holds of every run -/

/-- The events in flight are in the order of their commits, and the counter has passed them. -/
structure Inv (s : Writers kind) : Prop where
  db : WellFormed s.db
  inFlight : Increasing s.inFlight
  le : ∀ event ∈ s.inFlight, resourceRv event.object ≤ currentRv s.db
  snapshot : ∀ w, s.watcher = some w → w.snapshotRv ≤ currentRv s.db

theorem inv_fresh : (fresh : Writers kind).Inv where
  db := .empty
  inFlight := List.Pairwise.nil
  le := by simp [fresh]
  snapshot w hw := by cases hw

/-- A commit in the range of the counter: nothing, or one event that is newer than all others. -/
theorem commit_cases {s : Writers kind} (h : s.Inv) (hmax : currentRv s.db < u64Max) (w : Write) :
    (w.events kind s.db = [] ∧ ∀ name, stored kind (w.step s.db) name = stored kind s.db name) ∨
    ∃ event, w.events kind s.db = [event] ∧ currentRv (w.step s.db) = currentRv s.db + 1 ∧
      resourceRv event.object = currentRv s.db + 1 ∧
      ∀ name, stored kind (w.step s.db) name =
        if event.name = name then event.value else stored kind s.db name := by
  have hcases := w.cases h.db kind
  rwa [saturatingSucc_of_lt hmax] at hcases

theorem Inv.step {s : Writers kind} (h : s.Inv) (hmax : currentRv s.db < u64Max)
    (act : WriterAct) : (s.step act).Inv := by
  cases act with
  | commit w =>
    have hle : currentRv s.db ≤ currentRv (w.step s.db) := stores_lawful.count_le _ _
    refine ⟨h.db.write w, ?_, ?_, fun watcher hw => (h.snapshot watcher hw).trans hle⟩
    · rcases commit_cases h hmax w with ⟨hno, -⟩ | ⟨event, hevent, -, hrv, -⟩
      · simp only [Writers.step, hno, List.append_nil]
        exact h.inFlight
      · simp only [Writers.step, hevent, Increasing]
        refine List.pairwise_append.mpr ⟨h.inFlight, List.pairwise_singleton _ _, ?_⟩
        intro a ha b hb
        obtain rfl := List.mem_singleton.mp hb
        have := h.le a ha
        omega
    · rcases commit_cases h hmax w with ⟨hno, -⟩ | ⟨event, hevent, hcount, hrv, -⟩
      · simp only [Writers.step, hno, List.append_nil]
        exact fun e he => (h.le e he).trans hle
      · simp only [Writers.step, hevent, List.mem_append, List.mem_singleton]
        rintro e (he | rfl)
        · exact (h.le e he).trans hle
        · omega
  | emit i =>
    cases hi : s.inFlight[i]? with
    | none =>
      rw [step_emit_none hi]
      exact h
    | some event =>
      rw [step_emit hi]
      refine ⟨h.db, h.inFlight.sublist (List.eraseIdx_sublist _ _),
        fun e he => h.le e (List.mem_of_mem_eraseIdx he), fun watcher hwatcher => ?_⟩
      obtain ⟨w, hw, rfl⟩ := Option.map_eq_some_iff.mp hwatcher
      exact h.snapshot w hw
  | watch =>
    cases hw : s.watcher with
    | some w =>
      rw [step_watch_some hw]
      exact h
    | none =>
      obtain ⟨items, hlist, -⟩ := h.db.list_ok kind
      rw [step_watch hw hlist]
      refine ⟨h.db, h.inFlight, h.le, fun w hw => ?_⟩
      obtain rfl := Option.some.inj hw
      exact le_rfl

/-! ## Runs in order -/

/-- What the watcher has been sent and will be sent, if all is emitted in order. -/
def pipeline (s : Writers kind) (w : Watcher kind.Obj) : List (WatchEvent kind.Obj) :=
  w.forwarded ++ s.inFlight.filter w.newer

/-- The events on their way to the watcher are in order, and make its cache the store. -/
structure Flowing (s : Writers kind) (w : Watcher kind.Obj) : Prop where
  increasing : Increasing (s.pipeline w)
  le : ∀ event ∈ s.pipeline w, resourceRv event.object ≤ currentRv s.db
  store : ∀ name, stored kind s.db name =
    ((s.inFlight.filter w.newer).foldl applyWatchEvent w.cache)[name]?

theorem flowing_commit {s : Writers kind} (h : s.Inv) (hmax : currentRv s.db < u64Max)
    {w : Watcher kind.Obj} (hw : s.watcher = some w) (hf : s.Flowing w) (write : Write) :
    (s.step (.commit write)).Flowing w := by
  rcases commit_cases h hmax write with ⟨hno, hsame⟩ | ⟨event, hevent, hcount, hrv, hstored⟩
  · have hle : currentRv s.db ≤ currentRv (write.step s.db) := stores_lawful.count_le _ _
    simp only [Writers.step, hno, List.append_nil]
    exact ⟨hf.increasing, fun e he => (hf.le e he).trans hle, fun name =>
      (hsame name).trans (hf.store name)⟩
  · have hsnap := h.snapshot w hw
    have hnewer : w.newer event = true := by
      unfold Watcher.newer
      rw [decide_eq_true_eq]
      omega
    have hpipe : (s.step (.commit write)).pipeline w = s.pipeline w ++ [event] := by
      simp [pipeline, Writers.step, hevent, hnewer]
    refine ⟨?_, ?_, fun name => ?_⟩
    · rw [hpipe]
      refine List.pairwise_append.mpr ⟨hf.increasing, List.pairwise_singleton _ _, ?_⟩
      intro a ha b hb
      obtain rfl := List.mem_singleton.mp hb
      have := hf.le a ha
      omega
    · rw [hpipe]
      intro e he
      have hdb : (s.step (.commit write)).db = write.step s.db := rfl
      rw [hdb, hcount]
      rcases List.mem_append.mp he with he | he
      · exact (hf.le e he).trans (Nat.le_succ _)
      · obtain rfl := List.mem_singleton.mp he
        exact hrv.le
    · simp only [Writers.step, hevent, hstored, List.filter_append, List.foldl_append]
      simp [hnewer, hf.store name]

/-- An event in order is the next of those on their way. -/
theorem queue_emit {s : Writers kind} (h : s.Inv) {w : Watcher kind.Obj} {i : ℕ}
    (ho : s.InOrder (.emit i)) (hw : s.watcher = some w) {event : WatchEvent kind.Obj}
    (hi : s.inFlight[i]? = some event) :
    (if w.newer event then [event] else []) ++ (s.inFlight.eraseIdx i).filter w.newer =
      s.inFlight.filter w.newer := by
  refine ite_append_filter_eraseIdx hi w.newer fun hnew other hother => ?_
  by_contra hcon
  have hle := ho w hw event hi hnew other (List.mem_of_mem_take hother) (by simpa using hcon)
  obtain ⟨hlt, rfl⟩ := List.getElem?_eq_some_iff.mp hi
  -- what was committed before has a smaller revision
  obtain ⟨j, hj, rfl⟩ := List.mem_iff_getElem.mp hother
  rw [List.length_take] at hj
  have hrv := List.pairwise_iff_getElem.mp h.inFlight j i (by omega) hlt (by omega)
  rw [List.getElem_take] at hle
  omega

theorem flowing_emit {s : Writers kind} (h : s.Inv) {w : Watcher kind.Obj} {i : ℕ}
    (ho : s.InOrder (.emit i)) (hw : s.watcher = some w) (hf : s.Flowing w)
    {event : WatchEvent kind.Obj} (hi : s.inFlight[i]? = some event) :
    (s.step (.emit i)).Flowing (w.hear event) := by
  have hqueue := queue_emit h ho hw hi
  have hpipe : (s.step (.emit i)).pipeline (w.hear event) = s.pipeline w := by
    unfold pipeline
    rw [step_emit hi, Watcher.newer_hear, ← hqueue, ← List.append_assoc]
    rfl
  have hdb : (s.step (.emit i)).db = s.db := by rw [step_emit hi]
  refine ⟨by rw [hpipe]; exact hf.increasing, ?_, fun name => ?_⟩
  · rw [hpipe, hdb]
    exact hf.le
  · rw [hdb, hf.store name, step_emit hi, Watcher.newer_hear, Watcher.cache_hear,
      ← List.foldl_append, hqueue]

/-- When the watch is opened, all that is in flight is in the snapshot already. -/
theorem flowing_watch {s : Writers kind} (h : s.Inv) (hw : s.watcher = none) :
    ∃ w, (s.step .watch).watcher = some w ∧ (s.step .watch).Flowing w := by
  obtain ⟨items, hitems, -, -⟩ := h.db.items_ok kind
  have hlist : ResourceStore.list kind.Obj s.db = .ok (items, currentRv s.db) := by
    unfold ResourceStore.list
    rw [hitems]
    rfl
  have hold : s.inFlight.filter (Watcher.newer ⟨items, currentRv s.db, []⟩) = [] := by
    rw [List.filter_eq_nil_iff]
    intro event hevent
    have hle := h.le event hevent
    simp only [Watcher.newer, decide_eq_true_eq]
    omega
  rw [step_watch hw hlist]
  refine ⟨_, rfl, ?_, ?_, fun name => ?_⟩
  · simp [pipeline, hold, Increasing]
  · simp [pipeline, hold]
  · simp only [hold, List.foldl_nil, Watcher.cache]
    rw [getElem?_foldl_catchUp h.db hitems, Watched.filter_shows _ h.db rfl]
    cases stored kind s.db name <;> rfl

/-- **A step in order** keeps the events in order. -/
theorem flowing_step {s : Writers kind} (h : s.Inv) (hmax : currentRv s.db < u64Max)
    {act : WriterAct} (ho : s.InOrder act) (hf : ∀ w, s.watcher = some w → s.Flowing w) :
    ∀ w, (s.step act).watcher = some w → (s.step act).Flowing w := by
  cases act with
  | commit write => exact fun w hw => flowing_commit h hmax hw (hf w hw) write
  | emit i =>
    cases hi : s.inFlight[i]? with
    | none =>
      rw [step_emit_none hi]
      exact hf
    | some event =>
      intro w' hw'
      rw [step_emit hi] at hw'
      obtain ⟨w, hw, rfl⟩ := Option.map_eq_some_iff.mp hw'
      exact flowing_emit h ho hw (hf w hw) hi
  | watch =>
    cases hw : s.watcher with
    | some w =>
      rw [step_watch_some hw]
      exact hf
    | none =>
      obtain ⟨w, hw', hflow⟩ := flowing_watch h hw
      intro w' hw''
      obtain rfl := Option.some.inj (hw'.symm.trans hw'')
      exact hflow

theorem ordered_of_flowing {s : Writers kind} (h : s.Inv)
    (hf : ∀ w, s.watcher = some w → s.Flowing w) : s.Ordered := by
  intro w hw
  have hflow := hf w hw
  refine ⟨hflow.increasing.sublist (List.sublist_append_left _ _), fun name hnone => ?_⟩
  rw [h.db.get_eq, hflow.store name, getElem?_foldl_of_forall_ne]
  exact fun event hevent => hnone event (List.mem_of_mem_filter hevent)

/-! ## Runs out of order -/

/-- The watcher has been sent an event, and an older one is still to come or has come after it. -/
def Overtaken (s : Writers kind) : Prop :=
  ∃ w, s.watcher = some w ∧ (¬ Increasing w.forwarded ∨
    ∃ sent ∈ w.forwarded, ∃ late ∈ s.inFlight, w.newer late ∧
      resourceRv late.object ≤ resourceRv sent.object)

/-- An event out of order overtakes another. -/
theorem overtaken_of_not_inOrder {s : Writers kind} {act : WriterAct} (ho : ¬ s.InOrder act) :
    (s.step act).Overtaken := by
  cases act with
  | commit w => exact absurd trivial ho
  | watch => exact absurd trivial ho
  | emit i =>
    simp only [InOrder] at ho
    push Not at ho
    obtain ⟨w, hw, event, hi, hnew, late, hlate, hnew', hlt⟩ := ho
    rw [step_emit hi]
    refine ⟨w.hear event, by rw [hw]; rfl, .inr ⟨event, ?_, late, ?_, hnew', hlt.le⟩⟩
    · simp [Watcher.hear, hnew]
    · obtain ⟨j, hj, rfl⟩ := List.mem_iff_getElem.mp hlate
      refine List.mem_eraseIdx_iff_getElem.mpr ⟨j, hj, ?_, rfl⟩
      rintro rfl
      obtain ⟨_, rfl⟩ := List.getElem?_eq_some_iff.mp hi
      exact lt_irrefl _ hlt

/-- What has been overtaken comes too late. -/
theorem Overtaken.step {s : Writers kind} (h : s.Overtaken) (act : WriterAct) :
    (s.step act).Overtaken := by
  obtain ⟨w, hw, hlate⟩ := h
  cases act with
  | commit write =>
    refine ⟨w, hw, hlate.imp_right ?_⟩
    rintro ⟨sent, hsent, late, hin, hrest⟩
    exact ⟨sent, hsent, late, List.mem_append_left _ hin, hrest⟩
  | watch =>
    rw [step_watch_some hw]
    exact ⟨w, hw, hlate⟩
  | emit i =>
    cases hi : s.inFlight[i]? with
    | none =>
      rw [step_emit_none hi]
      exact ⟨w, hw, hlate⟩
    | some event =>
      rw [step_emit hi]
      refine ⟨w.hear event, by rw [hw]; rfl, ?_⟩
      have hsub : w.forwarded.Sublist (w.hear event).forwarded := List.sublist_append_left _ _
      rcases hlate with hno | ⟨sent, hsent, late, hin, hnew, hle⟩
      · exact .inl fun hinc => hno (hinc.sublist hsub)
      · obtain ⟨j, hj, rfl⟩ := List.mem_iff_getElem.mp hin
        by_cases hji : j = i
        · -- the late event is sent now, after the other
          subst hji
          obtain ⟨-, rfl⟩ := List.getElem?_eq_some_iff.mp hi
          refine .inl fun hinc => ?_
          simp only [Watcher.hear, hnew, if_true, Increasing, List.pairwise_append] at hinc
          have hlt := hinc.2.2 sent hsent _ (List.mem_singleton_self _)
          omega
        · exact .inr ⟨sent, hsub.subset hsent, s.inFlight[j],
            List.mem_eraseIdx_iff_getElem.mpr ⟨j, hj, hji, rfl⟩, hnew, hle⟩

theorem Overtaken.run {s : Writers kind} (h : s.Overtaken) (acts : List WriterAct) :
    (s.run acts).Overtaken := by
  induction acts generalizing s with
  | nil => exact h
  | cons act acts ih => exact ih (h.step act)

/-! ## The order of events -/

theorem currentRv_le_step {s : Writers kind} (h : WellFormed s.db) (act : WriterAct) :
    currentRv s.db ≤ currentRv (s.step act).db ∧ WellFormed (s.step act).db := by
  cases act with
  | commit w => exact ⟨stores_lawful.count_le _ _, h.write w⟩
  | emit i =>
    cases hi : s.inFlight[i]? with
    | none =>
      rw [step_emit_none hi]
      exact ⟨le_rfl, h⟩
    | some event =>
      rw [step_emit hi]
      exact ⟨le_rfl, h⟩
  | watch =>
    cases hw : s.watcher with
    | some w =>
      rw [step_watch_some hw]
      exact ⟨le_rfl, h⟩
    | none =>
      obtain ⟨items, hlist, -⟩ := h.list_ok kind
      rw [step_watch hw hlist]
      exact ⟨le_rfl, h⟩

theorem currentRv_le_run {s : Writers kind} (h : WellFormed s.db) (acts : List WriterAct) :
    currentRv s.db ≤ currentRv (s.run acts).db ∧ WellFormed (s.run acts).db := by
  induction acts generalizing s with
  | nil => exact ⟨le_rfl, h⟩
  | cons act acts ih =>
    obtain ⟨hle, hwf⟩ := currentRv_le_step h act
    obtain ⟨hle', hwf'⟩ := ih hwf
    exact ⟨hle.trans hle', hwf'⟩

/-- **The order of events.** In every run of concurrent writers in which each event is emitted in the
order of the commits, every state is ordered: the watcher has been sent increasing revisions, and an
object that has no event in flight is in its cache as it was last written. In a run that ends with
nothing in flight, the watcher has been sent increasing revisions only if all was in that order. -/
theorem emission_iff (kind : Kind) (acts : List WriterAct)
    (hmax : currentRv ((fresh : Writers kind).run acts).db < u64Max) :
    ((∀ past act, past ++ [act] <+: acts → ((fresh : Writers kind).run past).InOrder act) →
      ∀ past, past <+: acts → ((fresh : Writers kind).run past).Ordered) ∧
    (((fresh : Writers kind).run acts).inFlight = [] → ((fresh : Writers kind).run acts).Ordered →
      ∀ past act, past ++ [act] <+: acts → ((fresh : Writers kind).run past).InOrder act) := by
  have hle : ∀ past rest, past ++ rest = acts →
      currentRv ((fresh : Writers kind).run past).db < u64Max := by
    rintro past rest rfl
    have hwf : WellFormed ((fresh : Writers kind).run past).db := (currentRv_le_run .empty past).2
    refine lt_of_le_of_lt (currentRv_le_run hwf rest).1 ?_
    rw [run, run, ← List.foldl_append]
    exact hmax
  constructor
  · intro ho past hp
    have hstep : ∀ (s : Writers kind) (act : WriterAct),
        (s.Inv ∧ ∀ w, s.watcher = some w → s.Flowing w) →
          (s.InOrder act ∧ currentRv s.db < u64Max) →
            ((s.step act).Inv ∧ ∀ w, (s.step act).watcher = some w → (s.step act).Flowing w) :=
      fun s act hs hok => ⟨hs.1.step hok.2 act, flowing_step hs.1 hok.2 hok.1 hs.2⟩
    have hfresh : (fresh : Writers kind).Inv ∧
        ∀ w, (fresh : Writers kind).watcher = some w → (fresh : Writers kind).Flowing w :=
      ⟨inv_fresh, fun w hw => by cases hw⟩
    have hok : ∀ q a, q ++ [a] <+: acts → ((fresh : Writers kind).run q).InOrder a ∧
        currentRv ((fresh : Writers kind).run q).db < u64Max := by
      intro q a hq
      obtain ⟨rest, hrest⟩ := hq
      exact ⟨ho q a ⟨rest, hrest⟩, hle q ([a] ++ rest) (by rw [← List.append_assoc, hrest])⟩
    have hgood := Runs.invariant_of_ok hstep hfresh hok past hp
    exact ordered_of_flowing hgood.1 hgood.2
  · rintro hempty hord past act ⟨rest, rfl⟩
    by_contra hno
    have hlate : ((fresh : Writers kind).run (past ++ [act] ++ rest)).Overtaken := by
      unfold run
      rw [List.foldl_append, List.foldl_concat]
      exact (overtaken_of_not_inOrder hno).run rest
    obtain ⟨w, hw, hinc | ⟨sent, -, late, hin, -⟩⟩ := hlate
    · exact hinc (hord w hw).1
    · rw [hempty] at hin
      cases hin

/-- A single writer emits its event before it writes again. -/
theorem inOrder_of_length_le_one {s : Writers kind} (h : s.inFlight.length ≤ 1) (act : WriterAct) :
    s.InOrder act := by
  cases act with
  | emit i =>
    intro w _ event hi _ other hother _
    match hl : s.inFlight, h with
    | [], _ =>
      rw [hl] at hother
      cases hother
    | [e], _ =>
      rw [hl] at hi hother
      obtain rfl := List.mem_singleton.mp hother
      obtain rfl := List.mem_singleton.mp (List.mem_of_getElem? hi)
      exact le_rfl
  | _ => exact trivial

theorem emission_single :
    ((fresh : Writers .pod).run [.watch, .commit (createPod "web" none), .emit 0]).Ordered := by
  refine (emission_iff .pod [.watch, .commit (createPod "web" none), .emit 0]
    (by decide +kernel)).1 ?_ _ List.prefix_rfl
  intro past act hp
  refine inOrder_of_length_le_one ?_ act
  have hlen := hp.length_le
  have hpast := List.prefix_iff_eq_take.mp (Runs.prefix_of_concat hp)
  rw [List.length_append] at hlen
  have hcases : past.length = 0 ∨ past.length = 1 ∨ past.length = 2 := by
    simp only [List.length_cons, List.length_nil] at hlen
    omega
  rcases hcases with hn | hn | hn
  all_goals
    rw [hn] at hpast
    rw [hpast]
    decide +kernel

/-- Two writers of a pod commit, and the event of the second goes out first. -/
def overtaking : List WriterAct :=
  [.watch, .commit (createPod "web" none), .emit 0, .commit moveWeb, .commit
    ⟨⟨.pod, .delete "web" "2"⟩, trivial⟩, .emit 1, .emit 0]

/-- The revisions come as 1, 3, 2, and the deleted pod stays in the cache. -/
theorem emission_overtaken : ((fresh : Writers .pod).run overtaking).inFlight.isEmpty = true ∧
    ¬ ((fresh : Writers .pod).run overtaking).Ordered := by
  have hempty : ((fresh : Writers .pod).run overtaking).inFlight.isEmpty = true := by
    decide +kernel
  refine ⟨hempty, fun h => ?_⟩
  have hcached : ((fresh : Writers .pod).run overtaking).watcher.map
      (fun w => w.cache["web"]?.isSome) = some true := by decide +kernel
  obtain ⟨w, hw, hsome⟩ := Option.map_eq_some_iff.mp hcached
  have hget := (h w hw).2 "web" (by simp [List.isEmpty_iff.mp hempty])
  have hgone : (ResourceStore.get Kind.pod.Obj ((fresh : Writers .pod).run overtaking).db
      "web").toOption.join.isSome = false := by decide +kernel
  rw [hget] at hgone
  exact absurd (hsome.symm.trans hgone) (by decide)

end Writers

end MyK8s.ApiServer
