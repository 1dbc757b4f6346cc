import MyK8s.ApiServer.Among
import MyK8s.ApiServer.Assignments
import MyK8s.Controller.Manager

/-!
# The scheduler's manager

`run`, the informer, the resync and the worker of `src/scheduler.rs`: a pod without a node is looked at until
it has one. `pods_pending`: in every run, a pod without a node is owed, at the worker, or missed; and no write
is missed while the stream is live.
-/

namespace MyK8s.Controller.Scheduling

open ApiServer
open ResourceMeta (getMeta)
open Process (Proc)

/-- The names that are added for pods: of those that have no node. -/
def unscheduled (pod : Pod) : List String := if pod.spec.nodeName.isNone then [pod.metadata.name] else []

/-- The tasks of the scheduler. How old a heartbeat is depends on the time at which a pod is looked at. -/
def tasks (path : WritePath) (age : String → String → Option ℤ) : Tasks Unit where
  kind _ := .pod
  keys _ _ event := unscheduled event.object
  asks _ := false
  resync db := (listed .pod db).flatMap unscheduled
  reconcile stamp := Scheduler.schedule path (age stamp.timestamp)

/-- There is a pod of the name, and it has no node. -/
def Unbound (name : String) (db : Db) : Prop :=
  ∃ pod : Pod, stored .pod db name = some pod ∧ pod.spec.nodeName = none

def purpose : Purpose where
  outdated := Unbound
  rely name db db' := Unbound name db' → Unbound name db
  ignored _ _ _ := False
  shared := False

section Schedule

variable {db db' : Db} {name : String} {path : WritePath} {age : String → Option ℤ}

instance (name : String) : IsPreorder Db (purpose.keeps name) where
  refl _ := ⟨id, id⟩
  trans _ _ _ h h' := ⟨h'.1 ∘ h.1, h.2 ∘ h'.2⟩

theorem serves : Serves purpose.scheme.setting := ⟨rfl, fun e _ => ⟨e, rfl⟩⟩

/-- A write of the worker is on the pod of its name. -/
theorem own_pod {ages : String → String → Option ℤ} {seen : List Db} {op : ApiOp .pod}
    (h : (∀ db ∈ seen, WellFormed db) → op.storeOp.Addressed) (hname : op.storeOp.name = name) :
    purpose.Own (tasks path ages) name seen ⟨.pod, op⟩ := by
  intro hseen
  refine ⟨h hseen, fun db _ => ⟨fun _ k hk => ?_, fun _ _ => id⟩⟩
  rintro ⟨pod, hpod, hnode⟩
  exact ⟨pod, ((ApiCall.exec_frame op db).2 k (hname ▸ hk)).symm.trans hpod, hnode⟩

theorem own_schedule (ages : String → String → Option ℤ) (name : String) :
    Proc.writes (purpose.Own (tasks path ages) name) (fun _ _ => True)
      (Scheduler.schedule path age name) [] := by
  refine Scheduler.writes_schedule fun seen nodeName => Handlers.writes_bindPod fun db pod hget => ?_
  refine own_pod (fun hseen => ?_) rfl
  have hwf := hseen db List.mem_cons_self
  rw [hwf.get_eq] at hget
  exact (hwf.stored_eq_some.mp (Except.ok.inj hget)).1

/-- A pod that is bound has a node. -/
theorem establishes_bindPod (path : WritePath) {nodeName : String} :
    Proc.establishes purpose.scheme.setting (purpose.keeps name) (fun s _ => ¬ Unbound name s)
      (Handlers.bindPod path name nodeName) db := by
  unfold Handlers.bindPod
  split
  · exact Proc.establishes_bind Proc.establishes_throw
  refine Proc.establishes_bind ?_
  have hstore : ∀ db2 (pod : Pod), Proc.establishes purpose.scheme.setting (purpose.keeps name)
      (fun s _ => ¬ Unbound name s) (Handler.store .pod (.replaceSpec name
        ({ pod with spec := { pod.spec with nodeName := some nodeName } } : Pod))) db2 := by
    intro db2 pod
    refine Handler.establishes_store (k := .pod) serves fun t s reply _ hexec hs hunbound => ?_
    obtain ⟨pod', hpod', hnode⟩ := hs.2 hunbound
    have hreply := (ApiCall.stored_exec hexec).symm.trans hpod'
    obtain ⟨base, -, rfl, -⟩ := ApiCall.startsFrom_of_exec (Prod.ext hexec rfl)
    cases hreply
    cases hnode
  have hget : ∀ db2, Proc.establishes purpose.scheme.setting (purpose.keeps name)
      (fun s (pod : Pod) => Proc.establishes purpose.scheme.setting (purpose.keeps name)
        (fun s _ => ¬ Unbound name s) (Handler.store .pod (.replaceSpec name
          ({ pod with spec := { pod.spec with nodeName := some nodeName } } : Pod))) s)
      (Handlers.get .pod name) db2 := by
    intro db2
    unfold Handlers.get
    refine Proc.establishes_bind (Handler.establishes_read fun t t' o _ _ _ => ?_)
    cases o with
    | none => exact Proc.establishes_throw
    | some pod => exact Proc.establishes_pure fun s _ => hstore s pod
  have hgate : Proc.establishes purpose.scheme.setting (purpose.keeps name) (fun _ _ => True) path.gate db := by
    cases path with
    | direct => exact Proc.establishes_pure fun _ _ => trivial
    | raft proposer => exact Handler.establishes_lift fun _ _ _ _ => trivial
  exact Proc.establishes_mono (fun s _ _ => Proc.establishes_bind (hget s)) hgate

/-- **Scheduling among others.** A pod that has been scheduled without an error has a node, or is gone, unless
somebody has taken it off again. -/
theorem settles_schedule : purpose.scheme.Settles name (Scheduler.schedule path age name).run db := by
  show Proc.establishes purpose.scheme.setting (purpose.keeps name) (fun s _ => ¬ Unbound name s)
    (Scheduler.schedule path age name) db
  unfold Scheduler.schedule Scheduler.scheduleVia
  refine Proc.establishes_bind (Client.establishes_get fun t t' _ ht' => ?_)
  have hbound : (∀ pod : Pod, stored .pod t name = some pod → pod.spec.nodeName ≠ none) → ∀ s,
      purpose.keeps name t' s → ¬ Unbound name s := by
    intro hno s hs hunbound
    obtain ⟨pod, hpod, hnode⟩ := ht'.2 (hs.2 hunbound)
    exact hno pod hpod hnode
  cases hpod : stored .pod t name with
  | none =>
    rw [hpod] at hbound
    exact Proc.establishes_pure (hbound fun pod hno => by cases hno)
  | some pod =>
    rw [hpod] at hbound
    simp only
    split
    · rename_i hsome
      refine Proc.establishes_pure (hbound fun pod' hpod' hnode => ?_)
      cases hpod'
      rw [hnode] at hsome
      cases hsome
    · refine Proc.establishes_bind (Client.establishes_list (k := .node) fun db1 db2 _ _ => ?_)
      split
      · exact Proc.establishes_bind Proc.establishes_throw
      · refine Proc.establishes_bind (Client.establishes_list (k := .pod) fun db3 db4 _ _ => ?_)
        split
        · exact Proc.establishes_throw
        · refine Proc.establishes_bind (Client.establishes_request ?_)
          refine Proc.establishes_mono (fun s _ hs => ?_) (establishes_bindPod path)
          exact Proc.establishes_pure fun s' hs' hunbound => hs (hs'.2 hunbound)

end Schedule

theorem served (path : WritePath) (age : String → String → Option ℤ) : purpose.Served (tasks path age) where
  refl _ _ := id
  trans _ _ _ _ h h' := h ∘ h'
  outdated _ _ _ h := h
  told _ _ _ _ _ _ _ _ := id
  own _ name := own_schedule age name
  settles _ _ _ _ := settles_schedule

/-! ## Runs -/

section Runs

variable {path : WritePath} {age : String → String → Option ℤ} {m : Manager (tasks path age)} {name : String}

/-- **A live stream misses nothing**: a write that leaves a pod without a node is told. -/
theorem not_misses_write (hwf : WellFormed m.db) (hcounter : m.UpToCounter) (hlive : m.Live)
    (hmax : currentRv m.db < u64Max) (w : Write) : ¬ m.Misses purpose name (.write w) := by
  rintro ⟨hrely, hsilent⟩
  obtain ⟨⟨pod, hpod, hnode⟩, hno⟩ := Classical.not_imp.mp hrely
  obtain ⟨s, rv, hs, hphase⟩ := hlive ()
  rcases w.cases hwf .pod with ⟨-, hsame⟩ | ⟨event, hevent, -, -, hstored⟩
  · exact hno ⟨pod, (hsame name).symm.trans hpod, hnode⟩
  · by_cases hname : event.name = name
    · have hvalue : event.value = some pod := ((if_pos hname).symm.trans (hstored name).symm).trans hpod
      have hobject : event.object = pod := by
        unfold WatchEvent.value at hvalue
        split at hvalue
        · cases hvalue
        · exact Option.some.inj hvalue
      have hmem : event ∈ w.events .pod m.db := hevent ▸ List.mem_cons_self
      refine hsilent () s hs event hmem (hcounter.hears hwf hmax hs hphase hmem) ?_
      show name ∈ unscheduled event.object
      unfold unscheduled
      rw [hobject, if_pos (by rw [hnode]; rfl), ← hobject]
      exact List.mem_singleton.mpr hname.symm
    · exact hno ⟨pod, ((hstored name).trans (if_neg hname)).symm.trans hpod, hnode⟩

/-- The act ends no stream and starts nothing anew. -/
def Calm (m : Manager (tasks path age)) : ManagerAct Unit → Prop
  | .write _ => currentRv m.db < u64Max
  | .disconnect _ => False
  | .crash => False
  | _ => True

theorem Calm.not_misses {act : ManagerAct Unit} (h : Calm m act) (hwf : WellFormed m.db)
    (hcounter : m.UpToCounter) (hlive : m.Live) : ¬ m.Misses purpose name act := by
  cases act with
  | write w => exact not_misses_write hwf hcounter hlive h w
  | handle i answered =>
    rintro ⟨hno, -⟩
    cases hno
  | access =>
    rintro ⟨key, call, next, -, -, ⟨-, hno⟩ | ⟨-, -, hno, -⟩⟩ <;> exact hno
  | fail e done =>
    rintro ⟨key, call, next, -, -, ⟨-, hno⟩ | ⟨-, -, hno, -⟩⟩ <;> exact hno
  | disconnect i => exact absurd h not_false
  | crash => exact absurd h not_false
  | _ => exact not_false

end Runs

/-- **No pod is forgotten.** In every run of the scheduler, with whatever others write and whatever fails: a
name has no pod without a node, or it is owed, or the worker has it, or it has been missed and not owed
since. -/
theorem pods_pending (path : WritePath) (age : String → String → Option ℤ) {db : Db} (hdb : WellFormed db)
    (acts : List (ManagerAct Unit)) (name : String) :
    ¬ Unbound name ((Manager.start db : Manager (tasks path age)).run acts).db ∨
      ((Manager.start db : Manager (tasks path age)).run acts).Owes name ∨
      ((Manager.start db : Manager (tasks path age)).run acts).Working name ∨
      (Manager.start db : Manager (tasks path age)).Missed purpose acts name := by
  by_cases hout : Unbound name ((Manager.start db : Manager (tasks path age)).run acts).db
  · exact .inr (Manager.outdated_cases (served path age) hdb acts hout)
  · exact .inl hout

/-- A node that is ready, and a pod without one. -/
def waitingDb : Db := dbAfter
  [(⟨.node, .createPrestamped (sampleNode "a")⟩, .none),
    (⟨.node, .replaceStatus "a" "1" (Kind.setStatus .node ready)⟩, .none),
    (⟨.pod, .createPrestamped (samplePod "web" none none)⟩, .none)]

theorem wellFormed_waitingDb : WellFormed waitingDb := by
  refine WellFormed.empty.foldl fun call hcall => ?_
  simp only [List.mem_cons, List.not_mem_nil, or_false] at hcall
  rcases hcall with rfl | rfl | rfl
  · trivial
  · exact fun obj => rfl
  · trivial

/-- All heartbeats are a second old. -/
abbrev sampleTasks : Tasks Unit := tasks .direct fun _ _ => some 1

/-- The informer opens its stream and gets the pod. -/
def opening : List (ManagerAct Unit) := [.connect (), .poll (), .poll (), .poll (), .handle () true]

/-- The binding is refused, and after a delay the worker has the pod again. -/
def again : List (ManagerAct Unit) :=
  opening ++ [.get sampleStamp, .access, .access, .access, .access, .fail (.internal "no leader") false, .finish,
    .fire 0, .get sampleStamp, .access]

theorem pods_pending_web :
    (¬ Unbound "web" ((Manager.start waitingDb : Manager sampleTasks).run again).db ∨
      ((Manager.start waitingDb : Manager sampleTasks).run again).Owes "web" ∨
      ((Manager.start waitingDb : Manager sampleTasks).run again).Working "web" ∨
      (Manager.start waitingDb : Manager sampleTasks).Missed purpose again "web") ∧
    assignedAt .pod ((Manager.start waitingDb : Manager sampleTasks).run again).db "web" = none ∧
    (((Manager.start waitingDb : Manager sampleTasks).run again).worker.map Prod.fst) = some "web" ∧
    ((Manager.start waitingDb : Manager sampleTasks).run again).limiter.failures["web"]? = some 1 :=
  ⟨pods_pending .direct (fun _ _ => some 1) wellFormed_waitingDb again "web", by decide +kernel,
    by decide +kernel, by decide +kernel⟩

/-- **Pods are placed.** Where a pod is owed while the stream is live, and it stays live, the pod has a node or
is gone as soon as its name is neither owed nor at the worker any more. -/
theorem pods_settle {path : WritePath} {age : String → String → Option ℤ} {db : Db} (hdb : WellFormed db)
    {past rest : List (ManagerAct Unit)} {name : String}
    (hlive : ((Manager.start db : Manager (tasks path age)).run past).Live)
    (howed : ((Manager.start db : Manager (tasks path age)).run past).Owes name)
    (hcalm : ∀ mid act, mid ++ [act] <+: rest →
      Calm ((Manager.start db : Manager (tasks path age)).run (past ++ mid)) act)
    (howes : ¬ ((Manager.start db : Manager (tasks path age)).run (past ++ rest)).Owes name)
    (hworking : ¬ ((Manager.start db : Manager (tasks path age)).run (past ++ rest)).Working name) :
    ¬ Unbound name ((Manager.start db : Manager (tasks path age)).run (past ++ rest)).db := by
  have hlives := Manager.live_run Calm (fun _ _ h => h) (fun _ h => h) hlive hcalm
  refine Manager.settled (served path age) hdb howed (fun mid act hmid => ?_) howes hworking
  exact (hcalm mid act hmid).not_misses (Manager.inv_run (served path age) hdb _).1.db
    (Manager.upToCounter_run db _) (hlives mid (Runs.prefix_of_concat hmid))

/-- The worker binds the pod. -/
def placing : List (ManagerAct Unit) :=
  [.get sampleStamp, .access, .access, .access, .access, .access, .finish, .poll (), .handle () true]

theorem pods_settle_web :
    ¬ Unbound "web" ((Manager.start waitingDb : Manager sampleTasks).run (opening ++ placing)).db := by
  refine pods_settle wellFormed_waitingDb (fun _ => ⟨_, _, rfl, rfl⟩) (.inl (by decide +kernel)) ?_ ?_ ?_
  · intro mid act hmid
    have hact : act ∈ placing := hmid.subset (by simp)
    simp only [placing, List.mem_cons, List.not_mem_nil, or_false] at hact
    rcases hact with rfl | rfl | rfl | rfl | rfl | rfl | rfl | rfl | rfl <;> trivial
  · exact Manager.not_owes_of_handled (by decide +kernel) (by decide +kernel) fun i => by cases i; decide +kernel
  · exact Manager.not_working_of_isNone (by decide +kernel)

end MyK8s.Controller.Scheduling
