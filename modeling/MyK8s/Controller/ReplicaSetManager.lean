import MyK8s.Controller.ReplicaSetPass

/-!
# The controller-manager

`src/controller/manager.rs`: the informers of ReplicaSets and pods, the resync, and the worker that reconciles
ReplicaSets. `replicasets_pending`: in every run, the pods of a ReplicaSet are in order, or its name is owed, at
the worker, or missed.

Its own writes come back to the manager as events of pods, which name the first controller of the pod
(`rsKeyForPod`). A write that takes a pod away from a ReplicaSet does not name it any more (`Unnamed`).
-/

namespace MyK8s.Controller.ReplicaSets

open ApiServer
open ResourceMeta (getMeta)
open Process (Proc Fate)

/-- The ReplicaSet that controls the pod, as the informer sees it. -/
def rsKeyForPod (pod : Pod) : Option String :=
  (pod.metadata.ownerReferences.find? fun o => o.kind == "ReplicaSet" && o.controller).map (·.name)

/-- `rs_informer` and `pod_informer`. -/
inductive Informer
  | replicaSet
  | pod
  deriving DecidableEq

def Informer.kind : Informer → Kind
  | .replicaSet => .replicaSet
  | .pod => .pod

/-- The names that an informer adds for an event. -/
def Informer.keys : (i : Informer) → WatchEvent i.kind.Obj → List String
  | .replicaSet, event => [(ReplicaSet.metadata event.object).name]
  | .pod, event => (rsKeyForPod event.object).toList

/-- The names that `resync_loop` adds. -/
def resyncKeys (db : Db) : List String := (listed .replicaSet db).map fun rs : ReplicaSet => rs.metadata.name

/-- The tasks of the controller-manager, with what is drawn for a pass. -/
def tasks (draws : Stamp → ℕ → Draw) : Tasks Informer where
  kind := Informer.kind
  keys i _ := i.keys
  asks _ := false
  resync := resyncKeys
  reconcile stamp rsName := do let _ ← reconcile (draws stamp) rsName

theorem served (draws : Stamp → ℕ → Draw) : purpose.Served (tasks draws) where
  refl := Alike.refl
  trans _ _ _ _ := Alike.trans
  outdated name db db' h hout := by
    rintro ⟨owned, horder⟩
    exact hout ⟨owned, horder.alike h⟩
  told _ _ _ _ _ _ _ _ := id
  own stamp name := by
    have hown : Proc.writes (purpose.Own (tasks draws) name) (fun _ _ => True) (reconcile (draws stamp) name) [] :=
      Proc.wp_mono (fun seen call hcareful hseen => ⟨hcareful.addressed hseen, fun _ _ =>
        ⟨fun hno => absurd trivial hno, fun _ _ => id⟩⟩) (fun _ _ h => h) (writes_reconcile (draws stamp) name)
    exact Proc.writes_bind.mpr (Proc.writes_mono (fun _ _ _ => Proc.writes_pure.mpr trivial) hown)
  settles stamp name db hwf := by
    show Proc.under purpose.scheme.setting (purpose.keeps name) (fun s r => ∀ a, r = .ok a →
      ¬ ¬ ∃ owned, InOrder name s owned) (reconcile (draws stamp) name >>= fun _ => pure ()).run db
    refine Proc.establishes_bind (Proc.establishes_mono (fun s _ horder => ?_)
      (settles_reconcile (draws stamp) hwf))
    obtain ⟨owned, horder⟩ := horder
    exact Proc.establishes_pure fun s' hs' => not_not_intro ⟨owned, horder.alike hs'.2⟩

/-! ## What the informers are not told -/

/-- The call is on a pod that the ReplicaSet owns before it or after it, and its event does not name the
ReplicaSet: the pod has another controller that comes first, or it has been taken away. -/
def Unnamed (rsName : String) (db : Db) (call : StoreCall) : Prop :=
  ∃ event ∈ call.sends .pod db, rsKeyForPod event.object ≠ some rsName ∧
    (isOwnedBy event.object rsName = true ∨
      ∃ pod : Pod, stored .pod db event.name = some pod ∧ isOwnedBy pod rsName = true)

section Telling

variable {draws : Stamp → ℕ → Draw} {m : Manager (tasks draws)} {name : String}

/-- **What live streams hear.** A write that matters to a ReplicaSet is told, or it is one on a pod whose event does
not name the ReplicaSet. -/
theorem not_unheard (hwf : WellFormed m.db) (hcounter : m.UpToCounter) (hlive : m.Live)
    (hmax : currentRv m.db < u64Max) {w : Write} (hmatters : ¬ Alike name m.db (w.step m.db))
    (hnamed : ¬ Unnamed name m.db w.call) : ¬ m.Unheard name w.call := by
  intro hunheard
  have hsilent : ∀ i : Informer, ∀ event ∈ w.events i.kind m.db, name ∉ i.keys event := by
    intro i event hevent
    obtain ⟨s, rv, hs, hphase⟩ := hlive i
    exact hunheard i s hs event hevent (hcounter.hears hwf hmax hs hphase hevent)
  refine hmatters ⟨?_, fun pod howned => ?_⟩
  · rcases w.cases hwf .replicaSet with ⟨-, hsame⟩ | ⟨event, hevent, -, -, hstored⟩
    · exact hsame name
    · refine (hstored name).trans (if_neg fun heq => ?_)
      exact hsilent .replicaSet event (hevent ▸ List.mem_cons_self) (List.mem_singleton.mpr heq.symm)
  · rcases w.cases hwf .pod with ⟨-, hsame⟩ | ⟨event, hevent, -, -, hstored⟩
    · rw [hsame]
    · rw [hstored]
      by_cases heq : event.name = pod.metadata.name
      · have hmem : event ∈ w.events .pod m.db := hevent ▸ List.mem_cons_self
        have hkey : rsKeyForPod event.object ≠ some name := fun hkey =>
          hsilent .pod event hmem (Option.mem_toList.mpr hkey)
        have hno := fun hpod => hnamed ⟨event, hmem, hkey, hpod⟩
        rw [if_pos heq]
        constructor
        · intro hvalue
          obtain rfl : event.object = pod := by
            unfold WatchEvent.value at hvalue
            split at hvalue
            · cases hvalue
            · exact Option.some.inj hvalue
          exact absurd (.inl howned) hno
        · intro hbefore
          exact absurd (.inr ⟨pod, heq ▸ hbefore, howned⟩) hno
      · rw [if_neg heq]

/-- A write of the worker for the ReplicaSet does not come to what is only warned of, and one for another
ReplicaSet is told, if it matters. -/
def Fair (m : Manager (tasks draws)) (name key : String) (call : ApiCall) (fate : Fate) : Prop :=
  if key = name then warned m.db fate call = false
  else currentRv m.db < u64Max ∧ ¬ Unnamed name m.db call.storeCall

/-- The act ends no stream and starts nothing anew, no pod of the ReplicaSet is taken away untold, and no write on
pods fails for it. -/
def Calm (m : Manager (tasks draws)) (name : String) : ManagerAct Informer → Prop
  | .write w => currentRv m.db < u64Max ∧ ¬ Unnamed name m.db w.call
  | .access => ∀ key call next, m.worker = some (key, .write call next) → Fair m name key call .answered
  | .fail _ done => ∀ key call next, m.worker = some (key, .write call next) →
      Fair m name key call (if done then .lost else .refused)
  | .disconnect _ => False
  | .crash => False
  | _ => True

/-- A write of the worker that is fair spoils nothing. -/
theorem Fair.not_spoils {key : String} {call : ApiCall} {next : call.Reply → Job} {fate : Fate}
    (h : Fair m name key call fate) (hm : m.Safe purpose) (hworker : m.worker = some (key, .write call next))
    (hcounter : m.UpToCounter) (hlive : m.Live) : ¬ m.Spoils purpose name key call fate := by
  unfold Fair at h
  rintro ⟨hunheard, ⟨rfl, hignored⟩ | ⟨hne, hfate, -, hmatters⟩⟩
  · rw [if_pos rfl] at h
    exact Bool.false_ne_true (h.symm.trans hignored)
  · rw [if_neg hne] at h
    obtain ⟨seen, hseen, hwp⟩ := hm.worker key _ hworker
    exact @not_unheard draws m name hm.db hcounter hlive h.1 ⟨call.storeCall, (hwp.1 hseen).1⟩ hmatters h.2
      (hunheard hfate)

theorem Calm.not_misses {act : ManagerAct Informer} (h : Calm m name act) (hm : m.Safe purpose)
    (hcounter : m.UpToCounter) (hlive : m.Live) : ¬ m.Misses purpose name act := by
  cases act with
  | write w =>
    rintro ⟨hmatters, hunheard⟩
    exact not_unheard hm.db hcounter hlive h.1 hmatters h.2 hunheard
  | access =>
    rintro ⟨key, call, next, hworker, hspoils⟩
    exact (h key call next hworker).not_spoils hm hworker hcounter hlive hspoils
  | fail e done =>
    rintro ⟨key, call, next, hworker, hspoils⟩
    exact (h key call next hworker).not_spoils hm hworker hcounter hlive hspoils
  | handle i answered =>
    rintro ⟨hno, -⟩
    cases hno
  | disconnect i => exact absurd h not_false
  | crash => exact absurd h not_false
  | _ => exact not_false

end Telling

/-! ## Runs -/

/-- **No ReplicaSet is forgotten.** In every run of the controller-manager, with whatever others write and whatever
fails: a ReplicaSet has the pods that it asks for and a status that says so, and one that is gone has none, or the
name is owed, or the worker has it, or it has been missed and not owed since. -/
theorem replicasets_pending (draws : Stamp → ℕ → Draw) {db : Db} (hdb : WellFormed db)
    (acts : List (ManagerAct Informer)) (name : String) :
    (∃ owned, InOrder name ((Manager.start db : Manager (tasks draws)).run acts).db owned) ∨
      ((Manager.start db : Manager (tasks draws)).run acts).Owes name ∨
      ((Manager.start db : Manager (tasks draws)).run acts).Working name ∨
      (Manager.start db : Manager (tasks draws)).Missed purpose acts name := by
  by_cases horder : ∃ owned, InOrder name ((Manager.start db : Manager (tasks draws)).run acts).db owned
  · exact .inl horder
  · exact .inr (Manager.outdated_cases (served draws) hdb acts horder)

/-- **ReplicaSets settle.** Where a name is owed while the streams are live, and everything is calm from then on,
its ReplicaSet has the pods that it asks for and a status that says so, or it is gone with all its pods, as soon as
the name is neither owed nor at the worker any more. -/
theorem replicasets_settle {draws : Stamp → ℕ → Draw} {db : Db} (hdb : WellFormed db)
    {past rest : List (ManagerAct Informer)} {name : String}
    (hlive : ((Manager.start db : Manager (tasks draws)).run past).Live)
    (howed : ((Manager.start db : Manager (tasks draws)).run past).Owes name)
    (hcalm : ∀ mid act, mid ++ [act] <+: rest →
      Calm ((Manager.start db : Manager (tasks draws)).run (past ++ mid)) name act)
    (howes : ¬ ((Manager.start db : Manager (tasks draws)).run (past ++ rest)).Owes name)
    (hworking : ¬ ((Manager.start db : Manager (tasks draws)).run (past ++ rest)).Working name) :
    ∃ owned, InOrder name ((Manager.start db : Manager (tasks draws)).run (past ++ rest)).db owned := by
  have hlives := Manager.live_run (fun m => Calm m name) (fun _ _ h => h) (fun _ h => h) hlive hcalm
  have hsettled : ¬ purpose.outdated name ((Manager.start db : Manager (tasks draws)).run (past ++ rest)).db := by
    refine Manager.settled (served draws) hdb howed (fun mid act hmid => ?_) howes hworking
    exact (hcalm mid act hmid).not_misses (Manager.inv_run (served draws) hdb _).1 (Manager.upToCounter_run db _)
      (hlives mid (Runs.prefix_of_concat hmid))
  exact not_not.mp hsettled

/-- The streams open, and there is a resync. -/
def opening : List (ManagerAct Informer) :=
  [.connect .replicaSet, .poll .replicaSet, .poll .replicaSet, .poll .replicaSet, .connect .pod, .poll .pod,
    .poll .pod, .poll .pod, .handle .replicaSet true, .handle .pod true, .resync]

/-- The worker adopts the orphan and reports it, is told of both, and looks again. -/
def adopting : List (ManagerAct Informer) :=
  [.get sampleStamp, .access, .access, .access, .access, .access, .finish, .poll .replicaSet, .poll .pod,
    .handle .replicaSet true, .handle .pod true, .get sampleStamp, .access, .access, .access, .finish]

/-- One pod is wanted, and there is an orphan. -/
def orphanDb : Db := dbAfter (ownedCalls 1 [ownedPod "web" "2026-06-12T10:00:00Z" []])

abbrev sampleTasks : Tasks Informer := tasks fun _ => sampleDraws

/-- The list of the pods cannot be had, and the name waits for its delay. -/
def unreachable : List (ManagerAct Informer) :=
  opening ++ [.get sampleStamp, .access, .unreachable (.bail "connection refused"), .finish]

theorem replicasets_pending_a :
    ((∃ owned, InOrder "a" ((Manager.start orphanDb : Manager sampleTasks).run unreachable).db owned) ∨
      ((Manager.start orphanDb : Manager sampleTasks).run unreachable).Owes "a" ∨
      ((Manager.start orphanDb : Manager sampleTasks).run unreachable).Working "a" ∨
      (Manager.start orphanDb : Manager sampleTasks).Missed purpose unreachable "a") ∧
    ((Manager.start orphanDb : Manager sampleTasks).run unreachable).timers = [("a", 500)] ∧
    ((Manager.start orphanDb : Manager sampleTasks).run unreachable).worker.isNone = true :=
  ⟨replicasets_pending (fun _ => sampleDraws) (wellFormed_ownedCalls _ _) unreachable "a", by decide +kernel,
    by decide +kernel⟩

/-- The worker writes for the name only, and what it writes goes through. -/
def unwarned (m : Manager sampleTasks) (name : String) : Bool :=
  match m.worker with
  | some (key, .write call _) => key == name && !warned m.db .answered call
  | _ => true

theorem replicasets_settle_a :
    ∃ owned, InOrder "a" ((Manager.start orphanDb : Manager sampleTasks).run (opening ++ adopting)).db owned := by
  have hunwarned : ∀ n < adopting.length,
      unwarned ((Manager.start orphanDb : Manager sampleTasks).run (opening ++ adopting.take n)) "a" = true := by
    decide +kernel
  refine replicasets_settle (wellFormed_ownedCalls _ _) ?_ (.inl (by decide +kernel)) ?_ ?_ ?_
  · intro i
    cases i with
    | replicaSet => exact ⟨_, _, rfl, rfl⟩
    | pod => exact ⟨_, _, rfl, rfl⟩
  · intro mid act hmid
    have hact : act ∈ adopting := hmid.subset (by simp)
    have hlt : mid.length < adopting.length := by simpa using hmid.length_le
    have hnow := hunwarned mid.length hlt
    rw [← List.prefix_iff_eq_take.mp (Runs.prefix_of_concat hmid)] at hnow
    have haccess : Calm ((Manager.start orphanDb : Manager sampleTasks).run (opening ++ mid)) "a" .access := by
      intro key call next hworker
      unfold unwarned at hnow
      rw [hworker, Bool.and_eq_true, Bool.not_eq_true', beq_iff_eq] at hnow
      exact (if_pos hnow.1).mpr hnow.2
    simp only [adopting, List.mem_cons, List.not_mem_nil, or_false] at hact
    rcases hact with rfl | rfl | rfl | rfl | rfl | rfl | rfl | rfl | rfl | rfl | rfl | rfl | rfl | rfl | rfl | rfl
    all_goals first | exact haccess | trivial
  · refine Manager.not_owes_of_handled (by decide +kernel) (by decide +kernel) fun i => ?_
    cases i <;> decide +kernel
  · exact Manager.not_working_of_isNone (by decide +kernel)

end MyK8s.Controller.ReplicaSets
