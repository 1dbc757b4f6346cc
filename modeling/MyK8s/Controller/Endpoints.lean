import MyK8s.ApiServer.Alone
import MyK8s.ApiServer.Listing

/-!
# The endpoints controller

`src/controller/endpoints.rs` and the informers of `src/controller/endpoints_manager.rs`: the
addresses behind a service, and which services a pod event puts into the work queue.

The event carries the pod as it is now, and the services are looked up by its labels. So a service
whose addresses have changed is found unless the write took a backend out of its selector
(`triggers_complete_iff`).
-/

namespace MyK8s.Controller.Endpoints

open ApiServer
open ResourceMeta (getMeta)
open Serde (StringMap)

/-! ## The addresses of a service -/

/-- An empty selector matches nothing. -/
def podMatches (pod : Pod) (selector : StringMap) : Bool :=
  !selector.isEmpty && selector.toList.all fun (k, v) => pod.metadata.labels[k]? == some v

/-- Only a running pod that has reported an IP. -/
def backendIp (pod : Pod) : Option String := do
  let status ← pod.status
  if status.phase ≠ .running then none
  status.podIP

def servicesForPod (pod : Pod) (services : List Service) : List String :=
  (services.filter fun svc => podMatches pod svc.spec.selector).map fun svc => svc.metadata.name

/-- The list that `reconcile` computes. -/
def addresses (svc : Service) (pods : List Pod) : List EndpointAddress :=
  let addresses := (pods.filter fun pod => podMatches pod svc.spec.selector).filterMap fun pod =>
    (backendIp pod).map fun ip => { ip, port := svc.spec.targetPort }
  addresses.insertionSort fun a b => a.ip ≤ b.ip

/-! ## Reconciling a service -/

def writeEndpoints (stamp : Stamp) (svcName : String) (addresses : List EndpointAddress) :
    Client Unit := do
  match ← Client.get .endpoints svcName with
  | some (existing : Endpoints) =>
    if existing.addresses = addresses then return ()
    let existing : Endpoints := { existing with addresses }
    let _ ← Client.request (Handlers.replaceEndpoints existing.metadata.name existing)
    return ()
  | none =>
    let ep : Endpoints :=
      { apiVersion := "v1"
        kind := "Endpoints"
        metadata :=
          { name := svcName
            uid := none
            resourceVersion := none
            generation := none
            creationTimestamp := none
            labels := ∅
            ownerReferences := [] }
        addresses }
    let _ ← Client.request (Handlers.createEndpoints stamp ep)
    return ()

def reconcile (stamp : Stamp) (svcName : String) : Client Unit := do
  match ← Client.get .service svcName with
  | some (svc : Service) =>
    let pods : List Pod ← Client.list .pod
    writeEndpoints stamp svcName (addresses svc pods)
  | none =>
    match ← Client.get .endpoints svcName with
    | some (existing : Endpoints) =>
      match existing.metadata.resourceVersion with
      | some rv =>
        let _ ← Client.attempt (Client.request (Handlers.deleteEndpoints svcName (some rv)))
        return ()
      | none => return ()
    | none => return ()

/-- The list that a reconcile of the service would compute now. -/
def computed (svc : Service) (db : Db) : List EndpointAddress :=
  match ResourceStore.items Kind.pod.Obj db with
  | .ok pods => addresses svc pods
  | .error _ => []

section Alone

variable {db db' : Db} {stamp : Stamp} {svcName : String} {addrs : List EndpointAddress}

end Alone

/-! ## When the addresses change -/

/-- What a pod adds to the addresses of a service. -/
def backend (svc : Service) (pod : Pod) : Option String :=
  if podMatches pod svc.spec.selector then backendIp pod else none

theorem podMatches_congr {pod pod' : Pod} (h : pod.metadata.labels = pod'.metadata.labels)
    (selector : StringMap) : podMatches pod selector = podMatches pod' selector := by
  unfold podMatches
  rw [h]

theorem matches_of_backend_ne_none {svc : Service} {pod : Pod} (h : backend svc pod ≠ none) :
    podMatches pod svc.spec.selector = true := by
  by_contra hno
  exact h (if_neg hno)

theorem addresses_eq (svc : Service) (pods : List Pod) :
    addresses svc pods =
      ((pods.filterMap (backend svc)).insertionSort (· ≤ ·)).map fun ip =>
        ⟨ip, svc.spec.targetPort⟩ := by
  have hbackends : ((pods.filter fun pod => podMatches pod svc.spec.selector).filterMap fun pod =>
      (backendIp pod).map fun ip => (⟨ip, svc.spec.targetPort⟩ : EndpointAddress)) =
      (pods.filterMap (backend svc)).map fun ip => ⟨ip, svc.spec.targetPort⟩ := by
    rw [List.filterMap_filter, List.map_filterMap]
    congr 1
    funext pod
    unfold backend
    split <;> rfl
  unfold addresses
  rw [hbackends]
  exact (List.map_insertionSort (· ≤ ·) (fun a b : EndpointAddress => a.ip ≤ b.ip) _ _
    fun _ _ _ _ => Iff.rfl).symm

/-- The list depends on which addresses there are, and on nothing else. -/
theorem addresses_eq_iff (svc : Service) (pods pods' : List Pod) :
    addresses svc pods = addresses svc pods' ↔
      (pods.filterMap (backend svc)).Perm (pods'.filterMap (backend svc)) := by
  have hinj : Function.Injective fun ip => (⟨ip, svc.spec.targetPort⟩ : EndpointAddress) :=
    fun a b h => congrArg EndpointAddress.ip h
  rw [addresses_eq, addresses_eq, (List.map_injective_iff.mpr hinj).eq_iff]
  constructor
  · intro h
    have hsorted := List.perm_insertionSort (· ≤ ·) (pods.filterMap (backend svc))
    rw [h] at hsorted
    exact hsorted.symm.trans (List.perm_insertionSort _ _)
  · intro h
    have hsorted := (List.perm_insertionSort (· ≤ ·) _).trans
      (h.trans (List.perm_insertionSort (· ≤ ·) _).symm)
    exact hsorted.eq_of_pairwise' (List.pairwise_insertionSort _ _) (List.pairwise_insertionSort _ _)

section Computed

variable {svc : Service} {db db' : Db} {name : String}

/-- The address that the pod of a name adds. -/
def contribution (svc : Service) (db : Db) (name : String) : Option String :=
  (stored .pod db name).bind (backend svc)

theorem filterMap_toList {α β : Type} (f : α → Option β) (o : Option α) :
    o.toList.filterMap f = (o.bind f).toList := by
  rw [Option.toList_bind, List.filterMap_eq_flatMap_toList]
  rfl

/-- **One pod.** Where two databases differ in one pod at most, the lists that are computed differ
exactly if the pod adds something else. -/
theorem computed_eq_iff (hwf : WellFormed db) (hwf' : WellFormed db')
    (hagree : ∀ other, other ≠ name → stored .pod db' other = stored .pod db other) :
    computed svc db' = computed svc db ↔ contribution svc db' name = contribution svc db name := by
  obtain ⟨pods, hpods, -⟩ := hwf.items_ok .pod
  obtain ⟨pods', hpods', -⟩ := hwf'.items_ok .pod
  let rest := (WellFormed.others name pods).filterMap (backend svc)
  have hlisted : ∀ (listed : List Kind.pod.Obj) (o : Option Kind.pod.Obj),
      listed.Perm (o.toList ++ WellFormed.others name pods) →
        (listed.filterMap (backend svc)).Perm ((o.bind (backend svc)).toList ++ rest) := by
    intro listed o hperm
    refine (hperm.filterMap (backend svc)).trans (List.Perm.of_eq ?_)
    exact List.filterMap_append.trans (congrArg (· ++ rest) (filterMap_toList _ o))
  have hold := hlisted _ _ (hwf.items_perm hpods name)
  have hnew := hlisted _ _ (hwf.items_perm_of_agree hwf' hpods hpods' hagree)
  have hcomputed : computed svc db = addresses svc pods ∧ computed svc db' = addresses svc pods' := by
    unfold computed
    rw [hpods, hpods']
    exact ⟨rfl, rfl⟩
  rw [hcomputed.1, hcomputed.2]
  refine (addresses_eq_iff svc pods' pods).trans ?_
  refine (hold.congr_right _).trans ((hnew.congr_left _).trans ?_)
  refine (List.perm_append_right_iff _).trans ?_
  show (contribution svc db' name).toList.Perm (contribution svc db name).toList ↔ _
  cases contribution svc db' name <;> cases contribution svc db name <;> simp

end Computed

/-! ## What the informer enqueues -/

/-- The keys that `pod_informer` adds to the queue at an event, where it can list the services. -/
def podInformer (db : Db) (event : WatchEvent Pod) : List String :=
  match ResourceStore.items Kind.service.Obj db with
  | .ok services => servicesForPod event.object services
  | .error _ => []

/-- A write on a pod, under its own name. -/
structure PodWrite where
  op : ApiOp .pod
  addressed : op.storeOp.Addressed

namespace PodWrite

def write (w : PodWrite) : Write := ⟨⟨.pod, w.op.storeOp⟩, w.addressed⟩

def step (db : Db) (w : PodWrite) : Db := w.write.step db

/-- An event of the write makes the informer add the key. -/
def Enqueues (db : Db) (w : PodWrite) (key : String) : Prop :=
  ∃ event ∈ w.write.events .pod db, key ∈ podInformer (w.step db) event

/-- The write gives a pod that is a backend of the service labels that the selector does not match. -/
def TakesAway (db : Db) (w : PodWrite) (svc : Service) : Prop :=
  ∃ name pod base, w.op = .replaceSpec name pod ∧ w.op.storeOp.StartsFrom db base ∧
    backend svc base ≠ none ∧ podMatches pod svc.spec.selector = false

variable {db : Db} {w : PodWrite} {svc : Service} {base : Kind.pod.Obj}

theorem wellFormed_step (hwf : WellFormed db) (w : PodWrite) : WellFormed (w.step db) :=
  hwf.write w.write

/-- The services stay as they are. -/
theorem stored_service_step (db : Db) (w : PodWrite) (name : String) :
    stored .service (w.step db) name = stored .service db name := by
  by_cases hbase : ∃ base, w.op.storeOp.StartsFrom db base
  · obtain ⟨base, hbase⟩ := hbase
    exact hbase.stored_step_of_ne (by decide) name
  · exact congrArg (stored .service · name) (step_of_not_startsFrom hbase)

/-- A write that has an object to start from sends the object that it leaves, or has deleted. -/
theorem events_eq (hbase : w.op.storeOp.StartsFrom db base) :
    w.write.events .pod db = [⟨w.op.storeOp.eventType, (w.op.storeOp.effect db base).1⟩] := by
  have hrun : (w.op.storeOp.run .none db).events =
      [⟨w.op.storeOp.eventType, (w.op.storeOp.effect db base).1⟩] := by
    have hnone : Faults.none.txn = none := rfl
    rcases hbase.run_cases hnone with ⟨-, hrun⟩ | ⟨msg, -, hindex, -⟩
    · rw [hrun]
    · cases hindex
  unfold Write.events
  rw [dif_pos (show w.write.call.kind = .pod from rfl)]
  exact hrun

theorem enqueues_iff (hwf : WellFormed db) (hsvc : stored .service db svc.metadata.name = some svc)
    (hbase : w.op.storeOp.StartsFrom db base) :
    w.Enqueues db svc.metadata.name ↔
      podMatches (w.op.storeOp.effect db base).1 svc.spec.selector = true := by
  have hwf' := wellFormed_step hwf w
  obtain ⟨services, hservices, -⟩ := hwf'.items_ok .service
  have hsvc' : stored .service (w.step db) svc.metadata.name = some svc :=
    (stored_service_step db w _).trans hsvc
  unfold Enqueues podInformer
  rw [events_eq hbase, hservices]
  simp only [List.mem_singleton, exists_eq_left]
  unfold servicesForPod
  rw [List.mem_map]
  constructor
  · rintro ⟨other, hother, hname⟩
    obtain ⟨hmem, hmatches⟩ := List.mem_filter.mp hother
    have hstored : stored .service (w.step db) other.metadata.name = some other :=
      (hwf'.mem_items hservices).mp hmem
    rw [hname, hsvc'] at hstored
    obtain rfl := Option.some.inj hstored
    exact hmatches
  · intro hmatches
    exact ⟨svc, List.mem_filter.mpr ⟨(hwf'.mem_items hservices).mpr hsvc', hmatches⟩, rfl⟩

theorem computed_step_iff (hwf : WellFormed db) (hbase : w.op.storeOp.StartsFrom db base) :
    computed svc (w.step db) = computed svc db ↔
      contribution svc (w.step db) w.op.storeOp.name = contribution svc db w.op.storeOp.name := by
  refine computed_eq_iff hwf (wellFormed_step hwf w) fun other hne => ?_
  exact (hbase.stored_step other).trans (if_neg hne.symm)

/-- The pod before a write that starts from it. -/
theorem contribution_base {name : String} (hload : loadRequired Kind.pod.Obj db name = .ok base) :
    contribution svc db name = backend svc base := by
  unfold contribution
  rw [stored_eq_some_iff.mpr hload]
  rfl

/-- The pod after the write. -/
theorem contribution_step (hbase : w.op.storeOp.StartsFrom db base) :
    contribution svc (w.step db) w.op.storeOp.name =
      (WatchEvent.value ⟨w.op.storeOp.eventType, (w.op.storeOp.effect db base).1⟩).bind
        (backend svc) := by
  unfold contribution
  have hstored := (hbase.stored_step w.op.storeOp.name).trans (if_pos rfl)
  exact congrArg (Option.bind · (backend svc)) hstored

/-- **One write**: if it changes the addresses of the service, the informer finds the service, unless
the write takes a backend away. -/
theorem complete_iff (hwf : WellFormed db) (hsvc : stored .service db svc.metadata.name = some svc) :
    (computed svc (w.step db) ≠ computed svc db → w.Enqueues db svc.metadata.name) ↔
      ¬ w.TakesAway db svc := by
  by_cases hbase : ∃ base, w.op.storeOp.StartsFrom db base
  swap
  · have hsame : w.step db = db := step_of_not_startsFrom hbase
    rw [hsame]
    refine iff_of_true (fun hne => absurd rfl hne) ?_
    rintro ⟨name, pod, base, -, hstarts, -⟩
    exact hbase ⟨base, hstarts⟩
  obtain ⟨base, hbase⟩ := hbase
  have henqueues := enqueues_iff hwf hsvc hbase
  have hcomputed := @computed_step_iff db w svc base hwf hbase
  have hafter := @contribution_step db w svc base hbase
  rw [ne_eq, hcomputed, henqueues, hafter]
  obtain ⟨op, addressed⟩ := w
  cases op with
  | create obj =>
    have hbefore : contribution svc db (getMeta obj).name = none :=
      congrArg (Option.bind · (backend svc)) (stored_of_getElem?_none hbase.1)
    refine iff_of_true (fun hne => matches_of_backend_ne_none fun hnone => hne ?_) ?_
    · exact hnone.trans hbefore.symm
    · rintro ⟨name, pod, base', hop, -⟩
      cases hop
  | replaceSpec name obj =>
    have hbefore : contribution svc db name = backend svc base := contribution_base hbase.1
    have hlabels : podMatches ((ApiOp.replaceSpec name obj : ApiOp .pod).storeOp.effect db base).1
        svc.spec.selector = podMatches obj svc.spec.selector := podMatches_congr rfl _
    constructor
    · rintro hcomplete ⟨name', pod, base', hop, hbase', hbackend, hno⟩
      cases hop
      obtain rfl := hbase.unique hbase'
      have hmatches := hcomplete fun heq => hbackend ?_
      · rw [hlabels, hno] at hmatches
        cases hmatches
      · rw [← hbefore]
        refine heq.symm.trans (if_neg ?_)
        rw [hlabels, hno]
        exact Bool.false_ne_true
    · intro hkeeps hne
      by_contra hno
      refine hkeeps ⟨name, obj, base, rfl, hbase, fun hnone => hne ?_, ?_⟩
      · exact (if_neg hno).trans (hbefore.trans hnone).symm
      · rw [← hlabels]
        exact Bool.eq_false_iff.mpr hno
  | replaceStatus name rv status =>
    have hbefore : contribution svc db name = backend svc base := contribution_base hbase.1
    refine iff_of_true (fun hne => ?_) ?_
    · by_contra hno
      refine hne ((if_neg hno).trans (hbefore.trans (if_neg ?_)).symm)
      exact hno
    · rintro ⟨name', pod, base', hop, -⟩
      cases hop
  | delete name rv =>
    have hbefore : contribution svc db name = backend svc base := contribution_base hbase.1
    refine iff_of_true (fun hne => matches_of_backend_ne_none fun hnone => hne ?_) ?_
    · exact (hbefore.trans hnone).symm
    · rintro ⟨name', pod, base', hop, -⟩
      cases hop

end PodWrite

/-! ## Runs -/

/-- The Endpoints of the service have the addresses that a reconcile would compute now. -/
def UpToDate (svc : Service) (db : Db) : Prop :=
  ∃ ep : Endpoints, stored .endpoints db svc.metadata.name = some ep ∧ ep.addresses = computed svc db

/-- The database after the writes. -/
def afterPods (db : Db) (writes : List PodWrite) : Db := writes.foldl PodWrite.step db

section Runs

variable {db db' : Db} {svc : Service}

theorem afterPods_concat (db : Db) (past : List PodWrite) (w : PodWrite) :
    afterPods db (past ++ [w]) = w.step (afterPods db past) := List.foldl_concat ..

theorem wellFormed_afterPods (hwf : WellFormed db) (writes : List PodWrite) :
    WellFormed (afterPods db writes) := by
  induction writes generalizing db with
  | nil => exact hwf
  | cons w writes ih => exact ih (PodWrite.wellFormed_step hwf w)

theorem stored_service_afterPods (db : Db) (writes : List PodWrite) (name : String) :
    stored .service (afterPods db writes) name = stored .service db name := by
  induction writes generalizing db with
  | nil => rfl
  | cons w writes ih => exact (ih (w.step db)).trans (PodWrite.stored_service_step db w name)

/-- A write on a pod leaves the Endpoints alone. -/
theorem UpToDate.step (h : UpToDate svc db) {w : PodWrite}
    (hsame : computed svc (w.step db) = computed svc db) : UpToDate svc (w.step db) := by
  obtain ⟨ep, hep, haddresses⟩ := h
  refine ⟨ep, ?_, haddresses.trans hsame.symm⟩
  rw [← hep]
  by_cases hbase : ∃ base, w.op.storeOp.StartsFrom db base
  · obtain ⟨base, hbase⟩ := hbase
    exact hbase.stored_step_of_ne (by decide) _
  · exact congrArg (stored .endpoints · svc.metadata.name) (step_of_not_startsFrom hbase)

end Runs

/-- Every write that changes the addresses of the service enqueues it; and as long as no write does,
its Endpoints stay up to date. -/
structure TriggersComplete (svc : Service) (db : Db) (writes : List PodWrite) : Prop where
  enqueued : ∀ past w, past ++ [w] <+: writes →
    computed svc (w.step (afterPods db past)) ≠ computed svc (afterPods db past) →
      w.Enqueues (afterPods db past) svc.metadata.name
  current : ∀ past mid, past ++ mid <+: writes → UpToDate svc (afterPods db past) →
    (∀ p w, p ++ [w] <+: mid → ¬ w.Enqueues (afterPods db (past ++ p)) svc.metadata.name) →
      UpToDate svc (afterPods db (past ++ mid))

/-- **The triggers of the endpoints controller.** In every run of writes on pods, the triggers of a
service are complete if and only if no write takes a backend of the service away by its labels. -/
theorem triggers_complete_iff {svc : Service} {db : Db} (hwf : WellFormed db)
    (hsvc : stored .service db svc.metadata.name = some svc) (writes : List PodWrite) :
    TriggersComplete svc db writes ↔
      ∀ past w, past ++ [w] <+: writes → ¬ w.TakesAway (afterPods db past) svc := by
  have hone : ∀ past (w : PodWrite), (computed svc (w.step (afterPods db past)) ≠ computed svc (afterPods db past) →
      w.Enqueues (afterPods db past) svc.metadata.name) ↔ ¬ w.TakesAway (afterPods db past) svc :=
    fun past w => PodWrite.complete_iff (wellFormed_afterPods hwf past)
      ((stored_service_afterPods db past _).trans hsvc)
  constructor
  · exact fun h past w hp => (hone past w).mp (h.enqueued past w hp)
  · intro h
    refine ⟨fun past w hp => (hone past w).mpr (h past w hp), fun past mid hp hcurrent hquiet => ?_⟩
    -- along the writes that do not enqueue the service, none changes its addresses
    have hall : ∀ p, p <+: mid → UpToDate svc (afterPods db (past ++ p)) := by
      refine Runs.prefix_induction (by rwa [List.append_nil]) fun p w hpw ih => ?_
      have hpast : (past ++ p) ++ [w] <+: writes := by
        rw [List.append_assoc]
        exact ((List.prefix_append_right_inj past).mpr hpw).trans hp
      have hsame : computed svc (w.step (afterPods db (past ++ p))) =
          computed svc (afterPods db (past ++ p)) := by
        by_contra hne
        exact hquiet p w hpw ((hone (past ++ p) w).mpr (h (past ++ p) w hpast) hne)
      rw [← List.append_assoc, afterPods_concat]
      exact UpToDate.step ih hsame
    exact hall mid List.prefix_rfl

/-- A pod "web" with a label. -/
def labelled (app : String) (resourceVersion : Option String) : Pod :=
  let pod := samplePod "web" resourceVersion none
  { pod with metadata := { pod.metadata with labels := (∅ : StringMap).insert "app" app } }

def webService : Service where
  apiVersion := "v1"
  kind := "Service"
  metadata := (samplePod "web" (some "1") none).metadata
  spec :=
    { selector := (∅ : StringMap).insert "app" "web"
      port := 80
      targetPort := 8080
      clusterIP := none }

/-- The service, and a pod behind it that runs. -/
def backedDb : Db := dbAfter
  [(⟨.service, .createPrestamped webService⟩, .none),
    (⟨.pod, .createPrestamped (labelled "web" none)⟩, .none),
    (⟨.pod, .replaceStatus "web" "2"
      (Kind.setStatus .pod ⟨.running, [], none, some "10.244.0.7"⟩)⟩, .none)]

theorem wellFormed_backedDb : WellFormed backedDb := by
  refine WellFormed.empty.foldl fun call hcall => ?_
  simp only [List.mem_cons, List.not_mem_nil, or_false] at hcall
  rcases hcall with rfl | rfl | rfl
  · trivial
  · trivial
  · exact fun obj => rfl

theorem stored_webService : stored .service backedDb "web" = some webService := by
  have hstored : (stored .service backedDb "web").map (fun svc : Service => decide (svc = webService)) =
      some true := by decide +kernel
  obtain ⟨svc, hsvc, heq⟩ := Option.map_eq_some_iff.mp hstored
  rw [hsvc, of_decide_eq_true heq]

/-- The pod fails. -/
def failedWeb : PodWrite := ⟨.replaceStatus "web" "3" ⟨.failed, [], none, none⟩, fun _ => rfl⟩

theorem triggers_complete_failed : TriggersComplete webService backedDb [failedWeb] := by
  refine (triggers_complete_iff wellFormed_backedDb stored_webService [failedWeb]).mpr ?_
  rintro past w hp ⟨name, pod, base, hop, -⟩
  have hw : w = failedWeb := List.mem_singleton.mp (hp.subset (by simp))
  rw [hw] at hop
  cases hop

/-- The pod gets another label. -/
def relabelledWeb : PodWrite := ⟨.replaceSpec "web" (labelled "db" (some "3")), rfl⟩

/-- A pod that no longer matches leaves its address behind. -/
theorem relabelled_unnoticed : WellFormed backedDb ∧
    stored .service backedDb "web" = some webService ∧
      ¬ TriggersComplete webService backedDb [relabelledWeb] := by
  refine ⟨wellFormed_backedDb, stored_webService, fun h => ?_⟩
  have hone := h.enqueued [] relabelledWeb List.prefix_rfl
  refine (PodWrite.complete_iff wellFormed_backedDb stored_webService).mp hone ?_
  have hbase : ((loadRequired Kind.pod.Obj backedDb "web").toOption.map fun pod : Pod =>
      (version pod, backend webService pod)) = some ("3", some "10.244.0.7") := by decide +kernel
  obtain ⟨base, hload, heq⟩ := Option.map_eq_some_iff.mp hbase
  obtain ⟨hversion, hbackend⟩ := Prod.mk.inj heq
  have hload : loadRequired Kind.pod.Obj backedDb "web" = .ok base := by
    cases hl : loadRequired Kind.pod.Obj backedDb "web" with
    | error e =>
      rw [hl] at hload
      cases hload
    | ok pod =>
      rw [hl] at hload
      exact congrArg _ (Option.some.inj hload)
  refine ⟨"web", labelled "db" (some "3"), base, rfl, ⟨hload, congrArg some hversion.symm⟩, ?_, ?_⟩
  · rw [hbackend]
    exact Option.some_ne_none _
  · decide

end MyK8s.Controller.Endpoints
