import MyK8s.ApiServer.Among
import MyK8s.Controller.Endpoints
import MyK8s.Controller.Manager

/-!
# The endpoints manager

`src/controller/endpoints_manager.rs`: a service is looked at when it or a pod behind it changes, and the
resync lists all services. `endpoints_pending`: in every run, the Endpoints under a name hold the addresses
that are due, or the name is owed, at the worker, or missed.
-/

namespace MyK8s.Controller.Endpoints

open ApiServer
open ResourceMeta (getMeta)
open Process (Proc)

/-! ## The tasks -/

inductive Informer
  | service
  | pod
  deriving DecidableEq

def Informer.kind : Informer → Kind
  | service => .service
  | pod => .pod

/-- What the informers add at an event. -/
def Informer.keys : (i : Informer) → Db → WatchEvent i.kind.Obj → List String
  | service, _, event => [(event.object : Service).metadata.name]
  | pod, db, event => podInformer db event

/-- Only the mapping of a pod needs the services. -/
def Informer.asks : Informer → Bool
  | service => false
  | pod => true

/-- The names that `resync_loop` adds. -/
def resyncKeys (db : Db) : List String := (listed .service db).map fun svc : Service => svc.metadata.name

def tasks : Tasks Informer where
  kind := Informer.kind
  keys := Informer.keys
  asks := Informer.asks
  resync := resyncKeys
  reconcile := reconcile

/-! ## The purpose -/

/-- The addresses that the Endpoints under the name have. -/
def held (name : String) (db : Db) : Option (List EndpointAddress) :=
  (stored .endpoints db name).map fun ep : Endpoints => ep.addresses

/-- The addresses that they should have. Where there is no service, there should be no Endpoints. -/
def due (name : String) (db : Db) : Option (List EndpointAddress) :=
  (stored .service db name).map fun svc : Service => computed svc db

/-- The result of a delete is not looked at. -/
def Unheeded : ApiCall → Prop
  | ⟨.endpoints, .delete _ _⟩ => True
  | _ => False

def purpose : Purpose where
  outdated name db := held name db ≠ due name db
  rely name db db' := stored .service db' name = stored .service db name ∧
    stored .endpoints db' name = stored .endpoints db name ∧ due name db' = due name db
  ignored call fate _ := fate = .refused ∧ Unheeded call
  shared := False

section Reconcile

variable {db db' : Db} {name : String} {stamp : Stamp}

theorem held_congr (h : stored .endpoints db' name = stored .endpoints db name) :
    held name db' = held name db := by
  unfold held
  rw [h]

theorem mem_podInformer (hwf : WellFormed db) {event : WatchEvent Pod} : name ∈ podInformer db event ↔
    ∃ svc : Service, stored .service db name = some svc ∧ podMatches event.object svc.spec.selector = true := by
  obtain ⟨services, hservices, -⟩ := hwf.items_ok .service
  unfold podInformer
  rw [hservices]
  unfold servicesForPod
  rw [List.mem_map]
  constructor
  · rintro ⟨svc, hsvc, rfl⟩
    obtain ⟨hmem, hmatches⟩ := List.mem_filter.mp hsvc
    exact ⟨svc, (hwf.mem_items hservices).mp hmem, hmatches⟩
  · rintro ⟨svc, hsvc, hmatches⟩
    have hname : svc.metadata.name = name := (hwf.stored_eq_some.mp hsvc).1
    refine ⟨svc, List.mem_filter.mpr ⟨(hwf.mem_items hservices).mpr ?_, hmatches⟩, hname⟩
    show stored .service db svc.metadata.name = some svc
    rw [hname, hsvc]

theorem computed_congr (hwf : WellFormed db) (hwf' : WellFormed db')
    (h : ∀ other, stored .pod db' other = stored .pod db other) (svc : Service) :
    computed svc db' = computed svc db := by
  refine (@computed_eq_iff svc db db' svc.metadata.name hwf hwf' fun other _ => h other).mpr ?_
  unfold contribution
  rw [h]

/-- A write on Endpoints leaves what is due. -/
theorem due_of_endpoints (hwf : WellFormed db) (hwf' : WellFormed db')
    (h : ∀ k ≠ Kind.endpoints, ∀ other, stored k db' other = stored k db other) (name : String) :
    due name db' = due name db := by
  unfold due
  rw [h .service (by decide)]
  congr 1
  funext svc
  exact computed_congr hwf hwf' (h .pod (by decide)) svc

/-- Whom an event tells of depends on the services. -/
theorem told_congr (hwf : WellFormed db) (hwf' : WellFormed db')
    (h : stored .service db' name = stored .service db name) (i : Informer) (event : WatchEvent i.kind.Obj)
    (hk : name ∈ i.keys db event) : name ∈ i.keys db' event := by
  cases i with
  | service => exact hk
  | pod =>
    obtain ⟨svc, hsvc, hmatches⟩ := (mem_podInformer hwf).mp hk
    exact (mem_podInformer hwf').mpr ⟨svc, h.trans hsvc, hmatches⟩

/-- A write of the worker is on the Endpoints of its name. -/
theorem own_endpoints {seen : List Db} {op : ApiOp .endpoints}
    (h : (∀ db ∈ seen, WellFormed db) → op.storeOp.name = name ∧ op.storeOp.Addressed) :
    purpose.Own tasks name seen ⟨.endpoints, op⟩ := by
  intro hseen
  obtain ⟨hname, haddressed⟩ := h hseen
  refine ⟨haddressed, fun db hwf => ?_⟩
  obtain ⟨hkinds, hnames⟩ := ApiCall.exec_frame op db
  have hwf' : WellFormed (ApiCall.exec ⟨.endpoints, op⟩ db).2 := ApiCall.wellFormed_exec hwf rfl haddressed
  refine ⟨fun _ k hk => ⟨hkinds .service (by decide) k, hnames k (hname ▸ hk), due_of_endpoints hwf hwf' hkinds k⟩,
    fun i event => ?_⟩
  exact told_congr hwf hwf' (hkinds .service (by decide) name) i event

theorem own_writeEndpoints {seen : List Db} (addrs : List EndpointAddress) :
    Proc.writes (purpose.Own tasks name) (fun _ _ => True) (writeEndpoints stamp name addrs) seen := by
  unfold writeEndpoints
  refine Proc.writes_bind.mpr (Client.writes_get.mpr fun db o ho => ?_)
  cases o with
  | some existing =>
    simp only
    split
    · exact Proc.writes_pure.mpr trivial
    · refine Proc.writes_bind.mpr (Client.writes_request.mpr ?_)
      refine Proc.writes_mono (Q := fun _ _ => True) (fun _ _ _ => Proc.writes_pure.mpr trivial) ?_
      refine Handlers.writes_replace (k := .endpoints) fun _ => own_endpoints fun hseen => ⟨?_, rfl⟩
      have hwf := hseen db List.mem_cons_self
      rw [hwf.get_eq] at ho
      exact (hwf.stored_eq_some.mp (Except.ok.inj ho)).1
  | none =>
    refine Proc.writes_bind.mpr (Client.writes_request.mpr ?_)
    refine Proc.writes_mono (Q := fun _ _ => True) (fun _ _ _ => Proc.writes_pure.mpr trivial) ?_
    unfold Handlers.createEndpoints
    refine Proc.writes_bind.mpr (Handler.writes_lift.mpr fun _ _ => ?_)
    exact Handlers.writes_create (k := .endpoints) (own_endpoints fun _ => ⟨rfl, trivial⟩)

theorem own_reconcile (stamp : Stamp) (name : String) :
    Proc.writes (purpose.Own tasks name) (fun _ _ => True) (reconcile stamp name) [] := by
  unfold reconcile
  refine Proc.writes_bind.mpr (Client.writes_get.mpr fun db o _ => ?_)
  cases o with
  | some svc =>
    exact Proc.writes_bind.mpr ((Client.writes_list (k := .pod)).mpr fun _ pods _ => own_writeEndpoints _)
  | none =>
    refine Proc.writes_bind.mpr (Client.writes_get.mpr fun _ o _ => ?_)
    cases o with
    | none => exact Proc.writes_pure.mpr trivial
    | some existing =>
      simp only
      split
      · refine Proc.writes_bind.mpr (Client.writes_attempt (Client.writes_request.mpr ?_) ?_)
        · refine Handlers.writes_delete (k := .endpoints) fun rv => own_endpoints fun _ => ⟨rfl, trivial⟩
        · exact fun _ _ _ => Proc.writes_pure.mpr trivial
      · exact Proc.writes_pure.mpr trivial

/-! ## A reconcile among others -/

instance (name : String) : IsPreorder Db (purpose.keeps name) where
  refl _ := ⟨id, rfl, rfl, rfl⟩
  trans _ _ _ h h' :=
    ⟨h'.1 ∘ h.1, h'.2.1.trans h.2.1, h'.2.2.1.trans h.2.2.1, h'.2.2.2.trans h.2.2.2⟩

theorem serves : Serves purpose.scheme.setting := ⟨rfl, fun e _ => ⟨e, rfl⟩⟩

/-- The Endpoints have the addresses that they should have. -/
def Right (name : String) (db : Db) : Prop := held name db = due name db

theorem Right.keeps (h : Right name db) (hk : purpose.keeps name db db') : Right name db' :=
  (held_congr hk.2.2.1).trans (h.trans hk.2.2.2.symm)

/-- A write on the Endpoints that is answered well. -/
theorem right_exec (hwf : WellFormed db) {op : ApiOp .endpoints} {reply : Kind.endpoints.Obj}
    (hexec : (ApiCall.exec ⟨.endpoints, op⟩ db).1 = .ok reply) (haddressed : op.storeOp.Addressed)
    (hname : op.storeOp.name = name)
    (hdue : (WatchEvent.value ⟨op.storeOp.eventType, reply⟩).map (fun ep : Endpoints => ep.addresses) =
      due name db) : Right name (ApiCall.exec ⟨.endpoints, op⟩ db).2 := by
  have hwf' : WellFormed (ApiCall.exec ⟨.endpoints, op⟩ db).2 := ApiCall.wellFormed_exec hwf rfl haddressed
  have hheld := congrArg (Option.map fun ep : Endpoints => ep.addresses) (ApiCall.stored_exec hexec)
  rw [hname] at hheld
  exact hheld.trans (hdue.trans (due_of_endpoints hwf hwf' (ApiCall.exec_frame op db).1 name).symm)

theorem establishes_writeEndpoints (hwf : WellFormed db) {addrs : List EndpointAddress}
    (hdue : due name db = some addrs) :
    Proc.establishes purpose.scheme.setting (purpose.keeps name) (fun s _ => Right name s)
      (writeEndpoints stamp name addrs) db := by
  unfold writeEndpoints
  refine Proc.establishes_bind (Client.establishes_get fun db' db'' hdb' hdb'' => ?_)
  have hwf'' : WellFormed db'' := hdb''.1 (hdb'.1 hwf)
  have hdue'' : due name db'' = some addrs := hdb''.2.2.2.trans (hdb'.2.2.2.trans hdue)
  have hstored : stored .endpoints db'' name = stored .endpoints db' name := hdb''.2.2.1
  cases hep : stored .endpoints db' name with
  | some existing =>
    rw [hep] at hstored
    simp only
    split
    · rename_i heq
      refine Proc.establishes_pure fun s hs => Right.keeps ?_ hs
      refine Eq.trans ?_ hdue''.symm
      unfold held
      rw [hstored]
      exact congrArg some heq
    · have hname : (getMeta existing).name = name := (hwf''.stored_eq_some.mp hstored).1
      refine Proc.establishes_bind (Client.establishes_request ?_)
      refine Handlers.establishes_replace (k := .endpoints) serves fun t s reply ht hexec hs => ?_
      have hright := right_exec (ht.1 hwf'') hexec rfl hname (by
        obtain ⟨base, -, rfl, -⟩ := ApiCall.startsFrom_of_exec (Prod.ext hexec rfl)
        exact (ht.2.2.2.trans hdue'').symm)
      exact Proc.establishes_pure fun s' hs' => (hright.keeps hs).keeps hs'
  | none =>
    refine Proc.establishes_bind (Client.establishes_request ?_)
    unfold Handlers.createEndpoints
    refine Proc.establishes_bind (Handler.establishes_lift fun db3 _ hdb3 _ => ?_)
    refine Handler.establishes_store (k := .endpoints) serves fun t s reply ht hexec hs => ?_
    have hright := right_exec (ht.1 (hdb3.1 hwf'')) hexec trivial rfl (by
      obtain ⟨base, hbase, rfl, -⟩ := ApiCall.startsFrom_of_exec (Prod.ext hexec rfl)
      obtain rfl := hbase.2
      exact (ht.2.2.2.trans (hdb3.2.2.2.trans hdue'')).symm)
    exact Proc.establishes_pure fun s' hs' => (hright.keeps hs).keeps hs'

/-- Endpoints under the version that they have are deleted, unless the delete is refused. -/
theorem under_delete {existing : Endpoints} (hwf : WellFormed db) (hdue : due name db = none)
    (hstored : stored .endpoints db name = some existing) {Q : Db → Except ClientError Endpoints → Prop}
    (hQ : ∀ s r, Right name s → Q s r) :
    Proc.under purpose.scheme.setting (purpose.keeps name) Q
      (Client.request (Handlers.deleteEndpoints name (some (version existing)))).run db := by
  have hdeleted : ∀ t, purpose.keeps name db t →
      Right name (ApiCall.exec ⟨.endpoints, .delete name (version existing)⟩ t).2 := by
    intro t ht
    have hload := stored_eq_some_iff.mp (ht.2.2.1.trans hstored)
    have hstarts : (ApiOp.delete name (version existing) : ApiOp .endpoints).storeOp.StartsFrom t existing :=
      ⟨hload, rfl⟩
    have hexec := @ApiCall.exec_of_startsFrom .endpoints (.delete name (version existing)) t existing hstarts
    exact right_exec (ht.1 hwf) (congrArg Prod.fst hexec) trivial rfl (ht.2.2.2.trans hdue).symm
  refine Client.under_request fun t ht => ⟨fun _ s hs => ?_, fun e => ⟨fun hno => ?_, fun _ s hs => ?_⟩⟩
  · exact hQ s _ ((hdeleted t ht).keeps hs)
  · exact absurd ⟨rfl, trivial⟩ hno
  · exact hQ s _ ((hdeleted t ht).keeps hs)

/-- **A reconcile among others.** If nothing is written in between that matters to the name, a reconcile that
succeeds leaves the Endpoints right. -/
theorem settles_reconcile (hwf : WellFormed db) :
    purpose.scheme.Settles name (reconcile stamp name).run db := by
  suffices h : Proc.establishes purpose.scheme.setting (purpose.keeps name) (fun s _ => Right name s)
      (reconcile stamp name) db from
    Proc.under_mono (fun s r hr a ha => not_not_intro (hr a ha)) h
  unfold reconcile
  refine Proc.establishes_bind (Client.establishes_get fun db' db'' hdb' hdb'' => ?_)
  have hwf'' : WellFormed db'' := hdb''.1 (hdb'.1 hwf)
  have hservice : stored .service db'' name = stored .service db' name := hdb''.2.1
  cases hsvc : stored .service db' name with
  | some svc =>
    refine Proc.establishes_bind (Client.establishes_list (k := .pod) fun t t' ht ht' => ?_)
    refine establishes_writeEndpoints (ht'.1 (ht.1 hwf'')) ?_
    have hdue : due name t = some (computed svc t) :=
      congrArg (Option.map fun svc : Service => computed svc t) (ht.2.1.trans (hservice.trans hsvc))
    have hcomputed : computed svc t = addresses svc (listed .pod t) := by
      unfold computed
      rw [(ht.1 hwf'').items_eq]
    exact ht'.2.2.2.trans (hdue.trans (congrArg some hcomputed))
  | none =>
    have hdue : due name db'' = none :=
      congrArg (Option.map fun svc : Service => computed svc db'') (hservice.trans hsvc)
    refine Proc.establishes_bind (Client.establishes_get fun t t' ht ht' => ?_)
    have hwf' : WellFormed t' := ht'.1 (ht.1 hwf'')
    have hdue' : due name t' = none := ht'.2.2.2.trans (ht.2.2.2.trans hdue)
    have hendpoints : stored .endpoints t' name = stored .endpoints t name := ht'.2.2.1
    cases hep : stored .endpoints t name with
    | none =>
      refine Proc.establishes_pure fun s hs => Right.keeps ?_ hs
      exact (congrArg (Option.map fun ep : Endpoints => ep.addresses) (hendpoints.trans hep)).trans hdue'.symm
    | some existing =>
      have hrv : (Endpoints.metadata existing).resourceVersion = some (version existing) :=
        hwf'.resourceVersion_eq (hendpoints.trans hep)
      simp only [hrv]
      refine Proc.establishes_bind (Client.establishes_attempt ?_)
      refine under_delete hwf' hdue' (hendpoints.trans hep) fun s r hright => ?_
      exact Proc.establishes_pure fun s' hs' => hright.keeps hs'

end Reconcile

theorem served : purpose.Served tasks where
  refl _ _ := ⟨rfl, rfl, rfl⟩
  trans _ _ _ _ h h' := ⟨h'.1.trans h.1, h'.2.1.trans h.2.1, h'.2.2.trans h.2.2⟩
  outdated name db db' h hout := by
    intro hright
    exact hout ((held_congr h.2.1).trans (hright.trans h.2.2.symm))
  told name db db' i event hwf hwf' h hk := told_congr hwf hwf' h.1 i event hk
  own := own_reconcile
  settles _ _ _ hwf := settles_reconcile hwf

/-! ## What a write can make the manager miss -/

section Misses

variable {m : Manager tasks} {name : String} {w : Write}

/-- No event of the write makes an informer with a live stream add the name. -/
def Silent (m : Manager tasks) (name : String) (w : Write) : Prop :=
  ∀ i : Informer, ∀ event ∈ w.events i.kind m.db, name ∉ i.keys (w.step m.db) event

theorem silent_iff (hwf : WellFormed m.db) (hcounter : m.UpToCounter) (hlive : m.Live)
    (hmax : currentRv m.db < u64Max) : Silent m name w ↔ ∀ i s, m.feeds i = some s →
      ∀ event ∈ w.events (tasks.kind i) m.db, s.Hears (fromZero _) event →
        name ∉ tasks.keys i (w.step m.db) event := by
  constructor
  · exact fun h i s _ event hevent _ => h i event hevent
  · intro h i event hevent
    obtain ⟨s, rv, hs, hphase⟩ := hlive i
    exact h i s hs event hevent (hcounter.hears hwf hmax hs hphase hevent)

theorem misses_iff (hwf : WellFormed m.db) (hcounter : m.UpToCounter) (hlive : m.Live)
    (hmax : currentRv m.db < u64Max) : m.Misses purpose name (.write w) ↔
      ¬ purpose.rely name m.db (w.step m.db) ∧ Silent m name w :=
  and_congr_right fun _ => (silent_iff hwf hcounter hlive hmax).symm

/-- A write on another kind than services, pods and Endpoints does not matter. -/
theorem rely_of_frame (hwf : WellFormed m.db)
    (h : ∀ k ∈ [Kind.service, .pod, .endpoints], ∀ other, stored k (w.step m.db) other = stored k m.db other) :
    purpose.rely name m.db (w.step m.db) := by
  refine ⟨h .service (by decide) name, h .endpoints (by decide) name, ?_⟩
  unfold due
  rw [h .service (by decide)]
  congr 1
  funext svc
  exact computed_congr hwf (hwf.write w) (h .pod (by decide)) svc

/-- The service under the name is another one, or it is the same and its addresses are others, or the
Endpoints are. -/
theorem not_rely_cases (h : ¬ purpose.rely name m.db (w.step m.db)) :
    stored .service (w.step m.db) name ≠ stored .service m.db name ∨
    stored .endpoints (w.step m.db) name ≠ stored .endpoints m.db name ∨
    ∃ svc, stored .service m.db name = some svc ∧ computed svc (w.step m.db) ≠ computed svc m.db := by
  by_contra hno
  simp only [not_or, not_not, not_exists, not_and] at hno
  obtain ⟨hsvc, hep, hcomputed⟩ := hno
  refine h ⟨hsvc, hep, ?_⟩
  unfold due
  rw [hsvc]
  cases hs : stored .service m.db name with
  | none => rfl
  | some svc => exact congrArg some (hcomputed svc hs)

/-- A write that changes the service under a name is told. -/
theorem not_silent_of_service (hwf : WellFormed m.db)
    (h : stored .service (w.step m.db) name ≠ stored .service m.db name) : ¬ Silent m name w := by
  intro hsilent
  rcases w.cases hwf .service with ⟨-, hsame⟩ | ⟨event, hevent, -, -, hstored⟩
  · exact h (hsame name)
  · by_cases hname : event.name = name
    · refine hsilent .service event (hevent ▸ List.mem_cons_self) ?_
      exact List.mem_singleton.mpr hname.symm
    · exact h ((hstored name).trans (if_neg hname))

/-- The call as a write of somebody else. -/
def ofCall (call : ApiCall) (ha : call.op.storeOp.Addressed) : Write := ⟨call.storeCall, ha⟩

/-- The call leaves other Endpoints under the name, or it takes a pod that is a backend of the service out of
its selector. -/
def Unseen (db : Db) (name : String) (call : ApiCall) : Prop :=
  stored .endpoints (call.exec db).2 name ≠ stored .endpoints db name ∨
    ∃ (svc : Service) (w : PodWrite), stored .service db name = some svc ∧ call = ⟨.pod, w.op⟩ ∧
      w.TakesAway db svc

/-- A write on a pod is missed exactly if it takes a backend away. -/
theorem silent_pod_iff (hwf : WellFormed m.db) {pw : PodWrite} {svc : Service}
    (hsvc : stored .service m.db name = some svc) :
    (computed svc (pw.step m.db) ≠ computed svc m.db ∧ Silent m name pw.write) ↔ pw.TakesAway m.db svc := by
  have hname : svc.metadata.name = name := (hwf.stored_eq_some.mp hsvc).1
  have hcomplete := @PodWrite.complete_iff m.db pw svc hwf (by rw [hname]; exact hsvc)
  rw [hname] at hcomplete
  have hsilent : Silent m name pw.write ↔ ¬ pw.Enqueues m.db name := by
    constructor
    · rintro h ⟨event, hevent, hmem⟩
      exact h .pod event hevent hmem
    · intro h i event hevent hmem
      cases i with
      | pod => exact h ⟨event, hevent, hmem⟩
      | service =>
        have hno : pw.write.events Informer.service.kind m.db = [] :=
          dif_neg (show ¬ Kind.pod = Kind.service by decide)
        rw [hno] at hevent
        cases hevent
  rw [hsilent]
  constructor
  · rintro ⟨hne, hno⟩
    by_contra htakes
    exact hno (hcomplete.mpr htakes hne)
  · intro htakes
    by_contra hno
    rw [not_and_not_right] at hno
    exact hcomplete.mp hno htakes

/-- **What a write can make the manager miss**, when all its streams are live: other Endpoints, and a pod
that is taken out of the selector of its service. -/
theorem misses_ofCall_iff (hwf : WellFormed m.db) (hcounter : m.UpToCounter) (hlive : m.Live)
    (hmax : currentRv m.db < u64Max) (call : ApiCall) (ha : call.op.storeOp.Addressed) :
    m.Misses purpose name (.write (ofCall call ha)) ↔ Unseen m.db name call := by
  rw [misses_iff hwf hcounter hlive hmax]
  obtain ⟨k, op⟩ := call
  obtain ⟨hkinds, -⟩ := ApiCall.exec_frame op m.db
  have hother : k ∉ [Kind.service, .pod, .endpoints] → (¬ purpose.rely name m.db ((ofCall ⟨k, op⟩ ha).step m.db) ∧
      Silent m name (ofCall ⟨k, op⟩ ha) ↔ Unseen m.db name ⟨k, op⟩) := by
    intro hk
    refine iff_of_false (fun h => h.1 (rely_of_frame hwf fun k' hk' => hkinds k' ?_)) ?_
    · rintro rfl
      exact hk hk'
    · rintro (hne | ⟨svc, pw, -, hcall, -⟩)
      · exact hne (hkinds .endpoints (fun heq => hk (heq ▸ by decide)) name)
      · obtain rfl : k = .pod := congrArg ApiCall.kind hcall
        exact hk (by decide)
  cases k with
  | node => exact hother (by decide)
  | replicaSet => exact hother (by decide)
  | service =>
    refine iff_of_false ?_ ?_
    · rintro ⟨hrely, hsilent⟩
      rcases not_rely_cases hrely with hsvc | hep | ⟨svc, -, hcomputed⟩
      · exact not_silent_of_service hwf hsvc hsilent
      · exact hep (hkinds .endpoints (by decide) name)
      · exact hcomputed (computed_congr hwf (hwf.write (ofCall _ ha)) (hkinds .pod (by decide)) svc)
    · rintro (hne | ⟨svc, pw, -, hcall, -⟩)
      · exact hne (hkinds .endpoints (by decide) name)
      · cases congrArg ApiCall.kind hcall
  | endpoints =>
    constructor
    · rintro ⟨hrely, -⟩
      rcases not_rely_cases hrely with hsvc | hep | ⟨svc, -, hcomputed⟩
      · exact absurd (hkinds .service (by decide) name) hsvc
      · exact .inl hep
      · exact absurd (computed_congr hwf (hwf.write (ofCall _ ha)) (hkinds .pod (by decide)) svc) hcomputed
    · rintro (hne | ⟨svc, pw, -, hcall, -⟩)
      · refine ⟨fun hrely => hne hrely.2.1, fun i event hevent => ?_⟩
        have hkind : ¬ Kind.endpoints = i.kind := by cases i <;> decide
        have hno : (ofCall ⟨.endpoints, op⟩ ha).events i.kind m.db = [] := dif_neg hkind
        rw [hno] at hevent
        cases hevent
      · cases congrArg ApiCall.kind hcall
  | pod =>
    have hframe := hkinds .endpoints (by decide) name
    let pw : PodWrite := ⟨op, ha⟩
    constructor
    · rintro ⟨hrely, hsilent⟩
      rcases not_rely_cases hrely with hsvc | hep | ⟨svc, hsvc, hcomputed⟩
      · exact absurd (hkinds .service (by decide) name) hsvc
      · exact absurd hframe hep
      · exact .inr ⟨svc, pw, hsvc, rfl, (@silent_pod_iff m name hwf pw svc hsvc).mp ⟨hcomputed, hsilent⟩⟩
    · rintro (hne | ⟨svc, ⟨op', ha'⟩, hsvc, hcall, htakes⟩)
      · exact absurd hframe hne
      · cases hcall
        obtain ⟨hcomputed, hsilent⟩ := (@silent_pod_iff m name hwf ⟨op', ha'⟩ svc hsvc).mpr htakes
        refine ⟨fun hrely => hcomputed ?_, hsilent⟩
        have hdue : due name (PodWrite.step m.db ⟨op', ha'⟩) = due name m.db := hrely.2.2
        have hsvc' : stored .service (PodWrite.step m.db ⟨op', ha'⟩) name = some svc := hrely.1.trans hsvc
        unfold due at hdue
        rw [hsvc, hsvc'] at hdue
        exact Option.some.inj hdue

end Misses

/-! ## Runs -/

/-- The act ends no stream and starts nothing anew, the informers get their answers, no delete of the worker
is refused, and what somebody else writes is seen. -/
def Calm (m : Manager tasks) (name : String) : ManagerAct Informer → Prop
  | .write w => currentRv m.db < u64Max ∧
      ∃ call, ∃ ha, w = ofCall call ha ∧ ¬ Unseen m.db name call
  | .disconnect _ => False
  | .crash => False
  | .handle _ answered => answered = true
  | .fail _ done => done = true ∨ ∀ key call next, m.worker = some (key, .write call next) → ¬ Unheeded call
  | _ => True

theorem Calm.not_misses {m : Manager tasks} {name : String} {act : ManagerAct Informer} (h : Calm m name act)
    (hwf : WellFormed m.db) (hcounter : m.UpToCounter) (hlive : m.Live) : ¬ m.Misses purpose name act := by
  cases act with
  | write w =>
    obtain ⟨hmax, call, ha, rfl, hseen⟩ := h
    exact fun hmisses => hseen ((misses_ofCall_iff hwf hcounter hlive hmax call ha).mp hmisses)
  | handle i answered =>
    rintro ⟨-, hno, -⟩
    cases hno.symm.trans h
  | access =>
    rintro ⟨key, call, next, -, -, ⟨-, hno, -⟩ | ⟨-, -, hno, -⟩⟩
    · cases hno
    · exact hno
  | fail e done =>
    rintro ⟨key, call, next, hworker, -, ⟨-, hrefused, hunheeded⟩ | ⟨-, -, hno, -⟩⟩
    · rcases h with rfl | hheeded
      · cases hrefused
      · exact hheeded key call next hworker hunheeded
    · exact hno
  | disconnect i => exact absurd h not_false
  | crash => exact absurd h not_false
  | _ => exact not_false

/-- **Nothing is forgotten.** In every run of the endpoints manager, with whatever others write and whatever
fails: the Endpoints under a name have the addresses that are due, or the name is owed, or the worker has
it, or it has been missed and not owed since. -/
theorem endpoints_pending {db : Db} (hdb : WellFormed db) (acts : List (ManagerAct Informer)) (name : String) :
    Right name ((Manager.start db : Manager tasks).run acts).db ∨
      ((Manager.start db : Manager tasks).run acts).Owes name ∨
      ((Manager.start db : Manager tasks).run acts).Working name ∨
      (Manager.start db : Manager tasks).Missed purpose acts name := by
  by_cases hright : Right name ((Manager.start db : Manager tasks).run acts).db
  · exact .inl hright
  · exact .inr (Manager.outdated_cases served hdb acts hright)

/-- The informers open their streams and get what is in them, and there is a resync. -/
def opening : List (ManagerAct Informer) :=
  [.connect .service, .poll .service, .poll .service, .poll .service, .connect .pod, .poll .pod, .poll .pod,
    .poll .pod, .handle .service true, .handle .pod true, .resync]

/-- The worker reconciles a service that has no Endpoints, and their create is refused. -/
def refused : List (ManagerAct Informer) :=
  opening ++ [.get sampleStamp, .access, .access, .access, .fail (.internal "sled: disk full") false, .finish]

theorem endpoints_pending_web :
    (Right "web" ((Manager.start backedDb : Manager tasks).run refused).db ∨
      ((Manager.start backedDb : Manager tasks).run refused).Owes "web" ∨
      ((Manager.start backedDb : Manager tasks).run refused).Working "web" ∨
      (Manager.start backedDb : Manager tasks).Missed purpose refused "web") ∧
    (stored .endpoints ((Manager.start backedDb : Manager tasks).run refused).db "web").isNone = true ∧
    ((Manager.start backedDb : Manager tasks).run refused).timers = [("web", 500)] ∧
    ((Manager.start backedDb : Manager tasks).run refused).worker.isNone = true :=
  ⟨endpoints_pending wellFormed_backedDb refused "web", by decide +kernel, by decide +kernel, by decide +kernel⟩

/-- **The Endpoints settle.** Where a name is owed while all streams are live, and everything is calm from
then on, the Endpoints under the name have the addresses that are due as soon as it is neither owed nor at
the worker any more. -/
theorem endpoints_settle {db : Db} (hdb : WellFormed db) {past rest : List (ManagerAct Informer)}
    {name : String} (hlive : ((Manager.start db : Manager tasks).run past).Live)
    (howed : ((Manager.start db : Manager tasks).run past).Owes name)
    (hcalm : ∀ mid act, mid ++ [act] <+: rest →
      Calm ((Manager.start db : Manager tasks).run (past ++ mid)) name act)
    (howes : ¬ ((Manager.start db : Manager tasks).run (past ++ rest)).Owes name)
    (hworking : ¬ ((Manager.start db : Manager tasks).run (past ++ rest)).Working name) :
    Right name ((Manager.start db : Manager tasks).run (past ++ rest)).db := by
  have hlives := Manager.live_run (fun m => Calm m name) (fun _ _ h => h) (fun _ h => h) hlive hcalm
  have hsettled : ¬ purpose.outdated name ((Manager.start db : Manager tasks).run (past ++ rest)).db := by
    refine Manager.settled served hdb howed (fun mid act hmid => ?_) howes hworking
    exact (hcalm mid act hmid).not_misses (Manager.inv_run served hdb _).1.db (Manager.upToCounter_run db _)
      (hlives mid (Runs.prefix_of_concat hmid))
  exact not_not.mp hsettled

/-- The worker reconciles a service that has no Endpoints. -/
def reconciling : List (ManagerAct Informer) :=
  [.get sampleStamp, .access, .access, .access, .access, .finish]

theorem endpoints_settle_web :
    Right "web" ((Manager.start backedDb : Manager tasks).run (opening ++ reconciling)).db := by
  refine endpoints_settle wellFormed_backedDb ?_ (.inl (by decide +kernel)) ?_ ?_ ?_
  · intro i
    cases i with
    | service => exact ⟨_, _, rfl, rfl⟩
    | pod => exact ⟨_, _, rfl, rfl⟩
  · intro mid act hmid
    have hact : act ∈ reconciling := hmid.subset (by simp)
    simp only [reconciling, List.mem_cons, List.not_mem_nil, or_false] at hact
    rcases hact with rfl | rfl | rfl | rfl | rfl | rfl <;> trivial
  · refine Manager.not_owes_of_handled (by decide +kernel) (by decide +kernel) fun i => ?_
    cases i <;> decide +kernel
  · exact Manager.not_working_of_isNone (by decide +kernel)

end MyK8s.Controller.Endpoints
