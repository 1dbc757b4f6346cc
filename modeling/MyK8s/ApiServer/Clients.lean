import MyK8s.ApiServer.Handlers

/-!
# The clients that place and apply

`src/scheduler.rs`, from `schedule` on, and `apply` of `src/bin/mykubectl.rs`: what they ask of the
server, request by request. A client acts on what it has read before, and the requests of others come
in between. With them the requests of the server are complete (`Request`).
-/

namespace MyK8s.ApiServer

open ResourceMeta (getMeta setMeta)
open Process (Proc)

/-! ## Requests of a client -/

/-- An error answer of the server, or an error of the client's own. -/
inductive ClientError
  | server (e : ApiError)
  | bail (msg : String)
  deriving DecidableEq, Repr

abbrev Client := ExceptT ClientError (Proc Db ApiCall ApiCall.Reply)

namespace Client

/-- A request that reaches the handler. -/
def request {α : Type} (h : Handler α) : Client α :=
  ExceptT.mk do
    match ← h.run with
    | .ok a => pure (.ok a)
    | .error e => pure (.error (.server e))

/-- `get_resource`: what is not found is not an error. (The name is one that the path of a URL carries as it
is. For any name there is `getVia`.) -/
def get (k : Kind) (name : String) : Client (Option k.Obj) :=
  ExceptT.mk do
    match ← (Handlers.get k name).run with
    | .ok obj => pure (.ok (some obj))
    | .error (.notFound _) => pure (.ok none)
    | .error e => pure (.error (.server e))

/-- `list_resource`. -/
def list (k : Kind) : Client (List k.Obj) := request (Handler.list k)

/-- What becomes of a name that is spliced into the path of a URL as it is. The HTTP libraries cut the path
and match it, and the handler need not get the name that was meant, or anything. -/
inductive Routed
  | handler (name : String)
  /-- The router's own 404. -/
  | notFound
  | failed (msg : String)
  deriving DecidableEq, Repr

/-- `get_resource`, by URL. A path without a route is a name without an object. -/
def getVia (k : Kind) : Routed → Client (Option k.Obj)
  | .handler name => get k name
  | .notFound => pure none
  | .failed msg => throw (.bail msg)

/-- A request by URL. -/
def requestVia {α : Type} (h : String → Handler α) : Routed → Client α
  | .handler name => request (h name)
  | .notFound => throw (.bail "HTTP 404: ")
  | .failed msg => throw (.bail msg)

/-- The answer to a call, be it an error, for the caller to look at. -/
def attempt {α : Type} (c : Client α) : Client (Except ClientError α) :=
  ExceptT.mk do
    let r ← c.run
    pure (.ok r)

section Writes

variable {P : List Db → ApiCall → Prop} {seen : List Db}

@[simp] theorem writes_request {α : Type} {h : Handler α} {Q : List Db → α → Prop} :
    Proc.writes P Q (request h) seen ↔ Proc.writes P Q h seen := by
  unfold Proc.writes request
  rw [ExceptT.run_mk, Proc.wp_bind]
  constructor
  · refine Proc.wp_mono (fun _ _ h => h) fun seen r h => ?_
    rintro a rfl
    exact h a rfl
  · refine Proc.wp_mono (fun _ _ h => h) fun seen r h => ?_
    cases r with
    | ok a =>
      rintro a' ⟨⟩
      exact h a rfl
    | error e => exact fun a ha => by cases ha

/-- A client gets what is stored. -/
@[simp] theorem writes_get {k : Kind} {name : String} {Q : List Db → Option k.Obj → Prop} :
    Proc.writes P Q (get k name) seen ↔
      ∀ db o, ResourceStore.get k.Obj db name = .ok o → Q (db :: seen) o := by
  unfold Proc.writes get Handlers.get Handler.get
  rw [ExceptT.run_mk, Proc.wp_bind, ExceptT.run_bind, Proc.wp_bind, Handler.wp_read]
  refine forall_congr' fun db => ?_
  cases hget : ResourceStore.get k.Obj db name with
  | ok o => cases o <;> simp [Except.mapError]
  | error e =>
    -- a get fails at what does not parse, and nowhere else
    obtain ⟨e', rfl⟩ := Handler.get_error hget
    simp [Except.mapError, ApiError.ofStore]

@[simp] theorem writes_list {k : Kind} {Q : List Db → List k.Obj → Prop} :
    Proc.writes P Q (list k) seen ↔
      ∀ db objs, ResourceStore.items k.Obj db = .ok objs → Q (db :: seen) objs :=
  writes_request.trans Handler.writes_read

/-- Whatever the call comes to, the caller goes on, and knows what it has known. -/
theorem writes_attempt {α : Type} {c : Client α} {Q : List Db → Except ClientError α → Prop}
    (h : Proc.writes P (fun _ _ => True) c seen) (hQ : ∀ seen' r, seen ⊆ seen' → Q seen' r) :
    Proc.writes P Q (attempt c) seen := by
  unfold Proc.writes attempt
  rw [ExceptT.run_mk, Proc.wp_bind]
  refine Proc.wp_mono (fun _ _ h => h) (fun seen' r hseen => ?_) (Proc.wp_seen h)
  rintro r' ⟨⟩
  exact hQ seen' r hseen.1

end Writes

end Client

/-! ## The scheduler -/

namespace Scheduler

def stalenessWindowSecs : ℤ := 30

/-- `Node::is_ready`, by the age of a heartbeat in seconds, where the text is a time. -/
def isReady (age : String → Option ℤ) (maxAgeSecs : ℤ) (node : Node) : Bool :=
  match node.status with
  | none => false
  | some status =>
    if !status.ready then false
    else
      match status.lastHeartbeatTime.bind age with
      | some secs => secs < maxAgeSecs
      | none => false

def isSchedulable (age : String → Option ℤ) (node : Node) : Bool :=
  !node.spec.unschedulable && isReady age stalenessWindowSecs node

/-- The pods on a node. -/
def load (pods : List Pod) (node : Node) : ℕ :=
  pods.countP fun p => p.spec.nodeName == some node.metadata.name

/-- What the URLs of a call lead to, by the name of the pod. -/
structure Routes where
  /-- `/api/v1/pods/{name}` -/
  pod : String → Client.Routed
  /-- `/api/v1/pods/{name}/binding` -/
  binding : String → Client.Routed

/-- All names are carried as they are. -/
def Routes.plain : Routes := ⟨.handler, .handler⟩

/-- `schedule`. The pod goes to the first of the candidates that have the fewest pods. -/
def scheduleVia (routes : Routes) (path : WritePath) (age : String → Option ℤ) (podName : String) :
    Client Unit := do
  match ← Client.getVia .pod (routes.pod podName) with
  | none => return ()
  | some (pod : Pod) =>
    if pod.spec.nodeName.isSome then return ()
    let nodes : List Node ← Client.list .node
    let candidates := nodes.filter (isSchedulable age)
    if candidates.isEmpty then
      throw (.bail s!"no Ready node available for pod {podName}")
    let allPods : List Pod ← Client.list .pod
    match candidates.argmin (load allPods) with
    | none => throw (.bail "candidates is non-empty (checked above)")
    | some chosen =>
      let _ ← Client.requestVia (fun name => Handlers.bindPod path name chosen.metadata.name)
        (routes.binding podName)
      return ()

/-- `schedule`, for a name that the URLs carry as it is. -/
def schedule (path : WritePath) (age : String → Option ℤ) (podName : String) : Client Unit :=
  scheduleVia Routes.plain path age podName

theorem writes_schedule {P : List Db → ApiCall → Prop} {seen : List Db} {path : WritePath}
    {age : String → Option ℤ} {podName : String}
    (h : ∀ seen nodeName, Proc.writes P (fun _ _ => True)
      (Handlers.bindPod path podName nodeName) seen) :
    Proc.writes P (fun _ _ => True) (schedule path age podName) seen := by
  unfold schedule scheduleVia
  refine Proc.writes_bind.mpr (Client.writes_get.mpr fun _ o _ => ?_)
  cases o with
  | none => exact Proc.writes_pure.mpr trivial
  | some pod =>
    by_cases hbound : (PodSpec.nodeName (Pod.spec pod)).isSome
    · simp only [hbound]
      exact Proc.writes_pure.mpr trivial
    · simp only [hbound, Bool.false_eq_true]
      refine Proc.writes_bind.mpr ((Client.writes_list (k := .node)).mpr fun _ nodes _ => ?_)
      split
      · exact Proc.writes_bind.mpr Proc.writes_throw
      · refine Proc.writes_bind.mpr ((Client.writes_list (k := .pod)).mpr fun _ pods _ => ?_)
        split
        · exact Proc.writes_throw
        · refine Proc.writes_bind.mpr (Client.writes_request.mpr ?_)
          exact Proc.writes_mono (fun _ _ _ => Proc.writes_pure.mpr trivial) (h _ _)

end Scheduler

/-! ## Applying a manifest -/

namespace Mykubectl

/-- A manifest, by its kind. -/
inductive Manifest
  | pod (pod : Pod)
  | replicaSet (rs : ReplicaSet)
  | service (svc : Service)
  | other (kind : String)

/-- One arm of `apply`: the object replaces the one that is there, under whose version it goes and of
which it may `keep` something, or it is created. -/
def upsert (k : Kind) (keep : k.Obj → k.Obj → k.Obj) (create : k.Obj → Handler k.Obj)
    (replaceSpec : String → k.Obj → Handler k.Obj) (obj : k.Obj) : Client Unit := do
  match ← Client.get k (getMeta obj).name with
  | some existing =>
    let obj := keep (setMeta obj
      { getMeta obj with resourceVersion := (getMeta existing).resourceVersion }) existing
    let _ ← Client.request (replaceSpec (getMeta obj).name obj)
    return ()
  | none =>
    let _ ← Client.request (create obj)
    return ()

/-- A service without an address keeps the one that it has. -/
def keepClusterIp (svc existing : Service) : Service :=
  if svc.spec.clusterIP.isNone then
    { svc with spec := { svc.spec with clusterIP := existing.spec.clusterIP } }
  else svc

section Upsert

variable {P : List Db → ApiCall → Prop} {seen : List Db} {k : Kind} {keep : k.Obj → k.Obj → k.Obj}
  {create : k.Obj → Handler k.Obj} {replaceSpec : String → k.Obj → Handler k.Obj} {obj : k.Obj}

/-- What is written by the object that has been read. -/
theorem writes_upsert_of_read (hcreate : ∀ seen, Proc.writes P (fun _ _ => True) (create obj) seen)
    (hreplace : ∀ db name existing, ResourceStore.get k.Obj db (getMeta obj).name = .ok (some existing) →
      Proc.writes P (fun _ _ => True) (replaceSpec name (keep (setMeta obj
        { getMeta obj with resourceVersion := (getMeta existing).resourceVersion }) existing)) (db :: seen)) :
    Proc.writes P (fun _ _ => True) (upsert k keep create replaceSpec obj) seen := by
  unfold upsert
  refine Proc.writes_bind.mpr (Client.writes_get.mpr fun db o hget => ?_)
  cases o with
  | some existing =>
    refine Proc.writes_bind.mpr (Client.writes_request.mpr ?_)
    exact Proc.writes_mono (fun _ _ _ => Proc.writes_pure.mpr trivial) (hreplace db _ existing hget)
  | none =>
    refine Proc.writes_bind.mpr (Client.writes_request.mpr ?_)
    exact Proc.writes_mono (fun _ _ _ => Proc.writes_pure.mpr trivial) (hcreate _)

theorem writes_upsert (hcreate : ∀ seen, Proc.writes P (fun _ _ => True) (create obj) seen)
    (hreplace : ∀ seen name obj, Proc.writes P (fun _ _ => True) (replaceSpec name obj) seen) :
    Proc.writes P (fun _ _ => True) (upsert k keep create replaceSpec obj) seen :=
  writes_upsert_of_read hcreate fun _ _ _ _ => hreplace _ _ _

end Upsert

def apply (path : WritePath) (stamp : Stamp) : Manifest → Client Unit
  | .pod pod =>
    upsert .pod (fun pod _ => pod) (Handlers.createPod stamp) Handlers.replacePodSpec pod
  | .replicaSet rs =>
    upsert .replicaSet (fun rs _ => rs) (Handlers.createReplicaset stamp)
      Handlers.replaceReplicasetSpec rs
  | .service svc =>
    upsert .service keepClusterIp (Handlers.createService path stamp)
      Handlers.replaceServiceSpec svc
  | .other kind => throw (.bail
      ("unsupported kind \"" ++ kind ++ "\"; only Pod, ReplicaSet and Service are supported"))

end Mykubectl

/-! ## All requests -/

/-- What can be asked of the server that writes, and the clients above. -/
inductive Request
  | create (k : Kind) (path : WritePath) (stamp : Stamp) (obj : k.Obj)
  | replaceSpec (k : Kind) (name : String) (obj : k.Obj)
  | replaceStatus (k : Kind) (name : String) (rv : Option String) (status : k.Status)
  | delete (k : Kind) (name : String) (rv : Option String)
  | bind (path : WritePath) (name nodeName : String)
  | schedule (path : WritePath) (age : String → Option ℤ) (podName : String)
  | apply (path : WritePath) (stamp : Stamp) (manifest : Mykubectl.Manifest)

namespace Request

/-- The handlers by their kind. -/
def createHandler (path : WritePath) (stamp : Stamp) : (k : Kind) → k.Obj → Handler k.Obj
  | .pod => Handlers.createPod stamp
  | .replicaSet => Handlers.createReplicaset stamp
  | .node => Handlers.createNode path stamp
  | .service => Handlers.createService path stamp
  | .endpoints => Handlers.createEndpoints stamp

def replaceHandler : (k : Kind) → String → k.Obj → Handler k.Obj
  | .pod => Handlers.replacePodSpec
  | .replicaSet => Handlers.replaceReplicasetSpec
  | .node => Handlers.replaceNodeSpec
  | .service => Handlers.replaceServiceSpec
  | .endpoints => Handlers.replaceEndpoints

def statusHandler : (k : Kind) → String → Option String → k.Status → Handler k.Obj
  | .pod => Handlers.replacePodStatus
  | .replicaSet => Handlers.replaceReplicasetStatus
  | .node => Handlers.replaceNodeStatus
  | .service => fun _ _ s => nomatch s
  | .endpoints => fun _ _ s => nomatch s

def deleteHandler : (k : Kind) → String → Option String → Handler k.Obj
  | .pod => Handlers.deletePod
  | .replicaSet => Handlers.deleteReplicaset
  | .node => Handlers.deleteNode
  | .service => Handlers.deleteService
  | .endpoints => Handlers.deleteEndpoints

/-- The process behind a request. What it answers is for the one who asked. -/
def code : Request → Proc Db ApiCall ApiCall.Reply Unit
  | create k path stamp obj => do let _ ← (createHandler path stamp k obj).run
  | replaceSpec k name obj => do let _ ← (replaceHandler k name obj).run
  | replaceStatus k name rv status => do let _ ← (statusHandler k name rv status).run
  | delete k name rv => do let _ ← (deleteHandler k name rv).run
  | bind path name nodeName => do let _ ← (Handlers.bindPod path name nodeName).run
  | schedule path age podName => do let _ ← (Scheduler.schedule path age podName).run
  | apply path stamp manifest => do let _ ← (Mykubectl.apply path stamp manifest).run

end Request

/-! ## The server and its clients -/

abbrev Api := Process.System Db ApiCall ApiCall.Reply

/-- What happens next. A write that is answered with an error is refused at the gate, times out or is
hit by a storage error. -/
abbrev ApiAct := Process.Act Request ApiError

namespace Api

def start : Api := Process.System.init ∅

def step (s : Api) (act : ApiAct) : Api :=
  Process.System.step Request.code ApiCall.exec (fun e _ => .error e) s act

def run (s : Api) (acts : List ApiAct) : Api :=
  Process.System.run Request.code ApiCall.exec (fun e _ => .error e) s acts

theorem run_concat (s : Api) (acts : List ApiAct) (act : ApiAct) :
    s.run (acts ++ [act]) = (s.run acts).step act := List.foldl_concat ..

/-- An act leaves the stores alone, or it carries out a call. -/
theorem now_step_cases (s : Api) (act : ApiAct) :
    (s.step act).now = s.now ∨ ∃ seen call, s.Writes act seen call ∧
      (s.step act).now = (call.exec s.now).2 := by
  rcases Process.System.step_cases Request.code ApiCall.exec (fun e _ => .error e) s act with
    hstates | ⟨seen, call, hw, hnow, -⟩
  · exact .inl (List.cons.inj hstates).1
  · exact .inr ⟨seen, call, hw, hnow⟩

end Api

/-! ## What the requests write -/

section Writes

variable {P : List Db → ApiCall → Prop} {seen : List Db}

/-- A create that is free to create. -/
theorem Request.writes_createHandler {path : WritePath} {stamp : Stamp} {k : Kind} {obj : k.Obj}
    (h : ∀ seen obj, P seen ⟨k, .create obj⟩) :
    Proc.writes P (fun _ _ => True) (createHandler path stamp k obj) seen := by
  have hcreate : ∀ seen (obj : k.Obj),
      Proc.writes P (fun _ _ => True) (Handlers.create k stamp obj) seen :=
    fun seen obj => Handlers.writes_create (h seen _)
  have hallocate : ∀ seen (A : Allocator k), Proc.writes P (fun _ _ => True)
      (Handlers.allocate A obj >>= Handlers.create k stamp) seen := by
    intro seen A
    refine Proc.writes_bind.mpr (Handlers.writes_allocate ?_ ?_ ?_)
    · exact fun _ => hcreate _ _
    · exact fun _ => hcreate _ _
    · exact fun _ _ _ _ _ => hcreate _ _
  cases k with
  | pod => exact Proc.writes_bind.mpr (Handler.writes_lift.mpr fun _ _ => hcreate _ _)
  | replicaSet => exact Proc.writes_bind.mpr (Handler.writes_lift.mpr fun _ _ => hcreate _ _)
  | endpoints => exact Proc.writes_bind.mpr (Handler.writes_lift.mpr fun _ _ => hcreate _ _)
  | node =>
    refine Proc.writes_bind.mpr (Handler.writes_lift.mpr fun _ _ => ?_)
    exact Proc.writes_bind.mpr (writes_gate path (hallocate _ _))
  | service =>
    refine Proc.writes_bind.mpr (Handler.writes_lift.mpr fun _ _ => ?_)
    exact Proc.writes_bind.mpr (writes_gate path (hallocate _ _))

theorem Request.writes_replaceHandler {k : Kind} {name : String} {obj : k.Obj}
    (h : (getMeta obj).name = name → P seen ⟨k, .replaceSpec name obj⟩) :
    Proc.writes P (fun _ _ => True) (replaceHandler k name obj) seen := by
  cases k with
  | endpoints =>
    change Proc.writes P _ (Handlers.replace .endpoints (fun _ => .ok ()) name obj) seen
    exact Handlers.writes_replace h
  | _ => exact Handlers.writes_replace h

theorem Request.writes_statusHandler {k : Kind} {name : String} {rv : Option String}
    {status : k.Status} (h : ∀ rv, P seen ⟨k, .replaceStatus name rv status⟩) :
    Proc.writes P (fun _ _ => True) (statusHandler k name rv status) seen := by
  cases k with
  | service => exact nomatch status
  | endpoints => exact nomatch status
  | _ => exact Handlers.writes_replaceStatus h

theorem Request.writes_deleteHandler {k : Kind} {name : String} {rv : Option String}
    (h : ∀ rv, P seen ⟨k, .delete name rv⟩) :
    Proc.writes P (fun _ _ => True) (deleteHandler k name rv) seen := by
  cases k <;> exact Handlers.writes_delete h

/-- What is run of a request is what it writes. -/
theorem wp_discard {ε α : Type} {x : ExceptT ε (Proc Db ApiCall ApiCall.Reply) α}
    (h : Proc.writes P (fun _ _ => True) x seen) :
    Proc.wp P (fun _ _ => True) (do let _ ← x.run) seen :=
  Proc.wp_bind.mpr (Proc.wp_mono (fun _ _ h => h) (fun _ _ _ => trivial) h)

/-- What holds of all that the handlers write holds of the requests. -/
theorem Request.wp_code
    (hcreate : ∀ seen path stamp k (obj : k.Obj),
      Proc.writes P (fun _ _ => True) (createHandler path stamp k obj) seen)
    (hreplace : ∀ seen k name (obj : k.Obj),
      Proc.writes P (fun _ _ => True) (replaceHandler k name obj) seen)
    (hstatus : ∀ seen k name rv (status : k.Status),
      Proc.writes P (fun _ _ => True) (statusHandler k name rv status) seen)
    (hdelete : ∀ seen k name rv, Proc.writes P (fun _ _ => True) (deleteHandler k name rv) seen)
    (hbind : ∀ seen path name nodeName,
      Proc.writes P (fun _ _ => True) (Handlers.bindPod path name nodeName) seen) (r : Request) :
    Proc.wp P (fun _ _ => True) r.code [] := by
  cases r with
  | create k path stamp obj => exact wp_discard (hcreate _ _ _ _ _)
  | replaceSpec k name obj => exact wp_discard (hreplace _ _ _ _)
  | replaceStatus k name rv status => exact wp_discard (hstatus _ _ _ _ _)
  | delete k name rv => exact wp_discard (hdelete _ _ _ _)
  | bind path name nodeName => exact wp_discard (hbind _ _ _ _)
  | schedule path age podName =>
    exact wp_discard (Scheduler.writes_schedule fun _ _ => hbind _ _ _ _)
  | apply path stamp manifest =>
    refine wp_discard ?_
    unfold Mykubectl.apply
    cases manifest with
    | pod pod =>
      refine Mykubectl.writes_upsert (k := .pod) ?_ ?_
      · exact fun seen => hcreate seen path stamp .pod pod
      · exact fun seen name obj => hreplace seen .pod name obj
    | replicaSet rs =>
      refine Mykubectl.writes_upsert (k := .replicaSet) ?_ ?_
      · exact fun seen => hcreate seen path stamp .replicaSet rs
      · exact fun seen name obj => hreplace seen .replicaSet name obj
    | service svc =>
      refine Mykubectl.writes_upsert (k := .service) ?_ ?_
      · exact fun seen => hcreate seen path stamp .service svc
      · exact fun seen name obj => hreplace seen .service name obj
    | other kind => exact Proc.writes_throw

end Writes

/-! ## Names -/

/-- The call keeps an object under its name, if what has been read before is in order. -/
def KeepsNames (seen : List Db) (call : ApiCall) : Prop :=
  (∀ db ∈ seen, WellFormed db) → call.op.storeOp.Addressed

theorem Handlers.writes_bindPod_keepsNames {path : WritePath} {name nodeName : String}
    {seen : List Db} :
    Proc.writes KeepsNames (fun _ _ => True) (bindPod path name nodeName) seen := by
  refine writes_bindPod fun db pod hget hseen => ?_
  have hwf := hseen db List.mem_cons_self
  rw [hwf.get_eq] at hget
  exact (hwf.stored_eq_some.mp (Except.ok.inj hget)).1

theorem Request.wp_keepsNames (r : Request) :
    Proc.wp KeepsNames (fun _ _ => True) r.code [] := by
  refine wp_code ?_ ?_ ?_ ?_ ?_ r
  · exact fun seen path stamp k obj => writes_createHandler fun _ _ _ => trivial
  · exact fun seen k name obj => writes_replaceHandler fun hname _ => hname
  · intro seen k name rv status
    refine writes_statusHandler fun rv _ obj => ?_
    exact congrArg ObjectMeta.name (k.getMeta_setStatus status obj)
  · exact fun seen k name rv => writes_deleteHandler fun _ _ => trivial
  · exact fun seen path name nodeName => Handlers.writes_bindPod_keepsNames

/-- **Well-formed databases.** Whatever is requested and however it interleaves, every database on
the way is well-formed. -/
theorem Api.wellFormed (acts : List ApiAct) : ∀ db ∈ (start.run acts).states, WellFormed db := by
  have hexec : ∀ (call : ApiCall) db, call.op.storeOp.Addressed → WellFormed db →
      WellFormed (call.exec db).2 := by
    intro call db ha h
    rw [call.exec_snd]
    exact h.step ha Faults.none
  exact Process.System.invariant WellFormed.empty hexec fun r _ => r.wp_keepsNames

end MyK8s.ApiServer
