import MyK8s.Lib.Process
import MyK8s.ApiServer.Submit
import MyK8s.ApiServer.Watch

/-!
# The handlers

`src/apiserver/handlers.rs`: the requests that write, each as the reads and writes of one process.
What a handler sends to the stores is the same on both of its paths, to the stores at hand or as a
command through the log (`apply_command`). What it reads is always local.
-/

namespace MyK8s.ApiServer

open ResourceMeta (kindPrefix getMeta setMeta stampForCreate)
open Process (Proc)
open Serde (Value)

/-! ## Calls -/

namespace Kind

/-- Services and endpoints have no status. -/
def Status : Kind → Type
  | pod => PodStatus
  | replicaSet => ReplicaSetStatus
  | node => NodeStatus
  | service => Empty
  | endpoints => Empty

/-- The closure that a status handler gives to `replace_status`. -/
def setStatus : (k : Kind) → k.Status → k.Obj → k.Obj
  | pod, s, (p : Pod) => { p with status := some s }
  | replicaSet, s, (r : ReplicaSet) => { r with status := some s }
  | node, s, (n : Node) => { n with status := some s }

def statusValue : (k : Kind) → k.Status → Value
  | pod, (s : PodStatus) => Serde.toValue s
  | replicaSet, (s : ReplicaSetStatus) => Serde.toValue s
  | node, (s : NodeStatus) => Serde.toValue s

/-- The watch channel of the kind. -/
def notice : (k : Kind) → WatchEvent k.Obj → Notice
  | pod => Notice.pod
  | replicaSet => Notice.replicaSet
  | node => Notice.node
  | service => Notice.service
  | endpoints => Notice.endpoints

theorem getMeta_setStatus (k : Kind) (s : k.Status) (obj : k.Obj) :
    getMeta (k.setStatus s obj) = getMeta obj := by
  cases k with
  | service => cases s
  | endpoints => cases s
  | _ => rfl

end Kind

/-- What a handler asks of the store of a kind. -/
inductive ApiOp (k : Kind)
  | create (obj : k.Obj)
  | replaceSpec (name : String) (obj : k.Obj)
  | replaceStatus (name rv : String) (status : k.Status)
  | delete (name rv : String)

namespace ApiOp

variable {k : Kind}

/-- As the call on the store. -/
def storeOp : ApiOp k → StoreOp k.Obj
  | create obj => .createPrestamped obj
  | replaceSpec name obj => .replaceSpec name obj
  | replaceStatus name rv status => .replaceStatus name rv (k.setStatus status)
  | delete name rv => .delete name rv

/-- As the payload of a command. -/
def op : ApiOp k → Op
  | create obj => .create (Serde.toValue obj)
  | replaceSpec name obj => .replaceSpec name (Serde.toValue obj)
  | replaceStatus name rv status => .replaceStatus name rv (k.statusValue status)
  | delete name rv => .delete name rv

end ApiOp

structure ApiCall where
  kind : Kind
  op : ApiOp kind

/-- What the caller gets. -/
abbrev ApiCall.Reply (call : ApiCall) : Type := Except ApiError call.kind.Obj

/-- `impl From<StoreError> for ApiError`. -/
def ApiError.ofStore : StoreError → ApiError
  | .notFound name => .notFound name
  | .alreadyExists name => .alreadyExists name
  | .conflict current provided => .conflict current provided
  | .sled msg => .internal msg
  | .json e => .internal e.message

namespace ApiCall

def storeCall (call : ApiCall) : StoreCall := ⟨call.kind, call.op.storeOp⟩

/-- What the handler gets from the call, and the database after it. -/
def exec (call : ApiCall) (db : Db) : call.Reply × Db :=
  let r := call.op.storeOp.run Faults.none db
  (r.result.mapError ApiError.ofStore, r.db)

theorem exec_snd (call : ApiCall) (db : Db) :
    (call.exec db).2 = StoreCall.step db (call.storeCall, Faults.none) := rfl

/-- `cmd`: the call as a command with the id. -/
def command (id : Uuid) (call : ApiCall) : StoreCommand where
  id := id
  kind := kindPrefix call.kind.Obj
  op := call.op.op

end ApiCall

/-! ## The two write paths -/

theorem outcomeToResult_outcome {T : Type} [ResourceMeta T] (r : Except StoreError T) :
    outcomeToResult (outcome r) = (r.mapError ApiError.ofStore).map Serde.toValue := by
  cases r with
  | ok obj => rfl
  | error e => cases e <;> rfl

theorem setPodStatus_toValue (pod : Pod) (s : PodStatus) :
    setPodStatus pod (Serde.toValue s) = { pod with status := some s } := by simp [setPodStatus]

theorem setRsStatus_toValue (rs : ReplicaSet) (s : ReplicaSetStatus) :
    setRsStatus rs (Serde.toValue s) = { rs with status := some s } := by simp [setRsStatus]

theorem setNodeStatus_toValue (node : Node) (s : NodeStatus) :
    setNodeStatus node (Serde.toValue s) = { node with status := some s } := by simp [setNodeStatus]

theorem applyOp_op {k : Kind} (op : ApiOp k) (faults : Faults) (db : Db)
    (notice : WatchEvent k.Obj → Notice) (setStatus : k.Obj → Value → k.Obj)
    (hstatus : ∀ s obj, setStatus obj (k.statusValue s) = k.setStatus s obj) :
    applyOp notice setStatus faults db op.op = applied notice (op.storeOp.run faults db) := by
  cases op with
  | create obj => simp [ApiOp.op, applyOp, ApiOp.storeOp, StoreOp.run]
  | replaceSpec name obj => simp [ApiOp.op, applyOp, ApiOp.storeOp, StoreOp.run]
  | replaceStatus name rv status =>
    have heq : (fun t => setStatus t (k.statusValue status)) = k.setStatus status :=
      funext fun obj => hstatus status obj
    simp only [ApiOp.op, applyOp, heq]
    rfl
  | delete name rv => rfl

/-- The command of a call does what the call does on the store of its kind. -/
theorem apply_command_applied (faults : Faults) (id : Uuid) (call : ApiCall) (db : Db) :
    apply faults db (call.command id) =
      applied call.kind.notice (call.op.storeOp.run faults db) := by
  obtain ⟨k, op⟩ := call
  unfold apply
  cases k with
  | pod => exact applyOp_op op faults db _ setPodStatus fun s obj => setPodStatus_toValue obj s
  | replicaSet => exact applyOp_op op faults db _ setRsStatus fun s obj => setRsStatus_toValue obj s
  | node => exact applyOp_op op faults db _ setNodeStatus fun s obj => setNodeStatus_toValue obj s
  | service => exact applyOp_op op faults db _ (fun s _ => s) fun s => nomatch s
  | endpoints => exact applyOp_op op faults db _ (fun e _ => e) fun s => nomatch s

/-- **Direct or through the log.** The command of a call does to the stores what the call does, and
what `submit` makes of its outcome is the answer to the call. -/
theorem apply_command (id : Uuid) (call : ApiCall) (db : Db) :
    (apply Faults.none db (call.command id)).db = (call.exec db).2 ∧
      outcomeToResult (apply Faults.none db (call.command id)).outcome =
        (call.exec db).1.map Serde.toValue := by
  rw [apply_command_applied]
  exact ⟨rfl, outcomeToResult_outcome _⟩

/-! ## The steps of a handler -/

/-- What a handler does until it answers. -/
abbrev Handler := ExceptT ApiError (Proc Db ApiCall ApiCall.Reply)

namespace Handler

/-- A write, inline or through the log. -/
def store (k : Kind) (op : ApiOp k) : Handler k.Obj :=
  ExceptT.mk (Proc.put (R := ApiCall.Reply) ⟨k, op⟩)

def lift {α : Type} (r : Except ApiError α) : Handler α := ExceptT.mk (pure r)

/-- A read of the store at hand. -/
def read {α : Type} (f : Db → Except StoreError α) : Handler α := do
  let db ← ExceptT.lift Proc.get
  lift ((f db).mapError ApiError.ofStore)

def get (k : Kind) (name : String) : Handler (Option k.Obj) :=
  read fun db => ResourceStore.get k.Obj db name

/-- `list`, of which no handler here needs the revision. -/
def list (k : Kind) : Handler (List k.Obj) := read (ResourceStore.items k.Obj)

section Writes

variable {P : List Db → ApiCall → Prop} {seen : List Db}

@[simp] theorem writes_store {k : Kind} {op : ApiOp k} {Q : List Db → k.Obj → Prop} :
    Proc.writes P Q (store k op) seen ↔ P seen ⟨k, op⟩ ∧ ∀ obj, Q seen obj := by
  refine and_congr_right fun _ => ⟨fun h obj => h (.ok obj) obj rfl, fun h r obj _ => h obj⟩

@[simp] theorem writes_lift {α : Type} {r : Except ApiError α} {Q : List Db → α → Prop} :
    Proc.writes P Q (lift r) seen ↔ ∀ a, r = .ok a → Q seen a := Iff.rfl

theorem wp_read {α : Type} {f : Db → Except StoreError α} {Q : List Db → Except ApiError α → Prop} :
    Proc.wp P Q (read f).run seen ↔ ∀ db, Q (db :: seen) ((f db).mapError ApiError.ofStore) :=
  Iff.rfl

/-- A get fails at what does not parse. -/
theorem get_error {T : Type} [ResourceMeta T] {db : Db} {name : String} {e : StoreError}
    (h : ResourceStore.get T db name = .error e) : ∃ e', e = .json e' := by
  unfold ResourceStore.get fromSlice at h
  split at h
  · split at h
    · split at h
      · cases h
      · cases h
        exact ⟨_, rfl⟩
    · cases h
      exact ⟨_, rfl⟩
  · cases h

@[simp] theorem writes_read {α : Type} {f : Db → Except StoreError α} {Q : List Db → α → Prop} :
    Proc.writes P Q (read f) seen ↔ ∀ db a, f db = .ok a → Q (db :: seen) a := by
  refine forall_congr' fun db => ?_
  constructor
  · intro h a ha
    exact h a (by rw [ha]; rfl)
  · intro h a ha
    cases hf : f db with
    | ok a' =>
      rw [hf] at ha
      obtain rfl := Except.ok.inj ha
      exact h a' hf
    | error e =>
      rw [hf] at ha
      cases ha

end Writes

end Handler

/-- `WritePath`, with what the leadership gate reads. -/
inductive WritePath
  | direct
  | raft (proposer : RaftProposer)

/-- The gate of the handlers that read before they write. -/
def WritePath.gate : WritePath → Handler Unit
  | direct => pure ()
  | raft proposer => Handler.lift proposer.ensureLeader

theorem writes_gate {P : List Db → ApiCall → Prop} {Q : List Db → Unit → Prop} {seen : List Db}
    (path : WritePath) (h : Q seen ()) : Proc.writes P Q path.gate seen := by
  cases path with
  | direct => exact Proc.writes_pure.mpr h
  | raft proposer => exact fun _ _ => h

/-- What `stamp_for_create` draws. -/
structure Stamp where
  uid : String
  timestamp : String

/-! ## Text -/

/-- `str::strip_prefix`. -/
def stripPrefix (start s : String) : Option String :=
  if start.toList.isPrefixOf s.toList then
    some (String.ofList (s.toList.drop start.toList.length))
  else none

/-- `str::split_once`, at a character. -/
def splitOnce (c : Char) (s : String) : Option (String × String) :=
  match s.toList.dropWhile (· ≠ c) with
  | [] => none
  | _ :: rest => some (String.ofList (s.toList.takeWhile (· ≠ c)), String.ofList rest)

@[simp] theorem stripPrefix_append (start s : String) : stripPrefix start (start ++ s) = some s := by
  simp [stripPrefix]

theorem splitOnce_append {c : Char} {s : String} (h : ∀ d ∈ s.toList, d ≠ c) (rest : List Char) :
    splitOnce c (s ++ String.ofList (c :: rest)) = some (s, String.ofList rest) := by
  have hs : ∀ d ∈ s.toList, (fun d => decide (d ≠ c)) d = true := by simpa using h
  unfold splitOnce
  rw [String.toList_append, String.toList_ofList, List.dropWhile_append_of_pos hs,
    List.takeWhile_append_of_pos hs]
  simp

/-! ## Assigned fields -/

/-- The field that the server assigns: where a pod is placed, the slice of a node and the address of
a service. -/
def assigned : (k : Kind) → k.Obj → Option String
  | .pod, (p : Pod) => p.spec.nodeName
  | .node, (n : Node) => n.spec.podCIDR
  | .service, (s : Service) => s.spec.clusterIP
  | _, _ => none

/-- How the slices of a kind are numbered. -/
structure Allocator (k : Kind) where
  /-- The number of a slice. -/
  index : String → Option ℕ
  slice : ℕ → String
  exhausted : ℕ → String
  assign : k.Obj → String → k.Obj

/-- `next_free_…_index`. It is over the naturals, and not `u64`s: the sum overflows for the largest `u64`
only, which a client can bring as the number of a slice of its own. The source is built in debug mode, where
an overflow panics, and the request ends without a write. Here the number is past the bound of 255, and the
request ends without a write as well. -/
def Allocator.nextFree {k : Kind} (A : Allocator k) (objs : List k.Obj) : ℕ :=
  match ((objs.filterMap (assigned k)).filterMap A.index).max? with
  | some m => m + 1
  | none => 0

namespace Handlers

/-! ## Creating, replacing, deleting -/

def badRequest (msg : String) : Except ApiError Unit := .error (.badRequest msg)

/-- `validate_node` and `validate_service`, and the start of the others. -/
def validateName (name : String) : Except ApiError Unit :=
  if name.isEmpty then badRequest "metadata.name must not be empty" else .ok ()

def validatePod (pod : Pod) : Except ApiError Unit :=
  if pod.metadata.name.isEmpty then badRequest "metadata.name must not be empty"
  else if pod.spec.containers.isEmpty then badRequest "spec.containers must not be empty"
  else .ok ()

def validateReplicaset (rs : ReplicaSet) : Except ApiError Unit :=
  if rs.metadata.name.isEmpty then badRequest "metadata.name must not be empty"
  else if rs.spec.selector.matchLabels.isEmpty then
    badRequest "spec.selector.matchLabels must not be empty"
  else .ok ()

def validateNode (node : Node) : Except ApiError Unit := validateName node.metadata.name

def validateService (svc : Service) : Except ApiError Unit := validateName svc.metadata.name

section Kind

variable (k : Kind)

/-- A create, of an object that is stamped first. -/
def create (stamp : Stamp) (obj : k.Obj) : Handler k.Obj :=
  Handler.store k (.create (stampForCreate stamp.uid stamp.timestamp obj))

/-- A replacement. The name in the path must be the one in the body. -/
def replace (validate : k.Obj → Except ApiError Unit) (name : String) (obj : k.Obj) :
    Handler k.Obj := do
  Handler.lift (validate obj)
  if (getMeta obj).name ≠ name then
    throw (.badRequest s!"name in body ({(getMeta obj).name}) does not match URL path ({name})")
  Handler.store k (.replaceSpec name obj)

def requiredRv (rv : Option String) : Except ApiError String :=
  match rv with
  | some rv => .ok rv
  | none => .error (.badRequest "resourceVersion query param required")

def replaceStatus (name : String) (rv : Option String) (status : k.Status) : Handler k.Obj := do
  let rv ← Handler.lift (requiredRv rv)
  Handler.store k (.replaceStatus name rv status)

def delete (name : String) (rv : Option String) : Handler k.Obj := do
  let rv ← Handler.lift (requiredRv rv)
  Handler.store k (.delete name rv)

/-- A get, with its answer for what is not there. -/
def get (name : String) : Handler k.Obj := do
  match ← Handler.get k name with
  | some obj => pure obj
  | none => throw (.notFound name)

end Kind

/-- The object with a slice, if it came without one and is not registered yet. -/
def allocate {k : Kind} (A : Allocator k) (obj : k.Obj) : Handler k.Obj := do
  if (assigned k obj).isSome then return obj
  if (← Handler.get k (getMeta obj).name).isSome then return obj
  let idx := A.nextFree (← Handler.list k)
  if idx > 255 then throw (.internal (A.exhausted idx))
  return A.assign obj (A.slice idx)

/-! ## Pods -/

def createPod (stamp : Stamp) (pod : Pod) : Handler Pod := do
  Handler.lift (validatePod pod)
  create .pod stamp pod

def replacePodSpec (name : String) (pod : Pod) : Handler Pod := replace .pod validatePod name pod

def deletePod (name : String) (rv : Option String) : Handler Pod := delete .pod name rv

def replacePodStatus (name : String) (rv : Option String) (status : PodStatus) : Handler Pod :=
  replaceStatus .pod name rv status

/-- The binding subresource: the pod is read, placed, and written with the version that was read. -/
def bindPod (path : WritePath) (name nodeName : String) : Handler Pod := do
  if nodeName.isEmpty then throw (.badRequest "binding.node_name must not be empty")
  path.gate
  let pod : Pod ← get .pod name
  let pod : Pod := { pod with spec := { pod.spec with nodeName := some nodeName } }
  Handler.store .pod (.replaceSpec name pod)

/-! ## Replica sets -/

def createReplicaset (stamp : Stamp) (rs : ReplicaSet) : Handler ReplicaSet := do
  Handler.lift (validateReplicaset rs)
  create .replicaSet stamp rs

def replaceReplicasetSpec (name : String) (rs : ReplicaSet) : Handler ReplicaSet :=
  replace .replicaSet validateReplicaset name rs

def deleteReplicaset (name : String) (rv : Option String) : Handler ReplicaSet :=
  delete .replicaSet name rv

def replaceReplicasetStatus (name : String) (rv : Option String) (status : ReplicaSetStatus) :
    Handler ReplicaSet :=
  replaceStatus .replicaSet name rv status

/-! ## Nodes -/

def clusterPodCidrPrefix : String := "10.244"

def parseCidrIndex (cidr : String) : Option ℕ := do
  let rest ← stripPrefix (clusterPodCidrPrefix ++ ".") cidr
  let (idx, _) ← splitOnce '.' rest
  parseU64 idx

def nodeCidrs : Allocator .node where
  index := parseCidrIndex
  slice idx := clusterPodCidrPrefix ++ "." ++ toString idx ++ ".0/24"
  exhausted idx := s!"pod CIDR space exhausted (node index {idx} exceeds 255)"
  assign node cidr :=
    let node : Node := node
    { node with spec := { node.spec with podCIDR := some cidr } }

def nextFreeNodeCidrIndex (nodes : List Node) : ℕ := nodeCidrs.nextFree nodes

def createNode (path : WritePath) (stamp : Stamp) (node : Node) : Handler Node := do
  Handler.lift (validateNode node)
  path.gate
  let node ← allocate nodeCidrs node
  create .node stamp node

def replaceNodeSpec (name : String) (node : Node) : Handler Node :=
  replace .node validateNode name node

def deleteNode (name : String) (rv : Option String) : Handler Node := delete .node name rv

def replaceNodeStatus (name : String) (rv : Option String) (status : NodeStatus) : Handler Node :=
  replaceStatus .node name rv status

/-! ## Services -/

def serviceCidrPrefix : String := "10.96.0"

def clusterIps : Allocator .service where
  index ip := do
    let idx ← stripPrefix (serviceCidrPrefix ++ ".") ip
    parseU64 idx
  slice idx := serviceCidrPrefix ++ "." ++ toString idx
  exhausted idx := s!"service ClusterIP space exhausted (index {idx} exceeds 255)"
  assign svc ip :=
    let svc : Service := svc
    { svc with spec := { svc.spec with clusterIP := some ip } }

def nextFreeClusterIpIndex (services : List Service) : ℕ := clusterIps.nextFree services

def createService (path : WritePath) (stamp : Stamp) (svc : Service) : Handler Service := do
  Handler.lift (validateService svc)
  path.gate
  let svc ← allocate clusterIps svc
  create .service stamp svc

def replaceServiceSpec (name : String) (svc : Service) : Handler Service :=
  replace .service validateService name svc

def deleteService (name : String) (rv : Option String) : Handler Service := delete .service name rv

/-! ## Endpoints -/

def createEndpoints (stamp : Stamp) (ep : Endpoints) : Handler Endpoints := do
  Handler.lift (validateName ep.metadata.name)
  create .endpoints stamp ep

/-- An empty name is for the path to rule out. -/
def replaceEndpoints (name : String) (ep : Endpoints) : Handler Endpoints :=
  replace .endpoints (fun _ => .ok ()) name ep

def deleteEndpoints (name : String) (rv : Option String) : Handler Endpoints :=
  delete .endpoints name rv

/-! ## What the handlers write -/

section Writes

variable {P : List Db → ApiCall → Prop} {seen : List Db} {k : Kind} {name : String}

theorem writes_create {stamp : Stamp} {obj : k.Obj}
    (h : P seen ⟨k, .create (stampForCreate stamp.uid stamp.timestamp obj)⟩) :
    Proc.writes P (fun _ _ => True) (create k stamp obj) seen :=
  Handler.writes_store.mpr ⟨h, fun _ => trivial⟩

theorem writes_replace {validate : k.Obj → Except ApiError Unit} {obj : k.Obj}
    (h : (getMeta obj).name = name → P seen ⟨k, .replaceSpec name obj⟩) :
    Proc.writes P (fun _ _ => True) (replace k validate name obj) seen := by
  unfold replace
  rw [Proc.writes_bind, Handler.writes_lift]
  intro _ _
  by_cases hname : (getMeta obj).name = name
  · simpa [hname] using h hname
  · simp [hname]

theorem writes_replaceStatus {rv : Option String} {status : k.Status}
    (h : ∀ rv, P seen ⟨k, .replaceStatus name rv status⟩) :
    Proc.writes P (fun _ _ => True) (replaceStatus k name rv status) seen := by
  unfold replaceStatus
  rw [Proc.writes_bind, Handler.writes_lift]
  exact fun rv' _ => Handler.writes_store.mpr ⟨h rv', fun _ => trivial⟩

theorem writes_delete {rv : Option String} (h : ∀ rv, P seen ⟨k, .delete name rv⟩) :
    Proc.writes P (fun _ _ => True) (delete k name rv) seen := by
  unfold delete
  rw [Proc.writes_bind, Handler.writes_lift]
  exact fun rv' _ => Handler.writes_store.mpr ⟨h rv', fun _ => trivial⟩

theorem writes_get {Q : List Db → k.Obj → Prop}
    (h : ∀ db obj, ResourceStore.get k.Obj db name = .ok (some obj) → Q (db :: seen) obj) :
    Proc.writes P Q (get k name) seen := by
  unfold get Handler.get
  rw [Proc.writes_bind, Handler.writes_read]
  intro db o ho
  cases o with
  | none => exact Proc.writes_throw
  | some obj => exact Proc.writes_pure.mpr (h db obj ho)

/-- What comes out of an allocation, by the reads that it has made. -/
theorem writes_allocate {A : Allocator k} {obj : k.Obj} {Q : List Db → k.Obj → Prop}
    (hown : (assigned k obj).isSome → Q seen obj) (hold : ∀ db, Q (db :: seen) obj)
    (hnew : ∀ db db' objs, ResourceStore.items k.Obj db' = .ok objs → A.nextFree objs ≤ 255 →
      Q (db' :: db :: seen) (A.assign obj (A.slice (A.nextFree objs)))) :
    Proc.writes P Q (allocate A obj) seen := by
  unfold allocate Handler.get Handler.list
  by_cases hobj : (assigned k obj).isSome
  · simpa [hobj] using hown hobj
  · rw [if_neg hobj, Proc.writes_bind, Handler.writes_read]
    intro db o _
    by_cases ho : o.isSome
    · simpa [ho] using hold db
    · rw [if_neg ho, Proc.writes_bind, Handler.writes_read]
      intro db' objs hobjs
      by_cases hidx : 255 < A.nextFree objs
      · simp [hidx]
      · simpa [hidx] using hnew db db' objs hobjs (by omega)

theorem writes_bindPod {path : WritePath} {nodeName : String}
    (h : ∀ db (pod : Pod), ResourceStore.get Kind.pod.Obj db name = .ok (some pod) →
      P (db :: seen) ⟨.pod, .replaceSpec name
        ({ pod with spec := { pod.spec with nodeName := some nodeName } } : Pod)⟩) :
    Proc.writes P (fun _ _ => True) (bindPod path name nodeName) seen := by
  unfold bindPod
  by_cases hempty : nodeName.isEmpty
  · simp only [hempty]
    exact Proc.writes_bind.mpr Proc.writes_throw
  · simp only [hempty, Bool.false_eq_true]
    refine Proc.writes_bind.mpr (writes_gate path ?_)
    refine Proc.writes_bind.mpr (writes_get (k := .pod) fun db pod hpod => ?_)
    exact Handler.writes_store.mpr ⟨h db pod hpod, fun _ => trivial⟩

end Writes

end Handlers

end MyK8s.ApiServer
