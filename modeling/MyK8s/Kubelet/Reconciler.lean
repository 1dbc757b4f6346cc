import MyK8s.ApiServer.Storage
import MyK8s.Kubelet.Ipam
import MyK8s.Kubelet.Sandbox

/-!
# The reconciler of the kubelet

`src/reconciler.rs` and `src/store.rs`: the cache holds the pods as they should be, the store those
that have a sandbox. A watch event, a resync and a liveness pass each bring the second closer to the
first. Where the source walks a `HashMap`, the order of its keys is an argument.
-/

namespace MyK8s.Kubelet

open Fallible
open ApiServer (WatchEvent)

abbrev PodName := String

/-! ## The state -/

structure PodState where
  pod : Pod
  sandbox : PodSandbox
  deriving DecidableEq

structure RestartTracker where
  restartCount : UInt32
  nextRetryAt : ℕ
  deriving DecidableEq

/-- `Reconciler`, with the state of its host as the runtime. -/
structure Reconciler (ρ : Type) where
  podsDir : Path
  rootfsBase : Path
  store : PodName → Option PodState
  runtime : ρ
  restartState : String → Option RestartTracker
  cache : PodName → Option Pod
  lastPushedStatus : PodName → Option PodStatus
  ipam : Option IpAllocator

/-- A `HashMap<PodName, Pod>`, in the order in which it is walked. -/
structure PodMap where
  pods : List Pod
  nodup : (pods.map fun pod => pod.metadata.name).Nodup

def PodMap.get (m : PodMap) (name : PodName) : Option Pod :=
  m.pods.find? fun pod => pod.metadata.name = name

/-! ## Addresses -/

/-- The address that the status of a pod reports, as it is written there. -/
def reportedIp (pod : Pod) : Option String := pod.status.bind PodStatus.podIP

def reportedAddr (pod : Pod) : Option Ipv4Addr := (reportedIp pod).bind Ipv4Addr.parse

/-! ## Answers of the API server -/

/-- `ClientError`, with the errors of the libraries as text. -/
inductive ClientError
  | http (status : ℕ) (message : String)
  | conflict (message : String)
  | alreadyExists
  | notFound
  | other (text : String)

def ClientError.toFailure : ClientError → Failure
  | .http status message => .message s!"HTTP {status}: {message}"
  | .conflict message => .message s!"conflict: {message}"
  | .alreadyExists => .message "already exists"
  | .notFound => .message "not found"
  | .other text => .message text

/-- What the API server answers to the requests of `push_status`. -/
structure PushAnswers where
  replaced : Except ClientError Pod
  latest : Except ClientError (Option Pod)
  retried : Except ClientError Pod

namespace Reconciler

variable {ρ ε α : Type} (host : Host ρ)

def new (podsDir rootfsBase : Path) (runtime : ρ) : Reconciler ρ where
  podsDir := podsDir
  rootfsBase := rootfsBase
  store _ := none
  runtime := runtime
  restartState _ := none
  cache _ := none
  lastPushedStatus _ := none
  ipam := none

/-- What is asked of the host. -/
def onRuntime (x : EStateM ε ρ α) : EStateM ε (Reconciler ρ) α :=
  zoom Reconciler.runtime (fun r s => { s with runtime := r }) x

@[simp] theorem wp_onRuntime {x : EStateM ε ρ α} {Q : α → Reconciler ρ → Prop}
    {E : ε → Reconciler ρ → Prop} {s : Reconciler ρ} :
    wp (onRuntime x) Q E s ↔ wp x (fun a r => Q a { s with runtime := r })
      (fun e r => E e { s with runtime := r }) s.runtime := wp_zoom

def setSandbox (name : PodName) (sandbox : PodSandbox) (s : Reconciler ρ) : Reconciler ρ :=
  { s with
    store := Function.update s.store name
      ((s.store name).map fun state => { state with sandbox := sandbox }) }

theorem store_setSandbox {name : PodName} {s : Reconciler ρ} {state : PodState} (sandbox : PodSandbox)
    (h : s.store name = some state) :
    (setSandbox name sandbox s).store name = some { state with sandbox := sandbox } := by
  simp [setSandbox, h]

/-- `Store::insert`. -/
def insert (state : PodState) (s : Reconciler ρ) : Reconciler ρ :=
  { s with store := Function.update s.store state.pod.metadata.name (some state) }

/-- `ensure_pod_ip`: the address that the pod reports is taken as it is, if it can be read. What
`reserve` answers is dropped. -/
def ensurePodIp (pod : Pod) : Action (Reconciler ρ) String := do
  let s ← get
  match s.ipam with
  | none => throw (.message "IPAM not initialized (startup did not run?)")
  | some ipam =>
    match reportedIp pod, reportedAddr pod with
    | some ip, some addr =>
      set { s with ipam := some (ipam.reserve addr).2 }
      pure ip
    | _, _ =>
      set { s with ipam := some ipam.allocate.2 }
      match ipam.allocate.1 with
      | .ok addr => pure (toString addr)
      | .error e => throw (.context "allocate pod IP" (.message e))

/-- `release_ip`. -/
def releaseIp (ip : String) (s : Reconciler ρ) : Reconciler ρ :=
  match s.ipam, Ipv4Addr.parse ip with
  | some ipam, some addr => { s with ipam := some (ipam.release addr) }
  | _, _ => s

theorem store_releaseIp (ip : String) (s : Reconciler ρ) : (releaseIp ip s).store = s.store := by
  unfold releaseIp
  split <;> rfl

theorem runtime_releaseIp (ip : String) (s : Reconciler ρ) : (releaseIp ip s).runtime = s.runtime := by
  unfold releaseIp
  split <;> rfl

/-- Only the allocator changes. -/
theorem ensurePodIp_frame {pod : Pod} {s : Reconciler ρ} :
    wp (ensurePodIp pod) (fun _ s' => s' = { s with ipam := s'.ipam })
      (fun _ s' => s' = { s with ipam := s'.ipam }) s := by
  unfold ensurePodIp
  rw [wp_bind, wp_get]
  cases s.ipam with
  | none => rfl
  | some ipam =>
    dsimp only
    split
    · rfl
    · rw [wp_bind, wp_set]
      cases ipam.allocate.1 <;> rfl

/-! ## Pods that come and go -/

/-- The loop of `create_pod`. When a container fails, the sandbox is destroyed and the address is given
back. -/
def addContainers (podIp : String) : PodSandbox → List Container → Action (Reconciler ρ) PodSandbox
  | sandbox, [] => pure sandbox
  | sandbox, container :: rest => do
    match ← attempt (onRuntime (sandbox.addContainer host container)) with
    | .ok sandbox => addContainers podIp sandbox rest
    | .error e =>
      let _ ← attempt (onRuntime (sandbox.destroy host))
      modify (releaseIp podIp)
      let name := container.name
      throw (.context s!"add container {name}" e)

/-- The first part of `create_pod`: the address and the pause container. -/
def createSandbox (pod : Pod) : Action (Reconciler ρ) (String × PodSandbox) := do
  let podIp ← ensurePodIp pod
  let s ← get
  let sandbox := PodSandbox.new pod.metadata.name s.podsDir s.rootfsBase
  let sandbox ← onRuntime (addContext "create sandbox" (sandbox.create host (some podIp)))
  pure (podIp, sandbox)

/-- `create_pod`. -/
def createPod (pod : Pod) : Action (Reconciler ρ) Unit := do
  let (podIp, sandbox) ← createSandbox host pod
  let sandbox ← addContainers host podIp sandbox pod.spec.containers
  modify (insert ⟨pod, sandbox⟩)

/-- `remove_pod`. -/
def removePod (name : PodName) : Action (Reconciler ρ) Unit := do
  let s ← get
  match s.store name with
  | none => pure ()
  | some state =>
    let ids := state.pod.spec.containers.map fun container => name ++ "__" ++ container.name
    set { s with
      store := Function.update s.store name none
      restartState := fun id => if id ∈ ids then none else s.restartState id
      lastPushedStatus := Function.update s.lastPushedStatus name none }
    let _ ← onRuntime (state.sandbox.destroy host)
    match state.sandbox.podIp with
    | some ip => modify (releaseIp ip)
    | none => pure ()

/-! ## Liveness -/

def backoffBase : ℕ := 10000000

def backoffMax : ℕ := 300000000

def u64Max : ℕ := 2 ^ 64 - 1

/-- `compute_backoff`, in microseconds. -/
def computeBackoff (restartCount : UInt32) : ℕ :=
  let exp := min (restartCount.toNat - 1) 20
  min (min (backoffBase * 2 ^ exp) u64Max) backoffMax

/-- The container is removed, if that is possible, and added again. -/
def restart (name : PodName) (container : Container) : Action (Reconciler ρ) Unit := do
  let s ← get
  match s.store name with
  | none => pure ()
  | some state =>
    let sandbox ← onRuntime (state.sandbox.removeOrKeep host container.name)
    modify (setSandbox name sandbox)
    let text := container.name
    let sandbox ← onRuntime (addContext s!"restart container {text}" (sandbox.addContainer host container))
    modify (setSandbox name sandbox)

/-- The tracker of a container, which is new at its first crash. -/
def tracker (id : String) : Action (Reconciler ρ) RestartTracker := do
  match (← get).restartState id with
  | some tracker => pure tracker
  | none =>
    let now ← onRuntime (modifyGet host.now)
    modify fun s => { s with restartState := Function.update s.restartState id (some ⟨0, now⟩) }
    pure ⟨0, now⟩

/-- A container that is down is restarted, unless it is in backoff. -/
def restartIfDue (name : PodName) (container : Container) : Action (Reconciler ρ) Unit := do
  let id := name ++ "__" ++ container.name
  let tracker ← tracker host id
  let now ← onRuntime (modifyGet host.now)
  if now < tracker.nextRetryAt then pure ()
  else
    let count := tracker.restartCount + 1
    modify fun s => { s with
      restartState := Function.update s.restartState id (some ⟨count, now + computeBackoff count⟩) }
    restart host name container

/-- A turn of `reconcile_liveness`. -/
def reconcileContainer (name : PodName) (container : Container) : Action (Reconciler ρ) Unit := do
  let id := name ++ "__" ++ container.name
  match ← onRuntime (withContext s!"read state for {id}" (host.containerState id)) with
  | .stopped | .notFound => restartIfDue host name container
  | .running => modify fun s => { s with restartState := Function.update s.restartState id none }
  | .created => pure ()

/-- `reconcile_liveness`. -/
def reconcileLiveness (name : PodName) (pod : Pod) : Action (Reconciler ρ) Unit := do
  match (← get).store name with
  | none => pure ()
  | some _ => pod.spec.containers.forM (reconcileContainer host name)

/-! ## What is reported -/

/-- A container whose state cannot be read counts as one that is not there. -/
def stateOrNotFound (id : String) : Action (Reconciler ρ) ContainerState := do
  match ← attempt (onRuntime (host.containerState id)) with
  | .ok state => pure state
  | .error _ => pure .notFound

def containerStatus (restartCount : UInt32) (container : Container) : ContainerState → ContainerStatus
  | .running => ⟨container.name, true, restartCount, .running "unknown"⟩
  | .created | .notFound => ⟨container.name, false, restartCount, .waiting⟩
  | .stopped => ⟨container.name, false, restartCount, .terminated 0⟩

/-- A pod that is not fully up is pending, whatever its other containers do. -/
def phaseOf (states : List ContainerState) : PodPhase :=
  if states.any fun state => state = .created ∨ state = .notFound then .pending
  else if states ≠ [] ∧ states.all (· = .stopped) then .failed
  else if states.any (· = .running) then .running
  else .unknown

/-- `compute_pod_status`. -/
def computePodStatus (pod : Pod) : Action (Reconciler ρ) PodStatus := do
  let name := pod.metadata.name
  let s ← get
  let states ← pod.spec.containers.mapM fun c => stateOrNotFound host (name ++ "__" ++ c.name)
  pure
    { phase := phaseOf states
      containerStatuses := (pod.spec.containers.zip states).map fun (c, state) =>
        containerStatus (((s.restartState (name ++ "__" ++ c.name)).map (·.restartCount)).getD 0) c state
      observedGeneration := pod.metadata.generation
      podIP := (s.store name).bind (·.sandbox.podIp) }

/-! ## Statuses that are pushed -/

/-- The object that the server sends back takes the place of the cached one. -/
def pushed (name : PodName) (status : PodStatus) (updated : Pod) (s : Reconciler ρ) : Reconciler ρ :=
  { s with
    cache := Function.update s.cache name (some updated)
    lastPushedStatus := Function.update s.lastPushedStatus name (some status) }

/-- `push_status`: a conflict is tried once more, from the object that the server has now. -/
def pushStatus (name : PodName) (status : PodStatus) (answers : PushAnswers) :
    Action (Reconciler ρ) Unit := do
  let s ← get
  match (s.cache name).bind fun pod => pod.metadata.resourceVersion with
  | none => pure ()
  | some _ =>
    match answers.replaced with
    | .ok updated => modify (pushed name status updated)
    | .error (.conflict _) =>
      match answers.latest with
      | .error e => throw (.context "refetch on status conflict" e.toFailure)
      | .ok none => pure ()
      | .ok (some latest) =>
        if latest.metadata.resourceVersion.isNone then throw (.message "refetched pod missing rv")
        else
          modify fun s => { s with cache := Function.update s.cache name (some latest) }
          match answers.retried with
          | .error e => throw (.context "status push retry after conflict" e.toFailure)
          | .ok updated => modify (pushed name status updated)
    | .error e => throw (.context "status push " e.toFailure)

/-! ## The arms of the loop -/

/-- A pod that has been added or modified. When it is in the cache already, it is only written there. -/
def applyPod (pod : Pod) (s : Reconciler ρ) : Reconciler ρ :=
  let name := pod.metadata.name
  let s' := { s with cache := Function.update s.cache name (some pod) }
  if (s.cache name).isNone then left (createPod host pod s') else s'

/-- `apply_watch_event`. -/
def applyWatchEvent (event : WatchEvent Pod) (s : Reconciler ρ) : Reconciler ρ :=
  match event.eventType with
  | .added | .modified => applyPod host event.object s
  | .deleted =>
    let name := event.object.metadata.name
    left (removePod host name { s with cache := Function.update s.cache name none })

/-- The first loop of `apply_diff`. -/
def createMissing (desired : List Pod) (s : Reconciler ρ) : Reconciler ρ :=
  desired.foldl (fun s pod =>
    if (s.store pod.metadata.name).isNone then left (createPod host pod s) else s) s

/-- The second one, over the names of the store in the order `names`. -/
def removeGone (desired : PodMap) (names : List PodName) (s : Reconciler ρ) : Reconciler ρ :=
  (names.filter fun name => (s.store name).isSome ∧ (desired.get name).isNone).foldl
    (fun s name => left (removePod host name s)) s

/-- The third one. -/
def reconcileAll (desired : List Pod) (s : Reconciler ρ) : Reconciler ρ :=
  desired.foldl (fun s pod => left (reconcileLiveness host pod.metadata.name pod s)) s

/-- `apply_diff`. -/
def applyDiff (desired : PodMap) (names : List PodName) (s : Reconciler ρ) : Reconciler ρ :=
  reconcileAll host desired.pods (removeGone host desired names (createMissing host desired.pods s))

/-- `resync`, with the pods that the API server lists. -/
def resync (desired : PodMap) (names : List PodName) (s : Reconciler ρ) : Reconciler ρ :=
  applyDiff host desired names { s with cache := desired.get }

/-- A turn of `tick_liveness`: the status of the pod, if it is not the one that was pushed last. -/
def tickPod (name : PodName) (s : Reconciler ρ) : Option PodStatus × Reconciler ρ :=
  match s.cache name with
  | none => (none, s)
  | some pod =>
    let s' := left (reconcileLiveness host name pod s)
    match computePodStatus host pod s' with
    | .ok status s' => (if s'.lastPushedStatus name = some status then none else some status, s')
    | .error _ s' => (none, s')

/-- `tick_liveness`, over the names of the cache in the order `names`: the dirty set. -/
def tickLiveness (names : List PodName) (s : Reconciler ρ) :
    List (PodName × PodStatus) × Reconciler ρ :=
  names.foldl (fun (dirty, s) name =>
    let (status, s') := tickPod host name s
    (dirty ++ status.toList.map (name, ·), s')) ([], s)

end Reconciler

end MyK8s.Kubelet
