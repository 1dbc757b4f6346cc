import MyK8s.ApiServer.Clients

/-!
# The ReplicaSet controller

`src/controller/replicaset.rs`: how many pods there are for a ReplicaSet is driven towards what its
spec says. Errors that the code warns of and passes over are returned, in their order; what it draws
at random and what the server stamps on a create come as arguments.
-/

namespace MyK8s.Controller.ReplicaSets

open ApiServer
open Process (Proc)
open Serde (StringMap)

/-! ## Pods of a ReplicaSet -/

/-- An empty selector matches everything. -/
def matchesSelector (labels : StringMap) (selector : LabelSelector) : Bool :=
  selector.matchLabels.toList.all fun (k, v) => labels[k]? == some v

def isOwnedBy (pod : Pod) (rsName : String) : Bool :=
  pod.metadata.ownerReferences.any fun o =>
    o.kind == "ReplicaSet" && o.controller && o.name == rsName

def hasController (pod : Pod) : Bool := pod.metadata.ownerReferences.any fun o => o.controller

/-- A pod that has a controller is off-limits. -/
def canAdopt (pod : Pod) (rs : ReplicaSet) : Bool :=
  !hasController pod && matchesSelector pod.metadata.labels rs.spec.selector

def isReady (pod : Pod) : Bool :=
  match pod.status with
  | none => false
  | some s => s.phase = .running && !s.containerStatuses.isEmpty && s.containerStatuses.all (·.ready)

def ownerRef (rs : ReplicaSet) : OwnerReference where
  apiVersion := "apps/v1"
  kind := "ReplicaSet"
  name := rs.metadata.name
  uid := rs.metadata.uid.getD ""
  controller := true

/-- The pod with the ReplicaSet as its controller. -/
def adopted (pod : Pod) (rs : ReplicaSet) : Pod :=
  { pod with metadata := { pod.metadata with
      ownerReferences := pod.metadata.ownerReferences ++ [ownerRef rs] } }

def adopt (pod : Pod) (rs : ReplicaSet) : Client Pod :=
  Client.request (Handlers.replacePodSpec (adopted pod rs).metadata.name (adopted pod rs))

/-- What is drawn for a pod: the suffix of its name, and the stamp of the server. -/
structure Draw where
  suffix : String
  stamp : Stamp

def podFromTemplate (rs : ReplicaSet) (suffix : String) : Pod where
  apiVersion := "v1"
  kind := "Pod"
  metadata :=
    { name := rs.metadata.name ++ "-" ++ suffix
      uid := none
      resourceVersion := none
      generation := none
      creationTimestamp := none
      labels := rs.spec.template.metadata.labels
      ownerReferences := [ownerRef rs] }
  spec := rs.spec.template.spec
  status := none

/-! ## Reconciling -/

/-- The loop over all pods: those that the ReplicaSet owns, with the orphans that it adopts. -/
def gather (rs : ReplicaSet) (rsName : String) : List Pod → Client (List Pod × List ClientError)
  | [] => return ([], [])
  | pod :: pods => do
    if isOwnedBy pod rsName then
      let (owned, errors) ← gather rs rsName pods
      return (pod :: owned, errors)
    else if canAdopt pod rs then
      match ← Client.attempt (adopt pod rs) with
      | .ok updated =>
        let (owned, errors) ← gather rs rsName pods
        return (updated :: owned, errors)
      | .error e =>
        let (owned, errors) ← gather rs rsName pods
        return (owned, e :: errors)
    else gather rs rsName pods

def createPods (rs : ReplicaSet) : List Draw → Client (List ClientError)
  | [] => return []
  | draw :: draws => do
    let result ← Client.attempt
      (Client.request (Handlers.createPod draw.stamp (podFromTemplate rs draw.suffix)))
    let errors ← createPods rs draws
    match result with
    | .ok _ => return errors
    | .error e => return e :: errors

def deletePods : List Pod → Client (List ClientError)
  | [] => return []
  | pod :: pods => do
    match pod.metadata.resourceVersion with
    | some rv =>
      let result ← Client.attempt
        (Client.request (Handlers.deletePod pod.metadata.name (some rv)))
      let errors ← deletePods pods
      match result with
      | .ok _ => return errors
      | .error e => return e :: errors
    | none => deletePods pods

/-- The order of the creation timestamps, `None` first. -/
def createdBefore (a b : Pod) : Prop :=
  match a.metadata.creationTimestamp, b.metadata.creationTimestamp with
  | none, _ => True
  | some _, none => False
  | some x, some y => x ≤ y

instance : DecidableRel createdBefore := fun a b => by
  unfold createdBefore
  split <;> infer_instance

/-- The oldest pods, as many as there are too many. -/
def surplus (desired : ℕ) (owned : List Pod) : List Pod :=
  (owned.insertionSort createdBefore).take (owned.length - desired)

def cascadeDelete (rsName : String) : Client (List ClientError) := do
  let pods : List Pod ← Client.list .pod
  deletePods (pods.filter fun pod => isOwnedBy pod rsName)

/-- The status that the pods give the ReplicaSet. -/
def newStatus (rs : ReplicaSet) (owned : List Pod) : ReplicaSetStatus where
  replicas := .ofNat owned.length
  readyReplicas := .ofNat (owned.countP isReady)
  observedGeneration := rs.metadata.generation.getD 0

/-- The status is written only if it has changed. -/
def updateStatus (rsName : String) (rs : ReplicaSet) : Client Unit := do
  let pods : List Pod ← Client.list .pod
  let status := newStatus rs (pods.filter fun pod => isOwnedBy pod rsName)
  if rs.status = some status then return ()
  match rs.metadata.resourceVersion with
  | some rv =>
    let _ ← Client.request (Handlers.replaceReplicasetStatus rsName (some rv) status)
    return ()
  | none => return ()

def reconcile (draws : ℕ → Draw) (rsName : String) : Client (List ClientError) := do
  match ← Client.get .replicaSet rsName with
  | none => cascadeDelete rsName
  | some (rs : ReplicaSet) =>
    let allPods : List Pod ← Client.list .pod
    let (owned, errors) ← gather rs rsName allPods
    let desired := rs.spec.replicas.toNat
    let errors' ←
      if owned.length < desired then
        createPods rs ((List.range (desired - owned.length)).map draws)
      else if owned.length > desired then deletePods (surplus desired owned)
      else pure []
    updateStatus rsName rs
    return errors ++ errors'

end MyK8s.Controller.ReplicaSets
