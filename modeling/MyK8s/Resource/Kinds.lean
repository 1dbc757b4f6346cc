import MyK8s.Resource.Meta

/-!
# The five kinds

`src/pod.rs`, `src/replicaset.rs`, `src/node.rs`, `src/service.rs` and `src/endpoints.rs`: the types
of the resources with their wire format, and what they tell the store. Services and endpoints have
no status.
-/

namespace MyK8s

open Serde (StringMap)

/-! ## Pods -/

structure Container where
  name : String
  image : String
  command : List String
  deriving DecidableEq

structure PodSpec where
  containers : List Container
  nodeName : Option String
  deriving DecidableEq

inductive PodPhase
  | pending
  | running
  | succeeded
  | failed
  | unknown
  deriving DecidableEq

inductive ContainerStatusState
  | waiting
  | running (startedAt : String)
  | terminated (exitCode : Int32)
  deriving DecidableEq

structure ContainerStatus where
  name : String
  ready : Bool
  restartCount : UInt32
  state : ContainerStatusState
  deriving DecidableEq

structure PodStatus where
  phase : PodPhase
  containerStatuses : List ContainerStatus
  observedGeneration : Option UInt64
  podIP : Option String
  deriving DecidableEq

structure Pod where
  apiVersion : String
  kind : String
  metadata : ObjectMeta
  spec : PodSpec
  status : Option PodStatus
  deriving DecidableEq

instance : Serde Container where
  toValue c := .object (
    Serde.field "name" c.name ++
    Serde.field "image" c.image ++
    Serde.field "command" c.command)
  fromValue v := Serde.struct 3 v fun fs => do
    let name ← fs.required 0 "name"
    let image ← fs.required 1 "image"
    let command ← fs.required 2 "command"
    pure { name, image, command }

instance : Serde PodSpec where
  toValue s := .object (
    Serde.field "containers" s.containers ++
    Serde.fieldUnless Option.isNone "nodeName" s.nodeName)
  fromValue v := Serde.struct 2 v fun fs => do
    let containers ← fs.required 0 "containers"
    let nodeName ← fs.defaulted 1 "nodeName" none
    pure { containers, nodeName }

/-- The phases are written as they are named in the source. -/
instance : Serde PodPhase where
  toValue
    | .pending => .string "Pending"
    | .running => .string "Running"
    | .succeeded => .string "Succeeded"
    | .failed => .string "Failed"
    | .unknown => .string "Unknown"
  fromValue v := do
    let (name, content) ← Serde.variant v
    match name with
    | "Pending" => Serde.unitVariant .pending content
    | "Running" => Serde.unitVariant .running content
    | "Succeeded" => Serde.unitVariant .succeeded content
    | "Failed" => Serde.unitVariant .failed content
    | "Unknown" => Serde.unitVariant .unknown content
    | other => .error (.unknownVariant other)

/-- (Where what is read was not written by the program itself, it comes through `from_value`.) -/
instance : Serde ContainerStatusState where
  toValue
    | .waiting => .string "waiting"
    | .running startedAt => .object [("running", .object (Serde.field "startedAt" startedAt))]
    | .terminated exitCode => .object [("terminated", .object (Serde.field "exitCode" exitCode))]
  fromValue v := do
    let (name, content) ← Serde.variant v
    match name with
    | "waiting" => Serde.unitVariant .waiting content
    | "running" => Serde.structVariantOfValue content fun fs => do
      let startedAt ← fs.required 0 "startedAt"
      pure (.running startedAt)
    | "terminated" => Serde.structVariantOfValue content fun fs => do
      let exitCode ← fs.required 0 "exitCode"
      pure (.terminated exitCode)
    | other => .error (.unknownVariant other)

instance : Serde ContainerStatus where
  toValue s := .object (
    Serde.field "name" s.name ++
    Serde.field "ready" s.ready ++
    Serde.field "restartCount" s.restartCount ++
    Serde.field "state" s.state)
  fromValue v := Serde.struct 4 v fun fs => do
    let name ← fs.required 0 "name"
    let ready ← fs.required 1 "ready"
    let restartCount ← fs.required 2 "restartCount"
    let state ← fs.required 3 "state"
    pure { name, ready, restartCount, state }

instance : Serde PodStatus where
  toValue s := .object (
    Serde.field "phase" s.phase ++
    Serde.field "containerStatuses" s.containerStatuses ++
    Serde.fieldUnless Option.isNone "observedGeneration" s.observedGeneration ++
    Serde.fieldUnless Option.isNone "podIP" s.podIP)
  fromValue v := Serde.struct 4 v fun fs => do
    let phase ← fs.required 0 "phase"
    let containerStatuses ← fs.required 1 "containerStatuses"
    let observedGeneration ← fs.optional 2 "observedGeneration"
    let podIP ← fs.optional 3 "podIP"
    pure { phase, containerStatuses, observedGeneration, podIP }

instance : ResourceMeta Pod where
  toValue p := .object (
    Serde.field "apiVersion" p.apiVersion ++
    Serde.field "kind" p.kind ++
    Serde.field "metadata" p.metadata ++
    Serde.field "spec" p.spec ++
    Serde.fieldUnless Option.isNone "status" p.status)
  fromValue v := Serde.struct 5 v fun fs => do
    let apiVersion ← fs.required 0 "apiVersion"
    let kind ← fs.required 1 "kind"
    let metadata ← fs.required 2 "metadata"
    let spec ← fs.required 3 "spec"
    let status ← fs.defaulted 4 "status" none
    pure { apiVersion, kind, metadata, spec, status }
  kindPrefix := "pods/"
  getMeta p := p.metadata
  setMeta p m := { p with metadata := m }
  clearStatus p := { p with status := none }
  inheritStatus p current := { p with status := current.status }

/-! ## ReplicaSets -/

structure LabelSelector where
  matchLabels : StringMap
  deriving DecidableEq

structure TemplateObjectMeta where
  labels : StringMap
  deriving DecidableEq

structure PodTemplateSpec where
  metadata : TemplateObjectMeta
  spec : PodSpec
  deriving DecidableEq

structure ReplicaSetSpec where
  replicas : UInt32
  selector : LabelSelector
  template : PodTemplateSpec
  deriving DecidableEq

structure ReplicaSetStatus where
  replicas : UInt32
  readyReplicas : UInt32
  observedGeneration : UInt64
  deriving DecidableEq

structure ReplicaSet where
  apiVersion : String
  kind : String
  metadata : ObjectMeta
  spec : ReplicaSetSpec
  status : Option ReplicaSetStatus
  deriving DecidableEq

instance : Serde LabelSelector where
  toValue s := .object (
    Serde.fieldUnless (fun l : StringMap => l.isEmpty) "matchLabels" s.matchLabels)
  fromValue v := Serde.struct 1 v fun fs => do
    let matchLabels ← fs.defaulted 0 "matchLabels" ∅
    pure { matchLabels }

instance : Serde TemplateObjectMeta where
  toValue m := .object (
    Serde.fieldUnless (fun l : StringMap => l.isEmpty) "labels" m.labels)
  fromValue v := Serde.struct 1 v fun fs => do
    let labels ← fs.defaulted 0 "labels" ∅
    pure { labels }

instance : Serde PodTemplateSpec where
  toValue t := .object (
    Serde.field "metadata" t.metadata ++
    Serde.field "spec" t.spec)
  fromValue v := Serde.struct 2 v fun fs => do
    let metadata ← fs.required 0 "metadata"
    let spec ← fs.required 1 "spec"
    pure { metadata, spec }

instance : Serde ReplicaSetSpec where
  toValue s := .object (
    Serde.field "replicas" s.replicas ++
    Serde.field "selector" s.selector ++
    Serde.field "template" s.template)
  fromValue v := Serde.struct 3 v fun fs => do
    let replicas ← fs.required 0 "replicas"
    let selector ← fs.required 1 "selector"
    let template ← fs.required 2 "template"
    pure { replicas, selector, template }

instance : Serde ReplicaSetStatus where
  toValue s := .object (
    Serde.field "replicas" s.replicas ++
    Serde.field "readyReplicas" s.readyReplicas ++
    Serde.field "observedGeneration" s.observedGeneration)
  fromValue v := Serde.struct 3 v fun fs => do
    let replicas ← fs.required 0 "replicas"
    let readyReplicas ← fs.required 1 "readyReplicas"
    let observedGeneration ← fs.required 2 "observedGeneration"
    pure { replicas, readyReplicas, observedGeneration }

instance : ResourceMeta ReplicaSet where
  toValue r := .object (
    Serde.field "apiVersion" r.apiVersion ++
    Serde.field "kind" r.kind ++
    Serde.field "metadata" r.metadata ++
    Serde.field "spec" r.spec ++
    Serde.fieldUnless Option.isNone "status" r.status)
  fromValue v := Serde.struct 5 v fun fs => do
    let apiVersion ← fs.required 0 "apiVersion"
    let kind ← fs.required 1 "kind"
    let metadata ← fs.required 2 "metadata"
    let spec ← fs.required 3 "spec"
    let status ← fs.defaulted 4 "status" none
    pure { apiVersion, kind, metadata, spec, status }
  kindPrefix := "replicasets/"
  getMeta r := r.metadata
  setMeta r m := { r with metadata := m }
  clearStatus r := { r with status := none }
  inheritStatus r current := { r with status := current.status }

/-! ## Nodes -/

structure NodeSpec where
  unschedulable : Bool
  podCIDR : Option String
  deriving DecidableEq

structure NodeStatus where
  ready : Bool
  lastHeartbeatTime : Option String
  deriving DecidableEq

structure Node where
  apiVersion : String
  kind : String
  metadata : ObjectMeta
  spec : NodeSpec
  status : Option NodeStatus
  deriving DecidableEq

instance : Serde NodeSpec where
  toValue s := .object (
    Serde.field "unschedulable" s.unschedulable ++
    Serde.fieldUnless Option.isNone "podCIDR" s.podCIDR)
  fromValue v := Serde.struct 2 v fun fs => do
    let unschedulable ← fs.defaulted 0 "unschedulable" false
    let podCIDR ← fs.optional 1 "podCIDR"
    pure { unschedulable, podCIDR }

instance : Serde NodeStatus where
  toValue s := .object (
    Serde.field "ready" s.ready ++
    Serde.fieldUnless Option.isNone "lastHeartbeatTime" s.lastHeartbeatTime)
  fromValue v := Serde.struct 2 v fun fs => do
    let ready ← fs.required 0 "ready"
    let lastHeartbeatTime ← fs.optional 1 "lastHeartbeatTime"
    pure { ready, lastHeartbeatTime }

instance : ResourceMeta Node where
  toValue n := .object (
    Serde.field "apiVersion" n.apiVersion ++
    Serde.field "kind" n.kind ++
    Serde.field "metadata" n.metadata ++
    Serde.field "spec" n.spec ++
    Serde.fieldUnless Option.isNone "status" n.status)
  fromValue v := Serde.struct 5 v fun fs => do
    let apiVersion ← fs.required 0 "apiVersion"
    let kind ← fs.required 1 "kind"
    let metadata ← fs.required 2 "metadata"
    let spec ← fs.required 3 "spec"
    let status ← fs.defaulted 4 "status" none
    pure { apiVersion, kind, metadata, spec, status }
  kindPrefix := "nodes/"
  getMeta n := n.metadata
  setMeta n m := { n with metadata := m }
  clearStatus n := { n with status := none }
  inheritStatus n current := { n with status := current.status }

/-! ## Services and endpoints -/

structure ServiceSpec where
  selector : StringMap
  port : UInt16
  targetPort : UInt16
  clusterIP : Option String
  deriving DecidableEq

structure Service where
  apiVersion : String
  kind : String
  metadata : ObjectMeta
  spec : ServiceSpec
  deriving DecidableEq

structure EndpointAddress where
  ip : String
  port : UInt16
  deriving DecidableEq

structure Endpoints where
  apiVersion : String
  kind : String
  metadata : ObjectMeta
  addresses : List EndpointAddress
  deriving DecidableEq

instance : Serde ServiceSpec where
  toValue s := .object (
    Serde.field "selector" s.selector ++
    Serde.field "port" s.port ++
    Serde.field "targetPort" s.targetPort ++
    Serde.fieldUnless Option.isNone "clusterIP" s.clusterIP)
  fromValue v := Serde.struct 4 v fun fs => do
    let selector ← fs.defaulted 0 "selector" ∅
    let port ← fs.required 1 "port"
    let targetPort ← fs.required 2 "targetPort"
    let clusterIP ← fs.optional 3 "clusterIP"
    pure { selector, port, targetPort, clusterIP }

instance : ResourceMeta Service where
  toValue s := .object (
    Serde.field "apiVersion" s.apiVersion ++
    Serde.field "kind" s.kind ++
    Serde.field "metadata" s.metadata ++
    Serde.field "spec" s.spec)
  fromValue v := Serde.struct 4 v fun fs => do
    let apiVersion ← fs.required 0 "apiVersion"
    let kind ← fs.required 1 "kind"
    let metadata ← fs.required 2 "metadata"
    let spec ← fs.required 3 "spec"
    pure { apiVersion, kind, metadata, spec }
  kindPrefix := "services/"
  getMeta s := s.metadata
  setMeta s m := { s with metadata := m }

instance : Serde EndpointAddress where
  toValue a := .object (
    Serde.field "ip" a.ip ++
    Serde.field "port" a.port)
  fromValue v := Serde.struct 2 v fun fs => do
    let ip ← fs.required 0 "ip"
    let port ← fs.required 1 "port"
    pure { ip, port }

instance : ResourceMeta Endpoints where
  toValue e := .object (
    Serde.field "apiVersion" e.apiVersion ++
    Serde.field "kind" e.kind ++
    Serde.field "metadata" e.metadata ++
    Serde.field "addresses" e.addresses)
  fromValue v := Serde.struct 4 v fun fs => do
    let apiVersion ← fs.required 0 "apiVersion"
    let kind ← fs.required 1 "kind"
    let metadata ← fs.required 2 "metadata"
    let addresses ← fs.defaulted 3 "addresses" []
    pure { apiVersion, kind, metadata, addresses }
  kindPrefix := "endpoints/"
  getMeta e := e.metadata
  setMeta e m := { e with metadata := m }

end MyK8s
