import MyK8s.Lib.JsonText
import MyK8s.Resource.RoundTrip

/-!
# The text of the resources

No resource is nested deep, whatever lists and maps it has, and all numbers in it are machine integers. So
each is read back from its text.
-/

namespace MyK8s

section Plain

variable {d : ℕ}

@[simp] theorem OwnerReference.plain (r : OwnerReference) : (Serde.toValue r).Plain (d + 1) := by
  show (Serde.Value.object _).Plain (d + 1)
  simp

@[simp] theorem ObjectMeta.plain (m : ObjectMeta) : (Serde.toValue m).Plain (d + 3) := by
  show (Serde.Value.object _).Plain (d + 3)
  simp

@[simp] theorem Container.plain (c : Container) : (Serde.toValue c).Plain (d + 2) := by
  show (Serde.Value.object _).Plain (d + 2)
  simp

@[simp] theorem PodSpec.plain (s : PodSpec) : (Serde.toValue s).Plain (d + 4) := by
  show (Serde.Value.object _).Plain (d + 4)
  simp

@[simp] theorem PodPhase.plain (p : PodPhase) : (Serde.toValue p).Plain d := by
  cases p <;> exact Serde.Value.plain_string _

@[simp] theorem ContainerStatusState.plain (s : ContainerStatusState) : (Serde.toValue s).Plain (d + 2) := by
  cases s with
  | waiting => exact Serde.Value.plain_string _
  | running startedAt =>
    show (Serde.Value.object [("running", .object (Serde.field "startedAt" startedAt))]).Plain (d + 2)
    simp
  | terminated exitCode =>
    show (Serde.Value.object [("terminated", .object (Serde.field "exitCode" exitCode))]).Plain (d + 2)
    simp

@[simp] theorem ContainerStatus.plain (s : ContainerStatus) : (Serde.toValue s).Plain (d + 3) := by
  show (Serde.Value.object _).Plain (d + 3)
  simp

@[simp] theorem PodStatus.plain (s : PodStatus) : (Serde.toValue s).Plain (d + 5) := by
  show (Serde.Value.object _).Plain (d + 5)
  simp

@[simp] theorem Pod.plain (p : Pod) : (Serde.toValue p).Plain (d + 6) := by
  show (Serde.Value.object _).Plain (d + 6)
  simp

@[simp] theorem LabelSelector.plain (s : LabelSelector) : (Serde.toValue s).Plain (d + 2) := by
  show (Serde.Value.object _).Plain (d + 2)
  simp

@[simp] theorem TemplateObjectMeta.plain (m : TemplateObjectMeta) : (Serde.toValue m).Plain (d + 2) := by
  show (Serde.Value.object _).Plain (d + 2)
  simp

@[simp] theorem PodTemplateSpec.plain (t : PodTemplateSpec) : (Serde.toValue t).Plain (d + 5) := by
  show (Serde.Value.object _).Plain (d + 5)
  simp

@[simp] theorem ReplicaSetSpec.plain (s : ReplicaSetSpec) : (Serde.toValue s).Plain (d + 6) := by
  show (Serde.Value.object _).Plain (d + 6)
  simp

@[simp] theorem ReplicaSetStatus.plain (s : ReplicaSetStatus) : (Serde.toValue s).Plain (d + 1) := by
  show (Serde.Value.object _).Plain (d + 1)
  simp

@[simp] theorem ReplicaSet.plain (r : ReplicaSet) : (Serde.toValue r).Plain (d + 7) := by
  show (Serde.Value.object _).Plain (d + 7)
  simp

@[simp] theorem NodeSpec.plain (s : NodeSpec) : (Serde.toValue s).Plain (d + 1) := by
  show (Serde.Value.object _).Plain (d + 1)
  simp

@[simp] theorem NodeStatus.plain (s : NodeStatus) : (Serde.toValue s).Plain (d + 1) := by
  show (Serde.Value.object _).Plain (d + 1)
  simp

@[simp] theorem Node.plain (n : Node) : (Serde.toValue n).Plain (d + 4) := by
  show (Serde.Value.object _).Plain (d + 4)
  simp

@[simp] theorem ServiceSpec.plain (s : ServiceSpec) : (Serde.toValue s).Plain (d + 2) := by
  show (Serde.Value.object _).Plain (d + 2)
  simp

@[simp] theorem Service.plain (s : Service) : (Serde.toValue s).Plain (d + 4) := by
  show (Serde.Value.object _).Plain (d + 4)
  simp

@[simp] theorem EndpointAddress.plain (a : EndpointAddress) : (Serde.toValue a).Plain (d + 1) := by
  show (Serde.Value.object _).Plain (d + 1)
  simp

@[simp] theorem Endpoints.plain (e : Endpoints) : (Serde.toValue e).Plain (d + 4) := by
  show (Serde.Value.object _).Plain (d + 4)
  simp

end Plain

end MyK8s
