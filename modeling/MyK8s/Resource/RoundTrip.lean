import MyK8s.Resource.Kinds

/-!
# What is stored is read back

The round trips of the resource types, and the laws of their metadata: an update of the metadata is
an update of nothing else, and the status hooks leave the metadata alone.
-/

namespace MyK8s

open Serde (struct Lawful NonNull)

/-! ## The wire format -/

instance : Lawful OwnerReference := ⟨fun r => by
  show struct 5 (.object _) _ = _
  simp [List.lookup_append]⟩

instance : Lawful ObjectMeta := ⟨fun m => by
  show struct 7 (.object _) _ = _
  simp [List.lookup_append]⟩

instance : Lawful Container := ⟨fun c => by
  show struct 3 (.object _) _ = _
  simp [List.lookup_append]⟩

instance : Lawful PodSpec := ⟨fun s => by
  show struct 2 (.object _) _ = _
  simp [List.lookup_append]⟩

instance : Lawful PodPhase := ⟨fun p => by cases p <;> rfl⟩

instance : Lawful ContainerStatusState := ⟨fun s => by
  cases s with
  | waiting => rfl
  | running startedAt => rfl
  | terminated exitCode =>
    show (do
      let (name, content) ←
        Serde.variant (.object [("terminated", .object (Serde.field "exitCode" exitCode))])
      _ : Except Serde.Error ContainerStatusState) = _
    simp [Serde.variant, Serde.structVariantOfValue]⟩

instance : Lawful ContainerStatus := ⟨fun s => by
  show struct 4 (.object _) _ = _
  simp [List.lookup_append]⟩

instance : Lawful PodStatus := ⟨fun s => by
  show struct 4 (.object _) _ = _
  simp [List.lookup_append]⟩

instance : NonNull PodStatus := ⟨fun _ h => by cases h⟩

instance : Lawful Pod := ⟨fun p => by
  show struct 5 (.object _) _ = _
  simp [List.lookup_append]⟩

instance : Lawful LabelSelector := ⟨fun s => by
  show struct 1 (.object _) _ = _
  simp⟩

instance : Lawful TemplateObjectMeta := ⟨fun m => by
  show struct 1 (.object _) _ = _
  simp⟩

instance : Lawful PodTemplateSpec := ⟨fun t => by
  show struct 2 (.object _) _ = _
  simp [List.lookup_append]⟩

instance : Lawful ReplicaSetSpec := ⟨fun s => by
  show struct 3 (.object _) _ = _
  simp [List.lookup_append]⟩

instance : Lawful ReplicaSetStatus := ⟨fun s => by
  show struct 3 (.object _) _ = _
  simp [List.lookup_append]⟩

instance : NonNull ReplicaSetStatus := ⟨fun _ h => by cases h⟩

instance : Lawful ReplicaSet := ⟨fun r => by
  show struct 5 (.object _) _ = _
  simp [List.lookup_append]⟩

instance : Lawful NodeSpec := ⟨fun s => by
  show struct 2 (.object _) _ = _
  simp [List.lookup_append]⟩

instance : Lawful NodeStatus := ⟨fun s => by
  show struct 2 (.object _) _ = _
  simp [List.lookup_append]⟩

instance : NonNull NodeStatus := ⟨fun _ h => by cases h⟩

instance : Lawful Node := ⟨fun n => by
  show struct 5 (.object _) _ = _
  simp [List.lookup_append]⟩

instance : Lawful ServiceSpec := ⟨fun s => by
  show struct 4 (.object _) _ = _
  simp [List.lookup_append]⟩

instance : Lawful Service := ⟨fun s => by
  show struct 4 (.object _) _ = _
  simp [List.lookup_append]⟩

instance : Lawful EndpointAddress := ⟨fun a => by
  show struct 2 (.object _) _ = _
  simp [List.lookup_append]⟩

instance : Lawful Endpoints := ⟨fun e => by
  show struct 4 (.object _) _ = _
  simp [List.lookup_append]⟩

/-! ## Metadata -/

/-- The laws of `ResourceMeta`. -/
class LawfulResourceMeta (T : Type) [ResourceMeta T] : Prop extends Lawful T where
  getMeta_setMeta : ∀ (obj : T) (m : ObjectMeta),
    ResourceMeta.getMeta (ResourceMeta.setMeta obj m) = m
  getMeta_clearStatus : ∀ obj : T,
    ResourceMeta.getMeta (ResourceMeta.clearStatus obj) = ResourceMeta.getMeta obj
  getMeta_inheritStatus : ∀ obj current : T,
    ResourceMeta.getMeta (ResourceMeta.inheritStatus obj current) = ResourceMeta.getMeta obj

attribute [simp] LawfulResourceMeta.getMeta_setMeta LawfulResourceMeta.getMeta_clearStatus
  LawfulResourceMeta.getMeta_inheritStatus

instance : LawfulResourceMeta Pod := ⟨fun _ _ => rfl, fun _ => rfl, fun _ _ => rfl⟩
instance : LawfulResourceMeta ReplicaSet := ⟨fun _ _ => rfl, fun _ => rfl, fun _ _ => rfl⟩
instance : LawfulResourceMeta Node := ⟨fun _ _ => rfl, fun _ => rfl, fun _ _ => rfl⟩
instance : LawfulResourceMeta Service := ⟨fun _ _ => rfl, fun _ => rfl, fun _ _ => rfl⟩
instance : LawfulResourceMeta Endpoints := ⟨fun _ _ => rfl, fun _ => rfl, fun _ _ => rfl⟩

end MyK8s
