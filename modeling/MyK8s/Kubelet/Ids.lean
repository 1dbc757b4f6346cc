import MyK8s.ApiServer.Handlers
import MyK8s.Kubelet.Startup

/-!
# Ids of containers

The runtime knows a container by one text, which is made from the name of its pod and its own
(`PodSandbox::container_id_for`), and the container that holds the network of a pod by another one of the
same form. At a restart the kubelet takes the texts apart again. Names are checked for being empty, and for
nothing else (`validate_pod`). `identify_iff` says of which pods the ids are as they are meant to be.
-/

namespace MyK8s.Kubelet

def containerIdOf (podName : PodName) (containerName : String) : String :=
  podName ++ "__" ++ containerName

theorem pauseIdOf_eq (podName : PodName) : pauseIdOf podName = containerIdOf podName "pause" := by
  rw [pauseIdOf, containerIdOf, String.append_assoc]
  rfl

theorem containerIdOf_injective (podName : PodName) : Function.Injective (containerIdOf podName) := by
  intro c d h
  have hchars := congrArg String.toList h
  simp only [containerIdOf, String.toList_append, List.append_cancel_left_eq] at hchars
  exact String.toList_injective hchars

/-- The ids of the containers of a pod, in their order. -/
def idsOf (pod : Pod) : List String :=
  pod.spec.containers.map fun c => containerIdOf pod.metadata.name c.name

/-- Ids identify the containers of the pods. -/
structure Identify (pods : Set Pod) : Prop where
  /-- Of one pod. -/
  own : ∀ p ∈ pods, (idsOf p).Nodup
  apart : ∀ p ∈ pods, ∀ q ∈ pods, ∀ c ∈ p.spec.containers, ∀ d ∈ q.spec.containers,
    (p.metadata.name, c.name) ≠ (q.metadata.name, d.name) →
      containerIdOf p.metadata.name c.name ≠ containerIdOf q.metadata.name d.name
  pause : ∀ p ∈ pods, ∀ q ∈ pods, pauseIdOf q.metadata.name ∉ idsOf p
  /-- As `startup` splits it. -/
  split : ∀ p ∈ pods, ∀ rc : RecoveredContainer, ∀ c ∈ p.spec.containers,
    rc.id = containerIdOf p.metadata.name c.name → rc.split = some (p.metadata.name, c.name)

/-- Names that fit in ids. -/
structure Separable (pod : Pod) : Prop where
  /-- Two underscores in a row are neither in the name of the pod, nor begin at its end. -/
  name : ¬ "__".toList <:+: (pod.metadata.name ++ "_").toList
  pause : ∀ c ∈ pod.spec.containers, c.name ≠ "pause"
  nodup : (pod.spec.containers.map (·.name)).Nodup

section Split

variable {podName otherName : PodName} {containerName other : String}

theorem splitOnce_containerIdOf_iff :
    Text.splitOnce "__" (containerIdOf podName containerName) = some (podName, containerName) ↔
      ¬ "__".toList <:+: (podName ++ "_").toList := by
  rw [containerIdOf, Text.splitOnce_append_iff (by decide), String.toList_append]
  rfl

/-- Both parts can be read off an id. -/
theorem containerIdOf_eq_iff (h : ¬ "__".toList <:+: (podName ++ "_").toList)
    (h' : ¬ "__".toList <:+: (otherName ++ "_").toList) :
    containerIdOf podName containerName = containerIdOf otherName other ↔
      (podName, containerName) = (otherName, other) := by
  refine ⟨fun heq => ?_, fun heq => by cases heq; rfl⟩
  have hsplit : Text.splitOnce "__" (containerIdOf podName containerName) = some (podName, containerName) :=
    splitOnce_containerIdOf_iff.mpr h
  rw [heq, splitOnce_containerIdOf_iff.mpr h'] at hsplit
  exact (Option.some.inj hsplit).symm

end Split

theorem mem_idsOf {pod : Pod} {id : String} :
    id ∈ idsOf pod ↔ ∃ c ∈ pod.spec.containers, containerIdOf pod.metadata.name c.name = id := List.mem_map

/-- A pod that is accepted has a container. -/
theorem containers_ne_nil {pod : Pod} (h : ApiServer.Handlers.validatePod pod = .ok ()) :
    pod.spec.containers ≠ [] := by
  intro hnil
  unfold ApiServer.Handlers.validatePod at h
  rw [hnil] at h
  split at h <;> cases h

theorem Separable.of_identify {pods : Set Pod} (h : Identify pods) {pod : Pod} (hpod : pod ∈ pods)
    (haccepted : ApiServer.Handlers.validatePod pod = .ok ()) : Separable pod := by
  refine ⟨?_, fun c hc hpause => ?_, ?_⟩
  · obtain ⟨c, hc⟩ := List.exists_mem_of_ne_nil _ (containers_ne_nil haccepted)
    exact splitOnce_containerIdOf_iff.mp (h.split pod hpod ⟨_, .running, none⟩ c hc rfl)
  · refine h.pause pod hpod pod hpod (mem_idsOf.mpr ⟨c, hc, ?_⟩)
    rw [pauseIdOf_eq, hpause]
  · refine List.Nodup.of_map (containerIdOf pod.metadata.name) ?_
    rw [List.map_map]
    exact h.own pod hpod

theorem Identify.of_separable {pods : Set Pod} (h : ∀ pod ∈ pods, Separable pod) : Identify pods where
  own p hp := by
    have hnodup := (h p hp).nodup.map (containerIdOf_injective p.metadata.name)
    rwa [List.map_map] at hnodup
  apart p hp q hq c _ d _ hne := (containerIdOf_eq_iff (h p hp).name (h q hq).name).not.mpr hne
  pause p hp q hq hid := by
    obtain ⟨c, hc, heq⟩ := mem_idsOf.mp hid
    rw [pauseIdOf_eq, containerIdOf_eq_iff (h p hp).name (h q hq).name] at heq
    exact (h p hp).pause c hc (Prod.mk.inj heq).2
  split p hp rc c _ hrc := by
    rw [RecoveredContainer.split, hrc]
    exact splitOnce_containerIdOf_iff.mpr (h p hp).name

/-- **Ids of containers.** -/
theorem identify_iff {pods : Set Pod}
    (haccepted : ∀ pod ∈ pods, ApiServer.Handlers.validatePod pod = .ok ()) :
    Identify pods ↔ ∀ pod ∈ pods, Separable pod :=
  ⟨fun h pod hpod => .of_identify h hpod (haccepted pod hpod), .of_separable⟩

/-- A pod with one container. -/
def podWith (podName containerName : String) : Pod where
  apiVersion := "v1"
  kind := "Pod"
  metadata :=
    { name := podName
      uid := none
      resourceVersion := none
      generation := none
      creationTimestamp := none
      labels := ∅
      ownerReferences := [] }
  spec := { containers := [⟨containerName, "busybox", []⟩], nodeName := none }
  status := none

/-- Two underscores end the name of a pod too early, and two containers of different pods are one. And a
container has taken the id of the pause container. -/
theorem not_identify :
    ApiServer.Handlers.validatePod (podWith "web" "a__b") = .ok () ∧
      ApiServer.Handlers.validatePod (podWith "web__a" "b") = .ok () ∧
      ¬ Identify {podWith "web" "a__b", podWith "web__a" "b"} ∧
      ApiServer.Handlers.validatePod (podWith "web" "pause") = .ok () ∧
      ¬ Identify {podWith "web" "pause"} := by
  refine ⟨by decide, by decide, fun h => ?_, by decide, fun h => ?_⟩
  · exact h.apart _ (.inl rfl) _ (.inr rfl) _ List.mem_cons_self _ List.mem_cons_self (by decide) (by decide)
  · exact h.pause _ rfl _ rfl (by decide)

theorem identify_iff_sample : Identify {podWith "web" "a__b", podWith "db" "_pause"} := by
  refine (identify_iff ?_).mpr ?_
  · rintro pod (rfl | rfl) <;> decide
  · rintro pod (rfl | rfl) <;> exact ⟨by decide, by decide, by decide⟩

end MyK8s.Kubelet
