import MyK8s.Kubelet.Addresses
import MyK8s.Kubelet.Contract
import MyK8s.Kubelet.Startup
import MyK8s.Lib.Runs

/-!
# Recovery

What startup makes of the containers that have survived, for any runtime that keeps the contract. A pod
is taken over with all of its group. A pod whose pause container is gone, or has no pid, is created anew
among what is left of it, and nothing cleans that up: the ids are still in use, and the group is no longer
an orphan. `recovery_complete_iff` says when each listed pod gets its entry, and nothing is left behind.
-/

namespace MyK8s.Kubelet

open Fallible

/-! ## What startup should make of the containers -/

section Plan

variable (recovered : List RecoveredContainer)

/-- The pause container of the pod has survived, with its pid. -/
def takenOver (pod : Pod) : Bool := (recoveredPause (groupByPod recovered) pod.metadata.name).isSome

/-- The listed pods that are created anew. -/
def created (pods : List Pod) : List Pod := pods.filter fun pod => ¬ takenOver recovered pod

/-- The ids that they ask for. -/
def createdIds (pods : List Pod) : List String := (created recovered pods).flatMap createIds

/-- No two of the pods that are created anew, and no two containers of one, ask for the same id, and no
container that has survived has it. -/
structure NoClash (pods : List Pod) : Prop where
  nodup : (createdIds recovered pods).Nodup
  unused : ∀ id ∈ createdIds recovered pods, id ∉ recoveredIds recovered

variable {recovered} {past : List Pod} {pod : Pod}

theorem createdIds_concat : createdIds recovered (past ++ [pod]) =
    createdIds recovered past ++ if takenOver recovered pod then [] else createIds pod := by
  unfold createdIds created
  rw [List.filter_append, List.flatMap_append]
  cases h : takenOver recovered pod <;> simp [h]

theorem noClash_concat_iff : NoClash recovered (past ++ [pod]) ↔ NoClash recovered past ∧
    (takenOver recovered pod = false → (createIds pod).Nodup ∧
      ∀ id ∈ createIds pod, id ∉ recoveredIds recovered ∪ {id | id ∈ createdIds recovered past}) := by
  cases htaken : takenOver recovered pod with
  | true =>
    have hsame : createdIds recovered (past ++ [pod]) = createdIds recovered past := by
      rw [createdIds_concat, htaken, if_pos rfl, List.append_nil]
    refine ⟨fun h => ⟨⟨hsame ▸ h.nodup, hsame ▸ h.unused⟩, nofun⟩, fun h => ?_⟩
    exact ⟨hsame ▸ h.1.nodup, hsame ▸ h.1.unused⟩
  | false =>
    have hmore : createdIds recovered (past ++ [pod]) = createdIds recovered past ++ createIds pod := by
      rw [createdIds_concat, htaken, if_neg (by decide)]
    constructor
    · rintro ⟨hnodup, hunused⟩
      rw [hmore] at hnodup hunused
      obtain ⟨hpast, hpod, hdisjoint⟩ := List.nodup_append.mp hnodup
      refine ⟨⟨hpast, fun id hid => hunused id (List.mem_append_left _ hid)⟩, fun _ => ⟨hpod, ?_⟩⟩
      rintro id hid (hrecovered | hcreated)
      · exact hunused id (List.mem_append_right _ hid) hrecovered
      · exact hdisjoint id hcreated id hid rfl
    · rintro ⟨⟨hnodup, hunused⟩, hnew⟩
      obtain ⟨hpod, hfree⟩ := hnew rfl
      constructor
      · rw [hmore]
        refine List.nodup_append.mpr ⟨hnodup, hpod, ?_⟩
        rintro id hid _ hid' rfl
        exact hfree id hid' (.inr hid)
      · intro id hid hrecovered
        rw [hmore] at hid
        obtain hid | hid := List.mem_append.mp hid
        · exact hunused id hid hrecovered
        · exact hfree id hid (.inl hrecovered)

end Plan

namespace Reconciler

variable {ρ : Type} {host : Host ρ} {inUse : ρ → Set String} {s : Reconciler ρ} {pod : Pod}
  {recovered : List RecoveredContainer} {past pods : List Pod} {st : Reconciler ρ × ByPod}

/-! ## A turn of the loop -/

/-- How far the loop has come: each pod has its sandbox, and what is in use has survived or has been
created. -/
structure Progress (recovered : List RecoveredContainer) (inUse : ρ → Set String) (past : List Pod)
    (s : Reconciler ρ) : Prop where
  used : inUse s.runtime = recoveredIds recovered ∪ {id | id ∈ createdIds recovered past}
  stored : ∀ pod ∈ past, ∃ state, s.store pod.metadata.name = some state ∧
    ∀ id, id ∈ state.sandbox.containerIds ↔
      if takenOver recovered pod then ∃ rc ∈ groupByPod recovered pod.metadata.name, rc.id = id
      else id ∈ createIds pod

theorem Progress.nil (hused : inUse s.runtime = recoveredIds recovered) :
    Progress recovered inUse [] s where
  used := by simp [hused, createdIds, created]
  stored _ hpod := absurd hpod List.not_mem_nil

theorem recoveredPause_congr {byPod byPod' : ByPod} {name : PodName} (h : byPod name = byPod' name) :
    recoveredPause byPod name = recoveredPause byPod' name := by
  unfold recoveredPause
  rw [h]

/-- A sandbox that is taken over has the containers of the group. -/
theorem containerIds_fromRecovered {byPod : ByPod} {name : PodName} {pausePid : ℕ}
    {podsDir rootfsBase : Path} {podIp : Option String} (hbyPod : byPod name = groupByPod recovered name)
    (hpause : recoveredPause byPod name = some pausePid) (id : String) :
    id ∈ (PodSandbox.fromRecovered name pausePid (recoveredApps byPod name) podsDir rootfsBase
      podIp).containerIds ↔ ∃ rc ∈ groupByPod recovered name, rc.id = id := by
  have hsplit : ∀ {rc}, rc ∈ byPod name → ∃ rest, rc.split = some (name, rest) := by
    intro rc hrc
    rw [hbyPod] at hrc
    have hname := (List.mem_filter.mp hrc).2
    obtain ⟨⟨n, rest⟩, hsplit, hn⟩ := Option.map_eq_some_iff.mp (decide_eq_true_eq.mp hname)
    obtain rfl : n = name := hn
    exact ⟨rest, hsplit⟩
  rw [← hbyPod]
  unfold PodSandbox.containerIds PodSandbox.fromRecovered
  rw [List.mem_cons, List.mem_map]
  constructor
  · rintro (rfl | ⟨rest, hrest, rfl⟩)
    · obtain ⟨rc, hfind, -⟩ := Option.bind_eq_some_iff.mp hpause
      have hid := List.find?_some hfind
      rw [decide_eq_true_eq] at hid
      exact ⟨rc, List.mem_of_find?_eq_some hfind, hid⟩
    · obtain ⟨rc, hrc, happ⟩ := List.mem_filterMap.mp hrest
      obtain ⟨⟨n, rest'⟩, hsplit', rfl⟩ := Option.map_eq_some_iff.mp happ
      have hmem := (List.mem_filter.mp hrc).1
      obtain ⟨rest'', hsplit''⟩ := hsplit hmem
      cases hsplit'.symm.trans hsplit''
      exact ⟨rc, hmem, RecoveredContainer.id_eq hsplit'⟩
  · rintro ⟨rc, hrc, rfl⟩
    by_cases hid : rc.id = pauseIdOf name
    · exact .inl hid
    · obtain ⟨rest, hrest⟩ := hsplit hrc
      refine .inr ⟨rest, List.mem_filterMap.mpr ⟨rc, List.mem_filter.mpr ⟨hrc, by simpa using hid⟩, ?_⟩,
        (RecoveredContainer.id_eq hrest).symm⟩
      rw [hrest, Option.map_some]

theorem reserveReported_frame (pod : Pod) (s : Reconciler ρ) :
    (reserveReported pod s).store = s.store ∧ (reserveReported pod s).runtime = s.runtime := by
  unfold reserveReported
  split <;> exact ⟨rfl, rfl⟩

theorem recoverPod_takenOver (host : Host ρ) {pausePid : ℕ}
    (hpause : recoveredPause st.2 pod.metadata.name = some pausePid) :
    (recoverPod host st pod).1.runtime = st.1.runtime ∧ ∃ podsDir rootfsBase,
      (recoverPod host st pod).1.store pod.metadata.name = some ⟨pod,
        PodSandbox.fromRecovered pod.metadata.name pausePid (recoveredApps st.2 pod.metadata.name) podsDir
          rootfsBase (reportedIp pod)⟩ := by
  unfold recoverPod recoverSandbox
  simp only [hpause]
  exact ⟨(reserveReported_frame pod st.1).2, _, _, Function.update_self ..⟩

/-- What becomes of the store in `create_pod`, and of the ids. -/
theorem createPod_stored (C : RuntimeContract host inUse) (hnone : s.store pod.metadata.name = none)
    (hstored : ((left (createPod host pod s)).store pod.metadata.name).isSome) :
    (createIds pod).Nodup ∧ (∀ id ∈ createIds pod, id ∉ inUse s.runtime) ∧
      inUse (left (createPod host pod s)).runtime = inUse s.runtime ∪ {id | id ∈ createIds pod} ∧
      ∃ state, (left (createPod host pod s)).store pod.metadata.name = some state ∧
        state.sandbox.containerIds = createIds pod := by
  have hcreated : wp (createPod host pod)
      (fun _ s' => (createIds pod).Nodup ∧ (∀ id ∈ createIds pod, id ∉ inUse s.runtime) ∧
        inUse s'.runtime = inUse s.runtime ∪ {id | id ∈ createIds pod} ∧
        ∃ state, s'.store pod.metadata.name = some state ∧
          state.sandbox.containerIds = createIds pod)
      (fun _ s' => s'.store pod.metadata.name = none) s := by
    refine wp_mono (createPod_contract C) (fun _ s' h => ?_) fun _ s' h => by rw [h, hnone]
    obtain ⟨⟨pausePid, podIp, hstore⟩, hnodup, hfree, hgrown⟩ := h
    exact ⟨hnodup, hfree, hgrown, _, by rw [hstore, Function.update_self], containerIds_sandboxOf⟩
  unfold wp at hcreated
  split at hcreated
  · rename_i heq
    rw [heq]
    exact hcreated
  · rename_i heq
    rw [heq, left_error, hcreated] at hstored
    cases hstored

theorem store_recoverPod_of_ne (C : RuntimeContract host inUse) {name : PodName}
    (hne : name ≠ pod.metadata.name) : (recoverPod host st pod).1.store name = st.1.store name := by
  obtain ⟨hstore, -⟩ := reserveReported_frame pod st.1
  show (recoverSandbox host st.2 pod (reserveReported pod st.1)).store name = _
  unfold recoverSandbox
  dsimp only
  rw [← hstore]
  cases recoveredPause st.2 pod.metadata.name with
  | some pausePid => exact Function.update_of_ne hne ..
  | none =>
    have hframe : wp (createPod host pod)
        (fun _ s' => s'.store name = (reserveReported pod st.1).store name)
        (fun _ s' => s'.store name = (reserveReported pod st.1).store name)
        (reserveReported pod st.1) := by
      refine wp_mono (createPod_contract C) (fun _ s' h => ?_) fun _ s' h => by rw [h]
      obtain ⟨⟨pausePid, podIp, hstore'⟩, -⟩ := h
      rw [hstore', Function.update_of_ne hne]
    exact wp_left hframe

theorem store_recoverPods (C : RuntimeContract host inUse) {name : PodName}
    (hname : name ∉ past.map fun pod => pod.metadata.name) :
    (recoverPods host recovered past s).1.store name = s.store name := by
  induction past using List.reverseRecOn with
  | nil => rfl
  | append_singleton past pod ih =>
    rw [List.map_append, List.mem_append, List.map_singleton, List.mem_singleton, not_or] at hname
    rw [recoverPods_concat, store_recoverPod_of_ne C hname.2, ih hname.1]

theorem byPod_recoverPods (name : PodName) : (recoverPods host recovered past s).2 name =
    if name ∈ past.map fun pod => pod.metadata.name then [] else groupByPod recovered name := by
  induction past using List.reverseRecOn with
  | nil => rfl
  | append_singleton past pod ih =>
    rw [recoverPods_concat]
    show Function.update _ _ _ _ = _
    rcases eq_or_ne name pod.metadata.name with rfl | hne
    · rw [Function.update_self, if_pos (by simp)]
    · rw [Function.update_of_ne hne, ih]
      simp [hne]

/-- **A turn** that gives the pod its entry goes on with the progress, and the ids that it creates were
free. -/
theorem Progress.turn (C : RuntimeContract host inUse) (h : Progress recovered inUse past st.1)
    (hbyPod : st.2 pod.metadata.name = groupByPod recovered pod.metadata.name)
    (hnew : pod.metadata.name ∉ past.map fun pod => pod.metadata.name)
    (hnone : st.1.store pod.metadata.name = none)
    (hstored : ((recoverPod host st pod).1.store pod.metadata.name).isSome) :
    Progress recovered inUse (past ++ [pod]) (recoverPod host st pod).1 ∧
      (takenOver recovered pod = false → (createIds pod).Nodup ∧
        ∀ id ∈ createIds pod, id ∉ recoveredIds recovered ∪ {id | id ∈ createdIds recovered past}) := by
  obtain ⟨hstore, hruntime⟩ := reserveReported_frame pod st.1
  have hpast : ∀ old ∈ past, (recoverPod host st pod).1.store old.metadata.name =
      st.1.store old.metadata.name := by
    intro old hold
    refine store_recoverPod_of_ne C fun heq => hnew ?_
    exact List.mem_map.mpr ⟨old, hold, heq⟩
  have hgoesOn : (inUse (recoverPod host st pod).1.runtime =
        recoveredIds recovered ∪ {id | id ∈ createdIds recovered (past ++ [pod])}) →
      (∃ state, (recoverPod host st pod).1.store pod.metadata.name = some state ∧
        ∀ id, id ∈ state.sandbox.containerIds ↔
          if takenOver recovered pod then ∃ rc ∈ groupByPod recovered pod.metadata.name, rc.id = id
          else id ∈ createIds pod) →
      Progress recovered inUse (past ++ [pod]) (recoverPod host st pod).1 := by
    refine fun hused hpod => ⟨hused, fun p hp => ?_⟩
    obtain hp | hp := List.mem_append.mp hp
    · rw [hpast p hp]
      exact h.stored p hp
    · rw [List.mem_singleton.mp hp]
      exact hpod
  have htaken : takenOver recovered pod = (recoveredPause st.2 pod.metadata.name).isSome := by
    rw [takenOver, recoveredPause_congr hbyPod]
  rw [createdIds_concat] at hgoesOn
  cases hpause : recoveredPause st.2 pod.metadata.name with
  | some pausePid =>
    rw [hpause, Option.isSome_some] at htaken
    rw [htaken, if_pos rfl, List.append_nil] at hgoesOn
    obtain ⟨hsame, podsDir, rootfsBase, hstate⟩ := recoverPod_takenOver host hpause
    refine ⟨hgoesOn ?_ ⟨_, hstate, fun id => ?_⟩, fun hcontra => ?_⟩
    · rw [hsame, h.used]
    · rw [if_pos rfl]
      exact containerIds_fromRecovered hbyPod hpause id
    · rw [htaken] at hcontra
      cases hcontra
  | none =>
    rw [hpause, Option.isSome_none] at htaken
    rw [htaken, if_neg Bool.false_ne_true] at hgoesOn
    have hturn : (recoverPod host st pod).1 =
        { left (createPod host pod (reserveReported pod st.1)) with
          cache := Function.update (left (createPod host pod (reserveReported pod st.1))).cache
            pod.metadata.name (some pod) } := by
      unfold recoverPod recoverSandbox
      simp only [hpause]
    rw [hturn] at hstored hgoesOn ⊢
    obtain ⟨hnodup, hfree, hgrown, state, hstate, hids⟩ :=
      createPod_stored C (s := reserveReported pod st.1) (by rw [hstore, hnone]) hstored
    rw [hruntime, h.used] at hfree hgrown
    refine ⟨hgoesOn ?_ ⟨state, hstate, fun id => ?_⟩, fun _ => ⟨hnodup, hfree⟩⟩
    · show inUse (left (createPod host pod (reserveReported pod st.1))).runtime = _
      rw [hgrown, Set.union_assoc]
      ext id
      simp
    · rw [hids, if_neg Bool.false_ne_true]

/-- When nothing else fails, the ids being free is enough. -/
theorem recoverPod_stored (C : RuntimeContract host inUse) (N : NothingElseFails host inUse)
    (h : Progress recovered inUse past st.1)
    (hbyPod : st.2 pod.metadata.name = groupByPod recovered pod.metadata.name)
    (hip : takenOver recovered pod = false → ¬ Fails (ensurePodIp pod) (reserveReported pod st.1))
    (hfree : takenOver recovered pod = false → (createIds pod).Nodup ∧
      ∀ id ∈ createIds pod, id ∉ recoveredIds recovered ∪ {id | id ∈ createdIds recovered past}) :
    ((recoverPod host st pod).1.store pod.metadata.name).isSome := by
  have htaken : takenOver recovered pod = (recoveredPause st.2 pod.metadata.name).isSome := by
    rw [takenOver, recoveredPause_congr hbyPod]
  cases hpause : recoveredPause st.2 pod.metadata.name with
  | some pausePid =>
    obtain ⟨-, podsDir, rootfsBase, hstate⟩ := recoverPod_takenOver host hpause
    rw [hstate]
    rfl
  | none =>
    rw [hpause, Option.isSome_none] at htaken
    obtain ⟨hnodup, hfree⟩ := hfree htaken
    obtain ⟨-, hruntime⟩ := reserveReported_frame pod st.1
    rw [← h.used, ← hruntime] at hfree
    have hok := wp_of_not_fails (createPod_not_fails C N (hip htaken) hnodup hfree)
      (createPod_contract C)
    have hstored : ((left (createPod host pod (reserveReported pod st.1))).store
        pod.metadata.name).isSome := by
      refine wp_left (P := fun s' => (s'.store pod.metadata.name).isSome)
        (wp_mono hok (fun _ s' h => ?_) fun _ _ h => h.elim)
      obtain ⟨⟨pausePid, podIp, hstore⟩, -⟩ := h
      rw [hstore, Function.update_self]
      rfl
    unfold recoverPod recoverSandbox
    simp only [hpause]
    exact hstored

/-! ## The loop -/

section Loop

variable (C : RuntimeContract host inUse) (hused : inUse s.runtime = recoveredIds recovered)
  (hnone : ∀ name, s.store name = none) (hnames : (past.map fun pod => pod.metadata.name).Nodup)
include C hused hnone hnames

theorem noClash_of_stored
    (h : ∀ pod ∈ past, ((recoverPods host recovered past s).1.store pod.metadata.name).isSome) :
    NoClash recovered past ∧ Progress recovered inUse past (recoverPods host recovered past s).1 := by
  induction past using List.reverseRecOn with
  | nil => exact ⟨⟨List.nodup_nil, nofun⟩, .nil hused⟩
  | append_singleton past pod ih =>
    rw [List.map_append, List.map_singleton, ← List.concat_eq_append, List.nodup_concat] at hnames
    obtain ⟨hnew, hnames⟩ := hnames
    rw [recoverPods_concat] at h ⊢
    obtain ⟨hclash, hprogress⟩ := ih hnames fun old hold => by
      have hne : old.metadata.name ≠ pod.metadata.name := fun heq =>
        hnew (List.mem_map.mpr ⟨old, hold, heq⟩)
      rw [← store_recoverPod_of_ne C hne]
      exact h old (List.mem_append_left _ hold)
    obtain ⟨hnext, hfree⟩ := hprogress.turn C (by rw [byPod_recoverPods, if_neg hnew]) hnew
      (by rw [store_recoverPods C hnew, hnone]) (h pod (by simp))
    exact ⟨noClash_concat_iff.mpr ⟨hclash, hfree⟩, hnext⟩

theorem stored_of_noClash (N : NothingElseFails host inUse)
    (hip : ∀ before pod, before ++ [pod] <+: past → takenOver recovered pod = false →
      ¬ Fails (ensurePodIp pod) (reserveReported pod (recoverPods host recovered before s).1))
    (h : NoClash recovered past) :
    Progress recovered inUse past (recoverPods host recovered past s).1 := by
  induction past using List.reverseRecOn with
  | nil => exact .nil hused
  | append_singleton past pod ih =>
    rw [List.map_append, List.map_singleton, ← List.concat_eq_append, List.nodup_concat] at hnames
    obtain ⟨hnew, hnames⟩ := hnames
    obtain ⟨hclash, hfree⟩ := noClash_concat_iff.mp h
    have hprogress := ih hnames
      (fun before pod hbefore => hip before pod (hbefore.trans (List.prefix_append ..))) hclash
    have hbyPod : (recoverPods host recovered past s).2 pod.metadata.name =
        groupByPod recovered pod.metadata.name := by rw [byPod_recoverPods, if_neg hnew]
    rw [recoverPods_concat]
    refine (hprogress.turn C hbyPod hnew (by rw [store_recoverPods C hnew, hnone]) ?_).1
    exact recoverPod_stored C N hprogress hbyPod (hip past pod List.prefix_rfl) hfree

end Loop

/-! ## What is left is deleted -/

/-- A loop that takes its ids away one after another. -/
theorem foldl_takes {σ ι : Type} {step : σ → ι → σ} (used : σ → Set String) {ids : ι → Set String}
    (hstep : ∀ s i, used (step s i) = used s \ ids i) (l : List ι) (s : σ) :
    used (l.foldl step s) = used s \ {id | ∃ i ∈ l, id ∈ ids i} := by
  induction l generalizing s with
  | nil => simp
  | cons i rest ih =>
    rw [List.foldl_cons, ih, hstep]
    ext id
    simp [and_assoc, not_or]

theorem deleteOrphan_frame (C : RuntimeContract host inUse) (N : NothingElseFails host inUse)
    (s : Reconciler ρ) (rc : RecoveredContainer) : (deleteOrphan host s rc).store = s.store ∧
      inUse (deleteOrphan host s rc).runtime = inUse s.runtime \ {rc.id} := by
  refine wp_left (P := fun s' : Reconciler ρ =>
    s'.store = s.store ∧ inUse s'.runtime = inUse s.runtime \ {rc.id}) ?_
  rw [wp_onRuntime]
  by_cases hid : rc.id ∈ inUse s.runtime
  · exact wp_mono (wp_of_not_fails (N.delete _ _ _ hid) (C.delete ..)) (fun _ r h => ⟨rfl, h⟩)
      fun _ _ h => h.elim
  · -- An id that is not there is refused, and that is all.
    rw [Set.sdiff_singleton_eq_self hid]
    refine wp_mono (C.delete ..) (fun _ r h => ⟨rfl, ?_⟩) fun _ r h => ⟨rfl, ?_⟩
    · rw [h, Set.sdiff_singleton_eq_self hid]
    · rw [Set.sdiff_singleton_eq_self hid] at h
      exact h.2.antisymm h.1

theorem store_deleteOrphans (C : RuntimeContract host inUse) (N : NothingElseFails host inUse)
    (names : List PodName) : (deleteOrphans host names st).store = st.1.store := by
  have hgroup : ∀ (s : Reconciler ρ) name,
      ((st.2 name).foldl (deleteOrphan host) s).store = s.store := fun s name =>
    Runs.foldl_keeps Reconciler.store (fun s rc => (deleteOrphan_frame C N s rc).1) _ s
  exact Runs.foldl_keeps Reconciler.store hgroup names st.1

theorem inUse_deleteOrphans (C : RuntimeContract host inUse) (N : NothingElseFails host inUse)
    (names : List PodName) : inUse (deleteOrphans host names st).runtime =
      inUse st.1.runtime \ {id | ∃ name ∈ names, ∃ rc ∈ st.2 name, rc.id = id} := by
  have hgroup : ∀ (s : Reconciler ρ) name, inUse ((st.2 name).foldl (deleteOrphan host) s).runtime =
      inUse s.runtime \ {id | ∃ rc ∈ st.2 name, rc.id = id} := by
    intro s name
    rw [foldl_takes (fun s => inUse s.runtime) fun s rc => (deleteOrphan_frame C N s rc).2]
    simp only [Set.mem_singleton_iff, eq_comm]
  exact foldl_takes (fun s => inUse s.runtime) hgroup names st.1

theorem prepare_frame (C : RuntimeContract host inUse) {cidr : String} {s₁ : Reconciler ρ}
    (h : prepare host cidr s = .ok recovered s₁) :
    s₁.store = s.store ∧ inUse s₁.runtime = recoveredIds recovered := by
  have hprepare : wp (prepare host cidr) (fun recovered s' => s'.store = s.store ∧
      inUse s'.runtime = recoveredIds recovered) (fun _ _ => True) s := by
    unfold prepare
    simp only [wp_bind, wp_onRuntime, wp_addContext]
    refine wp_of_forall (fun _ r => ?_) fun _ _ => trivial
    cases IpAllocator.fromCidr cidr with
    | error e => trivial
    | ok ipam =>
      simp only [wp_bind, wp_modify, wp_onRuntime, wp_withContext]
      exact wp_mono (C.recover r) (fun _ _ h => ⟨trivial, h⟩) fun _ _ _ => trivial
  unfold wp at hprepare
  rw [h] at hprepare
  exact hprepare

/-! ## The result -/

/-- Each listed pod has its entry, and nothing is left but the containers of their sandboxes. -/
structure Complete (inUse : ρ → Set String) (pods : List Pod) (s : Reconciler ρ) : Prop where
  stored : ∀ pod ∈ pods, (s.store pod.metadata.name).isSome
  owned : ∀ id ∈ inUse s.runtime, ∃ pod ∈ pods, ∃ state,
    s.store pod.metadata.name = some state ∧ id ∈ state.sandbox.containerIds

theorem Progress.isSome_store (h : Progress recovered inUse past s) (hpod : pod ∈ past) :
    (s.store pod.metadata.name).isSome := by
  obtain ⟨state, hstate, -⟩ := h.stored pod hpod
  rw [hstate]
  rfl

theorem mem_createdIds {pod : Pod} {id : String} (hpod : pod ∈ created recovered pods)
    (hid : id ∈ createIds pod) : id ∈ createdIds recovered pods :=
  List.mem_flatMap.mpr ⟨pod, hpod, hid⟩

theorem podName_of_mem {name : PodName} {rc : RecoveredContainer}
    (h : rc ∈ groupByPod recovered name) : rc ∈ recovered ∧ rc.podName = some name := by
  obtain ⟨hmem, hname⟩ := List.mem_filter.mp h
  exact ⟨hmem, decide_eq_true_eq.mp hname⟩

theorem podName_congr {rc other : RecoveredContainer} (h : other.id = rc.id) :
    other.podName = rc.podName := by
  unfold RecoveredContainer.podName RecoveredContainer.split
  rw [h]

theorem mem_podNames {name : PodName} {rc : RecoveredContainer} (hrc : rc ∈ recovered)
    (hname : rc.podName = some name) : name ∈ podNames recovered :=
  List.mem_dedup.mpr (List.mem_filterMap.mpr ⟨rc, hrc, hname⟩)

section Owned

variable (C : RuntimeContract host inUse) (N : NothingElseFails host inUse)
  (h : Progress recovered inUse pods st.1)
  (hbyPod : ∀ name, st.2 name =
    if name ∈ pods.map fun pod => pod.metadata.name then [] else groupByPod recovered name)
include C N h hbyPod

/-- What is left in the group of a pod that has been created anew is in use, and nobody owns it. -/
theorem Progress.group_eq_nil (hclash : NoClash recovered pods)
    (hnames : (pods.map fun pod => pod.metadata.name).Nodup)
    (hcomplete : Complete inUse pods (deleteOrphans host (podNames recovered) st))
    (hpod : pod ∈ created recovered pods) : groupByPod recovered pod.metadata.name = [] := by
  rw [List.eq_nil_iff_forall_not_mem]
  intro rc hrc
  obtain ⟨hmem, hname⟩ := podName_of_mem hrc
  obtain ⟨hlisted, htaken⟩ := List.mem_filter.mp hpod
  have hleft : rc.id ∈ inUse (deleteOrphans host (podNames recovered) st).runtime := by
    rw [inUse_deleteOrphans C N, h.used]
    refine ⟨.inl ⟨rc, hmem, rfl⟩, ?_⟩
    rintro ⟨name, -, other, hother, hid⟩
    rw [hbyPod] at hother
    split at hother
    · cases hother
    · rename_i hnot
      have hsame := (podName_of_mem hother).2.symm.trans ((podName_congr hid).trans hname)
      obtain rfl : name = pod.metadata.name := Option.some.inj hsame
      exact hnot (List.mem_map.mpr ⟨pod, hlisted, rfl⟩)
  obtain ⟨owner, howner, state, hstate, hid⟩ := hcomplete.owned _ hleft
  obtain ⟨state', hstate', hids⟩ := h.stored owner howner
  rw [store_deleteOrphans C N, hstate'] at hstate
  cases hstate
  rw [hids] at hid
  split at hid
  · rename_i howned
    obtain ⟨other, hother, hid⟩ := hid
    have hsame := (podName_of_mem hother).2.symm.trans ((podName_congr hid).trans hname)
    obtain rfl : owner = pod := List.inj_on_of_nodup_map hnames howner hlisted (Option.some.inj hsame)
    simp [howned] at htaken
  · rename_i hanew
    have howner : owner ∈ created recovered pods := List.mem_filter.mpr ⟨howner, decide_eq_true hanew⟩
    exact hclash.unused _ (mem_createdIds howner hid) ⟨rc, hmem, rfl⟩

/-- When the groups of the pods that are created anew are empty, all that is left is owned. -/
theorem Progress.complete
    (hids : ∀ rc ∈ recovered, ∃ pod container : String, rc.id = pod ++ "__" ++ container)
    (hgroups : ∀ pod ∈ created recovered pods, groupByPod recovered pod.metadata.name = []) :
    Complete inUse pods (deleteOrphans host (podNames recovered) st) := by
  have hstore : (deleteOrphans host (podNames recovered) st).store = st.1.store :=
    store_deleteOrphans C N _
  refine ⟨fun pod hpod => by rw [hstore]; exact h.isSome_store hpod, fun id hid => ?_⟩
  rw [inUse_deleteOrphans C N, h.used] at hid
  obtain ⟨hid | hid, hkept⟩ := hid
  · obtain ⟨rc, hrc, rfl⟩ := hid
    obtain ⟨before, after, hform⟩ := hids rc hrc
    have hsplit : rc.split.isSome := by
      rw [RecoveredContainer.split, hform]
      exact Text.isSome_splitOnce ..
    obtain ⟨⟨name, rest⟩, hsplit⟩ := Option.isSome_iff_exists.mp hsplit
    have hname : rc.podName = some name := by rw [RecoveredContainer.podName, hsplit]; rfl
    have hgroup : rc ∈ groupByPod recovered name := List.mem_filter.mpr ⟨hrc, decide_eq_true hname⟩
    have hlisted : name ∈ pods.map fun pod => pod.metadata.name := by
      by_contra hnot
      exact hkept ⟨name, mem_podNames hrc hname, rc, by rwa [hbyPod, if_neg hnot], rfl⟩
    obtain ⟨pod, hpod, rfl⟩ := List.mem_map.mp hlisted
    obtain ⟨state, hstate, hids'⟩ := h.stored pod hpod
    refine ⟨pod, hpod, state, hstore ▸ hstate, (hids' _).mpr ?_⟩
    split
    · exact ⟨rc, hgroup, rfl⟩
    · rename_i hanew
      rw [hgroups pod (List.mem_filter.mpr ⟨hpod, decide_eq_true hanew⟩)] at hgroup
      cases hgroup
  · obtain ⟨pod, hpod, hid⟩ := List.mem_flatMap.mp hid
    obtain ⟨hlisted, hanew⟩ := List.mem_filter.mp hpod
    obtain ⟨state, hstate, hids'⟩ := h.stored pod hlisted
    refine ⟨pod, hlisted, state, hstore ▸ hstate, (hids' id).mpr ?_⟩
    rwa [if_neg (of_decide_eq_true hanew)]

end Owned

/-- **Recovery is complete** if and only if the pods that are created anew ask for ids that nobody has, and
none of their containers has survived. -/
theorem recovery_complete_iff {cidr : String} {s₁ : Reconciler ρ} (C : RuntimeContract host inUse)
    (N : NothingElseFails host inUse) (hprepare : prepare host cidr s = .ok recovered s₁)
    (hnone : ∀ name, s.store name = none)
    (hnames : (pods.map fun pod => pod.metadata.name).Nodup)
    (hids : ∀ rc ∈ recovered, ∃ pod container : String, rc.id = pod ++ "__" ++ container)
    (hip : ∀ past pod, past ++ [pod] <+: pods → takenOver recovered pod = false →
      ¬ Fails (ensurePodIp pod) (reserveReported pod (recoverPods host recovered past s₁).1)) :
    Complete inUse pods (left (startup host cidr pods s)) ↔
      NoClash recovered pods ∧
        ∀ pod ∈ created recovered pods, groupByPod recovered pod.metadata.name = [] := by
  obtain ⟨hstore, hused⟩ := prepare_frame C hprepare
  have hnone₁ : ∀ name, s₁.store name = none := fun name => by rw [hstore, hnone]
  have hstartup : left (startup host cidr pods s) =
      deleteOrphans host (podNames recovered) (recoverPods host recovered pods s₁) := by
    show left (EStateM.bind _ _ s) = _
    unfold EStateM.bind
    rw [hprepare]
    rfl
  rw [hstartup]
  constructor
  · intro hcomplete
    obtain ⟨hclash, hprogress⟩ := noClash_of_stored C hused hnone₁ hnames fun pod hpod => by
      rw [← store_deleteOrphans C N (podNames recovered)]
      exact hcomplete.stored pod hpod
    exact ⟨hclash, fun pod hpod =>
      hprogress.group_eq_nil C N byPod_recoverPods hclash hnames hcomplete hpod⟩
  · rintro ⟨hclash, hgroups⟩
    have hprogress := stored_of_noClash C hused hnone₁ hnames N hip hclash
    exact hprogress.complete C N byPod_recoverPods hids hgroups

theorem prepare_mockHost {cidr : String} {s : Reconciler (List RecoveredContainer)}
    (h : (IpAllocator.fromCidr cidr).toOption.isSome) : prepare mockHost cidr s =
      .ok s.runtime { s with ipam := (IpAllocator.fromCidr cidr).toOption } := by
  unfold prepare
  cases hcidr : IpAllocator.fromCidr cidr with
  | error e => rw [hcidr] at h; cases h
  | ok ipam => rfl

/-- "web" has survived, and a container of a pod that is no longer there. -/
def webAndOld : List RecoveredContainer :=
  [⟨"web__pause", .running, some 7⟩, ⟨"web__app", .stopped, none⟩, ⟨"old__app", .running, some 9⟩]

theorem recovery_complete_web :
    Complete recoveredIds [podNamed "web" (some "10.244.1.2"), podNamed "db" none]
      (left (startup mockHost "10.244.1.0/24" [podNamed "web" (some "10.244.1.2"), podNamed "db" none]
        (new ["pods"] ["rootfs"] webAndOld))) := by
  refine (recovery_complete_iff mockHost_contract mockHost_nothingElseFails
    (prepare_mockHost (by decide +kernel)) (fun _ => rfl) (by decide) (fun rc hrc => ?_)
    (Runs.forall_concat_prefix_iff.mpr fun i hi hanew => ?_)).mpr ⟨⟨by decide +kernel, fun id hid hmem => ?_⟩, by decide +kernel⟩
  · simp only [webAndOld, new, List.mem_cons, List.not_mem_nil, or_false] at hrc
    obtain rfl | rfl | rfl := hrc
    exacts [⟨"web", "pause", rfl⟩, ⟨"web", "app", rfl⟩, ⟨"old", "app", rfl⟩]
  · match i, hi with
    | 0, _ =>
      rw [List.getElem_cons_zero] at hanew
      exact absurd hanew (by decide +kernel)
    | 1, _ =>
      rw [List.getElem_cons_succ, List.getElem_cons_zero]
      decide +kernel
    | _ + 2, hi =>
      simp only [List.length_cons, List.length_nil] at hi
      omega
  · have hfree : ∀ id ∈ createdIds webAndOld [podNamed "web" (some "10.244.1.2"), podNamed "db" none],
        id ∉ webAndOld.map fun rc => rc.id := by decide +kernel
    exact hfree id hid (mem_recoveredIds.mp hmem)

/-- Only the app container of "web" has survived. The pod is not created, and the container stays. -/
theorem recovery_incomplete_web : RuntimeContract mockHost recoveredIds ∧
    NothingElseFails mockHost recoveredIds ∧
    ¬ Complete recoveredIds [podNamed "web" none]
      (left (startup mockHost "10.244.1.0/24" [podNamed "web" none]
        (new ["pods"] ["rootfs"] [⟨"web__app", .running, some 9⟩]))) := by
  refine ⟨mockHost_contract, mockHost_nothingElseFails, fun h => ?_⟩
  have hstored := h.stored (podNamed "web" none) (by simp)
  exact absurd hstored (by decide +kernel)

end Reconciler

end MyK8s.Kubelet
