import MyK8s.Kubelet.Addresses
import MyK8s.Kubelet.Startup
import MyK8s.Lib.Runs

/-!
# Addresses at startup

The loop over the listed pods reserves the address that a pod reports at the turn of this pod, and hands
out fresh ones at the turns of others. So the order of the list decides whether an address is given to
two pods (`recovery_addresses_iff`).
-/

namespace MyK8s.Kubelet.Reconciler

open Fallible

variable {ρ : Type} {host : Host ρ} {s s' : Reconciler ρ} {pod : Pod} {byPod : ByPod}

theorem reserveReported_spec (s : Reconciler ρ) (pod : Pod) : SameStore s (reserveReported pod s) ∧
    s.marked ⊆ (reserveReported pod s).marked ∧
    ∀ addr, reportedAddr pod = some addr → s.InRange addr → addr ∈ (reserveReported pod s).marked := by
  unfold reserveReported
  split
  · rename_i ipam addr hipam haddr
    have hmarked : Reconciler.marked { s with ipam := some (ipam.reserve addr).2 } =
        (ipam.reserve addr).2.marked := marked_some rfl
    have hgranted := granted_reserve hipam haddr
    refine ⟨⟨rfl, ?_⟩, ?_, fun addr' haddr' hin => ?_⟩
    · show (some (ipam.reserve addr).2).map _ = _
      rw [Option.map_some, ipam.slice_reserve, slice, hipam, Option.map_some]
    · rw [hmarked]
      exact hgranted.subset
    · cases haddr.symm.trans haddr'
      rw [hmarked, ipam.marked_reserve, if_pos ((inRange_some hipam).mp hin)]
      exact Set.mem_insert ..
  · rename_i hnot
    refine ⟨.refl s, subset_rfl, fun addr haddr hin => ?_⟩
    obtain ⟨ipam, hipam, -⟩ := Option.map_eq_some_iff.mp hin.1
    exact absurd haddr (hnot ipam addr hipam)

theorem AddressesKept.reserveReported (h : s.AddressesKept) (pod : Pod) :
    (reserveReported pod s).AddressesKept := by
  obtain ⟨hstore, hsubset, -⟩ := reserveReported_spec s pod
  show Addressed _ _
  rw [hstore.podIps]
  exact h.mono hsubset

/-- What a turn of the loop leaves alone. -/
theorem recoverPod_frame (host : Host ρ) (st : Reconciler ρ × ByPod) (pod : Pod) :
    (recoverPod host st pod).1.slice = st.1.slice ∧
      ∀ name ≠ pod.metadata.name, (recoverPod host st pod).1.podIps name = st.1.podIps name := by
  obtain ⟨hstore, -, -⟩ := reserveReported_spec st.1 pod
  show (recoverSandbox host st.2 pod (Reconciler.reserveReported pod st.1)).slice = _ ∧
    ∀ name ≠ pod.metadata.name,
      (recoverSandbox host st.2 pod (Reconciler.reserveReported pod st.1)).podIps name = _
  unfold recoverSandbox
  dsimp only
  cases recoveredPause st.2 pod.metadata.name with
  | some pausePid =>
    refine ⟨hstore.slice, fun name hne => ?_⟩
    rw [podIps_insert, Function.update_of_ne hne, hstore.podIps]
  | none =>
    have hframe : wp (createPod host pod)
        (fun _ s' => s'.slice = st.1.slice ∧
          ∀ name ≠ pod.metadata.name, s'.podIps name = st.1.podIps name)
        (fun _ s' => s'.slice = st.1.slice ∧
          ∀ name ≠ pod.metadata.name, s'.podIps name = st.1.podIps name)
        (Reconciler.reserveReported pod st.1) := by
      refine wp_mono createPod_spec (fun _ s' hs' => ?_) fun _ s' hs' => ?_
      · obtain ⟨-, hslice, ip, addr, -, -, hips⟩ := hs'
        refine ⟨hslice.trans hstore.slice, fun name hne => ?_⟩
        rw [hips, Function.update_of_ne hne, hstore.podIps]
      · have hsame := hstore.trans hs'.1
        exact ⟨hsame.slice, fun name _ => by rw [hsame.podIps]⟩
    exact wp_left hframe

theorem recoverPods_frame (host : Host ρ) (recovered : List RecoveredContainer) (past : List Pod)
    (s : Reconciler ρ) :
    (recoverPods host recovered past s).1.slice = s.slice ∧
      ∀ name, name ∉ past.map (fun pod => pod.metadata.name) →
        (recoverPods host recovered past s).1.podIps name = s.podIps name := by
  induction past using List.reverseRecOn with
  | nil => exact ⟨rfl, fun _ _ => rfl⟩
  | append_singleton past pod ih =>
    obtain ⟨hslice, hips⟩ := recoverPod_frame host (recoverPods host recovered past s) pod
    rw [recoverPods_concat]
    refine ⟨hslice.trans ih.1, fun name hname => ?_⟩
    rw [List.map_append, List.mem_append, List.map_singleton, List.mem_singleton, not_or] at hname
    exact (hips name hname.2).trans (ih.2 name hname.1)

/-- **A turn of startup** keeps the addresses, unless the pod reports the address of one that the loop
has put into the store before it: then they are kept only if the pod is not taken over, and its
sandbox cannot be made either. -/
theorem kept_recoverPod_iff (h : s.AddressesKept) (hnew : s.podIps pod.metadata.name = none)
    (hreported : ∀ ip, reportedIp pod = some ip → ∃ addr, Ipv4Addr.parse ip = some addr ∧ s.InRange addr) :
    (recoverPod host (s, byPod) pod).1.AddressesKept ↔
      ∀ addr other, reportedAddr pod = some addr → addrsOf s.podIps other = some addr →
        recoveredPause byPod pod.metadata.name = none ∧
          Fails (createSandbox host pod) (reserveReported pod s) := by
  obtain ⟨hstore, -, hmem⟩ := reserveReported_spec s pod
  have hkept := h.reserveReported pod
  have hother : ∀ {addr other}, addrsOf s.podIps other = some addr → other ≠ pod.metadata.name := by
    rintro addr other hheld rfl
    rw [addrsOf, hnew] at hheld
    cases hheld
  show (recoverSandbox host byPod pod (Reconciler.reserveReported pod s)).AddressesKept ↔ _
  unfold recoverSandbox
  dsimp only
  cases hpause : recoveredPause byPod pod.metadata.name with
  | some pausePid =>
    simp only [reduceCtorEq, false_and, imp_false]
    show Addressed (Reconciler.podIps (insert _ _)) (Reconciler.reserveReported pod s).marked ↔ _
    rw [podIps_insert, hstore.podIps]
    rw [AddressesKept, hstore.podIps] at hkept
    cases hip : reportedIp pod with
    | none =>
      refine iff_of_true (hkept.drop _) fun addr other haddr => ?_
      rw [reportedAddr, hip] at haddr
      cases haddr
    | some ip =>
      obtain ⟨addr, hparse, hin⟩ := hreported ip hip
      have haddr : reportedAddr pod = some addr := by rw [reportedAddr, hip, Option.bind_some, hparse]
      constructor
      · intro hafter addr' other haddr' hheld
        cases haddr.symm.trans haddr'
        exact Addressed.not_grant hparse hheld (hother hheld) hafter
      · exact fun hfree => hkept.grant hparse (fun other _ => hfree addr other haddr) (hmem addr haddr hin)
  | none =>
    simp only [true_and]
    by_cases hfails : Fails (createSandbox host pod) (Reconciler.reserveReported pod s)
    · exact iff_of_true (hkept.createPod host pod (.inr hfails)) fun _ _ _ _ => hfails
    · constructor
      · intro hafter addr other haddr hheld
        rw [← hstore.podIps] at hheld
        exact absurd hafter (not_kept_createPod haddr hheld
          (hother (by rwa [hstore.podIps] at hheld)) hfails)
      · refine fun hfree => hkept.createPod host pod (.inl fun addr haddr => ?_)
        obtain ⟨ip, hip, hparse⟩ := Option.bind_eq_some_iff.mp haddr
        obtain ⟨addr', hparse', hin⟩ := hreported ip hip
        cases hparse.symm.trans hparse'
        refine ⟨⟨hstore.slice.trans hin.1, hin.2⟩, fun other hheld => ?_⟩
        rw [hstore.podIps] at hheld
        exact hfails (hfree addr other haddr hheld)

/-- **Startup and addresses.** The loop over the listed pods, which report addresses of the slice if
they report any, keeps the addresses if and only if no pod reports one that an earlier turn has given
to another pod, or such a pod is not taken over and its sandbox cannot be made. -/
theorem recovery_addresses_iff (host : Host ρ) (recovered : List RecoveredContainer) (pods : List Pod)
    (s : Reconciler ρ) (hstore : ∀ name, s.store name = none)
    (hnames : (pods.map fun pod => pod.metadata.name).Nodup)
    (hreported : ∀ pod ∈ pods, ∀ ip, reportedIp pod = some ip →
      ∃ addr, Ipv4Addr.parse ip = some addr ∧ s.InRange addr) :
    (∀ past, past <+: pods → (recoverPods host recovered past s).1.AddressesKept) ↔
      ∀ past pod, past ++ [pod] <+: pods → ∀ addr other, reportedAddr pod = some addr →
        addrsOf (recoverPods host recovered past s).1.podIps other = some addr →
          recoveredPause (recoverPods host recovered past s).2 pod.metadata.name = none ∧
            Fails (createSandbox host pod)
              (reserveReported pod (recoverPods host recovered past s).1) := by
  have hnobody : s.podIps = fun _ => none := by
    funext name
    rw [podIps, hstore, Option.bind_none]
  refine Runs.prefix_iff ?_ fun past pod hp h => ?_
  · show Addressed s.podIps s.marked
    rw [hnobody]
    exact .nobody
  · obtain ⟨hslice, hips⟩ := recoverPods_frame host recovered past s
    have hnodup := (hnames.sublist (hp.sublist.map fun pod => pod.metadata.name))
    rw [List.map_append, List.map_singleton, ← List.concat_eq_append, List.nodup_concat] at hnodup
    rw [recoverPods_concat]
    refine kept_recoverPod_iff (s := (recoverPods host recovered past s).1) h ?_ fun ip hip => ?_
    · rw [hips _ hnodup.1, hnobody]
    · obtain ⟨addr, hparse, hin⟩ := hreported pod (hp.subset (by simp)) ip hip
      exact ⟨addr, hparse, hslice.trans hin.1, hin.2⟩

/-- The pause container of "web" has survived. -/
def webSurvives : List RecoveredContainer := [⟨"web__pause", .running, some 7⟩]

theorem recovery_addresses_web :
    (recoverPods mockHost webSurvives [podNamed "web" (some "10.244.1.2"), podNamed "db" none]
      bareNode).1.AddressesKept := by
  refine (recovery_addresses_iff mockHost webSurvives
    [podNamed "web" (some "10.244.1.2"), podNamed "db" none] bareNode (fun _ => rfl) (by decide)
    fun pod hpod ip hip => ?_).mpr ?_ _ List.prefix_rfl
  · simp only [List.mem_cons, List.not_mem_nil, or_false] at hpod
    obtain rfl | rfl := hpod
    · cases hip
      exact ⟨⟨(10, 244, 1), 2⟩, by decide +kernel, by decide +kernel⟩
    · cases hip
  · intro past pod hp addr other haddr hheld
    match past, hp with
    | [], _ => cases hheld
    | [first], hp =>
      obtain ⟨-, rfl⟩ : first = _ ∧ pod = _ := by simpa [List.cons_prefix_cons] using hp
      cases haddr
    | _ :: _ :: _, hp =>
      have hle := hp.length_le
      simp only [List.length_append, List.length_cons, List.length_nil] at hle
      omega

/-- "db" is given the address under which "web" still runs. -/
theorem recovery_gives_twice : ¬ (recoverPods mockHost webSurvives
    [podNamed "db" none, podNamed "web" (some "10.244.1.2")] bareNode).1.AddressesKept := by
  intro h
  have hdb : addrsOf (recoverPods mockHost webSurvives
      [podNamed "db" none, podNamed "web" (some "10.244.1.2")] bareNode).1.podIps "db" =
      some ⟨(10, 244, 1), 2⟩ := by decide +kernel
  have hweb : addrsOf (recoverPods mockHost webSurvives
      [podNamed "db" none, podNamed "web" (some "10.244.1.2")] bareNode).1.podIps "web" =
      some ⟨(10, 244, 1), 2⟩ := by decide +kernel
  exact absurd (h.leases.unique hdb hweb) (by decide)

end MyK8s.Kubelet.Reconciler
