import MyK8s.Kubelet.Reconciler
import MyK8s.Lib.Leases

/-!
# Addresses of the pods in the store

The pods in the store hold their addresses like leases of the allocator (`Addressed`). A fresh address
is held by nobody. An address that a pod reports is taken on trust, however: when another pod has it, or
when it is not one of the slice, the leases are broken (`AddressesKept.createPod`,
`not_kept_createPod`).
-/

namespace MyK8s.Kubelet

open Fallible

/-! ## Addresses as leases -/

/-- The addresses, from the texts in the sandboxes. -/
def addrsOf (ips : PodName → Option String) (name : PodName) : Option Ipv4Addr :=
  (ips name).bind Ipv4Addr.parse

/-- Each address in the store can be read and is marked, and no two pods have the same. -/
structure Addressed (ips : PodName → Option String) (marked : Set Ipv4Addr) : Prop where
  readable : ∀ name ip, ips name = some ip → (Ipv4Addr.parse ip).isSome
  leases : Leases.Sound (addrsOf ips) marked

theorem addrsOf_update (ips : PodName → Option String) (name : PodName) (ip : Option String) :
    addrsOf (Function.update ips name ip) =
      Function.update (addrsOf ips) name (ip.bind Ipv4Addr.parse) := by
  funext n
  unfold addrsOf
  rcases eq_or_ne n name with rfl | hne
  · rw [Function.update_self, Function.update_self]
  · rw [Function.update_of_ne hne, Function.update_of_ne hne]

namespace Addressed

variable {ips : PodName → Option String} {marked marked' : Set Ipv4Addr} {name other : PodName}
  {ip : String} {addr : Ipv4Addr}

theorem nobody : Addressed (fun _ => none) marked := ⟨nofun, Leases.sound_nobody⟩

theorem mono (h : Addressed ips marked) (hle : marked ⊆ marked') : Addressed ips marked' :=
  ⟨h.readable, h.leases.mono hle⟩

theorem drop (h : Addressed ips marked) (name : PodName) :
    Addressed (Function.update ips name none) marked := by
  constructor
  · intro n ip hn
    rcases eq_or_ne n name with rfl | hne
    · rw [Function.update_self] at hn
      cases hn
    · rw [Function.update_of_ne hne] at hn
      exact h.readable n ip hn
  · rw [addrsOf_update]
    exact h.leases.drop

theorem grant (h : Addressed ips marked) (hip : Ipv4Addr.parse ip = some addr)
    (hfree : ∀ other ≠ name, addrsOf ips other ≠ some addr) (hmem : addr ∈ marked) :
    Addressed (Function.update ips name (some ip)) marked := by
  constructor
  · intro n ip' hn
    rcases eq_or_ne n name with rfl | hne
    · rw [Function.update_self] at hn
      cases hn
      rw [hip]
      rfl
    · rw [Function.update_of_ne hne] at hn
      exact h.readable n ip' hn
  · rw [addrsOf_update, Option.bind_some, hip]
    exact h.leases.grant hfree hmem

theorem release (h : Addressed ips marked) (hfree : ∀ name, addrsOf ips name ≠ some addr) :
    Addressed ips (marked \ {addr}) := ⟨h.readable, h.leases.release hfree⟩

/-- What is not marked is held by nobody. -/
theorem free (h : Addressed ips marked) (hnot : addr ∉ marked) (name : PodName) :
    addrsOf ips name ≠ some addr := h.leases.free_of_notMem hnot name

theorem not_grant (hip : Ipv4Addr.parse ip = some addr) (hheld : addrsOf ips other = some addr)
    (hne : other ≠ name) : ¬ Addressed (Function.update ips name (some ip)) marked := by
  intro h
  have hleases := h.leases
  rw [addrsOf_update, Option.bind_some, hip] at hleases
  exact Leases.not_sound_grant hheld hne hleases

theorem not_release (hheld : addrsOf ips name = some addr) : ¬ Addressed ips (marked \ {addr}) :=
  fun h => Leases.not_sound_release hheld h.leases

end Addressed

namespace Reconciler

variable {ρ : Type} {host : Host ρ} {s s' : Reconciler ρ} {pod : Pod} {name : PodName} {ip : String}
  {addr : Ipv4Addr}

def podIps (s : Reconciler ρ) (name : PodName) : Option String :=
  (s.store name).bind fun state => state.sandbox.podIp

def marked (s : Reconciler ρ) : Set Ipv4Addr := {addr | ∃ ipam, s.ipam = some ipam ∧ addr ∈ ipam.marked}

def slice (s : Reconciler ρ) : Option (Octet × Octet × Octet) := s.ipam.map IpAllocator.slice

/-- The address is one that this node may hand out. -/
def InRange (s : Reconciler ρ) (addr : Ipv4Addr) : Prop := s.slice = some addr.net ∧ IsHost addr.host

instance (s : Reconciler ρ) (addr : Ipv4Addr) : Decidable (s.InRange addr) :=
  inferInstanceAs (Decidable (s.slice = some addr.net ∧ IsHost addr.host))

/-- **Unique addresses**: those of the pods in the store are marked as in use, and no two are the
same. -/
def AddressesKept (s : Reconciler ρ) : Prop := Addressed s.podIps s.marked

/-- What a pod in the store has is an address of the slice. -/
theorem AddressesKept.inRange (h : s.AddressesKept) (hheld : addrsOf s.podIps name = some addr) :
    s.InRange addr := by
  obtain ⟨ipam, hipam, hmem⟩ := h.leases.mem hheld
  obtain ⟨hnet, hhost⟩ := ipam.inRange_of_marked hmem
  exact ⟨by rw [slice, hipam, Option.map_some, hnet], hhost⟩

theorem podIps_insert (state : PodState) (s : Reconciler ρ) : (insert state s).podIps =
    Function.update s.podIps state.pod.metadata.name state.sandbox.podIp := by
  funext n
  unfold podIps insert
  rcases eq_or_ne n state.pod.metadata.name with rfl | hne
  · simp
  · simp [Function.update_of_ne hne]

/-! ## What the calls do to the addresses -/

/-- The store and the slice are as before. -/
structure SameStore (s s' : Reconciler ρ) : Prop where
  store : s'.store = s.store
  slice : s'.slice = s.slice

theorem SameStore.refl (s : Reconciler ρ) : SameStore s s := ⟨rfl, rfl⟩

theorem SameStore.trans {s'' : Reconciler ρ} (h : SameStore s s') (h' : SameStore s' s'') :
    SameStore s s'' := ⟨h'.store.trans h.store, h'.slice.trans h.slice⟩

theorem SameStore.podIps (h : SameStore s s') : s'.podIps = s.podIps := by
  unfold Reconciler.podIps
  rw [h.store]

/-- What `reserve` does, for an address that a pod reports, and `allocate`, for one that reports none. -/
inductive Granted (s : Reconciler ρ) (pod : Pod) (addr : Ipv4Addr) : Set Ipv4Addr → Prop
  | reported (h : reportedAddr pod = some addr) (hin : s.InRange addr) :
      Granted s pod addr (Insert.insert addr s.marked)
  | foreign (h : reportedAddr pod = some addr) (hout : ¬ s.InRange addr) : Granted s pod addr s.marked
  | fresh (h : reportedAddr pod = none) (hnot : addr ∉ s.marked) :
      Granted s pod addr (Insert.insert addr s.marked)

theorem marked_some {ipam : IpAllocator} (h : s.ipam = some ipam) : s.marked = ipam.marked := by
  ext addr
  constructor
  · rintro ⟨ipam', hipam', hmem⟩
    rw [h] at hipam'
    cases hipam'
    exact hmem
  · exact fun hmem => ⟨ipam, h, hmem⟩

theorem inRange_some {ipam : IpAllocator} (h : s.ipam = some ipam) :
    s.InRange addr ↔ ipam.InRange addr := by
  unfold InRange IpAllocator.InRange slice
  rw [h, Option.map_some, Option.some_inj, eq_comm]

theorem granted_reserve {ipam : IpAllocator} (h : s.ipam = some ipam)
    (hreported : reportedAddr pod = some addr) : Granted s pod addr (ipam.reserve addr).2.marked := by
  rw [ipam.marked_reserve, ← marked_some h]
  split
  · rename_i hin
    exact .reported hreported ((inRange_some h).mpr hin)
  · rename_i hout
    exact .foreign hreported (mt (inRange_some h).mp hout)

theorem ensurePodIp_spec : wp (ensurePodIp pod)
    (fun ip s' => SameStore s s' ∧ ∃ addr, Ipv4Addr.parse ip = some addr ∧ Granted s pod addr s'.marked)
    (fun _ s' => SameStore s s' ∧ s'.marked = s.marked) s := by
  unfold ensurePodIp
  simp only [wp_bind, wp_get]
  cases hipam : s.ipam with
  | none => exact ⟨.refl s, rfl⟩
  | some ipam =>
    dsimp only
    split
    · rename_i ip addr hip haddr
      refine ⟨⟨rfl, ?_⟩, addr, ?_, ?_⟩
      · show (some (ipam.reserve addr).2).map _ = _
        rw [Option.map_some, ipam.slice_reserve, slice, hipam, Option.map_some]
      · rwa [reportedAddr, hip, Option.bind_some] at haddr
      · rw [marked_some (s := { s with ipam := some (ipam.reserve addr).2 }) rfl]
        exact granted_reserve hipam haddr
    · rename_i hnot
      have hnone : reportedAddr pod = none := by
        cases hip : reportedIp pod with
        | none => rw [reportedAddr, hip, Option.bind_none]
        | some ip => exact Option.eq_none_iff_forall_ne_some.mpr fun addr => hnot ip addr hip
      have hstore : SameStore s { s with ipam := some ipam.allocate.2 } := by
        refine ⟨rfl, ?_⟩
        show (some ipam.allocate.2).map _ = _
        rw [Option.map_some, ipam.slice_allocate, slice, hipam, Option.map_some]
      have hmarked : ∀ s' : Reconciler ρ, s' = { s with ipam := some ipam.allocate.2 } →
          s'.marked = ipam.allocate.2.marked := fun s' h => marked_some (by rw [h])
      obtain ⟨addr, hok, hin, hfresh, hm⟩ | ⟨e, herr, hm⟩ := ipam.allocate_cases
      · simp only [wp_bind, wp_set, hok, wp_pure]
        refine ⟨hstore, addr, Ipv4Addr.parse_toString addr, ?_⟩
        rw [hmarked _ rfl, hm, ← marked_some hipam]
        exact .fresh hnone (by rwa [marked_some hipam])
      · simp only [wp_bind, wp_set, herr, wp_throw]
        exact ⟨hstore, by rw [hmarked _ rfl, hm, ← marked_some hipam]⟩

/-- What `createSandbox` and a failed `create_pod` leave of the allocator. -/
def Drawn (s : Reconciler ρ) (pod : Pod) (m : Set Ipv4Addr) : Prop :=
  m = s.marked ∨ ∃ addr, Granted s pod addr m

theorem createSandbox_spec : wp (createSandbox host pod)
    (fun made s' => SameStore s s' ∧ made.2.podIp = some made.1 ∧
      ∃ addr, Ipv4Addr.parse made.1 = some addr ∧ Granted s pod addr s'.marked)
    (fun _ s' => SameStore s s' ∧ Drawn s pod s'.marked) s := by
  unfold createSandbox
  simp only [wp_bind, wp_get, wp_onRuntime, wp_addContext, wp_pure]
  refine wp_mono ensurePodIp_spec (fun ip s' h => ?_) fun _ s' h => ⟨h.1, .inl h.2⟩
  obtain ⟨hstore, addr, hparse, hgranted⟩ := h
  refine wp_mono PodSandbox.create_eq (fun sandbox r hsandbox => ?_) fun _ r _ => ?_
  · obtain ⟨pid, rfl⟩ := hsandbox
    exact ⟨⟨hstore.store, hstore.slice⟩, rfl, addr, hparse, hgranted⟩
  · exact ⟨⟨hstore.store, hstore.slice⟩, .inr ⟨addr, hgranted⟩⟩

theorem slice_releaseIp : (releaseIp ip s).slice = s.slice := by
  unfold releaseIp
  split
  · rename_i ipam addr hipam haddr
    show (some (ipam.release addr)).map _ = _
    rw [Option.map_some, ipam.slice_release, slice, hipam, Option.map_some]
  · rfl

theorem marked_releaseIp (hip : Ipv4Addr.parse ip = some addr) :
    (releaseIp ip s).marked = s.marked \ {addr} := by
  unfold releaseIp
  rw [hip]
  cases hipam : s.ipam with
  | none =>
    have hnone : s.marked = ∅ := by
      ext addr
      simp [marked, hipam]
    rw [hnone, Set.empty_sdiff]
  | some ipam =>
    rw [marked_some (s := { s with ipam := some (ipam.release addr) }) rfl, ipam.marked_release,
      marked_some hipam]

theorem podIps_releaseIp : (releaseIp ip s).podIps = s.podIps := by
  unfold podIps
  rw [store_releaseIp]

/-- The loop over the containers leaves the address alone, or gives it back when it fails. -/
theorem addContainers_spec {sandbox : PodSandbox} {containers : List Container}
    (hip : Ipv4Addr.parse ip = some addr) :
    wp (addContainers host ip sandbox containers)
      (fun sandbox' s' => SameStore s s' ∧ s'.marked = s.marked ∧ sandbox'.podIp = sandbox.podIp)
      (fun _ s' => SameStore s s' ∧ s'.marked = s.marked \ {addr}) s := by
  induction containers generalizing sandbox s with
  | nil => exact ⟨.refl s, rfl, rfl⟩
  | cons container rest ih =>
    unfold addContainers
    simp only [wp_bind, wp_attempt, wp_onRuntime]
    refine wp_mono PodSandbox.addContainer_eq (fun sandbox' r hsandbox => ?_) fun e r _ => ?_
    · subst hsandbox
      exact wp_mono ih (fun _ s' h => ⟨⟨h.1.store, h.1.slice⟩, h.2⟩)
        fun _ s' h => ⟨⟨h.1.store, h.1.slice⟩, h.2⟩
    · simp only [wp_modify, wp_throw]
      have hreleased : ∀ r' : ρ, SameStore s (releaseIp ip { s with runtime := r' }) ∧
          (releaseIp ip { s with runtime := r' }).marked = s.marked \ {addr} :=
        fun r' => ⟨⟨store_releaseIp .., slice_releaseIp⟩, marked_releaseIp hip⟩
      exact wp_of_forall (fun _ r' => hreleased r') fun _ r' => hreleased r'

theorem createPod_spec : wp (createPod host pod)
    (fun _ s' => ¬ Fails (createSandbox host pod) s ∧ s'.slice = s.slice ∧
      ∃ ip addr, Ipv4Addr.parse ip = some addr ∧ Granted s pod addr s'.marked ∧
        s'.podIps = Function.update s.podIps pod.metadata.name (some ip))
    (fun _ s' => SameStore s s' ∧
      ((Fails (createSandbox host pod) s ∧ Drawn s pod s'.marked) ∨
        (¬ Fails (createSandbox host pod) s ∧
          ∃ addr m, Granted s pod addr m ∧ s'.marked = m \ {addr}))) s := by
  unfold createPod
  simp only [wp_bind]
  refine wp_mono (wp_and createSandbox_spec wp_fails) (fun made s₁ h => ?_) fun _ s' h => ?_
  · obtain ⟨⟨hstore, hpodIp, addr, hparse, hgranted⟩, hmade⟩ := h
    simp only [wp_modify]
    refine wp_mono (addContainers_spec hparse) (fun sandbox s₂ h => ?_) fun _ s₂ h => ?_
    · obtain ⟨hstore', hmarked, hsandbox⟩ := h
      refine ⟨hmade, hstore'.slice.trans hstore.slice, made.1, addr, hparse, ?_, ?_⟩
      · show Granted s pod addr s₂.marked
        rwa [hmarked]
      · rw [podIps_insert, (hstore.trans hstore').podIps, hsandbox, hpodIp]
    · exact ⟨hstore.trans h.1, .inr ⟨hmade, addr, s₁.marked, hgranted, h.2⟩⟩
  · exact ⟨h.1.1, .inl ⟨h.2, h.1.2⟩⟩

/-! ## When a pod that comes keeps them -/

/-- The address that the pod reports, if it does, is one of the slice and no pod in the store has it. -/
def ReportFree (s : Reconciler ρ) (pod : Pod) : Prop :=
  ∀ addr, reportedAddr pod = some addr →
    s.InRange addr ∧ ∀ name, addrsOf s.podIps name ≠ some addr

theorem Granted.subset {m : Set Ipv4Addr} (h : Granted s pod addr m) : s.marked ⊆ m := by
  cases h with
  | reported | fresh => exact Set.subset_insert ..
  | foreign => exact subset_rfl

theorem Drawn.subset {m : Set Ipv4Addr} (h : Drawn s pod m) : s.marked ⊆ m := by
  obtain rfl | ⟨addr, h⟩ := h
  · exact subset_rfl
  · exact h.subset

/-- What is granted is marked, and nobody has it. -/
theorem AddressesKept.granted {m : Set Ipv4Addr} (h : s.AddressesKept) (hfree : s.ReportFree pod)
    (hgranted : Granted s pod addr m) : addr ∈ m ∧ ∀ name, addrsOf s.podIps name ≠ some addr := by
  cases hgranted with
  | reported hrep hin => exact ⟨Set.mem_insert .., (hfree addr hrep).2⟩
  | foreign hrep hout => exact absurd (hfree addr hrep).1 hout
  | fresh _ hnot => exact ⟨Set.mem_insert .., h.free hnot⟩

theorem AddressesKept.createPod (host : Host ρ) (pod : Pod) (h : s.AddressesKept)
    (hok : s.ReportFree pod ∨ Fails (createSandbox host pod) s) :
    (left (createPod host pod s)).AddressesKept := by
  refine wp_left (wp_mono createPod_spec (fun _ s' hs' => ?_) fun _ s' hs' => ?_)
  · obtain ⟨hmade, -, ip, addr, hparse, hgranted, hips⟩ := hs'
    obtain ⟨hmem, hfree⟩ := h.granted (hok.resolve_right hmade) hgranted
    show Addressed s'.podIps s'.marked
    rw [hips]
    exact (h.mono hgranted.subset).grant hparse (fun other _ => hfree other) hmem
  · obtain ⟨hstore, ⟨-, hdrawn⟩ | ⟨hmade, addr, m, hgranted, hm⟩⟩ := hs'
    · show Addressed s'.podIps s'.marked
      rw [hstore.podIps]
      exact h.mono hdrawn.subset
    · show Addressed s'.podIps s'.marked
      rw [hstore.podIps, hm]
      exact (h.mono hgranted.subset).release (h.granted (hok.resolve_right hmade) hgranted).2

/-- When another pod has the address that is reported, and the sandbox is made, they are lost. If a
container fails, the address is given back while the other pod has it. -/
theorem not_kept_createPod {other : PodName} (hreported : reportedAddr pod = some addr)
    (hheld : addrsOf s.podIps other = some addr) (hne : other ≠ pod.metadata.name)
    (hmade : ¬ Fails (createSandbox host pod) s) :
    ¬ (left (createPod host pod s)).AddressesKept := by
  have hsame : ∀ {addr' m}, Granted s pod addr' m → addr' = addr := by
    intro addr' m hgranted
    cases hgranted with
    | reported h | foreign h => exact Option.some.inj (h.symm.trans hreported)
    | fresh h => cases hreported.symm.trans h
  refine wp_left (P := fun s' : Reconciler ρ => ¬ s'.AddressesKept)
    (wp_mono createPod_spec (fun _ s' hs' hkept => ?_) fun _ s' hs' hkept => ?_)
  · obtain ⟨-, -, ip, addr', hparse, hgranted, hips⟩ := hs'
    obtain rfl := hsame hgranted
    unfold AddressesKept at hkept
    rw [hips] at hkept
    exact Addressed.not_grant hparse hheld hne hkept
  · obtain ⟨hstore, ⟨hfails, -⟩ | ⟨-, addr', m, hgranted, hm⟩⟩ := hs'
    · exact hmade hfails
    · obtain rfl := hsame hgranted
      unfold AddressesKept at hkept
      rw [hm] at hkept
      rw [← hstore.podIps] at hheld
      exact Addressed.not_release hheld hkept

/-! ## A node without pods -/

/-- The kubelet of a node whose slice is 10.244.1.0/24, before its first pod. -/
def bareNode : Reconciler (List RecoveredContainer) :=
  { new ["pods"] ["rootfs"] [] with ipam := (IpAllocator.fromCidr "10.244.1.0/24").toOption }

def podNamed (name : PodName) (podIP : Option String) : Pod where
  apiVersion := "v1"
  kind := "Pod"
  metadata :=
    { name := name, uid := none, resourceVersion := none, generation := some 1,
      creationTimestamp := none, labels := ∅, ownerReferences := [] }
  spec := { containers := [⟨"app", "busybox", ["sleep", "1"]⟩], nodeName := some "a" }
  status := some ⟨.running, [], none, podIP⟩

theorem bareNode_kept : bareNode.AddressesKept := by
  show Addressed bareNode.podIps bareNode.marked
  have hnobody : bareNode.podIps = fun _ => none := rfl
  rw [hnobody]
  exact .nobody

end Reconciler

end MyK8s.Kubelet
