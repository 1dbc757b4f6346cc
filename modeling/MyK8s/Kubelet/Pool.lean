import MyK8s.Kubelet.Ipam

/-!
# The pool of a slice

Any calls of an allocator, one after another. The addresses that its callers hold (`Pool.outstanding`)
are those that it marks, and the cursor leaves none behind: a host below it is in use or waits to be used
again (`Passed`). So `allocate` fails exactly when all the hosts of the slice are held.
-/

namespace MyK8s.Kubelet

namespace IpAllocator

variable (a : IpAllocator)

/-- `.2` to `.254`. -/
def hosts : Finset Ipv4Addr :=
  (Finset.univ.filter fun host : Octet => 2 ≤ (host : ℕ) ∧ (host : ℕ) ≤ 254).image a.makeIp

theorem makeIp_injective : Function.Injective a.makeIp :=
  fun _ _ h => congrArg Ipv4Addr.host h

theorem card_hosts : a.hosts.card = 253 := by
  rw [hosts, Finset.card_image_of_injective _ a.makeIp_injective]
  decide +kernel

theorem isHost_iff {host : Octet} : IsHost host ↔ 2 ≤ (host : ℕ) ∧ (host : ℕ) ≤ 254 := by
  unfold IsHost
  simp only [ne_eq, Fin.ext_iff, Fin.isValue]
  show (¬ (host : ℕ) = 0 ∧ ¬ (host : ℕ) = 1 ∧ ¬ (host : ℕ) = 255) ↔ _
  omega

theorem mem_hosts {ip : Ipv4Addr} : ip ∈ a.hosts ↔ a.InRange ip := by
  obtain ⟨net, host⟩ := ip
  simp only [hosts, InRange, makeIp, isHost_iff, Finset.mem_image, Finset.mem_filter, Finset.mem_univ,
    true_and, Ipv4Addr.mk.injEq]
  constructor
  · rintro ⟨h, hh, rfl, rfl⟩
    exact ⟨rfl, hh⟩
  · rintro ⟨rfl, hh⟩
    exact ⟨host, hh, rfl, rfl⟩

/-! ## The cursor -/

/-- No host below the cursor is lost. -/
def Passed : Prop :=
  ∀ host : Octet, firstHost ≤ (host : ℕ) → (host : ℕ) < a.next → host ∈ a.allocated ∨ host ∈ a.released

variable {a}

theorem passed_claim (h : a.Passed) {host : Octet} (hhost : IsHost host) :
    (a.claim host hhost).Passed := by
  intro other hle hlt
  simp only [claim, Finset.mem_insert, Finset.mem_erase]
  rcases eq_or_ne other host with rfl | hne
  · exact .inl (.inl rfl)
  · obtain hmem | hmem := h other hle hlt
    · exact .inl (.inr hmem)
    · exact .inr ⟨hne, hmem⟩

theorem passed_giveUp (h : a.Passed) {host : Octet} (hhost : IsHost host) :
    (a.giveUp host hhost).Passed := by
  intro other hle hlt
  simp only [giveUp, Finset.mem_insert, Finset.mem_erase]
  rcases eq_or_ne other host with rfl | hne
  · exact .inr (.inl rfl)
  · obtain hmem | hmem := h other hle hlt
    · exact .inl ⟨hne, hmem⟩
    · exact .inr (.inr hmem)

theorem passed_reserve (h : a.Passed) (ip : Ipv4Addr) : (a.reserve ip).2.Passed := by
  unfold reserve
  split
  · exact h
  · rename_i host hok
    exact passed_claim h (a.isHost_of_hostInRange hok)

theorem passed_release (h : a.Passed) (ip : Ipv4Addr) : (a.release ip).Passed := by
  unfold release
  split
  · exact h
  · rename_i host hok
    split
    · exact passed_giveUp h (a.isHost_of_hostInRange hok)
    · exact h

/-- What the cursor moves over is in use, up to the host that is found. -/
theorem scan_passed (allocated : Finset Octet) (left next : ℕ) {host : Octet} (hle : next ≤ (host : ℕ))
    (hlt : (host : ℕ) < (scan allocated left next).2) :
    host ∈ allocated ∨ (scan allocated left next).1 = some host := by
  induction left generalizing next with
  | zero => exact absurd hlt (by show ¬ (host : ℕ) < next; omega)
  | succ left ih =>
    unfold scan at hlt ⊢
    split at hlt
    · rename_i hnext
      rw [dif_pos hnext]
      dsimp only at hlt ⊢
      split at hlt
      · rename_i hused
        rw [if_pos hused]
        rcases Nat.eq_or_lt_of_le hle with heq | hgt
        · have hhost : (⟨next, Nat.lt_succ_of_lt hnext⟩ : Octet) = host := Fin.ext heq
          exact .inl (hhost ▸ hused)
        · exact ih (next + 1) hgt hlt
      · rename_i hfree
        rw [if_neg hfree]
        have heq : next = (host : ℕ) := by
          have : (host : ℕ) < next + 1 := hlt
          omega
        exact .inr (congrArg some (Fin.ext heq))
    · exact absurd hlt (by show ¬ (host : ℕ) < next; omega)

/-- A scan that may look at all the hosts left and finds none has come to the end. -/
theorem scan_end {allocated : Finset Octet} {left next : ℕ} (hleft : broadcastHost ≤ next + left)
    (h : (scan allocated left next).1 = none) : broadcastHost ≤ (scan allocated left next).2 := by
  induction left generalizing next with
  | zero => exact hleft
  | succ left ih =>
    unfold scan at h ⊢
    split at h
    · rename_i hnext
      rw [dif_pos hnext]
      dsimp only at h ⊢
      split at h
      · rename_i hused
        rw [if_pos hused]
        exact ih (by omega) h
      · cases h
    · rename_i hnext
      rw [dif_neg hnext]
      exact Nat.le_of_not_lt hnext

variable (a) in
/-- The scan of `allocate`. -/
def found : Option Octet × ℕ := scan a.allocated (broadcastHost - a.next) a.next

theorem passed_moved (h : a.Passed) {host : Octet}
    (hlo : firstHost ≤ (host : ℕ)) (hlt : (host : ℕ) < a.found.2) :
    (host ∈ a.allocated ∨ host ∈ a.released) ∨ a.found.1 = some host := by
  rcases Nat.lt_or_ge (host : ℕ) a.next with hbelow | habove
  · exact .inl (h host hlo hbelow)
  · obtain hused | hfound := scan_passed a.allocated (broadcastHost - a.next) a.next habove hlt
    · exact .inl (.inl hused)
    · exact .inr hfound

variable (a) in
theorem reserve_eq_ok_iff (ip : Ipv4Addr) : (a.reserve ip).1 = .ok () ↔ a.InRange ip := by
  have hiff : ∀ host, a.hostInRange ip = .ok host ↔ a.InRange ip ∧ host = ip.host :=
    fun _ => a.hostInRange_eq_ok_iff
  unfold reserve
  split
  · rename_i e he
    refine ⟨nofun, fun hin => ?_⟩
    have hok := (hiff ip.host).mpr ⟨hin, rfl⟩
    rw [he] at hok
    cases hok
  · rename_i host hok
    exact ⟨fun _ => ((hiff host).mp hok).1, fun _ => rfl⟩

theorem passed_allocate (h : a.Passed) : a.allocate.2.Passed := by
  unfold allocate
  split
  · rename_i host hmin
    exact passed_claim h (a.released_hosts host (Finset.mem_of_min hmin))
  · dsimp only
    split
    · rename_i host hfound
      intro other hlo hlt
      simp only [claim, advance, Finset.mem_insert, Finset.mem_erase]
      rcases eq_or_ne other host with rfl | hne
      · exact .inl (.inl rfl)
      · obtain (hused | hwaits) | hother := passed_moved h hlo hlt
        · exact .inl (.inr hused)
        · exact .inr ⟨hne, hwaits⟩
        · cases hfound.symm.trans hother
          exact absurd rfl hne
    · rename_i hnone
      intro other hlo hlt
      obtain hkept | hother := passed_moved h hlo hlt
      · exact hkept
      · cases hnone.symm.trans hother

/-- **No leak**: `allocate` fails only when every host is in use. -/
theorem mem_allocated_of_allocate_eq_error (h : a.Passed) {e : String} (herr : a.allocate.1 = .error e)
    {host : Octet} (hhost : IsHost host) : host ∈ a.allocated := by
  obtain ⟨hlo, hhi⟩ := isHost_iff.mp hhost
  unfold allocate at herr
  split at herr
  · cases herr
  · rename_i hempty
    dsimp only at herr
    split at herr
    · cases herr
    · rename_i hnone
      have hend : broadcastHost ≤ a.found.2 := scan_end (by omega) hnone
      have hlt : (host : ℕ) < a.found.2 := lt_of_lt_of_le (by unfold broadcastHost; omega) hend
      obtain (hused | hwaits) | hother := passed_moved h hlo hlt
      · exact hused
      · rw [Finset.min_eq_top.mp hempty] at hwaits
        exact absurd hwaits (Finset.notMem_empty host)
      · cases hnone.symm.trans hother

end IpAllocator

/-! ## Calls one after another -/

/-- A call of the allocator. -/
inductive PoolCall
  | allocate
  | reserve (ip : Ipv4Addr)
  | release (ip : Ipv4Addr)

/-- An allocator, and the addresses that its callers got from it or reserved and have not released. -/
structure Pool where
  ipam : IpAllocator
  outstanding : Finset Ipv4Addr

namespace Pool

open IpAllocator

def call (p : Pool) : PoolCall → Pool
  | .allocate =>
    match p.ipam.allocate with
    | (.ok ip, ipam) => ⟨ipam, insert ip p.outstanding⟩
    | (.error _, ipam) => ⟨ipam, p.outstanding⟩
  | .reserve ip =>
    match p.ipam.reserve ip with
    | (.ok (), ipam) => ⟨ipam, insert ip p.outstanding⟩
    | (.error _, ipam) => ⟨ipam, p.outstanding⟩
  | .release ip => ⟨p.ipam.release ip, p.outstanding.erase ip⟩

def run (p : Pool) (calls : List PoolCall) : Pool := calls.foldl call p

/-- A new allocator, of which nobody holds an address. -/
def ofCidr (cidr : String) : Except String Pool := (fromCidr cidr).map fun ipam => ⟨ipam, ∅⟩

/-- The callers hold what the allocator marks, and the cursor leaves no host behind. -/
structure Sound (p : Pool) : Prop where
  marked : ∀ ip, ip ∈ p.outstanding ↔ ip ∈ p.ipam.marked
  passed : p.ipam.Passed

variable {p : Pool}

theorem sound_of_ofCidr {cidr : String} (h : ofCidr cidr = .ok p) : p.Sound := by
  unfold ofCidr at h
  cases hfrom : fromCidr cidr with
  | error e =>
    rw [hfrom] at h
    cases h
  | ok ipam =>
    rw [hfrom] at h
    cases h
    have hnew : ipam.allocated = ∅ ∧ ipam.next = firstHost := by
      unfold fromCidr at hfrom
      dsimp only at hfrom
      split at hfrom
      · cases hfrom
      · split at hfrom
        · cases hfrom
        · split at hfrom
          · cases hfrom
          · split at hfrom
            · cases hfrom
            · cases hfrom
              exact ⟨rfl, rfl⟩
    refine ⟨fun ip => ?_, fun host hlo hlt => absurd hlt (by rw [hnew.2]; omega)⟩
    simp [mem_marked, hnew.1]

/-- One call keeps a pool sound. -/
theorem Sound.call (h : p.Sound) (c : PoolCall) : (p.call c).Sound := by
  cases c with
  | allocate =>
    have hpassed := passed_allocate h.passed
    have hcases := p.ipam.allocate_cases
    unfold Pool.call
    dsimp only
    split
    · rename_i ip ipam heq
      rw [heq] at hpassed hcases
      obtain ⟨ip', hok, -, -, hmarked⟩ | ⟨e, herr, -⟩ := hcases
      · cases hok
        refine ⟨fun other => ?_, hpassed⟩
        show other ∈ insert ip p.outstanding ↔ other ∈ ipam.marked
        rw [hmarked, Finset.mem_insert, Set.mem_insert_iff, h.marked]
      · cases herr
    · rename_i e ipam heq
      rw [heq] at hpassed hcases
      obtain ⟨ip', hok, -⟩ | ⟨e', -, hmarked⟩ := hcases
      · cases hok
      · refine ⟨fun other => ?_, hpassed⟩
        show other ∈ p.outstanding ↔ other ∈ ipam.marked
        rw [hmarked, h.marked]
  | reserve ip =>
    have hpassed := passed_reserve h.passed ip
    have hmarked := p.ipam.marked_reserve ip
    have hin := reserve_eq_ok_iff p.ipam ip
    unfold Pool.call
    dsimp only
    split
    · rename_i ipam heq
      rw [heq] at hpassed hmarked hin
      refine ⟨fun other => ?_, hpassed⟩
      show other ∈ insert ip p.outstanding ↔ other ∈ ipam.marked
      rw [hmarked, if_pos (hin.mp rfl), Finset.mem_insert, Set.mem_insert_iff, h.marked]
    · rename_i e ipam heq
      rw [heq] at hpassed hmarked hin
      refine ⟨fun other => ?_, hpassed⟩
      show other ∈ p.outstanding ↔ other ∈ ipam.marked
      rw [hmarked, if_neg (fun h => by cases hin.mpr h), h.marked]
  | release ip =>
    refine ⟨fun other => ?_, passed_release h.passed ip⟩
    show other ∈ p.outstanding.erase ip ↔ other ∈ (p.ipam.release ip).marked
    rw [p.ipam.marked_release, Finset.mem_erase, h.marked, and_comm]
    rfl

theorem Sound.run (h : p.Sound) (calls : List PoolCall) : (p.run calls).Sound := by
  induction calls generalizing p with
  | nil => exact h
  | cons c rest ih => exact ih (h.call c)

/-! ### What holds of a sound pool -/

theorem Sound.subset_hosts (h : p.Sound) : p.outstanding ⊆ p.ipam.hosts :=
  fun ip hip => p.ipam.mem_hosts.mpr (p.ipam.inRange_of_marked ((h.marked ip).mp hip))

theorem Sound.notMem_of_allocate (h : p.Sound) {ip : Ipv4Addr} (hok : p.ipam.allocate.1 = .ok ip) :
    ip ∈ p.ipam.hosts ∧ ip ∉ p.outstanding := by
  obtain ⟨ip', hok', hin, hnot, -⟩ | ⟨e, herr, -⟩ := p.ipam.allocate_cases
  · cases hok.symm.trans hok'
    exact ⟨p.ipam.mem_hosts.mpr hin, fun hmem => hnot ((h.marked ip).mp hmem)⟩
  · cases hok.symm.trans herr

/-- `allocate` fails if and only if all the hosts of the slice are held. -/
theorem Sound.allocate_eq_error_iff (h : p.Sound) :
    (∃ e, p.ipam.allocate.1 = .error e) ↔ p.outstanding.card = 253 := by
  constructor
  · rintro ⟨e, herr⟩
    have hall : p.ipam.hosts ⊆ p.outstanding := by
      intro ip hip
      obtain ⟨hnet, hhost⟩ := p.ipam.mem_hosts.mp hip
      exact (h.marked ip).mpr ⟨hnet, mem_allocated_of_allocate_eq_error h.passed herr hhost⟩
    rw [← p.ipam.card_hosts, subset_antisymm h.subset_hosts hall]
  · intro hcard
    have hall : p.outstanding = p.ipam.hosts :=
      Finset.eq_of_subset_of_card_le h.subset_hosts (by rw [hcard, p.ipam.card_hosts])
    cases hres : p.ipam.allocate.1 with
    | error e => exact ⟨e, rfl⟩
    | ok ip =>
      obtain ⟨hin, hnot⟩ := h.notMem_of_allocate hres
      exact absurd (hall ▸ hin) hnot

theorem slice_run (p : Pool) (calls : List PoolCall) : (p.run calls).ipam.slice = p.ipam.slice := by
  induction calls generalizing p with
  | nil => rfl
  | cons c rest ih =>
    refine (ih (p.call c)).trans ?_
    cases c with
    | allocate =>
      have hslice := p.ipam.slice_allocate
      unfold Pool.call
      dsimp only
      split <;> rename_i heq <;> rw [heq] at hslice <;> exact hslice
    | reserve ip =>
      have hslice := p.ipam.slice_reserve ip
      unfold Pool.call
      dsimp only
      split <;> rename_i heq <;> rw [heq] at hslice <;> exact hslice
    | release ip => exact p.ipam.slice_release ip

/-- **The law of the allocator**: after any calls, what is held are hosts of the slice, `allocate` gives
none of them, and it fails if and only if all of them are held. No host is in use and waiting at once. -/
theorem allocator_law {cidr : String} (h : ofCidr cidr = .ok p) (calls : List PoolCall) :
    let q := p.run calls
    (∀ ip ∈ q.outstanding, ip.net = p.ipam.slice ∧ 2 ≤ (ip.host : ℕ) ∧ (ip.host : ℕ) ≤ 254) ∧
      (∀ ip, q.ipam.allocate.1 = .ok ip → ip ∉ q.outstanding) ∧
      ((∃ e, q.ipam.allocate.1 = .error e) ↔ q.outstanding.card = 253) ∧
      Disjoint q.ipam.allocated q.ipam.released := by
  have hsound := (sound_of_ofCidr h).run calls
  refine ⟨fun ip hip => ?_, fun ip hok => (hsound.notMem_of_allocate hok).2,
    hsound.allocate_eq_error_iff, (p.run calls).ipam.disjoint.symm⟩
  obtain ⟨hnet, hhost⟩ := (p.run calls).ipam.mem_hosts.mp (hsound.subset_hosts hip)
  exact ⟨hnet.trans (slice_run p calls), isHost_iff.mp hhost⟩

/-- `.3` is reserved ahead of the cursor and released, and is the first that is given. -/
theorem allocator_law_sample : ∃ p : Pool, ofCidr "10.244.1.0/24" = .ok p ∧
    let dotThree : Ipv4Addr := ⟨(10, 244, 1), 3⟩
    let q := p.run [.reserve dotThree, .release dotThree, .allocate]
    q.outstanding = {dotThree} ∧
      (∀ ip ∈ q.outstanding, ip.net = p.ipam.slice ∧ 2 ≤ (ip.host : ℕ) ∧ (ip.host : ℕ) ≤ 254) ∧
      (∀ ip, q.ipam.allocate.1 = .ok ip → ip ∉ q.outstanding) ∧
      ((∃ e, q.ipam.allocate.1 = .error e) ↔ q.outstanding.card = 253) ∧
      Disjoint q.ipam.allocated q.ipam.released := by
  have hheld : ((ofCidr "10.244.1.0/24").toOption.map fun p : Pool => (p.run [.reserve ⟨(10, 244, 1), 3⟩,
      .release ⟨(10, 244, 1), 3⟩, .allocate]).outstanding) = some {⟨(10, 244, 1), 3⟩} := by decide +kernel
  cases hpool : ofCidr "10.244.1.0/24" with
  | error e =>
    rw [hpool] at hheld
    cases hheld
  | ok p =>
    rw [hpool] at hheld
    exact ⟨p, rfl, Option.some.inj hheld, allocator_law hpool _⟩

end Pool
end MyK8s.Kubelet
