import MyK8s.Lib.Decimal
import MyK8s.Lib.Text

/-!
# The addresses of the pods

`src/ipam.rs`: a kubelet hands out the addresses of one /24. An address is marked while it is in use
(`IpAllocator.marked`); one that `allocate` gives was not marked before, and `release` takes the mark
away.
-/

namespace MyK8s.Kubelet

abbrev Octet := Fin 256

/-! ## Addresses -/

/-- `Ipv4Addr`: the first three octets and the last one. -/
structure Ipv4Addr where
  net : Octet × Octet × Octet
  host : Octet
  deriving DecidableEq, Repr

namespace Ipv4Addr

/-- At most three digits, and no zero in front of others. -/
def parseOctet (cs : List Char) : Option Octet :=
  if cs ≠ [] ∧ cs.length ≤ 3 ∧ cs.all Char.isDigit ∧ (cs.head? = some '0' → cs.length = 1) then
    let n := Nat.ofDigitChars 10 cs 0
    if h : n < 256 then some ⟨n, h⟩ else none
  else none

/-- `str::parse`. -/
def parse (s : String) : Option Ipv4Addr :=
  match (s.toList.splitOn '.').mapM parseOctet with
  | some [p, q, r, host] => some ⟨(p, q, r), host⟩
  | _ => none

def octets (ip : Ipv4Addr) : List Octet := [ip.net.1, ip.net.2.1, ip.net.2.2, ip.host]

instance : ToString Ipv4Addr where
  toString ip := String.ofList (['.'].intercalate (ip.octets.map fun o => Nat.toDigits 10 o))

theorem parseOctet_toDigits : ∀ o : Octet, parseOctet (Nat.toDigits 10 o) = some o := by
  decide +kernel

/-- **Round trip** of an address. -/
theorem parse_toString (ip : Ipv4Addr) : parse (toString ip) = some ip := by
  have hdots : ∀ ds ∈ ip.octets.map (fun o => Nat.toDigits 10 (o : ℕ)), '.' ∉ ds := by
    intro ds hds hdot
    obtain ⟨o, -, rfl⟩ := List.mem_map.mp hds
    exact absurd (List.all_eq_true.mp (Decimal.all_isDigit_toDigits o) '.' hdot) (by decide)
  have hsplit : (toString ip).toList.splitOn '.' =
      ip.octets.map (fun o => Nat.toDigits 10 (o : ℕ)) := by
    show (String.ofList _).toList.splitOn '.' = _
    rw [String.toList_ofList]
    exact List.splitOn_intercalate _ hdots (by simp [octets])
  unfold parse
  rw [hsplit]
  simp [octets, parseOctet_toDigits]

end Ipv4Addr

/-! ## The allocator -/

def firstHost : ℕ := 2

def broadcastHost : ℕ := 255

/-- Neither the network, nor the gateway, nor the broadcast. -/
def IsHost (host : Octet) : Prop := host ≠ 0 ∧ host ≠ 1 ∧ host ≠ 255

instance : DecidablePred IsHost := fun host => by unfold IsHost; infer_instance

/-- `IpAllocator`, whose `prefix` is the slice. A host that waits to be used again is not in use. -/
structure IpAllocator where
  slice : Octet × Octet × Octet
  next : ℕ
  released : Finset Octet
  allocated : Finset Octet
  firstHost_le_next : firstHost ≤ next
  released_hosts : ∀ host ∈ released, IsHost host
  allocated_hosts : ∀ host ∈ allocated, IsHost host
  disjoint : Disjoint released allocated

namespace IpAllocator

variable (a : IpAllocator)

/-- How errors name the slice. -/
def base : String :=
  let (p, q, r) := a.slice
  s!"{p}.{q}.{r}.0/24"

def makeIp (host : Octet) : Ipv4Addr := ⟨a.slice, host⟩

/-- What is in use. -/
def marked : Set Ipv4Addr := {ip | ip.net = a.slice ∧ ip.host ∈ a.allocated}

instance (ip : Ipv4Addr) : Decidable (ip ∈ a.marked) :=
  inferInstanceAs (Decidable (ip.net = a.slice ∧ ip.host ∈ a.allocated))

theorem mem_marked {ip : Ipv4Addr} : ip ∈ a.marked ↔ ip.net = a.slice ∧ ip.host ∈ a.allocated := Iff.rfl

/-- An address that the allocator may hand out. -/
def InRange (ip : Ipv4Addr) : Prop := ip.net = a.slice ∧ IsHost ip.host

instance (ip : Ipv4Addr) : Decidable (a.InRange ip) :=
  inferInstanceAs (Decidable (ip.net = a.slice ∧ IsHost ip.host))

theorem inRange_of_marked {ip : Ipv4Addr} (h : ip ∈ a.marked) : a.InRange ip :=
  ⟨h.1, a.allocated_hosts _ h.2⟩

/-- `from_cidr`. -/
def fromCidr (cidr : String) : Except String IpAllocator :=
  let quoted := cidr.quote
  match Text.splitOnce "/" cidr with
  | none => .error s!"missing /prefix in {quoted}"
  | some (addr, mask) =>
    if mask ≠ "24" then .error s!"only /24 CIDRs supported, got /{mask} in {quoted}"
    else
      match Ipv4Addr.parse addr with
      | none =>
        let base := addr.quote
        .error s!"bad CIDR address {base}: invalid IPv4 address syntax"
      | some ip =>
        if ip.host ≠ 0 then .error s!"/24 base must end in .0, got {addr}"
        else .ok
          { slice := ip.net
            next := firstHost
            released := ∅
            allocated := ∅
            firstHost_le_next := le_rfl
            released_hosts := nofun
            allocated_hosts := nofun
            disjoint := Finset.disjoint_empty_left ∅ }

/-! ### A host that is asked for -/

/-- `host_in_range`. -/
def hostInRange (ip : Ipv4Addr) : Except String Octet :=
  if ip.net ≠ a.slice then
    let base := a.base
    .error s!"{ip} not in {base}"
  else if ip.host = 0 ∨ ip.host = 1 ∨ ip.host = 255 then
    .error s!"{ip} is a reserved host (.0/.1/.255)"
  else .ok ip.host

theorem hostInRange_eq_ok_iff {ip : Ipv4Addr} {host : Octet} :
    a.hostInRange ip = .ok host ↔ a.InRange ip ∧ host = ip.host := by
  unfold hostInRange InRange IsHost
  split
  · rename_i hne
    simp [hne]
  · rename_i hnet
    push Not at hnet
    split
    · rename_i hhost
      simp only [reduceCtorEq, hnet, true_and, false_iff]
      tauto
    · rename_i hhost
      push Not at hhost
      simp [hnet, hhost, eq_comm]

theorem isHost_of_hostInRange {ip : Ipv4Addr} {host : Octet} (h : a.hostInRange ip = .ok host) :
    IsHost host := by
  obtain ⟨hin, rfl⟩ := a.hostInRange_eq_ok_iff.mp h
  exact hin.2

/-- The host is taken into use, and no longer waits. -/
def claim (host : Octet) (h : IsHost host) : IpAllocator :=
  { a with
    released := a.released.erase host
    allocated := insert host a.allocated
    released_hosts := fun other hother => a.released_hosts other (Finset.mem_of_mem_erase hother)
    allocated_hosts := by
      intro other hother
      obtain rfl | hother := Finset.mem_insert.mp hother
      · exact h
      · exact a.allocated_hosts other hother
    disjoint := by
      rw [Finset.disjoint_insert_right]
      exact ⟨Finset.notMem_erase host _, a.disjoint.mono_left (Finset.erase_subset ..)⟩ }

@[simp] theorem slice_claim (host : Octet) (h : IsHost host) : (a.claim host h).slice = a.slice := rfl

theorem marked_claim (host : Octet) (h : IsHost host) :
    (a.claim host h).marked = insert (a.makeIp host) a.marked := by
  ext ⟨net, other⟩
  simp only [mem_marked, claim, Finset.mem_insert, Set.mem_insert_iff, makeIp, Ipv4Addr.mk.injEq]
  tauto

/-- `reserve`. -/
def reserve (ip : Ipv4Addr) : Except String Unit × IpAllocator :=
  match h : a.hostInRange ip with
  | .error e => (.error e, a)
  | .ok host => (.ok (), a.claim host (a.isHost_of_hostInRange h))

theorem slice_reserve (ip : Ipv4Addr) : (a.reserve ip).2.slice = a.slice := by
  unfold reserve
  split <;> rfl

/-- An address of the slice is marked, and any other is ignored. -/
theorem marked_reserve (ip : Ipv4Addr) :
    (a.reserve ip).2.marked = if a.InRange ip then insert ip a.marked else a.marked := by
  unfold reserve
  split
  · rename_i e he
    rw [if_neg]
    intro hin
    have hok := a.hostInRange_eq_ok_iff.mpr ⟨hin, rfl⟩
    rw [he] at hok
    cases hok
  · rename_i host hok
    obtain ⟨hin, rfl⟩ := a.hostInRange_eq_ok_iff.mp hok
    rw [if_pos hin, marked_claim, makeIp, ← hin.1]

/-- The host is no longer in use, and waits to be used again. -/
def giveUp (host : Octet) (h : IsHost host) : IpAllocator :=
  { a with
    released := insert host a.released
    allocated := a.allocated.erase host
    released_hosts := by
      intro other hother
      obtain rfl | hother := Finset.mem_insert.mp hother
      · exact h
      · exact a.released_hosts other hother
    allocated_hosts := fun other hother => a.allocated_hosts other (Finset.mem_of_mem_erase hother)
    disjoint := by
      rw [Finset.disjoint_insert_left]
      exact ⟨Finset.notMem_erase host _, a.disjoint.mono_right (Finset.erase_subset ..)⟩ }

theorem marked_giveUp (host : Octet) (h : IsHost host) :
    (a.giveUp host h).marked = a.marked \ {a.makeIp host} := by
  ext ⟨net, other⟩
  simp only [mem_marked, giveUp, Finset.mem_erase, Set.mem_sdiff, Set.mem_singleton_iff, makeIp,
    Ipv4Addr.mk.injEq]
  tauto

/-- `release`. -/
def release (ip : Ipv4Addr) : IpAllocator :=
  match h : a.hostInRange ip with
  | .error _ => a
  | .ok host => if host ∈ a.allocated then a.giveUp host (a.isHost_of_hostInRange h) else a

theorem slice_release (ip : Ipv4Addr) : (a.release ip).slice = a.slice := by
  unfold release
  split
  · rfl
  · split <;> rfl

theorem marked_release (ip : Ipv4Addr) : (a.release ip).marked = a.marked \ {ip} := by
  have hskip : ip ∉ a.marked → a.marked = a.marked \ {ip} :=
    fun hnot => (Set.sdiff_singleton_eq_self hnot).symm
  unfold release
  split
  · rename_i e he
    refine hskip fun hmem => ?_
    have hok := a.hostInRange_eq_ok_iff.mpr ⟨a.inRange_of_marked hmem, rfl⟩
    rw [he] at hok
    cases hok
  · rename_i host hok
    obtain ⟨hin, rfl⟩ := a.hostInRange_eq_ok_iff.mp hok
    split
    · rw [marked_giveUp, makeIp, ← hin.1]
    · rename_i hnot
      exact hskip fun hmem => hnot hmem.2

/-! ### A fresh host -/

/-- The loop of `allocate`: at most `left` hosts are looked at. The cursor has moved on at the end. -/
def scan (allocated : Finset Octet) : ℕ → ℕ → Option Octet × ℕ
  | 0, next => (none, next)
  | left + 1, next =>
    if h : next < broadcastHost then
      let host : Octet := ⟨next, Nat.lt_succ_of_lt h⟩
      if host ∈ allocated then scan allocated left (next + 1) else (some host, next + 1)
    else (none, next)

theorem le_scan (allocated : Finset Octet) (left next : ℕ) : next ≤ (scan allocated left next).2 := by
  induction left generalizing next with
  | zero => exact le_rfl
  | succ left ih =>
    unfold scan
    split
    · dsimp only
      split
      · exact (Nat.le_succ next).trans (ih (next + 1))
      · exact Nat.le_succ next
    · exact le_rfl

theorem scan_found {allocated : Finset Octet} {left next : ℕ} {host : Octet}
    (h : (scan allocated left next).1 = some host) :
    host ∉ allocated ∧ next ≤ host ∧ (host : ℕ) < broadcastHost := by
  induction left generalizing next with
  | zero => cases h
  | succ left ih =>
    unfold scan at h
    split at h
    · rename_i hlt
      dsimp only at h
      split at h
      · obtain ⟨hnot, hle, hbroad⟩ := ih h
        exact ⟨hnot, by omega, hbroad⟩
      · rename_i hnot
        cases h
        exact ⟨hnot, le_rfl, hlt⟩
    · cases h

theorem isHost_of_between {host : Octet} (hlo : firstHost ≤ host) (hhi : (host : ℕ) < broadcastHost) :
    IsHost host := by
  unfold firstHost at hlo
  unfold broadcastHost at hhi
  unfold IsHost
  simp only [ne_eq, Fin.ext_iff]
  exact ⟨by simp; omega, by simp; omega, by simp; omega⟩

/-- The cursor has moved on. -/
def advance (next : ℕ) (h : a.next ≤ next) : IpAllocator :=
  { a with next := next, firstHost_le_next := a.firstHost_le_next.trans h }

/-- `allocate`: the smallest released host first, then those from the cursor on. -/
def allocate : Except String Ipv4Addr × IpAllocator :=
  match h : a.released.min with
  | (host : Octet) =>
    (.ok (a.makeIp host), a.claim host (a.released_hosts host (Finset.mem_of_min h)))
  | ⊤ =>
    let moved := a.advance _ (le_scan a.allocated (broadcastHost - a.next) a.next)
    match hfound : (scan a.allocated (broadcastHost - a.next) a.next).1 with
    | some host =>
      (.ok (a.makeIp host), moved.claim host (isHost_of_between
        (a.firstHost_le_next.trans (scan_found hfound).2.1) (scan_found hfound).2.2))
    | none =>
      let base := a.base
      (.error s!"IP pool exhausted for {base}", moved)

/-- `allocate` marks one more address, or fails and marks none. -/
theorem allocate_cases :
    (∃ ip, a.allocate.1 = .ok ip ∧ a.InRange ip ∧ ip ∉ a.marked ∧
      a.allocate.2.marked = insert ip a.marked) ∨
    ∃ e, a.allocate.1 = .error e ∧ a.allocate.2.marked = a.marked := by
  unfold allocate
  split
  · rename_i host hmin
    have hmem := Finset.mem_of_min hmin
    have hhost := a.released_hosts host hmem
    refine .inl ⟨a.makeIp host, rfl, ⟨rfl, hhost⟩, fun hmarked => ?_, a.marked_claim host hhost⟩
    exact Finset.disjoint_left.mp a.disjoint hmem hmarked.2
  · dsimp only
    split
    · rename_i host hfound
      obtain ⟨hnot, hle, hlt⟩ := scan_found hfound
      refine .inl ⟨a.makeIp host, rfl, ⟨rfl, isHost_of_between (a.firstHost_le_next.trans hle) hlt⟩,
        fun hmarked => hnot hmarked.2, ?_⟩
      rw [marked_claim]
      rfl
    · exact .inr ⟨_, rfl, rfl⟩

theorem slice_allocate : a.allocate.2.slice = a.slice := by
  unfold allocate
  split
  · rfl
  · dsimp only
    split <;> rfl

end IpAllocator

end MyK8s.Kubelet
