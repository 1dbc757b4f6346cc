import Mathlib
import MyK8s.Lib.Chains
import MyK8s.Lib.Decimal
import MyK8s.Resource.Kinds

/-!
# The rules of kube-proxy

`plan_rules` writes the arguments of the calls of `iptables` for a list of services and their
endpoints; `apply_rules` runs them in the nat table. `readArgs` reads the arguments back as a command
on chains, so that a plan is a program in the sense of `Chains`.

A probability is an argument of its own: the fraction that the source prints to five places. All that is said
of shares is about the fraction, so equal shares are those of a table that keeps it exactly.
-/

namespace MyK8s.KubeProxy

open Chains

/-- An argument of `iptables`. -/
inductive Arg
  | text (s : String)
  | probability (p : ℚ)
  deriving DecidableEq

instance : Coe String Arg := ⟨.text⟩

abbrev Argv := List Arg

def kubeServices : String := "KUBE-SERVICES"

def kubeMarkMasq : String := "KUBE-MARK-MASQ"

/-! ## The plan -/

section Plan

variable (shortHash : String → String)

def svcChainName (svc : String) : String := "KUBE-SVC-" ++ shortHash svc

def sepChainName (svc ip : String) (port : UInt16) : String :=
  "KUBE-SEP-" ++ shortHash (svc ++ "/" ++ ip ++ ":" ++ toString port.toNat)

/-- Where the endpoint's chain sends a packet. -/
def destination (ep : EndpointAddress) : String := ep.ip ++ ":" ++ toString ep.port.toNat

/-- The addresses of the first endpoints that have the service's name. -/
def addrsOf (endpoints : List Endpoints) (svc : Service) : List EndpointAddress :=
  ((endpoints.find? fun e => e.metadata.name = svc.metadata.name).map (·.addresses)).getD []

/-- The rules of the `i`-th of `n` endpoints. -/
def endpointRules (svc : String) (n i : ℕ) (ep : EndpointAddress) : List Argv :=
  let svcChain := svcChainName shortHash svc
  let sepChain := sepChainName shortHash svc ep.ip ep.port
  [["-N", sepChain],
   ["-F", sepChain],
   ["-A", sepChain, "-j", kubeMarkMasq],
   ["-A", sepChain, "-p", "tcp", "-j", "DNAT", "--to-destination", destination ep],
   if i < n - 1 then
     ["-A", svcChain, "-m", "statistic", "--mode", "random", "--probability",
      .probability (1 / (n - i : ℕ)), "-j", sepChain]
   else ["-A", svcChain, "-j", sepChain]]

def serviceRules (endpoints : List Endpoints) (svc : Service) : List Argv :=
  match svc.spec.clusterIP with
  | none => []
  | some clusterIP =>
    let addrs := addrsOf endpoints svc
    if addrs.isEmpty then []
    else
      let svcChain := svcChainName shortHash svc.metadata.name
      let create : List Argv := [["-N", svcChain], ["-F", svcChain]]
      let route : Argv := ["-A", kubeServices, "-d", clusterIP, "-p", "tcp", "--dport",
        toString svc.spec.port.toNat, "-j", svcChain]
      create ++ (addrs.zipIdx.flatMap fun (ep, i) =>
        endpointRules shortHash svc.metadata.name addrs.length i ep) ++ [route]

def planRules (services : List Service) (endpoints : List Endpoints) : List Argv :=
  ["-F", kubeServices] :: services.flatMap (serviceRules shortHash endpoints)

end Plan

/-- The chains that are set up at the start, as far as they hang below `KUBE-SERVICES`. -/
def ensureBaseChains : List Argv :=
  [["-N", kubeServices],
   ["-N", kubeMarkMasq],
   ["-A", kubeMarkMasq, "-j", "MARK", "--set-xmark", "0x4000/0x4000"]]

/-! ## What iptables makes of its arguments -/

/-- What the rules look at in a packet. -/
structure Packet where
  dst : String
  protocol : String
  dport : UInt16
  deriving DecidableEq

structure Match where
  dst : Option String
  protocol : Option String
  dport : Option UInt16
  deriving DecidableEq

namespace Match

def all : Match := ⟨none, none, none⟩

def holds (m : Match) (p : Packet) : Bool :=
  m.dst.all (· == p.dst) && m.protocol.all (· == p.protocol) && m.dport.all (· == p.dport)

@[simp] theorem all_holds (p : Packet) : all.holds p = true := rfl

end Match

abbrev NatRule := Rule String Match String

abbrev NatCommand := Command String Match String

abbrev NatTable := Table String Match String

def readTarget : Argv → Option (Target String String)
  | [.text "DNAT", .text "--to-destination", .text dest] => some (.translate dest)
  | [.text "MARK", .text "--set-xmark", .text _] => some .mark
  | [.text chain] => some (.jump chain)
  | _ => none

def readRule (m : Match) (chance : Option ℚ) : Argv → Option NatRule
  | .text "-d" :: .text ip :: opts => readRule { m with dst := some ip } chance opts
  | .text "-p" :: .text proto :: opts => readRule { m with protocol := some proto } chance opts
  | .text "--dport" :: .text port :: opts =>
    match Decimal.parse 65535 port with
    | some n => readRule { m with dport := some (UInt16.ofNat n) } chance opts
    | none => none
  | .text "-m" :: .text "statistic" :: .text "--mode" :: .text "random" :: .text "--probability" ::
      .probability p :: opts => readRule m (some p) opts
  | .text "-j" :: opts => (readTarget opts).map fun target => ⟨m, chance, target⟩
  | _ => none

def readArgs : Argv → Option NatCommand
  | [.text "-N", .text chain] => some (.create chain)
  | [.text "-F", .text chain] => some (.flush chain)
  | .text "-A" :: .text chain :: opts => (readRule .all none opts).map (.append chain)
  | _ => none

/-- Rule by rule, until one fails. -/
def applyRules (t : NatTable) (rules : List Argv) : Option NatTable :=
  rules.foldlM (fun t argv => (readArgs argv).bind t.exec) t

theorem applyRules_eq_apply {rules : List Argv} {cmds : List NatCommand}
    (h : rules.map readArgs = cmds.map some) (t : NatTable) : applyRules t rules = t.apply cmds := by
  induction rules generalizing cmds t with
  | nil =>
    obtain rfl := List.map_eq_nil_iff.mp h.symm
    rfl
  | cons argv rules ih =>
    cases cmds with
    | nil => cases h
    | cons cmd cmds =>
      obtain ⟨hcmd, hcmds⟩ := List.cons.inj h
      change ((readArgs argv).bind t.exec).bind (applyRules · rules) = _
      rw [hcmd, Option.bind_some]
      change _ = (t.exec cmd).bind (Table.apply · cmds)
      congr 1
      funext u
      exact ih hcmds u

/-! ## The plan as a program -/

section Commands

variable (shortHash : String → String)

/-- The rules of an endpoint's chain: to be masqueraded, then to the pod. -/
def sepRules (ep : EndpointAddress) : List NatRule :=
  [⟨.all, none, .jump kubeMarkMasq⟩,
   ⟨{ Match.all with protocol := some "tcp" }, none, .translate (destination ep)⟩]

/-- A declining part of the packets for all endpoints but the last, which takes what is left. -/
def svcRule (svc : String) (n i : ℕ) (ep : EndpointAddress) : NatRule where
  guard := .all
  chance := if i < n - 1 then some (1 / (n - i : ℕ)) else none
  target := .jump (sepChainName shortHash svc ep.ip ep.port)

def servicesRule (clusterIP : String) (svc : Service) : NatRule where
  guard := ⟨some clusterIP, some "tcp", some svc.spec.port⟩
  chance := none
  target := .jump (svcChainName shortHash svc.metadata.name)

def endpointCommands (svc : String) (n i : ℕ) (ep : EndpointAddress) : List NatCommand :=
  let sepChain := sepChainName shortHash svc ep.ip ep.port
  .create sepChain :: .flush sepChain :: (sepRules ep).map (.append sepChain) ++
    [.append (svcChainName shortHash svc) (svcRule shortHash svc n i ep)]

/-- The service's address, if there is anything to program for it. -/
def vipOf (endpoints : List Endpoints) (svc : Service) : Option String :=
  if (addrsOf endpoints svc).isEmpty then none else svc.spec.clusterIP

def serviceCommands (endpoints : List Endpoints) (svc : Service) : List NatCommand :=
  match vipOf endpoints svc with
  | none => []
  | some clusterIP =>
    let svcChain := svcChainName shortHash svc.metadata.name
    let addrs := addrsOf endpoints svc
    [.create svcChain, .flush svcChain] ++
    (addrs.zipIdx.flatMap fun (ep, i) =>
      endpointCommands shortHash svc.metadata.name addrs.length i ep) ++
    [.append kubeServices (servicesRule shortHash clusterIP svc)]

def planCommands (services : List Service) (endpoints : List Endpoints) : List NatCommand :=
  .flush kubeServices :: services.flatMap (serviceCommands shortHash endpoints)

variable {shortHash}

theorem read_port (port : UInt16) :
    Decimal.parse 65535 (toString port.toNat) = some port.toNat := by
  refine Decimal.parse_toString ?_
  have h := port.toNat_lt
  omega

theorem read_endpointRules (svc : String) (n i : ℕ) (ep : EndpointAddress) :
    (endpointRules shortHash svc n i ep).map readArgs =
      (endpointCommands shortHash svc n i ep).map some := by
  by_cases h : i < n - 1
  · simp [endpointRules, endpointCommands, sepRules, svcRule, h, readArgs, readRule, readTarget,
      Match.all]
  · simp [endpointRules, endpointCommands, sepRules, svcRule, h, readArgs, readRule, readTarget,
      Match.all]

theorem read_serviceRules (endpoints : List Endpoints) (svc : Service) :
    (serviceRules shortHash endpoints svc).map readArgs =
      (serviceCommands shortHash endpoints svc).map some := by
  unfold serviceRules serviceCommands vipOf
  cases hvip : svc.spec.clusterIP with
  | none => simp
  | some clusterIP =>
    by_cases haddrs : (addrsOf endpoints svc).isEmpty
    · simp [haddrs]
    · have heps : ((addrsOf endpoints svc).zipIdx.flatMap fun (ep, i) =>
          endpointRules shortHash svc.metadata.name (addrsOf endpoints svc).length i ep).map readArgs =
          ((addrsOf endpoints svc).zipIdx.flatMap fun (ep, i) =>
          endpointCommands shortHash svc.metadata.name (addrsOf endpoints svc).length i ep).map some := by
        rw [List.map_flatMap, List.map_flatMap]
        congr 1
        funext x
        exact read_endpointRules svc.metadata.name _ x.2 x.1
      have hport := read_port svc.spec.port
      rw [Nat.toString_eq_repr] at hport
      simp only [haddrs, Bool.false_eq_true, ↓reduceIte, List.map_append, heps]
      simp [servicesRule, readArgs, readRule, readTarget, hport, Match.all]

/-- **The plan is a program**: every line of it is a command. -/
theorem read_planRules (services : List Service) (endpoints : List Endpoints) :
    (planRules shortHash services endpoints).map readArgs =
      (planCommands shortHash services endpoints).map some := by
  unfold planRules planCommands
  rw [List.map_cons, List.map_cons, List.map_flatMap, List.map_flatMap]
  congr 2
  funext svc
  exact read_serviceRules endpoints svc

theorem applyRules_planRules (services : List Service) (endpoints : List Endpoints) (t : NatTable) :
    applyRules t (planRules shortHash services endpoints) =
      t.apply (planCommands shortHash services endpoints) :=
  applyRules_eq_apply (read_planRules services endpoints) t

end Commands

end MyK8s.KubeProxy
