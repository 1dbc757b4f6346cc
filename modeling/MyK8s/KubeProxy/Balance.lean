import Mathlib
import MyK8s.KubeProxy.Plan

/-!
# Balancing

What the rules of kube-proxy make of a packet. The chain of a service gives each endpoint its share by
declining chances (`walkRules_svcRules`); that no two chains have the same name, and no two services
the same address, keeps the services apart (`planRules_balances`).
-/

namespace MyK8s.KubeProxy

open Chains

/-! ## Names of chains -/

/-- What a chain is for. -/
inductive ChainKey
  | svc (name : String)
  | sep (svc ip : String) (port : UInt16)
  deriving DecidableEq

section Names

variable (shortHash : String → String)

def chainName : ChainKey → String
  | .svc name => svcChainName shortHash name
  | .sep svc ip port => sepChainName shortHash svc ip port

def serviceKeys (endpoints : List Endpoints) (svc : Service) : List ChainKey :=
  if (vipOf endpoints svc).isSome then
    .svc svc.metadata.name ::
      (addrsOf endpoints svc).map fun ep => .sep svc.metadata.name ep.ip ep.port
  else []

/-- The chains that a plan uses below `KUBE-SERVICES`. -/
def chainKeys (services : List Service) (endpoints : List Endpoints) : List ChainKey :=
  services.flatMap (serviceKeys endpoints)

theorem svcChainName_ne_services (svc : String) : svcChainName shortHash svc ≠ kubeServices := by
  intro h
  have hl := congrArg String.toList h
  simp [svcChainName, kubeServices] at hl

theorem svcChainName_ne_masq (svc : String) : svcChainName shortHash svc ≠ kubeMarkMasq := by
  intro h
  have hl := congrArg String.toList h
  simp [svcChainName, kubeMarkMasq] at hl

theorem sepChainName_ne_services (svc ip : String) (port : UInt16) :
    sepChainName shortHash svc ip port ≠ kubeServices := by
  intro h
  have hl := congrArg String.toList h
  simp [sepChainName, kubeServices] at hl

theorem sepChainName_ne_masq (svc ip : String) (port : UInt16) :
    sepChainName shortHash svc ip port ≠ kubeMarkMasq := by
  intro h
  have hl := congrArg String.toList h
  simp [sepChainName, kubeMarkMasq] at hl

theorem svcChainName_ne_sepChainName (svc svc' ip : String) (port : UInt16) :
    svcChainName shortHash svc ≠ sepChainName shortHash svc' ip port := by
  intro h
  have hl := congrArg String.toList h
  simp [svcChainName, sepChainName] at hl

variable {shortHash}

/-- The text that is hashed for a chain. -/
def hashed : ChainKey → String
  | .svc name => name
  | .sep svc ip port => svc ++ "/" ++ ip ++ ":" ++ toString port.toNat

theorem append_cons_inj_of_notMem_right {α : Type} {a : α} {x x' z z' : List α} (hz : a ∉ z)
    (hz' : a ∉ z') (h : x ++ a :: z = x' ++ a :: z') : x = x' ∧ z = z' := by
  rcases List.append_eq_append_iff.mp h with ⟨y, rfl, hy⟩ | ⟨y, rfl, hy⟩
  · cases y with
    | nil => simpa using hy
    | cons b y =>
      obtain ⟨rfl, rfl⟩ := List.cons.inj hy
      exact absurd (List.mem_append_right y List.mem_cons_self) hz
  · cases y with
    | nil => simpa using hy.symm
    | cons b y =>
      obtain ⟨rfl, rfl⟩ := List.cons.inj hy
      exact absurd (List.mem_append_right y List.mem_cons_self) hz'

theorem notMem_toDigits {c : Char} (hc : c.isDigit = false) (n : ℕ) : c ∉ Nat.toDigits 10 n := by
  intro hmem
  have hdigit := List.all_eq_true.mp (Decimal.all_isDigit_toDigits n) c hmem
  rw [hc] at hdigit
  cases hdigit

/-- No address contains a slash, so that the last slash of a text ends the service's name. -/
theorem hashed_sep_inj {svc svc' ip ip' : String} {port port' : UInt16} (hip : '/' ∉ ip.toList)
    (hip' : '/' ∉ ip'.toList) (h : hashed (.sep svc ip port) = hashed (.sep svc' ip' port')) :
    svc = svc' ∧ ip = ip' ∧ port = port' := by
  have htext : ∀ (svc ip : String) (port : UInt16), (hashed (.sep svc ip port)).toList =
      svc.toList ++ '/' :: (ip.toList ++ ':' :: Nat.toDigits 10 port.toNat) := by
    intro svc ip port
    simp only [hashed, String.toList_append, Decimal.toList_toString]
    simp
  have hl := congrArg String.toList h
  rw [htext, htext] at hl
  have hnot : ∀ {ip : String} {port : UInt16}, '/' ∉ ip.toList →
      '/' ∉ ip.toList ++ ':' :: Nat.toDigits 10 port.toNat := by
    intro ip port hip hmem
    rcases List.mem_append.mp hmem with hmem | hmem
    · exact hip hmem
    · exact notMem_toDigits (by decide) _ ((List.mem_cons.mp hmem).resolve_left (by decide))
  obtain ⟨hsvc, hrest⟩ := append_cons_inj_of_notMem_right (hnot hip) (hnot hip') hl
  obtain ⟨hip, hport⟩ := append_cons_inj_of_notMem_right (notMem_toDigits (by decide) _)
    (notMem_toDigits (by decide) _) hrest
  have hports : toString port.toNat = toString port'.toNat :=
    String.toList_inj.mp (by rw [Decimal.toList_toString, Decimal.toList_toString, hport])
  exact ⟨String.toList_inj.mp hsvc, String.toList_inj.mp hip,
    UInt16.toNat_inj.mp (Decimal.toString_injective hports)⟩

/-- **Chains have names of their own** if the hashes of their texts are distinct. -/
theorem chainName_injOn {services : List Service} {endpoints : List Endpoints}
    (hhash : Set.InjOn shortHash {s | ∃ k ∈ chainKeys services endpoints, hashed k = s})
    (hips : ∀ svc ip port, .sep svc ip port ∈ chainKeys services endpoints → '/' ∉ ip.toList) :
    Set.InjOn (chainName shortHash) {k | k ∈ chainKeys services endpoints} := by
  intro k hk k' hk' heq
  cases k with
  | svc name =>
    cases k' with
    | svc name' =>
      have hsame := hhash ⟨_, hk, rfl⟩ ⟨_, hk', rfl⟩ (String.append_right_inj _ |>.mp heq)
      exact congrArg ChainKey.svc hsame
    | sep svc ip port => exact absurd heq (svcChainName_ne_sepChainName _ _ _ _ _)
  | sep svc ip port =>
    cases k' with
    | svc name => exact absurd heq.symm (svcChainName_ne_sepChainName _ _ _ _ _)
    | sep svc' ip' port' =>
      have hsame := hhash ⟨_, hk, rfl⟩ ⟨_, hk', rfl⟩ (String.append_right_inj _ |>.mp heq)
      obtain ⟨rfl, rfl, rfl⟩ := hashed_sep_inj (hips _ _ _ hk) (hips _ _ _ hk') hsame
      rfl

end Names

/-! ## What a plan leaves in the chains -/

section Rules

variable {shortHash : String → String} {endpoints : List Endpoints} {services : List Service}
  {svc : Service} {ep : EndpointAddress} {clusterIP c : String}

/-- The rules of a service's chain. -/
def svcRules (shortHash : String → String) (svc : String) (addrs : List EndpointAddress) :
    List NatRule :=
  addrs.zipIdx.map fun (ep, i) => svcRule shortHash svc addrs.length i ep

def routeOf (shortHash : String → String) (endpoints : List Endpoints) (svc : Service) :
    Option NatRule :=
  (vipOf endpoints svc).map (servicesRule shortHash · svc)

theorem endpointCommands_appends (name : String) (n i : ℕ) (ep : EndpointAddress)
    (hsep : sepChainName shortHash name ep.ip ep.port ≠ c) (hsvc : svcChainName shortHash name ≠ c) :
    Appends c [] (endpointCommands shortHash name n i ep) := by
  refine appends_nil fun cmd hcmd => ?_
  simp only [endpointCommands, sepRules, List.map_cons, List.map_nil, List.cons_append,
    List.nil_append, List.mem_cons, List.not_mem_nil, or_false] at hcmd
  rcases hcmd with rfl | rfl | rfl | rfl | rfl <;> simp [Command.changes, hsep, hsvc]

theorem endpointCommands_appends_svcRule (name : String) (n i : ℕ) (ep : EndpointAddress) :
    Appends (svcChainName shortHash name) [svcRule shortHash name n i ep]
      (endpointCommands shortHash name n i ep) := by
  have hne := svcChainName_ne_sepChainName shortHash name name ep.ip ep.port
  refine (appends_map_append (svcChainName shortHash name) [_]).after
    (appends_nil fun cmd hcmd => ?_)
  simp only [sepRules, List.map_cons, List.map_nil, List.mem_cons, List.not_mem_nil,
    or_false] at hcmd
  rcases hcmd with rfl | rfl | rfl | rfl <;> simp [Command.changes, hne.symm]

theorem endpointCommands_rebuilds (name : String) (n i : ℕ) (ep : EndpointAddress) :
    Rebuilds (sepChainName shortHash name ep.ip ep.port) (sepRules ep)
      (endpointCommands shortHash name n i ep) := by
  have hne := svcChainName_ne_sepChainName shortHash name name ep.ip ep.port
  have hsep := (appends_map_append (sepChainName shortHash name ep.ip ep.port)
    (sepRules ep)).rebuilds.after [.create (sepChainName shortHash name ep.ip ep.port)]
  have hsvc : Appends (sepChainName shortHash name ep.ip ep.port) []
      [.append (svcChainName shortHash name) (svcRule shortHash name n i ep)] :=
    appends_nil fun cmd hcmd => by
      rw [List.mem_singleton.mp hcmd]
      simp [Command.changes, hne]
  have hall := hsep.append hsvc
  rwa [List.append_nil] at hall

/-- What is left alone: all chains but those of the service. -/
theorem serviceCommands_appends (hservices : c ≠ kubeServices)
    (hkeys : ∀ k ∈ serviceKeys endpoints svc, chainName shortHash k ≠ c) :
    Appends c [] (serviceCommands shortHash endpoints svc) := by
  unfold serviceCommands
  cases hvip : vipOf endpoints svc with
  | none => exact appends_nil fun cmd hcmd => absurd hcmd List.not_mem_nil
  | some clusterIP =>
    simp only [serviceKeys, hvip, Option.isSome_some, ↓reduceIte, List.mem_cons, List.mem_map,
      forall_eq_or_imp, forall_exists_index, and_imp, forall_apply_eq_imp_iff₂] at hkeys
    have hsvc : svcChainName shortHash svc.metadata.name ≠ c := hkeys.1
    have heps : Appends c [] ((addrsOf endpoints svc).zipIdx.flatMap fun (ep, i) =>
        endpointCommands shortHash svc.metadata.name (addrsOf endpoints svc).length i ep) :=
      Appends.flatMap_nil fun (ep, i) hmem =>
        endpointCommands_appends _ _ _ _ (hkeys.2 ep (List.fst_mem_of_mem_zipIdx hmem)) hsvc
    refine Appends.after ?_ (heps.after ?_)
    · refine appends_nil fun cmd hcmd => ?_
      rw [List.mem_singleton.mp hcmd]
      simp [Command.changes, hservices.symm]
    · refine appends_nil fun cmd hcmd => ?_
      simp only [List.mem_cons, List.not_mem_nil, or_false] at hcmd
      rcases hcmd with rfl | rfl <;> simp [Command.changes, hsvc]

theorem serviceCommands_appends_route (svc : Service) :
    Appends kubeServices (routeOf shortHash endpoints svc).toList
      (serviceCommands shortHash endpoints svc) := by
  unfold serviceCommands routeOf
  cases hvip : vipOf endpoints svc with
  | none => exact appends_nil fun cmd hcmd => absurd hcmd List.not_mem_nil
  | some clusterIP =>
    have heps : Appends kubeServices [] ((addrsOf endpoints svc).zipIdx.flatMap fun (ep, i) =>
        endpointCommands shortHash svc.metadata.name (addrsOf endpoints svc).length i ep) :=
      Appends.flatMap_nil fun (ep, i) _ => endpointCommands_appends _ _ _ _
        (sepChainName_ne_services _ _ _ _) (svcChainName_ne_services _ _)
    refine (appends_map_append kubeServices [_]).after (heps.after ?_)
    refine appends_nil fun cmd hcmd => ?_
    have hsvc := svcChainName_ne_services shortHash svc.metadata.name
    simp only [List.mem_cons, List.not_mem_nil, or_false] at hcmd
    rcases hcmd with rfl | rfl <;> simp [Command.changes, hsvc]

theorem serviceCommands_rebuilds_svc (hvip : (vipOf endpoints svc).isSome) :
    Rebuilds (svcChainName shortHash svc.metadata.name)
      (svcRules shortHash svc.metadata.name (addrsOf endpoints svc))
      (serviceCommands shortHash endpoints svc) := by
  obtain ⟨clusterIP, hvip⟩ := Option.isSome_iff_exists.mp hvip
  have heps : Appends (svcChainName shortHash svc.metadata.name)
      (svcRules shortHash svc.metadata.name (addrsOf endpoints svc))
      ((addrsOf endpoints svc).zipIdx.flatMap fun (ep, i) =>
        endpointCommands shortHash svc.metadata.name (addrsOf endpoints svc).length i ep) := by
    unfold svcRules
    rw [List.map_eq_flatMap]
    exact Appends.flatMap fun (ep, i) _ => endpointCommands_appends_svcRule _ _ _ _
  have hroute : Appends (svcChainName shortHash svc.metadata.name) []
      [.append kubeServices (servicesRule shortHash clusterIP svc)] :=
    appends_nil fun cmd hcmd => by
      rw [List.mem_singleton.mp hcmd]
      simp [Command.changes, (svcChainName_ne_services _ svc.metadata.name).symm]
  have hall := (heps.rebuilds.after [.create (svcChainName shortHash svc.metadata.name)]).append hroute
  rw [List.append_nil] at hall
  simpa [serviceCommands, hvip] using hall

/-- An endpoint's chain, if all endpoints of the service whose chains have its name are the same. -/
theorem serviceCommands_rebuilds_sep (hvip : (vipOf endpoints svc).isSome)
    (hep : ep ∈ addrsOf endpoints svc)
    (hsame : ∀ ep' ∈ addrsOf endpoints svc, sepChainName shortHash svc.metadata.name ep'.ip ep'.port =
      sepChainName shortHash svc.metadata.name ep.ip ep.port → ep' = ep) :
    Rebuilds (sepChainName shortHash svc.metadata.name ep.ip ep.port) (sepRules ep)
      (serviceCommands shortHash endpoints svc) := by
  obtain ⟨clusterIP, hvip⟩ := Option.isSome_iff_exists.mp hvip
  have hsvc := svcChainName_ne_sepChainName shortHash
    svc.metadata.name svc.metadata.name ep.ip ep.port
  have heps : Rebuilds (sepChainName shortHash svc.metadata.name ep.ip ep.port) (sepRules ep)
      ((addrsOf endpoints svc).zipIdx.flatMap fun (ep, i) =>
        endpointCommands shortHash svc.metadata.name (addrsOf endpoints svc).length i ep) := by
    refine Rebuilds.flatMap (fun (ep', i) hmem => ?_) ?_
    · by_cases heq : sepChainName shortHash svc.metadata.name ep'.ip ep'.port =
          sepChainName shortHash svc.metadata.name ep.ip ep.port
      · obtain rfl := hsame ep' (List.fst_mem_of_mem_zipIdx hmem) heq
        exact .inr (endpointCommands_rebuilds _ _ _ _)
      · exact .inl (endpointCommands_appends _ _ _ _ heq hsvc)
    · obtain ⟨i, hi⟩ := List.mem_iff_getElem?.mp hep
      exact ⟨(ep, i), List.mk_mem_zipIdx_iff_getElem?.mpr hi, endpointCommands_rebuilds _ _ _ _⟩
  have hroute : Appends (sepChainName shortHash svc.metadata.name ep.ip ep.port) []
      [.append kubeServices (servicesRule shortHash clusterIP svc)] :=
    appends_nil fun cmd hcmd => by
      rw [List.mem_singleton.mp hcmd]
      simp [Command.changes, (sepChainName_ne_services _ svc.metadata.name ep.ip ep.port).symm]
  have hall := (heps.after [.create (svcChainName shortHash svc.metadata.name),
    .flush (svcChainName shortHash svc.metadata.name)]).append hroute
  rw [List.append_nil] at hall
  simpa [serviceCommands, hvip] using hall

end Rules

/-! ## Creation before use -/

section Created

variable {shortHash : String → String} {endpoints : List Endpoints} {known : String → Prop}

theorem endpointCommands_createdFirst (name : String) (n i : ℕ) (ep : EndpointAddress)
    (hmasq : known kubeMarkMasq) (hsvc : known (svcChainName shortHash name)) :
    CreatedFirst known (endpointCommands shortHash name n i ep) := by
  simp [endpointCommands, sepRules, svcRule, CreatedFirst, Command.needs, Target.chains, hmasq, hsvc]

theorem serviceCommands_createdFirst (svc : Service) (hservices : known kubeServices)
    (hmasq : known kubeMarkMasq) :
    CreatedFirst known (serviceCommands shortHash endpoints svc) := by
  unfold serviceCommands
  cases hvip : vipOf endpoints svc with
  | none => trivial
  | some clusterIP =>
    refine CreatedFirst.append (CreatedFirst.append ?_ (CreatedFirst.flatMap fun (ep, i) _ => ?_)) ?_
    · simp [CreatedFirst, Command.needs]
    · exact endpointCommands_createdFirst _ _ _ _ (.inl hmasq) (.inr List.mem_cons_self)
    · simp [CreatedFirst, Command.needs, Target.chains, servicesRule, hservices]

/-- **Each chain of a plan is created** before it is appended to or jumped to, but for the two that
were there before. -/
theorem planCommands_createdFirst (services : List Service) :
    CreatedFirst (fun c => c = kubeServices ∨ c = kubeMarkMasq)
      (planCommands shortHash services endpoints) := by
  refine ⟨fun c hc => .inl (List.mem_singleton.mp hc), CreatedFirst.flatMap fun svc _ => ?_⟩
  exact serviceCommands_createdFirst svc (.inl (.inl rfl)) (.inl (.inr rfl))

end Created

/-! ## The table after a plan -/

/-- A table as kube-proxy finds it: its base chains are there, and one of them only marks. -/
structure Based (t : NatTable) : Prop where
  services : (t kubeServices).isSome
  masq : (t kubeMarkMasq).isSome
  marks : ∀ r ∈ t.rules kubeMarkMasq, r.chance = none ∧ r.target = .mark

/-- kube-proxy sets its base chains up at each start. -/
theorem based_of_ensureBaseChains {t : NatTable}
    (hmarks : ∀ r ∈ t.rules kubeMarkMasq, r.chance = none ∧ r.target = .mark) :
    ∃ t', applyRules t ensureBaseChains = some t' ∧ Based t' := by
  let cmds : List NatCommand := [.create kubeServices, .create kubeMarkMasq,
    .append kubeMarkMasq ⟨.all, none, .mark⟩]
  have hread : ensureBaseChains.map readArgs = cmds.map some := rfl
  have hcreated : CreatedFirst (fun c => (t c).isSome) cmds := by
    simp [cmds, CreatedFirst, Command.needs, Target.chains]
  obtain ⟨t', happly⟩ := hcreated.apply
  refine ⟨t', (applyRules_eq_apply hread t).trans happly, ?_, ?_, ?_⟩
  · exact (Table.isSome_apply happly _).mpr (.inr List.mem_cons_self)
  · exact (Table.isSome_apply happly _).mpr (.inr (List.mem_cons_of_mem _ List.mem_cons_self))
  · intro r hr
    rw [Table.rules_apply happly] at hr
    rcases mem_of_mem_foldl_on hr with hr | hr
    · exact hmarks r hr
    · simp only [cmds, List.mem_cons, reduceCtorEq, Command.append.injEq, true_and,
        List.not_mem_nil, or_false, false_or] at hr
      simp [hr]

section Table

variable {shortHash : String → String} {services : List Service} {endpoints : List Endpoints}
  {t t' : NatTable} {svc : Service}

theorem Based.apply (h : Based t) (shortHash : String → String) (services : List Service)
    (endpoints : List Endpoints) :
    ∃ t', t.apply (planCommands shortHash services endpoints) = some t' := by
  refine ((planCommands_createdFirst services).mono fun c hc => ?_).apply
  rcases hc with rfl | rfl
  · exact h.services
  · exact h.masq

theorem rules_services (h : t.apply (planCommands shortHash services endpoints) = some t') :
    t'.rules kubeServices = services.filterMap (routeOf shortHash endpoints) := by
  have hroutes : Appends kubeServices
      (services.flatMap fun svc => (routeOf shortHash endpoints svc).toList)
      (services.flatMap (serviceCommands shortHash endpoints)) :=
    Appends.flatMap fun svc _ => serviceCommands_appends_route svc
  rw [Table.rules_apply h, planCommands, hroutes.rebuilds, List.filterMap_eq_flatMap_toList]

theorem rules_masq (h : t.apply (planCommands shortHash services endpoints) = some t') :
    t'.rules kubeMarkMasq = t.rules kubeMarkMasq := by
  have hne : kubeMarkMasq ≠ kubeServices := by decide
  have hnone : Appends kubeMarkMasq [] (services.flatMap (serviceCommands shortHash endpoints)) := by
    refine Appends.flatMap_nil fun svc _ => serviceCommands_appends hne fun k _ => ?_
    cases k with
    | svc name => exact svcChainName_ne_masq _ name
    | sep name ip port => exact sepChainName_ne_masq _ name ip port
  have hflush : Appends kubeMarkMasq [] [(.flush kubeServices : NatCommand)] :=
    appends_nil fun cmd hcmd => by
      rw [List.mem_singleton.mp hcmd]
      simp [Command.changes, hne.symm]
  rw [Table.rules_apply h]
  exact (hflush.append hnone (t.rules kubeMarkMasq)).trans (List.append_nil _)

theorem Based.after (h : Based t) (happly : t.apply (planCommands shortHash services endpoints) = some t') :
    Based t' where
  services := (Table.isSome_apply happly kubeServices).mpr (.inl h.services)
  masq := (Table.isSome_apply happly kubeMarkMasq).mpr (.inl h.masq)
  marks := by
    rw [rules_masq happly]
    exact h.marks

variable (hchains : Set.InjOn (chainName shortHash) {k | k ∈ chainKeys services endpoints})
include hchains

theorem rules_svc (h : t.apply (planCommands shortHash services endpoints) = some t')
    (hsvc : svc ∈ services) (hvip : (vipOf endpoints svc).isSome) :
    t'.rules (svcChainName shortHash svc.metadata.name) =
      svcRules shortHash svc.metadata.name (addrsOf endpoints svc) := by
  have hkey : ∀ s ∈ services, (vipOf endpoints s).isSome →
      .svc s.metadata.name ∈ chainKeys services endpoints := fun s hs hvip =>
    List.mem_flatMap.mpr ⟨s, hs, by simp [serviceKeys, hvip]⟩
  have hall : Rebuilds (svcChainName shortHash svc.metadata.name)
      (svcRules shortHash svc.metadata.name (addrsOf endpoints svc))
      (services.flatMap (serviceCommands shortHash endpoints)) := by
    refine Rebuilds.flatMap (fun s hs => ?_) ⟨svc, hsvc, serviceCommands_rebuilds_svc hvip⟩
    by_cases hs' : (vipOf endpoints s).isSome ∧ s.metadata.name = svc.metadata.name
    · -- a service of the same name has the same endpoints
      have haddrs : addrsOf endpoints s = addrsOf endpoints svc := by
        unfold addrsOf
        rw [hs'.2]
      refine .inr ?_
      rw [← hs'.2, ← haddrs]
      exact serviceCommands_rebuilds_svc hs'.1
    · refine .inl (serviceCommands_appends (svcChainName_ne_services _ _) fun k hk heq => ?_)
      have hvip' : (vipOf endpoints s).isSome := by
        by_contra hnone
        simp [serviceKeys, hnone] at hk
      have hk' : k = .svc svc.metadata.name :=
        hchains (List.mem_flatMap.mpr ⟨s, hs, hk⟩) (hkey svc hsvc hvip) heq
      simp only [serviceKeys, hvip', ↓reduceIte, hk', List.mem_cons, ChainKey.svc.injEq,
        List.mem_map, reduceCtorEq, and_false, exists_false, or_false] at hk
      exact hs' ⟨hvip', hk.symm⟩
  rw [Table.rules_apply h]
  exact hall.after [_] (t.rules _)

theorem rules_sep (h : t.apply (planCommands shortHash services endpoints) = some t')
    (hsvc : svc ∈ services) (hvip : (vipOf endpoints svc).isSome) {ep : EndpointAddress}
    (hep : ep ∈ addrsOf endpoints svc) :
    t'.rules (sepChainName shortHash svc.metadata.name ep.ip ep.port) = sepRules ep := by
  have hkey : ∀ s ∈ services, (vipOf endpoints s).isSome → ∀ ep ∈ addrsOf endpoints s,
      .sep s.metadata.name ep.ip ep.port ∈ chainKeys services endpoints := fun s hs hvip ep hep =>
    List.mem_flatMap.mpr ⟨s, hs, by
      simp only [serviceKeys, hvip, ↓reduceIte]
      exact List.mem_cons_of_mem _ (List.mem_map.mpr ⟨ep, hep, rfl⟩)⟩
  have hmine := hkey svc hsvc hvip ep hep
  have hone : ∀ s ∈ services, (vipOf endpoints s).isSome → ∀ ep' ∈ addrsOf endpoints s,
      sepChainName shortHash s.metadata.name ep'.ip ep'.port =
        sepChainName shortHash svc.metadata.name ep.ip ep.port →
      s.metadata.name = svc.metadata.name ∧ ep' = ep := by
    intro s hs hvip' ep' hep' heq
    have hk := ChainKey.sep.inj (hchains (hkey s hs hvip' ep' hep') hmine heq)
    obtain ⟨ip, port⟩ := ep'
    obtain ⟨hname, rfl, rfl⟩ := hk
    exact ⟨hname, rfl⟩
  have hall : Rebuilds (sepChainName shortHash svc.metadata.name ep.ip ep.port) (sepRules ep)
      (services.flatMap (serviceCommands shortHash endpoints)) := by
    refine Rebuilds.flatMap (fun s hs => ?_) ⟨svc, hsvc, serviceCommands_rebuilds_sep hvip hep
      fun ep' hep' heq => (hone svc hsvc hvip ep' hep' heq).2⟩
    by_cases hs' : .sep svc.metadata.name ep.ip ep.port ∈ serviceKeys endpoints s
    · have hvip' : (vipOf endpoints s).isSome := by
        by_contra hnone
        simp [serviceKeys, hnone] at hs'
      simp only [serviceKeys, hvip', ↓reduceIte, List.mem_cons, reduceCtorEq, List.mem_map,
        ChainKey.sep.injEq, false_or] at hs'
      obtain ⟨ep', hep', hname, hip, hport⟩ := hs'
      obtain ⟨-, rfl⟩ := hone s hs hvip' ep' hep' (by rw [hname, hip, hport])
      refine .inr ?_
      rw [← hname]
      exact serviceCommands_rebuilds_sep hvip' hep' fun ep'' hep'' heq =>
        (hone s hs hvip' ep'' hep'' (by rw [heq, hname])).2
    · refine .inl (serviceCommands_appends (sepChainName_ne_services _ _ _ _) fun k hk heq => hs' ?_)
      have hk' : k = .sep svc.metadata.name ep.ip ep.port :=
        hchains (List.mem_flatMap.mpr ⟨s, hs, hk⟩) hmine heq
      exact hk' ▸ hk
  rw [Table.rules_apply h]
  exact hall.after [_] (t.rules _)

end Table

/-! ## Walks -/

section Walks

variable {p : Packet} {chain : String → Outcomes String}

/-- The declining chances give each of the endpoints that are left the same share. -/
theorem walkRules_svcRules {shortHash : String → String} {name : String} {n : ℕ}
    (addrs : List EndpointAddress) (i : ℕ) (hn : i + addrs.length = n) (hne : addrs ≠ [])
    (hchain : ∀ ep ∈ addrs, chain (sepChainName shortHash name ep.ip ep.port) =
      [(1, some (destination ep))]) :
    walkRules Match.holds p chain ((addrs.zipIdx i).map fun (ep, i) => svcRule shortHash name n i ep) =
      addrs.map fun ep => ((1 : ℚ) / (n - i : ℕ), some (destination ep)) := by
  induction addrs generalizing i with
  | nil => exact absurd rfl hne
  | cons ep rest ih =>
    have hep := hchain ep List.mem_cons_self
    simp only [List.length_cons] at hn
    rw [List.zipIdx_cons, List.map_cons]
    cases rest with
    | nil =>
      simp only [List.length_nil] at hn
      have hlast : ¬ i < n - 1 := by omega
      have hleft : n - i = 1 := by omega
      simp [walkRules, svcRule, hlast, hleft, hep, Outcomes.andThen]
    | cons ep' rest =>
      simp only [List.length_cons] at hn
      have hchance : i < n - 1 := by omega
      have hrest := ih (i + 1) (by simp only [List.length_cons]; omega) (List.cons_ne_nil _ _)
        fun e he => hchain e (List.mem_cons_of_mem ep he)
      have hshare : (1 - 1 / (n - i : ℕ) : ℚ) * (1 / (n - (i + 1) : ℕ)) = 1 / (n - i : ℕ) := by
        obtain ⟨k, hk⟩ : ∃ k, n - i = k + 2 := ⟨n - i - 2, by omega⟩
        have hk' : n - (i + 1) = k + 1 := by omega
        rw [hk, hk']
        push_cast
        field_simp
        ring
      have hhead : walkRules Match.holds p chain
          (svcRule shortHash name n i ep ::
            ((ep' :: rest).zipIdx (i + 1)).map fun (ep, i) => svcRule shortHash name n i ep) =
          (Outcomes.andThen [(1, some (destination ep))] (walkRules Match.holds p chain
            (((ep' :: rest).zipIdx (i + 1)).map fun (ep, i) => svcRule shortHash name n i ep))).scale
              (1 / (n - i : ℕ)) ++
          (walkRules Match.holds p chain
            (((ep' :: rest).zipIdx (i + 1)).map fun (ep, i) => svcRule shortHash name n i ep)).scale
              (1 - 1 / (n - i : ℕ)) := by
        simp only [walkRules, svcRule, hchance, ↓reduceIte, Match.all_holds, hep]
      rw [hhead, hrest]
      simp only [Outcomes.andThen, Outcomes.scale, List.flatMap_cons, List.flatMap_nil,
        List.append_nil, List.map_cons, List.map_nil, List.map_map, List.singleton_append, mul_one,
        hshare, Function.comp_def]

theorem walkRules_sepRules (ep : EndpointAddress) (hp : p.protocol = "tcp")
    (hmasq : chain kubeMarkMasq = [(1, none)]) :
    walkRules Match.holds p chain (sepRules ep) = [(1, some (destination ep))] := by
  simp [walkRules, sepRules, hmasq, Match.holds, Match.all, hp]

end Walks

/-! ## Balancing -/

/-- Where a service is reached, if it has an address. -/
def vip (svc : Service) : Option (String × UInt16) := svc.spec.clusterIP.map (·, svc.spec.port)

/-- A packet for a service that has endpoints. -/
structure Routed (endpoints : List Endpoints) (svc : Service) (p : Packet) : Prop where
  vip : vip svc = some (p.dst, p.dport)
  protocol : p.protocol = "tcp"
  backed : addrsOf endpoints svc ≠ []

section Balance

variable {shortHash : String → String} {services : List Service} {endpoints : List Endpoints}
  {t t' : NatTable} {svc : Service} {p : Packet}

theorem Routed.vipOf_eq (h : Routed endpoints svc p) : vipOf endpoints svc = some p.dst := by
  obtain ⟨hvip, -, hbacked⟩ := h
  obtain ⟨ip, hip, heq⟩ := Option.map_eq_some_iff.mp hvip
  have hdst : ip = p.dst := congrArg Prod.fst heq
  simp [vipOf, hbacked, hip, hdst]

theorem Routed.port (h : Routed endpoints svc p) : svc.spec.port = p.dport := by
  obtain ⟨ip, -, heq⟩ := Option.map_eq_some_iff.mp h.vip
  exact congrArg Prod.snd heq

/-- The rule of a service is for the packets that are routed to it. -/
theorem routed_of_holds {r : NatRule} (hr : routeOf shortHash endpoints svc = some r)
    (hholds : r.guard.holds p = true) : Routed endpoints svc p := by
  obtain ⟨ip, hip, rfl⟩ := Option.map_eq_some_iff.mp hr
  simp only [servicesRule, Match.holds, Option.all_some, Bool.and_eq_true, beq_iff_eq] at hholds
  obtain ⟨⟨hdst, hproto⟩, hport⟩ := hholds
  unfold vipOf at hip
  split at hip
  · cases hip
  · rename_i hbacked
    exact ⟨by simp [vip, hip, hdst, hport], hproto.symm, by simpa using hbacked⟩

/-! Where a walk comes to: first the endpoint's chain, then the service's, then `KUBE-SERVICES`. -/

theorem walk_masq (ht : Based t) (depth : ℕ) :
    walk Match.holds p t (depth + 1) kubeMarkMasq = [(1, none)] :=
  walkRules_marks ht.marks

theorem walk_sep (ht : Based t) (depth : ℕ) {chain : String} {ep : EndpointAddress}
    (hrules : t.rules chain = sepRules ep) (hp : p.protocol = "tcp") :
    walk Match.holds p t (depth + 2) chain = [(1, some (destination ep))] := by
  change walkRules Match.holds p (walk Match.holds p t (depth + 1)) (t.rules chain) = _
  rw [hrules]
  exact walkRules_sepRules ep hp (walk_masq ht depth)

/-- The share of each endpoint. -/
def shares (addrs : List EndpointAddress) : Outcomes String :=
  addrs.map fun ep => (1 / addrs.length, some (destination ep))

theorem shares_decided {addrs : List EndpointAddress} : ∀ o ∈ shares addrs, o.2.isSome := by
  intro o ho
  obtain ⟨ep, -, rfl⟩ := List.mem_map.mp ho
  rfl

theorem walk_svc (ht : Based t) (depth : ℕ) {name : String} {addrs : List EndpointAddress}
    (hrules : t.rules (svcChainName shortHash name) = svcRules shortHash name addrs)
    (hsep : ∀ ep ∈ addrs, t.rules (sepChainName shortHash name ep.ip ep.port) = sepRules ep)
    (hp : p.protocol = "tcp") (hne : addrs ≠ []) :
    walk Match.holds p t (depth + 3) (svcChainName shortHash name) = shares addrs := by
  change walkRules Match.holds p (walk Match.holds p t (depth + 2)) (t.rules _) = _
  rw [hrules]
  exact walkRules_svcRules addrs 0 (Nat.zero_add _) hne fun ep hep =>
    walk_sep ht depth (hsep ep hep) hp

/-- The services before it have other addresses, and its own chain decides. -/
theorem walk_routed (happly : t.apply (planCommands shortHash services endpoints) = some t')
    (hvips : services.Pairwise fun s s' => ∀ v, vip s = some v → vip s' ≠ some v)
    (hsvc : svc ∈ services) (hrouted : Routed endpoints svc p) {depth : ℕ}
    {addrs : List EndpointAddress}
    (hchain : walk Match.holds p t' depth (svcChainName shortHash svc.metadata.name) = shares addrs) :
    walk Match.holds p t' (depth + 1) kubeServices = shares addrs := by
  obtain ⟨before, after, rfl⟩ := List.append_of_mem hsvc
  have hroute : routeOf shortHash endpoints svc = some (servicesRule shortHash p.dst svc) := by
    simp [routeOf, hrouted.vipOf_eq]
  have hbefore : ∀ r ∈ before.filterMap (routeOf shortHash endpoints),
      r.guard.holds p = false := by
    intro r hr
    obtain ⟨s, hs, hrs⟩ := List.mem_filterMap.mp hr
    by_contra hholds
    have hrouted' := routed_of_holds hrs (Bool.not_eq_false _ ▸ hholds)
    exact (List.pairwise_append.mp hvips).2.2 s hs svc List.mem_cons_self _ hrouted'.vip hrouted.vip
  have hholds : (servicesRule shortHash p.dst svc).guard.holds p = true := by
    simp [servicesRule, Match.holds, hrouted.protocol, hrouted.port]
  change walkRules Match.holds p (walk Match.holds p t' depth) (t'.rules kubeServices) = _
  rw [rules_services happly, List.filterMap_append, List.filterMap_cons_some hroute,
    walkRules_append_jump hbefore hholds rfl rfl, hchain, Outcomes.andThen_of_decided shares_decided]

theorem walk_unrouted (happly : t.apply (planCommands shortHash services endpoints) = some t')
    (hnone : ∀ svc ∈ services, ¬ Routed endpoints svc p) (depth : ℕ) :
    walk Match.holds p t' (depth + 1) kubeServices = [(1, none)] := by
  change walkRules Match.holds p (walk Match.holds p t' depth) (t'.rules kubeServices) = _
  rw [rules_services happly]
  refine walkRules_of_forall_not fun r hr => ?_
  obtain ⟨s, hs, hrs⟩ := List.mem_filterMap.mp hr
  by_contra hholds
  exact hnone s hs (routed_of_holds hrs (Bool.not_eq_false _ ▸ hholds))

/-- What packets find after a plan. -/
theorem walk_applied {shortHash : String → String} {services : List Service} {endpoints : List Endpoints}
    {t t' : NatTable} (ht : Based t)
    (hvips : services.Pairwise fun s s' => ∀ v, vip s = some v → vip s' ≠ some v)
    (hchains : Set.InjOn (chainName shortHash) {k | k ∈ chainKeys services endpoints})
    (happly : t.apply (planCommands shortHash services endpoints) = some t') (p : Packet) (depth : ℕ) :
    (∀ svc ∈ services, Routed endpoints svc p →
      walk Match.holds p t' (depth + 4) kubeServices = (addrsOf endpoints svc).map fun ep =>
        ((1 : ℚ) / (addrsOf endpoints svc).length, some (destination ep))) ∧
    ((∀ svc ∈ services, ¬ Routed endpoints svc p) →
      walk Match.holds p t' (depth + 4) kubeServices = [(1, none)]) := by
  refine ⟨fun svc hsvc hrouted => ?_, fun hnone => walk_unrouted happly hnone (depth + 3)⟩
  have hvip : (vipOf endpoints svc).isSome := by simp [hrouted.vipOf_eq]
  have hchain := walk_svc (ht.after happly) depth (rules_svc hchains happly hsvc hvip)
    (fun ep hep => rules_sep hchains happly hsvc hvip hep) hrouted.protocol hrouted.backed
  exact walk_routed happly hvips hsvc hrouted hchain

/-- **Uniform balancing.** After a plan a packet for a service with endpoints goes to each of them with
the same chance, and no other packet is sent elsewhere. -/
theorem planRules_balances (shortHash : String → String) (services : List Service)
    (endpoints : List Endpoints) (t : NatTable) (ht : Based t)
    (hvips : services.Pairwise fun s s' => ∀ v, vip s = some v → vip s' ≠ some v)
    (hchains : Set.InjOn (chainName shortHash) {k | k ∈ chainKeys services endpoints}) :
    ∃ t', applyRules t (planRules shortHash services endpoints) = some t' ∧ ∀ (p : Packet) (depth : ℕ),
      (∀ svc ∈ services, Routed endpoints svc p →
        walk Match.holds p t' (depth + 4) kubeServices = (addrsOf endpoints svc).map fun ep =>
          ((1 : ℚ) / (addrsOf endpoints svc).length, some (destination ep))) ∧
      ((∀ svc ∈ services, ¬ Routed endpoints svc p) →
        walk Match.holds p t' (depth + 4) kubeServices = [(1, none)]) := by
  obtain ⟨t', happly⟩ := ht.apply shortHash services endpoints
  exact ⟨t', (applyRules_planRules services endpoints t).trans happly, walk_applied ht hvips hchains happly⟩

/-- It is enough that `short_hash` has no collision, and that no address has a slash. -/
theorem planRules_balances_of_shortHash (shortHash : String → String) (services : List Service)
    (endpoints : List Endpoints) (t : NatTable) (ht : Based t)
    (hvips : services.Pairwise fun s s' => ∀ v, vip s = some v → vip s' ≠ some v)
    (hhash : Set.InjOn shortHash {s | ∃ k ∈ chainKeys services endpoints, hashed k = s})
    (hips : ∀ svc ip port, .sep svc ip port ∈ chainKeys services endpoints → '/' ∉ ip.toList) :
    ∃ t', applyRules t (planRules shortHash services endpoints) = some t' ∧ ∀ (p : Packet) (depth : ℕ),
      (∀ svc ∈ services, Routed endpoints svc p →
        walk Match.holds p t' (depth + 4) kubeServices = (addrsOf endpoints svc).map fun ep =>
          ((1 : ℚ) / (addrsOf endpoints svc).length, some (destination ep))) ∧
      ((∀ svc ∈ services, ¬ Routed endpoints svc p) →
        walk Match.holds p t' (depth + 4) kubeServices = [(1, none)]) := by
  obtain ⟨t', happly⟩ := ht.apply shortHash services endpoints
  refine ⟨t', (applyRules_planRules services endpoints t).trans happly, ?_⟩
  exact walk_applied ht hvips (chainName_injOn hhash hips) happly

def webService : Service where
  apiVersion := "v1"
  kind := "Service"
  metadata := ⟨"web", none, none, none, none, ∅, []⟩
  spec := ⟨∅, 80, 8080, some "10.96.0.1"⟩

def webEndpoints : Endpoints where
  apiVersion := "v1"
  kind := "Endpoints"
  metadata := ⟨"web", none, none, none, none, ∅, []⟩
  addresses := [⟨"10.244.0.2", 8080⟩, ⟨"10.244.0.3", 8080⟩, ⟨"10.244.0.4", 8080⟩]

/-- The hashes of the texts of this service. -/
def webHash (s : String) : String :=
  if s = "web" then "2D558CDC9CACB3DD"
  else if s = "web/10.244.0.2:8080" then "50A4ABF6971FE3A8"
  else if s = "web/10.244.0.3:8080" then "D9C850D998C203C3"
  else if s = "web/10.244.0.4:8080" then "444631CFF40704D0"
  else s

theorem planRules_balances_web : ∃ t t', Based t ∧
    applyRules t (planRules webHash [webService] [webEndpoints]) = some t' ∧
    walk Match.holds ⟨"10.96.0.1", "tcp", 80⟩ t' 4 kubeServices =
      [(1 / 3, some "10.244.0.2:8080"), (1 / 3, some "10.244.0.3:8080"),
       (1 / 3, some "10.244.0.4:8080")] ∧
    walk Match.holds ⟨"10.96.0.1", "tcp", 443⟩ t' 4 kubeServices = [(1, none)] := by
  obtain ⟨t, -, ht⟩ := based_of_ensureBaseChains (t := fun _ => none) (by simp [Table.rules])
  have hinj : Set.InjOn (chainName webHash) {k | k ∈ chainKeys [webService] [webEndpoints]} := by
    have hall : ∀ k ∈ chainKeys [webService] [webEndpoints],
        ∀ k' ∈ chainKeys [webService] [webEndpoints],
          chainName webHash k = chainName webHash k' → k = k' := by decide +kernel
    exact fun k hk k' hk' heq => hall k hk k' hk' heq
  obtain ⟨t', happly, hwalk⟩ := planRules_balances webHash [webService] [webEndpoints] t ht
    (List.pairwise_singleton _ _) hinj
  have hrouted : Routed [webEndpoints] webService ⟨"10.96.0.1", "tcp", 80⟩ :=
    ⟨by decide, rfl, by decide⟩
  refine ⟨t, t', ht, happly, ?_, (hwalk _ 0).2 fun svc hsvc hrouted' => ?_⟩
  · rw [(hwalk _ 0).1 webService List.mem_cons_self hrouted]
    rfl
  · obtain rfl := List.mem_singleton.mp hsvc
    exact absurd hrouted'.vip (by decide)

end Balance

end MyK8s.KubeProxy
