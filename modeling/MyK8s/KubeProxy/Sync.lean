import Mathlib
import MyK8s.KubeProxy.Balance

/-!
# Syncs

Each sync of kube-proxy writes all of its rules anew, and chains of services and endpoints that are
gone stay in the table. What packets can reach after a sync is what its plan says: all chains that the
plan creates it also flushes, and no rule of the plan jumps elsewhere (`sync_forgets`).
-/

namespace MyK8s.KubeProxy

open Chains

/-- A sync, with the services and the endpoints that the API server listed. -/
def sync (shortHash : String → String) (t : NatTable) (listed : List Service × List Endpoints) :
    Option NatTable :=
  applyRules t (planRules shortHash listed.1 listed.2)

/-- One sync after the other, as long as they succeed. -/
def syncAll (shortHash : String → String) (t : NatTable) (past : List (List Service × List Endpoints)) :
    Option NatTable :=
  past.foldlM (sync shortHash) t

section Sync

variable {shortHash : String → String} {services : List Service} {endpoints : List Endpoints}
  {t t' u u' : NatTable}

theorem Based.sync (h : Based t) (shortHash : String → String)
    (listed : List Service × List Endpoints) :
    ∃ u, sync shortHash t listed = some u ∧ Based u ∧ u.rules kubeMarkMasq = t.rules kubeMarkMasq := by
  obtain ⟨u, happly⟩ := h.apply shortHash listed.1 listed.2
  exact ⟨u, (applyRules_planRules _ _ t).trans happly, h.after happly, rules_masq happly⟩

/-- Syncs keep the base chains. -/
theorem Based.syncAll (h : Based t) (shortHash : String → String)
    (past : List (List Service × List Endpoints)) :
    ∃ u, syncAll shortHash t past = some u ∧ Based u ∧
      u.rules kubeMarkMasq = t.rules kubeMarkMasq := by
  induction past generalizing t with
  | nil => exact ⟨t, rfl, h, rfl⟩
  | cons listed past ih =>
    obtain ⟨v, hv, hbased, hmasq⟩ := h.sync shortHash listed
    obtain ⟨u, hu, hbased', hmasq'⟩ := ih hbased
    exact ⟨u, Option.bind_eq_some_iff.mpr ⟨v, hv, hu⟩, hbased', hmasq'.trans hmasq⟩

/-- What a plan creates it flushes. -/
theorem flush_of_create {c : String} (h : .create c ∈ planCommands shortHash services endpoints) :
    .flush c ∈ planCommands shortHash services endpoints := by
  obtain ⟨svc, hsvc, hc⟩ := List.mem_flatMap.mp ((List.mem_cons.mp h).resolve_left (by simp))
  refine List.mem_cons_of_mem _ (List.mem_flatMap.mpr ⟨svc, hsvc, ?_⟩)
  unfold serviceCommands at hc ⊢
  cases hvip : vipOf endpoints svc with
  | none => simp [hvip] at hc
  | some clusterIP =>
    simp only [hvip, endpointCommands, sepRules, List.mem_append, List.mem_cons, List.mem_flatMap,
      List.map_cons, List.map_nil, reduceCtorEq, Command.create.injEq,
      Command.flush.injEq, List.not_mem_nil, or_false, false_or] at hc ⊢
    exact hc

/-- The chains that are the plan's own, with the base chains. -/
def Planned (shortHash : String → String) (services : List Service) (endpoints : List Endpoints)
    (c : String) : Prop :=
  (c = kubeServices ∨ c = kubeMarkMasq) ∨ .create c ∈ planCommands shortHash services endpoints

theorem Planned.isSome {c : String} (hc : Planned shortHash services endpoints c) (h : Based t)
    (happly : t.apply (planCommands shortHash services endpoints) = some u) : (u c).isSome := by
  refine (Table.isSome_apply happly c).mpr ?_
  rcases hc with (rfl | rfl) | hc
  · exact .inl h.services
  · exact .inl h.masq
  · exact .inr hc

/-- All of the plan's chains but one are flushed. -/
theorem Planned.flush {c : String} (hc : Planned shortHash services endpoints c)
    (hne : c ≠ kubeMarkMasq) : .flush c ∈ planCommands shortHash services endpoints := by
  rcases hc with (rfl | rfl) | hc
  · exact List.mem_cons_self
  · exact absurd rfl hne
  · exact flush_of_create hc

/-- **The plan decides its chains**, whatever the table was. -/
theorem Planned.apply_eq {c : String} (hc : Planned shortHash services endpoints c) (h : Based t)
    (h' : Based t') (hmasq : t.rules kubeMarkMasq = t'.rules kubeMarkMasq)
    (happly : t.apply (planCommands shortHash services endpoints) = some u)
    (happly' : t'.apply (planCommands shortHash services endpoints) = some u') : u c = u' c := by
  have hrules : u.rules c = u'.rules c := by
    by_cases hne : c = kubeMarkMasq
    · rw [hne, rules_masq happly, rules_masq happly', hmasq]
    · rw [Table.rules_apply happly, Table.rules_apply happly']
      exact foldl_on_of_flush (hc.flush hne) _ _
  obtain ⟨rs, hrs⟩ := Option.isSome_iff_exists.mp (hc.isSome h happly)
  obtain ⟨rs', hrs'⟩ := Option.isSome_iff_exists.mp (hc.isSome h' happly')
  rw [Table.rules, Table.rules, hrs, hrs'] at hrules
  rw [hrs, hrs']
  exact congrArg some hrules

/-- No rule of the plan's chains jumps to another chain. -/
theorem Planned.jump {c d : String} {r : NatRule} (hc : Planned shortHash services endpoints c)
    (h : Based t) (happly : t.apply (planCommands shortHash services endpoints) = some u)
    (hr : r ∈ u.rules c) (hd : r.target = .jump d) : Planned shortHash services endpoints d := by
  by_cases hne : c = kubeMarkMasq
  · have hmark := ((h.after happly).marks r (hne ▸ hr)).2
    rw [hd] at hmark
    cases hmark
  · -- the chain is flushed, so the rule is one that the plan appends
    rw [Table.rules_apply happly, foldl_on_of_flush (hc.flush hne) _ []] at hr
    have happend := (mem_of_mem_foldl_on hr).resolve_left List.not_mem_nil
    exact (planCommands_createdFirst services).of_append happend
      (by rw [hd]; exact List.mem_singleton_self d)

theorem sameReach_apply (h : Based t) (h' : Based t')
    (hmasq : t.rules kubeMarkMasq = t'.rules kubeMarkMasq)
    (happly : t.apply (planCommands shortHash services endpoints) = some u)
    (happly' : t'.apply (planCommands shortHash services endpoints) = some u') :
    SameReach u u' kubeServices :=
  sameReach_of_closed (S := Planned shortHash services endpoints) (.inl (.inl rfl))
    (fun _ hc => hc.apply_eq h h' hmasq happly happly') fun _ hc _ hr _ hd => hc.jump h happly hr hd

/-- **Syncs forget the past.** After any two histories of syncs the same lists leave the same part of
the table in reach, each chain is created before a rule needs it, and a further sync changes nothing
in reach. -/
theorem sync_forgets (shortHash : String → String) (t₀ t₀' : NatTable) (h : Based t₀) (h' : Based t₀')
    (hmasq : t₀.rules kubeMarkMasq = t₀'.rules kubeMarkMasq)
    (past past' : List (List Service × List Endpoints)) (services : List Service)
    (endpoints : List Endpoints) :
    ∃ t t' u u' v, syncAll shortHash t₀ past = some t ∧ syncAll shortHash t₀' past' = some t' ∧
      sync shortHash t (services, endpoints) = some u ∧
      sync shortHash t' (services, endpoints) = some u' ∧ SameReach u u' kubeServices ∧
      sync shortHash u (services, endpoints) = some v ∧ SameReach u v kubeServices ∧
      ∃ cmds, (planRules shortHash services endpoints).map readArgs = cmds.map some ∧
        CreatedFirst (fun c => c = kubeServices ∨ c = kubeMarkMasq) cmds := by
  obtain ⟨t, ht, hbased, hm⟩ := h.syncAll shortHash past
  obtain ⟨t', ht', hbased', hm'⟩ := h'.syncAll shortHash past'
  obtain ⟨u, hu⟩ := hbased.apply shortHash services endpoints
  obtain ⟨u', hu'⟩ := hbased'.apply shortHash services endpoints
  obtain ⟨v, hv⟩ := (hbased.after hu).apply shortHash services endpoints
  have hsync : ∀ {t u}, t.apply (planCommands shortHash services endpoints) = some u →
      sync shortHash t (services, endpoints) = some u := fun happly =>
    (applyRules_planRules services endpoints _).trans happly
  have hsame := sameReach_apply hbased hbased' (by rw [hm, hm', hmasq]) hu hu'
  have hagain := sameReach_apply hbased (hbased.after hu) (rules_masq hu).symm hu hv
  exact ⟨t, t', u, u', v, ht, ht', hsync hu, hsync hu', hsame, hsync hv, hagain,
    _, read_planRules services endpoints, planCommands_createdFirst services⟩

/-- The endpoints have lost a backend since the last sync. -/
theorem sync_forgets_web : ∃ t₀ t u u', Based t₀ ∧
    syncAll webHash t₀ [([webService], [webEndpoints])] = some t ∧
    sync webHash t ([webService], [{ webEndpoints with addresses := [⟨"10.244.0.2", 8080⟩] }]) =
      some u ∧
    sync webHash t₀ ([webService], [{ webEndpoints with addresses := [⟨"10.244.0.2", 8080⟩] }]) =
      some u' ∧ SameReach u u' kubeServices := by
  obtain ⟨t₀, -, h⟩ := based_of_ensureBaseChains (t := fun _ => none) (by simp [Table.rules])
  obtain ⟨t, t', u, u', v, ht, ht', hu, hu', hsame, -⟩ := sync_forgets webHash t₀ t₀ h h rfl
    [([webService], [webEndpoints])] [] [webService]
    [{ webEndpoints with addresses := [⟨"10.244.0.2", 8080⟩] }]
  obtain rfl := Option.some.inj ht'
  exact ⟨t₀, t, u, u', h, ht, hu, hu', hsame⟩

end Sync

end MyK8s.KubeProxy
