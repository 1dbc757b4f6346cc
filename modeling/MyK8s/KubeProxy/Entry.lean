import MyK8s.KubeProxy.Proxy

/-!
# The way in

Packets come to kube-proxy's chains from PREROUTING and OUTPUT, where `ensure_base_chains` appends a jump at each
start. Once a start has gone through, and as long as others leave that rule, packets for services go to their
endpoints and all others go as if kube-proxy were not there (`packets_enter`). To the others kube-proxy is not there
but for its hooks (`others_undisturbed`).
-/

namespace MyK8s.KubeProxy

open ApiServer
open Chains
open Process (Proc)

namespace Proxy

/-- The others leave kube-proxy's rules in their chains. -/
def LeavesHooks (p : Proxy) : ProxyAct → Prop
  | .tamper net => KeepsHooks p.world ⟨p.manager.db, p.net.tampered net⟩
  | _ => True

/-- `ensure_base_chains` has returned without an error. -/
def setUpDone (p : Proxy) : Bool :=
  match p.job with
  | some (.setUp, .ret (.ok ())) => true
  | _ => false

theorem setUpDone_iff {p : Proxy} : p.setUpDone = true ↔ p.job = some (.setUp, .ret (.ok ())) := by
  unfold setUpDone
  constructor
  · intro h
    split at h
    · assumption
    · cases h
  · intro h
    rw [h]

/-- The base chains are being set up, and kube-proxy is hooked in if that goes through. -/
def SetsUp (p : Proxy) : Prop := ∀ job, p.job = some (.setUp, job) →
  Proc.under calls KeepsHooks (fun w r => ∀ a, r = .ok a → Hooked w.net) job p.world

section Steps

variable {shortHash : String → String} {p p' : Proxy} {act : ProxyAct}

theorem leavesHooks_of_ne (h : ∀ net, act ≠ .tamper net) : LeavesHooks p act := by
  cases act with
  | tamper net => exact absurd rfl (h net)
  | _ => trivial

theorem keepsHooks_step (hp : p.Sound) (hact : LeavesHooks p act) :
    KeepsHooks p.world (p.step shortHash act).world := by
  by_cases htamper : ∃ net, act = .tamper net
  · obtain ⟨net, rfl⟩ := htamper
    exact hact
  · exact Grown.keepsHooks ((hp.step act).2 fun net heq => htamper ⟨net, heq⟩)

theorem setsUp_start (db : Db) (net : Netfilter) : (start db net).SetsUp := by
  intro job hjob
  cases Option.some.inj hjob
  exact establishes_ensureBaseChains

theorem SetsUp.congr (h : p.SetsUp) (hjob : p'.job = p.job) (hkeeps : KeepsHooks p.world p'.world) : p'.SetsUp :=
  fun job hset => Proc.under_rely (h job (hjob ▸ hset)) hkeeps

theorem setsUp_of_ne (h : ∀ job, p.job ≠ some (.setUp, job)) : p.SetsUp := fun job hset => absurd hset (h job)

theorem job_inform (p : Proxy) (mact : Controller.ManagerAct Feed) : (p.inform mact).job = p.job := by
  unfold inform
  split <;> rfl

theorem keepsHooks_refl (w : World) : KeepsHooks w w := refl w

theorem SetsUp.step (h : p.SetsUp) (hp : p.Sound) (hact : LeavesHooks p act) : (p.step shortHash act).SetsUp := by
  have hkeeps : KeepsHooks p.world (p.step shortHash act).world := keepsHooks_step hp hact
  cases act with
  | write w => exact h.congr rfl hkeeps
  | tamper net => exact h.congr rfl hkeeps
  | connect i => exact h.congr (job_inform p _) hkeeps
  | poll i => exact h.congr (job_inform p _) hkeeps
  | disconnect i => exact h.congr (job_inform p _) hkeeps
  | handle i => exact h.congr (job_inform p _) hkeeps
  | resync => exact h.congr (job_inform p _) hkeeps
  | fire n => exact h.congr (job_inform p _) hkeeps
  | get =>
    simp only [Proxy.step]
    split
    · exact setsUp_of_ne fun job hset => by cases Option.some.inj hset
    · exact h
  | access =>
    simp only [Proxy.step]
    split
    · rename_i stage next hjob
      intro job hset
      cases Option.some.inj hset
      exact h _ hjob p.world (keepsHooks_refl _)
    · rename_i stage argv next hjob
      intro job hset
      cases Option.some.inj hset
      have hdone := (h _ hjob p.world (keepsHooks_refl _)).1 fun hignored => hignored
      show Proc.under calls KeepsHooks _ _ ⟨p.manager.db, (p.world.exec argv).2.net⟩
      rw [world_exec]
      exact hdone
    · exact h
  | fail e done =>
    simp only [Proxy.step]
    split
    · rename_i stage argv next hjob
      intro job hset
      cases Option.some.inj hset
      obtain ⟨hno, hdone⟩ := (h _ hjob p.world (keepsHooks_refl _)).2 e
      cases done with
      | true =>
        show Proc.under calls KeepsHooks _ _ ⟨p.manager.db, (p.world.exec argv).2.net⟩
        rw [world_exec]
        exact hdone fun hignored => hignored
      | false => exact hno fun hignored => hignored
    · exact h
  | unreachable e =>
    simp only [Proxy.step]
    split
    · intro job hset
      cases Option.some.inj hset
      rintro w - a ⟨⟩
    · exact h
  | finish =>
    simp only [Proxy.step]
    split
    · exact setsUp_of_ne fun job hset => by cases hset
    · exact setsUp_of_ne fun job hset => by cases hset
    · exact h
  | crash => exact setsUp_start _ _

end Steps

/-! ## Runs -/

section Runs

variable {shortHash : String → String} {db : Db} {net : Netfilter} {past rest : List ProxyAct}

theorem setsUp_run (hdb : WellFormed db) (hmarked : Marked net.table) {acts : List ProxyAct}
    (hleaves : ∀ mid act, mid ++ [act] <+: acts → LeavesHooks ((start db net).run shortHash mid) act) :
    ((start db net).run shortHash acts).SetsUp := by
  induction acts using List.reverseRecOn with
  | nil => exact setsUp_start db net
  | append_singleton acts act ih =>
    rw [run_concat]
    have hprefix : acts <+: acts ++ [act] := List.prefix_append _ _
    exact (ih fun mid act' hmid => hleaves mid act' (hmid.trans hprefix)).step (inv_run hdb hmarked acts).1
      (hleaves acts act List.prefix_rfl)

/-- **Hooked in.** Once a start has gone through, the hooks are there, whatever fails and however often kube-proxy is
started anew. -/
theorem hooked_run (hdb : WellFormed db) (hmarked : Marked net.table)
    (hdone : ((start db net).run shortHash past).setUpDone = true)
    (hleaves : ∀ mid act, mid ++ [act] <+: past ++ rest → LeavesHooks ((start db net).run shortHash mid) act) :
    Hooked ((start db net).run shortHash (past ++ rest)).net := by
  induction rest using List.reverseRecOn with
  | nil =>
    rw [List.append_nil] at hleaves ⊢
    exact setsUp_run hdb hmarked hleaves _ (setUpDone_iff.mp hdone) _ (keepsHooks_refl _) () rfl
  | append_singleton rest act ih =>
    rw [← List.append_assoc] at hleaves ⊢
    have hprefix : past ++ rest <+: past ++ rest ++ [act] := List.prefix_append _ _
    have hold := ih fun mid act' hmid => hleaves mid act' (hmid.trans hprefix)
    rw [run_concat]
    exact Hooked.keeps (w := ((start db net).run shortHash (past ++ rest)).world) hold
      (keepsHooks_step (inv_run hdb hmarked _).1 (hleaves _ act List.prefix_rfl))

end Runs

end Proxy

/-! ## Packets on their way -/

/-- Packets that come to the hook and are for a service go to its endpoints in equal parts, and those that are for no
service go as if there were no hook. -/
def Enters (t : NatTable) (objs : List Service × List Endpoints) (parent : String) : Prop :=
  ∀ (packet : Packet) (depth : ℕ),
    (∀ svc ∈ objs.1, Routed objs.2 svc packet → ∀ before after, t.rules parent = before ++ hook :: after →
      (∀ r ∈ before, r.guard.holds packet = false) →
        walk Match.holds packet t (depth + 5) parent = shares (addrsOf objs.2 svc)) ∧
    ((∀ svc ∈ objs.1, ¬ Routed objs.2 svc packet) → walk Match.holds packet t (depth + 5) parent =
      walkRules Match.holds packet (walk Match.holds packet t (depth + 4)) ((t.rules parent).filter (· ≠ hook)))

theorem Balanced.enters {t : NatTable} {objs : List Service × List Endpoints} (h : Balanced t objs)
    (parent : String) : Enters t objs parent := by
  refine fun packet depth => ⟨fun svc hsvc hrouted before after hrules hbefore => ?_, fun hnone => ?_⟩
  · show walkRules Match.holds packet (walk Match.holds packet t (depth + 4)) (t.rules parent) = _
    rw [hrules, walkRules_append_jump hbefore rfl rfl rfl, (h packet depth).1 svc hsvc hrouted,
      Outcomes.andThen_of_decided shares_decided]
  · exact (walkRules_filter_ne rfl rfl ((h packet depth).2 hnone) (t.rules parent)).symm

/-- **Packets get in.** In every run in which a start has gone through and others leave the hooks: the hooks are
there, and packets that come to PREROUTING or OUTPUT find what the server lists, or a sync is due, under way, or
missed and not due since. -/
theorem packets_enter (shortHash : String → String) {db : Db} {net : Netfilter} (hdb : WellFormed db)
    (hmarked : Marked net.table) {past rest : List ProxyAct}
    (hdone : ((Proxy.start db net).run shortHash past).setUpDone = true)
    (hleaves : ∀ mid act, mid ++ [act] <+: past ++ rest →
      Proxy.LeavesHooks ((Proxy.start db net).run shortHash mid) act)
    (hapart : Apart shortHash (lists ((Proxy.start db net).run shortHash (past ++ rest)).manager.db)) :
    Hooked ((Proxy.start db net).run shortHash (past ++ rest)).net ∧
      ((∀ parent, Enters ((Proxy.start db net).run shortHash (past ++ rest)).net.table
          (lists ((Proxy.start db net).run shortHash (past ++ rest)).manager.db) parent) ∨
        ((Proxy.start db net).run shortHash (past ++ rest)).Owes ∨
        ((Proxy.start db net).run shortHash (past ++ rest)).Syncing ∨
        (Proxy.start db net).Missed shortHash (past ++ rest)) := by
  refine ⟨Proxy.hooked_run hdb hmarked hdone hleaves, ?_⟩
  have hsound : ((Proxy.start db net).run shortHash (past ++ rest)).Sound := (Proxy.inv_run hdb hmarked _).1
  refine (Proxy.laid_cases hdb hmarked (past ++ rest)).imp_left fun hlaid parent => ?_
  exact (hlaid.balanced hsound.marked hapart).enters parent

/-- The start comes to an end, and kube-proxy syncs. -/
def entering : List ProxyAct := .finish :: .resync :: retrying

theorem packets_enter_web :
    Hooked ((Proxy.start webDb freshNet).run webHash (List.replicate 9 .access ++ entering)).net ∧
      ((∀ parent, Enters
          ((Proxy.start webDb freshNet).run webHash (List.replicate 9 .access ++ entering)).net.table
          (lists ((Proxy.start webDb freshNet).run webHash (List.replicate 9 .access ++ entering)).manager.db)
          parent) ∨
        ((Proxy.start webDb freshNet).run webHash (List.replicate 9 .access ++ entering)).Owes ∨
        ((Proxy.start webDb freshNet).run webHash (List.replicate 9 .access ++ entering)).Syncing ∨
        (Proxy.start webDb freshNet).Missed webHash (List.replicate 9 .access ++ entering)) := by
  refine packets_enter webHash wellFormed_webDb marked_freshNet (by decide +kernel)
    (fun mid act hmid => ?_)
    (apart_of_single (by decide +kernel) (by decide +kernel))
  have hact : act ∈ List.replicate 9 .access ++ entering := hmid.subset (by simp)
  have hquiet : ∀ act ∈ List.replicate 9 ProxyAct.access ++ entering, ∀ net, act ≠ .tamper net := by
    rintro act hact net rfl
    simp [entering, retrying] at hact
  exact Proxy.leavesHooks_of_ne (hquiet act hact)

/-! ## What others see -/

/-- The nat table as the others made it last. -/
def othersNet (net : Netfilter) (acts : List ProxyAct) : Netfilter :=
  acts.foldl (fun n act => match act with
    | .tamper net => net
    | _ => n) net

theorem filter_append_replicate {α : Type} [DecidableEq α] (xs : List α) (k : ℕ) (a : α) :
    (xs ++ List.replicate k a).filter (· ≠ a) = xs.filter (· ≠ a) := by
  simp

/-- **Others are undisturbed.** In every run of kube-proxy, whatever fails: the chains of others hold what the others
put there last, but for the jumps to `KUBE-SERVICES` in PREROUTING and OUTPUT and the rule that masquerades. -/
theorem others_undisturbed (shortHash : String → String) {db : Db} {net : Netfilter} (hdb : WellFormed db)
    (hmarked : Marked net.table) (acts : List ProxyAct) :
    (∀ c, ¬ Ours c →
      (((Proxy.start db net).run shortHash acts).net.table.rules c).filter (· ≠ hook) =
        ((othersNet net acts).table.rules c).filter (· ≠ hook) ∧
      (c ≠ "PREROUTING" → c ≠ "OUTPUT" →
        ((Proxy.start db net).run shortHash acts).net.table.rules c = (othersNet net acts).table.rules c)) ∧
    ((Proxy.start db net).run shortHash acts).net.postrouting.filter (· ≠ Script.masqueradeRule) =
      (othersNet net acts).postrouting.filter (· ≠ Script.masqueradeRule) := by
  induction acts using List.reverseRecOn with
  | nil => exact ⟨fun c _ => ⟨rfl, fun _ _ => rfl⟩, rfl⟩
  | append_singleton acts act ih =>
    obtain ⟨hforeign, hpost⟩ := ih
    have hothers : othersNet net (acts ++ [act]) = othersNet (othersNet net acts) [act] := List.foldl_append ..
    rw [Proxy.run_concat, hothers]
    by_cases htamper : ∃ net', act = .tamper net'
    · obtain ⟨net', rfl⟩ := htamper
      refine ⟨fun c hc => ?_, rfl⟩
      have hrules : (((Proxy.start db net).run shortHash acts).net.tampered net').table.rules c =
          net'.table.rules c := by
        unfold Netfilter.tampered Table.rules
        simp only [if_neg hc]
      exact ⟨congrArg (List.filter _) hrules, fun _ _ => hrules⟩
    · have hno : ∀ net', act ≠ .tamper net' := fun net' heq => htamper ⟨net', heq⟩
      have hsame : othersNet (othersNet net acts) [act] = othersNet net acts := by
        cases act with
        | tamper net' => exact absurd rfl (hno net')
        | _ => rfl
      have hsound : ((Proxy.start db net).run shortHash acts).Sound := (Proxy.inv_run hdb hmarked acts).1
      have hgrown : Grown ((Proxy.start db net).run shortHash acts).net
          (((Proxy.start db net).run shortHash acts).step shortHash act).net := (hsound.step act).2 hno
      rw [hsame]
      refine ⟨fun c hc => ?_, ?_⟩
      · obtain ⟨k, hk, hpos⟩ := hgrown.foreign c hc
        refine ⟨?_, fun hpre hout => ?_⟩
        · rw [hk, filter_append_replicate]
          exact (hforeign c hc).1
        · rcases Nat.eq_zero_or_pos k with rfl | hk'
          · rw [hk, List.replicate_zero, List.append_nil]
            exact (hforeign c hc).2 hpre hout
          · exact ((hpos hk').elim hpre hout).elim
      · obtain ⟨k, hk⟩ := hgrown.postrouting
        rw [hk, filter_append_replicate]
        exact hpost

/-- Another program has put its rules behind the hook. -/
def dockerNet : Netfilter where
  table c :=
    if c = "PREROUTING" then some [hook, ⟨⟨none, none, some 80⟩, none, .jump "DOCKER"⟩]
    else if c = "OUTPUT" then some [hook]
    else if c = "DOCKER" then some [⟨.all, none, .translate "172.17.0.2:80"⟩]
    else none
  postrouting := [Script.masqueradeRule]

theorem others_undisturbed_docker :
    ((Proxy.start webDb freshNet).run webHash (starting ++ .tamper dockerNet :: retrying)).net.table.rules "DOCKER" =
      [⟨.all, none, .translate "172.17.0.2:80"⟩] := by
  have hall := (others_undisturbed webHash wellFormed_webDb marked_freshNet
    (starting ++ .tamper dockerNet :: retrying)).1 "DOCKER" (by decide)
  have hlast : othersNet freshNet (starting ++ .tamper dockerNet :: retrying) = dockerNet := rfl
  rw [hall.2 (by decide) (by decide), hlast]
  decide

end MyK8s.KubeProxy
