import MyK8s.ApiServer.Among
import MyK8s.KubeProxy.Sync

/-!
# The calls of kube-proxy

`src/kube_proxy.rs` calls `iptables` once for each rule: `ensure_base_chains` at the start, and `apply_rules`
in each `sync`. A call can fail, and a sync that is cut off leaves chains half built; other programs change
other chains in between.

A plan is `Laid` in a table when each chain that the plan flushes holds what the plan puts there. A sync that
succeeds lays its plan, whatever the table was and whatever failed before (`establishes_sync`), and packets
find what is laid (`Laid.walk`).
-/

namespace MyK8s.KubeProxy

open ApiServer
open Chains
open Process (Proc)

/-! ## Chains of kube-proxy -/

/-- The names that kube-proxy gives to its chains. -/
def Ours (c : String) : Prop := "KUBE-".toList <+: c.toList

instance : DecidablePred Ours := fun c => inferInstanceAs (Decidable (_ <+: c.toList))

theorem ours_services : Ours kubeServices := by decide

theorem ours_masq : Ours kubeMarkMasq := by decide

theorem ours_svcChainName (shortHash : String → String) (svc : String) : Ours (svcChainName shortHash svc) := by
  unfold Ours svcChainName
  rw [String.toList_append]
  exact List.IsPrefix.trans (by decide) (List.prefix_append _ _)

theorem ours_sepChainName (shortHash : String → String) (svc ip : String) (port : UInt16) :
    Ours (sepChainName shortHash svc ip port) := by
  unfold Ours sepChainName
  rw [String.toList_append]
  exact List.IsPrefix.trans (by decide) (List.prefix_append _ _)

/-- The chains that syncs flush and fill. -/
def Rebuilt (c : String) : Prop := Ours c ∧ c ≠ kubeMarkMasq

/-! ## Calls -/

/-- The nat table: the chains that a packet can come to on its way in, and the rules of POSTROUTING as they
were given. -/
structure Netfilter where
  table : NatTable
  postrouting : List Argv

/-- `iptables` could not be run, or it has failed. -/
inductive CallError
  | spawn
  | status
  deriving DecidableEq

/-- What a call of `iptables -t nat` makes of the table. Of POSTROUTING, rules are only checked and appended. -/
def Netfilter.call (n : Netfilter) : Argv → Option Netfilter
  | .text cmd :: .text chain :: spec =>
    if chain = "POSTROUTING" then
      if cmd = "-C" then if spec ∈ n.postrouting then some n else none
      else if cmd = "-A" then some { n with postrouting := n.postrouting ++ [spec] }
      else none
    else if cmd = "-C" then
      (readRule .all none spec).bind fun rule => if rule ∈ n.table.rules chain then some n else none
    else
      ((readArgs (.text cmd :: .text chain :: spec)).bind n.table.exec).map fun table => { n with table }
  | _ => none

/-- The objects at the server, and the node's nat table. -/
structure World where
  db : Db
  net : Netfilter

abbrev CallReply : Argv → Type := fun _ => Except CallError Unit

def World.exec (argv : Argv) (w : World) : Except CallError Unit × World :=
  match w.net.call argv with
  | some net => (.ok (), { w with net })
  | none => (.error .status, w)

/-- A call may fail when it should not, and then it may have been carried out or not. -/
def calls : Process.Setting World Argv CallReply CallError := ⟨World.exec, fun e _ => .error e, fun _ _ _ => False⟩

inductive SyncError
  | list (e : ApiError)
  | command (argv : Argv) (e : CallError)

/-- What kube-proxy does by reads of the server and calls of `iptables`. -/
abbrev Script := ExceptT SyncError (Proc World Argv CallReply)

namespace Script

/-- `list_services`, `list_endpoints`. -/
def list (k : Kind) : Script (List k.Obj) := do
  let w ← ExceptT.lift Proc.get
  ExceptT.mk (pure ((ResourceStore.items k.Obj w.db).mapError fun e => .list (ApiError.ofStore e)))

def call (argv : Argv) : Script (Except CallError Unit) :=
  ExceptT.lift (Proc.put (R := CallReply) argv)

def runCmd (argv : Argv) : Script Unit := do
  match ← call argv with
  | .ok () => pure ()
  | .error e => throw (.command argv e)

/-- That it has failed is logged, if at all. -/
def runTolerate (argv : Argv) : Script Unit := do
  let _ ← call argv
  pure ()

/-- A rule is appended if a check does not find it. -/
def ensure (rule : Argv) : Script Unit := do
  match ← call ("-C" :: rule) with
  | .ok () => pure ()
  | .error .status => runCmd ("-A" :: rule)
  | .error .spawn => throw (.command ("-C" :: rule) .spawn)

def ensureJump (parent : String) : Script Unit := ensure [parent, "-j", kubeServices]

def masqueradeRule : Argv := ["-m", "mark", "--mark", "0x4000/0x4000", "-j", "MASQUERADE"]

def ensureMasquerade : Script Unit := ensure ("POSTROUTING" :: masqueradeRule)

/-- `ensure_base_chains`, whose first calls are those of `KubeProxy.ensureBaseChains`. -/
def ensureBaseChains : Script Unit := do
  KubeProxy.ensureBaseChains.forM runTolerate
  ensureJump "PREROUTING"
  ensureJump "OUTPUT"
  ensureMasquerade

/-- That a chain is there already is tolerated. -/
def applyRule (rule : Argv) : Script Unit :=
  if rule.head? = some (.text "-N") then runTolerate rule else runCmd rule

def applyRules : List Argv → Script Unit
  | [] => pure ()
  | rule :: rules => do
    applyRule rule
    applyRules rules

def sync (shortHash : String → String) : Script Unit := do
  let services ← list .service
  let endpoints ← list .endpoints
  applyRules (planRules shortHash services endpoints)

end Script

/-! ## What a call does -/

section Calls

variable {n n' : Netfilter} {argv : Argv} {cmd : NatCommand} {t t' : NatTable} {c : String}

/-- The arguments of a command. -/
theorem head_of_readArgs (h : readArgs argv = some cmd) :
    ∃ op spec, argv = .text op :: .text cmd.chain :: spec ∧ op ≠ "-C" ∧
      (op = "-N" ↔ cmd = .create cmd.chain) := by
  unfold readArgs at h
  split at h
  · cases h
    exact ⟨"-N", [], rfl, by decide, by simp [Command.chain]⟩
  · cases h
    exact ⟨"-F", [], rfl, by decide, by simp⟩
  · obtain ⟨rule, -, rfl⟩ := Option.map_eq_some_iff.mp h
    exact ⟨"-A", _, rfl, by decide, by simp⟩
  · cases h

theorem Ours.ne_postrouting (h : Ours c) : c ≠ "POSTROUTING" := by
  rintro rfl
  revert h
  decide

/-- A command that is read changes the table as it is executed. -/
theorem call_of_readArgs (h : readArgs argv = some cmd) (hpost : cmd.chain ≠ "POSTROUTING") :
    n.call argv = (n.table.exec cmd).map fun table => { n with table } := by
  obtain ⟨op, spec, rfl, hop, -⟩ := head_of_readArgs h
  simp only [Netfilter.call, if_neg hpost, if_neg hop, h, Option.bind_some]

/-- A call that does not go well changes nothing. -/
theorem World.exec_of_error {w : World} {e : CallError} (h : (w.exec argv).1 = .error e) :
    (w.exec argv).2 = w := by
  unfold World.exec at h ⊢
  split at h
  · cases h
  · rfl

@[simp] theorem World.exec_db (w : World) (argv : Argv) : (w.exec argv).2.db = w.db := by
  unfold World.exec
  split <;> rfl

theorem exec_of_ok {w : World} (h : readArgs argv = some cmd) (hpost : cmd.chain ≠ "POSTROUTING")
    (hok : (w.exec argv).1 = .ok ()) :
    (∀ c, (w.exec argv).2.net.table.rules c = cmd.on c (w.net.table.rules c)) ∧
      (w.exec argv).2.net.postrouting = w.net.postrouting := by
  unfold World.exec at hok ⊢
  rw [call_of_readArgs h hpost] at hok ⊢
  cases hexec : w.net.table.exec cmd with
  | none =>
    rw [hexec] at hok
    cases hok
  | some t => exact ⟨Table.rules_exec hexec, rfl⟩

/-- A command has its effect on the rules, or there is none. -/
theorem exec_cases (w : World) (h : readArgs argv = some cmd) (hpost : cmd.chain ≠ "POSTROUTING") :
    (w.exec argv).2 = w ∨ (∀ c, (w.exec argv).2.net.table.rules c = cmd.on c (w.net.table.rules c)) ∧
      (w.exec argv).2.net.postrouting = w.net.postrouting := by
  cases hok : (w.exec argv).1 with
  | ok a => exact .inr (exec_of_ok h hpost hok)
  | error e => exact .inl (World.exec_of_error hok)

theorem rules_exec_create {w : World} (h : readArgs argv = some (.create c)) (hpost : c ≠ "POSTROUTING")
    (c' : String) : (w.exec argv).2.net.table.rules c' = w.net.table.rules c' := by
  rcases exec_cases w h hpost with hsame | ⟨hrules, -⟩
  · rw [hsame]
  · exact hrules c'

end Calls

/-! ## A sync among others -/

/-- What a plan is made of: the services and the endpoints at the server. -/
def lists (db : Db) : List Service × List Endpoints := (listed .service db, listed .endpoints db)

/-- What others do without touching kube-proxy's work: the lists stay, and so do the chains that it rebuilds. -/
def Untouched (w w' : World) : Prop :=
  lists w'.db = lists w.db ∧ ∀ c, Rebuilt c → w'.net.table.rules c = w.net.table.rules c

instance : IsPreorder World Untouched where
  refl _ := ⟨rfl, fun _ _ => rfl⟩
  trans _ _ _ h h' := ⟨h'.1.trans h.1, fun c hc => (h'.2 c hc).trans (h.2 c hc)⟩

section Establishes

variable {w : World} {argv : Argv} {Q : World → Unit → Prop} {rules : List Argv} {cmds : List NatCommand}

theorem establishes_list {k : Kind} {Q : World → List k.Obj → Prop}
    (h : ∀ w' w'', Untouched w w' → Untouched w' w'' → Q w'' (listed k w'.db)) :
    Proc.establishes calls Untouched Q (Script.list k) w := by
  intro w' hw' w'' hw'' objs hobjs
  have hlisted : listed k w'.db = objs := by
    unfold listed
    cases hitems : ResourceStore.items k.Obj w'.db with
    | ok items =>
      rw [hitems] at hobjs
      exact Except.ok.inj hobjs
    | error e =>
      rw [hitems] at hobjs
      cases hobjs
  rw [← hlisted]
  exact h w' w'' hw' hw''

section Rules

variable {rely : World → World → Prop}

theorem establishes_call {Q : World → Except CallError Unit → Prop}
    (h : ∀ w', rely w w' → Q (w'.exec argv).2 (w'.exec argv).1 ∧
      ∀ e, Q w' (.error e) ∧ Q (w'.exec argv).2 (.error e))
    (hQ : ∀ w r w', rely w w' → Q w r → Q w' r) :
    Proc.establishes calls rely Q (Script.call argv) w := by
  intro w' hw'
  obtain ⟨hdone, hfail⟩ := h w' hw'
  refine ⟨fun _ => ?_, fun e => ⟨fun _ => ?_, fun _ => ?_⟩⟩
  · rintro w'' hw'' r ⟨⟩
    exact hQ _ _ _ hw'' hdone
  · rintro w'' hw'' r ⟨⟩
    exact hQ _ _ _ hw'' (hfail e).1
  · rintro w'' hw'' r ⟨⟩
    exact hQ _ _ _ hw'' (hfail e).2

variable [IsPreorder World rely]

/-- A call that must succeed. -/
theorem establishes_runCmd (h : ∀ w', rely w w' → (w'.exec argv).1 = .ok () → Q (w'.exec argv).2 ())
    (hQ : ∀ w w', rely w w' → Q w () → Q w' ()) :
    Proc.establishes calls rely Q (Script.runCmd argv) w := by
  refine Proc.establishes_bind ?_
  refine Proc.establishes_mono (Q := fun w (r : Except CallError Unit) => r = .ok () → Q w ())
    (fun w' r hr => ?_)
    (establishes_call (fun w' hw' => ⟨h w' hw', fun e => ⟨fun hok => (by cases hok), fun hok => (by cases hok)⟩⟩)
      fun w r w' hw' hold hr => hQ w w' hw' (hold hr))
  cases r with
  | ok a => exact Proc.establishes_pure fun w'' hw'' => hQ w' w'' hw'' (hr rfl)
  | error e => exact Proc.establishes_throw

/-- A call of which nobody looks at the result. -/
theorem establishes_runTolerate (h : ∀ w', rely w w' → Q w' () ∧ Q (w'.exec argv).2 ())
    (hQ : ∀ w w', rely w w' → Q w () → Q w' ()) :
    Proc.establishes calls rely Q (Script.runTolerate argv) w := by
  refine Proc.establishes_bind ?_
  refine Proc.establishes_mono (Q := fun w _ => Q w ()) (fun w' r hr => ?_)
    (establishes_call (fun w' hw' => ⟨(h w' hw').2, fun e => h w' hw'⟩) fun w r w' hw' => hQ w w' hw')
  exact Proc.establishes_pure fun w'' hw'' => hQ w' w'' hw'' hr

end Rules

/-- The lists are those of before, and the chains are what the commands have made of them. -/
def After (cmds : List NatCommand) (w w' : World) : Prop :=
  lists w'.db = lists w.db ∧
    ∀ c, Rebuilt c → w'.net.table.rules c = cmds.foldl (Command.on c) (w.net.table.rules c)

theorem After.untouched {w' w'' : World} (h : After cmds w w') (hw : Untouched w' w'') : After cmds w w'' :=
  ⟨hw.1.trans h.1, fun c hc => (hw.2 c hc).trans (h.2 c hc)⟩

theorem after_exec {cmd : NatCommand} {w' : World} (hw : Untouched w w')
    (hrules : ∀ c, (w'.exec argv).2.net.table.rules c = cmd.on c (w'.net.table.rules c)) :
    After [cmd] w (w'.exec argv).2 := by
  refine ⟨?_, fun c hc => ?_⟩
  · rw [World.exec_db]
    exact hw.1
  · rw [hrules, hw.2 c hc]
    rfl

theorem After.trans {cmds' : List NatCommand} {w' w'' : World} (h : After cmds w w') (h' : After cmds' w' w'') :
    After (cmds ++ cmds') w w'' := by
  refine ⟨h'.1.trans h.1, fun c hc => ?_⟩
  rw [h'.2 c hc, h.2 c hc, List.foldl_append]

/-- **Applying rules among others.** That a chain could not be created shows when it is flushed, so if all that
must succeed does, the chains are what the commands make of them. -/
theorem establishes_applyRules (hread : rules.map readArgs = cmds.map some) (hours : ∀ cmd ∈ cmds, Ours cmd.chain) :
    Proc.establishes calls Untouched (fun w' _ => After cmds w w') (Script.applyRules rules) w := by
  induction rules generalizing cmds w with
  | nil =>
    obtain rfl := List.map_eq_nil_iff.mp hread.symm
    exact Proc.establishes_pure fun w' hw' => ⟨hw'.1, hw'.2⟩
  | cons argv rules ih =>
    cases cmds with
    | nil => cases hread
    | cons cmd cmds =>
      obtain ⟨hcmd, hcmds⟩ := List.cons.inj hread
      have hchain := hours cmd List.mem_cons_self
      obtain ⟨op, spec, hargv, -, hcreate⟩ := head_of_readArgs hcmd
      have hhead : argv.head? = some (.text "-N") ↔ cmd = .create cmd.chain := by
        rw [hargv, ← hcreate]
        simp
      refine Proc.establishes_bind ?_
      refine Proc.establishes_mono (Q := fun w' _ => After [cmd] w w') (fun w' _ hw' => ?_) ?_
      · refine Proc.establishes_mono (fun w'' _ hw'' => ?_)
          (ih hcmds fun cmd' hmem => hours cmd' (List.mem_cons_of_mem cmd hmem))
        exact hw'.trans hw''
      · unfold Script.applyRule
        split
        · rename_i hN
          have hcmd' := hhead.mp hN
          rw [hcmd'] at hcmd
          refine establishes_runTolerate (fun w' hw' => ⟨?_, ?_⟩) fun w' w'' hw'' hold => hold.untouched hw''
          · refine ⟨hw'.1, fun c hc => ?_⟩
            rw [hcmd', hw'.2 c hc]
            rfl
          · refine after_exec hw' fun c => ?_
            rw [rules_exec_create hcmd hchain.ne_postrouting c, hcmd']
            rfl
        · refine establishes_runCmd (fun w' hw' hok => ?_) fun w' w'' hw'' hold => hold.untouched hw''
          exact after_exec hw' (exec_of_ok hcmd hchain.ne_postrouting hok).1

end Establishes

/-! ## What a plan is about -/

section Plan

variable {shortHash : String → String} {services : List Service} {endpoints : List Endpoints} {cmd : NatCommand}

/-- A plan creates or changes chains that syncs rebuild. -/
theorem rebuilt_of_mem_planCommands (h : cmd ∈ planCommands shortHash services endpoints) : Rebuilt cmd.chain := by
  have hservices : Rebuilt kubeServices := ⟨ours_services, by decide⟩
  rcases List.mem_cons.mp h with rfl | h
  · exact hservices
  obtain ⟨svc, -, h⟩ := List.mem_flatMap.mp h
  have hsvc : Rebuilt (svcChainName shortHash svc.metadata.name) :=
    ⟨ours_svcChainName _ _, svcChainName_ne_masq _ _⟩
  unfold serviceCommands at h
  cases hvip : vipOf endpoints svc with
  | none =>
    rw [hvip] at h
    cases h
  | some clusterIP =>
    simp only [hvip, List.mem_append, List.mem_cons, List.not_mem_nil, or_false, List.mem_flatMap] at h
    rcases h with ((rfl | rfl) | ⟨⟨ep, i⟩, -, h⟩) | rfl
    · exact hsvc
    · exact hsvc
    · have hsep : Rebuilt (sepChainName shortHash svc.metadata.name ep.ip ep.port) :=
        ⟨ours_sepChainName _ _ _ _, sepChainName_ne_masq _ _ _ _⟩
      simp only [endpointCommands, sepRules, List.map_cons, List.map_nil, List.cons_append, List.nil_append,
        List.mem_cons, List.not_mem_nil, or_false] at h
      rcases h with rfl | rfl | rfl | rfl | rfl
      · exact hsep
      · exact hsep
      · exact hsep
      · exact hsep
      · exact hsvc
    · exact hservices

end Plan

/-- Each chain that the plan flushes holds what the plan puts there. -/
def Laid (shortHash : String → String) (t : NatTable) (objs : List Service × List Endpoints) : Prop :=
  ∀ c, .flush c ∈ planCommands shortHash objs.1 objs.2 →
    t.rules c = (planCommands shortHash objs.1 objs.2).foldl (Command.on c) []

theorem Laid.untouched {shortHash : String → String} {w w' : World}
    (h : Laid shortHash w.net.table (lists w.db)) (hw : Untouched w w') :
    Laid shortHash w'.net.table (lists w'.db) := by
  intro c hc
  rw [hw.1] at hc ⊢
  rw [hw.2 c (rebuilt_of_mem_planCommands hc)]
  exact h c hc

/-- **A sync among others.** A sync that succeeds has laid the plan for what the server lists, whatever was in
the chains before. -/
theorem establishes_sync (shortHash : String → String) (w : World) :
    Proc.establishes calls Untouched (fun w' _ => Laid shortHash w'.net.table (lists w'.db))
      (Script.sync shortHash) w := by
  refine Proc.establishes_bind (establishes_list (k := .service) fun w₁ w₁' _ hw₁ => ?_)
  refine Proc.establishes_bind (establishes_list (k := .endpoints) fun w₂ w₂' hw₂ hw₂' => ?_)
  have hlists : lists w₂'.db = (listed .service w₁.db, listed .endpoints w₂.db) := by
    have hservices : listed .service w₂.db = listed .service w₁.db := congrArg Prod.fst (hw₂.1.trans hw₁.1)
    exact hw₂'.1.trans (Prod.ext hservices rfl)
  refine Proc.establishes_mono (fun w' _ hafter c hc => ?_)
    (establishes_applyRules (read_planRules _ _) fun cmd hcmd => (rebuilt_of_mem_planCommands hcmd).1)
  rw [hafter.1, hlists] at hc ⊢
  rw [hafter.2 c (rebuilt_of_mem_planCommands hc)]
  exact foldl_on_of_flush hc _ _

/-! ## A sync on its own -/

section Alone

variable {w : World} {rules : List Argv} {cmds : List NatCommand} {t : NatTable}

theorem exec_of_exec {argv : Argv} {cmd : NatCommand} (h : readArgs argv = some cmd) (hpost : cmd.chain ≠ "POSTROUTING")
    (hexec : w.net.table.exec cmd = some t) : w.exec argv = (.ok (), ⟨w.db, ⟨t, w.net.postrouting⟩⟩) := by
  unfold World.exec
  rw [call_of_readArgs h hpost, hexec]
  rfl

theorem alone_call (argv : Argv) (w : World) :
    Proc.alone World.exec (Script.call argv).run w = (.ok (w.exec argv).1, (w.exec argv).2) := rfl

theorem alone_applyRule {argv : Argv} {w' : World} (h : w.exec argv = (.ok (), w')) :
    Proc.alone World.exec (Script.applyRule argv).run w = (.ok (), w') := by
  unfold Script.applyRule
  split
  · unfold Script.runTolerate
    rw [Proc.alone_run_bind, alone_call, h]
    rfl
  · unfold Script.runCmd
    rw [Proc.alone_run_bind, alone_call, h]
    rfl

theorem alone_list {k : Kind} (h : WellFormed w.db) :
    Proc.alone World.exec (Script.list k).run w = (.ok (listed k w.db), w) := by
  show ((ResourceStore.items k.Obj w.db).mapError _, w) = _
  rw [h.items_eq]
  rfl

theorem alone_applyRules (hread : rules.map readArgs = cmds.map some) (hours : ∀ cmd ∈ cmds, Ours cmd.chain)
    (h : w.net.table.apply cmds = some t) : Proc.alone World.exec (Script.applyRules rules).run w =
      (.ok (), ⟨w.db, ⟨t, w.net.postrouting⟩⟩) := by
  induction rules generalizing cmds w with
  | nil =>
    obtain rfl := List.map_eq_nil_iff.mp hread.symm
    obtain rfl := Option.some.inj h
    rfl
  | cons argv rules ih =>
    cases cmds with
    | nil => cases hread
    | cons cmd cmds =>
      obtain ⟨hcmd, hcmds⟩ := List.cons.inj hread
      obtain ⟨u, hu, hrest⟩ := Option.bind_eq_some_iff.mp h
      have hone := alone_applyRule (exec_of_exec hcmd (hours cmd List.mem_cons_self).ne_postrouting hu)
      have hnext := ih (w := ⟨w.db, ⟨u, w.net.postrouting⟩⟩) hcmds
        (fun cmd' hmem => hours cmd' (List.mem_cons_of_mem cmd hmem)) hrest
      show Proc.alone World.exec (Script.applyRule argv >>= fun _ => Script.applyRules rules).run w = _
      rw [Proc.alone_run_bind, hone]
      exact hnext

/-- **On its own** a sync does what its plan does to the table. -/
theorem alone_sync (shortHash : String → String) (hdb : WellFormed w.db)
    (h : KubeProxy.sync shortHash w.net.table (lists w.db) = some t) :
    Proc.alone World.exec (Script.sync shortHash).run w = (.ok (), ⟨w.db, ⟨t, w.net.postrouting⟩⟩) := by
  have happly : w.net.table.apply (planCommands shortHash (lists w.db).1 (lists w.db).2) = some t :=
    (applyRules_planRules _ _ _).symm.trans h
  have hrules := alone_applyRules (read_planRules _ _) (fun cmd hcmd => (rebuilt_of_mem_planCommands hcmd).1) happly
  unfold Script.sync
  rw [Proc.alone_run_bind, alone_list hdb]
  show Proc.alone World.exec (Script.list .endpoints >>= _).run w = _
  rw [Proc.alone_run_bind, alone_list hdb]
  exact hrules

end Alone

/-! ## What packets find -/

/-- The chain for packets to be masqueraded only marks. -/
def Marked (t : NatTable) : Prop := ∀ r ∈ t.rules kubeMarkMasq, r.chance = none ∧ r.target = .mark

section Walk

variable {shortHash : String → String} {t : NatTable} {objs : List Service × List Endpoints} {p : Packet}

/-- Where a plan is laid, packets find what they would find after one more sync. -/
theorem Laid.exists_walk_eq (h : Laid shortHash t objs) (hmarks : Marked t) :
    ∃ t', t'.rules kubeServices = objs.1.filterMap (routeOf shortHash objs.2) ∧ Based t' ∧
      (∃ t₀, Table.apply t₀ (planCommands shortHash objs.1 objs.2) = some t') ∧
      ∀ depth, walk Match.holds p t depth kubeServices = walk Match.holds p t' depth kubeServices := by
  -- chains that are missing have no rules
  let t₀ : NatTable := fun c => some (t.rules c)
  have hbased : Based t₀ := ⟨rfl, rfl, hmarks⟩
  obtain ⟨t', happly⟩ := hbased.apply shortHash objs.1 objs.2
  refine ⟨t', rules_services happly, hbased.after happly, ⟨t₀, happly⟩, fun depth => ?_⟩
  refine walk_congr (S := Planned shortHash objs.1 objs.2) (fun c hc => ?_)
    (fun c hc r hr d hd => hc.jump hbased happly hr hd) depth (.inl (.inl rfl))
  by_cases hmasq : c = kubeMarkMasq
  · rw [hmasq, rules_masq happly]
    rfl
  · have hflush := hc.flush hmasq
    rw [h c hflush, Table.rules_apply happly]
    exact foldl_on_of_flush hflush _ _

/-- **Where packets go.** Where a plan is laid, a packet for a service with endpoints goes to each of them with the
same chance, and no other packet is sent elsewhere. -/
theorem Laid.walk (h : Laid shortHash t objs) (hmarks : Marked t)
    (hvips : objs.1.Pairwise fun s s' => ∀ v, vip s = some v → vip s' ≠ some v)
    (hchains : Set.InjOn (chainName shortHash) {k | k ∈ chainKeys objs.1 objs.2}) (depth : ℕ) :
    (∀ svc ∈ objs.1, Routed objs.2 svc p →
      Chains.walk Match.holds p t (depth + 4) kubeServices = shares (addrsOf objs.2 svc)) ∧
    ((∀ svc ∈ objs.1, ¬ Routed objs.2 svc p) →
      Chains.walk Match.holds p t (depth + 4) kubeServices = [(1, none)]) := by
  obtain ⟨t', -, hbased, ⟨t₀, happly⟩, hwalk⟩ := h.exists_walk_eq (p := p) hmarks
  rw [hwalk]
  refine ⟨fun svc hsvc hrouted => ?_, fun hnone => walk_unrouted happly hnone (depth + 3)⟩
  have hvip : (vipOf objs.2 svc).isSome := by simp [hrouted.vipOf_eq]
  have hchain := walk_svc hbased depth (rules_svc hchains happly hsvc hvip)
    (fun ep hep => rules_sep hchains happly hsvc hvip hep) hrouted.protocol hrouted.backed
  exact walk_routed happly hvips hsvc hrouted hchain

end Walk

end MyK8s.KubeProxy
