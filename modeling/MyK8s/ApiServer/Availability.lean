import MyK8s.Raft.Progress
import MyK8s.Raft.Proposals
import MyK8s.ApiServer.Replicated

/-!
# What a majority can do for the stores

A majority of the replicas serves writes on its own: whatever has happened to the cluster before, its nodes
elect a leader, the leader takes the commands that it is given, and the apply loops bring them into the
stores of all members, in their order (`majority_serves`).
-/

namespace MyK8s.ApiServer

open Consensus (IsMajority)
open Raft (Cluster Command Config LogEntry Move NodeId)

/-- A step of a member of `Q`: of its node, of its apply loop, or a command that it is given. -/
def ReplicatedAct.Within (Q : Finset NodeId) : ReplicatedAct → Prop
  | .raft m => m.Within Q ∨ ∃ v ∈ Q, ∃ cmd timeout, m = .event v (.propose cmd) timeout
  | .apply v => v ∈ Q

def ReplicatedAct.proposal : ReplicatedAct → Option Command
  | .raft m => m.proposal
  | .apply _ => none

theorem proposal_of_within {Q : Finset NodeId} {m : Move} (h : m.Within Q) : m.proposal = none := by
  cases m with
  | event v ev timeout =>
    cases ev with
    | propose cmd => cases h
    | _ => rfl
  | _ => rfl

theorem not_crash_of_within {Q : Finset NodeId} {v : NodeId} {timeout : ℕ} : ¬ (Move.crash v timeout).Within Q :=
  fun h => h

namespace Replicated

variable {cfg : Config} {decode : Command → Option StoreCommand} {Q : Finset NodeId}
  {s s' s₁ : Replicated} {u v : NodeId} {cmds cmds' : List Command}

/-- The members of `Q` get from one state to the other on their own, where they are given these commands. -/
def RunsWithin (cfg : Config) (decode : Command → Option StoreCommand) (Q : Finset NodeId) (s : Replicated)
    (cmds : List Command) (s' : Replicated) : Prop :=
  ∃ acts, s.run cfg decode acts = some s' ∧ (∀ act ∈ acts, act.Within Q) ∧
    acts.filterMap ReplicatedAct.proposal = cmds

theorem run_append (acts acts' : List ReplicatedAct) :
    ∀ s : Replicated, s.run cfg decode (acts ++ acts') =
      (s.run cfg decode acts).bind fun s' => s'.run cfg decode acts' := by
  induction acts with
  | nil => exact fun s => rfl
  | cons act acts ih =>
    intro s
    show (s.step cfg decode act).bind _ = ((s.step cfg decode act).bind _).bind _
    rw [Option.bind_assoc]
    exact Option.bind_congr fun s₁ _ => ih s₁

theorem RunsWithin.refl : RunsWithin cfg decode Q s [] s := ⟨[], rfl, fun _ h => absurd h List.not_mem_nil, rfl⟩

theorem RunsWithin.trans (h : RunsWithin cfg decode Q s cmds s₁) (h' : RunsWithin cfg decode Q s₁ cmds' s') :
    RunsWithin cfg decode Q s (cmds ++ cmds') s' := by
  obtain ⟨acts, hrun, hwithin, hcmds⟩ := h
  obtain ⟨acts', hrun', hwithin', hcmds'⟩ := h'
  refine ⟨acts ++ acts', ?_, fun act hact => ?_, ?_⟩
  · rw [run_append, hrun]
    exact hrun'
  · exact (List.mem_append.mp hact).elim (hwithin act) (hwithin' act)
  · rw [List.filterMap_append, hcmds, hcmds']

theorem RunsWithin.step {act : ReplicatedAct} (h : s.step cfg decode act = some s') (hact : act.Within Q) :
    RunsWithin cfg decode Q s act.proposal.toList s' := by
  refine ⟨[act], ?_, fun a ha => ?_, ?_⟩
  · show (s.step cfg decode act).bind _ = _
    rw [h]
    rfl
  · obtain rfl := List.mem_singleton.mp ha
    exact hact
  · cases hp : act.proposal <;> simp [hp]

theorem RunsWithin.reaches (h : RunsWithin cfg decode Q s cmds s') : Reaches cfg decode s s' := by
  obtain ⟨acts, hacts, -⟩ := h
  exact reaches_run hacts

theorem RunsWithin.reachable (h : Reachable cfg decode s) (hrun : RunsWithin cfg decode Q s cmds s') :
    Reachable cfg decode s' := by
  obtain ⟨timeouts, hr⟩ := h
  exact ⟨timeouts, hr.trans hrun.reaches⟩

/-! ## The nodes, without their stores -/

theorem step_raft {m : Move} {w : Cluster} (hm : s.cluster.step cfg m = some w)
    (hno : ∀ v timeout, m ≠ .crash v timeout) :
    s.step cfg decode (.raft m) = some { s with cluster := w } := by
  cases m with
  | crash v timeout => exact absurd rfl (hno v timeout)
  | _ =>
    show (s.cluster.step cfg _).map _ = _
    rw [hm]
    rfl

theorem RunsWithin.move {m : Move} {w : Cluster} (hwithin : m.Within Q) (hm : s.cluster.step cfg m = some w) :
    RunsWithin cfg decode Q s [] { s with cluster := w } := by
  have hstep := @step_raft cfg decode s m w hm fun v timeout heq => not_crash_of_within (heq ▸ hwithin)
  have hone := RunsWithin.step hstep (Or.inl hwithin)
  rwa [ReplicatedAct.proposal, proposal_of_within hwithin] at hone

theorem RunsWithin.propose {cmd : Command} {timeout : ℕ} {w : Cluster} (hv : v ∈ Q)
    (hm : s.cluster.step cfg (.event v (.propose cmd) timeout) = some w) :
    RunsWithin cfg decode Q s [cmd] { s with cluster := w } :=
  RunsWithin.step (step_raft hm fun _ _ heq => by cases heq) (Or.inr ⟨v, hv, cmd, timeout, rfl⟩)

theorem RunsWithin.moves {w : Cluster} (h : Cluster.ReachesWithin cfg Q s.cluster w) :
    RunsWithin cfg decode Q s [] { s with cluster := w } := by
  induction h with
  | refl => exact .refl
  | @tail w w' _ hstep ih =>
    obtain ⟨m, hwithin, hm⟩ := hstep
    exact ih.trans (@RunsWithin.move cfg decode Q { s with cluster := w } m w' hwithin hm)

/-- The leader takes one command. -/
theorem RunsWithin.served {cmd : Command} {timeout : ℕ} {w w' : Cluster} (hv : v ∈ Q)
    (hm : s.cluster.step cfg (.event v (.propose cmd) timeout) = some w) (h : Cluster.ReachesWithin cfg Q w w') :
    RunsWithin cfg decode Q s [cmd] { s with cluster := w' } :=
  (RunsWithin.propose hv hm).trans (@RunsWithin.moves cfg decode Q { s with cluster := w } w' h)

/-- A node that leads a majority gets the commands applied by the nodes of all members, one after the other. -/
theorem exists_served (h : Reachable cfg decode s) (hQ : IsMajority cfg.ids Q) {t : ℕ}
    (hled : Cluster.Led Q s.cluster v t) (cmd : Command) :
    ∃ w, RunsWithin cfg decode Q s (cmd :: cmds) { s with cluster := w } ∧ Cluster.Led Q w v t ∧
      (w.replicas v).node.log.entries.map LogEntry.command =
        (s.cluster.replicas v).node.log.entries.map LogEntry.command ++ cmd :: cmds ∧
      ∀ u ∈ Q, (w.replicas u).applied = (w.replicas v).node.log.entries := by
  induction cmds generalizing s cmd with
  | nil =>
    obtain ⟨timeout, w₁, w, hstep, hreach, hled', hlog, happlied⟩ :=
      Cluster.exists_replicated h.cluster hQ hled cmd
    refine ⟨w, .served hled.member hstep hreach, hled', ?_, happlied⟩
    rw [hlog, List.map_append]
    rfl
  | cons cmd' cmds ih =>
    obtain ⟨timeout, w₁, w, hstep, hreach, hled', hlog, -⟩ := Cluster.exists_replicated h.cluster hQ hled cmd
    have hfirst : RunsWithin cfg decode Q s [cmd] { s with cluster := w } := .served hled.member hstep hreach
    obtain ⟨w', hrun, hled'', hlog', happlied⟩ := ih (hfirst.reachable h) hled' cmd'
    refine ⟨w', hfirst.trans hrun, hled'', ?_, happlied⟩
    rw [hlog', hlog, List.map_append, List.append_assoc]
    rfl

/-! ## The apply loops -/

/-- The loop of a member takes what is in its channel. -/
theorem exists_taken (hv : v ∈ Q) (n : ℕ) : ∀ s : Replicated,
    (s.cluster.replicas v).applied.length = s.taken v + n →
    ∃ s', RunsWithin cfg decode Q s [] s' ∧ s'.cluster = s.cluster ∧ s'.earlier = s.earlier ∧
      s'.taken = Function.update s.taken v (s.cluster.replicas v).applied.length := by
  induction n with
  | zero =>
    intro s hlen
    exact ⟨s, .refl, rfl, rfl, by rw [hlen, Nat.add_zero, Function.update_eq_self]⟩
  | succ n ih =>
    intro s hlen
    have hlt : s.taken v < (s.cluster.replicas v).applied.length := by omega
    set s₁ : Replicated := { s with
      db := Function.update s.db v (applyEntry decode (s.db v) ((s.cluster.replicas v).applied[s.taken v]).command)
      taken := Function.update s.taken v (s.taken v + 1) } with hs₁
    have hstep : s.step cfg decode (.apply v) = some s₁ := congrArg (Option.map _) (List.getElem?_eq_getElem hlt)
    have hone := RunsWithin.step hstep (show ReplicatedAct.Within Q (.apply v) from hv)
    have htaken₁ : s₁.taken v = s.taken v + 1 := Function.update_self ..
    obtain ⟨s', hrun, hcluster, hearlier, htaken⟩ := ih s₁ (by rw [htaken₁, hs₁, hlen]; omega)
    exact ⟨s', hone.trans hrun, hcluster, hearlier, htaken.trans (Function.update_idem _ _ _)⟩

/-- The loops of all members do. -/
theorem exists_all_taken (h : Reachable cfg decode s) (hQ : Q ⊆ cfg.ids) (members : Finset NodeId) :
    members ⊆ Q → ∃ s', RunsWithin cfg decode Q s [] s' ∧ s'.cluster = s.cluster ∧ s'.earlier = s.earlier ∧
      ∀ u ∈ members, s'.taken u = (s.cluster.replicas u).applied.length := by
  induction members using Finset.induction_on with
  | empty => exact fun _ => ⟨s, .refl, rfl, rfl, fun u hu => absurd hu (Finset.notMem_empty u)⟩
  | insert v members _ ih =>
    intro hsub
    obtain ⟨hv, hsub⟩ := Finset.insert_subset_iff.mp hsub
    obtain ⟨s₁, hrun₁, hcluster₁, hearlier₁, htaken₁⟩ := ih hsub
    obtain ⟨pieces, hb⟩ := exists_built (hrun₁.reachable h) (hQ hv)
    obtain ⟨s', hrun, hcluster, hearlier, htaken⟩ :=
      @exists_taken cfg decode Q v hv _ s₁ (Nat.add_sub_cancel' hb.taken).symm
    refine ⟨s', hrun₁.trans hrun, hcluster.trans hcluster₁, hearlier.trans hearlier₁, fun u hu => ?_⟩
    rw [htaken, hcluster₁]
    by_cases huv : u = v
    · rw [huv, Function.update_self]
    · rw [Function.update_of_ne huv]
      exact htaken₁ u ((Finset.mem_insert.mp hu).resolve_left huv)

/-! ## Writes are served -/

theorem index_le_of_led {w : Cluster} {t : ℕ} (h : Cluster.Reachable cfg w) (hQ : IsMajority cfg.ids Q)
    (hled : Cluster.Led Q w v t) (hu : u ∈ cfg.ids) {x : LogEntry} (hx : x ∈ w.executed u) :
    x.index ≤ (w.replicas v).node.log.entries.length := by
  have hemitted : x ∈ w.emitted u := by
    unfold Cluster.emitted Cluster.emittedSinceRestart
    rw [← List.append_assoc]
    exact List.mem_append_left _ hx
  obtain ⟨g, hstand⟩ := Cluster.exists_standing h (hQ.1 hled.member)
  have hlog := hstand.coherent.mem_iff.mp (hled.mem_log h hQ hu hemitted)
  have hlt := (List.getElem?_eq_some_iff.mp hlog.2).1
  omega

/-- What a node has applied, told by its indices. -/
theorem commands_of_applied {w : Cluster} (h : Cluster.Reachable cfg w) (hv : v ∈ cfg.ids)
    {command : ℕ → Command} (hcommand : ∀ x ∈ w.executed v, x.command = command x.index) :
    (List.range' 1 (w.replicas v).applied.length).map command =
      (w.replicas v).applied.map LogEntry.command := by
  have hindex := Cluster.applied_index h hv (le_refl (w.replicas v).applied.length)
  rw [List.take_length] at hindex
  rw [piece_eq_take hindex le_rfl fun x hx => hcommand x (List.mem_append_right _ hx),
    List.take_of_length_le (by simp)]

/-- Where a majority is led, all stores come from the log of the leader. -/
theorem follows_of_led (h : Reachable cfg decode s) (hQ : IsMajority cfg.ids Q) {t : ℕ}
    (hled : Cluster.Led Q s.cluster v t) {command : ℕ → Command} (hu : u ∈ cfg.ids)
    (hcommand : ∀ x ∈ s.cluster.executed u, x.command = command x.index) :
    s.Follows decode
      ((List.range' 1 (s.cluster.replicas v).node.log.entries.length).map command) u := by
  obtain ⟨pieces, hb⟩ := exists_built h hu
  exact hb.follows h hu hcommand (hb.lengths_le h hu fun x hx => index_le_of_led h.cluster hQ hled hu hx)

/-- The entries of a log come from the same commands when others follow. -/
theorem map_range'_of_append {log : List Command} {command : ℕ → Command}
    (h : (List.range' 1 (log ++ cmds).length).map command = log ++ cmds) :
    (List.range' 1 log.length).map command = log := by
  have hle : log.length ≤ (log ++ cmds).length := by
    rw [List.length_append]
    exact Nat.le_add_right _ _
  calc (List.range' 1 log.length).map command
      = ((List.range' 1 (log ++ cmds).length).map command).take log.length := by
        rw [← List.map_take, List.take_range'_of_length_ge hle]
    _ = log := by rw [h, List.take_left]

/-- The stores that have never been restarted are led on by what they had not taken yet. -/
theorem Follows.db_append {log : List Command} (h : s.Follows decode log u)
    (h' : s'.Follows decode (log ++ cmds) u) (halone : s.earlier u = []) (hearlier : s'.earlier = s.earlier)
    (htaken : s'.taken u = (log ++ cmds).length) :
    s'.db u = (log.drop (s.taken u) ++ cmds).foldl (applyEntry decode) (s.db u) := by
  obtain ⟨-, hdb⟩ := h.of_alone halone
  obtain ⟨-, hdb'⟩ := h'.of_alone (by rw [hearlier, halone])
  calc s'.db u = (log ++ cmds).foldl (applyEntry decode) ∅ := by rw [hdb', htaken, List.take_length]
    _ = (log.take (s.taken u) ++ (log.drop (s.taken u) ++ cmds)).foldl (applyEntry decode) ∅ := by
        rw [← List.append_assoc, List.take_append_drop]
    _ = (log.drop (s.taken u) ++ cmds).foldl (applyEntry decode) (s.db u) := by
        rw [List.foldl_append, ← hdb]

/-- Where the stores refuse what comes again, it does not matter how often the node has been restarted. -/
theorem Follows.db_of_refused {log : List Command} (h : s.Follows decode log u)
    (htaken : s.taken u = log.length) (hold : ∀ past, past <+: log → ∀ entry ∈ past,
      EntryRefused decode (past.foldl (applyEntry decode) ∅) entry) :
    s.db u = log.foldl (applyEntry decode) ∅ := by
  rw [h.2, (applyEntry_counted decode).rebuild_eq hold]
  have hmax : log.length ≤ (s.lengths u).foldl max 0 := by
    rw [lengths, List.foldl_append, List.foldl_cons, List.foldl_nil, htaken]
    exact le_max_right _ _
  rw [List.take_of_length_le hmax]

/-- **A majority serves writes.** Whatever the cluster has been through, the members of a majority get any
commands into their stores, on their own and without a restart: there is a log that all stores come from
before, and they are given the commands; then all stores come from that log with the commands at the end,
and the loops of the members have taken all of it. The stores of a member that has never restarted are led
on by the entries that it had not taken yet and the commands. If the stores refuse what comes again, the
members all have the same stores. -/
theorem majority_serves (h : Reachable cfg decode s) (hQ : IsMajority cfg.ids Q) (hne : cmds ≠ []) :
    ∃ log s', RunsWithin cfg decode Q s cmds s' ∧
      (∀ u ∈ cfg.ids, s.Follows decode log u ∧ s'.Follows decode (log ++ cmds) u) ∧
      (∀ u ∈ Q, s'.taken u = (log ++ cmds).length) ∧
      (∀ u ∈ Q, s.earlier u = [] →
        s'.db u = (log.drop (s.taken u) ++ cmds).foldl (applyEntry decode) (s.db u)) ∧
      ((∀ past, past <+: log ++ cmds → ∀ entry ∈ past,
          EntryRefused decode (past.foldl (applyEntry decode) ∅) entry) →
        ∀ u ∈ Q, s'.db u = (log ++ cmds).foldl (applyEntry decode) ∅) := by
  obtain ⟨cmd, rest, rfl⟩ := List.exists_cons_of_ne_nil hne
  obtain ⟨w₁, v, t, hreach₁, hled₁⟩ := Cluster.exists_led h.cluster hQ
  have hrun₁ : RunsWithin cfg decode Q s [] { s with cluster := w₁ } := .moves hreach₁
  obtain ⟨w₂, hrun₂, hled₂, hlog₂, happlied₂⟩ :=
    @exists_served cfg decode Q { s with cluster := w₁ } v rest (hrun₁.reachable h) hQ t hled₁ cmd
  have hs₂ := hrun₂.reachable (hrun₁.reachable h)
  obtain ⟨s', hrun₃, hcluster, hearlier, htaken⟩ :=
    exists_all_taken hs₂ hQ.1 Q (Finset.Subset.refl Q)
  have hrun : RunsWithin cfg decode Q s (cmd :: rest) s' := by
    have := (hrun₁.trans hrun₂).trans hrun₃
    rwa [List.nil_append, List.append_nil] at this
  have hs' := hrun.reachable h
  set log := (w₁.replicas v).node.log.entries.map LogEntry.command with hlog
  have hlen₁ : (w₁.replicas v).node.log.entries.length = log.length := by rw [hlog, List.length_map]
  have hlen₂ : (w₂.replicas v).node.log.entries.length = (log ++ cmd :: rest).length := by
    rw [← hlog₂, List.length_map]
  obtain ⟨command, hcommand⟩ := exists_command hs₂.cluster
  have hwhole : (List.range' 1 (log ++ cmd :: rest).length).map command = log ++ cmd :: rest := by
    have hv := hQ.1 hled₁.member
    have hcommands := commands_of_applied hs₂.cluster hv (hcommand v hv)
    rw [happlied₂ v hled₁.member, hlog₂, hlen₂] at hcommands
    exact hcommands
  have hpart : (List.range' 1 log.length).map command = log := map_range'_of_append hwhole
  have hfollows : ∀ u ∈ cfg.ids, s.Follows decode log u ∧ s'.Follows decode (log ++ cmd :: rest) u := by
    intro u hu
    have hpast := (reaches_cluster hrun₂.reaches).2 u
    constructor
    · have hbefore := follows_of_led (hrun₁.reachable h) hQ hled₁ hu fun x hx =>
        hcommand u hu x (hpast.subset hx)
      rw [hlen₁, hpart] at hbefore
      exact hbefore
    · have hafter := @follows_of_led cfg decode Q s' u v hs' hQ t (hcluster ▸ hled₂) command hu
        (by rw [hcluster]; exact hcommand u hu)
      rwa [hcluster, hlen₂, hwhole] at hafter
  have htaken' : ∀ u ∈ Q, s'.taken u = (log ++ cmd :: rest).length := by
    intro u hu
    rw [htaken u hu, ← hlen₂]
    exact congrArg List.length (happlied₂ u hu)
  refine ⟨log, s', hrun, hfollows, htaken', fun u hu halone => ?_, fun hold u hu => ?_⟩
  · obtain ⟨hbefore, hafter⟩ := hfollows u (hQ.1 hu)
    exact hbefore.db_append hafter halone hearlier (htaken' u hu)
  · exact (hfollows u (hQ.1 hu)).2.db_of_refused (htaken' u hu) hold

/-- The other two nodes serve, whatever becomes of the one that has been restarted. -/
theorem majority_serves_web :
    ∃ (log : List Command) (s' : Replicated), RunsWithin Raft.trio decodeWeb {2, 3} afterRestart [createWebEntry] s' ∧
      ∀ u ∈ ({2, 3} : Finset NodeId), s'.taken u = log.length + 1 ∧
        s'.db u = (log.drop (afterRestart.taken u) ++ [createWebEntry]).foldl (applyEntry decodeWeb)
          (afterRestart.db u) := by
  have hreach : Reachable Raft.trio decodeWeb afterRestart :=
    ⟨fun _ => 1, (reaches_run (Option.some_get _).symm).trans (reaches_run (Option.some_get _).symm)⟩
  have hmajority : IsMajority Raft.trio.ids {2, 3} := ⟨by decide, by decide⟩
  have halone : ∀ u ∈ ({2, 3} : Finset NodeId), afterRestart.earlier u = [] := by decide +kernel
  obtain ⟨log, s', hrun, -, htaken, hdb, -⟩ :=
    majority_serves hreach hmajority (List.cons_ne_nil createWebEntry [])
  exact ⟨log, s', hrun, fun u hu => ⟨(htaken u hu).trans List.length_append, hdb u hu (halone u hu)⟩⟩

end Replicated

end MyK8s.ApiServer
