import MyK8s.Raft.Safety
import MyK8s.ApiServer.Restart

/-!
# Replicas and their stores

A cluster of Raft nodes, each with the apply loop of `src/apiserver/raft_glue.rs` behind it and the
stores that the loop writes. The loop lags behind its node by what is in the channel. A crash takes the
channel and the position in the log, and leaves the stores.

`stores_share_log`: whatever the cluster goes through, there is one log that all stores come from.
-/

namespace MyK8s.Raft.Cluster

variable {cfg : Config} {w w' : Cluster} {u v : NodeId}

/-- What a replica has applied, in all its incarnations. -/
def executed (w : Cluster) (v : NodeId) : List LogEntry :=
  (w.replicas v).past ++ (w.replicas v).applied

/-- A crash starts the list over, any other move may add to it. -/
theorem applied_step {m : Move} (h : w.step cfg m = some w') (u : NodeId) :
    (∃ timeout, m = .crash u timeout) ∧ (w'.replicas u).applied = [] ∧
        (w'.replicas u).past = (w.replicas u).past ++ (w.replicas u).applied ∨
      (∀ timeout, m ≠ .crash u timeout) ∧ (w'.replicas u).past = (w.replicas u).past ∧
        ∃ more, (w'.replicas u).applied = (w.replicas u).applied ++ more := by
  cases m with
  | event v ev timeout =>
    simp only [step] at h
    split at h
    · obtain rfl := Option.some.inj h
      refine .inr ⟨fun _ hm => (by cases hm), ?_⟩
      by_cases huv : u = v
      · subst huv
        rw [set_replicas_self]
        exact ⟨rfl, [], (List.append_nil _).symm⟩
      · rw [set_replicas_of_ne w huv]
        exact ⟨rfl, [], (List.append_nil _).symm⟩
    · cases h
  | exec v =>
    simp only [step] at h
    split at h
    · cases h
    · rename_i e rest hp
      split at h
      · obtain rfl := Option.some.inj h
        refine .inr ⟨fun _ hm => (by cases hm), ?_⟩
        show ((w.set v _).replicas u).past = _ ∧ ∃ more, ((w.set v _).replicas u).applied = _
        by_cases huv : u = v
        · subst huv
          rw [set_replicas_self]
          exact ⟨rfl, _, rfl⟩
        · rw [set_replicas_of_ne w huv]
          exact ⟨rfl, [], (List.append_nil _).symm⟩
      · cases h
  | crash v timeout =>
    simp only [step] at h
    split at h
    · obtain rfl := Option.some.inj h
      by_cases huv : u = v
      · subst huv
        rw [set_replicas_self]
        exact .inl ⟨⟨timeout, rfl⟩, rfl, rfl⟩
      · rw [set_replicas_of_ne w huv]
        refine .inr ⟨fun t hm => ?_, rfl, [], (List.append_nil _).symm⟩
        cases hm
        exact huv rfl
    · cases h

theorem executed_step {m : Move} (h : w.step cfg m = some w') (v : NodeId) :
    w.executed v <+: w'.executed v := by
  unfold executed
  rcases applied_step h v with ⟨-, happ, hpast⟩ | ⟨-, hpast, more, happ⟩
  · rw [happ, hpast, List.append_nil]
  · rw [happ, hpast, ← List.append_assoc]
    exact List.prefix_append _ _

/-- The same index has the same entry everywhere. -/
theorem executed_unique (h : Reachable cfg w) (hu : u ∈ cfg.ids) (hv : v ∈ cfg.ids) {x y : LogEntry}
    (hx : x ∈ w.executed u) (hy : y ∈ w.executed v) (hxy : x.index = y.index) : x = y := by
  obtain ⟨g, hinv⟩ := exists_inv h
  obtain ⟨_, g', _, hinv', hle, hsu, hsv⟩ := settle_two hinv hu hv
  have hemit : ∀ {v : NodeId} {x : LogEntry}, x ∈ w.executed v → x ∈ w.emitted v := by
    intro v x hx
    unfold emitted emittedSinceRestart
    rw [← List.append_assoc]
    exact List.mem_append_left _ hx
  exact decided_unique hinv'.ledger ((decided_of_emitted hinv hu hle hsu).1 x (hemit hx))
    ((decided_of_emitted hinv hv hle hsv).1 y (hemit hy)) hxy

theorem applied_index (h : Reachable cfg w) (hv : v ∈ cfg.ids) {n : ℕ}
    (hn : n ≤ (w.replicas v).applied.length) :
    ((w.replicas v).applied.take n).map LogEntry.index = List.range' 1 n := by
  obtain ⟨g, hinv⟩ := exists_inv h
  obtain ⟨_, _, _, _, _, hstand, hnow, _⟩ := settle hinv hv
  have hc : Coherent (w.emittedSinceRestart v) := by
    rw [hnow]
    exact hstand.coherent.take _
  have hpre : (w.replicas v).applied = (w.emittedSinceRestart v).take (w.replicas v).applied.length := by
    unfold emittedSinceRestart
    rw [List.take_left']
    rfl
  have htake := (hc.take (w.replicas v).applied.length).map_index
  rw [← hpre] at htake
  rw [List.map_take, htake, List.take_range'_of_length_ge hn]

end MyK8s.Raft.Cluster

namespace MyK8s.ApiServer

open Raft (Cluster Command Config LogEntry Move NodeId)

/-! ## The system -/

/-- The nodes, the stores of each, how many of the entries that its node has applied since the last
restart its loop has taken, and how many the loops before had taken when they died. -/
structure Replicated where
  cluster : Cluster
  db : NodeId → Db
  taken : NodeId → ℕ
  earlier : NodeId → List ℕ

inductive ReplicatedAct
  | raft (m : Move)
  /-- The loop of `v` takes the next entry out of its channel. -/
  | apply (v : NodeId)

section Entry

variable (decode : Command → Option StoreCommand)

/-- The body of `apply_loop`. An entry that does not parse is skipped. -/
def applyEntry (db : Db) (entry : Command) : Db :=
  match decode entry with
  | some cmd => applyNext db cmd
  | none => db

/-- The stores have no use for the entry. -/
def EntryRefused (db : Db) (entry : Command) : Prop := ∀ cmd ∈ decode entry, Refused db cmd

theorem applyEntry_counted :
    Replay.Counted (applyEntry decode) (EntryRefused decode) currentRv u64Max where
  refused {db entry} h := by
    unfold applyEntry
    cases hd : decode entry with
    | some cmd => exact applyNext_counted.refused (h cmd hd)
    | none => rfl
  le db entry := by
    unfold applyEntry
    cases decode entry with
    | some cmd => exact applyNext_counted.le db cmd
    | none => exact le_rfl
  le_succ db entry := by
    unfold applyEntry
    cases decode entry with
    | some cmd => exact applyNext_counted.le_succ db cmd
    | none => exact Nat.le_succ _
  lt {db entry} h hlt := by
    unfold EntryRefused at h
    unfold applyEntry
    cases hd : decode entry with
    | some cmd =>
      rw [hd] at h
      exact applyNext_counted.lt (fun hr => h fun c hc => Option.some.inj hc ▸ hr) hlt
    | none =>
      rw [hd] at h
      exact absurd (fun cmd hc => by cases hc) h

end Entry

namespace Replicated

variable {cfg : Config} {decode : Command → Option StoreCommand} {s s' : Replicated} {u v : NodeId}

def start (timeouts : NodeId → ℕ) (cfg : Config) : Replicated where
  cluster := Cluster.init cfg timeouts
  db _ := ∅
  taken _ := 0
  earlier _ := []

def step (cfg : Config) (decode : Command → Option StoreCommand) (s : Replicated) :
    ReplicatedAct → Option Replicated
  | .raft m =>
    (s.cluster.step cfg m).map fun cluster =>
      match m with
      | .crash v _ =>
        { s with
          cluster := cluster
          taken := Function.update s.taken v 0
          earlier := Function.update s.earlier v (s.earlier v ++ [s.taken v]) }
      | _ => { s with cluster := cluster }
  | .apply v =>
    (s.cluster.replicas v).applied[s.taken v]?.map fun entry =>
      { s with
        db := Function.update s.db v (applyEntry decode (s.db v) entry.command)
        taken := Function.update s.taken v (s.taken v + 1) }

def run (cfg : Config) (decode : Command → Option StoreCommand) (s : Replicated) :
    List ReplicatedAct → Option Replicated
  | [] => some s
  | act :: acts => (s.step cfg decode act).bind fun s' => run cfg decode s' acts

def Step (cfg : Config) (decode : Command → Option StoreCommand) (s s' : Replicated) : Prop :=
  ∃ act, s.step cfg decode act = some s'

abbrev Reaches (cfg : Config) (decode : Command → Option StoreCommand) :
    Replicated → Replicated → Prop := Relation.ReflTransGen (Step cfg decode)

def Reachable (cfg : Config) (decode : Command → Option StoreCommand) (s : Replicated) : Prop :=
  ∃ timeouts, Reaches cfg decode (start timeouts cfg) s

theorem reaches_run {acts : List ReplicatedAct} :
    ∀ {s : Replicated}, s.run cfg decode acts = some s' → Reaches cfg decode s s' := by
  induction acts with
  | nil =>
    intro s h
    obtain rfl := Option.some.inj h
    exact Relation.ReflTransGen.refl
  | cons act acts ih =>
    intro s h
    obtain ⟨s₁, hact, hacts⟩ := Option.bind_eq_some_iff.mp h
    exact Relation.ReflTransGen.head ⟨act, hact⟩ (ih hacts)

/-- How far each loop of `v` got. -/
def lengths (s : Replicated) (v : NodeId) : List ℕ := s.earlier v ++ [s.taken v]

/-- The stores of `v` come from this log. -/
def Follows (decode : Command → Option StoreCommand) (s : Replicated) (log : List Command)
    (v : NodeId) : Prop :=
  (∀ n ∈ s.lengths v, n ≤ log.length) ∧
    s.db v = Replay.rebuild (applyEntry decode) ∅ log (s.lengths v)

/-! ## What the stores were built from -/

def applyPieces (decode : Command → Option StoreCommand) (pieces : List (List LogEntry)) : Db :=
  pieces.foldl (fun db p => (p.map LogEntry.command).foldl (applyEntry decode) db) ∅

@[simp] theorem applyPieces_concat (pieces : List (List LogEntry)) (p : List LogEntry) :
    applyPieces decode (pieces ++ [p]) =
      (p.map LogEntry.command).foldl (applyEntry decode) (applyPieces decode pieces) :=
  List.foldl_concat ..

/-- The stores of `v` were built from these pieces, one for each loop that died, and from what the
present one has taken. -/
structure Built (decode : Command → Option StoreCommand) (s : Replicated) (v : NodeId)
    (pieces : List (List LogEntry)) : Prop where
  earlier : pieces.map List.length = s.earlier v
  index : ∀ p ∈ pieces, p.map LogEntry.index = List.range' 1 p.length
  executed : ∀ p ∈ pieces, ∀ x ∈ p, x ∈ (s.cluster.replicas v).past
  taken : s.taken v ≤ (s.cluster.replicas v).applied.length
  db : s.db v = applyPieces decode (pieces ++ [(s.cluster.replicas v).applied.take (s.taken v)])

theorem step_cases {act : ReplicatedAct} (h : s.step cfg decode act = some s') :
    (∃ m, act = .raft m ∧ s.cluster.step cfg m = some s'.cluster ∧ s'.db = s.db ∧
      ∀ v, (∃ timeout, m = .crash v timeout) ∧ s'.taken v = 0 ∧
          s'.earlier v = s.earlier v ++ [s.taken v] ∨
        (∀ timeout, m ≠ .crash v timeout) ∧ s'.taken v = s.taken v ∧ s'.earlier v = s.earlier v) ∨
    ∃ u entry, act = .apply u ∧ (s.cluster.replicas u).applied[s.taken u]? = some entry ∧
      s' = { s with
        db := Function.update s.db u (applyEntry decode (s.db u) entry.command)
        taken := Function.update s.taken u (s.taken u + 1) } := by
  cases act with
  | raft m =>
    obtain ⟨cluster, hm, rfl⟩ := Option.map_eq_some_iff.mp h
    refine .inl ⟨m, rfl, ?_⟩
    cases m with
    | crash u timeout =>
      refine ⟨hm, rfl, fun v => ?_⟩
      by_cases hv : v = u
      · subst hv
        exact .inl ⟨⟨timeout, rfl⟩, Function.update_self .., Function.update_self ..⟩
      · refine .inr ⟨fun t ht => ?_, Function.update_of_ne hv .., Function.update_of_ne hv ..⟩
        cases ht
        exact hv rfl
    | event u ev timeout => exact ⟨hm, rfl, fun v => .inr ⟨fun t ht => (by cases ht), rfl, rfl⟩⟩
    | exec u => exact ⟨hm, rfl, fun v => .inr ⟨fun t ht => (by cases ht), rfl, rfl⟩⟩
  | apply u =>
    obtain ⟨entry, hentry, rfl⟩ := Option.map_eq_some_iff.mp h
    exact .inr ⟨u, entry, rfl, hentry, rfl⟩

theorem built_start (timeouts : NodeId → ℕ) (v : NodeId) : (start timeouts cfg).Built decode v [] where
  earlier := rfl
  index _ hp := absurd hp List.not_mem_nil
  executed _ hp := absurd hp List.not_mem_nil
  taken := Nat.zero_le _
  db := rfl

/-- **A step.** A crash closes a piece. -/
theorem built_step (hw : Cluster.Reachable cfg s.cluster) (hv : v ∈ cfg.ids)
    {pieces : List (List LogEntry)} (hb : s.Built decode v pieces) {act : ReplicatedAct}
    (h : s.step cfg decode act = some s') : ∃ pieces, s'.Built decode v pieces := by
  rcases step_cases h with ⟨m, -, hm, hdb, hcase⟩ | ⟨u, entry, -, hentry, rfl⟩
  · rcases Cluster.applied_step hm v with ⟨⟨t, rfl⟩, happ, hpast⟩ | ⟨hno, hpast, more, happ⟩
    · obtain ⟨-, htaken, hearlier⟩ := (hcase v).resolve_right fun hr => hr.1 t rfl
      have hlen : ((s.cluster.replicas v).applied.take (s.taken v)).length = s.taken v :=
        List.length_take_of_le hb.taken
      refine ⟨pieces ++ [(s.cluster.replicas v).applied.take (s.taken v)], ?_, ?_, ?_, ?_, ?_⟩
      · rw [List.map_append, hb.earlier, hearlier, List.map_singleton, hlen]
      · intro p hp
        rcases List.mem_append.mp hp with hp | hp
        · exact hb.index p hp
        · obtain rfl := List.mem_singleton.mp hp
          rw [hlen, Cluster.applied_index hw hv hb.taken]
      · rw [hpast]
        intro p hp x hx
        rcases List.mem_append.mp hp with hp | hp
        · exact List.mem_append_left _ (hb.executed p hp x hx)
        · obtain rfl := List.mem_singleton.mp hp
          exact List.mem_append_right _ (List.mem_of_mem_take hx)
      · rw [htaken]
        exact Nat.zero_le _
      · rw [hdb, hb.db, happ, List.take_nil, applyPieces_concat _ []]
        rfl
    · obtain ⟨-, htaken, hearlier⟩ := (hcase v).resolve_left fun hl => by
        obtain ⟨⟨t, ht⟩, -⟩ := hl
        exact hno t ht
      refine ⟨pieces, hb.earlier.trans hearlier.symm, hb.index, by rw [hpast]; exact hb.executed, ?_, ?_⟩
      · rw [htaken, happ, List.length_append]
        exact hb.taken.trans (Nat.le_add_right _ _)
      · rw [hdb, hb.db, htaken, happ, List.take_append_of_le_length hb.taken]
  · by_cases huv : v = u
    · subst huv
      obtain ⟨hlt, hget⟩ := List.getElem?_eq_some_iff.mp hentry
      refine ⟨pieces, hb.earlier, hb.index, hb.executed, ?_, ?_⟩
      · show Function.update s.taken v _ v ≤ _
        rw [Function.update_self]
        exact hlt
      · show Function.update s.db v _ v =
          applyPieces decode (pieces ++ [List.take (Function.update s.taken v _ v) _])
        rw [Function.update_self, Function.update_self, List.take_add_one, hentry, hb.db]
        simp
    · refine ⟨pieces, hb.earlier, hb.index, hb.executed, ?_, ?_⟩
      · show Function.update s.taken u _ v ≤ _
        rw [Function.update_of_ne huv]
        exact hb.taken
      · show Function.update s.db u _ v =
          applyPieces decode (pieces ++ [List.take (Function.update s.taken u _ v) _])
        rw [Function.update_of_ne huv, Function.update_of_ne huv]
        exact hb.db

/-! ## One log -/

/-- A step of the system is one of the cluster, or leaves the cluster as it is. -/
theorem step_cluster (h : Step cfg decode s s') :
    Cluster.Reaches cfg s.cluster s'.cluster ∧ ∀ v, s.cluster.executed v <+: s'.cluster.executed v := by
  obtain ⟨act, h⟩ := h
  rcases step_cases h with ⟨m, -, hm, -⟩ | ⟨u, entry, -, -, rfl⟩
  · exact ⟨Relation.ReflTransGen.single ⟨m, hm⟩, Cluster.executed_step hm⟩
  · exact ⟨Relation.ReflTransGen.refl, fun _ => List.prefix_rfl⟩

theorem reaches_cluster (h : Reaches cfg decode s s') :
    Cluster.Reaches cfg s.cluster s'.cluster ∧ ∀ v, s.cluster.executed v <+: s'.cluster.executed v := by
  induction h with
  | refl => exact ⟨Relation.ReflTransGen.refl, fun _ => List.prefix_rfl⟩
  | tail _ hstep ih =>
    obtain ⟨hr, hpre⟩ := step_cluster hstep
    exact ⟨ih.1.trans hr, fun v => (ih.2 v).trans (hpre v)⟩

theorem Reachable.cluster (h : Reachable cfg decode s) : Cluster.Reachable cfg s.cluster := by
  obtain ⟨timeouts, hr⟩ := h
  exact ⟨timeouts, (reaches_cluster hr).1⟩

theorem exists_built (h : Reachable cfg decode s) (hv : v ∈ cfg.ids) :
    ∃ pieces, s.Built decode v pieces := by
  obtain ⟨timeouts, hr⟩ := h
  induction hr with
  | refl => exact ⟨[], built_start timeouts v⟩
  | tail hpast hstep ih =>
    obtain ⟨pieces, hb⟩ := ih
    obtain ⟨act, hact⟩ := hstep
    exact built_step (Reachable.cluster ⟨timeouts, hpast⟩) hv hb hact

/-- The command that the cluster has for each index. -/
theorem exists_command {w : Cluster} (h : Cluster.Reachable cfg w) :
    ∃ command : ℕ → Command, ∀ v ∈ cfg.ids, ∀ x ∈ w.executed v, x.command = command x.index := by
  have hchoose : ∀ i : ℕ, ∃ c : Command, ∀ v ∈ cfg.ids, ∀ x ∈ w.executed v, x.index = i → x.command = c := by
    intro i
    by_cases hex : ∃ v ∈ cfg.ids, ∃ x ∈ w.executed v, x.index = i
    · obtain ⟨u, hu, y, hy, hyi⟩ := hex
      refine ⟨y.command, fun v hv x hx hxi => ?_⟩
      rw [Cluster.executed_unique h hv hu hx hy (hxi.trans hyi.symm)]
    · exact ⟨[], fun v hv x hx hxi => absurd ⟨v, hv, x, hx, hxi⟩ hex⟩
  choose command hcommand using hchoose
  exact ⟨command, fun v hv x hx => hcommand _ v hv x hx rfl⟩

/-- A piece is what the log starts with. -/
theorem piece_eq_take {command : ℕ → Command} {n : ℕ} {p : List LogEntry}
    (hindex : p.map LogEntry.index = List.range' 1 p.length) (hlen : p.length ≤ n)
    (hcommand : ∀ x ∈ p, x.command = command x.index) :
    p.map LogEntry.command = ((List.range' 1 n).map command).take p.length := by
  calc p.map LogEntry.command = (p.map LogEntry.index).map command := by
        rw [List.map_map]
        exact List.map_congr_left hcommand
    _ = ((List.range' 1 n).map command).take p.length := by
        rw [hindex, ← List.map_take, List.take_range'_of_length_ge hlen]

/-- The pieces with the last one: how far each loop got, and what it took. -/
theorem Built.pieces (h : Reachable cfg decode s) (hv : v ∈ cfg.ids) {pieces : List (List LogEntry)}
    (hb : s.Built decode v pieces) :
    (pieces ++ [(s.cluster.replicas v).applied.take (s.taken v)]).map List.length = s.lengths v ∧
      ∀ p ∈ pieces ++ [(s.cluster.replicas v).applied.take (s.taken v)],
        p.map LogEntry.index = List.range' 1 p.length ∧ ∀ x ∈ p, x ∈ s.cluster.executed v := by
  have hlen : ((s.cluster.replicas v).applied.take (s.taken v)).length = s.taken v :=
    List.length_take_of_le hb.taken
  constructor
  · rw [List.map_append, hb.earlier, List.map_singleton, hlen]
    rfl
  · intro p hp
    rcases List.mem_append.mp hp with hp | hp
    · exact ⟨hb.index p hp, fun x hx => List.mem_append_left _ (hb.executed p hp x hx)⟩
    · obtain rfl := List.mem_singleton.mp hp
      refine ⟨?_, fun x hx => List.mem_append_right _ (List.mem_of_mem_take hx)⟩
      rw [hlen, Cluster.applied_index h.cluster hv hb.taken]

/-- No loop got further than the entries go that the node has applied. -/
theorem Built.lengths_le (h : Reachable cfg decode s) (hv : v ∈ cfg.ids) {pieces : List (List LogEntry)}
    (hb : s.Built decode v pieces) {n : ℕ} (hn : ∀ x ∈ s.cluster.executed v, x.index ≤ n) :
    ∀ k ∈ s.lengths v, k ≤ n := by
  obtain ⟨hlengths, hpieces⟩ := hb.pieces h hv
  intro k hk
  rw [← hlengths] at hk
  obtain ⟨p, hp, rfl⟩ := List.mem_map.mp hk
  obtain ⟨hindex, hexecuted⟩ := hpieces p hp
  rcases Nat.eq_zero_or_pos p.length with hzero | hpos
  · rw [hzero]
    exact Nat.zero_le n
  · have hlast : p.length ∈ p.map LogEntry.index := by
      rw [hindex, List.mem_range'_1]
      omega
    obtain ⟨x, hx, hxp⟩ := List.mem_map.mp hlast
    exact hxp ▸ hn x (hexecuted x hx)

theorem Built.follows (h : Reachable cfg decode s) (hv : v ∈ cfg.ids) {pieces : List (List LogEntry)}
    (hb : s.Built decode v pieces) {command : ℕ → Command}
    (hcommand : ∀ x ∈ s.cluster.executed v, x.command = command x.index) {n : ℕ}
    (hn : ∀ k ∈ s.lengths v, k ≤ n) : s.Follows decode ((List.range' 1 n).map command) v := by
  obtain ⟨hlengths, hpieces⟩ := hb.pieces h hv
  refine ⟨fun k hk => by simpa using hn k hk, ?_⟩
  rw [hb.db, ← hlengths]
  unfold applyPieces Replay.rebuild
  rw [List.foldl_map]
  refine List.foldl_ext _ _ _ fun db p hp => ?_
  obtain ⟨hindex, hexecuted⟩ := hpieces p hp
  have hle : p.length ≤ n := hn _ (hlengths ▸ List.mem_map_of_mem hp)
  rw [piece_eq_take hindex hle fun x hx => hcommand x (hexecuted x hx)]

theorem exists_furthest (ids : Finset NodeId) (f : NodeId → List ℕ) :
    ∃ n, (∀ v ∈ ids, ∀ k ∈ f v, k ≤ n) ∧ (n = 0 ∨ ∃ v ∈ ids, n ∈ f v) := by
  let all : Finset ℕ := ids.biUnion fun v => (f v).toFinset
  have hall : ∀ k, k ∈ all ↔ ∃ v ∈ ids, k ∈ f v := by simp [all]
  by_cases hsome : all.Nonempty
  · exact ⟨all.max' hsome, fun v hv k hk => all.le_max' k ((hall k).mpr ⟨v, hv, hk⟩),
      .inr ((hall _).mp (all.max'_mem hsome))⟩
  · exact ⟨0, fun v hv k hk => absurd ⟨k, (hall k).mpr ⟨v, hv, hk⟩⟩ hsome, .inl rfl⟩

theorem Follows.of_alone {log : List Command} (hf : s.Follows decode log v) (halone : s.earlier v = []) :
    s.taken v ≤ log.length ∧ s.db v = (log.take (s.taken v)).foldl (applyEntry decode) ∅ := by
  have hlengths : s.lengths v = [s.taken v] := by
    unfold lengths
    rw [halone]
    rfl
  unfold Follows at hf
  rw [hlengths] at hf
  exact ⟨hf.1 _ List.mem_cons_self, hf.2⟩

/-- **One log.** At any two times of a run, the stores of all replicas come from one log. What a replica
that has not restarted has in its stores leads, by more entries of the log, to what any other such
replica has that has taken as many entries or more. If the stores refuse what comes again, this is so of
all of them: each has applied the log once, as far as any of its loops got. The log ends where the furthest of
all loops got. -/
theorem stores_share_log (h : Reachable cfg decode s) (h' : Reaches cfg decode s s') :
    ∃ log : List Command,
      (∀ v ∈ cfg.ids, s.Follows decode log v ∧ s'.Follows decode log v) ∧
      (∀ u ∈ cfg.ids, ∀ v ∈ cfg.ids, s.earlier u = [] → s'.earlier v = [] → s.taken u ≤ s'.taken v →
        s'.db v = ((log.take (s'.taken v)).drop (s.taken u)).foldl (applyEntry decode) (s.db u)) ∧
      ((∀ past, past <+: log → ∀ entry ∈ past,
          EntryRefused decode (past.foldl (applyEntry decode) ∅) entry) →
        ∀ v ∈ cfg.ids, ∀ r ∈ [s, s'],
          r.db v = (log.take ((r.lengths v).foldl max 0)).foldl (applyEntry decode) ∅) ∧
      (log.length = 0 ∨ ∃ v ∈ cfg.ids, log.length ∈ s.lengths v ++ s'.lengths v) := by
  obtain ⟨hreach, hpre⟩ := reaches_cluster h'
  have hs' : Reachable cfg decode s' := by
    obtain ⟨timeouts, hr⟩ := h
    exact ⟨timeouts, hr.trans h'⟩
  obtain ⟨command, hcommand⟩ := exists_command hs'.cluster
  obtain ⟨n, hn, hend⟩ := exists_furthest cfg.ids fun v => s.lengths v ++ s'.lengths v
  have hfollows : ∀ v ∈ cfg.ids, s.Follows decode ((List.range' 1 n).map command) v ∧
      s'.Follows decode ((List.range' 1 n).map command) v := by
    intro v hv
    obtain ⟨pieces, hb⟩ := exists_built h hv
    obtain ⟨pieces', hb'⟩ := exists_built hs' hv
    constructor
    · exact hb.follows h hv (fun x hx => hcommand v hv x ((hpre v).subset hx))
        fun k hk => hn v hv k (List.mem_append_left _ hk)
    · exact hb'.follows hs' hv (hcommand v hv) fun k hk => hn v hv k (List.mem_append_right _ hk)
  refine ⟨(List.range' 1 n).map command, hfollows, ?_, ?_, by simpa using hend⟩
  · intro u hu v hv halone halone' hle
    obtain ⟨-, hdb⟩ := (hfollows u hu).1.of_alone halone
    obtain ⟨-, hdb'⟩ := (hfollows v hv).2.of_alone halone'
    rw [hdb', hdb, ← List.foldl_append]
    conv_lhs => rw [← List.take_append_drop (s.taken u) (List.take (s'.taken v) _)]
    rw [List.take_take, min_eq_left hle]
  · intro hold v hv r hr
    have hr' : r.Follows decode ((List.range' 1 n).map command) v := by
      rcases List.mem_cons.mp hr with rfl | hr
      · exact (hfollows v hv).1
      · obtain rfl := List.mem_singleton.mp hr
        exact (hfollows v hv).2
    rw [hr'.2, (applyEntry_counted decode).rebuild_eq hold]

/-! ## A restart -/

def createWebText : String :=
  "\x7b\"id\":\"00000000-0000-0000-0000-000000000001\",\"kind\":\"pods/\",\"op\":" ++
  "\x7b\"Create\":\x7b\"obj\":\x7b\"apiVersion\":\"v1\",\"kind\":\"Pod\",\"metadata\":" ++
  "\x7b\"creationTimestamp\":\"2026-06-12T10:00:00Z\",\"generation\":1,\"name\":\"web\"," ++
  "\"uid\":\"uid-web\"\x7d,\"spec\":\x7b\"containers\":[]\x7d\x7d\x7d\x7d\x7d"

def createWebEntry : Command := createWebText.toList.flatMap String.utf8EncodeChar

def decodeWeb (entry : Command) : Option StoreCommand :=
  if entry = createWebEntry then some createWeb else none

/-- Node 1 is elected by node 2, commits the entry with it and applies it. -/
def createSchedule : List ReplicatedAct :=
  [.raft (.event 1 .tick 10), .raft (.exec 1), .raft (.exec 1), .raft (.exec 1),
    .raft (.event 2 (.message 1 (.requestVote ⟨1, 1, 0, 0⟩)) 10), .raft (.exec 2), .raft (.exec 2),
    .raft (.exec 2), .raft (.event 1 (.message 2 (.requestVoteResp ⟨1, true⟩)) 10), .raft (.exec 1),
    .raft (.exec 1), .raft (.event 1 (.propose createWebEntry) 10), .raft (.exec 1), .raft (.exec 1),
    .raft (.exec 1),
    .raft (.event 2 (.message 1 (.appendEntries ⟨1, 1, 0, 0, [⟨1, 1, createWebEntry⟩], 0⟩)) 10),
    .raft (.exec 2), .raft (.exec 2),
    .raft (.event 1 (.message 2 (.appendEntriesResp ⟨1, true, 1⟩)) 10), .raft (.exec 1), .apply 1]

def beforeRestart : Replicated :=
  ((start (fun _ => 1) Raft.trio).run Raft.trio decodeWeb createSchedule).get (by decide +kernel)

def afterRestart : Replicated :=
  (beforeRestart.run Raft.trio decodeWeb [.raft (.crash 1 10)]).get (by decide +kernel)

/-- The pod outlives the loop that created it. -/
theorem stores_share_log_web :
    afterRestart.lengths 1 = [1, 0] ∧ afterRestart.lengths 2 = [0] ∧
      (afterRestart.db 1)["pods/web"]?.isSome = true ∧
      ∃ log, ∀ v ∈ Raft.trio.ids, afterRestart.Follows decodeWeb log v := by
  have hbefore : Reachable Raft.trio decodeWeb beforeRestart :=
    ⟨fun _ => 1, reaches_run (Option.some_get _).symm⟩
  have hafter : Reaches Raft.trio decodeWeb beforeRestart afterRestart :=
    reaches_run (Option.some_get _).symm
  obtain ⟨log, hfollows, -⟩ := stores_share_log hbefore hafter
  refine ⟨by decide +kernel, by decide +kernel, by decide +kernel, log, fun v hv => ?_⟩
  exact (hfollows v hv).2

end Replicated

end MyK8s.ApiServer
