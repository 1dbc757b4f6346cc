import MyK8s.Raft.Durability

/-!
# A cluster of Raft nodes

Any number of shells, each with its own disk, over a network that holds every packet ever sent:
delivering a packet takes nothing out of it, so packets may be lost, duplicated, delayed and
reordered, but not forged. Storage calls succeed (`RaftStorage.api`).

A batch of effects does not run at once. A `Move` is the step of the state machine alone, or one
effect of the batch that is still pending, or a crash of a node at any point in between, followed
by its restart from disk. Other nodes may move between any two effects.
-/

namespace MyK8s.Raft

/-- The members of a cluster. The peers of a member are all the others, each once. -/
structure Config where
  ids : Finset NodeId
  peers : NodeId → List NodeId
  nodup : ∀ v ∈ ids, (peers v).Nodup
  mem_peers : ∀ v ∈ ids, ∀ p, p ∈ peers v ↔ p ∈ ids ∧ p ≠ v

structure Packet where
  src : NodeId
  dst : NodeId
  msg : Message
  deriving DecidableEq, Repr

/-- A shell: its node and disk, the effects of the current batch that have not been run, and the
entries it has applied, since its last restart (`applied`) and in earlier incarnations (`past`).
`lost` has the entries of the `Apply` effects that crashes kept from being run. -/
structure Replica where
  node : RaftNode
  disk : RaftStorage
  pending : List Effect
  applied : List LogEntry
  past : List LogEntry
  lost : List LogEntry

structure Cluster where
  replicas : NodeId → Replica
  network : List Packet

inductive Move
  /-- Node `v` takes a step on an event; `timeout` is what its generator would give next. -/
  | event (v : NodeId) (ev : Event) (timeout : ℕ)
  /-- Node `v` runs the next effect of its batch. -/
  | exec (v : NodeId)
  /-- Node `v` crashes and restarts from its disk. -/
  | crash (v : NodeId) (timeout : ℕ)
  deriving DecidableEq, Repr

namespace Cluster

def set (w : Cluster) (v : NodeId) (r : Replica) : Cluster :=
  { w with replicas := Function.update w.replicas v r }

/-- An event can reach node `v`: what is delivered must have been sent. -/
def offers (w : Cluster) (v : NodeId) : Event → Bool
  | .message src msg => ⟨src, v, msg⟩ ∈ w.network
  | _ => true

/-- The replica after it ran the effect `e`, with `rest` still to run. -/
def runEffect (r : Replica) (e : Effect) (rest : List Effect) : Replica where
  node := r.node
  disk := (executeEffect RaftStorage.api r.node r.disk e).1
  pending := rest
  applied := r.applied ++ Effect.applies [e]
  past := r.past
  lost := r.lost

/-- The packets that the effect `e` of node `v` puts on the network. -/
def packets (v : NodeId) (e : Effect) : List Packet :=
  (Effect.sends [e]).map fun (dst, msg) => ⟨v, dst, msg⟩

/-- The replica after a restart from its disk. -/
def restart (cfg : Config) (v : NodeId) (timeout : ℕ) (r : Replica) : Replica where
  node := recover v (cfg.peers v) timeout r.disk
  disk := r.disk
  pending := []
  applied := []
  past := r.past ++ r.applied
  lost := r.lost ++ Effect.applies r.pending

/-- One move, where it is possible. -/
def step (cfg : Config) (w : Cluster) : Move → Option Cluster
  | .event v ev timeout =>
    let r := w.replicas v
    if v ∈ cfg.ids ∧ r.pending = [] ∧ w.offers v ev = true then
      let (node, effects) := stepShell r.node ev timeout
      some (w.set v { r with node := node, pending := effects })
    else none
  | .exec v =>
    let r := w.replicas v
    match r.pending with
    | [] => none
    | e :: rest =>
      if v ∈ cfg.ids then
        some { w.set v (runEffect r e rest) with network := w.network ++ packets v e }
      else none
  | .crash v timeout =>
    if v ∈ cfg.ids then some (w.set v (restart cfg v timeout (w.replicas v))) else none

/-- Every node starts on an empty disk, with some election timeout. -/
def init (cfg : Config) (timeouts : NodeId → ℕ) : Cluster where
  replicas v :=
    { node := recover v (cfg.peers v) (timeouts v) RaftStorage.fresh
      disk := RaftStorage.fresh
      pending := []
      applied := []
      past := []
      lost := [] }
  network := []

def Step (cfg : Config) (w w' : Cluster) : Prop := ∃ m, w.step cfg m = some w'

/-- `w'` is a later state of the run that is in `w`. -/
abbrev Reaches (cfg : Config) : Cluster → Cluster → Prop := Relation.ReflTransGen (Step cfg)

def Reachable (cfg : Config) (w : Cluster) : Prop := ∃ timeouts, Reaches cfg (init cfg timeouts) w

/-- The moves of a schedule, one after the other. -/
def run (cfg : Config) (w : Cluster) : List Move → Option Cluster
  | [] => some w
  | m :: ms => (w.step cfg m).bind fun w' => run cfg w' ms

/-- A node is the leader of term `t`. -/
def LeaderOf (w : Cluster) (v : NodeId) (t : ℕ) : Prop :=
  (w.replicas v).node.role.isLeader = true ∧ (w.replicas v).node.currentTerm = t

instance (w : Cluster) (v : NodeId) (t : ℕ) : Decidable (w.LeaderOf v t) := by
  unfold LeaderOf; infer_instance

/-- What a replica has emitted `Apply` for since its last restart, run or still pending. -/
def emittedSinceRestart (w : Cluster) (v : NodeId) : List LogEntry :=
  (w.replicas v).applied ++ Effect.applies (w.replicas v).pending

/-- What a replica has emitted `Apply` for, in all its incarnations, save the effects that a crash
kept from being run. -/
def emitted (w : Cluster) (v : NodeId) : List LogEntry :=
  (w.replicas v).past ++ w.emittedSinceRestart v

/-- The same with the effects that were in a batch of `step` but were lost in a crash. -/
def emittedOrLost (w : Cluster) (v : NodeId) : List LogEntry :=
  (w.replicas v).lost ++ w.emitted v

/-- The logs of a replica: in memory, and as `load_log` would return it. -/
def logsOf (w : Cluster) (v : NodeId) : List RaftLog :=
  [(w.replicas v).node.log, RaftLog.fromEntries (w.replicas v).disk.loadLog]

/-! ## Moves -/

section Moves

variable {cfg : Config} {w w' : Cluster}

@[simp] theorem set_replicas_self (w : Cluster) (v : NodeId) (r : Replica) :
    (w.set v r).replicas v = r := by
  unfold set
  exact Function.update_self v r w.replicas

theorem set_replicas_of_ne (w : Cluster) {v u : NodeId} (h : u ≠ v) (r : Replica) :
    (w.set v r).replicas u = w.replicas u := by
  unfold set
  exact Function.update_of_ne h r w.replicas

theorem reaches_run {ms : List Move} : ∀ {w : Cluster}, w.run cfg ms = some w' → Reaches cfg w w' := by
  induction ms with
  | nil =>
    intro w h
    obtain rfl := Option.some.inj h
    exact Relation.ReflTransGen.refl
  | cons m ms ih =>
    intro w h
    obtain ⟨w₁, hm, hms⟩ := Option.bind_eq_some_iff.mp h
    exact Relation.ReflTransGen.head ⟨m, hm⟩ (ih hms)

theorem Reachable.trans (h : Reachable cfg w) (h' : Reaches cfg w w') : Reachable cfg w' := by
  obtain ⟨timeouts, hr⟩ := h
  exact ⟨timeouts, hr.trans h'⟩

/-- What a move does to the replica it moves, and to the network. -/
inductive Moved (cfg : Config) (w : Cluster) (v : NodeId) : Replica → List Packet → Prop
  | event (ev : Event) (timeout : ℕ) (hidle : (w.replicas v).pending = [])
      (hoffer : ∀ src msg, ev = .message src msg → ⟨src, v, msg⟩ ∈ w.network) :
      Moved cfg w v
        { w.replicas v with
          node := (stepShell (w.replicas v).node ev timeout).1
          pending := (stepShell (w.replicas v).node ev timeout).2 } w.network
  | exec (e : Effect) (rest : List Effect) (hpending : (w.replicas v).pending = e :: rest) :
      Moved cfg w v (runEffect (w.replicas v) e rest) (w.network ++ packets v e)
  | crash (timeout : ℕ) : Moved cfg w v (restart cfg v timeout (w.replicas v)) w.network

theorem step_moved (h : Step cfg w w') :
    ∃ v r, v ∈ cfg.ids ∧ Moved cfg w v r w'.network ∧
      w'.replicas = Function.update w.replicas v r := by
  obtain ⟨m, hm⟩ := h
  cases m with
  | event v ev timeout =>
    simp only [step] at hm
    split at hm
    · rename_i hcond
      obtain rfl := Option.some.inj hm
      refine ⟨v, _, hcond.1, Moved.event ev timeout hcond.2.1 ?_, rfl⟩
      rintro src msg rfl
      exact of_decide_eq_true hcond.2.2
    · cases hm
  | exec v =>
    simp only [step] at hm
    split at hm
    · cases hm
    · rename_i e rest hp
      split at hm
      · rename_i hv
        obtain rfl := Option.some.inj hm
        exact ⟨v, _, hv, Moved.exec e rest hp, rfl⟩
      · cases hm
  | crash v timeout =>
    simp only [step] at hm
    split at hm
    · rename_i hv
      obtain rfl := Option.some.inj hm
      exact ⟨v, _, hv, Moved.crash timeout, rfl⟩
    · cases hm

/-- A replica can run the rest of its batch while the others stand still. -/
theorem drain {v : NodeId} (hv : v ∈ cfg.ids) (pending : List Effect) :
    ∀ w : Cluster, (w.replicas v).pending = pending → ∃ w', Reaches cfg w w' ∧
      (w'.replicas v).node = (w.replicas v).node ∧ (w'.replicas v).pending = [] ∧
      (w'.replicas v).applied = (w.replicas v).applied ++ Effect.applies pending ∧
      (w'.replicas v).past = (w.replicas v).past ∧
      ∀ u, u ≠ v → w'.replicas u = w.replicas u := by
  induction pending with
  | nil =>
    intro w hp
    exact ⟨w, Relation.ReflTransGen.refl, rfl, hp, (List.append_nil _).symm, rfl, fun _ _ => rfl⟩
  | cons e rest ih =>
    intro w hp
    have hstep : w.step cfg (.exec v) =
        some { w.set v (runEffect (w.replicas v) e rest) with
          network := w.network ++ packets v e } := by
      simp only [step, hp, if_pos hv]
    set w₁ : Cluster := { w.set v (runEffect (w.replicas v) e rest) with
      network := w.network ++ packets v e } with hw₁
    have hself : w₁.replicas v = runEffect (w.replicas v) e rest := set_replicas_self w v _
    obtain ⟨w', hreach, hnode, hnil, happ, hpast, hother⟩ := ih w₁ (by rw [hself]; rfl)
    rw [hself] at hnode happ hpast
    refine ⟨w', Relation.ReflTransGen.head ⟨_, hstep⟩ hreach, hnode, hnil, ?_, hpast,
      fun u hu => (hother u hu).trans (set_replicas_of_ne w hu _)⟩
    have hcons : Effect.applies (e :: rest) = Effect.applies [e] ++ Effect.applies rest :=
      List.filterMap_append (l := [e])
    rw [happ, hcons, ← List.append_assoc]
    rfl

end Moves

end Cluster

end MyK8s.Raft
