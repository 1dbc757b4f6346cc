import MyK8s.Raft.Recovery

/-!
# The cluster invariant

Beside every run of the cluster there is a growing ledger. A replica is `Synced` with it when all
storage calls of its batch have been run, so that disk, memory and ledger agree; otherwise it is
`Busy`: the ledger still has the node from before the step, and the step will be entered when its
last storage call is done. A crash in between is covered by `crash_simulates`.

`inv_step`: every move keeps the invariant, over a ledger that has only grown.
-/

namespace MyK8s.Raft

open Consensus

/-! ## The election timeout -/

theorem stepShell_eq (n : RaftNode) (ev : Event) (timeout : ℕ) :
    ∃ t, stepShell n ev timeout =
      ({ (n.step ev).1 with electionTimeoutTicks := t }, (n.step ev).2) := by
  unfold stepShell
  simp only
  split
  · exact ⟨timeout, rfl⟩
  · exact ⟨(n.step ev).1.electionTimeoutTicks, rfl⟩

theorem diskAfter_congr {n m : RaftNode} (h : n.hardState = m.hardState) (es : List Effect) :
    ∀ disk : RaftStorage, diskAfter n disk es = diskAfter m disk es := by
  induction es with
  | nil => intro disk; rfl
  | cons e es ih =>
    intro disk
    have he : diskAfter n disk [e] = diskAfter m disk [e] := by
      cases e with
      | persist =>
        show disk.saveHardState n.hardState = disk.saveHardState m.hardState
        rw [h]
      | _ => rfl
    rw [diskAfter_cons, he, ih, ← diskAfter_cons]

/-- The simulation of a step, with the timeout drawn anew. -/
theorem stepShell_simulates {cfg : Config} {v : NodeId} {g : RaftLedger} {n : RaftNode}
    (hv : v ∈ cfg.ids) (hI : LedgerInv cfg.ids g) (hp : PeerInv cfg.ids g v n.peer)
    (hb : Books cfg g v n) (hset : cfg.peers v ≠ [] → n.Settled) {ev : Event}
    (hev : ev.Backed cfg.ids g v) (timeout : ℕ) :
    Simulated cfg v g n (stepShell n ev timeout) := by
  obtain ⟨t, ht⟩ := stepShell_eq n ev timeout
  obtain ⟨g', h⟩ := step_simulates hv hI hp hb hset hev
  rw [ht]
  exact ⟨g', h.acts, ⟨h.books.id, h.books.peers, h.books.applied, h.books.votes, h.books.tracks⟩,
    h.settled, h.sends, h.quotes, h.keeps, h.commit_le, h.applies⟩

theorem stepShell_mirrors {n : RaftNode} {ev : Event} {disk : RaftStorage} (hm : Mirrors disk n)
    (hc : Coherent n.log.entries) (hev : ev.Contiguous) (timeout : ℕ) :
    Mirrors (diskAfter (stepShell n ev timeout).1 disk (stepShell n ev timeout).2)
      (stepShell n ev timeout).1 := by
  obtain ⟨t, ht⟩ := stepShell_eq n ev timeout
  have hend := step_mirrors hm hc hev
  have hsame : ({ (n.step ev).1 with electionTimeoutTicks := t } : RaftNode).hardState =
      (n.step ev).1.hardState := rfl
  rw [ht]
  simp only
  rw [diskAfter_congr hsame]
  exact ⟨hend.hardState, hend.log⟩

/-! ## Replicas -/

/-- What the ledger, the node and its books say together. -/
structure Standing (cfg : Config) (g : RaftLedger) (v : NodeId) (n : RaftNode) : Prop where
  peer : PeerInv cfg.ids g v n.peer
  books : Books cfg g v n
  settled : cfg.peers v ≠ [] → n.Settled

/-- All storage calls of the replica's batch have been run. -/
structure Synced (cfg : Config) (g : RaftLedger) (v : NodeId) (r : Replica) : Prop where
  standing : Standing cfg g v r.node
  disk : Mirrors r.disk r.node
  idle : ∀ e ∈ r.pending, e.isStore = false
  sends : ∀ dst msg, .send dst msg ∈ r.pending → Backed cfg.ids g ⟨v, dst, msg⟩
  quotes : ∀ dst req, .send dst (.appendEntries req) ∈ r.pending → Quotes r.node req
  applied : r.applied ++ Effect.applies r.pending =
    r.node.log.entries.take r.node.commitIndex

/-- The replica stepped from `n` on `ev`; the storage calls `done` have been run on the disk
`base`, and others are pending. -/
structure Busy (cfg : Config) (g : RaftLedger) (v : NodeId) (r : Replica) (n : RaftNode)
    (ev : Event) (timeout : ℕ) (done : List Effect) (base : RaftStorage) : Prop where
  standing : Standing cfg g v n
  event : ev.Backed cfg.ids g v
  step : stepShell n ev timeout = (r.node, done ++ r.pending)
  stores : ∀ e ∈ done, e.isStore = true
  more : ∃ e ∈ r.pending, e.isStore = true
  mirrors : Mirrors base n
  disk : r.disk = diskAfter r.node base done
  applied : r.applied = n.log.entries.take n.commitIndex

structure ReplicaInv (cfg : Config) (g : RaftLedger) (v : NodeId) (r : Replica) : Prop where
  state : Synced cfg g v r ∨ ∃ n ev timeout done base, Busy cfg g v r n ev timeout done base
  past : ∀ x ∈ r.past, Decided cfg.ids g x
  lost : cfg.peers v ≠ [] → ∀ x ∈ r.lost, Decided cfg.ids g x

/-- The invariant of the cluster `w` beside the ledger `g`. -/
structure Inv (cfg : Config) (w : Cluster) (g : RaftLedger) : Prop where
  ledger : LedgerInv cfg.ids g
  replicas : ∀ v ∈ cfg.ids, ReplicaInv cfg g v (w.replicas v)
  network : ∀ p ∈ w.network, Backed cfg.ids g p

section Replicas

variable {cfg : Config} {g g' : RaftLedger} {v : NodeId} {r : Replica}

theorem Standing.coherent {n : RaftNode} (h : Standing cfg g v n) : Coherent n.log.entries :=
  fun k e hk => (h.peer.log_valid k e hk).1

theorem Standing.frame {n : RaftNode} {u : NodeId} {τ : ℕ} (hI : LedgerInv cfg.ids g)
    (hg : Ledger.Grows u τ g g') (hne : v ≠ u) (h : Standing cfg g v n) : Standing cfg g' v n where
  peer := h.peer.frame hI hg hne
  books := h.books.mono hg.toLe
  settled := h.settled

/-- Growth of the ledger by another replica is of no concern. -/
theorem ReplicaInv.frame {u : NodeId} {τ : ℕ} (hI : LedgerInv cfg.ids g)
    (hg : Ledger.Grows u τ g g') (hne : v ≠ u) (h : ReplicaInv cfg g v r) :
    ReplicaInv cfg g' v r where
  state := by
    rcases h.state with hs | ⟨n, ev, timeout, done, base, hb⟩
    · exact Or.inl { hs with
        standing := hs.standing.frame hI hg hne
        sends := fun dst msg hm => (hs.sends dst msg hm).mono hg.toLe }
    · exact Or.inr ⟨n, ev, timeout, done, base, { hb with
        standing := hb.standing.frame hI hg hne
        event := hb.event.mono hg.toLe }⟩
  past x hx := (h.past x hx).mono hg.toLe
  lost hne x hx := (h.lost hne x hx).mono hg.toLe

/-- A replica with an empty batch is synced. -/
theorem ReplicaInv.synced_of_idle (h : ReplicaInv cfg g v r)
    (hidle : ∀ e ∈ r.pending, e.isStore = false) : Synced cfg g v r := by
  rcases h.state with hs | ⟨n, ev, timeout, done, base, hb⟩
  · exact hs
  · obtain ⟨e, he, hstore⟩ := hb.more
    rw [hidle e he] at hstore
    cases hstore

/-- What a node has applied is decided. -/
theorem Standing.decided {n : RaftNode} (h : Standing cfg g v n) {x : LogEntry}
    (hx : x ∈ n.log.entries.take n.commitIndex) : Decided cfg.ids g x :=
  ⟨_, _, h.peer.commit_safe, hx⟩

/-- A replica whose last storage call has been done is synced again, over a ledger that has grown
by its step. -/
theorem synced_of_step {n : RaftNode} {ev : Event} {timeout : ℕ} {done : List Effect}
    {base : RaftStorage} (hv : v ∈ cfg.ids) (hI : LedgerInv cfg.ids g)
    (hstand : Standing cfg g v n) (hev : ev.Backed cfg.ids g v)
    (hstep : stepShell n ev timeout = (r.node, done ++ r.pending))
    (hstores : ∀ e ∈ done, e.isStore = true) (hidle : ∀ e ∈ r.pending, e.isStore = false)
    (hbase : Mirrors base n) (hdisk : r.disk = diskAfter r.node base done)
    (happlied : r.applied = n.log.entries.take n.commitIndex) :
    ∃ g', Sound cfg.ids v n.peer g r.node.peer g' ∧ Synced cfg g' v r := by
  obtain ⟨g', h⟩ := stepShell_simulates hv hI hstand.peer hstand.books hstand.settled hev timeout
  have hm := stepShell_mirrors hbase hstand.coherent (hev.contiguous hI) timeout
  rw [hstep] at h hm
  have hs := Acts.sound h.acts hI hstand.peer
  rw [diskAfter_append, diskAfter_of_idle hidle, ← hdisk] at hm
  refine ⟨g', hs, ⟨hs.peer, h.books, h.settled⟩, hm, hidle,
    fun dst msg hmem => h.sends dst msg (List.mem_append_right _ hmem),
    fun dst req hmem => h.quotes dst req (List.mem_append_right _ hmem), ?_⟩
  have happ := h.applies
  rw [Effect.applies_append, Effect.applies_of_none fun e he =>
    Effect.not_isApply_of_isStore (hstores e he), List.nil_append] at happ
  rw [happlied, happ, ← h.keeps]
  have htake := List.take_append_drop n.commitIndex
    (r.node.log.entries.take r.node.commitIndex)
  rwa [List.take_take, min_eq_left h.commit_le] at htake

/-! ## Moves of one replica -/

/-- What a move of replica `v` owes: its own invariant over a grown ledger, and backed packets. -/
def Owed (cfg : Config) (g : RaftLedger) (v : NodeId) (r : Replica) (sent : List Packet) : Prop :=
  ∃ g' τ, LedgerInv cfg.ids g' ∧ Ledger.Grows v τ g g' ∧ ReplicaInv cfg g' v r ∧
    ∀ p ∈ sent, Backed cfg.ids g' p

/-- The replica takes a step. -/
theorem event_owed (hv : v ∈ cfg.ids) (hI : LedgerInv cfg.ids g) (h : ReplicaInv cfg g v r)
    (hpending : r.pending = []) {ev : Event} (hev : ev.Backed cfg.ids g v) (timeout : ℕ) :
    Owed cfg g v { r with node := (stepShell r.node ev timeout).1
                          pending := (stepShell r.node ev timeout).2 } [] := by
  have hs := h.synced_of_idle fun e he => by rw [hpending] at he; cases he
  have happlied : r.applied = r.node.log.entries.take r.node.commitIndex := by
    have := hs.applied
    rw [hpending] at this
    rwa [show Effect.applies [] = [] from rfl, List.append_nil] at this
  set r' : Replica := { r with node := (stepShell r.node ev timeout).1
                               pending := (stepShell r.node ev timeout).2 } with hr'
  have hstep : stepShell r.node ev timeout = (r'.node, [] ++ r'.pending) := rfl
  by_cases hidle : ∀ e ∈ r'.pending, e.isStore = false
  · -- nothing to store: the step is entered at once
    obtain ⟨g', hsound, hsync⟩ := synced_of_step hv hI hs.standing hev hstep
      (fun e he => absurd he List.not_mem_nil) hidle hs.disk rfl happlied
    exact ⟨g', _, hsound.ledger, hsound.grows,
      ⟨Or.inl hsync, fun x hx => (h.past x hx).mono hsound.grows.toLe,
        fun hne x hx => (h.lost hne x hx).mono hsound.grows.toLe⟩,
      fun p hp => absurd hp List.not_mem_nil⟩
  · push Not at hidle
    obtain ⟨e, he, hstore⟩ := hidle
    refine ⟨g, 0, hI, Ledger.Grows.refl v 0 g, ⟨Or.inr ⟨r.node, ev, timeout, [], r.disk, ?_⟩,
      h.past, h.lost⟩, fun p hp => absurd hp List.not_mem_nil⟩
    exact ⟨hs.standing, hev, hstep, fun e he => absurd he List.not_mem_nil,
      ⟨e, he, by simpa using hstore⟩, hs.disk, rfl, happlied⟩

theorem executeEffect_idle {n : RaftNode} {disk : RaftStorage} {e : Effect}
    (h : e.isStore = false) : (executeEffect RaftStorage.api n disk e).1 = disk := by
  cases e with
  | persist => cases h
  | persistTruncate start => cases h
  | persistEntries entries => cases h
  | _ => rfl

theorem packets_of_store {e : Effect} (h : e.isStore = true) : Cluster.packets v e = [] := by
  cases e with
  | send dst msg => cases h
  | _ => rfl

/-- A synced replica runs an effect that is not a storage call. -/
theorem exec_owed_of_synced (hI : LedgerInv cfg.ids g) (hs : Synced cfg g v r)
    (hpast : ∀ x ∈ r.past, Decided cfg.ids g x)
    (hlost : cfg.peers v ≠ [] → ∀ x ∈ r.lost, Decided cfg.ids g x) {e : Effect} {rest : List Effect}
    (hpending : r.pending = e :: rest) :
    Owed cfg g v (Cluster.runEffect r e rest) (Cluster.packets v e) := by
  obtain ⟨hstand, hdisk, hidle, hsends, hquotes, happlied⟩ := hs
  rw [hpending] at hidle hsends hquotes happlied
  have hsame : (Cluster.runEffect r e rest).disk = r.disk :=
    executeEffect_idle (hidle e List.mem_cons_self)
  refine ⟨g, 0, hI, Ledger.Grows.refl v 0 g, ⟨Or.inl ⟨hstand, ?_, ?_, ?_, ?_, ?_⟩, hpast, hlost⟩, ?_⟩
  · rw [hsame]
    exact hdisk
  · exact fun x hx => hidle x (List.mem_cons_of_mem _ hx)
  · exact fun dst msg hm => hsends dst msg (List.mem_cons_of_mem _ hm)
  · exact fun dst req hm => hquotes dst req (List.mem_cons_of_mem _ hm)
  · show r.applied ++ Effect.applies [e] ++ Effect.applies rest = _
    rw [List.append_assoc, ← Effect.applies_append]
    exact happlied
  · intro p hp
    cases e with
    | send dst msg =>
      obtain rfl := List.mem_singleton.mp hp
      exact hsends dst msg List.mem_cons_self
    | _ => cases hp

/-- A busy replica runs the next storage call, perhaps the last. -/
theorem exec_owed_of_busy (hv : v ∈ cfg.ids) (hI : LedgerInv cfg.ids g) {n : RaftNode}
    {ev : Event} {timeout : ℕ} {done : List Effect} {base : RaftStorage}
    (hb : Busy cfg g v r n ev timeout done base) (hpast : ∀ x ∈ r.past, Decided cfg.ids g x)
    (hlost : cfg.peers v ≠ [] → ∀ x ∈ r.lost, Decided cfg.ids g x) {e : Effect}
    {rest : List Effect} (hpending : r.pending = e :: rest) :
    Owed cfg g v (Cluster.runEffect r e rest) (Cluster.packets v e) := by
  obtain ⟨hstand, hev, hstep, hstores, hmore, hmirrors, hdisk, happlied⟩ := hb
  rw [hpending] at hstep hmore
  have hfirst : StoresFirst (done ++ e :: rest) := by
    obtain ⟨t, ht⟩ := stepShell_eq n ev timeout
    rw [hstep] at ht
    rw [(Prod.mk.inj ht).2]
    exact n.step_storesFirst ev
  have hstore : e.isStore = true := by
    by_contra hne
    obtain ⟨x, hx, hxs⟩ := hmore
    rw [hfirst.after (Bool.eq_false_iff.mpr hne) x hx] at hxs
    cases hxs
  rw [packets_of_store hstore]
  have happ : (Cluster.runEffect r e rest).applied = n.log.entries.take n.commitIndex := by
    show r.applied ++ Effect.applies [e] = _
    rw [Effect.applies_of_none fun x hx => by
      rw [List.mem_singleton.mp hx]
      exact Effect.not_isApply_of_isStore hstore, List.append_nil, happlied]
  have hstep' : stepShell n ev timeout =
      ((Cluster.runEffect r e rest).node, done ++ [e] ++ (Cluster.runEffect r e rest).pending) := by
    rw [hstep, List.append_assoc]
    rfl
  have hdisk' : (Cluster.runEffect r e rest).disk = diskAfter r.node base (done ++ [e]) := by
    rw [diskAfter_append, ← hdisk]
    rfl
  have hstores' : ∀ x ∈ done ++ [e], x.isStore = true := by
    intro x hx
    rcases List.mem_append.mp hx with hx | hx
    · exact hstores x hx
    · rw [List.mem_singleton.mp hx]
      exact hstore
  by_cases hidle : ∀ x ∈ rest, x.isStore = false
  · obtain ⟨g', hsound, hsync⟩ := synced_of_step hv hI hstand hev hstep' hstores' hidle hmirrors
      hdisk' happ
    exact ⟨g', _, hsound.ledger, hsound.grows,
      ⟨Or.inl hsync, fun x hx => (hpast x hx).mono hsound.grows.toLe,
        fun hne x hx => (hlost hne x hx).mono hsound.grows.toLe⟩,
      fun p hp => absurd hp List.not_mem_nil⟩
  · push Not at hidle
    obtain ⟨x, hx, hxs⟩ := hidle
    refine ⟨g, 0, hI, Ledger.Grows.refl v 0 g, ⟨Or.inr ⟨n, ev, timeout, done ++ [e], base, ?_⟩,
      hpast, hlost⟩, fun p hp => absurd hp List.not_mem_nil⟩
    exact ⟨hstand, hev, hstep', hstores', ⟨x, hx, by simpa using hxs⟩, hmirrors, hdisk', happ⟩

/-- A replica restarts from a disk that mirrors a node the ledger allows. -/
theorem restart_inv (hI : LedgerInv cfg.ids g) {k : RaftNode} (hm : Mirrors r.disk k)
    (hp : PeerInv cfg.ids g v k.peer) (hpast : ∀ x ∈ r.past, Decided cfg.ids g x)
    (happlied : ∀ x ∈ r.applied, Decided cfg.ids g x)
    (hlost : cfg.peers v ≠ [] → ∀ x ∈ r.lost ++ Effect.applies r.pending, Decided cfg.ids g x)
    (timeout : ℕ) :
    ReplicaInv cfg g v (Cluster.restart cfg v timeout r) := by
  have hpeer : (recover v (cfg.peers v) timeout r.disk).peer =
      { k.peer with mode := .follower, commit := 0 } := by
    unfold RaftNode.peer recover
    rw [hm.hardState, hm.log]
    rfl
  have hretire := retire_sound hI hp (Nat.zero_le _)
  refine ⟨Or.inl ⟨⟨?_, ?_, fun _ => settled_of_not_leader rfl⟩, ⟨rfl, rfl⟩,
    fun e he => absurd he List.not_mem_nil, fun _ _ he => absurd he List.not_mem_nil,
    fun _ _ he => absurd he List.not_mem_nil, rfl⟩, fun x hx => ?_, hlost⟩
  · show PeerInv cfg.ids g v (recover v (cfg.peers v) timeout r.disk).peer
    rw [hpeer]
    exact hretire.peer
  · exact
      { id := rfl
        peers := rfl
        applied := rfl
        votes := fun hr => by cases hr
        tracks := fun hr => by cases hr }
  · rcases List.mem_append.mp hx with hx | hx
    · exact hpast x hx
    · exact happlied x hx

/-- The disk of a busy replica mirrors a node that the ledger allows once it has grown, with a
piece of the log from before the step. -/
theorem Busy.disk_mirrors {n : RaftNode} {ev : Event} {timeout : ℕ} {done : List Effect}
    {base : RaftStorage} (hI : LedgerInv cfg.ids g) (hb : Busy cfg g v r n ev timeout done base) :
    ∃ k g', Mirrors r.disk k ∧ k.log.entries <+: n.log.entries ∧
      Sound cfg.ids v n.peer g k.peer g' := by
  by_cases hdone : done = []
  · refine ⟨n, g, ?_, List.prefix_rfl, hI, hb.standing.peer, Ledger.Grows.refl v _ g, le_rfl⟩
    rw [hb.disk, hdone]
    exact hb.mirrors
  · obtain ⟨t, ht⟩ := stepShell_eq n ev timeout
    have hstep := hb.step
    rw [ht] at hstep
    obtain ⟨hnode, hbatch⟩ := Prod.mk.inj hstep
    obtain ⟨k, g', hm, hpre, hacts⟩ := crash_simulates hI hb.standing.peer hb.standing.books
      hb.event hb.mirrors ⟨hbatch, hb.stores, hb.more, hdone⟩
    refine ⟨k, g', ?_, hpre, Acts.sound hacts hI hb.standing.peer⟩
    have hsame : r.node.hardState = (n.step ev).1.hardState := by
      rw [← hnode]
      rfl
    rw [hb.disk, diskAfter_congr hsame]
    exact hm

/-- What a busy replica has not applied yet was decided before its step. -/
theorem Busy.applies {n : RaftNode} {ev : Event} {timeout : ℕ} {done : List Effect}
    {base : RaftStorage} (hI : LedgerInv cfg.ids g) (hb : Busy cfg g v r n ev timeout done base)
    (hne : cfg.peers v ≠ []) {x : LogEntry} (hx : x ∈ Effect.applies r.pending) :
    Decided cfg.ids g x := by
  obtain ⟨t, ht⟩ := stepShell_eq n ev timeout
  have hstep := hb.step
  rw [ht] at hstep
  obtain ⟨_, hbatch⟩ := Prod.mk.inj hstep
  obtain ⟨e, he, hstore⟩ := hb.more
  refine step_applied hI hb.standing.peer hb.standing.books (hb.standing.settled hne) hne hb.event
    ⟨e, ?_, hstore⟩ ?_
  · rw [hbatch]
    exact List.mem_append_right _ he
  · rw [hbatch]
    exact List.mem_append_right _ (Effect.mem_applies.mp hx)

/-- The replica crashes and restarts. -/
theorem crash_owed (hI : LedgerInv cfg.ids g) (h : ReplicaInv cfg g v r) (timeout : ℕ) :
    Owed cfg g v (Cluster.restart cfg v timeout r) [] := by
  rcases h.state with hs | ⟨n, ev, _, done, base, hb⟩
  · refine ⟨g, 0, hI, Ledger.Grows.refl v 0 g, ?_, fun p hp => absurd hp List.not_mem_nil⟩
    have hdecided : ∀ x ∈ r.applied ++ Effect.applies r.pending, Decided cfg.ids g x := by
      rw [hs.applied]
      exact fun x hx => hs.standing.decided hx
    refine restart_inv hI hs.disk hs.standing.peer h.past
      (fun x hx => hdecided x (List.mem_append_left _ hx)) (fun hne x hx => ?_) timeout
    rcases List.mem_append.mp hx with hx | hx
    · exact h.lost hne x hx
    · exact hdecided x (List.mem_append_right _ hx)
  · obtain ⟨k, g', hm, _, hsound⟩ := hb.disk_mirrors hI
    refine ⟨g', _, hsound.ledger, hsound.grows, ?_, fun p hp => absurd hp List.not_mem_nil⟩
    refine restart_inv hsound.ledger hm hsound.peer
      (fun x hx => (h.past x hx).mono hsound.grows.toLe) (fun x hx => ?_)
      (fun hne x hx => ?_) timeout
    · rw [hb.applied] at hx
      exact (hb.standing.decided hx).mono hsound.grows.toLe
    · rcases List.mem_append.mp hx with hx | hx
      · exact (h.lost hne x hx).mono hsound.grows.toLe
      · exact (hb.applies hI hne hx).mono hsound.grows.toLe

end Replicas

/-! ## Moves of the cluster -/

section Moves

variable {cfg : Config} {w w' : Cluster} {g : RaftLedger}

theorem moved_owed {v : NodeId} {r : Replica} {network : List Packet} (hv : v ∈ cfg.ids)
    (hinv : Inv cfg w g) (hm : Cluster.Moved cfg w v r network) :
    ∃ sent, network = w.network ++ sent ∧ Owed cfg g v r sent := by
  have hr := hinv.replicas v hv
  cases hm with
  | event ev timeout hidle hoffer =>
    refine ⟨[], (List.append_nil _).symm, event_owed hv hinv.ledger hr hidle ?_ timeout⟩
    cases ev with
    | message src msg => exact hinv.network _ (hoffer src msg rfl)
    | _ => trivial
  | exec e rest hpending =>
    refine ⟨_, rfl, ?_⟩
    rcases hr.state with hs | ⟨n, ev, timeout, done, base, hb⟩
    · exact exec_owed_of_synced hinv.ledger hs hr.past hr.lost hpending
    · exact exec_owed_of_busy hv hinv.ledger hb hr.past hr.lost hpending
  | crash timeout => exact ⟨[], (List.append_nil _).symm, crash_owed hinv.ledger hr timeout⟩

/-- **A move keeps the invariant**, over a ledger that has only grown. -/
theorem inv_step (hinv : Inv cfg w g) (hstep : Cluster.Step cfg w w') :
    ∃ g', Inv cfg w' g' ∧ g.Le g' := by
  obtain ⟨v, r, hv, hm, hreps⟩ := Cluster.step_moved hstep
  obtain ⟨sent, hnet, g', τ, hI', hgrows, hr', hsent⟩ := moved_owed hv hinv hm
  refine ⟨g', ⟨hI', fun u hu => ?_, fun p hp => ?_⟩, hgrows.toLe⟩
  · rw [hreps]
    by_cases huv : u = v
    · subst huv
      rw [Function.update_self]
      exact hr'
    · rw [Function.update_of_ne huv]
      exact (hinv.replicas u hu).frame hinv.ledger hgrows huv
  · rw [hnet] at hp
    rcases List.mem_append.mp hp with hp | hp
    · exact (hinv.network p hp).mono hgrows.toLe
    · exact hsent p hp

theorem inv_reaches (hinv : Inv cfg w g) (h : Cluster.Reaches cfg w w') :
    ∃ g', Inv cfg w' g' ∧ g.Le g' := by
  induction h with
  | refl => exact ⟨g, hinv, Ledger.Le.refl g⟩
  | tail _ hstep ih =>
    obtain ⟨g₁, hinv₁, hle₁⟩ := ih
    obtain ⟨g₂, hinv₂, hle₂⟩ := inv_step hinv₁ hstep
    exact ⟨g₂, hinv₂, hle₁.trans hle₂⟩

theorem inv_init (cfg : Config) (timeouts : NodeId → ℕ) :
    Inv cfg (Cluster.init cfg timeouts) Ledger.empty where
  ledger := ledgerInv_empty cfg.ids
  replicas v _ :=
    { state := Or.inl
        { standing :=
            { peer := peerInv_empty cfg.ids v
              books :=
                { id := rfl
                  peers := rfl
                  applied := rfl
                  votes := fun hr => by cases hr
                  tracks := fun hr => by cases hr }
              settled := fun _ => settled_of_not_leader rfl }
          disk := ⟨rfl, rfl⟩
          idle := fun e he => absurd he List.not_mem_nil
          sends := fun _ _ he => absurd he List.not_mem_nil
          quotes := fun _ _ he => absurd he List.not_mem_nil
          applied := rfl }
      past := fun x hx => absurd hx List.not_mem_nil
      lost := fun _ x hx => absurd hx List.not_mem_nil }
  network p hp := absurd hp List.not_mem_nil

/-- **The invariant of reachable clusters.** -/
theorem exists_inv (h : Cluster.Reachable cfg w) : ∃ g, Inv cfg w g := by
  obtain ⟨timeouts, hr⟩ := h
  obtain ⟨g, hinv, _⟩ := inv_reaches (inv_init cfg timeouts) hr
  exact ⟨g, hinv⟩

end Moves

end MyK8s.Raft
