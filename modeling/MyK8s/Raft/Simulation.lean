import MyK8s.Raft.Refinement

/-!
# A step is a run of ledger steps

`Simulates cfg v g n res g'`: the result `res` of a handler on the node `n` is reached by ledger
steps of `v` from `g` to `g'`, and keeps what the cluster invariant needs. The handlers are taken
one by one, at a term the node has reached; `step_simulates` puts the adoption of a higher term in
front of them.
-/

namespace MyK8s.Raft

open Consensus

/-- An AppendEntries message quotes the log of the node `n`, which leads its term. -/
def Quotes (n : RaftNode) (req : AppendEntriesReq) : Prop :=
  n.role.isLeader = true ∧ n.currentTerm = req.term ∧
    n.log.termAt req.prevLogIndex = some req.prevLogTerm

/-- The handler's result is a run of ledger steps that keeps the books. -/
structure Simulates (cfg : Config) (v : NodeId) (g : RaftLedger) (n : RaftNode)
    (res : RaftNode × List Effect) (g' : RaftLedger) : Prop where
  acts : Acts cfg.ids v (n.peer, g) (res.1.peer, g')
  books : Books cfg g' v res.1
  settled : cfg.peers v ≠ [] → res.1.Settled
  sends : ∀ dst msg, .send dst msg ∈ res.2 → Backed cfg.ids g' ⟨v, dst, msg⟩
  quotes : ∀ dst req, .send dst (.appendEntries req) ∈ res.2 → Quotes res.1 req
  keeps : res.1.log.entries.take n.commitIndex = n.log.entries.take n.commitIndex
  commit_le : n.commitIndex ≤ res.1.commitIndex
  applies : Effect.applies res.2 =
    (res.1.log.entries.take res.1.commitIndex).drop n.commitIndex

/-- Some growth of the ledger makes the result a run of ledger steps. -/
def Simulated (cfg : Config) (v : NodeId) (g : RaftLedger) (n : RaftNode)
    (res : RaftNode × List Effect) : Prop := ∃ g', Simulates cfg v g n res g'

/-! ## Effects of a batch by kind -/

@[simp] theorem Effect.applies_append (es fs : List Effect) :
    Effect.applies (es ++ fs) = Effect.applies es ++ Effect.applies fs :=
  List.filterMap_append

theorem Effect.applies_of_none {es : List Effect} (h : ∀ e ∈ es, e.isApply = false) :
    Effect.applies es = [] := by
  unfold Effect.applies
  rw [List.filterMap_eq_nil_iff]
  intro e he
  have := h e he
  cases e with
  | apply entry => cases this
  | _ => rfl

@[simp] theorem Effect.applies_map_apply (es : List LogEntry) :
    Effect.applies (es.map .apply) = es := by
  unfold Effect.applies
  rw [List.filterMap_map]
  exact List.filterMap_some

section Handlers

variable {cfg : Config} {v : NodeId} {g : RaftLedger} {n : RaftNode}

/-! ## Composition -/

/-- Ledger steps that come before, and leave the committed part alone. -/
theorem Simulates.after {m : RaftNode} {g₁ g' : RaftLedger} {res : RaftNode × List Effect}
    (h : Simulates cfg v g₁ m res g') (hacts : Acts cfg.ids v (n.peer, g) (m.peer, g₁))
    (hcommit : m.commitIndex = n.commitIndex)
    (hkeeps : m.log.entries.take n.commitIndex = n.log.entries.take n.commitIndex) :
    Simulates cfg v g n res g' where
  acts := hacts.trans h.acts
  books := h.books
  settled := h.settled
  sends := h.sends
  quotes := h.quotes
  keeps := by rw [← hkeeps, ← hcommit]; exact h.keeps
  commit_le := by rw [← hcommit]; exact h.commit_le
  applies := by rw [← hcommit]; exact h.applies

/-- Effects added to the batch that apply nothing and whose sends are backed. -/
theorem Simulates.with_effects {g' : RaftLedger} {n' : RaftNode} {es fs : List Effect}
    (h : Simulates cfg v g n (n', es) g') (hap : Effect.applies fs = Effect.applies es)
    (hsend : ∀ dst msg, .send dst msg ∈ fs →
      .send dst msg ∈ es ∨ (Backed cfg.ids g' ⟨v, dst, msg⟩ ∧
        ∀ req, msg = .appendEntries req → Quotes n' req)) :
    Simulates cfg v g n (n', fs) g' where
  acts := h.acts
  books := h.books
  settled := h.settled
  sends dst msg hm := by
    rcases hsend dst msg hm with hm | ⟨hb, _⟩
    · exact h.sends dst msg hm
    · exact hb
  quotes dst req hm := by
    rcases hsend dst _ hm with hm | ⟨_, hq⟩
    · exact h.quotes dst req hm
    · exact hq req rfl
  keeps := h.keeps
  commit_le := h.commit_le
  applies := hap.trans h.applies

/-- A node whose view and commit index have not changed, with nothing to send or apply. -/
theorem Simulates.of_acts {g' : RaftLedger} {n' : RaftNode}
    (hacts : Acts cfg.ids v (n.peer, g) (n'.peer, g')) (hbooks : Books cfg g' v n')
    (hsettled : cfg.peers v ≠ [] → n'.Settled) (hcommit : n'.commitIndex = n.commitIndex)
    (hkeeps : n'.log.entries.take n.commitIndex = n.log.entries.take n.commitIndex) :
    Simulates cfg v g n (n', []) g' where
  acts := hacts
  books := hbooks
  settled := hsettled
  sends _ _ h := by cases h
  quotes _ _ h := by cases h
  keeps := hkeeps
  commit_le := hcommit.ge
  applies := by
    rw [hcommit, List.drop_eq_nil_of_le (List.length_take_le _ _)]
    rfl

/-- A node that does nothing. -/
theorem Simulates.idle (hb : Books cfg g v n) (hset : cfg.peers v ≠ [] → n.Settled) :
    Simulates cfg v g n (n, []) g :=
  Simulates.of_acts Relation.ReflTransGen.refl hb hset rfl rfl

/-- One message sent that quotes no log. -/
theorem Simulates.reply {g' : RaftLedger} {n' : RaftNode} {dst : NodeId} {msg : Message}
    (h : Simulates cfg v g n (n', []) g') (hback : Backed cfg.ids g' ⟨v, dst, msg⟩)
    (hquote : ∀ req, msg ≠ .appendEntries req) :
    Simulates cfg v g n (n', [.send dst msg]) g' := by
  refine h.with_effects rfl fun dst' msg' hm => Or.inr ?_
  cases List.mem_singleton.mp hm
  exact ⟨hback, fun req heq => absurd heq (hquote req)⟩

/-- What the ledger sees of a node does not depend on what its role counts. -/
theorem peer_of_mode {role : Role} (h : role.mode = n.role.mode) :
    { n with role := role }.peer = n.peer := by
  unfold RaftNode.peer
  rw [← h]

theorem settled_of_not_leader (h : n.role.isLeader = false) : n.Settled := by
  intro nextIndex matchIndex hr
  rw [hr] at h
  cases h

/-! ## Replication messages -/

/-- A leader's reign in the ledger. -/
theorem leader_reign (hp : PeerInv cfg.ids g v n.peer) (hl : n.role.isLeader = true) :
    ∃ r, g.lead n.currentTerm = some r ∧ r.id = v ∧ r.log = n.log.entries ∧
      g.acked v n.currentTerm = n.log.entries.length := by
  refine hp.leader ?_
  show n.role.mode = .leader
  cases hr : n.role with
  | leader nextIndex matchIndex => rfl
  | _ => rw [hr] at hl; cases hl

theorem termAt_of_le {l : RaftLog} {i : ℕ} (h : i ≤ l.lastIndex) :
    l.termAt i = some ((l.termAt i).getD 0) := by
  cases i with
  | zero => rfl
  | succ i =>
    rw [RaftLog.termAt_succ, List.getElem?_eq_getElem h]
    rfl

/-- What a leader sends to a peer is an excerpt of its log. -/
theorem appendFor_backed (hv : v ∈ cfg.ids) (hp : PeerInv cfg.ids g v n.peer)
    (hb : Books cfg g v n) (hl : n.role.isLeader = true) {p : NodeId} (hpeer : p ∈ cfg.peers v) :
    ∃ req, n.appendFor p = .send p (.appendEntries req) ∧
      Backed cfg.ids g ⟨v, p, .appendEntries req⟩ ∧ Quotes n req := by
  cases hrole : n.role with
  | follower => rw [hrole] at hl; cases hl
  | candidate votes => rw [hrole] at hl; cases hl
  | leader nextIndex matchIndex =>
    obtain ⟨x, m, hx, _, h1, h2, _⟩ := hb.tracks hrole p hpeer
    obtain ⟨r, hr, hid, hlog, _⟩ := leader_reign hp hl
    obtain ⟨hpids, hne⟩ := (cfg.mem_peers v hv p).mp hpeer
    obtain ⟨k, rfl⟩ : ∃ k, x = k + 1 := ⟨x - 1, by omega⟩
    have hk : k ≤ n.log.lastIndex := by omega
    have hnext : n.appendFor p = .send p (.appendEntries
        { term := n.currentTerm
          leaderId := n.id
          prevLogIndex := k
          prevLogTerm := (n.log.termAt k).getD 0
          entries := n.log.entries.drop k
          leaderCommit := n.commitIndex }) := by
      unfold RaftNode.appendFor
      rw [hrole]
      simp only [hx, Option.getD_some, Nat.add_sub_cancel, RaftLog.entriesFrom_succ]
    refine ⟨_, hnext, ⟨hv, hpids, hne.symm, hb.id, r, hr, hid, ?_⟩, hl, rfl, termAt_of_le hk⟩
    rw [hlog]
    have hlen : (n.log.entries.drop k).length = n.log.entries.length - k := List.length_drop
    refine ⟨termAt_of_le hk, ?_, ?_, hp.commit_safe⟩
    · show n.log.entries.take k ++ n.log.entries.drop k <+: n.log.entries
      rw [List.take_append_drop]
    · have hc : n.commitIndex ≤ n.log.entries.length := hp.commit_le
      have hk' : k ≤ n.log.entries.length := hk
      show n.commitIndex ≤ k + (n.log.entries.drop k).length
      omega

theorem broadcast_backed (hv : v ∈ cfg.ids) (hp : PeerInv cfg.ids g v n.peer)
    (hb : Books cfg g v n) (hl : n.role.isLeader = true) {dst : NodeId} {msg : Message}
    (h : .send dst msg ∈ n.broadcastAppend) :
    Backed cfg.ids g ⟨v, dst, msg⟩ ∧ ∀ req, msg = .appendEntries req → Quotes n req := by
  obtain ⟨p, hpeer, heq⟩ := List.mem_map.mp h
  rw [hb.peers] at hpeer
  obtain ⟨req, hreq, hback, hquote⟩ := appendFor_backed hv hp hb hl hpeer
  rw [hreq] at heq
  cases heq
  refine ⟨hback, ?_⟩
  rintro req' ⟨⟩
  exact hquote

theorem applies_broadcast : Effect.applies n.broadcastAppend = [] := by
  refine Effect.applies_of_none fun e he => ?_
  obtain ⟨p, _, rfl⟩ := List.mem_map.mp he
  rfl

/-! ## Winning -/

/-- A new leader has everything to send and nothing acknowledged. -/
theorem Books.elected (hb : Books cfg g v n) (g' : RaftLedger) : Books cfg g' v n.elected where
  id := hb.id
  peers := hb.peers
  applied := hb.applied
  votes hr := by cases hr
  tracks hr p hpeer := by
    obtain ⟨rfl, rfl⟩ := Role.leader.inj hr
    rw [← hb.peers] at hpeer
    exact ⟨_, 0, if_pos hpeer, if_pos hpeer, by omega, le_rfl, Nat.zero_le _⟩

/-- A candidate that counts its votes. -/
theorem tryWin_simulates (hv : v ∈ cfg.ids) (hI : LedgerInv cfg.ids g)
    (hp : PeerInv cfg.ids g v n.peer) (hb : Books cfg g v n) {votes : Finset NodeId}
    (hrole : n.role = .candidate votes) : Simulated cfg v g n n.tryWin := by
  obtain ⟨hvotes, hballot⟩ := hb.votes hrole
  by_cases hcard : n.majority ≤ votes.card
  · -- the voters are the electorate of the new reign
    have hact : Act cfg.ids v (n.peer, g) (n.elected.peer,
        (g.setLead n.currentTerm (Reign.start v n.log.entries)).setAcked v n.currentTerm
          n.log.entries.length) := by
      refine Act.win n.peer g votes ?_ (isMajority_of_card hv hb.peers hvotes hcard) hballot
      show n.role.mode = .candidate
      rw [hrole]
      rfl
    have hs := Act.sound hact hI hp
    set g' := (g.setLead n.currentTerm (Reign.start v n.log.entries)).setAcked v n.currentTerm
      n.log.entries.length with hg'
    have hb' := hb.elected g'
    rw [RaftNode.tryWin_of_majority hrole hcard]
    refine ⟨g', Simulates.with_effects (Simulates.of_acts
      (Relation.ReflTransGen.single hact) hb' ?_ rfl rfl) applies_broadcast ?_⟩
    · -- nothing is committable yet: no peer has acknowledged anything in this reign
      intro hpeers nextIndex matchIndex hr i hi _
      obtain ⟨rfl, rfl⟩ := Role.leader.inj hr
      refine not_committable_of_unmatched (by rw [hb'.peers]; exact hpeers) fun p hpeer => ?_
      have hpeer' : p ∈ n.peers := hpeer
      rw [if_pos hpeer']
      exact (Nat.zero_le _).trans_lt hi
    · exact fun dst msg hm => Or.inr (broadcast_backed hv hs.peer hb' rfl hm)
  · rw [RaftNode.tryWin_of_lt hrole (Nat.not_le.mp hcard)]
    exact ⟨g, Simulates.idle hb fun _ => settled_of_not_leader (by rw [hrole]; rfl)⟩

/-! ## Committing and applying -/

theorem endsIn_take {l : RaftLog} {i t : ℕ} (hi : 0 < i) (h : l.termAt i = some t) :
    EndsIn (l.entries.take i) t := by
  obtain ⟨k, rfl⟩ : ∃ k, i = k + 1 := ⟨i - 1, by omega⟩
  rw [RaftLog.termAt_succ, Option.map_eq_some_iff] at h
  obtain ⟨e, he, ht⟩ := h
  have hlt := (List.getElem?_eq_some_iff.mp he).1
  refine ⟨e, ?_, ht⟩
  rw [List.getLast?_eq_getElem?, List.length_take_of_le (show k + 1 ≤ _ from hlt), Nat.add_sub_cancel,
    List.getElem?_take_of_lt (Nat.lt_succ_self k)]
  exact he

theorem applies_advanceApplied {c : ℕ} (hc : c ≤ n.log.lastIndex) (hle : n.lastApplied ≤ c) :
    Effect.applies ({ n with commitIndex := c }.advanceApplied).2 =
      (n.log.entries.take c).drop n.lastApplied := by
  have hloop : RaftNode.applyLoop n.log (c - n.lastApplied) n.lastApplied =
      ((n.log.entries.drop n.lastApplied).take (c - n.lastApplied)).map .apply :=
    RaftNode.applyLoop_eq (by omega)
  unfold RaftNode.advanceApplied
  rw [hloop, Effect.applies_map_apply, List.drop_take]

/-- A node that moves its commit index over a safe part of its log applies just that part. -/
theorem learn_simulates (hb : Books cfg g v n) {c : ℕ} (hc : c ≤ n.log.entries.length)
    (hle : n.commitIndex ≤ c) (hsafe : Safe cfg.ids g n.currentTerm (n.log.entries.take c))
    (hsettled : cfg.peers v ≠ [] → { n with commitIndex := c }.Settled) :
    Simulates cfg v g n { n with commitIndex := c }.advanceApplied g where
  acts := Relation.ReflTransGen.single (Act.learn n.peer g c hc hsafe)
  books :=
    { id := hb.id
      peers := hb.peers
      applied := max_eq_right (hb.applied.le.trans hle)
      votes := hb.votes
      tracks := hb.tracks }
  settled := hsettled
  sends dst msg h := by cases RaftNode.applyLoop_isApply h
  quotes dst req h := by cases RaftNode.applyLoop_isApply h
  keeps := rfl
  commit_le := hle
  applies := by
    rw [applies_advanceApplied hc (hb.applied.le.trans hle), hb.applied]
    rfl

/-- What a leader finds committable is committed. -/
theorem safe_of_committable (hv : v ∈ cfg.ids) (hp : PeerInv cfg.ids g v n.peer)
    (hb : Books cfg g v n) {nextIndex matchIndex : PeerMap}
    (hrole : n.role = .leader nextIndex matchIndex) {i : ℕ} (hi : 0 < i)
    (hle : i ≤ n.log.lastIndex) (hcom : n.committable matchIndex i = true) :
    Safe cfg.ids g n.currentTerm (n.log.entries.take i) := by
  obtain ⟨hterm, hmaj⟩ := (Bool.and_eq_true _ _).mp hcom
  obtain ⟨r, hr, _, hlog, hacked⟩ := leader_reign hp (by rw [hrole]; rfl)
  obtain ⟨Q, hQ, hcard, hholds⟩ := exists_holders hv hb.peers matchIndex i
  have hQm : IsMajority cfg.ids Q := by
    refine isMajority_of_card hv hb.peers hQ ?_
    rw [hcard]
    exact of_decide_eq_true hmaj
  have hend : EndsIn (r.log.take i) n.currentTerm := by
    rw [hlog]
    exact endsIn_take hi (eq_of_beq hterm)
  have hcommitted := committed_of_quorum hr (by rw [hlog]; exact hle) hend hQm fun q hq => by
    rcases hholds q hq with rfl | ⟨hpeer, hm⟩
    · rw [hacked]
      exact hle
    · obtain ⟨x, m, _, hmm, _, _, hack⟩ := hb.tracks hrole q hpeer
      rw [hmm] at hm
      exact hm.trans hack
  rw [hlog] at hcommitted
  exact Or.inr ⟨_, _, le_rfl, hcommitted, List.prefix_rfl⟩

/-- A leader that looks for more to commit. -/
theorem tryCommit_simulates (hv : v ∈ cfg.ids) (hp : PeerInv cfg.ids g v n.peer)
    (hb : Books cfg g v n) : Simulates cfg v g n n.tryCommit g := by
  rcases n.tryCommit_cases with ⟨heq, hsettled⟩ | ⟨nextIndex, matchIndex, i, hrole, hlt, hle, hcom,
    heq, hsettled⟩
  · rw [heq]
    exact Simulates.idle hb fun _ => hsettled
  · rw [heq]
    exact learn_simulates hb hle hlt.le
      (safe_of_committable hv hp hb hrole ((Nat.zero_le _).trans_lt hlt) hle hcom)
      fun _ => hsettled

/-! ## Ticks and proposals -/

/-- A node that opens an election. -/
theorem standing_simulates (hv : v ∈ cfg.ids) (hb : Books cfg g v n) :
    Simulates cfg v g n (n.standing, []) ((g.setCand v (n.currentTerm + 1) n.log.entries).setBallot
      v (n.currentTerm + 1) v) := by
  have hid := hb.id
  refine Simulates.of_acts ?_ ?_ (fun _ => settled_of_not_leader rfl) rfl rfl
  · have hact : Act cfg.ids v (n.peer, g) (_, _) := Act.campaign n.peer g
    have hpeer : n.standing.peer =
        { n.peer with term := n.peer.term + 1, vote := some v, mode := .candidate } := by
      subst hid
      rfl
    rw [hpeer]
    exact Relation.ReflTransGen.single hact
  · refine ⟨hid, hb.peers, hb.applied, fun {votes} hr => ?_, fun hr => by cases hr⟩
    obtain rfl := Role.candidate.inj hr
    refine ⟨fun q hq => ?_, fun q hq => ?_⟩
    · rw [Finset.mem_singleton.mp hq, hid]
      exact hv
    · rw [Finset.mem_singleton.mp hq, hid]
      exact if_pos ⟨rfl, rfl⟩

/-- The request of a node that has opened an election is backed by its candidacy. -/
theorem voteRequest_backed (hv : v ∈ cfg.ids) (hb : Books cfg g v n) {p : NodeId}
    (hpeer : p ∈ cfg.peers v) :
    Backed cfg.ids ((g.setCand v (n.currentTerm + 1) n.log.entries).setBallot v
      (n.currentTerm + 1) v) ⟨v, p, .requestVote n.standing.voteRequest⟩ := by
  obtain ⟨hp, hne⟩ := (cfg.mem_peers v hv p).mp hpeer
  exact ⟨hv, hp, hne.symm, hb.id, n.log.entries, if_pos ⟨rfl, rfl⟩, rfl, rfl⟩

theorem startElection_simulates (hv : v ∈ cfg.ids) (hI : LedgerInv cfg.ids g)
    (hp : PeerInv cfg.ids g v n.peer) (hb : Books cfg g v n) :
    Simulated cfg v g n n.startElection := by
  have hstand := standing_simulates hv hb
  rw [RaftNode.startElection_eq]
  split
  · -- alone in the cluster: the own vote is the majority
    rename_i hnil
    have hs := Acts.sound hstand.acts hI hp
    have hrole : n.standing.role = .candidate {n.id} := rfl
    obtain ⟨g', hwin⟩ := tryWin_simulates hv hs.ledger hs.peer hstand.books hrole
    have hmaj : n.standing.majority ≤ ({n.id} : Finset NodeId).card := by
      rw [Finset.card_singleton]
      exact RaftNode.majority_le_one.mpr hnil
    have hsilent : n.standing.elected.broadcastAppend = [] :=
      RaftNode.broadcastAppend_alone hnil
    rw [RaftNode.tryWin_of_majority rfl hmaj, hsilent] at hwin
    refine ⟨g', Simulates.with_effects (hwin.after hstand.acts rfl rfl) rfl ?_⟩
    intro dst msg hm
    cases List.mem_singleton.mp hm
  · refine ⟨_, hstand.with_effects ?_ ?_⟩
    · refine Effect.applies_of_none fun e he => ?_
      rcases List.mem_cons.mp he with rfl | he
      · rfl
      · obtain ⟨p, _, rfl⟩ := List.mem_map.mp he
        rfl
    · intro dst msg hm
      rcases List.mem_cons.mp hm with hm | hm
      · cases hm
      · obtain ⟨p, hpeer, heq⟩ := List.mem_map.mp hm
        cases heq
        rw [hb.peers] at hpeer
        exact Or.inr ⟨voteRequest_backed hv hb hpeer, fun req h => by cases h⟩

theorem onTick_simulates (hv : v ∈ cfg.ids) (hI : LedgerInv cfg.ids g)
    (hp : PeerInv cfg.ids g v n.peer) (hb : Books cfg g v n)
    (hset : cfg.peers v ≠ [] → n.Settled) : Simulated cfg v g n n.onTick := by
  have hticks : ∀ t, Books cfg g v { n with ticksSinceReset := t } := fun t =>
    ⟨hb.id, hb.peers, hb.applied, hb.votes, hb.tracks⟩
  have hquiet : ∀ t, Simulates cfg v g n ({ n with ticksSinceReset := t }, []) g := fun t =>
    Simulates.of_acts Relation.ReflTransGen.refl (hticks t) hset rfl rfl
  rcases n.onTick_cases with ⟨t, heq⟩ | ⟨t, hl, heq⟩ | ⟨_, heq⟩
  · rw [heq]
    exact ⟨g, hquiet t⟩
  · rw [heq]
    exact ⟨g, (hquiet t).with_effects applies_broadcast fun dst msg hm =>
      Or.inr (broadcast_backed hv hp hb hl hm)⟩
  · rw [heq]
    obtain ⟨g', h⟩ := startElection_simulates (n := { n with
      ticksSinceReset := n.ticksSinceReset + 1 }) hv hI hp (hticks _)
    exact ⟨g', h.after Relation.ReflTransGen.refl rfl rfl⟩

theorem Books.appended (hb : Books cfg g v n) (hl : n.role.isLeader = true) (cmd : Command) :
    Books cfg g v (n.appended cmd) where
  id := hb.id
  peers := hb.peers
  applied := hb.applied
  votes {votes} h := by
    have hr : n.role = .candidate votes := h
    simp [hr, Role.isLeader] at hl
  tracks h p hpeer := by
    obtain ⟨x, m, hx, hm, h1, h2, h3⟩ := hb.tracks h p hpeer
    refine ⟨x, m, hx, hm, h1, h2.trans (Nat.succ_le_succ ?_), h3⟩
    show n.log.entries.length ≤ (n.log.entries ++ [_]).length
    simp

theorem onPropose_simulates (hv : v ∈ cfg.ids) (hI : LedgerInv cfg.ids g)
    (hp : PeerInv cfg.ids g v n.peer) (hb : Books cfg g v n)
    (hset : cfg.peers v ≠ [] → n.Settled) (cmd : Command) :
    Simulated cfg v g n (n.onPropose cmd) := by
  cases hrole : n.role with
  | leader nextIndex matchIndex =>
    obtain ⟨r, hr, hid, hlog, hacked⟩ := leader_reign hp (by rw [hrole]; rfl)
    have hmode : n.peer.mode = .leader := by
      show n.role.mode = .leader
      rw [hrole]
      rfl
    have hact : Act cfg.ids v (n.peer, g) ((n.appended cmd).peer, _) :=
      Act.propose n.peer g r ⟨n.currentTerm, n.log.lastIndex + 1, cmd⟩ hmode hr rfl rfl
    have hs := Act.sound hact hI hp
    have hl : n.role.isLeader = true := by rw [hrole]; rfl
    have hb' := (hb.mono hs.grows.toLe).appended hl cmd
    have hcommit := tryCommit_simulates hv hs.peer hb'
    have hkeeps : (n.appended cmd).log.entries.take n.commitIndex =
        n.log.entries.take n.commitIndex :=
      List.take_append_of_le_length hp.commit_le
    rw [RaftNode.onPropose_of_leader hrole]
    refine ⟨_, (hcommit.after (Relation.ReflTransGen.single hact) rfl hkeeps).with_effects ?_ ?_⟩
    · rw [List.cons_append, ← List.singleton_append, Effect.applies_append,
        Effect.applies_append, applies_broadcast]
      rfl
    · intro dst msg hm
      rcases List.mem_append.mp hm with hm | hm
      · rcases List.mem_cons.mp hm with hm | hm
        · cases hm
        · obtain ⟨hback, hquote⟩ := broadcast_backed hv hs.peer hb' hl hm
          refine Or.inr ⟨hback, fun req hreq => ?_⟩
          obtain ⟨c, a, hframe⟩ := (n.appended cmd).tryCommit_frame
          show Quotes (n.appended cmd).tryCommit.1 req
          rw [hframe]
          exact hquote req hreq
      · exact Or.inl hm
  | _ =>
    have hl : n.role.isLeader = false := by rw [hrole]; rfl
    rw [RaftNode.onPropose_of_not_leader hl]
    refine ⟨g, (Simulates.idle hb hset).with_effects rfl ?_⟩
    intro dst msg hm
    cases List.mem_singleton.mp hm

/-! ## Votes -/

theorem upToDate_of_logOk {req : RequestVoteReq} {l : List LogEntry}
    (hlen : req.lastLogIndex = l.length) (hterm : req.lastLogTerm = lastTerm l)
    (h : n.logOk req = true) : UpToDate l n.log.entries := by
  unfold RaftNode.logOk at h
  rw [Bool.or_eq_true, Bool.and_eq_true, decide_eq_true_eq, beq_iff_eq, decide_eq_true_eq, hlen,
    hterm] at h
  exact h

theorem onRequestVote_simulates (hI : LedgerInv cfg.ids g) (hp : PeerInv cfg.ids g v n.peer)
    (hb : Books cfg g v n) (hset : cfg.peers v ≠ [] → n.Settled) {src : NodeId}
    {req : RequestVoteReq} (hle : req.term ≤ n.currentTerm)
    (hback : Backed cfg.ids g ⟨src, v, .requestVote req⟩) :
    Simulated cfg v g n (n.onRequestVote src req) := by
  obtain ⟨hsrc, hv, hne, hid, l, hl, hlen, hterm⟩ := hback
  rw [RaftNode.onRequestVote_eq hle]
  split
  · -- the vote is entered on the ledger
    rename_i hg
    unfold RaftNode.grants at hg
    rw [Bool.and_eq_true, Bool.and_eq_true, beq_iff_eq, Bool.or_eq_true, beq_iff_eq,
      Option.isNone_iff_eq_none] at hg
    obtain ⟨⟨ht, hok⟩, hfree⟩ := hg
    rw [ht] at hl
    have hact : Act cfg.ids v (n.peer, g)
        ({ n.peer with vote := some req.candidateId }, g.setBallot v n.currentTerm
          req.candidateId) :=
      Act.grant n.peer g req.candidateId l hfree (by rw [hid]; exact hl)
        (upToDate_of_logOk hlen hterm hok)
    have hs := Act.sound hact hI hp
    have hb' := hb.mono hs.grows.toLe
    have hsim : Simulates cfg v g n ({ n with votedFor := some req.candidateId
                                              ticksSinceReset := 0 }, []) _ :=
      Simulates.of_acts (Relation.ReflTransGen.single hact)
        ⟨hb'.id, hb'.peers, hb'.applied, hb'.votes, hb'.tracks⟩ hset rfl rfl
    refine ⟨_, hsim.with_effects rfl fun dst msg hm => Or.inr ?_⟩
    rcases List.mem_cons.mp hm with hm | hm
    · cases hm
    · cases List.mem_singleton.mp hm
      refine ⟨⟨hv, hsrc, hne.symm, fun _ => ?_⟩, fun req h => by cases h⟩
      rw [hid]
      exact if_pos ⟨rfl, rfl⟩
  · exact ⟨g, (Simulates.idle hb hset).reply ⟨hv, hsrc, hne.symm, fun h => by cases h⟩
      fun req h => by cases h⟩

/-- A candidate that counts one more vote. -/
theorem Books.counted (hb : Books cfg g v n) {votes : Finset NodeId} {src : NodeId}
    (hrole : n.role = .candidate votes) (hsrc : src ∈ cfg.ids)
    (hballot : g.ballot src n.currentTerm = some v) :
    Books cfg g v { n with role := .candidate (insert src votes) } where
  id := hb.id
  peers := hb.peers
  applied := hb.applied
  votes hr := by
    obtain rfl := Role.candidate.inj hr
    obtain ⟨hvotes, hballots⟩ := hb.votes hrole
    refine ⟨Finset.insert_subset hsrc hvotes, fun q hq => ?_⟩
    rcases Finset.mem_insert.mp hq with rfl | hq
    · exact hballot
    · exact hballots q hq
  tracks hr := by cases hr

theorem onRequestVoteResp_simulates (hI : LedgerInv cfg.ids g)
    (hp : PeerInv cfg.ids g v n.peer) (hb : Books cfg g v n)
    (hset : cfg.peers v ≠ [] → n.Settled) {src : NodeId} {resp : RequestVoteResp}
    (hle : resp.term ≤ n.currentTerm)
    (hback : Backed cfg.ids g ⟨src, v, .requestVoteResp resp⟩) :
    Simulated cfg v g n (n.onRequestVoteResp src resp) := by
  obtain ⟨hsrc, hv, _, hgranted⟩ := hback
  rcases RaftNode.onRequestVoteResp_cases src hle with heq | ⟨votes, hrole, hterm, hyes, heq⟩
  · rw [heq]
    exact ⟨g, Simulates.idle hb hset⟩
  · rw [heq]
    have hpeer : { n with role := .candidate (insert src votes) }.peer = n.peer :=
      peer_of_mode (by rw [hrole]; rfl)
    have hb' := hb.counted hrole hsrc (hterm ▸ hgranted hyes)
    obtain ⟨g', hwin⟩ := tryWin_simulates hv hI (by rw [hpeer]; exact hp) hb' rfl
    refine ⟨g', hwin.after ?_ rfl rfl⟩
    rw [hpeer]

/-! ## Replies to AppendEntries -/

/-- Nobody has acknowledged more than the leader's log. -/
theorem acked_le_leader (hI : LedgerInv cfg.ids g) (hp : PeerInv cfg.ids g v n.peer)
    (hl : n.role.isLeader = true) (src : NodeId) :
    g.acked src n.currentTerm ≤ n.log.lastIndex := by
  obtain ⟨r, hr, _, hlog, _⟩ := leader_reign hp hl
  rcases Nat.eq_zero_or_pos (g.acked src n.currentTerm) with h0 | hpos
  · omega
  · obtain ⟨r', hr', hle⟩ := hI.acked_le hpos
    obtain rfl := Option.some.inj (hr.symm.trans hr')
    rwa [hlog] at hle

/-- An acknowledgement: the match index moves up to what was acknowledged. -/
theorem Books.acknowledged (hb : Books cfg g v n) {nextIndex matchIndex : PeerMap}
    (hrole : n.role = .leader nextIndex matchIndex) {src : NodeId} (hsrc : src ∈ cfg.peers v)
    {matched : ℕ} (hmatched : matched ≤ g.acked src n.currentTerm)
    (hlen : g.acked src n.currentTerm ≤ n.log.lastIndex) :
    Books cfg g v (n.acknowledged nextIndex matchIndex src matched) where
  id := hb.id
  peers := hb.peers
  applied := hb.applied
  votes hr := by cases hr
  tracks hr p hp := by
    obtain ⟨rfl, rfl⟩ := Role.leader.inj hr
    by_cases hps : p = src
    · subst hps
      obtain ⟨x, m, _, hm, _, _, hack⟩ := hb.tracks hrole p hsrc
      have hnew := max_le hack hmatched
      rw [hm, Option.getD_some]
      exact ⟨_, _, Function.update_self .., Function.update_self .., by omega,
        Nat.succ_le_succ (hnew.trans hlen), hnew⟩
    · obtain ⟨y, k, hy, hk, h1, h2, h3⟩ := hb.tracks hrole p hp
      exact ⟨y, k, by rw [Function.update_of_ne hps, hy],
        by rw [Function.update_of_ne hps, hk], h1, h2, h3⟩

/-- A rejection: the next index moves down by one, but not to 0. -/
theorem Books.backedUp (hb : Books cfg g v n) {nextIndex matchIndex : PeerMap}
    (hrole : n.role = .leader nextIndex matchIndex) (src : NodeId) :
    Books cfg g v (n.backedUp nextIndex matchIndex src) where
  id := hb.id
  peers := hb.peers
  applied := hb.applied
  votes hr := by cases hr
  tracks hr p hp := by
    obtain ⟨rfl, rfl⟩ := Role.leader.inj hr
    obtain ⟨y, k, hy, hk, h1, h2, h3⟩ := hb.tracks hrole p hp
    by_cases hps : p = src
    · subst hps
      rw [hy, Option.getD_some]
      exact ⟨_, k, Function.update_self .., hk, le_max_right _ _,
        max_le ((Nat.sub_le _ _).trans h2) (by omega), h3⟩
    · exact ⟨y, k, by rw [Function.update_of_ne hps, hy], hk, h1, h2, h3⟩

theorem onAppendEntriesResp_simulates (hI : LedgerInv cfg.ids g)
    (hp : PeerInv cfg.ids g v n.peer) (hb : Books cfg g v n)
    (hset : cfg.peers v ≠ [] → n.Settled) {src : NodeId} {resp : AppendEntriesResp}
    (hle : resp.term ≤ n.currentTerm)
    (hback : Backed cfg.ids g ⟨src, v, .appendEntriesResp resp⟩) :
    Simulated cfg v g n (n.onAppendEntriesResp src resp) := by
  obtain ⟨hsrc, hv, hne, hacked⟩ := hback
  have hpeer : src ∈ cfg.peers v := (cfg.mem_peers v hv src).mpr ⟨hsrc, hne⟩
  rcases RaftNode.onAppendEntriesResp_cases src hle with
    heq | ⟨nextIndex, matchIndex, hrole, hterm, ⟨hyes, heq⟩ | ⟨_, heq⟩⟩
  · rw [heq]
    exact ⟨g, Simulates.idle hb hset⟩
  · rw [heq]
    have hpeer' : (n.acknowledged nextIndex matchIndex src resp.matchIndex).peer = n.peer :=
      peer_of_mode (by rw [hrole]; rfl)
    have hb' := hb.acknowledged hrole hpeer (hterm ▸ hacked hyes)
      (acked_le_leader hI hp (by rw [hrole]; rfl) src)
    have hcommit := tryCommit_simulates hv (by rw [hpeer']; exact hp) hb'
    refine ⟨g, hcommit.after ?_ rfl rfl⟩
    rw [hpeer']
  · rw [heq]
    have hpeer' : (n.backedUp nextIndex matchIndex src).peer = n.peer :=
      peer_of_mode (by rw [hrole]; rfl)
    have hb' := hb.backedUp hrole src
    have hset' : cfg.peers v ≠ [] → (n.backedUp nextIndex matchIndex src).Settled := by
      intro hpeers nextIndex' matchIndex' hr i hi hle
      obtain ⟨rfl, rfl⟩ := Role.leader.inj hr
      exact hset hpeers nextIndex matchIndex hrole i hi hle
    obtain ⟨req, hreq, hback, hquote⟩ := appendFor_backed hv (by rw [hpeer']; exact hp) hb' rfl hpeer
    have hsim : Simulates cfg v g n (n.backedUp nextIndex matchIndex src, []) g := by
      refine Simulates.of_acts ?_ hb' hset' rfl rfl
      rw [hpeer']
    rw [hreq]
    refine ⟨g, hsim.with_effects rfl fun dst msg hmem => Or.inr ?_⟩
    cases List.mem_singleton.mp hmem
    refine ⟨hback, ?_⟩
    rintro req' ⟨⟩
    exact hquote

/-! ## AppendEntries -/

section Merging

variable {req : AppendEntriesReq} {r : Reign NodeId LogEntry}

/-- What the message shows from some entry on, behind the leader's log up to it. -/
theorem Excerpt.take_append_drop (hex : Excerpt cfg.ids g req r.log) {j : ℕ}
    (hj : j ≤ req.entries.length) :
    r.log.take (req.prevLogIndex + j) ++ req.entries.drop j =
      r.log.take (req.prevLogIndex + req.entries.length) := by
  have hcut : r.log.take (req.prevLogIndex + j) =
      r.log.take req.prevLogIndex ++ req.entries.take j := by
    have h := congrArg (List.take (req.prevLogIndex + j)) hex.take_eq
    rwa [List.take_take, min_eq_left (by omega), List.take_append,
      List.length_take_of_le hex.prev_le, Nat.add_sub_cancel_left, List.take_take,
      min_eq_right (by omega)] at h
  rw [hcut, List.append_assoc, List.take_append_drop, hex.take_eq]

/-- Where the terms agree up to a point, so do the entries. -/
theorem agrees_take (hI : LedgerInv cfg.ids g) (hlog : Valid g n.log.entries)
    (hr : g.lead req.term = some r) (hex : Excerpt cfg.ids g req r.log)
    (hprev : n.log.termAt req.prevLogIndex = some req.prevLogTerm) {j : ℕ}
    (hj : j ≤ req.entries.length) (hag : Agrees n.log req.prevLogIndex req.entries j) :
    req.prevLogIndex + j ≤ n.log.entries.length ∧
      n.log.entries.take (req.prevLogIndex + j) = r.log.take (req.prevLogIndex + j) := by
  -- both logs have an entry of the same term at the last position
  have hterm : ∃ t, n.log.termAt (req.prevLogIndex + j) = some t ∧
      (RaftLog.mk r.log).termAt (req.prevLogIndex + j) = some t := by
    cases j with
    | zero => exact ⟨_, hprev, hex.prev_term⟩
    | succ i =>
      have hi : req.entries[i]? = some req.entries[i] := List.getElem?_eq_getElem hj
      refine ⟨_, hag i _ (Nat.lt_succ_self i) hi, ?_⟩
      rw [← Nat.add_assoc, RaftLog.termAt_succ, hex.getElem? hi]
      rfl
  obtain ⟨t, h1, h2⟩ := hterm
  refine ⟨RaftLog.le_lastIndex_of_termAt h1, ?_⟩
  cases hk : req.prevLogIndex + j with
  | zero => rw [List.take_zero, List.take_zero]
  | succ k =>
    rw [hk, RaftLog.termAt_succ, Option.map_eq_some_iff] at h1 h2
    obtain ⟨x, hx, hxt⟩ := h1
    obtain ⟨y, hy, hyt⟩ := h2
    exact hlog.matching (hI.valid hr) hx hy (hxt.trans hyt.symm)

/-- The two logs differ at a conflict, so what they share ends before it. -/
theorem common_before_conflict (hex : Excerpt cfg.ids g req r.log) {j t : ℕ}
    (hj : j < req.entries.length) (ht : n.log.termAt (req.prevLogIndex + j + 1) = some t)
    (hne : t ≠ req.entries[j].term) {P : List LogEntry} (hP : P <+: n.log.entries)
    (hPr : P <+: r.log) : P <+: n.log.entries.take (req.prevLogIndex + j) := by
  refine List.prefix_take_iff.mpr ⟨hP, ?_⟩
  by_contra hlong
  obtain ⟨s, hs⟩ := hP
  obtain ⟨s', hs'⟩ := hPr
  have hpos : req.prevLogIndex + j < P.length := Nat.not_le.mp hlong
  have hsame := hex.getElem? (List.getElem?_eq_getElem hj)
  rw [← hs', List.getElem?_append_left hpos] at hsame
  rw [RaftLog.termAt_succ, ← hs, List.getElem?_append_left hpos, hsame] at ht
  exact hne (Option.some.inj ht).symm

/-- The merged log is a piece of the old log or of the leader's, covers what the message shows, and
keeps what the two logs have in common. -/
theorem Merge.accepts (hI : LedgerInv cfg.ids g) (hlog : Valid g n.log.entries)
    (hr : g.lead req.term = some r) (hex : Excerpt cfg.ids g req r.log)
    (hprev : n.log.termAt req.prevLogIndex = some req.prevLogTerm)
    {res : RaftLog × List Effect} (h : Merge n.log req.prevLogIndex req.entries res) :
    (res.1.entries <+: n.log.entries ∨ res.1.entries <+: r.log) ∧
      r.log.take (req.prevLogIndex + req.entries.length) <+: res.1.entries ∧
      ∀ P, P <+: n.log.entries → P <+: r.log → P <+: res.1.entries := by
  cases h with
  | present hag =>
    obtain ⟨_, htake⟩ := agrees_take hI hlog hr hex hprev le_rfl hag
    refine ⟨Or.inl List.prefix_rfl, ?_, fun P hP _ => hP⟩
    rw [← htake]
    exact List.take_prefix _ _
  | extended j hj hag hend =>
    obtain ⟨_, htake⟩ := agrees_take hI hlog hr hex hprev hj.le hag
    have hwhole : n.log.entries.take (req.prevLogIndex + j) = n.log.entries :=
      List.take_of_length_le hend.le
    rw [hwhole] at htake
    have hnew : n.log.entries ++ req.entries.drop j =
        r.log.take (req.prevLogIndex + req.entries.length) := by
      rw [htake, hex.take_append_drop hj.le]
    refine ⟨Or.inr ?_, ?_, fun P hP _ => hP.trans (List.prefix_append _ _)⟩
    · show n.log.entries ++ req.entries.drop j <+: r.log
      rw [hnew]
      exact List.take_prefix _ _
    · show _ <+: n.log.entries ++ req.entries.drop j
      rw [hnew]
  | replaced j hj hag t ht hne =>
    obtain ⟨_, htake⟩ := agrees_take hI hlog hr hex hprev hj.le hag
    have hnew : n.log.entries.take (req.prevLogIndex + j) ++ req.entries.drop j =
        r.log.take (req.prevLogIndex + req.entries.length) := by
      rw [htake, hex.take_append_drop hj.le]
    refine ⟨Or.inr ?_, ?_, fun P hP hPr => ?_⟩
    · show n.log.entries.take (req.prevLogIndex + j) ++ req.entries.drop j <+: r.log
      rw [hnew]
      exact List.take_prefix _ _
    · show _ <+: n.log.entries.take (req.prevLogIndex + j) ++ req.entries.drop j
      rw [hnew]
    · exact (common_before_conflict hex hj ht hne hP hPr).trans (List.prefix_append _ _)

end Merging

theorem Effect.not_isApply_of_isStore {e : Effect} (h : e.isStore = true) : e.isApply = false := by
  cases e with
  | apply entry => cases h
  | _ => rfl

/-- A node that hears from another leader of its term is not one itself. -/
theorem not_leader_of_backed (hp : PeerInv cfg.ids g v n.peer) {src : NodeId}
    {req : AppendEntriesReq} (hterm : req.term = n.currentTerm)
    (hback : Backed cfg.ids g ⟨src, v, .appendEntries req⟩) : n.role.isLeader = false := by
  obtain ⟨_, _, hne, _, r, hr, hrid, _⟩ := hback
  by_contra hl
  obtain ⟨r', hr', hrid', _⟩ := leader_reign hp (Bool.not_eq_false _ ▸ hl)
  rw [hterm] at hr
  obtain rfl := Option.some.inj (hr.symm.trans hr')
  exact hne (hrid.symm.trans hrid')

theorem heard_mode (hl : n.role.isLeader = false) (leaderId : NodeId) :
    (n.heard leaderId).role = .follower := by
  unfold RaftNode.heard
  cases hr : n.role with
  | leader nextIndex matchIndex => rw [hr] at hl; cases hl
  | _ => rfl

theorem Books.heard (hb : Books cfg g v n) (hl : n.role.isLeader = false) (leaderId : NodeId) :
    Books cfg g v (n.heard leaderId) where
  id := hb.id
  peers := hb.peers
  applied := hb.applied
  votes hr := by
    rw [heard_mode hl] at hr
    cases hr
  tracks hr := by
    rw [heard_mode hl] at hr
    cases hr

/-- The commit index of the message lies inside the log after it, and what it covers is safe. -/
theorem merged_safe (hI : LedgerInv cfg.ids g) (hp : PeerInv cfg.ids g v n.peer) {src : NodeId}
    {req : AppendEntriesReq} (hterm : req.term = n.currentTerm)
    (hprev : n.log.termAt req.prevLogIndex = some req.prevLogTerm)
    (hback : Backed cfg.ids g ⟨src, v, .appendEntries req⟩) :
    req.leaderCommit ≤ ((n.heard req.leaderId).merged req.entries).log.lastIndex ∧
      Safe cfg.ids g n.currentTerm
        (((n.heard req.leaderId).merged req.entries).log.entries.take req.leaderCommit) := by
  obtain ⟨_, _, _, _, r, hr, _, hex⟩ := hback
  have hmerge := mergeEntries_spec (hex.contiguous (hI.valid hr))
    (RaftLog.le_lastIndex_of_termAt hprev)
  obtain ⟨_, hcovers, _⟩ := hmerge.accepts hI hp.log_valid hr hex hprev
  have hlen := hcovers.length_le
  rw [List.length_take_of_le hex.end_le] at hlen
  refine ⟨hex.commit_le.trans hlen, ?_⟩
  have htake : (RaftNode.mergeEntries n.log req.entries).1.entries.take req.leaderCommit =
      r.log.take req.leaderCommit := by
    rw [take_eq_of_isPrefix hcovers (by
      rw [List.length_take_of_le hex.end_le]
      exact hex.commit_le), List.take_take, min_eq_left hex.commit_le]
  show Safe cfg.ids _ n.currentTerm
    ((RaftNode.mergeEntries n.log req.entries).1.entries.take req.leaderCommit)
  rw [htake, ← hterm]
  exact hex.safe

/-- A follower that takes over what the message shows. -/
theorem merged_simulates (hI : LedgerInv cfg.ids g) (hp : PeerInv cfg.ids g v n.peer)
    (hb : Books cfg g v n) {src : NodeId} {req : AppendEntriesReq}
    (hterm : req.term = n.currentTerm)
    (hprev : n.log.termAt req.prevLogIndex = some req.prevLogTerm)
    (hback : Backed cfg.ids g ⟨src, v, .appendEntries req⟩) :
    ∃ g', Simulates cfg v g n ((n.heard req.leaderId).merged req.entries, []) g' ∧
      g.Le g' ∧ req.prevLogIndex + req.entries.length ≤ g'.acked v n.currentTerm := by
  have hl := not_leader_of_backed hp hterm hback
  obtain ⟨_, _, _, _, r, hr, _, hex⟩ := hback
  have hr' : g.lead n.peer.term = some r := by
    rw [hterm] at hr
    exact hr
  have hmerge := mergeEntries_spec (hex.contiguous (hI.valid hr))
    (RaftLog.le_lastIndex_of_termAt hprev)
  obtain ⟨hfrom, hcovers, hkeeps⟩ := hmerge.accepts hI hp.log_valid hr hex hprev
  have hact : Act cfg.ids v (n.peer, g) (_, _) :=
    Act.accept n.peer g r _ _ hr' hex.end_le hfrom hcovers hkeeps
  have hs := Act.sound hact hI hp
  have hpeer : ((n.heard req.leaderId).merged req.entries).peer =
      { n.peer with log := (RaftNode.mergeEntries n.log req.entries).1.entries
                    mode := .follower } := by
    unfold RaftNode.peer RaftNode.merged
    rw [heard_mode hl]
    rfl
  rw [← hpeer] at hact
  obtain ⟨hbid, hbpeers, hbapplied, hbvotes, hbtracks⟩ := (hb.heard hl req.leaderId).mono
    hs.grows.toLe
  have hkept := hp.commit_kept hI hr' hkeeps
  refine ⟨_, Simulates.of_acts (Relation.ReflTransGen.single hact)
    ⟨hbid, hbpeers, hbapplied, hbvotes, fun h => ?_⟩ (fun _ => settled_of_not_leader ?_) rfl
    hkept.2, hs.grows.toLe, ?_⟩
  · have : (n.heard req.leaderId).role = .leader _ _ := h
    rw [heard_mode hl] at this
    cases this
  · show (n.heard req.leaderId).role.isLeader = false
    rw [heard_mode hl]
    rfl
  · exact (le_max_right _ _).trans (if_pos ⟨rfl, rfl⟩ : _ = _).ge

theorem onAppendEntries_simulates (hI : LedgerInv cfg.ids g) (hp : PeerInv cfg.ids g v n.peer)
    (hb : Books cfg g v n) (hset : cfg.peers v ≠ [] → n.Settled) {src : NodeId}
    {req : AppendEntriesReq} (hle : req.term ≤ n.currentTerm)
    (hback : Backed cfg.ids g ⟨src, v, .appendEntries req⟩) :
    Simulated cfg v g n (n.onAppendEntries src req) := by
  obtain ⟨hsrc, hv, hne, _⟩ := id hback
  rcases Nat.lt_or_eq_of_le hle with hlt | hterm
  · -- a stale leader: only a rejection
    rw [RaftNode.onAppendEntries_of_stale hlt]
    exact ⟨g, (Simulates.idle hb hset).reply ⟨hv, hsrc, hne.symm, fun h => by cases h⟩
      fun req h => by cases h⟩
  · have hl := not_leader_of_backed hp hterm hback
    by_cases hprev : n.log.termAt req.prevLogIndex = some req.prevLogTerm
    · rw [RaftNode.onAppendEntries_of_match hterm hprev]
      obtain ⟨g', hmerged, hgrown, hack⟩ := merged_simulates hI hp hb hterm hprev hback
      obtain ⟨hcap, hsafe⟩ := merged_safe hI hp hterm hprev hback
      set m := (n.heard req.leaderId).merged req.entries with hm
      have hfollower : m.role.isLeader = false := by
        show (n.heard req.leaderId).role.isLeader = false
        rw [heard_mode hl]
        rfl
      have hlearned : Simulates cfg v g' m (m.learned req.leaderCommit) g' := by
        unfold RaftNode.learned
        split
        · rename_i hgt
          rw [min_eq_left hcap]
          exact learn_simulates hmerged.books hcap (Nat.le_of_lt hgt) (hsafe.mono hgrown le_rfl)
            fun _ => settled_of_not_leader hfollower
        · exact Simulates.idle hmerged.books fun _ => settled_of_not_leader hfollower
      refine ⟨g', (hlearned.after hmerged.acts rfl hmerged.keeps).with_effects ?_ ?_⟩
      · rw [Effect.applies_append, Effect.applies_append, Effect.applies_of_none fun e he =>
          Effect.not_isApply_of_isStore (RaftNode.mergeEntries_isStore he)]
        exact List.append_nil _
      · intro dst msg hmem
        rcases List.mem_append.mp hmem with hmem | hmem
        · rcases List.mem_append.mp hmem with hmem | hmem
          · cases RaftNode.mergeEntries_isStore hmem
          · exact Or.inl hmem
        · cases List.mem_singleton.mp hmem
          exact Or.inr ⟨⟨hv, hsrc, hne.symm, fun _ => hack⟩, fun req h => by cases h⟩
    · -- no match at the position before the entries: the node only yields to the leader
      rw [RaftNode.onAppendEntries_of_mismatch hterm hprev]
      have hpeer : (n.heard req.leaderId).peer =
          { n.peer with mode := .follower, commit := n.commitIndex } := by
        unfold RaftNode.peer
        rw [heard_mode hl]
        rfl
      have hact : Act cfg.ids v (n.peer, g) ((n.heard req.leaderId).peer, g) := by
        rw [hpeer]
        exact Act.retire n.peer g n.commitIndex le_rfl
      have hyield : Simulates cfg v g n (n.heard req.leaderId, []) g :=
        Simulates.of_acts (Relation.ReflTransGen.single hact) (hb.heard hl _)
          (fun _ => settled_of_not_leader (by rw [heard_mode hl]; rfl)) rfl rfl
      exact ⟨g, hyield.reply ⟨hv, hsrc, hne.symm, fun h => by cases h⟩ fun req h => by cases h⟩

/-! ## All events -/

theorem onMessage_simulates (hI : LedgerInv cfg.ids g) (hp : PeerInv cfg.ids g v n.peer)
    (hb : Books cfg g v n) (hset : cfg.peers v ≠ [] → n.Settled) {src : NodeId} {msg : Message}
    (hle : msg.term ≤ n.currentTerm) (hback : Backed cfg.ids g ⟨src, v, msg⟩) :
    Simulated cfg v g n (n.step (.message src msg)) := by
  cases msg with
  | requestVote req => exact onRequestVote_simulates hI hp hb hset hle hback
  | requestVoteResp resp => exact onRequestVoteResp_simulates hI hp hb hset hle hback
  | appendEntries req => exact onAppendEntries_simulates hI hp hb hset hle hback
  | appendEntriesResp resp => exact onAppendEntriesResp_simulates hI hp hb hset hle hback

/-- Adopting a higher term. -/
theorem adopt_simulates (hb : Books cfg g v n) {t : ℕ} (ht : n.currentTerm < t) :
    Simulates cfg v g n (n.adopt t, []) g :=
  Simulates.of_acts (Relation.ReflTransGen.single (Act.advance n.peer g t ht))
    { id := hb.id
      peers := hb.peers
      applied := hb.applied
      votes := fun hr => by cases hr
      tracks := fun hr => by cases hr }
    (fun _ => settled_of_not_leader rfl) rfl rfl

/-- **A step is a run of ledger steps.** -/
theorem step_simulates (hv : v ∈ cfg.ids) (hI : LedgerInv cfg.ids g)
    (hp : PeerInv cfg.ids g v n.peer) (hb : Books cfg g v n)
    (hset : cfg.peers v ≠ [] → n.Settled) {ev : Event} (hev : ev.Backed cfg.ids g v) :
    Simulated cfg v g n (n.step ev) := by
  cases ev with
  | tick => exact onTick_simulates hv hI hp hb hset
  | propose cmd => exact onPropose_simulates hv hI hp hb hset cmd
  | message src msg =>
    by_cases hle : msg.term ≤ n.currentTerm
    · exact onMessage_simulates hI hp hb hset hle hev
    · have hadopt := adopt_simulates hb (Nat.not_le.mp hle)
      have hs := Acts.sound hadopt.acts hI hp
      obtain ⟨g', h⟩ := onMessage_simulates hI hs.peer hadopt.books hadopt.settled le_rfl hev
      rw [RaftNode.step_higher (Nat.not_le.mp hle)]
      refine ⟨g', (h.after hadopt.acts rfl rfl).with_effects rfl fun dst m hm => ?_⟩
      rcases List.mem_cons.mp hm with hm | hm
      · cases hm
      · exact Or.inl hm

end Handlers

end MyK8s.Raft
