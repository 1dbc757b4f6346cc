import MyK8s.Lib.Ledger

/-!
# The steps of a peer on the ledger

`Act ids v` is what replica `v` may do to its own peer state and to the shared ledger: adopt a
later term, stand for election, vote, win, append as leader, accept a leader's log, learn a commit
index, give up its role. Each step keeps `LedgerInv`, keeps the `PeerInv` of `v` and only grows
the ledger where `v` may (`Act.sound`); growth made by `v` leaves the promises of every other peer
standing (`PeerInv.frame`). Runs of steps of one replica inherit both (`Acts.sound`).
-/

namespace Consensus

variable {ν ε : Type} [Stamped ε] [DecidableEq ν]

/-! ## Entries on the ledger -/

def Ledger.setCand (g : Ledger ν ε) (v : ν) (t : ℕ) (l : List ε) : Ledger ν ε :=
  { g with cand := fun w s => if w = v ∧ s = t then some l else g.cand w s }

def Ledger.setBallot (g : Ledger ν ε) (v : ν) (t : ℕ) (c : ν) : Ledger ν ε :=
  { g with ballot := fun w s => if w = v ∧ s = t then some c else g.ballot w s }

def Ledger.setAcked (g : Ledger ν ε) (v : ν) (t n : ℕ) : Ledger ν ε :=
  { g with acked := fun w s => if w = v ∧ s = t then n else g.acked w s }

def Ledger.setLead (g : Ledger ν ε) (t : ℕ) (r : Reign ν ε) : Ledger ν ε :=
  { g with lead := fun s => if s = t then some r else g.lead s }

/-- The reign of a leader that starts from the log `l`. -/
def Reign.start (v : ν) (l : List ε) : Reign ν ε := ⟨v, l, l, List.prefix_rfl⟩

/-- A reign whose log has grown by one entry. -/
def Reign.push (r : Reign ν ε) (e : ε) : Reign ν ε :=
  ⟨r.id, r.base, r.log ++ [e], r.base_le.trans (List.prefix_append _ _)⟩

section Entries

variable {g : Ledger ν ε} {v w : ν} {t s τ n : ℕ}

omit [Stamped ε]

theorem Ledger.cand_setCand {l l' : List ε} (h : (g.setCand v t l).cand w s = some l') :
    (w = v ∧ s = t ∧ l' = l) ∨ g.cand w s = some l' := by
  simp only [Ledger.setCand] at h
  split_ifs at h with hws
  · exact Or.inl ⟨hws.1, hws.2, (Option.some.inj h).symm⟩
  · exact Or.inr h

theorem Ledger.ballot_setBallot {c c' : ν} (h : (g.setBallot v t c).ballot w s = some c') :
    (w = v ∧ s = t ∧ c' = c) ∨ (¬(w = v ∧ s = t) ∧ g.ballot w s = some c') := by
  simp only [Ledger.setBallot] at h
  split_ifs at h with hws
  · exact Or.inl ⟨hws.1, hws.2, (Option.some.inj h).symm⟩
  · exact Or.inr ⟨hws, h⟩

omit [DecidableEq ν] in
theorem Ledger.lead_setLead {r r' : Reign ν ε} (h : (g.setLead t r).lead s = some r') :
    (s = t ∧ r' = r) ∨ (s ≠ t ∧ g.lead s = some r') := by
  simp only [Ledger.setLead] at h
  split_ifs at h with hs
  · exact Or.inl ⟨hs, (Option.some.inj h).symm⟩
  · exact Or.inr ⟨hs, h⟩

omit [DecidableEq ν] in
theorem Ledger.setLead_self (r : Reign ν ε) : (g.setLead t r).lead t = some r := by
  simp [Ledger.setLead]

omit [DecidableEq ν] in
theorem Ledger.setLead_other (r : Reign ν ε) (h : s ≠ t) :
    (g.setLead t r).lead s = g.lead s := by
  simp [Ledger.setLead, h]

theorem Ledger.setAcked_self : (g.setAcked v t n).acked v t = n := by
  simp [Ledger.setAcked]

theorem Ledger.setAcked_other (h : ¬(w = v ∧ s = t)) :
    (g.setAcked v t n).acked w s = g.acked w s := by
  simp only [Ledger.setAcked, if_neg h]

/-- A candidacy of `v` where there was none. -/
theorem Ledger.Grows.setCand (l : List ε) (hnone : g.cand v t = none) :
    Ledger.Grows v τ g (g.setCand v t l) where
  lead h := ⟨_, h, rfl, rfl, List.prefix_rfl⟩
  cand {w s l'} h := by
    simp only [Ledger.setCand]
    rwa [if_neg]
    rintro ⟨rfl, rfl⟩
    simp [hnone] at h
  ballot := id
  acked _ _ := le_rfl
  lead_other h _ := h
  lead_new h h' := by simp [Ledger.setCand, h] at h'
  cand_other _ hw := if_neg fun h => hw h.1
  ballot_other _ _ := rfl
  acked_other _ _ := rfl
  acked_before _ := rfl

/-- The ballot of `v` in a term, where it has not voted for another. -/
theorem Ledger.Grows.setBallot {c : ν} (hsame : ∀ c', g.ballot v t = some c' → c' = c) :
    Ledger.Grows v τ g (g.setBallot v t c) where
  lead h := ⟨_, h, rfl, rfl, List.prefix_rfl⟩
  cand := id
  ballot {w s c'} h := by
    simp only [Ledger.setBallot]
    split_ifs with hws
    · obtain ⟨rfl, rfl⟩ := hws
      rw [hsame c' h]
    · exact h
  acked _ _ := le_rfl
  lead_other h _ := h
  lead_new h h' := by simp [Ledger.setBallot, h] at h'
  cand_other _ _ := rfl
  ballot_other _ hw := if_neg fun h => hw h.1
  acked_other _ _ := rfl
  acked_before _ := rfl

/-- A higher count of `v` in the term `τ`. -/
theorem Ledger.Grows.setAcked (hn : g.acked v τ ≤ n) :
    Ledger.Grows v τ g (g.setAcked v τ n) where
  lead h := ⟨_, h, rfl, rfl, List.prefix_rfl⟩
  cand := id
  ballot := id
  acked w s := by
    simp only [Ledger.setAcked]
    split_ifs with hws
    · obtain ⟨rfl, rfl⟩ := hws
      exact hn
    · exact le_rfl
  lead_other h _ := h
  lead_new h h' := by simp [Ledger.setAcked, h] at h'
  cand_other _ _ := rfl
  ballot_other _ _ := rfl
  acked_other _ hw := if_neg fun h => hw h.1
  acked_before ht := if_neg fun h => ht.ne h.2

omit [DecidableEq ν] in
/-- The reign of `v` in a term, new or grown. -/
theorem Ledger.Grows.setLead {r : Reign ν ε} (hid : r.id = v)
    (hold : ∀ r₀, g.lead t = some r₀ → r₀.id = v ∧ r.base = r₀.base ∧ r₀.log <+: r.log) :
    Ledger.Grows v τ g (g.setLead t r) where
  lead {s r₀} h := by
    by_cases hs : s = t
    · subst hs
      obtain ⟨hid₀, hbase, hlog⟩ := hold r₀ h
      exact ⟨r, Ledger.setLead_self r, hid.trans hid₀.symm, hbase, hlog⟩
    · exact ⟨r₀, by rwa [Ledger.setLead_other r hs], rfl, rfl, List.prefix_rfl⟩
  cand := id
  ballot := id
  acked _ _ := le_rfl
  lead_other {s r₀} h hne := by
    rwa [Ledger.setLead_other r]
    rintro rfl
    exact hne (hold r₀ h).1
  lead_new h h' := by
    rcases Ledger.lead_setLead h' with ⟨_, rfl⟩ | ⟨_, h''⟩
    · exact hid
    · simp [h] at h''
  cand_other _ _ := rfl
  ballot_other _ _ := rfl
  acked_other _ _ := rfl
  acked_before _ := rfl

end Entries

/-! ## The steps -/

/-- One step of replica `v`, on its peer state and the ledger. -/
inductive Act (ids : Finset ν) (v : ν) :
    Peer ν ε × Ledger ν ε → Peer ν ε × Ledger ν ε → Prop
  /-- Adopt a later term, as a follower that has not voted in it. -/
  | advance (p : Peer ν ε) (g : Ledger ν ε) (t : ℕ) (ht : p.term < t) :
      Act ids v (p, g) ({ p with term := t, vote := none, mode := .follower }, g)
  /-- Stand for the next term, with the own vote. -/
  | campaign (p : Peer ν ε) (g : Ledger ν ε) :
      Act ids v (p, g) ({ p with term := p.term + 1, vote := some v, mode := .candidate },
        (g.setCand v (p.term + 1) p.log).setBallot v (p.term + 1) v)
  /-- Vote in the current term for a log that is at least as up to date. -/
  | grant (p : Peer ν ε) (g : Ledger ν ε) (c : ν) (l : List ε)
      (hfree : p.vote = none ∨ p.vote = some c) (hcand : g.cand c p.term = some l)
      (hup : UpToDate l p.log) :
      Act ids v (p, g) ({ p with vote := some c }, g.setBallot v p.term c)
  /-- Become leader on the ballots of a majority. -/
  | win (p : Peer ν ε) (g : Ledger ν ε) (Q : Finset ν) (hmode : p.mode = .candidate)
      (hQ : IsMajority ids Q) (hballot : ∀ q ∈ Q, g.ballot q p.term = some v) :
      Act ids v (p, g) ({ p with mode := .leader },
        (g.setLead p.term (Reign.start v p.log)).setAcked v p.term p.log.length)
  /-- Append an entry of the own term as leader. -/
  | propose (p : Peer ν ε) (g : Ledger ν ε) (r : Reign ν ε) (e : ε) (hmode : p.mode = .leader)
      (hr : g.lead p.term = some r) (hterm : Stamped.term e = p.term)
      (hindex : Stamped.index e = p.log.length + 1) :
      Act ids v (p, g) ({ p with log := p.log ++ [e] },
        (g.setLead p.term (r.push e)).setAcked v p.term (p.log.length + 1))
  /-- Replace the log by a piece of itself or of the leader's log that keeps what the two have in
  common and covers the first `M` entries of the leader, and acknowledge these. -/
  | accept (p : Peer ν ε) (g : Ledger ν ε) (r : Reign ν ε) (l : List ε) (M : ℕ)
      (hr : g.lead p.term = some r) (hM : M ≤ r.log.length)
      (hfrom : l <+: p.log ∨ l <+: r.log) (hcovers : r.log.take M <+: l)
      (hkeeps : ∀ P, P <+: p.log → P <+: r.log → P <+: l) :
      Act ids v (p, g) ({ p with log := l, mode := .follower },
        g.setAcked v p.term (max (g.acked v p.term) M))
  /-- Learn that the first `n` entries are committed. -/
  | learn (p : Peer ν ε) (g : Ledger ν ε) (n : ℕ) (hn : n ≤ p.log.length)
      (hsafe : Safe ids g p.term (p.log.take n)) :
      Act ids v (p, g) ({ p with commit := n }, g)
  /-- Give up any role and forget part of the commit index. -/
  | retire (p : Peer ν ε) (g : Ledger ν ε) (n : ℕ) (hn : n ≤ p.commit) :
      Act ids v (p, g) ({ p with mode := .follower, commit := n }, g)

/-! ## Growth made by a replica leaves the others standing -/

omit [Stamped ε] [DecidableEq ν] in
/-- A reign of another replica was there before. -/
theorem Ledger.Grows.lead_old {g g' : Ledger ν ε} {v : ν} {τ t : ℕ} {r : Reign ν ε}
    (hg : Ledger.Grows v τ g g') (hr : g'.lead t = some r) (hne : r.id ≠ v) :
    ∃ r₀, g.lead t = some r₀ ∧ r₀.id = r.id := by
  cases hold : g.lead t with
  | none => exact absurd (hg.lead_new hold hr) hne
  | some r₀ =>
    obtain ⟨r', hr', hid, _⟩ := hg.lead hold
    rw [hr] at hr'
    exact ⟨r₀, rfl, by rw [Option.some.inj hr', hid]⟩

omit [DecidableEq ν] in
/-- What a replica acknowledged while its count stood it still holds, or it has been overruled. -/
theorem PeerInv.holds_old {ids : Finset ν} {g g' : Ledger ν ε} {v : ν} {p : Peer ν ε} {t : ℕ}
    {P : List ε} (hI : LedgerInv ids g) (hle : g.Le g') (h : PeerInv ids g v p)
    (hsame : g'.acked v t = g.acked v t) (hack : Acked g' v t P) :
    P <+: p.log ∨ Overruled g' P t (p.term + 1) := by
  by_cases hne : P = []
  · exact Or.inl (hne ▸ List.nil_prefix)
  · exact (h.holds (hack.old hI hle hsame hne)).imp id (Overruled.mono hle le_rfl)

omit [DecidableEq ν] in
theorem PeerInv.frame {ids : Finset ν} {g g' : Ledger ν ε} {v w : ν} {τ : ℕ} {p : Peer ν ε}
    (hI : LedgerInv ids g) (hg : Ledger.Grows v τ g g') (hw : w ≠ v) (h : PeerInv ids g w p) :
    PeerInv ids g' w p where
  lead_le hr hid := by
    obtain ⟨r₀, hr₀, hid₀⟩ := hg.lead_old hr (by rwa [hid])
    exact h.lead_le hr₀ (hid₀.trans hid)
  cand_le hl := h.cand_le (by rwa [hg.cand_other _ hw] at hl)
  ballot_le hc := h.ballot_le (by rwa [hg.ballot_other _ hw] at hc)
  acked_term hpos := h.acked_term (by rwa [hg.acked_other _ hw] at hpos)
  log_valid := h.log_valid.mono hg.toLe
  log_term := h.log_term
  holds hack := h.holds_old hI hg.toLe (hg.acked_other _ hw) hack
  candidate hm := by
    obtain ⟨h1, h2, h3⟩ := h.candidate hm
    refine ⟨hg.cand h1, hg.ballot h2, fun r hr hid => ?_⟩
    obtain ⟨r₀, hr₀, hid₀⟩ := hg.lead_old hr (by rwa [hid])
    exact h3 r₀ hr₀ (hid₀.trans hid)
  leader hm := by
    obtain ⟨r, hr, hid, hlog, hack⟩ := h.leader hm
    exact ⟨r, hg.lead_other hr (by rwa [hid]), hid, hlog, by rw [hg.acked_other _ hw, hack]⟩
  commit_le := h.commit_le
  commit_safe := h.commit_safe.mono hg.toLe le_rfl

/-! ## Each step is sound -/

/-- What a step of `v` from `(p, g)` to `(p', g')` owes. -/
structure Sound (ids : Finset ν) (v : ν) (p : Peer ν ε) (g : Ledger ν ε) (p' : Peer ν ε)
    (g' : Ledger ν ε) : Prop where
  ledger : LedgerInv ids g'
  peer : PeerInv ids g' v p'
  grows : Ledger.Grows v p.term g g'
  term_le : p.term ≤ p'.term

section Steps

variable {ids : Finset ν} {v : ν} {p : Peer ν ε} {g g' : Ledger ν ε}

omit [DecidableEq ν] in
theorem advance_sound (hI : LedgerInv ids g) (hp : PeerInv ids g v p) {t : ℕ} (ht : p.term < t) :
    Sound ids v p g { p with term := t, vote := none, mode := .follower } g where
  ledger := hI
  grows := Ledger.Grows.refl v _ g
  term_le := ht.le
  peer :=
    { lead_le := fun hr hid => (hp.lead_le hr hid).trans ht.le
      cand_le := fun hl => (hp.cand_le hl).trans ht.le
      ballot_le := fun {s c} hc => by
        have hs := (hp.ballot_le hc).1
        exact ⟨hs.trans ht.le, fun (heq : s = t) => by omega⟩
      acked_term := fun hpos => (hp.acked_term hpos).trans ht.le
      log_valid := hp.log_valid
      log_term := fun e he => (hp.log_term e he).trans ht.le
      holds := fun hack => (hp.holds hack).imp id
        (Overruled.mono (Ledger.Le.refl g) (Nat.succ_le_succ ht.le))
      candidate := fun hm => by cases hm
      leader := fun hm => by cases hm
      commit_le := hp.commit_le
      commit_safe := hp.commit_safe.mono (Ledger.Le.refl g) ht.le }

/-! ### Standing and voting -/

omit [DecidableEq ν] in
/-- The log a replica stands with has all that it acknowledged itself. -/
theorem PeerInv.knows_own (hp : PeerInv ids g v p) :
    Knows g v (p.term + 1) (p.term + 1 + 1) p.log := fun _ _ _ hack _ =>
  (hp.holds hack).imp id (Overruled.mono (Ledger.Le.refl g) (Nat.le_succ _))

omit [DecidableEq ν] in
/-- Nobody has stood or voted as `v` in a term `v` has not reached. -/
theorem PeerInv.next_term_free (hp : PeerInv ids g v p) :
    g.cand v (p.term + 1) = none ∧ g.ballot v (p.term + 1) = none := by
  constructor
  · refine Option.eq_none_iff_forall_ne_some.mpr fun l hl => ?_
    have := hp.cand_le hl
    omega
  · refine Option.eq_none_iff_forall_ne_some.mpr fun c hc => ?_
    have := (hp.ballot_le hc).1
    omega

omit [DecidableEq ν] in
/-- The electorate of a reign keeps its promise while the counts of its voters stand. -/
theorem LedgerInv.quorum_mono (hI : LedgerInv ids g) (hle : g.Le g')
    (hfrozen : ∀ {q t c}, g.ballot q t = some c → ∀ s, s < t → g'.acked q s = g.acked q s)
    {t : ℕ} {r : Reign ν ε} (hr : g.lead t = some r) :
    ∃ Q, IsMajority ids Q ∧ ∀ q ∈ Q, g'.ballot q t = some r.id ∧ Knows g' q t t r.base := by
  obtain ⟨Q, hQ, hq⟩ := hI.quorum hr
  refine ⟨Q, hQ, fun q h => ?_⟩
  obtain ⟨hb, hk⟩ := hq q h
  exact ⟨hle.ballot hb, hk.mono hI hle (hfrozen hb)⟩

omit [DecidableEq ν] in
/-- A ballot of `v` for a log that knows what `v` acknowledged keeps the promises of a ledger on
which nothing but candidacies and ballots has been entered. -/
theorem LedgerInv.ballot (hI : LedgerInv ids g) (hle : g.Le g') (hlead : g'.lead = g.lead)
    (hacked : g'.acked = g.acked) {t : ℕ} {c : ν} {l : List ε} (hcand : g'.cand c t = some l)
    (hknows : Knows g v t (t + 1) l)
    (hballot : ∀ {w s c'}, g'.ballot w s = some c' →
      (w = v ∧ s = t ∧ c' = c) ∨ g.ballot w s = some c')
    (hlogs : ∀ {w s l'}, g'.cand w s = some l' →
      0 < s ∧ Valid g l' ∧ ∀ e ∈ l', Stamped.term e < s) :
    LedgerInv ids g' where
  pos hr := hI.pos (by rwa [hlead] at hr)
  quorum hr := hI.quorum_mono hle (fun _ _ _ => by rw [hacked]) (by rwa [hlead] at hr)
  valid hr := (hI.valid (by rwa [hlead] at hr)).mono hle
  own hr := hI.own (by rwa [hlead] at hr)
  acked_le hpos := by
    rw [hacked] at hpos ⊢
    rw [hlead]
    exact hI.acked_le hpos
  cand_log hl := (hlogs hl).imp id (And.imp (Valid.mono hle) id)
  ballot_cand hc := by
    rcases hballot hc with ⟨rfl, rfl, rfl⟩ | hc
    · exact ⟨l, hcand⟩
    · exact (hI.ballot_cand hc).imp fun _ => hle.cand
  ballot_knows {w s c' l'} hc hl := by
    refine Knows.mono hI hle (fun _ _ => by rw [hacked]) ?_
    rcases hballot hc with ⟨rfl, rfl, rfl⟩ | hc
    · rwa [Option.some.inj (hl.symm.trans hcand)]
    · -- an older ballot went to an older candidacy
      obtain ⟨l₀, hl₀⟩ := hI.ballot_cand hc
      rw [Option.some.inj (hl.symm.trans (hle.cand hl₀))]
      exact hI.ballot_knows hc hl₀

theorem campaign_sound (hI : LedgerInv ids g) (hp : PeerInv ids g v p) :
    Sound ids v p g { p with term := p.term + 1, vote := some v, mode := .candidate }
      ((g.setCand v (p.term + 1) p.log).setBallot v (p.term + 1) v) := by
  obtain ⟨hcand, hballot⟩ := hp.next_term_free
  set g₁ := g.setCand v (p.term + 1) p.log with hg₁
  have hgrows : Ledger.Grows v p.term g (g₁.setBallot v (p.term + 1) v) :=
    (Ledger.Grows.setCand p.log hcand).trans
      (Ledger.Grows.setBallot fun c (hc : g.ballot v (p.term + 1) = some c) => by
        rw [hballot] at hc; cases hc) le_rfl
  have hle := hgrows.toLe
  have hself : g₁.cand v (p.term + 1) = some p.log := if_pos ⟨rfl, rfl⟩
  have hterm : ∀ e ∈ p.log, Stamped.term e < p.term + 1 := fun e he =>
    Nat.lt_succ_of_le (hp.log_term e he)
  refine ⟨?_, ?_, hgrows, Nat.le_succ _⟩
  · refine hI.ballot hle rfl rfl hself hp.knows_own
      (fun hc => (Ledger.ballot_setBallot hc).imp id And.right) fun {w s l'} hl => ?_
    rcases Ledger.cand_setCand (g := g) hl with ⟨rfl, rfl, rfl⟩ | hl
    · exact ⟨Nat.succ_pos _, hp.log_valid, hterm⟩
    · exact hI.cand_log hl
  · refine
      { lead_le := fun hr hid => (hp.lead_le hr hid).trans (Nat.le_succ _)
        cand_le := fun {t l} hl => ?_
        ballot_le := fun {t c} hc => ?_
        acked_term := fun hpos => (hp.acked_term hpos).trans (Nat.le_succ _)
        log_valid := hp.log_valid.mono hle
        log_term := fun e he => (hterm e he).le
        holds := fun hack => (hp.holds hack).imp id
          (Overruled.mono (Ledger.Le.refl g) (Nat.le_succ _))
        candidate := fun _ => ⟨hself, if_pos ⟨rfl, rfl⟩, fun r hr hid => ?_⟩
        leader := fun hm => by cases hm
        commit_le := hp.commit_le
        commit_safe := hp.commit_safe.mono hle (Nat.le_succ _) }
    · rcases Ledger.cand_setCand (g := g) hl with ⟨_, rfl, _⟩ | hl
      · exact le_rfl
      · exact (hp.cand_le hl).trans (Nat.le_succ _)
    · rcases Ledger.ballot_setBallot hc with ⟨_, rfl, rfl⟩ | ⟨_, hc⟩
      · exact ⟨le_rfl, fun _ => rfl⟩
      · have := (hp.ballot_le hc).1
        exact ⟨this.trans (Nat.le_succ _), fun (heq : t = p.term + 1) => by omega⟩
    · have := hp.lead_le (t := p.term + 1) hr hid
      omega

theorem grant_sound (hI : LedgerInv ids g) (hp : PeerInv ids g v p) {c : ν} {l : List ε}
    (hfree : p.vote = none ∨ p.vote = some c) (hcand : g.cand c p.term = some l)
    (hup : UpToDate l p.log) :
    Sound ids v p g { p with vote := some c } (g.setBallot v p.term c) := by
  -- an earlier ballot of this term, if there is one, went to `c` too
  have hsame : ∀ c', g.ballot v p.term = some c' → c' = c := by
    intro c' h
    have hv := (hp.ballot_le h).2 rfl
    rcases hfree with hf | hf
    · simp [hf] at hv
    · exact (Option.some.inj (hf.symm.trans hv)).symm
  have hgrows : Ledger.Grows v p.term g (g.setBallot v p.term c) := Ledger.Grows.setBallot hsame
  have hle := hgrows.toLe
  obtain ⟨_, hval, hlt⟩ := hI.cand_log hcand
  refine ⟨?_, ?_, hgrows, le_rfl⟩
  · exact hI.ballot hle rfl rfl hcand
      (knows_of_upToDate hI hval hlt hp.log_valid (fun t P => hp.holds) hup)
      (fun hc => (Ledger.ballot_setBallot hc).imp id And.right) hI.cand_log
  · refine
      { lead_le := hp.lead_le
        cand_le := hp.cand_le
        ballot_le := fun {t c'} hc => ?_
        acked_term := hp.acked_term
        log_valid := hp.log_valid.mono hle
        log_term := hp.log_term
        holds := hp.holds
        candidate := fun hm => ?_
        leader := hp.leader
        commit_le := hp.commit_le
        commit_safe := hp.commit_safe.mono hle le_rfl }
    · rcases Ledger.ballot_setBallot hc with ⟨_, rfl, rfl⟩ | ⟨hne, hc⟩
      · exact ⟨le_rfl, fun _ => rfl⟩
      · exact ⟨(hp.ballot_le hc).1, fun heq => absurd ⟨rfl, heq⟩ hne⟩
    · obtain ⟨h1, h2, h3⟩ := hp.candidate hm
      exact ⟨h1, hle.ballot h2, h3⟩

/-! ### Acknowledging

The next steps move the count of `v` in its own term and no other. -/

omit [DecidableEq ν] in
/-- Who voted in a term acknowledges nothing more in the terms before. -/
theorem PeerInv.voter_frozen (hp : PeerInv ids g v p)
    (hsame : ∀ {w t}, ¬(w = v ∧ t = p.term) → g'.acked w t = g.acked w t) {q c : ν} {t : ℕ}
    (hb : g.ballot q t = some c) (s : ℕ) (hs : s < t) : g'.acked q s = g.acked q s := by
  refine hsame ?_
  rintro ⟨rfl, rfl⟩
  have := (hp.ballot_le hb).1
  omega

omit [DecidableEq ν] in
theorem PeerInv.acked_term_self (hp : PeerInv ids g v p)
    (hsame : ∀ {w t}, ¬(w = v ∧ t = p.term) → g'.acked w t = g.acked w t) {t : ℕ}
    (hpos : 0 < g'.acked v t) : t ≤ p.term := by
  by_cases ht : t = p.term
  · exact ht.le
  · rw [hsame fun h => ht h.2] at hpos
    exact hp.acked_term hpos

omit [DecidableEq ν] in
theorem LedgerInv.acked_le_self (hI : LedgerInv ids g) (hle : g.Le g') {τ : ℕ}
    (hsame : ∀ {w t}, ¬(w = v ∧ t = τ) → g'.acked w t = g.acked w t)
    (hself : ∃ r, g'.lead τ = some r ∧ g'.acked v τ ≤ r.log.length) {w : ν} {t : ℕ}
    (hpos : 0 < g'.acked w t) : ∃ r, g'.lead t = some r ∧ g'.acked w t ≤ r.log.length := by
  by_cases hwt : w = v ∧ t = τ
  · obtain ⟨rfl, rfl⟩ := hwt
    exact hself
  · rw [hsame hwt] at hpos ⊢
    obtain ⟨r, hr, hlen⟩ := hI.acked_le hpos
    obtain ⟨r', hr', _, _, hlog⟩ := hle.lead hr
    exact ⟨r', hr', hlen.trans hlog.length_le⟩

/-- A reign that `v` enters in its own term, with all of its log acknowledged, only adds. -/
theorem LedgerInv.reign_grows (hI : LedgerInv ids g) {τ : ℕ} {r : Reign ν ε} (hid : r.id = v)
    (hold : ∀ r₀, g.lead τ = some r₀ → r₀.id = v ∧ r.base = r₀.base ∧ r₀.log <+: r.log) :
    Ledger.Grows v τ g ((g.setLead τ r).setAcked v τ r.log.length) := by
  refine (Ledger.Grows.setLead hid hold).trans (Ledger.Grows.setAcked ?_) le_rfl
  rcases Nat.eq_zero_or_pos (g.acked v τ) with h0 | hpos
  · exact h0.le.trans (Nat.zero_le _)
  · obtain ⟨r₀, hr₀, hlen⟩ := hI.acked_le hpos
    exact hlen.trans (hold r₀ hr₀).2.2.length_le

/-- **Reigning is sound.** A replica that enters a reign of its own in its term, its log being the
reign's and all of it acknowledged, is sound if an electorate stands behind the reign's base, the
log is valid and the entries past the base are of the term. -/
theorem reign_sound (hI : LedgerInv ids g) (hp : PeerInv ids g v p) {r : Reign ν ε}
    (hid : r.id = v) (hlog : p.log <+: r.log) (hpos : 0 < p.term)
    (hold : ∀ r₀, g.lead p.term = some r₀ → r₀.id = v ∧ r.base = r₀.base ∧ r₀.log <+: r.log)
    (hg' : g' = (g.setLead p.term r).setAcked v p.term r.log.length)
    (hquorum : ∃ Q, IsMajority ids Q ∧
      ∀ q ∈ Q, g'.ballot q p.term = some r.id ∧ Knows g' q p.term p.term r.base)
    (hvalid : Valid g' r.log)
    (hown : ∀ k e, r.log[k]? = some e → (k < r.base.length → Stamped.term e < p.term) ∧
      (r.base.length ≤ k → Stamped.term e = p.term)) :
    Sound ids v p g { p with log := r.log, mode := .leader } g' := by
  have hgrows : Ledger.Grows v p.term g g' := hg' ▸ hI.reign_grows hid hold
  have hle := hgrows.toLe
  have hself : g'.lead p.term = some r := by rw [hg']; exact Ledger.setLead_self r
  have hcases : ∀ {t s}, g'.lead t = some s → (t = p.term ∧ s = r) ∨ g.lead t = some s := by
    intro t s hs
    rw [hg'] at hs
    exact (Ledger.lead_setLead (g := g) hs).imp id And.right
  have hcount : g'.acked v p.term = r.log.length := by rw [hg']; exact Ledger.setAcked_self
  have hsame : ∀ {w t}, ¬(w = v ∧ t = p.term) → g'.acked w t = g.acked w t := by
    intro w t hwt
    rw [hg']
    exact Ledger.setAcked_other hwt
  refine ⟨?_, ?_, hgrows, le_rfl⟩
  · refine
      { pos := fun hr => ?_
        quorum := fun hr => ?_
        valid := fun hr => ?_
        own := fun hr => ?_
        acked_le := hI.acked_le_self hle hsame ⟨r, hself, hcount.le⟩
        cand_log := fun hl => by
          rw [hg'] at hl
          exact (hI.cand_log hl).imp id (And.imp (Valid.mono hle) id)
        ballot_cand := fun hc => by
          rw [hg'] at hc ⊢
          exact hI.ballot_cand hc
        ballot_knows := fun hc hl => by
          have hc₀ := hc
          rw [hg'] at hc₀ hl
          exact (hI.ballot_knows hc₀ hl).mono hI hle (hp.voter_frozen hsame hc₀) }
    · rcases hcases hr with ⟨rfl, rfl⟩ | hr
      · exact hpos
      · exact hI.pos hr
    · rcases hcases hr with ⟨rfl, rfl⟩ | hr
      · exact hquorum
      · exact hI.quorum_mono hle (hp.voter_frozen hsame) hr
    · rcases hcases hr with ⟨rfl, rfl⟩ | hr
      · exact hvalid
      · exact (hI.valid hr).mono hle
    · rcases hcases hr with ⟨rfl, rfl⟩ | hr
      · exact hown
      · exact hI.own hr
  · refine
      { lead_le := fun hs hsid => ?_
        cand_le := fun hl => hp.cand_le (by rwa [hg'] at hl)
        ballot_le := fun hc => hp.ballot_le (by rwa [hg'] at hc)
        acked_term := hp.acked_term_self hsame
        log_valid := hvalid
        log_term := fun e he => ?_
        holds := fun {t P} hack => ?_
        candidate := fun hm => by cases hm
        leader := fun _ => ⟨r, hself, hid, rfl, hcount⟩
        commit_le := hp.commit_le.trans hlog.length_le
        commit_safe := ?_ }
    · rcases hcases hs with ⟨rfl, _⟩ | hs
      · exact le_rfl
      · exact hp.lead_le hs hsid
    · obtain ⟨k, hk⟩ := List.mem_iff_getElem?.mp he
      rcases Nat.lt_or_ge k r.base.length with h | h
      · exact ((hown k e hk).1 h).le
      · exact ((hown k e hk).2 h).le
    · by_cases ht : t = p.term
      · subst ht
        obtain ⟨⟨s, hs, hP⟩, _⟩ := hack
        rw [Option.some.inj (hself.symm.trans hs)]
        exact Or.inl hP
      · exact (hp.holds_old hI hle (hsame fun h => ht h.2) hack).imp (fun h => h.trans hlog) id
    · show Safe ids g' p.term (r.log.take p.commit)
      obtain ⟨s, hs⟩ := hlog
      rw [← hs, List.take_append_of_le_length hp.commit_le]
      exact hp.commit_safe.mono hle le_rfl

/-- A candidate's term has no leader yet once a majority voted for it. -/
theorem no_leader_of_quorum (hI : LedgerInv ids g) (hp : PeerInv ids g v p)
    (hmode : p.mode = .candidate) {Q : Finset ν} (hQ : IsMajority ids Q)
    (hballot : ∀ q ∈ Q, g.ballot q p.term = some v) : g.lead p.term = none := by
  refine Option.eq_none_iff_forall_ne_some.mpr fun r h => ?_
  obtain ⟨R, hR, hr⟩ := hI.quorum h
  obtain ⟨q, hqQ, hqR⟩ := hQ.meet hR
  have hid : r.id = v := Option.some.inj ((hr q hqR).1.symm.trans (hballot q hqQ))
  exact (hp.candidate hmode).2.2 r h hid

theorem win_sound (hI : LedgerInv ids g) (hp : PeerInv ids g v p) {Q : Finset ν}
    (hmode : p.mode = .candidate) (hQ : IsMajority ids Q)
    (hballot : ∀ q ∈ Q, g.ballot q p.term = some v) :
    Sound ids v p g { p with mode := .leader }
      ((g.setLead p.term (Reign.start v p.log)).setAcked v p.term p.log.length) := by
  obtain ⟨hcand, _, _⟩ := hp.candidate hmode
  obtain ⟨hpos, hvalid, hlt⟩ := hI.cand_log hcand
  have hnone := no_leader_of_quorum hI hp hmode hQ hballot
  have hold : ∀ r₀, g.lead p.term = some r₀ → r₀.id = v ∧ (Reign.start v p.log).base = r₀.base ∧
      r₀.log <+: (Reign.start v p.log).log := by
    simp [hnone]
  have hle := (hI.reign_grows (r := Reign.start v p.log) rfl hold).toLe
  refine reign_sound (r := Reign.start v p.log) hI hp rfl List.prefix_rfl hpos hold rfl
    ⟨Q, hQ, fun q hq => ⟨hballot q hq, fun t P htu hack hend => ?_⟩⟩ (hvalid.mono hle)
    fun k e he => ?_
  · have hack₀ : Acked g q t P := hack.old hI hle
      (hp.voter_frozen (fun h => Ledger.setAcked_other h) (hballot q hq) t htu) hend.ne_nil
    refine (hI.ballot_knows (hballot q hq) hcand t P htu hack₀ hend).imp id fun h => ?_
    -- the overruling leader is of an earlier term, this one having none
    obtain ⟨t', r', h1, h2, hr', hn⟩ := h
    have hne : t' ≠ p.term := by
      rintro rfl
      simp [hnone] at hr'
    exact ⟨t', r', h1, by omega, (Ledger.setLead_other _ hne).trans hr', hn⟩
  · have hk : k < p.log.length := (List.getElem?_eq_some_iff.mp he).1
    exact ⟨fun _ => hlt e (List.mem_of_getElem? he),
      fun (h : p.log.length ≤ k) => absurd hk (Nat.not_lt.mpr h)⟩

omit [DecidableEq ν] in
/-- A log stays valid when its term's leader has it with one more entry. -/
theorem Valid.concat {l : List ε} {e : ε} {r : Reign ν ε} (h : Valid g l)
    (hindex : Stamped.index e = l.length + 1) (hr : g.lead (Stamped.term e) = some r)
    (hlog : r.log = l ++ [e]) : Valid g (l ++ [e]) := by
  intro k x hk
  rcases Nat.lt_or_ge k l.length with hlt | hge
  · rw [List.getElem?_append_left hlt] at hk
    obtain ⟨hi, s, hs, hpre⟩ := h k x hk
    exact ⟨hi, s, hs, by rwa [List.take_append_of_le_length (by omega)]⟩
  · have hlen := (List.getElem?_eq_some_iff.mp hk).1
    rw [List.length_append, List.length_singleton] at hlen
    obtain rfl : k = l.length := by omega
    obtain rfl : e = x := by simpa using hk
    exact ⟨hindex, r, hr, hlog ▸ List.take_prefix _ _⟩

/-- A leader that appends an entry of its term extends its reign. -/
theorem propose_sound (hI : LedgerInv ids g) (hp : PeerInv ids g v p) {r : Reign ν ε} {e : ε}
    (hmode : p.mode = .leader) (hr : g.lead p.term = some r) (hterm : Stamped.term e = p.term)
    (hindex : Stamped.index e = p.log.length + 1) :
    Sound ids v p g { p with log := p.log ++ [e] }
      ((g.setLead p.term (r.push e)).setAcked v p.term (p.log.length + 1)) := by
  obtain ⟨r₀, hr₀, hid, hlog, _⟩ := hp.leader hmode
  obtain rfl : r₀ = r := Option.some.inj (hr₀.symm.trans hr)
  have hpush : (r₀.push e).log = p.log ++ [e] := by rw [← hlog]; rfl
  have hold : ∀ s, g.lead p.term = some s → s.id = v ∧ (r₀.push e).base = s.base ∧
      s.log <+: (r₀.push e).log := by
    intro s hs
    obtain rfl : r₀ = s := Option.some.inj (hr.symm.trans hs)
    exact ⟨hid, rfl, List.prefix_append _ _⟩
  have hgrows := hI.reign_grows (r := r₀.push e) hid hold
  have hlen : p.log.length + 1 = (r₀.push e).log.length := by simp [hpush]
  have hmode' : { p with log := p.log ++ [e] } =
      { p with log := (r₀.push e).log, mode := Mode.leader } := by
    rw [hpush, ← hmode]
  -- the id and the base of the reign have not moved, nor has what its electorate knows
  have hquorum := hI.quorum_mono hgrows.toLe
    (hp.voter_frozen fun h => Ledger.setAcked_other h) hr
  rw [hmode', hlen]
  refine reign_sound hI hp hid (hpush ▸ List.prefix_append _ _) (hI.pos hr) hold rfl hquorum ?_
    fun k x hk => ?_
  · -- the new entry is at the end of its own term's log
    rw [hpush]
    refine (hp.log_valid.mono hgrows.toLe).concat hindex (r := r₀.push e) ?_ hpush
    rw [hterm]
    exact Ledger.setLead_self _
  · rw [hpush] at hk
    have hb : r₀.base.length ≤ p.log.length := hlog ▸ r₀.base_le.length_le
    rcases Nat.lt_or_ge k p.log.length with hlt | hge
    · rw [List.getElem?_append_left hlt, ← hlog] at hk
      exact hI.own hr k x hk
    · rw [List.getElem?_append_right hge] at hk
      obtain rfl : x = e := by simpa using List.mem_of_getElem? hk
      exact ⟨fun (h : k < r₀.base.length) => by omega, fun _ => hterm⟩

/-- A replica that takes over the leader's log keeps every committed prefix it knew of. -/
theorem PeerInv.commit_kept (hI : LedgerInv ids g) (hp : PeerInv ids g v p)
    {r : Reign ν ε} {l : List ε} (hr : g.lead p.term = some r)
    (hkeeps : ∀ P, P <+: p.log → P <+: r.log → P <+: l) :
    p.commit ≤ l.length ∧ l.take p.commit = p.log.take p.commit := by
  have hpre : p.log.take p.commit <+: l :=
    hkeeps _ (List.take_prefix _ _) (hI.safe_in_log hp.commit_safe le_rfl hr)
  have hlen : (p.log.take p.commit).length = p.commit := List.length_take_of_le hp.commit_le
  have htake := List.prefix_iff_eq_take.mp hpre
  rw [hlen] at htake
  exact ⟨hlen ▸ hpre.length_le, htake.symm⟩

omit [DecidableEq ν] in
/-- What was acknowledged in an earlier term is common to both logs, or the leader was elected
without it. -/
theorem PeerInv.holds_kept (hp : PeerInv ids g v p) {r : Reign ν ε} {l : List ε}
    (hr : g.lead p.term = some r) (hkeeps : ∀ P, P <+: p.log → P <+: r.log → P <+: l) {t : ℕ}
    {P : List ε} (ht : t < p.term) (hack : Acked g v t P) :
    P <+: l ∨ Overruled g P t (p.term + 1) := by
  rcases hp.holds hack with h | h
  · by_cases hb : P <+: r.base
    · exact Or.inl (hkeeps P h (hb.trans r.base_le))
    · exact Or.inr ⟨p.term, r, ht, Nat.lt_succ_self _, hr, hb⟩
  · exact Or.inr h

omit [DecidableEq ν] in
/-- What was acknowledged in the current term is common to both logs: nobody can have overruled
it yet. -/
theorem PeerInv.holds_current (hp : PeerInv ids g v p) {r : Reign ν ε} {l : List ε}
    (hkeeps : ∀ P, P <+: p.log → P <+: r.log → P <+: l) {P : List ε} (hP : P <+: r.log)
    (hack : Acked g v p.term P) : P <+: l := by
  rcases hp.holds hack with h | ⟨t', _, h1, h2, _⟩
  · exact hkeeps P h hP
  · omega

theorem accept_sound (hI : LedgerInv ids g) (hp : PeerInv ids g v p) {r : Reign ν ε}
    {l : List ε} {M : ℕ} (hr : g.lead p.term = some r)
    (hM : M ≤ r.log.length) (hfrom : l <+: p.log ∨ l <+: r.log) (hcovers : r.log.take M <+: l)
    (hkeeps : ∀ P, P <+: p.log → P <+: r.log → P <+: l) :
    Sound ids v p g { p with log := l, mode := .follower }
      (g.setAcked v p.term (max (g.acked v p.term) M)) := by
  set g' := g.setAcked v p.term (max (g.acked v p.term) M) with hg'
  have hgrows : Ledger.Grows v p.term g g' := Ledger.Grows.setAcked (le_max_left _ _)
  have hle := hgrows.toLe
  have hself : g'.acked v p.term = max (g.acked v p.term) M := Ledger.setAcked_self
  have hsame : ∀ {w t}, ¬(w = v ∧ t = p.term) → g'.acked w t = g.acked w t :=
    fun h => Ledger.setAcked_other h
  have hcount : g.acked v p.term ≤ r.log.length := by
    rcases Nat.eq_zero_or_pos (g.acked v p.term) with h0 | hpos
    · omega
    · obtain ⟨s, hs, hlen⟩ := hI.acked_le hpos
      rwa [Option.some.inj (hr.symm.trans hs)]
  obtain ⟨hcle, hctake⟩ := hp.commit_kept hI hr hkeeps
  refine ⟨?_, ?_, hgrows, le_rfl⟩
  · exact
      { pos := hI.pos
        quorum := hI.quorum_mono hle (hp.voter_frozen hsame)
        valid := fun hs => (hI.valid hs).mono hle
        own := hI.own
        acked_le := hI.acked_le_self hle hsame ⟨r, hr, hself.le.trans (max_le hcount hM)⟩
        cand_log := fun hl => (hI.cand_log hl).imp id (And.imp (Valid.mono hle) id)
        ballot_cand := hI.ballot_cand
        ballot_knows := fun hc hl =>
          (hI.ballot_knows hc hl).mono hI hle (hp.voter_frozen hsame hc) }
  · refine
      { lead_le := hp.lead_le
        cand_le := hp.cand_le
        ballot_le := hp.ballot_le
        acked_term := hp.acked_term_self hsame
        log_valid := ?_
        log_term := fun x hx => ?_
        holds := fun {t P} hack => ?_
        candidate := fun hm => by cases hm
        leader := fun hm => by cases hm
        commit_le := hcle
        commit_safe := ?_ }
    · rcases hfrom with h | h
      · exact (hp.log_valid.anti h).mono hle
      · exact ((hI.valid hr).anti h).mono hle
    · rcases hfrom with h | h
      · exact hp.log_term x (h.subset hx)
      · obtain ⟨k, hk⟩ := List.mem_iff_getElem?.mp (h.subset hx)
        exact hI.term_le hr hk
    · by_cases hne : P = []
      · exact Or.inl (hne ▸ List.nil_prefix)
      by_cases ht : t = p.term
      · subst ht
        obtain ⟨⟨s, hs, hP⟩, hlen⟩ := hack
        obtain rfl : s = r := Option.some.inj (hs.symm.trans hr)
        rw [hself] at hlen
        rcases le_max_iff.mp hlen with h | h
        · exact Or.inl (hp.holds_current hkeeps hP ⟨⟨s, hs, hP⟩, h⟩)
        · exact Or.inl ((List.prefix_take_iff.mpr ⟨hP, h⟩).trans hcovers)
      · have hold : Acked g v t P := hack.old hI hle (hsame fun h => ht h.2) hne
        have hpos : 0 < g.acked v t := (List.length_pos_iff.mpr hne).trans_le hold.2
        exact (hp.holds_kept hr hkeeps (lt_of_le_of_ne (hp.acked_term hpos) ht) hold).imp id
          (Overruled.mono hle le_rfl)
    · show Safe ids g' p.term (l.take p.commit)
      rw [hctake]
      exact hp.commit_safe.mono hle le_rfl

/-! ### Learning and giving up -/

omit [DecidableEq ν] in
theorem learn_sound (hI : LedgerInv ids g) (hp : PeerInv ids g v p) {n : ℕ}
    (hn : n ≤ p.log.length) (hsafe : Safe ids g p.term (p.log.take n)) :
    Sound ids v p g { p with commit := n } g where
  ledger := hI
  grows := Ledger.Grows.refl v _ g
  term_le := le_rfl
  peer := { hp with commit_le := hn, commit_safe := hsafe }

omit [DecidableEq ν] in
theorem retire_sound (hI : LedgerInv ids g) (hp : PeerInv ids g v p) {n : ℕ}
    (hn : n ≤ p.commit) :
    Sound ids v p g { p with mode := .follower, commit := n } g where
  ledger := hI
  grows := Ledger.Grows.refl v _ g
  term_le := le_rfl
  peer :=
    { hp with
      candidate := fun hm => by cases hm
      leader := fun hm => by cases hm
      commit_le := hn.trans hp.commit_le
      commit_safe := hp.commit_safe.anti (List.take_prefix_take_left hn) }

/-- **A step of a replica is sound**: the ledger and the replica keep their promises, and the
ledger grows only where the replica may write. -/
theorem Act.sound {p' : Peer ν ε} {g' : Ledger ν ε} (h : Act ids v (p, g) (p', g'))
    (hI : LedgerInv ids g) (hp : PeerInv ids g v p) : Sound ids v p g p' g' := by
  cases h with
  | advance _ _ t ht => exact advance_sound hI hp ht
  | campaign => exact campaign_sound hI hp
  | grant _ _ c l hfree hcand hup => exact grant_sound hI hp hfree hcand hup
  | win _ _ Q hmode hQ hballot => exact win_sound hI hp hmode hQ hballot
  | propose _ _ r e hmode hr hterm hindex => exact propose_sound hI hp hmode hr hterm hindex
  | accept _ _ r l M hr hM hfrom hcovers hkeeps =>
    exact accept_sound hI hp hr hM hfrom hcovers hkeeps
  | learn _ _ n hn hsafe => exact learn_sound hI hp hn hsafe
  | retire _ _ n hn => exact retire_sound hI hp hn

end Steps

/-! ## Runs of steps -/

/-- Any number of steps of replica `v`. -/
abbrev Acts (ids : Finset ν) (v : ν) :
    Peer ν ε × Ledger ν ε → Peer ν ε × Ledger ν ε → Prop :=
  Relation.ReflTransGen (Act ids v)

/-- **Runs are sound**: what `Act.sound` says of one step holds of any number of them. -/
theorem Acts.sound {ids : Finset ν} {v : ν} {a b : Peer ν ε × Ledger ν ε} (h : Acts ids v a b)
    (hI : LedgerInv ids a.2) (hp : PeerInv ids a.2 v a.1) :
    Sound ids v a.1 a.2 b.1 b.2 := by
  induction h with
  | refl => exact ⟨hI, hp, Ledger.Grows.refl v _ _, le_rfl⟩
  | tail _ hstep ih =>
    have hs := Act.sound hstep ih.ledger ih.peer
    exact ⟨hs.ledger, hs.peer, ih.grows.trans hs.grows ih.term_le, ih.term_le.trans hs.term_le⟩

/-! ## The empty ledger -/

omit [DecidableEq ν] in
theorem ledgerInv_empty (ids : Finset ν) : LedgerInv ids (Ledger.empty : Ledger ν ε) where
  pos h := by cases h
  quorum h := by cases h
  valid h := by cases h
  own h := by cases h
  acked_le h := absurd h (Nat.lt_irrefl 0)
  cand_log h := by cases h
  ballot_cand h := by cases h
  ballot_knows h := by cases h

omit [DecidableEq ν] in
/-- A replica that starts with nothing. -/
theorem peerInv_empty (ids : Finset ν) (v : ν) :
    PeerInv ids (Ledger.empty : Ledger ν ε) v ⟨0, none, [], .follower, 0⟩ where
  lead_le h := by cases h
  cand_le h := by cases h
  ballot_le h := by cases h
  acked_term h := absurd h (Nat.lt_irrefl 0)
  log_valid := valid_nil _
  log_term e he := by simp at he
  holds h := by
    obtain ⟨⟨r, hr, _⟩, _⟩ := h
    cases hr
  candidate h := by cases h
  leader h := by cases h
  commit_le := le_rfl
  commit_safe := Or.inl rfl

end Consensus
