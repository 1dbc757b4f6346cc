import Mathlib

/-!
# The ledger of a leader-based replicated log

A general account of why such a log is safe, over any type of replica ids and any type of entries
stamped with a term and an index. It knows neither messages nor storage.

The shared state is a `Ledger`: who reigned in each term, with which log it was elected and which
log it has now; with which log a replica stood for a term; the one ballot of a replica in a term;
and how much of a term's log a replica has acknowledged. A replica is a `Peer`. `LedgerInv` and
`PeerInv` say what a ledger and a peer promise.

`LedgerInv.complete`: a prefix that a majority acknowledged in its own term is a prefix of the log
of every later leader. The argument is an induction on the later term: its electorate meets the
acknowledging majority in a replica whose ballot went to a log that held the prefix, unless a
leader in between was already elected without it.
-/

namespace Consensus

/-- Entries carry the term they were created in and the index they were created at. -/
class Stamped (ε : Type*) where
  term : ε → ℕ
  index : ε → ℕ

/-! ## Majorities -/

section Majority

variable {ν : Type*} [DecidableEq ν]

/-- `Q` is more than half of `ids`. -/
def IsMajority (ids Q : Finset ν) : Prop := Q ⊆ ids ∧ ids.card < 2 * Q.card

/-- Two majorities meet. -/
theorem IsMajority.meet {ids Q R : Finset ν} (hQ : IsMajority ids Q) (hR : IsMajority ids R) :
    ∃ v, v ∈ Q ∧ v ∈ R := by
  by_contra h
  have hd : Disjoint Q R := by
    rw [Finset.disjoint_left]
    intro v hv hv'
    exact h ⟨v, hv, hv'⟩
  have hcard := Finset.card_union_of_disjoint hd
  have hle := Finset.card_le_card (Finset.union_subset hQ.1 hR.1)
  have h1 := hQ.2
  have h2 := hR.2
  omega

end Majority

/-! ## Definitions -/

variable {ν ε : Type} [Stamped ε]

/-- The term of the last entry, 0 for the empty log. -/
def lastTerm (l : List ε) : ℕ := (l.getLast?.map Stamped.term).getD 0

/-- The log ends in an entry of term `t`. -/
def EndsIn (l : List ε) (t : ℕ) : Prop := ∃ e, l.getLast? = some e ∧ Stamped.term e = t

inductive Mode
  | follower
  | candidate
  | leader
  deriving DecidableEq

/-- What safety depends on in a replica. -/
structure Peer (ν ε : Type) where
  term : ℕ
  vote : Option ν
  log : List ε
  mode : Mode
  commit : ℕ

/-- The leader of a term, the log it was elected with and the log it has grown to. -/
structure Reign (ν ε : Type) where
  id : ν
  base : List ε
  log : List ε
  base_le : base <+: log

structure Ledger (ν ε : Type) where
  lead : ℕ → Option (Reign ν ε)
  cand : ν → ℕ → Option (List ε)
  ballot : ν → ℕ → Option ν
  acked : ν → ℕ → ℕ

def Ledger.empty : Ledger ν ε where
  lead _ := none
  cand _ _ := none
  ballot _ _ := none
  acked _ _ := 0

/-- Every prefix of `l` that ends in a term is a prefix of that term's log. -/
def Valid (g : Ledger ν ε) (l : List ε) : Prop :=
  ∀ k e, l[k]? = some e → Stamped.index e = k + 1 ∧
    ∃ r, g.lead (Stamped.term e) = some r ∧ l.take (k + 1) <+: r.log

/-- `v` has acknowledged the prefix `P` of the log of term `t`. -/
def Acked (g : Ledger ν ε) (v : ν) (t : ℕ) (P : List ε) : Prop :=
  (∃ r, g.lead t = some r ∧ P <+: r.log) ∧ P.length ≤ g.acked v t

/-- A leader after term `t` and before term `b` was elected without `P`. -/
def Overruled (g : Ledger ν ε) (P : List ε) (t b : ℕ) : Prop :=
  ∃ t' r, t < t' ∧ t' < b ∧ g.lead t' = some r ∧ ¬ P <+: r.base

/-- The log `l`, standing for term `u`, has what `v` acknowledged before `u`, save what a leader
before term `b` overruled. -/
def Knows (g : Ledger ν ε) (v : ν) (u b : ℕ) (l : List ε) : Prop :=
  ∀ t P, t < u → Acked g v t P → EndsIn P t → P <+: l ∨ Overruled g P t b

/-- A majority acknowledged the prefix `P`, which ends in term `t`, in term `t`. -/
def Committed (ids : Finset ν) (g : Ledger ν ε) (t : ℕ) (P : List ε) : Prop :=
  (∃ r, g.lead t = some r ∧ P <+: r.log) ∧ EndsIn P t ∧
    ∃ Q, IsMajority ids Q ∧ ∀ q ∈ Q, P.length ≤ g.acked q t

/-- `P` is part of a prefix committed in term `t` or before. -/
def Safe (ids : Finset ν) (g : Ledger ν ε) (t : ℕ) (P : List ε) : Prop :=
  P = [] ∨ ∃ t' P', t' ≤ t ∧ Committed ids g t' P' ∧ P <+: P'

/-- The comparison a voter makes: the last terms first, then the lengths. -/
def UpToDate (l lv : List ε) : Prop :=
  lastTerm lv < lastTerm l ∨ (lastTerm l = lastTerm lv ∧ lv.length ≤ l.length)

/-! ## What a ledger promises -/

structure LedgerInv (ids : Finset ν) (g : Ledger ν ε) : Prop where
  pos : ∀ {t r}, g.lead t = some r → 0 < t
  quorum : ∀ {t r}, g.lead t = some r →
    ∃ Q, IsMajority ids Q ∧ ∀ q ∈ Q, g.ballot q t = some r.id ∧ Knows g q t t r.base
  valid : ∀ {t r}, g.lead t = some r → Valid g r.log
  own : ∀ {t r}, g.lead t = some r → ∀ k e, r.log[k]? = some e →
    (k < r.base.length → Stamped.term e < t) ∧ (r.base.length ≤ k → Stamped.term e = t)
  acked_le : ∀ {v t}, 0 < g.acked v t → ∃ r, g.lead t = some r ∧ g.acked v t ≤ r.log.length
  cand_log : ∀ {v t l}, g.cand v t = some l →
    0 < t ∧ Valid g l ∧ ∀ e ∈ l, Stamped.term e < t
  ballot_cand : ∀ {v t c}, g.ballot v t = some c → ∃ l, g.cand c t = some l
  ballot_knows : ∀ {v t c l}, g.ballot v t = some c → g.cand c t = some l →
    Knows g v t (t + 1) l

structure PeerInv (ids : Finset ν) (g : Ledger ν ε) (v : ν) (p : Peer ν ε) : Prop where
  lead_le : ∀ {t r}, g.lead t = some r → r.id = v → t ≤ p.term
  cand_le : ∀ {t l}, g.cand v t = some l → t ≤ p.term
  ballot_le : ∀ {t c}, g.ballot v t = some c → t ≤ p.term ∧ (t = p.term → p.vote = some c)
  acked_term : ∀ {t}, 0 < g.acked v t → t ≤ p.term
  log_valid : Valid g p.log
  log_term : ∀ e ∈ p.log, Stamped.term e ≤ p.term
  holds : ∀ {t P}, Acked g v t P → P <+: p.log ∨ Overruled g P t (p.term + 1)
  candidate : p.mode = .candidate → g.cand v p.term = some p.log ∧
    g.ballot v p.term = some v ∧ ∀ r, g.lead p.term = some r → r.id ≠ v
  leader : p.mode = .leader → ∃ r, g.lead p.term = some r ∧ r.id = v ∧ r.log = p.log ∧
    g.acked v p.term = p.log.length
  commit_le : p.commit ≤ p.log.length
  commit_safe : Safe ids g p.term (p.log.take p.commit)

/-! ## Ends of logs -/

theorem EndsIn.ne_nil {l : List ε} {t : ℕ} (h : EndsIn l t) : l ≠ [] := by
  rintro rfl
  obtain ⟨e, he, _⟩ := h
  simp at he

/-- A nonempty log ends in its last term, at its last position. -/
theorem endsIn_lastTerm {l : List ε} (h : l ≠ []) :
    ∃ e, l[l.length - 1]? = some e ∧ Stamped.term e = lastTerm l := by
  obtain ⟨e, he⟩ := Option.ne_none_iff_exists'.mp (fun hn => h (List.getLast?_eq_none_iff.mp hn))
  exact ⟨e, by rwa [← List.getLast?_eq_getElem?], by simp [lastTerm, he]⟩

/-! ## Validity -/

theorem valid_nil (g : Ledger ν ε) : Valid g [] := by
  intro k e h; simp at h

theorem Valid.anti {g : Ledger ν ε} {l l' : List ε} (h : Valid g l) (hp : l' <+: l) :
    Valid g l' := by
  intro k e hk
  have hlt : k < l'.length := (List.getElem?_eq_some_iff.mp hk).1
  have htake : l'.take (k + 1) <+: l := (List.take_prefix _ _).trans hp
  obtain ⟨s, rfl⟩ := hp
  obtain ⟨hi, r, hr, hpre⟩ := h k e (by rwa [List.getElem?_append_left hlt])
  refine ⟨hi, r, hr, ?_⟩
  rwa [List.take_append_of_le_length (by omega)] at hpre

/-- **Log matching.** Two valid logs with entries of one term at position `k` agree up to `k`. -/
theorem Valid.matching {g : Ledger ν ε} {l l' : List ε} (h : Valid g l) (h' : Valid g l') {k : ℕ}
    {e e' : ε} (he : l[k]? = some e) (he' : l'[k]? = some e')
    (ht : Stamped.term e = Stamped.term e') : l.take (k + 1) = l'.take (k + 1) := by
  obtain ⟨_, r, hr, hp⟩ := h k e he
  obtain ⟨_, r', hr', hp'⟩ := h' k e' he'
  have hrr : r' = r := by rw [ht, hr'] at hr; exact Option.some.inj hr
  subst hrr
  have hk := (List.getElem?_eq_some_iff.mp he).1
  have hk' := (List.getElem?_eq_some_iff.mp he').1
  have hlen : (l.take (k + 1)).length = (l'.take (k + 1)).length := by
    rw [List.length_take, List.length_take]; omega
  exact (List.prefix_of_prefix_length_le hp hp' (Nat.le_of_eq hlen)).eq_of_length hlen

/-- The whole of a nonempty valid log is a prefix of the log of its last term. -/
theorem Valid.whole {g : Ledger ν ε} {l : List ε} (h : Valid g l) (hne : l ≠ []) :
    ∃ r, g.lead (lastTerm l) = some r ∧ l <+: r.log := by
  obtain ⟨e, he, ht⟩ := endsIn_lastTerm hne
  obtain ⟨_, r, hr, hp⟩ := h _ e he
  have hlen : 0 < l.length := List.length_pos_iff.mpr hne
  refine ⟨r, by rw [← ht]; exact hr, ?_⟩
  rwa [Nat.sub_add_cancel hlen, List.take_length] at hp

/-! ## Growing ledgers -/

/-- `g'` has everything `g` has. -/
structure Ledger.Le (g g' : Ledger ν ε) : Prop where
  lead : ∀ {t r}, g.lead t = some r →
    ∃ r', g'.lead t = some r' ∧ r'.id = r.id ∧ r'.base = r.base ∧ r.log <+: r'.log
  cand : ∀ {v t l}, g.cand v t = some l → g'.cand v t = some l
  ballot : ∀ {v t c}, g.ballot v t = some c → g'.ballot v t = some c
  acked : ∀ v t, g.acked v t ≤ g'.acked v t

/-- `g'` is `g` with additions that only replica `v`, in term `τ`, can make. -/
structure Ledger.Grows (v : ν) (τ : ℕ) (g g' : Ledger ν ε) : Prop extends g.Le g' where
  lead_other : ∀ {t r}, g.lead t = some r → r.id ≠ v → g'.lead t = some r
  lead_new : ∀ {t r}, g.lead t = none → g'.lead t = some r → r.id = v
  cand_other : ∀ {w} t, w ≠ v → g'.cand w t = g.cand w t
  ballot_other : ∀ {w} t, w ≠ v → g'.ballot w t = g.ballot w t
  acked_other : ∀ {w} t, w ≠ v → g'.acked w t = g.acked w t
  acked_before : ∀ {t}, t < τ → g'.acked v t = g.acked v t

omit [Stamped ε] in
theorem Ledger.Le.refl (g : Ledger ν ε) : g.Le g :=
  ⟨fun h => ⟨_, h, rfl, rfl, List.prefix_rfl⟩, id, id, fun _ _ => le_rfl⟩

omit [Stamped ε] in
theorem Ledger.Le.trans {g₁ g₂ g₃ : Ledger ν ε} (h : g₁.Le g₂) (h' : g₂.Le g₃) : g₁.Le g₃ where
  lead hr := by
    obtain ⟨r', hr', hid, hb, hp⟩ := h.lead hr
    obtain ⟨r'', hr'', hid', hb', hp'⟩ := h'.lead hr'
    exact ⟨r'', hr'', hid'.trans hid, hb'.trans hb, hp.trans hp'⟩
  cand hl := h'.cand (h.cand hl)
  ballot hc := h'.ballot (h.ballot hc)
  acked v t := (h.acked v t).trans (h'.acked v t)

omit [Stamped ε] in
theorem Ledger.Grows.refl (v : ν) (τ : ℕ) (g : Ledger ν ε) : Ledger.Grows v τ g g where
  toLe := Ledger.Le.refl g
  lead_other h _ := h
  lead_new h h' := by rw [h] at h'; exact absurd h' (by simp)
  cand_other _ _ := rfl
  ballot_other _ _ := rfl
  acked_other _ _ := rfl
  acked_before _ := rfl

omit [Stamped ε] in
theorem Ledger.Grows.trans {v : ν} {τ τ' : ℕ} {g₁ g₂ g₃ : Ledger ν ε}
    (h : Ledger.Grows v τ g₁ g₂) (h' : Ledger.Grows v τ' g₂ g₃) (hτ : τ ≤ τ') :
    Ledger.Grows v τ g₁ g₃ where
  toLe := h.toLe.trans h'.toLe
  lead_other hr hne := h'.lead_other (h.lead_other hr hne) hne
  lead_new {t r} hn hr := by
    cases h2 : g₂.lead t with
    | none => exact h'.lead_new h2 hr
    | some r₂ =>
      obtain ⟨r', hr', hid, _⟩ := h'.lead h2
      rw [hr] at hr'
      rw [Option.some.inj hr', hid]
      exact h.lead_new hn h2
  cand_other t hw := (h'.cand_other t hw).trans (h.cand_other t hw)
  ballot_other t hw := (h'.ballot_other t hw).trans (h.ballot_other t hw)
  acked_other t hw := (h'.acked_other t hw).trans (h.acked_other t hw)
  acked_before ht := (h'.acked_before (ht.trans_le hτ)).trans (h.acked_before ht)

section Mono

variable {g g' : Ledger ν ε} {ids : Finset ν}

theorem Valid.mono (hle : g.Le g') {l : List ε} (h : Valid g l) : Valid g' l := by
  intro k e hk
  obtain ⟨hi, r, hr, hp⟩ := h k e hk
  obtain ⟨r', hr', _, _, hlog⟩ := hle.lead hr
  exact ⟨hi, r', hr', hp.trans hlog⟩

omit [Stamped ε] in
theorem Overruled.mono (hle : g.Le g') {P : List ε} {t b b' : ℕ} (hb : b ≤ b')
    (h : Overruled g P t b) : Overruled g' P t b' := by
  obtain ⟨t', r, h1, h2, hr, hn⟩ := h
  obtain ⟨r', hr', _, hbase, _⟩ := hle.lead hr
  exact ⟨t', r', h1, h2.trans_le hb, hr', by rwa [hbase]⟩

theorem Committed.mono (hle : g.Le g') {t : ℕ} {P : List ε} (h : Committed ids g t P) :
    Committed ids g' t P := by
  obtain ⟨⟨r, hr, hp⟩, he, Q, hQ, hq⟩ := h
  obtain ⟨r', hr', _, _, hlog⟩ := hle.lead hr
  exact ⟨⟨r', hr', hp.trans hlog⟩, he, Q, hQ, fun q h => (hq q h).trans (hle.acked q t)⟩

theorem Safe.mono (hle : g.Le g') {t u : ℕ} (ht : t ≤ u) {P : List ε} (h : Safe ids g t P) :
    Safe ids g' u P := by
  rcases h with h | ⟨t', P', ht', hc, hp⟩
  · exact Or.inl h
  · exact Or.inr ⟨t', P', ht'.trans ht, hc.mono hle, hp⟩

theorem Safe.anti {t : ℕ} {P R : List ε} (h : Safe ids g t R) (hp : P <+: R) :
    Safe ids g t P := by
  rcases h with rfl | ⟨t', P', ht', hc, hp'⟩
  · exact Or.inl (List.prefix_nil.mp hp)
  · exact Or.inr ⟨t', P', ht', hc, hp.trans hp'⟩

/-- An acknowledged prefix was already acknowledged where the count has not moved. -/
theorem Acked.old (hI : LedgerInv ids g) (hle : g.Le g') {v : ν} {t : ℕ} {P : List ε}
    (hsame : g'.acked v t = g.acked v t) (hne : P ≠ []) (h : Acked g' v t P) : Acked g v t P := by
  obtain ⟨⟨r', hr', hp⟩, hlen⟩ := h
  rw [hsame] at hlen
  have hpos : 0 < g.acked v t := (List.length_pos_iff.mpr hne).trans_le hlen
  obtain ⟨r, hr, hacked⟩ := hI.acked_le hpos
  obtain ⟨r'', hr'', _, _, hlog⟩ := hle.lead hr
  have hrr : r'' = r' := by rw [hr'] at hr''; exact (Option.some.inj hr'').symm
  subst hrr
  exact ⟨⟨r, hr, List.prefix_of_prefix_length_le hp hlog (hlen.trans hacked)⟩, hlen⟩

theorem Knows.mono (hI : LedgerInv ids g) (hle : g.Le g') {v : ν} {u b : ℕ} {l : List ε}
    (hsame : ∀ t, t < u → g'.acked v t = g.acked v t) (h : Knows g v u b l) :
    Knows g' v u b l := by
  intro t P ht hack hend
  rcases h t P ht (hack.old hI hle (hsame t ht) hend.ne_nil) hend with hp | ho
  · exact Or.inl hp
  · exact Or.inr (ho.mono hle le_rfl)

end Mono

/-! ## Consequences -/

section Consequences

variable {ids : Finset ν} {g : Ledger ν ε}

/-- The entries of a term's log are of that term or before. -/
theorem LedgerInv.term_le (hI : LedgerInv ids g) {t : ℕ} {r : Reign ν ε} (hr : g.lead t = some r)
    {k : ℕ} {e : ε} (he : r.log[k]? = some e) : Stamped.term e ≤ t := by
  obtain ⟨h1, h2⟩ := hI.own hr k e he
  rcases Nat.lt_or_ge k r.base.length with h | h
  · exact (h1 h).le
  · exact (h2 h).le

/-- **Leader completeness.** A committed prefix is in the log every later leader started with. -/
theorem LedgerInv.complete [DecidableEq ν] (hI : LedgerInv ids g) {t : ℕ} {P : List ε}
    (hc : Committed ids g t P) :
    ∀ u r, t < u → g.lead u = some r → P <+: r.base := by
  obtain ⟨hlead, hend, Q, hQ, hacked⟩ := hc
  intro u
  induction u using Nat.strong_induction_on with
  | _ u ih =>
    intro r htu hr
    obtain ⟨R, hR, hknows⟩ := hI.quorum hr
    obtain ⟨v, hvQ, hvR⟩ := hQ.meet hR
    -- the common voter knew the prefix, or a leader in between was elected without it
    rcases (hknows v hvR).2 t P htu ⟨hlead, hacked v hvQ⟩ hend with hp | ⟨t', r', h1, h2, hr', hn⟩
    · exact hp
    · exact absurd (ih t' h2 r' h1 hr') hn

/-- A prefix committed in term `t` is in the log of every term from `t` on. -/
theorem LedgerInv.committed_in_log [DecidableEq ν] (hI : LedgerInv ids g) {t u : ℕ} {P : List ε}
    (hc : Committed ids g t P) (htu : t ≤ u) {r : Reign ν ε} (hr : g.lead u = some r) :
    P <+: r.log := by
  rcases Nat.lt_or_eq_of_le htu with hlt | rfl
  · exact (hI.complete hc u r hlt hr).trans r.base_le
  · obtain ⟨⟨r', hr', hp⟩, _⟩ := hc
    rw [hr] at hr'
    rwa [Option.some.inj hr']

theorem LedgerInv.safe_in_log [DecidableEq ν] (hI : LedgerInv ids g) {t u : ℕ} {P : List ε}
    (hs : Safe ids g t P) (htu : t ≤ u) {r : Reign ν ε} (hr : g.lead u = some r) :
    P <+: r.log := by
  rcases hs with rfl | ⟨t', P', ht', hc, hp⟩
  · exact List.nil_prefix
  · exact hp.trans (hI.committed_in_log hc (ht'.trans htu) hr)

/-- Two safe prefixes never disagree: one extends the other. -/
theorem LedgerInv.safe_comparable [DecidableEq ν] (hI : LedgerInv ids g) {t u : ℕ} {P R : List ε}
    (hP : Safe ids g t P) (hR : Safe ids g u R) : P <+: R ∨ R <+: P := by
  rcases hP with rfl | ⟨t', P', ht', hc, hp⟩
  · exact Or.inl List.nil_prefix
  rcases hR with rfl | ⟨u', R', hu', hd, hr⟩
  · exact Or.inr List.nil_prefix
  rcases le_total t' u' with h | h
  · obtain ⟨⟨r, hlead, hR'⟩, _⟩ := hd
    exact List.prefix_or_prefix_of_prefix (hp.trans (hI.committed_in_log hc h hlead))
      (hr.trans hR')
  · obtain ⟨⟨r, hlead, hP'⟩, _⟩ := hc
    exact List.prefix_or_prefix_of_prefix (hp.trans hP')
      (hr.trans (hI.committed_in_log hd h hlead))

/-- A leader whose entry at `n` is its own and acknowledged by a majority has committed up to
`n`. -/
theorem committed_of_quorum {t n : ℕ} {r : Reign ν ε} (hr : g.lead t = some r)
    (hn : n ≤ r.log.length) (hend : EndsIn (r.log.take n) t) {Q : Finset ν}
    (hQ : IsMajority ids Q) (hacked : ∀ q ∈ Q, n ≤ g.acked q t) :
    Committed ids g t (r.log.take n) :=
  ⟨⟨r, hr, List.take_prefix _ _⟩, hend, Q, hQ, fun q hq => by
    rw [List.length_take_of_le hn]; exact hacked q hq⟩

/-- The last term of a valid log bounds the terms of all its prefixes. -/
theorem Valid.lastTerm_ge (hI : LedgerInv ids g) {l P : List ε} {t : ℕ} (hl : Valid g l)
    (hP : P <+: l) (hend : EndsIn P t) : t ≤ lastTerm l := by
  have hne : l ≠ [] := fun h => hend.ne_nil (List.prefix_nil.mp (h ▸ hP))
  obtain ⟨r, hr, hpre⟩ := hl.whole hne
  obtain ⟨e, he, rfl⟩ := hend
  rw [List.getLast?_eq_getElem?] at he
  obtain ⟨s, hs⟩ := hP.trans hpre
  have hlt := (List.getElem?_eq_some_iff.mp he).1
  refine hI.term_le hr (k := P.length - 1) ?_
  rw [← hs, List.getElem?_append_left hlt]
  exact he

/-- A log that ends in term `t` reaches past the log its leader was elected with. -/
theorem Valid.base_le (hI : LedgerInv ids g) {l : List ε} (hne : l ≠ []) {r : Reign ν ε}
    (hr : g.lead (lastTerm l) = some r) (hp : l <+: r.log) : r.base <+: l := by
  obtain ⟨e, he, ht⟩ := endsIn_lastTerm hne
  have hpos : 0 < l.length := List.length_pos_iff.mpr hne
  refine List.prefix_of_prefix_length_le r.base_le hp ?_
  by_contra hlt
  obtain ⟨s, hs⟩ := hp
  have hlog : r.log[l.length - 1]? = some e := by
    rw [← hs, List.getElem?_append_left (by omega)]; exact he
  have := (hI.own hr _ e hlog).1 (by omega)
  omega

/-- **The vote check is sound.** A log that stands for term `u` and is at least as up to date as
the voter's has everything the voter acknowledged, save what was overruled by then. -/
theorem knows_of_upToDate (hI : LedgerInv ids g) {v : ν} {u : ℕ} {l lv : List ε}
    (hl : Valid g l) (hlt : ∀ e ∈ l, Stamped.term e < u) (hlv : Valid g lv)
    (holds : ∀ t P, Acked g v t P → P <+: lv ∨ Overruled g P t (u + 1))
    (hup : UpToDate l lv) : Knows g v u (u + 1) l := by
  intro t P htu hack hend
  rcases holds t P hack with hp | ho
  · -- the voter still holds `P`
    have hPv : t ≤ lastTerm lv := hlv.lastTerm_ge hI hp hend
    obtain ⟨⟨r, hr, hPr⟩, _⟩ := hack
    have htpos : 0 < t := hI.pos hr
    have htl : t ≤ lastTerm l := by rcases hup with h | h <;> omega
    have hne : l ≠ [] := by
      rintro rfl
      simp [lastTerm] at htl
      omega
    obtain ⟨s, hs, hls⟩ := hl.whole hne
    obtain ⟨e, he, hte⟩ := endsIn_lastTerm hne
    have hlast : lastTerm l < u := hte ▸ hlt e (List.mem_of_getElem? he)
    rcases Nat.lt_or_eq_of_le htl with hgt | heq
    · -- a later term: its leader has `P`, or has overruled it
      by_cases hb : P <+: s.base
      · exact Or.inl (hb.trans (Valid.base_le hI hne hs hls))
      · exact Or.inr ⟨lastTerm l, s, hgt, by omega, hs, hb⟩
    · -- the same term: both logs are cut from one, and the standing one is no shorter
      have hsr : s = r := by rw [← heq, hr] at hs; exact (Option.some.inj hs).symm
      subst hsr
      have hlen : lv.length ≤ l.length := by
        rcases hup with h | h
        · omega
        · exact h.2
      exact Or.inl (List.prefix_of_prefix_length_le hPr hls (hp.length_le.trans hlen))
  · exact Or.inr ho

end Consequences

end Consensus
