import Mathlib

/-!
# Maps whose writes are numbered

A machine over a map from keys to values, with a counter. A call that commits writes one key, moves
the counter up by one, and is labelled with the new count. All other calls change nothing. Labels
tell counts apart, and the counter stays below a bound.

The content is then the history of commits: what is under a key was put there by the last commit on
it (`content_iff`), and a label belongs to one commit of the history (`label_unique`).
-/

namespace Versioned

/-- What a call that commits has done: its key, its label and what is under the key from now on. -/
structure Commit (κ ω ν : Type*) where
  key : κ
  label : ω
  value : Option ν

variable {σ α κ ω ν : Type*}

/-- The state after the first calls of a history. -/
def stateAt (step : σ → α → σ) (s : σ) (calls : List α) (i : ℕ) : σ :=
  (calls.take i).foldl step s

/-- What a call of the history has committed. -/
def commitAt (step : σ → α → σ) (commit : σ → α → Option (Commit κ ω ν)) (s : σ) (calls : List α)
    (i : ℕ) : Option (Commit κ ω ν) :=
  calls[i]?.bind (commit (stateAt step s calls i))

/-- The laws of such a machine. -/
structure Lawful [DecidableEq κ] (step : σ → α → σ) (commit : σ → α → Option (Commit κ ω ν))
    (content : σ → κ → Option ν) (count : σ → ℕ) (label : ℕ → ω) (bound : ℕ) : Prop where
  label_injective : Function.Injective label
  idle : ∀ {s a}, commit s a = none → step s a = s
  count_le : ∀ s a, count s ≤ count (step s a)
  label_eq : ∀ {s a c}, commit s a = some c → count s < bound → c.label = label (count s + 1)
  count_eq : ∀ {s a c}, commit s a = some c → count s < bound → count (step s a) = count s + 1
  content_eq : ∀ {s a c}, commit s a = some c →
    content (step s a) = Function.update (content s) c.key c.value

theorem stateAt_succ (step : σ → α → σ) (s : σ) {calls : List α} {i : ℕ} {a : α}
    (h : calls[i]? = some a) :
    stateAt step s calls (i + 1) = step (stateAt step s calls i) a := by
  unfold stateAt
  rw [List.take_add_one, h, Option.toList_some, List.foldl_concat]

theorem stateAt_of_length_le (step : σ → α → σ) (s : σ) {calls : List α} {i : ℕ}
    (h : calls.length ≤ i) : stateAt step s calls i = calls.foldl step s := by
  unfold stateAt
  rw [List.take_of_length_le h]

theorem commitAt_eq_some {step : σ → α → σ} {commit : σ → α → Option (Commit κ ω ν)} {s : σ}
    {calls : List α} {i : ℕ} {c : Commit κ ω ν} :
    commitAt step commit s calls i = some c ↔
      ∃ a, calls[i]? = some a ∧ commit (stateAt step s calls i) a = some c := by
  unfold commitAt
  rw [Option.bind_eq_some_iff]

/-- The commit of call `j` is on the key, and no call between it and call `i` has committed on it. -/
structure LastOn (commits : ℕ → Option (Commit κ ω ν)) (k : κ) (i j : ℕ) (c : Commit κ ω ν) :
    Prop where
  commit : commits j = some c
  key : c.key = k
  lt : j < i
  last : ∀ m, j < m → m < i → ∀ d, commits m = some d → d.key ≠ k

/-- A call that does not commit on the key leaves the last commit on it where it was. -/
theorem lastOn_succ_iff_of_ne {commits : ℕ → Option (Commit κ ω ν)} {k : κ} {i j : ℕ}
    {c : Commit κ ω ν} (hi : ∀ d, commits i = some d → d.key ≠ k) :
    LastOn commits k (i + 1) j c ↔ LastOn commits k i j c := by
  constructor
  · rintro ⟨hc, hk, hlt, hlast⟩
    have hne : j ≠ i := by
      rintro rfl
      exact hi c hc hk
    exact ⟨hc, hk, by omega, fun m hjm hm => hlast m hjm (by omega)⟩
  · rintro ⟨hc, hk, hlt, hlast⟩
    refine ⟨hc, hk, by omega, fun m hjm hm d hd => ?_⟩
    rcases Nat.lt_succ_iff_lt_or_eq.mp hm with hm | rfl
    · exact hlast m hjm hm d hd
    · exact hi d hd

theorem lastOn_succ_iff_of_commit {commits : ℕ → Option (Commit κ ω ν)} {k : κ} {i j : ℕ}
    {c d : Commit κ ω ν} (hd : commits i = some d) (hk : d.key = k) :
    LastOn commits k (i + 1) j c ↔ j = i ∧ c = d := by
  constructor
  · rintro ⟨hc, -, hlt, hlast⟩
    rcases Nat.lt_succ_iff_lt_or_eq.mp hlt with hlt | rfl
    · exact absurd hk (hlast i hlt (by omega) d hd)
    · rw [hd] at hc
      exact ⟨rfl, (Option.some.inj hc).symm⟩
  · rintro ⟨rfl, rfl⟩
    exact ⟨hd, hk, by omega, fun m hjm hm => by omega⟩

section Lawful

variable [DecidableEq κ] {step : σ → α → σ} {commit : σ → α → Option (Commit κ ω ν)}
  {content : σ → κ → Option ν} {count : σ → ℕ} {label : ℕ → ω} {bound : ℕ}
  (h : Lawful step commit content count label bound) {s : σ} {calls : List α}

include h

theorem Lawful.stateAt_succ_of_none {i : ℕ} (hi : commitAt step commit s calls i = none) :
    stateAt step s calls (i + 1) = stateAt step s calls i := by
  cases ha : calls[i]? with
  | none =>
    have hlen := List.getElem?_eq_none_iff.mp ha
    rw [stateAt_of_length_le step s hlen, stateAt_of_length_le step s (by omega)]
  | some a =>
    rw [stateAt_succ step s ha]
    refine h.idle ?_
    simpa [commitAt, ha] using hi

theorem Lawful.content_succ {i : ℕ} {c : Commit κ ω ν}
    (hi : commitAt step commit s calls i = some c) :
    content (stateAt step s calls (i + 1)) =
      Function.update (content (stateAt step s calls i)) c.key c.value := by
  obtain ⟨a, ha, hc⟩ := commitAt_eq_some.mp hi
  rw [stateAt_succ step s ha, h.content_eq hc]

theorem Lawful.count_mono {i j : ℕ} (hij : i ≤ j) :
    count (stateAt step s calls i) ≤ count (stateAt step s calls j) := by
  induction j, hij using Nat.le_induction with
  | base => exact le_rfl
  | succ j _ ih =>
    cases ha : calls[j]? with
    | none =>
      have hlen := List.getElem?_eq_none_iff.mp ha
      rw [stateAt_of_length_le step s (by omega : calls.length ≤ j + 1)]
      rwa [stateAt_of_length_le step s hlen] at ih
    | some a =>
      rw [stateAt_succ step s ha]
      exact ih.trans (h.count_le _ a)

theorem Lawful.count_lt (hb : count (calls.foldl step s) < bound) (i : ℕ) :
    count (stateAt step s calls i) < bound := by
  refine lt_of_le_of_lt ?_ hb
  rw [← stateAt_of_length_le step s (le_max_right i calls.length)]
  exact h.count_mono (le_max_left _ _)

/-- A commit moves the counter, and its label is the new count. -/
theorem Lawful.commitAt_count (hb : count (calls.foldl step s) < bound) {i : ℕ}
    {c : Commit κ ω ν} (hc : commitAt step commit s calls i = some c) :
    c.label = label (count (stateAt step s calls (i + 1))) ∧
      count (stateAt step s calls (i + 1)) = count (stateAt step s calls i) + 1 := by
  obtain ⟨a, ha, hc⟩ := commitAt_eq_some.mp hc
  have hlt := h.count_lt hb i
  have hcount := h.count_eq hc hlt
  rw [stateAt_succ step s ha, hcount]
  exact ⟨h.label_eq hc hlt, rfl⟩

/-- **A label belongs to one commit.** -/
theorem Lawful.label_unique (hb : count (calls.foldl step s) < bound) {i j : ℕ}
    {c d : Commit κ ω ν} (hc : commitAt step commit s calls i = some c)
    (hd : commitAt step commit s calls j = some d) (heq : c.label = d.label) : i = j := by
  obtain ⟨hcl, hcn⟩ := h.commitAt_count hb hc
  obtain ⟨hdl, hdn⟩ := h.commitAt_count hb hd
  rw [hcl, hdl] at heq
  have hcount := h.label_injective heq
  rcases Nat.lt_trichotomy i j with hlt | rfl | hgt
  · have hmono : count (stateAt step s calls (i + 1)) ≤ _ := h.count_mono (Nat.succ_le_of_lt hlt)
    omega
  · rfl
  · have hmono : count (stateAt step s calls (j + 1)) ≤ _ := h.count_mono (Nat.succ_le_of_lt hgt)
    omega

/-- **The content is the history.** What is under a key is what the last commit on it has left. -/
theorem Lawful.content_iff (h0 : ∀ k, content s k = none) {k : κ} {v : ν} {i : ℕ} :
    content (stateAt step s calls i) k = some v ↔
      ∃ j c, LastOn (commitAt step commit s calls) k i j c ∧ c.value = some v := by
  induction i with
  | zero =>
    have hnone : content (stateAt step s calls 0) k = none := by
      simpa [stateAt] using h0 k
    constructor
    · intro hv
      rw [hnone] at hv
      cases hv
    · rintro ⟨j, c, hlast, -⟩
      exact absurd hlast.lt (by omega)
  | succ i ih =>
    cases hi : commitAt step commit s calls i with
    | none =>
      have hne : ∀ d, commitAt step commit s calls i = some d → d.key ≠ k := by simp [hi]
      simp only [h.stateAt_succ_of_none hi, ih, lastOn_succ_iff_of_ne hne]
    | some c =>
      rw [h.content_succ hi, Function.update_apply]
      by_cases hk : k = c.key
      · rw [if_pos hk]
        simp [lastOn_succ_iff_of_commit hi hk.symm]
      · have hne : ∀ d, commitAt step commit s calls i = some d → d.key ≠ k := by
          intro d hd heq
          rw [hi] at hd
          obtain rfl := Option.some.inj hd
          exact hk heq.symm
        rw [if_neg hk]
        simp only [ih, lastOn_succ_iff_of_ne hne]

end Lawful

end Versioned
