import Mathlib

/-!
# The loop of the kubelet

`src/reconciler.rs`, `Reconciler::run`: one `select!` over the cancellation, the watch stream, the
resync ticks and the liveness ticks, biased in this order. The stream is opened once, before the loop.
When it ends, each poll finds `None` at once, and no arm below it is looked at again
(`starved_of_closed`).

`ticks_served_iff`: all ticks are served if and only if the watch is found idle after each that is due.
-/

namespace MyK8s.Kubelet

/-! ## Ticks -/

section Ticks

variable {due served : ℕ → ℕ} {Open Stop : ℕ → Prop}

/-- Ticks that are served one by one in turns that are open for them: all are served exactly if there
is an open turn after each turn in which one is due. -/
theorem served_iff_open (hdue : Monotone due) (hserved : Monotone served)
    (hstop : ∀ n, Stop n → Stop (n + 1))
    (hserve : ∀ n, Open n → ¬ Stop n → served n < due n → served n < served (n + 1))
    (honly : ∀ n, served n < served (n + 1) → Open n) :
    (∀ n k, k < due n → ∃ m, k < served m ∨ Stop m) ↔
      ∀ n, served n < due n → ∃ m ≥ n, Open m ∨ Stop m := by
  constructor
  · intro hall n hn
    obtain ⟨m, hm | hm⟩ := hall n (served n) hn
    · -- some turn between the two has served one
      by_contra hno
      push Not at hno
      have hconst : ∀ j, served (n + j) ≤ served n := by
        intro j
        induction j with
        | zero => exact le_rfl
        | succ j ih =>
          by_contra hlt
          exact (hno (n + j) (by omega)).1 (honly (n + j) (by rw [add_assoc]; omega))
      rcases le_total m n with hmn | hnm
      · exact absurd (hserved hmn) (by omega)
      · have h := hconst (m - n)
        rw [Nat.add_sub_cancel' hnm] at h
        omega
    · refine ⟨max m n, le_max_right m n, .inr ?_⟩
      have hstops : ∀ j, Stop (m + j) := by
        intro j
        induction j with
        | zero => exact hm
        | succ j ih => exact hstop _ ih
      have h := hstops (max m n - m)
      rwa [Nat.add_sub_cancel' (le_max_left m n)] at h
  · intro hopen n k hk
    have hcount : ∀ j ≤ due n, ∃ m ≥ n, j ≤ served m ∨ Stop m := by
      intro j
      induction j with
      | zero => exact fun _ => ⟨n, le_rfl, .inl (Nat.zero_le _)⟩
      | succ j ih =>
        intro hj
        obtain ⟨m, hmn, hm | hm⟩ := ih (by omega)
        · rcases Nat.lt_or_ge j (served m) with hlt | hge
          · exact ⟨m, hmn, .inl hlt⟩
          · have hduem := hdue hmn
            obtain ⟨m', hmm', hm' | hm'⟩ := hopen m (by omega)
            · by_cases hs : Stop m'
              · exact ⟨m', by omega, .inr hs⟩
              · rcases Nat.lt_or_ge j (served m') with hlt | hge'
                · exact ⟨m', by omega, .inl hlt⟩
                · have hduem' := hdue hmm'
                  have hge'' := hserved hmm'
                  exact ⟨m' + 1, by omega, .inl (by have := hserve m' hm' hs (by omega); omega)⟩
            · exact ⟨m', by omega, .inr hm'⟩
        · exact ⟨m, hmn, .inr hm⟩
    obtain ⟨m, -, hm⟩ := hcount (k + 1) hk
    exact ⟨m, hm⟩

end Ticks

/-! ## The loop -/

/-- What a poll of `watch_stream.next()` finds. -/
inductive WatchPoll
  | pending
  | event
  | error
  | closed
  deriving DecidableEq, Repr

/-- What the loop meets at each of its turns: whether `cancel` has fired, what the watch is found to
be, and how many ticks of the two intervals have become due since the loop started. An interval keeps
the ticks that it has missed. -/
structure Surroundings where
  cancelled : ℕ → Bool
  watch : ℕ → WatchPoll
  resync : ℕ → ℕ
  liveness : ℕ → ℕ
  cancelled_succ : ∀ n, cancelled n = true → cancelled (n + 1) = true
  closed_succ : ∀ n, watch n = .closed → watch (n + 1) = .closed
  resync_mono : Monotone resync
  liveness_mono : Monotone liveness

inductive Arm
  | cancel
  | watch
  | resync
  | liveness
  deriving DecidableEq, Repr

/-- How many ticks have been served. -/
structure LoopState where
  resync : ℕ
  liveness : ℕ
  deriving DecidableEq, Repr

/-- The arms in the order in which a biased `select!` polls them. -/
def arms : List Arm := [.cancel, .watch, .resync, .liveness]

section Loop

variable (env : Surroundings)

def ready (n : ℕ) (s : LoopState) : Arm → Bool
  | .cancel => env.cancelled n
  | .watch => env.watch n ≠ .pending
  | .resync => s.resync < env.resync n
  | .liveness => s.liveness < env.liveness n

/-- The arm that is run, if one is ready. -/
def select (n : ℕ) (s : LoopState) : Option Arm := arms.find? (ready env n s)

/-- A turn of the loop. The loop ends with the arm of the cancellation, and nothing is served then. -/
def turn (n : ℕ) (s : LoopState) : LoopState :=
  match select env n s with
  | some .resync => { s with resync := s.resync + 1 }
  | some .liveness => { s with liveness := s.liveness + 1 }
  | _ => s

def loop : ℕ → LoopState
  | 0 => ⟨0, 0⟩
  | n + 1 => turn env n (loop n)

/-- The turns at which the ticks of an interval have their chance. -/
def ResyncOpen (n : ℕ) : Prop := env.watch n = .pending

def LivenessOpen (n : ℕ) : Prop := env.watch n = .pending ∧ env.resync n ≤ (loop env n).resync

variable {env} {n : ℕ} {s : LoopState}

theorem select_resync_iff : select env n s = some .resync ↔
    env.cancelled n = false ∧ env.watch n = .pending ∧ s.resync < env.resync n := by
  unfold select arms
  cases hc : env.cancelled n with
  | true => simp [ready, hc]
  | false =>
    by_cases hw : env.watch n = .pending
    · by_cases hr : s.resync < env.resync n
      · simp [ready, hc, hw, hr]
      · by_cases hl : s.liveness < env.liveness n <;> simp [ready, hc, hw, hr, hl]
    · simp [ready, hc, hw]

theorem select_liveness_iff : select env n s = some .liveness ↔
    env.cancelled n = false ∧ env.watch n = .pending ∧ env.resync n ≤ s.resync ∧
      s.liveness < env.liveness n := by
  unfold select arms
  cases hc : env.cancelled n with
  | true => simp [ready, hc]
  | false =>
    by_cases hw : env.watch n = .pending
    · by_cases hr : s.resync < env.resync n
      · have hr' : ¬ env.resync n ≤ s.resync := by omega
        simp [ready, hc, hw, hr, hr']
      · have hr' : env.resync n ≤ s.resync := by omega
        by_cases hl : s.liveness < env.liveness n <;> simp [ready, hc, hw, hr', hl]
    · simp [ready, hc, hw]

/-- **What a turn does** to the counts. -/
theorem turn_resync : (turn env n s).resync =
    if select env n s = some .resync then s.resync + 1 else s.resync := by
  unfold turn
  cases h : select env n s with
  | none => rfl
  | some arm => cases arm <;> rfl

theorem turn_liveness : (turn env n s).liveness =
    if select env n s = some .liveness then s.liveness + 1 else s.liveness := by
  unfold turn
  cases h : select env n s with
  | none => rfl
  | some arm => cases arm <;> rfl

theorem resync_monotone : Monotone fun n => (loop env n).resync := by
  refine monotone_nat_of_le_succ fun n => ?_
  simp only [loop]
  rw [turn_resync]
  split <;> omega

theorem liveness_monotone : Monotone fun n => (loop env n).liveness := by
  refine monotone_nat_of_le_succ fun n => ?_
  simp only [loop]
  rw [turn_liveness]
  split <;> omega

theorem resync_served_iff :
    (∀ n k, k < env.resync n → ∃ m, k < (loop env m).resync ∨ env.cancelled m = true) ↔
      ∀ n, (loop env n).resync < env.resync n →
        ∃ m ≥ n, ResyncOpen env m ∨ env.cancelled m = true := by
  refine served_iff_open env.resync_mono resync_monotone env.cancelled_succ ?_ ?_
  · intro n hopen hstop hlt
    have hsel := select_resync_iff.mpr ⟨by simpa using hstop, hopen, hlt⟩
    simp only [loop]
    rw [turn_resync, if_pos hsel]
    omega
  · intro n hlt
    simp only [loop] at hlt
    rw [turn_resync] at hlt
    split at hlt
    · rename_i hsel
      exact (select_resync_iff.mp hsel).2.1
    · omega

theorem liveness_served_iff :
    (∀ n k, k < env.liveness n → ∃ m, k < (loop env m).liveness ∨ env.cancelled m = true) ↔
      ∀ n, (loop env n).liveness < env.liveness n →
        ∃ m ≥ n, LivenessOpen env m ∨ env.cancelled m = true := by
  refine served_iff_open env.liveness_mono liveness_monotone env.cancelled_succ ?_ ?_
  · intro n hopen hstop hlt
    have hsel := select_liveness_iff.mpr ⟨by simpa using hstop, hopen.1, hopen.2, hlt⟩
    simp only [loop]
    rw [turn_liveness, if_pos hsel]
    omega
  · intro n hlt
    simp only [loop] at hlt
    rw [turn_liveness] at hlt
    split at hlt
    · rename_i hsel
      obtain ⟨-, hpending, hresync, -⟩ := select_liveness_iff.mp hsel
      exact ⟨hpending, hresync⟩
    · omega

end Loop

/-! ## Starvation -/

/-- Each tick that becomes due is served, unless the kubelet is cancelled. -/
def TicksServed (env : Surroundings) : Prop :=
  (∀ n k, k < env.resync n → ∃ m, k < (loop env m).resync ∨ env.cancelled m = true) ∧
  ∀ n k, k < env.liveness n → ∃ m, k < (loop env m).liveness ∨ env.cancelled m = true

/-- **Ticks are served** if and only if, whenever one is due, the watch is found idle at that turn or
a later one (for a liveness tick, with no resync tick due there), or the kubelet is cancelled. -/
theorem ticks_served_iff (env : Surroundings) :
    TicksServed env ↔
      (∀ n, (loop env n).resync < env.resync n →
        ∃ m ≥ n, env.watch m = .pending ∨ env.cancelled m = true) ∧
      ∀ n, (loop env n).liveness < env.liveness n →
        ∃ m ≥ n, (env.watch m = .pending ∧ env.resync m ≤ (loop env m).resync) ∨
          env.cancelled m = true :=
  and_congr resync_served_iff liveness_served_iff

/-- **Starvation.** After the end of the stream nothing is served. -/
theorem starved_of_closed (env : Surroundings) (n : ℕ) (h : env.watch n = .closed) (m : ℕ) :
    loop env (n + m) = loop env n := by
  induction m with
  | zero => rfl
  | succ m ih =>
    have hclosed : ∀ j, env.watch (n + j) = .closed := by
      intro j
      induction j with
      | zero => exact h
      | succ j ih => exact env.closed_succ _ ih
    have hready : ready env (n + m) (loop env (n + m)) .watch = true := by
      simp [ready, hclosed m]
    rw [← ih, ← add_assoc]
    change turn env (n + m) (loop env (n + m)) = loop env (n + m)
    have hsel : select env (n + m) (loop env (n + m)) = some .cancel ∨
        select env (n + m) (loop env (n + m)) = some .watch := by
      unfold select arms
      cases hc : ready env (n + m) (loop env (n + m)) .cancel with
      | true => simp [hc]
      | false => simp [hc, hready]
    unfold turn
    rcases hsel with hsel | hsel <;> rw [hsel]

/-- The stream ends before the first tick. -/
def streamEnded : Surroundings where
  cancelled _ := false
  watch _ := .closed
  resync n := n / 15
  liveness n := n
  cancelled_succ _ h := h
  closed_succ _ h := h
  resync_mono := fun _ _ h => Nat.div_le_div_right h
  liveness_mono := monotone_id

theorem not_ticksServed_streamEnded : ¬ TicksServed streamEnded := by
  intro h
  obtain ⟨m, hm | hm⟩ := h.2 1 0 Nat.one_pos
  · have hloop := starved_of_closed streamEnded 0 rfl m
    rw [Nat.zero_add] at hloop
    rw [hloop] at hm
    cases hm
  · cases hm

end MyK8s.Kubelet
