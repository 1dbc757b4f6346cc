import Mathlib
import MyK8s.Lib.Runs

/-!
# Replaying a log over the state it has already built

A machine whose state is durable but whose position in the log is not: after a crash it applies the
log again from the start, on the state that it finds. A run with crashes is the list of the lengths
to which each incarnation got before it crashed.

Replay is harmless at all times exactly if whatever has been applied would be refused when it came
again (`replay_eq_iff`). The proof needs a counter that every effective command moves up.

Another machine misses some of the commands and goes on. It keeps to the states of the log exactly as
long as nothing takes effect on it but what does there what it has missed (`onTrack_iff`).
-/

namespace Replay

variable {σ α : Type*} {step : σ → α → σ} {Refused : σ → α → Prop} {count : σ → ℕ} {bound : ℕ}

/-- The state after the whole log has been applied by the last of several incarnations. -/
def replay (step : σ → α → σ) (s : σ) (log : List α) (crashes : List ℕ) : σ :=
  log.foldl step (crashes.foldl (fun s k => (log.take k).foldl step s) s)

/-- The state that incarnations leave behind which applied the log to these lengths. -/
def rebuild (step : σ → α → σ) (s : σ) (log : List α) (lengths : List ℕ) : σ :=
  lengths.foldl (fun s k => (log.take k).foldl step s) s

/-- A refused command changes nothing; any other moves the counter, up to a bound. -/
structure Counted (step : σ → α → σ) (Refused : σ → α → Prop) (count : σ → ℕ) (bound : ℕ) :
    Prop where
  refused : ∀ {s a}, Refused s a → step s a = s
  le : ∀ s a, count s ≤ count (step s a)
  le_succ : ∀ s a, count (step s a) ≤ count s + 1
  lt : ∀ {s a}, ¬ Refused s a → count s < bound → count s < count (step s a)

section Counted

variable (h : Counted step Refused count bound)

include h

theorem Counted.foldl_of_refused {s : σ} {l : List α} (hl : ∀ a ∈ l, Refused s a) :
    l.foldl step s = s := by
  induction l with
  | nil => rfl
  | cons a l ih =>
    rw [List.foldl_cons, h.refused (hl a List.mem_cons_self)]
    exact ih fun b hb => hl b (List.mem_cons_of_mem a hb)

theorem Counted.foldl_le (l : List α) : ∀ s, count s ≤ count (l.foldl step s) := by
  induction l with
  | nil => exact fun _ => le_rfl
  | cons a l ih => exact fun s => (h.le s a).trans (ih _)

theorem Counted.foldl_le_add (l : List α) :
    ∀ s, count (l.foldl step s) ≤ count s + l.length := by
  induction l with
  | nil => exact fun _ => le_rfl
  | cons a l ih =>
    intro s
    have h1 := ih (step s a)
    have h2 := h.le_succ s a
    simp only [List.foldl_cons, List.length_cons]
    omega

/-- A log with a command that is not refused moves the counter. -/
theorem Counted.lt_foldl {l : List α} : ∀ {s : σ}, (∃ a ∈ l, ¬ Refused s a) → count s < bound →
    count s < count (l.foldl step s) := by
  induction l with
  | nil =>
    rintro s ⟨a, ha, _⟩
    cases ha
  | cons b l ih =>
    rintro s ⟨a, ha, hna⟩ hlt
    rw [List.foldl_cons]
    by_cases hb : Refused s b
    · rw [h.refused hb]
      rcases List.mem_cons.mp ha with rfl | ha
      · exact absurd hb hna
      · exact ih ⟨a, ha, hna⟩ hlt
    · exact (h.lt hb hlt).trans_le (h.foldl_le l _)

/-- Applying a piece of the log again on the state of a longer piece, or of a shorter one, gives the
state of the longer of the two. -/
theorem Counted.foldl_take {s : σ} {log : List α}
    (hold : ∀ past, past <+: log → ∀ a ∈ past, Refused (past.foldl step s) a) (m k : ℕ) :
    (log.take k).foldl step ((log.take m).foldl step s) = (log.take (max m k)).foldl step s := by
  have hm := hold _ (List.take_prefix m log)
  rcases Nat.le_total k m with hkm | hmk
  · rw [max_eq_left hkm]
    refine h.foldl_of_refused fun a ha => hm a ?_
    exact (List.take_prefix_take_left hkm).subset ha
  · rw [max_eq_right hmk]
    have hsplit : log.take k = log.take m ++ (log.take k).drop m := by
      have := List.take_append_drop m (log.take k)
      rwa [List.take_take, min_eq_left hmk, eq_comm] at this
    rw [hsplit, List.foldl_append, h.foldl_of_refused hm, List.foldl_append]

/-- **Replay.** At every length of the log, and however often the machine crashes on the way, replay
gives the state of a run without crashes, if and only if no command that has been applied would
take effect again. -/
theorem Counted.replay_eq_iff {s : σ} (h0 : count s = 0) {log : List α}
    (hlen : log.length < bound) :
    (∀ past, past <+: log → ∀ crashes, replay step s past crashes = past.foldl step s) ↔
      ∀ past, past <+: log → ∀ a ∈ past, Refused (past.foldl step s) a := by
  constructor
  · intro hall past hp
    by_contra hno
    push Not at hno
    -- one crash at the end of the log
    have heq := hall past hp [past.length]
    unfold replay at heq
    simp only [List.foldl_cons, List.foldl_nil, List.take_length] at heq
    have hle := h.foldl_le_add past s
    have hpast := hp.length_le
    have hlt := h.lt_foldl hno (by omega)
    rw [heq] at hlt
    exact lt_irrefl _ hlt
  · intro hold past hp crashes
    have hold' : ∀ p, p <+: past → ∀ a ∈ p, Refused (p.foldl step s) a :=
      fun p hpp => hold p (hpp.trans hp)
    -- every incarnation finds the state of some piece of the log
    have hstate : ∀ crashes : List ℕ, ∃ m,
        crashes.foldl (fun s k => (past.take k).foldl step s) s = (past.take m).foldl step s := by
      intro crashes
      induction crashes using List.reverseRecOn with
      | nil => exact ⟨0, by simp⟩
      | append_singleton ks k ih =>
        obtain ⟨m, hm⟩ := ih
        refine ⟨max m k, ?_⟩
        rw [List.foldl_concat, hm, h.foldl_take hold']
    obtain ⟨m, hm⟩ := hstate crashes
    have hlast := h.foldl_take hold' m past.length
    rw [List.take_length] at hlast
    unfold replay
    rw [hm, hlast, List.take_of_length_le (le_max_right _ _)]

/-- What has been applied is refused when it comes again, so the longest piece decides. -/
theorem Counted.rebuild_eq {s : σ} {log : List α}
    (hold : ∀ past, past <+: log → ∀ a ∈ past, Refused (past.foldl step s) a) (lengths : List ℕ) :
    rebuild step s log lengths = (log.take (lengths.foldl max 0)).foldl step s := by
  induction lengths using List.reverseRecOn with
  | nil => simp [rebuild]
  | append_singleton ks k ih =>
    have hlast : rebuild step s log (ks ++ [k]) = (log.take k).foldl step (rebuild step s log ks) := by
      unfold rebuild
      rw [List.foldl_concat]
    rw [hlast, ih, h.foldl_take hold, List.foldl_concat]

/-! ## Commands that are missed -/

omit h in
theorem exists_first_effective {s : σ} {l : List α} (hl : ∃ a ∈ l, ¬ Refused s a) :
    ∃ before a after, l = before ++ a :: after ∧ (∀ b ∈ before, Refused s b) ∧ ¬ Refused s a := by
  induction l with
  | nil =>
    obtain ⟨a, ha, -⟩ := hl
    cases ha
  | cons b l ih =>
    by_cases hb : Refused s b
    · obtain ⟨a, ha, hna⟩ := hl
      have hmem : a ∈ l := (List.mem_cons.mp ha).resolve_left fun heq => hna (heq ▸ hb)
      obtain ⟨before, c, after, rfl, hbefore, hc⟩ := ih ⟨a, hmem, hna⟩
      exact ⟨b :: before, c, after, rfl, List.forall_mem_cons.mpr ⟨hb, hbefore⟩, hc⟩
    · exact ⟨[], b, l, rfl, fun _ hmem => absurd hmem List.not_mem_nil, hb⟩

/-- Where the counter stands still, so does the state. -/
theorem Counted.foldl_eq_of_count {s : σ} {l : List α} (hlt : count s < bound)
    (hcount : count (l.foldl step s) ≤ count s) : l.foldl step s = s := by
  refine h.foldl_of_refused fun a ha => ?_
  by_contra hna
  exact absurd (h.lt_foldl ⟨a, ha, hna⟩ hlt) (by omega)

end Counted

/-- The state of a machine that misses the commands with the mark. -/
def lag (step : σ → α → σ) (s : σ) (run : List (α × Bool)) : σ :=
  run.foldl (fun s x => if x.2 then s else step s x.1) s

@[simp] theorem lag_concat (s : σ) (run : List (α × Bool)) (a : α) (missed : Bool) :
    lag step s (run ++ [(a, missed)]) =
      if missed then lag step s run else step (lag step s run) a := List.foldl_concat ..

/-- The state is one of those that the log leads to. -/
def OnTrack (step : σ → α → σ) (s : σ) (run : List (α × Bool)) : Prop :=
  ∃ k ≤ run.length, lag step s run = ((run.map Prod.fst).take k).foldl step s

/-- The command is refused, or the next one that has been missed would have the same effect. -/
def InStep (step : σ → α → σ) (Refused : σ → α → Prop) (s : σ) (run : List (α × Bool)) (a : α) :
    Prop :=
  Refused (lag step s run) a ∨ ∀ past b, past ++ [b] <+: run.map Prod.fst →
    past.foldl step s = lag step s run → ¬ Refused (lag step s run) b →
    step (lag step s run) a = step (lag step s run) b

section Lag

variable (h : Counted step Refused count bound) {s : σ} {run : List (α × Bool)} {a : α}

include h

/-- What has been missed, if anything. -/
theorem Counted.next_missed (hon : OnTrack step s run) :
    lag step s run = (run.map Prod.fst).foldl step s ∨
      ∃ past b, past ++ [b] <+: run.map Prod.fst ∧ past.foldl step s = lag step s run ∧
        ¬ Refused (lag step s run) b := by
  obtain ⟨k, -, hk⟩ := hon
  have hsplit : (run.map Prod.fst).take k ++ (run.map Prod.fst).drop k = run.map Prod.fst :=
    List.take_append_drop k _
  by_cases hall : ∀ a ∈ (run.map Prod.fst).drop k, Refused (lag step s run) a
  · left
    rw [← hsplit, List.foldl_append, ← hk, h.foldl_of_refused hall]
  · right
    push Not at hall
    obtain ⟨before, b, after, hrest, hbefore, hb⟩ := exists_first_effective hall
    refine ⟨(run.map Prod.fst).take k ++ before, b, ⟨after, ?_⟩, ?_, hb⟩
    · simp only [List.append_assoc, List.singleton_append]
      rw [← hrest, hsplit]
    · rw [List.foldl_append, ← hk, h.foldl_of_refused hbefore]

/-- A command that takes effect on the machine keeps it on track if and only if it does what has been
missed. -/
theorem Counted.onTrack_concat_iff (h0 : count s = 0) (hlen : run.length < bound)
    (hon : OnTrack step s run) :
    OnTrack step s (run ++ [(a, false)]) ↔ InStep step Refused s run a := by
  have hcount : count (lag step s run) ≤ run.length := by
    obtain ⟨k, hk, heq⟩ := hon
    have hle := h.foldl_le_add ((run.map Prod.fst).take k) s
    rw [← heq, List.length_take] at hle
    omega
  have hmap : (run ++ [(a, false)]).map Prod.fst = run.map Prod.fst ++ [a] := by simp
  have hlag : lag step s (run ++ [(a, false)]) = step (lag step s run) a := by simp
  by_cases ha : Refused (lag step s run) a
  · refine iff_of_true ?_ (.inl ha)
    obtain ⟨k, hk, heq⟩ := hon
    refine ⟨k, by simp; omega, ?_⟩
    rw [hlag, h.refused ha, hmap, List.take_append_of_le_length (by simpa using hk), heq]
  have hstep := h.lt ha (by omega)
  have hstep' := h.le_succ (lag step s run) a
  constructor
  · rintro ⟨k, hk, heq⟩
    refine .inr fun past b hp hpast hb => ?_
    -- the state after the missed command has the same count
    have hb' := h.lt hb (by omega)
    have hb'' := h.le_succ (lag step s run) b
    rw [hlag, hmap] at heq
    obtain ⟨rest, hrest⟩ := hp
    have hfull : run.map Prod.fst ++ [a] = past ++ b :: (rest ++ [a]) := by
      rw [← hrest]
      simp
    rw [hfull] at heq
    rcases Nat.lt_or_ge past.length k with hlong | hshort
    · obtain ⟨m, hm⟩ : ∃ m, k = past.length + (m + 1) := ⟨k - past.length - 1, by omega⟩
      rw [hm, List.take_length_add_append, List.take_succ_cons, List.foldl_append, List.foldl_cons,
        hpast] at heq
      rw [heq]
      refine h.foldl_eq_of_count ?_ ?_
      · have hlen' : past.length < run.length := by
          have := congrArg List.length hrest
          simp at this
          omega
        have hle := h.foldl_le_add past s
        rw [hpast] at hle
        omega
      · rw [← heq]
        omega
    · rw [List.take_append_of_le_length hshort] at heq
      have hle : count ((past.take k).foldl step s) ≤ count (past.foldl step s) := by
        conv_rhs => rw [← List.take_append_drop k past, List.foldl_append]
        exact h.foldl_le _ _
      rw [← heq, hpast] at hle
      omega
  · intro hin
    have hsame := hin.resolve_left ha
    rcases h.next_missed hon with hup | ⟨past, b, hp, hpast, hb⟩
    · refine ⟨run.length + 1, by simp, ?_⟩
      rw [hlag, hmap, List.take_of_length_le (by simp), List.foldl_concat, hup]
    · refine ⟨past.length + 1, ?_, ?_⟩
      · have hle := hp.length_le
        simp at hle ⊢
        omega
      · obtain ⟨rest, hrest⟩ := hp
        have htake : (past ++ [b] ++ rest ++ [a]).take (past.length + 1) = past ++ [b] := by
          rw [List.append_assoc, List.take_append_of_le_length (by simp),
            List.take_of_length_le (by simp)]
        rw [hlag, hmap, ← hrest, htake, List.foldl_concat, hpast]
        exact hsame past b ⟨rest, hrest⟩ hpast hb

/-- **Missed commands.** A machine that misses commands keeps to the states of the log, if and only if
each command that takes effect on it does what the next one that it has missed would do. -/
theorem Counted.onTrack_iff (h0 : count s = 0) (hlen : run.length ≤ bound) :
    (∀ past, past <+: run → OnTrack step s past) ↔
      ∀ past a, past ++ [(a, false)] <+: run → InStep step Refused s past a := by
  have hconcat : ∀ past x, past ++ [x] <+: run → OnTrack step s past →
      (OnTrack step s (past ++ [x]) ↔ (x.2 = false → InStep step Refused s past x.1)) := by
    rintro past ⟨a, missed⟩ hp hon
    cases missed with
    | true =>
      obtain ⟨k, hk, heq⟩ := hon
      refine iff_of_true ⟨k, by simp; omega, ?_⟩ (fun hm => by cases hm)
      rw [lag_concat, if_pos rfl, heq, List.map_append,
        List.take_append_of_le_length (by simpa using hk)]
    | false =>
      have hlen' := hp.length_le
      rw [List.length_append, List.length_singleton] at hlen'
      rw [h.onTrack_concat_iff h0 (by omega) hon]
      exact ⟨fun hin _ => hin, fun hin => hin rfl⟩
  rw [Runs.prefix_iff ⟨0, le_rfl, rfl⟩ hconcat]
  exact ⟨fun hall past a hp => hall past (a, false) hp rfl, fun hall past x hp hx =>
    hall past x.1 (by rw [← hx]; exact hp)⟩

end Lag

end Replay
