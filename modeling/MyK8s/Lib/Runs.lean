import Mathlib

/-!
# Invariants along a run

A run is a list of events folded over a state. When a step keeps an invariant on some events and
breaks it on all others, the invariant holds all along a run exactly if no event of the run is one
of those that break it.
-/

namespace Runs

variable {σ α : Type*} {step : σ → α → σ} {Inv : σ → Prop} {Ok : σ → α → Prop}

section Prefixes

variable {C : List α → Prop} {Enabled : List α → α → Prop} {l : List α}

theorem prefix_of_concat {p : List α} {a : α} (h : p ++ [a] <+: l) : p <+: l :=
  (List.prefix_append p [a]).trans h

/-- **Along a run**: what holds at the start and is kept by each event holds after every part. -/
theorem prefix_induction (nil : C []) (concat : ∀ p a, p ++ [a] <+: l → C p → C (p ++ [a])) :
    ∀ p, p <+: l → C p := by
  intro p
  induction p using List.reverseRecOn with
  | nil => exact fun _ => nil
  | append_singleton q a ih => exact fun hp => concat q a hp (ih (prefix_of_concat hp))

theorem prefix_iff (nil : C [])
    (concat : ∀ p a, p ++ [a] <+: l → C p → (C (p ++ [a]) ↔ Enabled p a)) :
    (∀ p, p <+: l → C p) ↔ ∀ p a, p ++ [a] <+: l → Enabled p a := by
  constructor
  · exact fun hall p a hp => (concat p a hp (hall p (prefix_of_concat hp))).mp (hall _ hp)
  · exact fun hok => prefix_induction nil fun p a hp hC => (concat p a hp hC).mpr (hok p a hp)

/-- What is asked of every event with the run up to it, by index. -/
theorem forall_concat_prefix_iff :
    (∀ p a, p ++ [a] <+: l → Enabled p a) ↔ ∀ i (h : i < l.length), Enabled (l.take i) l[i] := by
  constructor
  · intro hall i h
    refine hall (l.take i) l[i] ?_
    rw [List.take_append_getElem h]
    exact List.take_prefix ..
  · rintro hall p a ⟨rest, rfl⟩
    have hi : p.length < (p ++ [a] ++ rest).length := by simp
    simpa using hall p.length hi

end Prefixes

/-- What no event changes is the same after a run. -/
theorem foldl_keeps {β : Type*} (f : σ → β) (hstep : ∀ s a, f (step s a) = f s) (l : List α) (s : σ) :
    f (l.foldl step s) = f s := by
  induction l generalizing s with
  | nil => rfl
  | cons a rest ih => exact (ih (step s a)).trans (hstep s a)

/-- **A run keeps an invariant** if every event of it is one that keeps it. -/
theorem invariant_of_ok (hstep : ∀ s a, Inv s → Ok s a → Inv (step s a)) {s : σ} (h : Inv s)
    {l : List α} (hok : ∀ p a, p ++ [a] <+: l → Ok (p.foldl step s) a) :
    ∀ p, p <+: l → Inv (p.foldl step s) := by
  refine prefix_induction h fun p a hp hinv => ?_
  rw [List.foldl_concat]
  exact hstep _ a hinv (hok p a hp)

theorem invariant_iff_ok (hstep : ∀ s a, Inv s → (Inv (step s a) ↔ Ok s a)) {s : σ} (h : Inv s)
    (l : List α) :
    (∀ p, p <+: l → Inv (p.foldl step s)) ↔ ∀ p a, p ++ [a] <+: l → Ok (p.foldl step s) a := by
  refine prefix_iff h fun p a _ hinv => ?_
  rw [List.foldl_concat]
  exact hstep _ a hinv

end Runs
