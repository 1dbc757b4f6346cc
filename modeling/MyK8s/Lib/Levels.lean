import MyK8s.Lib.Interference

/-!
# Controllers that look at levels

A controller is told of keys that may be outdated, and has a worker that looks at one key after the other.
It looks at what the store is by then (the level) and not at what has been written (the edges), so of many
writes it has to be told only once.

What makes this work is `Inv`: a key that is not pending is at the worker, which will set it right whatever
happens in between, or is not outdated. It is kept by every step of which it is known that a key which is
not pending afterwards was not so before, and that nothing has been written that matters to it (`Step.inv`).
-/

namespace Levels

open Process

universe u

/-- What makes a key outdated, which writes of others do not matter to a key, and the writes of a worker. -/
structure Scheme (σ W κ : Type u) (R : W → Type u) (ε : Type u) where
  outdated : κ → σ → Prop
  rely : κ → σ → σ → Prop
  setting : Setting σ W R ε

/-- The store, the keys that are pending, and the key at the worker with what it does for it. -/
structure State (σ W κ : Type u) (R : W → Type u) (ε' : Type u) where
  world : σ
  pending : Set κ
  work : Option (κ × Proc σ W R (Except ε' PUnit))

variable {σ W κ ε ε' : Type u} {R : W → Type u}

namespace Scheme

variable (C : Scheme σ W κ R ε)

/-- The worker comes to set the key right, unless it fails. -/
def Settles (k : κ) (p : Proc σ W R (Except ε' PUnit)) (s : σ) : Prop :=
  p.under C.setting (C.rely k) (fun s r => ∀ a, r = .ok a → ¬ C.outdated k s) s

/-- A key that is not pending is in good hands, or it is not outdated. -/
def Inv (s : State σ W κ R ε') : Prop :=
  ∀ k ∉ s.pending, (∀ p, s.work = some (k, p) → C.Settles k p s.world) ∧
    ((∀ p, s.work ≠ some (k, p)) → ¬ C.outdated k s.world)

/-- What can happen next. -/
inductive Step (s s' : State σ W κ R ε') : Prop
  /-- Somebody else writes, or the controller is told of keys. -/
  | other (hwork : s'.work = s.work)
      (hk : ∀ k ∉ s'.pending, k ∉ s.pending ∧ C.rely k s.world s'.world)
  | take (k : κ) (p : Proc σ W R (Except ε' PUnit)) (hidle : s.work = none)
      (hwork : s'.work = some (k, p)) (hworld : s'.world = s.world) (hp : C.Settles k p s.world)
      (hk : ∀ k' ∉ s'.pending, k' ≠ k → k' ∉ s.pending)
  /-- The worker goes on, and what it writes matters to no other key. -/
  | work (k : κ) (p p' : Proc σ W R (Except ε' PUnit)) (hold : s.work = some (k, p))
      (hnew : s'.work = some (k, p'))
      (hp : k ∉ s'.pending → C.Settles k p s.world → C.Settles k p' s'.world)
      (hk : ∀ k' ∉ s'.pending, k' ∉ s.pending ∧ (k' ≠ k → C.rely k' s.world s'.world))
  | finish (k : κ) (r : Except ε' PUnit) (hold : s.work = some (k, .ret r)) (hnew : s'.work = none)
      (hworld : s'.world = s.world) (hr : ∀ e, r = .error e → k ∈ s'.pending)
      (hk : ∀ k' ∉ s'.pending, k' ∉ s.pending)
  /-- The worker is gone, with the key that it had. -/
  | crash (hnew : s'.work = none) (hworld : s'.world = s.world)
      (hlost : ∀ k p, s.work = some (k, p) → k ∈ s'.pending) (hk : ∀ k ∉ s'.pending, k ∉ s.pending)

variable {C} {s s' : State σ W κ R ε'}

/-- **What one step keeps.** -/
theorem Step.inv [∀ k, IsPreorder σ (C.rely k)] (hstep : C.Step s s') (h : C.Inv s)
    (hkeeps : ∀ k t t', C.rely k t t' → C.outdated k t' → C.outdated k t) : C.Inv s' := by
  intro k hk'
  cases hstep with
  | other hwork hk =>
    obtain ⟨hk, hrely⟩ := hk k hk'
    obtain ⟨hmine, hcurrent⟩ := h k hk
    rw [hwork]
    exact ⟨fun p hp => Proc.under_rely (hmine p hp) hrely,
      fun hno hout => hcurrent hno (hkeeps k _ _ hrely hout)⟩
  | take key p hidle hwork hworld hp hk =>
    rw [hwork, hworld]
    by_cases heq : k = key
    · subst heq
      refine ⟨?_, fun hno => absurd rfl (hno p)⟩
      rintro p' ⟨⟩
      exact hp
    · refine ⟨fun p' hp' => ?_, fun _ => ?_⟩
      · exact absurd (congrArg Prod.fst (Option.some.inj hp')).symm heq
      · refine (h k (hk k hk' heq)).2 fun p' hp' => ?_
        rw [hidle] at hp'
        cases hp'
  | work key p p' hold hnew hp hk =>
    obtain ⟨hk, hrely⟩ := hk k hk'
    obtain ⟨hmine, hcurrent⟩ := h k hk
    rw [hnew]
    by_cases heq : k = key
    · subst heq
      refine ⟨?_, fun hno => absurd rfl (hno p')⟩
      rintro q ⟨⟩
      exact hp hk' (hmine p hold)
    · refine ⟨fun q hq => ?_, fun _ hout => ?_⟩
      · exact absurd (congrArg Prod.fst (Option.some.inj hq)).symm heq
      · refine hcurrent (fun q hq => ?_) (hkeeps k _ _ (hrely heq) hout)
        rw [hold] at hq
        exact heq (congrArg Prod.fst (Option.some.inj hq)).symm
  | finish key r hold hnew hworld hr hk =>
    obtain ⟨hmine, hcurrent⟩ := h k (hk k hk')
    rw [hnew, hworld]
    refine ⟨fun q hq => ?_, fun _ => ?_⟩
    · cases hq
    · by_cases heq : k = key
      · subst heq
        cases r with
        | error e => exact absurd (hr e rfl) hk'
        | ok a => exact hmine _ hold _ (refl s.world) a rfl
      · refine hcurrent fun q hq => ?_
        rw [hold] at hq
        exact heq (congrArg Prod.fst (Option.some.inj hq)).symm
  | crash hnew hworld hlost hk =>
    rw [hnew, hworld]
    refine ⟨fun q hq => ?_, fun _ => ?_⟩
    · cases hq
    · exact (h k (hk k hk')).2 fun q hq => hk' (hlost k q hq)

/-- A key that is outdated is pending or at the worker. -/
theorem Inv.pending_or_working (h : C.Inv s) {k : κ} (hout : C.outdated k s.world) :
    k ∈ s.pending ∨ ∃ p, s.work = some (k, p) := by
  by_contra hno
  rw [not_or, not_exists] at hno
  exact (h k hno.1).2 hno.2 hout

end Scheme

/-! ## Runs -/

/-- A controller as a machine: what an act does, which keys are owed, and which keys an act makes it miss. -/
structure Machine (S A κ : Type*) where
  step : S → A → S
  owes : S → κ → Prop
  misses : S → A → κ → Prop

namespace Machine

variable {S A κ : Type*} (M : Machine S A κ)

def run (s : S) (acts : List A) : S := acts.foldl M.step s

/-- The key was stale at the start or has been missed, and it has not been owed since. -/
def Missed (stale : κ → Prop) (s : S) (acts : List A) (k : κ) : Prop :=
  (stale k ∧ ∀ past, past <+: acts → ¬ M.owes (M.run s past) k) ∨
    ∃ past act rest, acts = past ++ act :: rest ∧ M.misses (M.run s past) act k ∧
      ∀ mid, mid <+: rest → ¬ M.owes (M.run s (past ++ act :: mid)) k

variable {M} {stale : κ → Prop} {s : S} {acts past rest : List A} {act : A} {k : κ}

theorem run_concat : M.run s (acts ++ [act]) = M.step (M.run s acts) act := List.foldl_concat ..

/-- What has been missed after one more act. -/
theorem missed_concat : M.Missed stale s (acts ++ [act]) k ↔ ¬ M.owes (M.run s (acts ++ [act])) k ∧
    (M.misses (M.run s acts) act k ∨ M.Missed stale s acts k) := by
  constructor
  · rintro (⟨hstart, hall⟩ | ⟨past, first, rest, heq, hmisses, hall⟩)
    · exact ⟨hall _ List.prefix_rfl, .inr (.inl ⟨hstart, fun past hpast => hall past
        (hpast.trans (List.prefix_append acts [act]))⟩)⟩
    · rcases List.eq_nil_or_concat rest with rfl | ⟨rest, last, rfl⟩
      · obtain ⟨rfl, hact⟩ := List.append_inj' heq rfl
        obtain rfl := List.singleton_inj.mp hact
        exact ⟨hall [] List.nil_prefix, .inl hmisses⟩
      · rw [List.concat_eq_append] at heq hall
        rw [← List.cons_append, ← List.append_assoc] at heq
        obtain ⟨rfl, hact⟩ := List.append_inj' heq rfl
        obtain rfl := List.singleton_inj.mp hact
        refine ⟨?_, .inr (.inr ⟨past, first, rest, rfl, hmisses, fun mid hmid => ?_⟩)⟩
        · simpa using hall _ List.prefix_rfl
        · exact hall mid (hmid.trans (List.prefix_append rest [act]))
  · rintro ⟨howes, hmisses | ⟨hstart, hall⟩ | ⟨past, first, rest, rfl, hmisses, hall⟩⟩
    · refine .inr ⟨acts, act, [], rfl, hmisses, fun mid hmid => ?_⟩
      obtain rfl := List.prefix_nil.mp hmid
      exact howes
    · refine .inl ⟨hstart, fun past hpast => ?_⟩
      rcases List.prefix_concat_iff.mp hpast with rfl | hpast
      · exact howes
      · exact hall past hpast
    · refine .inr ⟨past, first, rest ++ [act], by simp, hmisses, fun mid hmid => ?_⟩
      rcases List.prefix_concat_iff.mp hmid with rfl | hmid
      · simpa using howes
      · exact hall mid hmid

/-- What has been missed was not owed at some time before, or it was missed after that. -/
theorem missed_append (h : M.Missed stale s (past ++ rest) k) : ¬ M.owes (M.run s past) k ∨
    ∃ mid act, mid ++ [act] <+: rest ∧ M.misses (M.run s (past ++ mid)) act k := by
  induction rest using List.reverseRecOn with
  | nil =>
    left
    rw [List.append_nil] at h
    rcases h with ⟨-, hall⟩ | ⟨before, act, after, rfl, -, hall⟩
    · exact hall past List.prefix_rfl
    · exact hall after List.prefix_rfl
  | append_singleton rest act ih =>
    rw [← List.append_assoc, missed_concat] at h
    rcases h.2 with hmisses | hmissed
    · exact .inr ⟨rest, act, List.prefix_rfl, hmisses⟩
    · rcases ih hmissed with hno | ⟨mid, first, hmid, hmisses⟩
      · exact .inl hno
      · exact .inr ⟨mid, first, hmid.trans (List.prefix_append rest [act]), hmisses⟩

end Machine

section Pending

variable {S A : Type*} {M : Machine S A κ} {C : Scheme σ W κ R ε} {good : S → Prop}
  {world : S → σ} {work : S → Option (κ × Proc σ W R (Except ε' PUnit))} {s : S}

/-- A state of a machine, where some keys have been missed. -/
def Machine.view (M : Machine S A κ) (world : S → σ) (work : S → Option (κ × Proc σ W R (Except ε' PUnit)))
    (s : S) (missed : κ → Prop) : State σ W κ R ε' :=
  ⟨world s, {k | M.owes s k ∨ missed k}, work s⟩

/-- **Along every run**, a key that is neither owed nor missed is in the hands of the worker, or is not outdated:
where each act is a step that misses no more than is said. -/
theorem Machine.inv_run [∀ k, IsPreorder σ (C.rely k)] (hgood : ∀ s act, good s → good (M.step s act))
    (hstep : ∀ s act missed, good s → C.Step (M.view world work s missed)
      (M.view world work (M.step s act) fun k => M.misses s act k ∨ missed k))
    (hkeeps : ∀ k t t', C.rely k t t' → C.outdated k t' → C.outdated k t) (hs : good s) (hidle : work s = none)
    (hfree : ∀ k, ¬ M.owes s k) (acts : List A) :
    good (M.run s acts) ∧ C.Inv (M.view world work (M.run s acts)
      (M.Missed (C.outdated · (world s)) s acts)) := by
  induction acts using List.reverseRecOn with
  | nil =>
    refine ⟨hs, fun k hk => ⟨fun p hp => ?_, fun _ hout => ?_⟩⟩
    · exact absurd (hidle.symm.trans hp) (by simp)
    · refine (not_or.mp hk).2 (.inl ⟨hout, fun past hpast => ?_⟩)
      obtain rfl := List.prefix_nil.mp hpast
      exact hfree k
  | append_singleton acts act ih =>
    obtain ⟨hgoods, hinv⟩ := ih
    have hnext := (hstep _ act _ hgoods).inv hinv hkeeps
    rw [← run_concat] at hnext
    refine ⟨?_, fun k hk => hnext k ?_⟩
    · rw [run_concat]
      exact hgood _ act hgoods
    · obtain ⟨howes, hmissed⟩ := not_or.mp hk
      exact not_or.mpr ⟨howes, fun hin => hmissed (missed_concat.mpr ⟨howes, hin⟩)⟩

end Pending

end Levels
