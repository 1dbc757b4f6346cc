import MyK8s.Lib.Process

/-!
# Who is behind a write

A run of processes remembers what each of them was started as. So a rule for what is written can be one
about the program that writes it (`System.owned_writes`).
-/

namespace Process

universe u

namespace System

variable {σ W ι ε : Type u} {R : W → Type u}

section Owners

variable (code : ι → Proc σ W R PUnit) (exec : (w : W) → σ → R w × σ) (refuse : ε → (w : W) → R w)

/-- The programs behind the processes, after an act. What is left under way of a write that failed is of the
program that wrote it. -/
def ownersStep (s : System σ W R) (owners : List ι) : Act ι ε → List ι
  | .start p => owners ++ [p]
  | .fail i _ true =>
    match s.procs[i]?, owners[i]? with
    | some ⟨_, .write _ _⟩, some p => owners ++ [p]
    | _, _ => owners
  | _ => owners

/-- The programs behind the processes of a run. -/
def owners (s : System σ W R) (acts : List (Act ι ε)) : List ι :=
  (acts.foldl (fun (now : System σ W R × List ι) act =>
    (now.1.step code exec refuse act, now.1.ownersStep now.2 act)) (s, [])).2

end Owners

/-- The act carries out a write, of a process that was started as `p` and has read `seen`. -/
def WritesFor (s : System σ W R) (owners : List ι) (act : Act ι ε) (p : ι) (seen : List σ) (w : W) : Prop :=
  ∃ i next, act = .write i ∧ owners[i]? = some p ∧ s.procs[i]? = some ⟨seen, .write w next⟩

section Test

variable (code : ι → Proc σ W R PUnit) (exec : (w : W) → σ → R w × σ) (refuse : ε → (w : W) → R w)
  (test : ι → List σ → W → σ → Bool)

/-- Whether the write of the act, if it carries out one, passes a test. -/
def testStep (s : System σ W R) (owners : List ι) : Act ι ε → Bool
  | .write i =>
    match s.procs[i]?, owners[i]? with
    | some ⟨seen, .write w _⟩, some p => test p seen w s.now
    | _, _ => true
  | _ => true

/-- Whether all writes of a run pass a test. -/
def testRun (s : System σ W R) (owners : List ι) : List (Act ι ε) → Bool
  | [] => true
  | act :: acts =>
    s.testStep test owners act && testRun (s.step code exec refuse act) (s.ownersStep owners act) acts

end Test

section Rules

variable {code : ι → Proc σ W R PUnit} {exec : (w : W) → σ → R w × σ} {refuse : ε → (w : W) → R w}
  {s : System σ W R} {ps : List ι} {act : Act ι ε}

theorem run_concat (s : System σ W R) (acts : List (Act ι ε)) (act : Act ι ε) :
    s.run code exec refuse (acts ++ [act]) = (s.run code exec refuse acts).step code exec refuse act :=
  List.foldl_concat ..

theorem owners_concat (s : System σ W R) (acts : List (Act ι ε)) (act : Act ι ε) :
    s.owners code exec refuse (acts ++ [act]) =
      (s.run code exec refuse acts).ownersStep (s.owners code exec refuse acts) act := by
  have hrun : ∀ acts : List (Act ι ε), ∀ now : System σ W R × List ι,
      (acts.foldl (fun (now : System σ W R × List ι) act =>
        (now.1.step code exec refuse act, now.1.ownersStep now.2 act)) now).1 =
        now.1.run code exec refuse acts := by
    intro acts
    induction acts with
    | nil => exact fun _ => rfl
    | cons act acts ih => exact fun now => ih _
  unfold owners
  rw [List.foldl_concat, hrun]

theorem WritesFor.test {test : ι → List σ → W → σ → Bool} {p : ι} {seen : List σ} {w : W}
    (h : s.WritesFor ps act p seen w) : s.testStep test ps act = test p seen w s.now := by
  obtain ⟨i, next, rfl, hp, hi⟩ := h
  simp only [testStep, hi, hp]

/-- A run that passes the test is one whose writes do. -/
theorem WritesFor.of_testRun {test : ι → List σ → W → σ → Bool} {acts past : List (Act ι ε)} {p : ι}
    {seen : List σ} {w : W} (htest : s.testRun code exec refuse test [] acts = true)
    (hp : past ++ [act] <+: acts)
    (hw : (s.run code exec refuse past).WritesFor (s.owners code exec refuse past) act p seen w) :
    test p seen w (s.run code exec refuse past).now = true := by
  have hall : ∀ past, past <+: acts → ∀ rest, acts = past ++ rest →
      (s.run code exec refuse past).testRun code exec refuse test (s.owners code exec refuse past) rest =
        true := by
    refine Runs.prefix_induction ?_ fun past act hp ih => ?_
    · rintro rest rfl
      exact htest
    · rintro rest rfl
      have hboth := ih (act :: rest) (by simp)
      rw [testRun, Bool.and_eq_true] at hboth
      rw [run_concat, owners_concat]
      exact hboth.2
  obtain ⟨rest, hrest⟩ := hp
  have hboth := hall past ⟨act :: rest, by simpa using hrest⟩ (act :: rest) (by simpa using hrest.symm)
  rw [testRun, Bool.and_eq_true, hw.test] at hboth
  exact hboth.1

/-- What each process has ahead is as the program behind it has it. -/
def OwnedSound (P : ι → List σ → W → Prop) (s : System σ W R) (owners : List ι) : Prop :=
  List.Forall₂ (fun r p => r.Sound (P p) s.states) s.procs owners

variable {P : ι → List σ → W → Prop}

theorem OwnedSound.set (h : s.OwnedSound P ps) {states : List σ} (hsub : s.states ⊆ states) {i : ℕ}
    {r' : Running σ W R} (hr' : ∀ p, ps[i]? = some p → r'.Sound (P p) states) :
    List.Forall₂ (fun r p => r.Sound (P p) states) (s.procs.set i r') ps := by
  rw [List.forall₂_iff_get]
  have hall := List.forall₂_iff_get.mp h
  refine ⟨by rw [List.length_set]; exact hall.1, fun j hj hj' => ?_⟩
  simp only [List.get_eq_getElem, List.getElem_set]
  split
  · rename_i hij
    subst hij
    exact hr' _ (List.getElem?_eq_getElem hj')
  · exact (hall.2 j (by simpa using hj) hj').mono hsub

theorem OwnedSound.of_getElem? (h : s.OwnedSound P ps) {i : ℕ} {r : Running σ W R} {p : ι}
    (hr : s.procs[i]? = some r) (hp : ps[i]? = some p) : r.Sound (P p) s.states := by
  obtain ⟨hi, rfl⟩ := List.getElem?_eq_some_iff.mp hr
  obtain ⟨hi', rfl⟩ := List.getElem?_eq_some_iff.mp hp
  exact (List.forall₂_iff_get.mp h).2 i hi hi'

theorem OwnedSound.step (h : s.OwnedSound P ps)
    (hstart : ∀ p, act = .start p → (code p).wp (P p) (fun _ _ => True) []) :
    (s.step code exec refuse act).OwnedSound P (s.ownersStep ps act) := by
  cases act with
  | start p =>
    refine List.rel_append h (.cons ⟨List.nil_subset _, hstart p rfl⟩ .nil)
  | read i lag =>
    simp only [System.step]
    split
    · rename_i seen next hi
      refine h.set (List.Subset.refl _) fun p hp => ?_
      have hr := h.of_getElem? hi hp
      refine ⟨List.cons_subset.mpr ⟨?_, hr.seen⟩, hr.wp _⟩
      cases hlag : s.states[lag]? with
      | none => exact List.mem_cons_self
      | some x => exact List.mem_of_getElem? hlag
    · exact h
  | write i =>
    simp only [System.step]
    split
    · rename_i seen w next hi
      have hsub : s.states ⊆ (exec w s.now).2 :: s.states := List.subset_cons_self _ _
      refine h.set hsub fun p hp => ?_
      have hr := h.of_getElem? hi hp
      exact ⟨List.Subset.trans hr.seen hsub, hr.wp.2 _⟩
    · exact h
  | fail i e underWay =>
    cases hi : s.procs[i]? with
    | none => cases underWay <;> simpa [System.step, ownersStep, hi] using h
    | some r =>
      obtain ⟨seen, proc⟩ := r
      have hlt : i < ps.length := h.length_eq ▸ (List.getElem?_eq_some_iff.mp hi).1
      have hp : ps[i]? = some ps[i] := List.getElem?_eq_getElem hlt
      cases proc with
      | write w next =>
        have hr := h.of_getElem? hi hp
        have hset : List.Forall₂ (fun r p => r.Sound (P p) s.states)
            (s.procs.set i ⟨seen, next (refuse e w)⟩) ps := by
          refine h.set (List.Subset.refl _) fun p hp => ?_
          exact ⟨hr.seen, (h.of_getElem? hi hp).wp.2 _⟩
        cases underWay with
        | false =>
          simp only [System.step, ownersStep, hi, Bool.false_eq_true, if_false, List.append_nil]
          exact hset
        | true =>
          simp only [System.step, ownersStep, hi, hp, if_true]
          exact List.rel_append hset (.cons ⟨hr.seen, hr.wp.1, fun _ => trivial⟩ .nil)
      -- it has nothing to fail
      | _ => cases underWay <;> simpa [System.step, ownersStep, hi] using h

theorem ownedSound_run (x : σ) {acts : List (Act ι ε)}
    (hstart : ∀ p, .start p ∈ acts → (code p).wp (P p) (fun _ _ => True) []) :
    ((init x).run code exec refuse acts).OwnedSound P ((init x).owners code exec refuse acts) := by
  have hall : ∀ past, past <+: acts →
      ((init x).run code exec refuse past).OwnedSound P ((init x).owners code exec refuse past) := by
    refine Runs.prefix_induction .nil fun past act hp h => ?_
    have hact : act ∈ acts := hp.subset (List.mem_append_right past List.mem_cons_self)
    rw [owners_concat, run_concat]
    exact h.step fun p hp => hstart p (hp ▸ hact)
  exact hall acts List.prefix_rfl

/-- **Whose write it is.** Each write of a run is one that a program writes, by what it has read. -/
theorem owned_writes (x : σ) {acts : List (Act ι ε)}
    (hstart : ∀ p, .start p ∈ acts → (code p).wp (P p) (fun _ _ => True) []) {act : Act ι ε}
    {seen : List σ} {w : W} (hw : ((init x).run code exec refuse acts).Writes act seen w) :
    ∃ p, ((init x).run code exec refuse acts).WritesFor ((init x).owners code exec refuse acts) act p seen w ∧
      seen ⊆ ((init x).run code exec refuse acts).states ∧ P p seen w := by
  obtain ⟨i, next, rfl, hi⟩ := hw
  have hsound : ((init x).run code exec refuse acts).OwnedSound P ((init x).owners code exec refuse acts) :=
    ownedSound_run x hstart
  have hlt := hsound.length_eq ▸ (List.getElem?_eq_some_iff.mp hi).1
  have hp := List.getElem?_eq_getElem hlt
  have hr := hsound.of_getElem? hi hp
  exact ⟨_, ⟨i, next, rfl, hp, hi⟩, hr.seen, hr.wp.1⟩

end Rules

end System

end Process
