import Mathlib

/-!
# Programs that can fail

A program over a state that returns a value or an error, and keeps what it has done to the state in
both cases. `wp` says of a program and a state what must hold for its outcome to be as asked for; each
way to build a program has its rule.
-/

namespace Fallible

universe u

variable {ε ε' σ τ α β : Type u}

/-- The state that is left. -/
def left : EStateM.Result ε σ α → σ
  | .ok _ s => s
  | .error _ s => s

@[simp] theorem left_ok (a : α) (s : σ) : left (.ok a s : EStateM.Result ε σ α) = s := rfl

@[simp] theorem left_error (e : ε) (s : σ) : left (.error e s : EStateM.Result ε σ α) = s := rfl

/-- The error is the result, and the program goes on. -/
def attempt (x : EStateM ε σ α) : EStateM ε' σ (Except ε α) := fun s =>
  match x s with
  | .ok a s' => .ok (.ok a) s'
  | .error e s' => .ok (.error e) s'

/-- A program over a part of the state. -/
def zoom (get : τ → σ) (set : σ → τ → τ) (x : EStateM ε σ α) : EStateM ε τ α := fun t =>
  match x (get t) with
  | .ok a s => .ok a (set s t)
  | .error e s => .error e (set s t)

/-- The program ends with a value and a state as `Q` asks for, or fails as `E` does. -/
def wp (x : EStateM ε σ α) (Q : α → σ → Prop) (E : ε → σ → Prop) (s : σ) : Prop :=
  match x s with
  | .ok a s' => Q a s'
  | .error e s' => E e s'

variable {x : EStateM ε σ α} {f : α → EStateM ε σ β} {Q Q' : α → σ → Prop} {E E' : ε → σ → Prop} {s : σ}

/-- The program fails from this state. -/
def Fails (x : EStateM ε σ α) (s : σ) : Prop := ∃ e s', x s = .error e s'

instance : Decidable (Fails x s) :=
  match h : x s with
  | .ok _ _ => .isFalse fun ⟨_, _, he⟩ => by rw [h] at he; cases he
  | .error e s' => .isTrue ⟨e, s', h⟩

instance [∀ a s', Decidable (Q a s')] [∀ e s', Decidable (E e s')] : Decidable (wp x Q E s) :=
  match h : x s with
  | .ok a s' => decidable_of_iff (Q a s') (by unfold wp; rw [h])
  | .error e s' => decidable_of_iff (E e s') (by unfold wp; rw [h])

/-! ## Rules -/

theorem wp_of_eq_ok {a : α} {s' : σ} (h : x s = .ok a s') : wp x Q E s ↔ Q a s' := by
  unfold wp
  rw [h]

theorem wp_of_eq_error {e : ε} {s' : σ} (h : x s = .error e s') : wp x Q E s ↔ E e s' := by
  unfold wp
  rw [h]

@[simp] theorem wp_pure {a : α} : wp (pure a : EStateM ε σ α) Q E s ↔ Q a s := Iff.rfl

@[simp] theorem wp_throw {e : ε} : wp (throw e : EStateM ε σ α) Q E s ↔ E e s := Iff.rfl

@[simp] theorem wp_modify {g : σ → σ} {Q : PUnit → σ → Prop} :
    wp (modify g : EStateM ε σ PUnit) Q E s ↔ Q ⟨⟩ (g s) := Iff.rfl

@[simp] theorem wp_modifyGet {g : σ → α × σ} :
    wp (modifyGet g : EStateM ε σ α) Q E s ↔ Q (g s).1 (g s).2 := Iff.rfl

@[simp] theorem wp_get {Q : σ → σ → Prop} : wp (get : EStateM ε σ σ) Q E s ↔ Q s s := Iff.rfl

@[simp] theorem wp_set {t : σ} {Q : PUnit → σ → Prop} :
    wp (set t : EStateM ε σ PUnit) Q E s ↔ Q ⟨⟩ t := Iff.rfl

@[simp] theorem wp_bind {Q : β → σ → Prop} :
    wp (x >>= f) Q E s ↔ wp x (fun a s' => wp (f a) Q E s') E s := by
  show wp (EStateM.bind x f) Q E s ↔ _
  unfold wp EStateM.bind
  cases x s <;> rfl

@[simp] theorem wp_adapt {g : ε → ε'} {E : ε' → σ → Prop} :
    wp (x.adaptExcept g) Q E s ↔ wp x Q (fun e s' => E (g e) s') s := by
  unfold wp EStateM.adaptExcept
  cases x s <;> rfl

@[simp] theorem wp_attempt {Q : Except ε α → σ → Prop} {E : ε' → σ → Prop} :
    wp (attempt x) Q E s ↔ wp x (fun a s' => Q (.ok a) s') (fun e s' => Q (.error e) s') s := by
  unfold wp attempt
  cases x s <;> rfl

@[simp] theorem wp_zoom {get : τ → σ} {set : σ → τ → τ} {Q : α → τ → Prop} {E : ε → τ → Prop} {t : τ} :
    wp (zoom get set x) Q E t ↔
      wp x (fun a s' => Q a (set s' t)) (fun e s' => E e (set s' t)) (get t) := by
  unfold wp zoom
  cases x (get t) <;> rfl

theorem wp_mono (h : wp x Q E s) (hQ : ∀ a s', Q a s' → Q' a s') (hE : ∀ e s', E e s' → E' e s') :
    wp x Q' E' s := by
  unfold wp at h ⊢
  split
  · rename_i heq
    rw [heq] at h
    exact hQ _ _ h
  · rename_i heq
    rw [heq] at h
    exact hE _ _ h

/-- Whatever the program does. -/
theorem wp_of_forall (hQ : ∀ a s', Q a s') (hE : ∀ e s', E e s') : wp x Q E s := by
  unfold wp
  split
  · exact hQ _ _
  · exact hE _ _

theorem wp_left {P : σ → Prop} (h : wp x (fun _ s' => P s') (fun _ s' => P s') s) : P (left (x s)) := by
  unfold wp at h
  cases heq : x s <;> rw [heq] at h <;> exact h

theorem wp_and (h : wp x Q E s) (h' : wp x Q' E' s) :
    wp x (fun a s' => Q a s' ∧ Q' a s') (fun e s' => E e s' ∧ E' e s') s := by
  unfold wp at h h' ⊢
  cases heq : x s <;> rw [heq] at h h' <;> exact ⟨h, h'⟩

theorem wp_self : wp x (fun a s' => x s = .ok a s') (fun e s' => x s = .error e s') s := by
  unfold wp
  cases x s <;> rfl

theorem not_fails_iff : ¬ Fails x s ↔ wp x (fun _ _ => True) (fun _ _ => False) s := by
  unfold wp Fails
  cases x s <;> simp

/-- What has been shown of the values, of a program that does not fail. -/
theorem wp_of_not_fails (h : ¬ Fails x s) (hQ : wp x Q E s) : wp x Q (fun _ _ => False) s := by
  unfold Fails at h
  unfold wp at hQ ⊢
  split
  · rename_i heq
    rw [heq] at hQ
    exact hQ
  · rename_i heq
    exact h ⟨_, _, heq⟩

theorem wp_fails : wp x (fun _ _ => ¬ Fails x s) (fun _ _ => Fails x s) s := by
  unfold wp Fails
  cases x s <;> simp

theorem wp_forM {γ : Type u} {step : γ → EStateM ε σ PUnit} {I : σ → Prop} {l : List γ} (h : I s)
    (hstep : ∀ s c, c ∈ l → I s → wp (step c) (fun _ s' => I s') E s) :
    wp (l.forM step) (fun _ s' => I s') E s := by
  induction l generalizing s with
  | nil => exact h
  | cons c cs ih =>
    show wp (step c >>= fun _ => cs.forM step) _ _ s
    rw [wp_bind]
    refine wp_mono (hstep s c List.mem_cons_self h) (fun _ s' hI => ?_) fun _ _ he => he
    exact ih hI fun s c hc => hstep s c (List.mem_cons_of_mem _ hc)

/-! ## What a program keeps -/

/-- Whether or not it fails, the program leads from a state only to states that `R` relates to it. -/
def Keeps (R : σ → σ → Prop) (x : EStateM ε σ α) : Prop := ∀ s, R s (left (x s))

namespace Keeps

variable {R : σ → σ → Prop}

theorem wp (h : Keeps R x) (s : σ) : wp x (fun _ s' => R s s') (fun _ s' => R s s') s := by
  have hs := h s
  unfold Fallible.wp
  cases heq : x s <;> rw [heq] at hs <;> exact hs

theorem of_wp (h : ∀ s, Fallible.wp x (fun _ s' => R s s') (fun _ s' => R s s') s) : Keeps R x :=
  fun s => wp_left (h s)

theorem mono {R' : σ → σ → Prop} (h : Keeps R x) (hR : ∀ s s', R s s' → R' s s') : Keeps R' x :=
  fun s => hR _ _ (h s)

theorem adapt {g : ε → ε'} (h : Keeps R x) : Keeps R (x.adaptExcept g) :=
  of_wp fun s => wp_adapt.mpr (h.wp s)

theorem attempt (h : Keeps R x) : Keeps R (attempt x : EStateM ε' σ (Except ε α)) :=
  of_wp fun s => wp_attempt.mpr (h.wp s)

theorem modify {g : σ → σ} (h : ∀ s, R s (g s)) : Keeps R (modify g : EStateM ε σ PUnit) := h

theorem modifyGet {g : σ → α × σ} (h : ∀ s, R s (g s).2) : Keeps R (modifyGet g : EStateM ε σ α) := h

theorem pure [Std.Refl R] (a : α) : Keeps R (pure a : EStateM ε σ α) := Std.Refl.refl

theorem throw [Std.Refl R] (e : ε) : Keeps R (throw e : EStateM ε σ α) := Std.Refl.refl

theorem bind [IsTrans σ R] (hx : Keeps R x) (hf : ∀ a, Keeps R (f a)) : Keeps R (x >>= f) := by
  refine of_wp fun s => wp_bind.mpr (wp_mono (hx.wp s) (fun a s' h => ?_) fun _ _ h => h)
  exact wp_mono ((hf a).wp s') (fun _ _ h' => IsTrans.trans _ _ _ h h') fun _ _ h' =>
    IsTrans.trans _ _ _ h h'

theorem mapM {γ : Type u} [Std.Refl R] [IsTrans σ R] {g : γ → EStateM ε σ α} (h : ∀ c, Keeps R (g c))
    (l : List γ) : Keeps R (l.mapM g) := by
  induction l with
  | nil => exact .pure []
  | cons c cs ih =>
    rw [List.mapM_cons]
    exact (h c).bind fun b => ih.bind fun bs => .pure (b :: bs)

theorem forM {γ : Type u} [Std.Refl R] [IsTrans σ R] {g : γ → EStateM ε σ PUnit} (h : ∀ c, Keeps R (g c))
    (l : List γ) : Keeps R (l.forM g) := by
  induction l with
  | nil => exact .pure _
  | cons c cs ih => exact (h c).bind fun _ => ih

end Keeps

end Fallible
