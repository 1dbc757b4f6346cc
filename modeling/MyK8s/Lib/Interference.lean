import MyK8s.Lib.Process

/-!
# A process among others

What a process comes to while others write. They do as they like within a relation between the store before
and after (`rely`), before each access of the process and after the last one. A write of its own may be
refused, and its answer may be lost.

`Proc.establishes` is the rule for processes that can fail: what holds of the store if they do not.
-/

namespace Process

universe u

/-- What becomes of a write: it is done and answered, it is refused, or it is done and its answer is lost. -/
inductive Fate
  | answered
  | refused
  | lost

/-- What the writes of a process do: the answer and the store after a write, and the answer to one that is
refused or whose answer is lost. After one that comes to what is `ignored`, where it comes to it, nothing is
promised. -/
structure Setting (σ W : Type u) (R : W → Type u) (ε : Type u) where
  exec : (w : W) → σ → R w × σ
  refuse : ε → (w : W) → R w
  ignored : W → Fate → σ → Prop

namespace Proc

variable {σ W : Type u} {R : W → Type u} {α β ε ε' : Type u}

/-- Whatever the others do within `rely`, `Q` holds of the store and of what the process returns. -/
def under (S : Setting σ W R ε) (rely : σ → σ → Prop) (Q : σ → α → Prop) : Proc σ W R α → σ → Prop
  | .ret a, s => ∀ s', rely s s' → Q s' a
  | .read next, s => ∀ s', rely s s' → under S rely Q (next s') s'
  | .write w next, s => ∀ s', rely s s' →
      (¬ S.ignored w .answered s' → under S rely Q (next (S.exec w s').1) (S.exec w s').2) ∧
      ∀ e, (¬ S.ignored w .refused s' → under S rely Q (next (S.refuse e w)) s') ∧
        (¬ S.ignored w .lost s' → under S rely Q (next (S.refuse e w)) (S.exec w s').2)

variable {S : Setting σ W R ε} {rely : σ → σ → Prop} {Q Q' : σ → α → Prop} {s s' : σ}

/-- What the others do does not matter. -/
theorem under_rely [IsTrans σ rely] {x : Proc σ W R α} (h : under S rely Q x s) (hs : rely s s') :
    under S rely Q x s' := by
  cases x with
  | ret a => exact fun t ht => h t (IsTrans.trans _ _ _ hs ht)
  | read next => exact fun t ht => h t (IsTrans.trans _ _ _ hs ht)
  | write w next => exact fun t ht => h t (IsTrans.trans _ _ _ hs ht)

theorem under_mono {x : Proc σ W R α} (hQ : ∀ s a, Q s a → Q' s a) (h : under S rely Q x s) :
    under S rely Q' x s := by
  induction x generalizing s with
  | ret a => exact fun t ht => hQ t a (h t ht)
  | read next ih => exact fun t ht => ih t (h t ht)
  | write w next ih =>
    intro t ht
    obtain ⟨hdone, hfail⟩ := h t ht
    exact ⟨fun hw => ih _ (hdone hw), fun e => ⟨fun hw => ih _ ((hfail e).1 hw), fun hw => ih _ ((hfail e).2 hw)⟩⟩

/-- One process after the other. -/
theorem under_bind [Std.Refl rely] {x : Proc σ W R α} {f : α → Proc σ W R β} {Q : σ → β → Prop}
    (h : under S rely (fun s a => under S rely Q (f a) s) x s) : under S rely Q (x >>= f) s := by
  change under S rely Q (x.bind f) s
  induction x generalizing s with
  | ret a => exact h s (Std.Refl.refl s)
  | read next ih => exact fun t ht => ih t (h t ht)
  | write w next ih =>
    intro t ht
    obtain ⟨hdone, hfail⟩ := h t ht
    exact ⟨fun hw => ih _ (hdone hw), fun e => ⟨fun hw => ih _ ((hfail e).1 hw), fun hw => ih _ ((hfail e).2 hw)⟩⟩

/-- What is made of the result of a process. -/
theorem under_map {x : Proc σ W R α} {f : α → β} {Q : σ → β → Prop}
    (h : under S rely (fun s a => Q s (f a)) x s) : under S rely Q (x >>= fun a => pure (f a)) s := by
  change under S rely Q (x.bind fun a => .ret (f a)) s
  induction x generalizing s with
  | ret a => exact h
  | read next ih => exact fun t ht => ih t (h t ht)
  | write w next ih =>
    intro t ht
    obtain ⟨hdone, hfail⟩ := h t ht
    exact ⟨fun hw => ih _ (hdone hw), fun e => ⟨fun hw => ih _ ((hfail e).1 hw), fun hw => ih _ ((hfail e).2 hw)⟩⟩

/-! ## Processes that can fail -/

/-- Whatever the others do within `rely`, `Q` holds of the store and of what the process returns if it does
not fail. -/
def establishes (S : Setting σ W R ε) (rely : σ → σ → Prop) (Q : σ → α → Prop)
    (x : ExceptT ε' (Proc σ W R) α) (s : σ) : Prop :=
  under S rely (fun s r => ∀ a, r = .ok a → Q s a) x.run s

section Failing

variable {x : ExceptT ε' (Proc σ W R) α}

theorem establishes_pure [IsTrans σ rely] {a : α} (h : ∀ s', rely s s' → Q s' a) :
    establishes S rely Q (pure a : ExceptT ε' (Proc σ W R) α) s := by
  rintro s' hs a' ⟨⟩
  exact h s' hs

theorem establishes_throw {e : ε'} :
    establishes S rely Q (throw e : ExceptT ε' (Proc σ W R) α) s := by
  rintro s' - a' ⟨⟩

theorem establishes_bind [Std.Refl rely] {f : α → ExceptT ε' (Proc σ W R) β} {Q : σ → β → Prop}
    (h : establishes S rely (fun s a => establishes S rely Q (f a) s) x s) :
    establishes S rely Q (x >>= f) s := by
  unfold establishes at h ⊢
  rw [ExceptT.run_bind]
  refine under_bind (under_mono (fun t r hr => ?_) h)
  cases r with
  | ok a => exact hr a rfl
  | error e =>
    rintro t' - a ⟨⟩

theorem establishes_mono (hQ : ∀ s a, Q s a → Q' s a) (h : establishes S rely Q x s) :
    establishes S rely Q' x s := under_mono (fun s _ hr a ha => hQ s a (hr a ha)) h

end Failing

end Proc

end Process
