import MyK8s.Lib.Fallible

/-!
# Programs that take notes

A program over a state may write notes beside it, which nothing reads. Without its notes it is the program
that it was before they were added (`Erases`), so what the notes say of a run holds of the run of that
program. The notes that have been written stay, whether or not the program fails.
-/

namespace Fallible

universe u

variable {ε σ ν α β : Type u}

/-- A program that writes no notes. -/
def quietly (x : EStateM ε σ α) : EStateM ε (σ × List ν) α := zoom Prod.fst (fun s t => (s, t.2)) x

def note (n : ν) : EStateM ε (σ × List ν) PUnit := modify fun t => (t.1, t.2 ++ [n])

@[simp] theorem wp_quietly {x : EStateM ε σ α} {Q : α → σ × List ν → Prop} {E : ε → σ × List ν → Prop}
    {t : σ × List ν} :
    wp (quietly x) Q E t ↔ wp x (fun a s => Q a (s, t.2)) (fun e s => E e (s, t.2)) t.1 := wp_zoom

@[simp] theorem wp_note {n : ν} {Q : PUnit → σ × List ν → Prop} {E : ε → σ × List ν → Prop}
    {t : σ × List ν} : wp (note n) Q E t ↔ Q ⟨⟩ (t.1, t.2 ++ [n]) := Iff.rfl

/-- The result without the notes. -/
def forget : EStateM.Result ε (σ × List ν) α → EStateM.Result ε σ α
  | .ok a t => .ok a t.1
  | .error e t => .error e t.1

theorem left_forget (r : EStateM.Result ε (σ × List ν) α) : left (forget r) = (left r).1 := by
  cases r <;> rfl

/-- The first program is the second one with notes. -/
def Erases (x : EStateM ε (σ × List ν) α) (y : EStateM ε σ α) : Prop := ∀ t, forget (x t) = y t.1

namespace Erases

variable {x : EStateM ε (σ × List ν) α} {y : EStateM ε σ α}

theorem left (h : Erases x y) (t : σ × List ν) : (Fallible.left (x t)).1 = Fallible.left (y t.1) := by
  rw [← h t, left_forget]

theorem quietly (y : EStateM ε σ α) : Erases (quietly y : EStateM ε (σ × List ν) α) y := by
  intro t
  show forget (zoom _ _ y t) = y t.1
  unfold zoom
  cases y t.1 <;> rfl

theorem pure (a : α) : Erases (pure a : EStateM ε (σ × List ν) α) (pure a) := fun _ => rfl

theorem bind {f : α → EStateM ε (σ × List ν) β} {g : α → EStateM ε σ β} (h : Erases x y)
    (hf : ∀ a, Erases (f a) (g a)) : Erases (x >>= f) (y >>= g) := by
  intro t
  have ht := h t
  show forget (EStateM.bind x f t) = EStateM.bind y g t.1
  unfold EStateM.bind
  cases hx : x t with
  | ok a t' =>
    rw [hx] at ht
    rw [← ht]
    exact hf a t'
  | error e t' =>
    rw [hx] at ht
    rw [← ht]
    rfl

/-- A note changes nothing. -/
theorem note_bind (n : ν) {f : PUnit → EStateM ε (σ × List ν) β} {z : EStateM ε σ β}
    (hf : Erases (f ⟨⟩) z) : Erases (note n >>= f) z :=
  fun t => hf (t.1, t.2 ++ [n])

theorem forM {γ : Type u} {f : γ → EStateM ε (σ × List ν) PUnit} {g : γ → EStateM ε σ PUnit}
    (h : ∀ c, Erases (f c) (g c)) (l : List γ) : Erases (l.forM f) (l.forM g) := by
  induction l with
  | nil => exact .pure _
  | cons c cs ih => exact (h c).bind fun _ => ih

end Erases

end Fallible
