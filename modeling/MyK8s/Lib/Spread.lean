import Mathlib

/-!
# Spread

How far apart the loads of a collection of places are. One more on a place that has the least does not
drive them apart (`spread_raise_le`).
-/

namespace Spread

/-- The difference between the largest and the smallest number. -/
def spread (xs : List ℕ) : ℕ := xs.max?.getD 0 - xs.min?.getD 0

theorem spread_le_iff {xs : List ℕ} {d : ℕ} :
    spread xs ≤ d ↔ ∀ a ∈ xs, ∀ b ∈ xs, a ≤ b + d := by
  cases hmax : xs.max? with
  | none =>
    obtain rfl := List.max?_eq_none_iff.mp hmax
    simp [spread]
  | some hi =>
    obtain ⟨hhi, hle⟩ := List.max?_eq_some_iff.mp hmax
    cases hmin : xs.min? with
    | none =>
      obtain rfl := List.min?_eq_none_iff.mp hmin
      cases hhi
    | some lo =>
      obtain ⟨hlo, hge⟩ := List.min?_eq_some_iff.mp hmin
      have hspread : spread xs = hi - lo := by rw [spread, hmax, hmin]; rfl
      rw [hspread]
      constructor
      · intro h a ha b hb
        have hahi := hle a ha
        have hlob := hge b hb
        omega
      · intro h
        have hends := h hi hhi lo hlo
        omega

theorem le_add_spread {xs : List ℕ} {a b : ℕ} (ha : a ∈ xs) (hb : b ∈ xs) : a ≤ b + spread xs :=
  spread_le_iff.mp le_rfl a ha b hb

/-- **One more** where there is the least. -/
theorem spread_raise_le {ι : Type} {places : List ι} {f g : ι → ℕ} {c : ι}
    (hleast : ∀ p ∈ places, f c ≤ f p) (hgrow : ∀ p ∈ places, f p ≤ g p)
    (hraise : ∀ p ∈ places, g p ≤ f p ∨ g p ≤ f c + 1) :
    spread (places.map g) ≤ max 1 (spread (places.map f)) := by
  rw [spread_le_iff, List.forall_mem_map]
  intro p hp
  rw [List.forall_mem_map]
  intro q hq
  have hbefore : f p ≤ f q + spread (places.map f) :=
    le_add_spread (List.mem_map_of_mem hp) (List.mem_map_of_mem hq)
  have hq' := hgrow q hq
  rcases hraise p hp with hsame | hone
  · omega
  · have hcq := hleast q hq
    omega

/-- The order of the places does not matter. -/
theorem spread_eq_of_perm {xs ys : List ℕ} (h : xs.Perm ys) : spread xs = spread ys := by
  have hle : ∀ {xs ys : List ℕ}, xs.Perm ys → spread xs ≤ spread ys := fun hperm =>
    spread_le_iff.mpr fun _ ha _ hb => le_add_spread (hperm.mem_iff.mp ha) (hperm.mem_iff.mp hb)
  exact le_antisymm (hle h) (hle h.symm)

end Spread
