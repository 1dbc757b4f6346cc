import Mathlib

/-!
# Leases

Keys hold items of a pool, and the pool marks the items that it has handed out. The leases are sound
when each item that is held is marked and no two keys hold the same one. An item that is handed out to
a key while another key holds it breaks them for good (`not_sound_grant`), and so does one that is given
back while it is held (`not_sound_release`).
-/

namespace Leases

variable {κ α : Type*} {held : κ → Option α} {marked marked' : Set α} {k l : κ} {a : α}

structure Sound (held : κ → Option α) (marked : Set α) : Prop where
  mem : ∀ {k a}, held k = some a → a ∈ marked
  unique : ∀ {k l a}, held k = some a → held l = some a → k = l

/-- Nobody holds the item. -/
def Free (held : κ → Option α) (a : α) : Prop := ∀ k, held k ≠ some a

theorem sound_nobody : Sound (fun _ : κ => none) marked :=
  ⟨nofun, nofun⟩

theorem Sound.mono (h : Sound held marked) (hle : marked ⊆ marked') : Sound held marked' :=
  ⟨fun hk => hle (h.mem hk), h.unique⟩

theorem Sound.free_of_notMem (h : Sound held marked) (ha : a ∉ marked) : Free held a :=
  fun _ hk => ha (h.mem hk)

/-- An item that nobody holds may be given back. -/
theorem Sound.release (h : Sound held marked) (hfree : Free held a) : Sound held (marked \ {a}) := by
  refine ⟨fun {k b} hk => ⟨h.mem hk, ?_⟩, h.unique⟩
  rintro rfl
  exact hfree k hk

theorem not_sound_release (hl : held l = some a) : ¬ Sound held (marked \ {a}) :=
  fun h => (h.mem hl).2 rfl

section Update

variable [DecidableEq κ]

theorem Sound.drop (h : Sound held marked) : Sound (Function.update held k none) marked := by
  have hkept : ∀ {l a}, Function.update held k none l = some a → held l = some a := by
    intro l a hl
    rcases eq_or_ne l k with rfl | hne
    · rw [Function.update_self] at hl
      cases hl
    · rwa [Function.update_of_ne hne] at hl
  exact ⟨fun hl => h.mem (hkept hl), fun hl hm => h.unique (hkept hl) (hkept hm)⟩

/-- What a key held is free when the key has been dropped. -/
theorem Sound.free_drop (h : Sound held marked) (hk : held k = some a) :
    Free (Function.update held k none) a := by
  intro l hl
  rcases eq_or_ne l k with rfl | hne
  · rw [Function.update_self] at hl
    cases hl
  · rw [Function.update_of_ne hne] at hl
    exact hne (h.unique hl hk)

/-- A marked item that nobody else holds may be handed out. -/
theorem Sound.grant (h : Sound held marked) (hfree : ∀ l ≠ k, held l ≠ some a) (ha : a ∈ marked) :
    Sound (Function.update held k (some a)) marked := by
  have hcases : ∀ {l b}, Function.update held k (some a) l = some b →
      (l = k ∧ b = a) ∨ (l ≠ k ∧ held l = some b) := by
    intro l b hl
    rcases eq_or_ne l k with rfl | hne
    · rw [Function.update_self] at hl
      exact .inl ⟨rfl, (Option.some.inj hl).symm⟩
    · rw [Function.update_of_ne hne] at hl
      exact .inr ⟨hne, hl⟩
  constructor
  · intro l b hl
    obtain ⟨-, rfl⟩ | ⟨-, hl⟩ := hcases hl
    · exact ha
    · exact h.mem hl
  · intro l m b hl hm
    obtain ⟨hlk, hb⟩ | ⟨hlk, hl'⟩ := hcases hl
    · obtain ⟨hmk, -⟩ | ⟨hmk, hm'⟩ := hcases hm
      · rw [hlk, hmk]
      · exact absurd (hb ▸ hm') (hfree m hmk)
    · obtain ⟨-, hb⟩ | ⟨-, hm'⟩ := hcases hm
      · exact absurd (hb ▸ hl') (hfree l hlk)
      · exact h.unique hl' hm'

theorem not_sound_grant (hl : held l = some a) (hne : l ≠ k) :
    ¬ Sound (Function.update held k (some a)) marked :=
  fun h => hne (h.unique (by rw [Function.update_of_ne hne]; exact hl) (Function.update_self ..))

end Update

end Leases
