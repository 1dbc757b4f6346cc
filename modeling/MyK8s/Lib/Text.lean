import Mathlib

/-!
# Text that is taken apart

`str::split_once`, for a separator of any length: what is before its first occurrence in the text and
what is after it.
-/

namespace Text

/-- Of a text given as its characters. -/
def splitChars (sep : List Char) : List Char → Option (List Char × List Char)
  | [] => if sep = [] then some ([], []) else none
  | c :: cs =>
    if sep <+: c :: cs then some ([], (c :: cs).drop sep.length)
    else (splitChars sep cs).map fun parts => (c :: parts.1, parts.2)

def splitOnce (sep s : String) : Option (String × String) :=
  (splitChars sep.toList s.toList).map fun parts => (String.ofList parts.1, String.ofList parts.2)

theorem eq_of_splitChars {sep cs before after : List Char}
    (h : splitChars sep cs = some (before, after)) : cs = before ++ sep ++ after := by
  induction cs generalizing before with
  | nil =>
    unfold splitChars at h
    split at h
    · rename_i hsep
      cases h
      simp [hsep]
    · cases h
  | cons c cs ih =>
    unfold splitChars at h
    split at h
    · rename_i hsep
      obtain ⟨rest, hrest⟩ := hsep
      rw [← hrest, List.drop_left] at h
      cases h
      simp [hrest]
    · obtain ⟨parts, hparts, heq⟩ := Option.map_eq_some_iff.mp h
      cases heq
      rw [ih hparts]
      simp

/-- The parts give the text back. -/
theorem eq_of_splitOnce {sep s before after : String} (h : splitOnce sep s = some (before, after)) :
    s = before ++ sep ++ after := by
  obtain ⟨parts, hparts, heq⟩ := Option.map_eq_some_iff.mp h
  cases heq
  refine String.toList_injective ?_
  rw [eq_of_splitChars hparts]
  simp

theorem isSome_splitChars (sep before after : List Char) :
    (splitChars sep (before ++ sep ++ after)).isSome := by
  induction before with
  | nil =>
    cases hcs : sep ++ after with
    | nil =>
      obtain ⟨rfl, rfl⟩ := List.append_eq_nil_iff.mp hcs
      rfl
    | cons c cs =>
      rw [List.nil_append, hcs]
      unfold splitChars
      rw [if_pos (hcs ▸ List.prefix_append sep after)]
      rfl
  | cons c before ih =>
    show (splitChars sep (c :: (before ++ sep ++ after))).isSome
    unfold splitChars
    split
    · rfl
    · rwa [Option.isSome_map]

/-- A text with the separator in it is taken apart. -/
theorem isSome_splitOnce (sep before after : String) :
    (splitOnce sep (before ++ sep ++ after)).isSome := by
  unfold splitOnce
  rw [Option.isSome_map, String.toList_append, String.toList_append]
  exact isSome_splitChars ..

theorem splitChars_sep_append {sep : List Char} (hsep : sep ≠ []) (after : List Char) :
    splitChars sep (sep ++ after) = some ([], after) := by
  obtain ⟨c, cs, rfl⟩ := List.exists_cons_of_ne_nil hsep
  have hprefix : c :: cs <+: c :: (cs ++ after) := List.prefix_append (c :: cs) after
  rw [List.cons_append, splitChars, if_pos hprefix]
  simp

/-- A text is taken apart where it was put together, unless the separator is in it already before the
last character of this one. -/
theorem splitChars_append_iff {sep before after : List Char} (hsep : sep ≠ []) :
    splitChars sep (before ++ sep ++ after) = some (before, after) ↔
      ¬ sep <:+: before ++ sep.dropLast := by
  have hshort : sep.dropLast.length < sep.length := by
    have hpos := List.length_pos_iff.mpr hsep
    rw [List.length_dropLast]
    omega
  induction before with
  | nil => exact iff_of_true (splitChars_sep_append hsep after) fun h => absurd h.length_le (by simpa using hshort)
  | cons c before ih =>
    -- an occurrence that starts here is over before the last character of the separator
    have hhere : sep <+: c :: (before ++ sep ++ after) ↔ sep <+: c :: (before ++ sep.dropLast) := by
      have hlong : c :: (before ++ sep.dropLast) <+: c :: (before ++ sep ++ after) := by
        rw [List.append_assoc]
        refine List.cons_prefix_cons.mpr ⟨rfl, (List.prefix_append_right_inj before).mpr ?_⟩
        exact (List.dropLast_prefix sep).trans (List.prefix_append sep after)
      refine ⟨fun h => List.prefix_of_prefix_length_le h hlong ?_, fun h => h.trans hlong⟩
      simp only [List.length_cons, List.length_append, List.length_dropLast]
      omega
    simp only [List.cons_append, splitChars, List.infix_cons_iff, not_or, hhere]
    split
    · rename_i h
      simp [h]
    · rename_i h
      rw [Option.map_eq_some_iff]
      constructor
      · rintro ⟨⟨before', after'⟩, hsplit, heq⟩
        cases heq
        exact ⟨h, ih.mp hsplit⟩
      · exact fun hno => ⟨(before, after), ih.mpr hno.2, rfl⟩

theorem splitOnce_append_iff {sep before after : String} (hsep : sep ≠ "") :
    splitOnce sep (before ++ sep ++ after) = some (before, after) ↔
      ¬ sep.toList <:+: before.toList ++ sep.toList.dropLast := by
  have hne : sep.toList ≠ [] := fun h => hsep (String.toList_injective h)
  have hchars := @splitChars_append_iff sep.toList before.toList after.toList hne
  rw [← hchars, splitOnce, String.toList_append,
    String.toList_append, Option.map_eq_some_iff]
  constructor
  · rintro ⟨⟨before', after'⟩, hsplit, heq⟩
    cases heq
    simpa using hsplit
  · exact fun hsplit => ⟨_, hsplit, by simp⟩

example : splitOnce "__" "web__app__1" = some ("web", "app__1") := by decide

end Text
