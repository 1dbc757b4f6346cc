import Mathlib

/-!
# Chains of rules

A table of chains in the manner of netfilter. A packet walks down the rules of a chain: the first one
that applies to it and that ends the walk decides, a jump walks another chain and comes back if
nothing there has decided, and a rule may apply by chance. `walk` gives the outcomes with their
weights.

Tables are changed by commands. A program that flushes a chain leaves in it what the program says,
whatever was there before (`foldl_on_of_flush`).
-/

namespace Chains

variable {κ μ δ π : Type}

/-- What a rule does with a packet: it goes on in another chain, is sent elsewhere, or is marked and
goes on. -/
inductive Target (κ δ : Type)
  | jump (chain : κ)
  | translate (dest : δ)
  | mark
  deriving DecidableEq

/-- A rule for the packets that match, and for a part of them if it has a chance. -/
structure Rule (κ μ δ : Type) where
  guard : μ
  chance : Option ℚ
  target : Target κ δ
  deriving DecidableEq

abbrev Table (κ μ δ : Type) := κ → Option (List (Rule κ μ δ))

/-! ## Walks -/

/-- The outcomes of a walk with their weights: where the packet is sent, if anywhere. -/
abbrev Outcomes (δ : Type) := List (ℚ × Option δ)

namespace Outcomes

def scale (p : ℚ) (os : Outcomes δ) : Outcomes δ := os.map fun o => (p * o.1, o.2)

/-- What has not been decided goes on. -/
def andThen (os rest : Outcomes δ) : Outcomes δ :=
  os.flatMap fun o => match o.2 with
    | some d => [(o.1, some d)]
    | none => rest.scale o.1

@[simp] theorem scale_one (os : Outcomes δ) : os.scale 1 = os := by
  simp [scale]

@[simp] theorem scale_scale (p q : ℚ) (os : Outcomes δ) : (os.scale q).scale p = os.scale (p * q) := by
  simp [scale, mul_assoc]

@[simp] theorem undecided_andThen (rest : Outcomes δ) :
    Outcomes.andThen [(1, none)] rest = rest := by
  simp [andThen]

/-- All has been decided. -/
theorem andThen_of_decided {os : Outcomes δ} (h : ∀ o ∈ os, o.2.isSome) (rest : Outcomes δ) :
    os.andThen rest = os := by
  induction os with
  | nil => rfl
  | cons o os ih =>
    have htail := ih fun o' ho' => h o' (List.mem_cons_of_mem o ho')
    obtain ⟨w, dest⟩ := o
    cases dest with
    | none => cases h (w, none) List.mem_cons_self
    | some d =>
      unfold andThen at htail ⊢
      rw [List.flatMap_cons, htail]
      rfl

end Outcomes

section Walk

variable (holds : μ → π → Bool) (packet : π)

/-- Down the rules, by what the chains that they jump to make of the packet. -/
def walkRules (chain : κ → Outcomes δ) : List (Rule κ μ δ) → Outcomes δ
  | [] => [(1, none)]
  | r :: rs =>
    let rest := walkRules chain rs
    if holds r.guard packet then
      let hit := match r.target with
        | .jump c => (chain c).andThen rest
        | .translate d => [(1, some d)]
        | .mark => rest
      match r.chance with
      | some p => hit.scale p ++ rest.scale (1 - p)
      | none => hit
    else rest

/-- A walk of a chain, with jumps at most so deep. One that goes deeper has no outcome. -/
def walk (t : Table κ μ δ) : ℕ → κ → Outcomes δ
  | 0, _ => []
  | depth + 1, c => walkRules holds packet (walk t depth) ((t c).getD [])

variable {holds packet} {chain : κ → Outcomes δ}

theorem walkRules_cons_of_not {r : Rule κ μ δ} (rs : List (Rule κ μ δ))
    (h : holds r.guard packet = false) :
    walkRules holds packet chain (r :: rs) = walkRules holds packet chain rs := by
  simp [walkRules, h]

/-- Marks decide nothing. -/
theorem walkRules_marks {rs : List (Rule κ μ δ)}
    (h : ∀ r ∈ rs, r.chance = none ∧ r.target = .mark) :
    walkRules holds packet chain rs = [(1, none)] := by
  induction rs with
  | nil => rfl
  | cons r rs ih =>
    have hrest := ih fun r' hr' => h r' (List.mem_cons_of_mem r hr')
    obtain ⟨hchance, htarget⟩ := h r List.mem_cons_self
    simp [walkRules, hchance, htarget, hrest]

theorem walkRules_of_forall_not {rs : List (Rule κ μ δ)}
    (h : ∀ r ∈ rs, holds r.guard packet = false) :
    walkRules holds packet chain rs = [(1, none)] := by
  induction rs with
  | nil => rfl
  | cons r rs ih =>
    rw [walkRules_cons_of_not rs (h r List.mem_cons_self)]
    exact ih fun r' hr' => h r' (List.mem_cons_of_mem r hr')

/-- A jump, with the rules before it that are not for the packet. -/
theorem walkRules_append_jump {before after : List (Rule κ μ δ)} {r : Rule κ μ δ} {c : κ}
    (hbefore : ∀ r' ∈ before, holds r'.guard packet = false) (hr : holds r.guard packet = true)
    (hchance : r.chance = none) (htarget : r.target = .jump c) :
    walkRules holds packet chain (before ++ r :: after) =
      (chain c).andThen (walkRules holds packet chain after) := by
  induction before with
  | nil => simp [walkRules, hr, hchance, htarget]
  | cons r' before ih =>
    rw [List.cons_append, walkRules_cons_of_not _ (hbefore r' List.mem_cons_self)]
    exact ih fun r hr => hbefore r (List.mem_cons_of_mem r' hr)

/-- The rules see of the other chains only those that they jump to. -/
theorem walkRules_congr {chain' : κ → Outcomes δ} {rs : List (Rule κ μ δ)}
    (h : ∀ r ∈ rs, ∀ c, r.target = .jump c → chain c = chain' c) :
    walkRules holds packet chain rs = walkRules holds packet chain' rs := by
  induction rs with
  | nil => rfl
  | cons r rs ih =>
    have hrest := ih fun r' hr' => h r' (List.mem_cons_of_mem r hr')
    have hr := h r List.mem_cons_self
    unfold walkRules
    cases htarget : r.target with
    | jump c => simp only [hrest, hr c htarget]
    | translate d => simp only [hrest]
    | mark => simp only [hrest]

/-- A jump to a chain that lets the packet pass does nothing. -/
theorem walkRules_filter_ne [DecidableEq (Rule κ μ δ)] {r : Rule κ μ δ} {c : κ} (hchance : r.chance = none)
    (htarget : r.target = .jump c) (hpass : chain c = [(1, none)]) (rs : List (Rule κ μ δ)) :
    walkRules holds packet chain (rs.filter (· ≠ r)) = walkRules holds packet chain rs := by
  induction rs with
  | nil => rfl
  | cons r' rs ih =>
    by_cases heq : r' = r
    · subst heq
      rw [List.filter_cons_of_neg (by simp), ih]
      simp [walkRules, htarget, hchance, hpass]
    · rw [List.filter_cons_of_pos (by simpa using heq)]
      simp only [walkRules, ih]

end Walk

/-! ## Commands -/

inductive Command (κ μ δ : Type)
  | create (chain : κ)
  | flush (chain : κ)
  | append (chain : κ) (rule : Rule κ μ δ)
  deriving DecidableEq

def Target.chains : Target κ δ → List κ
  | jump c => [c]
  | _ => []

namespace Command

/-- The chains that must be there. That a chain to be created is there already is tolerated. -/
def needs : Command κ μ δ → List κ
  | create _ => []
  | flush c => [c]
  | append c r => c :: r.target.chains

/-- The chain that the command is about. -/
def chain : Command κ μ δ → κ
  | create c => c
  | flush c => c
  | append c _ => c

/-- The chain whose rules are changed, if any. -/
def changes : Command κ μ δ → Option κ
  | create _ => none
  | flush c => some c
  | append c _ => some c

variable [DecidableEq κ]

/-- What a command makes of the rules of a chain. -/
def on (c : κ) (rs : List (Rule κ μ δ)) : Command κ μ δ → List (Rule κ μ δ)
  | create _ => rs
  | flush c' => if c' = c then [] else rs
  | append c' r => if c' = c then rs ++ [r] else rs

end Command

namespace Table

def rules (t : Table κ μ δ) (c : κ) : List (Rule κ μ δ) := (t c).getD []

variable [DecidableEq κ]

/-- A command fails if a chain that it needs is not there. -/
def exec (t : Table κ μ δ) (cmd : Command κ μ δ) : Option (Table κ μ δ) :=
  if cmd.needs.all fun c => (t c).isSome then
    some (match cmd with
      | .create c => Function.update t c (some (t.rules c))
      | .flush c => Function.update t c (some [])
      | .append c r => Function.update t c (some (t.rules c ++ [r])))
  else none

/-- All commands, until one fails. -/
def apply (t : Table κ μ δ) (cmds : List (Command κ μ δ)) : Option (Table κ μ δ) :=
  cmds.foldlM exec t

variable {t t' : Table κ μ δ} {cmd : Command κ μ δ} {cmds : List (Command κ μ δ)}

theorem rules_exec (h : t.exec cmd = some t') (c : κ) : t'.rules c = cmd.on c (t.rules c) := by
  unfold exec at h
  split at h
  · obtain rfl := Option.some.inj h
    cases cmd with
    | create c' =>
      by_cases hc : c = c'
      · subst hc
        simp [rules, Command.on]
      · simp [rules, Command.on, hc]
    | flush c' =>
      by_cases hc : c = c'
      · subst hc
        simp [rules, Command.on]
      · simp [rules, Command.on, hc, Ne.symm hc]
    | append c' r =>
      by_cases hc : c = c'
      · subst hc
        simp [rules, Command.on]
      · simp [rules, Command.on, hc, Ne.symm hc]
  · cases h

/-- No command takes a chain away. -/
theorem isSome_exec (h : t.exec cmd = some t') (c : κ) :
    (t' c).isSome ↔ (t c).isSome ∨ cmd = .create c := by
  unfold exec at h
  split at h
  · rename_i hneeds
    obtain rfl := Option.some.inj h
    cases cmd with
    | create c' =>
      by_cases hc : c = c'
      · subst hc
        simp
      · simp [hc, Ne.symm hc]
    | flush c' =>
      by_cases hc : c = c'
      · subst hc
        simpa [Command.needs] using hneeds
      · simp [hc]
    | append c' r =>
      by_cases hc : c = c'
      · subst hc
        simp only [Command.needs, List.all_cons, Bool.and_eq_true] at hneeds
        simp [hneeds.1]
      · simp [hc]
  · cases h

/-- **The rules of a chain** after a program are what its commands make of them. -/
theorem rules_apply (h : t.apply cmds = some t') (c : κ) :
    t'.rules c = cmds.foldl (Command.on c) (t.rules c) := by
  induction cmds generalizing t with
  | nil =>
    obtain rfl := Option.some.inj h
    rfl
  | cons cmd cmds ih =>
    obtain ⟨u, hu, hrest⟩ := Option.bind_eq_some_iff.mp h
    rw [ih hrest, rules_exec hu, List.foldl_cons]

theorem isSome_apply (h : t.apply cmds = some t') (c : κ) :
    (t' c).isSome ↔ (t c).isSome ∨ .create c ∈ cmds := by
  induction cmds generalizing t with
  | nil =>
    obtain rfl := Option.some.inj h
    simp
  | cons cmd cmds ih =>
    obtain ⟨u, hu, hrest⟩ := Option.bind_eq_some_iff.mp h
    rw [ih hrest, isSome_exec hu, List.mem_cons, or_assoc, @eq_comm _ cmd]

end Table

/-! ## Programs -/

section Programs

variable {cmds cmds' : List (Command κ μ δ)} {known known' : κ → Prop} {c : κ}

/-- Each command finds what it needs among the chains known at first and those created before it. -/
def CreatedFirst (known : κ → Prop) : List (Command κ μ δ) → Prop
  | [] => True
  | cmd :: cmds => (∀ c ∈ cmd.needs, known c) ∧
    CreatedFirst (fun c => known c ∨ cmd = .create c) cmds

theorem CreatedFirst.mono (h : CreatedFirst known cmds) (hsub : ∀ c, known c → known' c) :
    CreatedFirst known' cmds := by
  induction cmds generalizing known known' with
  | nil => trivial
  | cons cmd cmds ih =>
    exact ⟨fun c hc => hsub c (h.1 c hc), ih h.2 fun c hc => hc.imp_left (hsub c)⟩

theorem CreatedFirst.append (h : CreatedFirst known cmds)
    (h' : CreatedFirst (fun c => known c ∨ .create c ∈ cmds) cmds') :
    CreatedFirst known (cmds ++ cmds') := by
  induction cmds generalizing known with
  | nil => exact h'.mono fun c hc => hc.resolve_right List.not_mem_nil
  | cons cmd cmds ih =>
    refine ⟨h.1, ih h.2 (h'.mono fun c hc => ?_)⟩
    rcases hc with hc | hc
    · exact .inl (.inl hc)
    · exact (List.mem_cons.mp hc).imp (fun heq => .inr heq.symm) id

/-- What a rule jumps to is known or created. -/
theorem CreatedFirst.of_append {r : Rule κ μ δ} {d : κ} (h : CreatedFirst known cmds)
    (hr : .append c r ∈ cmds) (hd : d ∈ r.target.chains) : known d ∨ .create d ∈ cmds := by
  induction cmds generalizing known with
  | nil => cases hr
  | cons cmd cmds ih =>
    rcases List.mem_cons.mp hr with rfl | hr
    · exact .inl (h.1 d (List.mem_cons_of_mem c hd))
    · rcases ih h.2 hr with (hk | rfl) | hk
      · exact .inl hk
      · exact .inr List.mem_cons_self
      · exact .inr (List.mem_cons_of_mem cmd hk)

theorem CreatedFirst.flatMap {α : Type} {xs : List α} {f : α → List (Command κ μ δ)}
    (h : ∀ x ∈ xs, CreatedFirst known (f x)) : CreatedFirst known (xs.flatMap f) := by
  induction xs with
  | nil => trivial
  | cons x xs ih =>
    rw [List.flatMap_cons]
    refine (h x List.mem_cons_self).append ?_
    exact (ih fun y hy => h y (List.mem_cons_of_mem x hy)).mono fun c hc => .inl hc

variable [DecidableEq κ]

/-- **A program that creates its chains first** goes through. -/
theorem CreatedFirst.apply {t : Table κ μ δ} (h : CreatedFirst (fun c => (t c).isSome) cmds) :
    ∃ t', t.apply cmds = some t' := by
  induction cmds generalizing t with
  | nil => exact ⟨t, rfl⟩
  | cons cmd cmds ih =>
    have hexec : ∃ u, t.exec cmd = some u := by
      unfold Table.exec
      rw [if_pos (List.all_eq_true.mpr h.1)]
      exact ⟨_, rfl⟩
    obtain ⟨u, hu⟩ := hexec
    obtain ⟨t', ht'⟩ := ih (h.2.mono fun c hc => (Table.isSome_exec hu c).mpr hc)
    exact ⟨t', Option.bind_eq_some_iff.mpr ⟨u, hu, ht'⟩⟩

/-- What a flush leaves does not depend on what was there. -/
theorem foldl_on_of_flush (h : .flush c ∈ cmds) (rs rs' : List (Rule κ μ δ)) :
    cmds.foldl (Command.on c) rs = cmds.foldl (Command.on c) rs' := by
  induction cmds generalizing rs rs' with
  | nil => cases h
  | cons cmd cmds ih =>
    rcases List.mem_cons.mp h with rfl | h
    · simp [Command.on]
    · exact ih h _ _

theorem mem_of_mem_foldl_on {r : Rule κ μ δ} {rs : List (Rule κ μ δ)}
    (h : r ∈ cmds.foldl (Command.on c) rs) : r ∈ rs ∨ .append c r ∈ cmds := by
  induction cmds generalizing rs with
  | nil => exact .inl h
  | cons cmd cmds ih =>
    rcases ih h with hr | hr
    · cases cmd with
      | create c' => exact .inl hr
      | flush c' =>
        simp only [Command.on] at hr
        split at hr
        · cases hr
        · exact .inl hr
      | append c' r' =>
        simp only [Command.on] at hr
        split at hr
        · rename_i hc
          subst hc
          rcases List.mem_append.mp hr with hr | hr
          · exact .inl hr
          · rw [List.mem_singleton.mp hr]
            exact .inr List.mem_cons_self
        · exact .inl hr
    · exact .inr (List.mem_cons_of_mem cmd hr)

/-- The program appends these rules to the chain. -/
def Appends (c : κ) (new : List (Rule κ μ δ)) (cmds : List (Command κ μ δ)) : Prop :=
  ∀ rs, cmds.foldl (Command.on c) rs = rs ++ new

/-- The program leaves these rules in the chain, whatever is there. -/
def Rebuilds (c : κ) (new : List (Rule κ μ δ)) (cmds : List (Command κ μ δ)) : Prop :=
  ∀ rs, cmds.foldl (Command.on c) rs = new

variable {new new' : List (Rule κ μ δ)}

theorem appends_nil (h : ∀ cmd ∈ cmds, cmd.changes ≠ some c) : Appends c [] cmds := by
  intro rs
  rw [List.append_nil]
  induction cmds with
  | nil => rfl
  | cons cmd cmds ih =>
    have hcmd : cmd.on c rs = rs := by
      have hne := h cmd List.mem_cons_self
      cases cmd with
      | create c' => rfl
      | flush c' => exact if_neg fun heq => hne (congrArg some heq)
      | append c' r => exact if_neg fun heq => hne (congrArg some heq)
    rw [List.foldl_cons, hcmd]
    exact ih fun cmd' hmem => h cmd' (List.mem_cons_of_mem cmd hmem)

theorem appends_map_append (c : κ) (new : List (Rule κ μ δ)) :
    Appends c new (new.map (.append c)) := by
  intro rs
  induction new generalizing rs with
  | nil => exact (List.append_nil rs).symm
  | cons r new ih =>
    rw [List.map_cons, List.foldl_cons, ih]
    simp [Command.on]

theorem Appends.append (h : Appends c new cmds) (h' : Appends c new' cmds') :
    Appends c (new ++ new') (cmds ++ cmds') := by
  intro rs
  rw [List.foldl_append, h, h', List.append_assoc]

theorem Appends.after (h : Appends c new cmds') (hnil : Appends c [] cmds) :
    Appends c new (cmds ++ cmds') := hnil.append h

theorem Appends.flatMap {α : Type} {xs : List α} {f : α → List (Command κ μ δ)}
    {g : α → List (Rule κ μ δ)} (h : ∀ x ∈ xs, Appends c (g x) (f x)) :
    Appends c (xs.flatMap g) (xs.flatMap f) := by
  induction xs with
  | nil => exact fun rs => (List.append_nil rs).symm
  | cons x xs ih =>
    rw [List.flatMap_cons, List.flatMap_cons]
    exact (h x List.mem_cons_self).append (ih fun y hy => h y (List.mem_cons_of_mem x hy))

theorem Appends.flatMap_nil {α : Type} {xs : List α} {f : α → List (Command κ μ δ)}
    (h : ∀ x ∈ xs, Appends c [] (f x)) : Appends c [] (xs.flatMap f) := by
  have hall := Appends.flatMap (g := fun _ => []) h
  have hnil : xs.flatMap (fun _ => ([] : List (Rule κ μ δ))) = [] := by simp
  rwa [hnil] at hall

theorem Rebuilds.append (h : Rebuilds c new cmds) (h' : Appends c new' cmds') :
    Rebuilds c (new ++ new') (cmds ++ cmds') := by
  intro rs
  rw [List.foldl_append, h, h']

theorem Rebuilds.after (h : Rebuilds c new cmds') (cmds : List (Command κ μ δ)) :
    Rebuilds c new (cmds ++ cmds') := by
  intro rs
  rw [List.foldl_append, h]

theorem Appends.rebuilds (h : Appends c new cmds) : Rebuilds c new (.flush c :: cmds) := by
  intro rs
  rw [List.foldl_cons, h]
  simp [Command.on]

/-- **Parts of a program.** If all that touch the chain rebuild it in the same way, and one does, then
so does the program. -/
theorem Rebuilds.flatMap {α : Type} {xs : List α} {f : α → List (Command κ μ δ)}
    (h : ∀ x ∈ xs, Appends c [] (f x) ∨ Rebuilds c new (f x))
    (hx : ∃ x ∈ xs, Rebuilds c new (f x)) : Rebuilds c new (xs.flatMap f) := by
  -- once it is rebuilt, it stays so
  have hstays : ∀ xs : List α, (∀ x ∈ xs, Appends c [] (f x) ∨ Rebuilds c new (f x)) →
      (xs.flatMap f).foldl (Command.on c) new = new := by
    intro xs hxs
    induction xs with
    | nil => rfl
    | cons x xs ih =>
      have htail := ih fun y hy => hxs y (List.mem_cons_of_mem x hy)
      rw [List.flatMap_cons, List.foldl_append]
      rcases hxs x List.mem_cons_self with hx | hx
      · rw [hx, List.append_nil, htail]
      · rw [hx, htail]
  obtain ⟨x, hmem, hx⟩ := hx
  obtain ⟨before, after, rfl⟩ := List.append_of_mem hmem
  intro rs
  rw [List.flatMap_append, List.flatMap_cons, List.foldl_append, List.foldl_append, hx]
  exact hstays after fun y hy => h y (List.mem_append_right before (List.mem_cons_of_mem x hy))

end Programs

/-! ## The part that packets reach -/

section Reach

/-- Chains that a walk can come to. -/
inductive Reach (t : Table κ μ δ) (root : κ) : κ → Prop
  | root : Reach t root root
  | jump {c d : κ} {r : Rule κ μ δ} (hc : Reach t root c) (hr : r ∈ t.rules c)
    (hd : r.target = .jump d) : Reach t root d

/-- A walk sees no more of the tables than the chains that it can come to. -/
theorem walk_congr {holds : μ → π → Bool} {packet : π} {t t' : Table κ μ δ} {S : κ → Prop}
    (hrules : ∀ c, S c → t.rules c = t'.rules c)
    (hjump : ∀ c, S c → ∀ r ∈ t'.rules c, ∀ d, r.target = .jump d → S d) (depth : ℕ) {c : κ} (hc : S c) :
    walk holds packet t depth c = walk holds packet t' depth c := by
  induction depth generalizing c with
  | zero => rfl
  | succ depth ih =>
    show walkRules holds packet (walk holds packet t depth) (t.rules c) =
      walkRules holds packet (walk holds packet t' depth) (t'.rules c)
    rw [hrules c hc]
    exact walkRules_congr fun r hr d hd => ih (hjump c hc r hr d hd)

/-- The tables agree on all that can be reached. -/
def SameReach (t t' : Table κ μ δ) (root : κ) : Prop :=
  ∀ c, (Reach t root c ↔ Reach t' root c) ∧ (Reach t root c → t c = t' c)

variable {t t' : Table κ μ δ} {root : κ}

/-- Tables that agree on a set of chains that no jump leaves. -/
theorem sameReach_of_closed {S : κ → Prop} (hroot : S root) (hsame : ∀ c, S c → t c = t' c)
    (hjump : ∀ c, S c → ∀ r ∈ t.rules c, ∀ d, r.target = .jump d → S d) :
    SameReach t t' root := by
  have hrules : ∀ c, S c → t.rules c = t'.rules c := by
    intro c hc
    unfold Table.rules
    rw [hsame c hc]
  have hfrom : ∀ c, Reach t root c → S c ∧ Reach t' root c := by
    intro c hc
    induction hc with
    | root => exact ⟨hroot, .root⟩
    | jump _ hr hd ih =>
      refine ⟨hjump _ ih.1 _ hr _ hd, .jump ih.2 ?_ hd⟩
      rwa [← hrules _ ih.1]
  have hto : ∀ c, Reach t' root c → S c ∧ Reach t root c := by
    intro c hc
    induction hc with
    | root => exact ⟨hroot, .root⟩
    | jump _ hr hd ih =>
      rw [← hrules _ ih.1] at hr
      exact ⟨hjump _ ih.1 _ hr _ hd, .jump ih.2 hr hd⟩
  exact fun c => ⟨⟨fun h => (hfrom c h).2, fun h => (hto c h).2⟩,
    fun h => hsame c (hfrom c h).1⟩

end Reach

end Chains
