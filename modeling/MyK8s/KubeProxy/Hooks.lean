import MyK8s.KubeProxy.Netfilter

/-!
# Hooks

What kube-proxy does outside of the chains that it rebuilds: `ensure_base_chains` appends one rule each to
PREROUTING, OUTPUT and POSTROUTING, and sets up the chain for marks. All its calls leave the other rules as they
are (`Makes.grown`), and when `ensure_base_chains` goes through its rules are there, whatever was there before
(`establishes_ensureBaseChains`).
-/

namespace MyK8s.KubeProxy

open ApiServer
open Chains
open Process (Proc)

/-! ## What is left alone -/

/-- The rule that leads packets into kube-proxy's chains. -/
def hook : NatRule := ⟨.all, none, .jump kubeServices⟩

def markRule : NatRule := ⟨.all, none, .mark⟩

/-- What kube-proxy does to chains that it does not rebuild: it hooks itself in, and it sets up the marks. -/
structure Grown (n n' : Netfilter) : Prop where
  foreign : ∀ c, ¬ Ours c → ∃ k, n'.table.rules c = n.table.rules c ++ List.replicate k hook ∧
    (0 < k → c = "PREROUTING" ∨ c = "OUTPUT")
  masq : ∃ k, n'.table.rules kubeMarkMasq = n.table.rules kubeMarkMasq ++ List.replicate k markRule
  postrouting : ∃ k, n'.postrouting = n.postrouting ++ List.replicate k Script.masqueradeRule

/-- The calls that kube-proxy makes. -/
inductive Makes : Argv → Prop
  /-- A line of a plan. -/
  | rebuild {argv : Argv} {cmd : NatCommand} (h : readArgs argv = some cmd) (hchain : Rebuilt cmd.chain) : Makes argv
  | createMasq : Makes ["-N", kubeMarkMasq]
  | mark : Makes ["-A", kubeMarkMasq, "-j", "MARK", "--set-xmark", "0x4000/0x4000"]
  | check (rule : Argv) : Makes (.text "-C" :: rule)
  | hook {parent : String} (h : parent = "PREROUTING" ∨ parent = "OUTPUT") : Makes ["-A", parent, "-j", kubeServices]
  | masquerade : Makes (.text "-A" :: .text "POSTROUTING" :: Script.masqueradeRule)

section Grown

variable {n n' n'' : Netfilter} {w : World} {argv : Argv} {c : String}

theorem Grown.refl (n : Netfilter) : Grown n n :=
  ⟨fun _ _ => ⟨0, (List.append_nil _).symm, fun h => absurd h (lt_irrefl 0)⟩,
    ⟨0, (List.append_nil _).symm⟩, ⟨0, (List.append_nil _).symm⟩⟩

theorem exists_append_replicate {α : Type} {xs ys zs : List α} {a : α} {j k : ℕ}
    (h : ys = xs ++ List.replicate j a) (h' : zs = ys ++ List.replicate k a) :
    zs = xs ++ List.replicate (j + k) a := by
  rw [h', h, List.append_assoc, List.replicate_append_replicate]

theorem Grown.trans (h : Grown n n') (h' : Grown n' n'') : Grown n n'' := by
  refine ⟨fun c hc => ?_, ?_, ?_⟩
  · obtain ⟨j, hj, hjpos⟩ := h.foreign c hc
    obtain ⟨k, hk, hkpos⟩ := h'.foreign c hc
    refine ⟨j + k, exists_append_replicate hj hk, fun hpos => ?_⟩
    rcases Nat.add_pos_iff_pos_or_pos.mp hpos with hpos | hpos
    · exact hjpos hpos
    · exact hkpos hpos
  · obtain ⟨j, hj⟩ := h.masq
    obtain ⟨k, hk⟩ := h'.masq
    exact ⟨j + k, exists_append_replicate hj hk⟩
  · obtain ⟨j, hj⟩ := h.postrouting
    obtain ⟨k, hk⟩ := h'.postrouting
    exact ⟨j + k, exists_append_replicate hj hk⟩

/-- A check changes nothing. -/
theorem call_check {rule : Argv} (h : n.call (.text "-C" :: rule) = some n') : n' = n := by
  unfold Netfilter.call at h
  split at h
  · rename_i cmd chain spec heq
    obtain ⟨hcmd, -⟩ := List.cons.inj heq
    cases hcmd
    split at h
    · rw [if_pos rfl] at h
      split at h
      · exact (Option.some.inj h).symm
      · cases h
    · rw [if_pos rfl] at h
      obtain ⟨r, -, hr⟩ := Option.bind_eq_some_iff.mp h
      split at hr
      · exact (Option.some.inj hr).symm
      · cases hr
  · cases h

theorem exec_check (w : World) (rule : Argv) : (w.exec (.text "-C" :: rule)).2 = w := by
  unfold World.exec
  split
  · rename_i net hcall
    rw [call_check hcall]
  · rfl

/-- Appending a rule. -/
theorem on_append (c c' : String) (r : NatRule) (rs : List NatRule) :
    Command.on c rs (.append c' r) = if c' = c then rs ++ [r] else rs := rfl

/-- One rule more on a chain that is not rebuilt. -/
theorem rules_exec_append {c' : String} {r : NatRule} (h : readArgs argv = some (.append c' r))
    (hpost : c' ≠ "POSTROUTING") (w : World) (c : String) :
    ∃ k, (w.exec argv).2.net.table.rules c = w.net.table.rules c ++ List.replicate k r ∧ (0 < k → c = c') := by
  rcases exec_cases w h hpost with hsame | ⟨hrules, -⟩
  · exact ⟨0, by rw [hsame]; simp⟩
  · rw [hrules c, on_append]
    split
    · rename_i heq
      exact ⟨1, rfl, fun _ => heq.symm⟩
    · exact ⟨0, by simp⟩

theorem postrouting_exec {cmd : NatCommand} (h : readArgs argv = some cmd) (hpost : cmd.chain ≠ "POSTROUTING")
    (w : World) : (w.exec argv).2.net.postrouting = w.net.postrouting := by
  rcases exec_cases w h hpost with hsame | ⟨-, hpost⟩
  · rw [hsame]
  · exact hpost

theorem read_hook (parent : String) :
    readArgs ["-A", .text parent, "-j", .text kubeServices] = some (.append parent hook) := rfl

theorem read_mark : readArgs ["-A", .text kubeMarkMasq, "-j", "MARK", "--set-xmark", "0x4000/0x4000"] =
    some (.append kubeMarkMasq markRule) := rfl

/-- **Chains of others are left alone.** -/
theorem Makes.grown (h : Makes argv) (w : World) : Grown w.net (w.exec argv).2.net := by
  cases h with
  | rebuild hread hchain =>
    rename_i cmd
    have hsame : ∀ c, cmd.chain ≠ c → (w.exec argv).2.net.table.rules c = w.net.table.rules c := by
      intro c hne
      rcases exec_cases w hread hchain.1.ne_postrouting with heq | ⟨hrules, -⟩
      · rw [heq]
      · rw [hrules c]
        cases cmd with
        | create c' => rfl
        | flush c' => exact if_neg hne
        | append c' r => exact if_neg hne
    refine ⟨fun c hc => ⟨0, ?_, fun h => absurd h (lt_irrefl 0)⟩, ⟨0, ?_⟩, ⟨0, ?_⟩⟩
    · rw [hsame c fun heq => hc (heq ▸ hchain.1)]
      simp
    · rw [hsame _ hchain.2]
      simp
    · rw [postrouting_exec hread hchain.1.ne_postrouting]
      simp
  | createMasq =>
    have hread : readArgs ["-N", .text kubeMarkMasq] = some (.create kubeMarkMasq) := rfl
    have hpost : kubeMarkMasq ≠ "POSTROUTING" := ours_masq.ne_postrouting
    refine ⟨fun c _ => ⟨0, ?_, fun h => absurd h (lt_irrefl 0)⟩, ⟨0, ?_⟩, ⟨0, ?_⟩⟩
    · rw [rules_exec_create hread hpost]
      simp
    · rw [rules_exec_create hread hpost]
      simp
    · rw [postrouting_exec hread hpost]
      simp
  | mark =>
    have hpost : kubeMarkMasq ≠ "POSTROUTING" := ours_masq.ne_postrouting
    refine ⟨fun c hc => ⟨0, ?_, fun h => absurd h (lt_irrefl 0)⟩, ?_, ⟨0, ?_⟩⟩
    · obtain ⟨k, hk, hpos⟩ := rules_exec_append read_mark hpost w c
      rcases Nat.eq_zero_or_pos k with rfl | hk'
      · exact hk
      · exact absurd ours_masq (hpos hk' ▸ hc)
    · obtain ⟨k, hk, -⟩ := rules_exec_append read_mark hpost w kubeMarkMasq
      exact ⟨k, hk⟩
    · rw [postrouting_exec read_mark hpost]
      simp
  | check rule =>
    rw [exec_check]
    exact Grown.refl _
  | @hook parent hparent =>
    have hpost : parent ≠ "POSTROUTING" := by
      rcases hparent with rfl | rfl <;> decide
    have hforeign : ¬ Ours parent := by
      rcases hparent with rfl | rfl <;> decide
    refine ⟨fun c _ => ?_, ⟨0, ?_⟩, ⟨0, ?_⟩⟩
    · obtain ⟨k, hk, hpos⟩ := rules_exec_append (read_hook parent) hpost w c
      exact ⟨k, hk, fun h => hpos h ▸ hparent⟩
    · obtain ⟨k, hk, hpos⟩ := rules_exec_append (read_hook parent) hpost w kubeMarkMasq
      rcases Nat.eq_zero_or_pos k with rfl | hk'
      · exact hk
      · exact absurd ours_masq (hpos hk' ▸ hforeign)
    · rw [postrouting_exec (read_hook parent) hpost]
      simp
  | masquerade =>
    have hexec : (w.exec (.text "-A" :: .text "POSTROUTING" :: Script.masqueradeRule)).2.net =
        { w.net with postrouting := w.net.postrouting ++ [Script.masqueradeRule] } := rfl
    rw [hexec]
    exact ⟨fun _ _ => ⟨0, (List.append_nil _).symm, fun h => absurd h (lt_irrefl 0)⟩,
      ⟨0, (List.append_nil _).symm⟩, ⟨1, rfl⟩⟩

end Grown

/-! ## The calls of the scripts -/

/-- The call leaves the rules of the chains that syncs rebuild. -/
def Spares (argv : Argv) : Prop := ∀ (w : World) c, Rebuilt c →
  (w.exec argv).2.net.table.rules c = w.net.table.rules c

section Writes

variable {P : Argv → Prop} {seen : List World} {argv : Argv}

theorem writes_runTolerate (h : P argv) :
    Proc.writes (fun _ => P) (fun _ _ => True) (Script.runTolerate argv) seen := by
  refine Proc.writes_bind.mpr ⟨h, fun r => ?_⟩
  rintro r' -
  exact Proc.writes_pure.mpr trivial

theorem writes_runCmd (h : P argv) : Proc.writes (fun _ => P) (fun _ _ => True) (Script.runCmd argv) seen := by
  refine Proc.writes_bind.mpr ⟨h, fun r => ?_⟩
  rintro r' -
  cases r' with
  | ok a => exact Proc.writes_pure.mpr trivial
  | error e => exact Proc.writes_throw

theorem writes_ensure {rule : Argv} (hcheck : P (.text "-C" :: rule)) (happend : P (.text "-A" :: rule)) :
    Proc.writes (fun _ => P) (fun _ _ => True) (Script.ensure rule) seen := by
  refine Proc.writes_bind.mpr ⟨hcheck, fun r => ?_⟩
  rintro r' -
  cases r' with
  | ok a => exact Proc.writes_pure.mpr trivial
  | error e =>
    cases e with
    | spawn => exact Proc.writes_throw
    | status => exact writes_runCmd happend

theorem writes_applyRules {rules : List Argv} (h : ∀ argv ∈ rules, P argv) :
    Proc.writes (fun _ => P) (fun _ _ => True) (Script.applyRules rules) seen := by
  induction rules generalizing seen with
  | nil => exact Proc.writes_pure.mpr trivial
  | cons rule rules ih =>
    refine Proc.writes_bind.mpr (Proc.writes_mono (Q := fun _ _ => True) (fun seen' _ _ => ?_) ?_)
    · exact ih fun argv hargv => h argv (List.mem_cons_of_mem rule hargv)
    · unfold Script.applyRule
      split
      · exact writes_runTolerate (h rule List.mem_cons_self)
      · exact writes_runCmd (h rule List.mem_cons_self)

theorem writes_list {k : Kind} {Q : List World → List k.Obj → Prop} (h : ∀ w objs, Q (w :: seen) objs) :
    Proc.writes (fun _ => P) Q (Script.list k) seen := by
  intro w objs _
  exact h w objs

/-- **All that a sync calls.** -/
theorem writes_sync (shortHash : String → String) :
    Proc.writes (fun _ => Makes) (fun _ _ => True) (Script.sync shortHash) seen := by
  refine Proc.writes_bind.mpr (writes_list (k := .service) fun w services => ?_)
  refine Proc.writes_bind.mpr (writes_list (k := .endpoints) fun w' endpoints => ?_)
  refine writes_applyRules fun argv hargv => ?_
  have hread : readArgs argv ∈ (planCommands shortHash services endpoints).map some :=
    @read_planRules shortHash services endpoints ▸ List.mem_map_of_mem hargv
  obtain ⟨cmd, hcmd, heq⟩ := List.mem_map.mp hread
  exact .rebuild heq.symm (rebuilt_of_mem_planCommands hcmd)

theorem spares_check (rule : Argv) : Spares (.text "-C" :: rule) := by
  intro w c _
  rw [exec_check]

theorem spares_create {c : String} (h : readArgs argv = some (.create c)) (hpost : c ≠ "POSTROUTING") :
    Spares argv := fun _ c' _ => rules_exec_create h hpost c'

theorem spares_append {c : String} {r : NatRule} (h : readArgs argv = some (.append c r))
    (hpost : c ≠ "POSTROUTING") (hc : ¬ Rebuilt c) : Spares argv := by
  intro w c' hc'
  obtain ⟨k, hk, hpos⟩ := rules_exec_append h hpost w c'
  rcases Nat.eq_zero_or_pos k with rfl | hk'
  · simpa using hk
  · exact absurd (hpos hk' ▸ hc') hc

theorem writes_ensureBaseChains :
    Proc.writes (fun _ argv => Makes argv ∧ Spares argv) (fun _ _ => True) Script.ensureBaseChains seen := by
  have hjump : ∀ {parent seen}, parent = "PREROUTING" ∨ parent = "OUTPUT" →
      Proc.writes (fun _ argv => Makes argv ∧ Spares argv) (fun _ _ => True) (Script.ensureJump parent) seen := by
    intro parent seen hparent
    have hforeign : ¬ Rebuilt parent := by
      rintro ⟨hours, -⟩
      rcases hparent with rfl | rfl <;> revert hours <;> decide
    have hpost : parent ≠ "POSTROUTING" := by
      rcases hparent with rfl | rfl <;> decide
    exact writes_ensure ⟨.check _, spares_check _⟩
      ⟨.hook hparent, spares_append (read_hook parent) hpost hforeign⟩
  have hservices : Makes ["-N", .text kubeServices] ∧ Spares ["-N", .text kubeServices] :=
    ⟨.rebuild (show readArgs _ = some (.create kubeServices) from rfl) ⟨ours_services, by decide⟩,
      spares_create rfl ours_services.ne_postrouting⟩
  have hmasq : Makes ["-N", .text kubeMarkMasq] ∧ Spares ["-N", .text kubeMarkMasq] :=
    ⟨.createMasq, spares_create rfl ours_masq.ne_postrouting⟩
  have hmark := spares_append read_mark ours_masq.ne_postrouting fun h => h.2 rfl
  have hbind : ∀ {x y : Script Unit} {seen}, (∀ seen, Proc.writes (fun _ argv => Makes argv ∧ Spares argv)
      (fun _ _ => True) x seen) → (∀ seen, Proc.writes (fun _ argv => Makes argv ∧ Spares argv)
      (fun _ _ => True) y seen) → Proc.writes (fun _ argv => Makes argv ∧ Spares argv) (fun _ _ => True)
      (x >>= fun _ => y) seen := fun hx hy =>
    Proc.writes_bind.mpr (Proc.writes_mono (fun seen _ _ => hy seen) (hx _))
  refine hbind (fun _ => hbind (fun _ => writes_runTolerate hservices) fun _ =>
    hbind (fun _ => writes_runTolerate hmasq) fun _ => hbind (fun _ => writes_runTolerate ⟨.mark, hmark⟩)
      fun _ => Proc.writes_pure.mpr trivial) fun _ => ?_
  refine hbind (fun _ => hjump (.inl rfl)) fun _ => hbind (fun _ => hjump (.inr rfl)) fun _ => ?_
  refine writes_ensure ⟨.check _, spares_check _⟩ ⟨.masquerade, fun w c _ => rfl⟩

end Writes

/-! ## Hooked in -/

/-- Packets on their way in and out come to `KUBE-SERVICES`, and those that are marked are masqueraded. -/
structure Hooked (n : Netfilter) : Prop where
  prerouting : hook ∈ n.table.rules "PREROUTING"
  output : hook ∈ n.table.rules "OUTPUT"
  postrouting : Script.masqueradeRule ∈ n.postrouting

/-- Hooks that are there stay. -/
structure KeepsHooks (w w' : World) : Prop where
  hook : ∀ c, ¬ Ours c → hook ∈ w.net.table.rules c → hook ∈ w'.net.table.rules c
  postrouting : Script.masqueradeRule ∈ w.net.postrouting → Script.masqueradeRule ∈ w'.net.postrouting

theorem KeepsHooks.trans {w w' w'' : World} (h : KeepsHooks w w') (h' : KeepsHooks w' w'') : KeepsHooks w w'' :=
  ⟨fun c hc => h'.hook c hc ∘ h.hook c hc, h'.postrouting ∘ h.postrouting⟩

instance : IsPreorder World KeepsHooks where
  refl _ := ⟨fun _ _ => id, id⟩
  trans _ _ _ h h' := h.trans h'

theorem Hooked.keeps {w w' : World} (h : Hooked w.net) (hw : KeepsHooks w w') : Hooked w'.net :=
  ⟨hw.hook _ (by decide) h.prerouting, hw.hook _ (by decide) h.output, hw.postrouting h.postrouting⟩

section Ensure

variable {w w' : World} {argv rule : Argv}

theorem Grown.keepsHooks (h : Grown w.net w'.net) : KeepsHooks w w' := by
  refine ⟨fun c hc hmem => ?_, fun hmem => ?_⟩
  · obtain ⟨k, hk, -⟩ := h.foreign c hc
    rw [hk]
    exact List.mem_append_left _ hmem
  · obtain ⟨k, hk⟩ := h.postrouting
    rw [hk]
    exact List.mem_append_left _ hmem

/-- Whether the check finds the rule or it is appended, it is there if all goes well. -/
theorem establishes_ensure {has : World → Prop} (hstays : ∀ w w', KeepsHooks w w' → has w → has w')
    (hcheck : ∀ w : World, (w.exec (.text "-C" :: rule)).1 = .ok () → has w)
    (happend : ∀ w : World, (w.exec (.text "-A" :: rule)).1 = .ok () → has (w.exec (.text "-A" :: rule)).2)
    (hmakes : Makes (.text "-A" :: rule)) :
    Proc.establishes calls KeepsHooks (fun w' _ => KeepsHooks w w' ∧ has w') (Script.ensure rule) w := by
  refine Proc.establishes_bind ?_
  refine Proc.establishes_mono
    (Q := fun w' (r : Except CallError Unit) => KeepsHooks w w' ∧ (r = .ok () → has w')) (fun w' r hr => ?_) ?_
  · cases r with
    | ok a => exact Proc.establishes_pure fun w'' hw'' => ⟨hr.1.trans hw'', hstays w' w'' hw'' (hr.2 rfl)⟩
    | error e =>
      cases e with
      | spawn => exact Proc.establishes_throw
      | status =>
        refine establishes_runCmd (fun w₁ hw₁ hok => ⟨?_, happend w₁ hok⟩) fun w₁ w₂ hw₂ hold =>
          ⟨hold.1.trans hw₂, hstays w₁ w₂ hw₂ hold.2⟩
        exact (hr.1.trans hw₁).trans (hmakes.grown w₁).keepsHooks
  · refine establishes_call (fun w₁ hw₁ => ?_) fun w₁ r w₂ hw₂ hold =>
      ⟨hold.1.trans hw₂, fun hok => hstays w₁ w₂ hw₂ (hold.2 hok)⟩
    rw [exec_check]
    exact ⟨⟨hw₁, hcheck w₁⟩, fun e => ⟨⟨hw₁, fun hok => (by cases hok)⟩, ⟨hw₁, fun hok => (by cases hok)⟩⟩⟩

theorem establishes_ensureJump {parent : String} (hparent : parent = "PREROUTING" ∨ parent = "OUTPUT") :
    Proc.establishes calls KeepsHooks (fun w' _ => KeepsHooks w w' ∧ hook ∈ w'.net.table.rules parent)
      (Script.ensureJump parent) w := by
  have hpost : parent ≠ "POSTROUTING" := by
    rcases hparent with rfl | rfl <;> decide
  have hforeign : ¬ Ours parent := by
    rcases hparent with rfl | rfl <;> decide
  refine establishes_ensure (fun w w' hw => hw.hook parent hforeign) (fun w hok => ?_) (fun w hok => ?_) (.hook hparent)
  · unfold World.exec at hok
    split at hok
    · rename_i net hcall
      have hrule : readRule .all none ["-j", .text kubeServices] = some hook := rfl
      simp only [Netfilter.call, if_neg hpost, if_true, hrule, Option.bind_some] at hcall
      split at hcall
      · assumption
      · cases hcall
    · cases hok
  · rw [(exec_of_ok (read_hook parent) hpost hok).1, on_append, if_pos rfl]
    exact List.mem_append_right _ List.mem_cons_self

theorem establishes_ensureMasquerade :
    Proc.establishes calls KeepsHooks
      (fun w' _ => KeepsHooks w w' ∧ Script.masqueradeRule ∈ w'.net.postrouting) Script.ensureMasquerade w := by
  refine establishes_ensure (fun w w' hw => hw.postrouting) (fun w hok => ?_) (fun w _ => ?_) .masquerade
  · unfold World.exec at hok
    split at hok
    · rename_i net hcall
      simp only [Netfilter.call, if_true] at hcall
      split at hcall
      · assumption
      · cases hcall
    · cases hok
  · exact List.mem_append_right _ List.mem_cons_self

/-- **Starts among others.** When the base chains have been set up without an error, kube-proxy is hooked in. -/
theorem establishes_ensureBaseChains :
    Proc.establishes calls KeepsHooks (fun w' _ => Hooked w'.net) Script.ensureBaseChains w := by
  have htolerate : Proc.establishes calls KeepsHooks (fun _ _ => True)
      (KubeProxy.ensureBaseChains.forM Script.runTolerate) w := by
    have hrun : ∀ argv w, Proc.establishes calls KeepsHooks (fun _ _ => True) (Script.runTolerate argv) w :=
      fun argv w => establishes_runTolerate (fun _ _ => ⟨trivial, trivial⟩) fun _ _ _ _ => trivial
    refine Proc.establishes_bind (Proc.establishes_mono (fun w₁ _ _ => ?_) (hrun _ w))
    refine Proc.establishes_bind (Proc.establishes_mono (fun w₂ _ _ => ?_) (hrun _ w₁))
    refine Proc.establishes_bind (Proc.establishes_mono (fun w₃ _ _ => ?_) (hrun _ w₂))
    exact Proc.establishes_pure fun _ _ => trivial
  refine Proc.establishes_bind (Proc.establishes_mono (fun w₁ _ _ => ?_) htolerate)
  refine Proc.establishes_bind (Proc.establishes_mono (fun w₂ _ hw₂ => ?_) (establishes_ensureJump (.inl rfl)))
  refine Proc.establishes_bind (Proc.establishes_mono (fun w₃ _ hw₃ => ?_) (establishes_ensureJump (.inr rfl)))
  refine Proc.establishes_mono (fun w₄ _ hw₄ => ?_) establishes_ensureMasquerade
  refine ⟨hw₄.1.hook _ (by decide) (hw₃.1.hook _ (by decide) hw₂.2), hw₄.1.hook _ (by decide) hw₃.2, hw₄.2⟩

end Ensure

end MyK8s.KubeProxy
