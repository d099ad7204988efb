import Mathlib.Logic.Function.Basic
import OpteeRpi5.ForStd.Run

/-!
# Scripts that can be killed

A shell script with `set -e`, as the list of its commands on a set of files. A command that
completes has one outcome, or it fails and the script stops. A script can also be killed at
any moment, with the command that it is in: a copy that is killed leaves anything in its
destination, while a file is renamed, replaced by `sed -i`, or extended by one line either
completely or not at all. What a command has written is there for the next one. A loss of
power is another matter, since it can take back commands that have completed but have not
been written to the disk yet.

`FileScript.Leaves` is what a script can leave behind, and `FileScript.History` is a
sequence of such runs. The rules say which files a run leaves alone, and when the contents
of a file survive it: they are copied or moved before anything else is written to the file,
and nothing is written to the copy.

Candidates for upstreaming to Lean's standard library.
-/

namespace FileScript

/-! ## Commands -/

/-- The contents of the files that exist. -/
abbrev Files (φ α : Type) := φ → Option α

/-- The commands of a script. -/
inductive Cmd (φ α : Type) where
  /-- `[[ ok ]] || exit 1`. -/
  | check (ok : Bool)
  /-- `cp src dst`. -/
  | copy (src dst : φ)
  /-- `if [[ -f src ]]; then cp src dst; fi`. -/
  | copyIf (src dst : φ)
  /-- `cp` of a file elsewhere that holds `a`. -/
  | store (dst : φ) (a : α)
  /-- The same with `|| true`: the script goes on with what the copy has left. -/
  | tryStore (dst : φ) (left : Option α)
  /-- `touch f`, where a new file holds `a`. -/
  | touch (f : φ) (a : α)
  /-- `sed -i`, or `>>` with one line. -/
  | edit (f : φ) (g : α → α)
  /-- `if [[ -f src ]]; then mv -f src dst; fi`. -/
  | moveIf (src dst : φ)
  /-- `[[ p f ]] || exit 1`. -/
  | verify (f : φ) (p : α → Bool)

/-! ## What a script writes -/

variable {φ α : Type}

/-- The files that the command can change. -/
def Cmd.targets : Cmd φ α → List φ
  | .check _ | .verify _ _ => []
  | .copy _ dst | .copyIf _ dst | .store dst _ | .tryStore dst _ => [dst]
  | .touch f _ | .edit f _ => [f]
  | .moveIf src dst => [src, dst]

/-- The files that a script can change. -/
def targets (cs : List (Cmd φ α)) : List φ :=
  cs.flatMap Cmd.targets

@[simp] theorem targets_nil : targets ([] : List (Cmd φ α)) = [] := rfl

@[simp] theorem targets_cons (c : Cmd φ α) (cs : List (Cmd φ α)) :
    targets (c :: cs) = c.targets ++ targets cs := rfl

@[simp] theorem targets_append (as bs : List (Cmd φ α)) :
    targets (as ++ bs) = targets as ++ targets bs :=
  List.flatMap_append

/-- The command copies or moves `f` to `b`. -/
def Saves (c : Cmd φ α) (f b : φ) : Prop :=
  c = .copy f b ∨ c = .copyIf f b ∨ c = .moveIf f b

/-- The script saves `f` to `b` before it writes to `f`, and then leaves `b` alone. -/
def SavesFirst (cs : List (Cmd φ α)) (f b : φ) : Prop :=
  ∃ as c bs, cs = as ++ c :: bs ∧ Saves c f b ∧ f ∉ targets as ∧ b ∉ targets bs

theorem SavesFirst.append {as cs : List (Cmd φ α)} {f b : φ} (h : SavesFirst cs f b)
    (has : f ∉ targets as) : SavesFirst (as ++ cs) f b := by
  obtain ⟨as', c, bs, rfl, hc, has', hbs⟩ := h
  refine ⟨as ++ as', c, bs, (List.append_assoc _ _ _).symm, hc, ?_, hbs⟩
  simp [has, has']

/-! ## Runs -/

variable [DecidableEq φ]

namespace Cmd

/-- The files after the command has completed, unless it fails. -/
def run : Cmd φ α → Files φ α → Option (Files φ α)
  | .check ok, s => if ok then some s else none
  | .copy src dst, s =>
    match s src with
    | none => none
    | some a => some (Function.update s dst (some a))
  | .copyIf src dst, s =>
    match s src with
    | none => some s
    | some a => some (Function.update s dst (some a))
  | .store dst a, s => some (Function.update s dst (some a))
  | .tryStore dst left, s => some (Function.update s dst left)
  | .touch f a, s =>
    match s f with
    | none => some (Function.update s f (some a))
    | some _ => some s
  | .edit f g, s =>
    match s f with
    | none => none
    | some a => some (Function.update s f (some (g a)))
  | .moveIf src dst, s =>
    match s src with
    | none => some s
    | some a => some (Function.update (Function.update s src none) dst (some a))
  | .verify f p, s => if (s f).any p then some s else none

/-- What is left if the script is killed in the command. -/
def Stops : Cmd φ α → Files φ α → Files φ α → Prop
  | .copy _ dst, s, s' | .copyIf _ dst, s, s' | .store dst _, s, s' | .tryStore dst _, s, s' =>
    ∃ left, s' = Function.update s dst left
  | c, s, s' => s' = s ∨ c.run s = some s'

section Frame

variable {c : Cmd φ α} {s s' : Files φ α} {f : φ}

theorem run_frame (h : c.run s = some s') (hf : f ∉ c.targets) : s' f = s f := by
  -- a command that completes has updated its targets, or nothing at all
  cases c <;> simp only [run, targets, List.mem_cons, List.not_mem_nil, or_false, not_or] at h hf
  case store | tryStore =>
    cases h
    exact Function.update_of_ne hf _ _
  all_goals
    split at h <;> cases h
    all_goals simp [hf]

theorem stops_frame (h : c.Stops s s') (hf : f ∉ c.targets) : s' f = s f := by
  cases c with
  | copy | copyIf | store | tryStore =>
    obtain ⟨left, rfl⟩ := h
    exact Function.update_of_ne (List.ne_of_not_mem_cons hf) _ _
  | check | touch | edit | moveIf | verify =>
    rcases h with rfl | h
    · rfl
    · exact run_frame h hf

end Frame

end Cmd

/-! ## Scripts -/

/-- The files after the whole script, if no command fails. -/
def exec (s : Files φ α) (cs : List (Cmd φ α)) : Option (Files φ α) :=
  Run.exec (fun s c => c.run s) s cs

/-- What a script can leave: it completes, or is killed or fails in one of its commands. -/
inductive Leaves : List (Cmd φ α) → Files φ α → Files φ α → Prop where
  | done (s : Files φ α) : Leaves [] s s
  | stop {c : Cmd φ α} {cs : List (Cmd φ α)} {s s' : Files φ α} (h : c.Stops s s') :
    Leaves (c :: cs) s s'
  | step {c : Cmd φ α} {cs : List (Cmd φ α)} {s s₁ s' : Files φ α} (h : c.run s = some s₁)
    (rest : Leaves cs s₁ s') : Leaves (c :: cs) s s'

section Scripts

variable {c : Cmd φ α} {cs as bs : List (Cmd φ α)} {s s₁ s' : Files φ α} {f b : φ} {a : α}

theorem exec_cons (h : c.run s = some s₁) : exec s (c :: cs) = exec s₁ cs := by
  rw [exec, Run.exec, h]
  rfl

theorem exec_append (h : exec s as = some s₁) : exec s (as ++ bs) = exec s₁ bs := by
  rw [exec, Run.exec_append, ← exec, h]
  rfl

/-- A script that completes leaves what it says. -/
theorem leaves_of_exec (h : exec s cs = some s') : Leaves cs s s' := by
  induction cs generalizing s with
  | nil =>
    cases h
    exact .done _
  | cons c cs ih =>
    obtain ⟨s₁, hrun, hrest⟩ := Option.bind_eq_some_iff.mp h
    exact .step hrun (ih hrest)

/-- A script stops in its first part, or in the second after the first has completed. -/
theorem Leaves.split (h : Leaves (as ++ bs) s s') :
    Leaves as s s' ∨ ∃ s₁, exec s as = some s₁ ∧ Leaves bs s₁ s' := by
  induction as generalizing s with
  | nil => exact .inr ⟨s, rfl, h⟩
  | cons c as ih =>
    cases h with
    | stop hstop => exact .inl (.stop hstop)
    | step hrun hrest =>
      rcases ih hrest with hfirst | ⟨s₁, hexec, hsecond⟩
      · exact .inl (.step hrun hfirst)
      · exact .inr ⟨s₁, (exec_cons hrun).trans hexec, hsecond⟩

theorem Leaves.after (hexec : exec s as = some s₁) (h : Leaves bs s₁ s') :
    Leaves (as ++ bs) s s' := by
  induction as generalizing s with
  | nil =>
    cases hexec
    exact h
  | cons c as ih =>
    obtain ⟨s₂, hrun, hrest⟩ := Option.bind_eq_some_iff.mp hexec
    exact .step hrun (ih hrest)

/-- What every command keeps, whether it completes or not, holds of what is left. -/
theorem Leaves.inv (P : Files φ α → Prop)
    (hP : ∀ c ∈ cs, ∀ s s', P s → c.run s = some s' ∨ c.Stops s s' → P s') (h : Leaves cs s s')
    (h0 : P s) : P s' := by
  induction h with
  | done s => exact h0
  | stop hstop => exact hP _ (by simp) _ _ h0 (.inr hstop)
  | step hrun _ ih =>
    exact ih (fun c hc => hP c (List.mem_cons_of_mem _ hc)) (hP _ (by simp) _ _ h0 (.inl hrun))

theorem Leaves.frame (h : Leaves cs s s') (hf : f ∉ targets cs) : s' f = s f := by
  refine Leaves.inv (fun t => t f = s f) ?_ h rfl
  intro c hc t t' ht hstep
  have hfc : f ∉ c.targets := fun hmem => hf (List.mem_flatMap.mpr ⟨c, hc, hmem⟩)
  rcases hstep with hrun | hstop
  · rw [Cmd.run_frame hrun hfc, ht]
  · rw [Cmd.stops_frame hstop hfc, ht]

theorem exec_frame (h : exec s cs = some s') (hf : f ∉ targets cs) : s' f = s f :=
  (leaves_of_exec h).frame hf

/-! ## Backups -/

theorem Saves.run (h : Saves c f b) (hrun : c.run s = some s') (ha : s f = some a) :
    s' b = some a := by
  rcases h with rfl | rfl | rfl <;>
  · simp only [Cmd.run, ha, Option.some.injEq] at hrun
    rw [← hrun, Function.update_self]

/-- While it is being saved the contents are in one of the two places. -/
theorem Saves.stops (h : Saves c f b) (hfb : f ≠ b) (hstop : c.Stops s s') (ha : s f = some a) :
    s' f = some a ∨ s' b = some a := by
  rcases h with rfl | rfl | rfl
  · obtain ⟨left, rfl⟩ := hstop
    exact .inl ((Function.update_of_ne hfb _ _).trans ha)
  · obtain ⟨left, rfl⟩ := hstop
    exact .inl ((Function.update_of_ne hfb _ _).trans ha)
  · rcases hstop with rfl | hrun
    · exact .inl ha
    · exact .inr (Saves.run (.inr (.inr rfl)) hrun ha)

/-- The contents of a file that is saved first survive the script. -/
theorem Leaves.saved (h : Leaves cs s s') (hcs : SavesFirst cs f b) (hfb : f ≠ b)
    (ha : s f = some a) : s' f = some a ∨ s' b = some a := by
  obtain ⟨as, c, bs, rfl, hc, has, hbs⟩ := hcs
  rcases h.split with hfirst | ⟨s₁, hexec, hrest⟩
  · exact .inl ((hfirst.frame has).trans ha)
  · have ha₁ : s₁ f = some a := (exec_frame hexec has).trans ha
    cases hrest with
    | stop hstop => exact hc.stops hfb hstop ha₁
    | step hrun hlast => exact .inr ((hlast.frame hbs).trans (hc.run hrun ha₁))

end Scripts

/-! ## Edits -/

section Edits

variable {cs : List (Cmd φ α)} {s s' : Files φ α} {f : φ} {a : α}

/-- A file that a script does nothing with but to edit it keeps what every edit keeps. -/
theorem Leaves.edited (P : α → Prop)
    (hcs : ∀ c ∈ cs, f ∉ c.targets ∨ (∃ b, c = .touch f b) ∨
      ∃ g, c = .edit f g ∧ ∀ a, P a → P (g a))
    (h : Leaves cs s s') (h0 : ∃ a, s f = some a ∧ P a) : ∃ a, s' f = some a ∧ P a := by
  refine Leaves.inv (fun t => ∃ a, t f = some a ∧ P a) ?_ h h0
  rintro c hc t t' ⟨a, ha, hPa⟩ hstep
  rcases hcs c hc with hf | ⟨b, rfl⟩ | ⟨g, rfl, hg⟩
  · have hframe : t' f = t f := hstep.elim (Cmd.run_frame · hf) (Cmd.stops_frame · hf)
    exact ⟨a, hframe.trans ha, hPa⟩
  · -- the file exists, so `touch` does not create it
    have hrun : (Cmd.touch f b).run t = some t := by simp [Cmd.run, ha]
    simp only [Cmd.Stops, hrun, Option.some.injEq] at hstep
    have ht : t' = t := by grind
    exact ⟨a, by rw [ht, ha], hPa⟩
  · have hrun : (Cmd.edit f g).run t = some (Function.update t f (some (g a))) := by
      simp [Cmd.run, ha]
    simp only [Cmd.Stops, hrun, Option.some.injEq] at hstep
    by_cases ht : t' = t
    · exact ⟨a, by rw [ht, ha], hPa⟩
    · have ht' : t' = Function.update t f (some (g a)) := by grind
      exact ⟨g a, by rw [ht', Function.update_self], hg a hPa⟩

/-- Edits one after the other. -/
theorem exec_edits {β : Type} (e : α → β → α) (bs : List β) (ha : s f = some a) :
    ∃ s', exec s (bs.map fun b => .edit f (e · b)) = some s' ∧ s' f = some (bs.foldl e a) := by
  induction bs generalizing s a with
  | nil => exact ⟨s, rfl, ha⟩
  | cons b bs ih =>
    have hrun : (Cmd.edit f (e · b)).run s = some (Function.update s f (some (e a b))) := by
      simp [Cmd.run, ha]
    obtain ⟨s', hexec, hs'⟩ := ih (Function.update_self f (some (e a b)) s)
    exact ⟨s', (exec_cons hrun).trans hexec, hs'⟩

/-- The commands that cannot fail. -/
def Cmd.total : Cmd φ α → Bool
  | .copyIf _ _ | .store _ _ | .tryStore _ _ | .touch _ _ | .moveIf _ _ => true
  | _ => false

theorem exec_total (h : ∀ c ∈ cs, c.total = true) (s : Files φ α) : ∃ s', exec s cs = some s' := by
  induction cs generalizing s with
  | nil => exact ⟨s, rfl⟩
  | cons c cs ih =>
    obtain ⟨s₁, hrun⟩ : ∃ s₁, c.run s = some s₁ := by
      have hc : c.total = true := h c (by simp)
      cases c <;> simp only [Cmd.total, Bool.false_eq_true] at hc <;> simp only [Cmd.run]
      case store | tryStore => exact ⟨_, rfl⟩
      all_goals split <;> exact ⟨_, rfl⟩
    obtain ⟨s', hrest⟩ := ih (fun c hc => h c (List.mem_cons_of_mem _ hc)) s₁
    exact ⟨s', (exec_cons hrun).trans hrest⟩

end Edits

/-! ## Histories -/

section Histories

variable {ρ : Type} {script : ρ → List (Cmd φ α)}

/-- Runs of scripts one after the other, each of which may have been killed. -/
inductive History (script : ρ → List (Cmd φ α)) : List ρ → Files φ α → Files φ α → Prop where
  | nil (s : Files φ α) : History script [] s s
  | cons {r : ρ} {rs : List ρ} {s s₁ s' : Files φ α} (h : Leaves (script r) s s₁)
    (rest : History script rs s₁ s') : History script (r :: rs) s s'

/-- What every run keeps holds after every history. -/
theorem History.inv (P : Files φ α → Prop) {rs : List ρ} {s s' : Files φ α}
    (hP : ∀ r ∈ rs, ∀ s s', P s → Leaves (script r) s s' → P s') (h : History script rs s s')
    (h0 : P s) : P s' := by
  induction h with
  | nil s => exact h0
  | cons hrun _ ih =>
    exact ih (fun r hr => hP r (List.mem_cons_of_mem _ hr)) (hP _ (by simp) _ _ h0 hrun)

theorem History.frame {f : φ} {rs : List ρ} {s s' : Files φ α}
    (hf : ∀ r ∈ rs, f ∉ targets (script r)) (h : History script rs s s') : s' f = s f :=
  h.inv (fun t => t f = s f) (fun r hr _ _ ht hrun => (hrun.frame (hf r hr)).trans ht) rfl

end Histories

end FileScript
