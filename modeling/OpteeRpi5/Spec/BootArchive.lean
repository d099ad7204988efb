import Mathlib.Data.Set.Basic
import OpteeRpi5.Native.BootPartition

/-!
# Nothing on the boot partition is lost

A run of one of the scripts can be killed at any point, and so can the next one. The
archive of the partition is everything that it holds of `config.txt`, `cmdline.txt`, the
two armstubs and the kernel, in place or in a backup. Each script saves a file before it
writes to it, under a name that has its start time in it, so the archive only ever grows.

## Key results

- `mem_targets_script`: the files that a run can write
- `guards_script`: a run saves a file first, or does not write to it at all
- `archive_grows`: over every sequence of runs that may be killed
-/

namespace OpteeRpi5.Spec

open OpteeRpi5.Native LineEdit FileScript

/-! ## Names -/

/-- The time in the name of a backup. -/
def stamp? : BootFile → Option Stamp
  | .configBackup s | .cmdlineBackup s | .stockStubBackup s | .opteeStubBackup s
  | .configRecover s | .opteeStubDisabled s | .kernelBak s => some s
  | _ => none

/-- The file that a backup is one of. The files in `optee` have none. -/
def original? : BootFile → Option BootFile
  | .config | .configBackup _ | .configRecover _ => some .config
  | .cmdline | .cmdlineBackup _ => some .cmdline
  | .stockStub | .stockStubBackup _ => some .stockStub
  | .opteeStub | .opteeStubBackup _ | .opteeStubDisabled _ => some .opteeStub
  | .kernel | .kernelBak _ => some .kernel
  | .tee _ => none

/-- The archive: the files with everything that the partition holds of them. -/
def archive (fs : BootFiles) : Set (BootFile × List Char) :=
  {p | ∃ f, original? f = some p.1 ∧ fs f = some p.2}

/-- There is no backup with this time yet. -/
def Unused (stamp : Stamp) (fs : BootFiles) : Prop :=
  ∀ f, stamp? f = some stamp → fs f = none

/-! ## What the scripts write -/

section Targets

variable {L : LcCtype} {stamp : Stamp} {drop : DropDir} {stub : List Char} {f : BootFile}

/-- The device files that are copied one after the other. -/
theorem mem_targets_tees {tees : List (String × Option (List Char))} :
    f ∈ targets (tees.map fun t => (.tryStore (.tee t.1) t.2 : BootCmd)) ↔
      ∃ t ∈ tees, f = .tee t.1 := by
  simp [targets, List.flatMap_map, Cmd.targets]

/-- The configuration step writes one file. -/
theorem mem_targets_configureBoot : f ∈ targets (configureBoot L) ↔ f = .config := by
  simp [configureBoot, ConfigTxt.installSettings, Cmd.targets]

/-- The backups of an installation all carry its stamp. -/
theorem mem_targets_backupBoot :
    f ∈ targets (backupBoot stamp) ↔ f = .configBackup stamp ∨ f = .cmdlineBackup stamp ∨
      f = .stockStubBackup stamp ∨ f = .opteeStubBackup stamp := by
  simp [backupBoot, Cmd.targets]

/-- All files that an installation writes. -/
theorem mem_targets_installBoot :
    f ∈ targets (installBoot L stamp drop stub) ↔
      f ∈ targets (backupBoot stamp) ∨ f = .opteeStub ∨ (∃ t ∈ drop.tees, f = .tee t.1) ∨
        f = .config := by
  rw [installBoot, targets_append, targets_append, targets_cons, List.mem_append, List.mem_append,
    List.mem_append, mem_targets_tees, mem_targets_configureBoot]
  simp [Cmd.targets, or_assoc]

/-- The scripts, up to the checks at their start. -/
theorem script_cases (r : BootRun) :
    (∃ checks drop stub, targets checks = [] ∧
      r.script = checks ++ installBoot r.locale r.stamp drop stub) ∨
    r.script = recoverBootWifi r.locale r.stamp ∨
    (∃ image, r.script = installKernel r.stamp (some image)) ∨
    r.script = [.check false] := by
  obtain ⟨job, stamp, L⟩ := r
  -- without a stub both installers stop in their first check
  cases job with
  | deploy drop =>
    cases hstub : drop.armstub with
    | none => exact .inr (.inr (.inr (by simp [BootRun.script, deployRemote, hstub])))
    | some stub =>
      refine .inl ⟨[.check (stub.length = expectedArmstubSize), .check (!drop.badOverlay)],
        drop, stub, rfl, ?_⟩
      simp [BootRun.script, deployRemote, hstub]
  | oneshot drop =>
    cases hstub : drop.armstub with
    | none => exact .inr (.inr (.inr (by simp [BootRun.script, remoteInstallOneshot, hstub])))
    | some stub =>
      refine .inl ⟨[.check (stub.length = expectedArmstubSize)], drop, stub, rfl, ?_⟩
      simp [BootRun.script, remoteInstallOneshot, hstub]
  | recover => exact .inr (.inl rfl)
  | kernel image =>
    cases image with
    | none => exact .inr (.inr (.inr rfl))
    | some image => exact .inr (.inr (.inl ⟨image, rfl⟩))

/-- What a run can write: three files, those in `optee`, and backups with its time. -/
theorem mem_targets_script {r : BootRun} (hf : f ∈ targets r.script) :
    (f = .config ∨ f = .opteeStub ∨ f = .kernel) ∨ (∃ name, f = .tee name) ∨
      stamp? f = some r.stamp := by
  rcases script_cases r with ⟨checks, drop, stub, hchecks, hr⟩ | hr | ⟨image, hr⟩ | hr
  · rw [hr, targets_append, hchecks, List.nil_append, mem_targets_installBoot,
      mem_targets_backupBoot] at hf
    rcases hf with (rfl | rfl | rfl | rfl) | rfl | ⟨t, _, rfl⟩ | rfl <;> simp [stamp?]
  · simp only [hr, recoverBootWifi, targets_cons, targets_nil, Cmd.targets, List.mem_append,
      List.mem_cons, List.not_mem_nil, or_false] at hf
    rcases hf with rfl | rfl | rfl | rfl <;> simp [stamp?]
  · simp only [hr, installKernel, targets_cons, targets_nil, Cmd.targets, List.mem_append,
      List.mem_cons, List.not_mem_nil, or_false] at hf
    rcases hf with rfl | rfl <;> simp [stamp?]
  · simp [hr, Cmd.targets] at hf

/-- A script writes backups with its own stamp only. -/
theorem mem_targets_stamp {r : BootRun} (hf : f ∈ targets r.script) {t : Stamp}
    (ht : stamp? f = some t) : t = r.stamp := by
  rcases mem_targets_script hf with (rfl | rfl | rfl) | ⟨name, rfl⟩ | hstamp
  all_goals simp_all [stamp?]

/-- The scripts only read `cmdline.txt` and the stock armstub. -/
theorem not_mem_targets_script {f : BootFile} (hf : f = .cmdline ∨ f = .stockStub) (r : BootRun) :
    f ∉ targets r.script := by
  intro hmem
  rcases hf with rfl | rfl
  · simpa [stamp?] using mem_targets_script hmem
  · simpa [stamp?] using mem_targets_script hmem

/-! ## Saving first -/

/-- The script saves the file under another name before it writes to it, or does not write
    to it at all. -/
def Guards (cs : List BootCmd) (f : BootFile) : Prop :=
  f ∉ targets cs ∨ ∃ b, SavesFirst cs f b ∧ f ≠ b ∧ original? b = original? f

/-- The files that are no backups, apart from those in `optee`. -/
def originals : List BootFile :=
  [.config, .cmdline, .stockStub, .opteeStub, .kernel]

/-- A file that is not a backup and has one is an original. -/
theorem mem_originals (hstamp : stamp? f = none) (hf : original? f ≠ none) : f ∈ originals := by
  cases f <;> simp_all [stamp?, original?, originals]

/-- `config.txt` is saved before it is edited. -/
theorem installBoot_saves_config :
    SavesFirst (installBoot L stamp drop stub) .config (.configBackup stamp) := by
  refine ⟨[], _, _, rfl, .inl rfl, by simp, ?_⟩
  simp [mem_targets_tees, mem_targets_configureBoot, Cmd.targets]

/-- The old stub is saved before it is replaced. -/
theorem installBoot_saves_opteeStub :
    SavesFirst (installBoot L stamp drop stub) .opteeStub (.opteeStubBackup stamp) := by
  refine ⟨(backupBoot stamp).take 3, _, _, rfl, .inr (.inl rfl), ?_, ?_⟩
  · simp [backupBoot, Cmd.targets]
  · simp [mem_targets_tees, mem_targets_configureBoot, Cmd.targets]

/-- The installation saves every original that it writes. -/
theorem guards_installBoot {checks : List BootCmd} (hchecks : targets checks = []) :
    ∀ f ∈ originals, Guards (checks ++ installBoot L stamp drop stub) f := by
  have has : ∀ f, f ∉ targets checks := by simp [hchecks]
  simp only [originals, List.forall_mem_cons, List.not_mem_nil, false_implies, implies_true,
    and_true]
  refine ⟨.inr ?_, .inl ?_, .inl ?_, .inr ?_, .inl ?_⟩
  · exact ⟨_, installBoot_saves_config.append (has _), by simp, rfl⟩
  · simp [hchecks, mem_targets_installBoot, mem_targets_backupBoot]
  · simp [hchecks, mem_targets_installBoot, mem_targets_backupBoot]
  · exact ⟨_, installBoot_saves_opteeStub.append (has _), by simp, rfl⟩
  · simp [hchecks, mem_targets_installBoot, mem_targets_backupBoot]

theorem guards_recoverBootWifi : ∀ f ∈ originals, Guards (recoverBootWifi L stamp) f := by
  simp only [originals, List.forall_mem_cons, List.not_mem_nil, false_implies, implies_true,
    and_true]
  refine ⟨.inr ⟨.configRecover stamp, ?_, by simp, rfl⟩, .inl ?_, .inl ?_,
    .inr ⟨.opteeStubDisabled stamp, ?_, by simp, rfl⟩, .inl ?_⟩
  · exact ⟨[], _, _, rfl, .inl rfl, by simp, by simp [Cmd.targets]⟩
  · simp [recoverBootWifi, Cmd.targets]
  · simp [recoverBootWifi, Cmd.targets]
  · -- the armstub is moved, and nothing comes after that
    exact ⟨(recoverBootWifi L stamp).take 2, _, [], rfl, .inr (.inr rfl),
      by simp [recoverBootWifi, Cmd.targets], by simp⟩
  · simp [recoverBootWifi, Cmd.targets]

theorem guards_installKernel {image : List Char} :
    ∀ f ∈ originals, Guards (installKernel stamp (some image)) f := by
  simp only [originals, List.forall_mem_cons, List.not_mem_nil, false_implies, implies_true,
    and_true]
  refine ⟨.inl ?_, .inl ?_, .inl ?_, .inl ?_, .inr ⟨.kernelBak stamp, ?_, by simp, rfl⟩⟩
  · simp [installKernel, Cmd.targets]
  · simp [installKernel, Cmd.targets]
  · simp [installKernel, Cmd.targets]
  · simp [installKernel, Cmd.targets]
  · exact ⟨[], _, _, rfl, .inl rfl, by simp, by simp [Cmd.targets]⟩

/-- Every script saves the originals that it writes before it writes them. -/
theorem guards_script (r : BootRun) : ∀ f ∈ originals, Guards r.script f := by
  rcases script_cases r with ⟨checks, drop, stub, hchecks, hr⟩ | hr | ⟨image, hr⟩ | hr
  · exact hr ▸ guards_installBoot hchecks
  · exact hr ▸ guards_recoverBootWifi
  · exact hr ▸ guards_installKernel
  · exact fun f _ => .inl (by simp [hr, Cmd.targets])

end Targets

/-! ## The archive -/

section Archive

variable {fs fs' mid : BootFiles}

/-- A run with a new time loses nothing. -/
theorem archive_subset {r : BootRun} (hfresh : Unused r.stamp fs) (h : Leaves r.script fs fs') :
    archive fs ⊆ archive fs' := by
  rintro ⟨o, a⟩ ⟨f, ho, ha⟩
  cases hstamp : stamp? f with
  | some t =>
    -- a backup of another run
    have hf : f ∉ targets r.script := by
      intro hmem
      rw [mem_targets_stamp hmem hstamp] at hstamp
      rw [hfresh f hstamp] at ha
      exact absurd ha (by simp)
    exact ⟨f, ho, (h.frame hf).trans ha⟩
  | none =>
    have hmem : f ∈ originals := mem_originals hstamp (by simp [ho])
    rcases guards_script r f hmem with hf | ⟨b, hsaves, hfb, hb⟩
    · exact ⟨f, ho, (h.frame hf).trans ha⟩
    · rcases h.saved hsaves hfb ha with ha' | ha'
      · exact ⟨f, ho, ha'⟩
      · exact ⟨b, hb.trans ho, ha'⟩

/-- A run leaves the other times unused. -/
theorem Unused.run {stamp : Stamp} (hunused : Unused stamp fs) {r : BootRun}
    (h : Leaves r.script fs fs') (hne : stamp ≠ r.stamp) : Unused stamp fs' := by
  intro f hf
  have hmem : f ∉ targets r.script := fun hmem => hne (mem_targets_stamp hmem hf)
  rw [h.frame hmem, hunused f hf]

/-- The times of the runs are different, and none of them is on the partition. -/
def FreshStamps (fs : BootFiles) (rs : List BootRun) : Prop :=
  (rs.map BootRun.stamp).Nodup ∧ ∀ r ∈ rs, Unused r.stamp fs

/-- After a run the stamps of the later runs are still fresh. -/
theorem FreshStamps.run {r : BootRun} {rs : List BootRun} (hfresh : FreshStamps fs (r :: rs))
    (h : Leaves r.script fs fs') : FreshStamps fs' rs := by
  obtain ⟨hnodup, hunused⟩ := hfresh
  rw [List.map_cons, List.nodup_cons] at hnodup
  refine ⟨hnodup.2, fun r' hr' => (hunused r' (by simp [hr'])).run h ?_⟩
  intro heq
  exact hnodup.1 (heq ▸ List.mem_map_of_mem hr')

/-- Induction on the runs. -/
theorem archive_subset_history {rs : List BootRun} (h : History BootRun.script rs fs fs')
    (hfresh : FreshStamps fs rs) : archive fs ⊆ archive fs' := by
  induction h with
  | nil fs => exact Set.Subset.refl _
  | cons hrun _ ih =>
    exact Set.Subset.trans (archive_subset (hfresh.2 _ (by simp)) hrun) (ih (hfresh.run hrun))

/-- After several runs the stamps of the later runs are still fresh. -/
theorem FreshStamps.history {before after : List BootRun}
    (h : History BootRun.script before fs mid) (hfresh : FreshStamps fs (before ++ after)) :
    FreshStamps mid after := by
  induction h with
  | nil fs => exact hfresh
  | cons hrun _ ih => exact ih (hfresh.run hrun)

end Archive

/-- Over every sequence of runs of the scripts, each of which may have been killed
    anywhere: what the partition holds of the files at any moment between two runs it still
    holds at the end. `cmdline.txt` and the stock armstub are never written. -/
theorem archive_grows {fs mid fs' : BootFiles} {before after : List BootRun}
    (hfresh : FreshStamps fs (before ++ after)) (hbefore : History BootRun.script before fs mid)
    (hafter : History BootRun.script after mid fs') :
    archive mid ⊆ archive fs' ∧ fs' .cmdline = fs .cmdline ∧ fs' .stockStub = fs .stockStub := by
  have hread : ∀ f, f = .cmdline ∨ f = .stockStub → fs' f = fs f := by
    intro f hf
    rw [hafter.frame fun r _ => not_mem_targets_script hf r,
      hbefore.frame fun r _ => not_mem_targets_script hf r]
  exact ⟨archive_subset_history hafter (hfresh.history hbefore), hread .cmdline (.inl rfl),
    hread .stockStub (.inr rfl)⟩

/-- A board with a kernel, and nothing else. -/
def kernelOnly : BootFiles :=
  Function.update (fun _ => none) .kernel (some "kernel".toList)

/-- The script is killed while it copies a new kernel over the old one. -/
theorem archive_grows_tornKernel :
    let torn := Function.update
      (Function.update kernelOnly (.kernelBak "20260101-120000") (some "kernel".toList))
      .kernel (some "ne".toList)
    archive kernelOnly ⊆ archive torn ∧
      torn .cmdline = kernelOnly .cmdline ∧ torn .stockStub = kernelOnly .stockStub := by
  intro torn
  have hfresh : FreshStamps kernelOnly
      ([] ++ [⟨.kernel (some "new".toList), "20260101-120000", .utf8⟩]) := by
    refine ⟨by decide, ?_⟩
    intro r _ f hf
    exact Function.update_of_ne (by rintro rfl; simp [stamp?] at hf) _ _
  exact archive_grows hfresh (.nil _)
    (.cons (.step rfl (.stop ⟨some "ne".toList, rfl⟩)) (.nil _))

end OpteeRpi5.Spec
