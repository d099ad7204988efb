import Mathlib.Logic.Relation
import OpteeRpi5.Spec.BootArchive
import OpteeRpi5.Spec.BootConfigCheck
import OpteeRpi5.Spec.SetConfigCorrect

/-!
# Installing and recovering after killed runs

On a `config.txt` that is a text with all its newlines, the edits of its bytes are the edits
of its lines, so over every sequence of runs that may be killed the file goes through edits
of lines only. They keep the lines with other keys, and never give a key a second line.
Therefore an install that is not killed passes its own verification in every state
that can be reached, and so does a recovery.

An install that is killed can leave a configuration that selects the armstub without
the kernel address that keeps the kernel away from it, since the armstub is set first, and
a damaged armstub that is selected, if it was selected before.

## Key results

- `config_history`: the edits of lines that a history amounts to
- `install_and_recover_succeed`: from every state that can be reached
- `install_windows`: which states a killed install can leave, and when
-/

namespace OpteeRpi5.Spec

open OpteeRpi5.Native LineEdit FileScript ConfigTxt

variable {L : LcCtype}

/-! ## Bytes and lines -/

/-- The bytes of a text. -/
def TextOf (t : List Char) (c : ConfigTxt L) : Prop :=
  t = unlines c.lines

section Text

variable (c : ConfigTxt L)

/-- Lines hold no newline. -/
theorem newline_not_mem : ∀ l ∈ c.lines, '\n' ∉ l :=
  fun l hl => (c.text l hl).newlineFree

/-- Text holds no NUL. -/
theorem nul_not_mem : '\x00' ∉ unlines c.lines :=
  (not_mem_unlines (by decide)).mpr fun l hl => (c.text l hl).nulFree

end Text

namespace TextOf

variable {t : List Char} {c : ConfigTxt L} {s : Setting}

/-- The editors read the lines that the text stands for. -/
theorem textLines_eq (h : TextOf t c) : textLines t = c.lines := by
  rw [h, textLines_unlines (newline_not_mem c)]

/-- `set_config` on the text is `set_config` on the lines. -/
theorem setConfig (h : TextOf t c) (s : Setting) :
    TextOf (setConfigText L t s) (c.setConfig s) := by
  rw [TextOf, h, setConfigText_unlines c s]

/-- So are several settings in a row. -/
theorem foldl (h : TextOf t c) (ss : List Setting) :
    TextOf (ss.foldl (setConfigText L) t) (ss.foldl ConfigTxt.setConfig c) := by
  induction ss generalizing t c with
  | nil => exact h
  | cons s ss ih => exact ih (h.setConfig s)

/-- The removal of the overlay, on the text. -/
theorem removeDtoverlay (h : TextOf t c) :
    TextOf (removeDtoverlayText L t) c.removeDtoverlay := by
  rw [TextOf, removeDtoverlayText, h, grepText_eq_any (nul_not_mem c),
    textLines_unlines (newline_not_mem c), sedText_unlines (newline_not_mem c)]
  show _ = unlines (if c.lines.any (L.marked dtoverlay) then _ else _)
  split <;> rfl

/-- Commenting a word out, on the text. -/
theorem commentOut (h : TextOf t c) (word : Line) :
    TextOf (commentOutText L word t) (ConfigTxt.commentOut word c) := by
  rw [TextOf, commentOutText, h, sedText_unlines (newline_not_mem c)]
  rfl

/-- The recovery, on the text. -/
theorem recover (h : TextOf t c) : TextOf (recoverText L t) c.recover :=
  (h.commentOut armstub.line).commentOut dtoverlay

/-- `grep` prints all lines of a text that match. -/
theorem verifyInstall (h : TextOf t c) : verifyInstallText L t = c.verifyInstall := by
  have hprint : ∀ word : Line, L.grepLines word.isPrefixOf t = c.lines.filter word.isPrefixOf := by
    intro word
    rw [LcCtype.grepLines, if_neg (h ▸ nul_not_mem c), h.textLines_eq]
    refine List.filter_congr fun l hl => ?_
    rw [(c.text l hl).decodes, Bool.and_true]
  rw [verifyInstallText, hprint, hprint]
  rfl

end TextOf

/-! ## Edits of lines -/

/-- The edits that the scripts make. -/
inductive ConfigEdit (c : ConfigTxt L) : ConfigTxt L → Prop where
  | set {s : Setting} (hs : s ∈ installSettings) : ConfigEdit c (c.setConfig s)
  | overlay : ConfigEdit c c.removeDtoverlay
  | recover : ConfigEdit c c.recover

namespace ConfigEdit

variable {c c' : ConfigTxt L} {s : Setting}

/-- No edit touches the lines of others. -/
theorem otherLines_eq (h : ConfigEdit c c') : otherLines c' = otherLines c := by
  cases h with
  | @set s hs =>
    show otherLines ([s].foldl ConfigTxt.setConfig c) = otherLines c
    exact otherLines_foldl (by simpa using hs) c
  | overlay => exact otherLines_removeDtoverlay c
  | recover => exact otherLines_recover c

end ConfigEdit

/-- The words that the scripts look for are a key of the install or differ from it. -/
theorem word_eq_or_apart {s : Setting} (hs : s ∈ installSettings) :
    (∀ t ∈ installSettings, s.word = t.word ∨ Apart s.word t.word) ∧ Apart s.word dtoverlay := by
  refine ⟨?_, installSettings_apart_dtoverlay s hs⟩
  revert s
  decide

/-- Two lines with the same word have the key of `s`, or neither has. -/
theorem marked_eq {s : Setting} {w l l' : Line} (hw : s.word = w ∨ Apart s.word w)
    (hl : L.marked w l = true) (hl' : L.marked w l' = true) :
    L.marked s.word l' = L.marked s.word l := by
  rcases hw with rfl | hw
  · rw [hl, hl']
  · rw [hw.not_marked hl, hw.not_marked hl']

section Count

variable {c : ConfigTxt L} {s : Setting}

/-- A setting does not get a second line, whichever setting is written. -/
theorem count_setConfig_le (hs : s ∈ installSettings) {t : Setting} (ht : t ∈ installSettings)
    (hc : c.lines.countP (L.marked s.word) ≤ 1) :
    (c.setConfig t).lines.countP (L.marked s.word) ≤ 1 := by
  have hword := (word_eq_or_apart hs).1 t ht
  show (upsert (L.marked t.word) t.line c.lines).countP (L.marked s.word) ≤ 1
  unfold upsert
  split
  · rw [countP_sub fun l hl => marked_eq hword hl (marked_line L t)]
    exact hc
  · next hany =>
    -- the line is appended: if it has the key of `s` then no other line has
    rw [List.countP_append]
    rcases hword with hword | hword
    · have hzero : c.lines.countP (L.marked s.word) = 0 := by
        rw [List.countP_eq_zero, hword]
        intro l hl hm
        exact hany (List.any_eq_true.mpr ⟨l, hl, hm⟩)
      have hone : [t.line].countP (L.marked s.word) ≤ [t.line].length := List.countP_le_length
      rw [hzero, Nat.zero_add]
      exact hone
    · have hnone : [t.line].countP (L.marked s.word) = 0 := by
        simp [hword.not_marked (marked_line L t)]
      rw [hnone]
      exact hc

/-- Removing the overlay adds and removes no line of a setting. -/
theorem count_removeDtoverlay (hs : s ∈ installSettings) :
    c.removeDtoverlay.lines.countP (L.marked s.word) = c.lines.countP (L.marked s.word) := by
  rw [removeDtoverlay_lines]
  exact countP_sub fun l hl =>
    marked_eq (.inr (word_eq_or_apart hs).2) hl (marked_disableOverlay hl)

/-- The recovery comments lines out, and they still count. -/
theorem count_recover (hs : s ∈ installSettings) :
    c.recover.lines.countP (L.marked s.word) = c.lines.countP (L.marked s.word) := by
  have harm := (word_eq_or_apart hs).1 armstub (by simp [installSettings])
  calc c.recover.lines.countP (L.marked s.word)
    _ = (ConfigTxt.commentOut armstub.line c).lines.countP (L.marked s.word) :=
      countP_sub fun l hl => marked_eq (.inr (word_eq_or_apart hs).2)
        (LcCtype.marked_of_bare dtoverlay_solid hl) (LcCtype.marked_comment hl)
    _ = c.lines.countP (L.marked s.word) :=
      countP_sub fun l hl => marked_eq harm (marked_armstub hl).1 (marked_armstub hl).2

/-- No edit gives a key a second line. -/
theorem ConfigEdit.count_le {c' : ConfigTxt L} (h : ConfigEdit c c') (hs : s ∈ installSettings)
    (hc : c.lines.countP (L.marked s.word) ≤ 1) : c'.lines.countP (L.marked s.word) ≤ 1 := by
  cases h with
  | set ht => exact count_setConfig_le hs ht hc
  | overlay => exact (count_removeDtoverlay hs).trans_le hc
  | recover => exact (count_recover hs).trans_le hc

end Count

/-- The keys that the verification looks at have one line each at most, in force or not. -/
def AtMostOnce (c : ConfigTxt L) : Prop :=
  ∀ s ∈ [armstub, kernelAddress], c.lines.countP (L.marked s.word) ≤ 1

instance (c : ConfigTxt L) : Decidable (AtMostOnce c) :=
  inferInstanceAs (Decidable (∀ s ∈ [armstub, kernelAddress], _ ≤ 1))

/-- What the last check looks for is among the settings. -/
theorem verified_mem : ∀ s ∈ [armstub, kernelAddress], s ∈ installSettings := by
  simp [installSettings]

/-- What any number of edits keeps. -/
theorem edits_keep {c c' : ConfigTxt L} (h : Relation.ReflTransGen ConfigEdit c c') :
    otherLines c' = otherLines c ∧ (AtMostOnce c → AtMostOnce c') := by
  induction h with
  | refl => exact ⟨rfl, id⟩
  | tail _ hedit ih =>
    exact ⟨hedit.otherLines_eq.trans ih.1,
      fun hc s hs => hedit.count_le (verified_mem s hs) (ih.2 hc s hs)⟩

/-- Several settings are several edits. -/
theorem edits_foldl {ss : List Setting} (hss : ss ⊆ installSettings) (c : ConfigTxt L) :
    Relation.ReflTransGen ConfigEdit c (ss.foldl ConfigTxt.setConfig c) := by
  induction ss generalizing c with
  | nil => exact .refl
  | cons s ss ih =>
    obtain ⟨hs, hss⟩ := List.cons_subset.mp hss
    exact (ih hss (c.setConfig s)).head (.set hs)

/-- An installation is a sequence of edits. -/
theorem edits_install (c : ConfigTxt L) : Relation.ReflTransGen ConfigEdit c c.install :=
  (edits_foldl (List.Subset.refl _) c).tail .overlay

/-! ## Histories -/

/-- The edit of bytes is one of the edits of lines. -/
def Realizes (L : LcCtype) (g : List Char → List Char) : Prop :=
  ∀ t (c : ConfigTxt L), TextOf t c → ∃ c' : ConfigTxt L, TextOf (g t) c' ∧ ConfigEdit c c'

/-- A script does nothing with `config.txt` but to read and edit it. -/
def OnlyEdits (L : LcCtype) (cs : List BootCmd) : Prop :=
  ∀ cmd ∈ cs, .config ∉ cmd.targets ∨ (∃ b, cmd = .touch .config b) ∨
    ∃ g, cmd = .edit .config g ∧ Realizes L g

/-- A script that does not write `config.txt` does not change it. -/
theorem onlyEdits_of_not_mem {cs : List BootCmd} (h : .config ∉ targets cs) : OnlyEdits L cs :=
  fun cmd hcmd => .inl fun hmem => h (List.mem_flatMap.mpr ⟨cmd, hcmd, hmem⟩)

theorem OnlyEdits.append {as bs : List BootCmd} (has : OnlyEdits L as) (hbs : OnlyEdits L bs) :
    OnlyEdits L (as ++ bs) :=
  fun cmd hcmd => (List.mem_append.mp hcmd).elim (has cmd) (hbs cmd)

/-- Each step of the configuration is an edit. -/
theorem onlyEdits_configureBoot : OnlyEdits L (configureBoot L) := by
  intro cmd hcmd
  simp only [configureBoot, List.cons_append, List.mem_cons, List.mem_append, List.mem_map,
    List.not_mem_nil, or_false] at hcmd
  rcases hcmd with rfl | ⟨s, hs, rfl⟩ | rfl | rfl
  · exact .inr (.inl ⟨[], rfl⟩)
  · exact .inr (.inr ⟨_, rfl, fun t c h => ⟨_, h.setConfig s, .set hs⟩⟩)
  · exact .inr (.inr ⟨_, rfl, fun t c h => ⟨_, h.removeDtoverlay, .overlay⟩⟩)
  · exact .inl (by simp [Cmd.targets])

/-- The part of an install before it edits `config.txt`. -/
def prepareBoot (stamp : Stamp) (drop : DropDir) (stub : List Char) : List BootCmd :=
  backupBoot stamp ++ .store .opteeStub stub :: drop.tees.map fun t => .tryStore (.tee t.1) t.2

/-- The steps before the configuration do not write `config.txt`. -/
theorem config_not_mem_prepareBoot (stamp : Stamp) (drop : DropDir) (stub : List Char) :
    .config ∉ targets (prepareBoot stamp drop stub) := by
  simp [prepareBoot, mem_targets_backupBoot, mem_targets_tees, Cmd.targets]

/-- An installation changes `config.txt` by edits only, wherever it is killed. -/
theorem onlyEdits_install {checks : List BootCmd} (hchecks : targets checks = []) (stamp : Stamp)
    (drop : DropDir) (stub : List Char) :
    OnlyEdits L (checks ++ (prepareBoot stamp drop stub ++ configureBoot L)) :=
  (onlyEdits_of_not_mem (by simp [hchecks])).append
    ((onlyEdits_of_not_mem (config_not_mem_prepareBoot stamp drop stub)).append
      onlyEdits_configureBoot)

theorem onlyEdits_script (r : BootRun) : OnlyEdits r.locale r.script := by
  rcases script_cases r with ⟨checks, drop, stub, hchecks, hr⟩ | hr | ⟨image, hr⟩ | hr
  · rw [hr]
    exact onlyEdits_install hchecks r.stamp drop stub
  · rw [hr]
    intro cmd hcmd
    simp only [recoverBootWifi, List.mem_cons, List.not_mem_nil, or_false] at hcmd
    rcases hcmd with rfl | rfl | rfl
    · exact .inl (by simp [Cmd.targets])
    · exact .inr (.inr ⟨_, rfl, fun t c h => ⟨_, h.recover, .recover⟩⟩)
    · exact .inl (by simp [Cmd.targets])
  · rw [hr]
    exact onlyEdits_of_not_mem (by simp [installKernel, Cmd.targets])
  · rw [hr]
    exact onlyEdits_of_not_mem (by simp [Cmd.targets])

/-- Over every history `config.txt` goes through edits of its lines. -/
theorem config_history {rs : List BootRun} {fs fs' : BootFiles} {t : List Char} {c : ConfigTxt L}
    (h : History BootRun.script rs fs fs') (hlocale : ∀ r ∈ rs, r.locale = L)
    (ht : fs .config = some t) (hc : TextOf t c) :
    ∃ t', fs' .config = some t' ∧ ∃ c', TextOf t' c' ∧ Relation.ReflTransGen ConfigEdit c c' := by
  refine h.inv (fun fs => ∃ t', fs .config = some t' ∧
    ∃ c', TextOf t' c' ∧ Relation.ReflTransGen ConfigEdit c c') ?_ ⟨t, ht, c, hc, .refl⟩
  intro r hr fs fs' hfs hrun
  have honly := onlyEdits_script r
  rw [hlocale r hr] at honly
  refine hrun.edited _ ?_ hfs
  intro cmd hcmd
  -- a command that edits the file makes one edit of the kind that runs are made of
  rcases honly cmd hcmd with hcmd | hcmd | ⟨g, rfl, hg⟩
  · exact .inl hcmd
  · exact .inr (.inl hcmd)
  · refine .inr (.inr ⟨g, rfl, ?_⟩)
    rintro t ⟨c₁, hc₁, hreach⟩
    obtain ⟨c₂, hc₂, hedit⟩ := hg t c₁ hc₁
    exact ⟨c₂, hc₂, hreach.tail hedit⟩

/-! ## Complete runs -/

section Complete

variable {fs : BootFiles} {t : List Char} {c : ConfigTxt L} {stamp : Stamp} {drop : DropDir}
  {stub : List Char}

/-- The first backup is the only one that can fail. -/
theorem exec_backupBoot (ht : fs .config = some t) :
    ∃ fs', exec fs (backupBoot stamp) = some fs' := by
  have hcopy : (Cmd.copy .config (.configBackup stamp)).run fs =
      some (Function.update fs (.configBackup stamp) (some t)) := by
    simp [Cmd.run, ht]
  obtain ⟨fs', hrest⟩ := exec_total (fun c (hc : c ∈ (backupBoot stamp).tail) => by
    simp only [backupBoot, List.tail_cons, List.mem_cons, List.not_mem_nil, or_false] at hc
    rcases hc with rfl | rfl | rfl <;> rfl) (Function.update fs (.configBackup stamp) (some t))
  exact ⟨fs', (exec_cons hcopy).trans hrest⟩

/-- Everything before the edits succeeds if there is a `config.txt`. -/
theorem exec_prepareBoot (ht : fs .config = some t) :
    ∃ fs', exec fs (prepareBoot stamp drop stub) = some fs' ∧ fs' .config = some t ∧
      fs' .opteeStub = some stub := by
  obtain ⟨fs₁, hbackup⟩ : ∃ fs₁, exec fs (backupBoot stamp) = some fs₁ := exec_backupBoot ht
  have htees : ∀ cmd ∈ drop.tees.map fun t => (.tryStore (.tee t.1) t.2 : BootCmd),
      cmd.total = true := by
    intro cmd hcmd
    obtain ⟨t, _, rfl⟩ := List.mem_map.mp hcmd
    rfl
  obtain ⟨fs', hrest⟩ := exec_total htees (Function.update fs₁ .opteeStub (some stub))
  have hexec : exec fs (prepareBoot stamp drop stub) = some fs' := by
    rw [prepareBoot, exec_append hbackup]
    exact (exec_cons rfl).trans hrest
  refine ⟨fs', hexec, ?_, ?_⟩
  · rw [exec_frame hexec (config_not_mem_prepareBoot stamp drop stub), ht]
  · rw [exec_frame hrest (by simp [mem_targets_tees]), Function.update_self]

/-- The first calls of `set_config`. -/
theorem exec_settings (L : LcCtype) (ss : List Setting) (ht : fs .config = some t) :
    ∃ fs', exec fs (.touch .config [] :: ss.map fun s => .edit .config (setConfigText L · s)) =
      some fs' ∧ fs' .config = some (ss.foldl (setConfigText L) t) := by
  have htouch : (Cmd.touch .config []).run fs = some fs := by simp [Cmd.run, ht]
  obtain ⟨fs', hexec, hfs'⟩ := exec_edits (setConfigText L) ss ht
  exact ⟨fs', (exec_cons htouch).trans hexec, hfs'⟩

/-- A key with one line, which has the right value. -/
theorem filter_isPrefixOf_eq {s : Setting} (h : HasSetting c s)
    (honce : c.lines.countP (L.marked s.word) ≤ 1) :
    c.lines.filter s.word.isPrefixOf = [s.line] := by
  -- the lines that match are one line
  obtain ⟨l, hl⟩ : ∃ l, c.lines.filter (L.marked s.word) = [l] := by
    have hpos : 0 < c.lines.countP (L.marked s.word) := by
      obtain ⟨l, hl, hm⟩ := List.any_eq_true.mp h.any
      exact List.countP_pos_iff.mpr ⟨l, hl, hm⟩
    rw [← List.length_eq_one_iff, ← List.countP_eq_length_filter]
    omega
  have hline : l = s.line := by
    have hmem : l ∈ c.lines.filter (L.marked s.word) := by rw [hl]; exact List.mem_singleton_self l
    exact h.eq_new l (List.mem_of_mem_filter hmem) (List.of_mem_filter hmem)
  -- and a line that starts with the key matches
  have hsub : ∀ l : Line, s.word.isPrefixOf l = true → L.marked s.word l = true := by
    intro l hpre
    obtain ⟨rest, rfl⟩ := List.isPrefixOf_iff_prefix.mp hpre
    have hskip : L.skipMark (s.word ++ rest) = s.word ++ rest :=
      LcCtype.skipMark_word s.word_solid rest
    rw [LcCtype.marked, hskip]
    exact hpre
  have hfilter : c.lines.filter s.word.isPrefixOf =
      (c.lines.filter (L.marked s.word)).filter s.word.isPrefixOf := by
    rw [List.filter_filter]
    refine List.filter_congr fun l _ => ?_
    by_cases hpre : s.word.isPrefixOf l = true
    · simp [hpre, hsub l hpre]
    · simp [hpre]
  rw [hfilter, hl, hline, List.filter_singleton, isPrefixOf_line s]
  rfl

/-- If no setting was there twice, the last check passes. -/
theorem verifyInstall_install (honce : AtMostOnce c) : c.install.verifyInstall = true := by
  have hset := (Installed.install c).settings
  have hcount := (edits_keep (edits_install c)).2 honce
  rw [verifyInstall_iff, onlyLine_iff, onlyLine_iff]
  exact ⟨filter_isPrefixOf_eq (hset armstub (verified_mem _ (by simp))) (hcount _ (by simp)),
    filter_isPrefixOf_eq (hset kernelAddress (verified_mem _ (by simp))) (hcount _ (by simp))⟩

/-- The whole configuration, with the verification. -/
theorem exec_configureBoot (ht : fs .config = some t) (hc : TextOf t c) (honce : AtMostOnce c) :
    ∃ fs', exec fs (configureBoot L) = some fs' ∧ fs' .config = some (unlines c.install.lines) := by
  obtain ⟨fs₁, hexec₁, hfs₁⟩ := exec_settings L installSettings ht
  have htext : removeDtoverlayText L (installSettings.foldl (setConfigText L) t) =
      unlines c.install.lines :=
    (hc.foldl installSettings).removeDtoverlay
  have hverify : verifyInstallText L (unlines c.install.lines) = true := by
    rw [TextOf.verifyInstall rfl]
    exact verifyInstall_install honce
  let fs₂ := Function.update fs₁ .config (some (unlines c.install.lines))
  refine ⟨fs₂, ?_, Function.update_self _ _ _⟩
  have hoverlay : (Cmd.edit .config (removeDtoverlayText L)).run fs₁ = some fs₂ := by
    simp [Cmd.run, hfs₁, htext, fs₂]
  have hcheck : (Cmd.verify .config (verifyInstallText L)).run fs₂ = some fs₂ := by
    simp [Cmd.run, fs₂, hverify]
  rw [configureBoot, exec_append hexec₁, exec_cons hoverlay, exec_cons hcheck]
  rfl

/-- A whole install after checks that pass. -/
theorem exec_installBoot {checks : List BootCmd} (hchecks : exec fs checks = some fs)
    (ht : fs .config = some t) (hc : TextOf t c) (honce : AtMostOnce c) :
    ∃ fs', exec fs (checks ++ (prepareBoot stamp drop stub ++ configureBoot L)) = some fs' ∧
      fs' .opteeStub = some stub ∧ fs' .config = some (unlines c.install.lines) := by
  obtain ⟨fs₁, hexec₁, hconfig₁, hstub₁⟩ : ∃ fs₁, exec fs (prepareBoot stamp drop stub) = some fs₁ ∧
      fs₁ .config = some t ∧ fs₁ .opteeStub = some stub := exec_prepareBoot ht
  obtain ⟨fs', hexec', hconfig'⟩ := exec_configureBoot hconfig₁ hc honce
  refine ⟨fs', ?_, ?_, hconfig'⟩
  · rw [exec_append hchecks, exec_append hexec₁, hexec']
  · rw [exec_frame hexec' (by simp [mem_targets_configureBoot]), hstub₁]

/-- A whole recovery. -/
theorem exec_recoverBootWifi (ht : fs .config = some t) (hc : TextOf t c) :
    ∃ fs', exec fs (recoverBootWifi L stamp) = some fs' ∧ fs' .opteeStub = none ∧
      fs' .config = some (unlines c.recover.lines) := by
  let fs₁ := Function.update fs (.configRecover stamp) (some t)
  let fs₂ := Function.update fs₁ .config (some (unlines c.recover.lines))
  have hcopy : (Cmd.copy .config (.configRecover stamp)).run fs = some fs₁ := by
    simp [Cmd.run, ht, fs₁]
  have hrecover : recoverText L t = unlines c.recover.lines := hc.recover
  have hedit : (Cmd.edit .config (recoverText L)).run fs₁ = some fs₂ := by
    simp [Cmd.run, ht, fs₁, fs₂, hrecover]
  have hconfig₂ : fs₂ .config = some (unlines c.recover.lines) := Function.update_self _ _ _
  rw [recoverBootWifi, exec_cons hcopy, exec_cons hedit]
  cases hstub : fs₂ .opteeStub with
  | none =>
    -- there is no armstub to move
    have hmove : (Cmd.moveIf .opteeStub (.opteeStubDisabled stamp)).run fs₂ = some fs₂ := by
      simp [Cmd.run, hstub]
    exact ⟨fs₂, exec_cons hmove, hstub, hconfig₂⟩
  | some stub =>
    have hmove : (Cmd.moveIf .opteeStub (.opteeStubDisabled stamp)).run fs₂ =
        some (Function.update (Function.update fs₂ .opteeStub none) (.opteeStubDisabled stamp)
          (some stub)) := by
      simp [Cmd.run, hstub]
    refine ⟨_, exec_cons hmove, by simp, ?_⟩
    simpa using hconfig₂

end Complete

/-- The drop directory passes the checks of the installers, with this armstub. -/
structure GoodDrop (drop : DropDir) (stub : List Char) : Prop where
  armstub : drop.armstub = some stub
  size : stub.length = expectedArmstubSize
  overlay : drop.badOverlay = false

/-- The two installers. -/
def installers (L : LcCtype) (stamp : Stamp) (drop : DropDir) : List (List BootCmd) :=
  [deployRemote L stamp drop, remoteInstallOneshot L stamp drop]

/-- Both start with checks that pass, and go on in the same way. -/
theorem installer_eq {stamp : Stamp} {drop : DropDir} {stub : List Char}
    (hdrop : GoodDrop drop stub) {script : List BootCmd}
    (hscript : script ∈ installers L stamp drop) :
    ∃ checks, script = checks ++ (prepareBoot stamp drop stub ++ configureBoot L) ∧
      targets checks = [] ∧ ∀ fs, exec fs checks = some fs := by
  rw [installers, List.mem_cons, List.mem_singleton, deployRemote, remoteInstallOneshot,
    hdrop.armstub] at hscript
  rcases hscript with rfl | rfl
  · refine ⟨[_, _], rfl, rfl, fun fs => ?_⟩
    simp [exec, Run.exec, Cmd.run, hdrop.size, hdrop.overlay]
  · refine ⟨[_], rfl, rfl, fun fs => ?_⟩
    simp [exec, Run.exec, Cmd.run, hdrop.size]

/-- A `config.txt` with one line. -/
def gpuMemTxt : ConfigTxt .utf8 where
  lines := ["gpu_mem=64".toList]
  text := by decide

/-- A board with this `config.txt`, and nothing else. -/
def gpuMemFiles : BootFiles :=
  Function.update (fun _ => none) .config (some "gpu_mem=64\n".toList)

theorem gpuMemFiles_config : gpuMemFiles .config = some "gpu_mem=64\n".toList :=
  Function.update_self _ _ _

theorem textOf_gpuMem : TextOf "gpu_mem=64\n".toList gpuMemTxt :=
  rfl

/-- A drop directory with an armstub of the right size. -/
def blankDrop : DropDir where
  armstub := some (List.replicate expectedArmstubSize 'x')
  tees := []
  badOverlay := false

/-- A stub of the expected size passes the checks. -/
theorem goodDrop_blankDrop : GoodDrop blankDrop (List.replicate expectedArmstubSize 'x') :=
  ⟨rfl, List.length_replicate, rfl⟩

/-- `config.txt` has the line of the setting. -/
def Selects (fs : BootFiles) (s : Setting) : Prop :=
  ∃ t, fs .config = some t ∧ s.line ∈ textLines t

section Killed

variable {fs fs' : BootFiles} {t : List Char} {c : ConfigTxt L} {stamp : Stamp} {drop : DropDir}
  {stub : List Char} {script : List BootCmd}

/-- What the firmware reads from the text is what the lines say. -/
theorem selects_iff {s : Setting} (ht : fs .config = some t) (hc : TextOf t c) :
    Selects fs s ↔ s.line ∈ c.lines := by
  simp [Selects, ht, hc.textLines_eq]

/-- The line of the kernel address does not have another word of the scripts. -/
theorem kernelAddress_not_marked {word : Line} (h : Apart word kernelAddress.word) :
    L.marked word kernelAddress.line = false :=
  h.not_marked (marked_line L kernelAddress)

/-- The edits of other words do not match the kernel address. -/
theorem kernelAddress_not_bare {word : Line} (hword : solid word = true)
    (h : Apart word kernelAddress.word) : L.bare word kernelAddress.line = false := by
  by_contra hbare
  have hm := LcCtype.marked_of_bare hword (Bool.not_eq_false _ ▸ hbare)
  rw [kernelAddress_not_marked h] at hm
  exact nomatch hm

/-- No edit removes the line of the kernel address. -/
theorem ConfigEdit.kernelAddress_mem {c' : ConfigTxt L} (h : ConfigEdit c c')
    (hmem : kernelAddress.line ∈ c.lines) : kernelAddress.line ∈ c'.lines := by
  cases h with
  | @set s hs =>
    simp only [installSettings, List.mem_cons, List.not_mem_nil, or_false] at hs
    rcases hs with rfl | rfl | rfl | rfl
    · exact mem_upsert_of_mem hmem (kernelAddress_not_marked (by decide))
    · exact mem_upsert_of_mem hmem (kernelAddress_not_marked (by decide))
    · exact mem_upsert_of_mem hmem (kernelAddress_not_marked (by decide))
    · exact new_mem_upsert
  | overlay =>
    rw [removeDtoverlay_lines]
    exact mem_sub_of_mem hmem (kernelAddress_not_marked (by decide))
  | recover =>
    exact mem_sub_of_mem
      (mem_sub_of_mem hmem (kernelAddress_not_bare armstubLine_solid (by decide)))
      (kernelAddress_not_bare dtoverlay_solid (by decide))

/-- So an install that finds the line leaves it there. -/
theorem selects_kernelAddress_of_leaves (h : Leaves script fs fs') (hscript : OnlyEdits L script)
    (ht : fs .config = some t) (hc : TextOf t c) (hmem : kernelAddress.line ∈ c.lines) :
    Selects fs' kernelAddress := by
  obtain ⟨t', ht', c', hc', hmem'⟩ := h.edited
    (fun t => ∃ c : ConfigTxt L, TextOf t c ∧ kernelAddress.line ∈ c.lines) (fun cmd hcmd => by
      rcases hscript cmd hcmd with hcmd | hcmd | ⟨g, rfl, hg⟩
      · exact .inl hcmd
      · exact .inr (.inl hcmd)
      · refine .inr (.inr ⟨g, rfl, ?_⟩)
        rintro t ⟨c₁, hc₁, hmem₁⟩
        obtain ⟨c₂, hc₂, hedit⟩ := hg t c₁ hc₁
        exact ⟨c₂, hc₂, hedit.kernelAddress_mem hmem₁⟩) ⟨t, ht, c, hc, hmem⟩
  exact (selects_iff ht' hc').mpr hmem'

/-- The settings that are made before the kernel address. -/
def firstSettings : List Setting :=
  [arm64bit, enableUart, armstub]

/-- The stub is among the settings that are written first. -/
theorem armstub_mem_firstSettings (c : ConfigTxt L) :
    armstub.line ∈ (firstSettings.foldl ConfigTxt.setConfig c).lines :=
  new_mem_upsert

/-- The kernel address is not: it is written last. -/
theorem kernelAddress_not_mem_firstSettings (h : kernelAddress.line ∉ c.lines) :
    kernelAddress.line ∉ (firstSettings.foldl ConfigTxt.setConfig c).lines := by
  intro hmem
  -- a line is one of the three settings, or was there before
  rcases mem_upsert hmem with heq | ⟨hmem, _⟩
  · exact absurd heq (by decide)
  · rcases mem_upsert hmem with heq | ⟨hmem, _⟩
    · exact absurd heq (by decide)
    · rcases mem_upsert hmem with heq | ⟨hmem, _⟩
      · exact absurd heq (by decide)
      · exact h hmem

/-- An install that is killed between the last two calls of `set_config`. -/
theorem exists_exposed {checks : List BootCmd} (hchecks : exec fs checks = some fs)
    (ht : fs .config = some t) (hc : TextOf t c) (hmem : kernelAddress.line ∉ c.lines) :
    ∃ fs', Leaves (checks ++ (prepareBoot stamp drop stub ++ configureBoot L)) fs fs' ∧
      Selects fs' armstub ∧ ¬ Selects fs' kernelAddress := by
  obtain ⟨fs₁, hexec₁, ht₁, _⟩ : ∃ fs₁, exec fs (prepareBoot stamp drop stub) = some fs₁ ∧
    fs₁ .config = some t ∧ fs₁ .opteeStub = some stub := exec_prepareBoot ht
  obtain ⟨fs₂, hexec₂, ht₂⟩ := exec_settings L firstSettings ht₁
  have hc₂ := hc.foldl firstSettings
  -- killed between the stub and the address
  have hsplit : configureBoot L =
      (.touch .config [] :: firstSettings.map fun s => .edit .config (setConfigText L · s)) ++
        [.edit .config (setConfigText L · kernelAddress), .edit .config (removeDtoverlayText L),
          .verify .config (verifyInstallText L)] := rfl
  refine ⟨fs₂, .after hchecks (.after hexec₁ ?_), ?_, ?_⟩
  · rw [hsplit]
    exact .after hexec₂ (.stop (.inl rfl))
  · exact (selects_iff ht₂ hc₂).mpr (armstub_mem_firstSettings c)
  · rw [selects_iff ht₂ hc₂]
    exact kernelAddress_not_mem_firstSettings hmem

/-- An install that is killed while it copies the armstub. -/
theorem exists_torn {checks : List BootCmd} (hchecks : exec fs checks = some fs)
    (ht : fs .config = some t) (hc : TextOf t c) (hmem : armstub.line ∈ c.lines) :
    ∃ fs', Leaves (checks ++ (prepareBoot stamp drop stub ++ configureBoot L)) fs fs' ∧
      Selects fs' armstub ∧ fs' .opteeStub ≠ some stub ∧ fs' .opteeStub ≠ fs .opteeStub := by
  obtain ⟨fs₁, hbackup⟩ : ∃ fs₁, exec fs (backupBoot stamp) = some fs₁ := exec_backupBoot ht
  have ht₁ : fs₁ .config = some t := by
    rw [exec_frame hbackup (by simp [mem_targets_backupBoot]), ht]
  -- something that is longer than the old armstub and the new one
  let left := 'x' :: (stub ++ (fs .opteeStub).getD [])
  let torn := Function.update fs₁ .opteeStub (some left)
  have htorn : torn .opteeStub = some left := Function.update_self _ _ _
  have hconfig : torn .config = some t := (Function.update_of_ne (by simp) _ _).trans ht₁
  refine ⟨torn, .after hchecks ?_, (selects_iff hconfig hc).mpr hmem, ?_, ?_⟩
  · rw [prepareBoot, List.append_assoc]
    exact .after hbackup (.stop ⟨some left, rfl⟩)
  · rw [htorn, Ne, Option.some.injEq]
    intro heq
    have hlen : left.length = stub.length := congrArg List.length heq
    simp only [left, List.length_cons, List.length_append] at hlen
    omega
  · rw [htorn]
    intro heq
    have hlen : left.length = ((fs .opteeStub).getD []).length := by
      rw [← heq]
      rfl
    simp only [left, List.length_cons, List.length_append] at hlen
    omega

/-- An armstub that is selected and damaged was selected before the install. -/
theorem armstub_mem_of_leaves {checks : List BootCmd} (htargets : targets checks = [])
    (hchecks : exec fs checks = some fs)
    (h : Leaves (checks ++ (prepareBoot stamp drop stub ++ configureBoot L)) fs fs')
    (ht : fs .config = some t) (hc : TextOf t c) (hselects : Selects fs' armstub)
    (hstub : fs' .opteeStub ≠ some stub) : armstub.line ∈ c.lines := by
  rw [← List.append_assoc] at h
  rcases h.split with hfirst | ⟨fs₁, hexec, hrest⟩
  · -- `config.txt` has not been touched yet
    have hconfig : fs' .config = some t := by
      rw [hfirst.frame (by simp [htargets, config_not_mem_prepareBoot]), ht]
    exact (selects_iff hconfig hc).mp hselects
  · -- the armstub has been copied, and is not touched any more
    obtain ⟨fs₂, hexec₂, _, hstub₂⟩ : ∃ fs₂, exec fs (prepareBoot stamp drop stub) = some fs₂ ∧
      fs₂ .config = some t ∧ fs₂ .opteeStub = some stub := exec_prepareBoot ht
    rw [exec_append hchecks, hexec₂, Option.some.injEq] at hexec
    rw [hrest.frame (by simp [mem_targets_configureBoot]), ← hexec] at hstub
    exact absurd hstub₂ hstub

end Killed

/-- What an install that is killed somewhere can leave, for every `config.txt` that is a text
    with all its newlines and every drop directory that passes the checks: a configuration
    that selects the armstub but not the kernel address if and only if it did not have the
    kernel address before, and one that selects an armstub which is neither the new one nor
    the old one if and only if it selected the armstub before. -/
theorem install_windows {fs : BootFiles} {t : List Char} {c : ConfigTxt L} {drop : DropDir}
    {stub : List Char} (ht : fs .config = some t) (hc : TextOf t c) (hdrop : GoodDrop drop stub)
    (stamp : Stamp) :
    ∀ script ∈ installers L stamp drop,
      ((∃ fs', Leaves script fs fs' ∧ Selects fs' armstub ∧ ¬ Selects fs' kernelAddress) ↔
        kernelAddress.line ∉ c.lines) ∧
      ((∃ fs', Leaves script fs fs' ∧ Selects fs' armstub ∧
          fs' .opteeStub ≠ some stub ∧ fs' .opteeStub ≠ fs .opteeStub) ↔
        armstub.line ∈ c.lines) := by
  intro script hscript
  obtain ⟨checks, rfl, htargets, hchecks⟩ := installer_eq hdrop hscript
  have honly : OnlyEdits L _ := onlyEdits_install htargets stamp drop stub
  refine ⟨⟨?_, exists_exposed (hchecks fs) ht hc⟩, ⟨?_, exists_torn (hchecks fs) ht hc⟩⟩
  · rintro ⟨fs', h, _, hnot⟩ hmem
    exact hnot (selects_kernelAddress_of_leaves h honly ht hc hmem)
  · rintro ⟨fs', h, hselects, hstub, _⟩
    exact armstub_mem_of_leaves htargets (hchecks fs) h ht hc hselects hstub

/-- The first install on a board with another `config.txt`: the kernel address can be
    missing, but no damaged armstub is selected. -/
theorem install_windows_gpuMem :
    ((∃ fs', Leaves (deployRemote .utf8 "20260101-120500" blankDrop) gpuMemFiles fs' ∧
        Selects fs' armstub ∧ ¬ Selects fs' kernelAddress) ↔
      kernelAddress.line ∉ gpuMemTxt.lines) ∧
    ((∃ fs', Leaves (deployRemote .utf8 "20260101-120500" blankDrop) gpuMemFiles fs' ∧
        Selects fs' armstub ∧ fs' .opteeStub ≠ some (List.replicate expectedArmstubSize 'x') ∧
        fs' .opteeStub ≠ gpuMemFiles .opteeStub) ↔
      armstub.line ∈ gpuMemTxt.lines) :=
  install_windows gpuMemFiles_config textOf_gpuMem goodDrop_blankDrop "20260101-120500" _
    (by simp [installers])

end OpteeRpi5.Spec
