import OpteeRpi5.Native.BootConfig

/-!
# Install and recovery

The edits of `config.txt` are compared over all texts, in all locales. An install leaves a
text that is `Installed`: each of its settings stands in every line with that key, and every
line with the overlay is a comment. On such a text a second install changes nothing.
Recovery comments out the armstub with `# `, which is one of the comment marks that
`set_config` looks through, so the next install restores the line.

## Key results

- `Installed.install`, `install_of_installed`: what an install establishes, and that it
  changes nothing where this holds
- `install_recover`: an install undoes a recovery
- `edits_consistent`: install and recovery are idempotent, consistent with each other, and
  leave all other lines alone
-/

namespace OpteeRpi5.Spec

open OpteeRpi5.Native LineEdit

variable {L : LcCtype}

/-! ## Keys -/

/-- No line can start with both words. -/
def Apart (w w' : Line) : Prop :=
  w.isPrefixOf w' = false ∧ w'.isPrefixOf w = false

instance (w w' : Line) : Decidable (Apart w w') :=
  inferInstanceAs (Decidable (_ ∧ _))

/-- A line is marked with at most one of the keys. -/
theorem Apart.not_marked {w w' l : Line} (h : Apart w w') (hl : L.marked w' l = true) :
    L.marked w l = false := by
  by_contra hw
  rcases LcCtype.comparable_of_marked (by simpa using hw) hl with hpre | hpre
  · rw [← List.isPrefixOf_iff_prefix, h.1] at hpre
    exact absurd hpre (by decide)
  · rw [← List.isPrefixOf_iff_prefix, h.2] at hpre
    exact absurd hpre (by decide)

/-- The line of a setting is one that `sed` looks for. -/
theorem marked_line (L : LcCtype) (s : Setting) : L.marked s.word s.line = true := by
  have hskip : L.skipMark (s.word ++ s.value) = s.word ++ s.value :=
    LcCtype.skipMark_word s.word_solid _
  rw [LcCtype.marked, Setting.line, hskip, List.isPrefixOf_iff_prefix]
  exact List.prefix_append _ _

theorem armstubLine_solid : solid armstub.line = true := rfl

/-! ## Settings -/

/-- The lines with the key of `s` are there, and all give it its value. -/
def HasSetting (c : ConfigTxt L) (s : Setting) : Prop :=
  Settled (L.marked s.word) s.line c.lines

section Settings

variable {c : ConfigTxt L} {s t : Setting} {ss : List Setting}

/-- `set_config` sets what it is asked to set. -/
theorem hasSetting_setConfig (c : ConfigTxt L) (s : Setting) : HasSetting (c.setConfig s) s :=
  settled_upsert (marked_line L s)

/-- A setting that is already there is not written again. -/
theorem HasSetting.setConfig_eq (h : HasSetting c s) : c.setConfig s = c :=
  ConfigTxt.ext (upsert_of_settled h)

/-- Setting another key does not disturb it. -/
theorem HasSetting.setConfig (h : HasSetting c s) (hst : Apart s.word t.word) :
    HasSetting (c.setConfig t) s :=
  Settled.upsert h (fun _ => hst.not_marked) (marked_line L t)

/-- Neither does setting several other keys. -/
theorem HasSetting.foldl (h : HasSetting c s) (hss : ∀ t ∈ ss, Apart s.word t.word) :
    HasSetting (ss.foldl ConfigTxt.setConfig c) s := by
  induction ss generalizing c with
  | nil => exact h
  | cons t ss ih =>
    exact ih (h.setConfig (hss t (by simp))) (fun t ht => hss t (by simp [ht]))

/-- Settings with different keys do not undo each other. -/
theorem hasSetting_foldl (hss : ss.Pairwise fun s t => Apart s.word t.word) :
    ∀ s ∈ ss, HasSetting (ss.foldl ConfigTxt.setConfig c) s := by
  induction ss generalizing c with
  | nil => simp
  | cons t ss ih =>
    intro s hs
    obtain ⟨ht, hss⟩ := List.pairwise_cons.mp hss
    rcases List.mem_cons.mp hs with rfl | hs
    · exact (hasSetting_setConfig c s).foldl ht
    · exact ih hss s hs

/-- Settings that are all there leave the file as it is. -/
theorem foldl_setConfig_eq (h : ∀ s ∈ ss, HasSetting c s) :
    ss.foldl ConfigTxt.setConfig c = c := by
  induction ss with
  | nil => rfl
  | cons t ss ih =>
    rw [List.foldl_cons, (h t (by simp)).setConfig_eq]
    exact ih fun s hs => h s (by simp [hs])

end Settings

/-- The keys of an install differ from each other. -/
theorem installSettings_apart :
    ConfigTxt.installSettings.Pairwise fun s t => Apart s.word t.word := by
  decide

/-- None of the settings is an overlay line. -/
theorem installSettings_apart_dtoverlay :
    ∀ s ∈ ConfigTxt.installSettings, Apart s.word dtoverlay := by
  decide

/-! ## The overlay -/

/-- A line with the overlay is rewritten to a comment, with what follows the overlay. -/
theorem disableOverlay_eq {l : Line} (h : L.marked dtoverlay l = true) :
    ConfigTxt.disableOverlay L l = '#' :: L.skipMark l := by
  obtain ⟨rest, hrest⟩ := List.isPrefixOf_iff_prefix.mp h
  rw [ConfigTxt.disableOverlay, ← hrest, List.drop_left, List.cons_append]

/-- What follows the comment mark is the overlay again. -/
theorem skipMark_disableOverlay {l : Line} (h : L.marked dtoverlay l = true) :
    L.skipMark (ConfigTxt.disableOverlay L l) = L.skipMark l := by
  rw [disableOverlay_eq h, LcCtype.skipMark_comment]
  obtain ⟨rest, hrest⟩ := List.isPrefixOf_iff_prefix.mp h
  rw [← hrest]
  exact LcCtype.skip_word dtoverlay_solid rest

/-- A line that has been commented out still matches the pattern. -/
theorem marked_disableOverlay {l : Line} (h : L.marked dtoverlay l = true) :
    L.marked dtoverlay (ConfigTxt.disableOverlay L l) = true := by
  rw [LcCtype.marked, skipMark_disableOverlay h]
  exact h

/-- The test before the `sed` makes no difference. -/
theorem removeDtoverlay_lines (c : ConfigTxt L) :
    c.removeDtoverlay.lines = sub (L.marked dtoverlay) (ConfigTxt.disableOverlay L) c.lines := by
  show (if c.lines.any (L.marked dtoverlay) = true then _ else _) = _
  split
  · rfl
  · next hany =>
    exact (sub_eq_self fun l hl hm => absurd (List.any_eq_true.mpr ⟨l, hl, hm⟩) hany).symm

/-- Removing the overlay leaves the other settings. -/
theorem HasSetting.removeDtoverlay {c : ConfigTxt L} {s : Setting} (h : HasSetting c s)
    (hs : Apart s.word dtoverlay) : HasSetting c.removeDtoverlay s := by
  rw [HasSetting, removeDtoverlay_lines]
  exact Settled.sub h fun l hl =>
    ⟨hs.not_marked hl, hs.not_marked (marked_disableOverlay hl)⟩

/-! ## Installed texts -/

/-- What an install establishes. -/
structure Installed (c : ConfigTxt L) : Prop where
  settings : ∀ s ∈ ConfigTxt.installSettings, HasSetting c s
  overlay : ∀ l ∈ c.lines, L.marked dtoverlay l = true → ConfigTxt.disableOverlay L l = l

/-- An installation installs. -/
theorem Installed.install (c : ConfigTxt L) : Installed c.install where
  settings := fun s hs =>
    (hasSetting_foldl installSettings_apart s hs).removeDtoverlay
      (installSettings_apart_dtoverlay s hs)
  overlay := by
    intro l hl hm
    rw [ConfigTxt.install, removeDtoverlay_lines] at hl
    rcases mem_sub hl with ⟨l', _, hm', rfl⟩ | ⟨_, hm'⟩
    · -- a line that has been rewritten is rewritten to itself
      rw [disableOverlay_eq hm, skipMark_disableOverlay hm', disableOverlay_eq hm']
    · exact absurd hm (by simp [hm'])

/-- There is no overlay left to remove. -/
theorem removeDtoverlay_of_installed {c : ConfigTxt L} (h : Installed c) :
    c.removeDtoverlay = c := by
  apply ConfigTxt.ext
  rw [removeDtoverlay_lines]
  exact sub_eq_self h.overlay

/-- A second installation changes nothing. -/
theorem install_of_installed {c : ConfigTxt L} (h : Installed c) : c.install = c := by
  rw [ConfigTxt.install, foldl_setConfig_eq h.settings, removeDtoverlay_of_installed h]

/-! ## Recovery -/

/-- No line with `word` is in force. -/
def CommentedOut (word : Line) (c : ConfigTxt L) : Prop :=
  ∀ l ∈ c.lines, L.bare word l = false

theorem commentOut_eq {word : Line} {c : ConfigTxt L} (h : CommentedOut word c) :
    ConfigTxt.commentOut word c = c :=
  ConfigTxt.ext (sub_eq_self fun l hl hb => absurd hb (by simp [h l hl]))

/-- After `sed` has commented a word out no line starts with it. -/
theorem commentedOut_commentOut {word : Line} (hw : solid word = true) (c : ConfigTxt L) :
    CommentedOut word (ConfigTxt.commentOut word c) := by
  intro l hl
  rcases mem_sub hl with ⟨l', _, _, rfl⟩ | ⟨_, hb⟩
  · exact LcCtype.bare_comment hw _
  · exact hb

/-- Commenting out further lines puts no line into force. -/
theorem CommentedOut.commentOut {word word' : Line} (hw : solid word = true) {c : ConfigTxt L}
    (h : CommentedOut word c) : CommentedOut word (ConfigTxt.commentOut word' c) := by
  intro l hl
  rcases mem_sub hl with ⟨l', _, _, rfl⟩ | ⟨hl, _⟩
  · exact LcCtype.bare_comment hw _
  · exact h l hl

/-- The recovery comments out the stub and the overlay. -/
theorem commentedOut_recover (c : ConfigTxt L) :
    CommentedOut armstub.line c.recover ∧ CommentedOut dtoverlay c.recover :=
  ⟨(commentedOut_commentOut armstubLine_solid c).commentOut armstubLine_solid,
    commentedOut_commentOut dtoverlay_solid _⟩

/-- A second recovery changes nothing. -/
theorem recover_recover (c : ConfigTxt L) : c.recover.recover = c.recover := by
  obtain ⟨harm, hdt⟩ := commentedOut_recover c
  show ConfigTxt.commentOut dtoverlay (ConfigTxt.commentOut armstub.line c.recover) = c.recover
  rw [commentOut_eq harm, commentOut_eq hdt]

/-- After an install there is no overlay in force for the recovery to comment out. -/
theorem Installed.overlay_commentedOut {c : ConfigTxt L} (h : Installed c) :
    CommentedOut dtoverlay c := by
  intro l hl
  by_contra hb
  have hbare : L.bare dtoverlay l = true := by simpa using hb
  rw [← h.overlay l hl (LcCtype.marked_of_bare dtoverlay_solid hbare)] at hbare
  exact absurd hbare (by simp [ConfigTxt.disableOverlay, LcCtype.bare_comment dtoverlay_solid])

/-- A line that recovery comments out has the key of the armstub, before and after. -/
theorem marked_armstub {l : Line} (hl : L.bare armstub.line l = true) :
    L.marked armstub.word l = true ∧ L.marked armstub.word ("# ".toList ++ l) = true := by
  obtain ⟨s, rest, hs, rfl⟩ := (LcCtype.bare_iff armstubLine_solid l).mp hl
  have hline : s ++ (armstub.line ++ rest) = s ++ (armstub.word ++ (armstub.value ++ rest)) := by
    rw [Setting.line, List.append_assoc]
  rw [hline]
  refine ⟨(LcCtype.marked_iff armstub.word_solid _).mpr
    ⟨s, [], [], _, hs, .inl rfl, LcCtype.blank_nil, rfl⟩, ?_⟩
  -- the blank after the mark joins the white space of the line
  exact (LcCtype.marked_iff armstub.word_solid _).mpr
    ⟨[], ['#'], ' ' :: s, _, LcCtype.blank_nil, .inr rfl, hs.cons (by decide), rfl⟩

/-- Commenting the stub out leaves the settings with other keys. -/
theorem HasSetting.commentOut_armstub {c : ConfigTxt L} {s : Setting} (h : HasSetting c s)
    (hs : Apart s.word armstub.word) : HasSetting (ConfigTxt.commentOut armstub.line c) s :=
  Settled.sub h fun _ hl =>
    ⟨hs.not_marked (marked_armstub hl).1, hs.not_marked (marked_armstub hl).2⟩

/-- The install after a recovery restores the text: `# armstub=` is a line that
    `set_config` rewrites in place. -/
theorem install_recover {c : ConfigTxt L} (h : Installed c) : c.recover.install = c := by
  -- there is no overlay for the recovery to comment out
  have hrecover : c.recover = ConfigTxt.commentOut armstub.line c :=
    commentOut_eq (h.overlay_commentedOut.commentOut dtoverlay_solid)
  have h64 := (h.settings arm64bit (by simp [ConfigTxt.installSettings])).commentOut_armstub
    (by decide)
  have huart := (h.settings enableUart (by simp [ConfigTxt.installSettings])).commentOut_armstub
    (by decide)
  have harm : (ConfigTxt.commentOut armstub.line c).setConfig armstub = c :=
    ConfigTxt.ext (upsert_sub_of_settled
      (h.settings armstub (by simp [ConfigTxt.installSettings])) fun _ => marked_armstub)
  have hkernel := h.settings kernelAddress (by simp [ConfigTxt.installSettings])
  rw [hrecover, ConfigTxt.install]
  -- the calls of `set_config` in their order: the third one does the work
  simp only [ConfigTxt.installSettings, List.foldl_cons, List.foldl_nil]
  rw [h64.setConfig_eq, huart.setConfig_eq, harm, hkernel.setConfig_eq]
  exact removeDtoverlay_of_installed h

/-! ## Other lines -/

/-- The lines with one of the keys of the scripts. -/
def scriptLine (L : LcCtype) (l : Line) : Bool :=
  ConfigTxt.installSettings.any (fun s => L.marked s.word l) || L.marked dtoverlay l

/-- The lines that no pattern of the scripts matches. -/
def otherLines (c : ConfigTxt L) : List Line :=
  c.lines.filter fun l => !scriptLine L l

/-- The lines of the settings belong to the scripts. -/
theorem scriptLine_of_setting {s : Setting} (hs : s ∈ ConfigTxt.installSettings) {l : Line}
    (hl : L.marked s.word l = true) : scriptLine L l = true := by
  rw [scriptLine, List.any_eq_true.mpr ⟨s, hs, hl⟩, Bool.true_or]

theorem scriptLine_of_overlay {l : Line} (hl : L.marked dtoverlay l = true) :
    scriptLine L l = true := by
  rw [scriptLine, hl, Bool.or_true]

/-- The settings do not touch the other lines. -/
theorem otherLines_foldl {ss : List Setting} (hss : ss ⊆ ConfigTxt.installSettings)
    (c : ConfigTxt L) : otherLines (ss.foldl ConfigTxt.setConfig c) = otherLines c := by
  induction ss generalizing c with
  | nil => rfl
  | cons s ss ih =>
    obtain ⟨hs, hss⟩ := List.cons_subset.mp hss
    rw [List.foldl_cons, ih hss]
    exact filter_upsert (fun _ => scriptLine_of_setting hs)
      (scriptLine_of_setting hs (marked_line L s))

theorem otherLines_removeDtoverlay (c : ConfigTxt L) :
    otherLines c.removeDtoverlay = otherLines c := by
  rw [otherLines, removeDtoverlay_lines]
  exact filter_sub fun l hl =>
    ⟨scriptLine_of_overlay hl, scriptLine_of_overlay (marked_disableOverlay hl)⟩

/-- An installation keeps the other lines and their order. -/
theorem otherLines_install (c : ConfigTxt L) : otherLines c.install = otherLines c := by
  rw [ConfigTxt.install, otherLines_removeDtoverlay]
  exact otherLines_foldl (List.Subset.refl _) c

/-- A line that is commented out keeps its key. -/
theorem otherLines_commentOut {word : Line} {c : ConfigTxt L}
    (h : ∀ l, L.bare word l = true →
      scriptLine L l = true ∧ scriptLine L ("# ".toList ++ l) = true) :
    otherLines (ConfigTxt.commentOut word c) = otherLines c :=
  filter_sub h

/-- So does a recovery. -/
theorem otherLines_recover (c : ConfigTxt L) : otherLines c.recover = otherLines c := by
  have harm : armstub ∈ ConfigTxt.installSettings := by simp [ConfigTxt.installSettings]
  rw [ConfigTxt.recover, otherLines_commentOut, otherLines_commentOut]
  · intro l hl
    exact ⟨scriptLine_of_setting harm (marked_armstub hl).1,
      scriptLine_of_setting harm (marked_armstub hl).2⟩
  · intro l hl
    exact ⟨scriptLine_of_overlay (LcCtype.marked_of_bare dtoverlay_solid hl),
      scriptLine_of_overlay (LcCtype.marked_comment hl)⟩

/-- The edits of install and recovery on every text: each is idempotent, an install undoes
    a recovery, recovery leaves neither the armstub nor the overlay in force, and both keep
    the other lines and their order. -/
theorem edits_consistent (L : LcCtype) (c : ConfigTxt L) :
    c.install.install = c.install ∧
    c.recover.recover = c.recover ∧
    c.install.recover.install = c.install ∧
    (∀ l ∈ c.install.recover.lines, ∀ s rest : Line, L.Blank s →
      l ≠ s ++ (armstub.line ++ rest) ∧ l ≠ s ++ (dtoverlay ++ rest)) ∧
    otherLines c.install = otherLines c ∧
    otherLines c.recover = otherLines c := by
  have hinstalled := Installed.install c
  obtain ⟨harm, hdt⟩ := commentedOut_recover c.install
  refine ⟨install_of_installed hinstalled, recover_recover c, install_recover hinstalled, ?_,
    otherLines_install c, otherLines_recover c⟩
  -- after spaces, either text would be a line that the recovery has commented out
  intro l hl s rest hs
  constructor
  · intro heq
    have hbare := (LcCtype.bare_iff armstubLine_solid l).mpr ⟨s, rest, hs, heq⟩
    exact absurd hbare (by simp [harm l hl])
  · intro heq
    have hbare := (LcCtype.bare_iff dtoverlay_solid l).mpr ⟨s, rest, hs, heq⟩
    exact absurd hbare (by simp [hdt l hl])

end OpteeRpi5.Spec
