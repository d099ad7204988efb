import OpteeRpi5.Spec.BootConfigEdit

/-!
# When `set_config` updates a single key

`set_config` rewrites every line that matches the key, so two matches become two equal
lines. What follows the first byte of such a line that is no character of the locale stays
where it is. If there is no match it appends to the file, and thereby to a last line that
has no newline. A match that only `grep` sees, after a null character, leaves the file as
it is.

## Key results

- `setConfigText_unlines`: on a text this is the edit of lines
- `singleKeyUpdate_iff`: for which files the call is a proper update
-/

namespace OpteeRpi5.Spec

open OpteeRpi5.Native LineEdit ConfigTxt

/-- A proper update of the key of `s` from `t` to `t'`. -/
structure SingleKeyUpdate (L : LcCtype) (s : Setting) (t t' : List Char) : Prop where
  one : (textLines t').count s.line = 1
  noOther : ∀ l ∈ textLines t', L.bare s.word l = true → l = s.line
  others : (textLines t').filter (fun l => !L.marked s.word l) =
    (textLines t).filter (fun l => !L.marked s.word l)
  again : setConfigText L t' s = t'

section Setting

variable {L : LcCtype} {s : Setting} {t : List Char}

/-- The line of a setting is not empty. -/
theorem line_ne_nil (s : Setting) : s.line ≠ [] := by
  simp [Setting.line, Setting.word]

/-- A line that matches is a line that `grep` sees: nothing up to the key is a null
    character. -/
theorem grepText_of_marked {l : Line} (hl : l ∈ textLines t) (hm : L.marked s.word l = true) :
    grepText (L.marked s.word) t = true := by
  obtain ⟨sp, m, sp', rest, hsp, hmark, hsp', rfl⟩ := (LcCtype.marked_iff s.word_solid l).mp hm
  have hfree : ∀ c ∈ sp ++ (m ++ (sp' ++ s.word)), decide (c ≠ '\x00') = true := by
    rintro c hc
    rw [decide_eq_true_iff]
    rintro rfl
    simp only [List.mem_append] at hc
    rcases hc with hc | hc | hc | hc
    · exact hsp.nul_not_mem hc
    · rcases hmark with rfl | rfl
      · exact absurd hc List.not_mem_nil
      · exact absurd hc (by decide)
    · exact hsp'.nul_not_mem hc
    · exact s.nul_not_mem_line (List.mem_append_left _ hc)
  -- so the part of the line that `grep` sees matches as well
  have htake : (sp ++ (m ++ (sp' ++ (s.word ++ rest)))).takeWhile (· ≠ '\x00') =
      sp ++ (m ++ (sp' ++ (s.word ++ rest.takeWhile (· ≠ '\x00')))) := by
    have h := @List.takeWhile_append_of_pos _ _ _ rest hfree
    simpa only [List.append_assoc] using h
  have hmem := takeWhile_mem_textLines hl
  rw [htake] at hmem
  refine List.any_eq_true.mpr ⟨_, hmem, ?_⟩
  exact (LcCtype.marked_iff s.word_solid _).mpr ⟨sp, m, sp', _, hsp, hmark, hsp', rfl⟩

/-- Where `grep` finds nothing there is no line that matches. -/
private theorem marked_eq_false (hgrep : grepText (L.marked s.word) t = false) {l : Line}
    (hl : l ∈ textLines t) : L.marked s.word l = false := by
  by_contra hm
  rw [Bool.not_eq_false] at hm
  rw [grepText_of_marked hl hm] at hgrep
  exact nomatch hgrep

/-! ## Rewriting -/

/-- What `sed` makes of a line that matches: the rest is what of it is not text. -/
theorem rewriteLine_eq {l : Line} (hm : L.marked s.word l = true) :
    rewriteLine L s l = s.line ++ L.afterDots l := by
  rw [rewriteLine, LcCtype.afterDots_marked s.word_solid hm]

/-- A line is replaced as a whole if it is text; else its rest is kept. -/
theorem rewriteLine_eq_line_iff {l : Line} (hm : L.marked s.word l = true) :
    rewriteLine L s l = s.line ↔ L.decodes l = true := by
  rw [rewriteLine_eq hm, List.append_right_eq_self, LcCtype.decodes_iff]

/-- A line that starts with the word of the setting is a line in force. -/
theorem bare_word (s : Setting) (rest : Line) : L.bare s.word (s.word ++ rest) = true :=
  (LcCtype.bare_iff s.word_solid _).mpr ⟨[], rest, LcCtype.blank_nil, rfl⟩

/-- The key is in force in a line that has been rewritten. -/
theorem bare_rewriteLine (s : Setting) (l : Line) : L.bare s.word (rewriteLine L s l) = true := by
  rw [rewriteLine, Setting.line, List.append_assoc]
  exact bare_word s _

/-- A rewritten line still has the key. -/
theorem marked_rewriteLine (s : Setting) (l : Line) :
    L.marked s.word (rewriteLine L s l) = true :=
  LcCtype.marked_of_bare s.word_solid (bare_rewriteLine s l)

/-- `sed` leaves as many lines with the setting as there were lines of text that match. -/
theorem count_sub_line (ls : List Line) :
    (sub (L.marked s.word) (rewriteLine L s) ls).count s.line =
      ls.countP fun l => L.marked s.word l && L.decodes l := by
  induction ls with
  | nil => rfl
  | cons l ls ih =>
    rw [sub, List.map_cons, ← sub, List.count_cons, List.countP_cons, ih]
    by_cases hm : L.marked s.word l = true
    · have hiff := rewriteLine_eq_line_iff hm
      by_cases hd : L.decodes l = true
      · simp [hm, hd, hiff.mpr hd]
      · have hne : rewriteLine L s l ≠ s.line := fun h => hd (hiff.mp h)
        simp [hm, hd, hne]
    · have hne : l ≠ s.line := fun h => hm (h ▸ marked_line L s)
      simp [hm, hne]

/-- The lines after `sed` has run. -/
theorem textLines_rewritten (t : List Char) :
    textLines (sedText (L.marked s.word) (rewriteLine L s) t) =
      sub (L.marked s.word) (rewriteLine L s) (textLines t) := by
  refine textLines_sedText fun l hl _ => ⟨?_, ?_⟩
  · rw [rewriteLine, List.mem_append, not_or]
    refine ⟨s.newline_not_mem_line, fun h => newline_not_mem_line hl ?_⟩
    exact (L.skipMark_sublist l).mem (List.mem_of_mem_drop ((dropRun_sublist 0 _).mem h))
  · rw [rewriteLine]
    simp [line_ne_nil]

/-- A second call finds the line and rewrites it to itself. -/
theorem setConfigText_again (hmem : s.line ∈ textLines t)
    (honly : ∀ l ∈ textLines t, L.marked s.word l = true → l = s.line) :
    setConfigText L t s = t := by
  rw [setConfigText, if_pos (grepText_of_marked hmem (marked_line L s))]
  refine sedText_eq_self fun l hl hm => ?_
  rw [honly l hl hm, rewriteLine_eq_line_iff (marked_line L s)]
  exact (s.textLine L).decodes

/-- A call is a proper update if the setting is one of the lines it leaves and the only one
    that matches. -/
private theorem SingleKeyUpdate.of_lines {ls : List Line}
    (hlines : textLines (setConfigText L t s) = ls) (hone : ls.count s.line = 1)
    (honly : ∀ l ∈ ls, L.marked s.word l = true → l = s.line)
    (hothers : ls.filter (fun l => !L.marked s.word l) =
      (textLines t).filter (fun l => !L.marked s.word l)) :
    SingleKeyUpdate L s t (setConfigText L t s) := by
  subst hlines
  have hmem : s.line ∈ textLines (setConfigText L t s) := List.count_pos_iff.mp (by omega)
  exact ⟨hone, fun l hl hb => honly l hl (LcCtype.marked_of_bare s.word_solid hb), hothers,
    setConfigText_again hmem honly⟩

/-- If the lines that match are text, they are the matching lines of text. -/
private theorem filter_decodes {ls : List Line}
    (hdec : ∀ l ∈ ls, L.marked s.word l = true → L.decodes l = true) :
    ls.filter (fun l => L.marked s.word l && L.decodes l) = ls.filter (L.marked s.word) := by
  refine List.filter_congr fun l hl => ?_
  by_cases hm : L.marked s.word l = true
  · simp [hm, hdec l hl hm]
  · simp [hm]

/-- The file has one line that matches, and it is text. -/
private theorem update_of_one {l : Line}
    (hone : (textLines t).filter (L.marked s.word) = [l]) (hdec : L.decodes l = true) :
    SingleKeyUpdate L s t (setConfigText L t s) := by
  have hmatch : ∀ l' ∈ textLines t, L.marked s.word l' = true → l' = l := by
    intro l' hl' hm
    have hmem : l' ∈ (textLines t).filter (L.marked s.word) := List.mem_filter.mpr ⟨hl', hm⟩
    rwa [hone, List.mem_singleton] at hmem
  have hl : l ∈ (textLines t).filter (L.marked s.word) := by
    rw [hone]
    exact List.mem_singleton_self l
  obtain ⟨hl, hm⟩ := List.mem_filter.mp hl
  have hlines : textLines (setConfigText L t s) =
      sub (L.marked s.word) (rewriteLine L s) (textLines t) := by
    rw [setConfigText, if_pos (grepText_of_marked hl hm), textLines_rewritten]
  apply SingleKeyUpdate.of_lines hlines
  · have hsame := filter_decodes fun l' hl' hm' => hmatch l' hl' hm' ▸ hdec
    rw [count_sub_line, List.countP_eq_length_filter, hsame, hone]
    rfl
  · intro l' hl' hm'
    rcases mem_sub hl' with ⟨l'', hl'', hm'', rfl⟩ | ⟨_, hne⟩
    · rw [rewriteLine_eq_line_iff hm'', hmatch l'' hl'' hm'']
      exact hdec
    · exact absurd hm' (by simp [hne])
  · exact filter_sub fun l hm => ⟨hm, marked_rewriteLine s l⟩

/-! ## Appending -/

/-- A line that is appended to a file that ends in a newline is a line of its own. -/
private theorem textLines_appended (hend : EndsLine t) :
    textLines (t ++ (s.line ++ ['\n'])) = textLines t ++ [s.line] := by
  obtain ⟨ls, r, hls, hr, rfl⟩ := exists_lines t
  have hr0 : r = [] := by
    by_contra hne
    exact not_endsLine hr hne _ hend
  subst hr0
  rw [List.append_nil, textLines_unlines_append hls, textLines_line_append s.newline_not_mem_line,
    textLines_unlines hls]
  rfl

/-- The file ends in a newline and `grep` finds nothing. -/
private theorem update_of_append (hgrep : grepText (L.marked s.word) t = false)
    (hend : EndsLine t) : SingleKeyUpdate L s t (setConfigText L t s) := by
  have hset : setConfigText L t s = t ++ (s.line ++ ['\n']) := if_neg (by simp [hgrep])
  have hlines : textLines (setConfigText L t s) = textLines t ++ [s.line] := by
    rw [hset, textLines_appended hend]
  have hnotmem : s.line ∉ textLines t := fun h => by
    simpa [marked_line L s] using marked_eq_false hgrep h
  apply SingleKeyUpdate.of_lines hlines
  · rw [List.count_append, List.count_eq_zero_of_not_mem hnotmem, List.count_singleton_self]
  · intro l hl hm
    rcases List.mem_append.mp hl with hl | hl
    · rw [marked_eq_false hgrep hl] at hm
      exact nomatch hm
    · exact List.mem_singleton.mp hl
  · rw [List.filter_append, List.filter_singleton, marked_line L s]
    exact List.append_nil _

/-- The last line has no newline and `grep` finds nothing: the setting is no line. -/
private theorem count_append_unended (hgrep : grepText (L.marked s.word) t = false)
    (hend : ¬ EndsLine t) : (textLines (setConfigText L t s)).count s.line = 0 := by
  obtain ⟨ls, r, hls, hr, rfl⟩ := exists_lines t
  have hne : r ≠ [] := by
    rintro rfl
    rw [List.append_nil] at hend
    exact hend (endsLine_unlines ls)
  have hnotmem : s.line ∉ ls := by
    intro h
    have hmem : s.line ∈ textLines (unlines ls ++ r) := by
      rw [textLines_unlines_append hls]
      exact List.mem_append_left _ h
    simpa [marked_line L s] using marked_eq_false hgrep hmem
  -- the setting ends up behind the rest `r` of the last line
  have hjoined : r ++ s.line ≠ s.line := by
    intro h
    exact hne (List.append_left_eq_self.mp h)
  have hfree : '\n' ∉ r ++ s.line := by
    simp [hr, s.newline_not_mem_line]
  rw [setConfigText, if_neg (by simp [hgrep]), List.append_assoc, ← List.append_assoc r,
    textLines_unlines_append hls, textLines_line_append hfree]
  simp [List.count_eq_zero_of_not_mem hnotmem, hjoined, textLines]

/-- Every line that matched is the setting afterwards, so it was text. -/
private theorem decodes_of_update (hgrep : grepText (L.marked s.word) t = true)
    (h : SingleKeyUpdate L s t (setConfigText L t s)) {l : Line} (hl : l ∈ textLines t)
    (hm : L.marked s.word l = true) : L.decodes l = true := by
  have hother := h.noOther (rewriteLine L s l)
  rw [setConfigText, if_pos hgrep, textLines_rewritten] at hother
  rw [← rewriteLine_eq_line_iff hm]
  exact hother (List.mem_map.mpr ⟨l, hl, if_pos hm⟩) (bare_rewriteLine s l)

end Setting

/-! ## All files -/

/-- On a text with all its newlines, `set_config` is the edit of lines. -/
theorem setConfigText_unlines {L : LcCtype} (c : ConfigTxt L) (s : Setting) :
    setConfigText L (unlines c.lines) s = unlines (c.setConfig s).lines := by
  have hline : ∀ l ∈ c.lines, '\n' ∉ l := fun l hl => (c.text l hl).newlineFree
  have hnul : '\x00' ∉ unlines c.lines :=
    (not_mem_unlines (by decide)).mpr fun l hl => (c.text l hl).nulFree
  rw [setConfigText, grepText_eq_any hnul, textLines_unlines hline]
  show _ = unlines (upsert (L.marked s.word) s.line c.lines)
  unfold upsert
  split
  · rw [sedText_unlines hline]
    congr 1
    refine sub_congr fun l hl hm => ?_
    rw [rewriteLine_eq_line_iff hm]
    exact (c.text l hl).decodes
  · rw [unlines_append]
    simp [unlines]

/-- For every locale, file and setting: `set_config` is a proper update if and only if
    exactly one line matches the key and this line is text, or `grep` finds none and the
    file does not stop in the middle of a line. -/
theorem singleKeyUpdate_iff (L : LcCtype) (s : Setting) (t : List Char) :
    SingleKeyUpdate L s t (setConfigText L t s) ↔
      (∃ l, (textLines t).filter (L.marked s.word) = [l] ∧ L.decodes l = true) ∨
      (grepText (L.marked s.word) t = false ∧ EndsLine t) := by
  constructor
  · intro h
    by_cases hgrep : grepText (L.marked s.word) t = true
    · -- `sed` has run, and one line of its output is the setting
      left
      have hdec : ∀ l ∈ textLines t, L.marked s.word l = true → L.decodes l = true :=
        fun l hl hm => decodes_of_update hgrep h hl hm
      have hone := h.one
      rw [setConfigText, if_pos hgrep, textLines_rewritten, count_sub_line,
        List.countP_eq_length_filter, filter_decodes hdec, List.length_eq_one_iff] at hone
      obtain ⟨l, hl⟩ := hone
      refine ⟨l, hl, ?_⟩
      have hmem : l ∈ (textLines t).filter (L.marked s.word) := by
        rw [hl]
        exact List.mem_singleton_self l
      exact hdec l (List.mem_of_mem_filter hmem) (List.of_mem_filter hmem)
    · rw [Bool.not_eq_true] at hgrep
      refine .inr ⟨hgrep, ?_⟩
      by_contra hend
      have hone := h.one
      rw [count_append_unended hgrep hend] at hone
      exact absurd hone (by decide)
  · rintro (⟨l, hone, hdec⟩ | ⟨hgrep, hend⟩)
    · exact update_of_one hone hdec
    · exact update_of_append hgrep hend

/-- A file with a commented line for the key, which ends without a newline. -/
theorem singleKeyUpdate_commented :
    SingleKeyUpdate .utf8 armstub "[all]\n# armstub=x.bin".toList
      (setConfigText .utf8 "[all]\n# armstub=x.bin".toList armstub) :=
  (singleKeyUpdate_iff .utf8 armstub "[all]\n# armstub=x.bin".toList).mpr
    (.inl ⟨"# armstub=x.bin".toList, by decide, by decide⟩)

/-- A file without a newline at its end, one with the key on two lines, and one whose line for
    the key is no text in UTF-8. -/
theorem set_config_joins_and_duplicates :
    setConfigText .utf8 "gpu_mem=64".toList arm64bit = "gpu_mem=64arm_64bit=1\n".toList ∧
    ¬ SingleKeyUpdate .utf8 arm64bit "gpu_mem=64".toList "gpu_mem=64arm_64bit=1\n".toList ∧
    setConfigText .utf8 "#arm_64bit=0\narm_64bit=0\n".toList arm64bit =
      "arm_64bit=1\narm_64bit=1\n".toList ∧
    ¬ SingleKeyUpdate .utf8 arm64bit "#arm_64bit=0\narm_64bit=0\n".toList
      "arm_64bit=1\narm_64bit=1\n".toList ∧
    setConfigText .utf8 "arm_64bit=0\xff\n".toList arm64bit = "arm_64bit=1\xff\n".toList ∧
    ¬ SingleKeyUpdate .utf8 arm64bit "arm_64bit=0\xff\n".toList
      "arm_64bit=1\xff\n".toList := by
  refine ⟨by decide, ?_, by decide, ?_, by decide, ?_⟩
  · exact fun h => absurd h.one (by decide)
  · exact fun h => absurd h.one (by decide)
  · exact fun h => absurd h.one (by decide)

end OpteeRpi5.Spec
