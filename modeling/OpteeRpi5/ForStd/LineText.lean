import OpteeRpi5.ForStd.LineEdit

/-!
# Texts that need not end in a newline

A text as its characters, the lines that `grep` and `sed` see in it, and what they do
with a last line without a newline: it is a line for both, and `sed` prints it without
one again. `grep` takes a null character for the end of a line, `sed` does not; and `grep`
does not print the lines of a file with null characters (that it reads at once), nor lines
that are no text in the locale.

Candidates for upstreaming to Lean's standard library.
-/

namespace LineEdit

/-- The lines of a text. -/
def textLines : List Char → List Line
  | [] => []
  | c :: t =>
    if c = '\n' then [] :: textLines t
    else
      match textLines t with
      | [] => [[c]]
      | l :: ls => (c :: l) :: ls

/-- The text is empty or its last line has a newline. -/
def EndsLine (t : List Char) : Prop :=
  t = [] ∨ t.getLast? = some '\n'

instance (t : List Char) : Decidable (EndsLine t) :=
  inferInstanceAs (Decidable (_ ∨ _))

/-- `sed -i 's/p/f/'`. -/
def sedText (p : Line → Bool) (f : Line → Line) (t : List Char) : List Char :=
  let out := unlines (sub p f (textLines t))
  if EndsLine t then out else out.dropLast

/-- A null character ends a line. -/
def zapNul (c : Char) : Char :=
  if c = '\x00' then '\n' else c

/-- `grep -q p`. -/
def grepText (p : Line → Bool) (t : List Char) : Bool :=
  (textLines (t.map zapNul)).any p

/-- The lines that `grep p` prints. -/
def LcCtype.grepLines (L : LcCtype) (p : Line → Bool) (t : List Char) : List Line :=
  if '\x00' ∈ t then [] else (textLines t).filter fun l => p l && L.decodes l

/-- A line of a text file in the sense of POSIX: it is made of characters, and none of them
    is a newline or a null character. -/
structure LcCtype.TextLine (L : LcCtype) (l : Line) : Prop where
  newlineFree : '\n' ∉ l
  nulFree : '\x00' ∉ l
  decodes : L.decodes l = true

instance (L : LcCtype) (l : Line) : Decidable (L.TextLine l) :=
  decidable_of_iff ('\n' ∉ l ∧ '\x00' ∉ l ∧ L.decodes l = true)
    ⟨fun ⟨hline, hnul, hdec⟩ => ⟨hline, hnul, hdec⟩, fun ⟨hline, hnul, hdec⟩ => ⟨hline, hnul, hdec⟩⟩

/-! ## Lines of text -/

namespace LcCtype.TextLine

variable {L : LcCtype} {l s : Line}

theorem of_ascii (h : s.all isAscii = true) (hline : '\n' ∉ s) (hnul : '\x00' ∉ s) :
    L.TextLine s :=
  ⟨hline, hnul, decodes_of_ascii h⟩

theorem ascii_append (h : s.all isAscii = true) (hline : '\n' ∉ s) (hnul : '\x00' ∉ s)
    (hl : L.TextLine l) : L.TextLine (s ++ l) where
  newlineFree := by simp [hline, hl.newlineFree]
  nulFree := by simp [hnul, hl.nulFree]
  decodes := by rw [decodes_ascii h, hl.decodes]

/-- What follows the word of a marked line. -/
theorem after_marked {word : Line} (hword : solid word = true) (hm : L.marked word l = true)
    (hl : L.TextLine l) : L.TextLine ((L.skipMark l).drop word.length) where
  newlineFree := fun h => hl.newlineFree
    ((L.skipMark_sublist l).mem (List.mem_of_mem_drop h))
  nulFree := fun h => hl.nulFree ((L.skipMark_sublist l).mem (List.mem_of_mem_drop h))
  decodes := by
    rw [decodes_iff, afterDots_marked hword hm, ← decodes_iff]
    exact hl.decodes

end LcCtype.TextLine

/-! ## Lines -/

theorem unlines_append (ls ls' : List Line) : unlines (ls ++ ls') = unlines ls ++ unlines ls' :=
  List.flatMap_append

theorem not_mem_unlines {c : Char} (hc : c ≠ '\n') {ls : List Line} :
    c ∉ unlines ls ↔ ∀ l ∈ ls, c ∉ l := by
  simp [unlines, hc]

theorem textLines_line_append {l : Line} (hl : '\n' ∉ l) (t : List Char) :
    textLines (l ++ '\n' :: t) = l :: textLines t := by
  induction l with
  | nil => rw [List.nil_append, textLines, if_pos rfl]
  | cons c l ih =>
    have hc : c ≠ '\n' := fun h => hl (by simp [h])
    rw [List.cons_append, textLines, if_neg hc, ih fun h => hl (List.mem_cons_of_mem _ h)]

theorem textLines_line {l : Line} (hl : '\n' ∉ l) (hne : l ≠ []) : textLines l = [l] := by
  induction l with
  | nil => exact absurd rfl hne
  | cons c l ih =>
    have hc : c ≠ '\n' := fun h => hl (by simp [h])
    rw [textLines, if_neg hc]
    cases l with
    | nil => rfl
    | cons d l => rw [ih (fun h => hl (List.mem_cons_of_mem _ h)) (by simp)]

theorem textLines_unlines_append {ls : List Line} (hls : ∀ l ∈ ls, '\n' ∉ l) (t : List Char) :
    textLines (unlines ls ++ t) = ls ++ textLines t := by
  induction ls with
  | nil => rfl
  | cons l ls ih =>
    have htext : unlines (l :: ls) ++ t = l ++ '\n' :: (unlines ls ++ t) := by simp [unlines]
    rw [htext, textLines_line_append (hls l (by simp)),
      ih fun l' hl' => hls l' (List.mem_cons_of_mem _ hl'), List.cons_append]

theorem textLines_unlines {ls : List Line} (hls : ∀ l ∈ ls, '\n' ∉ l) :
    textLines (unlines ls) = ls := by
  have h := textLines_unlines_append hls []
  rwa [List.append_nil, textLines, List.append_nil] at h

/-- Every text is a list of lines with their newlines, and a rest without one. -/
theorem exists_lines (t : List Char) :
    ∃ ls r, (∀ l ∈ ls, '\n' ∉ l) ∧ '\n' ∉ r ∧ t = unlines ls ++ r := by
  induction t with
  | nil => exact ⟨[], [], by simp, by simp, rfl⟩
  | cons c t ih =>
    obtain ⟨ls, r, hls, hr, rfl⟩ := ih
    -- a newline starts a line of its own, another character goes in front of the first line
    by_cases hc : c = '\n'
    · refine ⟨[] :: ls, r, ?_, hr, by simp [unlines, hc]⟩
      intro l hl
      rcases List.mem_cons.mp hl with rfl | hl
      · exact List.not_mem_nil
      · exact hls l hl
    · cases ls with
      | nil => exact ⟨[], c :: r, by simp, by simp [Ne.symm hc, hr], rfl⟩
      | cons l ls =>
        refine ⟨(c :: l) :: ls, r, ?_, hr, by simp [unlines]⟩
        intro l' hl'
        rcases List.mem_cons.mp hl' with rfl | hl'
        · simp [Ne.symm hc, hls l (by simp)]
        · exact hls l' (List.mem_cons_of_mem _ hl')

theorem newline_not_mem_line {t : List Char} {l : Line} (h : l ∈ textLines t) : '\n' ∉ l := by
  obtain ⟨ls, r, hls, hr, rfl⟩ := exists_lines t
  rw [textLines_unlines_append hls] at h
  rcases List.mem_append.mp h with h | h
  · exact hls l h
  · by_cases hne : r = []
    · simp [hne, textLines] at h
    · rw [textLines_line hr hne, List.mem_singleton] at h
      rwa [h]

theorem endsLine_unlines (ls : List Line) : EndsLine (unlines ls) := by
  rcases List.eq_nil_or_concat' ls with rfl | ⟨init, l, rfl⟩
  · exact .inl rfl
  · exact .inr (by simp [unlines])

theorem not_endsLine {r : Line} (hr : '\n' ∉ r) (hne : r ≠ []) (t : List Char) :
    ¬ EndsLine (t ++ r) := by
  rintro (h | h)
  · exact hne (List.append_eq_nil_iff.mp h).2
  · rw [List.getLast?_append_of_ne_nil _ hne] at h
    exact hr (List.mem_of_getLast? h)

/-! ## Editing -/

section Sed

variable {p : Line → Bool} {f : Line → Line} {ls : List Line} {r : Line}

theorem sedText_unlines (hls : ∀ l ∈ ls, '\n' ∉ l) :
    sedText p f (unlines ls) = unlines (sub p f ls) := by
  simp only [sedText, textLines_unlines hls, if_pos (endsLine_unlines ls)]

/-- The last line is edited like the others, and has no newline afterwards either. -/
theorem sedText_append (hls : ∀ l ∈ ls, '\n' ∉ l) (hr : '\n' ∉ r) (hne : r ≠ []) :
    sedText p f (unlines ls ++ r) = unlines (sub p f ls) ++ if p r then f r else r := by
  have hlines : textLines (unlines ls ++ r) = ls ++ [r] := by
    rw [textLines_unlines_append hls, textLines_line hr hne]
  simp only [sedText, hlines, if_neg (not_endsLine hr hne _), sub, List.map_append,
    List.map_singleton, unlines_append]
  rw [show unlines [if p r then f r else r] = (if p r then f r else r) ++ ['\n'] by simp [unlines],
    ← List.append_assoc, List.dropLast_concat]

/-- The lines after an edit. -/
theorem textLines_sedText {t : List Char}
    (hf : ∀ l ∈ textLines t, p l = true → '\n' ∉ f l ∧ f l ≠ []) :
    textLines (sedText p f t) = sub p f (textLines t) := by
  obtain ⟨ls, r, hls, hr, rfl⟩ := exists_lines t
  rw [textLines_unlines_append hls] at hf
  have hsub : ∀ l ∈ sub p f ls, '\n' ∉ l := by
    intro l hl
    rcases mem_sub hl with ⟨l', hl', hp, rfl⟩ | ⟨hl, _⟩
    · exact (hf l' (List.mem_append_left _ hl') hp).1
    · exact hls l hl
  -- a last line without newline is a line of its own, and stays one
  by_cases hne : r = []
  · subst hne
    rw [List.append_nil, sedText_unlines hls, textLines_unlines hsub, textLines_unlines hls]
  · rw [textLines_line hr hne] at hf
    have hlast : '\n' ∉ (if p r then f r else r) ∧ (if p r then f r else r) ≠ [] := by
      split
      · next hp => exact hf r (List.mem_append_right _ (List.mem_singleton_self r)) hp
      · exact ⟨hr, hne⟩
    rw [sedText_append hls hr hne, textLines_unlines_append hsub, textLines_line hlast.1 hlast.2,
      textLines_unlines_append hls, textLines_line hr hne]
    simp only [sub, List.map_append, List.map_singleton]

/-- An edit that would not change any line. -/
theorem sedText_eq_self {t : List Char} (h : ∀ l ∈ textLines t, p l = true → f l = l) :
    sedText p f t = t := by
  obtain ⟨ls, r, hls, hr, rfl⟩ := exists_lines t
  by_cases hne : r = []
  · subst hne
    rw [List.append_nil] at h ⊢
    rw [textLines_unlines hls] at h
    rw [sedText_unlines hls, sub_eq_self h]
  · rw [textLines_unlines_append hls, textLines_line hr hne] at h
    rw [sedText_append hls hr hne, sub_eq_self fun l hl => h l (by simp [hl])]
    split
    · next hp => rw [h r (by simp) hp]
    · rfl

end Sed

/-! ## Searching -/

theorem map_zapNul {t : List Char} (h : '\x00' ∉ t) : t.map zapNul = t := by
  have hid : ∀ c ∈ t, zapNul c = id c := by
    intro c hc
    have hne : c ≠ '\x00' := fun h' => h (h' ▸ hc)
    exact if_neg hne
  rw [List.map_congr_left hid, List.map_id]

/-- Without null characters the lines are the same for both. -/
theorem grepText_eq_any {p : Line → Bool} {t : List Char} (h : '\x00' ∉ t) :
    grepText p t = (textLines t).any p := by
  rw [grepText, map_zapNul h]

/-- A newline separates the lines before it from those after it. -/
theorem textLines_append_newline (a b : List Char) :
    textLines (a ++ '\n' :: b) = textLines (a ++ ['\n']) ++ textLines b := by
  obtain ⟨ls, r, hls, hr, rfl⟩ := exists_lines a
  rw [List.append_assoc, List.append_assoc, textLines_unlines_append hls,
    textLines_unlines_append hls, textLines_line_append hr, textLines_line_append hr]
  simp [textLines]

/-- The part of a line up to a null character, and the rest as `grep` sees it. -/
private theorem zap_line (l : Line) :
    l.map zapNul = l.takeWhile (· ≠ '\x00') ∨
      ∃ rest, l.map zapNul = l.takeWhile (· ≠ '\x00') ++ '\n' :: rest := by
  induction l with
  | nil => exact .inl rfl
  | cons c l ih =>
    by_cases hc : c = '\x00'
    · subst hc
      exact .inr ⟨l.map zapNul, rfl⟩
    · have hmap : (c :: l).map zapNul = c :: l.map zapNul := by simp [zapNul, hc]
      have htake : (c :: l).takeWhile (· ≠ '\x00') = c :: l.takeWhile (· ≠ '\x00') := by simp [hc]
      rw [hmap, htake]
      rcases ih with ih | ⟨rest, ih⟩
      · exact .inl (by rw [ih])
      · exact .inr ⟨rest, by rw [ih, List.cons_append]⟩

private theorem takeWhile_newlineFree {l : Line} (hl : '\n' ∉ l) :
    '\n' ∉ l.takeWhile (· ≠ '\x00') :=
  fun h => hl ((List.takeWhile_sublist _).mem h)

/-- What `grep` sees of a line first: the part up to a null character. -/
theorem takeWhile_mem_textLines {t : List Char} {l : Line} (h : l ∈ textLines t) :
    l.takeWhile (· ≠ '\x00') ∈ textLines (t.map zapNul) := by
  obtain ⟨ls, r, hls, hr, rfl⟩ := exists_lines t
  induction ls with
  | nil =>
    -- the rest, which is the line itself
    by_cases hne : r = []
    · subst hne
      exact absurd h List.not_mem_nil
    · rw [show unlines [] ++ r = r from rfl, textLines_line hr hne, List.mem_singleton] at h
      subst h
      have htake := takeWhile_newlineFree hr
      rw [show unlines [] ++ l = l from rfl]
      rcases zap_line l with hzap | ⟨rest, hzap⟩
      · have hne' : l.takeWhile (· ≠ '\x00') ≠ [] := by
          rw [← hzap]
          simpa using hne
        rw [hzap, textLines_line htake hne']
        exact List.mem_singleton.mpr rfl
      · rw [hzap, textLines_line_append htake]
        exact List.mem_cons_self
  | cons l' ls ih =>
    have hl' : '\n' ∉ l' := hls l' (by simp)
    have hrest : ∀ l ∈ ls, '\n' ∉ l := fun l hl => hls l (List.mem_cons_of_mem _ hl)
    have htext : unlines (l' :: ls) ++ r = l' ++ '\n' :: (unlines ls ++ r) := by simp [unlines]
    rw [htext, textLines_line_append hl'] at h
    rw [htext, List.map_append, List.map_cons, show zapNul '\n' = '\n' from rfl,
      textLines_append_newline]
    rcases List.mem_cons.mp h with rfl | h
    · refine List.mem_append_left _ ?_
      have htake := takeWhile_newlineFree hl'
      rcases zap_line l with hzap | ⟨rest, hzap⟩
      · rw [hzap, textLines_line_append htake]
        exact List.mem_cons_self
      · rw [hzap, List.append_assoc, List.cons_append, textLines_line_append htake]
        exact List.mem_cons_self
    · exact List.mem_append_right _ (ih hrest h)

end LineEdit
