import OpteeRpi5.Native.BootConfig

/-!
# What the checks of the boot configuration say

The firmware reads `config.txt` from top to bottom. A line `[filter]` limits the lines
after it to the boards that match, and the last line for a key that applies wins. The
scripts look at lines without their section: the verification after an install asks that
each key has one line, with the right value, and the check of the test script asks for
one of the two lines only.

## Key results

- `lastAssignment_eq_some_iff`: the line that wins, by its place in the text
- `verifyInstall_iff`, `testConfig_iff`: the texts that pass
- `checksSound_iff`: the texts on which the checks are sound
- `checks_pass_without_armstub`: an install into a section for other boards, and a text
  without the armstub, pass
-/

namespace OpteeRpi5.Spec

open OpteeRpi5.Native LineEdit

variable {L : LcCtype}

/-! ## The firmware -/

/-- The filter of a section header. -/
def header? : Line → Option Line
  | '[' :: l => if l.getLast? = some ']' then some l.dropLast else none
  | _ => none

/-- Whether a filter holds on the board; `onBoard` are the filters other than `all`. -/
def filterApplies (onBoard : Line → Bool) (filter : Line) : Bool :=
  filter = "all".toList || onBoard filter

/-- Whether the section after `ls` applies, if it applies (`active`) before them. -/
def sectionAfter (onBoard : Line → Bool) : (active : Bool) → (ls : List Line) → Bool
  | active, [] => active
  | active, l :: ls =>
    match header? l with
    | some filter => sectionAfter onBoard (filterApplies onBoard filter) ls
    | none => sectionAfter onBoard active ls

/-- The lines that apply, without the headers. -/
def applicable (onBoard : Line → Bool) : (active : Bool) → (ls : List Line) → List Line
  | _, [] => []
  | active, l :: ls =>
    match header? l with
    | some filter => applicable onBoard (filterApplies onBoard filter) ls
    | none => if active then l :: applicable onBoard active ls else applicable onBoard active ls

/-- The last line that applies and starts with `word`. -/
def lastAssignment (onBoard : Line → Bool) (active : Bool) (word : Line) (ls : List Line) :
    Option Line :=
  ((applicable onBoard active ls).filter word.isPrefixOf).getLast?

/-- The value of a key on the board. -/
def effective (onBoard : Line → Bool) (c : ConfigTxt L) (word : Line) : Option Line :=
  (lastAssignment onBoard true word c.lines).map (·.drop word.length)

section Firmware

variable {onBoard : Line → Bool} {active : Bool} {word l x : Line} {ls : List Line}

/-- A header decides about the lines that follow. -/
theorem applicable_header {filter : Line} (h : header? l = some filter) :
    applicable onBoard active (l :: ls) =
      applicable onBoard (filterApplies onBoard filter) ls := by
  simp only [applicable, h]

theorem applicable_active (h : header? l = none) :
    applicable onBoard true (l :: ls) = l :: applicable onBoard true ls := by
  simp only [applicable, h, if_true]

theorem applicable_inactive (h : header? l = none) :
    applicable onBoard false (l :: ls) = applicable onBoard false ls := by
  simp [applicable, h]

/-- The lines after a part of the file are read in the section that it ends in. -/
theorem applicable_append (pre : List Line) :
    applicable onBoard active (pre ++ ls) =
      applicable onBoard active pre ++ applicable onBoard (sectionAfter onBoard active pre) ls := by
  induction pre generalizing active with
  | nil => rfl
  | cons l pre ih =>
    cases hh : header? l with
    | some filter =>
      rw [List.cons_append, applicable_header hh, applicable_header hh, ih]
      simp only [sectionAfter, hh]
    | none =>
      have hafter : sectionAfter onBoard active (l :: pre) = sectionAfter onBoard active pre := by
        simp only [sectionAfter, hh]
      rw [hafter, List.cons_append]
      cases active with
      | true => rw [applicable_active hh, applicable_active hh, ih, List.cons_append]
      | false => rw [applicable_inactive hh, applicable_inactive hh, ih]

/-- The place in the text of a line that applies. -/
theorem applicable_split {before after : List Line}
    (h : applicable onBoard active ls = before ++ x :: after) :
    ∃ pre post, ls = pre ++ x :: post ∧ sectionAfter onBoard active pre = true ∧
      applicable onBoard true post = after := by
  induction ls generalizing active before with
  | nil => simp [applicable] at h
  | cons l ls ih =>
    cases hh : header? l with
    | some filter =>
      rw [applicable_header hh] at h
      obtain ⟨pre, post, rfl, hsec, hafter⟩ := ih h
      exact ⟨l :: pre, post, rfl, by simpa only [sectionAfter, hh] using hsec, hafter⟩
    | none =>
      -- a line before the one in question, in a section that applies or not
      have hskip : ∀ {before}, applicable onBoard active ls = before ++ x :: after →
          ∃ pre post, l :: ls = pre ++ x :: post ∧ sectionAfter onBoard active pre = true ∧
            applicable onBoard true post = after := by
        intro before h
        obtain ⟨pre, post, rfl, hsec, hafter⟩ := ih h
        exact ⟨l :: pre, post, rfl, by simpa only [sectionAfter, hh] using hsec, hafter⟩
      cases active with
      | false =>
        rw [applicable_inactive hh] at h
        exact hskip h
      | true =>
        rw [applicable_active hh] at h
        cases before with
        | nil =>
          -- the line itself
          obtain ⟨rfl, hafter⟩ := List.cons.inj h
          exact ⟨[], ls, rfl, rfl, hafter⟩
        | cons l' before => exact hskip (List.cons.inj h).2

/-- A setting in a section that applies is among the lines that apply. -/
theorem applicable_at (hx : header? x = none) {pre post : List Line}
    (hsec : sectionAfter onBoard active pre = true) :
    applicable onBoard active (pre ++ x :: post) =
      applicable onBoard active pre ++ x :: applicable onBoard true post := by
  rw [applicable_append, hsec, applicable_active hx]

/-- The line that wins stands in a section that applies, and no line after it that starts
    with the word does. -/
theorem lastAssignment_eq_some_iff (hx : header? x = none) (hword : word.isPrefixOf x = true) :
    lastAssignment onBoard active word ls = some x ↔
      ∃ pre post, ls = pre ++ x :: post ∧ sectionAfter onBoard active pre = true ∧
        ∀ l ∈ applicable onBoard true post, word.isPrefixOf l = false := by
  -- the last line is the first one of the reversed text
  rw [lastAssignment, List.getLast?_filter, List.find?_eq_some_iff_append]
  constructor
  · rintro ⟨_, after, before, heq, hafter⟩
    have happ : applicable onBoard active ls = before.reverse ++ x :: after.reverse := by
      rw [← List.reverse_reverse (applicable onBoard active ls), heq]
      simp
    obtain ⟨pre, post, hls, hsec, hpost⟩ := applicable_split happ
    refine ⟨pre, post, hls, hsec, ?_⟩
    intro l hl
    rw [hpost, List.mem_reverse] at hl
    simpa using hafter l hl
  · rintro ⟨pre, post, rfl, hsec, hpost⟩
    refine ⟨hword, (applicable onBoard true post).reverse, (applicable onBoard active pre).reverse,
      ?_, ?_⟩
    · rw [applicable_at hx hsec]
      simp
    · intro l hl
      rw [hpost l (List.mem_reverse.mp hl)]
      rfl

end Firmware

/-! ## The place of a line -/

/-- A line below the lines `above` applies: the nearest header, if there is one, holds on the
    board. -/
def Applies (onBoard : Line → Bool) (above : List Line) : Prop :=
  ∀ pre l mid filter, above = pre ++ l :: mid → header? l = some filter →
    (∀ m ∈ mid, header? m = none) → filterApplies onBoard filter = true

section Place

variable {onBoard : Line → Bool} {c : ConfigTxt L} {s : Setting} {l : Line}

/-- The section after some lines and then some more. -/
theorem sectionAfter_append {active : Bool} (pre ls : List Line) :
    sectionAfter onBoard active (pre ++ ls) =
      sectionAfter onBoard (sectionAfter onBoard active pre) ls := by
  induction pre generalizing active with
  | nil => rfl
  | cons l pre ih =>
    rw [List.cons_append, sectionAfter, sectionAfter]
    cases header? l with
    | some filter => exact ih
    | none => exact ih

/-- Where a line stands in a text with one more line at its end. -/
private theorem concat_eq_split {ls pre mid : List Line} {x : Line}
    (h : ls ++ [l] = pre ++ x :: mid) :
    (mid = [] ∧ x = l) ∨ ∃ mid', mid = mid' ++ [l] ∧ ls = pre ++ x :: mid' := by
  rcases List.eq_nil_or_concat' mid with rfl | ⟨mid', y, rfl⟩
  · exact .inl ⟨rfl, (List.singleton_inj.mp (List.append_inj_right' h rfl)).symm⟩
  · have h' : ls ++ [l] = (pre ++ x :: mid') ++ [y] := by
      rw [h, List.append_assoc, List.cons_append]
    obtain ⟨hls, hy⟩ := List.append_inj' h' rfl
    rw [List.singleton_inj.mp hy]
    exact .inr ⟨mid', rfl, hls⟩

/-- The section that the firmware has come to is that of the nearest header. -/
theorem sectionAfter_iff_applies (above : List Line) :
    sectionAfter onBoard true above = true ↔ Applies onBoard above := by
  -- from the end of the text: the last line is a header, or does not count
  induction above using List.reverseRecOn with
  | nil => simp [sectionAfter, Applies]
  | append_singleton ls l ih =>
    rw [sectionAfter_append, sectionAfter]
    cases hl : header? l with
    | some filter =>
      show filterApplies onBoard filter = true ↔ _
      constructor
      · intro happlies pre x mid f h hx hmid
        rcases concat_eq_split h with ⟨_, rfl⟩ | ⟨mid', rfl, _⟩
        · rw [hl, Option.some.injEq] at hx
          rw [← hx]
          exact happlies
        · rw [hmid l (by simp)] at hl
          exact nomatch hl
      · intro h
        exact h ls l [] filter rfl hl (by simp)
    | none =>
      show sectionAfter onBoard true ls = true ↔ _
      rw [ih]
      constructor
      · intro happlies pre x mid f h hx hmid
        rcases concat_eq_split h with ⟨_, rfl⟩ | ⟨mid', rfl, hls⟩
        · rw [hl] at hx
          exact nomatch hx
        · exact happlies pre x mid' f hls hx fun m hm => hmid m (by simp [hm])
      · intro h pre x mid f hls hx hmid
        refine h pre x (mid ++ [l]) f (by rw [hls]; simp) hx fun m hm => ?_
        rcases List.mem_append.mp hm with hm | hm
        · exact hmid m hm
        · rwa [List.mem_singleton.mp hm]

/-- The line of `s` stands where it applies. -/
def InSection (onBoard : Line → Bool) (c : ConfigTxt L) (s : Setting) : Prop :=
  ∃ above below, c.lines = above ++ s.line :: below ∧ Applies onBoard above

/-- The line of `s` stands where it applies, and no line with its key that stands below it
    does. -/
def LastInSection (onBoard : Line → Bool) (c : ConfigTxt L) (s : Setting) : Prop :=
  ∃ above below, c.lines = above ++ s.line :: below ∧ Applies onBoard above ∧
    ∀ mid l rest, below = mid ++ l :: rest → s.word <+: l →
      ¬ Applies onBoard (above ++ s.line :: mid)

/-- The key of `s` has its line and no other one. -/
def OnlyLine (c : ConfigTxt L) (s : Setting) : Prop :=
  ∃ above below, c.lines = above ++ s.line :: below ∧
    ∀ l ∈ above ++ below, ¬ s.word <+: l

/-- The line of a setting starts with its word. -/
theorem isPrefixOf_line (s : Setting) : s.word.isPrefixOf s.line = true :=
  List.isPrefixOf_iff_prefix.mpr (List.prefix_append _ _)

/-- A line that starts with a key is no header. -/
theorem header?_of_word (h : s.word <+: l) : header? l = none := by
  obtain ⟨rest, rfl⟩ := h
  obtain ⟨c, w, hkey⟩ := List.exists_cons_of_ne_nil s.key_ne_nil
  have hc : keyChar c = true := List.all_eq_true.mp s.key_plain c (by simp [hkey])
  rw [Setting.word, hkey, List.cons_append, List.cons_append, header?]
  intro l' heq
  rw [(List.cons.inj heq).1] at hc
  exact absurd hc (by decide)

/-- The effective value of a key is that of `s` if its last line is that of `s`. -/
theorem effective_eq_some_iff :
    effective onBoard c s.word = some s.value ↔
      lastAssignment onBoard true s.word c.lines = some s.line := by
  rw [effective, Option.map_eq_some_iff]
  constructor
  · rintro ⟨l, hlast, hvalue⟩
    have hl : s.word.isPrefixOf l = true :=
      List.of_mem_filter (List.mem_of_getLast? hlast)
    obtain ⟨value, rfl⟩ := List.isPrefixOf_iff_prefix.mp hl
    rw [List.drop_left] at hvalue
    rw [hlast, hvalue]
    rfl
  · intro hlast
    exact ⟨s.line, hlast, List.drop_left⟩

/-- The lines below `above` and a line that applies, by their places. -/
theorem applicable_below_iff {above below : List Line} (habove : Applies onBoard above) :
    (∀ l ∈ applicable onBoard true below, s.word.isPrefixOf l = false) ↔
      ∀ mid l rest, below = mid ++ l :: rest → s.word <+: l →
        ¬ Applies onBoard (above ++ s.line :: mid) := by
  -- the line of the setting is no header, so it does not end the section
  have hsection : ∀ mid, sectionAfter onBoard true (above ++ s.line :: mid) =
      sectionAfter onBoard true mid := by
    intro mid
    have hline : header? s.line = none := header?_of_word (List.prefix_append _ _)
    rw [sectionAfter_append, (sectionAfter_iff_applies above).mpr habove, sectionAfter, hline]
  constructor
  · rintro h mid l rest rfl hl happlies
    rw [← sectionAfter_iff_applies, hsection] at happlies
    have hmem : l ∈ applicable onBoard true (mid ++ l :: rest) := by
      rw [applicable_at (header?_of_word hl) happlies]
      simp
    have hword := h l hmem
    rw [List.isPrefixOf_iff_prefix.mpr hl] at hword
    exact nomatch hword
  · intro h l hl
    by_contra hword
    rw [Bool.not_eq_false, List.isPrefixOf_iff_prefix] at hword
    -- a line that applies has a place in the file, in a section that applies
    obtain ⟨before, after, hsplit⟩ := List.append_of_mem hl
    obtain ⟨mid, rest, hbelow, hsec, _⟩ := applicable_split hsplit
    refine h mid l rest hbelow hword ?_
    rw [← sectionAfter_iff_applies, hsection]
    exact hsec

/-- The effective value of a key, by the place of the line. -/
theorem effective_iff_lastInSection :
    effective onBoard c s.word = some s.value ↔ LastInSection onBoard c s := by
  have hline : header? s.line = none := header?_of_word (List.prefix_append _ _)
  rw [effective_eq_some_iff, lastAssignment_eq_some_iff hline (isPrefixOf_line s)]
  constructor
  · rintro ⟨above, below, hc, hsec, hbelow⟩
    have habove := (sectionAfter_iff_applies above).mp hsec
    exact ⟨above, below, hc, habove, (applicable_below_iff habove).mp hbelow⟩
  · rintro ⟨above, below, hc, habove, hbelow⟩
    exact ⟨above, below, hc, (sectionAfter_iff_applies above).mpr habove,
      (applicable_below_iff habove).mpr hbelow⟩

/-- The lines with the key, by their places. -/
theorem onlyLine_iff : OnlyLine c s ↔ c.lines.filter s.word.isPrefixOf = [s.line] := by
  have hnil : ∀ ls : List Line, ls.filter s.word.isPrefixOf = [] ↔ ∀ l ∈ ls, ¬ s.word <+: l := by
    intro ls
    simp only [List.filter_eq_nil_iff, List.isPrefixOf_iff_prefix]
  have hsplit : ∀ above below : List Line,
      (above ++ s.line :: below).filter s.word.isPrefixOf = [s.line] ↔
        ∀ l ∈ above ++ below, ¬ s.word <+: l := by
    intro above below
    rw [List.filter_append, List.filter_cons_of_pos (isPrefixOf_line s), ← hnil,
      List.filter_append, List.append_eq_nil_iff, List.append_eq_singleton_iff]
    simp
  constructor
  · rintro ⟨above, below, hc, honly⟩
    rw [hc, hsplit]
    exact honly
  · intro hfilter
    have hmem : s.line ∈ c.lines.filter s.word.isPrefixOf := by
      rw [hfilter]
      exact List.mem_singleton_self _
    -- any place of the line will do: the filter has no second one
    obtain ⟨above, below, hc⟩ := List.append_of_mem (List.mem_of_mem_filter hmem)
    rw [hc, hsplit] at hfilter
    exact ⟨above, below, hc, hfilter⟩

/-- If the key has no other line, its place decides. -/
theorem effective_iff_inSection (honly : OnlyLine c s) :
    effective onBoard c s.word = some s.value ↔ InSection onBoard c s := by
  rw [effective_iff_lastInSection]
  constructor
  · rintro ⟨above, below, hc, happlies, _⟩
    exact ⟨above, below, hc, happlies⟩
  · rintro ⟨above, below, hc, happlies⟩
    refine ⟨above, below, hc, happlies, ?_⟩
    rintro mid l rest rfl hl _
    -- a second line with the key would be found by the filter
    have hfilter := onlyLine_iff.mp honly
    rw [hc] at hfilter
    have hlen := congrArg List.length hfilter
    simp only [List.filter_append, List.filter_cons_of_pos (isPrefixOf_line s),
      List.filter_cons_of_pos (List.isPrefixOf_iff_prefix.mpr hl), List.length_append,
      List.length_cons, List.length_nil] at hlen
    omega

/-! ## The checks -/

/-- The check prints the line of the setting exactly if no other line matches. -/
theorem grepOutput_eq_iff :
    c.grepOutput s.word = s.line ↔ c.lines.filter s.word.isPrefixOf = [s.line] := by
  have hne : ∀ l : Line, s.word.isPrefixOf l = true → l ≠ [] := by
    rintro l hl rfl
    obtain ⟨c, w, hw, _⟩ := exists_of_solid s.word_solid
    have hnil : s.word = [] := List.prefix_nil.mp (List.isPrefixOf_iff_prefix.mp hl)
    exact absurd (hw.symm.trans hnil) (by simp)
  exact cmdSubst_eq_iff (fun l hl => hne l (List.of_mem_filter hl))
    (fun l hl => (c.text l (List.mem_of_mem_filter hl)).newlineFree) (hne _ (isPrefixOf_line s))
    s.newline_not_mem_line

/-- The verification passes if each key has its line and no other one. -/
theorem verifyInstall_iff :
    c.verifyInstall = true ↔ OnlyLine c armstub ∧ OnlyLine c kernelAddress := by
  rw [onlyLine_iff, onlyLine_iff, ← grepOutput_eq_iff, ← grepOutput_eq_iff]
  simp [ConfigTxt.verifyInstall]

/-- The line of the armstub, or one with another character in the place of its dot. -/
def ArmstubLike (L : LcCtype) (l : Line) : Prop :=
  ∃ x, x ≠ [] ∧ L.charLen (x ++ "bin".toList) = x.length ∧
    l = "armstub=armstub8-2712-optee".toList ++ (x ++ "bin".toList)

/-- The check of the test script passes if one of the two settings is there. -/
theorem testConfig_iff :
    c.testConfig = true ↔ ∃ l ∈ c.lines, ArmstubLike L l ∨ l = kernelAddress.line := by
  have harm : ∀ l, L.dotMatch armstub.line l = true ↔ ArmstubLike L l :=
    @LcCtype.dotMatch_dot L "armstub=armstub8-2712-optee".toList "bin".toList (by decide)
      (by decide)
  have hkernel : ∀ l, L.dotMatch kernelAddress.line l = true ↔ l = kernelAddress.line :=
    LcCtype.dotMatch_literal (by decide)
  simp only [ConfigTxt.testConfig, List.any_eq_true, Bool.or_eq_true, harm, hkernel]

end Place

/-- A check that passes means that the board boots with both settings. -/
def ChecksSound (onBoard : Line → Bool) (c : ConfigTxt L) : Prop :=
  c.verifyInstall = true ∨ c.testConfig = true →
    effective onBoard c armstub.word = some armstub.value ∧
    effective onBoard c kernelAddress.word = some kernelAddress.value

instance (onBoard : Line → Bool) (c : ConfigTxt L) : Decidable (ChecksSound onBoard c) :=
  inferInstanceAs (Decidable (_ → _))

/-- A text that passes the verification passes the check of the test script. -/
theorem kernelAddress_mem_of_onlyLine {c : ConfigTxt L} (h : OnlyLine c kernelAddress) :
    ∃ l ∈ c.lines, ArmstubLike L l ∨ l = kernelAddress.line := by
  obtain ⟨above, below, hc, _⟩ := h
  exact ⟨kernelAddress.line, by simp [hc], .inr rfl⟩

/-- The checks are sound on a text if and only if it has none of the lines that the test
    script looks for, or both settings, each where it applies and above no other line for its
    key that does. Where each key has its line and no other one, as the verification asks, the
    sections of the two lines decide. -/
theorem checksSound_iff (L : LcCtype) (onBoard : Line → Bool) (c : ConfigTxt L) :
    (ChecksSound onBoard c ↔
      (∀ l ∈ c.lines, ¬ ArmstubLike L l ∧ l ≠ kernelAddress.line) ∨
        (LastInSection onBoard c armstub ∧ LastInSection onBoard c kernelAddress)) ∧
    (OnlyLine c armstub ∧ OnlyLine c kernelAddress →
      (ChecksSound onBoard c ↔
        InSection onBoard c armstub ∧ InSection onBoard c kernelAddress)) := by
  have hsound : ChecksSound onBoard c ↔
      ((∃ l ∈ c.lines, ArmstubLike L l ∨ l = kernelAddress.line) →
        effective onBoard c armstub.word = some armstub.value ∧
        effective onBoard c kernelAddress.word = some kernelAddress.value) := by
    rw [ChecksSound, verifyInstall_iff, testConfig_iff]
    constructor
    · intro h hline
      exact h (.inr hline)
    · rintro h (hverify | hline)
      · exact h (kernelAddress_mem_of_onlyLine hverify.2)
      · exact h hline
  constructor
  · have hnone : (¬ ∃ l ∈ c.lines, ArmstubLike L l ∨ l = kernelAddress.line) ↔
        ∀ l ∈ c.lines, ¬ ArmstubLike L l ∧ l ≠ kernelAddress.line := by
      simp only [not_exists, not_and, not_or, ne_eq]
    rw [hsound, imp_iff_not_or, hnone, effective_iff_lastInSection, effective_iff_lastInSection]
  · rintro ⟨harm, hkernel⟩
    have hline := kernelAddress_mem_of_onlyLine hkernel
    rw [hsound, effective_iff_inSection harm, effective_iff_inSection hkernel]
    exact ⟨fun h => h hline, fun h _ => h⟩

/-- The filters of a Raspberry Pi 5. -/
def onPi5 (filter : Line) : Bool :=
  filter = "pi5".toList

/-- A text with the keys in a section for another board, where `set_config` edits them. -/
def pi4Txt : ConfigTxt .utf8 where
  lines := ["[pi4]".toList, "armstub=armstub8.bin".toList, "kernel_address=0x80000".toList]
  text := by decide

/-- A text without the armstub. -/
def kernelOnlyTxt : ConfigTxt .utf8 where
  lines := [kernelAddress.line]
  text := by decide

/-- An install leaves the lines in the section for the other board and verifies them, and
    the test script accepts one of the two lines. -/
theorem checks_pass_without_armstub :
    (pi4Txt.install.verifyInstall = true ∧ ¬ ChecksSound onPi5 pi4Txt.install ∧
      effective onPi5 pi4Txt.install armstub.word = none) ∧
    kernelOnlyTxt.testConfig = true ∧ ¬ ChecksSound onPi5 kernelOnlyTxt ∧
      effective onPi5 kernelOnlyTxt armstub.word = none := by
  decide

end OpteeRpi5.Spec
