import OpteeRpi5.ForStd.LineText

/-!
# The boot configuration

What the shell scripts do to `config.txt`: the edits that `deploy-rpi5-optee.sh` and
`remote-install-optee-oneshot.sh` make (they are the same in both), the edit of
`recover-boot-wifi.sh`, the verification after an install, and the check of
`testing_rpi5_optee_kernel.sh`, in the locale that they find. A text is the list of its
lines. `grep` prints a last line without a newline as if it had one, so the checks are
those of all texts; `set_config` appends to such a line, and the edits are those of texts
that end in a newline. `setConfigText` is `set_config` on all files, text or not, byte by
byte. Backups, `sudo` and the messages are left out.
-/

namespace OpteeRpi5.Native

open LineEdit

/-- A text, as its lines. -/
@[ext] structure ConfigTxt (L : LcCtype) where
  lines : List Line
  text : ∀ l ∈ lines, L.TextLine l

/-- The characters of a key. -/
def keyChar (c : Char) : Bool :=
  ('a' ≤ c && c ≤ 'z') || ('A' ≤ c && c ≤ 'Z') || ('0' ≤ c && c ≤ '9') || c = '_'

/-- The characters of a value. -/
def valueChar (c : Char) : Bool :=
  keyChar c || c = '-' || c = '.'

/-- A key and the value that `set_config` gives it. The key stands for itself in a pattern,
    and the value in what `sed` replaces a match by. -/
structure Setting where
  key : Line
  value : Line
  key_ne_nil : key ≠ []
  key_plain : key.all keyChar = true
  value_plain : value.all valueChar = true

namespace Setting

/-- `${key}=`. -/
def word (s : Setting) : Line :=
  s.key ++ ['=']

/-- `${key}=${val}`. -/
def line (s : Setting) : Line :=
  s.word ++ s.value

end Setting

/-- The calls of `set_config`. -/
def arm64bit : Setting where
  key := "arm_64bit".toList
  value := "1".toList
  key_ne_nil := by decide
  key_plain := rfl
  value_plain := rfl

@[inherit_doc arm64bit] def enableUart : Setting where
  key := "enable_uart".toList
  value := "1".toList
  key_ne_nil := by decide
  key_plain := rfl
  value_plain := rfl

@[inherit_doc arm64bit] def armstub : Setting where
  key := "armstub".toList
  value := "armstub8-2712-optee.bin".toList
  key_ne_nil := by decide
  key_plain := rfl
  value_plain := rfl

@[inherit_doc arm64bit] def kernelAddress : Setting where
  key := "kernel_address".toList
  value := "0x200000".toList
  key_ne_nil := by decide
  key_plain := rfl
  value_plain := rfl

/-- The overlay that must not be enabled next to the device tree patches of OP-TEE. -/
def dtoverlay : Line :=
  "dtoverlay=optee-rpi5".toList

/-! ## What the settings look like -/

theorem keyChar_ascii {c : Char} (h : keyChar c = true) : isAscii c = true := by
  simp only [keyChar, Bool.or_eq_true, Bool.and_eq_true, decide_eq_true_eq] at h
  apply decide_eq_true
  rcases h with ((⟨_, h⟩ | ⟨_, h⟩) | ⟨_, h⟩) | rfl
  · exact Nat.lt_of_le_of_lt (Char.le_def.mp h) (by decide)
  · exact Nat.lt_of_le_of_lt (Char.le_def.mp h) (by decide)
  · exact Nat.lt_of_le_of_lt (Char.le_def.mp h) (by decide)
  · decide

theorem valueChar_ascii {c : Char} (h : valueChar c = true) : isAscii c = true := by
  simp only [valueChar, Bool.or_eq_true, decide_eq_true_eq] at h
  rcases h with (h | rfl) | rfl
  · exact keyChar_ascii h
  · rfl
  · rfl

namespace Setting

variable (s : Setting)

/-- The characters of the line are those of a value, and the equals sign. -/
theorem mem_line {c : Char} (h : c ∈ s.line) : valueChar c = true ∨ c = '=' := by
  simp only [line, word, List.mem_append, List.mem_singleton] at h
  rcases h with (h | h) | h
  · have hkey : keyChar c = true := List.all_eq_true.mp s.key_plain c h
    exact .inl (by simp [valueChar, hkey])
  · exact .inr h
  · exact .inl (List.all_eq_true.mp s.value_plain c h)

theorem line_ascii : s.line.all isAscii = true := by
  rw [List.all_eq_true]
  intro c hc
  rcases s.mem_line hc with h | rfl
  · exact valueChar_ascii h
  · rfl

theorem newline_not_mem_line : '\n' ∉ s.line := fun h =>
  absurd (s.mem_line h) (by decide)

theorem nul_not_mem_line : '\x00' ∉ s.line := fun h =>
  absurd (s.mem_line h) (by decide)

theorem word_solid : solid s.word = true := by
  have hascii : s.word.all isAscii = true := by
    have hline := s.line_ascii
    rw [line, List.all_append, Bool.and_eq_true] at hline
    exact hline.1
  obtain ⟨c, w, hkey⟩ := List.exists_cons_of_ne_nil s.key_ne_nil
  have hc : keyChar c = true := List.all_eq_true.mp s.key_plain c (by simp [hkey])
  rw [word, hkey, List.cons_append] at hascii ⊢
  rw [solid, hascii, Bool.true_and, Bool.and_eq_true]
  constructor
  · rw [Bool.not_eq_true', List.contains_eq_mem, decide_eq_false_iff_not]
    have hspace : asciiSpaces.all (fun d => !keyChar d) = true := rfl
    intro hmem
    have hnot := List.all_eq_true.mp hspace c hmem
    simp [hc] at hnot
  · rw [bne_iff_ne]
    rintro rfl
    exact absurd hc (by decide)

theorem textLine (L : LcCtype) : L.TextLine s.line :=
  .of_ascii s.line_ascii s.newline_not_mem_line s.nul_not_mem_line

end Setting

/-! ## Edits -/

theorem dtoverlay_solid : solid dtoverlay = true := rfl

namespace ConfigTxt

variable {L : LcCtype}

/-- `set_config`. -/
def setConfig (c : ConfigTxt L) (s : Setting) : ConfigTxt L where
  lines := upsert (L.marked s.word) s.line c.lines
  text := by
    intro l hl
    rcases mem_upsert hl with rfl | ⟨hl, _⟩
    · exact s.textLine L
    · exact c.text l hl

/-- What `sed` makes of a line that matches: `.*` goes as far as the line is text, and what
    comes after it stays. -/
def rewriteLine (L : LcCtype) (s : Setting) (l : Line) : Line :=
  s.line ++ L.afterDots ((L.skipMark l).drop s.word.length)

/-- `set_config`, on the bytes of the file. -/
def setConfigText (L : LcCtype) (t : List Char) (s : Setting) : List Char :=
  if grepText (L.marked s.word) t then sedText (L.marked s.word) (rewriteLine L s) t
  else t ++ (s.line ++ ['\n'])

/-- The settings of an install, in the order of the calls. -/
def installSettings : List Setting :=
  [arm64bit, enableUart, armstub, kernelAddress]

/-- What becomes of a line with the overlay: the part that matches is replaced, and the
    rest of the line stays. -/
def disableOverlay (L : LcCtype) (l : Line) : Line :=
  '#' :: dtoverlay ++ (L.skipMark l).drop dtoverlay.length

/-- `sed -i -E 's|^[[:space:]]*#?[[:space:]]*dtoverlay=optee-rpi5|#dtoverlay=optee-rpi5|'`. -/
def removeDtoverlay (c : ConfigTxt L) : ConfigTxt L where
  lines :=
    if c.lines.any (L.marked dtoverlay) then
      sub (L.marked dtoverlay) (disableOverlay L) c.lines
    else c.lines
  text := by
    intro l hl
    split at hl
    · rcases mem_sub hl with ⟨l', hl', hm, rfl⟩ | ⟨hl, _⟩
      · exact .ascii_append (s := '#' :: dtoverlay) rfl (by decide) (by decide)
          ((c.text l' hl').after_marked dtoverlay_solid hm)
      · exact c.text l hl
    · exact c.text l hl

/-- The edit of `deploy-rpi5-optee.sh`. -/
def install (c : ConfigTxt L) : ConfigTxt L :=
  (installSettings.foldl setConfig c).removeDtoverlay

/-- `s/^[[:space:]]*word/# &/`. -/
def commentOut (word : Line) (c : ConfigTxt L) : ConfigTxt L where
  lines := sub (L.bare word) ("# ".toList ++ ·) c.lines
  text := by
    intro l hl
    rcases mem_sub hl with ⟨l', hl', _, rfl⟩ | ⟨hl, _⟩
    · exact .ascii_append rfl (by decide) (by decide) (c.text l' hl')
    · exact c.text l hl

/-- The edit of `recover-boot-wifi.sh`. `sed` runs both expressions on a line before it
    goes on to the next one. -/
def recover (c : ConfigTxt L) : ConfigTxt L :=
  commentOut dtoverlay (commentOut armstub.line c)

/-! ## Checks -/

/-- `$(grep -E "^word" config.txt || true)`. -/
def grepOutput (c : ConfigTxt L) (word : Line) : List Char :=
  cmdSubst (c.lines.filter word.isPrefixOf)

/-- The verification after an install, of both scripts. -/
def verifyInstall (c : ConfigTxt L) : Bool :=
  !(c.grepOutput armstub.word != armstub.line ||
    c.grepOutput kernelAddress.word != kernelAddress.line)

/-- The check of `testing_rpi5_optee_kernel.sh`: `grep` succeeds if any line matches. The
    dot of the first alternative is not escaped. -/
def testConfig (c : ConfigTxt L) : Bool :=
  c.lines.any fun l => L.dotMatch armstub.line l || L.dotMatch kernelAddress.line l

end ConfigTxt

end OpteeRpi5.Native
