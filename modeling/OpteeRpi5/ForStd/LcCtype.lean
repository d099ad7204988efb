import Mathlib.Data.List.Basic

/-!
# Characters and white space of a locale

What `grep` and `sed` take from the locale. A text is its bytes, written as characters
below 256, and a locale says how many of them the first character of a line takes. At a
byte that starts no character `.` does not match, and a file with such a byte in it is no
text in this locale. Besides the white space of ASCII a locale can have wider one.

ASCII characters are themselves in every locale. In `LcCtype.c` all other bytes are
characters as well; `LcCtype.utf8` has the characters of RFC 3629, and as white space what
`iswspace` accepts.

Candidates for upstreaming to Lean's standard library.
-/

namespace LineEdit

/-- A line, without its newline. -/
abbrev Line := List Char

/-- The byte is an ASCII character. -/
def isAscii (c : Char) : Bool :=
  c.toNat < 128

/-- The white space of ASCII. -/
def asciiSpaces : List Char :=
  [' ', '\t', '\n', '\x0b', '\x0c', '\r']

/-- `LC_CTYPE`, as far as it matters for the patterns of `grep` and `sed`. -/
structure LcCtype where
  /-- The length of the first character of a line, zero if it starts with none. -/
  charLen : Line → Nat
  /-- White space that is not ASCII. -/
  wideSpaces : List Line
  charLen_le : ∀ l, charLen l ≤ l.length
  charLen_ascii : ∀ c l, isAscii c = true → charLen (c :: l) = 1
  charLen_wide : ∀ x ∈ wideSpaces, ∀ l, charLen (x ++ l) = x.length
  wide_head : ∀ x ∈ wideSpaces, ∃ c w, x = c :: w ∧ isAscii c = false
  wide_nulFree : ∀ x ∈ wideSpaces, '\x00' ∉ x

/-! ## Runs of pieces -/

/-- The line after the longest run of pieces, where `len` is the length of the piece that a
    line starts with, and `within` characters of the last piece are still to come. -/
def dropRun (len : Line → Nat) : (within : Nat) → Line → Line
  | _, [] => []
  | 0, c :: l =>
    match len (c :: l) with
    | 0 => c :: l
    | k + 1 => dropRun len k l
  | k + 1, _ :: l => dropRun len k l

section Run

variable {len : Line → Nat} {l x : Line}

/-- No piece starts the line. -/
theorem dropRun_of_len_eq_zero (h : len l = 0) : dropRun len 0 l = l := by
  cases l with
  | nil => rfl
  | cons c l => rw [dropRun, h]

theorem dropRun_append_of_length (x l : Line) :
    dropRun len x.length (x ++ l) = dropRun len 0 l := by
  induction x with
  | nil => rfl
  | cons c x ih => exact ih

/-- A piece in front is dropped. -/
theorem dropRun_append (hx : x ≠ []) (h : len (x ++ l) = x.length) :
    dropRun len 0 (x ++ l) = dropRun len 0 l := by
  obtain ⟨c, w, rfl⟩ := List.exists_cons_of_ne_nil hx
  rw [List.cons_append] at h ⊢
  rw [dropRun, h]
  exact dropRun_append_of_length w l

/-- A run is dropped piece by piece. -/
theorem dropRun_flatten {xs : List Line} (h : ∀ x ∈ xs, x ≠ [] ∧ ∀ l, len (x ++ l) = x.length) :
    dropRun len 0 (xs.flatten ++ l) = dropRun len 0 l := by
  induction xs with
  | nil => rfl
  | cons x xs ih =>
    obtain ⟨hx, hlen⟩ := h x (by simp)
    rw [List.flatten_cons, List.append_assoc, dropRun_append hx (hlen _)]
    exact ih fun y hy => h y (by simp [hy])

theorem dropRun_sublist (n : Nat) (l : Line) : (dropRun len n l).Sublist l := by
  fun_induction dropRun len n l with
  | case1 => exact List.Sublist.refl _
  | case2 => exact List.Sublist.refl _
  | case3 _ _ _ _ ih => exact ih.cons _
  | case4 _ _ _ ih => exact ih.cons _

end Run

namespace LcCtype

variable (L : LcCtype)

/-! ## White space -/

/-- The characters of `[[:space:]]`. -/
def spaces : List Line :=
  asciiSpaces.map (fun c => [c]) ++ L.wideSpaces

/-- The length of the white space character that a line starts with. -/
def spaceLen (l : Line) : Nat :=
  match L.spaces.find? (·.isPrefixOf l) with
  | some x => x.length
  | none => 0

/-- The line after `[[:space:]]*`. -/
def skip (l : Line) : Line :=
  dropRun L.spaceLen 0 l

/-- `[[:space:]]*` matches all of `s`. -/
def Blank (s : Line) : Prop :=
  ∃ xs : List Line, (∀ x ∈ xs, x ∈ L.spaces) ∧ s = xs.flatten

/-! ## Characters -/

/-- The line after `.*`. -/
def afterDots (l : Line) : Line :=
  dropRun L.charLen 0 l

/-- The line is text: a sequence of characters. -/
def decodes (l : Line) : Bool :=
  (L.afterDots l).isEmpty

/-! ## Facts about white space -/

section Spaces

variable {L} {x s l : Line}

theorem charLen_space (hx : x ∈ L.spaces) (l : Line) : L.charLen (x ++ l) = x.length := by
  rw [spaces, List.mem_append, List.mem_map] at hx
  rcases hx with ⟨c, hc, rfl⟩ | hx
  · have hascii : asciiSpaces.all isAscii = true := rfl
    exact L.charLen_ascii c l (List.all_eq_true.mp hascii c hc)
  · exact L.charLen_wide x hx l

theorem space_ne_nil (hx : x ∈ L.spaces) : x ≠ [] := by
  rw [spaces, List.mem_append, List.mem_map] at hx
  rcases hx with ⟨c, _, rfl⟩ | hx
  · exact List.cons_ne_nil _ _
  · obtain ⟨c, w, rfl, _⟩ := L.wide_head x hx
    exact List.cons_ne_nil _ _

theorem nul_not_mem_space (hx : x ∈ L.spaces) : '\x00' ∉ x := by
  rw [spaces, List.mem_append, List.mem_map] at hx
  rcases hx with ⟨c, hc, rfl⟩ | hx
  · rw [List.mem_singleton]
    rintro rfl
    exact absurd hc (by decide)
  · exact L.wide_nulFree x hx

/-- At most one white space character starts a line. -/
theorem spaceLen_append (hx : x ∈ L.spaces) (l : Line) : L.spaceLen (x ++ l) = x.length := by
  unfold spaceLen
  cases hfind : L.spaces.find? (·.isPrefixOf (x ++ l)) with
  | none =>
    have hnot := List.find?_eq_none.mp hfind x hx
    exact absurd (List.isPrefixOf_iff_prefix.mpr (List.prefix_append x l)) hnot
  | some y =>
    -- both have the length of the first character
    have hpre := List.find?_some hfind
    obtain ⟨rest, hrest⟩ := List.isPrefixOf_iff_prefix.mp hpre
    show y.length = x.length
    rw [← charLen_space (List.mem_of_find?_eq_some hfind) rest, hrest, charLen_space hx]

theorem spaceLen_of_ascii {c : Char} (hc : isAscii c = true) (hspace : c ∉ asciiSpaces) (l : Line) :
    L.spaceLen (c :: l) = 0 := by
  unfold spaceLen
  have hnone : L.spaces.find? (·.isPrefixOf (c :: l)) = none := by
    rw [List.find?_eq_none]
    intro x hx hpre
    obtain ⟨rest, hrest⟩ := List.isPrefixOf_iff_prefix.mp hpre
    rw [spaces, List.mem_append, List.mem_map] at hx
    rcases hx with ⟨d, hd, rfl⟩ | hx
    · obtain ⟨rfl, _⟩ := List.cons.inj hrest
      exact hspace hd
    · obtain ⟨d, w, rfl, hd⟩ := L.wide_head x hx
      obtain ⟨rfl, _⟩ := List.cons.inj hrest
      rw [hc] at hd
      exact nomatch hd
  rw [hnone]

theorem blank_nil : L.Blank [] :=
  ⟨[], by simp, rfl⟩

theorem Blank.cons {c : Char} (hc : c ∈ asciiSpaces) (h : L.Blank s) : L.Blank (c :: s) := by
  obtain ⟨xs, hxs, rfl⟩ := h
  refine ⟨[c] :: xs, ?_, rfl⟩
  intro x hx
  rcases List.mem_cons.mp hx with rfl | hx
  · exact List.mem_append_left _ (List.mem_map.mpr ⟨c, hc, rfl⟩)
  · exact hxs x hx

theorem Blank.nul_not_mem (h : L.Blank s) : '\x00' ∉ s := by
  obtain ⟨xs, hxs, rfl⟩ := h
  intro hmem
  obtain ⟨x, hx, hmem⟩ := List.mem_flatten.mp hmem
  exact nul_not_mem_space (hxs x hx) hmem

/-- White space in front does not change what follows it. -/
theorem skip_append (h : L.Blank s) (l : Line) : L.skip (s ++ l) = L.skip l := by
  obtain ⟨xs, hxs, rfl⟩ := h
  exact dropRun_flatten fun x hx => ⟨space_ne_nil (hxs x hx), spaceLen_append (hxs x hx)⟩

theorem skip_of_ascii {c : Char} (hc : isAscii c = true) (hspace : c ∉ asciiSpaces) (l : Line) :
    L.skip (c :: l) = c :: l :=
  dropRun_of_len_eq_zero (spaceLen_of_ascii hc hspace l)

theorem skip_sublist (L : LcCtype) (l : Line) : (L.skip l).Sublist l :=
  dropRun_sublist 0 l

/-- A line is its leading white space followed by the rest. -/
theorem exists_blank (L : LcCtype) (l : Line) : ∃ s, L.Blank s ∧ l = s ++ L.skip l := by
  -- by induction on the length, one white space character at a time
  induction hn : l.length using Nat.strongRecOn generalizing l with
  | ind n ih =>
    cases hfind : L.spaces.find? (·.isPrefixOf l) with
    | none =>
      have hlen : L.spaceLen l = 0 := by rw [spaceLen, hfind]
      refine ⟨[], blank_nil, ?_⟩
      rw [skip, dropRun_of_len_eq_zero hlen, List.nil_append]
    | some x =>
      have hx := List.mem_of_find?_eq_some hfind
      have hpre := List.find?_some hfind
      obtain ⟨rest, rfl⟩ := List.isPrefixOf_iff_prefix.mp hpre
      have hpos := List.length_pos_of_ne_nil (space_ne_nil hx)
      rw [List.length_append] at hn
      obtain ⟨s, ⟨xs, hxs, rfl⟩, hrest⟩ := ih rest.length (by omega) rest rfl
      refine ⟨x ++ xs.flatten, ⟨x :: xs, ?_, rfl⟩, ?_⟩
      · intro y hy
        rcases List.mem_cons.mp hy with rfl | hy
        · exact hx
        · exact hxs y hy
      · have hskip : L.skip (x ++ rest) = L.skip rest :=
          dropRun_append (space_ne_nil hx) (spaceLen_append hx rest)
        rw [hskip, List.append_assoc, ← hrest]

end Spaces

/-! ## Facts about characters -/

section Chars

variable {L} {s l : Line}

theorem afterDots_ascii (h : s.all isAscii = true) (l : Line) :
    L.afterDots (s ++ l) = L.afterDots l := by
  induction s with
  | nil => rfl
  | cons c s ih =>
    rw [List.all_cons, Bool.and_eq_true] at h
    have hlen : L.charLen ([c] ++ (s ++ l)) = [c].length := L.charLen_ascii c (s ++ l) h.1
    rw [← ih h.2]
    exact dropRun_append (List.cons_ne_nil _ _) hlen

theorem afterDots_blank (h : L.Blank s) (l : Line) : L.afterDots (s ++ l) = L.afterDots l := by
  obtain ⟨xs, hxs, rfl⟩ := h
  exact dropRun_flatten fun x hx => ⟨space_ne_nil (hxs x hx), charLen_space (hxs x hx)⟩

theorem afterDots_skip (L : LcCtype) (l : Line) : L.afterDots (L.skip l) = L.afterDots l := by
  obtain ⟨s, hs, hl⟩ := L.exists_blank l
  conv_rhs => rw [hl, afterDots_blank hs]

theorem decodes_iff : L.decodes l = true ↔ L.afterDots l = [] := by
  rw [decodes, List.isEmpty_iff]

theorem decodes_ascii (h : s.all isAscii = true) (l : Line) :
    L.decodes (s ++ l) = L.decodes l := by
  rw [decodes, afterDots_ascii h, decodes]

theorem decodes_of_ascii (h : s.all isAscii = true) : L.decodes s = true := by
  have hs := decodes_ascii (L := L) h []
  rw [List.append_nil] at hs
  rw [hs]
  rfl

end Chars

/-! ## The C locale -/

/-- Every byte is a character. -/
def c : LcCtype where
  charLen
    | [] => 0
    | _ :: _ => 1
  wideSpaces := []
  charLen_le
    | [] => Nat.le_refl 0
    | _ :: l => Nat.succ_le_succ (Nat.zero_le l.length)
  charLen_ascii := fun _ _ _ => rfl
  charLen_wide := by simp
  wide_head := by simp
  wide_nulFree := by simp

/-! ## UTF-8 -/

/-- The bytes of a character, each by the first and the last of its range. -/
abbrev Utf8Row := List (Nat × Nat)

/-- The rows of RFC 3629. -/
def utf8Rows : List Utf8Row :=
  let tail := (0x80, 0xbf)
  [[(0x00, 0x7f)],
    [(0xc2, 0xdf), tail],
    [(0xe0, 0xe0), (0xa0, 0xbf), tail],
    [(0xe1, 0xec), tail, tail],
    [(0xed, 0xed), (0x80, 0x9f), tail],
    [(0xee, 0xef), tail, tail],
    [(0xf0, 0xf0), (0x90, 0xbf), tail, tail],
    [(0xf1, 0xf3), tail, tail, tail],
    [(0xf4, 0xf4), (0x80, 0x8f), tail, tail]]

/-- The line starts with bytes of the row. -/
def inRow : Utf8Row → Line → Bool
  | [], _ => true
  | (lo, hi) :: row, c :: l => lo ≤ c.toNat && c.toNat ≤ hi && inRow row l
  | _ :: _, [] => false

/-- The length of the first character in UTF-8. -/
def utf8Len (l : Line) : Nat :=
  match utf8Rows.find? (inRow · l) with
  | some row => row.length
  | none => 0

theorem length_le_of_inRow {row : Utf8Row} {l : Line} (h : inRow row l = true) :
    row.length ≤ l.length := by
  fun_induction inRow row l with
  | case1 => exact Nat.zero_le _
  | case2 lo hi row c l ih =>
    rw [Bool.and_eq_true] at h
    exact Nat.succ_le_succ (ih h.2)
  | case3 => exact nomatch h

theorem utf8Len_le (l : Line) : utf8Len l ≤ l.length := by
  unfold utf8Len
  split
  · next row hfind =>
    have hrow := List.find?_some hfind
    exact length_le_of_inRow hrow
  · exact Nat.zero_le _

/-- The white space of Unicode outside of ASCII, without the no-break spaces: U+1680, U+2000
    to U+200A but U+2007, U+2028, U+2029, U+205F and U+3000. -/
def utf8Spaces : List Line :=
  ["\xe1\x9a\x80", "\xe2\x80\x80", "\xe2\x80\x81", "\xe2\x80\x82", "\xe2\x80\x83", "\xe2\x80\x84",
    "\xe2\x80\x85", "\xe2\x80\x86", "\xe2\x80\x88", "\xe2\x80\x89", "\xe2\x80\x8a", "\xe2\x80\xa8",
    "\xe2\x80\xa9", "\xe2\x81\x9f", "\xe3\x80\x80"].map String.toList

/-- `C.UTF-8`, and the other locales with this encoding. -/
def utf8 : LcCtype where
  charLen := utf8Len
  wideSpaces := utf8Spaces
  charLen_le := utf8Len_le
  charLen_ascii := by
    intro c l hc
    have hle : c.toNat ≤ 0x7f := Nat.le_of_lt_succ (of_decide_eq_true hc)
    simp [utf8Len, utf8Rows, inRow, hle]
  charLen_wide := by
    intro x hx l
    simp only [utf8Spaces, List.map_cons, List.map_nil, List.mem_cons, List.not_mem_nil,
      or_false] at hx
    rcases hx with rfl | rfl | rfl | rfl | rfl | rfl | rfl | rfl | rfl | rfl | rfl | rfl | rfl |
      rfl | rfl <;> rfl
  wide_head := by
    intro x hx
    have hall : ∀ x ∈ utf8Spaces, x.head?.any (fun c => !isAscii c) = true := by decide
    have hhead := hall x hx
    cases x with
    | nil => exact nomatch hhead
    | cons c w => exact ⟨c, w, rfl, by simpa using hhead⟩
  wide_nulFree := by decide

end LcCtype

end LineEdit
