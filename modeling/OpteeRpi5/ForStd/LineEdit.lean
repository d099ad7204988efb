import Mathlib.Data.List.DropRight
import OpteeRpi5.ForStd.LcCtype

/-!
# Line-oriented edits

A text file as the list of its lines, and the edits that shell scripts make to it: `sed`
substitutes in every line that matches, and a key is set by replacing the lines that
match or by appending one that does. Patterns are those of `grep -E` and `sed -E` that
are anchored at the start of the line and skip white space and a comment mark, in any
locale.

Candidates for upstreaming to Lean's standard library.
-/

namespace LineEdit

/-! ## Patterns -/

namespace LcCtype

variable (L : LcCtype)

/-- The line after `[[:space:]]*#?[[:space:]]*`. -/
def skipMark (l : Line) : Line :=
  match L.skip l with
  | '#' :: l => L.skip l
  | l => l

/-- `^[[:space:]]*word`. -/
def bare (word l : Line) : Bool :=
  word.isPrefixOf (L.skip l)

/-- `^[[:space:]]*#?[[:space:]]*word`. -/
def marked (word l : Line) : Bool :=
  word.isPrefixOf (L.skipMark l)

/-- `^pattern$`, where a dot of the pattern matches one character. -/
def dotMatch : (pattern l : Line) → Bool
  | [], l => l.isEmpty
  | '.' :: pattern, l =>
    match L.charLen l with
    | 0 => false
    | k + 1 => dotMatch pattern (l.drop (k + 1))
  | p :: pattern, c :: l => p = c && dotMatch pattern l
  | _ :: _, [] => false

end LcCtype

/-- A word that can stand for itself: it is ASCII, and starts with neither white space nor a
    mark. -/
def solid : Line → Bool
  | [] => false
  | c :: w => (c :: w).all isAscii && !asciiSpaces.contains c && c != '#'

theorem exists_of_solid {word : Line} (h : solid word = true) :
    ∃ c w, word = c :: w ∧ isAscii c = true ∧ c ∉ asciiSpaces ∧ c ≠ '#' := by
  cases word with
  | nil => exact absurd h (by decide)
  | cons c w =>
    simp only [solid, List.all_cons, Bool.and_eq_true, Bool.not_eq_true', bne_iff_ne,
      List.contains_eq_mem, decide_eq_false_iff_not] at h
    exact ⟨c, w, rfl, h.1.1.1, h.1.2, h.2⟩

theorem ascii_of_solid {word : Line} (h : solid word = true) : word.all isAscii = true := by
  cases word with
  | nil => rfl
  | cons c w =>
    simp only [solid, Bool.and_eq_true] at h
    exact h.1.1

namespace LcCtype

variable {L : LcCtype} {word l : Line}

theorem skip_word (h : solid word = true) (rest : Line) :
    L.skip (word ++ rest) = word ++ rest := by
  obtain ⟨c, w, rfl, hc, hspace, _⟩ := exists_of_solid h
  exact skip_of_ascii hc hspace _

/-- A comment mark is not white space. -/
theorem skip_mark (l : Line) : L.skip ('#' :: l) = '#' :: l :=
  skip_of_ascii rfl (by decide) l

theorem skipMark_word (h : solid word = true) (rest : Line) :
    L.skipMark (word ++ rest) = word ++ rest := by
  unfold skipMark
  rw [skip_word h]
  obtain ⟨c, w, rfl, _, _, hc⟩ := exists_of_solid h
  split
  · next heq =>
    rw [List.cons_append, List.cons.injEq] at heq
    exact absurd heq.1 hc
  · rfl

theorem skipMark_sublist (L : LcCtype) (l : Line) : (L.skipMark l).Sublist l := by
  unfold skipMark
  split
  · next l' heq =>
    have hl' : l'.Sublist (L.skip l) := heq ▸ List.sublist_cons_self '#' l'
    exact (L.skip_sublist l').trans (hl'.trans (L.skip_sublist l))
  · exact L.skip_sublist l

/-- The regular expression of `bare`. -/
theorem bare_iff (h : solid word = true) (l : Line) :
    L.bare word l = true ↔ ∃ s rest, L.Blank s ∧ l = s ++ (word ++ rest) := by
  unfold bare
  rw [List.isPrefixOf_iff_prefix]
  constructor
  · rintro ⟨rest, hrest⟩
    obtain ⟨s, hs, hl⟩ := L.exists_blank l
    exact ⟨s, rest, hs, by rw [hrest]; exact hl⟩
  · rintro ⟨s, rest, hs, rfl⟩
    rw [skip_append hs, skip_word h]
    exact List.prefix_append _ _

/-- The regular expression of `marked`. -/
theorem marked_iff (h : solid word = true) (l : Line) :
    L.marked word l = true ↔
      ∃ s m s' rest, L.Blank s ∧ (m = [] ∨ m = ['#']) ∧ L.Blank s' ∧
        l = s ++ (m ++ (s' ++ (word ++ rest))) := by
  unfold marked
  rw [List.isPrefixOf_iff_prefix]
  constructor
  · rintro ⟨rest, hrest⟩
    obtain ⟨s, hs, hl⟩ := L.exists_blank l
    unfold skipMark at hrest
    split at hrest
    · next l' heq =>
      -- the mark, with the spaces that may follow it
      obtain ⟨s', hs', hl'⟩ := L.exists_blank l'
      rw [heq, hl', ← hrest] at hl
      exact ⟨s, ['#'], s', rest, hs, .inr rfl, hs', hl⟩
    · rw [← hrest] at hl
      exact ⟨s, [], [], rest, hs, .inl rfl, blank_nil, hl⟩
  · rintro ⟨s, m, s', rest, hs, hm, hs', rfl⟩
    have hskip : L.skipMark (s ++ (m ++ (s' ++ (word ++ rest)))) = word ++ rest := by
      unfold skipMark
      rw [skip_append hs]
      rcases hm with rfl | rfl
      · rw [List.nil_append, skip_append hs']
        exact skipMark_word h rest
      · rw [List.singleton_append, skip_mark]
        exact (skip_append hs' _).trans (skip_word h rest)
    rw [hskip]
    exact List.prefix_append _ _

theorem marked_of_bare (h : solid word = true) (hl : L.bare word l = true) :
    L.marked word l = true := by
  obtain ⟨s, rest, hs, rfl⟩ := (bare_iff h l).mp hl
  exact (marked_iff h _).mpr ⟨s, [], [], rest, hs, .inl rfl, blank_nil, rfl⟩

/-- A commented line is not bare. -/
theorem bare_comment (h : solid word = true) (l : Line) : L.bare word ('#' :: l) = false := by
  obtain ⟨c, w, rfl, _, _, hc⟩ := exists_of_solid h
  rw [bare, skip_mark]
  simp [List.isPrefixOf, hc]

/-- What follows the mark of a commented line. -/
theorem skipMark_comment (l : Line) : L.skipMark ('#' :: l) = L.skip l := by
  unfold skipMark
  rw [skip_mark]
  rfl

/-- Commenting out a bare line leaves it marked. -/
theorem marked_comment (hl : L.bare word l = true) : L.marked word ('#' :: l) = true := by
  rw [marked, skipMark_comment]
  exact hl

/-- A line is marked with two words only if one of them starts with the other. -/
theorem comparable_of_marked {word' : Line} (h : L.marked word l = true)
    (h' : L.marked word' l = true) : word <+: word' ∨ word' <+: word :=
  List.prefix_or_prefix_of_prefix (List.isPrefixOf_iff_prefix.mp h)
    (List.isPrefixOf_iff_prefix.mp h')

/-- What follows the word of a marked line is text as far as the line is. -/
theorem afterDots_marked (h : solid word = true) (hl : L.marked word l = true) :
    L.afterDots ((L.skipMark l).drop word.length) = L.afterDots l := by
  have hmark : L.afterDots (L.skipMark l) = L.afterDots l := by
    conv_rhs => rw [← L.afterDots_skip l]
    unfold skipMark
    split
    · next l' heq =>
      rw [afterDots_skip, heq]
      exact (afterDots_ascii (s := ['#']) rfl l').symm
    · rfl
  obtain ⟨rest, hrest⟩ := List.isPrefixOf_iff_prefix.mp hl
  rw [← hmark, ← hrest, List.drop_left, afterDots_ascii (ascii_of_solid h)]

/-- The part of a pattern before its dot matches itself. -/
theorem dotMatch_append {stem pattern : Line} (hstem : '.' ∉ stem) (l : Line) :
    L.dotMatch (stem ++ pattern) l = true ↔
      ∃ l', l = stem ++ l' ∧ L.dotMatch pattern l' = true := by
  induction stem generalizing l with
  | nil => simp
  | cons p stem ih =>
    rw [List.mem_cons, not_or] at hstem
    -- a character of the stem stands for itself
    cases l with
    | nil =>
      rw [List.cons_append, dotMatch]
      · simp
      · exact fun h => hstem.1 h.symm
    | cons c l =>
      rw [List.cons_append, dotMatch, Bool.and_eq_true, decide_eq_true_iff, ih hstem.2]
      · constructor
        · rintro ⟨rfl, l', rfl, h⟩
          exact ⟨l', rfl, h⟩
        · rintro ⟨l', hl, h⟩
          obtain ⟨rfl, rfl⟩ := List.cons.inj hl
          exact ⟨rfl, l', rfl, h⟩
      · exact fun h => hstem.1 h.symm

/-- A pattern without dots. -/
theorem dotMatch_literal {pattern : Line} (h : '.' ∉ pattern) (l : Line) :
    L.dotMatch pattern l = true ↔ l = pattern := by
  rw [← List.append_nil pattern, dotMatch_append h, List.append_nil]
  constructor
  · rintro ⟨l', rfl, hnil⟩
    rw [dotMatch, List.isEmpty_iff] at hnil
    rw [hnil, List.append_nil]
  · rintro rfl
    exact ⟨[], (List.append_nil _).symm, rfl⟩

/-- A pattern with one dot, which one character stands for. -/
theorem dotMatch_dot {stem rest : Line} (hstem : '.' ∉ stem) (hrest : '.' ∉ rest) (l : Line) :
    L.dotMatch (stem ++ '.' :: rest) l = true ↔
      ∃ x, x ≠ [] ∧ L.charLen (x ++ rest) = x.length ∧ l = stem ++ (x ++ rest) := by
  rw [dotMatch_append hstem]
  constructor
  · rintro ⟨l', rfl, h⟩
    rw [dotMatch] at h
    cases hlen : L.charLen l' with
    | zero =>
      rw [hlen] at h
      exact nomatch h
    | succ k =>
      rw [hlen] at h
      -- the dot takes the first character, and the rest of the pattern what is left
      have hdrop : l'.drop (k + 1) = rest := (dotMatch_literal hrest _).mp h
      have htake : (l'.take (k + 1)).length = k + 1 :=
        List.length_take_of_le (hlen ▸ L.charLen_le l')
      have hsplit : l' = l'.take (k + 1) ++ rest := by rw [← hdrop, List.take_append_drop]
      refine ⟨l'.take (k + 1), ?_, ?_, congrArg (stem ++ ·) hsplit⟩
      · exact List.ne_nil_of_length_pos (by omega)
      · rw [← hsplit, hlen, htake]
  · rintro ⟨x, hx, hlen, rfl⟩
    obtain ⟨c, w, rfl⟩ := List.exists_cons_of_ne_nil hx
    refine ⟨_, rfl, ?_⟩
    rw [dotMatch, hlen, List.length_cons]
    show L.dotMatch rest (((c :: w) ++ rest).drop (c :: w).length) = true
    rw [List.drop_left, dotMatch_literal hrest]

end LcCtype

/-! ## Output of commands -/

/-- The text of a list of lines. -/
def unlines (ls : List Line) : List Char :=
  ls.flatMap (· ++ ['\n'])

/-- `$(command)`, for a command that prints `ls`: newlines at the end are dropped. -/
def cmdSubst (ls : List Line) : List Char :=
  (unlines ls).rdropWhile (· = '\n')

/-- Only the newline of the last line is dropped, if that line is not empty. -/
theorem cmdSubst_concat (ls : List Line) {l : Line} (hne : l ≠ []) (hl : '\n' ∉ l) :
    cmdSubst (ls ++ [l]) = unlines ls ++ l := by
  obtain ⟨s, c, rfl⟩ := (List.eq_nil_or_concat' l).resolve_left hne
  have hc : c ≠ '\n' := fun h => hl (by simp [h])
  have htext : unlines (ls ++ [s ++ [c]]) = unlines ls ++ s ++ [c] ++ ['\n'] := by
    simp [unlines]
  rw [cmdSubst, htext, List.rdropWhile_concat_pos _ _ _ (by simp),
    List.rdropWhile_concat_neg _ _ _ (by simpa using hc), List.append_assoc]

/-- A command prints a given line, and its output is compared with that line: no other
    line has been printed. -/
theorem cmdSubst_eq_iff {ls : List Line} (hne : ∀ l ∈ ls, l ≠ []) (hls : ∀ l ∈ ls, '\n' ∉ l)
    {s : Line} (hs : s ≠ []) (hs' : '\n' ∉ s) : cmdSubst ls = s ↔ ls = [s] := by
  constructor
  · intro h
    rcases List.eq_nil_or_concat' ls with rfl | ⟨init, l, rfl⟩
    · exact absurd h.symm hs
    · rw [cmdSubst_concat init (hne l (by simp)) (hls l (by simp))] at h
      cases init with
      | nil => rw [← h]; rfl
      | cons l' init =>
        -- the newline after the first line is left in the middle of the output
        refine absurd ?_ hs'
        rw [← h]
        simp [unlines]
  · rintro rfl
    exact cmdSubst_concat [] hs hs'

/-! ## Substitution -/

/-- `sed 's/p/f/'`: every line that matches is rewritten. -/
def sub (p : Line → Bool) (f : Line → Line) (ls : List Line) : List Line :=
  ls.map fun l => if p l then f l else l

section Sub

variable {p q : Line → Bool} {f : Line → Line} {ls : List Line}

/-- A line of the result is a rewritten line, or one that does not match. -/
theorem mem_sub {l : Line} (h : l ∈ sub p f ls) :
    (∃ l' ∈ ls, p l' = true ∧ l = f l') ∨ (l ∈ ls ∧ p l = false) := by
  obtain ⟨l', hl', rfl⟩ := List.mem_map.mp h
  by_cases hp : p l' = true
  · exact .inl ⟨l', hl', hp, if_pos hp⟩
  · rw [if_neg hp]
    exact .inr ⟨hl', by simpa using hp⟩

/-- A line that does not match is still there. -/
theorem mem_sub_of_mem {l : Line} (h : l ∈ ls) (hp : p l = false) : l ∈ sub p f ls :=
  List.mem_map.mpr ⟨l, h, by simp [hp]⟩

/-- Only the lines that match are rewritten. -/
theorem sub_congr {g : Line → Line} (h : ∀ l ∈ ls, p l = true → f l = g l) :
    sub p f ls = sub p g ls := by
  refine List.map_congr_left fun l hl => ?_
  split
  · next hp => exact h l hl hp
  · rfl

/-- A substitution that would not change any line. -/
theorem sub_eq_self (h : ∀ l ∈ ls, p l = true → f l = l) : sub p f ls = ls := by
  rw [sub_congr h]
  simp [sub]

/-- Substitution of lines that match `q` by such lines, and of others by others. -/
theorem countP_sub (h : ∀ l, p l = true → q (f l) = q l) : (sub p f ls).countP q = ls.countP q := by
  induction ls with
  | nil => rfl
  | cons l ls ih =>
    rw [sub, List.map_cons, ← sub, List.countP_cons, List.countP_cons, ih]
    by_cases hp : p l = true
    · rw [if_pos hp, h l hp]
    · rw [if_neg hp]

/-- Substitution does not touch the lines outside of a set `q` of lines that it keeps. -/
theorem filter_sub (h : ∀ l, p l = true → q l = true ∧ q (f l) = true) :
    (sub p f ls).filter (fun l => !q l) = ls.filter (fun l => !q l) := by
  induction ls with
  | nil => rfl
  | cons l ls ih =>
    rw [sub, List.map_cons, ← sub, List.filter_cons, List.filter_cons, ih]
    by_cases hp : p l = true
    · rw [if_pos hp, (h l hp).1, (h l hp).2]
      rfl
    · rw [if_neg hp]

end Sub

/-! ## Setting a line -/

/-- Rewrite the lines that match to `new`, or append it if there are none. -/
def upsert (p : Line → Bool) (new : Line) (ls : List Line) : List Line :=
  if ls.any p then sub p (fun _ => new) ls else ls ++ [new]

/-- The text has a line that matches, and `new` is the only one. -/
structure Settled (p : Line → Bool) (new : Line) (ls : List Line) : Prop where
  any : ls.any p = true
  eq_new : ∀ l ∈ ls, p l = true → l = new

section Upsert

variable {p q : Line → Bool} {f : Line → Line} {new new' : Line} {ls : List Line}

theorem mem_upsert {l : Line} (h : l ∈ upsert p new ls) :
    l = new ∨ (l ∈ ls ∧ p l = false) := by
  unfold upsert at h
  split at h
  · rcases mem_sub h with ⟨_, _, _, rfl⟩ | h
    · exact .inl rfl
    · exact .inr h
  · next hany =>
    rcases List.mem_append.mp h with h | h
    · refine .inr ⟨h, ?_⟩
      simp only [List.any_eq_true, not_exists, not_and, Bool.not_eq_true] at hany
      exact hany l h
    · exact .inl (List.mem_singleton.mp h)

/-- A line that does not match is still there. -/
theorem mem_upsert_of_mem {l : Line} (h : l ∈ ls) (hp : p l = false) : l ∈ upsert p new ls := by
  unfold upsert
  split
  · exact mem_sub_of_mem h hp
  · exact List.mem_append_left _ h

theorem new_mem_upsert : new ∈ upsert p new ls := by
  unfold upsert
  split
  · next hany =>
    obtain ⟨l, hl, hp⟩ := List.any_eq_true.mp hany
    exact List.mem_map.mpr ⟨l, hl, if_pos hp⟩
  · exact List.mem_append_right _ (List.mem_singleton.mpr rfl)

theorem settled_upsert (hnew : p new = true) : Settled p new (upsert p new ls) where
  any := List.any_eq_true.mpr ⟨new, new_mem_upsert, hnew⟩
  eq_new := by
    intro l hl hp
    rcases mem_upsert hl with h | ⟨_, h⟩
    · exact h
    · exact absurd hp (by simp [h])

theorem upsert_of_settled (h : Settled p new ls) : upsert p new ls = ls := by
  rw [upsert, if_pos h.any]
  exact sub_eq_self fun l hl hp => (h.eq_new l hl hp).symm

/-- Lines of another pattern can be rewritten. -/
theorem Settled.sub (h : Settled p new ls)
    (hq : ∀ l, q l = true → p l = false ∧ p (f l) = false) : Settled p new (sub q f ls) where
  any := by
    obtain ⟨l, hl, hp⟩ := List.any_eq_true.mp h.any
    have hql : q l = false := by
      by_contra hc
      exact absurd hp (by simp [(hq l (by simpa using hc)).1])
    exact List.any_eq_true.mpr ⟨l, mem_sub_of_mem hl hql, hp⟩
  eq_new := by
    intro l hl hp
    rcases mem_sub hl with ⟨l', _, hql', rfl⟩ | ⟨hl, _⟩
    · exact absurd hp (by simp [(hq l' hql').2])
    · exact h.eq_new l hl hp

/-- Another line can be set. -/
theorem Settled.upsert (h : Settled p new ls) (hq : ∀ l, q l = true → p l = false)
    (hnew : q new' = true) : Settled p new (upsert q new' ls) := by
  unfold LineEdit.upsert
  split
  · exact h.sub fun l hl => ⟨hq l hl, hq new' hnew⟩
  · refine ⟨?_, ?_⟩
    · rw [List.any_append, h.any, Bool.true_or]
    · intro l hl hp
      rcases List.mem_append.mp hl with hl | hl
      · exact h.eq_new l hl hp
      · rw [List.mem_singleton.mp hl] at hp
        exact absurd hp (by simp [hq new' hnew])

/-- Rewriting some of the lines within the pattern is undone by setting the line. -/
theorem upsert_sub_of_settled (h : Settled p new ls)
    (hq : ∀ l, q l = true → p l = true ∧ p (f l) = true) :
    upsert p new (sub q f ls) = ls := by
  obtain ⟨l, hl, hp⟩ := List.any_eq_true.mp h.any
  have hany : (sub q f ls).any p = true := by
    by_cases hql : q l = true
    · exact List.any_eq_true.mpr ⟨f l, List.mem_map.mpr ⟨l, hl, if_pos hql⟩, (hq l hql).2⟩
    · exact List.any_eq_true.mpr ⟨l, mem_sub_of_mem hl (by simpa using hql), hp⟩
  -- line by line: one that was rewritten still matches, and was `new` before
  have hline : ∀ l ∈ ls,
      (if p (if q l then f l else l) then new else if q l then f l else l) = id l := by
    intro l hl
    by_cases hql : q l = true
    · rw [if_pos hql, if_pos (hq l hql).2]
      exact (h.eq_new l hl (hq l hql).1).symm
    · rw [if_neg hql]
      split
      · next hp => exact (h.eq_new l hl hp).symm
      · rfl
  rw [upsert, if_pos hany, sub, sub, List.map_map]
  exact (List.map_congr_left hline).trans (List.map_id _)

theorem filter_upsert (hp : ∀ l, p l = true → q l = true) (hnew : q new = true) :
    (upsert p new ls).filter (fun l => !q l) = ls.filter (fun l => !q l) := by
  unfold upsert
  split
  · exact filter_sub fun l hl => ⟨hp l hl, hnew⟩
  · rw [List.filter_append, List.filter_singleton, hnew]
    exact List.append_nil _

end Upsert

end LineEdit
