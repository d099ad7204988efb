import OpteeRpi5.Native.WifiProfiles

/-!
# Which WiFi profiles the scripts find

`nmcli -t` escapes the colons and backslashes of a name, and neither `awk -F:` nor
`IFS=: read -r` undoes that. A name with a colon is cut at it, and then its type is not
where the scripts look for it; a backslash is doubled in the name that they use. In the
other direction, `awk` takes a connection of another type for a WiFi profile if the part
of its name after the only colon is the type of those.

## Key results

- `upCandidate_eq`: the loop picks the preferred profile, the first that matches, or the
  first
- `awkName_line`, `readName_line`: what the two splitters make of a line
- `wifiFound_iff`: for which connections the scripts find exactly the WiFi profiles
-/

namespace OpteeRpi5.Spec

open OpteeRpi5.Native LineEdit

/-! ## The purpose -/

/-- The names of the WiFi profiles. -/
def wirelessNames (cs : List Connection) : List Line :=
  (cs.filter fun c => c.type = wirelessType).map Connection.name

/-- The profile that should be brought up. -/
def chosen (preferred : Line) (names : List Line) : Option Line :=
  if preferred ∈ names then some preferred
  else (names.find? preferredPattern).or names.head?

/-- The scripts find the WiFi profiles, and bring up the right one. -/
structure WifiFound (cs : List Connection) (preferred wlanDev : Line) : Prop where
  modified : (ensureWifi (nmcliShow cs) preferred wlanDev).modified = wirelessNames cs
  fallback : fallbackModified (nmcliShow cs) = wirelessNames cs
  up : wlanDev ≠ [] →
    (ensureWifi (nmcliShow cs) preferred wlanDev).up = chosen preferred (wirelessNames cs)

/-! ## The profile to bring up -/

/-- The profile that is chosen is one of those found. -/
private theorem mem_of_chosen {preferred name : Line} {names : List Line}
    (h : chosen preferred names = some name) : name ∈ names := by
  unfold chosen at h
  split at h
  · next hmem =>
    cases h
    exact hmem
  · rw [Option.or_eq_some_iff] at h
    rcases h with h | ⟨_, h⟩
    · exact List.mem_of_find?_eq_some h
    · exact List.mem_of_mem_head? h

/-- The loop, from a candidate that an earlier turn has set or not. -/
private theorem foldl_candidateStep {preferred : Line} {names : List Line}
    (hne : ∀ name ∈ names, name ≠ []) (up : Line) :
    names.foldl (candidateStep preferred) up =
      if preferred ∈ names then preferred
      else if up = [] then (names.find? preferredPattern).getD [] else up := by
  induction names generalizing up with
  | nil =>
    rw [List.foldl_nil, if_neg List.not_mem_nil]
    split
    · next h => rw [h]; rfl
    · rfl
  | cons name names ih =>
    have hname : name ≠ [] := hne name (by simp)
    rw [List.foldl_cons, ih fun n hn => hne n (List.mem_cons_of_mem _ hn)]
    by_cases hrest : preferred ∈ names
    · -- a later turn sets the preferred profile, whatever this one does
      rw [if_pos hrest, if_pos (List.mem_cons_of_mem _ hrest)]
    · rw [if_neg hrest]
      by_cases heq : name = preferred
      · -- this turn sets it, and no later one changes a candidate
        subst heq
        have hstep : candidateStep name up name = name := if_pos ⟨hname, rfl⟩
        rw [hstep, if_neg hname, if_pos List.mem_cons_self]
      · have hnot : preferred ∉ name :: names := by
          simp [hrest, Ne.symm heq]
        have hstep : candidateStep preferred up name =
            if up = [] then (if preferredPattern name then name else up) else up :=
          if_neg fun h => heq h.2
        rw [hstep, if_neg hnot, List.find?_cons]
        by_cases hup : up = []
        · by_cases hp : preferredPattern name = true
          · simp [hup, hp, hname]
          · simp [hup, hp]
        · simp [hup]

/-- The candidate is the preferred profile, else the first that matches, else the first. -/
theorem upCandidate_eq (preferred : Line) {names : List Line} (hne : ∀ name ∈ names, name ≠ [])
    (hnil : names ≠ []) : some (upCandidate preferred names) = chosen preferred names := by
  have hfold := @foldl_candidateStep preferred _ hne []
  unfold upCandidate chosen
  simp only [hfold, if_true]
  by_cases hmem : preferred ∈ names
  · simp only [if_pos hmem, if_neg (hne preferred hmem)]
  · simp only [if_neg hmem]
    cases hfind : names.find? preferredPattern with
    | some name =>
      have hname : name ≠ [] := hne name (List.mem_of_find?_eq_some hfind)
      simp [hname]
    | none =>
      obtain ⟨first, rest, rfl⟩ := List.exists_cons_of_ne_nil hnil
      rfl

/-! ## The two splitters -/

/-- The name contains a colon, and `802-11-wireless` follows the only one. -/
def LooksWireless (name : Line) : Prop :=
  ∃ x, ':' ∉ x ∧ name = x ++ ':' :: wirelessType

/-- Escaping adds backslashes only. -/
private theorem colon_not_mem_escape {name : Line} (h : ':' ∉ name) :
    ':' ∉ Fields.escape '\\' nmcliSpecial name := by
  rwa [Fields.mem_escape (by decide)]

private theorem wirelessType_plain : ∀ c ∈ wirelessType, nmcliSpecial c = false := by
  have hall : wirelessType.all (fun c => !nmcliSpecial c) = true := by decide
  intro c hc
  simpa using List.all_eq_true.mp hall c hc

/-- A line of a name with a colon: the first field ends before the first colon of the name,
    and the rest of the name is in front of the type. -/
private theorem line_of_colon {c : Connection} {x y : Line} (hname : c.name = x ++ ':' :: y) :
    c.line = (Fields.escape '\\' nmcliSpecial x ++ ['\\']) ++
      ':' :: (Fields.escape '\\' nmcliSpecial y ++ ':' :: c.type) := by
  rw [Connection.line, hname, Fields.escape_append_cons rfl]
  simp

private theorem colon_not_mem_cut {x : Line} (hx : ':' ∉ x) :
    ':' ∉ Fields.escape '\\' nmcliSpecial x ++ ['\\'] := by
  simp [colon_not_mem_escape hx]

/-- The second field of such a line is the type of WiFi profiles only if the name says so. -/
private theorem first_rest_eq_wirelessType_iff (y t : Line) :
    Fields.first ':' (Fields.escape '\\' nmcliSpecial y ++ ':' :: t) = wirelessType ↔
      y = wirelessType := by
  by_cases hy : ':' ∈ y
  · -- the field ends at the next colon of the name, and with its backslash
    obtain ⟨a, b, rfl, ha⟩ := List.eq_append_cons_of_mem hy
    have hfirst : Fields.first ':' (Fields.escape '\\' nmcliSpecial (a ++ ':' :: b) ++ ':' :: t) =
        Fields.escape '\\' nmcliSpecial a ++ ['\\'] := by
      rw [Fields.escape_append_cons rfl, List.append_assoc, List.cons_append,
        Fields.first_append (colon_not_mem_cut ha)]
    rw [hfirst]
    refine iff_of_false ?_ ?_
    · intro h
      have hmem : '\\' ∈ wirelessType := by
        rw [← h]
        simp
      exact absurd hmem (by decide)
    · intro h
      rw [h] at hy
      exact absurd hy (by decide)
  · rw [Fields.first_append (colon_not_mem_escape hy)]
    exact Fields.escape_eq_iff (by decide) wirelessType_plain

/-- What `awk` makes of a line. -/
theorem awkName_line (c : Connection) :
    (':' ∉ c.name → awkName c.line =
      if c.type = wirelessType then some (Fields.escape '\\' nmcliSpecial c.name) else none) ∧
    (':' ∈ c.name → ((awkName c.line).isSome ↔ LooksWireless c.name)) := by
  constructor
  · intro hcolon
    have hfree := colon_not_mem_escape hcolon
    rw [awkName, Connection.line, Fields.rest_append hfree, Fields.first_append hfree,
      Fields.first_of_not_mem c.type_colonFree]
  · intro hcolon
    -- awk splits at the first colon of the name, not at the separator
    obtain ⟨x, y, hname, hx⟩ := List.eq_append_cons_of_mem hcolon
    have hlooks : LooksWireless c.name ↔ y = wirelessType := by
      constructor
      · rintro ⟨x', hx', heq⟩
        have hrest := congrArg (Fields.rest ':') (hname.symm.trans heq)
        rwa [Fields.rest_append hx, Fields.rest_append hx'] at hrest
      · intro hy
        exact ⟨x, hx, by rw [hname, hy]⟩
    rw [hlooks, ← first_rest_eq_wirelessType_iff y c.type, awkName, line_of_colon hname,
      Fields.rest_append (colon_not_mem_cut hx)]
    split
    · next h => simp [h]
    · next h => simp [h]

/-- What `read` makes of a line: a name with a colon is never that of a WiFi profile. -/
theorem readName_line (c : Connection) :
    readName c.line =
      if c.type = wirelessType ∧ ':' ∉ c.name then
        some (Fields.escape '\\' nmcliSpecial c.name) else none := by
  by_cases hcolon : ':' ∈ c.name
  · obtain ⟨x, y, hname, hx⟩ := List.eq_append_cons_of_mem hcolon
    -- the rest of the line still has a colon, so it is no type
    have hlast : readLast (Fields.rest ':' c.line) ≠ wirelessType := by
      rw [line_of_colon hname, Fields.rest_append (colon_not_mem_cut hx), readLast,
        if_neg (Fields.rest_append_ne_nil _ c.type_ne_nil)]
      intro h
      have hmem : ':' ∈ wirelessType := by
        rw [← h]
        simp
      exact absurd hmem (by decide)
    rw [readName, if_neg hlast, if_neg fun h => h.2 hcolon]
  · have hfree := colon_not_mem_escape hcolon
    have hlast : readLast c.type = c.type := by
      rw [readLast, if_pos (Fields.rest_of_not_mem c.type_colonFree),
        Fields.first_of_not_mem c.type_colonFree]
    rw [readName, Connection.line, Fields.rest_append hfree, Fields.first_append hfree, hlast]
    simp [hcolon]

/-! ## The output as lines -/

/-- A line of the output is one line. -/
private theorem newline_not_mem_line (c : Connection) : '\n' ∉ c.line := by
  have hname : '\n' ∉ Fields.escape '\\' nmcliSpecial c.name := by
    rw [Fields.mem_escape (by decide)]
    exact c.name_newlineFree
  simp [Connection.line, hname, c.type_newlineFree]

/-- The output has a line for each connection. -/
private theorem textLines_nmcliShow (cs : List Connection) :
    textLines (nmcliShow cs) = cs.map Connection.line := by
  apply textLines_unlines
  intro l hl
  obtain ⟨c, _, rfl⟩ := List.mem_map.mp hl
  exact newline_not_mem_line c

/-- `mapfile` gets back the names that `awk` has printed. -/
private theorem wifiNames_nmcliShow (cs : List Connection) :
    wifiNames (nmcliShow cs) = cs.filterMap fun c => awkName c.line := by
  have hprinted : (textLines (nmcliShow cs)).filterMap awkName =
      cs.filterMap fun c => awkName c.line := by
    rw [textLines_nmcliShow, List.filterMap_map]
    rfl
  rw [wifiNames, hprinted]
  apply textLines_unlines
  intro n hn
  obtain ⟨c, _, hawk⟩ := List.mem_filterMap.mp hn
  unfold awkName at hawk
  split at hawk
  · cases hawk
    exact fun h => newline_not_mem_line c ((List.takeWhile_sublist _).mem h)
  · cases hawk

/-- The fallback reads one name from each line that has one. -/
private theorem fallbackModified_nmcliShow (cs : List Connection) :
    fallbackModified (nmcliShow cs) = cs.filterMap fun c => readName c.line := by
  rw [fallbackModified, textLines_nmcliShow, List.filterMap_map]
  rfl

/-- The name of a WiFi profile. -/
def wirelessName (c : Connection) : Option Line :=
  if c.type = wirelessType then some c.name else none

/-- The names of the wireless connections, in the order of the output. -/
private theorem wirelessNames_eq (cs : List Connection) :
    wirelessNames cs = cs.filterMap wirelessName := by
  induction cs with
  | nil => rfl
  | cons c cs ih =>
    have hcons : wirelessNames (c :: cs) = wirelessNames [c] ++ wirelessNames cs := by
      unfold wirelessNames
      rw [← List.map_append, ← List.filter_append]
      rfl
    rw [hcons, ih, List.filterMap_cons]
    by_cases ht : c.type = wirelessType
    · simp [wirelessNames, wirelessName, ht]
    · simp [wirelessNames, wirelessName, ht]

/-- Every name that is found is modified. -/
private theorem ensureWifi_modified (output : List Char) (preferred wlanDev : Line) :
    (ensureWifi output preferred wlanDev).modified = wifiNames output := by
  unfold ensureWifi
  simp only
  split
  · next h => rw [h]
  · rfl

/-! ## All connections -/

/-- One selection is part of another, and both select the same list: then they agree on
    every element. -/
private theorem eq_of_filterMap_eq {α β : Type} {f g : α → Option β} {l : List α}
    (hsub : ∀ a ∈ l, (f a).isSome → (g a).isSome) (h : l.filterMap f = l.filterMap g) :
    ∀ a ∈ l, f a = g a := by
  -- a selection that is part of another is not longer
  have hle : ∀ l : List α, (∀ a ∈ l, (f a).isSome → (g a).isSome) →
      (l.filterMap f).length ≤ (l.filterMap g).length := by
    intro l hl
    rw [List.length_filterMap_eq_countP, List.length_filterMap_eq_countP]
    exact List.countP_mono_left hl
  induction l with
  | nil => exact fun a ha => absurd ha List.not_mem_nil
  | cons a l ih =>
    have hrest : ∀ b ∈ l, (f b).isSome → (g b).isSome :=
      fun b hb => hsub b (List.mem_cons_of_mem _ hb)
    have hlen := hle l hrest
    have hhead := hsub a List.mem_cons_self
    rw [List.filterMap_cons, List.filterMap_cons] at h
    intro b hb
    cases hf : f a with
    | none =>
      cases hg : g a with
      | none =>
        rw [hf, hg] at h
        rcases List.mem_cons.mp hb with rfl | hb
        · rw [hf, hg]
        · exact ih hrest h b hb
      | some y =>
        -- the second list would be longer
        rw [hf, hg] at h
        have hlong := congrArg List.length h
        simp only [List.length_cons] at hlong
        omega
    | some x =>
      cases hg : g a with
      | none =>
        rw [hf, hg] at hhead
        exact absurd (hhead rfl) (by simp)
      | some y =>
        rw [hf, hg] at h
        obtain ⟨rfl, htail⟩ := List.cons.inj h
        rcases List.mem_cons.mp hb with rfl | hb
        · rw [hf, hg]
        · exact ih hrest htail b hb

/-- The connections whose names do not confuse the scripts. -/
structure PlainNames (cs : List Connection) : Prop where
  wireless : ∀ c ∈ cs, c.type = wirelessType → ':' ∉ c.name ∧ '\\' ∉ c.name
  others : ∀ c ∈ cs, c.type ≠ wirelessType → ¬ LooksWireless c.name

/-- A name is printed as it is if it has no special character. -/
private theorem escape_name_iff (name : Line) :
    Fields.escape '\\' nmcliSpecial name = name ↔ ':' ∉ name ∧ '\\' ∉ name := by
  rw [Fields.escape_eq_self_iff]
  constructor
  · intro h
    exact ⟨fun hc => by simpa [nmcliSpecial] using h _ hc,
      fun hc => by simpa [nmcliSpecial] using h _ hc⟩
  · rintro ⟨hcolon, hslash⟩ c hc
    have h₁ : c ≠ ':' := fun h => hcolon (h ▸ hc)
    have h₂ : c ≠ '\\' := fun h => hslash (h ▸ hc)
    simp [nmcliSpecial, h₁, h₂]

/-- With plain names both splitters select the WiFi profiles. -/
private theorem selected_of_plain {cs : List Connection} (h : PlainNames cs) {c : Connection}
    (hc : c ∈ cs) : awkName c.line = wirelessName c ∧ readName c.line = wirelessName c := by
  by_cases ht : c.type = wirelessType
  · obtain ⟨hcolon, hslash⟩ := h.wireless c hc ht
    have hname := (escape_name_iff c.name).mpr ⟨hcolon, hslash⟩
    rw [(awkName_line c).1 hcolon, readName_line, hname, wirelessName, if_pos ht,
      if_pos ⟨ht, hcolon⟩]
    exact ⟨rfl, rfl⟩
  · rw [readName_line, wirelessName, if_neg ht, if_neg fun h => ht h.1]
    refine ⟨?_, rfl⟩
    by_cases hcolon : ':' ∈ c.name
    · have hnone := mt ((awkName_line c).2 hcolon).mp (h.others c hc ht)
      simpa using hnone
    · rw [(awkName_line c).1 hcolon, if_neg ht]

section Found

variable {cs : List Connection} {preferred wlanDev : Line}

/-- `read` selects a part of the WiFi profiles; where the scripts find all, it selects all. -/
private theorem WifiFound.readName_eq (h : WifiFound cs preferred wlanDev) :
    ∀ c ∈ cs, readName c.line = wirelessName c := by
  have hfallback := h.fallback
  rw [fallbackModified_nmcliShow, wirelessNames_eq] at hfallback
  apply eq_of_filterMap_eq _ hfallback
  intro c _ hsome
  rw [readName_line] at hsome
  split at hsome
  · next hplain => simp [wirelessName, hplain.1]
  · simp at hsome

/-- If all profiles are found, none of their names has a special character. -/
private theorem WifiFound.wireless (h : WifiFound cs preferred wlanDev) :
    ∀ c ∈ cs, c.type = wirelessType → ':' ∉ c.name ∧ '\\' ∉ c.name := by
  intro c hc ht
  have hname := h.readName_eq c hc
  rw [readName_line, wirelessName, if_pos ht] at hname
  split at hname
  · exact (escape_name_iff c.name).mp (Option.some.inj hname)
  · cases hname

/-- `awk` selects the WiFi profiles and perhaps more; where the scripts find only these, it
    selects no more. -/
private theorem WifiFound.awkName_eq (h : WifiFound cs preferred wlanDev) :
    ∀ c ∈ cs, wirelessName c = awkName c.line := by
  have hmodified := h.modified
  rw [ensureWifi_modified, wifiNames_nmcliShow, wirelessNames_eq] at hmodified
  apply eq_of_filterMap_eq _ hmodified.symm
  intro c hc hsome
  have ht : c.type = wirelessType := by
    unfold wirelessName at hsome
    split at hsome
    · next ht => exact ht
    · simp at hsome
  rw [(awkName_line c).1 (h.wireless c hc ht).1, if_pos ht]
  rfl

/-- With plain names the profile that is brought up is the one to choose. -/
private theorem ensureWifi_up (hnames : wifiNames (nmcliShow cs) = wirelessNames cs)
    (hdev : wlanDev ≠ []) :
    (ensureWifi (nmcliShow cs) preferred wlanDev).up =
      chosen preferred (wirelessNames cs) := by
  have hne : ∀ name ∈ wirelessNames cs, name ≠ [] := by
    intro name hname
    obtain ⟨c, _, rfl⟩ := List.mem_map.mp hname
    exact c.name_ne_nil
  unfold ensureWifi
  simp only [hnames]
  by_cases hnil : wirelessNames cs = []
  · rw [hnil]
    rfl
  · have hup := upCandidate_eq preferred hne hnil
    have hsome := hne _ (mem_of_chosen hup.symm)
    rw [if_neg hnil, ← hup, if_pos ⟨hdev, hsome⟩]

end Found

/-- For every list of connections, every preferred name and every device: the scripts find
    exactly the WiFi profiles, and bring up the right one, if and only if no WiFi profile
    has a colon or a backslash in its name and no other connection looks like one. -/
theorem wifiFound_iff (cs : List Connection) (preferred wlanDev : Line) :
    WifiFound cs preferred wlanDev ↔ PlainNames cs := by
  constructor
  · intro h
    refine ⟨h.wireless, ?_⟩
    intro c hc ht hlooks
    -- a name that looks wireless has a colon in it
    have hcolon : ':' ∈ c.name := by
      obtain ⟨x, _, hname⟩ := hlooks
      rw [hname]
      simp
    have hsome := ((awkName_line c).2 hcolon).mpr hlooks
    rw [← h.awkName_eq c hc, wirelessName, if_neg ht] at hsome
    exact absurd hsome (by simp)
  · intro h
    have hnames : wifiNames (nmcliShow cs) = wirelessNames cs := by
      rw [wifiNames_nmcliShow, wirelessNames_eq]
      exact List.filterMap_congr fun c hc => (selected_of_plain h hc).1
    refine ⟨?_, ?_, fun hdev => ensureWifi_up hnames hdev⟩
    · rw [ensureWifi_modified, hnames]
    · rw [fallbackModified_nmcliShow, wirelessNames_eq]
      exact List.filterMap_congr fun c hc => (selected_of_plain h hc).2

/-- A WiFi profile with a colon in its name. -/
def colonProfile : Connection where
  name := "Home:5G".toList
  type := wirelessType
  name_ne_nil := by decide
  name_newlineFree := by decide
  type_ne_nil := by decide
  type_newlineFree := by decide
  type_colonFree := by decide

/-- Neither script modifies the only WiFi profile of the board. -/
theorem colonProfile_missed :
    wirelessNames [colonProfile] = ["Home:5G".toList] ∧
    (ensureWifi (nmcliShow [colonProfile]) [] "wlan0".toList).modified = [] ∧
    fallbackModified (nmcliShow [colonProfile]) = [] := by
  refine ⟨?_, ?_, ?_⟩
  · decide
  · decide
  · decide

end OpteeRpi5.Spec
