import PathGlob.Proofs.Scan.Octets
import PathGlob.Proofs.Scan.Parts
import PathGlob.Scan.Bytewise

/-!
# `PathGlob.Proofs.Scan.Bytewise`: reading bytes and reading characters

The pass over the bytes of a pattern is the pass over its characters. `Scanner.bytes` translates the
states: every place becomes its byte offset. A character of one byte takes one step in both passes
(`Scanner.bytes_step`). The bytes of any other character have no role, so the pass over the bytes
takes them one after the other and does nothing else (`Scanner.finish_past`). It is the same with the
bytes of a character behind a backslash, of which the backslash hides only the first one.

Both passes end alike (`Scanner.finish_bytes`). The induction is on the characters that are left; it
carries the order of the places, since a place is told from another one by its offset only if both
lie within the pattern.
-/

set_option autoImplicit false

namespace PathGlob.Scan

open PathGlob.Text

/-! ### Places and offsets -/

/-- The byte offset of a place. -/
def offset (input : List Char) (place : Nat) : Nat := byteSize (input.take place)

variable {input done rest : List Char}

theorem offset_length (done rest : List Char) : offset (done ++ rest) done.length = byteSize done := by
  rw [offset, List.take_left]

theorem offset_add (h : input = done ++ rest) (chars more : List Char) (hrest : rest = chars ++ more) :
    offset input (done.length + chars.length) = offset input done.length + byteSize chars := by
  rw [h, hrest, offset_length, ← List.append_assoc, ← List.length_append, offset_length,
    byteSize_append]

theorem take_eq_append_drop {j k : Nat} (h : j ≤ k) (text : List Char) :
    text.take k = text.take j ++ (text.take k).drop j := by
  rw [← Nat.min_eq_left h, ← List.take_take, Nat.min_eq_left h, List.take_append_drop]

theorem offset_lt {j k : Nat} (hlt : j < k) (hle : k ≤ input.length) :
    offset input j < offset input k := by
  obtain ⟨c, rest, hdrop⟩ : ∃ c rest, (input.take k).drop j = c :: rest :=
    List.exists_cons_of_ne_nil fun h => by
      have := congrArg List.length h
      rw [List.length_drop, List.length_take, List.length_nil] at this
      omega
  have := c.utf8Size_pos
  rw [offset, offset, take_eq_append_drop (Nat.le_of_lt hlt), hdrop, byteSize_append, byteSize]
  omega

theorem offset_inj {j k : Nat} (hj : j ≤ input.length) (hk : k ≤ input.length) :
    offset input j = offset input k ↔ j = k := by
  refine ⟨fun heq => ?_, fun heq => heq ▸ rfl⟩
  rcases Nat.lt_trichotomy j k with hlt | heq' | hlt
  · exact absurd heq (Nat.ne_of_lt (offset_lt hlt hk))
  · exact heq'
  · exact absurd heq.symm (Nat.ne_of_lt (offset_lt hlt hj))

/-- A character of one byte stands between two places exactly if one byte does. -/
theorem offset_eq_offset_succ_iff {j : Nat} {d : Char} (hd : ¬IsWide d) (hj : j ≤ input.length)
    (h : input = done ++ d :: rest) :
    offset input (done.length + 1) = offset input j + 1 ↔ done.length + 1 = j + 1 := by
  have hsucc : offset input (done.length + 1) = offset input done.length + 1 := by
    rw [← List.length_singleton (a := d), offset_add h [d] rest rfl]
    simp [byteSize, utf8Size_of_not_isWide hd]
  have hle : done.length ≤ input.length := by rw [h, List.length_append]; omega
  rw [hsucc, Nat.add_right_cancel_iff, offset_inj hle hj, Nat.add_right_cancel_iff]

namespace Scanner

/-- The same state of a scanner that reads bytes. -/
def bytes (input : List Char) (s : Scanner) : Scanner :=
  { s with
    rest := octets s.rest
    index := offset input s.index
    previous := s.previous.map lastOctet
    start := offset input s.start
    lastSeparator := offset input s.lastSeparator
    first := s.first.map (offset input) }

variable {options : Options} {s : Scanner}

@[simp] theorem rest_bytes (input : List Char) (s : Scanner) :
    (s.bytes input).rest = octets s.rest := rfl

theorem Behind.past (h : Behind input done s) {chars more : List Char}
    (hrest : s.rest = chars ++ more) : Behind input (done ++ chars) (s.past chars more) :=
  h.moves ⟨hrest, rfl, rfl⟩

theorem Behind.index_le (h : Behind input done s) : s.index ≤ input.length := by
  rw [h.index, h.input, List.length_append]
  omega

theorem bytes_past (h : Behind input done s) {chars more : List Char}
    (hrest : s.rest = chars ++ more) :
    (s.past chars more).bytes input = (s.bytes input).past (octets chars) (octets more) := by
  have hindex : offset input (s.index + chars.length) =
      offset input s.index + (octets chars).length := by
    rw [h.index, offset_add h.input chars more hrest, length_octets]
  have hprevious : ((chars.getLast?).or s.previous).map lastOctet =
      ((octets chars).getLast?).or (s.previous.map lastOctet) := by
    rw [getLast?_octets]
    cases chars.getLast? <;> rfl
  simp only [bytes, past, hindex, hprevious]

theorem bytes_mark (place : Nat) :
    (s.mark place).bytes input = (s.bytes input).mark (offset input place) := by
  unfold mark bytes
  cases s.first <;> rfl

theorem bytes_noteEscapes (closed : Closed) :
    (s.noteEscapes closed).bytes input = (s.bytes input).noteEscapes closed.octets := by
  have hmem (text : List Char) : '\\' ∈ octets text ↔ '\\' ∈ text := mem_octets_iff (by decide)
  unfold noteEscapes bytes
  rcases closed with _ | ⟨inside, rest⟩ <;> simp [Closed.octets, hmem]

theorem counts_bytes : (s.bytes input).counts options = s.counts options := by
  unfold counts bytes
  cases s.first <;> rfl

/-! ### One step -/

section
variable (h : Ordered options.windows input s) {c : Char} {rest : List Char}
  (hrest : s.rest = c :: rest)

include h

theorem offset_index_eq_iff :
    offset input s.index = offset input s.start ↔ s.index = s.start := by
  obtain ⟨done, hdone⟩ := h.behind
  have := hdone.index_le
  exact offset_inj this (Nat.le_trans h.start_le this)

include hrest

/-- A character of one byte is read as one byte. -/
theorem bytes_ahead (hc : ¬IsWide c) :
    (s.past [c] rest).bytes input = (s.bytes input).past [c] (octets rest) := by
  obtain ⟨done, hdone⟩ := h.behind
  rw [bytes_past hdone (by exact hrest), octets_singleton hc]

theorem offset_index_succ (hc : ¬IsWide c) :
    offset input (s.index + 1) = offset input s.index + 1 :=
  congrArg index (bytes_ahead h hrest hc)

theorem bytes_separator (hc : ¬IsWide c) :
    ((s.past [c] rest).separator s.index s.previous).bytes input =
      ((s.bytes input).past [c] (octets rest)).separator (offset input s.index)
        (s.previous.map lastOctet) := by
  have hahead := bytes_ahead h hrest hc
  have hsucc := offset_index_succ h hrest hc
  -- A dot is one byte long, so it stands at the start exactly if its byte does.
  have hdot : (offset input s.index = offset input s.start + 1 ∧
      s.previous.map lastOctet = some '.') ↔ s.index = s.start + 1 ∧ s.previous = some '.' := by
    have hprevious : s.previous.map lastOctet = some '.' ↔ s.previous = some '.' := by
      simp [Option.map_eq_some_iff, lastOctet_eq_iff (by decide : ¬IsWide '.')]
    rw [hprevious]
    refine and_congr_left fun hdot => ?_
    obtain ⟨done, hdone⟩ := h.behind
    obtain ⟨before, rfl⟩ := List.getLast?_eq_some_iff.mp (hdone.previous.symm.trans hdot)
    have hinput : input = before ++ '.' :: s.rest := by
      rw [hdone.input, List.append_assoc, List.singleton_append]
    have hle := Nat.le_trans h.start_le hdone.index_le
    rw [hdone.index, List.length_append, List.length_singleton]
    exact offset_eq_offset_succ_iff (by decide) hle hinput
  unfold separator
  rw [← hahead]
  have hfirst : ((s.past [c] rest).bytes input).first.isSome = s.first.isSome := Option.isSome_map
  have hstart : ((s.past [c] rest).bytes input).start = offset input s.start := rfl
  have hfirst' : (s.past [c] rest).first = s.first := rfl
  have hstart' : (s.past [c] rest).start = s.start := rfl
  simp only [hfirst, hstart, hfirst', hstart', Bool.and_eq_true, decide_eq_true_iff, hdot]
  split
  case isTrue => rfl
  case isFalse =>
    split
    case isTrue hplace =>
      have htwo : offset input (s.start + 2) = offset input s.start + 2 := by
        rw [show s.start + 2 = s.index + 1 by omega, hsucc, (hdot.mpr hplace).1]
      rw [← htwo]
      rfl
    case isFalse =>
      rw [← hsucc]
      rfl

/-- Past more characters behind the first one, whatever else is noted there. -/
theorem bytes_further {ahead : Scanner} (hmoves : s.Moves ahead [c]) {chars more : List Char}
    (hchars : rest = chars ++ more) :
    (ahead.past chars more).bytes input = (ahead.bytes input).past (octets chars) (octets more) := by
  obtain ⟨done, hdone⟩ := h.behind
  exact bytes_past (hdone.moves hmoves) ((hmoves.rest_eq hrest).trans hchars)

theorem bytes_closed {ahead : Scanner} (hmoves : s.Moves ahead [c]) {closed : Closed}
    (hclosed : closed.Cuts rest) :
    (ahead.pastClosed closed).bytes input = (ahead.bytes input).pastClosed closed.octets := by
  rcases closed with _ | ⟨inside, rest⟩
  · rfl
  · exact bytes_further h hrest hmoves (hclosed _ rfl).1

theorem bytes_extglob (hc : ¬IsWide c) :
    ((s.past [c] rest).extglob c s.index).bytes input =
      ((s.bytes input).past [c] (octets rest)).extglob c (offset input s.index) := by
  have hclose := closeNested_octets (by decide : ¬IsWide '(') (by decide : ¬IsWide ')') 0 rest
  rw [← bytes_ahead h hrest hc, extglob_eq, extglob_eq, rest_bytes, rest_past, hclose,
    bytes_closed h hrest (by exact ⟨hrest, rfl, rfl⟩) (cuts_closeNested '(' ')' 0 rest),
    bytes_noteEscapes, bytes_mark]
  have hstart : ((s.past [c] rest).bytes input).start = offset input s.start := rfl
  have hstart' : (s.past [c] rest).start = s.start := rfl
  simp only [hstart, hstart', offset_index_eq_iff h]
  rfl

theorem bytes_star (hc : ¬IsWide c) :
    ((s.past [c] rest).star options s.index s.previous).bytes input =
      ((s.bytes input).past [c] (octets rest)).star options (offset input s.index)
        (s.previous.map lastOctet) := by
  have hahead := bytes_ahead h hrest hc
  have hstart : ((s.past [c] rest).bytes input).start = offset input s.start := rfl
  have hprevious : (s.previous.map lastOctet).any (fun c => separates options.windows c (some '*')) =
      s.previous.any fun c => separates options.windows c (some '*') := by
    cases s.previous with
    | none => rfl
    | some d =>
      by_cases hd : IsWide d
      · simp [separates_of_isWide hd, separates_of_isWide (isWide_lastOctet hd)]
      · simp [lastOctet_of_not_isWide hd]
  rw [← hahead, star_eq, star_eq, rest_bytes, rest_past, (takeWhile_octets rest).1,
    (takeWhile_octets rest).2, standsAlone_octets, counts_bytes, hprevious, hstart]
  simp only [offset_index_eq_iff h]
  rw [bytes_further h hrest (by exact ⟨hrest, rfl, rfl⟩) List.takeWhile_append_dropWhile.symm,
    bytes_mark]
  rfl

theorem bytes_bracket (hc : ¬IsWide c) :
    ((s.past [c] rest).bracket options s.index).bytes input =
      ((s.bytes input).past [c] (octets rest)).bracket options (offset input s.index) := by
  rw [← bytes_ahead h hrest hc, bracket_eq, bracket_eq, rest_bytes, rest_past, closeClass_octets,
    Closed.isNone_octets, counts_bytes, ← bytes_noteEscapes]
  split
  case isTrue => rfl
  case isFalse =>
    rw [bytes_closed h hrest (by exact ⟨hrest, rfl, rfl⟩) (cuts_closeClass rest), bytes_mark]
    rfl

theorem bytes_brace (hc : ¬IsWide c) :
    ((s.past [c] rest).brace options s.index).bytes input =
      ((s.bytes input).past [c] (octets rest)).brace options (offset input s.index) := by
  have hclose := closeNested_octets (by decide : ¬IsWide '{') (by decide : ¬IsWide '}') 1 rest
  have hcuts := cuts_closeNested '{' '}' 1 rest
  rw [← bytes_ahead h hrest hc, brace_eq, brace_eq, rest_bytes, rest_past, hclose, counts_bytes,
    ← bytes_noteEscapes, Closed.inside_octets, hasAlternatives_octets]
  split
  case isTrue =>
    rw [bytes_closed h hrest (by exact ⟨hrest, rfl, rfl⟩) hcuts, bytes_mark]
    rfl
  case isFalse => rw [bytes_closed h hrest (by exact ⟨hrest, rfl, rfl⟩) hcuts]

/-- A step at a character of one byte that escapes nothing. -/
theorem bytes_step (hc : ¬IsWide c) (hescapes : ¬(c = '\\' && escapes options.windows rest.head?)) :
    (s.step options c rest).bytes input = (s.bytes input).step options c (octets rest) := by
  have hparen : (octets rest).head? = some '(' ↔ rest.head? = some '(' :=
    head?_octets_eq_some_iff (by decide)
  have hfirst : (s.bytes input).first.isNone = s.first.isNone := Option.isNone_map
  have hahead := bytes_ahead h hrest hc
  unfold step
  dsimp only
  rw [escapes_head?_octets, separates_head?_octets, if_neg hescapes, if_neg hescapes]
  simp only [hparen, hfirst]
  split
  case isTrue => exact bytes_separator h hrest hc
  case isFalse =>
  split
  case isTrue => exact bytes_extglob h hrest hc
  case isFalse =>
  split
  case isTrue => exact bytes_star h hrest hc
  case isFalse =>
  split
  case isTrue => rw [bytes_mark, hahead]; rfl
  case isFalse =>
  split
  case isTrue => exact bytes_bracket h hrest hc
  case isFalse =>
  split
  case isTrue => exact bytes_brace h hrest hc
  case isFalse =>
  have hstart : (s.bytes input).start = offset input s.start := rfl
  have hindex : (s.bytes input).index = offset input s.index := rfl
  simp only [hstart, hindex, offset_index_eq_iff h]
  split
  case isTrue hnegates =>
    simp only [Bool.and_eq_true, decide_eq_true_iff] at hnegates
    have hsucc := offset_index_succ h hrest hc
    rw [hnegates.1.2] at hsucc
    rw [← hahead, ← hsucc]
    rfl
  case isFalse => exact hahead

end

/-! ### The whole pass -/

theorem step_of_isWide {c : Char} (hc : IsWide c) (s : Scanner) (rest : List Char) :
    s.step options c rest = s.past [c] rest := by
  have hne {d : Char} (hd : ¬IsWide d) : c ≠ d := hc.ne hd
  simp [step, separates_of_isWide hc, hne (by decide : ¬IsWide '\\'), hne (by decide : ¬IsWide '!'),
    hne (by decide : ¬IsWide '@'), hne (by decide : ¬IsWide '*'), hne (by decide : ¬IsWide '+'),
    hne (by decide : ¬IsWide '?'), hne (by decide : ¬IsWide '['), hne (by decide : ¬IsWide '{')]

theorem past_past (s : Scanner) (a b rest rest' : List Char) :
    (s.past a rest).past b rest' = s.past (a ++ b) rest' := by
  simp [past, Nat.add_assoc, List.getLast?_append, Option.or_assoc]

/-- Wide characters are passed, and nothing else. -/
theorem finish_past {wide rest : List Char} (hwide : ∀ c ∈ wide, IsWide c)
    (hrest : s.rest = wide ++ rest) (hcounts : s.counts options = true) :
    finish options s = finish options (s.past wide rest) := by
  induction wide generalizing s with
  | nil =>
    rw [List.nil_append] at hrest
    rw [← hrest]
    rfl
  | cons c wide ih =>
    obtain ⟨hc, hwide⟩ := List.forall_mem_cons.mp hwide
    rw [finish_of_counts (show s.rest = c :: (wide ++ rest) from hrest) hcounts, step_of_isWide hc,
      ih (s := s.past [c] (wide ++ rest)) hwide rfl hcounts, past_past, List.singleton_append]

section
variable {c : Char}

theorem step_last (h : (c = '\\' && escapes options.windows none) = true) (s : Scanner) :
    s.step options c [] = { s with hasEscapes := true }.past [c] [] := by
  unfold step
  dsimp only
  rw [if_pos (by exact h)]
  rfl

theorem step_pair {d : Char} (h : (c = '\\' && escapes options.windows (some d)) = true) (s : Scanner)
    (rest : List Char) :
    s.step options c (d :: rest) = { s with hasEscapes := true }.past [c, d] rest := by
  unfold step
  dsimp only
  rw [if_pos (by exact h)]
  exact past_past { s with hasEscapes := true } [c] [d] (d :: rest) rest

end

/-- The bytes of a character take as many steps as there are, but the pass is the same. -/
theorem finish_bytes_step (h : Ordered options.windows input s) {c : Char} {rest : List Char}
    (hrest : s.rest = c :: rest) (hcounts : s.counts options = true) :
    finish options (s.bytes input) = finish options ((s.step options c rest).bytes input) := by
  have hcounts : (s.bytes input).counts options = true := counts_bytes.trans hcounts
  obtain ⟨done, hdone⟩ := h.behind
  by_cases hc : IsWide c
  · have hbytes : (s.bytes input).rest = octetsOf c ++ octets rest := by
      rw [rest_bytes, hrest, octets_cons]
    rw [finish_past (isWide_of_mem_octetsOf hc) hbytes hcounts, step_of_isWide hc,
      bytes_past hdone (by exact hrest), octets_cons, octets_nil, List.append_nil]
  · have hbytes : (s.bytes input).rest = c :: octets rest := by
      rw [rest_bytes, hrest, octets_cons_of_not_isWide hc]
    by_cases hescapes : (c = '\\' && escapes options.windows rest.head?) = true
    -- The backslash hides the first byte of a character, and the scanner passes the others.
    · have hescaping : Behind input done { s with hasEscapes := true } :=
        ⟨hdone.input, hdone.index, hdone.previous⟩
      rw [finish_of_counts hbytes hcounts]
      cases rest with
      | nil =>
        rw [step_last hescapes, octets_nil, step_last hescapes, bytes_past hescaping (by exact hrest),
          octets_singleton hc, octets_nil]
        rfl
      | cons d rest =>
        obtain ⟨first, more, hfirst, hmore⟩ := exists_octetsOf_eq d
        have hescapes' : (c = '\\' && escapes options.windows (octets (d :: rest)).head?) = true := by
          rwa [escapes_head?_octets]
        rw [octets_cons, hfirst] at hescapes' ⊢
        rw [List.cons_append, step_pair hescapes', finish_past hmore (by rfl) (by exact hcounts),
          past_past, step_pair hescapes, bytes_past hescaping (by exact hrest),
          octets_cons_of_not_isWide hc, octets_cons, octets_nil, hfirst]
        simp only [List.append_nil, List.cons_append, List.nil_append]
        rfl
    · rw [finish_of_counts hbytes hcounts, bytes_step h hrest hc hescapes]

/-- The pass over the bytes is the pass over the characters. -/
theorem finish_bytes (h : Ordered options.windows input s) :
    finish options (s.bytes input) = (finish options s).bytes input := by
  induction hn : s.rest.length using Nat.strongRecOn generalizing s with
  | ind n ih =>
    cases hrest : s.rest with
    | nil =>
      rw [finish_of_nil hrest, finish_of_nil (by rw [rest_bytes, hrest, octets_nil])]
    | cons c rest =>
      cases hcounts : s.counts options with
      | false => rw [finish_of_not_counts hcounts, finish_of_not_counts (by rwa [counts_bytes])]
      | true =>
        have hsteps := steps_step hrest hcounts
        rw [finish_of_counts hrest hcounts,
          ← ih _ (hn ▸ hsteps.length_rest_lt) (h.steps hsteps) rfl]
        exact finish_bytes_step h hrest hcounts

end Scanner

end PathGlob.Scan
