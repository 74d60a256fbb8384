import PathGlob.Proofs.Scan.Bytewise

/-!
# `PathGlob.Proofs.Scan.Cuts`: every cut of a scan falls between two characters

The places that the pass over the bytes keeps are the offsets of places between characters, and so
are those of the separators. A scan of the bytes therefore never fails, and finds what a scan of the
characters finds (`bytewise?_eq`).
-/

set_option autoImplicit false

namespace PathGlob.Scan

open PathGlob.Text

variable {windows : Bool}

/-! ### Offsets -/

theorem offset_mono {input : List Char} {j k : Nat} (h : j ≤ k) : offset input j ≤ offset input k := by
  rw [offset, offset, take_eq_append_drop h, byteSize_append]
  exact Nat.le_add_right _ _

/-- The bytes between two places. -/
theorem byteSize_take_drop (input : List Char) (j k : Nat) :
    byteSize ((input.drop j).take (k - j)) = offset input k - offset input j := by
  rcases Nat.le_total k j with h | h
  · rw [Nat.sub_eq_zero_of_le h, Nat.sub_eq_zero_of_le (offset_mono h)]
    rfl
  · have htake : input.take k = input.take j ++ (input.drop j).take (k - j) := by
      rw [← List.take_add, Nat.add_sub_cancel' h]
    rw [offset, offset, htake, byteSize_append, Nat.add_sub_cancel_left]

/-- A text is cut at the offset of a place. -/
theorem cutAt?_take {n k : Nat} {text : List Char} (h : byteSize (text.take k) = n) :
    cutAt? n text = some (text.take k, text.drop k) :=
  cutAt?_eq_some_iff.mpr ⟨(List.take_append_drop k text).symm, h⟩

/-! ### Segments -/

section
variable {c : Char} {rest : List Char}

theorem separatorOffsets_pair {d : Char} (h : (c = '\\' && escapes windows (some d)) = true)
    (before : Nat) (rest : List Char) :
    separatorOffsets windows before (c :: d :: rest) = separatorOffsets windows (before + 2) rest := by
  rw [separatorOffsets.eq_def]
  dsimp only
  rw [if_pos (by exact h)]

theorem separatorOffsets_separator (hescapes : ¬(c = '\\' && escapes windows rest.head?))
    (hseparates : separates windows c rest.head? = true) (before : Nat) :
    separatorOffsets windows before (c :: rest) =
      before :: separatorOffsets windows (before + 1) rest := by
  rw [separatorOffsets.eq_def]
  dsimp only
  rw [if_neg hescapes, if_pos hseparates]

theorem separatorOffsets_cons (hescapes : ¬(c = '\\' && escapes windows rest.head?))
    (hseparates : ¬separates windows c rest.head? = true) (before : Nat) :
    separatorOffsets windows before (c :: rest) = separatorOffsets windows (before + 1) rest := by
  rw [separatorOffsets.eq_def]
  dsimp only
  rw [if_neg hescapes, if_neg hseparates]

end

theorem separatorOffsets_append {wide : List Char} (hwide : ∀ c ∈ wide, IsWide c) (before : Nat)
    (rest : List Char) :
    separatorOffsets windows before (wide ++ rest) =
      separatorOffsets windows (before + wide.length) rest := by
  induction wide generalizing before with
  | nil => rfl
  | cons c wide ih =>
    obtain ⟨hc, hwide⟩ := List.forall_mem_cons.mp hwide
    have hne : c ≠ '\\' := hc.ne (by decide)
    rw [List.cons_append, separatorOffsets_cons (by simp [hne]) (by simp [separates_of_isWide hc]),
      ih hwide, List.length_cons, Nat.add_right_comm, Nat.add_assoc]

/-! The offsets are those of the separators among the characters. -/

section
variable {c d : Char} {rest : List Char}

theorem separatorOffsets_octets_pair (h : (c = '\\' && escapes windows (some d)) = true)
    (before : Nat) (rest : List Char) :
    separatorOffsets windows before (octets (c :: d :: rest)) =
      separatorOffsets windows (before + byteSize [c, d]) (octets rest) := by
  obtain ⟨rfl, hescapes⟩ : c = '\\' ∧ escapes windows (some d) = true := by simpa using h
  -- The backslash hides the first byte of the other character, and the rest separates nothing.
  obtain ⟨first, more, hfirst, hmore⟩ := exists_octetsOf_eq d
  have hsize : byteSize ['\\', d] = 2 + more.length := by
    rw [byteSize, byteSize, byteSize, ← length_octetsOf d, hfirst, List.length_cons,
      utf8Size_of_not_isWide (by decide)]
    omega
  have hfirst' : escapes windows (some first) = true := by
    have heq := escapes_head?_octets windows (d :: rest)
    rw [octets_cons, hfirst] at heq
    exact heq.trans hescapes
  rw [octets_cons_of_not_isWide (by decide), octets_cons, hfirst, List.cons_append,
    separatorOffsets_pair (by simpa using hfirst'), separatorOffsets_append hmore, hsize,
    Nat.add_assoc]

theorem separatorOffsets_octets_separator (hescapes : ¬(c = '\\' && escapes windows rest.head?))
    (hseparates : separates windows c rest.head? = true) (before : Nat) :
    separatorOffsets windows before (octets (c :: rest)) =
      before :: separatorOffsets windows (before + 1) (octets rest) := by
  have hc : ¬IsWide c := fun hc => by simp [separates_of_isWide hc] at hseparates
  rw [← escapes_head?_octets] at hescapes
  rw [← separates_head?_octets] at hseparates
  rw [octets_cons_of_not_isWide hc, separatorOffsets_separator hescapes hseparates]

theorem separatorOffsets_octets_cons (hescapes : ¬(c = '\\' && escapes windows rest.head?))
    (hseparates : ¬separates windows c rest.head? = true) (before : Nat) :
    separatorOffsets windows before (octets (c :: rest)) =
      separatorOffsets windows (before + byteSize [c]) (octets rest) := by
  by_cases hc : IsWide c
  · rw [octets_cons, separatorOffsets_append (isWide_of_mem_octetsOf hc), length_octetsOf]
    rfl
  · rw [← escapes_head?_octets] at hescapes
    rw [← separates_head?_octets] at hseparates
    rw [octets_cons_of_not_isWide hc, separatorOffsets_cons hescapes hseparates, byteSize, byteSize,
      utf8Size_of_not_isWide hc]

end

theorem ontoFirst_ontoFirst (a b : List Char) (texts : List (List Char)) :
    ontoFirst a (ontoFirst b texts) = ontoFirst (a ++ b) texts := by
  cases texts with
  | nil => rfl
  | cons text texts => rw [ontoFirst, ontoFirst, ontoFirst, List.append_assoc]

theorem ontoFirst_nil {texts : List (List Char)} (h : texts ≠ []) : ontoFirst [] texts = texts := by
  cases texts with
  | nil => exact absurd rfl h
  | cons text texts => rfl

/-- The segments are the pieces between the separators among the bytes. The characters before the
text belong to its first segment. -/
theorem slices?_separatorOffsets (before : Nat) (chars text : List Char) :
    slices? before (separatorOffsets windows (before + byteSize chars) (octets text)) (chars ++ text) =
      some (ontoFirst chars (segments windows text)) := by
  fun_induction segments windows text generalizing before chars with
  | case1 => rfl
  | case2 c hescapes =>
    obtain ⟨rfl, -⟩ : c = '\\' ∧ escapes windows none = true := by simpa using hescapes
    rw [octets_singleton (by decide), separatorOffsets.eq_def]
    dsimp only
    rw [if_pos hescapes]
    rfl
  | case3 c d rest hescapes ih =>
    rw [separatorOffsets_octets_pair hescapes, Nat.add_assoc, ← byteSize_append, ontoFirst_ontoFirst,
      ← ih before (chars ++ [c, d]), List.append_assoc]
    rfl
  | case4 c rest hescapes hseparates ih =>
    have hc : ¬IsWide c := fun hc => by simp [separates_of_isWide hc] at hseparates
    have hone : cutAt? 1 (c :: rest) = some ([c], rest) :=
      cutAt?_eq_some_iff.mpr ⟨rfl, by rw [byteSize, byteSize, utf8Size_of_not_isWide hc]⟩
    have hrest := ih (before + byteSize chars + 1) []
    rw [ontoFirst_nil (joined_segments windows rest).ne_nil, byteSize, Nat.add_zero,
      List.nil_append] at hrest
    rw [separatorOffsets_octets_separator hescapes hseparates, slices?, Nat.add_sub_cancel_left,
      cutAt?_append]
    simp only [Option.bind_eq_bind, Option.bind_some, hone]
    rw [hrest, ontoFirst, List.append_nil]
    rfl
  | case5 c rest hescapes hseparates ih =>
    rw [separatorOffsets_octets_cons hescapes hseparates, Nat.add_assoc, ← byteSize_append,
      ontoFirst_ontoFirst, ← ih before (chars ++ [c]), List.append_assoc]
    rfl

theorem bytewiseParts?_eq (windows : Bool) (text : List Char) :
    bytewiseParts? windows text = some (parts windows text) := by
  have hslices := @slices?_separatorOffsets windows 0 [] text
  rw [ontoFirst_nil (joined_segments windows text).ne_nil, byteSize, Nat.add_zero,
    List.nil_append] at hslices
  rw [bytewiseParts?, hslices]
  rfl

/-! ### The base -/

/-- A beginning of a text has as many bytes as the text exactly if it is the whole text. -/
theorem byteSize_take_eq_iff (text : List Char) (k : Nat) :
    byteSize (text.take k) = byteSize text ↔ (text.take k).length = text.length := by
  have happend := List.take_append_drop k text
  have hsize := congrArg byteSize happend
  have hlength := congrArg List.length happend
  rw [byteSize_append] at hsize
  rw [List.length_append] at hlength
  cases hdrop : text.drop k with
  | nil => simp [hdrop, byteSize] at hsize hlength ⊢; omega
  | cons c rest =>
    have := c.utf8Size_pos
    rw [hdrop, byteSize] at hsize
    rw [hdrop, List.length_cons] at hlength
    constructor <;> intro <;> omega

theorem bytewiseTrim?_eq (windows : Bool) (whole : List Char) (k : Nat) :
    bytewiseTrim? windows (whole.take k) whole = some (trimBase windows (whole.take k) whole) := by
  have hwhole := byteSize_take_eq_iff whole k
  generalize whole.take k = base at hwhole
  unfold bytewiseTrim? trimBase
  simp only [hwhole, getLast?_octets]
  split
  case isTrue => rfl
  case isFalse =>
    cases hlast : base.getLast? with
    | none => rfl
    | some c =>
      simp only [Option.map_some, lastOctet_eq_iff (by decide : ¬IsWide '/'),
        lastOctet_eq_iff (by decide : ¬IsWide '\\')]
      split
      case isTrue hc =>
        have hnarrow : ¬IsWide c := by
          simp only [Bool.or_eq_true, Bool.and_eq_true, decide_eq_true_iff] at hc
          obtain rfl | ⟨rfl, -⟩ := hc <;> decide
        obtain ⟨before, rfl⟩ := List.getLast?_eq_some_iff.mp hlast
        have hsize : byteSize (before ++ [c]) - 1 = byteSize before := by
          rw [byteSize_append, byteSize, byteSize, utf8Size_of_not_isWide hnarrow, Nat.add_sub_cancel]
        rw [hsize, cutAt?_append, List.dropLast_concat]
        rfl
      case isFalse => rfl

/-! ### The whole scan -/

theorem finish_initial_bytes (input : List Char) (options : Options) :
    Scanner.run options (byteSize input) { rest := octets input } =
      (Scanner.pass options input).bytes input := by
  rw [← length_octets]
  exact Scanner.finish_bytes (Scanner.ordered_initial options.windows input)

/-- Scanning the bytes of a pattern cuts it between characters only, and finds what scanning its
characters finds. -/
theorem bytewise?_eq (input : List Char) (options : Options) :
    bytewise? input options = some (scan input options) := by
  unfold bytewise?
  rw [finish_initial_bytes, Scanner.scan_eq_result]
  generalize Scanner.pass options input = s
  have hstart : cutAt? (s.bytes input).start input =
      some (input.take s.start, input.drop s.start) := cutAt?_take rfl
  have hfirst : (s.bytes input).first.isSome = s.first.isSome := Option.isSome_map
  generalize hwhole : input.drop s.start = whole at *
  have hsplit : cutAt? (if s.first.isSome then (s.bytes input).lastSeparator - (s.bytes input).start
      else byteSize whole) whole =
        some (whole.take (if s.first.isSome then s.lastSeparator - s.start else whole.length),
          whole.drop (if s.first.isSome then s.lastSeparator - s.start else whole.length)) := by
    refine cutAt?_take ?_
    split
    case isTrue => rw [← hwhole, byteSize_take_drop]; rfl
    case isFalse => rw [List.take_length]
  have hplace : (s.bytes input).first.getD (byteSize input) = (s.result input options).start := by
    unfold Scanner.bytes Scanner.result
    cases s.first <;> rfl
  simp only [hstart, hfirst, hsplit, hplace, bytewiseTrim?_eq, bytewiseParts?_eq,
    Option.bind_eq_bind, Option.bind_some]
  subst hwhole
  rfl

end PathGlob.Scan
