import PathGlob.Proofs.Scan.Run
import PathGlob.Text.Octets

/-!
# `PathGlob.Proofs.Scan.Octets`: closing delimiters among the bytes of a text

Everything that the scanner looks for is a character of one byte, so the bytes of the others have no
role. Among the bytes of a text the same delimiter closes a group as in the text itself
(`closeNested_octets`, `closeClass_octets`), and a group has alternatives there exactly if it has
some (`hasAlternatives_octets`).
-/

set_option autoImplicit false

namespace PathGlob.Scan

open PathGlob.Text

/-! ### Wide characters have no role -/

variable {windows : Bool} {c : Char} {text wide : List Char}

theorem isGlobMeta_of_isWide (hc : IsWide c) : Separator.isGlobMeta c = false := by
  rw [Separator.isGlobMeta, List.contains_eq_mem, decide_eq_false_iff_not]
  intro hmem
  have hnarrow : ['*', '?', '[', ']', '{', '}', '(', ')', '!', '@', '+', '|', ',', '^', '$',
    '"'].all (fun d => !decide (IsWide d)) = true := by decide
  simpa [hc] using List.all_eq_true.mp hnarrow c hmem

theorem separates_of_isWide (hc : IsWide c) (next : Option Char) :
    separates windows c next = false := by
  simp [separates, hc.ne (by decide : ¬IsWide '/'), hc.ne (by decide : ¬IsWide '\\')]

theorem escapes_head?_octets (windows : Bool) (text : List Char) :
    escapes windows (octets text).head? = escapes windows text.head? := by
  rw [escapes, any_head?_octets fun _ => isGlobMeta_of_isWide, escapes]

theorem separates_head?_octets (windows : Bool) (c : Char) (text : List Char) :
    separates windows c (octets text).head? = separates windows c text.head? := by
  rw [separates, escapes_head?_octets, separates]

/-! ### Closing delimiters -/

theorem Closed.onto_nil (closed : Closed) : closed.onto [] = closed := by
  cases closed <;> rfl

theorem Closed.onto_onto (a b : List Char) (closed : Closed) :
    (closed.onto b).onto a = closed.onto (a ++ b) := by
  cases closed <;> simp [onto]

theorem closeNested_cons (opening closing : Char) {c : Char} (hc : c ≠ '\\') (depth : Nat)
    (rest : List Char) : closeNested opening closing depth (c :: rest) =
      if c = opening then Closed.onto [c] (closeNested opening closing (depth + 1) rest)
      else if c = closing then
        if depth ≤ 1 then some ([c], rest)
        else Closed.onto [c] (closeNested opening closing (depth - 1) rest)
      else Closed.onto [c] (closeNested opening closing depth rest) := by
  rw [closeNested] <;> simp [hc]

/-- The bytes of what is cut off and of what is left. -/
def Closed.octets (closed : Closed) : Closed :=
  closed.map fun (inside, rest) => (Text.octets inside, Text.octets rest)

theorem Closed.octets_some (inside rest : List Char) :
    Closed.octets (some (inside, rest)) = some (Text.octets inside, Text.octets rest) := rfl

theorem Closed.isNone_octets (closed : Closed) : closed.octets.isNone = closed.isNone :=
  Option.isNone_map

theorem Closed.inside_octets (closed : Closed) (rest : List Char) :
    closed.octets.inside (Text.octets rest) = Text.octets (closed.inside rest) := by
  cases closed <;> rfl

theorem Closed.octets_onto (chars : List Char) (closed : Closed) :
    (closed.onto chars).octets = closed.octets.onto (Text.octets chars) := by
  cases closed <;> simp [onto, octets, octets_append]

section
variable {opening closing : Char} (hopening : ¬IsWide opening) (hclosing : ¬IsWide closing)
include hopening hclosing

/-- Wide characters neither open nor close. -/
theorem closeNested_append (hwide : ∀ c ∈ wide, IsWide c) (depth : Nat) (rest : List Char) :
    closeNested opening closing depth (wide ++ rest) =
      Closed.onto wide (closeNested opening closing depth rest) := by
  induction wide with
  | nil => exact (Closed.onto_nil _).symm
  | cons c wide ih =>
    obtain ⟨hc, hwide⟩ := List.forall_mem_cons.mp hwide
    rw [List.cons_append, closeNested_cons _ _ (hc.ne (by decide)), if_neg (hc.ne hopening),
      if_neg (hc.ne hclosing), ih hwide, Closed.onto_onto, List.singleton_append]

theorem closeNested_octets (depth : Nat) (text : List Char) :
    closeNested opening closing depth (octets text) =
      (closeNested opening closing depth text).octets := by
  have hbackslash : ¬IsWide '\\' := by decide
  fun_induction closeNested opening closing depth text with
  | case1 => rfl
  | case2 => rw [octets_singleton hbackslash]; rfl
  -- A backslash hides the first byte of a character, and the others have no role.
  | case3 depth d rest ih =>
    obtain ⟨first, more, heq, hmore⟩ := exists_octetsOf_eq d
    rw [octets_cons_of_not_isWide hbackslash, octets_cons, heq, List.cons_append, closeNested,
      closeNested_append hopening hclosing hmore, ih, Closed.onto_onto, Closed.octets_onto,
      octets_cons_of_not_isWide hbackslash, octets_cons, heq, octets_nil, List.append_nil]
    rfl
  | case4 depth rest hlast hhides ih =>
    rw [octets_cons_of_not_isWide hopening, closeNested_cons _ _ (ne_backslash hlast hhides),
      if_pos rfl, ih, Closed.octets_onto, octets_singleton hopening]
  | case5 depth rest hdepth hlast hhides hne =>
    rw [octets_cons_of_not_isWide hclosing, closeNested_cons _ _ (ne_backslash hlast hhides),
      if_neg hne, if_pos rfl, if_pos hdepth, Closed.octets_some, octets_singleton hclosing]
  | case6 depth rest hdepth hlast hhides hne ih =>
    rw [octets_cons_of_not_isWide hclosing, closeNested_cons _ _ (ne_backslash hlast hhides),
      if_neg hne, if_pos rfl, if_neg hdepth, ih, Closed.octets_onto, octets_singleton hclosing]
  | case7 depth c rest hlast hhides hne hne' ih =>
    by_cases hc : IsWide c
    · rw [octets_cons, closeNested_append hopening hclosing (isWide_of_mem_octetsOf hc), ih,
        Closed.octets_onto, octets_cons, octets_nil, List.append_nil]
    · rw [octets_cons_of_not_isWide hc, closeNested_cons _ _ (ne_backslash hlast hhides),
        if_neg hne, if_neg hne', ih, Closed.octets_onto, octets_singleton hc]

end

theorem closeClassBody_cons {c : Char} (hc : c ≠ '\\') (rest : List Char) :
    closeClassBody (c :: rest) =
      if c = ']' then some ([c], rest) else Closed.onto [c] (closeClassBody rest) := by
  rw [closeClassBody] <;> simp [hc]

theorem closeClassBody_append (hwide : ∀ c ∈ wide, IsWide c) (rest : List Char) :
    closeClassBody (wide ++ rest) = Closed.onto wide (closeClassBody rest) := by
  induction wide with
  | nil => exact (Closed.onto_nil _).symm
  | cons c wide ih =>
    obtain ⟨hc, hwide⟩ := List.forall_mem_cons.mp hwide
    rw [List.cons_append, closeClassBody_cons (hc.ne (by decide)), if_neg (hc.ne (by decide)),
      ih hwide, Closed.onto_onto, List.singleton_append]

theorem closeClassBody_octets (text : List Char) :
    closeClassBody (octets text) = (closeClassBody text).octets := by
  have hbackslash : ¬IsWide '\\' := by decide
  fun_induction closeClassBody text with
  | case1 => rfl
  | case2 => rw [octets_singleton hbackslash]; rfl
  | case3 d rest ih =>
    obtain ⟨first, more, heq, hmore⟩ := exists_octetsOf_eq d
    rw [octets_cons_of_not_isWide hbackslash, octets_cons, heq, List.cons_append, closeClassBody,
      closeClassBody_append hmore, ih, Closed.onto_onto, Closed.octets_onto,
      octets_cons_of_not_isWide hbackslash, octets_cons, heq, octets_nil, List.append_nil]
    rfl
  | case4 rest hlast hhides =>
    rw [octets_cons_of_not_isWide (by decide), closeClassBody_cons (by decide), if_pos rfl,
      Closed.octets_some, octets_singleton (by decide)]
  | case5 c rest hlast hhides hne ih =>
    by_cases hc : IsWide c
    · rw [octets_cons, closeClassBody_append (isWide_of_mem_octetsOf hc), ih, Closed.octets_onto,
        octets_cons, octets_nil, List.append_nil]
    · rw [octets_cons_of_not_isWide hc, closeClassBody_cons (ne_backslash hlast hhides),
        if_neg hne, ih, Closed.octets_onto, octets_singleton hc]

/-- Cuts behind the bracket that closes a class, after the sign that the class may begin with. -/
def closeSigned : List Char → Closed
  | ']' :: rest => Closed.onto [']'] (closeClassBody rest)
  | text => closeClassBody text

theorem closeSigned_of_head?_ne (h : text.head? ≠ some ']') :
    closeSigned text = closeClassBody text := by
  unfold closeSigned
  split
  case h_1 => exact absurd rfl h
  case h_2 => rfl

theorem closeClass_cons (hc : c = '!' ∨ c = '^') (rest : List Char) :
    closeClass (c :: rest) = Closed.onto [c] (closeSigned rest) := by
  obtain rfl | rfl := hc <;>
  · unfold closeSigned
    split
    case h_1 => rw [Closed.onto_onto]; rfl
    case h_2 => simp only [closeClass, List.append_nil]

theorem closeClass_of_head?_ne (h : text.head? ≠ some '!') (h' : text.head? ≠ some '^') :
    closeClass text = closeSigned text := by
  unfold closeSigned
  split
  case h_1 => rfl
  case h_2 =>
    unfold closeClass
    split
    rename_i sign rest heq
    split at heq
    case h_1 => exact absurd rfl h
    case h_2 => exact absurd rfl h'
    case h_3 =>
      cases heq
      simp only [List.append_nil, Closed.onto_nil]

theorem closeSigned_octets (text : List Char) :
    closeSigned (octets text) = (closeSigned text).octets := by
  by_cases h : text.head? = some ']'
  · obtain ⟨rest, rfl⟩ := List.head?_eq_some_iff.mp h
    rw [octets_cons_of_not_isWide (by decide), closeSigned, closeSigned, closeClassBody_octets,
      Closed.octets_onto, octets_singleton (by decide)]
  · have h' : (octets text).head? ≠ some ']' := fun heq =>
      h ((head?_octets_eq_some_iff (by decide)).mp heq)
    rw [closeSigned_of_head?_ne h, closeSigned_of_head?_ne h', closeClassBody_octets]

theorem closeClass_octets (text : List Char) :
    closeClass (octets text) = (closeClass text).octets := by
  by_cases h : text.head? = some '!' ∨ text.head? = some '^'
  · obtain ⟨c, rest, rfl, hc⟩ : ∃ c rest, text = c :: rest ∧ (c = '!' ∨ c = '^') := by
      obtain h | h := h <;> obtain ⟨rest, rfl⟩ := List.head?_eq_some_iff.mp h
      · exact ⟨_, rest, rfl, .inl rfl⟩
      · exact ⟨_, rest, rfl, .inr rfl⟩
    have hnarrow : ¬IsWide c := by obtain rfl | rfl := hc <;> decide
    rw [octets_cons_of_not_isWide hnarrow, closeClass_cons hc, closeClass_cons hc,
      closeSigned_octets, Closed.octets_onto, octets_singleton hnarrow]
  · obtain ⟨h, h'⟩ := not_or.mp h
    have hiff {d : Char} (hd : ¬IsWide d) : (octets text).head? = some d ↔ text.head? = some d :=
      head?_octets_eq_some_iff hd
    rw [closeClass_of_head?_ne h h', closeClass_of_head?_ne (fun heq => h ((hiff (by decide)).mp heq))
      (fun heq => h' ((hiff (by decide)).mp heq)), closeSigned_octets]

/-! ### Alternatives -/

theorem hasAlternatives_cons {rest : List Char} (hbackslash : c ≠ '\\') (hcomma : c ≠ ',')
    (hdots : c = '.' → rest.head? ≠ some '.') :
    hasAlternatives (c :: rest) = hasAlternatives rest := by
  rw [hasAlternatives]
  · exact fun h => hbackslash h
  · exact fun h => hcomma h
  · rintro more hc rfl
    exact hdots hc rfl

theorem hasAlternatives_append (hwide : ∀ c ∈ wide, IsWide c) (rest : List Char) :
    hasAlternatives (wide ++ rest) = hasAlternatives rest := by
  induction wide with
  | nil => rfl
  | cons c wide ih =>
    obtain ⟨hc, hwide⟩ := List.forall_mem_cons.mp hwide
    rw [List.cons_append, hasAlternatives_cons (hc.ne (by decide)) (hc.ne (by decide))
      fun h => absurd h (hc.ne (by decide)), ih hwide]

theorem hasAlternatives_octets (text : List Char) :
    hasAlternatives (octets text) = hasAlternatives text := by
  have hbackslash : ¬IsWide '\\' := by decide
  fun_induction hasAlternatives text with
  | case1 => rfl
  | case2 => rw [octets_singleton hbackslash]; rfl
  | case3 d rest ih =>
    obtain ⟨first, more, heq, hmore⟩ := exists_octetsOf_eq d
    rw [octets_cons_of_not_isWide hbackslash, octets_cons, heq, List.cons_append, hasAlternatives,
      hasAlternatives_append hmore, ih]
  | case4 rest => rw [octets_cons_of_not_isWide (by decide), hasAlternatives]
  | case5 rest =>
    rw [octets_cons_of_not_isWide (by decide), octets_cons_of_not_isWide (by decide),
      hasAlternatives]
  | case6 c rest hne hne' hdots ih =>
    by_cases hc : IsWide c
    · rw [octets_cons, hasAlternatives_append (isWide_of_mem_octetsOf hc), ih]
    · rw [octets_cons_of_not_isWide hc, hasAlternatives_cons hne hne', ih]
      rintro rfl h
      obtain ⟨more, rfl⟩ := List.head?_eq_some_iff.mp
        ((head?_octets_eq_some_iff (by decide)).mp h)
      exact hdots more rfl rfl

/-! ### Stars -/

theorem takeWhile_octets (text : List Char) :
    (octets text).takeWhile (· = '*') = octets (text.takeWhile (· = '*')) ∧
      (octets text).dropWhile (· = '*') = octets (text.dropWhile (· = '*')) := by
  induction text with
  | nil => exact ⟨rfl, rfl⟩
  | cons c rest ih =>
    by_cases hc : c = '*'
    · subst hc
      simp [octets_cons_of_not_isWide (by decide : ¬IsWide '*'), ih]
    · have hne : (octets (c :: rest)).head? ≠ some '*' := fun h =>
        hc (Option.some_inj.mp ((head?_octets_eq_some_iff (by decide)).mp h))
      obtain ⟨first, more, heq⟩ := List.exists_cons_of_ne_nil
        (mt octets_eq_nil_iff.mp (List.cons_ne_nil c rest))
      have hfirst : first ≠ '*' := fun h => hne (by rw [heq, h]; rfl)
      simp [heq, hc, hfirst, octets_nil]

open Scanner in
theorem standsAlone_octets (windows atStart : Bool) (text : List Char) :
    standsAlone windows atStart (octets text) = standsAlone windows atStart text := by
  have hstar : ¬IsWide '*' := by decide
  fun_cases standsAlone windows atStart text with
  | case1 => rw [octets_singleton hstar, standsAlone]
  | case2 c rest =>
    rw [octets_cons_of_not_isWide hstar]
    by_cases hc : IsWide c
    · obtain ⟨first, more, heq⟩ := List.exists_cons_of_ne_nil (octetsOf_ne_nil c)
      have hfirst : IsWide first := isWide_of_mem_octetsOf hc first (heq ▸ List.mem_cons_self)
      rw [octets_cons, heq, List.cons_append, standsAlone, separates_of_isWide hfirst,
        separates_of_isWide hc]
    · rw [octets_cons_of_not_isWide hc, standsAlone, separates_head?_octets]
  | case3 text hone htwo =>
    have hne : text.head? ≠ some '*' := fun h => by
      obtain ⟨rest, rfl⟩ := List.head?_eq_some_iff.mp h
      cases rest with
      | nil => exact hone rfl
      | cons c rest => exact htwo c rest rfl
    have hne' : (octets text).head? ≠ some '*' := mt (head?_octets_eq_some_iff hstar).mp hne
    rw [standsAlone]
    · rintro h
      exact hne' (by rw [h]; rfl)
    · rintro c rest h
      exact hne' (by rw [h]; rfl)

end PathGlob.Scan
