import PathGlob.Scan

/-!
# `PathGlob.Proofs.Scan.Closing`: what a closing delimiter cuts off

Whatever is cut off behind a closing delimiter is a beginning of the text, and each backslash in it
stands before the character that it hides (`Closed.Cuts`). So nothing gets lost where the scanner
skips a group, and no backslash is torn from what it escapes.
-/

set_option autoImplicit false

namespace PathGlob.Scan

variable {windows : Bool} {text : List Char}

/-! ### Backslashes -/

/-- Every backslash in the text escapes the character after it, unless it is escaped itself. -/
inductive Paired (windows : Bool) : List Char → Prop
  | nil : Paired windows []
  | pair {d : Char} (hd : escapes windows (some d) = true) {rest : List Char}
    (h : Paired windows rest) : Paired windows ('\\' :: d :: rest)
  | cons {c : Char} (hc : c ≠ '\\') {rest : List Char} (h : Paired windows rest) :
    Paired windows (c :: rest)

theorem paired_of_not_mem (h : '\\' ∉ text) : Paired windows text := by
  induction text with
  | nil => exact .nil
  | cons c rest ih =>
    rw [List.mem_cons, not_or] at h
    exact .cons (Ne.symm h.1) (ih h.2)

theorem Paired.append {a b : List Char} (ha : Paired windows a) (hb : Paired windows b) :
    Paired windows (a ++ b) := by
  induction ha with
  | nil => exact hb
  | pair hd _ ih => exact .pair hd ih
  | cons hc _ ih => exact .cons hc ih

theorem paired_pair_iff {d : Char} :
    Paired windows ('\\' :: d :: text) ↔ escapes windows (some d) = true ∧ Paired windows text := by
  refine ⟨fun h => ?_, fun ⟨hd, h⟩ => .pair hd h⟩
  cases h with
  | pair hd h => exact ⟨hd, h⟩
  | cons hc => exact absurd rfl hc

theorem paired_cons_iff {c : Char} (hc : c ≠ '\\') :
    Paired windows (c :: text) ↔ Paired windows text := by
  refine ⟨fun h => ?_, .cons hc⟩
  cases h with
  | pair => exact absurd rfl hc
  | cons _ h => exact h

theorem not_paired_backslash : ¬Paired windows ['\\'] := by
  intro h
  cases h with
  | cons hc => exact absurd rfl hc

/-- A text is cut where no backslash is torn from the character after it. -/
theorem Paired.cut {a b : List Char} (h : Paired windows (a ++ b)) (ha : Paired false a) :
    Paired windows a ∧ Paired windows b := by
  induction ha with
  | nil => exact ⟨.nil, h⟩
  | pair _ _ ih =>
    obtain ⟨hd, h⟩ := paired_pair_iff.mp h
    exact (ih h).imp_left (.pair hd)
  | cons hc _ ih => exact (ih ((paired_cons_iff hc).mp h)).imp_left (.cons hc)

/-- A character that is not followed by one, and not by none, is no backslash. -/
theorem ne_backslash {c : Char} {rest : List Char} (hlast : c = '\\' → rest = [] → False)
    (hhides : ∀ d more, c = '\\' → rest = d :: more → False) : c ≠ '\\' := by
  rintro rfl
  cases rest with
  | nil => exact hlast rfl rfl
  | cons d more => exact hhides d more rfl rfl

/-! ### Closing delimiters -/

/-- What is cut off and what is left make up the text, and no backslash is torn from the character
that it hides. -/
def Closed.Cuts (closed : Closed) (text : List Char) : Prop :=
  ∀ cut, closed = some cut → text = cut.1 ++ cut.2 ∧ Paired false cut.1

theorem Closed.Cuts.onto {closed : Closed} (h : closed.Cuts text) {chars : List Char}
    (hchars : Paired false chars) : (closed.onto chars).Cuts (chars ++ text) := by
  intro cut hcut
  obtain ⟨⟨inside, rest⟩, hclosed, rfl⟩ := Option.map_eq_some_iff.mp hcut
  obtain ⟨htext, hinside⟩ := h _ hclosed
  exact ⟨by rw [htext, List.append_assoc], hchars.append hinside⟩

/-- A backslash and the character that it hides. -/
theorem Closed.Cuts.onto_pair {closed : Closed} (h : closed.Cuts text) (d : Char) :
    (closed.onto ['\\', d]).Cuts ('\\' :: d :: text) :=
  h.onto (.pair rfl .nil)

theorem Closed.Cuts.onto_cons {closed : Closed} (h : closed.Cuts text) {c : Char} (hc : c ≠ '\\') :
    (closed.onto [c]).Cuts (c :: text) :=
  h.onto (.cons hc .nil)

/-- The delimiter itself. -/
theorem cuts_singleton {c : Char} (hc : c ≠ '\\') (text : List Char) :
    Closed.Cuts (some ([c], text)) (c :: text) := by
  rintro cut ⟨⟩
  exact ⟨rfl, .cons hc .nil⟩

theorem cuts_none (text : List Char) : Closed.Cuts none text := nofun

theorem cuts_closeNested (opening closing : Char) (depth : Nat) (text : List Char) :
    (closeNested opening closing depth text).Cuts text := by
  fun_induction closeNested opening closing depth text with
  | case1 | case2 => exact cuts_none _
  | case3 _ d _ ih => exact ih.onto_pair d
  | case4 _ _ hlast hhides ih | case6 _ _ _ hlast hhides _ ih | case7 _ _ _ hlast hhides _ _ ih =>
    exact ih.onto_cons (ne_backslash hlast hhides)
  | case5 _ rest _ hlast hhides => exact cuts_singleton (ne_backslash hlast hhides) rest

theorem cuts_closeClassBody (text : List Char) : (closeClassBody text).Cuts text := by
  fun_induction closeClassBody text with
  | case1 | case2 => exact cuts_none _
  | case3 d _ ih => exact ih.onto_pair d
  | case4 rest => exact cuts_singleton (by decide) rest
  | case5 _ _ hlast hhides _ ih => exact ih.onto_cons (ne_backslash hlast hhides)

/-- The sign and the bracket that a class may begin with are no backslashes. -/
theorem exists_closeClass_eq (text : List Char) :
    ∃ lead rest, text = lead ++ rest ∧ '\\' ∉ lead ∧
      closeClass text = Closed.onto lead (closeClassBody rest) := by
  unfold closeClass
  split
  rename_i sign afterSign hsign
  obtain ⟨rfl, hmem⟩ : text = sign ++ afterSign ∧ '\\' ∉ sign := by
    split at hsign <;> cases hsign <;> exact ⟨rfl, by decide⟩
  dsimp only
  split
  case h_1 rest => exact ⟨sign ++ [']'], rest, by simp, by simp [hmem], rfl⟩
  case h_2 => exact ⟨sign, afterSign, rfl, hmem, by simp⟩

theorem cuts_closeClass (text : List Char) : (closeClass text).Cuts text := by
  obtain ⟨lead, rest, rfl, hlead, hclose⟩ := exists_closeClass_eq text
  rw [hclose]
  exact (cuts_closeClassBody rest).onto (paired_of_not_mem hlead)

/-- What is cut off, or everything if nothing closes. -/
def Closed.inside (closed : Closed) (text : List Char) : List Char :=
  match closed with
  | some (inside, _) => inside
  | none => text

end PathGlob.Scan
