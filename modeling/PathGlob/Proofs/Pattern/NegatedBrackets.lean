import PathGlob.Proofs.Pattern.Classes
import PathGlob.Proofs.Regex.Barred

/-!
# `PathGlob.Proofs.Pattern.NegatedBrackets`: negated bracket expressions with any body

Behind the mark of a negated bracket expression stands a text that does not close it. The tokenizer
reads it as a list of characters (`bodyChars?`), each of which becomes one lexeme of a class. At the
end it adds the separator, unless the class body has one already. So the separator stands unescaped
in every class that comes of a negated bracket expression, and the class bars it
(`NegatedBracket.bars_source`).

There are two gaps. Where POSIX classes are known, a colon behind an opening bracket keeps the
separator from being added, even if it ends no class name. And a doubled dash takes the separator
out of the set of the class again.
-/

set_option autoImplicit false

namespace PathGlob.Pattern

open Regex

/-! ### The body -/

/-- A character of the body of a bracket expression. -/
inductive BodyChar where
  | char (c : Char)
  /-- A dash that is not the last character of the body. -/
  | dash
  /-- A character behind a backslash. -/
  | escaped (c : Char)
  deriving DecidableEq

/-- The body of a bracket expression as it is read. Null characters are passed over, and a backslash
takes the next character with it. -/
def bodyChars? : List Char → Option (List BodyChar)
  | [] => some []
  | '\x00' :: rest => bodyChars? rest
  | ['\\'] => none
  | '\\' :: c :: rest => (bodyChars? rest).map (.escaped c :: ·)
  | c :: rest =>
    (bodyChars? rest).map ((if c = '-' && !rest.isEmpty then .dash else .char c) :: ·)

/-- A closing bracket or a colon stands for itself, also behind a dash. -/
theorem mem_of_head?_eq {c : Char} (hc : c = ']' ∨ c = ':') {rest : List Char}
    {chars : List BodyChar} (h : bodyChars? rest = some chars) (hhead : rest.head? = some c) :
    .char c ∈ chars := by
  obtain ⟨others, rfl⟩ := List.head?_eq_some_iff.mp hhead
  have hcons : bodyChars? (c :: others) = (bodyChars? others).map (.char c :: ·) := by
    obtain rfl | rfl := hc <;> simp [bodyChars?]
  rw [hcons] at h
  obtain ⟨_, -, rfl⟩ := Option.map_eq_some_iff.mp h
  exact List.mem_cons_self

namespace BodyChar

/-- The character without the backslash. -/
def value : BodyChar → Char
  | .char c | .escaped c => c
  | .dash => '-'

/-- What the character adds to the body of the class. -/
def source (unescape : Bool) : BodyChar → List Char
  | .char c => escapeClassChar c
  | .dash => ['-']
  | .escaped c =>
    if !unescape && (isClassMeta c || isClassEscapeLetter c) then ['\\', c] else escapeClassChar c

/-- What that is in the class. -/
def lexeme (unescape : Bool) : BodyChar → Lexeme
  | .char c => if isClassMeta c then .literal c else .plain c
  | .dash => .plain '-'
  | .escaped c =>
    if isClassMeta c then .literal c
    else if !unescape && isClassEscapeLetter c then .ofEscape c
    else .plain c

variable {unescape : Bool}

theorem spells_of_isClassMeta {c : Char} (h : isClassMeta c = true) :
    Spells ['\\', c] (.literal c) := by
  have hpunctuation : ['\\', '[', ']', '^', '-', '&', '~'].all (fun c =>
      Lexeme.ofEscape c = .literal c ∧ c ≠ 'x' ∧ ¬('1' ≤ c ∧ c ≤ '9')) = true := by decide
  have hmem : c ∈ ['\\', '[', ']', '^', '-', '&', '~'] := by
    simpa [isClassMeta] using h
  obtain ⟨heq, hx, hdigit⟩ := of_decide_eq_true (List.all_eq_true.mp hpunctuation c hmem)
  rw [← heq]
  exact spells_escaped hx hdigit

/-- A letter that keeps its backslash stands for a class or a control character. -/
theorem escapeLetter_cases {c : Char} (h : isClassEscapeLetter c = true) :
    Spells ['\\', c] (.ofEscape c) ∧ ((∃ d, Lexeme.ofEscape c = .literal d) ∨
      ∃ kind negated, Lexeme.ofEscape c = .shorthand kind negated) := by
  have hmem : c ∈ ['d', 'D', 'w', 'W', 's', 'S', 'n', 'r', 't', 'f'] := by
    simpa [isClassEscapeLetter] using h
  have hletters : ['d', 'D', 'w', 'W', 's', 'S', 'n', 'r', 't', 'f'].all (fun c =>
      c ≠ 'x' ∧ ¬('1' ≤ c ∧ c ≤ '9')) = true := by decide
  obtain ⟨hx, hdigit⟩ := of_decide_eq_true (List.all_eq_true.mp hletters c hmem)
  refine ⟨spells_escaped hx hdigit, ?_⟩
  simp only [List.mem_cons, List.not_mem_nil, or_false] at hmem
  obtain rfl | rfl | rfl | rfl | rfl | rfl | hcontrol := hmem
  iterate 6 exact .inr ⟨_, _, rfl⟩
  obtain rfl | rfl | rfl | rfl := hcontrol
  all_goals exact .inl ⟨_, rfl⟩

theorem spells_escapeClassChar (c : Char) :
    Spells (escapeClassChar c) (if isClassMeta c then .literal c else .plain c) := by
  unfold escapeClassChar
  cases h : isClassMeta c with
  | true => exact spells_of_isClassMeta h
  | false => exact spells_plain (ne_of_isClassMeta h).1

theorem spells_source (item : BodyChar) : Spells (item.source unescape) (item.lexeme unescape) := by
  cases item with
  | char c => exact spells_escapeClassChar c
  | dash => exact spells_plain (by decide)
  | escaped c =>
    rw [source, lexeme]
    cases hmeta : isClassMeta c with
    | true => simpa [escapeClassChar, hmeta] using spells_of_isClassMeta hmeta
    | false =>
      rw [Bool.false_or]
      cases hkeeps : !unescape && isClassEscapeLetter c with
      | true => exact (escapeLetter_cases (Bool.and_eq_true_iff.mp hkeeps).2).1
      | false =>
        have hspells := spells_escapeClassChar c
        rwa [hmeta] at hspells

/-- A character is a member of the class, and it doubles a dash only if it is a dash that is neither
escaped nor last. -/
theorem lexeme_cases (item : BodyChar) :
    (item.lexeme unescape).IsMember ∧ (item.lexeme unescape = .plain '-' ↔ item = .dash) := by
  have hchar (c : Char) : (if isClassMeta c then Lexeme.literal c else .plain c).IsMember ∧
      (if isClassMeta c then Lexeme.literal c else .plain c) ≠ .plain '-' := by
    cases hmeta : isClassMeta c with
    | true => exact ⟨trivial, by simp⟩
    | false =>
      have hdash : c ≠ '-' := (ne_of_isClassMeta hmeta).2.2.2.2
      exact ⟨.inr hmeta, fun heq => hdash (Lexeme.plain.inj heq)⟩
  have hother {lexeme : Lexeme} (h : lexeme.IsMember ∧ lexeme ≠ .plain '-') (hne : item ≠ .dash) :
      lexeme.IsMember ∧ (lexeme = .plain '-' ↔ item = .dash) :=
    ⟨h.1, iff_of_false h.2 hne⟩
  cases item with
  | char c => exact hother (hchar c) (by simp)
  | dash => exact ⟨.inl rfl, iff_of_true rfl rfl⟩
  | escaped c =>
    refine hother ?_ (by simp)
    rw [lexeme]
    cases hkeeps : !unescape && isClassEscapeLetter c with
    | false => exact hchar c
    | true =>
      have hletter := (escapeLetter_cases (Bool.and_eq_true_iff.mp hkeeps).2).2
      cases isClassMeta c with
      | true => exact ⟨trivial, by simp⟩
      | false =>
        obtain ⟨d, heq⟩ | ⟨kind, negated, heq⟩ := hletter
        · simp [heq, Lexeme.IsMember]
        · simp [heq, Lexeme.IsMember]

/-- The source is the character, perhaps behind a backslash. -/
theorem source_cases (item : BodyChar) :
    item.source unescape = [item.value] ∨ item.source unescape = ['\\', item.value] := by
  have hchar (c : Char) : escapeClassChar c = [c] ∨ escapeClassChar c = ['\\', c] := by
    unfold escapeClassChar
    split
    · exact .inr rfl
    · exact .inl rfl
  cases item with
  | char c => exact hchar c
  | dash => exact .inl rfl
  | escaped c =>
    rw [source]
    split
    · exact .inr rfl
    · exact hchar c

theorem source_ne_nil (item : BodyChar) : item.source unescape ≠ [] := by
  obtain heq | heq := @source_cases unescape item <;> simp [heq]

theorem mem_source_iff {item : BodyChar} {c : Char} (hc : c ≠ '\\') :
    c ∈ item.source unescape ↔ c = item.value := by
  obtain heq | heq := @source_cases unescape item <;> simp [heq, hc]

theorem mem_flatMap_source_iff {chars : List BodyChar} {c : Char} (hc : c ≠ '\\') :
    c ∈ chars.flatMap (source unescape) ↔ ∃ item ∈ chars, c = item.value := by
  rw [List.mem_flatMap]
  exact exists_congr fun item => and_congr_right' (mem_source_iff hc)

/-- A separator is never escaped in a class. -/
theorem lexeme_of_value_eq {item : BodyChar} (h : '/' = item.value) :
    item.lexeme unescape = .plain '/' := by
  cases item with
  | char c =>
    obtain rfl : '/' = c := h
    rfl
  | dash => exact absurd h (by decide)
  | escaped c =>
    obtain rfl : '/' = c := h
    cases unescape <;> rfl

end BodyChar

/-- A bracket expression with a mark that negates it, which its last character closes. -/
structure NegatedBracket where
  mark : Char
  body : List Char
  chars : List BodyChar
  hmark : mark = '!' ∨ mark = '^'
  hchars : bodyChars? body = some chars
  hne : chars ≠ []
  /-- Directly behind the mark a closing bracket is a member. -/
  hcloses : .char ']' ∉ chars.tail

namespace NegatedBracket

variable (bracket : NegatedBracket) {unescape : Bool}

/-- The expression as it is written. -/
def text : List Char := '[' :: bracket.mark :: bracket.body ++ [']']

/-- No dash follows a dash, except at the beginning. -/
def DashesApart : Prop :=
  (bracket.chars.dropWhile (· = .dash)).IsChain fun first second => first = .dash → second ≠ .dash

/-- No colon stands behind an opening bracket, so there is no class name. -/
def IsNameless : Prop :=
  bracket.chars.Pairwise fun first second => first.value = '[' → second ≠ .char ':'

instance : Decidable bracket.DashesApart := inferInstanceAs (Decidable (List.IsChain _ _))

instance : Decidable bracket.IsNameless := inferInstanceAs (Decidable (List.Pairwise _ _))

/-- What the class lists. The separator is added unless it is there already. -/
def members (unescape : Bool) : List BodyChar :=
  bracket.chars ++
    if '/' ∈ bracket.chars.flatMap (BodyChar.source unescape) then [] else [.char '/']

/-- The class that the expression is translated into. -/
def source (unescape : Bool) : List Char :=
  '[' :: '^' :: (bracket.members unescape).flatMap (BodyChar.source unescape) ++ [']']

/-- The class body, with the separator that is added. -/
theorem flatMap_members : (bracket.members unescape).flatMap (BodyChar.source unescape) =
    bracket.chars.flatMap (BodyChar.source unescape) ++
      if '/' ∈ bracket.chars.flatMap (BodyChar.source unescape) then [] else ['/'] := by
  rw [members, List.flatMap_append]
  split <;> rfl

theorem mem_members : ∃ item ∈ bracket.members unescape, '/' = item.value := by
  unfold members
  split
  case isTrue hmem =>
    rw [List.append_nil]
    exact (BodyChar.mem_flatMap_source_iff (by decide)).mp hmem
  case isFalse => exact ⟨.char '/', by simp, rfl⟩

/-- The class of a negated bracket expression bars the separator. -/
theorem bars_source (h : bracket.DashesApart) : Bars '/' (bracket.source unescape) := by
  have hdash : ((fun lexeme : Lexeme => decide (lexeme = .plain '-')) ∘
      BodyChar.lexeme unescape) = fun item : BodyChar => decide (item = .dash) := by
    funext item
    exact decide_eq_decide.mpr item.lexeme_cases.2
  -- The separator that is added doubles no dash.
  have hapart : ((bracket.members unescape).dropWhile (· = .dash)).IsChain
      fun first second => first = .dash → second ≠ .dash := by
    unfold members
    split
    case isTrue => rwa [List.append_nil]
    case isFalse =>
      rw [List.dropWhile_append]
      split
      case isTrue => exact .singleton _
      case isFalse =>
        refine h.append (.singleton _) fun first _ second hsecond _ => ?_
        obtain rfl : BodyChar.char '/' = second := Option.some.inj hsecond
        simp
  refine bars_of_mem (fun item _ => item.spells_source) (fun item _ => item.lexeme_cases.1) ?_
    (by decide +kernel) (by decide) ?_
  · rw [List.dropWhile_map, hdash, List.isChain_map]
    refine hapart.imp fun first second hne hfirst hsecond => ?_
    exact hne (first.lexeme_cases.2.mp hfirst) (second.lexeme_cases.2.mp hsecond)
  · obtain ⟨item, hmem, hvalue⟩ := @mem_members bracket unescape
    exact List.mem_map.mpr ⟨item, hmem, BodyChar.lexeme_of_value_eq hvalue⟩

end NegatedBracket

/-! ### Reading the body -/

/-- Behind the given part of a class body, the characters go on with it: they do not close the class
and end no class name. -/
structure BodyChar.Continues (posix : Bool) (done : List Char) (chars : List BodyChar) : Prop where
  first : .char ']' ∈ chars → done = []
  closes : .char ']' ∉ chars.tail
  before : posix = true → '[' ∈ done → .char ':' ∉ chars
  nameless : posix = true →
    chars.Pairwise fun first second => first.value = '[' → second ≠ .char ':'

theorem BodyChar.Continues.tail {posix unescape : Bool} {done : List Char} {item : BodyChar}
    {chars : List BodyChar} (h : Continues posix done (item :: chars)) :
    Continues posix (done ++ item.source unescape) chars := by
  have hcloses : .char ']' ∉ chars := h.closes
  refine ⟨fun hmem => absurd hmem hcloses, fun hmem => hcloses (List.mem_of_mem_tail hmem),
    fun hposix hopen => ?_, fun hposix => (List.pairwise_cons.mp (h.nameless hposix)).2⟩
  obtain hopen | hopen := List.mem_append.mp hopen
  · exact fun hmem => h.before hposix hopen (List.mem_cons_of_mem item hmem)
  · intro hmem
    have hvalue := (mem_source_iff (by decide)).mp hopen
    exact (List.pairwise_cons.mp (h.nameless hposix)).1 _ hmem hvalue.symm rfl

namespace Tokenizer

variable {ctx : Context} {tail : List Char → Except Error (List Char)} {t : Tokenizer}
  {done rest : List Char} {position : Nat} {output : List Char} {c : Char}

/-- Behind the caret a character adds itself to the class, behind a backslash where it would have a
meaning. A dash keeps its meaning unless it is the last character. -/
theorem classChar_inBody (hname : c = '[' → ctx.options.posix = true → rest.head? ≠ some ':') :
    (t.inBody ('[' :: '^' :: done) rest position output).classChar ctx c =
      if c = '-' ∧ rest.head? ≠ some ']' then ['-'] else escapeClassChar c := by
  let s := t.inBody ('[' :: '^' :: done) rest position output
  have hlast : s.last.value ≠ ['['] := by
    rw [show s.last = _ from last_inBody ..]
    simp [bracketToken]
  have hahead : s.ahead 0 = rest.head? := List.head?_eq_getElem?.symm
  show s.classChar ctx c = _
  rw [classChar, hahead, decide_eq_false hlast]
  by_cases hopen : c = '['
  · have hraw : ¬(ctx.options.posix = true ∧ rest.head? = some ':') := fun hraw =>
      hname hopen hraw.1 hraw.2
    simp [hopen, hraw, escapeClassChar, isClassMeta]
  · by_cases hdash : c = '-'
    · by_cases hnext : rest.head? = some ']'
      · simp [hdash, hnext, escapeClassChar, isClassMeta]
      · simp [hdash, hnext]
    · by_cases hclose : c = ']'
      · simp [hclose, escapeClassChar, isClassMeta]
      · simp [hopen, hdash, hclose]

/-- Behind the caret a closing bracket is a member only if it comes first, and a colon ends no class
name unless an opening bracket stands before it. -/
theorem step_inBody (hnull : c ≠ '\x00') (hbackslash : c ≠ '\\') (hclose : c = ']' → done = [])
    (hname : ctx.options.posix = true →
      ('[' ∈ done → c ≠ ':') ∧ (c = '[' → rest.head? ≠ some ':')) :
    step ctx tail (t.inBody ('[' :: '^' :: done) rest position output) c =
      .ok ((t.inBody ('[' :: '^' :: done) rest position output).appendClass
        (if c = '-' ∧ rest.head? ≠ some ']' then ['-'] else escapeClassChar c)) := by
  let s := t.inBody ('[' :: '^' :: done) rest position output
  have hvalue : s.last.value = '[' :: '^' :: done := by
    rw [show s.last = _ from last_inBody ..]
    rfl
  have hinside : (s.inClass && (decide (c ≠ ']') || decide (s.last.value = ['[']) ||
      decide (s.last.value = ['[', '^']))) = true := by
    by_cases hbracket : c = ']'
    · rw [hvalue, hclose hbracket]
      simp [s, inBody]
    · simp [s, inBody, hbracket]
  have hclass : s.classChar ctx c = _ := classChar_inBody fun hopen hposix => (hname hposix).2 hopen
  have hin : s.inBracket ctx c = s.appendClass (s.classChar ctx c) := by
    unfold inBracket
    split
    case isFalse => rfl
    case isTrue hcolon =>
      obtain ⟨rfl, hposix⟩ : c = ':' ∧ ctx.options.posix = true := by simpa using hcolon
      have hnone : ('^' :: done).contains '[' = false := by
        simpa using fun hmem => (hname hposix).1 hmem rfl
      have hposixName : s.posixName = (s, false) := by
        rw [posixName, hvalue, List.drop_one, List.tail_cons, hnone]
        rfl
      rw [hposixName]
      rfl
  show step ctx tail s c = _
  unfold step
  rw [if_neg hnull, if_neg hbackslash, if_pos hinside, hin, hclass]

/-- A backslash takes the next character with it. Before a few of them it has no effect, and these
have no meaning in a class anyway. -/
theorem leads_escaped (c : Char) :
    ∃ position', Leads ctx tail
      (t.inBody ('[' :: '^' :: done) ('\\' :: c :: rest) position output)
      (t.inBody ('[' :: '^' :: (done ++ (BodyChar.escaped c).source ctx.options.unescape)) rest
        position' (output ++ (BodyChar.escaped c).source ctx.options.unescape)) := by
  let s := t.inBody ('[' :: '^' :: done) (c :: rest) (position + 1) output
  have hstep : step ctx tail s '\\' = .ok (s.escape ctx) := by simp [step]
  have hescape : s.escape ctx = if (c = '/' && !ctx.options.bash) || c = '.' || c = ';' then s
      else (s.skip 1).appendClass ((BodyChar.escaped c).source ctx.options.unescape) := rfl
  by_cases hdropped : (c = '/' && !ctx.options.bash) || c = '.' || c = ';'
  case pos =>
    have hplain : c = '/' ∨ c = '.' ∨ c = ';' := by
      simp only [Bool.or_eq_true, Bool.and_eq_true, decide_eq_true_iff, or_assoc] at hdropped
      exact hdropped.imp_left And.left
    have hsource : (BodyChar.escaped c).source ctx.options.unescape =
        if c = '-' ∧ rest.head? ≠ some ']' then ['-'] else escapeClassChar c := by
      obtain rfl | rfl | rfl := hplain <;> simp [BodyChar.source, isClassMeta, isClassEscapeLetter]
    have hchar : step ctx tail (t.inBody ('[' :: '^' :: done) rest (position + 2) output) c = _ :=
      step_inBody (by obtain rfl | rfl | rfl := hplain <;> decide)
        (by obtain rfl | rfl | rfl := hplain <;> decide)
        (by obtain rfl | rfl | rfl := hplain <;> simp)
        (fun _ => by obtain rfl | rfl | rfl := hplain <;> simp)
    rw [appendClass_inBody, ← hsource] at hchar
    rw [hescape, if_pos hdropped] at hstep
    exact ⟨position + 2, (leads_of_step_inBody ctx tail hstep rfl).trans
      (leads_of_step_inBody ctx tail hchar rfl)⟩
  case neg =>
    rw [hescape, if_neg hdropped] at hstep
    have hskip : s.skip 1 = t.inBody ('[' :: '^' :: done) rest (position + 2) output := rfl
    rw [hskip, appendClass_inBody] at hstep
    exact ⟨position + 2, .of_step rfl hstep (Nat.le_succ _)⟩

/-- A body that does not close the class is read into it. -/
theorem leads_bodyChars {text : List Char} {chars : List BodyChar}
    (hchars : bodyChars? text = some chars) (h : BodyChar.Continues ctx.options.posix done chars)
    (more : List Char) :
    ∃ position', Leads ctx tail
      (t.inBody ('[' :: '^' :: done) (text ++ ']' :: more) position output)
      (t.inBody ('[' :: '^' :: (done ++ chars.flatMap (BodyChar.source ctx.options.unescape)))
        (']' :: more) position'
        (output ++ chars.flatMap (BodyChar.source ctx.options.unescape))) := by
  fun_induction bodyChars? text generalizing chars done position output with
  | case1 =>
    obtain rfl : [] = chars := Option.some.inj hchars
    simpa using ⟨position, .refl _⟩
  | case2 rest ih =>
    have hstep : step ctx tail (t.inBody ('[' :: '^' :: done) (rest ++ ']' :: more) (position + 1)
        output) '\x00' = .ok _ := rfl
    obtain ⟨position', hleads⟩ := ih hchars h
    exact ⟨position', (leads_of_step_inBody ctx tail hstep rfl).trans hleads⟩
  | case3 => exact absurd hchars (by simp)
  | case4 c rest ih =>
    obtain ⟨others, hothers, rfl⟩ := Option.map_eq_some_iff.mp hchars
    let source := (BodyChar.escaped c).source ctx.options.unescape
    obtain ⟨position₁, hescaped⟩ := @leads_escaped ctx tail t done (rest ++ ']' :: more) position
      output c
    obtain ⟨position₂, hleads⟩ := @ih (done ++ source) position₁ (output ++ source) others hothers
      h.tail
    rw [List.append_assoc, List.append_assoc, ← List.flatMap_cons] at hleads
    exact ⟨position₂, hescaped.trans hleads⟩
  | case5 c rest hnull hend hbackslash ih =>
    obtain ⟨others, hothers, rfl⟩ := Option.map_eq_some_iff.mp hchars
    let item : BodyChar := if c = '-' && !rest.isEmpty then .dash else .char c
    let source := item.source ctx.options.unescape
    have hitem (hdash : c ≠ '-') : item = .char c := by simp [item, hdash]
    have hhead (d : Char) (hd : (rest ++ ']' :: more).head? = some d) :
        rest.head? = some d ∨ rest = [] ∧ d = ']' := by
      cases rest with
      | nil => exact .inr ⟨rfl, (Option.some.inj hd).symm⟩
      | cons => exact .inl hd
    let begun := t.inBody ('[' :: '^' :: done) (rest ++ ']' :: more) (position + 1) output
    have hstep : step ctx tail begun c = .ok (begun.appendClass
        (if c = '-' ∧ (rest ++ ']' :: more).head? ≠ some ']' then ['-']
          else escapeClassChar c)) := by
      refine step_inBody hnull ?_ ?_ fun hposix => ⟨?_, ?_⟩
      · rintro rfl
        cases rest with
        | nil => exact hend rfl rfl
        | cons d rest => exact hbackslash d rest rfl rfl
      · rintro rfl
        exact h.first (List.mem_cons.mpr (.inl (hitem (by decide)).symm))
      · rintro hopen rfl
        exact h.before hposix hopen (List.mem_cons.mpr (.inl (hitem (by decide)).symm))
      · rintro rfl hcolon
        have hmem : .char ':' ∈ others := mem_of_head?_eq (.inr rfl) hothers
          ((hhead ':' hcolon).resolve_right fun hnil => absurd hnil.2 (by decide))
        exact (List.pairwise_cons.mp (h.nameless hposix)).1 _ hmem
          (congrArg BodyChar.value (hitem (by decide))) rfl
    have hsource : (if c = '-' ∧ (rest ++ ']' :: more).head? ≠ some ']' then ['-']
        else escapeClassChar c) = source := by
      by_cases hdash : c = '-'
      · -- A dash is followed by the closing bracket only if it is the last character.
        have hlast : (rest ++ ']' :: more).head? = some ']' ↔ rest = [] := by
          refine ⟨fun hclose => ?_, fun hnil => by rw [hnil]; rfl⟩
          obtain hfirst | ⟨hnil, -⟩ := hhead ']' hclose
          · exact absurd (mem_of_head?_eq (.inl rfl) hothers hfirst) h.closes
          · exact hnil
        by_cases hnil : rest = []
        · simp [source, item, BodyChar.source, hdash, hnil]
        · rw [if_pos ⟨hdash, mt hlast.mp hnil⟩]
          simp [source, item, BodyChar.source, hdash, hnil]
      · rw [if_neg fun hand => hdash hand.1]
        simp only [source, hitem hdash, BodyChar.source]
    rw [hsource, appendClass_inBody] at hstep
    obtain ⟨position₂, hleads⟩ := @ih (done ++ source) (position + 1) (output ++ source) others
      hothers h.tail
    rw [List.append_assoc, List.append_assoc, ← List.flatMap_cons] at hleads
    exact ⟨position₂, (leads_of_step_inBody ctx tail hstep rfl).trans hleads⟩

/-! ### From the opening bracket to the closing one -/

/-- Nothing is open behind a token of the given kind, which may be a bracket. -/
structure Behind (t : Tokenizer) (kind : TokenKind) : Prop extends Idle t where
  tokens : t.tokens ≠ []
  last : t.last.kind = kind
  not_globstar : kind ≠ .globstar

theorem behind_bos (rest : List Char) : ({ rest } : Tokenizer).Behind .bos :=
  ⟨⟨rfl, rfl, rfl, rfl, rfl⟩, by simp, rfl, by simp⟩

section
variable {kind : TokenKind} {more : List Char}

theorem Behind.last_ne_globstar (h : t.Behind kind) : t.last.kind ≠ .globstar := by
  rw [h.last]
  exact h.not_globstar

/-- Behind text the pattern may end. -/
theorem Behind.inert (h : t.Behind .text) : t.Inert :=
  ⟨h.frames, h.inClass, h.start, h.tokens, by simp [h.last], by simp [h.last]⟩

variable (ctx tail)

theorem Behind.leads_plainChar (h : t.Behind kind) (hrest : t.rest = c :: more)
    (hc : isSpecial c = false) :
    ∃ t', Leads ctx tail t t' ∧ t.Grows [c] more t' ∧ t'.Behind .text := by
  have hpush : (t.reading more).pushText ctx [c] [c] = { t.reading more with
      output := t.output ++ [c]
      tokens := (t.reading more).pushed (.text [c] [c]) } := by
    rw [Tokenizer.pushText, push_eq ctx (t := t.reading more)
      (not_inExtglob_of_frames_eq h.frames) fun hlast => absurd hlast h.last_ne_globstar]
    rfl
  refine ⟨_, leads_plain ctx tail h.inClass h.quoted h.tokens h.last_ne_globstar hrest hc,
    ⟨t.position + 1, _, hpush⟩, ?_⟩
  have hkind := kind_last_push (t := t.reading more) h.tokens ctx (.text [c] [c])
  rw [← Tokenizer.pushText, hpush] at hkind
  rw [hpush]
  refine ⟨⟨h.frames, h.inClass, h.quoted, h.start, h.optionalGroup⟩, ?_, hkind, by simp⟩
  obtain ⟨before, htokens⟩ := exists_tokens_eq h.tokens
  show (t.reading more).pushed _ ≠ []
  rw [pushed_eq (t := t.reading more) htokens]
  split <;> simp

/-- A word of plain characters stands for itself. -/
theorem Behind.leads_word {word : List Char} (hword : ∀ c ∈ word, isSpecial c = false)
    (hne : word ≠ []) (h : t.Behind kind) (hrest : t.rest = word ++ more) :
    ∃ t', Leads ctx tail t t' ∧ t.Grows word more t' ∧ t'.Behind .text := by
  induction word generalizing t kind with
  | nil => exact absurd rfl hne
  | cons c word ih =>
    obtain ⟨hc, hothers⟩ := List.forall_mem_cons.mp hword
    obtain ⟨t₁, hleads, hgrows, h₁⟩ := h.leads_plainChar ctx tail hrest hc
    cases word with
    | nil => exact ⟨t₁, hleads, hgrows, h₁⟩
    | cons d word =>
      obtain ⟨t₂, hleads', hgrows', h₂⟩ := ih hothers (by simp) h₁ hgrows.rest_eq
      exact ⟨t₂, hleads.trans hleads', hgrows.trans hgrows', h₂⟩

/-- The opening bracket and the mark begin a negated class. -/
theorem Behind.leads_mark (hnoBracket : ctx.options.noBracket = false) (h : t.Behind kind)
    {mark : Char} (hmark : mark = '!' ∨ mark = '^') (hrest : t.rest = '[' :: mark :: more)
    (hmore : ']' ∈ more) :
    Leads ctx tail t (t.inBody ['[', '^'] more (t.position + 2) (t.output ++ ['[', '^'])) := by
  have hbegin := leads_beginClass ctx tail hnoBracket h.inClass h.quoted
    (not_inExtglob_of_frames_eq h.frames) h.last_ne_globstar hrest (List.mem_cons_of_mem mark hmore)
  have hcaret := step_mark (t := t) ctx tail hmark more (t.position + 2) (t.output ++ ['['])
  rw [List.append_assoc] at hcaret
  exact hbegin.trans (leads_of_step_inBody ctx tail hcaret rfl)

variable {tail}

/-- The closing bracket adds the separator unless it is in the class body, and leaves the class as
it is. -/
theorem Behind.closeBracket_negated (hwindows : ctx.windows = false)
    (hnoBracket : ctx.options.noBracket = false) (h : t.Behind kind)
    (hbegins : kind.beginsSegment = false) (body : List Char) :
    let closing := (if '/' ∈ body then [] else ['/']) ++ [']']
    (t.inBody ('[' :: '^' :: body) more position output).closeBracket ctx =
      .ok (t.pastBracket ('[' :: '^' :: body ++ closing) more position (output ++ closing)) := by
  intro closing
  have hclosing : classClosing ('^' :: body) = closing := by
    by_cases hmem : '/' ∈ body <;> simp [classClosing, closing, hmem]
  let s := t.pastBracket ('[' :: '^' :: body ++ closing) more position (output ++ closing)
  -- The class is not at the start of a segment, and the caret keeps it from being taken literally.
  have hfinish : s.finishBracket ctx ('^' :: body) false = s := by
    have hprevious : s.tokens[t.lastPlace]? = some t.last := getElem?_pastBracket h.tokens ..
    have hmeta : hasMeta ('^' :: body) = true := by simp [hasMeta, isMeta]
    have hbracket : s.last = t.bracketToken ('[' :: '^' :: body ++ closing) := last_of_tokens_eq rfl
    unfold finishBracket
    simp [hbracket, bracketToken, hprevious, h.last, hbegins, hmeta]
  rw [closeBracket_eq ctx hwindows hnoBracket, hclosing]
  exact congrArg Except.ok hfinish

variable (tail)

/-- A negated bracket expression behind a word becomes its class. -/
theorem Behind.leads_negatedBracket (hwindows : ctx.windows = false)
    (hnoBracket : ctx.options.noBracket = false) (bracket : NegatedBracket)
    (hnameless : ctx.options.posix = true → bracket.IsNameless) (h : t.Behind kind)
    (hbegins : kind.beginsSegment = false) (hrest : t.rest = bracket.text ++ more) :
    ∃ t', Leads ctx tail t t' ∧ t.Grows (bracket.source ctx.options.unescape) more t' ∧
      t'.Behind .bracket := by
  let body := bracket.chars.flatMap (BodyChar.source ctx.options.unescape)
  let closing := (if '/' ∈ body then [] else ['/']) ++ [']']
  have hsource : bracket.source ctx.options.unescape = '[' :: '^' :: body ++ closing := by
    rw [NegatedBracket.source, NegatedBracket.flatMap_members]
    simp [body, closing]
  have hopening : t.rest = '[' :: bracket.mark :: (bracket.body ++ ']' :: more) := by
    rw [hrest, NegatedBracket.text]
    simp
  have hmark := h.leads_mark ctx tail hnoBracket bracket.hmark hopening (by simp)
  obtain ⟨position, hbody⟩ := @leads_bodyChars ctx tail t [] (t.position + 2)
    (t.output ++ ['[', '^']) bracket.body bracket.chars bracket.hchars
    ⟨fun _ => rfl, bracket.hcloses, fun _ hmem => absurd hmem List.not_mem_nil, hnameless⟩ more
  rw [List.nil_append] at hbody
  have hne : body ≠ [] := by
    obtain ⟨item, others, hchars⟩ := List.exists_cons_of_ne_nil bracket.hne
    simp only [body, hchars, List.flatMap_cons]
    exact List.append_ne_nil_of_left_ne_nil item.source_ne_nil _
  have hclose : step ctx tail (t.inBody ('[' :: '^' :: body) more (position + 1)
      (t.output ++ ['[', '^'] ++ body)) ']' = .ok (t.pastBracket ('[' :: '^' :: body ++ closing)
        more (position + 1) (t.output ++ ['[', '^'] ++ body ++ closing)) := by
    rw [← h.closeBracket_negated ctx hwindows hnoBracket hbegins body]
    have hquoted (output : List Char) :
        (t.inBody ('[' :: '^' :: body) more (position + 1) output).quoted = false := h.quoted
    simp [step, last_inBody, bracketToken, hne, hquoted]
  have houtput : t.output ++ ['[', '^'] ++ body ++ closing =
      t.output ++ bracket.source ctx.options.unescape := by
    rw [hsource]
    simp
  rw [← hsource, houtput] at hclose
  refine ⟨_, (hmark.trans hbody).trans (leads_of_step_inBody ctx tail hclose rfl), ?_, ?_⟩
  · refine ⟨position + 1, t.tokens ++ [t.bracketToken (bracket.source ctx.options.unescape)], ?_⟩
    rw [pastBracket, ← h.inClass]
    rfl
  · have hlast : (t.pastBracket (bracket.source ctx.options.unescape) more (position + 1)
        (t.output ++ bracket.source ctx.options.unescape)).last = t.bracketToken _ :=
      last_of_tokens_eq rfl
    exact ⟨⟨h.frames, rfl, h.quoted, h.start, h.optionalGroup⟩, by simp [pastBracket, inBody],
      congrArg Token.kind hlast, by simp⟩

end

end Tokenizer

/-- The translation of a negated bracket expression between two words. -/
theorem Context.tokenize_negatedBracket (ctx : Context) (hwindows : ctx.windows = false)
    (hnoBracket : ctx.options.noBracket = false) {before after : List Char}
    (hbefore : before ≠ [] ∧ ∀ c ∈ before, isSpecial c = false)
    (hafter : after ≠ [] ∧ ∀ c ∈ after, isSpecial c = false) (bracket : NegatedBracket)
    (hnameless : ctx.options.posix = true → bracket.IsNameless)
    (hbody : ctx.body = before ++ bracket.text ++ after)
    (tail : List Char → Except Error (List Char)) :
    ∃ translation, ctx.tokenize tail = .ok translation ∧
      translation.output = before ++ bracket.source ctx.options.unescape ++ after ∧
      translation.negated = false := by
  obtain ⟨t₁, hleads₁, hgrows₁, h₁⟩ := (Tokenizer.behind_bos ctx.body).leads_word ctx tail
    hbefore.2 hbefore.1 (hbody.trans (List.append_assoc ..))
  obtain ⟨t₂, hleads₂, hgrows₂, h₂⟩ := h₁.leads_negatedBracket ctx tail hwindows hnoBracket bracket
    hnameless rfl hgrows₁.rest_eq
  obtain ⟨t₃, hleads₃, hgrows₃, h₃⟩ := h₂.leads_word ctx tail hafter.2 hafter.1
    (hgrows₂.rest_eq.trans (List.append_nil _).symm)
  exact tokenize_of_grows ((hleads₁.trans hleads₂).trans hleads₃)
    ((hgrows₁.trans hgrows₂).trans hgrows₃) h₃.inert

end PathGlob.Pattern
