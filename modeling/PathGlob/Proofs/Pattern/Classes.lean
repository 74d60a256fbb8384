import PathGlob.Proofs.Pattern.Unclosed
import PathGlob.Proofs.Regex.Classes

/-!
# `PathGlob.Proofs.Pattern.Classes`: bracket expressions within a text

A bracket expression lists characters and ranges, perhaps behind a mark that negates it
(`BracketExpr`). While it is open, the tokenizer collects the body of a class, and the closing
bracket decides what becomes of it (`BracketExpr.source`): the class itself, the class without the
separator if it is negated, or, where the class lists nothing but single characters, also or only
the escaped text of the class. All of this happens within the token of the bracket and leaves the
other tokens alone, so what `Tokenizer.Unclosed` says of texts without closed groups goes on to
hold, and a word of plain characters and bracket expressions is translated part by part
(`Context.tokenize_bracketWord`).
-/

set_option autoImplicit false

namespace PathGlob.Pattern

open Regex

/-! ### Words with bracket expressions -/

/-- What a bracket lists: a plain character, or an ascending range of letters or of digits. -/
inductive BracketItem where
  | char (c : Char) (hplain : isSpecial c = false) (hc : c ∉ ['-', '&', '~'])
  | range (low high : Char)
    (hends : (low.isAlpha ∧ high.isAlpha) ∨ (low.isDigit ∧ high.isDigit)) (hle : low ≤ high)

/-- A character without a meaning in patterns has one in classes only if it is one of three. -/
theorem isClassMeta_of_not_isSpecial {c : Char} (h : isSpecial c = false)
    (hc : c ∉ ['-', '&', '~']) : isClassMeta c = false := by
  simp only [isSpecial, isClassMeta, List.contains_eq_mem, decide_eq_false_iff_not, List.mem_cons,
    List.not_mem_nil, or_false, not_or] at h hc ⊢
  simp [h, hc]

/-- A letter or digit has no meaning anywhere. -/
theorem isSpecial_of_isAlphanum {c : Char} (h : c.isAlphanum = true) :
    isSpecial c = false ∧ c ∉ ['-', '&', '~'] := by
  have hne (d : Char) (hd : d.isAlphanum = false) : c ≠ d := by
    rintro rfl
    exact Bool.false_ne_true (hd.symm.trans h)
  simp [isSpecial, hne]

namespace BracketItem

/-- The item as it is written. -/
def text : BracketItem → List Char
  | .char c _ _ => [c]
  | .range low high _ _ => [low, '-', high]

/-- The item contains the character. -/
def Has (x : Char) : BracketItem → Prop
  | .char c _ _ => x = c
  | .range low high _ _ => low ≤ x ∧ x ≤ high

/-- The item is a range. -/
def isRange : BracketItem → Bool
  | .char _ _ _ => false
  | .range _ _ _ _ => true

theorem plain_of_ends {low high : Char}
    (h : (low.isAlpha ∧ high.isAlpha) ∨ (low.isDigit ∧ high.isDigit)) :
    (isSpecial low = false ∧ low ∉ ['-', '&', '~']) ∧
      (isSpecial high = false ∧ high ∉ ['-', '&', '~']) := by
  obtain ⟨hlow, hhigh⟩ | ⟨hlow, hhigh⟩ := h <;>
    exact ⟨isSpecial_of_isAlphanum (by simp [Char.isAlphanum, hlow]),
      isSpecial_of_isAlphanum (by simp [Char.isAlphanum, hhigh])⟩

/-- The item as a member of a class. -/
def classItem : BracketItem → ClassItem
  | .char c hplain hc => .char c (isClassMeta_of_not_isSpecial hplain hc)
  | .range low high hends hle =>
    have hlow := (plain_of_ends hends).1
    have hhigh := (plain_of_ends hends).2
    .span low high (isClassMeta_of_not_isSpecial hlow.1 hlow.2)
      (isClassMeta_of_not_isSpecial hhigh.1 hhigh.2) hle

theorem source_classItem (item : BracketItem) : item.classItem.source = item.text := by
  cases item <;> rfl

theorem has_classItem_iff (item : BracketItem) {x : Char} : item.classItem.Has x ↔ item.Has x := by
  cases item <;> rfl

/-- Every character of an item is plain, and only the dash of a range would have a meaning in a
class. -/
theorem plain_of_mem (item : BracketItem) : ∀ c ∈ item.text,
    isSpecial c = false ∧ (c = '-' ∨ isClassMeta c = false) := by
  have hplain {c : Char} (h : isSpecial c = false ∧ c ∉ ['-', '&', '~']) :
      isSpecial c = false ∧ (c = '-' ∨ isClassMeta c = false) :=
    ⟨h.1, .inr (isClassMeta_of_not_isSpecial h.1 h.2)⟩
  cases item with
  | char c hc hne => simpa [text] using hplain ⟨hc, hne⟩
  | range low high hends hle =>
    obtain ⟨hlow, hhigh⟩ := plain_of_ends hends
    have hdash : isSpecial '-' = false := by decide
    simpa [text, hdash] using ⟨hplain hlow, hplain hhigh⟩

/-- An item does not end in a dash. -/
theorem getLast?_text_ne (item : BracketItem) :
    item.text ≠ [] ∧ item.text.getLast? ≠ some '-' := by
  have hne {c : Char} (hc : c ∉ ['-', '&', '~']) : c ≠ '-' := fun heq => by simp [heq] at hc
  cases item with
  | char c hc hnot => exact ⟨by simp [text], by simpa [text] using hne hnot⟩
  | range low high hends hle =>
    exact ⟨by simp [text], by simpa [text] using hne (plain_of_ends hends).2.2⟩

/-- Only a range makes the body of a class meaningful. -/
theorem hasMeta_text (item : BracketItem) : hasMeta item.text = item.isRange := by
  cases item with
  | char c hc hne =>
    have hdash : (c == '-') = false := beq_false_of_ne fun heq => by simp [heq] at hne
    simp [hasMeta, text, isRange, hdash, isMeta_of_not_isSpecial hc]
  | range => simp [hasMeta, text, isRange]

end BracketItem

/-- A bracket expression: the items that it lists, and a mark before them if it means all other
characters. -/
structure BracketExpr where
  mark? : Option Char
  items : List BracketItem
  hmark : mark? ∈ [none, some '!', some '^']
  hitems : items ≠ []

namespace BracketExpr

variable (expr : BracketExpr)

/-- The items as they are written. -/
def body : List Char := expr.items.flatMap BracketItem.text

/-- The expression as it is written. -/
def text : List Char := '[' :: expr.mark?.toList ++ expr.body ++ [']']

/-- The expression means all characters that it does not list. -/
def isNegated : Bool := expr.mark?.isSome

/-- The expression lists a range. -/
def hasRange : Bool := expr.items.any BracketItem.isRange

/-- The expression lists the character. -/
def Has (x : Char) : Prop := ∃ item ∈ expr.items, item.Has x

/-- What the class begins with behind its bracket. -/
def caret : List Char := if expr.isNegated then ['^'] else []

/-- What the class ends with. A negated one leaves out the separator as well. -/
def closing : List Char := (if expr.isNegated then ['/'] else []) ++ [']']

/-- The class that the expression is read as. -/
def classSource : List Char :=
  Regex.classSource expr.isNegated <|
    expr.items.map BracketItem.classItem ++ if expr.isNegated then [.char '/' (by decide)] else []

/-- What becomes of the expression. -/
def source (ctx : Context) : List Char :=
  if expr.isNegated || expr.hasRange || ctx.options.literalBrackets = some false then
    expr.classSource
  else Tokenizer.literalBracket ctx expr.classSource

theorem plain_of_mem : ∀ c ∈ expr.body,
    isSpecial c = false ∧ (c = '-' ∨ isClassMeta c = false) := by
  intro c hc
  obtain ⟨item, -, hitem⟩ := List.mem_flatMap.mp hc
  exact item.plain_of_mem c hitem

theorem body_ne_nil : expr.body ≠ [] := by
  obtain ⟨item, items, hitems⟩ := List.exists_cons_of_ne_nil expr.hitems
  rw [body, hitems, List.flatMap_cons]
  exact List.append_ne_nil_of_left_ne_nil item.getLast?_text_ne.1 _

/-- The body does not end in a dash. -/
theorem getLast?_body_ne : expr.body.getLast? ≠ some '-' := by
  rw [body, ← List.dropLast_concat_getLast expr.hitems, List.flatMap_append,
    List.flatMap_singleton, List.getLast?_append]
  obtain ⟨hne, hdash⟩ := (expr.items.getLast expr.hitems).getLast?_text_ne
  rwa [List.getLast?_eq_some_getLast hne, Option.some_or, ← List.getLast?_eq_some_getLast hne]

theorem hasMeta_body : hasMeta expr.body = expr.hasRange := by
  rw [body, hasRange, hasMeta, List.any_flatMap]
  exact congrArg expr.items.any (funext BracketItem.hasMeta_text)

theorem caret_notMem_body : '^' ∉ expr.body := fun hmem =>
  absurd (expr.plain_of_mem '^' hmem).1 (by decide)

/-- With its caret the body tells whether the expression is negated. -/
theorem head?_caret_body_iff :
    (expr.caret ++ expr.body).head? = some '^' ↔ expr.isNegated = true := by
  rw [caret]
  cases expr.isNegated with
  | true => exact iff_of_true rfl rfl
  | false =>
    exact iff_of_false (fun hhead => expr.caret_notMem_body (List.mem_of_head? hhead))
      Bool.false_ne_true

theorem slash_notMem_caret_body : '/' ∉ expr.caret ++ expr.body := by
  intro hmem
  obtain hmem | hmem := List.mem_append.mp hmem
  · rw [caret] at hmem
    split at hmem <;> simp at hmem
  · exact absurd (expr.plain_of_mem '/' hmem).1 (by decide)

theorem hasMeta_caret_body :
    hasMeta (expr.caret ++ expr.body) = (expr.isNegated || expr.hasRange) := by
  rw [hasMeta, List.any_append, ← hasMeta, ← hasMeta, hasMeta_body, caret]
  cases expr.isNegated <;> rfl

theorem classSource_eq : expr.classSource = '[' :: expr.caret ++ expr.body ++ expr.closing := by
  have hitems : (expr.items.map BracketItem.classItem).flatMap ClassItem.source = expr.body := by
    rw [List.flatMap_map]
    exact congrArg expr.items.flatMap (funext BracketItem.source_classItem)
  rw [classSource, Regex.classSource, List.flatMap_append, hitems, caret, closing]
  cases expr.isNegated <;> simp [ClassItem.source]

/-- An expression that is not negated is a class as it is written. -/
theorem classSource_eq_text (h : expr.isNegated = false) : expr.classSource = expr.text := by
  have hnone : expr.mark? = none := Option.not_isSome_iff_eq_none.mp (Bool.eq_false_iff.mp h)
  simp [classSource_eq, caret, closing, h, text, hnone]

end BracketExpr

/-- A part of a word: a plain character or a bracket expression. -/
inductive BracketPart where
  | char (c : Char) (hc : isSpecial c = false)
  | bracket (expr : BracketExpr)

namespace BracketPart

/-- The part as it is written. -/
def text : BracketPart → List Char
  | .char c _ => [c]
  | .bracket expr => expr.text

/-- What becomes of the part. -/
def source (ctx : Context) : BracketPart → List Char
  | .char c _ => [c]
  | .bracket expr => expr.source ctx

/-- The part is a bracket expression. -/
def isBracket : BracketPart → Bool
  | .char _ _ => false
  | .bracket _ => true

end BracketPart

/-! ### Reading a bracket expression -/

namespace Tokenizer

variable {ctx : Context} {tail : List Char → Except Error (List Char)} {t : Tokenizer}
  {source more : List Char} {inParen bracket : Bool}

/-- In a class, dashes and characters without a meaning there stand for themselves. -/
theorem flatMap_classSource {text : List Char}
    (h : ∀ c ∈ text, c = '-' ∨ isClassMeta c = false) : text.flatMap classSource = text := by
  induction text with
  | nil => rfl
  | cons c text ih =>
    obtain ⟨hc, htext⟩ := List.forall_mem_cons.mp h
    have hsource : classSource c = [c] := by
      unfold classSource
      split
      case isTrue hdash => rw [hdash]
      case isFalse hdash => rw [escapeClassChar, hc.resolve_left hdash, if_neg Bool.false_ne_true]
    rw [List.flatMap_cons, hsource, ih htext]
    rfl

variable (ctx tail)

/-- Directly behind the opening bracket, a mark becomes the caret of the class. -/
theorem step_mark {mark : Char} (hmark : mark = '!' ∨ mark = '^') (rest : List Char)
    (position : Nat) (output : List Char) :
    step ctx tail (t.inBody ['['] rest position output) mark =
      .ok (t.inBody ['[', '^'] rest position (output ++ ['^'])) := by
  let opened := t.inBody ['['] rest position output
  have hlast : opened.last.value = ['['] := congrArg Token.value (last_inBody ..)
  have hstep : step ctx tail opened mark = .ok (opened.appendClass ['^']) := by
    obtain rfl | rfl := hmark <;>
      simp [step, show opened.inClass = true from rfl, inBracket, classChar, hlast]
  rwa [appendClass_inBody] at hstep

/-- The mark of a bracket expression, if it has one. -/
theorem leads_mark (expr : BracketExpr) (rest : List Char) (position : Nat) (output : List Char) :
    ∃ position' output',
      Leads ctx tail (t.inBody ['['] (expr.mark?.toList ++ rest) position output)
        (t.inBody ('[' :: expr.caret) rest position' output') := by
  have hmark := expr.hmark
  unfold BracketExpr.caret BracketExpr.isNegated
  cases heq : expr.mark? with
  | none => exact ⟨position, output, .refl _⟩
  | some mark =>
    have hmark : mark = '!' ∨ mark = '^' := by simpa [heq] using hmark
    have hstep := step_mark (t := t) ctx tail hmark rest (position + 1) output
    exact ⟨_, _, leads_of_step_inBody ctx tail hstep rfl⟩

/-- A bracket expression up to its closing bracket. -/
theorem Unclosed.leads_body (hposix : ctx.options.posix = false)
    (hnoBracket : ctx.options.noBracket = false) (h : t.Unclosed source inParen bracket)
    (expr : BracketExpr) (hrest : t.rest = expr.text ++ more) :
    ∃ position output, Leads ctx tail t
      (t.inBody ('[' :: expr.caret ++ expr.body) (']' :: more) position output) := by
  have htext : t.rest = '[' :: (expr.mark?.toList ++ (expr.body ++ ']' :: more)) := by
    rw [hrest, BracketExpr.text]
    simp
  have hopen := h.leads_inBody ctx tail hnoBracket htext (by simp)
  obtain ⟨position, output, hmark⟩ := leads_mark (t := t) ctx tail expr
    (expr.body ++ ']' :: more) (t.position + 1) (t.output ++ ['['])
  obtain ⟨position', output', hbody⟩ := leads_class ctx tail (t := t) hposix (']' :: more)
    (fun c hc => .inl (expr.plain_of_mem c hc).1)
    (fun hlast => absurd hlast expr.getLast?_body_ne) ('[' :: expr.caret) position output
  rw [flatMap_classSource fun c hc => (expr.plain_of_mem c hc).2] at hbody
  exact ⟨position', output', (hopen.trans hmark).trans hbody⟩

variable {tail}

/-- Behind the bracket expression that was opened in the given state. -/
def pastBracket (t : Tokenizer) (value rest : List Char) (position : Nat) (output : List Char) :
    Tokenizer :=
  { t.inBody value rest position output with inClass := false }

/-- The token before the class is the one that was last. -/
theorem getElem?_pastBracket (hne : t.tokens ≠ []) (value rest : List Char) (position : Nat)
    (output : List Char) :
    (t.pastBracket value rest position output).tokens[t.lastPlace]? = some t.last := by
  have hplace := getElem?_lastPlace hne
  show (t.tokens ++ _)[_]? = _
  rw [List.getElem?_append_left (List.getElem?_eq_some_iff.mp hplace).1, hplace]

/-- Behind a token that begins no segment, the class that is closed stays as it is, or may also be
meant literally. -/
theorem finishBracket_pastBracket (more : List Char) (hne : t.tokens ≠ [])
    (hbegins : t.last.kind.beginsSegment = false) (expr : BracketExpr) (position : Nat)
    (output : List Char) :
    ∃ output', (t.pastBracket expr.classSource more position output).finishBracket ctx
        (expr.caret ++ expr.body) false =
      t.pastBracket (expr.source ctx) more position output' := by
  let s := t.pastBracket expr.classSource more position output
  have hlast : s.last = t.bracketToken expr.classSource := last_of_tokens_eq rfl
  have hprevious : s.tokens[t.lastPlace]? = some t.last := getElem?_pastBracket hne ..
  show ∃ output', s.finishBracket ctx _ _ = _
  unfold finishBracket
  simp only [hlast, bracketToken, Option.bind_some, hprevious, hbegins, Bool.and_false,
    Bool.false_eq_true, if_false, Bool.or_false, expr.hasMeta_caret_body]
  rw [BracketExpr.source, Bool.or_comm]
  split
  case isTrue => exact ⟨output, rfl⟩
  case isFalse =>
    let value := literalBracket ctx expr.classSource
    have hs : s.tokens = t.tokens ++ [t.bracketToken expr.classSource] := rfl
    have htokens : s.tokens.modify s.lastPlace (fun token => { token with value }) =
        t.tokens ++ [t.bracketToken value] := tokens_modifyLast hs
    let output' := Text.dropLastBytes (Text.byteSize expr.classSource) output ++ value
    refine ⟨output', ?_⟩
    show { s with
      output := output'
      tokens := s.tokens.modify s.lastPlace fun token => { token with value } } = _
    rw [htokens]
    rfl

/-- What a class ends with, by the text behind its bracket. -/
def classClosing (body : List Char) : List Char :=
  if body.head? = some '^' ∧ '/' ∉ body then ['/', ']'] else [']']

/-- The closing bracket behind a body in which no class is named. -/
theorem closeBracket_eq (hwindows : ctx.windows = false)
    (hnoBracket : ctx.options.noBracket = false) (body more : List Char) (position : Nat)
    (output : List Char) :
    (t.inBody ('[' :: body) more position output).closeBracket ctx =
      .ok ((t.pastBracket ('[' :: body ++ classClosing body) more position
        (output ++ classClosing body)).finishBracket ctx body false) := by
  let u := t.inBody ('[' :: body) more position output
  have hlast : u.last = t.bracketToken ('[' :: body) := last_inBody ..
  have hclosing : (if !u.last.isPosix && decide ((u.last.value.drop 1).head? = some '^') &&
        !(u.last.value.drop 1).contains '/'
      then Fragment.slashClass ctx.windows ++ [']'] else [']']) = classClosing body := by
    rw [hlast, hwindows]
    simp [bracketToken, classClosing, Fragment.slashClass]
  have hclass : ({ u with inClass := false } : Tokenizer).appendClass (classClosing body) =
      t.pastBracket ('[' :: body ++ classClosing body) more position
        (output ++ classClosing body) := by
    have happend : u.appendClass (classClosing body) = _ := appendClass_inBody ..
    exact congrArg (fun u : Tokenizer => { u with inClass := false }) happend
  show closeBracket ctx u = _
  rw [closeBracket, if_neg (by simp [hnoBracket]), if_neg (by simp [u, inBody])]
  dsimp only
  rw [hclosing, hclass, hlast]
  rfl

/-- The closing bracket behind the body of a bracket expression. -/
theorem closeBracket_inBody (more : List Char) (hwindows : ctx.windows = false)
    (hnoBracket : ctx.options.noBracket = false) (hne : t.tokens ≠ [])
    (hbegins : t.last.kind.beginsSegment = false) (expr : BracketExpr) (position : Nat)
    (output : List Char) :
    ∃ output', (t.inBody ('[' :: expr.caret ++ expr.body) more position output).closeBracket ctx =
      .ok (t.pastBracket (expr.source ctx) more position output') := by
  have hclosing : classClosing (expr.caret ++ expr.body) = expr.closing := by
    unfold classClosing BracketExpr.closing
    simp only [expr.head?_caret_body_iff, expr.slash_notMem_caret_body, not_false_eq_true, and_true]
    cases expr.isNegated <;> rfl
  have hclose := closeBracket_eq (t := t) ctx hwindows hnoBracket (expr.caret ++ expr.body) more
    position output
  rw [hclosing, ← List.cons_append, ← expr.classSource_eq] at hclose
  obtain ⟨output', hfinish⟩ :=
    finishBracket_pastBracket ctx more hne hbegins expr position (output ++ expr.closing)
  rw [hfinish] at hclose
  exact ⟨output', hclose⟩

variable (tail)

/-- A bracket expression adds its source. -/
theorem Unclosed.leads_bracket (hwindows : ctx.windows = false)
    (hposix : ctx.options.posix = false) (hnoBracket : ctx.options.noBracket = false)
    (h : t.Unclosed source inParen bracket) (hbegins : t.last.kind.beginsSegment = false)
    (expr : BracketExpr) (hrest : t.rest = expr.text ++ more) :
    ∃ t', Leads ctx tail t t' ∧ t'.Unclosed (source ++ expr.source ctx) inParen true ∧
      t'.rest = more := by
  obtain ⟨position, output, hleads⟩ := h.leads_body ctx tail hposix hnoBracket expr hrest
  let value := '[' :: expr.caret ++ expr.body
  obtain ⟨output', hclose⟩ := closeBracket_inBody ctx more hwindows hnoBracket h.tokens
    hbegins expr (position + 1) output
  -- The body is not empty, so the closing bracket ends the class.
  have hlong : value ≠ ['['] ∧ value ≠ ['[', '^'] := by
    obtain ⟨c, body, hbody⟩ := List.exists_cons_of_ne_nil expr.body_ne_nil
    have hc : c ≠ '^' := by
      rintro rfl
      exact expr.caret_notMem_body (hbody ▸ List.mem_cons_self)
    simp only [value, hbody, BracketExpr.caret]
    cases expr.isNegated <;> simp [hc]
  have hstep : step ctx tail (t.inBody value more (position + 1) output) ']' =
      (t.inBody value more (position + 1) output).closeBracket ctx := by
    have hquoted : (t.inBody value more (position + 1) output).quoted = false := h.quoted
    simp [step, last_inBody, bracketToken, hlong, hquoted]
  refine ⟨_, hleads.trans (leads_of_step_inBody ctx tail (hstep.trans hclose) rfl),
    h.added_bracket _ ?_, rfl⟩
  simp [pastBracket, inBody, h.inClass]

/-- A part of a word adds its source. A bracket expression may not be the first part. -/
theorem Unclosed.leads_part (hwindows : ctx.windows = false)
    (hposix : ctx.options.posix = false) (hnoBracket : ctx.options.noBracket = false)
    (h : t.Unclosed source inParen bracket) (part : BracketPart)
    (hbegins : part.isBracket = true → t.last.kind.beginsSegment = false)
    (hrest : t.rest = part.text ++ more) :
    ∃ t', Leads ctx tail t t' ∧ t'.Unclosed (source ++ part.source ctx) inParen part.isBracket ∧
      t'.last.kind.beginsSegment = false ∧ t'.rest = more := by
  cases part with
  | char c hc =>
    have hrest : t.rest = c :: more := hrest
    have hr := h.reading more
    have hkind := kind_last_push hr.tokens ctx (.text [c] [c])
    refine ⟨_, leads_plain ctx tail h.inClass h.quoted h.tokens h.not_globstar hrest hc,
      hr.pushText ctx [c] [c], ?_, ?_⟩
    · rw [Tokenizer.pushText, hkind]
      rfl
    · rw [Tokenizer.pushText, push_eq ctx hr.groups fun hlast => absurd hlast hr.not_globstar]
      rfl
  | bracket expr =>
    obtain ⟨t', hleads, h', hrest'⟩ :=
      h.leads_bracket ctx tail hwindows hposix hnoBracket (hbegins rfl) expr hrest
    have hkind : t'.last.kind = .bracket := of_decide_eq_true h'.bracket_eq
    exact ⟨t', hleads, h', by rw [hkind]; rfl, hrest'⟩

/-- The parts of a word add their sources. -/
theorem Unclosed.leads_parts (hwindows : ctx.windows = false)
    (hposix : ctx.options.posix = false) (hnoBracket : ctx.options.noBracket = false)
    (h : t.Unclosed source inParen bracket) (parts : List BracketPart)
    (hbegins : parts.head?.map BracketPart.isBracket = some true →
      t.last.kind.beginsSegment = false)
    (hrest : t.rest = parts.flatMap BracketPart.text ++ more) :
    ∃ t', Leads ctx tail t t' ∧ t'.Unclosed (source ++ parts.flatMap (BracketPart.source ctx))
      inParen ((parts.getLast?.map BracketPart.isBracket).getD bracket) ∧ t'.rest = more := by
  induction parts generalizing t source bracket with
  | nil => exact ⟨t, .refl t, by simpa using h, hrest⟩
  | cons part parts ih =>
    rw [List.flatMap_cons, List.append_assoc] at hrest
    obtain ⟨t₁, hleads, h₁, hbegins₁, hrest₁⟩ :=
      h.leads_part ctx tail hwindows hposix hnoBracket part
        (fun hbracket => hbegins (congrArg some hbracket)) hrest
    obtain ⟨t₂, hleads', h₂, hrest₂⟩ := ih h₁ (fun _ => hbegins₁) hrest₁
    refine ⟨t₂, hleads.trans hleads', ?_, hrest₂⟩
    rw [List.append_assoc, ← List.flatMap_cons] at h₂
    cases parts with
    | nil => exact h₂
    | cons next parts =>
      rw [List.getLast?_cons_cons]
      rwa [List.getLast?_eq_some_getLast (List.cons_ne_nil next parts)] at h₂ ⊢

end Tokenizer

/-- A word of plain characters and bracket expressions that begins and ends with a plain
character. -/
structure BracketWord where
  parts : List BracketPart
  hfirst : parts.head?.map BracketPart.isBracket = some false
  hlast : parts.getLast?.map BracketPart.isBracket = some false

namespace BracketWord

/-- The word as it is written. -/
def text (word : BracketWord) : List Char := word.parts.flatMap BracketPart.text

/-- The sources of the parts. -/
def source (ctx : Context) (word : BracketWord) : List Char :=
  word.parts.flatMap (BracketPart.source ctx)

/-- The word begins with a plain character. -/
theorem exists_text_eq (word : BracketWord) :
    ∃ c rest, word.text = c :: rest ∧ isSpecial c = false := by
  have hfirst := word.hfirst
  unfold text
  cases hparts : word.parts with
  | nil => exact absurd hfirst (by simp [hparts])
  | cons part parts =>
    cases part with
    | char c hc => exact ⟨c, _, rfl, hc⟩
    | bracket expr => exact absurd hfirst (by simp [hparts, BracketPart.isBracket])

end BracketWord

/-- The translation of a word is put together from the sources of its parts. -/
theorem Context.tokenize_bracketWord (ctx : Context) (hstrict : ctx.options.strictBrackets = false)
    (hslashes : ctx.options.strictSlashes = false) (hposix : ctx.options.posix = false)
    (hbracket : ctx.options.noBracket = false) (hwindows : ctx.windows = false)
    (hstar : ctx.star ≠ []) (word : BracketWord) (hbody : ctx.body = word.text)
    (tail : List Char → Except Error (List Char)) :
    ∃ translation, ctx.tokenize tail = .ok translation ∧
      translation.output = word.source ctx ∧ translation.negated = false := by
  obtain ⟨t, hleads, ht, hend⟩ := (Tokenizer.unclosed_initial ctx.body).leads_parts ctx tail
    hwindows hposix hbracket word.parts
    (fun hbegins => absurd (word.hfirst.symm.trans hbegins) (by simp))
    (hbody.trans (List.append_nil _).symm)
  rw [word.hlast] at ht
  obtain ⟨t', hfinish, hnegated, hsource⟩ := ht.finish hstrict hslashes
  obtain ⟨translation, htokenize, hnegated', houtput⟩ :=
    tokenize_of_leads hstar hleads hend hfinish
  refine ⟨translation, htokenize, houtput.trans (hsource.trans ?_), hnegated'.trans hnegated⟩
  simp [BracketWord.source]

end PathGlob.Pattern
