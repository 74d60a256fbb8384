import PathGlob.Proofs.Pattern.Globstar

/-!
# `PathGlob.Proofs.Pattern.Shortcut`: the shortcuts agree with the tokenizer

A shortcut writes down by hand what the tokenizer would emit. Each of the two is compared
with the tokenizer on the patterns that it applies to: flat patterns have no groups, so
both translate them character by character (`tokenize_of_flat`), and the known shapes are
one of eight patterns followed by extensions (`tokenize_of_shape`).

The tokenizer itself does not look at the option for shortcuts, so with that option or
without it a pattern has the same translation but for the tokens and for the note that a
shortcut was taken (`parse_essence`).
-/

set_option autoImplicit false

namespace PathGlob

namespace Pattern

open Regex

/-- A translation without what only tells how it was arrived at: the tokens, and whether a
shortcut was taken. -/
def Translation.essence (translation : Translation) : Translation :=
  { translation with fastPath := false, tokens := [] }

/-! ### Flat patterns -/

theorem ne_slash_of_not_isStructural {c : Char} (h : isStructural c = false) : c ≠ '/' := by
  rintro rfl
  exact absurd h (by decide)

/-- Within a segment no character but a separator begins one. -/
theorem TokenKind.after_inside {kind : TokenKind} {c : Char} (hbegins : kind.beginsSegment = false)
    (hc : c ≠ '/') : (kind.after c).beginsSegment = false ∧ kind.after c ≠ .dot := by
  unfold after
  simp only [if_neg hc, hbegins, Bool.false_eq_true, if_false]
  repeat' split
  all_goals decide

/-- Within a segment every character is admitted that is not structural. -/
theorem TokenKind.admitsAll_inside {kind : TokenKind} {text : List Char}
    (hbegins : kind.beginsSegment = false) (hdot : kind = .dot → text.head? ≠ some '*')
    (htext : ∀ c ∈ text, isStructural c = false) : kind.AdmitsAll [] text := by
  induction text generalizing kind with
  | nil => exact trivial
  | cons c text ih =>
    have hc := htext c List.mem_cons_self
    obtain ⟨hbegins', hdot'⟩ := after_inside hbegins (ne_slash_of_not_isStructural hc)
    have hbos : kind ≠ .bos := by
      rintro rfl
      exact absurd hbegins (by decide)
    refine ⟨⟨.inr hc, fun h => absurd h hbos, fun h => absurd h hbos, fun hneeds heq => ?_⟩,
      ih hbegins' (fun h => absurd h hdot') fun d hd => htext d (List.mem_cons_of_mem c hd)⟩
    rw [needsGuard, hbegins, Bool.false_or, decide_eq_true_eq] at hneeds
    exact absurd (congrArg some heq) (hdot hneeds)

/-- Within a segment the tokenizer emits what the shortcut does. -/
theorem flatSource_inside (ctx : Context) (hbash : ctx.options.bash = false) {kind : TokenKind}
    {previous : Char} {text : List Char} (hbegins : kind.beginsSegment = false)
    (hdot : kind = .dot → text.head? ≠ some '*') (hstar : previous = '*' ↔ kind = .star)
    (htext : ∀ c ∈ text, isStructural c = false) :
    flatSource ctx.options ctx.star (some previous) text = ctx.textSource kind text := by
  induction text generalizing kind previous with
  | nil => rfl
  | cons c text ih =>
    have hc := ne_slash_of_not_isStructural (htext c List.mem_cons_self)
    obtain ⟨hbegins', hdot'⟩ := TokenKind.after_inside hbegins hc
    have hstar' : c = '*' ↔ kind.after c = .star := by
      unfold TokenKind.after
      rw [if_neg hc, hbegins]
      repeat' split
      all_goals simp_all
    -- Within a segment no guard is due, so what is left are the shortcut's own cases.
    have hsource : ctx.charSource kind c =
        if c = '?' then Fragment.anyChar ctx.options.windows
        else if c = '.' then Fragment.dot
        else if c = '*' then if previous = '*' then [] else ctx.star
        else escapeChar c := by
      have hneeds : c = '*' → kind.needsGuard = false := by
        rintro rfl
        rw [TokenKind.needsGuard, hbegins, Bool.false_or, decide_eq_false_iff_not]
        exact fun h => hdot h rfl
      unfold Context.charSource
      rw [if_neg hc, hbegins]
      by_cases hqmark : c = '?'
      · simp [hqmark, Context.windows]
      · by_cases hc' : c = '*'
        · simp [hc', hneeds hc', hstar, Context.starOutput, hbash]
        · by_cases hdot : c = '.'
          · simp [hdot]
            rfl
          · simp [hqmark, hc', hdot]
    have ih' := ih hbegins' (fun h => absurd h hdot') hstar' fun d hd =>
      htext d (List.mem_cons_of_mem c hd)
    rw [flatSource, Context.textSource, hsource, ih']
    simp

theorem TokenKind.after_eq_star_iff {kind : TokenKind} {c : Char} :
    kind.after c = .star ↔ c = '*' := by
  unfold after
  repeat' split
  all_goals simp_all

theorem TokenKind.eq_dot_of_after_eq {kind : TokenKind} {c : Char} (h : kind.after c = .dot) :
    c = '.' := by
  unfold after at h
  repeat' split at h
  all_goals simp_all

/-- A star is the last token exactly if it is the last character. -/
theorem TokenKind.foldl_after_eq_star_iff {text : List Char} {kind : TokenKind} (h : kind ≠ .star) :
    text.foldl after kind = .star ↔ text.getLast? = some '*' := by
  rcases List.eq_nil_or_concat text with rfl | ⟨init, c, rfl⟩
  · simp [h]
  · simp [after_eq_star_iff]

/-- A flat pattern has no groups, and both translations agree on its characters. -/
theorem textSource_of_isFlat (ctx : Context) (h : isFlat ctx.options ctx.body = true) :
    TokenKind.AdmitsAll [] .bos ctx.body ∧
      flatSource ctx.options ctx.star none ctx.body = ctx.textSource .bos ctx.body := by
  revert h
  cases ctx.body with
  | nil => exact fun _ => ⟨trivial, rfl⟩
  | cons c text =>
    intro h
    -- A flat pattern begins with no star, no negation and no dot before a star.
    have hstar : c ≠ '*' := by
      rintro rfl
      simp [isFlat] at h
    have hbang : c ≠ '!' := by
      rintro rfl
      simp [isFlat] at h
    have hdotStar : c = '.' → text.head? ≠ some '*' := by
      rintro rfl hhead
      obtain ⟨more, rfl⟩ := List.head?_eq_some_iff.mp hhead
      simp [isFlat] at h
    unfold isFlat at h
    simp only [Bool.and_eq_true, Bool.not_eq_true', List.any_eq_false, List.mem_cons,
      forall_eq_or_imp, Bool.not_eq_true] at h
    obtain ⟨⟨hbash, -⟩, hc, htext⟩ := h
    have hslash := ne_slash_of_not_isStructural hc
    have hbegins : (TokenKind.bos.after c).beginsSegment = false := by
      unfold TokenKind.after
      rw [if_neg hslash]
      repeat' split
      all_goals rfl
    have hdot : TokenKind.bos.after c = .dot → text.head? ≠ some '*' := by
      exact fun heq => hdotStar (TokenKind.eq_dot_of_after_eq heq)
    refine ⟨⟨⟨.inr hc, fun _ => hbang, fun _ _ hnext => ?_, fun _ h => absurd h hstar⟩,
      TokenKind.admitsAll_inside hbegins hdot htext⟩, ?_⟩
    · rw [List.append_nil] at hnext
      obtain ⟨more, rfl⟩ := List.head?_eq_some_iff.mp hnext
      exact ne_slash_of_not_isStructural (htext _ List.mem_cons_self) rfl
    · have hsource : ctx.charSource .bos c =
          if c = '?' then
            if ctx.options.dot then
              Fragment.noDotsSegment ctx.options.windows ++ Fragment.anyChar ctx.options.windows
            else Fragment.anyCharNoDot ctx.options.windows
          else if c = '.' then Fragment.dot
          else escapeChar c := by
        unfold Context.charSource
        rw [if_neg hslash, if_neg hstar]
        by_cases heq : c = '.'
        · subst heq
          rfl
        · rw [if_neg heq]
          rfl
      rw [flatSource, Context.textSource, hsource, flatSource_inside ctx hbash hbegins hdot
        TokenKind.after_eq_star_iff.symm htext, if_neg hstar]
      rfl

/-- The literal shortcut yields what the tokenizer does. -/
theorem tokenize_of_flat (ctx : Context) (tail : List Char → Except Error (List Char))
    {output : List Char} (h : flat? ctx.options ctx.star ctx.body = some output) :
    ∃ tokens, ctx.tokenize tail = .ok {
      input := ctx.pattern
      output
      dotSlash := ctx.dotSlash
      negated := false
      negatedExtglob := false
      globstar := false
      fastPath := false
      tokens } := by
  unfold flat? at h
  split at h
  case isFalse => exact absurd h (by simp)
  case isTrue hflat =>
    have hclosing : (if ctx.body.getLast? = some '*' && !ctx.options.strictSlashes then
        Fragment.slash ctx.options.windows ++ ['?'] else []) =
          ctx.closing (ctx.body.foldl TokenKind.after .bos) := by
      simp only [Context.closing, TokenKind.foldl_after_eq_star_iff (show TokenKind.bos ≠ .star by
        decide), Bool.and_comm]
      rfl
    have hbody := textSource_of_isFlat ctx hflat
    obtain ⟨tokens, htokenize⟩ := ctx.tokenize_ungrouped tail hbody.1
    refine ⟨tokens, ?_⟩
    rw [htokenize, ← hbody.2, ← hclosing, ← Option.some.inj h]

/-! ### Shapes -/

/-- What is cut off a shape as its extensions: nothing, or a text that begins with a dot and
has no characters with a meaning in patterns but dots. -/
def IsExtensions (text : List Char) : Prop :=
  text = [] ∨ text.head? = some '.' ∧ ∀ c ∈ text, c = '.' ∨ isSpecial c = false

theorem splitExtension?_eq_some {text first last : List Char}
    (h : splitExtension? text = some (first, last)) : text = first ++ '.' :: last := by
  unfold splitExtension? at h
  split at h
  case isFalse => exact absurd h (by simp)
  case isTrue hcontains =>
    simp only [Option.some.injEq, Prod.mk.injEq] at h
    obtain ⟨rfl, rfl⟩ := h
    have hmem : '.' ∈ text.reverse := by simpa using hcontains
    -- From the right, the first dot is where the extension begins.
    have hdrop : text.reverse.dropWhile (fun c => decide (c ≠ '.')) ≠ [] := by
      intro hnil
      rw [← List.takeWhile_append_dropWhile (p := fun c => decide (c ≠ '.')) (l := text.reverse),
        hnil, List.append_nil] at hmem
      exact absurd (List.all_eq_true.mp List.all_takeWhile '.' hmem) (by decide)
    obtain ⟨d, rest, hrest⟩ := List.exists_cons_of_ne_nil hdrop
    have hd : d = '.' := by
      have := List.head?_dropWhile_not (fun c => decide (c ≠ '.')) text.reverse
      rw [hrest] at this
      simpa using this
    have hsplit := List.takeWhile_append_dropWhile (p := fun c => decide (c ≠ '.'))
      (l := text.reverse)
    rw [hrest, hd] at hsplit
    calc text = text.reverse.reverse := (List.reverse_reverse text).symm
      _ = (text.reverse.takeWhile (fun c => decide (c ≠ '.')) ++ '.' :: rest).reverse := by
        rw [hsplit]
      _ = _ := by
        rw [hrest]
        simp

theorem isSpecial_of_isExtensionWord {text : List Char} (h : isExtensionWord text = true) :
    ∀ c ∈ text, isSpecial c = false := by
  intro c hc
  simp only [isExtensionWord, Bool.and_eq_true, List.all_eq_true] at h
  have hword := h.2 c hc
  rw [← Bool.not_eq_true]
  intro hspecial
  simp only [isSpecial, List.contains_iff_mem, List.mem_cons, List.not_mem_nil, or_false]
    at hspecial
  rcases hspecial with rfl | rfl | rfl | rfl | rfl | rfl | rfl | rfl | rfl | rfl | rfl | rfl | rfl |
    rfl | rfl | rfl | rfl | rfl | rfl | rfl <;> exact absurd hword (by decide)

theorem IsExtensions.concat {text word : List Char} (h : IsExtensions text)
    (hword : isExtensionWord word = true) : IsExtensions (text ++ '.' :: word) := by
  have hplain := isSpecial_of_isExtensionWord hword
  refine .inr ⟨?_, fun c hc => ?_⟩
  · rcases h with rfl | ⟨hhead, -⟩
    · rfl
    · rw [List.head?_append, hhead]
      rfl
  · rcases List.mem_append.mp hc with hc | hc
    · rcases h with rfl | ⟨-, h⟩
      · exact absurd hc List.not_mem_nil
      · exact h c hc
    · rcases List.mem_cons.mp hc with rfl | hc
      · exact .inl rfl
      · exact .inr (hplain c hc)

theorem escape_append (a b : List Char) : escape (a ++ b) = escape a ++ escape b :=
  List.flatMap_append

theorem escape_plain {text : List Char} (h : ∀ c ∈ text, isSpecial c = false) :
    escape text = text := by
  induction text with
  | nil => rfl
  | cons c text ih =>
    rw [escape, List.flatMap_cons, escapeChar_of_not_isSpecial (h c List.mem_cons_self)]
    exact congrArg (c :: ·) (ih fun d hd => h d (List.mem_cons_of_mem c hd))

/-- A shape with extensions is a shape with a source of its own followed by the extensions. -/
theorem extendedShape?_eq_some {options : Options} {n : Nat} {extensions shape output : List Char}
    (h : extendedShape? options n extensions shape = some output) :
    ∃ base suffix source, shape = base ++ suffix ∧ IsExtensions suffix ∧
      shapeSource? options base = some source ∧
      if suffix = [] ∧ extensions = [] then
        output = source ++ (if base ≠ ['*', '*'] && !options.strictSlashes then
          Fragment.slash options.windows ++ ['?'] else [])
      else base ≠ ['*', '*'] ∧ output = source ++ (escape suffix ++ extensions) := by
  induction n generalizing extensions shape with
  | zero => exact absurd h (by simp [extendedShape?])
  | succ n ih =>
    rw [extendedShape?] at h
    split at h
    case h_1 source hsource =>
      refine ⟨shape, [], source, (List.append_nil shape).symm, .inl rfl, hsource, ?_⟩
      split at h
      case isTrue hnil =>
        rw [if_pos ⟨rfl, List.isEmpty_iff.mp hnil⟩]
        split at h
        · rename_i hslash
          rw [if_pos hslash, ← List.append_assoc]
          exact (Option.some.inj h).symm
        · rename_i hslash
          rw [if_neg hslash, List.append_nil]
          exact (Option.some.inj h).symm
      case isFalse hne =>
        rw [if_neg fun hnil => hne (List.isEmpty_iff.mpr hnil.2)]
        split at h
        · exact absurd h (by simp)
        · rename_i hbase
          exact ⟨hbase, (Option.some.inj h).symm⟩
    case h_2 =>
      split at h
      case h_1 shape' extension hsplit =>
        split at h
        case isTrue hword =>
          obtain ⟨base, suffix, source, hshape, hsuffix, hsource, houtput⟩ := ih h
          refine ⟨base, suffix ++ '.' :: extension, source, ?_, hsuffix.concat hword, hsource, ?_⟩
          · rw [splitExtension?_eq_some hsplit, hshape, List.append_assoc]
          · have hescape : escape ('.' :: extension) = Fragment.dot ++ extension :=
              congrArg (Fragment.dot ++ ·) (escape_plain (isSpecial_of_isExtensionWord hword))
            rw [if_neg fun hnil => absurd hnil.2 (by simp [Fragment.dot])] at houtput
            rw [if_neg fun hnil => absurd hnil.1 (by simp)]
            refine ⟨houtput.1, houtput.2.trans ?_⟩
            simp only [escape_append, hescape, List.append_assoc]
        case isFalse => exact absurd h (by simp)
      case h_2 => exact absurd h (by simp)

theorem IsExtensions.not_isStructural {text : List Char} (h : IsExtensions text) :
    ∀ c ∈ text, isStructural c = false := by
  intro c hc
  rcases h with rfl | ⟨-, h⟩
  · exact absurd hc List.not_mem_nil
  · rcases h c hc with rfl | h
    · decide
    · exact isStructural_of_not_isSpecial h

theorem IsExtensions.head?_ne {text : List Char} (h : IsExtensions text) :
    text.head? ≠ some '*' := by
  rcases h with rfl | ⟨h, -⟩ <;> simp [*]

theorem IsExtensions.not_mem_star {text : List Char} (h : IsExtensions text) : '*' ∉ text := by
  intro hmem
  rcases h with rfl | ⟨-, h⟩
  · exact absurd hmem List.not_mem_nil
  · exact absurd (h '*' hmem) (by decide)

/-- Extensions have the same source wherever they stand. -/
theorem IsExtensions.textSource_eq {text : List Char} (h : IsExtensions text) (ctx : Context)
    (kind : TokenKind) : ctx.textSource kind text = escape text := by
  have hchars : ∀ c ∈ text, c = '.' ∨ isSpecial c = false := by
    rcases h with rfl | ⟨-, h⟩
    · simp
    · exact h
  clear h
  induction text generalizing kind with
  | nil => rfl
  | cons c text ih =>
    have hc : ctx.charSource kind c = escapeChar c := by
      rcases hchars c List.mem_cons_self with rfl | hc
      · rfl
      · rw [ctx.charSource_of_not_isSpecial hc, escapeChar_of_not_isSpecial hc]
    rw [Context.textSource, hc, ih _ fun d hd => hchars d (List.mem_cons_of_mem c hd)]
    rfl

/-- What extensions after a star add to the source, up to the end of the pattern. -/
def Context.extensionSource (ctx : Context) (text : List Char) : List Char :=
  escape text ++ if text = [] then ctx.closing .star else []

theorem Context.textSource_extended (ctx : Context) {kind : TokenKind} {base text : List Char}
    (h : IsExtensions text) (hbase : base.foldl TokenKind.after kind = .star) :
    ctx.textSource kind (base ++ text) ++
        ctx.closing ((base ++ text).foldl TokenKind.after kind) =
      ctx.textSource kind base ++ ctx.extensionSource text := by
  rw [textSource_append, hbase, h.textSource_eq, List.foldl_append, hbase, List.append_assoc,
    extensionSource]
  rcases List.eq_nil_or_concat text with rfl | ⟨init, c, rfl⟩
  · rfl
  · have hc : c ≠ '*' := by
      rintro rfl
      exact h.not_mem_star (by simp)
    have hkind : (init.concat c).foldl TokenKind.after .star ≠ .star := by
      simpa [TokenKind.after_eq_star_iff] using hc
    rw [Context.closing, decide_eq_false hkind, if_neg (by simp), if_neg (by simp)]

theorem TokenKind.AdmitsAll.append {kind : TokenKind} {a b rest : List Char}
    (ha : kind.AdmitsAll (b ++ rest) a) (hb : TokenKind.AdmitsAll rest (a.foldl after kind) b) :
    kind.AdmitsAll rest (a ++ b) := by
  induction a generalizing kind with
  | nil => exact hb
  | cons c a ih =>
    have hc := ha.1
    rw [← List.append_assoc] at hc
    exact ⟨hc, ih ha.2 hb⟩

section
variable (ctx : Context) (tail : List Char → Except Error (List Char)) {base text : List Char}

/-- The translation of a base without globstars and of extensions. -/
theorem tokenize_extended (hbody : ctx.body = base ++ text) (h : IsExtensions text)
    (hadmits : TokenKind.AdmitsAll text .bos base)
    (hbase : base.foldl TokenKind.after .bos = .star) :
    ∃ tokens, ctx.tokenize tail = .ok {
      input := ctx.pattern
      output := ctx.textSource .bos base ++ ctx.extensionSource text
      dotSlash := ctx.dotSlash
      negated := false
      negatedExtglob := false
      globstar := false
      fastPath := false
      tokens } := by
  have htext : TokenKind.AdmitsAll [] (base.foldl TokenKind.after .bos) text :=
    hbase ▸ TokenKind.admitsAll_inside rfl (fun _ => h.head?_ne) h.not_isStructural
  obtain ⟨tokens, htokenize⟩ := ctx.tokenize_ungrouped tail
    (hbody ▸ TokenKind.AdmitsAll.append (by rwa [List.append_nil]) htext)
  rw [hbody, ctx.textSource_extended h hbase] at htokenize
  exact ⟨tokens, htokenize⟩

/-- The translation of a base that a globstar leads, and of extensions. -/
theorem tokenize_leading_extended (hglobstar : ctx.options.noGlobstar = false)
    (hbody : ctx.body = '*' :: '*' :: '/' :: (base ++ text)) (h : IsExtensions text)
    (hadmits : TokenKind.AdmitsAll text .slash base)
    (hbase : base.foldl TokenKind.after .slash = .star) :
    ∃ tokens, ctx.tokenize tail = .ok (ctx.globstarTranslation
      (ctx.dotGuard ++ ctx.leadingGlobstar ++
        (ctx.textSource .slash base ++ ctx.extensionSource text)) tokens) := by
  have htext : TokenKind.AdmitsAll [] (base.foldl TokenKind.after .slash) text :=
    hbase ▸ TokenKind.admitsAll_inside rfl (fun _ => h.head?_ne) h.not_isStructural
  obtain ⟨tokens, htokenize⟩ := ctx.tokenize_leading tail hglobstar (n := 0) hbody
    (TokenKind.AdmitsAll.append (by rwa [List.append_nil]) htext)
  rw [ctx.textSource_extended h hbase] at htokenize
  exact ⟨tokens, htokenize⟩

theorem hasTwoStars_cons (c : Char) (text : List Char) :
    hasTwoStars (c :: text) = ((c = '*' && text.head? = some '*') || hasTwoStars text) := by
  by_cases h : c = '*' ∧ text.head? = some '*'
  · obtain ⟨rfl, hhead⟩ := h
    obtain ⟨more, rfl⟩ := List.head?_eq_some_iff.mp hhead
    rfl
  · have hfalse : (c = '*' && text.head? = some '*' : Bool) = false := by simpa using h
    rw [hasTwoStars, hfalse, Bool.false_or]
    rintro more rfl rfl
    exact h ⟨rfl, rfl⟩

/-- Extensions add no two stars side by side. -/
theorem hasTwoStars_append (h : IsExtensions text) :
    hasTwoStars (base ++ text) = hasTwoStars base := by
  have htext (text : List Char) (hmem : '*' ∉ text) : hasTwoStars text = false := by
    induction text with
    | nil => rfl
    | cons c text ih =>
      obtain ⟨hc, htext⟩ := not_or.mp fun h => hmem (List.mem_cons.mpr h)
      simp [hasTwoStars_cons, Ne.symm hc, ih htext]
  induction base with
  | nil => exact htext text h.not_mem_star
  | cons c base ih =>
    have hhead : (base ++ text).head? = some '*' ↔ base.head? = some '*' := by
      cases base with
      | nil => simpa using h.head?_ne
      | cons d base => rfl
    simp only [List.cons_append, hasTwoStars_cons, ih, hhead]

/-- The source of a shape is what the tokenizer emits for it, up to the end of the pattern. -/
theorem shapeSource?_eq_some (hstar : ctx.star = starSource ctx.options) {source : List Char}
    (h : shapeSource? ctx.options base = some source) :
    (ctx.options.noGlobstar && hasTwoStars base) = false ∧
      (base ∈ [['*'], ['.', '*'], ['*', '.', '*'], ['*', '/', '*']] ∧
          source = ctx.textSource .bos base ∨
        base = ['*', '*'] ∧ source = ctx.dotGuard ++ ctx.globstar ∨
        ∃ last ∈ [['*'], ['*', '.', '*'], ['.', '*']], base = '*' :: '*' :: '/' :: last ∧
          source = ctx.dotGuard ++ ctx.leadingGlobstar ++ ctx.textSource .slash last) := by
  have hdot : escapeChar '.' = Fragment.dot := rfl
  unfold shapeSource? at h
  by_cases hglobstar : (ctx.options.noGlobstar && hasTwoStars base) = true
  · simp [hglobstar] at h
  · dsimp only at h
    rw [if_neg hglobstar] at h
    refine ⟨Bool.not_eq_true _ ▸ hglobstar, ?_⟩
    split at h
    case h_1 | h_2 | h_3 | h_4 =>
      refine .inl ⟨by simp, (Option.some.inj h).symm.trans ?_⟩
      -- The source of a star is written out twice, so the options it depends on are split.
      cases hbash : ctx.options.bash <;> cases hcapture : ctx.options.capture <;>
        simp [Context.textSource, Context.charSource, Context.starOutput, Context.starGuard,
          Context.dotGuard, Context.windows, TokenKind.after, TokenKind.needsGuard,
          TokenKind.beginsSegment, hstar, starSource, hdot, hbash, hcapture]
    case h_5 => exact .inr (.inl ⟨rfl, (Option.some.inj h).symm⟩)
    case h_6 | h_7 | h_8 =>
      refine .inr (.inr ⟨_, ?_, rfl, (Option.some.inj h).symm.trans ?_⟩)
      · simp
      · cases hbash : ctx.options.bash <;> cases hcapture : ctx.options.capture <;>
          simp [Context.textSource, Context.charSource, Context.starOutput, Context.starGuard,
            Context.dotGuard, Context.windows, Context.leadingGlobstar, Context.globstar,
            TokenKind.after, TokenKind.needsGuard, TokenKind.beginsSegment, hstar, starSource,
            hdot, hbash, hcapture]
    case h_9 => exact absurd h (by simp)

/-- The shape shortcut yields what the tokenizer does. -/
theorem tokenize_of_shape (hstar : ctx.star = starSource ctx.options) {n : Nat}
    {output : List Char} (h : extendedShape? ctx.options n [] ctx.body = some output) :
    ∃ tokens, ctx.tokenize tail = .ok {
      input := ctx.pattern
      output
      dotSlash := ctx.dotSlash
      negated := false
      negatedExtglob := false
      globstar := hasTwoStars ctx.body && !ctx.options.noGlobstar
      fastPath := false
      tokens } := by
  obtain ⟨base, text, source, hbody, htext, hsource, houtput⟩ := extendedShape?_eq_some h
  obtain ⟨hglobstar, hbase⟩ := shapeSource?_eq_some ctx hstar hsource
  have hnext := htext.head?_ne
  -- In either case the shortcut adds what extensions add after a star.
  have houtput' (hne : base ≠ ['*', '*']) : output = source ++ ctx.extensionSource text := by
    unfold Context.extensionSource Context.closing
    split at houtput
    case isTrue hnil => simpa [hnil.1, hne, escape, Context.windows] using houtput
    case isFalse hnil =>
      have hne' : text ≠ [] := fun htext => hnil ⟨htext, rfl⟩
      simpa [hne'] using houtput.2
  rw [hbody, hasTwoStars_append htext]
  rcases hbase with ⟨hmem, rfl⟩ | ⟨rfl, rfl⟩ | ⟨last, hmem, rfl, rfl⟩
  · -- No globstar: the base and the extensions have no groups at all.
    have hplain : hasTwoStars base = false ∧ TokenKind.AdmitsAll text .bos base ∧
        base.foldl TokenKind.after .bos = .star := by
      simp only [List.mem_cons, List.not_mem_nil, or_false] at hmem
      rcases hmem with rfl | rfl | rfl | rfl <;>
        simp [TokenKind.AdmitsAll, TokenKind.Admits, hnext, hasTwoStars] <;> decide
    obtain ⟨tokens, htokenize⟩ := tokenize_extended ctx tail hbody htext hplain.2.1 hplain.2.2
    refine ⟨tokens, ?_⟩
    rw [htokenize, hplain.1, ← houtput' fun heq => by simp [heq] at hmem]
    rfl
  · -- A globstar that is the whole shape has no extensions.
    have hnil : text = [] := by
      refine Decidable.byContradiction fun hne => ?_
      rw [if_neg fun h => hne h.1] at houtput
      exact houtput.1 rfl
    subst hnil
    have hno : ctx.options.noGlobstar = false := by simpa [hasTwoStars] using hglobstar
    obtain ⟨tokens, htokenize⟩ := ctx.tokenize_globstars tail hno (n := 0) hbody
    have heq : output = ctx.dotGuard ++ ctx.globstar := by simpa using houtput
    refine ⟨tokens, ?_⟩
    rw [htokenize, Context.globstarTranslation, hno, heq]
    rfl
  · -- A globstar leads: behind it, the base and the extensions have no groups.
    have hno : ctx.options.noGlobstar = false := by simpa [hasTwoStars] using hglobstar
    have hlast : TokenKind.AdmitsAll text .slash last ∧
        last.foldl TokenKind.after .slash = .star := by
      simp only [List.mem_cons, List.not_mem_nil, or_false] at hmem
      rcases hmem with rfl | rfl | rfl <;>
        simp [TokenKind.AdmitsAll, TokenKind.Admits, hnext] <;> decide
    have hne : '*' :: '*' :: '/' :: last ≠ ['*', '*'] := by simp
    obtain ⟨tokens, htokenize⟩ :=
      tokenize_leading_extended ctx tail hno hbody htext hlast.1 hlast.2
    refine ⟨tokens, ?_⟩
    rw [htokenize, Context.globstarTranslation, hno, houtput' hne,
      List.append_assoc (ctx.dotGuard ++ ctx.leadingGlobstar)]
    rfl

end

/-! ### What the shortcuts look at -/

/-- Options that are the same as far as the shortcuts look. -/
structure ShortcutsAgree (options options' : Options) : Prop where
  dot : options.dot = options'.dot
  bash : options.bash = options'.bash
  windows : options.windows = options'.windows
  noGlobstar : options.noGlobstar = options'.noGlobstar
  strictSlashes : options.strictSlashes = options'.strictSlashes
  capture : options.capture = options'.capture

section
variable {options options' : Options} (h : ShortcutsAgree options options')
include h

theorem extendedShape?_congr (n : Nat) (extensions shape : List Char) :
    extendedShape? options n extensions shape = extendedShape? options' n extensions shape := by
  have hshape (shape : List Char) : shapeSource? options shape = shapeSource? options' shape := by
    unfold shapeSource?
    rw [h.dot, h.bash, h.windows, h.noGlobstar, h.capture]
  induction n generalizing extensions shape with
  | zero => rfl
  | succ n ih => simp only [extendedShape?, hshape, h.strictSlashes, h.windows, ih]

theorem shape?_congr (pattern : List Char) : shape? options pattern = shape? options' pattern := by
  unfold shape?
  simp only [extendedShape?_congr h, h.windows, h.noGlobstar]

theorem flat?_congr (star body : List Char) :
    flat? options star body = flat? options' star body := by
  have hsource (previous : Option Char) :
      flatSource options star previous body = flatSource options' star previous body := by
    induction body generalizing previous with
    | nil => rfl
    | cons c body ih => simp only [flatSource, ih, h.dot, h.windows]
  unfold flat? isFlat
  rw [hsource, h.bash, h.strictSlashes, h.windows]

end

/-! ### All patterns -/

section
variable (ctx : Context) (fastPaths : Bool) (tail : List Char → Except Error (List Char))

/-- The same, with or without the option for shortcuts. -/
def Context.withFastPaths : Context :=
  { ctx with options := { ctx.options with fastPaths } }

theorem step_withFastPaths (t : Tokenizer) (c : Char) :
    Tokenizer.step (ctx.withFastPaths fastPaths) tail t c = Tokenizer.step ctx tail t c := rfl

theorem finish_withFastPaths (t : Tokenizer) :
    t.finish (ctx.withFastPaths fastPaths) = t.finish ctx := rfl

theorem run_withFastPaths (n : Nat) (t : Tokenizer) :
    Tokenizer.run (ctx.withFastPaths fastPaths) tail n t = Tokenizer.run ctx tail n t := by
  induction n generalizing t with
  | zero => rfl
  | succ n ih =>
    unfold Tokenizer.run
    simp only [step_withFastPaths, ih]

/-- The tokenizer does not look at the option for shortcuts. -/
theorem tokenize_withFastPaths :
    (ctx.withFastPaths fastPaths).tokenize tail = ctx.tokenize tail := by
  unfold Context.tokenize
  simp only [finish_withFastPaths]
  exact congrArg (· >>= _) (run_withFastPaths ctx fastPaths tail _ _)

end

theorem normalize_of_not_mem {pattern : List Char} (h : '\\' ∉ pattern) :
    Separator.normalize pattern = pattern := by
  induction pattern with
  | nil => rfl
  | cons c pattern ih =>
    obtain ⟨hc, hpattern⟩ := not_or.mp fun hmem => h (List.mem_cons.mpr hmem)
    rw [Separator.normalize, Separator.normalizeFrom, if_pos (Ne.symm hc)]
    exact congrArg (c :: ·) (ih hpattern)

theorem not_mem_simplify {pattern : List Char} (h : '\\' ∉ pattern) :
    '\\' ∉ simplify pattern := by
  unfold simplify
  repeat' split
  all_goals first | exact h | decide

/-- The shape shortcut looks at the text that the tokenizer reads. -/
theorem shape?_eq_some {options : Options} {pattern : List Char} {shape : Shape}
    (h : shape? options pattern = some shape) :
    ∃ n output, extendedShape? options n [] (Context.ofPattern options pattern).body = some output ∧
      shape = ⟨output, (Context.ofPattern options pattern).dotSlash,
        hasTwoStars (Context.ofPattern options pattern).body && !options.noGlobstar⟩ := by
  unfold shape? at h
  simp only [Option.ite_none_left_eq_some] at h
  obtain ⟨hnot, h⟩ := h
  -- A shape has no backslashes, so there are no separators to normalize.
  have hnormal : (if options.windows then Separator.normalize (simplify pattern)
      else simplify pattern) = simplify pattern := by
    split
    case isTrue hwindows =>
      refine normalize_of_not_mem (not_mem_simplify fun hmem => hnot ?_)
      simp [hwindows, hmem]
    case isFalse => rfl
  obtain ⟨output, houtput, rfl⟩ := Option.map_eq_some_iff.mp h
  simp only [Context.ofPattern, hnormal]
  exact ⟨_, output, houtput, rfl⟩

/-- Whatever a pattern is translated by, the translation is the one of the tokenizer. -/
theorem translate_essence (options : Options) (tail : List Char → Except Error (List Char))
    (pattern : List Char) :
    (translate options tail pattern).map Translation.essence =
      ((Context.ofPattern options pattern).tokenize tail).map Translation.essence := by
  unfold translate
  dsimp only
  split
  case h_1 shape hshape =>
    split at hshape
    case isTrue =>
      obtain ⟨n, output, houtput, rfl⟩ := shape?_eq_some hshape
      obtain ⟨tokens, htokenize⟩ := tokenize_of_shape (Context.ofPattern options pattern) tail rfl
        houtput
      rw [htokenize]
      rfl
    case isFalse => exact absurd hshape (by simp)
  case h_2 =>
    split
    case h_1 output hflat =>
      split at hflat
      case isTrue =>
        obtain ⟨tokens, htokenize⟩ :=
          tokenize_of_flat (Context.ofPattern options pattern) tail hflat
        rw [htokenize]
        rfl
      case isFalse => exact absurd hflat (by simp)
    case h_2 => rfl

/-- Translations of all lengths do not depend on the option for shortcuts, but for the tokens
and for the note that a shortcut was taken. -/
theorem parseWithin_essence (depth : Nat) (options : Options) (fastPaths : Bool)
    (pattern : List Char) :
    (parseWithin depth { options with fastPaths } pattern).map Translation.essence =
      (parseWithin depth options pattern).map Translation.essence := by
  have hlimit : { options with fastPaths }.effectiveMaxLength = options.effectiveMaxLength := rfl
  unfold parseWithin
  dsimp only
  rw [hlimit]
  by_cases hlong : options.effectiveMaxLength < Text.byteSize pattern
  · rw [if_pos hlong, if_pos hlong]
  · by_cases hempty : pattern.isEmpty = true
    · rw [if_neg hlong, if_neg hlong, if_pos hempty, if_pos hempty]
    · -- Extensions after negated groups are translated without shortcuts anyway.
      rw [if_neg hlong, if_neg hlong, if_neg hempty, if_neg hempty, translate_essence,
        translate_essence]
      exact congrArg (Except.map _)
        (tokenize_withFastPaths (Context.ofPattern options pattern) fastPaths _)

end Pattern

open Pattern

/-- Translations do not depend on the option for shortcuts, but for the tokens and for the
note that a shortcut was taken. -/
theorem parse_essence (pattern : List Char) (options : Options) (fastPaths : Bool) :
    (parse pattern { options with fastPaths }).map Translation.essence =
      (parse pattern options).map Translation.essence :=
  parseWithin_essence pattern.length options fastPaths pattern

/-- With shortcuts and without them, a pattern has the same error or translations that differ
only in the tokens and in the note. -/
theorem parse_cases (pattern : List Char) (options : Options) :
    (∃ e, parse pattern { options with fastPaths := true } = .error e ∧
      parse pattern { options with fastPaths := false } = .error e) ∨
    ∃ fast slow, parse pattern { options with fastPaths := true } = .ok fast ∧
      parse pattern { options with fastPaths := false } = .ok slow ∧
      fast.essence = slow.essence := by
  have h := (parse_essence pattern options true).trans (parse_essence pattern options false).symm
  cases hfast : parse pattern { options with fastPaths := true } <;>
    cases hslow : parse pattern { options with fastPaths := false } <;>
    rw [hfast, hslow] at h
  case error.error fast slow =>
    obtain rfl : fast = slow := Except.error.inj h
    exact .inl ⟨fast, rfl, rfl⟩
  case error.ok | ok.error => exact absurd h (by simp [Except.map])
  case ok.ok fast slow => exact .inr ⟨fast, slow, rfl, rfl, Except.ok.inj h⟩

end PathGlob
