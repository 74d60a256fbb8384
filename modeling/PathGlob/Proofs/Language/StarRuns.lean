import PathGlob.Proofs.Compile
import PathGlob.Proofs.Pattern.Sound
import PathGlob.Proofs.Pattern.StarRuns
import PathGlob.Proofs.Regex.Omission

/-!
# `PathGlob.Proofs.Language.StarRuns`: a run of stars matches what one star does

Without globstars, a pattern and the one that has a single star for every run of stars have the
same source, but for the condition in the guard of a star that one more character follows. On a
text with a character wherever a segment begins that condition makes no difference, so there the
two patterns find the same, groups included (`isMatch_collapseStars`).

On other texts they may differ: `a/**` matches `a/`, and `a/*` does not. So may `**/**` and
`**/**/**`, which are simplified to two stars before they are read, whether these are a globstar
or not.
-/

set_option autoImplicit false

namespace PathGlob

open Regex Pattern

/-! ### The sources -/

section
variable {ctx : Context} (hwindows : ctx.options.windows = false)
include hwindows

theorem isGuardOf_starGuard {lead : Token} (hlead : lead.IsCommon)
    (hneeds : lead.kind.needsGuard = true) (hbos : lead.kind ≠ .bos) :
    IsGuardOf lead.source (ctx.starGuard lead.kind) := by
  have hsource (source : List Char) (hkind : lead.kind.leadSource? = some source) :
      lead.source = source := hlead.source_eq source hkind
  cases hkind : lead.kind with
  | bos => exact absurd hkind hbos
  | slash =>
    refine .inl ⟨hsource _ (by rw [hkind]; rfl), ctx.options.dot, ?_⟩
    simp [Context.starGuard, Context.dotGuard, hwindows]
  | dot =>
    refine .inr ⟨hsource _ (by rw [hkind]; rfl), ?_⟩
    simp [Context.starGuard, Context.windows, hwindows]
  | _ => simp [hkind, TokenKind.needsGuard, TokenKind.beginsSegment] at hneeds

variable (hstar : ctx.star = Fragment.star false) {text : List Char} (htext : HasCharacters text)
  {base : List (Level × GroupKind)} {s s' : Scan} {reader reader' : Reader}
include hstar htext

/-- A star is read all the same behind its guard and behind the complete one. -/
theorem rel_read_guarded {lead : Token} (hlead : lead.IsCommon)
    (hneeds : lead.kind.needsGuard = true) {oneChar : List Char}
    (hone : oneChar = [] ∨ oneChar = Fragment.oneChar)
    (hreader : reader.Alike text base reader') (htracks : s.Tracks base reader)
    (htracks' : s.Tracks base reader')
    (hfirst : lead.kind = .bos → s = .outside 0 ∧ reader.Rests {} base ∧ reader' = reader)
    (hscan : Regex.scan s ((lead.guarded (ctx.starGuard lead.kind ++ oneChar)).source ++ ctx.star) =
      some s') :
    Regex.scan s ((lead.guarded (ctx.starGuard lead.kind ++ Fragment.oneChar)).source ++ ctx.star) =
        some s' ∧
      Option.Rel (Reader.Alike text base)
        (reader.read ((lead.guarded (ctx.starGuard lead.kind ++ oneChar)).source ++ ctx.star))
        (reader'.read
          ((lead.guarded (ctx.starGuard lead.kind ++ Fragment.oneChar)).source ++ ctx.star)) := by
  obtain rfl | rfl := hone.symm
  · exact ⟨hscan, hreader.read htracks hscan⟩
  have hsource (guard : List Char) : (lead.guarded guard).source = lead.source ++ guard := rfl
  simp only [hsource, hstar, List.append_nil, List.append_assoc] at hscan ⊢
  by_cases hbos : lead.kind = .bos
  · obtain ⟨rfl, hrests, rfl⟩ := hfirst hbos
    have hguard : ctx.starGuard lead.kind = Fragment.dotGuard false ctx.options.dot := by
      simp [hbos, Context.starGuard, Context.dotGuard, hwindows]
    have hnil : lead.source = [] := hlead.source_eq [] (by rw [hbos]; rfl)
    have hneutral := Fragment.neutral_dotGuard false ctx.options.dot
    have hstar := Fragment.neutral_star false
    rw [hguard, hnil, List.nil_append] at hscan ⊢
    obtain rfl : Scan.outside 0 = s' := Option.some.inj ((hneutral.append hstar 0).symm.trans hscan)
    exact ⟨hneutral.append (neutral_oneChar.append hstar) 0,
      Reader.alike_start htext hrests.pending_eq hrests.mode_eq hrests.level_eq hrests.outer_eq _⟩
  · have hguard := isGuardOf_starGuard hwindows hlead hneeds hbos
    exact ⟨scan_omitted hguard hscan, hreader.read_omitted htext htracks htracks' hguard hscan⟩

/-- The sources of tokens that differ in the guards of stars are read alike. -/
theorem Pattern.Thins.rel_read {first : Bool} {tokens tokens' : List Token} {t t' : Scan}
    (h : Thins ctx first tokens tokens') (hreader : reader.Alike text base reader')
    (htracks : s.Tracks base reader) (htracks' : s.Tracks base reader')
    (hfirst : first = true → s = .outside 0 ∧ reader.Rests {} base ∧ reader' = reader)
    (hscan : Regex.scan s (tokens.flatMap Token.source) = some t)
    (hscan' : Regex.scan s (tokens'.flatMap Token.source) = some t') :
    Option.Rel (Reader.Alike text base) (reader.read (tokens.flatMap Token.source))
      (reader'.read (tokens'.flatMap Token.source)) := by
  induction h generalizing s reader reader' with
  | nil => exact .some hreader
  | @common first token tokens tokens' htoken _ h ih =>
    rw [List.flatMap_cons, scan_append, Option.bind_eq_some_iff] at hscan hscan'
    obtain ⟨middle, hone, hrest⟩ := hscan
    obtain ⟨middle', hother, hrest'⟩ := hscan'
    obtain rfl : middle = middle' := Option.some.inj (hone.symm.trans hother)
    exact Reader.rel_read_append htracks htracks' hone hother (hreader.read htracks hone)
      fun _ _ hnext htrack htrack' => ih hnext htrack htrack' (by simp) hrest hrest'
  | @guarded first lead star oneChar tokens tokens' hlead hneeds hbos hone _ _ hsource h ih =>
    simp only [List.flatMap_cons, hsource, ← List.append_assoc] at hscan hscan' ⊢
    rw [scan_append, Option.bind_eq_some_iff] at hscan hscan'
    obtain ⟨middle, hread, hrest⟩ := hscan
    obtain ⟨middle', hread', hrest'⟩ := hscan'
    obtain ⟨hsame, hrel⟩ := rel_read_guarded hwindows hstar htext hlead hneeds hone hreader htracks
      htracks' (fun hkind => hfirst (hbos hkind)) hread
    obtain rfl : middle = middle' := Option.some.inj (hsame.symm.trans hread')
    exact Reader.rel_read_append htracks htracks' hread hread' hrel
      fun _ _ hnext htrack htrack' => ih hnext htrack htrack' (by simp) hrest hrest'

/-- Between anchors, the sources of whole patterns are read alike. -/
theorem Pattern.Thins.sourcesAlike {tokens tokens' : List Token}
    (h : Thins ctx true tokens tokens') (hneutral : Neutral (tokens.flatMap Token.source))
    (hneutral' : Neutral (tokens'.flatMap Token.source)) :
    SourcesAlike text (tokens.flatMap Token.source) (tokens'.flatMap Token.source) := by
  intro outer reader hrests
  have hself : reader.Alike text outer reader :=
    Reader.alike_self text (by simp [hrests.mode_eq]) hrests.level_eq hrests.outer_eq
  exact h.rel_read hwindows hstar htext hself hrests.tracks hrests.tracks
    (fun _ => ⟨rfl, hrests, rfl⟩) (hneutral 0) (hneutral' 0)

end

/-! ### The patterns -/

theorem simplify_collapseStars (text : List Char) :
    simplify (collapseStars text) = collapseStars text := by
  have hne := collapseStars_ne_stars text
  rw [simplify, if_neg (hne _), if_neg (hne _), if_neg (hne _)]

theorem collapseStars_simplify {text : List Char} (htwo : text ≠ ['*', '*', '/', '*', '*'])
    (hthree : text ≠ ['*', '*', '/', '*', '*', '/', '*', '*']) :
    collapseStars (simplify text) = collapseStars text := by
  unfold simplify
  split
  case isTrue h =>
    subst h
    rfl
  case isFalse => rfl

theorem dropDotSlash_collapseStars (text : List Char) :
    (dropDotSlash (collapseStars text)).2 = collapseStars (dropDotSlash text).2 := by
  have hdrop {text : List Char} (h : text.head? = some '.' → text.tail.head? ≠ some '/') :
      (dropDotSlash text).2 = text := by
    unfold dropDotSlash
    split
    case h_1 => exact absurd rfl (h rfl)
    case h_2 => rfl
  cases text with
  | nil => rfl
  | cons c text =>
    have hcollapse : collapseStars (c :: text) = c :: collapseStarsFrom (c = '*') text := by
      simp [collapseStars, collapseStarsFrom]
    by_cases hdotSlash : c = '.' ∧ text.head? = some '/'
    · obtain ⟨rfl, hslash⟩ := hdotSlash
      obtain ⟨rest, rfl⟩ : ∃ rest, text = '/' :: rest :=
        ⟨text.tail, List.eq_cons_of_mem_head? hslash⟩
      rw [hcollapse]
      rfl
    · have hdot : c = '.' → text.head? ≠ some '/' := not_and.mp hdotSlash
      have hsame : (dropDotSlash (c :: text)).2 = c :: text := hdrop (by simpa using hdot)
      rw [hsame, hcollapse, hdrop]
      rw [List.head?_cons, Option.some.injEq, List.tail_cons]
      rintro rfl
      exact (head?_collapseStarsFrom_false text).trans_ne (hdot rfl)
section
variable {options : Options} {pattern : List Char}

theorem body_ofPattern_eq (hwindows : options.windows = false) (pattern : List Char) :
    (Context.ofPattern options pattern).body = (dropDotSlash (simplify pattern)).2 := by
  simp only [Context.ofPattern, hwindows, Bool.false_eq_true, if_false]

/-- What is read of the pattern with one star for every run. -/
theorem body_collapseStars (hwindows : options.windows = false)
    (htwo : pattern ≠ ['*', '*', '/', '*', '*'])
    (hthree : pattern ≠ ['*', '*', '/', '*', '*', '/', '*', '*']) :
    (Context.ofPattern options (collapseStars pattern)).body =
      collapseStars (Context.ofPattern options pattern).body := by
  rw [body_ofPattern_eq hwindows, body_ofPattern_eq hwindows, simplify_collapseStars,
    ← collapseStars_simplify htwo hthree, dropDotSlash_collapseStars]

/-- What is read of a pattern without delimiters has none. -/
theorem not_isDelimiter_body (hwindows : options.windows = false)
    (hpattern : ∀ c ∈ pattern, isDelimiter c = false) :
    ∀ c ∈ (Context.ofPattern options pattern).body, isDelimiter c = false := by
  have hsimplify : ∀ c ∈ simplify pattern, isDelimiter c = false := by
    unfold simplify
    split_ifs
    · simp [isDelimiter]
    · simp [isDelimiter]
    · simp [isDelimiter]
    · exact hpattern
  rw [body_ofPattern_eq hwindows]
  generalize simplify pattern = text at hsimplify
  unfold dropDotSlash
  split
  case h_1 rest =>
    exact fun c hc => hsimplify c (List.mem_cons_of_mem _ (List.mem_cons_of_mem _ hc))
  case h_2 => exact hsimplify

end

/-- Extensions after negated groups have sources with matching brackets. -/
theorem neutral_of_tail {options : Options} (hposix : options.posix = false)
    (hexpandRange : options.expandRange = none) {tail : List Char → Except Error (List Char)}
    (htail : ∀ text output, tail text = .ok output → ∃ depth inner,
      parseWithin depth { options with fastPaths := false } text = .ok inner ∧
        inner.output = output) (text output : List Char) (hok : tail text = .ok output) :
    Neutral output := by
  obtain ⟨depth, inner, hinner, rfl⟩ := htail text output hok
  have hposix' : { options with fastPaths := false }.posix = false := hposix
  have hexpandRange' : { options with fastPaths := false }.expandRange = none := hexpandRange
  exact neutral_parseWithin depth hposix' hexpandRange' hinner

theorem exists_compile_eq_ok {options : Options} (hdebug : options.debug = false)
    (translation : Translation) : ∃ compiled, compile translation options = .ok compiled ∧
      ∀ text, compiled.find? text =
        (Program.ofSource? (sourceOf translation options)).bind (·.find? text) := by
  refine ⟨⟨translation, sourceOf translation options,
    Program.ofSource? (sourceOf translation options), options.contains⟩, ?_, fun _ => rfl⟩
  rw [compile, hdebug, Bool.and_false, if_neg (by simp)]

theorem Compiled.isMatch_eq (compiled : Compiled) (text : List Char) :
    compiled.isMatch text = (compiled.find? text).isSome := by
  rw [isMatch, find?]
  cases compiled.program with
  | none => rfl
  | some program => exact Option.isSome_map.symm

section
variable {options : Options} (hplain : options.IsPlain) (hglobstar : options.noGlobstar = true)
  (hstrict : options.strictBrackets = false) (hposix : options.posix = false)
  (hexpandRange : options.expandRange = none) {pattern : List Char}
  (hpattern : ∀ c ∈ pattern, isDelimiter c = false) (hne : pattern ≠ [])
  (hsize : Text.byteSize pattern ≤ options.effectiveMaxLength)
  (htwo : pattern ≠ ['*', '*', '/', '*', '*'])
  (hthree : pattern ≠ ['*', '*', '/', '*', '*', '/', '*', '*'])
include hplain hglobstar hstrict hposix hexpandRange hpattern hne hsize htwo hthree

/-- The two translations are read alike. -/
theorem exists_parse_collapseStars : ∃ translation translation',
    parse pattern options = .ok translation ∧
      parse (collapseStars pattern) options = .ok translation' ∧
        translation'.negated = translation.negated ∧ Neutral translation.output ∧
          ∀ text, HasCharacters text →
            SourcesAlike text translation.output translation'.output := by
  let ctx := Context.ofPattern options pattern
  let other := Context.ofPattern options (collapseStars pattern)
  have hbody : other.body = collapseStars ctx.body :=
    body_collapseStars hplain.windows htwo hthree
  have hdelimiters : ∀ c ∈ ctx.body, isDelimiter c = false :=
    not_isDelimiter_body hplain.windows hpattern
  have hstar : ctx.star = Fragment.star false := by
    show starSource options = _
    simp [starSource, hplain.bash, hplain.capture, hplain.windows]
  have hnonempty : ctx.star ≠ [] := by
    rw [hstar]
    simp [Fragment.star]
  -- Neither text refers back, so the contexts differ in nothing but the texts.
  have hover : ctx.over other = other := by
    have hreference : ctx.hasReference = other.hasReference := by
      show refersBack ctx.body = refersBack other.body
      have hnone : '\\' ∉ ctx.body := fun hmem => absurd (hdelimiters _ hmem) (by decide)
      have hnone' : '\\' ∉ collapseStars ctx.body := fun hmem =>
        hnone ((collapseStarsFrom_sublist _ _).mem hmem)
      rw [hbody, refersBack_of_not_mem hnone, refersBack_of_not_mem hnone']
    show { other with hasReference := ctx.hasReference } = other
    rw [hreference]
  obtain ⟨tail, htail, hparse⟩ := exists_tail hsize hne
  obtain ⟨tail', -, hparse'⟩ := exists_tail
    (Nat.le_trans (byteSize_collapseStars_le pattern) hsize) (collapseStars_ne_nil hne)
  obtain ⟨emitted, emitted', htokenize, htokenize', hnegated, hthins⟩ :=
    ctx.tokenize_collapseStars other tail tail'
      ⟨hplain.windows, hplain.bash, hglobstar, hstrict⟩
      ⟨neutral_starSource options, hposix, hexpandRange⟩
      (neutral_of_tail hposix hexpandRange htail) hdelimiters hbody
  rw [hover] at htokenize'
  obtain ⟨result, hresult, houtput, hsign⟩ := hparse emitted htokenize
  obtain ⟨result', hresult', houtput', hsign'⟩ := hparse' emitted' htokenize'
  have hneutral := neutral_parseWithin _ hposix hexpandRange hresult
  have hneutral' := neutral_parseWithin _ hposix hexpandRange hresult'
  refine ⟨result, result', hresult, hresult', hsign'.trans (hnegated.trans hsign.symm), hneutral,
    fun text htext => ?_⟩
  have hsource := houtput.trans (Context.output_tokenize hnonempty htokenize)
  have hsource' := houtput'.trans (Context.output_tokenize
    (show other.star ≠ [] from hnonempty) htokenize')
  rw [hsource] at hneutral ⊢
  rw [hsource'] at hneutral' ⊢
  exact hthins.sourcesAlike hplain.windows hstar htext hneutral hneutral'

/-- Without globstars, a run of stars is like one star to every text in which some character
follows wherever a segment begins: the pattern and the one with a single star for every run match
it with the same groups, or neither does. -/
theorem isMatch_collapseStars (hdebug : options.debug = false) :
    ∃ compiled compiled', compilePattern pattern options = .ok compiled ∧
      compilePattern (collapseStars pattern) options = .ok compiled' ∧
        ∀ text, HasCharacters text → compiled'.isMatch text = compiled.isMatch text ∧
          compiled'.find? text = compiled.find? text := by
  obtain ⟨translation, translation', hparse, hparse', hnegated, hneutral, halike⟩ :=
    exists_parse_collapseStars hplain hglobstar hstrict hposix hexpandRange hpattern hne hsize htwo
      hthree
  obtain ⟨compiled, hcompile, hfind⟩ := exists_compile_eq_ok hdebug translation
  obtain ⟨compiled', hcompile', hfind'⟩ := exists_compile_eq_ok hdebug translation'
  refine ⟨compiled, compiled', ?_, ?_, fun text htext => ?_⟩
  · rw [compilePattern, hparse]
    exact hcompile
  · rw [compilePattern, hparse']
    exact hcompile'
  · have hfound : compiled'.find? text = compiled.find? text := by
      rw [hfind, hfind']
      exact (find?_eq_of_sourcesAlike hplain.contains hplain.noCase hnegated hneutral
        (halike text htext)).symm
    exact ⟨by rw [Compiled.isMatch_eq, Compiled.isMatch_eq, hfound], hfound⟩

end

/-- Behind a separator, two stars match what one does, and they are no globstar. -/
theorem isMatch_collapseStars_trailing : ∃ compiled compiled',
    compilePattern ['a', '/', '*', '*'] { noGlobstar := true } = .ok compiled ∧
      compilePattern ['a', '/', '*'] { noGlobstar := true } = .ok compiled' ∧
        compiled'.isMatch ['a', '/', 'b'] = compiled.isMatch ['a', '/', 'b'] ∧
          compiled'.find? ['a', '/', 'b'] = compiled.find? ['a', '/', 'b'] := by
  have hplain : ({ noGlobstar := true } : Options).IsPlain := ⟨rfl, rfl, rfl, rfl, rfl⟩
  obtain ⟨compiled, compiled', hcompile, hcompile', hsame⟩ :=
    isMatch_collapseStars hplain rfl rfl rfl rfl
      (show ∀ c ∈ ['a', '/', '*', '*'], isDelimiter c = false by simp [isDelimiter]) (by simp)
      (by decide) (by simp) (by simp) rfl
  exact ⟨compiled, compiled', hcompile, hcompile',
    hsame ['a', '/', 'b'] ⟨by simp, by simp, by simp⟩⟩

end PathGlob
