import PathGlob.Compile
import PathGlob.Matcher.Shortcut

/-!
# `PathGlob.Matcher`: patterns composed into a predicate

A matcher accepts a text if one of its patterns matches it and no ignore pattern does.
Along with the verdict it yields the events that observers are told, in order: one
result for each pattern that was compared, and then whether the text matched or was
ignored.
-/

set_option autoImplicit false

namespace PathGlob

/-- How a pattern is matched. -/
inductive Strategy where
  | direct (shortcut : Shortcut)
  | compiled (pattern : Compiled)
  deriving DecidableEq, Repr

/-- A pattern of a matcher. -/
structure Candidate where
  glob : List Char
  strategy : Strategy
  /-- The pattern has a separator, so it is never compared with the last segment only. -/
  hasSeparator : Bool
  deriving DecidableEq, Repr

namespace Candidate

/-- Makes a pattern ready to match. -/
def ofGlob (options : Options) (glob : List Char) : Except Error Candidate :=
  let limit := options.effectiveMaxLength
  if limit < Text.byteSize glob then .error (.tooLong (Text.byteSize glob) limit)
  else if glob.isEmpty then .error .empty
  else
    let hasSeparator := glob.contains '/' || (options.windows && glob.contains '\\')
    match Shortcut.ofGlob? options glob with
    | some shortcut => .ok ⟨glob, .direct shortcut, hasSeparator⟩
    | none => do
      let pattern ← compilePattern glob options
      return ⟨glob, .compiled pattern, hasSeparator⟩

/-- The pattern matches the text. -/
def accepts (candidate : Candidate) (options : Options) (text : List Char) : Bool :=
  match candidate.strategy with
  | .direct shortcut => shortcut.accepts options candidate.glob text
  | .compiled pattern => pattern.isMatch text

/-- The compiled pattern, unless the pattern is matched directly. -/
def compiled? (candidate : Candidate) : Option Compiled :=
  match candidate.strategy with
  | .direct _ => none
  | .compiled pattern => some pattern

end Candidate

/-- What observers are told. -/
inductive EventKind where
  | result
  | matched
  | ignored
  deriving DecidableEq, Repr

/-- One call of an observer. -/
structure Event where
  kind : EventKind
  glob : List Char
  /-- The text as given. -/
  input : List Char
  /-- The text after formatting. -/
  output : List Char
  isMatch : Bool
  deriving DecidableEq, Repr

/-- An observer for the event is installed. -/
def Observers.sees (observers : Observers) (event : Event) : Bool :=
  match event.kind with
  | .result => observers.results
  | .matched => observers.matched
  | .ignored => observers.ignored

/-- The last segment of a path, not counting an empty one at the end. -/
def lastSegment (path : List Char) : List Char :=
  (Text.pieces '/' (Text.dropTrailingSlash path)).getLast?.getD []

/-- A text as it is matched. -/
def Options.formatted (options : Options) (input : List Char) : List Char :=
  match options.format with
  | some format => format input
  | none => if options.windows then Separator.toSlashes input else input

/-- Patterns composed into a predicate. -/
structure Matcher where
  options : Options
  patterns : List Candidate
  /-- The ignore patterns. -/
  vetoes : List Candidate

namespace Matcher

/-- Composes patterns, of which there has to be at least one. -/
def ofGlobs (globs : List (List Char)) (options : Options) : Except Error Matcher := do
  if globs.isEmpty then throw .empty
  let patterns ← globs.mapM (Candidate.ofGlob options)
  let vetoes ← options.ignore.mapM (Candidate.ofGlob options.forIgnore)
  return ⟨options, patterns, vetoes⟩

/-- The pattern matches the text, given as it is matched, or its last segment. -/
def compares (options : Options) (output : List Char) (candidate : Candidate) : Bool :=
  let text :=
    if options.baseName && !candidate.hasSeparator then lastSegment output else output
  candidate.accepts options text

/-- An ignore pattern matches the text. -/
def isIgnored (matcher : Matcher) (input : List Char) : Bool :=
  let options := matcher.options.forIgnore
  matcher.vetoes.any (compares options (options.formatted input))

/-- The verdict on a text, and all events on the way to it. -/
def judge (matcher : Matcher) (input output : List Char) : List Candidate → Bool × List Event
  | [] => (false, [])
  | candidate :: candidates =>
    let isMatch := compares matcher.options output candidate
    let event (kind : EventKind) (isMatch : Bool) : Event :=
      ⟨kind, candidate.glob, input, output, isMatch⟩
    if !isMatch then
      let (verdict, events) := judge matcher input output candidates
      (verdict, event .result false :: events)
    else if matcher.isIgnored input then (false, [event .result true, event .ignored false])
    else (true, [event .result true, event .matched true])

/-- The verdict on a text and the events that observers are told. The empty text is never
matched; that is told as a result for the first pattern. -/
def report (matcher : Matcher) (input : List Char) : Bool × List Event :=
  let (verdict, events) :=
    if input.isEmpty then
      (false, (matcher.patterns.take 1).map fun candidate =>
        (⟨.result, candidate.glob, input, input, false⟩ : Event))
    else matcher.judge input (matcher.options.formatted input) matcher.patterns
  (verdict, events.filter matcher.options.observers.sees)

/-- The matcher accepts the text. -/
def isMatch (matcher : Matcher) (input : List Char) : Bool := (matcher.report input).1

/-- The patterns that are matched by a regular expression. -/
def compiled (matcher : Matcher) : List Compiled := matcher.patterns.filterMap Candidate.compiled?

/-- The texts that the matcher accepts. -/
def filter (matcher : Matcher) (inputs : List (List Char)) : List (List Char) :=
  inputs.filter matcher.isMatch

end Matcher

/-- One of the patterns matches the text, and no ignore pattern does. -/
def isMatch (input : List Char) (globs : List (List Char)) (options : Options) :
    Except Error Bool :=
  return (← Matcher.ofGlobs globs options).isMatch input

/-- The pattern, if it has no separator, matches the last segment of the text. -/
def matchBase (input glob : List Char) (options : Options) : Except Error Bool :=
  isMatch input [glob] { options with baseName := true }

end PathGlob
