import PathGlob.Pattern.Parse
import PathGlob.Regex.Program

/-!
# `PathGlob.Compile`: patterns made ready to match

The source of a translated pattern is anchored, negated and made blind to case as the
options say, and then read as a regular expression. A source that no dialect accepts
makes a pattern that matches nothing, or an error if that is asked for.
-/

set_option autoImplicit false

namespace PathGlob

open Pattern

/-- A compiled pattern. -/
structure Compiled where
  translation : Translation
  /-- The whole source. -/
  source : List Char
  /-- The program; missing if the source was refused. -/
  program : Option Regex.Program
  /-- Matches anywhere within a text. -/
  contains : Bool
  deriving DecidableEq, Repr

namespace Compiled

/-- The text matches. -/
def isMatch (compiled : Compiled) (text : List Char) : Bool :=
  compiled.program.any fun program => program.isMatch text

/-- The match of a text with its groups. -/
def find? (compiled : Compiled) (text : List Char) : Option Regex.Found :=
  compiled.program.bind fun program => program.find? text

/-- The source was refused, so that nothing matches. -/
def isNever (compiled : Compiled) : Bool := compiled.program.isNone

end Compiled

/-- The whole source of a translated pattern. -/
def sourceOf (translation : Translation) (options : Options) : List Char :=
  let body := ['(', '?', ':'] ++ translation.output ++ [')']
  let anchored := if options.contains then body else '^' :: body ++ ['$']
  let signed :=
    if translation.negated && !options.noNegate then
      ['^', '(', '?', '!'] ++ anchored ++ [')', '.', '*', '$']
    else anchored
  if options.noCase then ['(', '?', 'i', ')'] ++ signed else signed

/-- Makes a translated pattern ready to match. -/
def compile (translation : Translation) (options : Options) : Except Error Compiled :=
  let source := sourceOf translation options
  let program := Regex.Program.ofSource? source
  if program.isNone && options.debug then .error (.refused source)
  else .ok { translation, source, program, contains := options.contains }

/-- Translates a pattern and makes it ready to match. -/
def compilePattern (pattern : List Char) (options : Options) : Except Error Compiled := do
  compile (← parse pattern options) options

/-- Translates a pattern into its whole source. -/
def patternSource (pattern : List Char) (options : Options) : Except Error (List Char) := do
  return sourceOf (← parse pattern options) options

end PathGlob
