import PathGlob.Scan
import PathGlob.Text.Octets

/-!
# `PathGlob.Scan.Bytewise`: scanning the bytes of a pattern

The same pass, over the UTF-8 form of the pattern and one byte at a time. Its places are byte
offsets, and the pattern is cut at them. A cut beyond the end or within a character fails, and the
scan with it.
-/

set_option autoImplicit false

namespace PathGlob.Scan

open PathGlob.Text

/-- The byte offsets of the separators of a text, from its bytes. The first argument counts those
before. -/
def separatorOffsets (windows : Bool) : Nat → List Char → List Nat
  | _, [] => []
  | offset, c :: rest =>
    if c = '\\' && escapes windows rest.head? then
      match rest with
      | [] => []
      | _ :: rest => separatorOffsets windows (offset + 2) rest
    else if separates windows c rest.head? then
      offset :: separatorOffsets windows (offset + 1) rest
    else separatorOffsets windows (offset + 1) rest

/-- The pieces of a text between the bytes at the given offsets. The first argument counts the bytes
before the text. -/
def slices? : Nat → List Nat → List Char → Option (List (List Char))
  | _, [], text => some [text]
  | before, offset :: offsets, text => do
    let (piece, rest) ← cutAt? (offset - before) text
    let (_, rest) ← cutAt? 1 rest
    let pieces ← slices? (offset + 1) offsets rest
    return piece :: pieces

/-- The segments of a path, cut at the separators among its bytes. -/
def bytewiseParts? (windows : Bool) (text : List Char) : Option (List (List Char)) := do
  let segments ← slices? 0 (separatorOffsets windows 0 (octets text)) text
  return (dropFirstEmpty (dropFirstEmpty segments).reverse).reverse

/-- The base without its last byte if that is a separator, unless it is the root or everything. -/
def bytewiseTrim? (windows : Bool) (base whole : List Char) : Option (List Char) :=
  if base.isEmpty || base = ['/'] || byteSize base = byteSize whole then some base
  else match (octets base).getLast? with
    | some c =>
      if c = '/' || (c = '\\' && windows) then (cutAt? (byteSize base - 1) base).map Prod.fst
      else some base
    | none => some base

/-- Scans a pattern byte by byte. -/
def bytewise? (input : List Char) (options : Options) : Option Result := do
  let scanner := Scanner.run options (byteSize input) { rest := octets input }
  let (lead, whole) ← cutAt? scanner.start input
  let isGlob := scanner.first.isSome
  let split := if isGlob then scanner.lastSeparator - scanner.start else byteSize whole
  let (base, glob) ← cutAt? split whole
  let base ← bytewiseTrim? options.windows base whole
  let parts ← bytewiseParts? options.windows whole
  let clean (text : List Char) :=
    if options.unescape && scanner.hasEscapes then unescape text else text
  return {
    input
    lead
    base := clean base
    glob := clean glob
    start := scanner.first.getD (byteSize input)
    isGlob
    isBrace := scanner.isBrace
    isBracket := scanner.isBracket
    isExtglob := scanner.isExtglob
    isGlobstar := scanner.isGlobstar
    negated := scanner.negated
    negatedExtglob := scanner.negatedExtglob
    parts := if options.parts then some parts else none }

end PathGlob.Scan
