import PathGlob.Matcher
import PathGlob.Proofs.Language.Anchoring
import PathGlob.Proofs.Language.Braces
import PathGlob.Proofs.Language.Captures
import PathGlob.Proofs.Language.Classes
import PathGlob.Proofs.Language.Excluded
import PathGlob.Proofs.Language.Extglobs
import PathGlob.Proofs.Language.Hidden
import PathGlob.Proofs.Language.NegatedBrackets
import PathGlob.Proofs.Language.Negation
import PathGlob.Proofs.Language.Ranges
import PathGlob.Proofs.Language.StarRuns
import PathGlob.Proofs.Language.Unclosed
import PathGlob.Proofs.Matcher.Composition
import PathGlob.Proofs.Matcher.LastSegment
import PathGlob.Proofs.Pattern.ClassNames
import PathGlob.Proofs.Pattern.Grounded
import PathGlob.Proofs.Pattern.Nesting
import PathGlob.Proofs.Pattern.Sound
import PathGlob.Proofs.Pattern.Synced
import PathGlob.Proofs.Pattern.Unbalanced
import PathGlob.Proofs.Pattern.Uncaptured
import PathGlob.Proofs.Range.Partition
import PathGlob.Proofs.Scan.Normalized
import PathGlob.Proofs.Scan.Rooted
import PathGlob.Proofs.Scan.ToEnd
import PathGlob.Proofs.Scan.Unescape
import PathGlob.Regex.Sweep.Complete
import PathGlob.Scan
