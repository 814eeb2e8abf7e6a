import MessageSelector.Main
import MessageSelector.Node.Shape
import MessageSelector.Proofs.Acceptance
import MessageSelector.Proofs.Accepted
import MessageSelector.Proofs.Agreement
import MessageSelector.Proofs.Canonical
import MessageSelector.Proofs.CanonicalLimit
import MessageSelector.Proofs.CompileErrors
import MessageSelector.Proofs.Conversion
import MessageSelector.Proofs.Culprits
import MessageSelector.Proofs.DepthLimit
import MessageSelector.Proofs.ErrorOffsets
import MessageSelector.Proofs.FiniteTerms
import MessageSelector.Proofs.FloatModel
import MessageSelector.Proofs.FloatReading
import MessageSelector.Proofs.Hints
import MessageSelector.Proofs.Information
import MessageSelector.Proofs.IntegerArithmetic
import MessageSelector.Proofs.LastWrites
import MessageSelector.Proofs.Layout
import MessageSelector.Proofs.LetterCase
import MessageSelector.Proofs.Likeness
import MessageSelector.Proofs.Membership
import MessageSelector.Proofs.Patterns
import MessageSelector.Proofs.Rederivation
import MessageSelector.Proofs.Regrouping
import MessageSelector.Proofs.Reparsing
import MessageSelector.Proofs.Resumption
import MessageSelector.Proofs.Scanning
import MessageSelector.Proofs.Selection
import MessageSelector.Proofs.Shape
import MessageSelector.Proofs.ShortestDigits
import MessageSelector.Proofs.TermPrinting
import MessageSelector.Proofs.TermReading
import MessageSelector.Proofs.TypeSoundness
import MessageSelector.Proofs.StringLiterals
import MessageSelector.Proofs.HexLiterals
import MessageSelector.Proofs.TableEntries
import MessageSelector.Proofs.Words
import MessageSelector.Proofs.Construction
import MessageSelector.Proofs.Lexemes
