import GoSyntax.Grammar.Session
import GoSyntax.Command
import GoSyntax.Main
import GoSyntax.Proofs.Utf8
import GoSyntax.Proofs.Tiling
import GoSyntax.Proofs.Numerals
import GoSyntax.Proofs.Semicolons
import GoSyntax.Proofs.Defects
import GoSyntax.Proofs.ParamLists
import GoSyntax.Proofs.RoundTrip
import GoSyntax.Proofs.Expressions
import GoSyntax.Proofs.TypeGrammar
import GoSyntax.Proofs.Termination
import GoSyntax.Proofs.Decoding
import GoSyntax.Proofs.FileGrammar
import GoSyntax.Proofs.Comments
import GoSyntax.Proofs.Nesting
import GoSyntax.Proofs.Delivery
import GoSyntax.Proofs.LexicalErrors
import GoSyntax.Proofs.Identifiers
import GoSyntax.Proofs.Quotations
import GoSyntax.Proofs.LongestMatch
import GoSyntax.Proofs.Positions
import GoSyntax.Proofs.TreeHeight
import GoSyntax.Proofs.Bodies
import GoSyntax.Proofs.Exponents
import GoSyntax.Proofs.FailedReads
import GoSyntax.Proofs.Extents
import GoSyntax.Proofs.Levels
import GoSyntax.Proofs.Spacing
import GoSyntax.Proofs.Occasions
