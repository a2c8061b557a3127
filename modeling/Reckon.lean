import Reckon.Binary64.Arith
import Reckon.Binary64.Basic
import Reckon.Binary64.Numeral
import Reckon.Cli
import Reckon.Code
import Reckon.Value
import Reckon.Grammar
import Reckon.Main
import Reckon.Session
import Reckon.Statement
import Reckon.Statement.OnDemand
import Reckon.Store
import Reckon.Text
import Reckon.Token
import Reckon.Token.Scanner
import Reckon.Proofs.Phrase
import Reckon.Proofs.Reader
import Reckon.Proofs.Parses
import Reckon.Proofs.Recognition
import Reckon.Proofs.Words
import Reckon.Proofs.Viable
import Reckon.Proofs.Evaluation
import Reckon.Proofs.Pattern
import Reckon.Proofs.Literal
import Reckon.Proofs.Longest
import Reckon.Proofs.Tiling
import Reckon.Proofs.Image
import Reckon.Proofs.History
import Reckon.Proofs.Productions
import Reckon.Proofs.Cuts
import Reckon.Proofs.Strays
import Reckon.Proofs.Notes
import Reckon.Proofs.LineFeeds
import Reckon.Proofs.Attribution
import Reckon.Proofs.Restore
import Reckon.Proofs.Dialogue
import Reckon.Proofs.Calls
import Reckon.Proofs.Independence
import Reckon.Proofs.Contagion
import Reckon.Proofs.Endings
import Reckon.Proofs.Levels
import Reckon.Proofs.Zeros
import Reckon.Proofs.Draining
import Reckon.Proofs.Laziness
import Reckon.Proofs.Listing
import Reckon.Proofs.Postfix
import Reckon.Proofs.Layout
import Reckon.Proofs.PrincipalRoot
import Reckon.Proofs.Intervals
import Reckon.Proofs.RealAxis
import Reckon.Proofs.RootRange
import Reckon.Proofs.Quotients
import Reckon.Proofs.Commuting
import Reckon.Proofs.LiteralParts
import Reckon.Proofs.Columns
