import Stylesheet.Parse
import Stylesheet.Tree.Outline
import Stylesheet.Proofs.Problem.Outcome
import Stylesheet.Proofs.Cursor.Stop
import Stylesheet.Proofs.Tree.Prefix
import Stylesheet.Proofs.Tree.Height
import Stylesheet.Proofs.Written.Rendered
import Stylesheet.Proofs.Written.Reread
import Stylesheet.Proofs.Problem.Tally
import Stylesheet.Proofs.Tree.Order
import Stylesheet.Proofs.Reading.Complete
import Stylesheet.Proofs.Reading.Places
import Stylesheet.Proofs.Reading.Qualified
import Stylesheet.Proofs.Reading.WellFormed
import Stylesheet.Proofs.Reading.Respaced
import Stylesheet.Proofs.Grammar.Resumed
import Stylesheet.Proofs.Grammar.Block
import Stylesheet.Proofs.Grammar.AtRule
import Stylesheet.Proofs.Reading.Grouping
import Stylesheet.Proofs.Reading.PseudoClass
import Stylesheet.Proofs.Written.MediaRules
import Stylesheet.Proofs.Reading.Descriptors
import Stylesheet.Proofs.Token.Numeric
import Stylesheet.Proofs.Token.Unterminated
import Stylesheet.Proofs.Reading.Extent
import Stylesheet.Proofs.Written.Depth
