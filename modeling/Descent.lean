import Descent.Invocation
import Descent.Parser.Run
import Descent.Proofs.Cursor
import Descent.Proofs.Derivation
import Descent.Proofs.Expr.Bound
import Descent.Proofs.Expr.Chain
import Descent.Proofs.Expr.Primary
import Descent.Proofs.Expr.Reading
import Descent.Proofs.Expr.Rendered
import Descent.Proofs.Expr.Written
import Descent.Proofs.Factoring
import Descent.Proofs.First.Exactness
import Descent.Proofs.First.Factored
import Descent.Proofs.First.Fragments
import Descent.Proofs.First.Words
import Descent.Proofs.Follow
import Descent.Proofs.Parser.Code
import Descent.Proofs.Parser.Completeness
import Descent.Proofs.Parser.Depth
import Descent.Proofs.Parser.Peeking
import Descent.Proofs.Parser.Prediction
import Descent.Proofs.Parser.Soundness
import Descent.Proofs.Parser.Termination
import Descent.Proofs.Quoted
import Descent.Proofs.Source.Origin
import Descent.Proofs.Source.Reading
import Descent.Proofs.Source.Rendered
import Descent.Proofs.Source.Rules
import Descent.Proofs.Source.Steps
import Descent.Proofs.Token.Shape
import Descent.Proofs.Token.Writing
import Descent.Proofs.NormalForm
import Descent.Proofs.First.Answers
import Descent.Proofs.Shadowing
import Descent.Proofs.Parser.Guards
import Descent.Proofs.Parser.Listing
import Descent.Proofs.Arrangement
import Descent.Proofs.Mentions
import Descent.Proofs.Token.Language
import Descent.Proofs.Token.Munch
import Descent.Proofs.Lines
import Descent.Proofs.Token.Cutting
import Descent.Proofs.Keywords
import Descent.Proofs.Expr.Placeless
import Descent.Proofs.Source.Placeless
import Descent.Proofs.Layout
import Descent.Proofs.Expr.Opening
import Descent.Proofs.Expr.Raising
import Descent.Proofs.Expr.Trace
import Descent.Proofs.Parser.Failure
