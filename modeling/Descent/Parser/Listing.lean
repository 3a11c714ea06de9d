import Descent.Parser

/-!
# Listings

A parser is written out as the source of a recursive descent parser: one
method for each rule, which builds the node of the rule while it takes
tokens. The source is **a flat run of tokens with one space between
each**. Listings are made of phrases, which are such runs already, and
joined in the end; texts from the grammar enter as JSON strings.
-/

namespace Descent.Listing

/-- Listings one after the other, with a separator between them. -/
def separated (separator : String) : List (List String) → List String
  | [] => []
  | [x] => x
  | x :: y :: r => x ++ separator :: separated separator (y :: r)

/-- The name of the method of a rule. -/
def method (rule : String) : String := "parse_" ++ rule

/-- A constant list of texts. -/
def texts (ss : List String) : List String :=
  "& [" :: separated "," (ss.map fun s => [Text.json s]) ++ ["]"]

/-- A single expectation. -/
def expectation : Expectation → List String
  | .literal s => ["runtime :: Expect :: Literal (", Text.json s, ")"]
  | .reserved s => ["runtime :: Expect :: Reserved (", Text.json s, ")"]

/-- A constant list of expectations. -/
def expectations (es : List Expectation) : List String :=
  "& [" :: separated "," (es.map expectation) ++ ["]"]

/-- **The source of a test.** -/
def guard : Guard → List String
  | .literal s => ["runtime :: at_literal ( & self . lexer ,", Text.json s, ")"]
  | .reserved s => ["runtime :: at_reserved ( & self . lexer ,", Text.json s, ")"]
  | .lookahead es => "runtime :: at_lookahead ( & self . lexer ," :: expectations es ++ [")"]
  | .expression => ["runtime :: at_expression ( & self . lexer , & self . operators )"]
  | .never => ["false"]

/-- The source of a failure that names what was expected. -/
def expected (labels : List String) : List String :=
  "return Err ( runtime :: expected ( & self . lexer ," :: texts labels ++ [") ) ;"]

/-- The source that adds a child to the node. -/
def child (sort : String) (value : List String) : List String :=
  "node . children . push ( runtime :: SyntaxElement ::" :: sort :: "(" :: value ++ [") ) ;"]

/-- **The source of code**, statement by statement. -/
def code : Code → List String
  | .skip => []
  | .seq first next => code first ++ code next
  | .literal s =>
    child "Token" ["runtime :: expect_literal ( & mut self . lexer ,", Text.json s, ") ?"]
  | .reserved s =>
    child "Token" ["runtime :: expect_reserved ( & mut self . lexer ,", Text.json s, ") ?"]
  | .call rule => child "Node" ["self .", method rule, "( ) ?"]
  | .expression power =>
    child "Expr" ["runtime :: expression ( & mut self . lexer , & self . operators ,",
      toString power.toNat ++ "u32", ") ?"]
  | .action text => child "Action" [Text.json text]
  | .recover anchors =>
    "node . children . extend ( runtime :: recover ( & mut self . lexer ," ::
      expectations anchors ++
      [") . into_iter ( ) . map ( runtime :: SyntaxElement :: Token ) , ) ;"]
  | .require wanted text =>
    "if ! runtime :: at_lookahead ( & self . lexer ," :: expectations wanted ++
      ") \x7b" :: expected [text] ++ ["\x7d"]
  | .fail message =>
    ["return Err ( runtime :: fail ( & self . lexer ,", Text.json message, ") ) ;"]
  | .reject labels => expected labels
  | .branch guards body otherwise =>
    "if" :: separated "||" (guards.map guard) ++ "\x7b" :: code body ++
      "\x7d else" :: code otherwise
  | .block body => "\x7b" :: code body ++ ["\x7d"]

/-- The type of what a method gives. -/
def result : String := "Result < runtime :: SyntaxNode , ParseError >"

/-- **The method of a rule.** -/
def definition (rule : String × Code) : List String :=
  ["pub fn", method rule.1, "( & mut self ) ->", result,
    "\x7b let mut node = runtime :: SyntaxNode :: new (", Text.json rule.1, ") ;"] ++
    code rule.2 ++ ["Ok ( node ) \x7d"]

/-- A line of documentation. -/
def doc (text : String) : List String := ["# [ doc =", Text.json text, "]"]

/-- The type of the parser and what it has besides the methods of
rules, up to the entry that runs the goal. -/
def preamble (goal : String) : List String :=
  ["pub struct Parser < L > \x7b lexer : L , operators : OperatorTable , \x7d",
    "impl < L : Lexer > Parser < L > \x7b",
    "pub fn new ( lexer : L ) -> Self \x7b",
    "Self :: with_operators ( lexer , OperatorTable :: standard ( ) ) \x7d"] ++
  doc " Uses `operators` for the expressions parsed by `precedence(n)`" ++
  ["pub fn with_operators ( lexer : L , operators : OperatorTable ) -> Self \x7b",
    "Self \x7b lexer , operators \x7d \x7d",
    "pub fn lexer ( & self ) -> & L \x7b & self . lexer \x7d",
    "pub fn into_lexer ( self ) -> L \x7b self . lexer \x7d"] ++
  doc " Parses the goal rule, which must span the whole input" ++
  ["pub fn parse ( & mut self ) ->", result, "\x7b let node = self .", method goal,
    "( ) ? ; runtime :: expect_end ( & self . lexer ) ? ; Ok ( node ) \x7d"]

/-- The entry that scans a text and parses it. -/
def entry : List String :=
  ["pub fn parse ( input : & str ) -> Result < runtime :: SyntaxNode , Error > \x7b",
    "let scanner = Scanner :: with_reserved ( input , RESERVED . iter ( ) . copied ( ) ) ? ;",
    "Ok ( Parser :: new ( scanner ) . parse ( ) ? ) \x7d"]

/-- **The phrases of a parser.** -/
def parser (p : Parser) : List String :=
  doc " Words the scanner reports as reserved tokens" ++
    "pub const RESERVED : & [ & str ] =" :: texts p.keywords ++ ";" ::
    preamble p.goal ++ p.methods.flatMap definition ++ "\x7d" :: entry

/-- **The phrases of a module that holds a parser.** -/
def wholeModule (p : Parser) : List String :=
  ["pub mod parser \x7b",
    "# ! [ allow ( non_snake_case , unused_mut , unreachable_code , dead_code ) ]",
    "use prong :: runtime ;",
    "use prong :: \x7b Error , Lexer , OperatorTable , ParseError , Scanner \x7d ;"] ++
    parser p ++ ["\x7d"]

/-- The text of a listing. -/
def text (phrases : List String) : String := " ".intercalate phrases

end Descent.Listing
