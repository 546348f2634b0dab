/-!
# Tokens

A token is a piece of source text with what it stands for and where it starts. `Kind` says what it
stands for: a symbol, a keyword, a name, a string or a number.
-/

namespace Treewalk

/-- A place in a text: line and column, both from one. A column counts characters. -/
structure Pos where
  line : Nat
  column : Nat
deriving DecidableEq, Repr, Inhabited

namespace Pos

/-- Where a text starts. -/
def start : Pos := ⟨1, 1⟩

/-- The place after the character `c`. -/
def after (p : Pos) (c : Char) : Pos :=
  if c = '\n' then ⟨p.line + 1, 1⟩ else ⟨p.line, p.column + 1⟩

/-- The place after all of `cs`. -/
def past (p : Pos) (cs : List Char) : Pos := cs.foldl after p

/-- A place as text. -/
def text (p : Pos) : String := s!"{p.line}:{p.column}"

end Pos

/-- The words that are not names. -/
inductive Keyword where
  | and | break | cls | continue | else | expose | false | fun | for | if | imports | module | nil
  | or | print | return | static | super | this | true | var | while
deriving DecidableEq, Repr

namespace Keyword

/-- All keywords with their spelling. -/
def spellings : List (String × Keyword) :=
  [("and", .and), ("break", .break), ("class", .cls), ("continue", .continue), ("else", .else),
   ("expose", .expose), ("false", .false), ("fun", .fun), ("for", .for), ("if", .if),
   ("import", .imports), ("module", .module), ("nil", .nil), ("or", .or), ("print", .print),
   ("return", .return), ("static", .static), ("super", .super), ("this", .this), ("true", .true),
   ("var", .var), ("while", .while)]

/-- The keyword spelled `word`. -/
def ofWord? (word : String) : Option Keyword := spellings.lookup word

end Keyword

/-- Punctuation and operators. -/
inductive Symbol where
  | leftParen | rightParen | leftBrace | rightBrace | leftBracket | rightBracket
  | comma | dot | colon | question | semicolon
  | plus | minus | star | slash | percent
  | plusEqual | minusEqual | starEqual | slashEqual | percentEqual
  | bang | bangEqual | equal | equalEqual | greater | greaterEqual | less | lessEqual
deriving DecidableEq, Repr

namespace Symbol

/-- The symbol a character stands for by itself. -/
def ofChar? : Char → Option Symbol
  | '(' => some .leftParen
  | ')' => some .rightParen
  | '{' => some .leftBrace
  | '}' => some .rightBrace
  | '[' => some .leftBracket
  | ']' => some .rightBracket
  | ',' => some .comma
  | '.' => some .dot
  | ':' => some .colon
  | '?' => some .question
  | ';' => some .semicolon
  | '+' => some .plus
  | '-' => some .minus
  | '*' => some .star
  | '/' => some .slash
  | '%' => some .percent
  | '!' => some .bang
  | '=' => some .equal
  | '>' => some .greater
  | '<' => some .less
  | _ => none

/-- The symbol that a following equals sign turns this one into. -/
def withEqual? : Symbol → Option Symbol
  | .plus => some .plusEqual
  | .minus => some .minusEqual
  | .star => some .starEqual
  | .slash => some .slashEqual
  | .percent => some .percentEqual
  | .bang => some .bangEqual
  | .equal => some .equalEqual
  | .greater => some .greaterEqual
  | .less => some .lessEqual
  | _ => none

/-- The plain operator that a compound assignment operator applies. -/
def compoundBase? : Symbol → Option Symbol
  | .plusEqual => some .plus
  | .minusEqual => some .minus
  | .starEqual => some .star
  | .slashEqual => some .slash
  | .percentEqual => some .percent
  | _ => none

end Symbol

namespace Token

/-- What a token stands for. A string comes with its escapes already replaced. -/
inductive Kind where
  | symbol (s : Symbol)
  | keyword (k : Keyword)
  | identifier (name : String)
  | string (value : String)
  | number (value : Float)
deriving DecidableEq, Repr

end Token

/-- A piece of source text: what it stands for, its characters, and where it starts. -/
structure Token where
  kind : Token.Kind
  lexeme : String
  pos : Pos
  /-- The file the token was read from, if any. -/
  file : Option String
deriving DecidableEq, Repr

namespace Token

instance : Inhabited Token := ⟨⟨.keyword .nil, "nil", Pos.start, none⟩⟩

/-- A token that no text spells out, placed where `at_` stands. -/
def placed (kind : Kind) (lexeme : String) (at_ : Token) : Token :=
  { kind, lexeme, pos := at_.pos, file := at_.file }

/-- Whether the token is the symbol `s`. -/
def isSymbol (t : Token) (s : Symbol) : Bool := t.kind == .symbol s

/-- Whether the token is the keyword `k`. -/
def isKeyword (t : Token) (k : Keyword) : Bool := t.kind == .keyword k

/-- Whether the token is a name. -/
def isIdentifier (t : Token) : Bool := t.kind matches .identifier _

/-- The symbol that the token is, if it is one. -/
def symbol? (t : Token) : Option Symbol :=
  match t.kind with
  | .symbol s => some s
  | _ => none

end Token

end Treewalk
