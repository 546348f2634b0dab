import Treewalk.Number.Shortest
import Treewalk.Token.Basic

/-!
# From text to tokens

A text is cut into pieces from left to right: blanks, comments, tokens and faults. `Piece.first c
cs` is the piece that starts at the character `c` with `cs` after it; it always covers `c`, so
that `cut` needs no bound but the text. `scan` keeps the tokens and the faults apart, with the
place where the text ends.
-/

namespace Treewalk

/-- What can be wrong with the characters of a text. -/
inductive LexicalFault where
  | unexpected (c : Char)
  | openString
  | openComment
deriving DecidableEq, Repr

/-- The wording of a fault. -/
def LexicalFault.message : LexicalFault → String
  | .unexpected c => "Unexpected character '" ++ c.toString ++ "'."
  | .openString => "Unterminated string."
  | .openComment => "Unterminated block comment."

namespace Lexer

/-- Blanks stand between tokens and mean nothing. -/
def isBlank (c : Char) : Bool := c == ' ' || c == '\t' || c == '\r' || c == '\n'

/-- Names start with an ASCII letter or an underscore. -/
def isNameStart (c : Char) : Bool := c.isAlpha || c == '_'

/-- Names go on with ASCII letters, digits and underscores. -/
def isNamePart (c : Char) : Bool := isNameStart c || c.isDigit

/-- The character that `c` stands for after a backslash. -/
def unescape : Char → Char
  | 'n' => '\n'
  | 't' => '\t'
  | 'r' => '\r'
  | '0' => '\x00'
  | c => c

/-- The characters up to the first `*/`, with it; nothing if there is none. -/
def commentRest? : List Char → Option (List Char)
  | '*' :: '/' :: _ => some ['*', '/']
  | c :: cs => (commentRest? cs).map (c :: ·)
  | [] => none

/-- The characters up to the closing quote, with it, and the string that they write; nothing if no
quote closes it. -/
def stringRest? : List Char → Option (List Char × List Char)
  | '"' :: _ => some (['"'], [])
  | '\\' :: c :: cs =>
    (stringRest? cs).map fun (taken, value) => ('\\' :: c :: taken, unescape c :: value)
  | ['\\'] => none
  | c :: cs => (stringRest? cs).map fun (taken, value) => (c :: taken, c :: value)
  | [] => none

/-- The point and the digits of a fraction, if a digit follows the point. -/
def fraction : List Char → List Char
  | '.' :: cs => if cs.head?.any Char.isDigit then '.' :: cs.takeWhile Char.isDigit else []
  | _ => []

/-- The number that a run of digits writes. -/
def digitsValue (ds : List Char) : Nat := ds.foldl (fun n d => 10 * n + (d.toNat - '0'.toNat)) 0

/-- The number with the digits `whole` before the point and `part`, a point and digits or nothing,
after them. -/
def numberValue (whole part : List Char) : Float :=
  let places := part.drop 1
  Number.ofDecimal (digitsValue (whole ++ places)) places.length

/-- A word is a keyword or a name. -/
def wordKind (word : String) : Token.Kind :=
  match Keyword.ofWord? word with
  | some k => .keyword k
  | none => .identifier word

/-- What a piece of text is. -/
inductive Form where
  | blank
  | comment
  | token (kind : Token.Kind)
  | fault (f : LexicalFault)
deriving DecidableEq, Repr

end Lexer

/-- A piece of text: its characters and what they are. -/
structure Piece where
  taken : List Char
  form : Lexer.Form
deriving DecidableEq, Repr

namespace Piece

open Lexer

/-- The piece of a symbol, alone or with an equals sign. -/
def ofSymbol (s : Symbol) (c : Char) (cs : List Char) : Piece :=
  match s.withEqual?, cs with
  | some t, '=' :: _ => ⟨[c, '='], .token (.symbol t)⟩
  | _, _ => ⟨[c], .token (.symbol s)⟩

/-- The piece that starts with `c` where `cs` follows. -/
def first (c : Char) (cs : List Char) : Piece :=
  if isBlank c then ⟨[c], .blank⟩
  else if c == '"' then
    match stringRest? cs with
    | some (taken, value) => ⟨c :: taken, .token (.string (String.ofList value))⟩
    | none => ⟨c :: cs, .fault .openString⟩
  else if c == '/' && cs.head? == some '/' then ⟨c :: cs.takeWhile (· != '\n'), .comment⟩
  else if c == '/' && cs.head? == some '*' then
    match commentRest? (cs.drop 1) with
    | some taken => ⟨c :: '*' :: taken, .comment⟩
    | none => ⟨c :: cs, .fault .openComment⟩
  else if c.isDigit then
    let whole := c :: cs.takeWhile Char.isDigit
    let part := fraction (cs.dropWhile Char.isDigit)
    ⟨whole ++ part, .token (.number (numberValue whole part))⟩
  else if isNameStart c then
    let word := c :: cs.takeWhile isNamePart
    ⟨word, .token (wordKind (String.ofList word))⟩
  else
    match Symbol.ofChar? c with
    | some s => ofSymbol s c cs
    | none => ⟨[c], .fault (.unexpected c)⟩

/-- The token that the piece is, if it is one and starts at `p`. -/
def token? (piece : Piece) (file : Option String) (p : Pos) : Option Token :=
  match piece.form with
  | .token kind => some { kind, lexeme := String.ofList piece.taken, pos := p, file }
  | _ => none

/-- The fault that the piece is, if it is one and starts at `p`. -/
def fault? (piece : Piece) (p : Pos) : Option (Pos × LexicalFault) :=
  match piece.form with
  | .fault f => some (p, f)
  | _ => none

end Piece

namespace Lexer

/-- The pieces of a text that starts at `p`, last first, before those of `acc`. `covered` counts the
characters ahead that belong to the piece found last. -/
def cut : List Char → (covered : Nat) → (p : Pos) → (acc : List (Pos × Piece)) → List (Pos × Piece)
  | [], _, _, acc => acc
  | c :: cs, n + 1, p, acc => cut cs n (p.after c) acc
  | c :: cs, 0, p, acc =>
    let piece := Piece.first c cs
    cut cs (piece.taken.length - 1) (p.after c) ((p, piece) :: acc)

/-- The pieces of a text in their order, each with its place. -/
def pieces (cs : List Char) : List (Pos × Piece) := (cut cs 0 Pos.start []).reverse

end Lexer

/-- A text taken apart: its tokens, what is wrong with it, and where it ends. -/
structure Scan where
  tokens : List Token
  faults : List (Pos × LexicalFault)
  stop : Pos
deriving DecidableEq, Repr

/-- Reads `text` into tokens that belong to `file`. A fault never ends the reading. -/
def scan (file : Option String) (text : String) : Scan :=
  let cs := text.toList
  let found := Lexer.pieces cs
  { tokens := found.filterMap fun (p, piece) => piece.token? file p
    faults := found.filterMap fun (p, piece) => piece.fault? p
    stop := Pos.start.past cs }

end Treewalk
