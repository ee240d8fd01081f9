/-
Tokens, the words of the language.

* `Token.Kind` — what a token is;
* `Literal` — the value that a token stands for by itself;
* `Token` — a kind, the text it was written with, a value and a place;
* `Token.Kind.ofWord` — reserved words;
* `Token.render` — the text of a token in a listing.
-/
import Lox.Number.Written
import Lox.Source
import Lox.Text.Quoted

namespace Lox

/-- A value that is written down in the source. -/
inductive Literal where
  | nil
  | bool (b : Bool)
  | number (x : Float)
  | text (s : String)
  deriving Inhabited

/-- What a token is. -/
inductive Token.Kind where
  | leftParen | rightParen | leftBrace | rightBrace
  | comma | dot | minus | plus | semicolon | slash | star
  | bang | bangEqual | equal | equalEqual
  | greater | greaterEqual | less | lessEqual
  | identifier | string | number
  | andKeyword | breakKeyword | classKeyword | elseKeyword | falseKeyword
  | forKeyword | funKeyword | ifKeyword | nilKeyword | orKeyword
  | printKeyword | returnKeyword | superKeyword | thisKeyword | trueKeyword
  | varKeyword | whileKeyword
  | endOfInput
  deriving DecidableEq, Repr, Inhabited

/-- A token of a source text. -/
structure Token where
  kind : Token.Kind
  /-- The text the token was written with. -/
  lexeme : String := ""
  literal : Literal := .nil
  span : Span := default
  deriving Inhabited

namespace Token

namespace Kind

/-- Every kind, in the order of their introduction above. -/
def all : List Kind :=
  [leftParen, rightParen, leftBrace, rightBrace,
   comma, dot, minus, plus, semicolon, slash, star,
   bang, bangEqual, equal, equalEqual,
   greater, greaterEqual, less, lessEqual,
   identifier, string, number,
   andKeyword, breakKeyword, classKeyword, elseKeyword, falseKeyword,
   forKeyword, funKeyword, ifKeyword, nilKeyword, orKeyword,
   printKeyword, returnKeyword, superKeyword, thisKeyword, trueKeyword,
   varKeyword, whileKeyword,
   endOfInput]

/-- The name of a kind in a listing. -/
def name : Kind → String
  | leftParen => "LEFT_PAREN"
  | rightParen => "RIGHT_PAREN"
  | leftBrace => "LEFT_BRACE"
  | rightBrace => "RIGHT_BRACE"
  | comma => "COMMA"
  | dot => "DOT"
  | minus => "MINUS"
  | plus => "PLUS"
  | semicolon => "SEMICOLON"
  | slash => "SLASH"
  | star => "STAR"
  | bang => "BANG"
  | bangEqual => "BANG_EQUAL"
  | equal => "EQUAL"
  | equalEqual => "EQUAL_EQUAL"
  | greater => "GREATER"
  | greaterEqual => "GREATER_EQUAL"
  | less => "LESS"
  | lessEqual => "LESS_EQUAL"
  | identifier => "IDENTIFIER"
  | string => "STRING"
  | number => "NUMBER"
  | andKeyword => "AND"
  | breakKeyword => "BREAK"
  | classKeyword => "CLASS"
  | elseKeyword => "ELSE"
  | falseKeyword => "FALSE"
  | forKeyword => "FOR"
  | funKeyword => "FUN"
  | ifKeyword => "IF"
  | nilKeyword => "NIL"
  | orKeyword => "OR"
  | printKeyword => "PRINT"
  | returnKeyword => "RETURN"
  | superKeyword => "SUPER"
  | thisKeyword => "THIS"
  | trueKeyword => "TRUE"
  | varKeyword => "VAR"
  | whileKeyword => "WHILE"
  | endOfInput => "EOF"

/-- The kind with a given name. -/
def ofName? (s : String) : Option Kind :=
  all.find? (·.name == s)

/-- The reserved words. -/
def reserved : List (String × Kind) :=
  [("and", andKeyword), ("break", breakKeyword), ("class", classKeyword),
   ("else", elseKeyword), ("false", falseKeyword), ("for", forKeyword),
   ("fun", funKeyword), ("if", ifKeyword), ("nil", nilKeyword),
   ("or", orKeyword), ("print", printKeyword), ("return", returnKeyword),
   ("super", superKeyword), ("this", thisKeyword), ("true", trueKeyword),
   ("var", varKeyword), ("while", whileKeyword)]

/-- The kind of a word: a reserved word's own, or an identifier. -/
def ofWord (w : String) : Kind :=
  (reserved.lookup w).getD identifier

/-- The value that a word stands for by itself. -/
def literal : Kind → Literal
  | trueKeyword => .bool true
  | falseKeyword => .bool false
  | _ => .nil

/-- Whether a kind begins a declaration or a statement with a word of its
own, so that reading can resume there after a mistake. -/
def startsStatement : Kind → Bool
  | classKeyword | funKeyword | varKeyword | forKeyword | ifKeyword
  | whileKeyword | printKeyword | returnKeyword => true
  | _ => false

end Kind

/-- The line a token starts on. -/
def line (t : Token) : Nat :=
  t.span.start.line

/-- The column a token starts at. -/
def column (t : Token) : Nat :=
  t.span.start.column

/-- Whether a token is the end of the input. -/
def isEnd (t : Token) : Bool :=
  t.kind == .endOfInput

/-- How a message names the place of a token. -/
def mention (t : Token) : String :=
  if t.isEnd then "at end" else "at '" ++ t.lexeme ++ "'"

/-- The token that ends an empty text. -/
def endOfNothing : Token :=
  { kind := .endOfInput }

end Token

/-- The text of a literal in a listing of tokens. -/
def Literal.listed : Literal → String
  | .nil => "None"
  | .bool b => if b then "True" else "False"
  | .number x => Number.write .literal x
  | .text s => Text.quoted s

/-- The text of a token in a listing: numbers and strings show their values,
identifiers their names. -/
def Token.render (t : Token) : String :=
  match t.kind with
  | .number | .string => t.kind.name ++ "(" ++ t.literal.listed ++ ")"
  | .identifier => t.kind.name ++ "(" ++ t.lexeme ++ ")"
  | _ => t.kind.name

end Lox
