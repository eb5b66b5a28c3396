/-! The kinds of tokens, their names and the reserved words. -/
namespace LoxLang

inductive TokenKind where
  | leftParen | rightParen | leftBrace | rightBrace | comma | dot | minus | plus | semicolon
  | slash | star
  | bang | bangEqual | equal | equalEqual | greater | greaterEqual | less | lessEqual
  | identifier | string | number
  | andWord | classWord | elseWord | falseWord | funWord | forWord | ifWord | nilWord | orWord
  | printWord | returnWord | superWord | thisWord | trueWord | varWord | whileWord
  | eof
deriving DecidableEq, Inhabited, Repr

namespace TokenKind

/-- Every kind with its name, in the order that numbers the kinds from one. -/
def names : List (TokenKind × String) :=
  [(leftParen, "LEFT_PAREN"), (rightParen, "RIGHT_PAREN"), (leftBrace, "LEFT_BRACE"),
   (rightBrace, "RIGHT_BRACE"), (comma, "COMMA"), (dot, "DOT"), (minus, "MINUS"), (plus, "PLUS"),
   (semicolon, "SEMICOLON"), (slash, "SLASH"), (star, "STAR"), (bang, "BANG"),
   (bangEqual, "BANG_EQUAL"), (equal, "EQUAL"), (equalEqual, "EQUAL_EQUAL"), (greater, "GREATER"),
   (greaterEqual, "GREATER_EQUAL"), (less, "LESS"), (lessEqual, "LESS_EQUAL"),
   (identifier, "IDENTIFIER"), (string, "STRING"), (number, "NUMBER"), (andWord, "AND"),
   (classWord, "CLASS"), (elseWord, "ELSE"), (falseWord, "FALSE"), (funWord, "FUN"),
   (forWord, "FOR"), (ifWord, "IF"), (nilWord, "NIL"), (orWord, "OR"), (printWord, "PRINT"),
   (returnWord, "RETURN"), (superWord, "SUPER"), (thisWord, "THIS"), (trueWord, "TRUE"),
   (varWord, "VAR"), (whileWord, "WHILE"), (eof, "EOF")]

def name (k : TokenKind) : String :=
  (names.lookup k).getD ""

def ofName? (s : String) : Option TokenKind :=
  (names.find? fun entry => entry.2 = s).map (·.1)

/-- The place of a kind in `names`, counted from one. -/
def ordinal (k : TokenKind) : Nat :=
  names.findIdx (fun entry => entry.1 = k) + 1

theorem ofName?_name (k : TokenKind) : ofName? k.name = some k := by
  cases k <;> decide

/-- The reserved words. -/
def keywords : List (String × TokenKind) :=
  [("and", andWord), ("class", classWord), ("else", elseWord), ("false", falseWord),
   ("for", forWord), ("fun", funWord), ("if", ifWord), ("nil", nilWord), ("or", orWord),
   ("print", printWord), ("return", returnWord), ("super", superWord), ("this", thisWord),
   ("true", trueWord), ("var", varWord), ("while", whileWord)]

/-- The kind of a word: reserved, or else an identifier. -/
def ofWord (word : String) : TokenKind :=
  (keywords.lookup word).getD identifier

/-- The kinds that open a declaration or statement, in front of which recovery stops. -/
def startsStatement : TokenKind → Bool
  | classWord | funWord | varWord | forWord | ifWord | whileWord | printWord | returnWord => true
  | _ => false

end TokenKind

end LoxLang
