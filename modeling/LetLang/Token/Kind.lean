import LetLang.Byte

/-!
# Token kinds

A token is a symbol, a keyword, a word of one of the open classes (identifier, integer, string), an
unterminated string, or the end of the input. Each kind has a `label`, which is its spelling when
it has only one, and a `name` in capitals, which log records use.

The label of a symbol or keyword is exactly what stands in the source, so the scanner's tables are
look-ups by label: `Symbol.ofByte?`, `Symbol.operators`, `Keyword.ofBytes?`.
-/

namespace LetLang

/-! ## Symbols -/

inductive Symbol where
  | assign | plus | minus | star | slash | percent | bang
  | equal | notEqual | less | greater | lessEqual | greaterEqual
  | lparen | rparen | lbrace | rbrace | lbracket | rbracket
  | semicolon | comma | dot | colon
deriving DecidableEq, Repr

namespace Symbol

def all : List Symbol :=
  [assign, plus, minus, star, slash, percent, bang,
    equal, notEqual, less, greater, lessEqual, greaterEqual,
    lparen, rparen, lbrace, rbrace, lbracket, rbracket,
    semicolon, comma, dot, colon]

def label : Symbol → String
  | assign => "="
  | plus => "+"
  | minus => "-"
  | star => "*"
  | slash => "/"
  | percent => "%"
  | bang => "!"
  | equal => "=="
  | notEqual => "!="
  | less => "<"
  | greater => ">"
  | lessEqual => "<="
  | greaterEqual => ">="
  | lparen => "("
  | rparen => ")"
  | lbrace => "\x7b"
  | rbrace => "\x7d"
  | lbracket => "["
  | rbracket => "]"
  | semicolon => ";"
  | comma => ","
  | dot => "."
  | colon => ":"

def name : Symbol → String
  | assign => "ASSIGN"
  | plus => "PLUS"
  | minus => "MINUS"
  | star => "STAR"
  | slash => "SLASH"
  | percent => "PERCENT"
  | bang => "BANG"
  | equal => "EQUAL"
  | notEqual => "NOT_EQUAL"
  | less => "LESS"
  | greater => "GREATER"
  | lessEqual => "LESS_EQUAL"
  | greaterEqual => "GREATER_EQUAL"
  | lparen => "LPAREN"
  | rparen => "RPAREN"
  | lbrace => "LBRACE"
  | rbrace => "RBRACE"
  | lbracket => "LBRACKET"
  | rbracket => "RBRACKET"
  | semicolon => "SEMICOLON"
  | comma => "COMMA"
  | dot => "DOT"
  | colon => "COLON"

/-- The spelling of a symbol in bytes; every symbol is ASCII. -/
def lexeme (s : Symbol) : Bytes := s.label.toList.map Char.toUInt8

/-- The symbols that their byte settles, whatever follows it. -/
def singles : List Symbol :=
  [lparen, rparen, lbrace, rbrace, lbracket, rbracket, semicolon, comma, dot, colon,
    plus, minus, star, slash, percent]

/-- The symbols that a directly following `=` turns into another one, with that other one. -/
def operators : List (Symbol × Symbol) :=
  [(assign, equal), (less, lessEqual), (greater, greaterEqual), (bang, notEqual)]

/-- The symbol that the byte alone settles. -/
def ofByte? (b : UInt8) : Option Symbol :=
  singles.find? fun s => s.lexeme == [b]

/-- The symbols that the byte may open: the first if it stands alone, the second before `=`. -/
def operator? (b : UInt8) : Option (Symbol × Symbol) :=
  operators.find? fun pair => pair.1.lexeme == [b]

theorem mem_all (s : Symbol) : s ∈ all := by
  cases s <;> decide

theorem lexeme_compound :
    ∀ pair ∈ operators, pair.2.lexeme = pair.1.lexeme ++ [Byte.equals] := by
  decide

end Symbol

/-! ## Keywords -/

inductive Keyword where
  | fnKw | letKw | ifKw | elseKw | returnKw | trueKw | falseKw | nilKw | forKw
deriving DecidableEq, Repr

namespace Keyword

def all : List Keyword :=
  [fnKw, letKw, ifKw, elseKw, returnKw, trueKw, falseKw, nilKw, forKw]

def label : Keyword → String
  | fnKw => "fn"
  | letKw => "let"
  | ifKw => "if"
  | elseKw => "else"
  | returnKw => "return"
  | trueKw => "true"
  | falseKw => "false"
  | nilKw => "nil"
  | forKw => "for"

def name : Keyword → String
  | fnKw => "FUNC"
  | letKw => "LET"
  | ifKw => "IF"
  | elseKw => "ELSE"
  | returnKw => "RETURN"
  | trueKw => "TRUE"
  | falseKw => "FALSE"
  | nilKw => "NIL"
  | forKw => "FOR"

/-- The spelling of a keyword in bytes; every keyword is ASCII. -/
def lexeme (k : Keyword) : Bytes := k.label.toList.map Char.toUInt8

/-- The keyword that the whole word spells; case counts. -/
def ofBytes? (word : Bytes) : Option Keyword :=
  all.find? fun k => k.lexeme == word

theorem mem_all (k : Keyword) : k ∈ all := by
  cases k <;> decide

@[simp] theorem ofBytes?_lexeme (k : Keyword) : ofBytes? k.lexeme = some k := by
  cases k <;> decide

end Keyword

/-! ## Kinds -/

/-- The lexical category of a token. -/
inductive TokenKind where
  /-- A string literal that the source ends before it is closed. -/
  | illegal
  /-- No token is left. -/
  | endOfInput
  /-- A word that is neither a keyword nor a number. -/
  | identifier
  /-- A word of ASCII digits. -/
  | integer
  /-- A closed string literal, quotes included. -/
  | string
  | symbol (s : Symbol)
  | keyword (k : Keyword)
deriving DecidableEq, Repr

namespace TokenKind

def all : List TokenKind :=
  [illegal, endOfInput, identifier, integer, string]
    ++ Symbol.all.map symbol ++ Keyword.all.map keyword

/-- The display label: the spelling of a symbol or keyword, a phrase for the other kinds. -/
def label : TokenKind → String
  | illegal => "illegal"
  | endOfInput => "end of input"
  | identifier => "identifier"
  | integer => "integer"
  | string => "string"
  | symbol s => s.label
  | keyword k => k.label

def name : TokenKind → String
  | illegal => "ILLEGAL"
  | endOfInput => "END_OF_INPUT"
  | identifier => "IDENTIFIER"
  | integer => "INTEGER"
  | string => "STRING"
  | symbol s => s.name
  | keyword k => k.name

/-- How diagnostics speak of a kind: a spelling stands in single quotes, a phrase does not. -/
def describe : TokenKind → String
  | symbol s => "'" ++ s.label ++ "'"
  | keyword k => "'" ++ k.label ++ "'"
  | kind => kind.label

def ofName? (name : String) : Option TokenKind :=
  all.find? fun kind => kind.name == name

theorem mem_all (kind : TokenKind) : kind ∈ all := by
  cases kind with
  | symbol s => simp [all, Symbol.mem_all]
  | keyword k => simp [all, Keyword.mem_all]
  | _ => simp [all]

@[simp] theorem ofName?_name (kind : TokenKind) : ofName? kind.name = some kind := by
  cases kind with
  | symbol s => cases s <;> decide
  | keyword k => cases k <;> decide
  | _ => decide

end TokenKind

end LetLang
