/-
  Tokens: the words of the source language.

  Reserved words and punctuators are closed lists, each with one spelling.  Words that the compiler
  does not support are reserved all the same, so that they can be refused by name.  A token carries its
  kind, the position of its first byte and the very bytes it was read from; literals carry their value
  inside the kind.
-/
import Cof.Binary64.Text
import Cof.Location
import Cof.Utf8

namespace Cof

/-! ## Reserved words -/

/-- A reserved word. -/
inductive Keyword where
  | void | char | short | int | long | float | double | signed | unsigned
  | const | volatile | static | external
  | ifWord | elseWord | whileWord | doWord | forWord | returnWord | breakWord | continueWord
  | sizeof
  | struct | union | enum | typedef | switch | caseWord | default | goto | auto | register
deriving DecidableEq, Repr

namespace Keyword

def all : List Keyword :=
  [void, char, short, int, long, float, double, signed, unsigned, const, volatile, static, external,
   ifWord, elseWord, whileWord, doWord, forWord, returnWord, breakWord, continueWord, sizeof,
   struct, union, enum, typedef, switch, caseWord, default, goto, auto, register]

def spelling : Keyword → String
  | void => "void" | char => "char" | short => "short" | int => "int" | long => "long"
  | float => "float" | double => "double" | signed => "signed" | unsigned => "unsigned"
  | const => "const" | volatile => "volatile" | static => "static" | external => "extern"
  | ifWord => "if" | elseWord => "else" | whileWord => "while" | doWord => "do" | forWord => "for"
  | returnWord => "return" | breakWord => "break" | continueWord => "continue"
  | sizeof => "sizeof"
  | struct => "struct" | union => "union" | enum => "enum" | typedef => "typedef"
  | switch => "switch" | caseWord => "case" | default => "default" | goto => "goto"
  | auto => "auto" | register => "register"

def ofBytes? (word : Bytes) : Option Keyword := all.find? fun k => ascii k.spelling == word

/-- Whether a declaration may begin with the word.  Only supported words count. -/
def startsDeclaration : Keyword → Bool
  | void | char | short | int | long | float | double | signed | unsigned => true
  | const | volatile | static | external => true
  | _ => false

end Keyword

/-! ## Punctuators -/

/-- An operator or a punctuation mark. -/
inductive Punct where
  | ltLtEq | gtGtEq | ellipsis
  | plusPlus | minusMinus | arrow
  | plusEq | minusEq | starEq | slashEq | percentEq | ampEq | pipeEq | caretEq
  | eqEq | notEq | le | ge | ltLt | gtGt | andAnd | orOr
  | plus | minus | star | slash | percent | eq | bang | lt | gt | amp | pipe | caret | tilde
  | dot | question | colon | lParen | rParen | lBrace | rBrace | lBracket | rBracket
  | semicolon | comma
deriving DecidableEq, Repr

namespace Punct

def all : List Punct :=
  [ltLtEq, gtGtEq, ellipsis,
   plusPlus, minusMinus, arrow, plusEq, minusEq, starEq, slashEq, percentEq, ampEq, pipeEq, caretEq,
   eqEq, notEq, le, ge, ltLt, gtGt, andAnd, orOr,
   plus, minus, star, slash, percent, eq, bang, lt, gt, amp, pipe, caret, tilde,
   dot, question, colon, lParen, rParen, lBrace, rBrace, lBracket, rBracket, semicolon, comma]

def spelling : Punct → String
  | ltLtEq => "<<=" | gtGtEq => ">>=" | ellipsis => "..."
  | plusPlus => "++" | minusMinus => "--" | arrow => "->"
  | plusEq => "+=" | minusEq => "-=" | starEq => "*=" | slashEq => "/=" | percentEq => "%="
  | ampEq => "&=" | pipeEq => "|=" | caretEq => "^="
  | eqEq => "==" | notEq => "!=" | le => "<=" | ge => ">=" | ltLt => "<<" | gtGt => ">>"
  | andAnd => "&&" | orOr => "||"
  | plus => "+" | minus => "-" | star => "*" | slash => "/" | percent => "%"
  | eq => "=" | bang => "!" | lt => "<" | gt => ">" | amp => "&" | pipe => "|" | caret => "^"
  | tilde => "~" | dot => "." | question => "?" | colon => ":"
  | lParen => "(" | rParen => ")" | lBrace => "\x7b" | rBrace => "\x7d"
  | lBracket => "[" | rBracket => "]" | semicolon => ";" | comma => ","

def bytes (p : Punct) : Bytes := ascii p.spelling

def ofText? (text : Bytes) : Option Punct := all.find? (·.bytes.isPrefixOf text)

end Punct

/-! ## Kinds of tokens -/

/-- What a token is. -/
inductive TokenKind where
  /-- The end of the source. -/
  | eof
  | int (value : UInt64)
  | float (value : Binary64)
  | char (value : UInt8)
  | string (value : Bytes)
  | ident (name : Name)
  | keyword (word : Keyword)
  | punct (mark : Punct)
deriving DecidableEq, Repr

/-- How messages show a kind.  Integers are shown as signed numbers of 64 bits. -/
def TokenKind.display : TokenKind → String
  | eof => "end of file"
  | int value => s!"integer literal {value.toInt64.toInt}"
  | float value => "float literal " ++ value.text
  | char c =>
    if isGraphic c || c = ' '.toUInt8 then s!"char literal '{byteChar c}'"
    else s!"char literal '\\x{hexText 2 c.toNat}'"
  | string s => "string literal \"" ++ Utf8.lossy s ++ "\""
  | ident name => "identifier '" ++ Utf8.lossy name ++ "'"
  | keyword word => "'" ++ word.spelling ++ "'"
  | punct mark => "'" ++ mark.spelling ++ "'"

/-- A token. -/
structure Token where
  kind : TokenKind
  /-- The position of its first byte. -/
  loc : Location
  /-- The bytes it was read from; none at the end of the source. -/
  raw : Bytes
deriving DecidableEq, Repr

def Token.lexeme (t : Token) : String := Utf8.lossy t.raw

/-! ## Lexical errors -/

/-- The two literals that are closed by a quote. -/
inductive QuotedLiteral where
  | string | character
deriving DecidableEq, Repr

def QuotedLiteral.name : QuotedLiteral → String
  | .string => "string"
  | .character => "character"

/-- Why text is no token. -/
inductive LexFault where
  /-- No token starts with this byte. -/
  | unexpected (byte : UInt8)
  | unterminated (literal : QuotedLiteral)
  | emptyCharacter
  | severalCharacters
  | hexEscapeWithoutDigits
  | octalEscapeTooLarge
  | invalidEscape (byte : UInt8)
  | hexLiteralWithoutDigits
  | exponentWithoutDigits
  | octalDigit (digit : UInt8)
  | integerTooLarge
  | suffix (byte : UInt8)
deriving DecidableEq, Repr

def LexFault.message : LexFault → String
  | unexpected b =>
    if isGraphic b then s!"unexpected character '{byteChar b}'"
    else s!"unexpected byte 0x{hexText 2 b.toNat}"
  | unterminated literal => s!"unterminated {literal.name} literal"
  | emptyCharacter => "empty character literal"
  | severalCharacters => "multi-character character literal"
  | hexEscapeWithoutDigits => "\\x used with no following hex digits"
  | octalEscapeTooLarge => "octal escape sequence out of range"
  | invalidEscape b => s!"invalid escape sequence '\\{byteChar b}'"
  | hexLiteralWithoutDigits => "hexadecimal literal has no digits"
  | exponentWithoutDigits => "exponent has no digits"
  | octalDigit d => s!"invalid digit '{byteChar d}' in octal literal"
  | integerTooLarge => "integer literal is too large"
  | suffix b => s!"invalid suffix '{byteChar b}' on numeric literal"

/-- A lexical error: what is wrong and where. -/
structure LexError where
  fault : LexFault
  loc : Location
deriving DecidableEq, Repr

def LexError.message (e : LexError) : String :=
  s!"lexical error at {e.loc.describe}: {e.fault.message}"

end Cof
