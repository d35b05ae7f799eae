/-
  From source text to tokens.

  A `Lexer` is what is left of the source and the position of its first byte.  `next` skips blanks,
  comments and preprocessor lines, then reads one token.  The end of the source is a token too, and
  asking again gives it again.  After an error nothing is left, but the position stays where reading
  stopped, which is where the end is then reported.

  `Tokens` is the whole source at once: the tokens in order, and what stopped them.  Since every token
  takes at least one byte, asking once per byte and once more is enough to come to the end.
-/
import Cof.Token.Scan

namespace Cof

/-! ## Between tokens -/

/-- What is being skipped. -/
inductive Skipping where
  /-- Blanks.  A `#` counts only where the line has held nothing but blanks. -/
  | blanks (lineStart : Bool)
  /-- The rest of a line. -/
  | line
  /-- The second byte of the mark that opens a block comment, which can not be the first of the mark
  that closes it. -/
  | opening
  /-- A block comment. -/
  | block
  /-- The second byte of the mark that closes it. -/
  | closing
deriving DecidableEq, Repr

def isBlank (b : UInt8) : Bool :=
  b == ' '.toUInt8 || b == '\t'.toUInt8 || b == '\r'.toUInt8 || b == 0x0b || b == 0x0c

def startsWith (text : Bytes) (c : Char) : Bool := text.head? == some c.toUInt8

/-- Skip to the next token: the position there and the text from there on.  A block comment that is
not closed runs to the end of the source. -/
def skip : Skipping → Location → Bytes → Location × Bytes
  | _, loc, [] => (loc, [])
  | .line, loc, b :: rest =>
    if b = '\n'.toUInt8 then skip (.blanks true) (loc.step b) rest
    else skip .line (loc.step b) rest
  | .opening, loc, b :: rest => skip .block (loc.step b) rest
  | .block, loc, b :: rest =>
    if b = '*'.toUInt8 && startsWith rest '/' then skip .closing (loc.step b) rest
    else skip .block (loc.step b) rest
  | .closing, loc, b :: rest => skip (.blanks false) (loc.step b) rest
  | .blanks lineStart, loc, b :: rest =>
    if b = '\n'.toUInt8 then skip (.blanks true) (loc.step b) rest
    else if isBlank b then skip (.blanks lineStart) (loc.step b) rest
    else if b = '/'.toUInt8 && startsWith rest '/' then skip .line (loc.step b) rest
    else if b = '/'.toUInt8 && startsWith rest '*' then skip .opening (loc.step b) rest
    else if b = '#'.toUInt8 && lineStart then skip .line (loc.step b) rest
    else (loc, b :: rest)

/-! ## One token at a time -/

/-- Source still to be read, and the position of its first byte. -/
structure Lexer where
  loc : Location
  ahead : Bytes
deriving DecidableEq, Repr

namespace Lexer

def ofSource (source : Bytes) : Lexer := ⟨.start, source⟩

/-- The next token, or the error in its place, and what is left after it. -/
def next (l : Lexer) : Except LexError Token × Lexer :=
  match skip (.blanks (l.loc.column == 1)) l.loc l.ahead with
  | (loc, []) => (.ok ⟨.eof, loc, []⟩, ⟨loc, []⟩)
  | (loc, first :: rest) =>
    match Scan.token first rest with
    | .ok (kind, length) =>
      (.ok ⟨kind, loc, (first :: rest).take length⟩,
        ⟨loc.right length, (first :: rest).drop length⟩)
    | .error e => (.error ⟨e.fault, loc.right e.offset⟩, ⟨loc.right e.stop, []⟩)

end Lexer

/-! ## All tokens at once -/

/-- What comes after the last token. -/
inductive Stop where
  /-- The end of the source, at this position. -/
  | eof (loc : Location)
  /-- A lexical error. -/
  | error (e : LexError)
deriving DecidableEq, Repr

/-- The tokens of a source, without the end, and what stopped them. -/
structure Tokens where
  ahead : List Token
  stop : Stop
deriving DecidableEq, Repr

namespace Tokens

/-- Ask for tokens at most `limit` times, onto those already read (newest first). -/
def read (done : List Token) : Nat → Lexer → Tokens
  | 0, l => ⟨done.reverse, .eof l.loc⟩
  | limit + 1, l =>
    match l.next with
    | (.error e, _) => ⟨done.reverse, .error e⟩
    | (.ok token, rest) =>
      if token.kind = .eof then ⟨done.reverse, .eof token.loc⟩
      else read (token :: done) limit rest

def ofSource (source : Bytes) : Tokens := read [] (source.length + 1) (.ofSource source)

end Tokens

/-- All tokens of a source up to and with its end, or the first error. -/
def tokenize (source : Bytes) : Except LexError (List Token) :=
  match Tokens.ofSource source with
  | ⟨tokens, .eof loc⟩ => .ok (tokens ++ [⟨.eof, loc, []⟩])
  | ⟨_, .error e⟩ => .error e

end Cof
