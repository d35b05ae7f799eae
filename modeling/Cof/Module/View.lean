/-
  Reading a whole module.

  A view holds the headers, the bytes of the code section and the symbols with their names.  Reading
  checks in the order of the format: both headers, then the three ranges they name, then the symbol
  records one by one, each with its name.  A symbol table whose size is no multiple of the record size
  ends in a record that is cut short.
-/
import Cof.Module.StringTable

namespace Cof.Module

/-- A symbol with its name. -/
structure Symbol where
  name : Name
  record : SymbolRecord
deriving DecidableEq, Repr

/-- A module as it is read. -/
structure View where
  header : Header
  codeSection : SectionHeader
  code : Bytes
  symbols : List Symbol
deriving DecidableEq, Repr

def slice (bytes : Bytes) (offset size : UInt32) (part : Part) : Except FormatError Bytes :=
  let stop := offset.toNat + size.toNat
  let available := bytes.length
  if stop ≤ available then .ok ((bytes.drop offset.toNat).take size.toNat)
  else .error (.truncated part stop available)

/-- Cut bytes into pieces of `n + 1`, the last of which may be shorter. -/
def piecesOf (n : Nat) : Nat → Bytes → List Bytes
  | 0, _ => []
  | _ + 1, [] => []
  | limit + 1, b :: bs => (b :: bs.take n) :: piecesOf n limit (bs.drop n)

def readSymbols (strings symbols : Bytes) : Except FormatError (List Symbol) :=
  (piecesOf (symbolRecordSize - 1) symbols.length symbols).mapM fun piece => do
    let record ← SymbolRecord.parse piece
    let name ← StringTable.lookup strings record.nameOffset
    return ⟨name, record⟩

namespace View

def parse (bytes : Bytes) : Except FormatError View := do
  let header ← Header.parse bytes
  let codeSection ← SectionHeader.parse (bytes.drop headerSize)
  let code ← slice bytes codeSection.offset codeSection.size .code
  let strings ← slice bytes header.stringTableOffset header.stringTableSize .strings
  let table ← slice bytes header.symbolTableOffset header.symbolTableSize .symbols
  let symbols ← readSymbols strings table
  return ⟨header, codeSection, code, symbols⟩

def symbol? (v : View) (name : Name) : Option Symbol := v.symbols.find? (·.name == name)

end View

end Cof.Module
