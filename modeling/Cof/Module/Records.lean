/-
  The fixed-size records of an object module.

      offset  0   module header    32 bytes
      offset 32   section header   36 bytes, of the one code section
      offset 68   code
                  string table     names, each closed by a NUL
                  symbol table     records of 16 bytes

  Each record type has a writer `toBytes` and a reader `parse`.  The writer is the concatenation of
  its fields; the reader picks the fields out by offset, so it also reads a record that more bytes
  follow.
-/
import Cof.Bytes

namespace Cof.Module

/-! ## Constants of the format -/

def magic : UInt32 := 0x00464F43

def headerSize : Nat := 32
def sectionHeaderSize : Nat := 36
def symbolRecordSize : Nat := 16

/-- Where the code section starts, directly after the two headers. -/
def codeOffset : UInt32 := 68

def flagExecutable : UInt8 := 0x01
def flagLinkable : UInt8 := 0x02

def undefinedSection : UInt16 := 0xFFFF

/-! ## Errors -/

/-- The parts of a module that can be cut short. -/
inductive Part where
  | header | section | symbolRecord | code | strings | symbols
deriving DecidableEq, Repr

def Part.name : Part → String
  | .header => "module header"
  | .section => "section header"
  | .symbolRecord => "symbol record"
  | .code => "code section"
  | .strings => "string table"
  | .symbols => "symbol table"

/-- Why bytes are no module. -/
inductive FormatError where
  | truncated (part : Part) (needed available : Nat)
  | badMagic (found : UInt32)
  | unknownSymbolKind (byte : UInt8)
  | unknownSymbolBinding (byte : UInt8)
  | badStringOffset (offset : UInt32)
deriving DecidableEq, Repr

def FormatError.message : FormatError → String
  | .truncated part needed available =>
    s!"{part.name} truncated: need {needed} bytes, have {available}"
  | .badMagic found => s!"bad magic 0x{hexText 8 found.toNat}"
  | .unknownSymbolKind b => s!"unknown symbol kind {b}"
  | .unknownSymbolBinding b => s!"unknown symbol binding {b}"
  | .badStringOffset offset => s!"string table offset {offset} is out of range"

/-! ## Fields -/

def word16 (n : UInt16) : Bytes := littleEndian 2 n.toNat
def word32 (n : UInt32) : Bytes := littleEndian 4 n.toNat

def byteAt (bytes : Bytes) (offset : Nat) : UInt8 := (bytes.drop offset).headD 0
def word16At (bytes : Bytes) (offset : Nat) : UInt16 :=
  UInt16.ofNat (ofLittleEndian ((bytes.drop offset).take 2))
def word32At (bytes : Bytes) (offset : Nat) : UInt32 :=
  UInt32.ofNat (ofLittleEndian ((bytes.drop offset).take 4))

def needBytes (bytes : Bytes) (part : Part) (needed : Nat) : Except FormatError Unit :=
  let available := bytes.length
  if available < needed then .error (.truncated part needed available) else .ok ()

/-! ## The module header -/

/-- The header of a module. -/
structure Header where
  magic : UInt32 := Module.magic
  versionMajor : UInt8 := 1
  versionMinor : UInt8 := 0
  versionPatch : UInt8 := 0
  flags : UInt8 := 0
  arch : UInt16 := 0
  sectionCount : UInt16 := 1
  entryPoint : UInt32 := 0
  stringTableOffset : UInt32 := 0
  stringTableSize : UInt32 := 0
  symbolTableOffset : UInt32 := 0
  symbolTableSize : UInt32 := 0
deriving DecidableEq, Repr

namespace Header

/-- The last five fields, which are known only when the module is finished. -/
def layoutBytes (h : Header) : Bytes :=
  word32 h.entryPoint ++ word32 h.stringTableOffset ++ word32 h.stringTableSize
    ++ word32 h.symbolTableOffset ++ word32 h.symbolTableSize

def toBytes (h : Header) : Bytes :=
  word32 h.magic ++ [h.versionMajor, h.versionMinor, h.versionPatch, h.flags]
    ++ word16 h.arch ++ word16 h.sectionCount ++ h.layoutBytes

def parse (bytes : Bytes) : Except FormatError Header := do
  needBytes bytes .header headerSize
  let found := word32At bytes 0
  if found ≠ Module.magic then throw (.badMagic found)
  return {
    magic := found
    versionMajor := byteAt bytes 4
    versionMinor := byteAt bytes 5
    versionPatch := byteAt bytes 6
    flags := byteAt bytes 7
    arch := word16At bytes 8
    sectionCount := word16At bytes 10
    entryPoint := word32At bytes 12
    stringTableOffset := word32At bytes 16
    stringTableSize := word32At bytes 20
    symbolTableOffset := word32At bytes 24
    symbolTableSize := word32At bytes 28 }

def isExecutable (h : Header) : Bool := h.flags &&& flagExecutable != 0

end Header

/-! ## The section header -/

/-- The header of a section. -/
structure SectionHeader where
  nameOffset : UInt32
  sectionType : UInt32
  flags : UInt32
  offset : UInt32
  size : UInt32
  link : UInt32
  info : UInt32
  alignment : UInt32
  entrySize : UInt32
deriving DecidableEq, Repr

namespace SectionHeader

def fields (s : SectionHeader) : List UInt32 :=
  [s.nameOffset, s.sectionType, s.flags, s.offset, s.size, s.link, s.info, s.alignment,
   s.entrySize]

/-- The header of the code section before its size is known: code, loaded and executable. -/
def code (nameOffset : UInt32) : SectionHeader where
  nameOffset := nameOffset
  sectionType := 1
  flags := 0x06
  offset := codeOffset
  size := 0
  link := 0
  info := 0
  alignment := 1
  entrySize := 0

def toBytes (s : SectionHeader) : Bytes := s.fields.flatMap word32

def parse (bytes : Bytes) : Except FormatError SectionHeader := do
  needBytes bytes .section sectionHeaderSize
  return {
    nameOffset := word32At bytes 0
    sectionType := word32At bytes 4
    flags := word32At bytes 8
    offset := word32At bytes 12
    size := word32At bytes 16
    link := word32At bytes 20
    info := word32At bytes 24
    alignment := word32At bytes 28
    entrySize := word32At bytes 32 }

end SectionHeader

/-! ## Symbol records -/

/-- What a symbol names. -/
inductive SymbolKind where
  | object | function
deriving DecidableEq, Repr

namespace SymbolKind

def toByte : SymbolKind → UInt8
  | object => 0 | function => 1

def ofByte? (b : UInt8) : Option SymbolKind :=
  if b = 0 then some object else if b = 1 then some function else none

@[simp] theorem ofByte?_toByte (k : SymbolKind) : ofByte? k.toByte = some k := by
  cases k <;> rfl

end SymbolKind

/-- Who can see a symbol. -/
inductive Binding where
  /-- Only its own module. -/
  | internal
  /-- Every module. -/
  | global
  /-- It is declared here and defined elsewhere. -/
  | external
deriving DecidableEq, Repr

namespace Binding

def toByte : Binding → UInt8
  | internal => 0 | global => 1 | external => 2

def ofByte? (b : UInt8) : Option Binding :=
  if b = 0 then some internal else if b = 1 then some global
  else if b = 2 then some external else none

@[simp] theorem ofByte?_toByte (k : Binding) : ofByte? k.toByte = some k := by
  cases k <;> rfl

end Binding

/-- An entry of the symbol table. -/
structure SymbolRecord where
  nameOffset : UInt32
  /-- Offset of the definition within the code section. -/
  value : UInt32
  size : UInt32
  kind : SymbolKind
  binding : Binding
  sectionIndex : UInt16
deriving DecidableEq, Repr

namespace SymbolRecord

def toBytes (r : SymbolRecord) : Bytes :=
  word32 r.nameOffset ++ word32 r.value ++ word32 r.size
    ++ [r.kind.toByte, r.binding.toByte] ++ word16 r.sectionIndex

def parse (bytes : Bytes) : Except FormatError SymbolRecord := do
  needBytes bytes .symbolRecord symbolRecordSize
  let some kind := SymbolKind.ofByte? (byteAt bytes 12)
    | throw (.unknownSymbolKind (byteAt bytes 12))
  let some binding := Binding.ofByte? (byteAt bytes 13)
    | throw (.unknownSymbolBinding (byteAt bytes 13))
  return {
    nameOffset := word32At bytes 0
    value := word32At bytes 4
    size := word32At bytes 8
    kind := kind
    binding := binding
    sectionIndex := word16At bytes 14 }

end SymbolRecord

end Cof.Module
