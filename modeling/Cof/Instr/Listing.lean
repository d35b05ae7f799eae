/-
  Instructions as text, one line each.

      cmp/s var:3:4:1 var:3:4:2
      sym/label sym:0:".L0" => .L0

  The operation comes first with its qualifier, then the operands, then the label that the line
  defines if it defines one.  Names are quoted so that every byte of them can be read off the line.
-/
import Cof.Instr

namespace Cof

/-- Bytes between double quotes: visible characters and the space stand for themselves, except the
quote and the backslash; every other byte is written `\xHH`. -/
def quoted (bs : Bytes) : String :=
  let shown (b : UInt8) : String :=
    if 0x20 ≤ b ∧ b ≤ 0x7e ∧ b ≠ '"'.toUInt8 ∧ b ≠ '\\'.toUInt8 then (byteChar b).toString
    else "\\x" ++ hexText 2 b.toNat
  "\"" ++ String.join (bs.map shown) ++ "\""

def Operand.text : Operand → String
  | .imm enc value => s!"imm:{enc.tag.toByte}:{enc.width}:{value}"
  | .var enc id => s!"var:{enc.tag.toByte}:{enc.width}:{id}"
  | .label id => s!"label:{id.toInt}"
  | .symbol tag name => s!"sym:{tag.toByte}:{quoted name}"

def Instr.text (i : Instr) : String :=
  let qualifier := if i.qualifier = .none then "" else "/" ++ i.qualifier.mnemonic
  let operands := String.join (i.operands.map (" " ++ ·.text))
  let defined := match i.definedLabel? with
    | some id => s!" => .L{id.toInt}"
    | none => ""
  i.opcode.mnemonic ++ qualifier ++ operands ++ defined

end Cof
