import MachineCode.Text
import MachineCode.Register
import MachineCode.Packed.Layout
import MachineCode.Fault
import MachineCode.Run
import MachineCode.Packed.Basic
import MachineCode.Rex
import MachineCode.Bytes
import MachineCode.Address
import MachineCode.Operand
import MachineCode.Encoding
import MachineCode.Instruction
import MachineCode.Nop
import MachineCode.Buffer.Basic
import MachineCode.Buffer.Lemmas
import MachineCode.Options
import MachineCode.Assembler
import MachineCode.Decode
import MachineCode.Proofs.Fields
import MachineCode.Proofs.IndependentFields
import MachineCode.Proofs.Representation
import MachineCode.Proofs.Serialization
import MachineCode.Proofs.Pieces
import MachineCode.Proofs.Screening
import MachineCode.Proofs.Code
import MachineCode.Proofs.LittleEndian
import MachineCode.Proofs.PrefixStability
import MachineCode.Proofs.RoundTrip
import MachineCode.Proofs.AddressLaw
import MachineCode.Proofs.ShortestForm
import MachineCode.Proofs.Collisions
import MachineCode.Proofs.PartSetting
import MachineCode.Proofs.Numerals
import MachineCode.Proofs.Concatenation
import MachineCode.Proofs.SettingOrder
import MachineCode.Proofs.OperandChecks
import MachineCode.Proofs.OperandText
import MachineCode.Proofs.Derivation
import MachineCode.Proofs.Room
import MachineCode.Proofs.PlainBytes
import MachineCode.Proofs.Growth
import MachineCode.Proofs.Emission
import MachineCode.Proofs.LinearSweep
import MachineCode.Proofs.Padding
import MachineCode.Proofs.Chunks
import MachineCode.Proofs.WordWriters
import MachineCode.Proofs.Fragments
import MachineCode.Proofs.CodeLayout
import MachineCode.Proofs.Alignment
