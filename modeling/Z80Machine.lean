import Z80Machine.Monitor
import Z80Machine.Proofs.Disassembly
import Z80Machine.Proofs.Encoding
import Z80Machine.Proofs.FirstInstruction
import Z80Machine.Proofs.Frames
import Z80Machine.Proofs.Stepping
import Z80Machine.Proofs.Failure
import Z80Machine.Proofs.Agreement
import Z80Machine.Proofs.Calls
import Z80Machine.Proofs.Entry
import Z80Machine.Proofs.BlockCopy
import Z80Machine.Proofs.InterruptedCopy
import Z80Machine.Proofs.Requests
import Z80Machine.Proofs.Entries
import Z80Machine.Proofs.Status
import Z80Machine.Proofs.Halt
import Z80Machine.Proofs.CriticalSection
import Z80Machine.Proofs.NmiReturn
import Z80Machine.Proofs.Alike
import Z80Machine.Proofs.Operands
import Z80Machine.Proofs.Lines
import Z80Machine.Proofs.SameLine
import Z80Machine.Proofs.Pointers
import Z80Machine.Proofs.Renaming
import Z80Machine.Proofs.Mirrors
import Z80Machine.Proofs.Prefixes
import Z80Machine.Proofs.Footprint
import Z80Machine.Proofs.Parts
import Z80Machine.Proofs.Targets
import Z80Machine.Proofs.FlagNeutral
import Z80Machine.Proofs.SpecialRegisters
import Z80Machine.Proofs.RefreshCounter
import Z80Machine.Proofs.Past
import Z80Machine.Proofs.Reset
import Z80Machine.Proofs.BlockPass
import Z80Machine.Proofs.CompletedCopy
import Z80Machine.Proofs.CompletedSearch
import Z80Machine.Proofs.CompletedTransfer
import Z80Machine.Proofs.RelativeJump
import Z80Machine.Proofs.InterruptReturn
import Z80Machine.Proofs.IndexedOperand
import Z80Machine.Proofs.IndexedBits
import Z80Machine.Proofs.PrefixChain
import Z80Machine.Proofs.Stack
import Z80Machine.Proofs.WordArithmetic
import Z80Machine.Proofs.CarryChain
import Z80Machine.Proofs.DecimalChain
import Z80Machine.Proofs.BinaryChain
import Z80Machine.Proofs.PrintedOperands
import Z80Machine.Proofs.RegisterFile
import Z80Machine.Proofs.Inspection
import Z80Machine.Proofs.MissingBytes
import Z80Machine.Proofs.Loading
