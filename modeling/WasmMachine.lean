import WasmMachine.Binary.Buffer
import WasmMachine.Binary.ByteStack
import WasmMachine.Instance.HostFunctions
import WasmMachine.Instance.Session
import WasmMachine.Instruction.Token
import WasmMachine.Machine.ConfigText
import WasmMachine.Machine.TreeExecution
import WasmMachine.Proofs.ArenaLayout
import WasmMachine.Proofs.CallParts
import WasmMachine.Proofs.ExecutionFuel
import WasmMachine.Proofs.TreeSimulation
import WasmMachine.Proofs.InstructionParts
import WasmMachine.Proofs.InstructionEffects
import WasmMachine.Proofs.InstructionBudget
import WasmMachine.Proofs.CallFrames
import WasmMachine.Proofs.RunMoments
import WasmMachine.Proofs.ByteCodec
import WasmMachine.Proofs.Leb128Codec
import WasmMachine.Proofs.CountedCodec
import WasmMachine.Proofs.CodeCodec
import WasmMachine.Proofs.EntryCodec
import WasmMachine.Proofs.ModuleCodec
import WasmMachine.Proofs.BudgetThreshold
import WasmMachine.Proofs.LooserLimits
import WasmMachine.Proofs.OperandLists
import WasmMachine.Proofs.ListMachine
import WasmMachine.Proofs.StateTypes
import WasmMachine.Proofs.TypeFaults
import WasmMachine.Proofs.RunPlaces
import WasmMachine.Proofs.InstantiationPhases
import WasmMachine.Proofs.TypeSoundness
import WasmMachine.Proofs.CodeFootprint
import WasmMachine.Proofs.IndexAgreement
import WasmMachine.Proofs.SectionCuts
import WasmMachine.Proofs.Reencoding
import WasmMachine.Proofs.CursorAgreement
import WasmMachine.Proofs.CodeAddresses
import WasmMachine.Proofs.BranchResolution
import WasmMachine.Proofs.AddressOrder
import WasmMachine.Proofs.Worklist
import WasmMachine.Proofs.ArenaRange
import WasmMachine.Proofs.ArenaImage
import WasmMachine.Proofs.GlobalInitialization
import WasmMachine.Proofs.NestingLimit
import WasmMachine.Proofs.PassingArguments
import WasmMachine.Proofs.SelfDelimiting
import WasmMachine.Proofs.ElementForms
import WasmMachine.Proofs.WholeModules
import WasmMachine.Proofs.ConstantOffsets
import WasmMachine.Proofs.Placements
import WasmMachine.Proofs.DataOverlay
import WasmMachine.Proofs.ElementSlots
import WasmMachine.Proofs.Leb128Values
import WasmMachine.Proofs.MemoryAccess
import WasmMachine.Proofs.FrameLayout
