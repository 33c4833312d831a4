import ScriptBytecode.AddressTable
import ScriptBytecode.Arena.Basic
import ScriptBytecode.Arena.Fusion
import ScriptBytecode.Binary32.Basic
import ScriptBytecode.Binary32.Reading
import ScriptBytecode.Binary32.Shortest
import ScriptBytecode.Builder.Basic
import ScriptBytecode.Builder.Link
import ScriptBytecode.Bytes
import ScriptBytecode.CodeUnit
import ScriptBytecode.Command.Arguments
import ScriptBytecode.Command.Assembler
import ScriptBytecode.Command.Disassembler
import ScriptBytecode.Command.FileForm
import ScriptBytecode.Command.ProjectFile
import ScriptBytecode.Deflate.Inflate
import ScriptBytecode.Deflate.PrefixCode
import ScriptBytecode.Deflate.Stored
import ScriptBytecode.Document.Basic
import ScriptBytecode.Document.Read
import ScriptBytecode.Dump
import ScriptBytecode.Error
import ScriptBytecode.Instruction.Basic
import ScriptBytecode.Instruction.Operands
import ScriptBytecode.Listing.Assemble
import ScriptBytecode.Listing.Basic
import ScriptBytecode.Listing.Document
import ScriptBytecode.Listing.Names
import ScriptBytecode.Listing.OfScript
import ScriptBytecode.Listing.Operands
import ScriptBytecode.Main
import ScriptBytecode.NameHash
import ScriptBytecode.NativeTable
import ScriptBytecode.Opcode.Basic
import ScriptBytecode.Opcode.Family
import ScriptBytecode.Opcode.Mnemonic
import ScriptBytecode.Operation.Basic
import ScriptBytecode.Operation.Lift
import ScriptBytecode.Paged
import ScriptBytecode.Proofs.OperandBytes
import ScriptBytecode.Proofs.Words
import ScriptBytecode.Resource
import ScriptBytecode.Script.Basic
import ScriptBytecode.Script.Header
import ScriptBytecode.Script.Layout
import ScriptBytecode.Script.Read
import ScriptBytecode.Script.Write
import ScriptBytecode.SortByKey
import ScriptBytecode.Statement.Basic
import ScriptBytecode.Statement.Constant
import ScriptBytecode.Statement.Emission
import ScriptBytecode.StringTable
import ScriptBytecode.Target
import ScriptBytecode.Text.Blank
import ScriptBytecode.Text.GraphemeExtend
import ScriptBytecode.Text.Hex
import ScriptBytecode.Text.Integer
import ScriptBytecode.Text.Invisible
import ScriptBytecode.Text.Quoted
import ScriptBytecode.Text.Runs
import ScriptBytecode.Text.Split
import ScriptBytecode.Text.Utf8
import ScriptBytecode.Proofs.Walk
import ScriptBytecode.Proofs.Statements
import ScriptBytecode.Proofs.FinishBounds
import ScriptBytecode.Proofs.Placement
import ScriptBytecode.Proofs.BuildSession
import ScriptBytecode.Proofs.Symbols
import ScriptBytecode.Proofs.Paging
import ScriptBytecode.Proofs.PageTails
import ScriptBytecode.Proofs.Linking
import ScriptBytecode.Proofs.LinkedCode
import ScriptBytecode.Proofs.ExactLinking
import ScriptBytecode.Proofs.PageLayout
import ScriptBytecode.Proofs.ArenaFusion
import ScriptBytecode.Proofs.FusionRules
import ScriptBytecode.Proofs.RelativeOperations
import ScriptBytecode.Proofs.TokenPositions
import ScriptBytecode.Proofs.FusedMeaning
import ScriptBytecode.Proofs.IntegerText
import ScriptBytecode.Proofs.ListedInstructions
import ScriptBytecode.Proofs.ListedFunctions
import ScriptBytecode.Proofs.ListedLines
import ScriptBytecode.Proofs.UnitNatives
import ScriptBytecode.Proofs.WrittenFunctions
import ScriptBytecode.Proofs.RelinkedCode
import ScriptBytecode.Proofs.AssembledUnit
import ScriptBytecode.Proofs.AssembledCode
import ScriptBytecode.Proofs.StringSegments
import ScriptBytecode.Proofs.ListedStrings
import ScriptBytecode.Proofs.NumberRounding
import ScriptBytecode.Proofs.NumberText
import ScriptBytecode.Proofs.ReassembledScript
import ScriptBytecode.Proofs.CanonicalPages
import ScriptBytecode.Proofs.ContainerBlocks
import ScriptBytecode.Proofs.ContainerHeader
import ScriptBytecode.Proofs.ContainerRoundTrip
import ScriptBytecode.Proofs.ContainerRewriting
import ScriptBytecode.Proofs.ContainerLayout
import ScriptBytecode.Proofs.ArenaSessions
import ScriptBytecode.Proofs.FunctionLayout
import ScriptBytecode.Proofs.LinkFailures
import ScriptBytecode.Proofs.FinishedUnits
import ScriptBytecode.Proofs.EmittedStreams
import ScriptBytecode.Proofs.BufferedBuilds
import ScriptBytecode.Proofs.LockstepBuilds
import ScriptBytecode.Proofs.FailedCalls
import ScriptBytecode.Proofs.WalkedCode
import ScriptBytecode.Proofs.SymbolErrors
import ScriptBytecode.Proofs.ListedSymbols
import ScriptBytecode.Proofs.FailedUnitCalls
import ScriptBytecode.Proofs.StoredStrings
import ScriptBytecode.Proofs.ReachableArenas
import ScriptBytecode.Proofs.FusedInstructions
import ScriptBytecode.Proofs.FusedStreams
import ScriptBytecode.Proofs.FusionLoops
import ScriptBytecode.Proofs.FusedNormalForms
import ScriptBytecode.Proofs.AssembledItems
import ScriptBytecode.Proofs.ResolvedNames
import ScriptBytecode.Proofs.SeveredLinks
import ScriptBytecode.Proofs.PlacedLabels
import ScriptBytecode.Proofs.ListedIntegers
import ScriptBytecode.Proofs.FilledCode
import ScriptBytecode.Proofs.KeptOffsets
import ScriptBytecode.Proofs.OperandReads
import ScriptBytecode.Proofs.LiftFailures
import ScriptBytecode.Proofs.DumpedLines
import ScriptBytecode.Proofs.LiftedGroups
import ScriptBytecode.Proofs.StoredBlocks
import ScriptBytecode.Proofs.PackedResources
import ScriptBytecode.Proofs.EncryptedResources
import ScriptBytecode.Proofs.PlacedStrings
import ScriptBytecode.Proofs.LiftedNatives
import ScriptBytecode.Proofs.NativeCalls
import ScriptBytecode.Proofs.PartitionedCode
import ScriptBytecode.Proofs.ConstantPushes
import ScriptBytecode.Proofs.LiteralInstructions
import ScriptBytecode.Proofs.IntegerGrammar
