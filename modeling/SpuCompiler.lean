import SpuCompiler.Bytecode.Reader
import SpuCompiler.Bytecode.Source
import SpuCompiler.Metadata.Token
import SpuCompiler.Options.Reader
import SpuCompiler.Program
import SpuCompiler.Stage
import SpuCompiler.Proofs.Bytecode.Displacements
import SpuCompiler.Proofs.Bytecode.OperandFields
import SpuCompiler.Proofs.Bytecode.Resuming
import SpuCompiler.Proofs.Bytecode.Tiling
import SpuCompiler.Proofs.Machine.Decoding
import SpuCompiler.Proofs.Objects.Histories
import SpuCompiler.Proofs.Objects.Patching
import SpuCompiler.Proofs.Trees.BlockContents
import SpuCompiler.Proofs.Trees.CompareBranch
import SpuCompiler.Proofs.Trees.Comparisons
import SpuCompiler.Proofs.Trees.Preservation
import SpuCompiler.Proofs.Trees.Relocation
import SpuCompiler.Proofs.Trees.StackDiscipline
import SpuCompiler.Proofs.Trees.StoredVariables
import SpuCompiler.Proofs.Trees.SyntheticIndices
import SpuCompiler.Proofs.Trees.WellTyped
import SpuCompiler.Proofs.Selection.ArgumentRegisters
import SpuCompiler.Proofs.Selection.DoubleComparison
import SpuCompiler.Proofs.Selection.DoubleConversion
import SpuCompiler.Proofs.Selection.ElementAddress
import SpuCompiler.Proofs.Selection.FaultList
import SpuCompiler.Proofs.Selection.FrameCode
import SpuCompiler.Proofs.Selection.IntegerCode
import SpuCompiler.Proofs.Selection.MemoryAccess
import SpuCompiler.Proofs.Selection.RoutineCode
import SpuCompiler.Proofs.Selection.SingleAssignment
import SpuCompiler.Proofs.Selection.StaticAccess
import SpuCompiler.Proofs.Selection.Values
import SpuCompiler.Proofs.Program.Runs
import SpuCompiler.Proofs.Program.CompileOrder
import SpuCompiler.Proofs.Program.ControlFlow
import SpuCompiler.Proofs.Program.Encodable
import SpuCompiler.Proofs.Program.References
import SpuCompiler.Proofs.Metadata.Tokens
