import SymVec.Main
import SymVec.Proofs.Discovery
import SymVec.Proofs.AliasResolution
import SymVec.Proofs.BreadthFirst
import SymVec.Proofs.PointerSlots
import SymVec.Proofs.PointerAccounts
import SymVec.Proofs.Readings
import SymVec.Proofs.ReferentialClosure
import SymVec.Proofs.ValueLayouts
import SymVec.Proofs.Windows
import SymVec.Proofs.Compositionality
import SymVec.Proofs.Progress
import SymVec.Proofs.Containment
import SymVec.Proofs.FaultIsolation
import SymVec.Proofs.Selection
import SymVec.Proofs.AccessPaths
import SymVec.Proofs.UnionMembers
import SymVec.Proofs.Navigation
import SymVec.Proofs.KnownAddresses
import SymVec.Proofs.Rearrangement
import SymVec.Proofs.NestingLimit
import SymVec.Proofs.StringLiterals
import SymVec.Proofs.IntegerPredicates
import SymVec.Proofs.ArrayShapes
import SymVec.Proofs.Usages
import SymVec.Proofs.ErrorExits
import SymVec.Proofs.Padding
import SymVec.Proofs.ScalarRows
import SymVec.Proofs.RawBytes
import SymVec.Proofs.BitFields
import SymVec.Proofs.EnumerationRows
import SymVec.Proofs.FirstReferences
import SymVec.Proofs.DistinctNames
import SymVec.Proofs.CompositeValues
import SymVec.Proofs.ReplacedResults
import SymVec.Proofs.StringPredicates
import SymVec.Proofs.CharacterPredicates
import SymVec.Proofs.StandardInput
import SymVec.Proofs.SearchDepth
import SymVec.Proofs.OffsetOwners
import SymVec.Proofs.CompleteCases
import SymVec.Proofs.ArrayForms
import SymVec.Proofs.SpecialLiterals
import SymVec.Proofs.SpecialValues
import SymVec.Proofs.ExpectedIntegers
import SymVec.Proofs.RegistryFiles
import SymVec.Proofs.Sizes
