import ClassArchive.Transform
import ClassArchive.ClassFile.Assembly
import ClassArchive.Proofs.PoolHistory
import ClassArchive.Proofs.RenamedClass
import ClassArchive.Proofs.SettledFrames
import ClassArchive.Proofs.ArchiveCommit
import ClassArchive.Proofs.LoadedTypes
import ClassArchive.Proofs.ClassCodec
import ClassArchive.Proofs.ReframedClass
import ClassArchive.Proofs.AttributePayloads
import ClassArchive.Proofs.BuiltMapping
import ClassArchive.Proofs.ArchiveTree
import ClassArchive.Proofs.InheritedMembers
import ClassArchive.Proofs.ScannedText
import ClassArchive.Proofs.TranslatedNames
import ClassArchive.Proofs.FixedNames
import ClassArchive.Proofs.RewrittenClass
import ClassArchive.Proofs.EntryNames
import ClassArchive.Proofs.CanonicalBytes
import ClassArchive.Proofs.FrameShapes
import ClassArchive.Proofs.FrameAddresses
import ClassArchive.Proofs.TypeHeights
import ClassArchive.Proofs.ArrayDepths
import ClassArchive.Proofs.WorklistBound
import ClassArchive.Proofs.AssignableSearch
import ClassArchive.Proofs.CommonAncestors
import ClassArchive.Proofs.CutAncestry
import ClassArchive.Proofs.InstructionExtents
import ClassArchive.Proofs.OperandReads
import ClassArchive.Proofs.DescriptorGrammar
import ClassArchive.Proofs.RenamedDescriptors
import ClassArchive.Proofs.SignatureTrees
import ClassArchive.Proofs.RenamedSignatures
import ClassArchive.Proofs.RenamedAttributes
import ClassArchive.Proofs.RenamedDeclarations
import ClassArchive.Proofs.WrittenPools
import ClassArchive.Proofs.WriteConflicts
import ClassArchive.Proofs.ParameterTables
import ClassArchive.Proofs.PreorderWalk
import ClassArchive.Proofs.StackWords
