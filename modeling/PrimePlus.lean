import PrimePlus.Main
import PrimePlus.Proofs.BlockScope
import PrimePlus.Proofs.BoundedPasses
import PrimePlus.Proofs.CallExpansion
import PrimePlus.Proofs.CommentPlaces
import PrimePlus.Proofs.ConditionalStack
import PrimePlus.Proofs.ConditionalTrees
import PrimePlus.Proofs.DeclaredNames
import PrimePlus.Proofs.DefinedCalls
import PrimePlus.Proofs.EmbeddedBlocks
import PrimePlus.Proofs.InfixGrammar
import PrimePlus.Proofs.KeptTokens
import PrimePlus.Proofs.LayoutMargins
import PrimePlus.Proofs.LocalNames
import PrimePlus.Proofs.LongestMatch
import PrimePlus.Proofs.OneLineLoops
import PrimePlus.Proofs.OuterBlocks
import PrimePlus.Proofs.PlaceholderFree
import PrimePlus.Proofs.ProgramBytes
import PrimePlus.Proofs.Redefinitions
import PrimePlus.Proofs.SourceFile
import PrimePlus.Proofs.SourceStack
import PrimePlus.Proofs.StatementLines
import PrimePlus.Proofs.SwitchSubjects
import PrimePlus.Proofs.TrimmedNumerals
import PrimePlus.Proofs.WholeNames
