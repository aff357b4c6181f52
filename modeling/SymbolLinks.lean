import SymbolLinks.Files.Tree
import SymbolLinks.Main
import SymbolLinks.Proofs.ExceptLaws
import SymbolLinks.Proofs.ListLaws
import SymbolLinks.Proofs.KeyMapLaws
import SymbolLinks.Proofs.TreeViews
import SymbolLinks.Proofs.TreeInvariant
import SymbolLinks.Proofs.TreeBuild
import SymbolLinks.Proofs.StoreLaws
import SymbolLinks.Proofs.StoreHistory
import SymbolLinks.Proofs.TreeRepresentation
import SymbolLinks.Proofs.TreeDepth
import SymbolLinks.Proofs.SnapshotTree
import SymbolLinks.Proofs.SnapshotRestore
import SymbolLinks.Proofs.SnapshotRoundTrip
import SymbolLinks.Proofs.JsonTokens
import SymbolLinks.Proofs.JsonText
import SymbolLinks.Proofs.JsonFields
import SymbolLinks.Proofs.SnapshotText
import SymbolLinks.Proofs.CanonicalPaths
import SymbolLinks.Proofs.ExternalResolution
import SymbolLinks.Proofs.MergeChanges
import SymbolLinks.Proofs.EdgeOutcomes
import SymbolLinks.Proofs.ListedFacts
import SymbolLinks.Proofs.MirroredRelations
import SymbolLinks.Proofs.ShortHashLaws
import SymbolLinks.Proofs.HashNumerals
import SymbolLinks.Proofs.LinkComponents
import SymbolLinks.Proofs.LinkText
import SymbolLinks.Proofs.LinkPlaces
import SymbolLinks.Proofs.SimultaneousEdits
import SymbolLinks.Proofs.Walks
import SymbolLinks.Proofs.WalkOutcomes
import SymbolLinks.Proofs.LanguageSpellings
import SymbolLinks.Proofs.SuffixSelection
import SymbolLinks.Proofs.SuffixGrammar
import SymbolLinks.Proofs.KindSuffixes
import SymbolLinks.Proofs.CatalogTree
import SymbolLinks.Proofs.SuffixFixes
import SymbolLinks.Proofs.WholeNameFixes
import SymbolLinks.Proofs.NameFixes
import SymbolLinks.Proofs.RedundantSuffixes
import SymbolLinks.Proofs.CanonicalSegments
import SymbolLinks.Proofs.PageUniqueness
import SymbolLinks.Proofs.CanonicalLinks
import SymbolLinks.Proofs.EdgeOrder
import SymbolLinks.Proofs.Remerging
import SymbolLinks.Proofs.MergeFrame
import SymbolLinks.Proofs.InheritedComments
import SymbolLinks.Proofs.SoundReferences
import SymbolLinks.Proofs.DocumentedSymbols
import SymbolLinks.Proofs.SummaryText
import SymbolLinks.Proofs.TreeRenaming
import SymbolLinks.Proofs.ModuleNodes
import SymbolLinks.Proofs.StoreOrder
import SymbolLinks.Proofs.GraphOrder
import SymbolLinks.Proofs.CollisionViews
import SymbolLinks.Proofs.LaterPasses
import SymbolLinks.Proofs.OtherLanguages
import SymbolLinks.Proofs.Placements
