import ScopeGraph.Access
import ScopeGraph.Edit.Files
import ScopeGraph.Edit.Teardown
import ScopeGraph.Search.Completion
import ScopeGraph.Search.Contexts
import ScopeGraph.Search.Declarations
import ScopeGraph.Proofs.Calls
import ScopeGraph.Proofs.StoreHistory
import ScopeGraph.Proofs.AliasChains
import ScopeGraph.Proofs.Effects
import ScopeGraph.Proofs.ImportLinks
import ScopeGraph.Proofs.ImportPaths
import ScopeGraph.Proofs.ImportWalk
import ScopeGraph.Proofs.ImportEdits
import ScopeGraph.Proofs.SearchMemo
import ScopeGraph.Proofs.Reachability
import ScopeGraph.Proofs.HopRoutes
import ScopeGraph.Proofs.ImportTraces
import ScopeGraph.Proofs.Outline
import ScopeGraph.Proofs.ScopeTree
import ScopeGraph.Proofs.TableEntries
import ScopeGraph.Proofs.Declaring
import ScopeGraph.Proofs.Nesting
import ScopeGraph.Proofs.Teardown
import ScopeGraph.Proofs.Registration
import ScopeGraph.Proofs.Growth
import ScopeGraph.Proofs.Roots
import ScopeGraph.Proofs.TableSearch
import ScopeGraph.Proofs.ContextSearch
import ScopeGraph.Proofs.NameFlow
import ScopeGraph.Proofs.SourceOrder
import ScopeGraph.Proofs.Upkeep
import ScopeGraph.Proofs.Tending
import ScopeGraph.Proofs.Refusals
import ScopeGraph.Proofs.LocalIndex
import ScopeGraph.Proofs.ContextTree
import ScopeGraph.Proofs.Descent
import ScopeGraph.Proofs.MemoFree
import ScopeGraph.Proofs.ExpansionRounds
import ScopeGraph.Proofs.NameExpansion
import ScopeGraph.Proofs.TrieNames
import ScopeGraph.Proofs.FlatSearch
import ScopeGraph.Proofs.Steps
import ScopeGraph.Proofs.Deletion
import ScopeGraph.Proofs.AskedNames
import ScopeGraph.Proofs.RepeatedWalk
import ScopeGraph.Proofs.ColdWalk
import ScopeGraph.Proofs.Concealment
import ScopeGraph.Proofs.Noninterference
import ScopeGraph.Proofs.LookAhead
import ScopeGraph.Proofs.Shadowing
import ScopeGraph.Proofs.RegisteredView
import ScopeGraph.Proofs.Journal
import ScopeGraph.Proofs.Qualification
import ScopeGraph.Proofs.AnswerOrder
import ScopeGraph.Proofs.Listing
import ScopeGraph.Proofs.FoundDeclarations
import ScopeGraph.Proofs.IndexShape
import ScopeGraph.Proofs.SearchTermination
import ScopeGraph.Proofs.PropagationToggle
import ScopeGraph.Proofs.Cleaning
import ScopeGraph.Proofs.NameText
import ScopeGraph.Proofs.TrieMatching
import ScopeGraph.Proofs.SharedTries
import ScopeGraph.Proofs.DeclarationNumbers
