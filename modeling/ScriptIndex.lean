import ScriptIndex.FileTree
import ScriptIndex.Main
import ScriptIndex.Proofs.Carrying
import ScriptIndex.Proofs.ChangeOrder
import ScriptIndex.Proofs.Columns
import ScriptIndex.Proofs.Comments
import ScriptIndex.Proofs.Completeness
import ScriptIndex.Proofs.Completions
import ScriptIndex.Proofs.CycleReports
import ScriptIndex.Proofs.Documentation
import ScriptIndex.Proofs.Editing
import ScriptIndex.Proofs.FindingRows
import ScriptIndex.Proofs.Footprint
import ScriptIndex.Proofs.Harvesting
import ScriptIndex.Proofs.HeaderGrammar
import ScriptIndex.Proofs.LineEndings
import ScriptIndex.Proofs.Merging
import ScriptIndex.Proofs.Parentheses
import ScriptIndex.Proofs.ProbeOrder
import ScriptIndex.Proofs.Provenance
import ScriptIndex.Proofs.Publishing
import ScriptIndex.Proofs.QueryOrder
import ScriptIndex.Proofs.Repetition
import ScriptIndex.Proofs.SampleChains
import ScriptIndex.Proofs.ScanCounts
import ScriptIndex.Proofs.Signatures
import ScriptIndex.Proofs.Splicing
import ScriptIndex.Proofs.Termination
import ScriptIndex.Proofs.WatchedFiles
import ScriptIndex.SampleWorkspace
