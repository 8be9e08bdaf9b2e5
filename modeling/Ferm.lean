import Ferm.Lib.Dict
import Ferm.Lib.Difflib
import Ferm.Lib.KeyedRun
import Ferm.Lib.Lines
import Ferm.Lib.Ordinals
import Ferm.Lib.Product
import Ferm.Lib.Runs
import Ferm.Lib.ShellWords
import Ferm.Lib.HereDocument
import Ferm.Lib.Text
import Ferm.Lib.Digits
import Ferm.Lib.Unidiff
import Ferm.Lib.IntLiteral
import Ferm.Lib.BitExpr
import Ferm.Ipaddress
import Ferm.IpText
import Ferm.Nftset
import Ferm.SetCanon
import Ferm.Domains
import Ferm.Analysis
import Ferm.Nft.Model
import Ferm.Nft.Collapse
import Ferm.Nft.Stable
import Ferm.Nft.Evaluate
import Ferm.Nft.Merge
import Ferm.Nft.Passes
import Ferm.Nft.Traverse
import Ferm.Nft.Script
import Ferm.Nft.Sets
import Ferm.Nft.Declarations
import Ferm.Nft.DeclarationOrder
import Ferm.Nft.SetReferences
import Ferm.Nft.Kernel
import Ferm.Nft.Rollback
import Ferm.Parser.Tokens
import Ferm.Parser.Evaluator
import Ferm.Parser.Recorded
import Ferm.Parser.Structural
import Ferm.Parser.StrayClose
import Ferm.Parser.Termination
import Ferm.Plan.Model
import Ferm.Plan.Readback
import Ferm.Plan.Priority
import Ferm.Plan.ScriptText
import Ferm.Plan.ListText
import Ferm.Plan.Listing
import Ferm.Plan.SaveText
import Ferm.Plan.Diff
import Ferm.Plan.Noflush
import Ferm.Plan.Unified
import Ferm.Plan.Actions
import Ferm.Plan.Delta
import Ferm.Plan.DeltaText
import Ferm.Plan.Rendered
import Ferm.Plan.RenderedText
import Ferm.Plan.Emitted
import Ferm.Nft.Commit
import Ferm.Plan.Convergence
import Ferm.Plan.Safety
import Ferm.Plan.FullReload
import Ferm.Iptables.Model
import Ferm.Iptables.Format
import Ferm.Iptables.Save
import Ferm.Iptables.SaveReadback
import Ferm.Iptables.Slow
import Ferm.Iptables.ShellQuoting
import Ferm.Iptables.RestoreArguments
import Ferm.Iptables.Kernel
import Ferm.Iptables.Declared
import Ferm.Iptables.Modes
import Ferm.Iptables.Preserve
import Ferm.Iptables.Rollback
import Ferm.Cli.Seams
import Ferm.Cli.RollbackAll
import Ferm.Unfold
import Ferm.Etckeeper
import Ferm.Cli.Subcommand
import Ferm.Cli.Apply
import Ferm.Cli.Commit
import Ferm.Cli.ShellScript
import Ferm.Cli.History
import Ferm.Importer.Optimize
import Ferm.Importer.Expand
import Ferm.Importer.Harm
import Ferm.Importer.SaveLines
import Ferm.Importer.Options
import Ferm.Importer.Writer
import Ferm.Importer.Escaping
import Ferm.Importer.Blocks
import Ferm.Importer.Filled
import Ferm.Importer.Nesting
import Ferm.Scope
import Ferm.Multiport
import Ferm.Nft.Values
import Ferm.Lib.MixedRadix
import Ferm.Lib.Groups
import Ferm.Nft.Time
import Ferm.Nft.Recent
import Ferm.Nft.Marks
import Ferm.Nft.Connlimit
import Ferm.Nft.Collapsing
import Ferm.AddressFamily
import Ferm.Lib.PrefixCode
import Ferm.Graph
import Ferm.SetOrder
import Ferm.SetMembers
import Ferm.Plan.Outcome
