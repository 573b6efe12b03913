import StraightLine.Settings.Basic
import StraightLine.Names
import StraightLine.Chain
import StraightLine.Node
import StraightLine.Expr
import StraightLine.Arena
import StraightLine.Schedule
import StraightLine.Fault
import StraightLine.FunctionUnit
import StraightLine.Session.Basic
import StraightLine.Session.Call
import StraightLine.Session.Emission
import StraightLine.Yaml.Text
import StraightLine.Yaml.Value
import StraightLine.Yaml.Scalar
import StraightLine.Yaml.Scan
import StraightLine.Yaml.Tree
import StraightLine.Yaml.Writer
import StraightLine.Settings.Document
import StraightLine.Proofs.ArenaShape
import StraightLine.Proofs.UseRuns
import StraightLine.Proofs.RequestConditions
import StraightLine.Proofs.Additions
import StraightLine.Proofs.Performed
import StraightLine.Proofs.Runs
import StraightLine.Proofs.HashConsing
import StraightLine.Proofs.ChainSigns
import StraightLine.Proofs.Grammar
import StraightLine.Proofs.Evaluation
import StraightLine.Proofs.WrittenText
import StraightLine.Proofs.OperatorMeaning
import StraightLine.Proofs.Rendering
import StraightLine.Proofs.FreshNames
import StraightLine.Proofs.Execution
import StraightLine.Proofs.NodeViews
import StraightLine.Proofs.Meaning
import StraightLine.Proofs.Bookkeeping
import StraightLine.Proofs.RegularRuns
import StraightLine.Proofs.Soundness
import StraightLine.Proofs.SoundRuns
import StraightLine.Proofs.LastSources
import StraightLine.Proofs.Kernels
import StraightLine.Proofs.PriorValues
import StraightLine.Proofs.Refusals
import StraightLine.Proofs.Steps
import StraightLine.Proofs.LifeCycle
import StraightLine.Proofs.DeclaredNames
import StraightLine.Proofs.SecondUses
import StraightLine.Proofs.LaterSessions
import StraightLine.Proofs.GluedCaptures
import StraightLine.Proofs.TotalRendering
import StraightLine.Proofs.DistinctNames
import StraightLine.Proofs.IdentifierNames
import StraightLine.Proofs.InlineSessions
import StraightLine.Proofs.PartStructure
import StraightLine.Proofs.RepeatedRequests
import StraightLine.Proofs.OfferedNames
import StraightLine.Proofs.ComputedOnce
import StraightLine.Proofs.CanonicalSigns
import StraightLine.Proofs.EmittedStores
import StraightLine.Proofs.Lexemes
import StraightLine.Proofs.Precedence
import StraightLine.Proofs.SettingsDocuments
import StraightLine.Proofs.TermTrees
import StraightLine.Proofs.ExpressionTrees
import StraightLine.Proofs.PostfixReceivers
import StraightLine.Proofs.LogicalOperands
import StraightLine.Proofs.GridSides
import StraightLine.Proofs.PositionalNames
import StraightLine.Proofs.DeclarationRuns
import StraightLine.Proofs.SourceBraces
