import Coalition.Command
import Coalition.Evaluation.OnStates
import Coalition.Formula.Parser
import Coalition.Formula.Printer
import Coalition.Library
import Coalition.Main
import Coalition.Model.Domain
import Coalition.Model.Expression.Parser
import Coalition.Model.Graph
import Coalition.Model.Team
import Coalition.Number.Reader
import Coalition.Number.Shortest
import Coalition.Options
import Coalition.Proofs.Evaluation.Arising
import Coalition.Proofs.Evaluation.Caching
import Coalition.Proofs.Evaluation.CommonKnowledge
import Coalition.Proofs.Evaluation.Filtered
import Coalition.Proofs.Evaluation.FreeChoice
import Coalition.Proofs.Evaluation.Images
import Coalition.Proofs.Evaluation.Information
import Coalition.Proofs.Evaluation.Interior
import Coalition.Proofs.Evaluation.Iterations
import Coalition.Proofs.Evaluation.KnownGoal
import Coalition.Proofs.Evaluation.LargerTeams
import Coalition.Proofs.Evaluation.Repeated
import Coalition.Proofs.Evaluation.Satisfaction
import Coalition.Proofs.Evaluation.SearchEnds
import Coalition.Proofs.Evaluation.TrivialConstraint
import Coalition.Proofs.Formula.Roundtrip
import Coalition.Proofs.Model.Comparison
import Coalition.Proofs.Model.Compiled
import Coalition.Proofs.Model.Expand
import Coalition.Proofs.Model.Graph
import Coalition.Proofs.Model.Groups
import Coalition.Proofs.Model.Listed
import Coalition.Proofs.Model.Picked
import Coalition.Proofs.Model.Range
import Coalition.Proofs.Strategy.Independent
import Coalition.Proofs.Strategy.Reach
import Coalition.Proofs.Strategy.Reserve
import Coalition.Proofs.Strategy.SplitEnds
import Coalition.Region.Space
import Coalition.Settings
import Coalition.Text.Character
import Coalition.Text.Integer
