import ExprScript.Expression.Source
import ExprScript.Main
import ExprScript.Proofs.Acceptance
import ExprScript.Proofs.LongestLexemes
import ExprScript.Proofs.SourceRoundTrip
import ExprScript.Proofs.Construction
import ExprScript.Proofs.Runs
import ExprScript.Proofs.Worlds
import ExprScript.Proofs.JoinedTexts
import ExprScript.Proofs.Phases
import ExprScript.Proofs.Sessions
import ExprScript.Proofs.ValueTypes
import ExprScript.Proofs.Dialogues
import ExprScript.Proofs.EarliestError
import ExprScript.Proofs.SourceReading
import ExprScript.Proofs.LineNumbers
import ExprScript.Proofs.Respacing
import ExprScript.Proofs.SourceNumbers
import ExprScript.Proofs.Outlines
import ExprScript.Proofs.MentionedNames
import ExprScript.Proofs.DepthGuard
import ExprScript.Proofs.Boundaries
import ExprScript.Proofs.CallSequences
import ExprScript.Proofs.MissingSemicolons
import ExprScript.Proofs.Nesting
import ExprScript.Proofs.SourceDepth
import ExprScript.Proofs.Equality
