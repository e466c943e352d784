import BeamEnvelope.Main
import BeamEnvelope.Proofs.Glps.Grammar
import BeamEnvelope.Proofs.Glps.Tokens
import BeamEnvelope.Proofs.Dictionary
import BeamEnvelope.Proofs.Double.Parts
import BeamEnvelope.Proofs.Double.Value
import BeamEnvelope.Proofs.Glps.Evaluation
import BeamEnvelope.Proofs.Glps.ExpressionReading
import BeamEnvelope.Proofs.Glps.Lines
import BeamEnvelope.Proofs.Glps.Statements
import BeamEnvelope.Proofs.Glps.TwoPhases
import BeamEnvelope.Proofs.Decimal.Nearest
import BeamEnvelope.Proofs.Decimal.Numeral
import BeamEnvelope.Proofs.Glps.ErrorPrecedence
import BeamEnvelope.Proofs.Glps.Expansion
import BeamEnvelope.Proofs.Glps.Flattening
import BeamEnvelope.Proofs.Glps.LexicalTokens
import BeamEnvelope.Proofs.Glps.Normalization
import BeamEnvelope.Proofs.Glps.StatementOrder
import BeamEnvelope.Proofs.Machine.Composition
import BeamEnvelope.Proofs.Machine.Conservation
import BeamEnvelope.Proofs.Machine.Markers
import BeamEnvelope.Proofs.Machine.OnAxis
import BeamEnvelope.Proofs.Machine.PhysicalBlock
import BeamEnvelope.Proofs.Machine.Propagation
import BeamEnvelope.Proofs.Machine.Simulation
import BeamEnvelope.Proofs.Machine.SourceOverrides
import BeamEnvelope.Proofs.Machine.Tracks
import BeamEnvelope.Proofs.Tlm.Conversion
import BeamEnvelope.Proofs.Toml.RoundTrip
import BeamEnvelope.Proofs.Glps.Nesting
import BeamEnvelope.Proofs.Glps.Scopes
import BeamEnvelope.Proofs.Machine.Strengths
import BeamEnvelope.Proofs.Machine.UndefinedReference
import BeamEnvelope.Proofs.Tlm.Continuations
import BeamEnvelope.Proofs.Tlm.Converters
import BeamEnvelope.Proofs.Machine.Validity
import BeamEnvelope.Proofs.Machine.Splitting
import BeamEnvelope.Proofs.Command.Conversion
import BeamEnvelope.Proofs.Glps.Identifiers
import BeamEnvelope.Proofs.Glps.Unbreached
