import LosslessScss.Main
import LosslessScss.Sample
import LosslessScss.Proofs.Grammar.Stylesheet
import LosslessScss.Proofs.RoundTrip
import LosslessScss.Proofs.Acceptance
import LosslessScss.Proofs.Concatenation
import LosslessScss.Proofs.Lexicon.Tokens
import LosslessScss.Proofs.Classification
import LosslessScss.Proofs.Context
import LosslessScss.Proofs.Places
import LosslessScss.Proofs.Tiling
import LosslessScss.Proofs.Tree.Occurrence
import LosslessScss.Proofs.Tree.Derivation
import LosslessScss.Proofs.Skeleton
import LosslessScss.Proofs.Json
import LosslessScss.Proofs.Output
import LosslessScss.Proofs.Stream.Delivery
import LosslessScss.Proofs.Lexicon.Faults
import LosslessScss.Proofs.Tree.Splitting
import LosslessScss.Proofs.Tree.Attachment
import LosslessScss.Proofs.Acceptance.Unreadable
import LosslessScss.Proofs.Lexicon.EndMark
import LosslessScss.Proofs.Remainder
import LosslessScss.Proofs.Tree.Height
import LosslessScss.Proofs.Verdict
import LosslessScss.Proofs.Sample
import LosslessScss.Proofs.Settings
import LosslessScss.Proofs.Progress
import LosslessScss.Proofs.Walk
