import Narrative.Main
import Narrative.Proofs.Aside
import Narrative.Proofs.Cue
import Narrative.Proofs.Deal
import Narrative.Proofs.Depth
import Narrative.Proofs.Elapse
import Narrative.Proofs.Gate
import Narrative.Proofs.Grouping
import Narrative.Proofs.Lasting
import Narrative.Proofs.Limit
import Narrative.Proofs.Metadata
import Narrative.Proofs.Notice
import Narrative.Proofs.Numbering
import Narrative.Proofs.Numerals
import Narrative.Proofs.PlayOut
import Narrative.Proofs.Queue
import Narrative.Proofs.Regrouping
import Narrative.Proofs.Renewal
import Narrative.Proofs.Replay
import Narrative.Proofs.Settle
import Narrative.Proofs.Sound
import Narrative.Proofs.Steering
import Narrative.Proofs.Stream
import Narrative.Proofs.Strict
import Narrative.Sequence.Record
