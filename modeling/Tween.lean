import Tween.Description.Reader
import Tween.World.View
import Tween.Gallery.Session
import Tween.Proofs.Action
import Tween.Proofs.Timing
import Tween.Proofs.Calls
import Tween.Proofs.Completion
import Tween.Proofs.Packing
import Tween.Proofs.Ratio
import Tween.Proofs.Rounding
import Tween.Proofs.Doubles
import Tween.Proofs.Cursor
import Tween.Proofs.Grouping
import Tween.Proofs.Tick
import Tween.Proofs.Systems
import Tween.Proofs.Scanning
import Tween.Proofs.Grammar
import Tween.Proofs.Decimals
import Tween.Proofs.Written
import Tween.Proofs.RoundTrip
import Tween.Proofs.Curves
import Tween.Proofs.Lanes
import Tween.Proofs.Bookkeeping
import Tween.Proofs.Signed
import Tween.Proofs.UnitInterval
import Tween.Proofs.LaneByLane
import Tween.Proofs.Steady
import Tween.Proofs.Failing
import Tween.Proofs.Preservation
import Tween.Proofs.Reopening
import Tween.Proofs.Looping
import Tween.Proofs.Callbacks
import Tween.Proofs.Resting
import Tween.Proofs.Shifting
import Tween.Proofs.ShiftedGallery
import Tween.Proofs.ShiftedRuns
import Tween.Proofs.Precision
import Tween.Proofs.SquareRoots
import Tween.Proofs.Enclosures
import Tween.Proofs.Angles
import Tween.Proofs.Separate
import Tween.Proofs.Twins
import Tween.Proofs.Turning
import Tween.Proofs.Tolerance
import Tween.Proofs.Seconds
import Tween.Proofs.Retargeting
import Tween.Proofs.SettingTexts
import Tween.Proofs.Newton
import Tween.Proofs.OnScreen
import Tween.Proofs.Pictures
import Tween.Proofs.Sessions
import Tween.Proofs.Families
import Tween.Proofs.Resuming
import Tween.Proofs.Reordering
import Tween.Proofs.Launching
import Tween.Proofs.Abreast
import Tween.Proofs.Eased
import Tween.Proofs.Interchange
import Tween.Proofs.Coherence
import Tween.Proofs.Homecoming
import Tween.Proofs.Trials
import Tween.Proofs.WholeNumbers
