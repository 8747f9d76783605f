import Uncomment.Command.Fixtures
import Uncomment.Command.Dump
import Uncomment.Main
import Uncomment.Proofs.Stripping
import Uncomment.Proofs.DefaultSearch
import Uncomment.Proofs.Anchors
import Uncomment.Proofs.Inclusion
import Uncomment.Proofs.CodeUnits
import Uncomment.Proofs.Sources
import Uncomment.Proofs.Await
import Uncomment.Proofs.Tolerance
import Uncomment.Proofs.Walks
import Uncomment.Proofs.Contributions
import Uncomment.Proofs.FileContents
import Uncomment.Proofs.Rewriting
import Uncomment.Proofs.Presets
import Uncomment.Proofs.Requests
import Uncomment.Proofs.Reports
import Uncomment.Proofs.Checked.Stripping
import Uncomment.Proofs.Conversions
import Uncomment.Proofs.Positions
import Uncomment.Proofs.SpanOrder
import Uncomment.Proofs.ErrorFlags
import Uncomment.Proofs.Exhaustion
import Uncomment.Proofs.Construction
import Uncomment.Proofs.PluginNames
import Uncomment.Proofs.CharacterBytes
import Uncomment.Proofs.Decoding
import Uncomment.Proofs.Mappings
import Uncomment.Proofs.WrittenAnchors
import Uncomment.Proofs.Accounts
import Uncomment.Proofs.CommentKinds
import Uncomment.Proofs.Fixtures
import Uncomment.Proofs.PluginLists
import Uncomment.Proofs.Segments
import Uncomment.Proofs.ParseHistory
import Uncomment.Proofs.Checked.Dump
