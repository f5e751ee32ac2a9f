import Mir2Pnml.Builtins
import Mir2Pnml.MirModel
import Mir2Pnml.PnModel
import Mir2Pnml.Patterns
import Mir2Pnml.Builder
import Mir2Pnml.Ids
import Mir2Pnml.BuildLog
import Mir2Pnml.Inventory
import Mir2Pnml.Semantics
import Mir2Pnml.Offers
import Mir2Pnml.WellFormed
import Mir2Pnml.Unique
import Mir2Pnml.Mutex
import Mir2Pnml.Control
import Mir2Pnml.Compose
import Mir2Pnml.Parser
import Mir2Pnml.BodyBlocks
import Mir2Pnml.Guards
import Mir2Pnml.Braces
import Mir2Pnml.Pnml
import Mir2Pnml.Safety
import Mir2Pnml.Machine
import Mir2Pnml.Cli
import Mir2Pnml.Printer
import Mir2Pnml.RoundTrip
