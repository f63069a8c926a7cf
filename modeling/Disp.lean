import Disp.Arithmetic.Exactness
import Disp.Arithmetic.Safety
import Disp.Coercion.Soundness
import Disp.Concurrency.Budget
import Disp.Concurrency.Channel
import Disp.Constants.Soundness
import Disp.Copying.Agreement
import Disp.Data.Integrity
import Disp.Data.Keys
import Disp.Expansion.Alternatives
import Disp.Http.Fragmentation
import Disp.Keystore.Exchange
import Disp.Linking.Names
import Disp.Mono.Symbols
import Disp.Mono.TypeMatching
import Disp.Ownership.Leaves
import Disp.Ownership.Moves
import Disp.Ownership.Overlap
import Disp.Package.Graph
import Disp.Patterns.Alignment
import Disp.Store.Formats
import Disp.Surface.Formatter
import Disp.TypeChecker.Returns
