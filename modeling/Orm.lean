import Orm.Query
import Orm.Schema.Catalog
import Orm.Plan.Cached
import Orm.Proofs.Schema.Bounds
import Orm.Proofs.Schema.Levels
import Orm.Proofs.Schema.Mapping
import Orm.Proofs.Schema.Requests
import Orm.Proofs.Schema.Descendants
import Orm.Proofs.Schema.Loading
import Orm.Proofs.Schema.Collections
import Orm.Proofs.Plan.SelectList
import Orm.Proofs.Plan.Labels
import Orm.Proofs.Plan.Cycles
import Orm.Proofs.Plan.Embedding
import Orm.Proofs.Plan.Conditions
import Orm.Proofs.Plan.Fragments
import Orm.Proofs.Plan.Calls
import Orm.Proofs.Sql.Binding
import Orm.Proofs.Sql.Truth
import Orm.Proofs.Sql.Quoting
import Orm.Proofs.Sql.Rebinding
import Orm.Proofs.Statement.Names
import Orm.Proofs.Statement.Parameters
import Orm.Proofs.Statement.Verbatim
import Orm.Proofs.Statement.Supplied
import Orm.Proofs.Statement.Renaming
import Orm.Proofs.Statement.Anchoring
import Orm.Proofs.Statement.WrittenOut
import Orm.Proofs.Statement.Restriction
import Orm.Proofs.Statement.Limits
import Orm.Proofs.Object.Shift
import Orm.Proofs.Object.Union
import Orm.Proofs.Assembly.Depiction
import Orm.Proofs.Assembly.Linking
import Orm.Proofs.Assembly.Streaming
import Orm.Proofs.Assembly.Union
import Orm.Proofs.Assembly.Blocks
import Orm.Proofs.Assembly.Agreement
import Orm.Proofs.Assembly.Slots
import Orm.Proofs.Assembly.Repetition
import Orm.Proofs.Assembly.Conformity
import Orm.Proofs.Assembly.Discriminators
import Orm.Proofs.Assembly.Levels
import Orm.Proofs.Assembly.Settling
import Orm.Proofs.Assembly.ValueObjects
import Orm.Proofs.Value.Integral
import Orm.Proofs.Value.Zoned
import Orm.Proofs.Value.TimeOfDay
import Orm.Proofs.Value.Identifiers
import Orm.Proofs.Value.Decimals
