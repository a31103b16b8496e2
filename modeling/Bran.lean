import Bran.Graph.Zombies
import Bran.Graph.Canonical
import Bran.Graph.Lineage
import Bran.Repair.Apply
import Bran.Frontmatter.Render
import Bran.Metadata.Yaml
import Bran.Database.SqlProjection
import Bran.Database.StateRuns
import Bran.Database.EvidenceBounds
import Bran.Adapters.ConnectedContract
import Bran.Agent.Budgets
import Bran.Document.PdfPredictor
import Bran.Document.ZipRoundTrip
import Bran.Document.XlsxXstring
import Bran.Document.XmlCursor
import Bran.Document.JsonAgreement
import Bran.Export.ObsidianContainment
import Bran.Policy.Contracts
import Bran.Scan.Incremental
import Bran.Cli.RegisteredMode
import Bran.Cli.QueryReplay
import Bran.Scip.Exact
import Bran.Scip.EvidenceExact
import Bran.Agent.ResultCodec
import Bran.Agent.ResultStoreBatches
import Bran.Graph.Impact
import Bran.Graph.Trail
import Bran.Scan.Deltas
import Bran.Schema.Canonical
import Bran.View.Maximal
import Bran.Repair.Rebuild
import Bran.Adapters.HostBinding
import Bran.Migration.ManifestExact
import Bran.Cli.HeadlessBilling
import Bran.Cli.SourceRevision
import Bran.Graph.NodeFacts
import Bran.Cli.DocumentMatches
import Bran.Scan.Transaction
