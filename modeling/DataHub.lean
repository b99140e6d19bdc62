import DataHub.Entry
import DataHub.Path
import DataHub.Lookup
import DataHub.Create
import DataHub.GetPath
import DataHub.Resource
import DataHub.Step
import DataHub.WellFormed
import DataHub.Invariance
import DataHub.Reachable
import DataHub.Idempotence
import DataHub.Render
import DataHub.Rollback
import DataHub.Traversal
import DataHub.Lifetime
import DataHub.Transaction
import DataHub.Returns
import DataHub.Zombie
import DataHub.Counting
import DataHub.Mirror
import DataHub.Sample
import DataHub.Json
