import Senna.Backoff
import Senna.Batch.Accounting
import Senna.Batch.Callbacks
import Senna.Batch.Forest
import Senna.Batch.Growth
import Senna.Batch.Ledger
import Senna.Batch.Legacy
import Senna.Batch.Link
import Senna.Batch.Lua
import Senna.Batch.Propagation
import Senna.Batch.Rollback
import Senna.Batch.Script
import Senna.Batch.Success
import Senna.Client.Batch
import Senna.Client.Bulk
import Senna.Job
import Senna.Job.Normal
import Senna.Json.Text
import Senna.Json.Tree
import Senna.Keys
import Senna.Keys.Text
import Senna.Periodic
import Senna.Periodic.Lifecycle
import Senna.Ratelimit.Bucket
import Senna.Ratelimit.Clock
import Senna.Ratelimit.Concurrent
import Senna.Ratelimit.Gate
import Senna.Ratelimit.Hint
import Senna.Ratelimit.Leaky
import Senna.Ratelimit.Points
import Senna.Ratelimit.Refund
import Senna.Ratelimit.Remaining
import Senna.Ratelimit.Slots
import Senna.Ratelimit.Window
import Senna.Redis.Checked
import Senna.Redis.Command
import Senna.Redis.Db
import Senna.Redis.Expiring
import Senna.Redis.Frame
import Senna.Script
import Senna.System.Arith
import Senna.System.Context
import Senna.System.Double
import Senna.System.Iterator
import Senna.System.Machine
import Senna.System.Metering
import Senna.Time
import Senna.Worker.Census
import Senna.Worker.Client
import Senna.Worker.Conservation
import Senna.Worker.Delivery
import Senna.Worker.Encryption
import Senna.Worker.Fetcher
import Senna.Worker.Fetcher.Blocking
import Senna.Worker.Fetcher.Scripts
import Senna.Worker.Fetcher.Select
import Senna.Worker.Forgery
import Senna.Worker.Iterable
import Senna.Worker.Iterable.Callbacks
import Senna.Worker.Iterable.Cancel
import Senna.Worker.Iterable.Cursor
import Senna.Worker.Iterable.Iterators
import Senna.Worker.Lease
import Senna.Worker.Member
import Senna.Worker.Moves
import Senna.Worker.Order
import Senna.Worker.Orphans
import Senna.Worker.Outcome
import Senna.Worker.Payload
import Senna.Worker.Promotion
import Senna.Worker.Release
import Senna.Worker.Result
import Senna.Worker.Result.Attempts
import Senna.Worker.Result.Budget
import Senna.Worker.Result.Guarantee
import Senna.Worker.Result.Settle
import Senna.Worker.Script
import Senna.Worker.Sequential
import Senna.Worker.Stock
import Senna.Worker.Unique
import Senna.Worker.Unique.Exclusion
import Senna.WrongType
