import DeadLetter.Transition
import DeadLetter.Table
import DeadLetter.Calls
import DeadLetter.Outbox
import DeadLetter.Dispatch
import DeadLetter.Db
import DeadLetter.Transaction
import DeadLetter.Consumer
import DeadLetter.World
import DeadLetter.System
import DeadLetter.Census
import DeadLetter.Pacing
import DeadLetter.Turns
import DeadLetter.Wire
import DeadLetter.Relay
import DeadLetter.Connection
import DeadLetter.Custody
import DeadLetter.Subscription
import DeadLetter.Lease
import DeadLetter.TokenBucket
import DeadLetter.Batch
import DeadLetter.RateLimiter
import DeadLetter.Migrate
import DeadLetter.Poller
import DeadLetter.Json
import DeadLetter.Stringify
import DeadLetter.JobEvents
import DeadLetter.Dashboard
import DeadLetter.Delivery
import DeadLetter.Handling
import DeadLetter.Message
import DeadLetter.Feed
import DeadLetter.Api
import DeadLetter.Proofs.History
import DeadLetter.Proofs.Outbox
import DeadLetter.Proofs.Payload
import DeadLetter.Proofs.Totals
import DeadLetter.Proofs.Dispatch
import DeadLetter.Proofs.Db
import DeadLetter.Proofs.Transaction
import DeadLetter.Proofs.World
import DeadLetter.Proofs.Wakeup
import DeadLetter.Proofs.Fence
import DeadLetter.Proofs.Budget
import DeadLetter.Proofs.Relay
import DeadLetter.Proofs.Connection
import DeadLetter.Proofs.Subscription
import DeadLetter.Proofs.RateLimiter
import DeadLetter.Proofs.Migrate
import DeadLetter.Proofs.Batch
import DeadLetter.Proofs.Supersede
import DeadLetter.Proofs.DeadLetters
import DeadLetter.Proofs.Backoff
import DeadLetter.Proofs.Poller
import DeadLetter.Proofs.Api
import DeadLetter.Proofs.Backpressure
import DeadLetter.Proofs.RetryAfter
import DeadLetter.Proofs.JobEvents
import DeadLetter.Proofs.Dashboard
import DeadLetter.Proofs.Delivery
import DeadLetter.Proofs.Handling
import DeadLetter.Proofs.Message
import DeadLetter.Proofs.Cache
import DeadLetter.Proofs.Leak
import DeadLetter.Proofs.Drain
import DeadLetter.Proofs.Reliable
import DeadLetter.Proofs.Serial
import DeadLetter.Proofs.Stats
import DeadLetter.Proofs.Republish
import DeadLetter.Proofs.Feed
import DeadLetter.Proofs.Messages
import DeadLetter.Proofs.Single
import DeadLetter.Proofs.Outage
import DeadLetter.Proofs.Retries
import DeadLetter.Proofs.Versions
import DeadLetter.Proofs.System
import DeadLetter.Proofs.Answers
import DeadLetter.Proofs.Turns
