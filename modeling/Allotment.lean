import Allotment.Scheduler
import Allotment.CallQueue.Timeline
import Allotment.Config.Document
import Allotment.Metrics.Document
import Allotment.Proofs.CallQueue.Contents
import Allotment.Proofs.CallQueue.Run
import Allotment.Proofs.CallQueue.Accounting
import Allotment.Proofs.CallQueue.Swap
import Allotment.Proofs.CallQueue.Orderly
import Allotment.Proofs.CallQueue.Handover
import Allotment.Proofs.CallQueue.Loss
import Allotment.Proofs.Queue.Name
import Allotment.Proofs.Queue.Fold
import Allotment.Proofs.Queue.Similar
import Allotment.Proofs.Queue.WellNamed
import Allotment.Proofs.Queue.Bare
import Allotment.Proofs.Queue.Kinds
import Allotment.Proofs.Queue.Growth
import Allotment.Proofs.Queue.Seats
import Allotment.Proofs.Queue.Entry
import Allotment.Proofs.Queue.Edit
import Allotment.Proofs.Queue.Stale
import Allotment.Proofs.Queue.Handles
import Allotment.Proofs.Queue.Plan
import Allotment.Proofs.Table
import Allotment.Proofs.Queue.Reload
import Allotment.Proofs.Queue.Outcome
import Allotment.Proofs.Queue.Placement
import Allotment.Proofs.Queue.Reachable
import Allotment.Proofs.Queue.Admissible
import Allotment.Proofs.Queue.Rejection
import Allotment.Proofs.Queue.Configured
import Allotment.Proofs.Queue.Settled
import Allotment.Proofs.CallQueue.Levels
import Allotment.Proofs.CallQueue.Tokens
import Allotment.Proofs.Queue.Modify
import Allotment.Proofs.Scheduler.Reachable
import Allotment.Proofs.Queue.Coherence
import Allotment.Proofs.Queue.Directory
import Allotment.Proofs.Queue.Indexed
import Allotment.Proofs.Queue.Aftermath
import Allotment.Proofs.Queue.Roster
import Allotment.Proofs.Queue.Quiet
import Allotment.Proofs.Node
import Allotment.Proofs.Queue.Serving
import Allotment.Proofs.Scheduler.Books
import Allotment.Proofs.Attempt
import Allotment.Proofs.Scheduler.Membership
import Allotment.Proofs.Scheduler.Accounts
import Allotment.Proofs.Scheduler.Capacity
import Allotment.Proofs.Policy
import Allotment.Proofs.Queue.Demand
import Allotment.Proofs.Queue.Choice
import Allotment.Proofs.Queue.Victim
import Allotment.Proofs.Queue.Evolution
import Allotment.Proofs.Scheduler.Evolution
import Allotment.Proofs.Scheduler.Choice
import Allotment.Proofs.Scheduler.Recall
import Allotment.Proofs.Metrics
import Allotment.Proofs.Queue.Recompute
import Allotment.Proofs.Scheduler.Recompute
import Allotment.Proofs.CallQueue.Lanes
import Allotment.Proofs.CallQueue.Session
import Allotment.Proofs.CallQueue.Ledger
import Allotment.Proofs.CallQueue.Answers
import Allotment.Proofs.CallQueue.Errands
import Allotment.Proofs.CallQueue.Charges
import Allotment.Proofs.Double.Nearest
import Allotment.Proofs.Double.Value
import Allotment.Proofs.Double.Rounding
import Allotment.Proofs.Double.Arithmetic
import Allotment.Proofs.Double.Sum
import Allotment.Proofs.Division.Ratio
import Allotment.Proofs.Division.Shares
import Allotment.Proofs.Division.Total
import Allotment.Proofs.Queue.Order
import Allotment.Proofs.Scheduler.Siblings
import Allotment.Proofs.Queue.Effect
import Allotment.Proofs.Scheduler.Effect
import Allotment.Proofs.Queue.Waiting
import Allotment.Proofs.Scheduler.Heartbeat
import Allotment.Proofs.Scheduler.Registry
import Allotment.Proofs.Queue.Branch
import Allotment.Proofs.Scheduler.Refusal
import Allotment.Proofs.Scheduler.Registration
import Allotment.Proofs.Queue.Undisturbed
import Allotment.Proofs.Queue.Parking
import Allotment.Proofs.Scheduler.Parking
import Allotment.Proofs.Balance
import Allotment.Proofs.Queue.OnDemand
import Allotment.Proofs.CallQueue.Service
import Allotment.Scalar.Rational
import Allotment.Proofs.CallQueue.Decay
import Allotment.Proofs.CallQueue.Rounds
import Allotment.Proofs.CallQueue.Standing
import Allotment.Proofs.Text
import Allotment.Proofs.Queue.Permissions
import Allotment.Proofs.Queue.Normal
import Allotment.Proofs.Queue.Faithful
import Allotment.Proofs.Queue.FullName
import Allotment.Proofs.Double.Power
import Allotment.Proofs.Double.Form
import Allotment.Proofs.Double.Shortest
import Allotment.Proofs.CallQueue.Settings
import Allotment.Proofs.Json.Number
import Allotment.Proofs.Json.Double
import Allotment.Proofs.Json.Token
import Allotment.Proofs.Json.Value
import Allotment.Proofs.Metrics.Document
import Allotment.Proofs.Scheduler.Publication
