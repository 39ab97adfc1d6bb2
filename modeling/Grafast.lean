import Grafast.Batch.Restrict
import Grafast.Batch.Scatter
import Grafast.Batch.Trace
import Grafast.Batch.Traverse
import Grafast.Cache.Lookup
import Grafast.Cache.OrderedDict
import Grafast.Cache.PlanCache
import Grafast.Cache.Theorems.Lookup
import Grafast.Cache.Theorems.PlanCache
import Grafast.Cache.Theorems.Variant
import Grafast.Cache.Variant
import Grafast.Dag.Passes
import Grafast.Dag.Plan
import Grafast.Dag.Theorems.Complete
import Grafast.Dag.Theorems.Congruence
import Grafast.Dag.Theorems.Deduplicate
import Grafast.Dag.Theorems.Eradicate
import Grafast.Dag.Theorems.Invariant
import Grafast.Dag.Theorems.Objects
import Grafast.Dag.Theorems.Operation
import Grafast.Dag.Theorems.Optimize
import Grafast.Dag.Theorems.Passes
import Grafast.Dag.Theorems.Plan
import Grafast.Dag.Theorems.Registry
import Grafast.Execute.Completion
import Grafast.Execute.Concurrency
import Grafast.Execute.Entrywise
import Grafast.Execute.Extra
import Grafast.Execute.Itemwise
import Grafast.Execute.Layer
import Grafast.Execute.Reference
import Grafast.Execute.Serial
import Grafast.Execute.Theorems.Batched
import Grafast.Execute.Theorems.Completion
import Grafast.Execute.Theorems.Concurrency
import Grafast.Execute.Theorems.Entrywise
import Grafast.Execute.Theorems.Errors
import Grafast.Execute.Theorems.Extra
import Grafast.Execute.Theorems.Fields
import Grafast.Execute.Theorems.Heads
import Grafast.Execute.Theorems.Itemwise
import Grafast.Execute.Theorems.Layer
import Grafast.Execute.Theorems.Lists
import Grafast.Execute.Theorems.Objects
import Grafast.Execute.Theorems.Reference
import Grafast.Execute.Theorems.Serial
import Grafast.Execute.Theorems.StreamItem
import Grafast.Execute.Value
import Grafast.Graph.Chain
import Grafast.Graph.Height
import Grafast.Graph.PostOrder
import Grafast.Graph.Redirect
import Grafast.Incremental.Delivery
import Grafast.Incremental.Graph
import Grafast.Incremental.Group
import Grafast.Incremental.Protocol
import Grafast.Incremental.Publisher
import Grafast.Incremental.Record
import Grafast.Incremental.Stream
import Grafast.Incremental.Streamed
import Grafast.Incremental.Theorems.Accounts
import Grafast.Incremental.Theorems.Capture
import Grafast.Incremental.Theorems.Data
import Grafast.Incremental.Theorems.Delivery
import Grafast.Incremental.Theorems.Drive
import Grafast.Incremental.Theorems.Events
import Grafast.Incremental.Theorems.Graph
import Grafast.Incremental.Theorems.Group
import Grafast.Incremental.Theorems.Handle
import Grafast.Incremental.Theorems.Healthy
import Grafast.Incremental.Theorems.Log
import Grafast.Incremental.Theorems.Promote
import Grafast.Incremental.Theorems.Protocol
import Grafast.Incremental.Theorems.Publisher
import Grafast.Incremental.Theorems.Reveal
import Grafast.Incremental.Theorems.Stream
import Grafast.Incremental.Theorems.Walk
import Grafast.Incremental.Theorems.Wired
import Grafast.Incremental.Walk
import Grafast.Naming.Numbered
import Grafast.Pg.Aggregate
import Grafast.Pg.Binds
import Grafast.Pg.Connection
import Grafast.Pg.Cursor
import Grafast.Pg.Customizer
import Grafast.Pg.Inline
import Grafast.Pg.Keyed
import Grafast.Pg.KeysetCursor
import Grafast.Pg.Mutation
import Grafast.Pg.Ordering
import Grafast.Pg.Page
import Grafast.Pg.Relation
import Grafast.Pg.Resource
import Grafast.Pg.Select
import Grafast.Pg.SelectAll
import Grafast.Pg.SharedTxn
import Grafast.Pg.Theorems.AddOrder
import Grafast.Pg.Theorems.Aggregate
import Grafast.Pg.Theorems.Binds
import Grafast.Pg.Theorems.Codec
import Grafast.Pg.Theorems.Connection
import Grafast.Pg.Theorems.Customizer
import Grafast.Pg.Theorems.Flags
import Grafast.Pg.Theorems.Inline
import Grafast.Pg.Theorems.Keyed
import Grafast.Pg.Theorems.KeysetCursor
import Grafast.Pg.Theorems.Page
import Grafast.Pg.Theorems.Placeholders
import Grafast.Pg.Theorems.Select
import Grafast.Pg.Theorems.SharedTxn
import Grafast.Pg.Theorems.Transform
import Grafast.Pg.Theorems.Union
import Grafast.Pg.Transform
import Grafast.Pg.Union
import Grafast.Planner.Effects
import Grafast.Planner.Finalize
import Grafast.Planner.Hoist
import Grafast.Planner.Operation
import Grafast.Planner.Projection
import Grafast.Planner.Schedule
import Grafast.Planner.Theorems.Effects
import Grafast.Planner.Theorems.Finalize
import Grafast.Planner.Theorems.FiresOnce
import Grafast.Planner.Theorems.Hoist
import Grafast.Planner.Theorems.HoistLayer
import Grafast.Planner.Theorems.Operation
import Grafast.Planner.Theorems.Orphans
import Grafast.Planner.Theorems.Planted
import Grafast.Planner.Theorems.Schedule
import Grafast.Planner.Theorems.Survivors
import Grafast.Planner.Theorems.Tree
import Grafast.Planner.Tree
import Grafast.Replay.Program
import Grafast.Request.Collect
import Grafast.Request.Constraint
import Grafast.Request.Data
import Grafast.Request.Document
import Grafast.Request.FieldArgs
import Grafast.Request.Gate
import Grafast.Request.Planning
import Grafast.Request.Resolver
import Grafast.Request.Source
import Grafast.Request.Theorems.Defer
import Grafast.Request.Theorems.Directives
import Grafast.Request.Theorems.Gate
import Grafast.Request.Theorems.Planning
import Grafast.Request.Theorems.Resolver
import Grafast.Request.Theorems.Source
import Grafast.Sql.Engine
import Grafast.Sql.Expression
import Grafast.Sql.Order
import Grafast.Sql.Ordered
import Grafast.Sql.Paging
import Grafast.Sql.Sorting
import Grafast.Step.Basic
import Grafast.Step.Core
import Grafast.Step.Each
import Grafast.Step.GlobalId
import Grafast.Step.Isolation
import Grafast.Step.Load
import Grafast.Step.Run
import Grafast.Step.Theorems.Core
import Grafast.Step.Theorems.Each
import Grafast.Step.Theorems.GlobalId
import Grafast.Step.Theorems.Isolation
import Grafast.Step.Theorems.Load
import Grafast.Step.Theorems.Meaning
import Grafast.Step.Theorems.Run
import Grafast.Text.Base64
import Grafast.Text.Dumps
import Grafast.Text.Envelope
import Grafast.Text.Json
import Grafast.Text.Nesting
import Grafast.Text.Truncated
import Grafast.Text.Unicode
