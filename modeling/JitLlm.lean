import JitLlm.Catalog.Placement
import JitLlm.Memory.Materialize
import JitLlm.Scheduler.Resuming
import JitLlm.Scheduler.Draining
import JitLlm.Scheduler.Ring
import JitLlm.Scheduler.Intents
import JitLlm.Scheduler.Withdrawn
import JitLlm.Providers.Records
import JitLlm.Runtime.Conversation
import JitLlm.Platform.PathSafety
import JitLlm.Engine.Speculation
import JitLlm.Scheduler.Fences
import JitLlm.Tokenizer.MergeOrder
import JitLlm.Runtime.Answers
import JitLlm.Scheduler.HoldWait
import JitLlm.Base.Sha256
import JitLlm.Artifact.ReadPlan
import JitLlm.Scheduler.CarryOut
import JitLlm.Scheduler.Pins
import JitLlm.Providers.Counted
import JitLlm.Artifact.JsonDocument
import JitLlm.Artifact.HeaderSound
import JitLlm.Base.JsonDocument
import JitLlm.Execution.Running
import JitLlm.Runtime.HttpArrival
import JitLlm.Tokenizer.Normalize
import JitLlm.Tokenizer.Streaming
import JitLlm.Execution.Sampling
import JitLlm.Runtime.OutputText
import JitLlm.Runtime.Speculating
import JitLlm.Model.Dspark
import JitLlm.Engine.Drafting
import JitLlm.Execution.Registry
import JitLlm.Runtime.Thinking
import JitLlm.Artifact.Rows
import JitLlm.Base.Slots
import JitLlm.Execution.State
import JitLlm.Engine.PagedWeights
