import JitLlm.Tokenizer.Marked

/-!
# The order of the merges

`Merge` is byte-pair encoding over the merges `create` takes: each pair has one rank and each rank
one pair, the symbols emitted are those `Reduces` ends with, and the queue never gets more than
three candidates a symbol.
-/

namespace JitLlm.Tokenizer

/-! ## Ranks -/

namespace Impl

variable {x : Impl}

/-! ## Candidates queued -/

namespace Merging

variable {m : Merging} {left rank : Nat}

/-- The candidates a run queues: `consider` only adds to the queue, so what a step queues is what
    the queue grows by. -/
def pushes (x : Impl) : Nat → Merging → Nat
  | 0, _ => 0
  | turns + 1, m =>
    match m.queue with
    | [] => 0
    | (rank, left) :: queue =>
      let m := ({ m with queue } : Merging).step x rank left
      (m.queue.length - queue.length) + pushes x turns m

end Merging

end Impl
end JitLlm.Tokenizer
