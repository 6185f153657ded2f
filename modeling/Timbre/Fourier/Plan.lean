import Timbre.Fourier.Transform
import Timbre.Scratch

/-! # Planned transforms

A plan is a transform together with a pool of buffers of the planned length. A run fills a free
buffer, transforms it and reads the result; the buffer keeps the result for whoever is next, who has
to fill all that is read.
-/
namespace Timbre

structure Plan (α : Type) where
  transform : Array (Bin α) → Array (Bin α)
  pool : ScratchPool (Array (Bin α))

namespace Plan

variable {α β : Type}

def ofLength [Zero α] (transform : Array (Bin α) → Array (Bin α)) (length workers : Nat) :
    Plan α where
  transform := transform
  pool := .ofSize workers (Array.replicate length .zero)

/-- Hands a free buffer to `work`, which answers what is left in it and a result. -/
def run (plan : Plan α) (work : Array (Bin α) → Except Fault (Array (Bin α) × β)) :
    Except Fault (β × Plan α) :=
  match plan.pool.borrow fun buffer pool =>
      match work buffer with
      | .error e => .error e
      | .ok (left, result) => .ok (left, pool, result) with
  | .error e => .error e
  | .ok (pool, result) => .ok (result, { plan with pool := pool })

end Plan

end Timbre
