import Dataflow.Error

/-!
# Stores

A store holds bytes that are appended at its end. It knows three stages of durability: appended,
flushed (they outlive the process) and synced (they outlive a loss of power).

* `Store`: the operations. Each gives the store after it, also when it fails, so that a store may
  count calls or change its mind.
-/

namespace Dataflow

/-- The operations of a store. -/
class Store (σ : Type) where
  /-- The number of bytes, flushed or not. -/
  size : σ → Nat
  /-- Add bytes at the end. The answer is the offset at which they start. -/
  append : σ → Bytes → Except (Failure IoError) Nat × σ
  /-- Make sure that all bytes outlive the process. -/
  flush : σ → Except IoError Unit × σ
  /-- Flush, and make sure that all bytes outlive a loss of power. -/
  sync : σ → Except IoError Unit × σ
  readAt : σ → (offset length : Nat) → Except IoError Bytes × σ
  truncate : σ → (size : Nat) → Except IoError Unit × σ

namespace Store

def isEmpty {σ : Type} [Store σ] (s : σ) : Bool := size s == 0

end Store

end Dataflow
