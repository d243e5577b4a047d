/-! # Sources of randomness

Everything random is decided by 64-bit words taken one at a time from a source.
-/

namespace LSystem

class Source (σ : Type) where
  next : σ → UInt64 × σ

@[inline] def draw {σ : Type} [Source σ] : StateM σ UInt64 := Source.next

/-- The next `n` words of a source and what is left of it. -/
def drawn {σ : Type} [Source σ] : Nat → σ → List UInt64 × σ
  | 0, s => ([], s)
  | n + 1, s =>
    let (u, s) := Source.next s
    let (us, s) := drawn n s
    (u :: us, s)

end LSystem
