/-! Bounds on the work that one expression may cause. -/
namespace Reckoner

structure Limits where
  /-- The longest expression, in characters after the glyphs are replaced. -/
  maxInputLength : UInt64
  /-- The deepest nesting of parentheses, signs and powers. -/
  maxDepth : UInt32
  /-- The widest integer, in bits. -/
  maxIntBits : UInt64
  /-- The number of expression nodes that may be evaluated. -/
  gasLimit : UInt64
  deriving Repr, DecidableEq

def Limits.standard : Limits where
  maxInputLength := 1000
  maxDepth := 64
  maxIntBits := 1048576
  gasLimit := 10000

instance : Inhabited Limits := ⟨Limits.standard⟩

end Reckoner
