import Abacus.Number.Arithmetic
import Abacus.Proofs.Real.Order

/-!
# Sums, products and equality either way round

Two doubles are added and multiplied exactly and rounded afterwards, and neither exact result depends
on the order of the operands. There is only one double that is no number, so that one comes out
either way round as well.

**The law.** Sums and products of doubles, of complex numbers and of numbers of any kinds are the
same with their operands exchanged (`Number.add_comm`, `Number.mul_comm`), and two numbers are equal
whichever of them stands first, also if one is no number (`Number.equals_comm`).
-/

namespace Abacus

namespace Real

open Float.Model (UnpackedFloat Format)
open Float.Model.UnpackedFloat (Sign)

/-- Signs commute. -/
theorem sign_mul_comm (s t : Sign) : s * t = t * s := by cases s <;> cases t <;> rfl

/-- Unpacked floats add alike in either order: by the kinds of both. -/
theorem unpacked_add_comm (spec : Format) (u v : UnpackedFloat) : u.add spec v = v.add spec u := by
  match u, v with
  | .finite s m e _, .finite t n f _ =>
    unfold UnpackedFloat.add
    dsimp only
    rw [Int.min_comm f e, Int.add_comm]
  | .infinity s, .infinity t | .zero s, .zero t => cases s <;> cases t <;> rfl
  | .notANumber, .notANumber | .notANumber, .infinity _ | .notANumber, .zero _
  | .notANumber, .finite .. | .infinity _, .notANumber | .zero _, .notANumber
  | .finite .., .notANumber | .infinity _, .zero _ | .infinity _, .finite ..
  | .zero _, .infinity _ | .finite .., .infinity _ | .zero _, .finite .. | .finite .., .zero _ => rfl

/-- They multiply alike in either order. -/
theorem unpacked_mul_comm (spec : Format) (u v : UnpackedFloat) : u.mul spec v = v.mul spec u := by
  match u, v with
  | .finite s m e _, .finite t n f _ =>
    unfold UnpackedFloat.mul
    dsimp only
    rw [sign_mul_comm s t, Nat.mul_comm m n, Int.add_comm e f]
  | .infinity s, .infinity t | .infinity s, .finite t .. | .finite s .., .infinity t =>
    exact congrArg UnpackedFloat.infinity (sign_mul_comm s t)
  | .zero s, .zero t | .zero s, .finite t .. | .finite s .., .zero t =>
    exact congrArg UnpackedFloat.zero (sign_mul_comm s t)
  | .notANumber, .notANumber | .notANumber, .infinity _ | .notANumber, .zero _
  | .notANumber, .finite .. | .infinity _, .notANumber | .zero _, .notANumber
  | .finite .., .notANumber | .infinity _, .zero _ | .zero _, .infinity _ => rfl

protected theorem add_comm (x y : Float) : x + y = y + x :=
  congrArg (fun u => Float.ofModel (.pack u))
    (unpacked_add_comm .binary64 x.toModel.unpack y.toModel.unpack)

protected theorem mul_comm (x y : Float) : x * y = y * x :=
  congrArg (fun u => Float.ofModel (.pack u))
    (unpacked_mul_comm .binary64 x.toModel.unpack y.toModel.unpack)

end Real

namespace Complex

variable (z w : Complex)

protected theorem add_comm : z + w = w + z := by
  show mk (z.re + w.re) (z.im + w.im) = mk (w.re + z.re) (w.im + z.im)
  rw [Real.add_comm z.re, Real.add_comm z.im]

protected theorem mul_comm : z * w = w * z := by
  show mk (z.re * w.re - z.im * w.im) (z.re * w.im + z.im * w.re) =
    mk (w.re * z.re - w.im * z.im) (w.re * z.im + w.im * z.re)
  rw [Real.mul_comm z.re w.re, Real.mul_comm z.im w.im, Real.mul_comm z.re w.im,
    Real.mul_comm z.im w.re, Real.add_comm (w.im * z.re)]

protected theorem equals_comm : z.equals w = w.equals z := by
  rw [equals, equals, Real.beq_comm z.re, Real.beq_comm z.im]

end Complex

namespace Number

/-- A pair of numbers of one kind, the other way round. -/
def Pair.swap : Pair → Pair
  | .integers a b => .integers b a
  | .reals a b => .reals b a
  | .complexes a b => .complexes b a

/-- The common kind is the same whichever number stands first. -/
theorem meet_swap (a b : Number) : meet b a = (meet a b).swap := by
  cases a <;> cases b <;> rfl

protected theorem add_comm (a b : Number) : a.add b = b.add a := by
  rw [add, add, meet_swap a b]
  cases meet a b with
  | integers m n => simp only [Pair.swap, Int.add_comm, Real.add_comm]
  | reals x y => simp only [Pair.swap, Real.add_comm]
  | complexes z w => simp only [Pair.swap, Complex.add_comm]

protected theorem mul_comm (a b : Number) : a.mul b = b.mul a := by
  rw [mul, mul, meet_swap a b]
  cases meet a b with
  | integers m n => simp only [Pair.swap, Int.mul_comm, Real.mul_comm]
  | reals x y => simp only [Pair.swap, Real.mul_comm]
  | complexes z w => simp only [Pair.swap, Complex.mul_comm]

protected theorem equals_comm (a b : Number) : a.equals b = b.equals a := by
  rw [equals, equals, meet_swap a b]
  cases meet a b with
  | integers m n => exact Bool.beq_comm
  | reals x y => exact Real.beq_comm x y
  | complexes z w => exact z.equals_comm w

end Number

end Abacus
