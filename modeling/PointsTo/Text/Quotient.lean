/-!
Quotients of natural numbers as decimals: the quotient is rounded to 53 significant bits, and
written with the fewest digits after the point that are closer to the rounded value than to any
other value of 53 bits. Whole numbers are rounded in the same way.
-/
namespace PointsTo.Text

/-- The number `mantissa / 2 ^ scale`. -/
structure Rounded where
  mantissa : Nat
  scale : Nat
  deriving DecidableEq, Repr

/-- `numerator / denominator` to the nearest natural number, a half to the even neighbour. -/
def nearest (numerator denominator : Nat) : Nat :=
  let floor := numerator / denominator
  let twice := 2 * (numerator % denominator)
  if twice < denominator || twice == denominator && floor % 2 == 0 then floor else floor + 1

/-- A positive number, rounded to its 53 leading bits. -/
def leading53 (n : Nat) : Nat :=
  let spare := n.log2 - 52
  nearest n (1 <<< spare) <<< spare

namespace Rounded

/-- A positive quotient below `2 ^ 53`, with a mantissa of 53 bits. -/
def ofQuotient (total count : Nat) : Rounded :=
  let scale := 52 + count.log2 - total.log2
  let scale := if count <<< 52 ≤ total <<< scale then scale else scale + 1
  let mantissa := nearest (total <<< scale) count
  if mantissa = 1 <<< 53 then ⟨1 <<< 52, scale - 1⟩ else ⟨mantissa, scale⟩

/-- Whether `decimal / 10 ^ places` rounds to `r`. A bound of the interval around `r` belongs to it
when the mantissa is even, and below a power of two the neighbours are twice as close. -/
def covers (r : Rounded) (places decimal : Nat) : Bool :=
  let value := (4 * decimal) <<< r.scale
  let low := (4 * r.mantissa - if r.mantissa = 1 <<< 52 then 1 else 2) * Nat.pow 10 places
  let high := (4 * r.mantissa + 2) * Nat.pow 10 places
  if r.mantissa % 2 = 0 then low ≤ value && value ≤ high else low < value && value < high

/-- The multiple of `1 / 10 ^ places` that is nearest to `r` among those that round to it. -/
def decimal? (r : Rounded) (places : Nat) : Option Nat :=
  let exact := r.mantissa * Nat.pow 10 places
  let floor := exact >>> r.scale
  let closest := nearest exact (1 <<< r.scale)
  let other := if closest = floor then floor + 1 else floor
  if r.covers places closest then some closest
  else if r.covers places other then some other
  else none

/-- The first decimal, counting the digits after the point up from `places`, that rounds to `r`.
With `scale` digits it is exact. -/
def shortest (r : Rounded) : (fuel places : Nat) → Nat × Nat
  | 0, places => (places, (r.mantissa * Nat.pow 10 places) >>> r.scale)
  | fuel + 1, places => match r.decimal? places with
    | some decimal => (places, decimal)
    | none => shortest r fuel (places + 1)

end Rounded

/-- The text of `decimal / 10 ^ places`. -/
def decimalText (places decimal : Nat) : String :=
  let whole := toString (decimal / Nat.pow 10 places)
  if places = 0 then whole
  else
    let fraction := toString (decimal % Nat.pow 10 places)
    whole ++ "." ++ "".pushn '0' (places - fraction.length) ++ fraction

/-- The text of a quotient below `2 ^ 53`; nothing divided by nothing counts as zero. -/
def quotient (total count : Nat) : String :=
  if total = 0 || count = 0 then "0"
  else
    let r := Rounded.ofQuotient total count
    let (places, decimal) := r.shortest r.scale 0
    decimalText places decimal

theorem nearest_eq_floor_or_succ (numerator denominator : Nat) :
    nearest numerator denominator = numerator / denominator ∨
      nearest numerator denominator = numerator / denominator + 1 := by
  unfold nearest
  dsimp only
  split
  · exact .inl rfl
  · exact .inr rfl

theorem covers_of_decimal? {r : Rounded} {places decimal : Nat}
    (h : r.decimal? places = some decimal) : r.covers places decimal = true := by
  unfold Rounded.decimal? at h
  grind

end PointsTo.Text
