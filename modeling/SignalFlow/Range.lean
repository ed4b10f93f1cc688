import SignalFlow.Relation

/-!
# Ranges

Intervals of scalars with open or closed, finite or infinite ends.  Ranges are joined
(`hull`), met (`intersect?`) and pushed through arithmetic; each operation covers every
value that its operands allow.
-/

namespace SignalFlow

/-- The values between `lo` and `hi`; a strict end does not belong to the range. -/
structure Range (R : Type) where
  lo : R
  hi : R
  loStrict : Bool
  hiStrict : Bool
  deriving BEq, Repr

namespace Range

variable {R : Type} [Scalar R]

/-- Both ends belong to the range. -/
def closed (lo hi : R) : Range R :=
  ⟨lo, hi, false, false⟩

/-- Every value. -/
def full : Range R :=
  ⟨-Scalar.infinity, Scalar.infinity, true, true⟩

/-- A single value. -/
def point (v : R) : Range R :=
  closed v v

/-- The values that stand in the comparison `c` to `v`; `ne` excludes too little to narrow
a range. -/
def ofComparison (c : Comparison) (v : R) : Range R :=
  match c with
  | .eq => point v
  | .ne => full
  | .lt => { (full : Range R) with hi := v, hiStrict := true }
  | .le => { (full : Range R) with hi := v, hiStrict := false }
  | .gt => { (full : Range R) with lo := v, loStrict := true }
  | .ge => { (full : Range R) with lo := v, loStrict := false }

/-- Neither end is finite. -/
def isFull (r : Range R) : Bool :=
  r.lo == -Scalar.infinity && r.hi == Scalar.infinity

/-- No value lies in the range. -/
def isEmpty (r : Range R) : Bool :=
  r.hi < r.lo || (r.lo == r.hi && (r.loStrict || r.hiStrict))

/-- Whether `v` lies in the range. -/
def contains (r : Range R) (v : R) : Bool :=
  (if r.loStrict then r.lo < v else r.lo ≤ v) &&
    (if r.hiStrict then v < r.hi else v ≤ r.hi)

/-- Whether zero lies in the range. -/
def containsZero (r : Range R) : Bool :=
  r.contains 0

/-- Both ends are finite. -/
def isFinite (r : Range R) : Bool :=
  Scalar.isFinite r.lo && Scalar.isFinite r.hi

/-- The least range that covers both. -/
def hull (r s : Range R) : Range R :=
  let (lo, loStrict) :=
    if r.lo < s.lo then (r.lo, r.loStrict)
    else if s.lo < r.lo then (s.lo, s.loStrict)
    else (r.lo, r.loStrict && s.loStrict)
  let (hi, hiStrict) :=
    if s.hi < r.hi then (r.hi, r.hiStrict)
    else if r.hi < s.hi then (s.hi, s.hiStrict)
    else (r.hi, r.hiStrict && s.hiStrict)
  ⟨lo, hi, loStrict, hiStrict⟩

/-- The common values, if there are any. -/
def intersect? (r s : Range R) : Option (Range R) :=
  let (lo, loStrict) :=
    if s.lo < r.lo then (r.lo, r.loStrict)
    else if r.lo < s.lo then (s.lo, s.loStrict)
    else (r.lo, r.loStrict || s.loStrict)
  let (hi, hiStrict) :=
    if r.hi < s.hi then (r.hi, r.hiStrict)
    else if s.hi < r.hi then (s.hi, s.hiStrict)
    else (r.hi, r.hiStrict || s.hiStrict)
  let meet : Range R := ⟨lo, hi, loStrict, hiStrict⟩
  if meet.isEmpty then none else some meet

/-- A value, or `fallback` in place of an undefined one. -/
def definedOr (fallback v : R) : R :=
  if Scalar.isUndefined v then fallback else v

/-- Sums of a value of each range. -/
def add (r s : Range R) : Range R :=
  { lo := definedOr (-Scalar.infinity) (r.lo + s.lo)
    hi := definedOr Scalar.infinity (r.hi + s.hi)
    loStrict := r.loStrict || s.loStrict
    hiStrict := r.hiStrict || s.hiStrict }

/-- Negated values. -/
def neg (r : Range R) : Range R :=
  { lo := -r.hi, hi := -r.lo, loStrict := r.hiStrict, hiStrict := r.loStrict }

/-- Both ends multiplied by a positive factor. -/
def stretch (k : R) (r : Range R) : Range R :=
  { r with lo := r.lo * k, hi := r.hi * k }

/-- Values multiplied by `k`.  There is no such range for an undefined factor, and what is
given then has no meaning. -/
def scale (k : R) (r : Range R) : Range R :=
  if k == 0 then point 0
  else if 0 < k then r.stretch k
  else r.neg.stretch (-k)

/-- Values shifted by `c`. -/
def offset (c : R) (r : Range R) : Range R :=
  { r with lo := r.lo + c, hi := r.hi + c }

/-- Product of two ends; zero times an infinite end is zero. -/
def mulEnds (a b : R) : R :=
  if a == 0 || b == 0 then 0 else a * b

/-- Products of a value of each range, with closed ends. -/
def mul (r s : Range R) : Range R :=
  let corners :=
    [mulEnds r.lo s.lo, mulEnds r.lo s.hi, mulEnds r.hi s.lo, mulEnds r.hi s.hi]
  closed (corners.foldl Scalar.lesser Scalar.infinity)
    (corners.foldl Scalar.greater (-Scalar.infinity))

/-- Reciprocals, unless zero lies in the range. -/
def recip? (r : Range R) : Option (Range R) :=
  if r.containsZero || r.isFull then none
  else
    let a := 1 / r.hi
    let b := 1 / r.lo
    some
      { lo := Scalar.lesser a b
        hi := Scalar.greater a b
        loStrict := r.hiStrict
        hiStrict := r.loStrict }

/-- Absolute values. -/
def abs (r : Range R) : Range R :=
  if 0 ≤ r.lo then r
  else if r.hi ≤ 0 then r.neg
  else
    { lo := 0
      hi := Scalar.greater (-r.lo) r.hi
      loStrict := false
      hiStrict := if r.hi < -r.lo then r.loStrict else r.hiStrict }

/-- Whether every value of the range stands in the comparison `c` to zero. -/
def allSatisfySign (r : Range R) (c : Comparison) : Bool :=
  match c with
  | .gt => 0 < r.lo || (r.lo == 0 && r.loStrict)
  | .ge => 0 ≤ r.lo
  | .lt => r.hi < 0 || (r.hi == 0 && r.hiStrict)
  | .le => r.hi ≤ 0
  | .eq => r.lo == 0 && r.hi == 0
  | .ne => !r.containsZero

/-- Values cut off below `lo` and above `hi`. -/
def clamp (lo hi : R) (r : Range R) : Range R :=
  let cut (v : R) : R := Scalar.lesser (Scalar.greater v lo) hi
  { lo := cut r.lo
    hi := cut r.hi
    loStrict := r.loStrict && lo < r.lo && r.lo < hi
    hiStrict := r.hiStrict && r.hi < hi && lo < r.hi }

end Range
end SignalFlow
