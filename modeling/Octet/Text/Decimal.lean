import Octet.Text.Hex
/-!
Binary floating-point numbers in decimal.

A finite positive number is `m · 2 ^ q`. The reals that round to it form an interval around it, ends included
iff `m` is even. `shortest` tries the decimal grids from coarse to fine; on the first grid with a point in the
interval it takes the nearer of the number's two neighbours, and the upper one if both are as near. All of it is
exact arithmetic on natural numbers.

* `floatText` writes a number with those digits and no exponent;
* `readFloat` reads a decimal, with or without exponent, or a name for infinity or for no number.
-/

namespace Octet.Text

/-! ## Exact scaling -/

/-- `2 ^ q` as a numerator and a denominator. -/
def twoPower (q : Int) : Nat × Nat := (Nat.pow 2 q.toNat, Nat.pow 2 (-q).toNat)

/-- `10 ^ k` as a numerator and a denominator. -/
def tenPower (k : Int) : Nat × Nat := (Nat.pow 10 k.toNat, Nat.pow 10 (-k).toNat)

/-- A number as a multiple of a quarter of its last binary place, with the interval of the reals that round to
it. -/
structure Rounding where
  /-- A quarter of the last place is `2 ^ quarter`. -/
  quarter : Int
  value : Nat
  low : Nat
  high : Nat
  /-- Whether the ends of the interval round to the number. -/
  closed : Bool

/-- The rounding interval of `m · 2 ^ q`. Below a power of two the numbers lie twice as dense, unless it is the
least power with a full mantissa. -/
def Rounding.of (m : Nat) (q : Int) : Rounding :=
  { quarter := q - 2
    value := 4 * m
    low := if m = Nat.pow 2 52 ∧ -1074 < q then 4 * m - 1 else 4 * m - 2
    high := 4 * m + 2
    closed := m % 2 = 0 }

namespace Rounding

variable (r : Rounding)

/-- Whether the point `c` of the grid of step `10 ^ k` lies in the interval. -/
def holds (k : Int) (c : Nat) : Bool :=
  let (un, ud) := twoPower r.quarter
  let (gn, gd) := tenPower k
  let point := c * gn * ud
  let low := r.low * un * gd
  let high := r.high * un * gd
  if r.closed then low ≤ point && point ≤ high else low < point && point < high

/-- The last point of the grid of step `10 ^ k` that is not above the number, and whether the next one is at
least as near. -/
def below (k : Int) : Nat × Bool :=
  let (un, ud) := twoPower r.quarter
  let (gn, gd) := tenPower k
  let num := r.value * un * gd
  let den := gn * ud
  (num / den, den ≤ 2 * (num % den))

/-- The point of the grid of step `10 ^ k` that stands for the number, if one does. -/
def pick? (k : Int) : Option Nat :=
  let (c, up) := r.below k
  let candidates := if up then [c + 1, c] else [c, c + 1]
  candidates.find? (r.holds k)

/-- The exponent of the first decimal digit: the greatest `e` with `10 ^ e` not above the number. -/
def leadingExponent : Int :=
  let fits (i : Nat) : Bool := 0 < (r.below (309 - (i : Int))).1
  309 - ((List.range 660).find? fits).getD 0

end Rounding

/-- The shortest decimal `c · 10 ^ k` that reads back as `m · 2 ^ q`. -/
def shortest (m : Nat) (q : Int) : Nat × Int :=
  let r := Rounding.of m q
  let e := r.leadingExponent
  let hit? := (List.range 17).findSome? fun (n : Nat) => (r.pick? (e - n)).map fun c => (c, e - (n : Int))
  hit?.getD (m, q)

/-! ## Writing -/

/-- `c · 10 ^ k` in positional notation, with no needless zero. -/
def positional (c : Nat) (k : Int) : String :=
  let digits := Nat.toDigits 10 c
  let trailing := (digits.reverse.takeWhile (· = '0')).length
  if 0 ≤ k + trailing then String.ofList (digits ++ List.replicate k.toNat '0' |>.take (digits.length + k).toNat)
  else
    let digits := digits.take (digits.length - trailing)
    let places := (-(k + trailing)).toNat
    let padded := List.replicate (places + 1 - digits.length) '0' ++ digits
    String.ofList (padded.take (padded.length - places) ++ '.' :: padded.drop (padded.length - places))

/-- A number with the fewest digits that read back, without an exponent. -/
def floatText (x : Float) : String :=
  let bits := x.toBits.toNat
  let sign := if Nat.pow 2 63 ≤ bits then "-" else ""
  let exponent : Nat := bits / Nat.pow 2 52 % Nat.pow 2 11
  let mantissa : Nat := bits % Nat.pow 2 52
  if exponent = 2047 then if mantissa = 0 then sign ++ "inf" else "NaN"
  else if exponent = 0 ∧ mantissa = 0 then sign ++ "0"
  else
    let (m, q) : Nat × Int :=
      if exponent = 0 then (mantissa, -1074) else (mantissa + Nat.pow 2 52, (exponent : Int) - 1075)
    let (c, k) := shortest m q
    sign ++ positional c k

/-! ## Reading -/

/-- `c · 10 ^ k`, rounded. Exponents far outside the range of the format are cut off first. -/
def scaled (c : Nat) (k : Int) : Float :=
  let magnitude : Int := (Nat.toDigits 10 c).length + k
  if c = 0 then 0
  else if 400 < magnitude then 1.0 / 0.0
  else if magnitude < -400 then 0
  else if 0 ≤ k then Float.ofScientific c false k.toNat
  else Float.ofScientific c true (-k).toNat

/-- Reads digits with an optional point among them and an optional exponent behind. -/
def readDecimal (cs : List Char) : Option Float :=
  let whole := cs.takeWhile isDecimalDigit
  let rest := cs.dropWhile isDecimalDigit
  let (fraction, rest) := match rest with
    | '.' :: r => (r.takeWhile isDecimalDigit, r.dropWhile isDecimalDigit)
    | r => ([], r)
  let exponent? : Option Int := match rest with
    | [] => some 0
    | e :: r =>
      if e = 'e' ∨ e = 'E' then
        let (negative, ds) := match r with
          | '-' :: ds => (true, ds)
          | '+' :: ds => (false, ds)
          | ds => (false, ds)
        if ds ≠ [] ∧ ds.all isDecimalDigit then
          let n : Int := digitsValue 10 ds
          some (if negative then -n else n)
        else none
      else none
  if whole ++ fraction = [] then none
  else exponent?.map fun e => scaled (digitsValue 10 (whole ++ fraction)) (e - fraction.length)

/-- Reads a number with an optional sign, or one of the names of infinity and of no number, in either case. -/
def readFloat (text : String) : Option Float :=
  let (negative, cs) := match text.toList with
    | '-' :: cs => (true, cs)
    | '+' :: cs => (false, cs)
    | cs => (false, cs)
  let name := String.ofList (cs.map Char.toLower)
  let magnitude? : Option Float :=
    if name = "inf" ∨ name = "infinity" then some (1.0 / 0.0)
    else if name = "nan" then some (0.0 / 0.0)
    else readDecimal cs
  magnitude?.map fun x => if negative then -x else x

end Octet.Text
