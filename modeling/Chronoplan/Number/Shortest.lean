import Chronoplan.Number.Binary64

/-!
# The shortest decimal text of a binary64

`shortest` finds the decimal with the fewest digits among those that round to a given number, and
the nearest of these. The search is exact: on the grid of 1, 2, …, 17 digits it tests the two
grid points beside the number against the interval of reals that round to it. Where the point and
the exponent go is a separate decision, the record `Layout`.
-/

set_option autoImplicit false

namespace Chronoplan

def decimalWidth (n : Nat) : Nat := (Nat.toDigits 10 n).length

def leadingExponent (n d : Nat) : Int :=
  if d ≤ n then (decimalWidth (n / d) : Int) - 1
  else -(decimalWidth ((d + n - 1) / n - 1) : Int)

namespace Binary64

/-- The reals that round to a positive binary64, and whether the ends belong to them. -/
structure Cell where
  low : Rat
  high : Rat
  closed : Bool

def Cell.has (c : Cell) (q : Rat) : Bool :=
  if c.closed then decide (c.low ≤ q) && decide (q ≤ c.high)
  else decide (c.low < q) && decide (q < c.high)

def power (b : Nat) (e : Int) : Rat :=
  if e ≥ 0 then (Nat.pow b e.toNat : Rat) else mkRat 1 (Nat.pow b (-e).toNat)

def cell (q : Rat) : Cell :=
  let e := unitExponent q.num.natAbs q.den
  let unit := power 2 e
  let m := (q / unit).floor
  let below := if m = 4503599627370496 ∧ e > -1074 then unit / 2 else unit
  { low := q - below / 2, high := q + unit / 2, closed := m % 2 == 0 }

def gridPoint? (c : Cell) (q : Rat) (exponent : Int) : Option Nat :=
  let unit := power 10 exponent
  let below := (q / unit).floor.toNat
  let above := below + 1
  match c.has (below * unit), c.has (above * unit) with
  | true, false => some below
  | false, true => some above
  | false, false => none
  | true, true =>
    let down := q - below * unit
    let up := above * unit - q
    if down < up then some below
    else if up < down then some above
    else if below % 2 = 0 then some below else some above

def firstGrid (c : Cell) (q : Rat) (lead : Int) : Nat → Nat → Nat × Int
  | 0, _ => ((q / power 10 (lead - 16)).floor.toNat, lead - 16)
  | count + 1, width =>
    let exponent := lead - width
    match gridPoint? c q exponent with
    | some d => (d, exponent)
    | none => firstGrid c q lead count (width + 1)

/-- Digits `d` and exponent `e` of the shortest decimal `d · 10^e` of a positive number. -/
def shortest (q : Rat) : Nat × Int :=
  firstGrid (cell q) q (leadingExponent q.num.natAbs q.den) 17 0

end Binary64

structure Layout where
  lowest : Int
  highest : Int
  wholeSuffix : String
  mark : String
  exponentWidth : Nat

def Layout.zeros (n : Nat) : String := String.ofList (List.replicate n '0')

def Layout.exponentText (l : Layout) (e : Int) : String :=
  let digits := toString e.natAbs
  l.mark ++ (if e < 0 then "-" else "+")
    ++ Layout.zeros (l.exponentWidth - digits.length) ++ digits

def Layout.positive (l : Layout) (q : Rat) : String :=
  let (d, e) := Binary64.shortest q
  let all := Nat.toDigits 10 d
  let lead := e + all.length - 1
  let kept := (all.reverse.dropWhile (· == '0')).reverse
  if lead < l.lowest ∨ l.highest < lead then
    match kept with
    | [] => "0"
    | [c] => String.singleton c ++ l.exponentText lead
    | c :: cs => String.singleton c ++ "." ++ String.ofList cs ++ l.exponentText lead
  else if lead < 0 then
    "0." ++ Layout.zeros ((-lead).toNat - 1) ++ String.ofList kept
  else
    let whole := lead.toNat + 1
    if kept.length ≤ whole then
      String.ofList kept ++ Layout.zeros (whole - kept.length) ++ l.wholeSuffix
    else
      String.ofList (kept.take whole) ++ "." ++ String.ofList (kept.drop whole)

def Layout.text (l : Layout) : Binary64 → String
  | .nan _ => "nan"
  | .negInf => "-inf"
  | .posInf => "inf"
  | .negZero => "-0" ++ l.wholeSuffix
  | .finite q =>
    if q = 0 then "0" ++ l.wholeSuffix
    else if q < 0 then "-" ++ l.positive (-q)
    else l.positive q

def Layout.plain : Layout :=
  { lowest := -4, highest := 15, wholeSuffix := ".0", mark := "e", exponentWidth := 2 }

def Binary64.text (x : Binary64) : String := Layout.plain.text x

end Chronoplan
