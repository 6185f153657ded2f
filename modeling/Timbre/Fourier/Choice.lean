import Timbre.Fourier.Factors
import Timbre.Fourier.Scheme

/-! # The scheme of a length

Short lengths have schemes of their own. The product of two of them is taken without roots between
them if they have no common factor, and as a grid otherwise; of several products the one with the
closest factors counts. Any other length with a factor up to seven is a base and a chain of small
factors, each a grid over what comes before it; one without is a grid of two balanced factors. A
prime is a convolution: in a cycle of one value less if that length has no large factor, and with a
chirp otherwise. Main statement: the scheme of a length has that length (`length_ofLength`).
-/
namespace Timbre.Fourier.Scheme

/-- An odd length whose products are added in the order of their values. -/
def odd (n : Nat) : Scheme := .mirrored .places n

def short? : Nat → Option Scheme
  | 2 => some .two
  | 3 => some (odd 3)
  | 4 => some .four
  | 5 => some (odd 5)
  | 6 => some (.coprime (odd 3) .two)
  | 7 => some (.mirrored .angles 7)
  | 8 => some (.grid .properRoots .two .four)
  | 9 => some (.grid .properRoots (odd 3) (odd 3))
  | 11 => some (odd 11)
  | 12 => some (.coprime .four (odd 3))
  | 13 => some (odd 13)
  | 16 => some (.split (.grid .properRoots .two .four) .four)
  | 17 => some (odd 17)
  | 19 => some (odd 19)
  | 23 => some (odd 23)
  | 24 => some (.grid .properRoots .four (.coprime (odd 3) .two))
  | 27 => some (.grid .properRoots (odd 3) (.grid .properRoots (odd 3) (odd 3)))
  | 29 => some (odd 29)
  | 31 => some (odd 31)
  | 32 =>
    some (.split (.split (.grid .properRoots .two .four) .four) (.grid .properRoots .two .four))
  | _ => none

def join (p q : Nat) (a b : Scheme) : Scheme :=
  if Nat.gcd p q = 1 then .coprime a b else .grid .all a b

/-- The product of two short lengths, the closest ones first. Powers of two are left to chains. -/
def product? (n : Nat) : Option Scheme :=
  if n &&& (n - 1) = 0 then none
  else (List.range 32).reverse.findSome? fun p =>
    if 2 ≤ p ∧ p * p ≤ n ∧ n % p = 0 then
      match short? p, short? (n / p) with
      | some a, some b => some (join p (n / p) a b)
      | _, _ => none
    else none

def base (f : Factors) : Nat :=
  if f.rest ≠ 1 then f.rest
  else if f.sevens = 0 ∧ f.fives = 0 ∧ f.threes = 0 then if f.twos % 2 = 1 then 32 else 16
  else if f.sevens = 0 ∧ f.fives = 0 ∧ f.threes = 1 then if f.twos % 2 = 1 then 24 else 12
  else if 0 < f.twos ∧ 0 < f.threes then
    if f.twos ≤ f.threes then 6 else if f.twos = f.threes + 1 then 12 else 24
  else if 2 < f.threes then 27
  else if 1 < f.threes then 9
  else if 0 < f.sevens then 7
  else 5

/-- The factors that a chain adds to its base, the first one innermost: sevens, sixes, fives and
threes, one two if the twos are odd in number, and fours. -/
def steps (n : Nat) : List Nat :=
  let fuel := Nat.log2 n + 1
  let (sevens, n) := takeOut 7 fuel n
  let (sixes, n) := takeOut 6 fuel n
  let (fives, n) := takeOut 5 fuel n
  let (threes, n) := takeOut 3 fuel n
  let (twos, _) := takeOut 2 fuel n
  List.replicate sevens 7 ++ List.replicate sixes 6 ++ List.replicate fives 5 ++
    List.replicate threes 3 ++ List.replicate (twos % 2) 2 ++ List.replicate (twos / 2) 4

def chain (base : Scheme) (factors : List Nat) : Scheme :=
  factors.foldl (fun s p => .grid .laterColumns ((short? p).getD (.direct p)) s) base

/-- The length of the cycle in which `n` values are convolved with a chirp: the least power of two
that holds `2 * n - 1` values, or three quarters of it if they are enough. -/
def chirpCycle (n : Nat) : Nat :=
  let whole := 1 <<< (Nat.log2 (2 * n - 2) + 1)
  let most := whole / 4 * 3
  if 2 * n - 1 ≤ most then most else whole

def maxCycleFactor : Nat := 23

def ofLengthWithin : Nat → Nat → Scheme
  | 0, n => .direct n
  | depth + 1, n =>
    match (short? n).or (product? n) with
    | some s => s
    | none =>
      if n < 2 then .direct n
      else if isPrime n then
        if (primePowers (n - 1)).all (·.1 ≤ maxCycleFactor) then
          .cycle (ofLengthWithin depth (n - 1))
        else .chirp n (ofLengthWithin depth (chirpCycle n))
      else if (primePowers n).any (·.1 ≤ 7) then
        let first := base (.ofNat n)
        chain (ofLengthWithin depth first) (steps (n / first))
      else
        let (row, column) := balanced (primePowers n)
        .grid .all (ofLengthWithin depth row) (ofLengthWithin depth column)

/-- The scheme of a length. A prime is followed by an even length and every other length by at most
half of it, so the depth is enough. -/
def ofLength (n : Nat) : Scheme :=
  let s := ofLengthWithin (2 * Nat.log2 n + 4) n
  if s.length = n then s else .direct n

theorem length_ofLength (n : Nat) : (ofLength n).length = n := by
  unfold ofLength
  dsimp only
  split
  · assumption
  · rfl

end Timbre.Fourier.Scheme
