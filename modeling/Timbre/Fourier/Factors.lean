/-! # Factors of a length

How often small primes divide a length and what is left without them, and the whole list of prime
powers of a length. A list of prime powers is balanced into two factors of about the same size.
-/
namespace Timbre.Fourier

/-- How often a factor divides a number, and what is left of it, in at most `fuel` steps. -/
def takeOut (factor : Nat) : Nat → Nat → Nat × Nat
  | 0, n => (0, n)
  | fuel + 1, n =>
    if n % factor = 0 then
      let (count, rest) := takeOut factor fuel (n / factor)
      (count + 1, rest)
    else (0, n)

structure Factors where
  twos : Nat
  threes : Nat
  fives : Nat
  sevens : Nat
  rest : Nat
deriving DecidableEq, Repr

def Factors.ofNat (n : Nat) : Factors :=
  let fuel := Nat.log2 n + 1
  let (twos, n) := takeOut 2 fuel n
  let (threes, n) := takeOut 3 fuel n
  let (fives, n) := takeOut 5 fuel n
  let (sevens, rest) := takeOut 7 fuel n
  ⟨twos, threes, fives, sevens, rest⟩

/-- The primes from `p` on that divide a number, each with its power, in at most `fuel` steps. -/
def primePowersFrom : Nat → Nat → Nat → List (Nat × Nat)
  | 0, _, _ => []
  | fuel + 1, p, n =>
    if n < 2 then []
    else if n < p * p then [(n, 1)]
    else
      match takeOut p (Nat.log2 n + 1) n with
      | (0, _) => primePowersFrom fuel (p + 1) n
      | (count, rest) => (p, count) :: primePowersFrom fuel (p + 1) rest

def primePowers (n : Nat) : List (Nat × Nat) := primePowersFrom n 2 n

def isPrime (n : Nat) : Bool := primePowers n == [(n, 1)]

def product (factors : List (Nat × Nat)) : Nat :=
  factors.foldl (fun n f => n * Nat.pow f.1 f.2) 1

/-- Two factors of about the same size. A square and a power of one prime are halved; otherwise each
prime power goes to the factor that is smaller so far, and to the first one of two equal ones. -/
def balanced (factors : List (Nat × Nat)) : Nat × Nat :=
  if factors.length = 1 ∨ factors.all (·.2 % 2 = 0) then
    (product (factors.map fun f => (f.1, f.2 - f.2 / 2)),
      product (factors.map fun f => (f.1, f.2 / 2)))
  else factors.foldl (fun (first, second) f =>
    if first ≤ second then (first * Nat.pow f.1 f.2, second)
    else (first, second * Nat.pow f.1 f.2)) (1, 1)

end Timbre.Fourier
