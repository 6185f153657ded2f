/-! # Generators of a prime

The powers of a generator of a prime run through all numbers from one up to the prime. Backwards
they are the powers of its inverse.
-/
namespace Timbre.Fourier

/-- So many numbers from `a` on, each `g` times the one before it modulo `n`. -/
def powers (g n : Nat) : Nat → Nat → List Nat
  | 0, _ => []
  | count + 1, a => a :: powers g n count (a * g % n)

def generates (g n : Nat) : Bool := (powers g n (n - 2) g).all (· != 1)

def generator (n : Nat) : Nat := ((List.range' 2 (n - 2)).find? (generates · n)).getD 1

end Timbre.Fourier
