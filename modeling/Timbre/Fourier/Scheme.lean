import Timbre.Fourier.Convolution

/-! # Schemes of a transform

A scheme says how the transform of one length is put together from shorter ones. In exact arithmetic
all schemes of a length agree. They differ in where sums overflow and in which bins an infinite
value reaches, so the scheme is part of what a transform answers. Main statement: a scheme of length
`n` answers `n` bins (`size_run`).
-/
namespace Timbre.Fourier

variable {α : Type}

/-- Which values of a grid are multiplied by their root of unity. -/
inductive Twist
  /-- All of them, also those whose root is one. -/
  | all
  /-- Those outside the first column. -/
  | laterColumns
  /-- Those whose root is not a number of eighth turns; the others are turned. -/
  | properRoots
deriving DecidableEq, Repr

/-- In which order the products of a sum are added: by the places of the values or by the angles of
the roots. -/
inductive SumOrder
  | places
  | angles
deriving DecidableEq, Repr

inductive Scheme
  /-- Sums over all values, in double precision. -/
  | direct (length : Nat)
  | two
  /-- Four values, with a quarter turn. -/
  | four
  /-- An odd length, by sums and differences of the values that mirror each other. -/
  | mirrored (order : SumOrder) (length : Nat)
  /-- A length that is a product of two without a common factor; no root stands between them. -/
  | coprime (first second : Scheme)
  /-- A product of two lengths: the transforms of the columns, turned, then those of the rows. -/
  | grid (twist : Twist) (row column : Scheme)
  /-- Half of the values at even places and two quarters at odd ones. -/
  | split (evens odds : Scheme)
  /-- A prime length, as a cyclic convolution of one value less. -/
  | cycle (inner : Scheme)
  /-- Any length, as a convolution with a chirp in a cycle of about twice as many values. -/
  | chirp (length : Nat) (inner : Scheme)
deriving Repr

namespace Scheme

def length : Scheme → Nat
  | direct n => n
  | two => 2
  | four => 4
  | mirrored _ n => n
  | coprime first second => first.length * second.length
  | grid _ row column => row.length * column.length
  | split _ odds => 4 * odds.length
  | cycle inner => inner.length + 1
  | chirp n _ => n

end Scheme

def direct (direction : Direction) (xs : Array (Bin Float)) : Array (Bin Float) :=
  let n := xs.size
  let roots := Array.ofFn fun k : Fin n => root direction k n
  Array.ofFn fun k : Fin n =>
    (xs.foldl (fun (acc : Bin Float × Nat) x =>
      (acc.1.add (x.mul (roots.getD (k.val * acc.2 % n) .zero)), acc.2 + 1)) (.zero, 0)).1

def two [Zero α] [Add α] [Sub α] (xs : Array (Bin α)) : Array (Bin α) :=
  #[(binAt xs 0).add (binAt xs 1), (binAt xs 0).sub (binAt xs 1)]

def four [Zero α] [Add α] [Sub α] [Neg α] (direction : Direction) (xs : Array (Bin α)) :
    Array (Bin α) :=
  let even := (binAt xs 0).add (binAt xs 2)
  let odd := (binAt xs 1).add (binAt xs 3)
  let straight := (binAt xs 0).sub (binAt xs 2)
  let turned := quarterTurn direction ((binAt xs 1).sub (binAt xs 3))
  #[even.add odd, straight.add turned, even.sub odd, straight.sub turned]

section Mirrored

variable [Zero α] [Add α] [Sub α] [Mul α] [Neg α] [Precision α]

/-- The root number `m` of `n` with `m` brought below the half of `n`: the conjugate is the same
real part with the other sign of the imaginary part. -/
def foldedRoot (direction : Direction) (m n : Nat) : Bin α :=
  if m % n ≤ n / 2 then rootIn α direction (m % n) n
  else (rootIn α direction (n - m % n) n).conj

/-- The places of the values below the middle, in the order in which bin `k` adds their products. Of
a root and its conjugate the smaller angle counts. -/
def SumOrder.terms (order : SumOrder) (n k : Nat) : List Nat :=
  let angle (j : Nat) := min (j * k % n) (n - j * k % n)
  match order with
  | places => List.range' 1 (n / 2)
  | angles => (List.range' 1 (n / 2)).mergeSort fun i j => angle i ≤ angle j

/-- What bin `k` and its mirror image have in common, and the half of their difference: sums of the
real parts of the roots over the sums of mirrored values, and of the imaginary parts, turned, over
their differences. -/
def mirroredParts (order : SumOrder) (direction : Direction) (n k : Nat) (xs : Array (Bin α)) :
    Bin α × Bin α :=
  (order.terms n k).foldl (fun (acc : Bin α × Bin α) j =>
    let w : Bin α := foldedRoot direction (j * k) n
    let sum := (binAt xs j).add (binAt xs (n - j))
    let difference := (binAt xs j).sub (binAt xs (n - j))
    (⟨acc.1.re + w.re * sum.re, acc.1.im + w.re * sum.im⟩,
      ⟨acc.2.re + w.im * difference.im, acc.2.im + w.im * difference.re⟩)) (binAt xs 0, .zero)

def mirrored (order : SumOrder) (direction : Direction) (n : Nat) (xs : Array (Bin α)) :
    Array (Bin α) :=
  Array.ofFn fun k : Fin n =>
    if k.val = 0 then
      (List.range' 1 (n / 2)).foldl
        (fun (acc : Bin α) j => acc.add ((binAt xs j).add (binAt xs (n - j)))) (binAt xs 0)
    else if k.val ≤ n / 2 then
      let (common, half) := mirroredParts order direction n k.val xs
      ⟨common.re - half.re, common.im + half.im⟩
    else
      let (common, half) := mirroredParts order direction n (n - k.val) xs
      ⟨common.re + half.re, common.im - half.im⟩

end Mirrored

section Run

variable [Zero α] [Add α] [Sub α] [Mul α] [Neg α] [Precision α]

/-- The value in column `x` and row `y` of the transformed columns of a grid of `n` values. -/
def Twist.apply (twist : Twist) (direction : Direction) (n x y : Nat) (z : Bin α) : Bin α :=
  match twist with
  | .all => turn direction (x * y) n z
  | .laterColumns => if x = 0 then z else turn direction (x * y) n z
  | .properRoots =>
    if 8 * (x * y) % n = 0 then eighthTurns direction (8 * (x * y) / n % 8) z
    else turn direction (x * y) n z

/-- A product of two lengths without a common factor. Values are taken in steps of either length and
bins are placed by their remainders. -/
def coprime (p q : Nat) (first second : Array (Bin α) → Array (Bin α)) (xs : Array (Bin α)) :
    Array (Bin α) :=
  let firsts := Array.ofFn fun y : Fin q =>
    first (Array.ofFn fun x : Fin p => binAt xs ((x.val * q + y.val * p) % (p * q)))
  let seconds := Array.ofFn fun x : Fin p =>
    second (Array.ofFn fun y : Fin q => binAt (firsts.getD y.val #[]) x.val)
  Array.ofFn fun k : Fin (p * q) => binAt (seconds.getD (k.val % p) #[]) (k.val % q)

def grid (twist : Twist) (direction : Direction) (w h : Nat)
    (row column : Array (Bin α) → Array (Bin α)) (xs : Array (Bin α)) : Array (Bin α) :=
  let columns := Array.ofFn fun x : Fin w =>
    let bins := column (Array.ofFn fun y : Fin h => binAt xs (x.val + w * y.val))
    Array.ofFn fun y : Fin h => twist.apply direction (w * h) x.val y.val (binAt bins y.val)
  let rows := Array.ofFn fun y : Fin h =>
    row (Array.ofFn fun x : Fin w => binAt (columns.getD x.val #[]) y.val)
  Array.ofFn fun k : Fin (w * h) => binAt (rows.getD (k.val % h) #[]) (k.val / h)

/-- Four times `q` values: those at even places, those one after a multiple of four and those one
before it. -/
def split (direction : Direction) (q : Nat) (evens odds : Array (Bin α) → Array (Bin α))
    (xs : Array (Bin α)) : Array (Bin α) :=
  let even := evens (Array.ofFn fun i : Fin (2 * q) => binAt xs (2 * i.val))
  let after := odds (Array.ofFn fun i : Fin q => binAt xs (4 * i.val + 1))
  let before := odds (Array.ofFn fun i : Fin q => binAt xs ((4 * i.val + 4 * q - 1) % (4 * q)))
  let turned := Array.ofFn fun k : Fin q =>
    if k.val = 0 then (binAt after 0, binAt before 0)
    else
      let w := rootIn α direction k.val (4 * q)
      ((binAt after k.val).mul w, (binAt before k.val).mul w.conj)
  Array.ofFn fun k : Fin (4 * q) =>
    let (z, w) := turned.getD (k.val % q) (.zero, .zero)
    let straight := binAt even (k.val % (2 * q))
    match k.val / q with
    | 0 => straight.add (z.add w)
    | 1 => straight.add (quarterTurn direction (z.sub w))
    | 2 => straight.sub (z.add w)
    | _ => straight.sub (quarterTurn direction (z.sub w))

namespace Scheme

def run (direction : Direction) : Scheme → Array (Bin α) → Array (Bin α)
  | direct n, xs =>
    let wide := Fourier.direct direction
      (Array.ofFn fun i : Fin n => (binAt xs i.val).map Precision.widen)
    wide.map (·.map Precision.narrow)
  | two, xs => Fourier.two xs
  | four, xs => Fourier.four direction xs
  | mirrored order n, xs => Fourier.mirrored order direction n xs
  | coprime first second, xs =>
    Fourier.coprime first.length second.length (first.run direction) (second.run direction) xs
  | grid twist row column, xs =>
    Fourier.grid twist direction row.length column.length (row.run direction)
      (column.run direction) xs
  | split evens odds, xs =>
    Fourier.split direction odds.length (evens.run direction) (odds.run direction) xs
  | cycle inner, xs => Fourier.cycle direction (inner.length + 1) (inner.run direction) xs
  | chirp n inner, xs => Fourier.chirp direction n inner.length (inner.run direction) xs

theorem size_run (direction : Direction) (s : Scheme) (xs : Array (Bin α)) :
    (s.run direction xs).size = s.length := by
  cases s <;>
    simp [run, length, Fourier.direct, Fourier.two, Fourier.four, Fourier.mirrored,
      Fourier.coprime, Fourier.grid, Fourier.split]

end Scheme

end Run

end Timbre.Fourier
