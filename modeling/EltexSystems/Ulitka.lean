import EltexSystems.Lib.Walker

/-!
# The spiral of `massives/massives.c`

The loop of `ulitka`, with the faults of C: a store outside the matrix and a sum outside the `int`s
have no result, and neither has a loop that runs out of fuel.  The stack is taken to have room for
the matrix, and the texts printed are left out.
-/

namespace EltexSystems

def INT_MIN : ℤ := -2 ^ 31

def INT_MAX : ℤ := 2 ^ 31 - 1

/-- The value of an `int` expression. -/
def int (z : ℤ) : Option ℤ := if INT_MIN ≤ z ∧ z ≤ INT_MAX then some z else none

/-- `for (int i = lo; i < hi; i++)`. -/
def upFrom (lo hi : ℤ) : List ℤ := (List.range (hi - lo).toNat).map fun k : ℕ => lo + k

/-- `for (int i = hi; i >= lo; i--)`. -/
def downFrom (hi lo : ℤ) : List ℤ := (List.range (hi + 1 - lo).toNat).map fun k : ℕ => hi - k

/-- The variables of `ulitka`, and what is stored in the matrix, in order. -/
structure Ulitka where
  num : ℤ
  top : ℤ
  bottom : ℤ
  left : ℤ
  right : ℤ
  matrix : ℤ × ℤ → Option ℤ
  writes : List ((ℤ × ℤ) × ℤ)

/-- The places in some rows and columns. -/
def rect (top bottom left right : ℤ) : Finset (ℤ × ℤ) :=
  (Finset.range (bottom - top).toNat ×ˢ Finset.range (right - left).toNat).image
    fun p => (top + p.1, left + p.2)

/-- The places of the matrix. -/
def cells (N : ℤ) : Finset (ℤ × ℤ) := rect 0 N 0 N

namespace Ulitka

def start (N : ℤ) : Ulitka := ⟨1, 0, N, 0, N, fun _ => none, []⟩

/-- `matrix[i][j] = num; num++`. -/
def store (N : ℤ) (s : Ulitka) (c : ℤ × ℤ) : Option Ulitka :=
  if c ∈ cells N then
    (int (s.num + 1)).map fun num =>
      { s with
        num := num
        matrix := Function.update s.matrix c (some s.num)
        writes := s.writes ++ [(c, s.num)] }
  else none

/-- An inner loop that stores in the places listed. -/
def fill (N : ℤ) (s : Ulitka) (cs : List (ℤ × ℤ)) : Option Ulitka := cs.foldlM (store N) s

def fillTop (N : ℤ) (s : Ulitka) : Option Ulitka :=
  (s.fill N ((upFrom s.left s.right).map fun i => (s.top, i))).bind fun s =>
    (int (s.top + 1)).map fun top => { s with top := top }

def fillRight (N : ℤ) (s : Ulitka) : Option Ulitka :=
  (s.fill N ((upFrom s.top s.bottom).map fun i => (i, s.right - 1))).bind fun s =>
    (int (s.right - 1)).map fun right => { s with right := right }

def fillBottom (N : ℤ) (s : Ulitka) : Option Ulitka :=
  (s.fill N ((downFrom (s.right - 1) s.left).map fun i => (s.bottom - 1, i))).bind fun s =>
    (int (s.bottom - 1)).map fun bottom => { s with bottom := bottom }

def fillLeft (N : ℤ) (s : Ulitka) : Option Ulitka :=
  (s.fill N ((downFrom (s.bottom - 1) s.top).map fun i => (i, s.left))).bind fun s =>
    (int (s.left + 1)).map fun left => { s with left := left }

/-- The body of the outer loop. -/
def layer (N : ℤ) (s : Ulitka) : Option Ulitka :=
  (s.fillTop N).bind fun s => (s.fillRight N).bind fun s => (s.fillBottom N).bind (fillLeft N)

/-- `while (num <= N * N)`. -/
def loop (N : ℤ) : ℕ → Ulitka → Option Ulitka
  | 0, s => (int (N * N)).bind fun square => if s.num ≤ square then none else some s
  | fuel + 1, s => (int (N * N)).bind fun square =>
    if s.num ≤ square then (s.layer N).bind (loop N fuel) else some s

/-- The numbers from 1 on, each place once, along the way of a walker that starts in the top left
corner and turns right where it cannot go straight on. -/
structure Spiral (N : ℤ) (s : Ulitka) : Prop where
  inside : ∀ p ∈ s.writes, p.1 ∈ cells N
  once : (s.writes.map Prod.fst).Nodup
  every : ∀ c ∈ cells N, c ∈ s.writes.map Prod.fst
  numbers : s.writes.map Prod.snd = (List.range (N * N).toNat).map fun k : ℕ => (k : ℤ) + 1
  holds : ∀ p ∈ s.writes, s.matrix p.1 = some p.2
  corner : s.writes.head? = some ((0, 0), 1)
  adjacent : ∀ (k : ℕ) (p q : (ℤ × ℤ) × ℤ), s.writes[k]? = some p → s.writes[k + 1]? = some q →
    (q.1.1 - p.1.1).natAbs + (q.1.2 - p.1.2).natAbs = 1
  clockwise : s.writes.map Prod.fst = (List.range (N * N).toNat).map fun k =>
    (Walker.walk (cells N) ⟨(0, 0), .east, [(0, 0)]⟩ k).cell

end Ulitka

end EltexSystems
