/-!
# Sorting in place

Quicksort that looks out for patterns: short ranges are sorted by insertion, ranges that seem sorted
are checked for it, ranges full of equal elements are split off, and after too many bad splits the
range is sorted by a heap. Elements of equal rank do not keep their order. Where a listing may hold
several of them, their order is part of the answer, so the steps are exactly those written here.

Every position below is one of the whole array; a range has its first position in it and its last
one behind it.
-/

namespace MipsFlow

namespace Sorting

variable {α : Type} (lt : α → α → Bool)

/-- The element at `i` has to stand before the one at `j`. -/
def less (xs : Array α) (i j : Nat) : Bool :=
  match xs[i]?, xs[j]? with
  | some a, some b => lt a b
  | _, _ => false

/-! ## Insertion -/

/-- Moves the element at a position down, past greater ones, but not below `low`. -/
def sink (low : Nat) : Nat → Array α → Array α
  | 0, xs => xs
  | j + 1, xs =>
    if low < j + 1 && less lt xs (j + 1) j then sink low j (xs.swapIfInBounds (j + 1) j) else xs

/-- Moves the element at a position up, past smaller ones, in at most so many steps as there are
positions above it. -/
def rise : Nat → Nat → Array α → Array α
  | 0, _, xs => xs
  | steps + 1, j, xs =>
    if less lt xs j (j - 1) then rise steps (j + 1) (xs.swapIfInBounds j (j - 1)) else xs

/-- Sorts a range by insertion. -/
def insertionSort (low high : Nat) (xs : Array α) : Array α :=
  (List.range' (low + 1) (high - (low + 1))).foldl (fun xs i => sink lt low i xs) xs

/-- The first position from `i` on, below `high`, whose element is less than the one before. -/
def firstDescent (xs : Array α) (high : Nat) : Nat → Nat → Nat
  | 0, i => i
  | steps + 1, i =>
    if i < high && !less lt xs i (i - 1) then firstDescent xs high steps (i + 1) else i

/-- Puts right a few neighbours that are in the wrong order. Says whether the range is sorted
then; short ranges are only looked at. -/
def mend (low high : Nat) : Nat → Nat → Array α → Array α × Bool
  | 0, _, xs => (xs, false)
  | tries + 1, i, xs =>
    let i := firstDescent lt xs high (high - i) i
    if i = high then (xs, true)
    else if high - low < 50 then (xs, false)
    else
      let xs := xs.swapIfInBounds i (i - 1)
      let xs := if 2 ≤ i - low then sink lt 0 (i - 1) xs else xs
      let xs := if 2 ≤ high - i then rise lt (high - (i + 1)) (i + 1) xs else xs
      mend low high tries i xs

/-! ## Heap -/

/-- Restores the heap of `size` elements from `first` on, below its node `root`. -/
def siftDown (first size : Nat) : Nat → Nat → Array α → Array α
  | 0, _, xs => xs
  | steps + 1, root, xs =>
    let child := 2 * root + 1
    if size ≤ child then xs
    else
      let child :=
        if child + 1 < size && less lt xs (first + child) (first + child + 1) then child + 1
        else child
      if less lt xs (first + root) (first + child) then
        siftDown first size steps child (xs.swapIfInBounds (first + root) (first + child))
      else xs

/-- Sorts a range by a heap. -/
def heapSort (low high : Nat) (xs : Array α) : Array α :=
  let size := high - low
  let heap := (List.range ((size - 1) / 2 + 1)).reverse.foldl
    (fun xs root => siftDown lt low size size root xs) xs
  (List.range size).reverse.foldl
    (fun xs i => siftDown lt low i size 0 (xs.swapIfInBounds low (low + i))) heap

/-! ## Choice of a pivot -/

/-- The position of the middle one of three elements, and how many pairs were out of order. -/
def median (xs : Array α) (a b c : Nat) : Nat × Nat :=
  let (a, b, first) := if less lt xs b a then (b, a, 1) else (a, b, 0)
  let (b, second) := if less lt xs c b then (c, 1) else (b, 0)
  let (b, third) := if less lt xs b a then (a, 1) else (b, 0)
  (b, first + second + third)

/-- The position of the pivot for a range, and how many pairs were out of order. Long ranges take
the middle one of three middle ones. -/
def choosePivot (low high : Nat) (xs : Array α) : Nat × Nat :=
  let quarter := (high - low) / 4
  let i := low + quarter
  let j := low + quarter * 2
  let k := low + quarter * 3
  if high - low < 50 then median lt xs i j k
  else
    let around (m : Nat) := median lt xs (m - 1) m (m + 1)
    let (i, first) := around i
    let (j, second) := around j
    let (k, third) := around k
    let (j, last) := median lt xs i j k
    (j, first + second + third + last)

/-- Turns a range around. -/
def reverse (low high : Nat) (xs : Array α) : Array α :=
  (List.range ((high - low) / 2)).foldl
    (fun xs n => xs.swapIfInBounds (low + n) (high - 1 - n)) xs

/-- The next number of a shift register. -/
def scramble (r : UInt64) : UInt64 :=
  let r := r ^^^ (r <<< 13)
  let r := r ^^^ (r >>> 7)
  r ^^^ (r <<< 17)

/-- Exchanges three elements in the middle of a range for others, to break up patterns. -/
def shake (low high : Nat) (xs : Array α) : Array α :=
  let size := high - low
  let center := low + size / 4 * 2 - 1
  let modulus := 1 <<< (Nat.log2 size + 1)
  let place (r : UInt64) : Nat :=
    let other := r.toNat % modulus
    low + if size ≤ other then other - size else other
  let first := scramble (UInt64.ofNat size)
  let second := scramble first
  let third := scramble second
  ((xs.swapIfInBounds (center - 1) (place first)).swapIfInBounds center
    (place second)).swapIfInBounds (center + 1) (place third)

/-! ## Splitting -/

/-- The first position from `i` to `j` that lacks the property, or the one behind `j`. -/
def scanUp (property : Nat → Bool) (j : Nat) : Nat → Nat → Nat
  | 0, i => i
  | steps + 1, i => if i ≤ j && property i then scanUp property j steps (i + 1) else i

/-- The last position from `i` to `j` that lacks the property, or the one before `i`. -/
def scanDown (property : Nat → Bool) (i : Nat) : Nat → Nat → Nat
  | 0, j => j
  | steps + 1, j => if i ≤ j && property j then scanDown property i steps (j - 1) else j

/-- What a split has done: the two positions where it ended, and whether it exchanged anything. -/
structure Split (α : Type) where
  elements : Array α
  i : Nat
  j : Nat
  exchanged : Bool

/-- Exchanges elements from both ends of the positions `i` to `j`, until all before some place have
the first property and all behind it the second. -/
def split (low high : Array α → Nat → Bool) : Nat → Bool → Array α → Nat → Nat → Split α
  | 0, exchanged, xs, i, j => ⟨xs, i, j, exchanged⟩
  | steps + 1, exchanged, xs, i, j =>
    let i := scanUp (low xs) j (j + 1 - i) i
    let j := scanDown (high xs) i (j + 1 - i) j
    if j < i then ⟨xs, i, j, exchanged⟩
    else split low high steps true (xs.swapIfInBounds i j) (i + 1) (j - 1)

/-- Splits a range into elements less than the pivot, the pivot, and the others. Gives the place of
the pivot, and whether the range was split already. -/
def partition (low high pivot : Nat) (xs : Array α) : Array α × Nat × Bool :=
  let s := split (fun xs i => less lt xs i low) (fun xs j => !less lt xs j low) (high - low) false
    (xs.swapIfInBounds low pivot) (low + 1) (high - 1)
  (s.elements.swapIfInBounds s.j low, s.j, !s.exchanged)

/-- Splits a range without elements less than the pivot into those equal to it and the others.
Gives the place where the others begin. -/
def partitionEqual (low high pivot : Nat) (xs : Array α) : Array α × Nat :=
  let s := split (fun xs i => !less lt xs low i) (fun xs j => less lt xs low j) (high - low) false
    (xs.swapIfInBounds low pivot) (low + 1) (high - 1)
  (s.elements, s.i)

/-! ## The sort -/

/-- What is known of the last split of a range. -/
structure History where
  balanced : Bool := true
  partitioned : Bool := true

/-- Sorts a range. Every call is for a shorter range than the one that it is made from, so the
length of the range bounds the depth; `limit` bounds the number of bad splits. -/
def sortRange : Nat → Nat → Nat → Nat → History → Array α → Array α
  | 0, _, _, _, _, xs => xs
  | depth + 1, limit, low, high, history, xs =>
    if high - low ≤ 12 then insertionSort lt low high xs
    else if limit = 0 then heapSort lt low high xs
    else
      let (xs, limit) := if history.balanced then (xs, limit) else (shake low high xs, limit - 1)
      let (pivot, disorder) := choosePivot lt low high xs
      let descending := disorder = 12
      let (xs, pivot) :=
        if descending then (reverse low high xs, high - 1 - (pivot - low)) else (xs, pivot)
      let (xs, sorted) :=
        if history.balanced && history.partitioned && (disorder = 0 || descending) then
          mend lt low high 5 (low + 1) xs
        else (xs, false)
      if sorted then xs
      else if 0 < low && !less lt xs (low - 1) pivot then
        let (xs, next) := partitionEqual lt low high pivot xs
        sortRange depth limit next high history xs
      else
        let (xs, mid, partitioned) := partition lt low high pivot xs
        let threshold := (high - low) / 8
        if mid - low < high - mid then
          sortRange depth limit (mid + 1) high ⟨threshold ≤ mid - low, partitioned⟩
            (sortRange depth limit low mid {} xs)
        else
          sortRange depth limit low mid ⟨threshold ≤ high - mid, partitioned⟩
            (sortRange depth limit (mid + 1) high {} xs)

/-- Sorts a list. -/
def quicksort (xs : List α) : List α :=
  let n := xs.length
  (sortRange lt (n + 1) (if n = 0 then 0 else Nat.log2 n + 1) 0 n {} xs.toArray).toList

end Sorting

end MipsFlow
