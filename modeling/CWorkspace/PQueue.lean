import CWorkspace.Lib.Block
import CWorkspace.Lib.Heap
import Mathlib.Data.Finset.Image
import Mathlib.Order.Interval.Finset.Nat

/-!
# The priority queue

`pqueue.c`: a binary heap of elements in the cells `1, …, size - 1` of a growing block. The elements belong to
the caller, who gives the callbacks that read and write their priority and their position; `mem` is the memory
they work on. `cmppri a b` says that `a` ranks below `b`. Requests of memory are computed in a `size_t`, and wrap
around; an index below the size of a block does not (`right_lt_of_lt`).
-/

namespace CWorkspace

/-- The widths the code depends on. -/
structure PQueue.Arch where
  sizeBits : ℕ
  INT_MAX : ℕ
  sizeofPointer : ℕ
  int_ge : 2 ^ 15 - 1 ≤ INT_MAX
  pointer_ge : 2 ≤ sizeofPointer

structure PQueue.Callbacks (σ E P : Type*) where
  cmppri : P → P → Bool
  getpri : σ → E → P
  setpri : σ → E → P → σ
  getpos : σ → E → ℕ
  setpos : σ → E → ℕ → σ

/-- `pqueue_t` without its callbacks, and the memory they work on. -/
structure PQueue (σ E : Type*) where
  size : ℕ
  avail : ℕ
  step : ℕ
  d : Block E
  mem : σ

namespace PQueue
variable {σ E P : Type*}

namespace Arch
variable (a : Arch)

def lp64 : Arch := ⟨64, 2 ^ 31 - 1, 8, by decide, by decide⟩

def size_t (n : ℕ) : ℕ := n % 2 ^ a.sizeBits

/-- The pointers there is room for in as many bytes as `n * sizeof(void *)` gives. -/
def cells (n : ℕ) : ℕ := a.size_t (n * a.sizeofPointer) / a.sizeofPointer

/-- The number of bytes is a `size_t`. -/
def Fits (n : ℕ) : Prop := n * a.sizeofPointer < 2 ^ a.sizeBits

instance (n : ℕ) : Decidable (a.Fits n) := inferInstanceAs (Decidable (_ < _))

variable {a} {n : ℕ}

theorem Fits.cells_eq (h : a.Fits n) : a.cells n = n := by
  have hpos : 0 < a.sizeofPointer := Nat.lt_of_lt_of_le Nat.two_pos a.pointer_ge
  rw [cells, size_t, Nat.mod_eq_of_lt h, Nat.mul_div_cancel _ hpos]

theorem Fits.two_mul_lt (h : a.Fits n) : 2 * n < 2 ^ a.sizeBits := by
  refine Nat.lt_of_le_of_lt ?_ h
  rw [Nat.mul_comm]
  exact Nat.mul_le_mul_left n a.pointer_ge

theorem Fits.size_t_eq (h : a.Fits n) : a.size_t n = n :=
  Nat.mod_eq_of_lt (by have := h.two_mul_lt; omega)

end Arch

def left (i : ℕ) : ℕ := i <<< 1
def right (i : ℕ) : ℕ := (i <<< 1) + 1
def parent (i : ℕ) : ℕ := i >>> 1

/-- The children of a cell of a block of `n` have indices that are `size_t`s. -/
theorem right_lt_of_lt {a : Arch} {n i : ℕ} (h : a.Fits n) (hi : i < n) : right i < 2 ^ a.sizeBits := by
  have := h.two_mul_lt
  rw [right, Nat.shiftLeft_eq]
  omega

def get (q : PQueue σ E) (i : ℕ) : E := q.d.get i

/-- The record of a load of `q->d[i]`. -/
def look (q : PQueue σ E) (i : ℕ) : PQueue σ E := { q with d := (q.d.load i).2 }

def put (q : PQueue σ E) (i : ℕ) (e : E) : PQueue σ E := { q with d := q.d.store i e }

variable (a : Arch) (f : Callbacks σ E P)

def setpos (q : PQueue σ E) (e : E) (i : ℕ) : PQueue σ E := { q with mem := f.setpos q.mem e i }

/-- `q->d[i] = q->d[c]; q->setpos(q->d[i], i);` -/
def move (q : PQueue σ E) (i c : ℕ) : PQueue σ E :=
  let q := (q.look c).put i (q.get c)
  (q.look i).setpos f (q.get i) i

/-- `q->d[i] = e; q->setpos(e, i);` -/
def place (q : PQueue σ E) (i : ℕ) (e : E) : PQueue σ E := (q.put i e).setpos f e i

/-! ### The functions of `pqueue.c` -/

/-- `pqueue_init` where it has the memory it asks for. -/
def init (n : ℕ) (stale : ℤ → E) (mem : σ) : PQueue σ E :=
  { size := 1, avail := a.size_t (n + 1), step := a.size_t (n + 1)
    d := Block.malloc (a.cells (a.size_t (n + 1))) stale, mem := mem }

def count (q : PQueue σ E) : ℕ := q.size - 1

def bubbleTest (moving_pri : P) (s : PQueue σ E × ℕ) : Bool × PQueue σ E × ℕ :=
  if 1 < s.2 then
    (f.cmppri (f.getpri s.1.mem (s.1.get (parent s.2))) moving_pri, s.1.look (parent s.2), s.2)
  else (false, s)

def bubbleBody (s : PQueue σ E × ℕ) : PQueue σ E × ℕ := (s.1.move f s.2 (parent s.2), parent s.2)

def bubbleUp (q : PQueue σ E) (i : ℕ) : PQueue σ E :=
  let moving_node := q.get i
  let moving_pri := f.getpri q.mem moving_node
  let s := whileEval (bubbleTest f moving_pri) (bubbleBody f) i (q.look i, i)
  s.1.place f s.2 moving_node

def maxchild (q : PQueue σ E) (i : ℕ) : ℕ × PQueue σ E :=
  let child_node := left i
  if q.size ≤ child_node then (0, q)
  else if child_node + 1 < q.size then
    (if f.cmppri (f.getpri q.mem (q.get child_node)) (f.getpri q.mem (q.get (child_node + 1))) then child_node + 1
      else child_node, (q.look child_node).look (child_node + 1))
  else (child_node, q)

/-- The test of the loop of `percolate_down`; the state is the queue, `i` and `child_node`. -/
def percolateTest (moving_pri : P) (s : PQueue σ E × ℕ × ℕ) : Bool × PQueue σ E × ℕ × ℕ :=
  let c := maxchild f s.1 s.2.1
  if c.1 ≠ 0 then (f.cmppri moving_pri (f.getpri c.2.mem (c.2.get c.1)), c.2.look c.1, s.2.1, c.1)
  else (false, c.2, s.2.1, c.1)

def percolateBody (s : PQueue σ E × ℕ × ℕ) : PQueue σ E × ℕ × ℕ := (s.1.move f s.2.1 s.2.2, s.2.2, s.2.2)

def percolateDown (q : PQueue σ E) (i : ℕ) : PQueue σ E :=
  let moving_node := q.get i
  let moving_pri := f.getpri q.mem moving_node
  let s := whileEval (percolateTest f moving_pri) (percolateBody f) q.size (q.look i, i, 0)
  s.1.place f s.2.1 moving_node

/-- `granted`: whether `realloc` finds the memory. -/
def insert (q : PQueue σ E) (d : E) (granted : Bool) : ℕ × PQueue σ E :=
  let newsize := a.size_t (q.size + q.step)
  if q.avail ≤ q.size ∧ granted = false then (1, q)
  else
    let q := if q.avail ≤ q.size then { q with d := q.d.realloc (a.cells newsize), avail := newsize } else q
    let i := q.size
    (0, bubbleUp f ({ q with size := q.size + 1 }.put i d) i)

def changePriority (q : PQueue σ E) (new_pri : P) (d : E) : PQueue σ E :=
  let old_pri := f.getpri q.mem d
  let q := { q with mem := f.setpri q.mem d new_pri }
  let posn := f.getpos q.mem d
  if f.cmppri old_pri new_pri then bubbleUp f q posn else percolateDown f q posn

/-- `q->d[posn] = q->d[--q->size];` -/
def fill (q : PQueue σ E) (posn : ℕ) : PQueue σ E :=
  let q := { q with size := q.size - 1 }
  (q.look q.size).put posn (q.get q.size)

def remove (q : PQueue σ E) (d : E) : ℕ × PQueue σ E :=
  let posn := f.getpos q.mem d
  let q := q.fill posn
  let below := f.cmppri (f.getpri q.mem d) (f.getpri q.mem (q.get posn))
  (0, if below then bubbleUp f (q.look posn) posn else percolateDown f (q.look posn) posn)

def pop (q : PQueue σ E) : Option E × PQueue σ E :=
  if q.size = 1 then (none, q)
  else (some (q.get 1), percolateDown f ((q.look 1).fill 1) 1)

def peek (q : PQueue σ E) : Option E × PQueue σ E :=
  if q.size = 1 then (none, q) else (some (q.get 1), q.look 1)

/-- `none` where a child's index is no `int`. -/
def subtreeIsValid (q : PQueue σ E) : ℕ → ℕ → Option Bool
  | 0, _ => some true
  | fuel + 1, pos =>
    let child (c : ℕ) : Option Bool :=
      if a.INT_MAX < c then none
      else if c < q.size then
        if f.cmppri (f.getpri q.mem (q.get pos)) (f.getpri q.mem (q.get c)) then some false
        else subtreeIsValid q fuel c
      else some true
    match child (left pos) with
    | some true => child (right pos)
    | result => result

def isValid (q : PQueue σ E) : Option Bool := subtreeIsValid a f q q.size 1

/-- The loop `while ((e = pqueue_pop(dup))) print(out, e);`. -/
def drain (isNull : E → Bool) : ℕ → PQueue σ E → List E × PQueue σ E
  | 0, q => ([], q)
  | fuel + 1, q =>
    match pop f q with
    | (none, q) => ([], q)
    | (some e, q) => if isNull e then ([], q) else (e :: (drain isNull fuel q).1, (drain isNull fuel q).2)

/-- The callbacks of the queue that is printed, with `set_pri` and `set_pos`. -/
def Callbacks.quiet (f : Callbacks σ E P) : Callbacks σ E P :=
  { f with setpri := fun s _ _ => s, setpos := fun s _ _ => s }

/-- The copy `pqueue_print` empties. -/
def dup (q : PQueue σ E) (stale : ℤ → E) : PQueue σ E :=
  let dup := init a q.size stale q.mem
  { dup with
    size := q.size, avail := q.avail, step := q.step
    d := dup.d.storeAll 0 ((List.range q.size).map q.get) }

/-- `pqueue_print`: the elements it prints, and the queue afterwards with the loads of `memcpy`. The copy is not
tested: without the memory for it (`granted`) a null pointer is dereferenced. -/
def print (q : PQueue σ E) (isNull : E → Bool) (granted : Bool) (stale : ℤ → E) : Option (List E × PQueue σ E) :=
  if granted then
    let out := drain f.quiet isNull q.size (dup a q stale)
    some (out.1, { (List.range q.size).foldl look q with mem := out.2.mem })
  else none

end PQueue

end CWorkspace
