import BachScheduler.CdsList
import BachScheduler.Lib.HoareSort

/-!
# The quicksort of `c_qsort.c`

`qsrt_partition` and `qsrt_quicksort` on the link fields of a list.  The key
function is partial: it answers on element nodes only, so a run that asks for
the key of a list head returns nothing.  Loops and the recursion carry fuel.  A
failing `malloc` ends the process and is left out.
-/

namespace BachScheduler

open BachScheduler.Ring

/-- `enum sort_type`. -/
inductive SortType where
  | asc
  | desc
  deriving DecidableEq, Repr

/-- The links of all nodes together with the number of nodes that `malloc` has
handed out so far. -/
structure ListHeap (α : Type) where
  links : Links α
  brk : Nat

section Quicksort

variable {α : Type} [DecidableEq α]
variable (getVal : α → Option Int) (qtype : SortType)

/-- Condition under which the upward scan goes on. -/
def scansUp (val pivot : Int) : Bool :=
  (qtype = .desc && val > pivot) || (qtype = .asc && val < pivot)

/-- Condition under which the downward scan goes on. -/
def scansDown (val pivot : Int) : Bool :=
  (qtype = .desc && val < pivot) || (qtype = .asc && val > pivot)

/-- The shared shape of the two inner loops of `qsrt_partition`: step to the
next node, note whether the cursors met or crossed, and go on by the key. -/
def qsrtScan (step back : α → α) (goesOn : Int → Bool) (list other : α) :
    Nat → α → Bool → Option (α × Bool)
  | 0, _, _ => none
  | fuel + 1, node, flag => do
      let node := step node
      let flag := flag || ((back node = other || node = other) && other ≠ list)
      let val ← getVal node
      if goesOn val then
        qsrtScan step back goesOn list other fuel node flag
      else
        some (node, flag)

/-- First inner `do .. while` of `qsrt_partition`, moving `i` forward. -/
def qsrtScanUp (links : Links α) (list j : α) (pivot : Int) :=
  qsrtScan getVal links.next links.prev (fun val => scansUp qtype val pivot) list j

/-- Second inner `do .. while` of `qsrt_partition`, moving `j` backward. -/
def qsrtScanDown (links : Links α) (list i : α) (pivot : Int) :=
  qsrtScan getVal links.prev links.next (fun val => scansDown qtype val pivot) list i

/-- Exchange two nodes of a list, as the body of `qsrt_partition` does. -/
def qsrtSwap (i j : α) (links : Links α) : Links α :=
  let prev := links.prev i
  let links := cdsListDel i links
  let links := cdsListAdd i j links
  let links := cdsListDel j links
  cdsListAdd j prev links

/-- Outer loop of `qsrt_partition`.  After an exchange the two cursors swap
names, so `i` stays on the left. -/
def qsrtPartitionLoop (list : α) (pivot : Int) (limit : Nat) :
    Nat → α → α → Bool → Links α → Option (α × Links α)
  | 0, _, _, _, _ => none
  | fuel + 1, i, j, flag, links => do
      let (i, flag) ← qsrtScanUp getVal qtype links list j pivot limit i flag
      let (j, flag) ← qsrtScanDown getVal qtype links list i pivot limit j flag
      if !flag then
        qsrtPartitionLoop list pivot limit fuel j i flag (qsrtSwap i j links)
      else
        some (j, links)

/-- `qsrt_partition`. -/
def qsrtPartition (limit : Nat) (list : α) (links : Links α) : Option (α × Links α) := do
  let pivot ← getVal (links.next list)
  qsrtPartitionLoop getVal qtype list pivot limit limit list list false links

/-- The macro `singleton`: at most one node behind the head. -/
def singleton (list : α) (links : Links α) : Bool :=
  links.next (links.next list) = list

/-- Hang the nodes up to `q` under `head` and the later ones under `tail`. -/
def qsrtSplit (list q head tail : α) (links : Links α) : Links α :=
  let links := links.setNext head (links.next list)
  let links := links.setPrev head q
  let links := links.setNext tail (links.next q)
  let links := links.setPrev tail (links.prev list)
  let links := links.setPrev (links.next head) head
  let links := links.setNext (links.prev head) head
  let links := links.setPrev (links.next tail) tail
  links.setNext (links.prev tail) tail

/-- Hang the nodes under `head` and then those under `tail` back under `list`. -/
def qsrtJoin (list head tail : α) (links : Links α) : Links α :=
  let links := links.setNext list (links.next head)
  let links := links.setPrev (links.next head) list
  let links := links.setPrev (links.next tail) (links.prev head)
  let links := links.setNext (links.prev head) (links.next tail)
  let links := links.setPrev list (links.prev tail)
  links.setNext (links.prev tail) list

/-- `qsrt_quicksort`.  `malloc n` is the node that the `n`-th allocation
returns; the temporary heads are never freed. -/
def qsrtQuicksort (malloc : Nat → α) : Nat → α → ListHeap α → Option (ListHeap α)
  | 0, _, _ => none
  | fuel + 1, list, heap =>
      if singleton list heap.links then
        some heap
      else do
        let head := malloc heap.brk
        let tail := malloc (heap.brk + 1)
        let (q, links) ← qsrtPartition getVal qtype (fuel + 1) list heap.links
        let heap := ⟨qsrtSplit list q head tail links, heap.brk + 2⟩
        let heap ← qsrtQuicksort malloc fuel head heap
        let heap ← qsrtQuicksort malloc fuel tail heap
        some { heap with links := qsrtJoin list head tail heap.links }

end Quicksort

end BachScheduler
