import Mathlib.Data.List.Basic
import Mellow.Xe.Encoding

/-!
# The Four-Level Page Table Builder

`XeMemory::PageTable` from `Mellow/XePageTable.cpp` builds a page table in a
pool of pages. A pool page has a DMA address, by which entries name it, and a
CPU pointer, through which its 512 words are written. The words are one flat
memory; pages are separate because `initializePool` checks their CPU ranges. A
null pool is the empty list. A search returns an `Option` for the sentinel of
the source.

## Main definitions

* `PageTable`: the fields of the class.
* `map4K`: mapping a page.
* `unmap4K`: unmapping one.
* `hardwareWalk`: how the hardware finds a page.
* `run`: any calls.
-/

namespace Mellow.XeMemory

/-- A page's DMA address, and the CPU pointer to its words. -/
structure TablePage where
  dma : Nat
  words : Nat
  deriving DecidableEq, Repr

structure Node where
  used : Bool
  level : Nat
  deriving DecidableEq, Repr

def Node.blank : Node := ⟨false, 0⟩

structure Edge where
  parent : Nat
  child : Nat
  index : Nat
  deriving DecidableEq, Repr

/-- A page `initializePool` accepts by itself. -/
def TablePage.Usable (pat : Nat) (p : TablePage) : Prop :=
  p.words ≠ 0 ∧ p.words &&& 7 = 0 ∧ p.words ≤ 2 ^ 64 - 1 - (pageSize - 1) ∧
    (encodeSystemPde p.dma pat).isSome
  deriving Decidable

/-- Two pages `initializePool` accepts together. -/
def TablePage.Apart (p q : TablePage) : Prop :=
  p.dma ≠ q.dma ∧
    ¬ if p.words ≤ q.words then q.words - p.words < pageSize else p.words - q.words < pageSize
  deriving Decidable

/-- The table builder together with the memory behind its pool. -/
structure PageTable where
  pool : List TablePage
  nodes : Nat → Node
  mappings : Nat
  owner : Nat
  tablePat : Nat
  isSealed : Bool
  mem : Nat → Nat

namespace PageTable

def maxPages : Nat := 128

def fresh (mem : Nat → Nat) : PageTable :=
  { pool := [], nodes := fun _ => Node.blank, mappings := 0, owner := 0, tablePat := 0,
    isSealed := false, mem := mem }

section Words

variable (t : PageTable)

def page (i : Nat) : TablePage := t.pool.getD i ⟨0, 0⟩

def address (p j : Nat) : Nat := (t.page p).words + 8 * j

def word (p j : Nat) : Nat := t.mem (t.address p j)

def setWord (p j value : Nat) : PageTable :=
  { t with mem := Function.update t.mem (t.address p j) value }

def setNode (p : Nat) (node : Node) : PageTable :=
  { t with nodes := Function.update t.nodes p node }

def clear (p : Nat) : PageTable := (List.range 512).foldl (fun t j => t.setWord p j 0) t

def findDma (dma : Nat) : Option Nat :=
  (List.range t.pool.length).find? fun i => (t.page i).dma = dma

def allocate (level : Nat) : Option (Nat × PageTable) :=
  ((List.range t.pool.length).find? fun i => !(t.nodes i).used).map fun i =>
    (i, (t.clear i).setNode i ⟨true, level⟩)

end Words

section Lookup

variable (t : PageTable)

/-- `child`: the page an entry names, with every check the source makes. -/
def child (parent index : Nat) : Except Status Nat :=
  let entry := t.word parent index
  if entry = 0 then .error .notFound
  else match t.findDma (entry &&& addressMask) with
    | none => .error .invalid
    | some candidate =>
      if (t.nodes candidate).used = false ∨ (t.nodes parent).level = 0 ∨
          (t.nodes candidate).level + 1 ≠ (t.nodes parent).level ∨
          encodeSystemPde (t.page candidate).dma t.tablePat ≠ some entry then .error .invalid
      else .ok candidate

/-- The descent of `lookup` from a node at the given level to its leaf table. -/
def descend (indices : Nat → Nat) : Nat → Nat → Except Status Nat
  | 0, node => .ok node
  | level + 1, node => do descend indices level (← t.child node (indices (level + 1)))

def lookup (owner va : Nat) : Except Status Nat :=
  if t.pool = [] ∨ va &&& (pageSize - 1) ≠ 0 then .error .invalid
  else if owner ≠ t.owner then .error .wrongOwner
  else match pageTableIndices va with
    | none => .error .invalid
    | some indices => do
      let node ← t.descend indices 3 0
      let entry := t.word node (indices 0)
      if entry = 0 then .error .notFound
      else if entry &&& 1 = 0 then .error .invalid
      else .ok entry

end Lookup

section Map

def undo (t : PageTable) (e : Edge) : PageTable :=
  ((t.setWord e.parent e.index 0).clear e.child).setNode e.child Node.blank

def rollback (t : PageTable) (edges : List Edge) : PageTable := edges.foldl undo t

/-- The loop of `map4K`: the leaf table and the edges made, or a status. -/
def build (indices : Nat → Nat) : Nat → PageTable → Nat → List Edge →
    Except (Status × PageTable) (PageTable × Nat × List Edge)
  | 0, t, node, edits => .ok (t, node, edits)
  | level + 1, t, node, edits =>
    match t.child node (indices (level + 1)) with
    | .ok next => build indices level t next edits
    | .error .notFound =>
      match t.allocate level with
      | none => .error (.noSpace, t.rollback edits)
      | some (next, t) =>
        match encodeSystemPde (t.page next).dma t.tablePat with
        | none => .error (.invalid, (t.setNode next Node.blank).rollback edits)
        | some entry =>
          build indices level (t.setWord node (indices (level + 1)) entry) next
            (⟨node, next, indices (level + 1)⟩ :: edits)
    | .error status => .error (status, t.rollback edits)

def map4K (t : PageTable) (owner va dma pat : Nat) (writable : Bool) : Status × PageTable :=
  if t.pool = [] ∨ va &&& (pageSize - 1) ≠ 0 then (.invalid, t)
  else if owner ≠ t.owner then (.wrongOwner, t)
  else if t.isSealed then (.busy, t)
  else match pageTableIndices va, encodeSystemPte4K dma pat writable, t.findDma dma with
    | some indices, some pte, none =>
      match build indices 3 t 0 [] with
      | .error failed => failed
      | .ok (t, node, edits) =>
        if t.word node (indices 0) ≠ 0 then (.busy, t.rollback edits)
        else (.ok, { t.setWord node (indices 0) pte with mappings := t.mappings + 1 })
    | _, _, _ => (.invalid, t)

end Map

section Unmap

/-- The descent of `unmap4K`: the leaf table and its ancestors. -/
def trail (t : PageTable) (indices : Nat → Nat) : Nat → Nat → List Nat →
    Except Status (Nat × List Nat)
  | 0, node, above => .ok (node, above)
  | level + 1, node, above => do
    trail t indices level (← t.child node (indices (level + 1))) (node :: above)

def empty (t : PageTable) (p : Nat) : Bool := (List.range 512).all fun j => t.word p j = 0

/-- The pruning loop of `unmap4K`. -/
def prune (indices : Nat → Nat) : PageTable → Nat → Nat → List Nat → PageTable
  | t, _, _, [] => t
  | t, level, node, parent :: above =>
    if t.empty node then
      prune indices ((t.setWord parent (indices (level + 1)) 0).setNode node Node.blank)
        (level + 1) parent above
    else t

def unmap4K (t : PageTable) (owner va : Nat) : Status × PageTable :=
  if t.isSealed then (.busy, t)
  else match t.lookup owner va with
    | .error status => (status, t)
    | .ok _ =>
      let indices := (pageTableIndices va).getD fun _ => 0
      match t.trail indices 3 0 [] with
      | .error status => (status, t)
      | .ok (leaf, above) =>
        (.ok, prune indices { t.setWord leaf (indices 0) 0 with mappings := t.mappings - 1 }
          0 leaf above)

end Unmap

section Rest

/-- `seal`, with the root address it reports. -/
def sealRoot (t : PageTable) (owner : Nat) : Except Status Nat × PageTable :=
  if t.pool = [] then (.error .invalid, t)
  else if owner ≠ t.owner then (.error .wrongOwner, t)
  else (.ok (t.page 0).dma, { t with isSealed := true })

def usedPages (t : PageTable) : Nat :=
  (List.range t.pool.length).countP fun i => (t.nodes i).used

def mappedPages (t : PageTable) : Nat := t.mappings

/-- `initialize`. The pool is checked as a whole before anything is
    written. -/
def initializePool (t : PageTable) (owner : Nat) (pool : List TablePage) (pat : Nat) :
    Status × PageTable :=
  if t.pool ≠ [] then (.busy, t)
  else if owner = 0 ∨ pool = [] ∨ pool.length > maxPages ∨ pat > 3 then (.invalid, t)
  else if ¬ ((∀ p ∈ pool, p.Usable pat) ∧ pool.Pairwise fun q p => p.Apart q) then (.invalid, t)
  else
    let t := { t with pool := pool, owner := owner, tablePat := pat }
    (.ok, ((t.allocate 3).map Prod.snd).getD t)

end Rest

end PageTable

section Hardware

/-- An entry of the page with the given DMA address, zero for none. -/
def hardwareEntry (pool : List TablePage) (mem : Nat → Nat) (dma index : Nat) : Option Nat := do
  let page ← pool.find? fun p => p.dma = dma
  let entry := mem (page.words + 8 * index)
  if entry = 0 then none else some entry

/-- The hardware's walk from a table at the given level. -/
def hardwareWalk (pool : List TablePage) (mem : Nat → Nat) (va : Nat) : Nat → Nat → Option Nat
  | 0, dma => hardwareEntry pool mem dma ((va >>> 12) &&& 511)
  | level + 1, dma => do
    let entry ← hardwareEntry pool mem dma ((va >>> (12 + 9 * (level + 1))) &&& 511)
    hardwareWalk pool mem va level (entry &&& addressMask)

end Hardware

inductive Call where
  | map4K (owner va dma pat : Nat) (writable : Bool)
  | unmap4K (owner va : Nat)
  | lookup (owner va : Nat)
  | sealRoot (owner : Nat)
  deriving DecidableEq, Repr

namespace PageTable

def step (t : PageTable) : Call → Status × PageTable
  | .map4K owner va dma pat writable => t.map4K owner va dma pat writable
  | .unmap4K owner va => t.unmap4K owner va
  | .lookup owner va => (statusOf (t.lookup owner va), t)
  | .sealRoot owner => (statusOf (t.sealRoot owner).1, (t.sealRoot owner).2)

def run (t : PageTable) (calls : List Call) : PageTable :=
  calls.foldl (fun t c => (t.step c).2) t

/-- The calls of a sequence with the statuses they reported. -/
def trace (t : PageTable) : List Call → List (Call × Status)
  | [] => []
  | c :: calls => (c, (t.step c).1) :: trace (t.step c).2 calls

end PageTable

end Mellow.XeMemory
