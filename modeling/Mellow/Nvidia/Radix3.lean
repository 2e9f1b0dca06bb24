import Mathlib.Data.Fin.VecNotation
import Mathlib.Data.Fintype.Basic
import Mellow.Lib.Bytes
import Mellow.Lib.HeapSort

/-!
# Scatter Tables of a Firmware Image

A firmware image is handed to the device as pages, with three levels of tables
that lead to them. Every check is made before the first byte of the output is
written; only the scratch array has been used by then, to find pages that are
named twice.

## Main definitions

* `planRadix3`: counting the pages.
* `serializeRadix3`: writing the tables and the image.
* `walk`: how the device finds a page.

## Theorems

* `serializeRadix3_exact`: the walk finds every page of the image.
* `serializeRadix3_aliased`: exactly pages that are named twice are reported so.
-/

namespace Mellow.PortedNvidiaGsp

open Lib

inductive Status
  | ok | invalidSize | invalidLayout | invalidArgument | invalidCount | invalidAddressWidth
  | invalidAddress | bufferTooSmall | integerOverflow | overlappingCpuSpans | aliasedDmaPages
deriving DecidableEq, Repr

def pageBytes : Nat := 4096
def entriesPerPage : Nat := 512
def payloadBytesMax : Nat := 0x8000000000
def sizeMax : Nat := 2 ^ 64 - 1

/-- Levels 0 to 2 hold addresses, level 3 the image. -/
@[ext]
structure Radix3Layout where
  payloadBytes : Nat
  pageCount : Fin 4 → Nat
  byteOffset : Fin 4 → Nat
  tablePageCount : Nat
  tableBytes : Nat
  allocationBytes : Nat
deriving DecidableEq

/-- How many units a number of parts fills, for at least one part. -/
def unitsOf (parts unit : Nat) : Nat := (parts - 1) / unit + 1

def layoutOf (payloadBytes : Nat) : Radix3Layout :=
  let p3 := unitsOf payloadBytes pageBytes
  let p2 := unitsOf p3 entriesPerPage
  let p1 := unitsOf p2 entriesPerPage
  let p0 := unitsOf p1 entriesPerPage
  { payloadBytes := payloadBytes
    pageCount := ![p0, p1, p2, p3]
    byteOffset := ![0, p0 * pageBytes, (p0 + p1) * pageBytes, (p0 + p1 + p2) * pageBytes]
    tablePageCount := p0 + p1 + p2
    tableBytes := (p0 + p1 + p2) * pageBytes
    allocationBytes := (p0 + p1 + p2) * pageBytes + p3 * pageBytes }

def planRadix3 (payloadBytes : Nat) (out : Radix3Layout) : Status × Radix3Layout :=
  if payloadBytes = 0 ∨ payloadBytes > payloadBytesMax then (.invalidSize, out)
  else if (layoutOf payloadBytes).pageCount 0 ≠ 1 then (.invalidSize, out)
  else (.ok, layoutOf payloadBytes)

structure Buffer (α : Type) where
  pointer : Nat
  data : Nat → α
  count : Nat

def span (s : Nat × Nat) : Bool := !decide (s.2 > 2 ^ 64 - 1 - s.1)

def overlap (a b : Nat × Nat) : Bool := decide (a.1 < b.1 + b.2) && decide (b.1 < a.1 + a.2)

def validPage (address addressMax : Nat) : Bool :=
  decide (address &&& (pageBytes - 1) = 0) && decide (address ≤ addressMax - (pageBytes - 1))

def firstError : List (Bool × Status) → Status
  | [] => .ok
  | (bad, status) :: rest => if bad then status else firstError rest

section Serialize

variable (layout : Radix3Layout) (tablePages payloadPages : Buffer Nat) (dmaAddressBits : Nat)
  (payload output : Buffer UInt8) (scratch : Buffer Nat)

def spans : List (Nat × Nat) :=
  [(output.pointer, layout.allocationBytes), (payload.pointer, payload.count),
    (tablePages.pointer, tablePages.count * 8), (payloadPages.pointer, payloadPages.count * 8),
    (scratch.pointer, (tablePages.count + payloadPages.count) * 8)]

def addressMax : Nat := if dmaAddressBits = 64 then 2 ^ 64 - 1 else 2 ^ dmaAddressBits - 1

/-- All checks but the one for pages that are named twice. -/
def precheck : Status :=
  let expected := planRadix3 layout.payloadBytes layout
  let total := tablePages.count + payloadPages.count
  let spans := spans layout tablePages payloadPages payload output scratch
  let valid := fun a => validPage a (addressMax dmaAddressBits)
  firstError
    [(decide (expected.1 ≠ .ok ∨ layout ≠ expected.2), .invalidLayout),
      (decide (dmaAddressBits < 12 ∨ dmaAddressBits > 64), .invalidAddressWidth),
      (decide (layout.allocationBytes > sizeMax ∨ layout.tablePageCount > sizeMax ∨
        layout.pageCount 3 > sizeMax), .integerOverflow),
      (decide (tablePages.count ≠ layout.tablePageCount ∨
        payloadPages.count ≠ layout.pageCount 3 ∨ payload.count ≠ layout.payloadBytes),
        .invalidCount),
      (decide (output.count < layout.allocationBytes), .bufferTooSmall),
      (decide (tablePages.count > sizeMax - payloadPages.count), .integerOverflow),
      (decide (total > sizeMax / 8), .integerOverflow),
      (decide (scratch.count < total), .bufferTooSmall),
      (decide (tablePages.pointer = 0 ∨ payloadPages.pointer = 0 ∨ payload.pointer = 0 ∨
        output.pointer = 0 ∨ scratch.pointer = 0), .invalidArgument),
      (decide (tablePages.pointer % 8 ≠ 0 ∨ payloadPages.pointer % 8 ≠ 0 ∨
        scratch.pointer % 8 ≠ 0), .invalidArgument),
      (!spans.all span, .integerOverflow),
      (!decide (spans.Pairwise fun a b => overlap a b = false), .overlappingCpuSpans),
      (!(slice tablePages.data 0 tablePages.count).all valid, .invalidAddress),
      (!(slice payloadPages.data 0 payloadPages.count).all valid, .invalidAddress)]

def gathered : Nat → Nat :=
  write (write scratch.data 0 (slice tablePages.data 0 tablePages.count)) tablePages.count
    (slice payloadPages.data 0 payloadPages.count)

def writeAddress (out : Nat → UInt8) (p address : Nat) : Nat → UInt8 :=
  write out p (toBytes 8 address)

def writeAddresses (out : Nat → UInt8) (entryBegin : Nat) (g : Nat → Nat) (n : Nat) : Nat → UInt8 :=
  (List.range n).foldl (fun out i => writeAddress out (entryBegin + i * 8) (g i)) out

def serialized : Nat → UInt8 :=
  let out := write output.data 0 (List.replicate layout.tableBytes 0)
  let out := ([0, 1] : List (Fin 4)).foldl (fun out level => writeAddresses out
    (layout.byteOffset level)
    (fun i => tablePages.data (layout.byteOffset (level + 1) / pageBytes + i))
    (layout.pageCount (level + 1))) out
  let out := writeAddresses out (layout.byteOffset 2) payloadPages.data payloadPages.count
  let out := write out (layout.byteOffset 3) (slice payload.data 0 payload.count)
  write out (layout.byteOffset 3 + payload.count)
    (List.replicate (layout.allocationBytes - (layout.byteOffset 3 + payload.count)) 0)

/-- What a call returns, and what it leaves in its output and in the scratch array. -/
structure Serialized where
  status : Status
  output : Nat → UInt8
  scratch : Nat → Nat

def serializeRadix3 : Serialized :=
  let total := tablePages.count + payloadPages.count
  let status := precheck layout tablePages payloadPages dmaAddressBits payload output scratch
  let sorted := heapSort (gathered tablePages payloadPages scratch) total
  if status ≠ .ok then ⟨status, output.data, scratch.data⟩
  else if (List.range' 1 (total - 1)).any (fun i => decide (sorted (i - 1) = sorted i)) then
    ⟨.aliasedDmaPages, output.data, sorted⟩
  else ⟨.ok, serialized layout tablePages payloadPages payload output, sorted⟩

end Serialize

section Walk

variable (out : Nat → UInt8) (tablePages : Buffer Nat)

def entry (page k : Nat) : Nat := ofBytes (slice out (8 * (page * 512 + k)) 8)

/-- The table page at an address. -/
def resolve (address : Nat) : Option Nat :=
  (List.range tablePages.count).find? fun t => decide (tablePages.data t = address)

/-- The address of a page of the image, and the entries on the way to it. -/
def walk (j : Nat) : Option (List (Nat × Nat) × Nat) := do
  let t₀ ← resolve tablePages (tablePages.data 0)
  let t₁ ← resolve tablePages (entry out t₀ (j / 512 ^ 2 % 512))
  let t₂ ← resolve tablePages (entry out t₁ (j / 512 % 512))
  return ([(t₀, j / 512 ^ 2 % 512), (t₁, j / 512 % 512), (t₂, j % 512)], entry out t₂ (j % 512))

end Walk

structure Minimal (payloadBytes : Nat) (l : Radix3Layout) : Prop where
  bytes : l.payloadBytes = payloadBytes
  payload : IsLeast {n | payloadBytes ≤ n * 4096} (l.pageCount 3)
  tables : ∀ level : Fin 3, IsLeast {n | l.pageCount level.succ ≤ n * 512}
    (l.pageCount level.castSucc)
  root : l.pageCount 0 = 1
  first : l.byteOffset 0 = 0
  next : ∀ level : Fin 3,
    l.byteOffset level.succ = l.byteOffset level.castSucc + l.pageCount level.castSucc * 4096
  pages : l.tablePageCount = l.pageCount 0 + l.pageCount 1 + l.pageCount 2
  table : l.tableBytes = l.byteOffset 3
  total : l.allocationBytes = l.byteOffset 3 + l.pageCount 3 * 4096

section Planning

theorem isLeast_unitsOf {parts unit : Nat} (hparts : 0 < parts) (hunit : 0 < unit) :
    IsLeast {n | parts ≤ n * unit} (unitsOf parts unit) := by
  have hdiv := Nat.div_add_mod (parts - 1) unit
  have hmod := Nat.mod_lt (parts - 1) hunit
  refine ⟨?_, fun n hn => ?_⟩
  · change parts ≤ ((parts - 1) / unit + 1) * unit
    rw [Nat.add_mul, Nat.one_mul, Nat.mul_comm]
    omega
  · change parts ≤ n * unit at hn
    have hlt : (parts - 1) / unit < n := (Nat.div_lt_iff_lt_mul hunit).mpr (by omega)
    exact hlt

theorem planRadix3_ok {size : Nat} (out : Radix3Layout) (hpos : 1 ≤ size)
    (hmax : size ≤ payloadBytesMax) : planRadix3 size out = (.ok, layoutOf size) := by
  have hroot : (layoutOf size).pageCount 0 = 1 := by
    change ((((size - 1) / 4096 + 1 - 1) / 512 + 1 - 1) / 512 + 1 - 1) / 512 + 1 = 1
    unfold payloadBytesMax at hmax
    omega
  rw [planRadix3, if_neg (by omega), if_neg (not_not.mpr hroot)]

theorem layoutOf_minimal {size : Nat} (hpos : 1 ≤ size) (hmax : size ≤ payloadBytesMax) :
    Minimal size (layoutOf size) := by
  have hroot : (layoutOf size).pageCount 0 = 1 := by
    by_contra hne
    have hplan := planRadix3_ok (layoutOf size) hpos hmax
    rw [planRadix3, if_neg (by omega), if_pos hne] at hplan
    cases hplan
  have hunits : ∀ {n : Nat}, 0 < n → IsLeast {k | n ≤ k * 512} (unitsOf n 512) :=
    fun hn => isLeast_unitsOf hn (by decide)
  refine ⟨rfl, isLeast_unitsOf hpos (by decide), fun level => ?_, hroot, rfl, fun level => ?_, rfl,
    rfl, rfl⟩
  · match level with
    | 0 | 1 | 2 => exact hunits (Nat.succ_pos _)
  · match level with
    | 0 => exact (Nat.zero_add _).symm
    | 1 | 2 => exact Nat.add_mul _ _ _

end Planning

section Words

variable {out : Nat → UInt8} {b n e : Nat} {g : Nat → Nat}

theorem word_write {p : Nat} {vs : List UInt8} (h : 8 * e + 8 ≤ p ∨ p + vs.length ≤ 8 * e) :
    ofBytes (slice (write out p vs) (8 * e) 8) = ofBytes (slice out (8 * e) 8) :=
  congrArg ofBytes (slice_congr fun i _ _ => write_outside vs out p (by omega))

theorem word_writeAddresses (hg : ∀ i, i < n → g i < 2 ^ 64) :
    ofBytes (slice (writeAddresses out (8 * b) g n) (8 * e) 8) =
      if b ≤ e ∧ e < b + n then g (e - b) else ofBytes (slice out (8 * e) 8) := by
  induction n with
  | zero =>
    rw [if_neg (by omega)]
    rfl
  | succ n ih =>
    have ih := ih fun i hi => hg i (by omega)
    have hlast : writeAddresses out (8 * b) g (n + 1) =
        write (writeAddresses out (8 * b) g n) (8 * (b + n)) (toBytes 8 (g n)) := by
      rw [writeAddresses, List.range_succ, List.foldl_append, Nat.mul_add, Nat.mul_comm 8 n]
      rfl
    rw [hlast]
    by_cases he : e = b + n
    · have hread := slice_write (toBytes 8 (g n)) (writeAddresses out (8 * b) g n) (8 * (b + n))
      rw [toBytes_length] at hread
      rw [he, hread, if_pos (by omega), ofBytes_toBytes, Nat.add_sub_cancel_left]
      exact Nat.mod_eq_of_lt (hg n (by omega))
    · rw [word_write (by rw [toBytes_length]; omega), ih]
      exact if_congr (by omega) rfl rfl

theorem word_zeros {m : Nat} (h : 8 * e + 8 ≤ m) :
    ofBytes (slice (write out 0 (List.replicate m 0)) (8 * e) 8) = 0 := by
  have hzero : ∀ i, i < m → write out 0 (List.replicate m 0) i = 0 := by
    intro i hi
    have hslice := slice_write (List.replicate m (0 : UInt8)) out 0
    rw [List.length_replicate] at hslice
    have hget := congrArg (·[i]?) hslice
    simpa [slice, hi] using hget
  have hslice : slice (write out 0 (List.replicate m 0)) (8 * e) 8 = slice (fun _ => 0) 0 8 := by
    refine List.map_congr_left fun i hi => hzero _ ?_
    have := List.mem_range.mp hi
    omega
  rw [hslice]
  rfl

end Words

section Accepted

variable {layout : Radix3Layout} {tablePages payloadPages : Buffer Nat} {dmaAddressBits : Nat}
  {payload output : Buffer UInt8} {scratch : Buffer Nat}

/-- What the checks leave to know about the arguments. -/
structure Accepted (layout : Radix3Layout) (tablePages payloadPages : Buffer Nat)
    (payload : Buffer UInt8) (p1 p2 : Nat) : Prop where
  upper : p1 = (p2 - 1) / 512 + 1
  lower : p2 = (payloadPages.count - 1) / 512 + 1
  root : p1 ≤ 512
  pages : payloadPages.count = (payload.count - 1) / 4096 + 1
  tables : tablePages.count = 1 + p1 + p2
  shape : layout = ⟨payload.count, ![1, p1, p2, payloadPages.count],
    ![0, 4096, (1 + p1) * 4096, (1 + p1 + p2) * 4096], 1 + p1 + p2, (1 + p1 + p2) * 4096,
    (1 + p1 + p2) * 4096 + payloadPages.count * 4096⟩
  table : ∀ i, i < tablePages.count → tablePages.data i < 2 ^ 64
  page : ∀ i, i < payloadPages.count → payloadPages.data i < 2 ^ 64
  planned : layout = (planRadix3 payload.count layout).2

theorem lt_of_validPages {b : Buffer Nat} (hbits : dmaAddressBits ≤ 64)
    (h : (slice b.data 0 b.count).all (fun a => validPage a (addressMax dmaAddressBits)) = true) :
    ∀ i, i < b.count → b.data i < 2 ^ 64 := by
  intro i hi
  have hmem : b.data (0 + i) ∈ slice b.data 0 b.count :=
    List.mem_map.mpr ⟨i, List.mem_range.mpr hi, rfl⟩
  have hvalid := List.all_eq_true.mp h _ hmem
  rw [Nat.zero_add] at hvalid
  have hle := of_decide_eq_true (Bool.and_eq_true_iff.mp hvalid).2
  have hpow : 2 ^ dmaAddressBits ≤ 2 ^ 64 := Nat.pow_le_pow_right (by decide) hbits
  unfold addressMax at hle
  split_ifs at hle <;> omega

/-- The layout of an image of `n` pages, with the numbers of table pages. -/
theorem layoutOf_eq {size : Nat} (hpos : 1 ≤ size) (hmax : size ≤ payloadBytesMax) : ∃ p1 p2 n,
    p1 = (p2 - 1) / 512 + 1 ∧ p2 = (n - 1) / 512 + 1 ∧ p1 ≤ 512 ∧ n = (size - 1) / 4096 + 1 ∧
      layoutOf size = ⟨size, ![1, p1, p2, n], ![0, 4096, (1 + p1) * 4096, (1 + p1 + p2) * 4096],
        1 + p1 + p2, (1 + p1 + p2) * 4096, (1 + p1 + p2) * 4096 + n * 4096⟩ := by
  have hroot : unitsOf (unitsOf (unitsOf (unitsOf size pageBytes) entriesPerPage) entriesPerPage)
      entriesPerPage = 1 := (layoutOf_minimal hpos hmax).root
  refine ⟨_, _, _, rfl, rfl, ?_, rfl, ?_⟩
  · change (unitsOf (unitsOf (unitsOf size pageBytes) entriesPerPage) entriesPerPage - 1) /
      512 + 1 = 1
      at hroot
    change unitsOf (unitsOf (unitsOf size pageBytes) entriesPerPage) entriesPerPage ≤ 512
    omega
  · unfold layoutOf
    simp only [hroot, Nat.one_mul]
    rfl

theorem firstError_mem {l : List (Bool × Status)} :
    (firstError l = .ok ∧ ∀ c ∈ l, c.1 = false) ∨ firstError l ∈ l.map Prod.snd := by
  induction l with
  | nil => exact .inl ⟨rfl, nofun⟩
  | cons c l ih =>
    rcases c with ⟨bad, status⟩
    cases bad with
    | true => exact .inr List.mem_cons_self
    | false =>
      refine ih.imp (fun ⟨hok, hall⟩ => ⟨hok, fun c hc => ?_⟩) (List.mem_cons_of_mem _)
      rcases List.mem_cons.mp hc with rfl | hc
      · rfl
      · exact hall c hc

theorem accepted_of_precheck
    (h : precheck layout tablePages payloadPages dmaAddressBits payload output scratch = .ok) :
    ∃ p1 p2, Accepted layout tablePages payloadPages payload p1 p2 := by
  rcases firstError_mem.resolve_right (show ¬ _ by rw [← precheck, h]; simp) with ⟨_, hall⟩
  simp only [List.forall_mem_cons, decide_eq_false_iff_not, Bool.not_eq_false'] at hall
  rcases hall with ⟨h₁, h₂, _, h₄, _, _, _, _, _, _, _, _, h₁₃, h₁₄, _⟩
  rcases not_or.mp h₁ with ⟨hplan, hlayout⟩
  rcases not_or.mp h₄ with ⟨htables, h₄⟩
  rcases not_or.mp h₄ with ⟨hpages, hbytes⟩
  have hsize : 1 ≤ layout.payloadBytes ∧ layout.payloadBytes ≤ payloadBytesMax := by
    by_contra hno
    rw [planRadix3, if_pos (by omega)] at hplan
    exact hplan nofun
  rw [planRadix3_ok layout hsize.1 hsize.2] at hlayout
  rcases layoutOf_eq hsize.1 hsize.2 with ⟨p1, p2, n, hupper, hlower, hroot, hn, heq⟩
  rw [heq, ← not_not.mp hbytes] at hlayout
  have hlayout : layout = _ := not_not.mp hlayout
  rw [hlayout] at htables hpages
  have hcount : payloadPages.count = n := not_not.mp hpages
  refine ⟨p1, p2, hupper, hcount ▸ hlower, hroot, ?_, not_not.mp htables, hcount ▸ hlayout,
    lt_of_validPages (by omega) h₁₃, lt_of_validPages (by omega) h₁₄, ?_⟩
  · rw [hcount, not_not.mp hbytes, hn]
  · rw [not_not.mp hbytes, planRadix3_ok layout hsize.1 hsize.2, heq, ← not_not.mp hbytes]
    exact hlayout

variable {p1 p2 : Nat}

theorem Accepted.word (h : Accepted layout tablePages payloadPages payload p1 p2) {e : Nat}
    (he : e < 512 * (1 + p1 + p2)) :
    ofBytes (slice (serialized layout tablePages payloadPages payload output) (8 * e) 8) =
      if e < p1 then tablePages.data (1 + e)
      else if 512 ≤ e ∧ e < 512 + p2 then tablePages.data (1 + p1 + (e - 512))
      else if 512 * (1 + p1) ≤ e ∧ e < 512 * (1 + p1) + payloadPages.count then
        payloadPages.data (e - 512 * (1 + p1))
      else 0 := by
  rcases h with ⟨hupper, hlower, hroot, hpages, htables, rfl, htable, hpage, _⟩
  have hbase : ∀ p, p * 4096 = 8 * (512 * p) := by omega
  unfold serialized
  simp only [List.foldl_cons, List.foldl_nil]
  rw [word_write (by left; simp only [Matrix.cons_val]; omega),
    word_write (by left; simp only [Matrix.cons_val]; omega)]
  simp only [Matrix.cons_val, pageBytes, Fin.reduceAdd]
  rw [Nat.mul_div_cancel _ (by decide), hbase (1 + p1), word_writeAddresses hpage,
    show (4096 : Nat) / 4096 = 1 from rfl, show (4096 : Nat) = 8 * 512 from rfl,
    word_writeAddresses fun i hi => htable _ (by omega), show (0 : Nat) = 8 * 0 from rfl,
    word_writeAddresses fun i hi => htable _ (by omega), word_zeros (by omega)]
  simp only [Nat.sub_zero, Nat.zero_add, Nat.zero_le, true_and]
  split_ifs <;> omega

theorem resolve_eq {t : Nat} (ht : t < tablePages.count)
    (hinj : ∀ s t, s < tablePages.count → t < tablePages.count →
      tablePages.data s = tablePages.data t → s = t) :
    resolve tablePages (tablePages.data t) = some t := by
  rw [resolve, List.find?_range_eq_some]
  refine ⟨decide_eq_true rfl, List.mem_range.mpr ht, fun s hs => ?_⟩
  rw [Bool.not_eq_true', decide_eq_false_iff_not]
  intro heq
  have := hinj s t (by omega) ht heq
  omega

theorem Accepted.walk_eq (h : Accepted layout tablePages payloadPages payload p1 p2)
    (hinj : ∀ s t, s < tablePages.count → t < tablePages.count →
      tablePages.data s = tablePages.data t → s = t) {j : Nat} (hj : j < payloadPages.count) :
    walk (serialized layout tablePages payloadPages payload output) tablePages j =
      some ([(0, j / 512 / 512), (1 + j / 512 / 512, j / 512 % 512), (1 + p1 + j / 512, j % 512)],
        payloadPages.data j) := by
  have hupper := h.upper
  have hlower := h.lower
  have hroot := h.root
  have htables := h.tables
  have hdigit : j / 512 ^ 2 % 512 = j / 512 / 512 := by omega
  have h₀ : entry (serialized layout tablePages payloadPages payload output) 0 (j / 512 / 512) =
      tablePages.data (1 + j / 512 / 512) := by
    rw [entry, h.word (by omega), if_pos (by omega), Nat.zero_mul, Nat.zero_add]
  have h₁ : entry (serialized layout tablePages payloadPages payload output) (1 + j / 512 / 512)
      (j / 512 % 512) = tablePages.data (1 + p1 + j / 512) := by
    rw [entry, h.word (by omega), if_neg (by omega), if_pos (by omega)]
    exact congrArg _ (by omega)
  have h₂ : entry (serialized layout tablePages payloadPages payload output) (1 + p1 + j / 512)
      (j % 512) = payloadPages.data j := by
    rw [entry, h.word (by omega), if_neg (by omega), if_neg (by omega), if_pos (by omega)]
    exact congrArg _ (by omega)
  unfold walk
  simp only [hdigit, resolve_eq (show 0 < tablePages.count by omega) hinj, h₀,
    resolve_eq (show 1 + j / 512 / 512 < tablePages.count by omega) hinj, h₁,
    resolve_eq (show 1 + p1 + j / 512 < tablePages.count by omega) hinj, h₂, Option.bind_eq_bind,
    Option.bind_some, Option.pure_def]

theorem Accepted.entry_zero (h : Accepted layout tablePages payloadPages payload p1 p2)
    (hinj : ∀ s t, s < tablePages.count → t < tablePages.count →
      tablePages.data s = tablePages.data t → s = t) {t k : Nat} (ht : t < tablePages.count)
    (hk : k < 512) (hoff : ∀ j < payloadPages.count, ∀ path a,
      walk (serialized layout tablePages payloadPages payload output) tablePages j =
        some (path, a) → (t, k) ∉ path) :
    entry (serialized layout tablePages payloadPages payload output) t k = 0 := by
  have hupper := h.upper
  have hlower := h.lower
  have hroot := h.root
  have htables := h.tables
  have hoff : ∀ j, j < payloadPages.count → ¬(t = 0 ∧ k = j / 512 / 512) ∧
      ¬(t = 1 + j / 512 / 512 ∧ k = j / 512 % 512) ∧ ¬(t = 1 + p1 + j / 512 ∧ k = j % 512) := by
    intro j hj
    simpa only [List.mem_cons, Prod.mk.injEq, List.not_mem_nil, or_false, not_or] using
      hoff j hj _ _ (h.walk_eq hinj hj)
  have hpages := h.pages
  have htable : ∀ d, d < p2 → d * 512 < payloadPages.count := by omega
  have hpage : ∀ d, d < p1 → d * 512 * 512 < payloadPages.count := by omega
  rw [entry, h.word (by omega)]
  -- Each entry that was written is on the way to the first page below it.
  split_ifs with hfirst hsecond hthird
  · have := (hoff _ (hpage k (by omega))).1
    omega
  · have := (hoff _ (htable (t * 512 + k - 512) (by omega))).2.1
    omega
  · have := (hoff (t * 512 + k - 512 * (1 + p1)) (by omega)).2.2
    omega
  · rfl

/-- The bytes of the image, and zeros up to the end of its last page. -/
theorem Accepted.image (h : Accepted layout tablePages payloadPages payload p1 p2) {q : Nat}
    (hq : q < payloadPages.count * 4096) :
    serialized layout tablePages payloadPages payload output (layout.byteOffset 3 + q) =
      if q < payload.count then payload.data q else 0 := by
  have hread : ∀ {vs : List UInt8} (words : Nat → UInt8) (p i : Nat) (hi : i < vs.length),
      write words p vs (p + i) = vs[i] := by
    intro vs words p i hi
    have hget := congrArg (·[i]?) (slice_write vs words p)
    simpa [slice, hi] using hget
  unfold serialized
  split_ifs with hlt
  · rw [write_outside _ _ _ (.inl (by omega)), hread _ _ _ (by rw [slice_length]; exact hlt)]
    simp [slice]
  · obtain ⟨i, rfl⟩ : ∃ i, q = payload.count + i := ⟨q - payload.count, by omega⟩
    have hlen : i < layout.allocationBytes - (layout.byteOffset 3 + payload.count) := by
      rw [h.shape]
      simp only [Matrix.cons_val]
      omega
    rw [← Nat.add_assoc, hread _ _ _ (by rw [List.length_replicate]; exact hlen),
      List.getElem_replicate]

end Accepted

section Results

variable (layout : Radix3Layout) (tablePages payloadPages : Buffer Nat) (dmaAddressBits : Nat)
  (payload output : Buffer UInt8) (scratch : Buffer Nat)

theorem gathered_eq {i : Nat} (hi : i < tablePages.count + payloadPages.count) :
    gathered tablePages payloadPages scratch i =
      if i < tablePages.count then tablePages.data i
      else payloadPages.data (i - tablePages.count) := by
  have hread : ∀ (b : Buffer Nat) (words : Nat → Nat) (p i : Nat), i < b.count →
      write words p (slice b.data 0 b.count) (p + i) = b.data i := by
    intro b words p i hi
    have hget := congrArg (·[i]?) (slice_write (slice b.data 0 b.count) words p)
    rw [slice_length] at hget
    simpa [slice, hi] using hget
  unfold gathered
  split_ifs with hlt
  · rw [write_outside _ _ _ (.inl hlt)]
    simpa using hread tablePages scratch.data 0 i hlt
  · have hi' := hread payloadPages (write scratch.data 0 (slice tablePages.data 0 tablePages.count))
      tablePages.count (i - tablePages.count) (by omega)
    rwa [Nat.add_sub_cancel' (Nat.le_of_not_lt hlt)] at hi'

theorem aliased_iff {total : Nat} {w : Nat → Nat} :
    (List.range' 1 (total - 1)).any
        (fun i => decide (heapSort w total (i - 1) = heapSort w total i)) = true ↔
      ∃ i j, i < j ∧ j < total ∧ w i = w j := by
  rw [← heapSort_adjacent, List.any_eq_true]
  refine ⟨fun ⟨i, hi, heq⟩ => ?_, fun ⟨i, hpos, hi, heq⟩ => ?_⟩
  · have := List.mem_range'_1.mp hi
    exact ⟨i, by omega, by omega, of_decide_eq_true heq⟩
  · exact ⟨i, List.mem_range'_1.mpr (by omega), decide_eq_true heq⟩

theorem serializeRadix3_ok (hok : (serializeRadix3 layout tablePages payloadPages dmaAddressBits
      payload output scratch).status = .ok) :
    precheck layout tablePages payloadPages dmaAddressBits payload output scratch = .ok ∧
      (¬ ∃ i j, i < j ∧ j < tablePages.count + payloadPages.count ∧
        gathered tablePages payloadPages scratch i = gathered tablePages payloadPages scratch j) ∧
      (serializeRadix3 layout tablePages payloadPages dmaAddressBits payload output
        scratch).output = serialized layout tablePages payloadPages payload output := by
  rw [← aliased_iff]
  unfold serializeRadix3 at hok ⊢
  dsimp only at hok ⊢
  split_ifs at hok ⊢ with hcheck hany
  · exact absurd hok hcheck
  · exact ⟨not_not.mp hcheck, hany, rfl⟩

/-- Of every image that fits: the plan has the fewest pages, three digits lead to
    each page, no other entry is set, and the pages hold the image. Whatever
    fails, the output is as it was. -/
theorem serializeRadix3_exact :
    (∀ size out, (1 ≤ size ∧ size ≤ payloadBytesMax →
        (planRadix3 size out).1 = .ok ∧ Minimal size (planRadix3 size out).2) ∧
      (¬ (1 ≤ size ∧ size ≤ payloadBytesMax) → planRadix3 size out = (.invalidSize, out))) ∧
    let r : Serialized :=
      serializeRadix3 layout tablePages payloadPages dmaAddressBits payload output scratch
    (r.status = .ok →
      layout = (planRadix3 payload.count layout).2 ∧
      (∀ s t, s < tablePages.count → t < tablePages.count →
        tablePages.data s = tablePages.data t → s = t) ∧
      (∀ j < payloadPages.count, ∃ path, walk r.output tablePages j =
        some (path, payloadPages.data j)) ∧
      (∀ t < tablePages.count, ∀ k < 512, (∀ j < payloadPages.count, ∀ path a,
        walk r.output tablePages j = some (path, a) → (t, k) ∉ path) → entry r.output t k = 0) ∧
      (∀ j < payloadPages.count, ∀ k < 4096, r.output (layout.byteOffset 3 + (j * 4096 + k)) =
        if j * 4096 + k < payload.count then payload.data (j * 4096 + k) else 0)) ∧
    (r.status ≠ .ok → r.output = output.data) := by
  refine ⟨fun size out => ⟨fun h => ?_, fun h => if_pos (by omega)⟩, fun hok => ?_, fun hne => ?_⟩
  · rw [planRadix3_ok out h.1 h.2]
    exact ⟨rfl, layoutOf_minimal h.1 h.2⟩
  · rcases serializeRadix3_ok layout tablePages payloadPages dmaAddressBits payload
      output scratch hok with ⟨hcheck, hdistinct, hout⟩
    rcases accepted_of_precheck hcheck with ⟨p1, p2, h⟩
    have hinj : ∀ s t, s < tablePages.count → t < tablePages.count →
        tablePages.data s = tablePages.data t → s = t := by
      intro s t hs ht heq
      by_contra hne
      rw [← (gathered_eq tablePages payloadPages scratch (i := s) (by omega)).trans (if_pos hs),
        ← (gathered_eq tablePages payloadPages scratch (i := t) (by omega)).trans (if_pos ht)]
        at heq
      rcases Nat.lt_or_gt_of_ne hne with hlt | hgt
      · exact hdistinct ⟨s, t, hlt, by omega, heq⟩
      · exact hdistinct ⟨t, s, hgt, by omega, heq.symm⟩
    rw [hout]
    exact ⟨h.planned, hinj, fun j hj => ⟨_, h.walk_eq hinj hj⟩,
      fun t ht k hk hoff => h.entry_zero hinj ht hk hoff, fun j hj k hk => h.image (by omega)⟩
  · unfold serializeRadix3 at hne ⊢
    dsimp only at hne ⊢
    split_ifs at hne ⊢
    · rfl
    · rfl
    · exact absurd rfl hne

/-- An image of one byte. -/
example : (serializeRadix3 (layoutOf 1) ⟨8, fun i => 4096 * i, 3⟩ ⟨40, fun _ => 16384, 1⟩ 40
    ⟨64, fun _ => 7, 1⟩ ⟨4096, fun _ => 1, 16384⟩ ⟨128, fun _ => 0, 4⟩).status = .ok := by
  decide

/-- Pages are reported as named twice exactly where, after all other checks, two
    of all addresses are equal. The scratch array then holds them in order. -/
theorem serializeRadix3_aliased :
    let r : Serialized :=
      serializeRadix3 layout tablePages payloadPages dmaAddressBits payload output scratch
    let total := tablePages.count + payloadPages.count
    let page := fun i => if i < tablePages.count then tablePages.data i
      else payloadPages.data (i - tablePages.count)
    (r.status = .aliasedDmaPages ↔
      precheck layout tablePages payloadPages dmaAddressBits payload output scratch = .ok ∧
        ∃ i j, i < j ∧ j < total ∧ page i = page j) ∧
    (precheck layout tablePages payloadPages dmaAddressBits payload output scratch = .ok →
      (slice r.scratch 0 total).Perm (slice page 0 total) ∧
        ∀ i j, i ≤ j → j < total → r.scratch i ≤ r.scratch j) := by
  intro r total page
  have hpage : ∀ i, i < total → gathered tablePages payloadPages scratch i = page i :=
    fun i hi => gathered_eq tablePages payloadPages scratch hi
  have htwice : (∃ i j, i < j ∧ j < total ∧ gathered tablePages payloadPages scratch i =
      gathered tablePages payloadPages scratch j) ↔ ∃ i j, i < j ∧ j < total ∧ page i = page j := by
    constructor
    · rintro ⟨i, j, hij, hj, heq⟩
      exact ⟨i, j, hij, hj, by rwa [hpage i (by omega), hpage j hj] at heq⟩
    · rintro ⟨i, j, hij, hj, heq⟩
      exact ⟨i, j, hij, hj, by rwa [hpage i (by omega), hpage j hj]⟩
  have hscratch :
      precheck layout tablePages payloadPages dmaAddressBits payload output scratch = .ok →
      r.scratch = heapSort (gathered tablePages payloadPages scratch) total := by
    intro hok
    change (serializeRadix3 layout tablePages payloadPages dmaAddressBits payload output
      scratch).scratch = _
    unfold serializeRadix3
    dsimp only
    rw [if_neg (not_not.mpr hok)]
    split <;> rfl
  constructor
  · rw [← htwice, ← aliased_iff]
    change (serializeRadix3 layout tablePages payloadPages dmaAddressBits payload output
      scratch).status = _ ↔ _
    unfold serializeRadix3
    dsimp only
    split_ifs with hcheck hany
    · refine ⟨fun h => ?_, fun h => absurd h.1 hcheck⟩
      rcases firstError_mem with ⟨hok, _⟩ | hmem
      · exact absurd hok hcheck
      · change firstError _ = _ at h
        rw [h] at hmem
        simp at hmem
    · exact ⟨fun _ => ⟨not_not.mp hcheck, hany⟩, fun _ => rfl⟩
    · exact ⟨nofun, fun h => absurd h.2 hany⟩
  · intro hok
    rcases heapSort_sorted (gathered tablePages payloadPages scratch) total with
      ⟨hshuffled, hsorted⟩
    rw [hscratch hok]
    refine ⟨?_, hsorted⟩
    have hslice : slice page 0 total = slice (gathered tablePages payloadPages scratch) 0 total :=
      slice_congr fun i _ hi => (hpage i (by omega)).symm
    rw [hslice]
    simpa only [slice, Nat.zero_add] using hshuffled.perm

end Results

end Mellow.PortedNvidiaGsp
