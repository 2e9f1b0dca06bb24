import Mathlib.Data.List.Nodup
import Mathlib.Data.List.Pairwise
import Mathlib.Tactic.IntervalCases
import Mellow.Lib.Bytes

/-!
# Reading an Export Trie

`export_trie` of `Tools/tahoe-abi.py` reads the names a library exports. They
are spelled by the paths of a trie whose nodes lie anywhere in the input, so
edges may go back, and meet. Every exception of the source is a `ValueError`,
here an error with its message. A list of pending visits is kept with its end
first.

## Main definitions

* `exportTrie`: the reader.
* `node`: what the input says of one node.
* `Exact`: what holds of the names that are read.
* `Covers`: every path was visited or goes through a pending visit.

## Theorems

* `exportTrie_exact`: the names are those of the paths.
-/

namespace Mellow.ExportTrie

open Lib

abbrev Read := Except String

section Program

variable (data : List UInt8)

def check (offset size : Nat) : Read Unit :=
  if offset > data.length ∨ size > data.length - offset then .error "Binary field outside file"
  else .ok ()

/-- `string`. Without a limit it ends with the input. -/
def string (data : List UInt8) (offset : Nat) (limit : Option Nat) : Read String :=
  let stop := limit.getD data.length
  if ¬(offset < stop ∧ stop ≤ data.length) then .error "String outside bounded region"
  else match ((data.take stop).drop offset).idxOf? 0 with
    | none => .error "Unterminated/oversized string"
    | some n =>
      if n > 65536 then .error "Unterminated/oversized string"
      else match String.fromUTF8? ⟨((data.drop offset).take n).toArray⟩ with
        | none => .error "invalid utf-8"
        | some s => .ok s

/-- The loop of `uleb`, with `left` of its ten rounds left. -/
def ulebFrom (data : List UInt8) : (left offset value : Nat) → Read (Nat × Nat)
  | 0, _, _ => .error "Unterminated ULEB128"
  | left + 1, offset, value => do
    check data offset 1
    let byte := (data.getD offset 0).toNat
    if left = 0 ∧ byte > 1 then .error "ULEB128 overflow"
    else if byte < 128 then .ok (value ||| (byte &&& 127) <<< (7 * (9 - left)), offset + 1)
    else ulebFrom data left (offset + 1) (value ||| (byte &&& 127) <<< (7 * (9 - left)))

def uleb (offset : Nat) : Read (Nat × Nat) := ulebFrom data 10 offset 0

inductive Entry where
  | reexport (flags ordinal : Nat) (importedName : String)
  | address (flags offset : Nat) (resolver : Option Nat)
  deriving DecidableEq, Repr

def terminal (data : List UInt8) (cursor children : Nat) : Read Entry := do
  let (flags, position) ← uleb data cursor
  let (value, position) ← uleb data position
  if flags &&& 8 ≠ 0 then return .reexport flags value (← string data position (some children))
  else if flags &&& 16 ≠ 0 then
    let (resolver, position) ← uleb data position
    if position > children then .error "Export terminal exceeds declared size"
    else return .address flags value (some resolver)
  else if position > children then .error "Export terminal exceeds declared size"
  else return .address flags value none

/-- The record at a node, if it has one, and where its edges are. -/
def record (cursor : Nat) : Read (Option Entry × Nat) := do
  let (size, cursor) ← uleb data cursor
  check data cursor size
  if size ≠ 0 then return (some (← terminal data cursor (cursor + size)), cursor + size)
  else return (none, cursor + size)

def edges (data : List UInt8) : (count cursor : Nat) → Read (List (String × Nat))
  | 0, _ => .ok []
  | count + 1, cursor => do
    let edge ← string data cursor none
    if edge.isEmpty then .error "Empty export trie edge"
    else
      let (child, cursor) ← uleb data (cursor + edge.utf8ByteSize + 1)
      check data child 1
      return (edge, child) :: (← edges data count cursor)

def branch (children : Nat) : Read (List (String × Nat)) := do
  check data children 1
  edges data (data.getD children 0).toNat (children + 1)

structure Visit where
  cursor : Nat
  spelled : String
  ancestry : List Nat

/-- The dictionary, in the order in which its keys were added. -/
abbrev Exports := List (String × Entry)

def add (result : Exports) (name : String) : Option Entry → Read Exports
  | none => .ok result
  | some entry =>
    if name ∈ result.map Prod.fst then .error "Duplicate export trie terminal"
    else .ok (result ++ [(name, entry)])

def Visit.children (v : Visit) (kids : List (String × Nat)) : List Visit :=
  kids.map fun kid => ⟨kid.2, v.spelled ++ kid.1, v.cursor :: v.ancestry⟩

/-- The body of the loop after its first check. -/
def visit (v : Visit) (result : Exports) : Read (List Visit × Exports) := do
  let (entry, children) ← record data v.cursor
  let result ← add result v.spelled entry
  let kids ← branch data children
  return (v.children kids, result)

/-- The loop, with the number of visits it made. -/
def loop (data : List UInt8) (visits : Nat) (pending : List Visit) (result : Exports) :
    Nat × Read Exports :=
  match pending with
  | [] => (visits, .ok result)
  | v :: rest =>
    if v.cursor ∈ v.ancestry ∨ v.spelled.length > 65536 ∨ visits > 200000 then
      (visits, .error "Export trie cycle/limit exceeded")
    else match visit data v result with
      | .error e => (visits + 1, .error e)
      | .ok (kids, result) => loop data (visits + 1) (kids.reverse ++ rest) result
termination_by 200001 - visits

def exportTrie : Nat × Read Exports := loop data 0 [⟨0, "", []⟩] []

end Program

section Numbers

inductive Uleb : List UInt8 → Nat → Prop where
  | last {b : UInt8} (h : b.toNat < 128) : Uleb [b] b.toNat
  | more {b : UInt8} {bs : List UInt8} {v : Nat} (h : 128 ≤ b.toNat) (hv : Uleb bs v) :
      Uleb (b :: bs) (b.toNat - 128 + 128 * v)

variable {data : List UInt8} {v next : Nat}

theorem check_byte (data : List UInt8) (offset : Nat) :
    (∃ e, check data offset 1 = .error e) ∧ data.drop offset = [] ∨
      check data offset 1 = .ok () ∧ data.drop offset = data.getD offset 0 :: data.drop
        (offset + 1) := by
  unfold check
  split_ifs with h
  · exact .inl ⟨⟨_, rfl⟩, List.drop_eq_nil_of_le (by omega)⟩
  · have hlt : offset < data.length := by omega
    refine .inr ⟨rfl, ?_⟩
    rw [List.drop_eq_getElem_cons hlt]
    simp [hlt]

theorem pow_round {left : Nat} (h : left ≤ 9) :
    2 ^ (7 * (10 - left)) = 128 * 2 ^ (7 * (9 - left)) := by
  rw [show 7 * (10 - left) = 7 + 7 * (9 - left) by omega, pow_add]
  rfl

theorem fits_last {left b : Nat} (h : left ≤ 9) (hb : b < 128) :
    b * 2 ^ (7 * (9 - left)) < 2 ^ 64 ↔ ¬(left = 0 ∧ b > 1) := by
  interval_cases left <;> simp <;> omega

theorem fits_more {left c w : Nat} (h : left ≤ 9) (hpos : left ≠ 0) (hc : c < 128) :
    (c + 128 * w) * 2 ^ (7 * (9 - left)) < 2 ^ 64 ↔ w * 2 ^ (7 * (10 - left)) < 2 ^ 64 := by
  interval_cases left <;> simp at hpos ⊢ <;> omega

/-- The first byte says whether there are more. -/
theorem Uleb.head {b : UInt8} {bs rest : List UInt8} {w : Nat} (h : Uleb bs w)
    (hpre : bs <+: b :: rest) :
    b.toNat < 128 ∧ bs = [b] ∧ w = b.toNat ∨ 128 ≤ b.toNat ∧ ∃ bs' w', bs = b :: bs' ∧ Uleb bs' w' ∧
      bs' <+: rest ∧ w = b.toNat - 128 + 128 * w' := by
  cases h with
  | last h =>
    rcases List.cons_prefix_cons.mp hpre with ⟨rfl, -⟩
    exact .inl ⟨h, rfl, rfl⟩
  | more h hw =>
    rcases List.cons_prefix_cons.mp hpre with ⟨rfl, hrest⟩
    exact .inr ⟨h, _, _, rfl, hw, hrest, rfl⟩

/-- What is left to read is a number that fits above what was read. -/
theorem ulebFrom_iff (left : Nat) : ∀ offset value, left ≤ 10 → value < 2 ^ (7 * (10 - left)) →
    (ulebFrom data left offset value = .ok (v, next) ↔ ∃ bs w, Uleb bs w ∧ bs.length ≤ left ∧
      w * 2 ^ (7 * (10 - left)) < 2 ^ 64 ∧ bs <+: data.drop offset ∧
      v = value + w * 2 ^ (7 * (10 - left)) ∧ next = offset + bs.length) := by
  induction left with
  | zero =>
    intro offset value _ _
    refine ⟨nofun, ?_⟩
    rintro ⟨_, _, hbs, hlen, -⟩
    cases hbs <;> cases hlen
  | succ left ih =>
    intro offset value hleft hvalue
    rcases check_byte data offset with ⟨⟨e, he⟩, hnil⟩ | ⟨hok, hcons⟩
    · rw [ulebFrom, he, hnil]
      refine ⟨nofun, ?_⟩
      rintro ⟨_, _, hbs, -, -, hpre, -⟩
      cases hbs <;> simp at hpre
    rw [ulebFrom, hok, hcons]
    generalize data.getD offset 0 = b
    have hleft : left ≤ 9 := by omega
    have hb := b.toNat_lt
    rw [show 10 - (left + 1) = 9 - left by omega] at hvalue ⊢
    change (if left = 0 ∧ b.toNat > 1 then _ else if b.toNat < 128 then _ else _) = _ ↔ _
    rw [or_shift _ hvalue, Nat.and_two_pow_sub_one_eq_mod b.toNat 7]
    constructor
    · split_ifs with hover hlow
      · exact nofun
      · intro h
        cases h
        rw [Nat.mod_eq_of_lt hlow]
        exact ⟨[b], _, .last hlow, by simp, (fits_last hleft hlow).mpr hover, by simp, rfl, rfl⟩
      · -- The first byte goes below what is read after it.
        have hzero : left ≠ 0 := by omega
        have hmod : b.toNat % 2 ^ 7 = b.toNat - 128 := by omega
        have hsmall := Nat.mul_le_mul_right (2 ^ (7 * (9 - left))) (by omega : b.toNat - 128 ≤ 127)
        rw [hmod, ih _ _ (by omega) (by rw [pow_round hleft]; omega)]
        rintro ⟨bs, w, hw, hlen, hlt, hpre, rfl, rfl⟩
        refine ⟨b :: bs, _, .more (by omega) hw, by simpa using hlen,
          (fits_more hleft hzero (by omega)).mpr hlt, by simpa using hpre, ?_, ?_⟩
        · rw [pow_round hleft]
          ring
        · rw [List.length_cons]
          omega
    · rintro ⟨bs, w, hw, hlen, hlt, hpre, rfl, rfl⟩
      rcases hw.head hpre with ⟨hlow, rfl, rfl⟩ | ⟨hhigh, bs, w, rfl, hmore, hrest, rfl⟩
      · rw [if_neg ((fits_last hleft hlow).mp hlt), if_pos hlow, Nat.mod_eq_of_lt hlow]
        rfl
      · have hzero : left ≠ 0 := by
          rintro rfl
          cases hmore <;> simp at hlen
        have hmod : b.toNat % 2 ^ 7 = b.toNat - 128 := by omega
        have hsmall := Nat.mul_le_mul_right (2 ^ (7 * (9 - left))) (by omega : b.toNat - 128 ≤ 127)
        rw [if_neg (by omega), if_neg (by omega), hmod,
          ih _ _ (by omega) (by rw [pow_round hleft]; omega)]
        refine ⟨bs, w, hmore, by simpa using hlen, (fits_more hleft hzero (by omega)).mp hlt,
          hrest, ?_, ?_⟩
        · rw [pow_round hleft]
          ring
        · rw [List.length_cons]
          omega

/-- A number lies at an offset, in at most ten bytes, and ends before `next`. -/
def NumberAt (data : List UInt8) (offset v next : Nat) : Prop :=
  ∃ bs, Uleb bs v ∧ bs.length ≤ 10 ∧ v < 2 ^ 64 ∧ bs <+: data.drop offset ∧
    next = offset + bs.length

theorem uleb_iff (offset : Nat) :
    uleb data offset = .ok (v, next) ↔ NumberAt data offset v next := by
  rw [uleb, ulebFrom_iff 10 offset 0 le_rfl (by simp)]
  simp only [Nat.sub_self, Nat.mul_zero, pow_zero, Nat.mul_one, Nat.zero_add]
  constructor
  · rintro ⟨bs, w, hw, hlen, hlt, hpre, rfl, hnext⟩
    exact ⟨bs, hw, hlen, hlt, hpre, hnext⟩
  · rintro ⟨bs, hw, hlen, hlt, hpre, hnext⟩
    exact ⟨bs, v, hw, hlen, hlt, hpre, rfl, hnext⟩

end Numbers

section Nodes

def utf8 (s : String) : List UInt8 := s.toUTF8.data.toList

/-- A text lies at an offset, and the zero byte after it before `stop`. -/
def TextAt (data : List UInt8) (offset stop : Nat) (s : String) : Prop :=
  utf8 s ++ [0] <+: (data.take stop).drop offset ∧ 0 ∉ utf8 s ∧ (utf8 s).length ≤ 65536

/-- The record of a node: flags, then what they say there is. -/
inductive TerminalAt (data : List UInt8) (offset stop : Nat) : Entry → Prop where
  | reexport {flags ordinal a b : Nat} {name : String} (hflags : NumberAt data offset flags a)
      (hordinal : NumberAt data a ordinal b) (h8 : flags &&& 8 ≠ 0)
      (hname : TextAt data b stop name) :
      TerminalAt data offset stop (.reexport flags ordinal name)
  | resolved {flags value resolver a b c : Nat} (hflags : NumberAt data offset flags a)
      (hvalue : NumberAt data a value b) (h8 : flags &&& 8 = 0) (h16 : flags &&& 16 ≠ 0)
      (hresolver : NumberAt data b resolver c) (hend : c ≤ stop) :
      TerminalAt data offset stop (.address flags value (some resolver))
  | plain {flags value a b : Nat} (hflags : NumberAt data offset flags a)
      (hvalue : NumberAt data a value b) (h8 : flags &&& 8 = 0) (h16 : flags &&& 16 = 0)
      (hend : b ≤ stop) :
      TerminalAt data offset stop (.address flags value none)

/-- Edges lie one after the other: a label, and the offset of a child. -/
def EdgesAt (data : List UInt8) : Nat → List (String × Nat) → Prop
  | _, [] => True
  | offset, (label, child) :: kids => label ≠ "" ∧ TextAt data offset data.length label ∧
    ∃ next, NumberAt data (offset + (utf8 label).length + 1) child next ∧ child < data.length ∧
      EdgesAt data next kids

/-- What the input says of a node: its record and its edges. -/
def NodeAt (data : List UInt8) (c : Nat) (entry : Option Entry) (kids : List (String × Nat)) :
    Prop :=
  ∃ size body, NumberAt data c size body ∧ body + size ≤ data.length ∧
    (size = 0 ∧ entry = none ∨
      size ≠ 0 ∧ ∃ e, entry = some e ∧ TerminalAt data body (body + size) e) ∧
    ∃ count, data[body + size]? = some count ∧ kids.length = count.toNat ∧
      EdgesAt data (body + size + 1) kids

variable {data : List UInt8} {offset stop n : Nat} {s : String} {kids : List (String × Nat)}

theorem bind_ok_iff {α β : Type} {x : Read α} {f : α → Read β} {b : β} :
    x >>= f = .ok b ↔ ∃ a, x = .ok a ∧ f a = .ok b := by
  cases x with
  | error e =>
    refine ⟨nofun, ?_⟩
    rintro ⟨a, ha, -⟩
    cases ha
  | ok a =>
    refine ⟨fun h => ⟨a, rfl, h⟩, ?_⟩
    rintro ⟨a, ⟨⟩, h⟩
    exact h

theorem check_iff {u : Unit} : check data offset n = .ok u ↔ offset + n ≤ data.length := by
  unfold check
  split_ifs with h
  · exact ⟨nofun, by omega⟩
  · exact ⟨fun _ => by omega, fun _ => rfl⟩

theorem fromUTF8_iff {bs : List UInt8} :
    String.fromUTF8? ⟨bs.toArray⟩ = some s ↔ utf8 s = bs := by
  unfold String.fromUTF8? utf8
  constructor
  · split_ifs with h
    · rintro ⟨⟩
      rfl
    · exact nofun
  · rintro rfl
    exact dif_pos s.isValidUTF8

/-- The first zero byte ends a text. -/
theorem idxOf_zero_iff (bs : List UInt8) : ∀ {l : List UInt8},
    l.idxOf? 0 = some bs.length ∧ l.take bs.length = bs ↔ bs ++ [0] <+: l ∧ 0 ∉ bs := by
  induction bs with
  | nil =>
    intro l
    cases l <;> simp [List.idxOf?_cons]
    grind
  | cons b bs ih =>
    intro l
    cases l with
    | nil => simp
    | cons a l =>
      by_cases ha : a = 0
      · simp [List.idxOf?_cons, ha]
        grind
      · simp [List.idxOf?_cons, ha]
        grind

theorem string_iff {limit : Option Nat} (hle : limit.getD data.length ≤ data.length) :
    string data offset limit = .ok s ↔ TextAt data offset (limit.getD data.length) s := by
  unfold string TextAt
  generalize limit.getD data.length = stop at hle
  rw [← and_assoc, ← idxOf_zero_iff (utf8 s)]
  by_cases hin : offset < stop
  · rw [if_neg (not_not.mpr ⟨hin, hle⟩)]
    cases hidx : ((data.take stop).drop offset).idxOf? 0 with
    | none => simp
    | some n =>
      have hn := (List.idxOf?_eq_some_iff.mp hidx).1
      have htake : (data.drop offset).take n = ((data.take stop).drop offset).take n := by
        rw [List.drop_take, List.take_take]
        simp at hn
        congr 1
        omega
      change (if n > 65536 then _ else _) = _ ↔ _
      rw [htake]
      constructor
      · split_ifs with hbig
        · exact nofun
        cases hs : String.fromUTF8? ⟨(((data.take stop).drop offset).take n).toArray⟩ with
        | none => exact nofun
        | some s' =>
          rintro ⟨⟩
          have hlen : (utf8 s).length = n := by
            rw [fromUTF8_iff.mp hs, List.length_take]
            omega
          rw [hlen]
          exact ⟨⟨rfl, (fromUTF8_iff.mp hs).symm⟩, by omega⟩
      · rintro ⟨⟨hlen, hbytes⟩, hbig⟩
        cases hlen
        rw [if_neg (by omega), hbytes, fromUTF8_iff.mpr rfl]
  · rw [if_pos (fun h => hin h.1)]
    refine ⟨nofun, ?_⟩
    rintro ⟨⟨hidx, -⟩, -⟩
    rw [List.drop_eq_nil_of_le (by simp; omega)] at hidx
    cases hidx

theorem terminal_iff {e : Entry} (hle : stop ≤ data.length) :
    terminal data offset stop = .ok e ↔ TerminalAt data offset stop e := by
  unfold terminal
  simp only [bind_ok_iff, Prod.exists, uleb_iff]
  constructor
  · rintro ⟨flags, a, hflags, value, b, hvalue, h⟩
    split_ifs at h with h8 h16 hend
    · rcases bind_ok_iff.mp h with ⟨name, hname, ⟨⟩⟩
      exact .reexport hflags hvalue h8 ((@string_iff _ _ _ (some stop) hle).mp hname)
    · rcases bind_ok_iff.mp h with ⟨⟨resolver, c⟩, hresolver, h⟩
      split_ifs at h with hend
      cases h
      exact .resolved hflags hvalue (not_not.mp h8) h16 ((uleb_iff b).mp hresolver) (by omega)
    · cases h
      exact .plain hflags hvalue (not_not.mp h8) (not_not.mp h16) (by omega)
  · intro h
    cases h with
    | reexport hflags hordinal h8 hname =>
      refine ⟨_, _, hflags, _, _, hordinal, ?_⟩
      rw [if_pos h8, (@string_iff _ _ _ (some stop) hle).mpr hname]
      rfl
    | resolved hflags hvalue h8 h16 hresolver hend =>
      refine ⟨_, _, hflags, _, _, hvalue, ?_⟩
      rw [if_neg (not_not.mpr h8), if_pos h16, (uleb_iff _).mpr hresolver]
      exact if_neg (by omega)
    | plain hflags hvalue h8 h16 hend =>
      refine ⟨_, _, hflags, _, _, hvalue, ?_⟩
      rw [if_neg (not_not.mpr h8), if_neg (not_not.mpr h16)]
      exact if_neg (by omega)

theorem edges_iff (count : Nat) : ∀ {offset kids}, edges data count offset = .ok kids ↔
    kids.length = count ∧ EdgesAt data offset kids := by
  induction count with
  | zero =>
    intro offset kids
    rw [List.length_eq_zero_iff]
    refine ⟨?_, ?_⟩
    · rintro ⟨⟩
      exact ⟨rfl, trivial⟩
    · rintro ⟨rfl, -⟩
      rfl
  | succ count ih =>
    intro offset kids
    simp only [edges, bind_ok_iff]
    constructor
    · rintro ⟨label, hlabel, h⟩
      split_ifs at h with hempty
      simp only [bind_ok_iff, Prod.exists, uleb_iff, check_iff] at h
      rcases h with ⟨child, next, hchild, -, hin, rest, hrest, ⟨⟩⟩
      rcases ih.mp hrest with ⟨hlen, hkids⟩
      exact ⟨congrArg (· + 1) hlen, by simpa using hempty,
        (@string_iff _ _ _ none le_rfl).mp hlabel, next, hchild, hin, hkids⟩
    · rintro ⟨hlen, h⟩
      rcases kids with _ | ⟨⟨label, child⟩, kids⟩
      · cases hlen
      rcases h with ⟨hempty, hlabel, next, hchild, hin, hrest⟩
      refine ⟨label, (@string_iff _ _ _ none le_rfl).mpr hlabel, ?_⟩
      rw [if_neg (by simpa using hempty)]
      simp only [bind_ok_iff, Prod.exists, uleb_iff, check_iff]
      exact ⟨child, next, hchild, (), hin, kids, ih.mpr ⟨Nat.succ.inj hlen, hrest⟩, rfl⟩

theorem branch_iff : branch data offset = .ok kids ↔
    ∃ count, data[offset]? = some count ∧ kids.length = count.toNat ∧
      EdgesAt data (offset + 1) kids := by
  simp only [branch, bind_ok_iff, check_iff, edges_iff, List.getD_eq_getElem?_getD]
  constructor
  · rintro ⟨-, hin, hlen, h⟩
    rw [List.getElem?_eq_getElem hin] at hlen ⊢
    exact ⟨_, rfl, hlen, h⟩
  · rintro ⟨count, hcount, hlen, h⟩
    rw [hcount]
    exact ⟨(), (List.getElem?_eq_some_iff.mp hcount).1, hlen, h⟩

/-- What is read of a node: its record and its edges. -/
def node (data : List UInt8) (c : Nat) : Read (Option Entry × List (String × Nat)) := do
  let (entry, children) ← record data c
  return (entry, ← branch data children)

theorem node_iff {c : Nat} {entry : Option Entry} :
    node data c = .ok (entry, kids) ↔ NodeAt data c entry kids := by
  simp only [node, record, bind_ok_iff, Prod.exists, uleb_iff, check_iff, branch_iff]
  constructor
  · rintro ⟨entry', children, ⟨size, body, hsize, -, hin, hrecord⟩, kids', hbranch, ⟨⟩⟩
    refine ⟨size, body, hsize, hin, ?_⟩
    split_ifs at hrecord with hzero
    · rcases bind_ok_iff.mp hrecord with ⟨e, he, ⟨⟩⟩
      exact ⟨.inr ⟨hzero, e, rfl, (terminal_iff hin).mp he⟩, hbranch⟩
    · cases hrecord
      exact ⟨.inl ⟨not_not.mp hzero, rfl⟩, hbranch⟩
  · rintro ⟨size, body, hsize, hin, ⟨rfl, rfl⟩ | ⟨hzero, e, rfl, he⟩, hbranch⟩
    · exact ⟨none, body, ⟨0, body, hsize, (), hin, rfl⟩, kids, hbranch, rfl⟩
    · refine ⟨some e, body + size, ⟨size, body, hsize, (), hin, ?_⟩, kids, hbranch, rfl⟩
      rw [if_pos hzero, (terminal_iff hin).mpr he]
      rfl

end Nodes

section Tries

/-- A path leads from a node to a node, and spells a name. -/
inductive Leads (data : List UInt8) : Nat → List Nat → String → Nat → Prop where
  | here (c : Nat) : Leads data c [] "" c
  | edge {c i child d : Nat} {path : List Nat} {label name : String} {entry : Option Entry}
      {kids : List (String × Nat)} (hnode : NodeAt data c entry kids)
      (hkid : kids[i]? = some (label, child)) (h : Leads data child path name d) :
      Leads data c (i :: path) (label ++ name) d

/-- The exports are those of the trie. -/
structure Exact (data : List UInt8) (result : Exports) : Prop where
  names : (result.map Prod.fst).Nodup
  mem : ∀ name e, (name, e) ∈ result ↔
    ∃ path c kids, Leads data 0 path name c ∧ NodeAt data c (some e) kids
  alone : ∀ p q name c d e f kids kids', Leads data 0 p name c → NodeAt data c (some e) kids →
    Leads data 0 q name d → NodeAt data d (some f) kids' → p = q
  sound : ∀ path name c, Leads data 0 path name c → (∃ entry kids, NodeAt data c entry kids) ∧
    ∀ ring s, ring ≠ [] → ¬Leads data c ring s c

def entryAt (data : List UInt8) (c : Nat) : Option Entry := (node data c).toOption.bind Prod.fst

def edgesAt (data : List UInt8) (c : Nat) : List (String × Nat) :=
  ((node data c).toOption.map Prod.snd).getD []

/-- `Leads` as a function. -/
def follow (data : List UInt8) : Nat → List Nat → Option (String × Nat)
  | c, [] => some ("", c)
  | c, i :: path => (edgesAt data c)[i]?.bind fun kid =>
    (follow data kid.2 path).map fun x => (kid.1 ++ x.1, x.2)

variable {data : List UInt8} {v : Visit} {c : Nat} {p q : List Nat} {name s : String}
variable {entry : Option Entry} {kids : List (String × Nat)} {paths done : List (List Nat)}
variable {result result' : Exports}

theorem entryAt_iff {e : Entry} :
    entryAt data c = some e ↔ ∃ kids, NodeAt data c (some e) kids := by
  simp only [entryAt, ← node_iff]
  rcases node data c with _ | ⟨entry, kids⟩
  · simp [Except.toOption]
  · simp [Except.toOption, and_comm]

theorem leads_iff (path : List Nat) : ∀ {c d name},
    Leads data c path name d ↔ follow data c path = some (name, d) := by
  induction path with
  | nil =>
    intro c d name
    constructor
    · rintro ⟨⟩
      rfl
    · rintro ⟨⟩
      exact .here c
  | cons i path ih =>
    intro c d name
    simp only [follow, edgesAt, Option.bind_eq_some_iff, Option.map_eq_some_iff]
    constructor
    · intro h
      cases h with
      | edge hnode hkid h =>
        rw [node_iff.mpr hnode]
        exact ⟨_, hkid, _, ih.mp h, rfl⟩
    · rintro ⟨⟨label, child⟩, hkid, ⟨name, d⟩, h, ⟨⟩⟩
      cases hnode : node data c with
      | error e =>
        rw [hnode] at hkid
        cases hkid
      | ok x =>
        rw [hnode] at hkid
        exact .edge (node_iff.mp hnode) hkid (ih.mpr h)

theorem follow_append (p q : List Nat) :
    ∀ c, follow data c (p ++ q) = (follow data c p).bind fun x =>
    (follow data x.2 q).map fun y => (x.1 ++ y.1, y.2) := by
  induction p with
  | nil =>
    intro c
    simp [follow]
  | cons i p ih =>
    intro c
    rw [List.cons_append, follow, follow]
    cases (edgesAt data c)[i]? with
    | none => rfl
    | some kid =>
      simp only [Option.bind_some, ih]
      cases follow data kid.2 p with
      | none => rfl
      | some x => simp [Function.comp_def, String.append_assoc]

theorem follow_snoc (h : follow data 0 p = some (s, c)) (hnode : node data c = .ok (entry, kids))
    (i : Nat) : follow data 0 (p ++ [i]) = kids[i]?.map fun kid => (s ++ kid.1, kid.2) := by
  have hedges : edgesAt data c = kids := by simp [edgesAt, hnode, Except.toOption]
  rw [follow_append, h]
  simp only [Option.bind_some, follow, hedges]
  cases kids[i]? <;> simp

/-- The path goes through the node before its end. -/
def Above (data : List UInt8) (p : List Nat) (c : Nat) : Prop :=
  ∃ q i r s, p = q ++ i :: r ∧ follow data 0 q = some (s, c)

/-- A pending visit and the path it is for. -/
structure Mark (data : List UInt8) (v : Visit) (p : List Nat) : Prop where
  leads : follow data 0 p = some (v.spelled, v.cursor)
  above : ∀ c, Above data p c → c ∈ v.ancestry

/-- A path whose end was read, and is not met before. -/
def Fine (data : List UInt8) (p : List Nat) : Prop :=
  ∃ s c, follow data 0 p = some (s, c) ∧ (∃ x, node data c = .ok x) ∧ ¬Above data p c

def exportAt (data : List UInt8) (p : List Nat) : Option (String × Entry) :=
  (follow data 0 p).bind fun x => (entryAt data x.2).map fun e => (x.1, e)

/-- The visits made, one for each path in `done`, and those to come. -/
structure Covers (data : List UInt8) (paths done : List (List Nat)) (result : Exports) : Prop where
  listed : result = done.filterMap (exportAt data)
  names : (result.map Prod.fst).Nodup
  fine : ∀ p ∈ done, Fine data p
  all : ∀ p, (follow data 0 p).isSome → p ∈ done ∨ ∃ q ∈ paths, q <+: p

theorem Mark.child (h : Mark data v p) (hnode : node data v.cursor = .ok (entry, kids)) :
    List.Forall₂ (Mark data) (v.children kids) ((List.range kids.length).map (p ++ [·])) := by
  rw [List.forall₂_iff_get]
  refine ⟨by simp [Visit.children], fun i hi _ => ?_⟩
  have hi : i < kids.length := by simpa [Visit.children] using hi
  simp only [Visit.children, List.get_eq_getElem, List.getElem_map, List.getElem_range]
  refine ⟨by simp [follow_snoc h.leads hnode, hi], ?_⟩
  rintro c ⟨q, j, r, s, heq, hq⟩
  rcases List.eq_nil_or_concat r with rfl | ⟨r, k, rfl⟩
  · rcases List.append_inj' heq rfl with ⟨rfl, -⟩
    rw [h.leads] at hq
    cases hq
    exact List.mem_cons_self
  · rw [List.concat_eq_append, ← List.cons_append, ← List.append_assoc] at heq
    exact List.mem_cons_of_mem _ (h.above c ⟨q, j, r, s, (List.append_inj' heq rfl).1, hq⟩)

theorem add_ok (h : add result name entry = .ok result') :
    result' = result ++ (entry.map fun e => (name, e)).toList ∧
      ((result.map Prod.fst).Nodup → (result'.map Prod.fst).Nodup) := by
  cases entry with
  | none =>
    cases h
    simp
  | some e =>
    unfold add at h
    split_ifs at h with hnew
    cases h
    refine ⟨rfl, fun hnodup => ?_⟩
    rw [List.map_append, List.nodup_append]
    exact ⟨hnodup, by simp, by grind⟩

/-- A visit: its path is done, and those of its children are still to come. -/
theorem Covers.visit (h : Covers data (p :: paths) done result) (hmark : Mark data v p)
    (hnew : v.cursor ∉ v.ancestry) (hnode : node data v.cursor = .ok (entry, kids))
    (hadd : add result v.spelled entry = .ok result') :
    Covers data (((List.range kids.length).map (p ++ [·])).reverse ++ paths)
    (done ++ [p]) result' := by
  rcases add_ok hadd with ⟨hresult, hnames⟩
  constructor
  case listed =>
    have hexport : exportAt data p = entry.map fun e => (v.spelled, e) := by
      simp [exportAt, hmark.leads, entryAt, hnode, Except.toOption]
    rw [hresult, h.listed, List.filterMap_append]
    cases entry <;> simp [hexport]
  case names => exact hnames h.names
  case fine =>
    intro q hq
    rcases List.mem_append.mp hq with hq | hq
    · exact h.fine q hq
    · rw [List.mem_singleton.mp hq]
      exact ⟨_, _, hmark.leads, ⟨_, hnode⟩, fun habove => hnew (hmark.above _ habove)⟩
  case all =>
    intro q hq
    rcases h.all q hq with hdone | ⟨p', hp', r, rfl⟩
    · exact .inl (List.mem_append_left _ hdone)
    rcases List.mem_cons.mp hp' with rfl | hp'
    · cases r with
      | nil => exact .inl (by simp)
      | cons i r =>
        -- The edge exists, so the child was put on the stack.
        have hlt : i < kids.length := by
          by_contra hge
          have hnone := follow_snoc hmark.leads hnode i
          rw [List.getElem?_eq_none (by omega)] at hnone
          rw [List.append_cons, follow_append, hnone] at hq
          cases hq
        exact .inr ⟨p' ++ [i], by simp [hlt], r, by simp⟩
    · exact .inr ⟨p', List.mem_append_right _ hp', r, rfl⟩

theorem visit_ok {children : List Visit} (h : visit data v result = .ok (children, result')) :
    ∃ entry kids, node data v.cursor = .ok (entry, kids) ∧ children = v.children kids ∧
      add result v.spelled entry = .ok result' := by
  simp only [visit, bind_ok_iff, Prod.exists] at h
  rcases h with ⟨entry, position, hrecord, _, hadd, kids, hbranch, ⟨⟩⟩
  refine ⟨entry, kids, ?_, rfl, hadd⟩
  exact bind_ok_iff.mpr ⟨_, hrecord, bind_ok_iff.mpr ⟨kids, hbranch, rfl⟩⟩

/-- Once nothing is pending, every path was visited. -/
theorem loop_covers {n visits : Nat} {pending : List Visit} {final : Exports}
    (hmarks : List.Forall₂ (Mark data) pending paths) (h : Covers data paths done result)
    (hloop : loop data visits pending result = (n, .ok final)) :
    ∃ done, Covers data [] done final := by
  fun_induction loop data visits pending result generalizing paths done with
  | case1 =>
    cases hmarks
    cases hloop
    exact ⟨done, h⟩
  | case2 | case3 => cases hloop
  | case4 visits result v rest hgo children result' hvisit ih =>
    cases hmarks with
    | cons hmark hmarks =>
      rcases visit_ok hvisit with ⟨entry, kids, hnode, rfl, hadd⟩
      have hcovers := h.visit hmark (fun hmem => hgo (.inl hmem)) hnode hadd
      exact ih (List.rel_append (List.forall₂_reverse_iff.mpr (hmark.child hnode)) hmarks)
        hcovers hloop

theorem loop_visits {visits : Nat} (pending : List Visit) (h : visits ≤ 200001) :
    (loop data visits pending result).1 ≤ 200001 := by
  fun_induction loop data visits pending result with
  | case1 | case2 => exact h
  | case3 => omega
  | case4 _ _ _ _ _ _ _ _ ih => exact ih (by omega)

theorem Covers.exact (h : Covers data [] done result) : Exact data result := by
  have hall : ∀ {p x}, follow data 0 p = some x → p ∈ done := fun {p x} hp => by
    simpa [hp] using h.all p
  have hexport : ∀ {p name c e kids}, Leads data 0 p name c → NodeAt data c (some e) kids →
      p ∈ done ∧ exportAt data p = some (name, e) := by
    intro p name c e kids hp he
    rw [leads_iff] at hp
    exact ⟨hall hp, by simp [exportAt, hp, entryAt_iff.mpr ⟨kids, he⟩]⟩
  constructor
  case names => exact h.names
  case mem =>
    intro name e
    rw [h.listed, List.mem_filterMap]
    constructor
    · rintro ⟨p, -, hp⟩
      simp only [exportAt, Option.bind_eq_some_iff, Option.map_eq_some_iff, entryAt_iff] at hp
      rcases hp with ⟨⟨s, c⟩, hp, e, ⟨kids, he⟩, heq⟩
      cases heq
      exact ⟨p, c, kids, (leads_iff p).mpr hp, he⟩
    · rintro ⟨p, c, kids, hp, he⟩
      exact ⟨p, hexport hp he⟩
  case alone =>
    intro p q name c d e f kids kids' hp he hq hf
    by_contra hne
    have hnames := h.names
    rw [h.listed, List.Nodup, List.pairwise_map, List.pairwise_filterMap] at hnames
    have : Std.Symm fun x y => ∀ a, exportAt data x = some a → ∀ b, exportAt data y = some b →
      a.1 ≠ b.1 :=
      ⟨fun x y hxy a ha b hb heq => hxy b hb a ha heq.symm⟩
    rcases hexport hp he with ⟨hpdone, hpexport⟩
    rcases hexport hq hf with ⟨hqdone, hqexport⟩
    exact hnames.forall hpdone hqdone hne _ hpexport _ hqexport rfl
  case sound =>
    intro p name c hp
    rw [leads_iff] at hp
    rcases h.fine p (hall hp) with ⟨s, c', hp', ⟨⟨entry, kids⟩, hok⟩, -⟩
    rw [hp] at hp'
    cases hp'
    refine ⟨⟨entry, kids, node_iff.mp hok⟩, fun ring s hring hback => ?_⟩
    rw [leads_iff] at hback
    -- Going round once more is a path that meets its end before.
    have hround : follow data 0 (p ++ ring) = some (name ++ s, c) := by
      simp [follow_append, hp, hback]
    rcases h.fine _ (hall hround) with ⟨_, c', hround', -, hfar⟩
    rw [hround] at hround'
    cases hround'
    rcases List.exists_cons_of_ne_nil hring with ⟨i, r, rfl⟩
    exact hfar ⟨p, i, r, name, rfl, hp⟩

/-- At most 200001 visits are made. Where a map is returned, it holds the
    records that the paths of the trie lead to and no others, every reachable
    node could be read and is on no cycle, and no two paths to records spell
    the same name. Numbers are read as they are encoded, in at most ten bytes
    and below 2^64, and all others are refused. -/
theorem exportTrie_exact (data : List UInt8) :
    (exportTrie data).1 ≤ 200001 ∧
    (∀ result, (exportTrie data).2 = .ok result → Exact data result) ∧
    ∀ offset v next, uleb data offset = .ok (v, next) ↔ ∃ bs, Uleb bs v ∧ bs.length ≤ 10 ∧
      v < 2 ^ 64 ∧ bs <+: data.drop offset ∧ next = offset + bs.length := by
  refine ⟨loop_visits _ (by omega), fun result hresult => ?_, fun offset v next => uleb_iff offset⟩
  have hroot : Mark data ⟨0, "", []⟩ [] := by
    refine ⟨rfl, ?_⟩
    rintro c ⟨q, i, r, s, heq, -⟩
    simp at heq
  have hstart : Covers data [[]] [] [] := ⟨rfl, .nil, nofun, fun p _ => .inr ⟨[], by simp⟩⟩
  rcases loop_covers (.cons hroot .nil) hstart (Prod.ext rfl hresult) with ⟨done, hdone⟩
  exact hdone.exact

/-- The root has one edge, `a`, to a node with a plain record. -/
def oneExport : List UInt8 := [0, 1, 97, 0, 5, 2, 0, 7, 0]

theorem exportTrie_exact_one :
    exportTrie oneExport = (2, .ok [("a", .address 0 7 none)]) ∧
      Exact oneExport [("a", .address 0 7 none)] := by
  have hread : exportTrie oneExport = (2, .ok [("a", .address 0 7 none)]) := by decide +kernel
  exact ⟨hread, (exportTrie_exact oneExport).2.1 _ (congrArg Prod.snd hread)⟩

end Tries

end Mellow.ExportTrie
