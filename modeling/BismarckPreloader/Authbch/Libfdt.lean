import BismarckPreloader.Auth.BringUp

/-!
# The device tree library of the signing tool

The part of libfdt that `authbch` calls: the search for a node and for a property, and
`fdt_setprop`. A tree is a buffer of bytes; offsets count from its start or, where a
function takes a structure offset, from the start of the struct block. A function that
returns a negative code returns an `FdtErr`. The names of properties are compared with
`strlen` and no bound, so a search can leave the buffer.

Every loop moves to a later token, so the number of bytes bounds the number of passes.
`fdt_setprop` first makes room for a value of the given length, whatever the value is,
and then copies it in.
-/

namespace BismarckPreloader.Authbch

open Auth (wordAt fdtMagic fdtSwMagic)
open Fdt (fdtNodeStart fdtNodeEnd fdtProp fdtNop fdtEnd slash)

inductive FdtErr where
  | notfound
  | nospace
  | badoffset
  | badstate
  | truncated
  | badmagic
  | badversion
  | badstructure
  | badlayout
  | internal
  deriving DecidableEq, Repr

structure OutOfBounds where
  address : Nat
  deriving DecidableEq, Repr

section Header

variable (fdt : Mem)

def totalsize : Nat := (wordAt fdt 4).toNat
def offDtStruct : Nat := (wordAt fdt 8).toNat
def offDtStrings : Nat := (wordAt fdt 12).toNat
def offMemRsvmap : Nat := (wordAt fdt 16).toNat
def version : Nat := (wordAt fdt 20).toNat
def lastCompVersion : Nat := (wordAt fdt 24).toNat
def sizeDtStrings : Nat := (wordAt fdt 32).toNat
def sizeDtStruct : Nat := (wordAt fdt 36).toNat

def fdtCheckHeader : Except FdtErr Unit :=
  if wordAt fdt 0 = fdtMagic then
    if version fdt < 0x02 then .error .badversion
    else if 0x11 < lastCompVersion fdt then .error .badversion
    else .ok ()
  else if wordAt fdt 0 = fdtSwMagic then
    if sizeDtStruct fdt = 0 then .error .badstate else .ok ()
  else .error .badmagic

end Header

def setWord (fdt : Mem) (address : Nat) (w : UInt32) : Mem :=
  fdt.copy address (fun k => wordByte w k) 4

-- ---------------------------------------------------------------------------
-- Tokens
-- ---------------------------------------------------------------------------

/-- `FDT_TAGALIGN`. -/
def tagAlign (n : Nat) : Nat := (n + 3) / 4 * 4

section Walk

variable (fdt : Mem)

/-- `fdt_offset_ptr` gives a pointer: the bytes lie inside the tree and, in trees that
say how long it is, inside the struct block. -/
def InStruct (offset len : Nat) : Prop :=
  offset + offDtStruct fdt + len ≤ totalsize fdt ∧
    (0x11 ≤ version fdt → offset + len ≤ sizeDtStruct fdt)

instance (offset len : Nat) : Decidable (InStruct fdt offset len) :=
  inferInstanceAs (Decidable (_ ∧ (_ → _)))

def structByte (offset : Nat) : UInt8 := fdt (offDtStruct fdt + offset)

def structWord (offset : Nat) : UInt32 := wordAt fdt (offDtStruct fdt + offset)

def skipName : Nat → Nat → Option Nat
  | 0, _ => none
  | fuel + 1, offset =>
    if InStruct fdt offset 1 then
      if structByte fdt offset = 0 then some (offset + 1) else skipName fuel (offset + 1)
    else none

/-- Where a token with that tag ends, not yet aligned. The length of a property is added
in 32 bits. -/
def tokenEnd (startoffset : Nat) (tag : UInt32) : Option Nat :=
  let offset := startoffset + 4
  if tag = fdtNodeStart then skipName fdt (totalsize fdt) offset
  else if tag = fdtProp then
    if InStruct fdt offset 4 then
      let len := (structWord fdt offset).toNat
      let stop := (offset + 8 + len) % 2 ^ 32
      if version fdt < 0x10 ∧ 8 ≤ len ∧ (offset + 8) % 8 ≠ 0 then some (stop + 4) else some stop
    else none
  else if tag = fdtEnd ∨ tag = fdtNodeEnd ∨ tag = fdtNop then some offset
  else none

def fdtNextTag (startoffset : Nat) : Except FdtErr (UInt32 × Nat) :=
  if InStruct fdt startoffset 4 then
    let tag := structWord fdt startoffset
    match tokenEnd fdt startoffset tag with
    | none => .error .badstructure
    | some offset =>
      -- the difference is taken in 32 bits
      if InStruct fdt startoffset ((offset + 2 ^ 32 - startoffset) % 2 ^ 32) then
        .ok (tag, tagAlign offset)
      else .error .badstructure
  else .error .truncated

/-- `fdt_check_node_offset_` and `fdt_check_prop_offset_`. -/
def checkOffset (tag : UInt32) (offset : Nat) : Except FdtErr Nat :=
  if offset % 4 ≠ 0 then .error .badoffset
  else match fdtNextTag fdt offset with
    | .ok (t, next) => if t = tag then .ok next else .error .badoffset
    | .error _ => .error .badoffset

def checkNodeOffset (offset : Nat) : Except FdtErr Nat := checkOffset fdt fdtNodeStart offset

def checkPropOffset (offset : Nat) : Except FdtErr Nat := checkOffset fdt fdtProp offset

-- ---------------------------------------------------------------------------
-- Nodes
-- ---------------------------------------------------------------------------

/-- The loop of `fdt_next_node`, with the depth it leaves. -/
def nextNodeFrom : Nat → Nat → Int → Except FdtErr Nat × Int
  | 0, _, depth => (.error .internal, depth)
  | fuel + 1, offset, depth =>
    match fdtNextTag fdt offset with
    | .error e => (.error e, depth)
    | .ok (tag, next) =>
      if tag = fdtNodeStart then (.ok offset, depth + 1)
      else if tag = fdtNodeEnd then
        if depth - 1 < 0 then (.ok next, depth - 1) else nextNodeFrom fuel next (depth - 1)
      else if tag = fdtEnd then (.error .notfound, depth)
      else nextNodeFrom fuel next depth

def fdtNextNode (offset : Nat) (depth : Int) : Except FdtErr Nat × Int :=
  match checkNodeOffset fdt offset with
  | .error e => (.error e, depth)
  | .ok next => nextNodeFrom fdt (totalsize fdt) next depth

def cstr : Nat → Nat → Option (List UInt8)
  | 0, _ => none
  | n + 1, address =>
    if fdt address = 0 then some [] else (cstr n (address + 1)).map (fdt address :: ·)

/-- `fdt_get_name`: in old trees only what follows the last slash. -/
def fdtGetName (offset : Nat) : Option (List UInt8) :=
  match fdtCheckHeader fdt, checkNodeOffset fdt offset with
  | .ok _, .ok _ =>
    let start := offDtStruct fdt + offset + 4
    match cstr fdt (totalsize fdt - start) start with
    | none => none
    | some name =>
      if 0x10 ≤ version fdt then some name
      else if slash ∈ name then some (name.reverse.takeWhile (· ≠ slash)).reverse
      else none
  | _, _ => none

def atSign : UInt8 := 0x40

/-- `fdt_nodename_eq_`: a unit address in the tree need not be in the path. -/
def nodenameEq (offset : Nat) (s : List UInt8) : Bool :=
  match fdtGetName fdt offset with
  | none => false
  | some p =>
    s.isPrefixOf p &&
      (p.length = s.length || (atSign ∉ s && p[s.length]? = some atSign))

/-- The loop of `fdt_subnode_offset_namelen`. -/
def subnodeFrom (name : List UInt8) : Nat → Except FdtErr Nat → Int → Except FdtErr Nat
  | 0, _, _ => .error .internal
  | fuel + 1, offset, depth =>
    match offset with
    | .error e => if depth < 0 then .error .notfound else .error e
    | .ok offset =>
      if depth < 0 then .error .notfound
      else if depth = 1 ∧ nodenameEq fdt offset name then .ok offset
      else
        let (offset, depth) := fdtNextNode fdt offset depth
        subnodeFrom name fuel offset depth

def fdtSubnodeOffset (offset : Nat) (name : List UInt8) : Except FdtErr Nat :=
  match fdtCheckHeader fdt with
  | .error e => .error e
  | .ok _ => subnodeFrom fdt name (totalsize fdt) (.ok offset) 0

def pathFrom : List (List UInt8) → Nat → Except FdtErr Nat
  | [], offset => .ok offset
  | name :: comps, offset =>
    match fdtSubnodeOffset fdt offset name with
    | .error e => .error e
    | .ok offset => pathFrom comps offset

/-- `fdt_path_offset` of an absolute path, given by its components. -/
def fdtPathOffset (comps : List (List UInt8)) : Except FdtErr Nat :=
  match fdtCheckHeader fdt with
  | .error e => .error e
  | .ok _ => pathFrom fdt comps 0

def nextprop : Nat → Nat → Except FdtErr Nat
  | 0, _ => .error .internal
  | fuel + 1, offset =>
    match fdtNextTag fdt offset with
    | .error e => .error e
    | .ok (tag, next) =>
      if tag = fdtEnd then .error .badstructure
      else if tag = fdtProp then .ok offset
      else if tag = fdtNop then nextprop fuel next
      else .error .notfound

def fdtFirstPropertyOffset (nodeoffset : Nat) : Except FdtErr Nat :=
  match checkNodeOffset fdt nodeoffset with
  | .error e => .error e
  | .ok offset => nextprop fdt (totalsize fdt) offset

def fdtNextPropertyOffset (offset : Nat) : Except FdtErr Nat :=
  match checkPropOffset fdt offset with
  | .error e => .error e
  | .ok offset => nextprop fdt (totalsize fdt) offset

/-- `fdt_string`, read up to its NUL. -/
def fdtString (stroffset : UInt32) : Except OutOfBounds (List UInt8) :=
  let start := (offDtStrings fdt + stroffset.toNat) % 2 ^ 32
  match cstr fdt (totalsize fdt - start) start with
  | none => .error ⟨start⟩
  | some s => .ok s

/-- The loop of `fdt_get_property_namelen_`: the structure offset of the property. -/
def getPropertyFrom (name : List UInt8) :
    Nat → Except FdtErr Nat → Except OutOfBounds (Except FdtErr Nat)
  | 0, _ => .ok (.error .internal)
  | fuel + 1, offset =>
    match offset with
    | .error e => .ok (.error e)
    | .ok offset =>
      match checkPropOffset fdt offset with
      | .error _ => .ok (.error .internal)
      | .ok _ =>
        match fdtString fdt (structWord fdt (offset + 8)) with
        | .error e => .error e
        | .ok s =>
          if s = name then .ok (.ok offset)
          else getPropertyFrom name fuel (fdtNextPropertyOffset fdt offset)

def fdtGetProperty (nodeoffset : Nat) (name : List UInt8) :
    Except OutOfBounds (Except FdtErr Nat) :=
  getPropertyFrom fdt name (totalsize fdt) (fdtFirstPropertyOffset fdt nodeoffset)

def propLen (offset : Nat) : Nat := (structWord fdt (offset + 4)).toNat

def propData (offset : Nat) : Nat :=
  let data := offDtStruct fdt + offset + 12
  if version fdt < 0x10 ∧ (offset + 12) % 8 ≠ 0 ∧ 8 ≤ propLen fdt offset then data + 4 else data

end Walk

-- ---------------------------------------------------------------------------
-- Changes
-- ---------------------------------------------------------------------------

/-- `fdt_blocks_misordered_` for the reserve map entry that ends the map. -/
def BlocksMisordered (fdt : Mem) : Prop :=
  offMemRsvmap fdt < 40 ∨ offDtStruct fdt < (offMemRsvmap fdt + 16) % 2 ^ 32 ∨
    offDtStrings fdt < (offDtStruct fdt + sizeDtStruct fdt) % 2 ^ 32 ∨
    totalsize fdt < (offDtStrings fdt + sizeDtStrings fdt) % 2 ^ 32

instance (fdt : Mem) : Decidable (BlocksMisordered fdt) :=
  inferInstanceAs (Decidable (_ ∨ _ ∨ _ ∨ _))

/-- `fdt_rw_check_header_`: a newer tree becomes a tree of version 17. -/
def rwCheckHeader (fdt : Mem) : Except FdtErr Mem :=
  match fdtCheckHeader fdt with
  | .error e => .error e
  | .ok _ =>
    if version fdt < 17 then .error .badversion
    else if BlocksMisordered fdt then .error .badlayout
    else if 17 < version fdt then .ok (setWord fdt 20 17)
    else .ok fdt

/-- `fdt_splice_`: what follows the `oldlen` bytes at `p` moves behind `newlen` bytes. -/
def splice (fdt : Mem) (p oldlen newlen : Nat) : Except FdtErr Mem :=
  let stop := (offDtStrings fdt + sizeDtStrings fdt) % 2 ^ 32
  if stop < p + oldlen then .error .badoffset
  else if totalsize fdt < stop - oldlen + newlen then .error .nospace
  else .ok (fdt.copy (p + newlen) (fun k => fdt (p + oldlen + k)) (stop - p - oldlen))

def spliceStruct (fdt : Mem) (p oldlen newlen : Nat) : Except FdtErr Mem :=
  match splice fdt p oldlen newlen with
  | .error e => .error e
  | .ok fdt =>
    let delta := UInt32.ofNat newlen - UInt32.ofNat oldlen
    let fdt := setWord fdt 36 (wordAt fdt 36 + delta)
    .ok (setWord fdt 12 (wordAt fdt 12 + delta))

/-- `fdt_find_add_string_`: the offset of the string in the strings block. -/
def findAddString (fdt : Mem) (s : List UInt8) : Except FdtErr (Mem × Nat) :=
  let strtab := offDtStrings fdt
  let len := s.length + 1
  let found := (List.range (sizeDtStrings fdt + 1 - len)).find? fun p =>
    (List.range len).map (fun k => fdt (strtab + p + k)) = s ++ [0]
  match found with
  | some p => .ok (fdt, p)
  | none =>
    let new := sizeDtStrings fdt
    match splice fdt (strtab + new) 0 len with
    | .error e => .error e
    | .ok fdt =>
      let fdt := setWord fdt 32 (wordAt fdt 32 + UInt32.ofNat len)
      .ok (fdt.copy (strtab + new) (fun k => (s ++ [0]).getD k 0) len, new)

/-- `fdt_resize_property_` of a property found at that offset: where its value is. -/
def resizeProperty (fdt : Mem) (offset len : Nat) : Except FdtErr (Mem × Nat) :=
  let prop := offDtStruct fdt + offset
  match spliceStruct fdt (prop + 12) (tagAlign (propLen fdt offset)) (tagAlign len) with
  | .error e => .error e
  | .ok fdt => .ok (setWord fdt (prop + 4) (UInt32.ofNat len), prop + 12)

/-- `fdt_add_property_`. The name stays when there is no room for the property. -/
def addProperty (fdt : Mem) (nodeoffset : Nat) (name : List UInt8) (len : Nat) :
    Mem × Except FdtErr Nat :=
  match checkNodeOffset fdt nodeoffset with
  | .error e => (fdt, .error e)
  | .ok next =>
    match findAddString fdt name with
    | .error e => (fdt, .error e)
    | .ok (fdt, namestroff) =>
      let prop := offDtStruct fdt + next
      match spliceStruct fdt prop 0 (12 + tagAlign len) with
      | .error e => (fdt, .error e)
      | .ok fdt =>
        let fdt := setWord fdt prop fdtProp
        let fdt := setWord fdt (prop + 8) (UInt32.ofNat namestroff)
        (setWord fdt (prop + 4) (UInt32.ofNat len), .ok (prop + 12))

/-- `fdt_setprop_placeholder`: the tree with room for the value, and where the room is. -/
def setpropPlaceholder (fdt : Mem) (nodeoffset : Nat) (name : List UInt8) (len : Nat) :
    Except OutOfBounds (Mem × Except FdtErr Nat) :=
  match rwCheckHeader fdt with
  | .error e => .ok (fdt, .error e)
  | .ok fdt =>
    match fdtGetProperty fdt nodeoffset name with
    | .error e => .error e
    | .ok (.ok offset) =>
      match resizeProperty fdt offset len with
      | .error e => .ok (fdt, .error e)
      | .ok (fdt, data) => .ok (fdt, .ok data)
    | .ok (.error .notfound) => .ok (addProperty fdt nodeoffset name len)
    | .ok (.error e) => .ok (fdt, .error e)

end BismarckPreloader.Authbch
