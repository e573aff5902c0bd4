import BismarckPreloader.Lib.Loops
import BismarckPreloader.Lib.Words

/-!
# Looking up a property in a flattened device tree

`fdt_get_prop` walks the struct block word by word. `fdt_find_node` looks for a
node by name, `fdt_find_prop` for a property of the node it is put in front of;
each is a loop over tokens with a depth counter.

A pass of either loop is a function from a `Cursor` to an `Outcome`.
`fdt_get_prop` runs one such loop after the other, so its state is a `Frame`: the
call it is in and that call's cursor. Word indices count from the start of the
struct block; a read outside the blocks or through a null pointer ends the run
with a fault, and so does the deliberate stop on an unknown token.
-/

namespace BismarckPreloader.Fdt

def fdtNodeStart : UInt32 := 0x1
def fdtNodeEnd : UInt32 := 0x2
def fdtProp : UInt32 := 0x3
def fdtNop : UInt32 := 0x4
def fdtEnd : UInt32 := 0x9

def ascii (s : String) : List UInt8 := s.toList.map fun c => UInt8.ofNat c.toNat

def slash : UInt8 := 0x2F

/-- The struct block and the strings block. The address space is 4 GiB, so a
struct block has fewer than `2 ^ 30` words. -/
structure Blocks where
  struct : List UInt32
  strings : List UInt8
  sized : struct.length < 2 ^ 30

inductive FdtFault where
  | structRead (i : Nat)
  | stringRead (off : Nat)
  | null
  | pathRead
  | unknownToken (i : Nat)
  deriving DecidableEq, Repr

namespace Blocks

def word (m : Blocks) (i : Nat) : Except FdtFault UInt32 :=
  match m.struct[i]? with
  | some w => .ok w
  | none => .error (.structRead i)

def structByte (m : Blocks) (k : Nat) : Except FdtFault UInt8 :=
  match m.struct[k / 4]? with
  | some w => .ok (wordByte w (k % 4))
  | none => .error (.structRead (k / 4))

def stringByte (m : Blocks) (off : Nat) : Except FdtFault UInt8 :=
  match m.strings[off]? with
  | some c => .ok c
  | none => .error (.stringRead off)

end Blocks

def fdtIsEos (s extEos : UInt8) : Bool := s = 0 ∨ s = extEos

/-- `fdt_strcmp` of a string in memory, from `i` on, with a string of the code or
of the path, given without its NUL: `true` when they differ. -/
def fdtStrcmp (s1 : Nat → Except FdtFault UInt8) : Nat → List UInt8 → UInt8 → Except FdtFault Bool
  | i, [], extEos => do
    let c₁ ← s1 i
    return !(fdtIsEos c₁ extEos && fdtIsEos 0 extEos)
  | i, c₂ :: s2, extEos => do
    let c₁ ← s1 i
    if c₁ ≠ 0 ∧ c₂ ≠ 0 ∧ c₁ = c₂ then fdtStrcmp s1 (i + 1) s2 extEos
    else return !(fdtIsEos c₁ extEos && fdtIsEos c₂ extEos)

theorem fdtStrcmp_nil {s1 : Nat → Except FdtFault UInt8} (h : s1 i = .ok c) :
    fdtStrcmp s1 i [] ext = .ok !(fdtIsEos c ext && fdtIsEos 0 ext) := by
  rw [fdtStrcmp, h]
  rfl

theorem fdtStrcmp_cons {s1 : Nat → Except FdtFault UInt8} (h : s1 i = .ok c₁) :
    fdtStrcmp s1 i (c₂ :: s2) ext =
      if c₁ ≠ 0 ∧ c₂ ≠ 0 ∧ c₁ = c₂ then fdtStrcmp s1 (i + 1) s2 ext
      else .ok !(fdtIsEos c₁ ext && fdtIsEos c₂ ext) := by
  rw [fdtStrcmp, h]
  rfl

theorem fdtStrcmp_of_error {s1 : Nat → Except FdtFault UInt8} (h : s1 i = .error e)
    (s2 : List UInt8) (ext : UInt8) : fdtStrcmp s1 i s2 ext = .error e := by
  cases s2 with
  | nil =>
    rw [fdtStrcmp, h]
    rfl
  | cons c s2 =>
    rw [fdtStrcmp, h]
    rfl

/-- `fdt_path_next_name`: the next slash. The loop looks at the byte behind the
one it is at, so on an empty string it reads past the end. -/
def fdtPathNextName : List UInt8 → Except FdtFault (Option (List UInt8))
  | [] => .error .pathRead
  | [c] => .ok (if c = slash then some [c] else none)
  | c :: d :: s => if c = slash then .ok (some (c :: d :: s)) else fdtPathNextName (d :: s)

def fdtIsTokenHead (w : UInt32) : Bool := w >>> 4 = 0

def nextTokenHead : List UInt32 → Nat → Except FdtFault Nat
  | [], i => .error (.structRead i)
  | w :: ws, i => if fdtIsTokenHead w then .ok i else nextTokenHead ws (i + 1)

/-- From a node's start token over its name. The first word of the name is not
looked at. -/
def Blocks.skipName (m : Blocks) (token : Nat) : Except FdtFault Nat :=
  nextTokenHead (m.struct.drop (token + 2)) (token + 2)

def propEnd (token : Nat) (len : UInt32) : Nat := (token + 3 + ((len + 3) / 4).toNat) % 2 ^ 30

structure Cursor where
  token : Nat
  depth : UInt32
  deriving DecidableEq, Repr

abbrev CursorOutcome := Outcome Cursor (Option Nat) FdtFault

open Outcome (attempt)

/-- One pass of `fdt_find_node`. At a depth other than 0 a node's start token is
counted but not passed. -/
def findNodePass (m : Blocks) (name : List UInt8) (c : Cursor) : CursorOutcome :=
  attempt (m.word c.token) fun w =>
    if w = fdtEnd then .ret none
    else if w = fdtNodeStart then
      if c.depth = 0 then
        attempt (fdtStrcmp m.structByte (4 * (c.token + 1)) name slash) fun differs =>
          attempt (m.skipName c.token) fun token =>
            if differs then .next ⟨token, c.depth + 1⟩ else .ret (some token)
      -- the next pass meets the same token again, until the counter is 0
      else .next ⟨c.token, c.depth + 1⟩
    else if w = fdtNodeEnd then .next ⟨c.token + 1, c.depth - 1⟩
    else if w = fdtProp then
      attempt (m.word (c.token + 1)) fun len => .next ⟨propEnd c.token len, c.depth⟩
    else if w = fdtNop then .next ⟨c.token + 1, c.depth⟩
    else .halt (.unknownToken c.token)

/-- One pass of `fdt_find_prop`. -/
def findPropPass (m : Blocks) (name : List UInt8) (c : Cursor) : CursorOutcome :=
  attempt (m.word c.token) fun w =>
    if w = fdtEnd then .ret none
    else if w = fdtNodeStart then
      attempt (m.skipName c.token) fun token => .next ⟨token, c.depth + 1⟩
    else if w = fdtNodeEnd then
      if c.depth ≠ 0 then .next ⟨c.token + 1, c.depth - 1⟩ else .ret none
    else if w = fdtProp then
      if c.depth = 0 then
        attempt (m.word (c.token + 2)) fun off =>
          attempt (fdtStrcmp m.stringByte off.toNat name 0) fun differs =>
            if differs then
              attempt (m.word (c.token + 1)) fun len => .next ⟨propEnd c.token len, c.depth⟩
            else .ret (some (c.token + 3))
      else attempt (m.word (c.token + 1)) fun len => .next ⟨propEnd c.token len, c.depth⟩
    else if w = fdtNop then .next ⟨c.token + 1, c.depth⟩
    else .halt (.unknownToken c.token)

section Pass

variable {m : Blocks} {name : List UInt8} {c : Cursor}

theorem findNodePass_end (h : m.word c.token = .ok fdtEnd) :
    findNodePass m name c = .ret none := by
  rw [findNodePass, h]
  rfl

theorem findNodePass_nodeStart (h : m.word c.token = .ok fdtNodeStart) :
    findNodePass m name c =
      if c.depth = 0 then
        attempt (fdtStrcmp m.structByte (4 * (c.token + 1)) name slash) fun differs =>
          attempt (m.skipName c.token) fun token =>
            if differs then .next ⟨token, c.depth + 1⟩ else .ret (some token)
      else .next ⟨c.token, c.depth + 1⟩ := by
  rw [findNodePass, h]
  rfl

theorem findNodePass_nodeEnd (h : m.word c.token = .ok fdtNodeEnd) :
    findNodePass m name c = .next ⟨c.token + 1, c.depth - 1⟩ := by
  rw [findNodePass, h]
  rfl

theorem findNodePass_prop (h : m.word c.token = .ok fdtProp) :
    findNodePass m name c =
      attempt (m.word (c.token + 1)) fun len => .next ⟨propEnd c.token len, c.depth⟩ := by
  rw [findNodePass, h]
  rfl

theorem findNodePass_nop (h : m.word c.token = .ok fdtNop) :
    findNodePass m name c = .next ⟨c.token + 1, c.depth⟩ := by
  rw [findNodePass, h]
  rfl

theorem findPropPass_end (h : m.word c.token = .ok fdtEnd) :
    findPropPass m name c = .ret none := by
  rw [findPropPass, h]
  rfl

theorem findPropPass_nodeStart (h : m.word c.token = .ok fdtNodeStart) :
    findPropPass m name c =
      attempt (m.skipName c.token) fun token => .next ⟨token, c.depth + 1⟩ := by
  rw [findPropPass, h]
  rfl

theorem findPropPass_nodeEnd (h : m.word c.token = .ok fdtNodeEnd) :
    findPropPass m name c =
      if c.depth ≠ 0 then .next ⟨c.token + 1, c.depth - 1⟩ else .ret none := by
  rw [findPropPass, h]
  rfl

theorem findPropPass_prop (h : m.word c.token = .ok fdtProp) :
    findPropPass m name c =
      if c.depth = 0 then
        attempt (m.word (c.token + 2)) fun off =>
          attempt (fdtStrcmp m.stringByte off.toNat name 0) fun differs =>
            if differs then
              attempt (m.word (c.token + 1)) fun len => .next ⟨propEnd c.token len, c.depth⟩
            else .ret (some (c.token + 3))
      else attempt (m.word (c.token + 1)) fun len => .next ⟨propEnd c.token len, c.depth⟩ := by
  rw [findPropPass, h]
  rfl

theorem findPropPass_nop (h : m.word c.token = .ok fdtNop) :
    findPropPass m name c = .next ⟨c.token + 1, c.depth⟩ := by
  rw [findPropPass, h]
  rfl

end Pass

def IsToken (w : UInt32) : Prop :=
  w = fdtEnd ∨ w = fdtNodeStart ∨ w = fdtNodeEnd ∨ w = fdtProp ∨ w = fdtNop

theorem findNodePass_unknown {m : Blocks} (h : m.word c.token = .ok w) (hw : ¬ IsToken w) :
    findNodePass m name c = .halt (.unknownToken c.token) := by
  simp only [IsToken, not_or] at hw
  simp [findNodePass, h, hw]

theorem findPropPass_unknown {m : Blocks} (h : m.word c.token = .ok w) (hw : ¬ IsToken w) :
    findPropPass m name c = .halt (.unknownToken c.token) := by
  simp only [IsToken, not_or] at hw
  simp [findPropPass, h, hw]

/-- The call `fdt_get_prop` is in, with what is left of the path. -/
inductive Call where
  | root (path : List UInt8)
  | node (name next : List UInt8)
  | prop (name : List UInt8)
  deriving DecidableEq, Repr

structure Frame where
  call : Call
  cursor : Cursor
  deriving DecidableEq, Repr

def Frame.pass (m : Blocks) (f : Frame) : CursorOutcome :=
  match f.call with
  | .root _ => findNodePass m [] f.cursor
  | .node name _ => findNodePass m name f.cursor
  | .prop name => findPropPass m name f.cursor

abbrev FrameOutcome := Outcome Frame (Option Nat) FdtFault

/-- The head of the loop of `fdt_get_prop`, up to the next call. Either callee
reads its first token at once, so a null node faults. -/
def enter (node : Option Nat) : List UInt8 → FrameOutcome
  | [] => .ret node
  | c :: ptr =>
    if c = slash then
      attempt (fdtPathNextName ptr) fun next =>
        match node, next with
        | none, _ => .halt .null
        | some token, some next => .next ⟨.node ptr next, token, 0⟩
        | some token, none => .next ⟨.prop ptr, token, 0⟩
    else .ret node

def Call.resume : Call → Option Nat → FrameOutcome
  | .root path, r => enter r path
  | .node _ next, some token => enter (some token) next
  | .node _ _, none => .ret none
  | .prop _, value => .ret value

/-- One pass of whichever loop `fdt_get_prop` is in. -/
def getPropPass (m : Blocks) (f : Frame) : FrameOutcome :=
  match f.pass m with
  | .next c => .next ⟨f.call, c⟩
  | .ret r => f.call.resume r
  | .halt e => .halt e

/-- `fdt_get_prop` for at most `fuel` passes: the index of the word its result
points to. -/
def fdtGetProp (m : Blocks) (path : List UInt8) (fuel : Nat) : FrameOutcome :=
  Loop.run (getPropPass m) fuel ⟨.root path, 0, 0⟩

end BismarckPreloader.Fdt
