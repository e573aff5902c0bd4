import BismarckPreloader.Lib.Loops
import Mathlib.Data.Nat.Digits.Lemmas

/-!
# Formatted output

`proto_printf` walks a format and hands characters, one at a time, to an output
function; `_proto_number` lays a number out in its field. Both count what they
hand out. Arguments are words; the string at an address is given by `str`, and
what `%n` stores is kept beside the output.
-/

namespace BismarckPreloader.Printf

open Loop

structure Flags where
  zeropad : Bool
  sign : Bool
  plus : Bool
  space : Bool
  left : Bool
  special : Bool
  large : Bool
  deriving DecidableEq, Repr

def noFlags : Flags := ⟨false, false, false, false, false, false, false⟩

structure Printer where
  out : List Char
  cc : UInt32
  deriving DecidableEq, Repr

namespace Printer

def putc (p : Printer) (c : Char) : Printer := ⟨p.out ++ [c], p.cc + 1⟩

def putcn (p : Printer) (c : Char) : Printer :=
  if c = '\n' then ⟨p.out ++ ['\r', c], p.cc + 1⟩ else p.putc c

def putAll (p : Printer) (cs : List Char) : Printer := cs.foldl putc p

def putRep (p : Printer) (c : Char) (n : Int) : Printer := p.putAll (List.replicate n.toNat c)

end Printer

def pad (c : Char) (size : Int) (p : Printer) : Int × Printer :=
  (if 0 < size then -1 else size - 1, p.putRep c size)

def getDigit (large : Bool) (n : Nat) : Char :=
  if n < 10 then Char.ofNat (n + '0'.toNat)
  else Char.ofNat (n + ((if large then 'A' else 'a').toNat - 10))

def tmpDigits (base : Nat) (large : Bool) (num : Nat) : List Char :=
  if num = 0 then ['0'] else (Nat.digits base num).map (getDigit large)

def signOf (type : Flags) (num : UInt32) (size : Int) : Option Char × UInt32 × Int :=
  if type.sign then
    if 2 ^ 31 ≤ num.toNat then (some '-', -num, size - 1)
    else if type.plus then (some '+', num, size - 1)
    else if type.space then (some ' ', num, size - 1)
    else (none, num, size)
  else (none, num, size)

def specialSize (type : Flags) (base : Nat) (size : Int) : Int :=
  if type.special then if base = 16 then size - 2 else if base = 8 then size - 1 else size
  else size

def putSpecial (type : Flags) (base : Nat) (p : Printer) : Printer :=
  if type.special then
    if base = 8 then p.putc '0'
    else if base = 16 then (p.putc '0').putc (getDigit type.large 33)
    else p
  else p

def protoNumber (p : Printer) (num : UInt32) (base : Nat) (size precision : Int) (type : Flags) :
    Printer :=
  let type := if type.left then { type with zeropad := false } else type
  if base < 2 ∨ 36 < base then p
  else
    let c := if type.zeropad then '0' else ' '
    let (sign, num, size) := signOf type num size
    let size := specialSize type base size
    let tmp := tmpDigits base type.large num.toNat
    let i : Int := tmp.length
    let precision := if precision < i then i else precision
    let size := size - precision
    let (size, p) := if !(type.zeropad || type.left) then pad ' ' size p else (size, p)
    let p := match sign with
      | some s => p.putc s
      | none => p
    let p := putSpecial type base p
    let (size, p) := if !type.left then pad c size p else (size, p)
    let p := p.putRep '0' (precision - i)
    let p := p.putAll tmp.reverse
    (pad ' ' size p).2

-- ---------------------------------------------------------------------------
-- The format
-- ---------------------------------------------------------------------------

def parseFlags : List Char → Flags → Flags × List Char
  | '-' :: fmt, flags => parseFlags fmt { flags with left := true }
  | '+' :: fmt, flags => parseFlags fmt { flags with plus := true }
  | ' ' :: fmt, flags => parseFlags fmt { flags with space := true }
  | '#' :: fmt, flags => parseFlags fmt { flags with special := true }
  | '0' :: fmt, flags => parseFlags fmt { flags with zeropad := true }
  | fmt, flags => (flags, fmt)

def isDigit (c : Char) : Bool := '0' ≤ c && c ≤ '9'

def skipAtoi : List Char → Int → Int × List Char
  | c :: fmt, i => if isDigit c then skipAtoi fmt (i * 10 + c.toNat - '0'.toNat) else (i, c :: fmt)
  | [], i => (i, [])

def toInt (w : UInt32) : Int := w.toInt32.toInt

structure Field where
  fmt : List Char
  args : List UInt32
  flags : Flags
  width : Int
  precision : Int

def parseWidth (fmt : List Char) (args : List UInt32) (flags : Flags) : Field :=
  match fmt with
  | '*' :: rest =>
    let w := toInt (args.headD 0)
    if w < 0 then ⟨rest, args.tail, { flags with left := true }, -w, -1⟩
    else ⟨rest, args.tail, flags, w, -1⟩
  | c :: rest =>
    if isDigit c then
      let (w, rest) := skipAtoi (c :: rest) 0
      ⟨rest, args, flags, w, -1⟩
    else ⟨fmt, args, flags, -1, -1⟩
  | [] => ⟨[], args, flags, -1, -1⟩

def parsePrecision (f : Field) : Field :=
  match f.fmt with
  | '.' :: '*' :: rest =>
    { f with fmt := rest, args := f.args.tail, precision := max 0 (toInt (f.args.headD 0)) }
  | '.' :: c :: rest =>
    if isDigit c then
      let (n, rest) := skipAtoi (c :: rest) 0
      { f with fmt := rest, precision := max 0 n }
    else { f with fmt := c :: rest, precision := 0 }
  | ['.'] => { f with fmt := [], precision := 0 }
  | _ => f

def parseQualifier (fmt : List Char) : Option Char × List Char :=
  match fmt with
  | 'h' :: rest => (some 'h', rest)
  | 'l' :: rest => (some 'l', rest)
  | 'q' :: rest => (some 'q', rest)
  | _ => (none, fmt)

def numArg (qualifier : Option Char) (flags : Flags) (w : UInt32) : UInt32 :=
  if qualifier = some 'h' then
    if flags.sign then w.toUInt16.toInt16.toInt32.toUInt32 else w.toUInt16.toUInt32
  else w

structure Print where
  fmt : List Char
  args : List UInt32
  printer : Printer
  stores : List (UInt32 × UInt32)
  deriving DecidableEq

def putNumber (s : Print) (rest : List Char) (f : Field) (qualifier : Option Char) (base : Nat)
    (flags : Flags) : Print :=
  { s with
    fmt := rest, args := f.args.tail,
    printer := protoNumber s.printer (numArg qualifier flags (f.args.headD 0)) base f.width
      f.precision flags }

def putString (p : Printer) (f : Field) (text : List Char) : Printer :=
  let text := if f.precision < 0 then text else text.take f.precision.toNat
  let room := f.width - text.length
  if f.flags.left then (text.foldl Printer.putcn p).putRep ' ' room
  else text.foldl Printer.putcn (p.putRep ' ' room)

def putChar (p : Printer) (f : Field) (c : Char) : Printer :=
  if f.flags.left then (p.putcn c).putRep ' ' (f.width - 1)
  else (p.putRep ' ' (f.width - 1)).putcn c

def directive (str : UInt32 → List Char) (s : Print) (fmt : List Char) : Print :=
  let (flags, fmt) := parseFlags fmt noFlags
  let f := parsePrecision (parseWidth fmt s.args flags)
  let (qualifier, fmt) := parseQualifier f.fmt
  match fmt with
  | 'c' :: rest =>
    { s with
      fmt := rest, args := f.args.tail,
      printer := putChar s.printer f (Char.ofNat ((f.args.headD 0).toNat % 256)) }
  | 's' :: rest =>
    let a := f.args.headD 0
    { s with
      fmt := rest, args := f.args.tail,
      printer := putString s.printer f (if a = 0 then "<NULL>".toList else str a) }
  | 'p' :: rest =>
    let f := if f.width = -1 then { f with width := 10, flags := { f.flags with zeropad := true } }
      else f
    putNumber s rest f (some 'l') 16 { f.flags with special := true }
  | 'n' :: rest =>
    { s with
      fmt := rest, args := f.args.tail,
      stores := s.stores ++ [(f.args.headD 0, s.printer.cc)] }
  | '%' :: rest => { s with fmt := rest, args := f.args, printer := s.printer.putc '%' }
  | 'o' :: rest => putNumber s rest f qualifier 8 f.flags
  | 'X' :: rest => putNumber s rest f qualifier 16 { f.flags with large := true }
  | 'x' :: rest => putNumber s rest f qualifier 16 f.flags
  | 'd' :: rest => putNumber s rest f qualifier 10 { f.flags with sign := true }
  | 'i' :: rest => putNumber s rest f qualifier 10 { f.flags with sign := true }
  | 'u' :: rest => putNumber s rest f qualifier 10 f.flags
  | c :: rest => { s with fmt := rest, args := f.args, printer := (s.printer.putc '%').putcn c }
  | [] => { s with fmt := [], args := f.args, printer := s.printer.putc '%' }

def printStep (str : UInt32 → List Char) (s : Print) : Outcome Print Print Empty :=
  match s.fmt with
  | [] => .ret s
  | '%' :: fmt => .next (directive str s fmt)
  | c :: fmt => .next { s with fmt := fmt, printer := s.printer.putcn c }

def ProtoPrintf (str : UInt32 → List Char) (fmt : List Char) (args : List UInt32) (p : Printer) :
    Prop :=
  ∃ s, Leads (printStep str) ⟨fmt, args, ⟨[], 0⟩, []⟩ (.ret s) ∧ s.printer = p

namespace Printer

@[simp] theorem out_putc (p : Printer) (c : Char) : (p.putc c).out = p.out ++ [c] := rfl

@[simp] theorem out_putAll (p : Printer) (cs : List Char) : (p.putAll cs).out = p.out ++ cs := by
  induction cs generalizing p with
  | nil => simp [putAll]
  | cons c cs ih =>
    rw [putAll, List.foldl_cons, ← putAll, ih]
    simp

@[simp] theorem out_putRep (p : Printer) (c : Char) (n : Int) :
    (p.putRep c n).out = p.out ++ List.replicate n.toNat c := out_putAll p _

def Counted (p : Printer) : Prop := p.cc = UInt32.ofNat p.out.length

theorem Counted.putc {p : Printer} (h : p.Counted) (c : Char) : (p.putc c).Counted := by
  unfold Counted at *
  simp [Printer.putc, h, UInt32.ofNat_add]

theorem Counted.putAll {p : Printer} (h : p.Counted) (cs : List Char) : (p.putAll cs).Counted := by
  induction cs generalizing p with
  | nil => exact h
  | cons c cs ih => exact ih (h.putc c)

theorem Counted.putRep {p : Printer} (h : p.Counted) (c : Char) (n : Int) :
    (p.putRep c n).Counted := h.putAll _

end Printer

-- ---------------------------------------------------------------------------
-- The layout of an unsigned number
-- ---------------------------------------------------------------------------

@[simp] theorem out_pad (c : Char) (size : Int) (p : Printer) :
    (pad c size p).2.out = p.out ++ List.replicate size.toNat c := Printer.out_putRep p c size

theorem counted_pad (h : p.Counted) (c : Char) (size : Int) : (pad c size p).2.Counted :=
  h.putRep c size

theorem pad_rest (c : Char) (size : Int) (p : Printer) : (pad c size p).1 < 0 := by
  unfold pad
  dsimp only
  split <;> omega

def special (type : Flags) (base : Nat) : List Char :=
  if type.special then
    if base = 8 then ['0'] else if base = 16 then ['0', getDigit type.large 33] else []
  else []

@[simp] theorem out_putSpecial (type : Flags) (base : Nat) (p : Printer) :
    (putSpecial type base p).out = p.out ++ special type base := by
  unfold putSpecial special
  split
  · split
    · rfl
    · split <;> simp
  · simp

theorem counted_putSpecial (h : p.Counted) (type : Flags) (base : Nat) :
    (putSpecial type base p).Counted := by
  unfold putSpecial
  split
  · split
    · exact h.putc _
    · split
      · exact (h.putc _).putc _
      · exact h
  · exact h

theorem specialSize_eq (type : Flags) (base : Nat) (size : Int) :
    specialSize type base size = size - (special type base).length := by
  unfold specialSize special
  by_cases h16 : base = 16
  · cases type.special <;> simp [h16]
  · by_cases h8 : base = 8
    · cases type.special <;> simp [h8]
    · cases type.special <;> simp [h16, h8]

theorem tmpDigits_ne_nil (base : Nat) (large : Bool) (num : Nat) :
    0 < (tmpDigits base large num).length := by
  unfold tmpDigits
  split
  · exact Nat.one_pos
  · rename_i h
    rw [List.length_map]
    exact List.length_pos_iff.mpr (Nat.digits_ne_nil_iff_ne_zero.mpr h)

/-- An unsigned number in its field: the padding stands in front of the marker
when it is blank and behind it when it is zeros. -/
def layout (type : Flags) (base : Nat) (size : Int) (num : UInt32) : List Char :=
  let digits := (tmpDigits base type.large num.toNat).reverse
  let room := (size - (special type base).length - digits.length).toNat
  if type.zeropad then special type base ++ (List.replicate room '0' ++ digits)
  else List.replicate room ' ' ++ (special type base ++ digits)

theorem out_protoNumber (p : Printer) (num : UInt32) (base : Nat) (size : Int) (type : Flags)
    (hs : type.sign = false) (hl : type.left = false) (hb : 2 ≤ base ∧ base ≤ 36) :
    (protoNumber p num base size (-1) type).out = p.out ++ layout type base size num := by
  have hpos := tmpDigits_ne_nil base type.large num.toNat
  have hprec : (-1 : Int) < (tmpDigits base type.large num.toNat).length := by omega
  unfold protoNumber layout
  simp only [hl, hs, signOf, specialSize_eq, if_neg (show ¬ (base < 2 ∨ 36 < base) by omega),
    if_pos hprec, Bool.false_eq_true, if_false, Bool.or_false, Bool.not_false, if_true,
    Int.sub_self, List.length_reverse]
  cases hz : type.zeropad with
  | false =>
    have hrest := pad_rest ' '
      (size - (special type base).length - (tmpDigits base type.large num.toNat).length) p
    simp [Int.toNat_of_nonpos (Int.le_of_lt hrest),
      Int.toNat_of_nonpos (Int.le_of_lt (pad_rest _ _ _))]
  | true =>
    simp [Int.toNat_of_nonpos (Int.le_of_lt (pad_rest _ _ _))]

theorem protoNumber_counted (h : p.Counted) (num : UInt32) (base : Nat) (size precision : Int)
    (type : Flags) : (protoNumber p num base size precision type).Counted := by
  unfold protoNumber
  dsimp only
  generalize (if type.left then { type with zeropad := false } else type) = type
  split
  · exact h
  · refine counted_pad ?_ _ _
    refine Printer.Counted.putAll (Printer.Counted.putRep ?_ _ _) _
    have hsign : ∀ (sign : Option Char) (p : Printer), p.Counted →
        (match sign with
          | some s => p.putc s
          | none => p).Counted := by
      intro sign p hp
      cases sign with
      | none => exact hp
      | some s => exact hp.putc s
    split
    · refine counted_pad (counted_putSpecial (hsign _ _ ?_) _ _) _ _
      split
      · exact counted_pad h _ _
      · exact h
    · refine counted_putSpecial (hsign _ _ ?_) _ _
      split
      · exact counted_pad h _ _
      · exact h

end BismarckPreloader.Printf
