import BismarckPreloader.Misc.Printf
import Mathlib.Data.Nat.Digits.Lemmas

/-!
# Printed numbers read back

`atoi` reads what `proto_printf` prints for `%x`, `%X` and `%u`, with any width
and any mix of the flags that pad with zeros and add the marker. Both work on
the digits of `Nat.digits`: the printer lists them from the lowest up and sends
them in reverse, the reader folds them from the highest down.
-/

namespace BismarckPreloader.Printf

open Loop

-- ---------------------------------------------------------------------------
-- The reader
-- ---------------------------------------------------------------------------

section

variable {ds : List Nat} {base : Nat} {large : Bool}

/-- `inline_ascii_value`; `none` is its -1. -/
def asciiValue (base : Nat) (c : Char) : Option Nat :=
  if c ≤ '9' ∧ '0' ≤ c then some (c.toNat - '0'.toNat)
  else
    let k := c.toNat ||| 32
    if base = 16 ∧ k ≤ 'f'.toNat ∧ 'a'.toNat ≤ k then some (k - 'a'.toNat + 10) else none

def atoiLoop (base : Nat) : List Char → UInt32 → UInt32
  | [], r => r
  | c :: v, r => match asciiValue base c with
    | some d => atoiLoop base v (r * UInt32.ofNat base + UInt32.ofNat d)
    | none => r

def atoi (v : List Char) : UInt32 :=
  match v with
  | [] => 0
  | '0' :: c :: rest =>
    if c.toNat &&& 0xffffffdf = 'X'.toNat then atoiLoop 16 rest 0 else atoiLoop 10 v 0
  | _ => atoiLoop 10 v 0

def digitsText (large : Bool) (ds : List Nat) : List Char := ds.reverse.map (getDigit large)

theorem asciiValue_getDigit : ∀ large, ∀ d < 16, asciiValue 16 (getDigit large d) = some d := by
  decide

theorem asciiValue_decimal : ∀ large, ∀ d < 10, asciiValue 10 (getDigit large d) = some d := by
  decide

theorem foldl_reverse_digits (b : Nat) (ds : List Nat) :
    ds.reverse.foldl (fun r d => r * b + d) 0 = Nat.ofDigits b ds := by
  rw [List.foldl_reverse]
  induction ds with
  | nil => rfl
  | cons d ds ih =>
    rw [List.foldr_cons, ih, Nat.ofDigits_cons]
    ring

theorem atoiLoop_map (hv : ∀ d ∈ ds, asciiValue base (getDigit large d) = some d) (r : Nat) :
    atoiLoop base (ds.map (getDigit large)) (UInt32.ofNat r) =
      UInt32.ofNat (ds.foldl (fun r d => r * base + d) r) := by
  induction ds generalizing r with
  | nil => rfl
  | cons d ds ih =>
    simp only [List.mem_cons, forall_eq_or_imp] at hv
    rw [List.map_cons, atoiLoop, hv.1, List.foldl_cons, ← ih hv.2]
    simp only [UInt32.ofNat_add, UInt32.ofNat_mul]

theorem atoiLoop_digits (hv : ∀ d ∈ ds, asciiValue base (getDigit large d) = some d) :
    atoiLoop base (digitsText large ds) 0 = UInt32.ofNat (Nat.ofDigits base ds) := by
  have hv' : ∀ d ∈ ds.reverse, asciiValue base (getDigit large d) = some d := by
    intro d hd
    exact hv d (List.mem_reverse.mp hd)
  rw [← foldl_reverse_digits]
  exact atoiLoop_map hv' 0

theorem atoi_marker (large : Bool) (v : List Char) :
    atoi ('0' :: getDigit large 33 :: v) = atoiLoop 16 v 0 := by
  cases large <;> rfl

theorem atoi_decimal (hds : ∀ d ∈ ds, d < 10) (large : Bool) :
    atoi (digitsText large ds) = UInt32.ofNat (Nat.ofDigits 10 ds) := by
  rw [← atoiLoop_digits fun d hd => asciiValue_decimal large d (hds d hd)]
  unfold digitsText
  have hrev : ∀ d ∈ ds.reverse, d < 10 := fun d hd => hds d (List.mem_reverse.mp hd)
  match ds.reverse, hrev with
  | [], _ => rfl
  | [d], _ =>
    simp only [List.map_cons, List.map_nil, atoi]
    split <;> simp_all
  | d :: e :: rest, hrev =>
    -- a second digit is never the letter of the marker
    have he : ∀ large, ∀ e < 10, (getDigit large e).toNat &&& 0xffffffdf ≠ 'X'.toNat := by decide
    have he := he large e (hrev e (by simp))
    simp only [List.map_cons, atoi]
    split
    · simp_all
    · rename_i heq
      simp only [List.cons.injEq] at heq
      obtain ⟨-, rfl, -⟩ := heq
      rw [if_neg he]
    · rfl

def printed (base num : Nat) : List Nat := if num = 0 then [0] else Nat.digits base num

theorem tmpDigits_reverse (base : Nat) (large : Bool) (num : Nat) :
    (tmpDigits base large num).reverse = digitsText large (printed base num) := by
  unfold tmpDigits printed digitsText
  split
  · cases large <;> rfl
  · rw [List.map_reverse]

theorem printed_lt (hb : 1 < base) : ∀ d ∈ printed base num, d < base := by
  unfold printed
  split
  · simp only [List.mem_singleton, forall_eq]
    omega
  · intro d hd
    exact Nat.digits_lt_base hb hd

theorem ofDigits_printed (base num : Nat) : Nat.ofDigits base (printed base num) = num := by
  unfold printed
  split
  · rename_i h
    simp [h]
  · exact Nat.ofDigits_digits base num

theorem zeros_digitsText (large : Bool) (n : Nat) (ds : List Nat) :
    List.replicate n '0' ++ digitsText large ds =
      digitsText large (ds ++ List.replicate n 0) := by
  have h0 : getDigit large 0 = '0' := rfl
  simp [digitsText, h0]

end

-- ---------------------------------------------------------------------------
-- A directive
-- ---------------------------------------------------------------------------

inductive Conv where
  | x
  | upperX
  | u
  deriving DecidableEq

def Conv.char : Conv → Char
  | .x => 'x'
  | .upperX => 'X'
  | .u => 'u'

def Conv.base : Conv → Nat
  | .x => 16
  | .upperX => 16
  | .u => 10

inductive FlagChar where
  | zero
  | hash
  deriving DecidableEq

def FlagChar.char : FlagChar → Char
  | .zero => '0'
  | .hash => '#'

/-- The field width: none, written in the format, or taken from an argument. It
is kept in an `int`; a written width does not start with a zero, which is a flag. -/
inductive Width where
  | absent
  | digits (w : Nat) (pos : 0 < w) (int : w < 2 ^ 31)
  | star (w : Nat) (int : w < 2 ^ 31)

def Width.text : Width → List Char
  | .absent => []
  | .digits w _ _ => digitsText false (Nat.digits 10 w)
  | .star _ _ => ['*']

def Width.args : Width → List UInt32
  | .star w _ => [UInt32.ofNat w]
  | _ => []

def Width.size : Width → Int
  | .absent => -1
  | .digits w _ _ => w
  | .star w _ => w

structure Directive where
  conv : Conv
  flags : List FlagChar
  width : Width
  marker : conv = .u → FlagChar.hash ∉ flags

namespace Directive

def text (d : Directive) : List Char :=
  '%' :: (d.flags.map FlagChar.char ++ (d.width.text ++ [d.conv.char]))

def type (d : Directive) : Flags :=
  { noFlags with
    zeropad := decide (FlagChar.zero ∈ d.flags), special := decide (FlagChar.hash ∈ d.flags),
    large := decide (d.conv = .upperX) }

def body (d : Directive) (v : UInt32) : List Char :=
  special d.type d.conv.base ++ (tmpDigits d.conv.base d.type.large v.toNat).reverse

def missing (d : Directive) : List Char :=
  if d.conv ≠ .u ∧ FlagChar.hash ∉ d.flags then ['0', 'x'] else []

end Directive

-- ---------------------------------------------------------------------------
-- The directive is understood
-- ---------------------------------------------------------------------------

theorem parseFlags_stop {c : Char} (hc : c ∉ ['-', '+', ' ', '#', '0']) (rest : List Char)
    (flags : Flags) : parseFlags (c :: rest) flags = (flags, c :: rest) := by
  simp only [List.mem_cons, List.not_mem_nil, or_false, not_or] at hc
  unfold parseFlags
  split <;> simp_all

theorem parseFlags_map (fs : List FlagChar) (rest : List Char) (flags : Flags) (c : Char)
    (hc : c ∉ ['-', '+', ' ', '#', '0']) :
    parseFlags (fs.map FlagChar.char ++ c :: rest) flags =
      ({ flags with
        zeropad := flags.zeropad || decide (FlagChar.zero ∈ fs),
        special := flags.special || decide (FlagChar.hash ∈ fs) }, c :: rest) := by
  induction fs generalizing flags with
  | nil => simp [parseFlags_stop hc]
  | cons f fs ih =>
    cases f with
    | zero =>
      rw [List.map_cons, List.cons_append, FlagChar.char, parseFlags, ih]
      simp
    | hash =>
      rw [List.map_cons, List.cons_append, FlagChar.char, parseFlags, ih]
      simp

theorem isDigit_getDigit : ∀ d < 10, isDigit (getDigit false d) = true ∧
    (getDigit false d).toNat = d + '0'.toNat := by
  decide

theorem skipAtoi_map (ds : List Nat) (hds : ∀ d ∈ ds, d < 10) (c : Char) (hc : isDigit c = false)
    (rest : List Char) (r : Nat) :
    skipAtoi (ds.map (getDigit false) ++ c :: rest) r =
      (((ds.foldl (fun r d => r * 10 + d) r : Nat) : Int), c :: rest) := by
  induction ds generalizing r with
  | nil => simp [skipAtoi, hc]
  | cons d ds ih =>
    simp only [List.mem_cons, forall_eq_or_imp] at hds
    obtain ⟨hdigit, hval⟩ := isDigit_getDigit d hds.1
    rw [List.map_cons, List.cons_append, skipAtoi, if_pos hdigit, hval, List.foldl_cons,
      ← ih hds.2]
    congr 1
    push_cast
    ring

theorem digits_text_cons (w : Nat) (hw : 0 < w) : ∃ d ds, d ≠ 0 ∧ d < 10 ∧
    (Nat.digits 10 w).reverse = d :: ds := by
  have hne : Nat.digits 10 w ≠ [] := Nat.digits_ne_nil_iff_ne_zero.mpr (Nat.ne_of_gt hw)
  refine ⟨(Nat.digits 10 w).getLast hne, (Nat.digits 10 w).dropLast.reverse,
    Nat.getLast_digit_ne_zero 10 (Nat.ne_of_gt hw), ?_, ?_⟩
  · exact Nat.digits_lt_base (by decide) (List.getLast_mem hne)
  · conv_lhs => rw [← List.dropLast_append_getLast hne]
    simp

theorem width_text_head (width : Width) (conv : Conv) : ∃ c rest,
    width.text ++ [conv.char] = c :: rest ∧ c ∉ ['-', '+', ' ', '#', '0'] := by
  cases width with
  | absent => exact ⟨conv.char, [], rfl, by cases conv <;> decide⟩
  | star w _ => exact ⟨'*', [conv.char], rfl, by decide⟩
  | digits w hw _ =>
    obtain ⟨d, ds, hne, hlt, hrev⟩ := digits_text_cons w hw
    refine ⟨getDigit false d, ds.map (getDigit false) ++ [conv.char], ?_, ?_⟩
    · simp [Width.text, digitsText, hrev]
    · have h : ∀ d < 10, d ≠ 0 → getDigit false d ∉ ['-', '+', ' ', '#', '0'] := by decide
      exact h d hlt hne

theorem toInt_ofNat (hw : w < 2 ^ 31) : toInt (UInt32.ofNat w) = w := by
  change (BitVec.ofNat 32 w).toInt = w
  rw [BitVec.toInt_eq_toNat_of_lt] <;> rw [BitVec.toNat_ofNat] <;> omega

theorem isDigit_conv (conv : Conv) : isDigit conv.char = false := by cases conv <;> decide

theorem parsePrecision_conv (conv : Conv) (f : Field) (hf : f.fmt = [conv.char]) :
    parsePrecision f = f := by
  unfold parsePrecision
  rw [hf]
  cases conv <;> rfl

theorem parseWidth_star (conv : Conv) (args : List UInt32) (flags : Flags) (hw : w < 2 ^ 31) :
    parseWidth ('*' :: [conv.char]) (UInt32.ofNat w :: args) flags =
      ⟨[conv.char], args, flags, w, -1⟩ := by
  have hpos : ¬ ((w : Int) < 0) := by omega
  simp only [parseWidth, List.headD_cons, toInt_ofNat hw, if_neg hpos, List.tail_cons]

theorem parseWidth_digit (hd : isDigit d = true)
    (hskip : skipAtoi (d :: fmt) 0 = (w, rest)) (args : List UInt32) (flags : Flags) :
    parseWidth (d :: fmt) args flags = ⟨rest, args, flags, w, -1⟩ := by
  unfold parseWidth
  split
  · rename_i heq
    simp only [List.cons.injEq] at heq
    rw [heq.1] at hd
    cases hd
  · rename_i heq
    simp only [List.cons.injEq] at heq
    obtain ⟨rfl, rfl⟩ := heq
    rw [if_pos hd, hskip]
  · rename_i heq
    cases heq

theorem parseWidth_text (width : Width) (conv : Conv) (args : List UInt32) (flags : Flags) :
    parseWidth (width.text ++ [conv.char]) (width.args ++ args) flags =
      ⟨[conv.char], args, flags, width.size, -1⟩ := by
  cases width with
  | absent => cases conv <;> rfl
  | star w hw => exact parseWidth_star conv args flags hw
  | digits w hw hint =>
    obtain ⟨d, ds, hne, hlt, hrev⟩ := digits_text_cons w hw
    have hall : ∀ e ∈ d :: ds, e < 10 := by
      intro e he
      rw [← hrev, List.mem_reverse] at he
      exact Nat.digits_lt_base (by decide) he
    have hval : (d :: ds).foldl (fun r d => r * 10 + d) 0 = w := by
      rw [← hrev, foldl_reverse_digits, Nat.ofDigits_digits]
    have hskip := skipAtoi_map (d :: ds) hall conv.char (isDigit_conv conv) [] 0
    rw [hval] at hskip
    have htext : (Width.digits w hw hint).text = (d :: ds).map (getDigit false) := by
      rw [Width.text, digitsText, hrev]
    rw [htext]
    exact parseWidth_digit (isDigit_getDigit d hlt).1 hskip args flags

theorem parse_field (width : Width) (conv : Conv) (args : List UInt32) (flags : Flags) :
    parsePrecision (parseWidth (width.text ++ [conv.char]) (width.args ++ args) flags) =
      ⟨[conv.char], args, flags, width.size, -1⟩ := by
  rw [parseWidth_text]
  exact parsePrecision_conv conv _ rfl

theorem directive_prints (str : UInt32 → List Char) (d : Directive) (v : UInt32) (s : Print)
    (hs : s.args = d.width.args ++ [v]) :
    directive str s (d.flags.map FlagChar.char ++ (d.width.text ++ [d.conv.char])) =
      { s with
        fmt := [], args := [],
        printer := protoNumber s.printer v d.conv.base d.width.size (-1) d.type } := by
  obtain ⟨c, rest, htext, hc⟩ := width_text_head d.width d.conv
  have hfield := parse_field d.width d.conv [v]
  unfold directive
  rw [htext, parseFlags_map _ _ _ _ hc, ← htext, hs]
  dsimp only
  rw [hfield]
  obtain ⟨conv, flags, width, -⟩ := d
  cases conv <;> rfl

-- ---------------------------------------------------------------------------
-- The text
-- ---------------------------------------------------------------------------

theorem strip_blanks (n : Nat) (text : List Char) (h : ∀ c ∈ text, c ≠ ' ') :
    (List.replicate n ' ' ++ text).dropWhile (· = ' ') = text := by
  induction n with
  | zero =>
    cases text with
    | nil => rfl
    | cons c text =>
      have hc := h c List.mem_cons_self
      simp [hc]
  | succ n ih => simpa [List.replicate_succ] using ih

theorem special_ne_blank (type : Flags) (base : Nat) : ∀ c ∈ special type base, c ≠ ' ' := by
  have hx : getDigit type.large 33 ≠ ' ' := by cases type.large <;> decide
  unfold special
  split
  · split
    · simp
    · split
      · simp [hx]
      · simp
  · simp

theorem digitsText_ne_blank (large : Bool) (ds : List Nat) (hds : ∀ d ∈ ds, d < 16) :
    ∀ c ∈ digitsText large ds, c ≠ ' ' := by
  have h : ∀ large, ∀ d < 16, getDigit large d ≠ ' ' := by decide
  simp only [digitsText, List.mem_map, List.mem_reverse]
  rintro c ⟨d, hd, rfl⟩
  exact h large d (hds d hd)

theorem layout_stripped (type : Flags) (hb : 1 < base ∧ base ≤ 16) (size : Int) (num : UInt32) :
    ∃ n, (layout type base size num).dropWhile (· = ' ') =
      special type base ++
        digitsText type.large (printed base num.toNat ++ List.replicate n 0) := by
  have hlt : ∀ n, ∀ d ∈ printed base num.toNat ++ List.replicate n 0, d < 16 := by
    simp only [List.mem_append, List.mem_replicate]
    rintro n d (hd | ⟨-, rfl⟩)
    · exact Nat.lt_of_lt_of_le (printed_lt hb.1 d hd) hb.2
    · decide
  have hne : ∀ n, ∀ c ∈ special type base ++
      digitsText type.large (printed base num.toNat ++ List.replicate n 0), c ≠ ' ' := by
    intro n c hc
    rcases List.mem_append.mp hc with hc | hc
    · exact special_ne_blank type base c hc
    · exact digitsText_ne_blank type.large _ (hlt n) c hc
  unfold layout
  rw [tmpDigits_reverse]
  dsimp only
  split
  · rw [zeros_digitsText]
    exact ⟨_, strip_blanks 0 _ (hne _)⟩
  · refine ⟨0, ?_⟩
    have h := hne 0
    simp only [List.replicate_zero, List.append_nil] at h ⊢
    exact strip_blanks _ _ h

theorem layout_length (type : Flags) (base : Nat) (size : Int) (num : UInt32) :
    ((layout type base size num).length : Int) = max size
      ((special type base ++ (tmpDigits base type.large num.toNat).reverse).length : Int) := by
  unfold layout
  dsimp only
  split <;> simp only [List.length_append, List.length_replicate, List.length_reverse] <;> omega

theorem atoi_hex (mark large : Bool) (n : Nat) (v : UInt32) :
    atoi ('0' :: getDigit mark 33 :: digitsText large (printed 16 v.toNat ++ List.replicate n 0)) =
      v := by
  have hlt : ∀ d ∈ printed 16 v.toNat ++ List.replicate n 0,
      asciiValue 16 (getDigit large d) = some d := by
    simp only [List.mem_append, List.mem_replicate]
    rintro d (hd | ⟨-, rfl⟩)
    · exact asciiValue_getDigit large d (printed_lt (by decide) d hd)
    · exact asciiValue_getDigit large 0 (by decide)
  rw [atoi_marker, atoiLoop_digits hlt, Nat.ofDigits_append_replicate_zero, ofDigits_printed,
    UInt32.ofNat_toNat]

theorem body_length_le (d : Directive) (v : UInt32) : (d.body v).length ≤ 12 := by
  have hv := v.toNat_lt
  have hspecial : (special d.type d.conv.base).length ≤ 2 := by
    unfold special
    split
    · split
      · decide
      · split <;> simp
    · simp
  have hdigits : (tmpDigits d.conv.base d.type.large v.toNat).length ≤ 10 := by
    unfold tmpDigits
    split
    · simp
    · rw [List.length_map]
      cases d.conv with
      | u =>
        exact (Nat.digits_length_le_iff (by decide) _).mpr (Nat.lt_trans hv (by decide))
      | x =>
        exact (Nat.digits_length_le_iff (by decide) _).mpr (Nat.lt_trans hv (by decide))
      | upperX =>
        exact (Nat.digits_length_le_iff (by decide) _).mpr (Nat.lt_trans hv (by decide))
  simp only [Directive.body, List.length_append, List.length_reverse]
  omega

theorem size_lt (width : Width) : width.size < 2 ^ 31 := by
  cases width with
  | absent => decide
  | digits w _ h =>
    simp only [Width.size]
    omega
  | star w h =>
    simp only [Width.size]
    omega

structure ReadsBack (d : Directive) (v : UInt32) (p : Printer) : Prop where
  value : atoi (d.missing ++ p.out.dropWhile (· = ' ')) = v
  length : (p.out.length : Int) = max d.width.size (d.body v).length
  count : p.cc.toNat = p.out.length

theorem atoi_layout (d : Directive) (v : UInt32) :
    atoi (d.missing ++ (layout d.type d.conv.base d.width.size v).dropWhile (· = ' ')) = v := by
  have hb : 1 < d.conv.base ∧ d.conv.base ≤ 16 := by cases d.conv <;> decide
  obtain ⟨n, hn⟩ := layout_stripped d.type hb d.width.size v
  rw [hn]
  obtain ⟨conv, flags, width, hmarker⟩ := d
  by_cases hu : conv = .u
  · subst hu
    have hlt : ∀ e ∈ printed 10 v.toNat ++ List.replicate n 0, e < 10 := by
      simp only [List.mem_append, List.mem_replicate]
      rintro e (he | ⟨-, rfl⟩)
      · exact printed_lt (by decide) e he
      · decide
    simp only [Directive.missing, Conv.base, special, Directive.type, ne_eq, not_true_eq_false,
      false_and, if_false, List.nil_append]
    have h := atoi_decimal hlt (decide (Conv.u = .upperX))
    rw [Nat.ofDigits_append_replicate_zero, ofDigits_printed, UInt32.ofNat_toNat] at h
    simpa [hmarker rfl] using h
  · have hbase : conv.base = 16 := by
      cases conv with
      | x => rfl
      | upperX => rfl
      | u => exact absurd rfl hu
    by_cases hh : FlagChar.hash ∈ flags
    · have h := atoi_hex (decide (conv = .upperX)) (decide (conv = .upperX)) n v
      simpa [Directive.missing, Directive.type, special, hbase, hh] using h
    · have h := atoi_hex false (decide (conv = .upperX)) n v
      have hx : getDigit false 33 = 'x' := by decide
      rw [hx] at h
      simpa [Directive.missing, Directive.type, special, hbase, hh, hu] using h

theorem printf_reads_back (str : UInt32 → List Char) (d : Directive) (v : UInt32) :
    ∃ p, ProtoPrintf str d.text (d.width.args ++ [v]) p ∧ ReadsBack d v p := by
  let p := protoNumber ⟨[], 0⟩ v d.conv.base d.width.size (-1) d.type
  have hout : p.out = layout d.type d.conv.base d.width.size v := by
    have hb : 2 ≤ d.conv.base ∧ d.conv.base ≤ 36 := by cases d.conv <;> decide
    have h := out_protoNumber ⟨[], 0⟩ v d.conv.base d.width.size d.type rfl rfl hb
    simpa using h
  have hlen : (p.out.length : Int) = max d.width.size (d.body v).length := by
    rw [hout]
    exact layout_length _ _ _ _
  refine ⟨p, ⟨⟨[], [], p, []⟩, ?_, rfl⟩, ⟨?_, hlen, ?_⟩⟩
  · refine .head (congrArg Outcome.next (directive_prints str d v _ rfl)) (.one rfl)
  · rw [hout]
    exact atoi_layout d v
  · have hstart : (⟨[], 0⟩ : Printer).Counted := rfl
    have hcount : p.Counted := protoNumber_counted hstart v _ _ _ _
    have hsize := size_lt d.width
    have hbody := body_length_le d v
    rw [hcount, UInt32.toNat_ofNat']
    omega

theorem printf_reads_back_hash : ∃ d : Directive, d.text = "%#08x".toList ∧
    ∃ p, ProtoPrintf (fun _ => []) d.text (d.width.args ++ [0x1f]) p ∧ ReadsBack d 0x1f p :=
  ⟨⟨.x, [.hash, .zero], .digits 8 (by decide) (by decide), nofun⟩, by decide +kernel,
    printf_reads_back _ _ _⟩

example : ∃ p, ProtoPrintf (fun _ => []) "%#08x".toList [0x1f] p ∧ p.out = "0x00001f".toList := by
  refine ⟨⟨"0x00001f".toList, 8⟩, ⟨_, ⟨2, rfl⟩, ?_⟩, rfl⟩
  decide

end BismarckPreloader.Printf
