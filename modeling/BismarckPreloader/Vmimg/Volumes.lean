import BismarckPreloader.Lib.Memory
import BismarckPreloader.Upgrade.Commands
import Mathlib.Data.List.TakeWhile
import Mathlib.Tactic.Ring

/-!
# The volume table

`do_volume_modify` reads a record of lines `name=hexsize` and resizes a volume
for each. It looks for the separators with `strchr`, which knows nothing of the
length of the record: behind the last line it goes on into the memory that
follows, unless that line ends in a newline. A field is cut after 127 characters,
blanks included, and a size is kept in 32 bits.
-/

namespace BismarckPreloader.Volumes

open Loop

def equals : UInt8 := 0x3d
def newline : UInt8 := 0x0a

def isblank (c : UInt8) : Bool := c == 0x20 || c == 0x09

def isSep (c : UInt8) : Bool := isblank c || c == newline

def trim (buf : List UInt8) : List UInt8 := (buf.dropWhile isSep).takeWhile fun c => !isSep c

/-- Where `strchr` ends: at the character or at the terminator. `none` while it
is still looking. -/
def strchr (m : Mem) (c : UInt8) : Nat → Nat → Option Nat
  | 0, _ => none
  | fuel + 1, p => if m p = c ∨ m p = 0 then some p else strchr m c fuel (p + 1)

/-- The command lines of `do_volume_modify`, with their words. The source writes them as text
with `sprintf`; that the shell splits such a text into these words again, which it does not for a
name with a quote, a semicolon or the like, belongs to the shell. -/
inductive VolCommand where
  | checkVol (name : List UInt8)
  | resize (name : List UInt8) (size : UInt32)
  deriving DecidableEq

structure State where
  offset : Nat
  strPtr : Nat
  commands : List VolCommand
  /-- One past the last byte that was looked at. -/
  used : Nat
  deriving DecidableEq

def field (m : Mem) (p patLen : Nat) : List UInt8 := trim (m.slice p (min patLen 127))

def volumeStep (m : Mem) (fuel bufSize : Nat) (s : State) : Outcome State State Unit :=
  if s.offset < bufSize then
    match strchr m equals fuel s.strPtr with
    | none => .halt ()
    | some pat =>
      let s := { s with used := max s.used (pat + 1) }
      if m pat ≠ equals then .ret s
      else
        let patLen := pat - s.strPtr
        let offset := s.offset + patLen + 1
        let name := field m s.strPtr patLen
        if bufSize ≤ offset then .ret { s with offset := offset }
        else
          let strPtr := pat + 1
          match strchr m newline fuel strPtr with
          | none => .halt ()
          | some pat =>
            let patLen := if m pat = newline then pat - strPtr else bufSize - offset - 1
            let size := Upgrade.simpleStrtoul (field m strPtr patLen) 16
            .next {
              offset := offset + patLen + 1
              -- without a newline `strchr` returns no pointer, and 1 is what is left of it
              strPtr := if m pat = newline then pat + 1 else 1
              commands := s.commands ++ [.checkVol name, .resize name size]
              used := max s.used (max (pat + 1) (strPtr + patLen)) }
  else .ret s

def start (buf : Nat) : State := ⟨0, buf, [], 0⟩

def Blank (s : List UInt8) : Prop := ∀ c ∈ s, isblank c = true

structure Line where
  lead : List UInt8
  name : List UInt8
  trail : List UInt8
  sizeLead : List UInt8
  hex : List UInt8
  sizeTrail : List UInt8
  blank : Blank lead ∧ Blank trail ∧ Blank sizeLead ∧ Blank sizeTrail
  name_ne : name ≠ []
  name_char : ∀ c ∈ name, isSep c = false ∧ c ≠ equals ∧ c ≠ 0
  hex_ne : hex ≠ []
  hex_char : ∀ c ∈ hex, (Upgrade.digitOf c).isSome = true

def hexVal (s : List UInt8) : Nat :=
  s.foldl (fun r c => r * 16 + ((Upgrade.digitOf c).getD 0).toNat) 0

namespace Line

def nameField (l : Line) : List UInt8 := l.lead ++ (l.name ++ l.trail)

def sizeField (l : Line) : List UInt8 := l.sizeLead ++ (l.hex ++ l.sizeTrail)

def text (l : Line) : List UInt8 := l.nameField ++ equals :: l.sizeField

def value (l : Line) : Nat := hexVal l.hex

end Line

structure Record where
  lines : List Line
  final : Bool

def linesText (final : Bool) : List Line → List UInt8
  | [] => []
  | [l] => if final then l.text ++ [newline] else l.text
  | l :: ls => l.text ++ newline :: linesText final ls

def Record.text (r : Record) : List UInt8 := linesText r.final r.lines

def Holds (m : Mem) : Nat → List UInt8 → Prop
  | _, [] => True
  | p, c :: cs => m p = c ∧ Holds m (p + 1) cs

structure Placed (m : Mem) where
  buf : Nat
  record : Record
  holds : Holds m buf record.text

def resizes (cmds : List VolCommand) : List (List UInt8 × Nat) :=
  cmds.filterMap fun
    | .resize name size => some (name, size.toNat)
    | .checkVol _ => none

/-- The call returns, has resized every volume of the record and no other, in
their order, and has not looked behind the record. -/
def Resizes (m : Mem) (pl : Placed m) : Prop :=
  ∃ fuel s, Leads (volumeStep m fuel pl.record.text.length) (start pl.buf) (.ret s) ∧
    resizes s.commands = pl.record.lines.map (fun l => (l.name, l.value)) ∧
    s.used ≤ pl.buf + pl.record.text.length

-- ---------------------------------------------------------------------------
-- Text in memory
-- ---------------------------------------------------------------------------

section

variable {m : Mem}

theorem holds_append (a b : List UInt8) (p : Nat) :
    Holds m p (a ++ b) ↔ Holds m p a ∧ Holds m (p + a.length) b := by
  induction a generalizing p with
  | nil => simp [Holds]
  | cons c a ih =>
    simp only [List.cons_append, Holds, ih, List.length_cons, and_assoc]
    rw [Nat.add_right_comm, Nat.add_assoc p]

theorem slice_of_holds (h : Holds m p s) (n : Nat) : m.slice p (min s.length n) = s.take n := by
  induction s generalizing p n with
  | nil => simp [Mem.slice]
  | cons c s ih =>
    cases n with
    | zero => simp [Mem.slice]
    | succ n =>
      have htail := ih h.2 n
      rw [List.length_cons, Nat.succ_min_succ, Mem.slice, List.range_succ_eq_map, List.map_cons,
        List.map_map, List.take_succ_cons, ← htail]
      simp only [Mem.slice, Nat.add_zero, h.1, List.cons.injEq, true_and]
      apply List.map_congr_left
      intro k _
      simp [Nat.add_assoc, Nat.add_comm 1]

theorem strchr_found (s rest : List UInt8) (hs : c ∉ s ∧ (0 : UInt8) ∉ s)
    (h : Holds m p (s ++ c :: rest)) (fuel : Nat) :
    strchr m c fuel p = if s.length < fuel then some (p + s.length) else none := by
  induction s generalizing p fuel with
  | nil =>
    cases fuel with
    | zero => rfl
    | succ fuel => simp [strchr, h.1]
  | cons x s ih =>
    simp only [List.mem_cons, not_or] at hs
    cases fuel with
    | zero => simp [strchr]
    | succ fuel =>
      have hx : ¬ (m p = c ∨ m p = 0) := by
        rw [h.1]
        exact fun hx => hx.elim (fun e => hs.1.1 e.symm) (fun e => hs.2.1 e.symm)
      rw [strchr, if_neg hx, ih ⟨hs.1.2, hs.2.2⟩ h.2 fuel, List.length_cons]
      simp only [Nat.add_lt_add_iff_right]
      congr 2
      omega

theorem strchr_beyond (s : List UInt8) (hs : c ∉ s ∧ (0 : UInt8) ∉ s) (h : Holds m p s)
    (hr : strchr m c fuel p = some r) : p + s.length ≤ r := by
  induction s generalizing p fuel with
  | nil =>
    clear h
    induction fuel generalizing p with
    | zero => cases hr
    | succ fuel ih =>
      rw [strchr] at hr
      split at hr
      · cases hr
        exact Nat.le_refl _
      · have := ih hr
        simp only [List.length_nil] at this ⊢
        omega
  | cons x s ih =>
    simp only [List.mem_cons, not_or] at hs
    cases fuel with
    | zero => cases hr
    | succ fuel =>
      have hx : ¬ (m p = c ∨ m p = 0) := by
        rw [h.1]
        exact fun hx => hx.elim (fun e => hs.1.1 e.symm) (fun e => hs.2.1 e.symm)
      rw [strchr, if_neg hx] at hr
      have := ih ⟨hs.1.2, hs.2.2⟩ h.2 hr
      rw [List.length_cons]
      omega

end

-- ---------------------------------------------------------------------------
-- Fields
-- ---------------------------------------------------------------------------

theorem isSep_of_isblank (h : isblank c = true) : isSep c = true := by simp [isSep, h]

theorem blank_take (h : Blank s) (n : Nat) : Blank (s.take n) :=
  fun c hc => h c (List.mem_of_mem_take hc)

theorem trim_field (lead word trail : List UInt8) (hl : Blank lead) (ht : Blank trail)
    (hw : ∀ c ∈ word, isSep c = false) : trim (lead ++ (word ++ trail)) = word := by
  have hdrop : (lead ++ (word ++ trail)).dropWhile isSep = (word ++ trail).dropWhile isSep := by
    rw [List.dropWhile_append_of_pos]
    exact fun c hc => isSep_of_isblank (hl c hc)
  have htrail : trail.dropWhile isSep = [] := by
    rw [List.dropWhile_eq_nil_iff]
    exact fun c hc => isSep_of_isblank (ht c hc)
  rw [trim, hdrop]
  cases word with
  | nil => simp [htrail]
  | cons w word =>
    have hhead := hw w List.mem_cons_self
    rw [List.cons_append, List.dropWhile_cons_of_neg (by simp [hhead]), ← List.cons_append,
      List.takeWhile_append_of_pos]
    · cases trail with
      | nil => simp
      | cons t trail => simp [isSep_of_isblank (ht t List.mem_cons_self)]
    · exact fun c hc => by simp [hw c hc]

theorem trim_take (lead word trail : List UInt8) (hl : Blank lead) (ht : Blank trail)
    (hw : ∀ c ∈ word, isSep c = false) (n : Nat) :
    trim ((lead ++ (word ++ trail)).take n) = word.take (n - lead.length) := by
  rw [List.take_append, List.take_append]
  exact trim_field _ _ _ (blank_take hl n) (blank_take ht _)
    fun c hc => hw c (List.mem_of_mem_take hc)

theorem blank_char (h : isblank c = true) : c ≠ equals ∧ c ≠ newline ∧ c ≠ 0 := by
  simp only [isblank, Bool.or_eq_true, beq_iff_eq] at h
  rcases h with rfl | rfl <;> decide

theorem digit_char (h : (Upgrade.digitOf c).isSome = true) :
    isSep c = false ∧ c ≠ newline ∧ c ≠ 0 := by
  refine ⟨?_, ?_, ?_⟩
  · by_contra hsep
    simp only [Bool.not_eq_false, isSep, isblank, Bool.or_eq_true, beq_iff_eq] at hsep
    rcases hsep with (rfl | rfl) | rfl <;> revert h <;> decide
  · rintro rfl
    revert h
    decide
  · rintro rfl
    revert h
    decide

namespace Line

variable (l : Line)

theorem nameField_clean : equals ∉ l.nameField ∧ (0 : UInt8) ∉ l.nameField := by
  have h : ∀ c ∈ l.nameField, c ≠ equals ∧ c ≠ 0 := by
    simp only [nameField, List.mem_append]
    rintro c (hc | hc | hc)
    · exact ⟨(blank_char (l.blank.1 c hc)).1, (blank_char (l.blank.1 c hc)).2.2⟩
    · exact (l.name_char c hc).2
    · exact ⟨(blank_char (l.blank.2.1 c hc)).1, (blank_char (l.blank.2.1 c hc)).2.2⟩
  exact ⟨fun hm => (h _ hm).1 rfl, fun hm => (h _ hm).2 rfl⟩

theorem sizeField_clean : newline ∉ l.sizeField ∧ (0 : UInt8) ∉ l.sizeField := by
  have h : ∀ c ∈ l.sizeField, c ≠ newline ∧ c ≠ 0 := by
    simp only [sizeField, List.mem_append]
    rintro c (hc | hc | hc)
    · exact (blank_char (l.blank.2.2.1 c hc)).2
    · exact (digit_char (l.hex_char c hc)).2
    · exact (blank_char (l.blank.2.2.2 c hc)).2
  exact ⟨fun hm => (h _ hm).1 rfl, fun hm => (h _ hm).2 rfl⟩

def keptName : List UInt8 := l.name.take (127 - l.lead.length)

def keptHex : List UInt8 := l.hex.take (127 - l.sizeLead.length)

def commands : List VolCommand :=
  [.checkVol l.keptName, .resize l.keptName (Upgrade.simpleStrtoul l.keptHex 16)]

theorem length_text : l.text.length = l.nameField.length + 1 + l.sizeField.length := by
  simp only [text, List.length_append, List.length_cons]
  omega

theorem sizeField_pos : 0 < l.sizeField.length := by
  have := List.length_pos_iff.mpr l.hex_ne
  simp only [sizeField, List.length_append]
  omega

theorem field_name (h : Holds m p l.nameField) : field m p l.nameField.length = l.keptName := by
  rw [field, slice_of_holds h]
  exact trim_take _ _ _ l.blank.1 l.blank.2.1 (fun c hc => (l.name_char c hc).1) 127

theorem field_size (h : Holds m p l.sizeField) : field m p l.sizeField.length = l.keptHex := by
  rw [field, slice_of_holds h]
  exact trim_take _ _ _ l.blank.2.2.1 l.blank.2.2.2
    (fun c hc => (digit_char (l.hex_char c hc)).1) 127

end Line

-- ---------------------------------------------------------------------------
-- One line
-- ---------------------------------------------------------------------------

def State.after (s : State) (l : Line) : State where
  offset := s.offset + (l.text.length + 1)
  strPtr := s.strPtr + (l.text.length + 1)
  commands := s.commands ++ l.commands
  used := max s.used (s.strPtr + (l.text.length + 1))

theorem step_line (l : Line) (s : State) (rest : List UInt8)
    (h : Holds m s.strPtr (l.text ++ newline :: rest)) (fuel : Nat)
    (hlen : s.offset + l.text.length < bufSize) :
    volumeStep m fuel bufSize s =
      if l.nameField.length < fuel ∧ l.sizeField.length < fuel then .next (s.after l)
      else .halt () := by
  have htext := l.length_text
  have hname : Holds m s.strPtr (l.nameField ++ equals :: (l.sizeField ++ newline :: rest)) := by
    simpa [Line.text] using h
  obtain ⟨hfield, heq, hsize⟩ := (holds_append _ _ _).mp hname
  rw [volumeStep, if_pos (by omega), strchr_found _ _ l.nameField_clean hname]
  by_cases hf : l.nameField.length < fuel
  · rw [if_pos hf]
    simp only [hf, true_and, heq, ne_eq, not_true_eq_false, if_false, Nat.add_sub_cancel_left,
      l.field_name hfield]
    rw [if_neg (by omega), strchr_found _ _ l.sizeField_clean hsize]
    by_cases hf' : l.sizeField.length < fuel
    · obtain ⟨hsf, hnl, -⟩ := (holds_append _ _ _).mp hsize
      rw [if_pos hf', if_pos hf']
      simp only [hnl, if_true, Nat.add_sub_cancel_left, l.field_size hsf]
      simp only [State.after, Line.commands, htext, Outcome.next.injEq, State.mk.injEq, true_and]
      refine ⟨?_, ?_, ?_⟩ <;> omega
    · rw [if_neg hf', if_neg hf']
  · rw [if_neg hf, if_neg fun h => hf h.1]

theorem step_last (l : Line) (s : State) (h : Holds m s.strPtr l.text)
    (hlen : s.offset + l.text.length = bufSize) (fuel : Nat) :
    volumeStep m fuel bufSize s = .halt () ∨
      ∃ s', volumeStep m fuel bufSize s = .next s' ∧ s.strPtr + l.text.length < s'.used := by
  have htext := l.length_text
  have hpos := l.sizeField_pos
  obtain ⟨-, heq, hsize⟩ := (holds_append _ _ _).mp h
  rw [volumeStep, if_pos (by omega), strchr_found _ _ l.nameField_clean h]
  by_cases hf : l.nameField.length < fuel
  · rw [if_pos hf]
    simp only [heq, ne_eq, not_true_eq_false, if_false, Nat.add_sub_cancel_left]
    rw [if_neg (by omega)]
    cases hr : strchr m newline fuel (s.strPtr + l.nameField.length + 1) with
    | none => exact .inl rfl
    | some r =>
      have hbeyond := strchr_beyond _ l.sizeField_clean hsize hr
      refine .inr ⟨_, rfl, ?_⟩
      dsimp only
      omega
  · rw [if_neg hf]
    exact .inl rfl

theorem step_used (h : volumeStep m fuel bufSize s = .next s' ∨
    volumeStep m fuel bufSize s = .ret s') : s.used ≤ s'.used := by
  unfold volumeStep at h
  split at h
  · cases h1 : strchr m equals fuel s.strPtr with
    | none => simp [h1] at h
    | some pat =>
      simp only [h1] at h
      split at h
      · simp only [Outcome.ret.injEq, reduceCtorEq, false_or] at h
        subst h
        exact Nat.le_max_left _ _
      · split at h
        · simp only [Outcome.ret.injEq, reduceCtorEq, false_or] at h
          subst h
          exact Nat.le_max_left _ _
        · cases h2 : strchr m newline fuel (pat + 1) with
          | none => simp [h2] at h
          | some pat' =>
            simp only [h2, Outcome.next.injEq, reduceCtorEq, or_false] at h
            subst h
            dsimp only
            omega
  · simp only [Outcome.ret.injEq, reduceCtorEq, false_or] at h
    subst h
    exact Nat.le_refl _

theorem leads_used (h : Leads (volumeStep m fuel bufSize) s (.ret t)) : s.used ≤ t.used := by
  obtain ⟨s', hs', hret⟩ := h.last rfl
  have hle : s.used ≤ s'.used :=
    hs'.inv (fun x => s.used ≤ x.used) (Nat.le_refl _)
      fun a b ha hab => Nat.le_trans ha (step_used (.inl hab))
  exact Nat.le_trans hle (step_used (.inr hret))

-- ---------------------------------------------------------------------------
-- All lines that end in a newline
-- ---------------------------------------------------------------------------

def terminated (ls : List Line) : List UInt8 := ls.flatMap fun l => l.text ++ [newline]

theorem terminated_cons (l : Line) (ls : List Line) (rest : List UInt8) :
    terminated (l :: ls) ++ rest = l.text ++ newline :: (terminated ls ++ rest) := by
  simp [terminated]

theorem length_terminated_cons (l : Line) (ls : List Line) :
    (terminated (l :: ls)).length = l.text.length + 1 + (terminated ls).length := by
  simp only [terminated, List.flatMap_cons, List.length_append, List.length_singleton]

theorem foldl_after (ls : List Line) (s : State) :
    (ls.foldl State.after s).offset = s.offset + (terminated ls).length ∧
    (ls.foldl State.after s).strPtr = s.strPtr + (terminated ls).length ∧
    (ls.foldl State.after s).commands = s.commands ++ ls.flatMap Line.commands ∧
    (ls.foldl State.after s).used ≤ max s.used (s.strPtr + (terminated ls).length) := by
  induction ls generalizing s with
  | nil =>
    simp only [terminated, List.flatMap_nil, List.foldl_nil, List.length_nil, Nat.add_zero,
      List.append_nil, true_and]
    exact Nat.le_max_left _ _
  | cons l ls ih =>
    obtain ⟨h1, h2, h3, h4⟩ := ih (s.after l)
    rw [List.foldl_cons, h1, h2, h3, length_terminated_cons]
    refine ⟨?_, ?_, ?_, ?_⟩
    · simp only [State.after]
      omega
    · simp only [State.after]
      omega
    · simp [State.after]
    · simp only [State.after] at h4 ⊢
      omega

theorem run_lines (ls : List Line) (s : State) (rest : List UInt8)
    (h : Holds m s.strPtr (terminated ls ++ rest))
    (hlen : s.offset + (terminated ls).length ≤ bufSize) (hf : (terminated ls).length ≤ fuel) :
    Leads (volumeStep m fuel bufSize) s (.next (ls.foldl State.after s)) := by
  induction ls generalizing s with
  | nil => exact .refl s
  | cons l ls ih =>
    have hcons := length_terminated_cons l ls
    have htext := l.length_text
    rw [terminated_cons] at h
    have hlt : s.offset + l.text.length < bufSize := by omega
    have hstep := step_line l s _ h fuel hlt
    rw [if_pos ⟨by omega, by omega⟩] at hstep
    have hrest : Holds m (s.after l).strPtr (terminated ls ++ rest) := by
      have := ((holds_append _ _ _).mp h).2.2
      rwa [Nat.add_assoc] at this
    refine .head hstep (ih (s.after l) hrest ?_ (by omega))
    simp only [State.after]
    omega

/-- However long the searches are given, a call that returns has been through
all of these lines. -/
theorem ret_lines (ls : List Line) (s : State) (rest : List UInt8)
    (h : Holds m s.strPtr (terminated ls ++ rest))
    (hlen : s.offset + (terminated ls).length ≤ bufSize)
    (hret : Leads (volumeStep m fuel bufSize) s (.ret t)) :
    Leads (volumeStep m fuel bufSize) (ls.foldl State.after s) (.ret t) := by
  induction ls generalizing s with
  | nil => exact hret
  | cons l ls ih =>
    have hcons := length_terminated_cons l ls
    rw [terminated_cons] at h
    have hlt : s.offset + l.text.length < bufSize := by omega
    have hstep := step_line l s _ h fuel hlt
    split at hstep
    · have hrest : Holds m (s.after l).strPtr (terminated ls ++ rest) := by
        have := ((holds_append _ _ _).mp h).2.2
        rwa [Nat.add_assoc] at this
      refine ih (s.after l) hrest ?_ (.rest (.one hstep) hret rfl)
      simp only [State.after]
      omega
    · cases hret.unique (.one hstep) rfl rfl

-- ---------------------------------------------------------------------------
-- Values
-- ---------------------------------------------------------------------------

theorem digit_lt {v : UInt32} (h : Upgrade.digitOf c = some v) : v < 16 := by
  have hall : ∀ c : Fin 256, (Upgrade.digitOf (UInt8.ofNat c)).all (· < 16) = true := by
    decide +kernel
  have hc := hall ⟨c.toNat, c.toNat_lt⟩
  rw [UInt8.ofNat_toNat, h] at hc
  exact of_decide_eq_true hc

theorem digits_hex (s : List UInt8) (hs : ∀ c ∈ s, (Upgrade.digitOf c).isSome = true) (r : Nat) :
    Upgrade.digits 16 (UInt32.ofNat r) s =
      UInt32.ofNat (s.foldl (fun r c => r * 16 + ((Upgrade.digitOf c).getD 0).toNat) r) := by
  induction s generalizing r with
  | nil => rfl
  | cons c s ih =>
    simp only [List.mem_cons, forall_eq_or_imp] at hs
    obtain ⟨v, hv⟩ := Option.isSome_iff_exists.mp hs.1
    rw [Upgrade.digits, hv]
    dsimp only
    rw [if_pos (digit_lt hv), List.foldl_cons, hv, ← ih hs.2]
    simp [UInt32.ofNat_add, UInt32.ofNat_mul]

theorem simpleStrtoul_hex (s : List UInt8) (hs : ∀ c ∈ s, (Upgrade.digitOf c).isSome = true) :
    (Upgrade.simpleStrtoul s 16).toNat = hexVal s % 2 ^ 32 := by
  have hdigits : Upgrade.simpleStrtoul s 16 = Upgrade.digits 16 0 s := by
    unfold Upgrade.simpleStrtoul
    split
    · rename_i x cs
      have hx := hs x (by simp)
      rw [if_neg]
      rintro ⟨-, rfl | rfl⟩ <;> revert hx <;> decide
    · rfl
  rw [hdigits]
  have h := digits_hex s hs 0
  rw [show (0 : UInt32) = UInt32.ofNat 0 from rfl, h, UInt32.toNat_ofNat']
  rfl

theorem hexVal_append (a b : List UInt8) :
    hexVal (a ++ b) = hexVal a * 16 ^ b.length + hexVal b := by
  suffices h : ∀ r, b.foldl (fun r c => r * 16 + ((Upgrade.digitOf c).getD 0).toNat) r =
      r * 16 ^ b.length + hexVal b by
    rw [hexVal, List.foldl_append]
    exact h _
  induction b with
  | nil => simp [hexVal]
  | cons c b ih =>
    intro r
    have hc : hexVal (c :: b) = ((Upgrade.digitOf c).getD 0).toNat * 16 ^ b.length + hexVal b := by
      rw [hexVal, List.foldl_cons, ih]
      simp
    rw [List.foldl_cons, ih, hc, List.length_cons, Nat.pow_succ']
    ring

theorem hexVal_take (s : List UInt8) (n : Nat) :
    hexVal (s.take n) = hexVal s ↔ s.length ≤ n ∨ hexVal s = 0 := by
  rcases Nat.lt_or_ge n s.length with h | h
  · have happ := hexVal_append (s.take n) (s.drop n)
    rw [List.take_append_drop, List.length_drop] at happ
    obtain ⟨k, hk⟩ : ∃ k, s.length - n = k + 1 := ⟨s.length - n - 1, by omega⟩
    rw [hk, Nat.pow_succ'] at happ
    have hpow : 16 ≤ 16 * 16 ^ k := Nat.le_mul_of_pos_right 16 (Nat.pow_pos (by decide))
    have hmul := Nat.mul_le_mul_left (hexVal (s.take n)) hpow
    omega
  · simp [List.take_of_length_le h, h]

/-- The name with its blanks fits its buffer, the digits fit theirs unless they
are all zero, and the value fits 32 bits. -/
structure Line.Fits (l : Line) : Prop where
  name : l.lead.length + l.name.length ≤ 127
  hex : l.sizeLead.length + l.hex.length ≤ 127 ∨ l.value = 0
  value : l.value < 2 ^ 32

theorem Line.keptName_iff (l : Line) :
    l.keptName = l.name ↔ l.lead.length + l.name.length ≤ 127 := by
  have hpos := List.length_pos_iff.mpr l.name_ne
  rw [Line.keptName]
  constructor
  · intro h
    have := congrArg List.length h
    rw [List.length_take] at this
    omega
  · intro h
    exact List.take_of_length_le (by omega)

theorem Line.size_iff (l : Line) : (Upgrade.simpleStrtoul l.keptHex 16).toNat = l.value ↔
    (l.sizeLead.length + l.hex.length ≤ 127 ∨ l.value = 0) ∧ l.value < 2 ^ 32 := by
  have hpos := List.length_pos_iff.mpr l.hex_ne
  have hkept : ∀ c ∈ l.keptHex, (Upgrade.digitOf c).isSome = true :=
    fun c hc => l.hex_char c (List.mem_of_mem_take hc)
  have hle : hexVal l.keptHex ≤ l.value := by
    have happ := hexVal_append l.keptHex (l.hex.drop (127 - l.sizeLead.length))
    rw [Line.keptHex, List.take_append_drop] at happ
    have := Nat.le_mul_of_pos_right (hexVal l.keptHex)
      (Nat.pow_pos (n := (l.hex.drop (127 - l.sizeLead.length)).length) (show 0 < 16 by decide))
    unfold Line.value
    rw [Line.keptHex] at this ⊢
    omega
  have htake := hexVal_take l.hex (127 - l.sizeLead.length)
  rw [simpleStrtoul_hex _ hkept]
  constructor
  · intro h
    have hlt : l.value < 2 ^ 32 := by omega
    rw [Nat.mod_eq_of_lt (by omega)] at h
    refine ⟨?_, hlt⟩
    rcases htake.mp h with h | h
    · exact .inl (by omega)
    · exact .inr h
  · rintro ⟨h, hlt⟩
    rw [Nat.mod_eq_of_lt (by omega)]
    exact htake.mpr (h.imp_left fun h => by omega)

theorem resizes_commands (ls : List Line) : resizes (ls.flatMap Line.commands) =
    ls.map fun l => (l.keptName, (Upgrade.simpleStrtoul l.keptHex 16).toNat) := by
  induction ls with
  | nil => rfl
  | cons l ls ih =>
    have happ : ∀ a b, resizes (a ++ b) = resizes a ++ resizes b := fun a b =>
      List.filterMap_append
    rw [List.flatMap_cons, happ, ih]
    rfl

theorem resizes_iff (ls : List Line) :
    resizes (ls.flatMap Line.commands) = ls.map (fun l => (l.name, l.value)) ↔
      ∀ l ∈ ls, l.Fits := by
  rw [resizes_commands, List.map_inj_left]
  refine forall₂_congr fun l _ => ?_
  rw [Prod.mk.injEq, l.keptName_iff, l.size_iff]
  exact ⟨fun h => ⟨h.1, h.2.1, h.2.2⟩, fun h => ⟨h.name, h.hex, h.value⟩⟩

-- ---------------------------------------------------------------------------
-- Whole records
-- ---------------------------------------------------------------------------

theorem linesText_true (ls : List Line) : linesText true ls = terminated ls := by
  induction ls with
  | nil => rfl
  | cons l ls ih =>
    cases ls with
    | nil => simp [linesText, terminated]
    | cons l' ls => simpa [linesText, terminated] using ih

theorem linesText_false (ls : List Line) (l : Line) :
    linesText false (ls ++ [l]) = terminated ls ++ l.text := by
  induction ls with
  | nil => simp [linesText, terminated]
  | cons l' ls ih =>
    obtain ⟨a, as, has⟩ : ∃ a as, ls ++ [l] = a :: as := by
      cases ls with
      | nil => exact ⟨l, [], rfl⟩
      | cons a as => exact ⟨a, as ++ [l], rfl⟩
    rw [List.cons_append, has, linesText, ← has, ih]
    · simp [terminated]
    · simp

theorem step_end (m : Mem) (fuel : Nat) (h : bufSize ≤ s.offset) :
    volumeStep m fuel bufSize s = .ret s :=
  if_neg (Nat.not_lt_of_le h)

theorem resizes_of_terminated (pl : Placed m) (ht : pl.record.text = terminated pl.record.lines) :
    Resizes m pl ↔ ∀ l ∈ pl.record.lines, l.Fits := by
  have hholds : Holds m (start pl.buf).strPtr (terminated pl.record.lines ++ []) := by
    rw [List.append_nil, ← ht]
    exact pl.holds
  have hlen : (start pl.buf).offset + (terminated pl.record.lines).length ≤
      pl.record.text.length := by
    rw [ht]
    simp [start]
  obtain ⟨hoff, -, hcmd, hused⟩ := foldl_after pl.record.lines (start pl.buf)
  have hover : pl.record.text.length ≤
      (pl.record.lines.foldl State.after (start pl.buf)).offset := by
    rw [hoff, ht]
    simp [start]
  have hend (fuel : Nat) := step_end m fuel hover
  have hcmd : (pl.record.lines.foldl State.after (start pl.buf)).commands =
      pl.record.lines.flatMap Line.commands := by simpa [start] using hcmd
  constructor
  · rintro ⟨fuel, s, hret, hres, -⟩
    have hs := (ret_lines _ _ _ hholds hlen hret).unique (.one (hend fuel)) rfl rfl
    cases hs
    rw [hcmd] at hres
    exact (resizes_iff _).mp hres
  · intro hfits
    refine ⟨(terminated pl.record.lines).length, _,
      (run_lines _ _ _ hholds hlen (Nat.le_refl _)).trans (.one (hend _)), ?_, ?_⟩
    · rw [hcmd]
      exact (resizes_iff _).mpr hfits
    · rw [ht]
      simpa [start] using hused

theorem not_resizes_of_open (pl : Placed m) (ls : List Line) (l : Line)
    (hl : pl.record.lines = ls ++ [l]) (hf : pl.record.final = false) : ¬ Resizes m pl := by
  rintro ⟨fuel, s, hret, -, hused⟩
  have ht : pl.record.text = terminated ls ++ l.text := by
    rw [Record.text, hl, hf, linesText_false]
  have hholds : Holds m (start pl.buf).strPtr (terminated ls ++ l.text) := ht ▸ pl.holds
  have hlen : (start pl.buf).offset + (terminated ls).length ≤ pl.record.text.length := by
    rw [ht]
    simp [start]
  obtain ⟨hoff, hptr, -, -⟩ := foldl_after ls (start pl.buf)
  have hlast := ret_lines ls _ _ hholds hlen hret
  have hline : Holds m (ls.foldl State.after (start pl.buf)).strPtr l.text := by
    rw [hptr]
    exact ((holds_append _ _ _).mp hholds).2
  have hall : (ls.foldl State.after (start pl.buf)).offset + l.text.length =
      pl.record.text.length := by
    rw [hoff, ht]
    simp [start]
  have hstep := step_last l _ hline hall fuel
  rcases hstep with hhalt | ⟨s', hnext, hs'⟩
  · cases hlast.unique (.one hhalt) rfl rfl
  · have hmono := leads_used (Leads.rest (.one hnext) hlast rfl)
    rw [hptr] at hs'
    simp only [ht, List.length_append, start] at hused hs'
    omega

theorem volume_modify_iff (pl : Placed m) :
    Resizes m pl ↔
      (pl.record.lines = [] ∨ pl.record.final = true) ∧ ∀ l ∈ pl.record.lines, l.Fits := by
  by_cases hfinal : pl.record.lines = [] ∨ pl.record.final = true
  · have ht : pl.record.text = terminated pl.record.lines := by
      unfold Record.text
      rcases hfinal with h | h
      · rw [h]
        rfl
      · rw [h, linesText_true]
    rw [resizes_of_terminated pl ht]
    simp [hfinal]
  · have hne : pl.record.lines ≠ [] := fun h => hfinal (.inl h)
    have hopen : pl.record.final = false := by
      cases h : pl.record.final with
      | false => rfl
      | true => exact absurd (.inr h) hfinal
    refine iff_of_false ?_ fun h => hfinal h.1
    exact not_resizes_of_open pl _ _ (List.dropLast_append_getLast hne).symm hopen

theorem blank_nil : Blank [] := fun _ hc => absurd hc List.not_mem_nil

def openLine : Line where
  lead := []
  name := [0x61]
  trail := []
  sizeLead := []
  hex := [0x31, 0x66]
  sizeTrail := []
  blank := ⟨blank_nil, blank_nil, blank_nil, blank_nil⟩
  name_ne := List.cons_ne_nil _ _
  name_char := by
    simp only [List.mem_singleton, forall_eq]
    decide
  hex_ne := List.cons_ne_nil _ _
  hex_char := by
    simp only [List.mem_cons, List.not_mem_nil, or_false, forall_eq_or_imp, forall_eq]
    decide

def openMem : Mem := fun a => [0x61, 0x3d, 0x31, 0x66].getD a 0

theorem openMem_holds : Holds openMem 0 (linesText false [openLine]) := by
  simp only [linesText, Bool.false_eq_true, if_false]
  exact ⟨rfl, rfl, rfl, rfl, trivial⟩

def openPlaced : Placed openMem := ⟨0, ⟨[openLine], false⟩, openMem_holds⟩

theorem open_line_resized_to_1 :
    run (volumeStep openMem 8 4) 2 (start 0) =
        .ret ⟨4, 1, [.checkVol [0x61], .resize [0x61] 1], 5⟩ ∧
      ¬ Resizes openMem openPlaced :=
  ⟨by decide, not_resizes_of_open openPlaced [] openLine rfl rfl⟩

end BismarckPreloader.Volumes
