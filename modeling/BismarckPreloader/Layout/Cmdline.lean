import Mathlib.Algebra.GroupWithZero.Nat
import Mathlib.Data.List.Basic
import Mathlib.Data.List.Forall2

/-!
# The kernel's reading of `mtdparts`

The grammar by which the kernel reads the flash layout from its command line: after
`mtdparts=` and the name of the device, a comma-separated list of
`size[@offset][(name)][ro]`, with the multipliers K, M and G. This is what the text of
`swp_flash_layout_to_mtdparts` is for; the grammar is stated here on its own.
-/

namespace BismarckPreloader.Layout

structure MtdPart where
  size : Nat
  offset : Option Nat
  name : Option (List Char)
  ro : Bool
  deriving DecidableEq, Repr

structure Mtd where
  base : Nat
  size : Nat
  name : Option (List Char)
  deriving DecidableEq, Repr

namespace Cmdline

def number (t : List Char) : Option (Nat × List Char) :=
  if t.takeWhile Char.isDigit = [] then none
  else some (Nat.ofDigitChars 10 (t.takeWhile Char.isDigit) 0, t.dropWhile Char.isDigit)

def multiplier (c : Char) : Option Nat :=
  if c = 'G' ∨ c = 'g' then some (2 ^ 30)
  else if c = 'M' ∨ c = 'm' then some (2 ^ 20)
  else if c = 'K' ∨ c = 'k' then some (2 ^ 10)
  else none

def memparse (t : List Char) : Option (Nat × List Char) :=
  (number t).map fun r =>
    match r.2.head?.bind multiplier with
    | some m => (r.1 * m, r.2.tail)
    | none => r

def offset (t : List Char) : Option (Option Nat × List Char) :=
  if t.head? = some '@' then (memparse t.tail).map fun r => (some r.1, r.2)
  else some (none, t)

def name (t : List Char) : Option (Option (List Char) × List Char) :=
  if t.head? = some '(' then
    if ')' ∈ t then some (some (t.tail.takeWhile (· ≠ ')')), (t.tail.dropWhile (· ≠ ')')).tail)
    else none
  else some (none, t)

def readOnly (t : List Char) : Option Bool :=
  if t = [] then some false else if t = ['r', 'o'] then some true else none

def part (t : List Char) : Option MtdPart :=
  (memparse t).bind fun s =>
  (offset s.2).bind fun o =>
  (name o.2).bind fun n =>
  (readOnly n.2).map fun ro => ⟨s.1, o.1, n.1, ro⟩

def parts (t : List Char) : Option (List MtdPart) :=
  if t = [] then some [] else (t.splitOn ',').mapM part

/-- The partitions that a list of items stands for. A missing offset means the end of the
previous partition, which is at `cur`. -/
def place (cur : Nat) : List MtdPart → List Mtd
  | [] => []
  | m :: ms =>
    let base := m.offset.getD cur
    ⟨base, m.size, m.name⟩ :: place (base + m.size) ms

def mtdpartsKey : List Char := ['m', 't', 'd', 'p', 'a', 'r', 't', 's']

def mtdparts (line : List Char) : Option (List Mtd) :=
  let word := line.takeWhile (· ≠ ' ')
  if word.takeWhile (· ≠ '=') = mtdpartsKey then
    (parts (word.dropWhile (· ≠ ':')).tail).map (place 0)
  else none

def rootKey : List Char := [' ', 'r', 'o', 'o', 't', '=', '3', '1', ':']

def rootNumber (line : List Char) : Option Nat :=
  let rest := line.dropWhile (· ≠ ' ')
  if rest.take rootKey.length = rootKey then (number (rest.drop rootKey.length)).map Prod.fst
  else none

def Ends (t : List Char) : Prop :=
  ∀ c ∈ t.head?, c.isDigit = false ∧ multiplier c = none

theorem number_toDigits (n : Nat) {t : List Char} (h : ∀ c ∈ t.head?, c.isDigit = false) :
    number (Nat.toDigits 10 n ++ t) = some (n, t) := by
  have hd : ∀ c ∈ Nat.toDigits 10 n, c.isDigit = true :=
    fun c hc => Nat.isDigit_of_mem_toDigits (by decide) (by decide) hc
  have ht : t.takeWhile Char.isDigit = [] ∧ t.dropWhile Char.isDigit = t := by
    cases t with
    | nil => simp
    | cons c t => simp [h c (by simp)]
  rw [number, List.takeWhile_append_of_pos hd, List.dropWhile_append_of_pos hd, ht.1, ht.2,
    List.append_nil, if_neg Nat.toDigits_ne_nil, Nat.ofDigitChars_ten_toDigits]

theorem memparse_scaled (n : Nat) {c : Char} {m : Nat} (hc : multiplier c = some m)
    (hd : c.isDigit = false) (t : List Char) :
    memparse (Nat.toDigits 10 n ++ c :: t) = some (n * m, t) := by
  rw [memparse, number_toDigits n (by simpa using hd)]
  simp [hc]

theorem memparse_plain (n : Nat) {t : List Char} (h : Ends t) :
    memparse (Nat.toDigits 10 n ++ t) = some (n, t) := by
  rw [memparse, number_toDigits n fun c hc => (h c hc).1]
  cases t with
  | nil => simp
  | cons c t => simp [(h c (by simp)).2]

theorem name_bracketed {w : List Char} (h : ')' ∉ w) (t : List Char) :
    name ('(' :: w ++ ')' :: t) = some (some w, t) := by
  have hw : ∀ c ∈ w, decide (c ≠ ')') = true := by
    intro c hc
    exact decide_eq_true fun hcc => h (hcc ▸ hc)
  rw [name, if_pos (by simp), if_pos (by simp)]
  simp only [List.cons_append, List.tail_cons, List.takeWhile_append_of_pos hw,
    List.dropWhile_append_of_pos hw]
  simp

-- ---------------------------------------------------------------------------
-- Lists of items
-- ---------------------------------------------------------------------------

structure Item (t : List Char) (m : MtdPart) : Prop where
  reads : part t = some m
  plain : ∀ c ∈ t, c ≠ ',' ∧ c ≠ ' '

theorem Item.ne_nil {t : List Char} {m : MtdPart} (h : Item t m) : t ≠ [] := by
  rintro rfl
  have := h.reads
  simp [part, memparse, number] at this

theorem Item.no_comma {t : List Char} {m : MtdPart} (h : Item t m) : ',' ∉ t :=
  fun hc => (h.plain ',' hc).1 rfl

def listed (ts : List (List Char)) : List Char := ts.flatMap (· ++ [','])

def joined (ts : List (List Char)) : List Char := (listed ts).dropLast

theorem joined_cons_cons (t u : List Char) (ts : List (List Char)) :
    joined (t :: u :: ts) = t ++ ',' :: joined (u :: ts) := by
  have h : listed (u :: ts) ≠ [] := by simp [listed]
  have hsplit : listed (t :: u :: ts) = (t ++ [',']) ++ listed (u :: ts) := by simp [listed]
  rw [joined, hsplit, List.dropLast_append_of_ne_nil h]
  simp [joined]

theorem joined_singleton (t : List Char) : joined [t] = t := by simp [joined, listed]

theorem joined_ne_nil {t : List Char} (h : t ≠ []) (ts : List (List Char)) :
    joined (t :: ts) ≠ [] := by
  cases ts with
  | nil => rwa [joined_singleton]
  | cons u ts => rw [joined_cons_cons]; simp

theorem plain_listed {ts : List (List Char)} {ms : List MtdPart}
    (h : List.Forall₂ Item ts ms) : ∀ c ∈ listed ts, c ≠ ' ' := by
  induction h with
  | nil => simp [listed]
  | @cons t m ts ms ht _ ih =>
    intro c hc
    rw [listed, List.flatMap_cons, ← listed, List.mem_append, List.mem_append,
      List.mem_singleton] at hc
    rcases hc with (hc | rfl) | hc
    · exact (ht.plain c hc).2
    · decide
    · exact ih c hc

theorem plain_joined {ts : List (List Char)} {ms : List MtdPart}
    (h : List.Forall₂ Item ts ms) : ∀ c ∈ joined ts, c ≠ ' ' :=
  fun c hc => plain_listed h c (List.dropLast_subset _ hc)

theorem parts_joined {ts : List (List Char)} {ms : List MtdPart}
    (h : List.Forall₂ Item ts ms) : parts (joined ts) = some ms := by
  have hmap : ∀ {t : List Char} {m : MtdPart} {ts ms}, Item t m → List.Forall₂ Item ts ms →
      ((joined (t :: ts)).splitOn ',').mapM part = some (m :: ms) := by
    intro t m ts ms ht hts
    induction hts generalizing t m with
    | nil =>
      rw [joined_singleton, List.splitOn_eq_singleton ht.no_comma]
      simp [ht.reads]
    | cons hu _ ih =>
      rw [joined_cons_cons, List.splitOn_append_cons_self_of_not_mem ht.no_comma, List.mapM_cons,
        ht.reads, ih hu]
      rfl
  cases h with
  | nil => rfl
  | @cons t m ts ms ht hts =>
    rw [parts, if_neg (joined_ne_nil ht.ne_nil ts), hmap ht hts]

theorem plain_key : ∀ c ∈ mtdpartsKey, c ≠ ' ' ∧ c ≠ '=' ∧ c ≠ ':' := by
  simp [mtdpartsKey]

/-- A line with the layout of a device in its first word. `tail` is empty or begins with the
blank that ends the word. -/
theorem mtdparts_line {dev : List Char} (hdev : ∀ c ∈ dev, c ≠ ' ' ∧ c ≠ ':')
    {ts : List (List Char)} {ms : List MtdPart} (h : List.Forall₂ Item ts ms)
    {tail : List Char} (htail : ∀ c ∈ tail.head?, c = ' ') :
    mtdparts (mtdpartsKey ++ '=' :: dev ++ ':' :: joined ts ++ tail) = some (place 0 ms) := by
  have hword : (mtdpartsKey ++ '=' :: dev ++ ':' :: joined ts ++ tail).takeWhile (· ≠ ' ')
      = mtdpartsKey ++ '=' :: dev ++ ':' :: joined ts := by
    have hpos : ∀ c ∈ mtdpartsKey ++ '=' :: dev ++ ':' :: joined ts,
        decide (c ≠ ' ') = true := by
      intro c hc
      simp only [List.mem_append, List.mem_cons] at hc
      rcases hc with (hc | rfl | hc) | rfl | hc
      · exact decide_eq_true (plain_key c hc).1
      · decide
      · exact decide_eq_true (hdev c hc).1
      · decide
      · exact decide_eq_true (plain_joined h c hc)
    rw [List.takeWhile_append_of_pos hpos]
    cases tail with
    | nil => simp
    | cons c tail => simp [htail c (by simp)]
  have hkey : ∀ c ∈ mtdpartsKey, decide (c ≠ '=') = true :=
    fun c hc => decide_eq_true (plain_key c hc).2.1
  have hcolon : ∀ c ∈ mtdpartsKey ++ '=' :: dev, decide (c ≠ ':') = true := by
    intro c hc
    simp only [List.mem_append, List.mem_cons] at hc
    rcases hc with hc | rfl | hc
    · exact decide_eq_true (plain_key c hc).2.2
    · decide
    · exact decide_eq_true (hdev c hc).2
  have hafter : ((mtdpartsKey ++ '=' :: dev ++ ':' :: joined ts).dropWhile (· ≠ ':')).tail
      = joined ts := by
    rw [List.dropWhile_append_of_pos hcolon]
    simp
  have hbefore : (mtdpartsKey ++ '=' :: dev ++ ':' :: joined ts).takeWhile (· ≠ '=')
      = mtdpartsKey := by
    rw [List.append_assoc, List.takeWhile_append_of_pos hkey]
    simp
  rw [mtdparts, hword, if_pos hbefore, hafter, parts_joined h]
  rfl

theorem rootNumber_line {word : List Char} (hword : ∀ c ∈ word, c ≠ ' ') (n : Nat) :
    rootNumber (word ++ (rootKey ++ Nat.toDigits 10 n)) = some n := by
  have hpos : ∀ c ∈ word, decide (c ≠ ' ') = true := fun c hc => decide_eq_true (hword c hc)
  have hrest : (word ++ (rootKey ++ Nat.toDigits 10 n)).dropWhile (· ≠ ' ')
      = rootKey ++ Nat.toDigits 10 n := by
    rw [List.dropWhile_append_of_pos hpos]
    simp [rootKey]
  rw [rootNumber, hrest]
  have hn := number_toDigits n (t := []) (by simp)
  rw [List.append_nil] at hn
  simp [hn]

theorem place_of_offset {ms : List MtdPart} (h : ∀ m ∈ ms, m.offset.isSome) (cur : Nat) :
    place cur ms = ms.map fun m => ⟨m.offset.getD 0, m.size, m.name⟩ := by
  induction ms generalizing cur with
  | nil => rfl
  | cons m ms ih =>
    obtain ⟨o, ho⟩ := Option.isSome_iff_exists.mp (h m List.mem_cons_self)
    rw [place, List.map_cons, ho, ih fun x hx => h x (List.mem_cons_of_mem _ hx)]
    rfl

end Cmdline

end BismarckPreloader.Layout
