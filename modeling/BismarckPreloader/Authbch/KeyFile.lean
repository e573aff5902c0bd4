import Mathlib.Data.List.TakeWhile
import BismarckPreloader.Lib.Loops

/-!
# The key file

`authbch` can write the keys it has generated to a text file and read them back. Both sides
use arrays of fixed size: a text that does not fit one of them with its terminator is a fault
here, as is the use of an array nothing was stored in. Files are lists of characters; opening
them succeeds.
-/

namespace BismarckPreloader.Authbch.KeyFile

inductive KeyArray where
  | o | line | item | keys | signPk | signSk
  deriving DecidableEq, Repr

inductive KeyFault where
  | overflow (array : KeyArray)
  | uninitialised (array : KeyArray)
  deriving DecidableEq, Repr

/-- The signing keys in `CRYPTO_INFO_T`. -/
structure SignKeys where
  signPk : List UInt8
  signSk : List UInt8
  deriving DecidableEq, Repr

def fits (array : KeyArray) (size : Nat) (s : List Char) : Except KeyFault (List Char) :=
  if s.length + 1 ≤ size then .ok s else .error (.overflow array)

def pk : List Char := ['p', 'k', ':', ' ']
def sk : List Char := ['s', 'k', ':', ' ']

def hexDigit (n : Nat) : Char := if n < 10 then Char.ofNat (48 + n) else Char.ofNat (55 + n)

def hex2 (b : UInt8) : List Char := [hexDigit (b.toNat / 16), hexDigit (b.toNat % 16)]

def sprintf (o s : List Char) : Except KeyFault (List Char) := fits .o 512 (o ++ s)

def sprintfKey (o : List Char) (key : List UInt8) : Except KeyFault (List Char) :=
  key.foldlM (fun o b => sprintf o (hex2 b)) o

def fdtbchGenerateKeyfile (info : SignKeys) : Except KeyFault (List Char) := do
  let o ← sprintf [] pk
  let o ← sprintfKey o info.signPk
  let o ← sprintf o ['\n']
  let o ← sprintf o sk
  sprintfKey o info.signSk

def takeLine : Nat → List Char → List Char × List Char
  | 0, cs => ([], cs)
  | _ + 1, [] => ([], [])
  | n + 1, c :: cs =>
    if c = '\n' then ([c], cs) else (c :: (takeLine n cs).1, (takeLine n cs).2)

theorem length_takeLine_lt (n : Nat) (c : Char) (cs : List Char) :
    (takeLine (n + 1) (c :: cs)).2.length < (c :: cs).length := by
  have hle : ∀ n cs, (takeLine n cs).2.length ≤ cs.length := by
    intro n
    induction n with
    | zero => exact fun cs => Nat.le_refl _
    | succ n ih =>
      intro cs
      cases cs with
      | nil => exact Nat.le_refl _
      | cons c cs =>
        have := ih cs
        simp only [takeLine]
        split
        · simp
        · simp only [List.length_cons]
          omega
  have := hle n cs
  simp only [takeLine]
  split
  · simp
  · simp only [List.length_cons]
    omega

def fgetsLines : List Char → List (List Char)
  | [] => []
  | c :: cs => (takeLine 255 (c :: cs)).1 :: fgetsLines (takeLine 255 (c :: cs)).2
termination_by cs => cs.length
decreasing_by exact length_takeLine_lt 254 c cs

def isSpace (c : Char) : Bool :=
  c = ' ' || c = '\t' || c = '\n' || c = '\x0b' || c = '\x0c' || c = '\x0d'

def scanToken (cs : List Char) : List Char × List Char :=
  let cs := cs.dropWhile isSpace
  (cs.takeWhile (! isSpace ·), cs.dropWhile (! isSpace ·))

def hexValue (c : Char) : Option Nat :=
  if '0' ≤ c ∧ c ≤ '9' then some (c.toNat - 48)
  else if 'A' ≤ c ∧ c ≤ 'F' then some (c.toNat - 55)
  else if 'a' ≤ c ∧ c ≤ 'f' then some (c.toNat - 87)
  else none

/-- `%02hhX` of the two characters of `b`. Signs and the prefix `0x`, which the tool does not
write, are left out. -/
def scanHex (x y : Option Char) : Option UInt8 :=
  match x.bind hexValue, y.bind hexValue with
  | some h, some l => some (UInt8.ofNat (16 * h + l))
  | some h, none => some (UInt8.ofNat h)
  | none, _ => none

-- ---------------------------------------------------------------------------
-- Reading
-- ---------------------------------------------------------------------------

def storeHex (array : KeyArray) (x y : Option Char) (i : Nat) (key : List UInt8) :
    Except KeyFault (List UInt8) :=
  match scanHex x y with
  | none => .ok key
  | some v => if i < key.length then .ok (key.set i v) else .error (.overflow array)

/-- `fdtbch_scan_key`, from byte `i` of the key on. -/
def fdtbchScanKey (array : KeyArray) : List Char → Nat → List UInt8 → Except KeyFault (List UInt8)
  | [], _, key => .ok key
  | [x], i, key => storeHex array (some x) none i key
  | x :: y :: cs, i, key => do
    let key ← storeHex array (some x) (some y) i key
    fdtbchScanKey array cs (i + 1) key

/-- The variables of `fdtbch_import_keyfile`. An array nothing was stored in has no string. -/
structure Importer where
  item : Option (List Char)
  keys : Option (List Char)
  info : SignKeys
  deriving DecidableEq, Repr

def Importer.sscanf (st : Importer) (line : List Char) : Except KeyFault Importer :=
  let first := scanToken line
  if first.1 = [] then .ok st
  else do
    let item ← fits .item 32 first.1
    let second := scanToken first.2
    if second.1 = [] then .ok { st with item := some item }
    else do
      let keys ← fits .keys 128 second.1
      .ok { st with item := some item, keys := some keys }

def stringOf (array : KeyArray) (s : Option (List Char)) : Except KeyFault (List Char) :=
  match s with
  | some s => .ok s
  | none => .error (.uninitialised array)

def Importer.scanItem (st : Importer) : Except KeyFault Importer := do
  let item ← stringOf .item st.item
  if pk.take (pk.length - 2) = item.take (pk.length - 2) then do
    let keys ← stringOf .keys st.keys
    let key ← fdtbchScanKey .signPk keys 0 st.info.signPk
    .ok { st with info := { st.info with signPk := key } }
  else if sk.take (sk.length - 2) = item.take (sk.length - 2) then do
    let keys ← stringOf .keys st.keys
    let key ← fdtbchScanKey .signSk keys 0 st.info.signSk
    .ok { st with info := { st.info with signSk := key } }
  else .ok st

def importLine (st : Importer) (line : List Char) : Except KeyFault Importer := do
  let line ← fits .line 256 line
  let st ← st.sscanf line
  st.scanItem

def fdtbchImportKeyfile (file : List Char) (info : SignKeys) : Except KeyFault SignKeys := do
  let st ← (fgetsLines file).foldlM importLine ⟨none, none, info⟩
  .ok st.info

/-- The file is written and read without a fault, and restores the keys whatever was in their
arrays. -/
def SignKeys.ReadsBack (k : SignKeys) : Prop :=
  ∃ file, fdtbchGenerateKeyfile k = .ok file ∧ ∀ old : SignKeys,
    old.signPk.length = k.signPk.length → old.signSk.length = k.signSk.length →
    fdtbchImportKeyfile file old = .ok k

-- ---------------------------------------------------------------------------
-- The text
-- ---------------------------------------------------------------------------

def hexText (key : List UInt8) : List Char := key.flatMap hex2

def keyText (k : SignKeys) : List Char := pk ++ hexText k.signPk ++ '\n' :: (sk ++ hexText k.signSk)

@[simp] theorem length_hexText (key : List UInt8) : (hexText key).length = 2 * key.length := by
  induction key with
  | nil => rfl
  | cons b key ih =>
    rw [hexText, List.flatMap_cons, List.length_append, ← hexText, ih]
    simp only [hex2, List.length_cons, List.length_nil]
    omega

theorem fits_ok : fits array size s = .ok t ↔ s.length + 1 ≤ size ∧ t = s := by
  unfold fits
  split
  next h => simp [h, eq_comm]
  next h => simp [h]

theorem sprintfKey_ok : sprintfKey o key = .ok t → t = o ++ hexText key := by
  induction key generalizing o with
  | nil =>
    intro h
    cases h
    simp [hexText]
  | cons b key ih =>
    intro h
    rw [sprintfKey, List.foldlM_cons, bind_ok] at h
    obtain ⟨o', ho, h⟩ := h
    obtain ⟨-, rfl⟩ := fits_ok.mp ho
    rw [ih h, hexText, hexText, List.flatMap_cons, List.append_assoc]

theorem sprintfKey_eq (h : o.length + 2 * key.length + 1 ≤ 512) :
    sprintfKey o key = .ok (o ++ hexText key) := by
  induction key generalizing o with
  | nil => simp [sprintfKey, hexText, pure, Except.pure]
  | cons b key ih =>
    have hlen : (o ++ hex2 b).length = o.length + 2 := by simp [hex2]
    rw [List.length_cons] at h
    have hone : sprintf o (hex2 b) = .ok (o ++ hex2 b) := fits_ok.mpr ⟨by omega, rfl⟩
    rw [sprintfKey, List.foldlM_cons, hone, ok_bind, ← sprintfKey, ih (by omega), hexText, hexText,
      List.flatMap_cons, List.append_assoc]

theorem fdtbchGenerateKeyfile_ok (h : fdtbchGenerateKeyfile k = .ok file) : file = keyText k := by
  simp only [fdtbchGenerateKeyfile, bind_ok] at h
  obtain ⟨o₁, h₁, o₂, h₂, o₃, h₃, o₄, h₄, h₅⟩ := h
  obtain ⟨-, rfl⟩ := fits_ok.mp h₁
  obtain rfl := sprintfKey_ok h₂
  obtain ⟨-, rfl⟩ := fits_ok.mp h₃
  obtain ⟨-, rfl⟩ := fits_ok.mp h₄
  rw [sprintfKey_ok h₅, keyText]
  simp

theorem fdtbchGenerateKeyfile_eq (h : 2 * k.signPk.length + 2 * k.signSk.length + 10 ≤ 512) :
    fdtbchGenerateKeyfile k = .ok (keyText k) := by
  have hpk : pk.length = 4 := rfl
  have hsk : sk.length = 4 := rfl
  have h₁ : sprintf [] pk = .ok pk := rfl
  have h₃ : sprintf (pk ++ hexText k.signPk) ['\n'] = .ok (pk ++ hexText k.signPk ++ ['\n']) := by
    refine fits_ok.mpr ⟨?_, rfl⟩
    simp only [List.length_append, length_hexText, List.length_cons, List.length_nil]
    omega
  have h₄ : sprintf (pk ++ hexText k.signPk ++ ['\n']) sk =
      .ok (pk ++ hexText k.signPk ++ ['\n'] ++ sk) := by
    refine fits_ok.mpr ⟨?_, rfl⟩
    simp only [List.length_append, length_hexText, List.length_cons, List.length_nil]
    omega
  have h₅ : (pk ++ hexText k.signPk ++ ['\n'] ++ sk).length + 2 * k.signSk.length + 1 ≤ 512 := by
    simp only [List.length_append, length_hexText, List.length_cons, List.length_nil]
    omega
  rw [fdtbchGenerateKeyfile, h₁, ok_bind, sprintfKey_eq (by omega), ok_bind, h₃, ok_bind, h₄,
    ok_bind, sprintfKey_eq h₅, keyText]
  simp

theorem hexDigit_spec : ∀ n < 16, hexValue (hexDigit n) = some n ∧ isSpace (hexDigit n) = false ∧
    hexDigit n ≠ '\n' := by
  decide

theorem scanHex_hex2 (b : UInt8) :
    scanHex (some (hexDigit (b.toNat / 16))) (some (hexDigit (b.toNat % 16))) = some b := by
  have hb := b.toNat_lt
  have hhigh := (hexDigit_spec (b.toNat / 16) (by omega)).1
  have hlow := (hexDigit_spec (b.toNat % 16) (by omega)).1
  simp only [scanHex, Option.bind_some, hhigh, hlow]
  rw [Nat.div_add_mod, UInt8.ofNat_toNat]

theorem hexText_spec {x : Char} (h : x ∈ hexText key) : isSpace x = false ∧ x ≠ '\n' := by
  obtain ⟨b, -, hx⟩ := List.mem_flatMap.mp h
  have hb := b.toNat_lt
  simp only [hex2, List.mem_cons, List.not_mem_nil, or_false] at hx
  rcases hx with rfl | rfl
  · exact (hexDigit_spec _ (by omega)).2
  · exact (hexDigit_spec _ (by omega)).2

theorem fdtbchScanKey_hexText (array : KeyArray) (done key rest : List UInt8)
    (h : rest.length = key.length) :
    fdtbchScanKey array (hexText key) done.length (done ++ rest) = .ok (done ++ key) := by
  induction key generalizing done rest with
  | nil =>
    obtain rfl := List.length_eq_zero_iff.mp h
    rfl
  | cons b key ih =>
    obtain ⟨r, rest, rfl⟩ := List.exists_cons_of_length_eq_add_one h
    have hset : (done ++ r :: rest).set done.length b = done ++ [b] ++ rest := by simp
    have hlen : done.length < (done ++ r :: rest).length := by simp
    have hih := ih (done ++ [b]) rest (by simpa using h)
    rw [List.length_append, List.length_singleton] at hih
    rw [hexText, List.flatMap_cons, ← hexText, hex2]
    simp only [List.cons_append, List.nil_append, fdtbchScanKey, storeHex, scanHex_hex2, if_pos hlen,
      ok_bind, hset]
    rw [hih]
    simp

theorem fdtbchScanKey_overflow (array : KeyArray) (hkey : key ≠ []) :
    fdtbchScanKey array (hexText key) 0 [] = .error (.overflow array) := by
  obtain ⟨b, key, rfl⟩ := List.exists_cons_of_ne_nil hkey
  rw [hexText, List.flatMap_cons, ← hexText, hex2]
  simp only [List.cons_append, List.nil_append, fdtbchScanKey, storeHex, scanHex_hex2]
  rfl

-- ---------------------------------------------------------------------------
-- Lines and tokens
-- ---------------------------------------------------------------------------

theorem length_takeLine_le (n : Nat) (cs : List Char) : (takeLine n cs).1.length ≤ n := by
  induction n generalizing cs with
  | zero => exact Nat.le_refl 0
  | succ n ih =>
    cases cs with
    | nil => exact Nat.zero_le _
    | cons c cs =>
      have := ih cs
      simp only [takeLine]
      split
      · simp
      · simp only [List.length_cons]
        omega

theorem takeLine_newline (n : Nat) (hl : ∀ x ∈ l, x ≠ '\n') (rest : List Char) :
    takeLine n (l ++ '\n' :: rest) =
      (l.take n ++ (if l.length < n then ['\n'] else []),
        if l.length < n then rest else l.drop n ++ '\n' :: rest) := by
  induction n generalizing l with
  | zero => simp [takeLine]
  | succ n ih =>
    cases l with
    | nil => simp [takeLine]
    | cons x l =>
      have hx : x ≠ '\n' := hl x List.mem_cons_self
      have hih := ih fun y hy => hl y (List.mem_cons_of_mem _ hy)
      simp [takeLine, hx, hih]

theorem takeLine_last (n : Nat) (hl : ∀ x ∈ l, x ≠ '\n') :
    takeLine n l = (l.take n, l.drop n) := by
  induction n generalizing l with
  | zero => simp [takeLine]
  | succ n ih =>
    cases l with
    | nil => simp [takeLine]
    | cons x l =>
      have hx : x ≠ '\n' := hl x List.mem_cons_self
      have hih := ih fun y hy => hl y (List.mem_cons_of_mem _ hy)
      simp [takeLine, hx, hih]

theorem scanToken_word (ht : ∀ x ∈ t, isSpace x = false) (hne : t ≠ []) (hc : isSpace x = true)
    (rest : List Char) : scanToken (t ++ x :: rest) = (t, x :: rest) := by
  obtain ⟨y, t, rfl⟩ := List.exists_cons_of_ne_nil hne
  have hy : isSpace y = false := ht y List.mem_cons_self
  have hdrop : (y :: t ++ x :: rest).dropWhile isSpace = y :: t ++ x :: rest := by
    simp [hy]
  have hword : ∀ z ∈ y :: t, (! isSpace z) = true := by
    intro z hz
    rw [ht z hz]
    rfl
  rw [scanToken, hdrop]
  simp only [List.takeWhile_append_of_pos hword, List.dropWhile_append_of_pos hword]
  simp [hc]

theorem scanToken_end (ht : ∀ x ∈ t, isSpace x = false) : scanToken t = (t, []) := by
  have hdrop : t.dropWhile isSpace = t := by
    cases t with
    | nil => rfl
    | cons y t => simp [ht y List.mem_cons_self]
  have hword : ∀ z ∈ t, (! isSpace z) = true := by
    intro z hz
    rw [ht z hz]
    rfl
  rw [scanToken, hdrop, List.takeWhile_eq_self_iff.mpr hword, List.dropWhile_eq_nil_iff.mpr hword]

theorem scanToken_space (hx : isSpace x = true) (rest : List Char) :
    scanToken (x :: rest) = scanToken rest := by
  simp [scanToken, hx]

theorem scanToken_line (hh : ∀ x ∈ h, isSpace x = false) (htail : tail = [] ∨ tail = ['\n']) :
    (scanToken (' ' :: (h ++ tail))).1 = h := by
  rw [scanToken_space rfl]
  rcases htail with rfl | rfl
  · rw [List.append_nil, scanToken_end hh]
  · by_cases hne : h = []
    · subst hne
      rfl
    · rw [scanToken_word hh hne rfl]

/-- A line of the key file, whatever was read before. -/
theorem sscanf_line (st : Importer) (hname : ∀ x ∈ name, isSpace x = false) (hne : name ≠ [])
    (hlen : name.length + 1 ≤ 32) (hh : ∀ x ∈ h, isSpace x = false)
    (htail : tail = [] ∨ tail = ['\n']) :
    st.sscanf (name ++ ' ' :: (h ++ tail)) =
      if h = [] then .ok { st with item := some name }
      else if h.length + 1 ≤ 128 then .ok { st with item := some name, keys := some h }
      else .error (.overflow .keys) := by
  have hitem : fits .item 32 name = .ok name := fits_ok.mpr ⟨hlen, rfl⟩
  simp only [Importer.sscanf, scanToken_word hname hne (x := ' ') rfl, if_neg hne, hitem, ok_bind,
    scanToken_line hh htail]
  split
  · rfl
  · unfold fits
    split
    · rfl
    · rfl

-- ---------------------------------------------------------------------------
-- The two lines of the file
-- ---------------------------------------------------------------------------

def lineDigits (key : List UInt8) : List Char := (hexText key).take 251

theorem lineDigits_spec {x : Char} (h : x ∈ lineDigits key) : isSpace x = false :=
  (hexText_spec (List.mem_of_mem_take h)).1

theorem lineDigits_eq (h : key.length ≤ 63) : lineDigits key = hexText key := by
  apply List.take_of_length_le
  rw [length_hexText]
  omega

theorem lineDigits_eq_nil : lineDigits key = [] ↔ key = [] := by
  rw [← List.length_eq_zero_iff, ← List.length_eq_zero_iff, lineDigits, List.length_take,
    length_hexText]
  omega

theorem lineDigits_fits : (lineDigits key).length + 1 ≤ 128 ↔ key.length ≤ 63 := by
  rw [lineDigits, List.length_take, length_hexText]
  omega

def scanned (st : Importer) (name : List Char) (key : List UInt8) : Except KeyFault Importer :=
  if key = [] then .ok { st with item := some name }
  else if key.length ≤ 63 then .ok { st with item := some name, keys := some (hexText key) }
  else .error (.overflow .keys)

theorem sscanf_key (st : Importer) (hname : ∀ x ∈ name, isSpace x = false) (hne : name ≠ [])
    (hlen : name.length + 1 ≤ 32) (htail : tail = [] ∨ tail = ['\n']) :
    st.sscanf (name ++ ' ' :: (lineDigits key ++ tail)) = scanned st name key := by
  rw [sscanf_line st hname hne hlen (fun x => lineDigits_spec) htail, scanned]
  simp only [lineDigits_eq_nil, lineDigits_fits]
  split
  · rfl
  · split
    next hkey => rw [lineDigits_eq hkey]
    next => rfl

theorem line_ne_newline (htag : ∀ x ∈ tag, x ≠ '\n') :
    ∀ x ∈ tag ++ hexText key, x ≠ '\n' := by
  intro x hx
  rcases List.mem_append.mp hx with hx | hx
  · exact htag x hx
  · exact (hexText_spec hx).2

theorem pk_ne_newline : ∀ x ∈ pk, x ≠ '\n' := by simp [pk]

theorem sk_ne_newline : ∀ x ∈ sk, x ≠ '\n' := by simp [sk]

theorem takeLine_pk (k : SignKeys) : ∃ tail, (tail = [] ∨ tail = ['\n']) ∧
    (takeLine 255 (keyText k)).1 = pk ++ (lineDigits k.signPk ++ tail) := by
  refine ⟨_, ?_, by rw [keyText, takeLine_newline 255 (line_ne_newline pk_ne_newline)]; rfl⟩
  split
  · exact .inr rfl
  · exact .inl rfl

theorem takeLine_pk_rest (h : k.signPk.length ≤ 63) :
    (takeLine 255 (keyText k)).2 = sk ++ hexText k.signSk := by
  have hlen : (pk ++ hexText k.signPk).length < 255 := by
    rw [List.length_append, length_hexText, show pk.length = 4 from rfl]
    omega
  rw [keyText, takeLine_newline 255 (line_ne_newline pk_ne_newline)]
  exact if_pos hlen

theorem importLine_key (st : Importer) (hname : ∀ x ∈ name, isSpace x = false) (hne : name ≠ [])
    (hlen : name.length + 1 ≤ 32) (htail : tail = [] ∨ tail = ['\n'])
    (hline : line = name ++ ' ' :: (lineDigits key ++ tail)) (hfits : line.length ≤ 255) :
    importLine st line = scanned st name key >>= Importer.scanItem := by
  have hstored : fits .line 256 line = .ok line := fits_ok.mpr ⟨by omega, rfl⟩
  rw [importLine, hstored, ok_bind, hline, sscanf_key st hname hne hlen htail]

def pkName : List Char := ['p', 'k', ':']
def skName : List Char := ['s', 'k', ':']

theorem importLine_pk (st : Importer) (k : SignKeys) :
    importLine st (takeLine 255 (keyText k)).1 =
      scanned st pkName k.signPk >>= Importer.scanItem := by
  obtain ⟨tail, htail, hline⟩ := takeLine_pk k
  exact importLine_key st (by simp [pkName, isSpace]) (by simp [pkName]) (by decide) htail hline
    (length_takeLine_le 255 _)

theorem importLine_sk (st : Importer) (key : List UInt8) :
    importLine st (takeLine 255 (sk ++ hexText key)).1 =
      scanned st skName key >>= Importer.scanItem := by
  have hline : (takeLine 255 (sk ++ hexText key)).1 = skName ++ ' ' :: (lineDigits key ++ []) := by
    rw [takeLine_last 255 (line_ne_newline sk_ne_newline), List.append_nil]
    rfl
  exact importLine_key st (by simp [skName, isSpace]) (by simp [skName]) (by decide) (.inl rfl) hline
    (length_takeLine_le 255 _)

theorem scanItem_pk (st : Importer) (hitem : st.item = some pkName) : st.scanItem = (do
    let keys ← stringOf .keys st.keys
    let key ← fdtbchScanKey .signPk keys 0 st.info.signPk
    .ok { st with info := { st.info with signPk := key } }) := by
  rw [Importer.scanItem, hitem]
  rfl

theorem scanItem_sk (st : Importer) (hitem : st.item = some skName) : st.scanItem = (do
    let keys ← stringOf .keys st.keys
    let key ← fdtbchScanKey .signSk keys 0 st.info.signSk
    .ok { st with info := { st.info with signSk := key } }) := by
  rw [Importer.scanItem, hitem]
  rfl

-- ---------------------------------------------------------------------------
-- The import
-- ---------------------------------------------------------------------------

def afterPk (k old : SignKeys) : Importer :=
  ⟨some pkName, some (hexText k.signPk), ⟨k.signPk, old.signSk⟩⟩

theorem import_pk (hpos : k.signPk ≠ []) (hle : k.signPk.length ≤ 63)
    (hold : old.signPk.length = k.signPk.length) :
    importLine ⟨none, none, old⟩ (takeLine 255 (keyText k)).1 = .ok (afterPk k old) := by
  have hscan := fdtbchScanKey_hexText .signPk [] k.signPk old.signPk hold
  simp only [List.nil_append, List.length_nil] at hscan
  rw [importLine_pk, scanned, if_neg hpos, if_pos hle, ok_bind, scanItem_pk _ rfl]
  simp only [stringOf, ok_bind, hscan, afterPk]

theorem import_sk (k old : SignKeys) (hpos : k.signSk ≠ []) (hle : k.signSk.length ≤ 63)
    (hold : old.signSk.length = k.signSk.length) :
    importLine (afterPk k old) (takeLine 255 (sk ++ hexText k.signSk)).1 =
      .ok ⟨some skName, some (hexText k.signSk), k⟩ := by
  have hscan := fdtbchScanKey_hexText .signSk [] k.signSk old.signSk hold
  simp only [List.nil_append, List.length_nil] at hscan
  rw [importLine_sk, scanned, if_neg hpos, if_pos hle, ok_bind, scanItem_sk _ rfl]
  simp only [stringOf, ok_bind, afterPk, hscan]

theorem import_keyText (k old : SignKeys) : fdtbchImportKeyfile (keyText k) old = (do
    let st ← importLine ⟨none, none, old⟩ (takeLine 255 (keyText k)).1
    let st ← (fgetsLines (takeLine 255 (keyText k)).2).foldlM importLine st
    .ok st.info) := by
  have hlines : fgetsLines (keyText k) =
      (takeLine 255 (keyText k)).1 :: fgetsLines (takeLine 255 (keyText k)).2 :=
    fgetsLines.eq_2 _ _
  rw [fdtbchImportKeyfile, hlines, List.foldlM_cons, bind_assoc]

theorem import_rest (k old : SignKeys) (hpos : k.signPk ≠ []) (hle : k.signPk.length ≤ 63)
    (hold : old.signPk.length = k.signPk.length) : fdtbchImportKeyfile (keyText k) old = (do
    let st ← importLine (afterPk k old) (takeLine 255 (sk ++ hexText k.signSk)).1
    let st ← (fgetsLines (takeLine 255 (sk ++ hexText k.signSk)).2).foldlM importLine st
    .ok st.info) := by
  have hlines : fgetsLines (sk ++ hexText k.signSk) = (takeLine 255 (sk ++ hexText k.signSk)).1 ::
      fgetsLines (takeLine 255 (sk ++ hexText k.signSk)).2 := fgetsLines.eq_2 _ _
  rw [import_keyText, import_pk hpos hle hold, ok_bind, takeLine_pk_rest hle, hlines,
    List.foldlM_cons, bind_assoc]

theorem import_overflow (k old : SignKeys) (hpos : k.signPk ≠ []) (hle : k.signPk.length ≤ 63)
    (hold : old.signPk.length = k.signPk.length) (hlong : 63 < k.signSk.length) :
    fdtbchImportKeyfile (keyText k) old = .error (.overflow .keys) := by
  have hne : k.signSk ≠ [] := List.ne_nil_of_length_pos (by omega)
  rw [import_rest k old hpos hle hold, importLine_sk, scanned, if_neg hne,
    if_neg (by omega), error_bind, error_bind]

theorem import_eq (k old : SignKeys) (hpk : k.signPk ≠ []) (hpk' : k.signPk.length ≤ 63)
    (hsk : k.signSk ≠ []) (hsk' : k.signSk.length ≤ 63)
    (hold : old.signPk.length = k.signPk.length) (hold' : old.signSk.length = k.signSk.length) :
    fdtbchImportKeyfile (keyText k) old = .ok k := by
  have hlen : (sk ++ hexText k.signSk).length ≤ 255 := by
    rw [List.length_append, length_hexText, show sk.length = 4 from rfl]
    omega
  have hend : (takeLine 255 (sk ++ hexText k.signSk)).2 = [] := by
    rw [takeLine_last 255 (line_ne_newline sk_ne_newline), List.drop_of_length_le hlen]
  rw [import_rest k old hpk hpk' hold, import_sk k old hsk hsk' hold', ok_bind, hend,
    fgetsLines.eq_1, List.foldlM_nil]
  rfl

theorem pk_of_import (h : fdtbchImportKeyfile (keyText k) old = .ok k') :
    k.signPk ≠ [] ∧ k.signPk.length ≤ 63 := by
  rw [import_keyText, importLine_pk, scanned] at h
  split at h
  next => cases h
  next hne =>
    split at h
    next hle => exact ⟨hne, hle⟩
    next => cases h

theorem sk_of_import (hpos : k.signPk ≠ []) (hle : k.signPk.length ≤ 63)
    (h : fdtbchImportKeyfile (keyText k) k = .ok k') :
    k.signSk ≠ [] ∧ k.signSk.length ≤ 63 := by
  rw [import_rest k k hpos hle rfl, importLine_sk, scanned] at h
  split at h
  next hnil =>
    -- the token of the public key is still in `keys`
    have hscan := fdtbchScanKey_overflow .signSk hpos
    rw [ok_bind, scanItem_sk _ rfl] at h
    simp only [afterPk, stringOf, ok_bind, hnil, hscan, error_bind] at h
    cases h
  next hne =>
    split at h
    next hle => exact ⟨hne, hle⟩
    next => cases h

/-- The key file reads back exactly if each key has from 1 to 63 bytes. A signing secret key
has 64. -/
theorem readsBack_iff (k : SignKeys) : k.ReadsBack ↔
    (0 < k.signPk.length ∧ k.signPk.length ≤ 63) ∧
      (0 < k.signSk.length ∧ k.signSk.length ≤ 63) := by
  constructor
  · rintro ⟨file, hfile, hread⟩
    obtain rfl := fdtbchGenerateKeyfile_ok hfile
    have h := hread k rfl rfl
    obtain ⟨hpk, hpk'⟩ := pk_of_import h
    obtain ⟨hsk, hsk'⟩ := sk_of_import hpk hpk' h
    exact ⟨⟨List.length_pos_iff.mpr hpk, hpk'⟩, List.length_pos_iff.mpr hsk, hsk'⟩
  · rintro ⟨⟨hpk, hpk'⟩, hsk, hsk'⟩
    refine ⟨keyText k, fdtbchGenerateKeyfile_eq (by omega), fun old hold hold' => ?_⟩
    exact import_eq k old (List.length_pos_iff.mp hpk) hpk' (List.length_pos_iff.mp hsk) hsk'
      hold hold'

def zeroKeys : SignKeys := ⟨List.replicate 32 0, List.replicate 64 0⟩

/-- Keys of the sizes the tool uses: the file is written, and the token of the secret key with
its terminator has one character too many. -/
theorem zeroKeys_overflow : ∃ file, fdtbchGenerateKeyfile zeroKeys = .ok file ∧
    fdtbchImportKeyfile file zeroKeys = .error (.overflow .keys) ∧ ¬zeroKeys.ReadsBack := by
  have hgen := fdtbchGenerateKeyfile_eq (k := zeroKeys) (by decide)
  have himport := import_overflow zeroKeys zeroKeys (by decide) (by decide) rfl (by decide)
  refine ⟨keyText zeroKeys, hgen, himport, ?_⟩
  rintro ⟨file, hfile, hread⟩
  cases hfile.symm.trans hgen
  cases (hread zeroKeys rfl rfl).symm.trans himport

end BismarckPreloader.Authbch.KeyFile
