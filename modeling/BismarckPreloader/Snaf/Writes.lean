import BismarckPreloader.Snaf.Requests

/-!
# What a write puts into the flash

A write goes through a page buffer on the stack. In the ordinary mode the buffer is filled
from the front for each page, and what the last page does not fill is whatever was in the
buffer before: the page before, or the stack. In the raw mode without data the spare area is
to be written alone; the function reads the page over the caller's buffer and then programs
the front of the page with itself.
-/

namespace BismarckPreloader.Snaf

/-- A page that is programmed: data area and spare area, and whether the controller replaces
the spare area by the syndromes. -/
structure Programmed where
  physical : UInt32
  ecc : Bool
  page : List UInt8
  deriving DecidableEq

namespace Driver

variable (d : Driver) (oobsize : Nat)

/-- `dma_buf` when a page is programmed: `memcpy` of the data and `memset` of the spare
area. -/
def fillDma (data : Nat → UInt8) (done opLen : Nat) (dma : Nat → UInt8) : Nat → UInt8 := fun k =>
  if 2 ^ d.pageShift ≤ k ∧ k < 2 ^ d.pageShift + oobsize then 0xff
  else if k < opLen then data (done + k) else dma k

def programLoop (data : Nat → UInt8) (dlen olen : UInt32) (dma : Nat → UInt8)
    (page done : UInt32) : List Programmed :=
  if _h : done < dlen then
    let opLen := snafMin (dlen - done) d.pagesize
    let dma' := d.fillDma oobsize data done.toNat opLen.toNat dma
    ⟨d.translate page, olen = 0, (List.range (2 ^ d.pageShift + oobsize)).map dma'⟩ ::
      programLoop data dlen olen dma' (page + 1) (done + opLen)
  else []
termination_by dlen.toNat - done.toNat
decreasing_by exact loop_decreases _h

variable {d oobsize}

theorem programLoop_next {data dma : Nat → UInt8} {dlen olen page done : UInt32}
    (h : done < dlen) :
    d.programLoop oobsize data dlen olen dma page done =
      ⟨d.translate page, olen = 0, (List.range (2 ^ d.pageShift + oobsize)).map
        (d.fillDma oobsize data done.toNat (snafMin (dlen - done) d.pagesize).toNat dma)⟩ ::
      d.programLoop oobsize data dlen olen
        (d.fillDma oobsize data done.toNat (snafMin (dlen - done) d.pagesize).toNat dma)
        (page + 1) (done + snafMin (dlen - done) d.pagesize) := by
  rw [programLoop, dif_pos h]

theorem programLoop_done {data dma : Nat → UInt8} {dlen olen page done : UInt32}
    (h : ¬done < dlen) : d.programLoop oobsize data dlen olen dma page done = [] := by
  rw [programLoop, dif_neg h]

theorem programLoop_issued (data dma : Nat → UInt8) (dlen olen page done : UInt32) :
    (d.programLoop oobsize data dlen olen dma page done).map Programmed.physical =
      (d.writeLoop dlen page done).map Issued.physical := by
  induction hn : dlen.toNat - done.toNat using Nat.strongRecOn generalizing dma page done with
  | ind n ih =>
    rw [writeLoop]
    by_cases h : done < dlen
    · have hdec := loop_decreases (d := d) h
      rw [dif_pos h, programLoop_next h, List.map_cons, List.map_cons, ih _ (hn ▸ hdec) _ _ _ rfl]
      rfl
    · rw [dif_neg h, programLoop_done h]
      rfl

end Driver

-- ---------------------------------------------------------------------------
-- Ordinary writes
-- ---------------------------------------------------------------------------

structure PageWrite extends Driver where
  oobsize : Nat
  toAddr : Nat
  aligned : 2 ^ pageShift ∣ toAddr
  dlen : UInt32
  olen : UInt32
  nonempty : 0 < dlen

namespace PageWrite

variable (w : PageWrite)

def programs (data stack : Nat → UInt8) : List Programmed :=
  w.programLoop w.oobsize data w.dlen w.olen stack
    (UInt32.ofNat (w.toAddr / 2 ^ w.pageShift)) 0

def expected (fill : UInt8) (data : Nat → UInt8) (i : Nat) : Programmed where
  physical := w.translate (UInt32.ofNat (w.toAddr / 2 ^ w.pageShift) + UInt32.ofNat i)
  ecc := w.olen = 0
  page := (List.range (2 ^ w.pageShift + w.oobsize)).map fun k =>
    if 2 ^ w.pageShift ≤ k then 0xff
    else if i * 2 ^ w.pageShift + k < w.dlen.toNat then data (i * 2 ^ w.pageShift + k) else fill

def pages : Nat := (w.dlen.toNat + (2 ^ w.pageShift - 1)) / 2 ^ w.pageShift

/-- The flash gets the caller's bytes and a fixed fill, whatever is on the stack. -/
structure LeaksNothing : Prop where
  same : ∀ data stack stack', w.programs data stack = w.programs data stack'
  filled : ∃ fill, ∀ data stack,
    w.programs data stack = (List.range w.pages).map (w.expected fill data)

variable {w}

theorem pageSize_pos (w : PageWrite) : 0 < 2 ^ w.pageShift := Nat.two_pow_pos _

theorem programLoop_const {v : UInt8} {dma : Nat → UInt8}
    (hdma : ∀ k < 2 ^ w.pageShift, dma k = v)
    (hq : q ∈ w.programLoop w.oobsize (fun _ => v) w.dlen w.olen dma page done)
    (hk : k < 2 ^ w.pageShift) : q.page[k]? = some v := by
  induction hn : w.dlen.toNat - done.toNat using Nat.strongRecOn generalizing dma page done with
  | ind n ih =>
    by_cases h : done < w.dlen
    · rw [Driver.programLoop_next h] at hq
      have hfill : ∀ opLen, ∀ k < 2 ^ w.pageShift,
          w.fillDma w.oobsize (fun _ => v) done.toNat opLen dma k = v := by
        intro opLen k hk
        rw [Driver.fillDma, if_neg (by omega), hdma k hk, ite_self]
      rcases List.mem_cons.mp hq with rfl | hq
      · rw [List.getElem?_map, List.getElem?_range (by omega)]
        exact congrArg some (hfill _ k hk)
      · exact ih _ (hn ▸ Driver.loop_decreases h) (hfill _) hq rfl
    · rw [Driver.programLoop_done h] at hq
      cases hq

theorem expected_tail (fill : UInt8) (data : Nat → UInt8) :
    (w.expected fill data (w.dlen.toNat / 2 ^ w.pageShift)).page[w.dlen.toNat % 2 ^ w.pageShift]? =
      some fill := by
  have hlt := Nat.mod_lt w.dlen.toNat w.pageSize_pos
  have hdm := Nat.div_add_mod' w.dlen.toNat (2 ^ w.pageShift)
  rw [expected, List.getElem?_map, List.getElem?_range (by omega), Option.map_some,
    if_neg (by omega), if_neg (by omega)]

theorem LeaksNothing.dvd (h : w.LeaksNothing) : 2 ^ w.pageShift ∣ w.dlen.toNat := by
  obtain ⟨fill, hfill⟩ := h.filled
  by_contra hno
  have hr : 0 < w.dlen.toNat % 2 ^ w.pageShift :=
    Nat.pos_of_ne_zero fun h0 => hno (Nat.dvd_of_mod_eq_zero h0)
  have hlt := Nat.mod_lt w.dlen.toNat w.pageSize_pos
  -- the page that is not full is one of the range
  have hlast : w.dlen.toNat / 2 ^ w.pageShift < w.pages := by
    rw [pages, ← Nat.succ_le_iff, Nat.le_div_iff_mul_le w.pageSize_pos, Nat.succ_mul]
    have hdm := Nat.div_add_mod' w.dlen.toNat (2 ^ w.pageShift)
    omega
  have hmem := List.mem_map_of_mem (f := w.expected fill fun _ => fill + 1)
    (List.mem_range.mpr hlast)
  rw [← hfill (fun _ => fill + 1) (fun _ => fill + 1)] at hmem
  have hv := programLoop_const (fun _ _ => rfl) hmem hlt
  rw [expected_tail] at hv
  have hne : fill + 1 ≠ fill := by
    intro he
    have h1 : fill + 1 = fill + 0 := by rw [he, UInt8.add_zero]
    exact absurd ((UInt8.add_right_inj fill).mp h1) (by decide)
  exact hne (Option.some.inj hv).symm

theorem programLoop_whole (hdvd : w.dlen.toNat = n * 2 ^ w.pageShift) (hi : i ≤ n)
    (hdone : done.toNat = i * 2 ^ w.pageShift) (fill : UInt8) (data dma : Nat → UInt8)
    (hpage : page = UInt32.ofNat (w.toAddr / 2 ^ w.pageShift) + UInt32.ofNat i) :
    w.programLoop w.oobsize data w.dlen w.olen dma page done =
      (List.range' i (n - i)).map (w.expected fill data) := by
  induction hm : n - i generalizing i dma page done with
  | zero =>
    have hle : ¬done < w.dlen := by
      rw [UInt32.lt_iff_toNat_lt, hdone, hdvd, show i = n by omega]
      exact Nat.lt_irrefl _
    rw [Driver.programLoop_done hle]
    rfl
  | succ m ih =>
    have hmul : (i + 1) * 2 ^ w.pageShift ≤ n * 2 ^ w.pageShift :=
      Nat.mul_le_mul_right _ (by omega)
    rw [Nat.succ_mul] at hmul
    have hpos := w.pageSize_pos
    have hlt : done < w.dlen := by
      rw [UInt32.lt_iff_toNat_lt, hdone, hdvd]
      omega
    obtain ⟨-, -, hsub⟩ := Driver.opLen_le (d := w.toDriver) hlt
    have hop : (snafMin (w.dlen - done) w.pagesize).toNat = 2 ^ w.pageShift := by
      rw [snafMin_toNat, hsub, w.pagesize_toNat, hdone, hdvd, Nat.min_eq_right (by omega)]
    have hdone' : (done + snafMin (w.dlen - done) w.pagesize).toNat =
        (i + 1) * 2 ^ w.pageShift := by
      rw [Driver.done_add_toNat hlt, hop, hdone, Nat.succ_mul]
    have hpage' : page + 1 =
        UInt32.ofNat (w.toAddr / 2 ^ w.pageShift) + UInt32.ofNat (i + 1) := by
      rw [hpage, UInt32.add_assoc, UInt32.ofNat_add]
      rfl
    rw [Driver.programLoop_next hlt, List.range'_succ, List.map_cons]
    congr 1
    · rw [expected, hpage]
      congr 1
      refine List.map_congr_left fun k hk => ?_
      rw [List.mem_range] at hk
      by_cases hspare : 2 ^ w.pageShift ≤ k
      · rw [Driver.fillDma, if_pos ⟨hspare, hk⟩, if_pos hspare]
      · rw [Driver.fillDma, if_neg (by omega), if_neg hspare, if_pos (by omega),
          if_pos (by omega), hdone]
    · exact ih (by omega) hdone' _ hpage' (by omega)

theorem programs_whole (h : 2 ^ w.pageShift ∣ w.dlen.toNat) (fill : UInt8)
    (data stack : Nat → UInt8) :
    w.programs data stack = (List.range w.pages).map (w.expected fill data) := by
  obtain ⟨n, hn⟩ := h
  rw [Nat.mul_comm] at hn
  have hpages : w.pages = n := by
    rw [pages, hn, Nat.add_comm, Nat.add_mul_div_right _ _ w.pageSize_pos,
      Nat.div_eq_of_lt (Nat.sub_lt w.pageSize_pos Nat.one_pos), Nat.zero_add]
  rw [programs, programLoop_whole hn (Nat.zero_le n) (by rw [Nat.zero_mul]; rfl) fill data stack
    (by rw [show UInt32.ofNat 0 = 0 from rfl, UInt32.add_zero]), hpages, Nat.sub_zero,
    List.range_eq_range']

/-- A write leaks nothing exactly when it is a number of whole pages. -/
theorem leaksNothing_iff (w : PageWrite) : w.LeaksNothing ↔ 2 ^ w.pageShift ∣ w.dlen.toNat := by
  refine ⟨LeaksNothing.dvd, fun h => ⟨fun data stack stack' => ?_, 0, programs_whole h 0⟩⟩
  rw [programs_whole h 0, programs_whole h 0]

def oneByte : PageWrite where
  toDriver := Driver.oneBad
  oobsize := 64
  toAddr := 0
  aligned := Nat.dvd_zero _
  dlen := 1
  olen := 0
  nonempty := by decide

theorem oneByte_not_leaksNothing : ¬oneByte.LeaksNothing := by
  intro h
  have hle := Nat.le_of_dvd Nat.one_pos h.dvd
  exact absurd hle (by decide)

end PageWrite

-- ---------------------------------------------------------------------------
-- The spare area alone
-- ---------------------------------------------------------------------------

/-- `nasu_pio_read` into memory. -/
def pioRead (page : Nat → UInt8) (len col : Nat) (mem : Nat → UInt8) : Nat → UInt8 := fun k =>
  if k < len then page (col + k) else mem k

/-- `nasu_pio_write` from memory: programming clears bits only. -/
def pioWrite (page mem : Nat → UInt8) (len col : Nat) : Nat → UInt8 := fun k =>
  if col ≤ k ∧ k < col + len then page k &&& mem (k - col) else page k

/-- A raw write of `olen` bytes of the spare area, from a buffer of that size. -/
structure OobWrite extends Driver where
  oobsize : Nat
  toAddr : Nat
  olen : Nat
  olen_le : olen ≤ oobsize
  oob : Nat → UInt8

namespace OobWrite

variable (w : OobWrite)

def pageBefore : Nat → UInt8 := w.raw (w.translate (UInt32.ofNat (w.toAddr / 2 ^ w.pageShift)))

/-- What the write leaves: the page, the memory from `oobbuf` on, and how many bytes were
stored there. -/
structure Result where
  page : Nat → UInt8
  oobbuf : Nat → UInt8
  stored : Nat

/-- The raw branch for `dlen == 0`. The copy into `dma_buf` is not used. -/
def writeOobOnly : Result :=
  let stored := 2 ^ w.pageShift + w.oobsize
  let oobbuf := pioRead w.pageBefore stored 0 w.oob
  ⟨pioWrite w.pageBefore oobbuf w.olen 0, oobbuf, stored⟩

/-- What `otto_snaf_mtd_read_oob` returns of the spare area. -/
def readOobOnly (page : Nat → UInt8) : List UInt8 :=
  (List.range w.olen).map (pioRead page w.olen (2 ^ w.pageShift) fun _ => 0)

/-- The data area is left alone, the caller's bytes go into the spare area, nothing is
stored behind the caller's buffer, and what was written to an erased spare area is read. -/
structure RoundTrips : Prop where
  data : ∀ k < 2 ^ w.pageShift, w.writeOobOnly.page k = w.pageBefore k
  spare : ∀ k < w.oobsize, w.writeOobOnly.page (2 ^ w.pageShift + k) =
    if k < w.olen then w.pageBefore (2 ^ w.pageShift + k) &&& w.oob k
    else w.pageBefore (2 ^ w.pageShift + k)
  inside : w.writeOobOnly.stored ≤ w.olen
  readBack : (∀ k < w.oobsize, w.pageBefore (2 ^ w.pageShift + k) = 0xff) →
    w.readOobOnly w.writeOobOnly.page = (List.range w.olen).map w.oob

variable {w}

theorem writeOobOnly_page (w : OobWrite) : w.writeOobOnly.page = w.pageBefore := by
  funext k
  change pioWrite w.pageBefore (pioRead w.pageBefore (2 ^ w.pageShift + w.oobsize) 0 w.oob)
    w.olen 0 k = _
  have hle := w.olen_le
  have hpos : 0 < 2 ^ w.pageShift := Nat.two_pow_pos _
  unfold pioWrite
  split
  next hk =>
    rw [pioRead, if_pos (by omega), Nat.zero_add, Nat.sub_zero, UInt8.and_self]
  next => rfl

theorem olen_lt_stored (w : OobWrite) : w.olen < w.writeOobOnly.stored := by
  have hpos : 0 < 2 ^ w.pageShift := Nat.two_pow_pos _
  have hle := w.olen_le
  change w.olen < 2 ^ w.pageShift + w.oobsize
  omega

/-- There is no such write. -/
theorem not_roundTrips (w : OobWrite) : ¬w.RoundTrips := fun h =>
  Nat.not_lt.mpr h.inside w.olen_lt_stored

def clearByte : OobWrite where
  toDriver := { Driver.oneBad with raw := fun _ _ => 0xff }
  oobsize := 64
  toAddr := 0
  olen := 1
  olen_le := by decide
  oob _ := 0

/-- The byte does not get into the spare area, either. -/
theorem clearByte_not_roundTrips : ¬clearByte.RoundTrips := by
  intro h
  have hspare := h.spare 0 (by decide)
  rw [writeOobOnly_page, if_pos (by decide)] at hspare
  exact absurd hspare (by decide)

end OobWrite

end BismarckPreloader.Snaf
