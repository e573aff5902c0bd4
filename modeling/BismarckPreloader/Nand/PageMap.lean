import Mathlib.Data.Finset.Card
import Mathlib.Data.Finset.Range
import BismarckPreloader.Lib.Loops
import BismarckPreloader.Nand.Page

/-!
# The preloader's page map

`nsu_init` reads the flash from page 0 on and fills `plr_vmpage_table`, which maps
a chunk of the preloader to the page it was found in. Two page formats feed the
table: an ordinary page names its chunk in the out-of-band record, a first-load
page in its own header. `nsu_logical_page_read` later reads a virtual page through
the table.

The scan is `Scan.run mapPass` over pages paired with their addresses.
`mapPass_leaves` says what a pass can do to the table, the count and the number of
chunks; the results about the table are derived from it. The scan ends when it has
filled as many slots as there are chunks, so `soundMap_iff` asks which slots those
were. An index outside the table ends the model's scan; `nsu_init` goes on.
-/

namespace BismarckPreloader.Nand

/-- The variables that live across passes of the loop, with the table. -/
structure MapState where
  totalNumOfChunk : Nat
  cntPge : Nat
  cntValidChunk : Nat
  plrVmpageTable : List UInt16
  deriving DecidableEq

/-- An access outside `plr_vmpage_table`. -/
structure MapFault where
  index : Nat
  deriving DecidableEq

abbrev MapOutcome := Outcome MapState (Int × MapState) MapFault

namespace MapState

def init (b : Board) : MapState := ⟨0, 0, 0, List.replicate b.plrMapTableSize 0xFFFF⟩

def announce (s : MapState) (o : PlrOob) : MapState :=
  if s.totalNumOfChunk = 0 then { s with totalNumOfChunk := o.totalChunk.toNat } else s

def fill (s : MapState) (fillIndex blkPgeAddr : Nat) : MapState :=
  { s with
    plrVmpageTable := s.plrVmpageTable.set fillIndex (UInt16.ofNat blkPgeAddr)
    cntValidChunk := s.cntValidChunk + 1 }

def wrapCntPge (s : MapState) : MapState :=
  { s with cntPge := s.cntPge % s.totalNumOfChunk }

def advance (s : MapState) : MapState := { s with cntPge := s.cntPge + 1 }

end MapState

/-- The test at the foot of the loop. The record looked at is the one of the page
just read, whether or not that page could be decoded. -/
def mapFoot (s : MapState) (o : PlrOob) : MapOutcome :=
  if s.totalNumOfChunk ≤ s.cntPge ∧ s.totalNumOfChunk ≠ 0 then
    if o.idxCopy.toNat + 1 = o.numCopy.toNat then .ret (-2, s.wrapCntPge)
    else .next s.wrapCntPge.advance
  else .next s.advance

def mapChunk (s : MapState) (fillIndex blkPgeAddr : Nat) (o : PlrOob) : MapOutcome :=
  match s.plrVmpageTable[fillIndex]? with
  | none => .halt ⟨fillIndex⟩
  | some entry =>
    if entry = 0xFFFF then
      let s' := s.fill fillIndex blkPgeAddr
      if s'.cntValidChunk = s'.totalNumOfChunk then .ret (0, s') else mapFoot s' o
    else mapFoot s o

/-- One pass of the loop of `nsu_init`, on a page and its address. -/
def mapPass (s : MapState) (x : PlrPageRead × Nat) : MapOutcome :=
  let (p, blkPgeAddr) := x
  if isPlrFirstLoadPart p.fl = 1#32 then mapChunk s p.fl.pageIndex.toNat blkPgeAddr p.oob
  else if isEccDecodeFail p.sts = false then
    -- `continue`: the foot of the loop is not run
    if p.oob.signature ≠ signaturePlr then .next s.advance
    else mapChunk (s.announce p.oob) p.oob.idxChunk.toNat blkPgeAddr p.oob
  else mapFoot s p.oob

/-- `nsu_init` on a flash given by the reads of all its pages in order. -/
def nsuInit (b : Board) (flash : List PlrPageRead) : MapOutcome :=
  match Scan.run mapPass (.init b) flash.zipIdx with
  | .next s => .ret (-1, s)
  | o => o

def MapReaches (b : Board) (flash : List PlrPageRead) : MapState → PlrPageRead × Nat → Prop :=
  Scan.Reaches mapPass (.init b) flash.zipIdx

/-- The loop of `nsu_logical_page_read` with `count` chunks to go: the result and
the chunks copied. A hole ends the loop, and the function reports success. -/
def readChunks (read : UInt16 → PageRead) (table : List UInt16) :
    Nat → Nat → List (Nat → UInt8) → Outcome Unit (Int × List (Nat → UInt8)) MapFault
  | _, 0, data => .ret (0, data)
  | mapping, count + 1, data => match table[mapping]? with
    | none => .halt ⟨mapping⟩
    | some entry =>
      if entry = 0xFFFF then .ret (0, data)
      else if isEccDecodeFail (read entry).sts then .ret (-1, data)
      else readChunks read table (mapping + 1) count (data ++ [(read entry).data])

/-- How virtual pages lie over the table: `TLB_PAGE_SIZE` and the address of
`lma_mapping_start`. -/
structure VmArea where
  tlbPageSize : Nat
  lmaMappingStart : Nat

def VmArea.chunkPerTlbPage (v : VmArea) (b : Board) : Nat := v.tlbPageSize / b.pageSize

def VmArea.tlbStartIdx (v : VmArea) : Nat := v.lmaMappingStart / 1024

def VmArea.index (v : VmArea) (b : Board) (pageNum : Nat) : Nat :=
  (pageNum * v.chunkPerTlbPage b + v.tlbStartIdx) % 2 ^ 32

def nsuLogicalPageRead (b : Board) (v : VmArea) (read : UInt16 → PageRead) (table : List UInt16)
    (pageNum : Nat) : Outcome Unit (Int × List (Nat → UInt8)) MapFault :=
  readChunks read table (v.index b pageNum) (v.chunkPerTlbPage b) []

-- ---------------------------------------------------------------------------
-- What a pass does
-- ---------------------------------------------------------------------------

def PlrPageRead.slot? (p : PlrPageRead) : Option Nat :=
  if isPlrFirstLoadPart p.fl = 1#32 then some p.fl.pageIndex.toNat
  else if isEccDecodeFail p.sts = false ∧ p.oob.signature = signaturePlr then
    some p.oob.idxChunk.toNat
  else none

def PlrPageRead.Announces (p : PlrPageRead) : Prop :=
  isPlrFirstLoadPart p.fl ≠ 1#32 ∧ isEccDecodeFail p.sts = false ∧ p.oob.signature = signaturePlr

instance (p : PlrPageRead) : Decidable p.Announces :=
  inferInstanceAs (Decidable (_ ∧ _ ∧ _))

def MapState.Hole (s : MapState) (i : Nat) : Prop := s.plrVmpageTable[i]? = some 0xFFFF

instance (s : MapState) (i : Nat) : Decidable (s.Hole i) :=
  inferInstanceAs (Decidable (_ = _))

def MapLeaves : MapOutcome → MapState → Prop
  | .next s', s'' => s' = s''
  | .ret (_, s'), s'' => s' = s''
  | .halt _, _ => False

/-- What a pass does to the table and the count. -/
inductive TableStep (s : MapState) (x : PlrPageRead × Nat) (s' : MapState) : Prop
  | keep (hslot : ∀ i, x.1.slot? = some i → ¬ s.Hole i)
      (ht : s'.plrVmpageTable = s.plrVmpageTable) (hc : s'.cntValidChunk = s.cntValidChunk)
  | fill (i : Nat) (hslot : x.1.slot? = some i) (hfree : s.Hole i)
      (ht : s'.plrVmpageTable = s.plrVmpageTable.set i (UInt16.ofNat x.2))
      (hc : s'.cntValidChunk = s.cntValidChunk + 1)

/-- Everything a pass does to the table, the count and the number of chunks. -/
structure MapStep (s : MapState) (x : PlrPageRead × Nat) (s' : MapState) : Prop where
  table : TableStep s x s'
  total : s'.totalNumOfChunk =
    if x.1.Announces ∧ s.totalNumOfChunk = 0 then x.1.oob.totalChunk.toNat else s.totalNumOfChunk

theorem mapFoot_leaves (h : MapLeaves (mapFoot s o) s') :
    s'.plrVmpageTable = s.plrVmpageTable ∧ s'.cntValidChunk = s.cntValidChunk ∧
      s'.totalNumOfChunk = s.totalNumOfChunk := by
  unfold mapFoot at h
  split at h
  · split at h <;> cases h <;> exact ⟨rfl, rfl, rfl⟩
  · cases h
    exact ⟨rfl, rfl, rfl⟩

theorem mapChunk_leaves (h : MapLeaves (mapChunk s i a o) s') :
    s'.totalNumOfChunk = s.totalNumOfChunk ∧
      ((¬ s.Hole i ∧ s'.plrVmpageTable = s.plrVmpageTable ∧ s'.cntValidChunk = s.cntValidChunk) ∨
        (s.Hole i ∧ s'.plrVmpageTable = s.plrVmpageTable.set i (UInt16.ofNat a) ∧
          s'.cntValidChunk = s.cntValidChunk + 1)) := by
  unfold mapChunk at h
  split at h
  next => exact h.elim
  next entry he =>
    split at h
    next hhole =>
      have hh : s.Hole i := by rw [MapState.Hole, he, hhole]
      dsimp only at h
      split at h
      next =>
        cases h
        exact ⟨rfl, .inr ⟨hh, rfl, rfl⟩⟩
      next =>
        obtain ⟨ht, hc, hn⟩ := mapFoot_leaves h
        exact ⟨hn, .inr ⟨hh, ht, hc⟩⟩
    next hhole =>
      have hh : ¬ s.Hole i := by
        rw [MapState.Hole, he]
        simpa using hhole
      obtain ⟨ht, hc, hn⟩ := mapFoot_leaves h
      exact ⟨hn, .inl ⟨hh, ht, hc⟩⟩

theorem announce_fields (s : MapState) (o : PlrOob) :
    (s.announce o).plrVmpageTable = s.plrVmpageTable ∧
      (s.announce o).cntValidChunk = s.cntValidChunk ∧ (s.announce o).cntPge = s.cntPge ∧
      (s.announce o).totalNumOfChunk =
        if s.totalNumOfChunk = 0 then o.totalChunk.toNat else s.totalNumOfChunk := by
  unfold MapState.announce
  split <;> simp_all

theorem mapPass_leaves (h : MapLeaves (mapPass s x) s') : MapStep s x s' := by
  obtain ⟨p, a⟩ := x
  unfold mapPass at h
  dsimp only at h
  split at h
  next hfl =>
    have hslot : p.slot? = some p.fl.pageIndex.toNat := by simp [PlrPageRead.slot?, hfl]
    obtain ⟨hn, ⟨hh, ht, hc⟩ | ⟨hh, ht, hc⟩⟩ := mapChunk_leaves h
    · exact ⟨.keep (by simpa [hslot] using hh) ht hc, by simp [PlrPageRead.Announces, hfl, hn]⟩
    · exact ⟨.fill _ hslot hh ht hc, by simp [PlrPageRead.Announces, hfl, hn]⟩
  next hfl =>
    split at h
    next hok =>
      split at h
      next hsig =>
        cases h
        have hslot : p.slot? = none := by simp [PlrPageRead.slot?, hfl, hsig]
        exact ⟨.keep (by simp [hslot]) rfl rfl,
          by simp [PlrPageRead.Announces, hsig, MapState.advance]⟩
      next hsig =>
        have hsig : p.oob.signature = signaturePlr := by simpa using hsig
        have hslot : p.slot? = some p.oob.idxChunk.toNat := by
          simp [PlrPageRead.slot?, hfl, hok, hsig]
        have hann : p.Announces := ⟨hfl, hok, hsig⟩
        obtain ⟨hat, hac, -, han⟩ := announce_fields s p.oob
        obtain ⟨hn, h⟩ := mapChunk_leaves h
        rw [han] at hn
        simp only [MapState.Hole, hat, hac] at h
        rcases h with ⟨hh, ht, hc⟩ | ⟨hh, ht, hc⟩
        · exact ⟨.keep (by simpa [hslot, MapState.Hole] using hh) ht hc, by simp [hann, hn]⟩
        · exact ⟨.fill _ hslot hh ht hc, by simp [hann, hn]⟩
    next hok =>
      have hslot : p.slot? = none := by simp [PlrPageRead.slot?, hfl, hok]
      obtain ⟨ht, hc, hn⟩ := mapFoot_leaves h
      exact ⟨.keep (by simp [hslot]) ht hc, by simp [PlrPageRead.Announces, hok, hn]⟩

theorem mapPass_next (h : mapPass s x = .next s') : MapStep s x s' :=
  mapPass_leaves (by rw [h]; rfl)

theorem mapPass_ret (h : mapPass s x = .ret r) : MapStep s x r.2 :=
  mapPass_leaves (by rw [h]; rfl)

theorem mapFoot_ne_halt : mapFoot s o ≠ .halt e := by
  unfold mapFoot
  split
  · split <;> simp
  · simp

theorem mapChunk_halt_iff :
    (∃ e, mapChunk s i a o = .halt e) ↔ s.plrVmpageTable.length ≤ i := by
  unfold mapChunk
  split
  next h => simp [List.getElem?_eq_none_iff.mp h]
  next h =>
    have hlt := (List.getElem?_eq_some_iff.mp h).1
    refine iff_of_false ?_ (by omega)
    split
    · dsimp only
      split
      · simp
      · simp [mapFoot_ne_halt]
    · simp [mapFoot_ne_halt]

theorem mapPass_halt_iff :
    (∃ e, mapPass s x = .halt e) ↔ ∃ i, x.1.slot? = some i ∧ s.plrVmpageTable.length ≤ i := by
  obtain ⟨p, a⟩ := x
  unfold mapPass PlrPageRead.slot?
  dsimp only
  split
  next => simp [mapChunk_halt_iff]
  next =>
    split
    next hok =>
      split
      next hsig => simp [hsig]
      next hsig =>
        have hsig : p.oob.signature = signaturePlr := by simpa using hsig
        simp [mapChunk_halt_iff, hok, hsig, (announce_fields s p.oob).1]
    next hok => simp [mapFoot_ne_halt, hok]

theorem mapFoot_ne_ret_zero : mapFoot s o ≠ .ret (0, s') := by
  unfold mapFoot
  split
  · split <;> simp
  · simp

theorem mapChunk_ret_zero (h : mapChunk s i a o = .ret (0, s')) :
    s'.cntValidChunk = s'.totalNumOfChunk ∧ s'.cntValidChunk = s.cntValidChunk + 1 := by
  unfold mapChunk at h
  split at h
  next => cases h
  next =>
    split at h
    next =>
      dsimp only at h
      split at h
      next he =>
        cases h
        exact ⟨he, rfl⟩
      next => exact absurd h mapFoot_ne_ret_zero
    next => exact absurd h mapFoot_ne_ret_zero

theorem mapPass_ret_zero (h : mapPass s x = .ret (0, s')) :
    s'.cntValidChunk = s'.totalNumOfChunk ∧ s'.cntValidChunk = s.cntValidChunk + 1 := by
  unfold mapPass at h
  dsimp only at h
  split at h
  next => exact mapChunk_ret_zero h
  next =>
    split at h
    next =>
      split at h
      next => cases h
      next =>
        rw [← (announce_fields s x.1.oob).2.1]
        exact mapChunk_ret_zero h
    next => exact absurd h mapFoot_ne_ret_zero

def announced : List PlrPageRead → Nat
  | [] => 0
  | p :: ps =>
    if p.Announces ∧ p.oob.totalChunk.toNat ≠ 0 then p.oob.totalChunk.toNat else announced ps

theorem run_totalNumOfChunk (h : Scan.run mapPass s xs = .ret (0, s')) :
    s'.totalNumOfChunk =
      if s.totalNumOfChunk = 0 then announced (xs.map Prod.fst) else s.totalNumOfChunk := by
  induction xs generalizing s with
  | nil => simp at h
  | cons x xs ih =>
    rw [List.map_cons, announced]
    cases hx : mapPass s x with
    | next t =>
      rw [Scan.run_cons_next hx] at h
      have ht := (mapPass_next hx).total
      rw [ih h, ht]
      grind
    | ret r =>
      rw [Scan.run_cons_ret hx] at h
      cases h
      have ht := (mapPass_ret hx).total
      obtain ⟨hc, hpos⟩ := mapPass_ret_zero hx
      grind
    | halt e => simp [Scan.run_cons_halt hx] at h

theorem nsuInit_eq_zero :
    nsuInit b flash = .ret (0, s') ↔ Scan.run mapPass (.init b) flash.zipIdx = .ret (0, s') := by
  unfold nsuInit
  split
  next h => simp [h]
  next => rfl

theorem nsuInit_totalNumOfChunk (h : nsuInit b flash = .ret (0, s')) :
    s'.totalNumOfChunk = announced flash := by
  have := run_totalNumOfChunk (nsuInit_eq_zero.mp h)
  rwa [List.zipIdx_map_fst, MapState.init, if_pos rfl] at this

-- ---------------------------------------------------------------------------
-- Slots and the count
-- ---------------------------------------------------------------------------

namespace MapState

def Occupied (s : MapState) (i : Nat) : Prop := i < s.plrVmpageTable.length ∧ ¬ s.Hole i

instance (s : MapState) (i : Nat) : Decidable (s.Occupied i) :=
  inferInstanceAs (Decidable (_ ∧ _))

def taken (s : MapState) (n : Nat) : Nat := {i ∈ Finset.range n | s.Occupied i}.card

theorem taken_eq_iff (s : MapState) (n : Nat) : s.taken n = n ↔ ∀ i < n, s.Occupied i := by
  have h := Finset.card_filter_eq_iff (s := Finset.range n) (p := s.Occupied)
  rw [Finset.card_range] at h
  simpa [taken] using h

end MapState

theorem TableStep.occupied_iff (h : TableStep s x s') :
    (∀ j, s'.Occupied j ↔ s.Occupied j ∨
      (x.1.slot? = some j ∧ s.Hole j ∧ UInt16.ofNat x.2 ≠ 0xFFFF)) := by
  intro j
  cases h with
  | keep hslot ht _ =>
    simp only [MapState.Occupied, MapState.Hole, ht]
    have := hslot j
    unfold MapState.Hole at this
    tauto
  | fill i hslot hfree ht _ =>
    have hlt : i < s.plrVmpageTable.length := by
      obtain ⟨hlt, -⟩ := List.getElem?_eq_some_iff.mp hfree
      exact hlt
    simp only [MapState.Occupied, MapState.Hole, ht, hslot, List.length_set, Option.some.injEq]
    unfold MapState.Hole at hfree
    by_cases hj : j = i
    · subst hj
      rw [List.getElem?_set_self hlt, hfree]
      simp [hlt]
    · simp [Ne.symm hj, List.getElem?_set_ne]

def MapState.Gains (s : MapState) (x : PlrPageRead × Nat) (i : Nat) : Prop :=
  x.1.slot? = some i ∧ s.Hole i ∧ UInt16.ofNat x.2 ≠ 0xFFFF

theorem TableStep.taken_of_gains (h : TableStep s x s') (hg : s.Gains x i) (hi : i < n) :
    s'.taken n = s.taken n + 1 := by
  have hset : {j ∈ Finset.range n | s'.Occupied j} =
      insert i {j ∈ Finset.range n | s.Occupied j} := by
    ext j
    simp only [h.occupied_iff, Finset.mem_filter, Finset.mem_range, Finset.mem_insert]
    have := hg.1
    constructor
    · rintro ⟨hj, ho | hgj⟩
      · exact .inr ⟨hj, ho⟩
      · exact .inl (Option.some.inj (hgj.1.symm.trans hg.1))
    · rintro (rfl | ⟨hj, ho⟩)
      · exact ⟨hi, .inr hg⟩
      · exact ⟨hj, .inl ho⟩
  have hnot : ¬ s.Occupied i := fun ho => ho.2 hg.2.1
  rw [MapState.taken, hset, Finset.card_insert_of_notMem (by simp [hnot])]
  rfl

theorem TableStep.taken_of_not_gains (h : TableStep s x s') (hg : ∀ i < n, ¬ s.Gains x i) :
    s'.taken n = s.taken n := by
  unfold MapState.taken
  congr 1
  apply Finset.filter_congr
  intro j hj
  rw [h.occupied_iff]
  exact ⟨fun ho => ho.resolve_right (hg j (Finset.mem_range.mp hj)), .inl⟩

theorem TableStep.slack (h : TableStep s x s') (n : Nat) :
    s.cntValidChunk + s'.taken n ≤ s'.cntValidChunk + s.taken n := by
  by_cases hg : ∃ i < n, s.Gains x i
  · obtain ⟨i, hi, hg⟩ := hg
    rw [h.taken_of_gains hg hi]
    cases h with
    | keep hslot _ _ => exact absurd hg.2.1 (hslot i hg.1)
    | fill _ _ _ _ hc => omega
  · push Not at hg
    rw [h.taken_of_not_gains hg]
    have : s.cntValidChunk ≤ s'.cntValidChunk := by
      cases h with
      | keep _ _ hc => omega
      | fill _ _ _ _ hc => omega
    omega

theorem TableStep.entry {i : Nat} (h : TableStep s x s') (he : s.plrVmpageTable[i]? = some a)
    (ha : a ≠ 0xFFFF) : s'.plrVmpageTable[i]? = some a := by
  cases h with
  | keep _ ht _ => rw [ht, he]
  | fill j _ hfree ht _ =>
    have hij : j ≠ i := by
      rintro rfl
      rw [MapState.Hole, he] at hfree
      exact ha (Option.some.inj hfree)
    rw [ht, List.getElem?_set_ne hij, he]

theorem run_slack (h : Scan.run mapPass s xs = .ret r) (n : Nat) :
    s.cntValidChunk + r.2.taken n ≤ r.2.cntValidChunk + s.taken n := by
  refine Scan.run_ret_ind (Q := fun s r => s.cntValidChunk + r.2.taken n ≤
    r.2.cntValidChunk + s.taken n) ?_ ?_ h
  · intro s x s' r hx hq
    have := (mapPass_next hx).table.slack n
    omega
  · intro s x r hx
    exact (mapPass_ret hx).table.slack n

theorem run_entry {i : Nat} (h : Scan.run mapPass s xs = .ret r)
    (he : s.plrVmpageTable[i]? = some a)
    (ha : a ≠ 0xFFFF) : r.2.plrVmpageTable[i]? = some a := by
  refine Scan.run_ret_ind (Q := fun s r => s.plrVmpageTable[i]? = some a →
    r.2.plrVmpageTable[i]? = some a) ?_ ?_ h he
  · intro s x s' r hx hq he
    exact hq ((mapPass_next hx).table.entry he ha)
  · intro s x r hx he
    exact (mapPass_ret hx).table.entry he ha

theorem run_cons_ret_elim (h : Scan.run mapPass s (x :: xs) = .ret r) :
    ∃ s', TableStep s x s' ∧
      (∀ n, s'.cntValidChunk + r.2.taken n ≤ r.2.cntValidChunk + s'.taken n) ∧
      ∀ (i : Nat) a, s'.plrVmpageTable[i]? = some a → a ≠ 0xFFFF →
        r.2.plrVmpageTable[i]? = some a := by
  cases hx : mapPass s x with
  | next s' =>
    rw [Scan.run_cons_next hx] at h
    exact ⟨s', (mapPass_next hx).table, run_slack h, fun i a => run_entry h⟩
  | ret r' =>
    rw [Scan.run_cons_ret hx] at h
    cases h
    exact ⟨r.2, (mapPass_ret hx).table, fun n => le_rfl, fun i a he _ => he⟩
  | halt e => simp [Scan.run_cons_halt hx] at h

def MapState.Sourced (flash : List PlrPageRead) (s : MapState) : Prop :=
  ∀ (i : Nat) (e : UInt16), s.plrVmpageTable[i]? = some e → e ≠ 0xFFFF →
    ∃ p a, flash[a]? = some p ∧ p.slot? = some i ∧ UInt16.ofNat a = e

theorem TableStep.sourced (h : TableStep s (p, a) s') (hp : flash[a]? = some p)
    (hs : s.Sourced flash) : s'.Sourced flash := by
  intro i e he hne
  cases h with
  | keep _ ht _ =>
    rw [ht] at he
    exact hs i e he hne
  | fill j hslot hfree ht _ =>
    have hlt := (List.getElem?_eq_some_iff.mp hfree).1
    rw [ht] at he
    by_cases hij : j = i
    · subst hij
      rw [List.getElem?_set_self hlt, Option.some.injEq] at he
      exact ⟨p, a, hp, hslot, he⟩
    · rw [List.getElem?_set_ne hij] at he
      exact hs i e he hne

theorem nsuInit_sourced (h : nsuInit b flash = .ret (0, s)) : s.Sourced flash := by
  obtain ⟨t, ⟨p, a⟩, hr, hx⟩ := (Scan.run_eq_iff rfl).mp (nsuInit_eq_zero.mp h)
  have hpage : ∀ {q : PlrPageRead} {k : Nat}, (q, k) ∈ flash.zipIdx → flash[k]? = some q :=
    List.mem_zipIdx_iff_getElem?.mp
  have hinit : (MapState.init b).Sourced flash := by
    intro i e he hne
    rw [MapState.init, List.getElem?_replicate] at he
    split at he
    · exact absurd (Option.some.inj he).symm hne
    · cases he
  refine TableStep.sourced (mapPass_ret hx).table (hpage hr.mem)
    (Scan.reaches_inv (MapState.Sourced flash) hinit ?_ hr)
  rintro s ⟨q, k⟩ s' hr' hs hx'
  exact (mapPass_next hx').table.sourced (hpage hr'.mem) hs

theorem taken_init (b : Board) (n : Nat) : (MapState.init b).taken n = 0 := by
  rw [MapState.taken, Finset.filter_false_of_mem, Finset.card_empty]
  rintro i - ⟨hlt, hh⟩
  apply hh
  simp only [MapState.init, List.length_replicate] at hlt
  simp [MapState.Hole, MapState.init, hlt]

theorem map_length (h : MapReaches b flash s x) :
    s.plrVmpageTable.length = b.plrMapTableSize := by
  refine Scan.reaches_inv (fun s => s.plrVmpageTable.length = b.plrMapTableSize)
    (by simp [MapState.init]) ?_ h
  intro s x s' _ hs hx
  cases (mapPass_next hx).table with
  | keep _ ht _ => rw [ht, hs]
  | fill _ _ _ ht _ => rw [ht, List.length_set, hs]

theorem nsuInit_ne_halt_iff :
    (∀ e, nsuInit b flash ≠ .halt e) ↔
      ∀ s x, MapReaches b flash s x → ∀ i, x.1.slot? = some i → i < b.plrMapTableSize := by
  have hrun : ∀ e, nsuInit b flash = .halt e ↔
      ∃ s x, MapReaches b flash s x ∧ mapPass s x = .halt e := by
    intro e
    rw [MapReaches, ← Scan.run_eq_iff rfl]
    unfold nsuInit
    split <;> simp_all
  constructor
  · intro h s x hr i hi
    by_contra hn
    obtain ⟨e, he⟩ := mapPass_halt_iff.mpr ⟨i, hi, by rw [map_length hr]; omega⟩
    exact h e ((hrun e).mpr ⟨s, x, hr, he⟩)
  · intro h e he
    obtain ⟨s, x, hr, hx⟩ := (hrun e).mp he
    obtain ⟨i, hi, hge⟩ := mapPass_halt_iff.mp ⟨e, hx⟩
    rw [map_length hr] at hge
    exact absurd (h s x hr i hi) (by omega)

theorem taken_le_of_reaches (h : MapReaches b flash s x) (n : Nat) :
    s.taken n ≤ s.cntValidChunk := by
  refine Scan.reaches_inv (fun s => s.taken n ≤ s.cntValidChunk) ?_ ?_ h
  · rw [taken_init]
    exact Nat.zero_le _
  · intro s x s' _ hs hx
    have := (mapPass_next hx).table.slack n
    omega

theorem readChunks_of_occupied (read : UInt16 → PageRead) (s : MapState)
    (h : ∀ j < count, s.Occupied (mapping + j)) (data : List (Nat → UInt8)) :
    ∃ v data', readChunks read s.plrVmpageTable mapping count data = .ret (v, data') ∧
      (v = 0 → data'.length = data.length + count) := by
  induction count generalizing mapping data with
  | zero => exact ⟨0, data, rfl, fun _ => rfl⟩
  | succ count ih =>
    obtain ⟨hlt, hh⟩ : s.Occupied mapping := h 0 (by omega)
    rw [MapState.Hole, List.getElem?_eq_getElem hlt, Option.some.injEq] at hh
    rw [readChunks, List.getElem?_eq_getElem hlt]
    dsimp only
    rw [if_neg hh]
    split
    next => exact ⟨-1, data, rfl, by simp⟩
    next =>
      have hrest : ∀ j < count, s.Occupied (mapping + 1 + j) := by
        intro j hj
        have := h (j + 1) (by omega)
        rwa [Nat.add_right_comm, Nat.add_assoc]
      obtain ⟨v, data', he, hl⟩ := ih hrest (data ++ [(read s.plrVmpageTable[mapping]).data])
      refine ⟨v, data', he, fun hv => ?_⟩
      rw [hl hv, List.length_append, List.length_singleton]
      omega

-- ---------------------------------------------------------------------------
-- Soundness of the map
-- ---------------------------------------------------------------------------

structure RawPlrPage extends RawPage where
  fl : FirstLoad

def RawPlrPage.read (p : RawPlrPage) : PlrPageRead := { p.toRawPage.read with fl := p.fl }

/-- The page decodes without an uncorrectable sector and carries the signature and
index `i`, in its out-of-band record or in its first-load header. -/
def RawPlrPage.Carries (p : RawPlrPage) (i : Nat) : Prop :=
  (¬ p.Uncorrectable ∧ p.oob.signature = signaturePlr ∧ p.oob.idxChunk.toNat = i) ∨
    (¬ p.fl.sector0.Uncorrectable ∧ ¬ p.fl.sector1.Uncorrectable ∧
      p.fl.signature = signaturePlrFl ∧ p.fl.pageIndex.toNat = i)

structure RawPlrFlash (b : Board) where
  pages : List RawPlrPage
  sized : ∀ p ∈ pages, p.sectors.length = b.sectorPerPage

namespace RawPlrFlash

variable {b : Board} (f : RawPlrFlash b)

def reads : List PlrPageRead := f.pages.map RawPlrPage.read

def EntrySound (s : MapState) (i : Nat) : Prop :=
  ∃ a p, s.plrVmpageTable[i]? = some a ∧ a ≠ 0xFFFF ∧ f.pages[a.toNat]? = some p ∧ p.Carries i

/-- The map is sound: every chunk's entry is, and whatever a later read of a page
gives, a virtual page inside the preloader is read whole or reported as failed. -/
structure SoundMap (v : VmArea) (s : MapState) : Prop where
  entries : ∀ i < s.totalNumOfChunk, f.EntrySound s i
  whole : ∀ read pageNum, v.index b pageNum + v.chunkPerTlbPage b ≤ s.totalNumOfChunk →
    ∃ r data, nsuLogicalPageRead b v read s.plrVmpageTable pageNum = .ret (r, data) ∧
      (r = 0 → data.length = v.chunkPerTlbPage b)

/-- Whenever the scan takes a slot, the index is one of a chunk, and the address
cut to 16 bits is neither the hole nor a page with another index. -/
def FillsInRange : Prop :=
  ∀ s p a i, MapReaches b f.reads s (p, a) → p.slot? = some i → s.Hole i →
    i < announced f.reads ∧ UInt16.ofNat a ≠ 0xFFFF ∧
      (65536 ≤ a → ∃ q, f.pages[a % 65536]? = some q ∧ q.Carries i)

/-- No index leaves the table. -/
def InTable : Prop :=
  ∀ s x, MapReaches b f.reads s x → ∀ i, x.1.slot? = some i → i < b.plrMapTableSize

variable {f}

theorem inTable_iff : f.InTable ↔ ∀ e, nsuInit b f.reads ≠ .halt e := nsuInit_ne_halt_iff.symm

theorem carries_of_slot (hp : p ∈ f.pages) (h : p.read.slot? = some i) : p.Carries i := by
  have hlen : p.sectors.length ≤ 8 := f.sized p hp ▸ b.sectorPerPage_le
  unfold PlrPageRead.slot? at h
  split at h
  next hfl =>
    obtain ⟨h₀, h₁, hsig⟩ := (isPlrFirstLoadPart_eq_one _).mp hfl
    exact .inr ⟨h₀, h₁, hsig, Option.some.inj h⟩
  next =>
    split at h
    next hok =>
      refine .inl ⟨?_, hok.2, Option.some.inj h⟩
      intro hu
      have := (isEccDecodeFail_eccDecodeBchSector p.sectors hlen).mpr hu
      exact absurd (this.symm.trans hok.1) (by decide)
    next => cases h

theorem page_of_reaches (h : MapReaches b f.reads s (p, a)) :
    ∃ q, f.pages[a]? = some q ∧ q.read = p := by
  have hm := List.mem_zipIdx_iff_getElem?.mp h.mem
  rwa [reads, List.getElem?_map, Option.map_eq_some_iff] at hm

structure Counted (f : RawPlrFlash b) (s : MapState) : Prop where
  count : s.cntValidChunk = s.taken (announced f.reads)
  sound : ∀ i, s.Occupied i → f.EntrySound s i

theorem counted_init : Counted f (.init b) := by
  refine ⟨(taken_init b _).symm, ?_⟩
  rintro i ⟨hlt, hh⟩
  refine absurd ?_ hh
  simp only [MapState.init, List.length_replicate] at hlt
  simp [MapState.Hole, MapState.init, hlt]

theorem entrySound_of_gains (hf : f.FillsInRange) (hr : MapReaches b f.reads s (p, a))
    (h : TableStep s (p, a) s') (hg : s.Gains (p, a) i) : f.EntrySound s' i := by
  obtain ⟨hslot, hfree, hhole⟩ := hg
  cases h with
  | keep hkeep _ _ => exact absurd hfree (hkeep i hslot)
  | fill j hj _ ht _ =>
    obtain rfl : j = i := Option.some.inj (hj.symm.trans hslot)
    have hlt := (List.getElem?_eq_some_iff.mp hfree).1
    have hentry : s'.plrVmpageTable[j]? = some (UInt16.ofNat a) := by
      rw [ht, List.getElem?_set_self hlt]
    obtain ⟨-, -, hcut⟩ := hf s p a j hr hslot hfree
    by_cases ha : 65536 ≤ a
    · obtain ⟨q, hq, hc⟩ := hcut ha
      exact ⟨_, q, hentry, hhole, by simpa using hq, hc⟩
    · obtain ⟨q, hq, rfl⟩ := page_of_reaches hr
      have hmod : a % 65536 = a := Nat.mod_eq_of_lt (by omega)
      exact ⟨_, q, hentry, hhole, by simpa [hmod] using hq,
        carries_of_slot (List.mem_of_getElem? hq) hslot⟩

theorem Counted.step (hf : f.FillsInRange) (hr : MapReaches b f.reads s x) (hc : Counted f s)
    (h : TableStep s x s') : Counted f s' := by
  obtain ⟨p, a⟩ := x
  constructor
  · cases hs : h with
    | keep hslot ht hcnt =>
      rw [h.taken_of_not_gains fun i _ hg => hslot i hg.1 hg.2.1, hcnt, hc.count]
    | fill i hslot hfree ht hcnt =>
      obtain ⟨hi, hhole, -⟩ := hf s p a i hr hslot hfree
      rw [h.taken_of_gains ⟨hslot, hfree, hhole⟩ hi, hcnt, hc.count]
  · intro i ho
    rcases (h.occupied_iff i).mp ho with ho | hg
    · obtain ⟨e, q, he, hne, hq⟩ := hc.sound i ho
      exact ⟨e, q, h.entry he hne, hne, hq⟩
    · exact entrySound_of_gains hf hr h hg

theorem EntrySound.occupied (h : f.EntrySound s i) : s.Occupied i := by
  obtain ⟨a, -, he, hne, -⟩ := h
  refine ⟨(List.getElem?_eq_some_iff.mp he).1, ?_⟩
  rw [MapState.Hole, he]
  simpa using hne

theorem soundMap_iff_of_ret (v : VmArea) (h : nsuInit b f.reads = .ret (0, s)) :
    f.SoundMap v s ↔ f.FillsInRange := by
  have hrun := nsuInit_eq_zero.mp h
  have htotal := nsuInit_totalNumOfChunk h
  obtain ⟨t, x, hr, hx⟩ := (Scan.run_eq_iff rfl).mp hrun
  have hstep := (mapPass_ret hx).table
  have hcount := (mapPass_ret_zero hx).1
  constructor
  · intro hsound s₁ p a i hr₁ hslot hfree
    have hfull : s.taken (announced f.reads) = announced f.reads := by
      rw [MapState.taken_eq_iff, ← htotal]
      exact fun i hi => (hsound.entries i hi).occupied
    obtain ⟨after, hrest⟩ := hr₁.rest
    obtain ⟨s₂, h₂, hslack, hkeep⟩ := run_cons_ret_elim (hrest.symm.trans hrun)
    have hle := taken_le_of_reaches hr₁ (announced f.reads)
    have hs : s₂.cntValidChunk + s.taken _ ≤ s.cntValidChunk + s₂.taken _ :=
      hslack (announced f.reads)
    cases hstep₂ : h₂ with
    | keep hno _ _ => exact absurd hfree (hno i hslot)
    | fill j hj _ ht hcnt =>
      obtain rfl : j = i := Option.some.inj (hj.symm.trans hslot)
      have hlt := (List.getElem?_eq_some_iff.mp hfree).1
      -- a slot that does not count below the number of chunks leaves one too many
      by_cases hg : ∃ k < announced f.reads, s₁.Gains (p, a) k
      · obtain ⟨k, hk, hslotk, -, hhole⟩ := hg
        obtain rfl : k = j := Option.some.inj (hslotk.symm.trans hslot)
        refine ⟨hk, hhole, fun ha => ?_⟩
        obtain ⟨e, q, he, -, hq, hc⟩ := hsound.entries k (htotal ▸ hk)
        have hentry := hkeep k (UInt16.ofNat a) (by rw [ht, List.getElem?_set_self hlt]) hhole
        obtain rfl : UInt16.ofNat a = e := Option.some.inj (hentry.symm.trans he)
        exact ⟨q, by simpa using hq, hc⟩
      · push Not at hg
        have := h₂.taken_of_not_gains hg
        omega
  · intro hf
    have hcounted : Counted f s :=
      (Scan.reaches_inv (Counted f) counted_init
        (fun t y t' hy hi ht => hi.step hf hy (mapPass_next ht).table) hr).step hf hr hstep
    have hall : ∀ i < s.totalNumOfChunk, s.Occupied i := by
      rw [← MapState.taken_eq_iff, htotal, ← hcounted.count, hcount, htotal]
    refine ⟨fun i hi => hcounted.sound i (hall i hi), ?_⟩
    intro read pageNum hin
    have hin' : ∀ j < v.chunkPerTlbPage b, s.Occupied (v.index b pageNum + j) :=
      fun j hj => hall _ (by omega)
    simpa [nsuLogicalPageRead] using readChunks_of_occupied read s hin' []

variable (f) in
/-- When `nsu_init` reports success, or goes on behind the end of the table and may report it, the
map is sound exactly if every index lies in the table and every slot the scan took was taken in
range. -/
theorem soundMap_iff (v : VmArea)
    (h : (∃ s, nsuInit b f.reads = .ret (0, s)) ∨ ∃ e, nsuInit b f.reads = .halt e) :
    (∃ s, nsuInit b f.reads = .ret (0, s) ∧ f.SoundMap v s) ↔ f.InTable ∧ f.FillsInRange := by
  rw [inTable_iff]
  constructor
  · rintro ⟨s, hs, hsound⟩
    exact ⟨fun e he => (nomatch hs.symm.trans he), (soundMap_iff_of_ret v hs).mp hsound⟩
  · rintro ⟨hno, hfills⟩
    obtain ⟨s, hs⟩ := h.resolve_right fun ⟨e, he⟩ => hno e he
    exact ⟨s, hs, (soundMap_iff_of_ret v hs).mpr hfills⟩

end RawPlrFlash

def plainPage (idxCopy idxChunk : UInt16) (totalChunk numCopy : UInt32) : RawPlrPage where
  sectors := List.replicate 4 ⟨false, false, 0⟩
  oob := ⟨signaturePlr, idxCopy, idxChunk, totalChunk, numCopy⟩
  data := fun _ => 0
  fl := ⟨⟨true, false, 0⟩, ⟨true, false, 0⟩, 0, 0⟩

def goodPlrFlash : RawPlrFlash board9603cvd where
  pages := [plainPage 0 0 2 1, plainPage 0 1 2 1]
  sized := by decide

theorem goodPlrFlash_fillsInRange : goodPlrFlash.FillsInRange := by
  intro s p a i hr hslot _
  have hm : (p, a) = ((plainPage 0 0 2 1).read, 0) ∨ (p, a) = ((plainPage 0 1 2 1).read, 1) := by
    simpa [goodPlrFlash, RawPlrFlash.reads] using hr.mem
  have hann : announced goodPlrFlash.reads = 2 := by decide
  rw [hann]
  rcases hm with he | he <;> cases he
  · obtain rfl : 0 = i := Option.some.inj hslot
    exact ⟨by decide, by decide, by omega⟩
  · obtain rfl : 1 = i := Option.some.inj hslot
    exact ⟨by decide, by decide, by omega⟩

theorem goodPlrFlash_soundMap :
    nsuInit board9603cvd goodPlrFlash.reads =
        .ret (0, ⟨2, 1, 2, 0 :: 1 :: List.replicate 66 0xFFFF⟩) ∧
      goodPlrFlash.SoundMap ⟨4096, 0⟩ ⟨2, 1, 2, 0 :: 1 :: List.replicate 66 0xFFFF⟩ :=
  have h : nsuInit board9603cvd goodPlrFlash.reads =
      .ret (0, ⟨2, 1, 2, 0 :: 1 :: List.replicate 66 0xFFFF⟩) := by decide
  have hin : goodPlrFlash.InTable := RawPlrFlash.inTable_iff.mpr fun e he => nomatch h.symm.trans he
  have ⟨_, hs, hsound⟩ := (goodPlrFlash.soundMap_iff ⟨4096, 0⟩ (.inl ⟨_, h⟩)).mpr
    ⟨hin, goodPlrFlash_fillsInRange⟩
  have hsame := Outcome.ret.inj (h.symm.trans hs)
  ⟨h, (Prod.mk.inj hsame).2 ▸ hsound⟩

def strayPlrFlash : RawPlrFlash board9603cvd where
  pages := [plainPage 0 5 1 1]
  sized := by decide

def strayMap : MapState := ⟨1, 0, 1, (List.replicate 68 0xFFFF).set 5 0⟩

theorem nsuInit_strayPlrFlash : nsuInit board9603cvd strayPlrFlash.reads = .ret (0, strayMap) := by
  decide

/-- `nsu_init` reports success with the only chunk's slot still a hole. -/
theorem strayPlrFlash_unsound :
    nsuInit board9603cvd strayPlrFlash.reads = .ret (0, strayMap) ∧
      strayMap.plrVmpageTable[0]? = some 0xFFFF ∧
      ∀ v, ¬ strayPlrFlash.SoundMap v strayMap := by
  refine ⟨nsuInit_strayPlrFlash, rfl, ?_⟩
  intro v h
  exact (h.entries 0 (by decide)).occupied.2 rfl

end BismarckPreloader.Nand
