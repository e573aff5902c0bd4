import Mathlib.Algebra.GroupWithZero.Nat
import Mathlib.Data.List.Forall2
import Mathlib.Data.List.Sort
import BismarckPreloader.Layout.Mtdparts

/-!
# Sorting and aligning the partitions

Model of the end of `swp_part_info_init` in `swp_flash_layout.c`: the entries are sorted by
their bases, `swp_adjust_parts_alignment` moves them to erase blocks, and the sizes are the
distances to the next base. The loop of the alignment hands the amount by which an entry was
moved to the next one, and drops it where the next entry seems more than
`MAGIC_BLOCK_NUMBER` blocks away. That distance is unsigned, so that an entry moved past the
base of the next one seems far away too.
-/

namespace BismarckPreloader.Layout

def u32 (n : Nat) : Nat := n % 2 ^ 32

def sub32 (x y : Nat) : Nat := u32 (x + 2 ^ 32 - y)

/-- The inner loop of `swp_sort_part_info`. `rev` holds the entries before the item, the nearest
first; those with a larger base move up by one. -/
def shiftIn (item : PartInfo) : List PartInfo → List PartInfo
  | [] => [item]
  | p :: rev => if item.base < p.base then p :: shiftIn item rev else item :: p :: rev

/-- `swp_sort_part_info`. -/
def swpSortPartInfo (ps : List PartInfo) : List PartInfo :=
  (ps.foldl (fun rev item => shiftIn item rev) []).reverse

/-- `MAGIC_BLOCK_NUMBER`. -/
def magicBlockNumber : Nat := 5

/-- The loop of `swp_adjust_parts_alignment`, from some entry on. -/
def adjustFrom (blockLen : Nat) : Nat → List PartInfo → List PartInfo
  | _, [] => []
  | adjustLen, p :: ps =>
    let sum := u32 (p.base + adjustLen)
    let adjustBase := if sum % blockLen ≠ 0 then u32 ((sum / blockLen + 1) * blockLen) else sum
    let adjustLen := if sum % blockLen ≠ 0 then sub32 adjustBase p.base else adjustLen
    let adjustLen :=
      match ps with
      | [] => adjustLen
      | q :: _ => if sub32 q.base adjustBase / blockLen > magicBlockNumber then 0 else adjustLen
    { p with base := adjustBase } :: adjustFrom blockLen adjustLen ps

/-- `swp_adjust_parts_alignment`. The loop begins at the second entry. -/
def swpAdjustPartsAlignment (blockLen : Nat) : List PartInfo → List PartInfo
  | [] => []
  | p :: ps => p :: adjustFrom blockLen 0 ps

def fillSizes : List PartInfo → List PartInfo
  | [] => []
  | [p] => [p]
  | p :: q :: ps => { p with size := sub32 q.base p.base } :: fillSizes (q :: ps)

/-- The sort, alignment and size steps of `swp_part_info_init`. -/
def swpPartInfoInit (blockLen : Nat) (ps : List PartInfo) : List PartInfo :=
  fillSizes (swpAdjustPartsAlignment blockLen (swpSortPartInfo ps))

/-- What the steps start from. In the build with a single UBI device the entry of that device
has the largest base and a preset size; in the others `END` has the largest base. -/
structure Setup where
  oneUbi : Bool
  parts : List PartInfo
  blockLen : Nat
  limit : Nat
  ids : parts.map PartInfo.id = PartId.all
  bases : ∀ p ∈ parts, p.base < 2 ^ 31
  sizes : ∀ p ∈ parts, p.size < 2 ^ 32 ∧ (p.size ≠ 0 → oneUbi = true ∧ p.id = .ubidev)
  boot : ∀ p ∈ parts, p.id = .boot → p.base = 0
  largest : ∀ p ∈ parts, p.id = (if oneUbi then .ubidev else .endMark) →
    p.base + p.size = limit ∧ ∀ q ∈ parts, q.base ≤ p.base
  blockLen_pos : 0 < blockLen
  limit_dvd : blockLen ∣ limit
  room : ∃ p ∈ parts, p.base + 32 * blockLen < limit ∧
    ∀ q ∈ parts, q.base < limit → q.base ≤ p.base

/-- The layout is a tiling by blocks. The lists are the sorted entries before the alignment and
the entries at the end, both in the order of `pi_ptr`. -/
structure BlockTiling (blockLen limit : Nat) (ps qs : List PartInfo) : Prop where
  sorted : ps.Pairwise fun p p' => p.base ≤ p'.base
  each : List.Forall₂ (fun p q => q.id = p.id ∧ blockLen ∣ q.base ∧ p.base ≤ q.base) ps qs
  ordered : qs.IsChain fun q q' => q.base ≤ q'.base
  sized : (ps.zip qs).IsChain fun z w => z.1.base < w.1.base → blockLen ≤ z.2.size
  exact : qs.IsChain fun q q' => q.base + q.size = q'.base
  tiles : Tiles qs limit

def Setup.Tiled (s : Setup) : Prop :=
  (swpSortPartInfo s.parts).Perm s.parts ∧
    BlockTiling s.blockLen s.limit (swpSortPartInfo s.parts) (swpPartInfoInit s.blockLen s.parts)

def roundUp (bl n : Nat) : Nat := if n % bl ≠ 0 then (n / bl + 1) * bl else n

theorem dvd_roundUp (bl n : Nat) : bl ∣ roundUp bl n := by
  unfold roundUp
  split_ifs with h
  · exact Nat.dvd_mul_left bl _
  · exact Nat.dvd_of_mod_eq_zero (by simpa using h)

theorem le_roundUp {bl : Nat} (hbl : 0 < bl) (n : Nat) : n ≤ roundUp bl n := by
  unfold roundUp
  split_ifs with h
  · have hdiv := Nat.div_add_mod n bl
    have hmod := Nat.mod_lt n hbl
    rw [Nat.add_mul, Nat.one_mul, Nat.mul_comm]
    omega
  · exact le_rfl

theorem roundUp_lt {bl : Nat} (hbl : 0 < bl) (n : Nat) : roundUp bl n < n + bl := by
  unfold roundUp
  split_ifs with h
  · have hdiv := Nat.div_add_mod n bl
    rw [Nat.add_mul, Nat.one_mul, Nat.mul_comm]
    omega
  · exact Nat.lt_add_of_pos_right hbl

theorem add_le_of_dvd_of_lt {bl m n : Nat} (hm : bl ∣ m) (hn : bl ∣ n) (h : m < n) :
    m + bl ≤ n := by
  have := Nat.le_of_dvd (by omega) (Nat.dvd_sub hn hm)
  omega

theorem roundUp_le {bl m n : Nat} (hbl : 0 < bl) (hm : bl ∣ m) (h : n ≤ m) :
    roundUp bl n ≤ m := by
  by_contra hlt
  have hgap := add_le_of_dvd_of_lt hm (dvd_roundUp bl n) (by omega)
  have hnear := roundUp_lt hbl n
  omega

theorem roundUp_of_dvd {bl n : Nat} (h : bl ∣ n) : roundUp bl n = n := by
  simp [roundUp, Nat.mod_eq_zero_of_dvd h]

/-- The place of the next entry, which has the base `b'`, after one with the base `b` was put at
`a`. -/
def nextPlace (bl a b b' : Nat) : Nat :=
  roundUp bl (if b' < a ∨ a + 6 * bl ≤ b' then b' else b' + (a - b))

def placed (bl : Nat) : Nat → List PartInfo → List PartInfo
  | _, [] => []
  | a, [p] => [{ p with base := a }]
  | a, p :: q :: ps =>
    { p with base := a } :: placed bl (nextPlace bl a p.base q.base) (q :: ps)

/-- No entry is put beyond the next larger base, and of entries with one base none but the last
is moved further than to the next block. -/
def Roomy (bl : Nat) : Nat → List PartInfo → Prop
  | _, [] => True
  | _, [_] => True
  | a, p :: q :: ps =>
    (p.base < q.base → a ≤ q.base) ∧ (p.base = q.base → a = roundUp bl p.base) ∧
      Roomy bl (nextPlace bl a p.base q.base) (q :: ps)

instance decidableRoomy (bl : Nat) : ∀ a ps, Decidable (Roomy bl a ps)
  | _, [] => isTrue trivial
  | _, [_] => isTrue trivial
  | a, p :: q :: ps =>
    haveI := decidableRoomy bl (nextPlace bl a p.base q.base) (q :: ps)
    inferInstanceAs (Decidable (_ ∧ _ ∧ _))

def lastEnd : List PartInfo → Nat
  | [] => 0
  | [q] => q.base + q.size
  | _ :: q :: qs => lastEnd (q :: qs)

/-- The condition under which the layout is a tiling by blocks, on the sorted entries. With a
single UBI device that device has to come last and to stay where it is. -/
def Setup.HasRoom (s : Setup) : Prop :=
  Roomy s.blockLen 0 (swpSortPartInfo s.parts) ∧
    (s.oneUbi = true → lastEnd (placed s.blockLen 0 (swpSortPartInfo s.parts)) = s.limit)

def NotBelow (p q : PartInfo) : Prop := q.base ≤ p.base

instance : DecidableRel NotBelow := fun p q => inferInstanceAs (Decidable (q.base ≤ p.base))

instance : Std.Total NotBelow := ⟨fun p q => Nat.le_total q.base p.base⟩

instance : IsTrans PartInfo NotBelow := ⟨fun _ _ _ h h' => Nat.le_trans h' h⟩

theorem shiftIn_eq_orderedInsert (item : PartInfo) (rev : List PartInfo) :
    shiftIn item rev = rev.orderedInsert NotBelow item := by
  induction rev with
  | nil => rfl
  | cons p rev ih =>
    rw [shiftIn, List.orderedInsert_cons, ih]
    by_cases h : item.base < p.base
    · have hr : ¬NotBelow item p := Nat.not_le.mpr h
      rw [if_pos h, if_neg hr]
    · have hr : NotBelow item p := Nat.not_lt.mp h
      rw [if_neg h, if_pos hr]

theorem foldl_shiftIn (ps rev : List PartInfo) (h : rev.Pairwise NotBelow) :
    (ps.foldl (fun rev item => shiftIn item rev) rev).Pairwise NotBelow ∧
      (ps.foldl (fun rev item => shiftIn item rev) rev).Perm (ps ++ rev) := by
  induction ps generalizing rev with
  | nil => exact ⟨h, .refl _⟩
  | cons p ps ih =>
    rw [List.foldl_cons, shiftIn_eq_orderedInsert]
    obtain ⟨hsorted, hperm⟩ := ih _ (h.orderedInsert p rev)
    refine ⟨hsorted, hperm.trans ?_⟩
    exact ((List.perm_orderedInsert NotBelow p rev).append_left ps).trans List.perm_middle

theorem swpSortPartInfo_perm (ps : List PartInfo) : (swpSortPartInfo ps).Perm ps := by
  have h := (foldl_shiftIn ps [] .nil).2
  rw [List.append_nil] at h
  exact (List.reverse_perm _).trans h

theorem swpSortPartInfo_sorted (ps : List PartInfo) :
    (swpSortPartInfo ps).Pairwise fun p p' => p.base ≤ p'.base :=
  List.pairwise_reverse.mpr (foldl_shiftIn ps [] .nil).1

-- ---------------------------------------------------------------------------
-- The loop computes the places
-- ---------------------------------------------------------------------------

theorem sub32_of_le {x y : Nat} (h : y ≤ x) (hx : x < 2 ^ 32) : sub32 x y = x - y := by
  unfold sub32 u32
  omega

theorem sub32_of_lt {x y : Nat} (h : x < y) (hy : y < 2 ^ 32) : sub32 x y = x + 2 ^ 32 - y := by
  unfold sub32 u32
  omega

section Places

variable {bl : Nat} (hbl : 0 < bl) (hsmall : bl < 2 ^ 27)

/-- The entries from `p` on, where `p` was put at `a`: not below its base, and by so little above
it that nothing overflows until the end of the list. -/
structure Fits (bl a : Nat) (p : PartInfo) (ps : List PartInfo) : Prop where
  dvd : bl ∣ a
  le : p.base ≤ a
  near : a + ps.length * bl ≤ p.base + 13 * bl
  sorted : (p :: ps).Pairwise fun p p' => p.base ≤ p'.base
  bases : ∀ q ∈ p :: ps, q.base < 2 ^ 31

include hsmall in
theorem Fits.lt {a : Nat} {p : PartInfo} {ps : List PartInfo} (h : Fits bl a p ps) :
    a < 2 ^ 32 := by
  have hnear := h.near
  have hbase := h.bases p List.mem_cons_self
  omega

theorem Fits.base_le {a : Nat} {p q : PartInfo} {ps : List PartInfo}
    (h : Fits bl a p (q :: ps)) : p.base ≤ q.base :=
  (List.pairwise_cons.mp h.sorted).1 q List.mem_cons_self

theorem dvd_nextPlace (a b b' : Nat) : bl ∣ nextPlace bl a b b' := dvd_roundUp bl _

include hbl in
theorem le_nextPlace (a b b' : Nat) : b' ≤ nextPlace bl a b b' := by
  refine le_trans ?_ (le_roundUp hbl _)
  split_ifs <;> omega

include hbl in
theorem nextPlace_lt (a b b' : Nat) : nextPlace bl a b b' < b' + (a - b) + bl := by
  refine lt_of_lt_of_le (roundUp_lt hbl _) ?_
  split_ifs <;> omega

include hbl in
theorem Fits.next {a : Nat} {p q : PartInfo} {ps : List PartInfo} (h : Fits bl a p (q :: ps)) :
    Fits bl (nextPlace bl a p.base q.base) q ps where
  dvd := dvd_nextPlace a p.base q.base
  le := le_nextPlace hbl a p.base q.base
  near := by
    have hnext := nextPlace_lt hbl a p.base q.base
    have hnear := h.near
    have hle := h.le
    rw [List.length_cons, Nat.add_mul, Nat.one_mul] at hnear
    omega
  sorted := (List.pairwise_cons.mp h.sorted).2
  bases r hr := h.bases r (List.mem_cons_of_mem _ hr)

include hbl hsmall in
theorem far_iff {a b' : Nat} (ha : a < 2 ^ 32) (hb' : b' < 2 ^ 31) (hnear : a ≤ b' + 13 * bl) :
    sub32 b' a / bl > magicBlockNumber ↔ b' < a ∨ a + 6 * bl ≤ b' := by
  have hdiv : sub32 b' a / bl > magicBlockNumber ↔ 6 * bl ≤ sub32 b' a :=
    Nat.le_div_iff_mul_le hbl
  rw [hdiv]
  rcases Nat.lt_or_ge b' a with h | h
  · rw [sub32_of_lt h ha]
    omega
  · rw [sub32_of_le h (by omega)]
    omega

include hbl in
theorem adjustFrom_cons {adjustLen : Nat} {p : PartInfo} (ps : List PartInfo)
    (h : roundUp bl (p.base + adjustLen) < 2 ^ 32) :
    adjustFrom bl adjustLen (p :: ps)
      = { p with base := roundUp bl (p.base + adjustLen) } :: adjustFrom bl
          (match ps with
            | [] => roundUp bl (p.base + adjustLen) - p.base
            | q :: _ =>
              if sub32 q.base (roundUp bl (p.base + adjustLen)) / bl > magicBlockNumber then 0
              else roundUp bl (p.base + adjustLen) - p.base) ps := by
  have hle := le_roundUp hbl (p.base + adjustLen)
  have hsum : u32 (p.base + adjustLen) = p.base + adjustLen := Nat.mod_eq_of_lt (by omega)
  have hbase : (if (p.base + adjustLen) % bl ≠ 0 then
      u32 (((p.base + adjustLen) / bl + 1) * bl) else p.base + adjustLen)
      = roundUp bl (p.base + adjustLen) := by
    unfold roundUp at h ⊢
    split_ifs at h ⊢
    · exact Nat.mod_eq_of_lt h
    · rfl
  have hlen : (if (p.base + adjustLen) % bl ≠ 0 then
      sub32 (roundUp bl (p.base + adjustLen)) p.base else adjustLen)
      = roundUp bl (p.base + adjustLen) - p.base := by
    split_ifs with hmod
    · exact sub32_of_le (by omega) h
    · rw [roundUp, if_neg hmod]
      omega
  rw [adjustFrom.eq_def]
  simp only [hsum, hbase, hlen]

include hbl hsmall in
theorem adjustFrom_eq {adjustLen : Nat} {p : PartInfo} {ps : List PartInfo}
    (h : Fits bl (roundUp bl (p.base + adjustLen)) p ps) :
    adjustFrom bl adjustLen (p :: ps)
      = placed bl (roundUp bl (p.base + adjustLen)) (p :: ps) := by
  induction ps generalizing p adjustLen with
  | nil =>
    rw [adjustFrom_cons hbl [] (h.lt hsmall)]
    rfl
  | cons q ps ih =>
    rw [adjustFrom_cons hbl (q :: ps) (h.lt hsmall), placed]
    have hbq := h.bases q (by simp)
    have hnear : roundUp bl (p.base + adjustLen) ≤ q.base + 13 * bl := by
      have := h.near
      have := h.base_le
      omega
    -- what is handed on is the whole move, whether or not this entry had to be rounded up
    have hplace : roundUp bl (q.base +
        if sub32 q.base (roundUp bl (p.base + adjustLen)) / bl > magicBlockNumber then 0
        else roundUp bl (p.base + adjustLen) - p.base)
        = nextPlace bl (roundUp bl (p.base + adjustLen)) p.base q.base := by
      rw [nextPlace]
      simp only [far_iff hbl hsmall (h.lt hsmall) hbq hnear]
      split_ifs <;> rfl
    have hnext := h.next hbl
    rw [← hplace] at hnext ⊢
    rw [ih hnext]

def final (bl a : Nat) (ps : List PartInfo) : List PartInfo := fillSizes (placed bl a ps)

theorem placed_cons (bl a : Nat) (p : PartInfo) (ps : List PartInfo) :
    ∃ qs, placed bl a (p :: ps) = { p with base := a } :: qs := by
  cases ps with
  | nil => exact ⟨[], rfl⟩
  | cons q ps => exact ⟨_, rfl⟩

theorem final_cons_cons (bl a : Nat) (p q : PartInfo) (ps : List PartInfo) :
    final bl a (p :: q :: ps)
      = { p with base := a, size := sub32 (nextPlace bl a p.base q.base) a }
        :: final bl (nextPlace bl a p.base q.base) (q :: ps) := by
  obtain ⟨qs, hqs⟩ := placed_cons bl (nextPlace bl a p.base q.base) q ps
  rw [final, placed, final, hqs, fillSizes]

theorem final_cons (bl a : Nat) (p : PartInfo) (ps : List PartInfo) :
    ∃ r qs, final bl a (p :: ps) = r :: qs ∧ r.base = a := by
  cases ps with
  | nil => exact ⟨_, [], rfl, rfl⟩
  | cons q ps => exact ⟨_, _, final_cons_cons bl a p q ps, rfl⟩

include hbl in
theorem final_each {a : Nat} {p : PartInfo} {ps : List PartInfo} (h : Fits bl a p ps) :
    List.Forall₂ (fun p q => q.id = p.id ∧ bl ∣ q.base ∧ p.base ≤ q.base) (p :: ps)
      (final bl a (p :: ps)) := by
  induction ps generalizing a p with
  | nil => exact .cons ⟨rfl, h.dvd, h.le⟩ .nil
  | cons q ps ih =>
    rw [final_cons_cons]
    exact .cons ⟨rfl, h.dvd, h.le⟩ (ih (h.next hbl))

include hbl in
/-- One step: the next entry is not below this one, and a block above it where the bases differ,
just if this one was not put beyond the next larger base or, for equal bases, beyond the next
block. -/
theorem step_iff {a b b' : Nat} (ha : bl ∣ a) (hab : b ≤ a) (hb : b ≤ b') :
    (a ≤ nextPlace bl a b b' ∧ (b < b' → a + bl ≤ nextPlace bl a b b')) ↔
      (b < b' → a ≤ b') ∧ (b = b' → a = roundUp bl b) := by
  rcases Nat.lt_or_ge b' a with hover | hover
  · -- the difference wraps, and the next entry is put at or below this one
    have hplace : nextPlace bl a b b' = roundUp bl b' := by
      rw [nextPlace, if_pos (Or.inl hover)]
    have hle : roundUp bl b' ≤ a := roundUp_le hbl ha hover.le
    rw [hplace]
    constructor
    · rintro ⟨h, hlt⟩
      refine ⟨fun hbb => ?_, ?_⟩
      · have := hlt hbb
        omega
      · rintro rfl
        omega
    · rintro ⟨hlt, heq⟩
      have hbb : b = b' := by
        by_contra hne
        have := hlt (by omega)
        omega
      subst hbb
      exact ⟨(heq rfl).le, fun h => absurd h (Nat.lt_irrefl b)⟩
  · have hright : (b < b' → a ≤ b') ∧ (b = b' → a = roundUp bl b) := by
      refine ⟨fun _ => hover, ?_⟩
      rintro rfl
      have hab' : a = b := by omega
      rw [← hab', roundUp_of_dvd ha]
    refine iff_of_true ?_ hright
    by_cases hfar : a + 6 * bl ≤ b'
    · have := le_nextPlace hbl a b b'
      exact ⟨by omega, fun _ => by omega⟩
    · have hplace : nextPlace bl a b b' = roundUp bl (b' + (a - b)) := by
        rw [nextPlace, if_neg (by omega)]
      have hle := le_roundUp hbl (b' + (a - b))
      rw [hplace]
      refine ⟨by omega, fun hbb => ?_⟩
      exact add_le_of_dvd_of_lt ha (dvd_roundUp bl _) (by omega)

include hbl hsmall in
theorem final_iff {a : Nat} {p : PartInfo} {ps : List PartInfo} (h : Fits bl a p ps) :
    ((final bl a (p :: ps)).IsChain (fun q q' => q.base ≤ q'.base) ∧
      ((p :: ps).zip (final bl a (p :: ps))).IsChain
        (fun z w => z.1.base < w.1.base → bl ≤ z.2.size)) ↔ Roomy bl a (p :: ps) := by
  induction ps generalizing a p with
  | nil => simp [final, placed, fillSizes, Roomy]
  | cons q ps ih =>
    have hnext := h.next hbl
    have hstep := step_iff hbl h.dvd h.le h.base_le
    -- the size is a difference of 32 bits, the true one as soon as the places are in order
    have hsize : a ≤ nextPlace bl a p.base q.base →
        sub32 (nextPlace bl a p.base q.base) a = nextPlace bl a p.base q.base - a :=
      fun hle => sub32_of_le hle (hnext.lt hsmall)
    have ih := ih hnext
    obtain ⟨r, qs, hqs, hr⟩ := final_cons bl (nextPlace bl a p.base q.base) q ps
    rw [Roomy, ← ih, final_cons_cons, hqs, ← and_assoc (a := _ → _), ← hstep]
    simp only [List.zip_cons_cons, List.isChain_cons_cons, hr]
    constructor
    · rintro ⟨⟨hle, hord⟩, hsz, hchain⟩
      rw [hsize hle] at hsz
      exact ⟨⟨hle, fun hbb => by have := hsz hbb; omega⟩, hord, hchain⟩
    · rintro ⟨⟨hle, hbb⟩, hord, hchain⟩
      rw [hsize hle]
      exact ⟨⟨hle, hord⟩, fun hlt => by have := hbb hlt; omega, hchain⟩

include hbl hsmall in
theorem final_exact {a : Nat} {p : PartInfo} {ps : List PartInfo} (h : Fits bl a p ps)
    (hord : (final bl a (p :: ps)).IsChain fun q q' => q.base ≤ q'.base) :
    (final bl a (p :: ps)).IsChain fun q q' => q.base + q.size = q'.base := by
  induction ps generalizing a p with
  | nil => simp [final, placed, fillSizes]
  | cons q ps ih =>
    have hnext := h.next hbl
    obtain ⟨r, qs, hqs, hr⟩ := final_cons bl (nextPlace bl a p.base q.base) q ps
    have ih := ih hnext
    rw [final_cons_cons] at hord ⊢
    rw [hqs] at hord ih ⊢
    rw [List.isChain_cons_cons] at hord ⊢
    refine ⟨?_, ih hord.2⟩
    have hle : a ≤ nextPlace bl a p.base q.base := hr ▸ hord.1
    show a + sub32 (nextPlace bl a p.base q.base) a = r.base
    rw [sub32_of_le hle (hnext.lt hsmall), hr]
    omega

theorem lastEnd_final (bl a : Nat) (p : PartInfo) (ps : List PartInfo) :
    lastEnd (final bl a (p :: ps)) = lastEnd (placed bl a (p :: ps)) := by
  induction ps generalizing a p with
  | nil => rfl
  | cons q ps ih =>
    obtain ⟨r, qs, hqs, -⟩ := final_cons bl (nextPlace bl a p.base q.base) q ps
    obtain ⟨rs, hrs⟩ := placed_cons bl (nextPlace bl a p.base q.base) q ps
    have ih := ih (nextPlace bl a p.base q.base) q
    rw [final_cons_cons, placed, hqs, hrs, lastEnd, lastEnd, ← hqs, ← hrs, ih]

include hbl in
/-- An entry at the limit is not moved: the amount is dropped before it, the last entry below
being long. -/
theorem nextPlace_limit {a limit : Nat} {p q : PartInfo} {ps : List PartInfo}
    (h : Fits bl a p (q :: ps)) (hlimit : bl ∣ limit)
    (hroom : p.base < limit → p.base + 32 * bl < limit) (ha : p.base = limit → a = limit)
    (hq : q.base = limit) : nextPlace bl a p.base q.base = limit := by
  have hle := h.base_le
  have hnear := h.near
  rcases Nat.lt_or_ge p.base limit with hp | hp
  · have := hroom hp
    rw [nextPlace, if_pos (Or.inr (by omega)), hq, roundUp_of_dvd hlimit]
  · have hp : p.base = limit := by omega
    rw [nextPlace, if_neg (by have := ha hp; omega), ha hp, hp, hq, Nat.sub_self, Nat.add_zero,
      roundUp_of_dvd hlimit]

include hbl in
theorem lastEnd_placed {a limit : Nat} {p : PartInfo} {ps : List PartInfo} (h : Fits bl a p ps)
    (hlimit : bl ∣ limit) (hsizes : ∀ q ∈ p :: ps, q.size = 0)
    (hle : ∀ q ∈ p :: ps, q.base ≤ limit) (hmem : ∃ q ∈ p :: ps, q.base = limit)
    (hroom : ∀ q ∈ p :: ps, q.base < limit → q.base + 32 * bl < limit)
    (ha : p.base = limit → a = limit) : lastEnd (placed bl a (p :: ps)) = limit := by
  induction ps generalizing a p with
  | nil =>
    obtain ⟨q, hq, hbase⟩ := hmem
    obtain rfl : q = p := by simpa using hq
    have hsize := hsizes q List.mem_cons_self
    rw [placed, lastEnd, hsize, Nat.add_zero]
    exact ha hbase
  | cons q ps ih =>
    obtain ⟨rs, hrs⟩ := placed_cons bl (nextPlace bl a p.base q.base) q ps
    have hmem' : ∃ r ∈ q :: ps, r.base = limit := by
      obtain ⟨r, hr, hbase⟩ := hmem
      rcases List.mem_cons.mp hr with rfl | hr
      · exact ⟨q, by simp, Nat.le_antisymm (hle q (by simp)) (hbase ▸ h.base_le)⟩
      · exact ⟨r, hr, hbase⟩
    have htail := ih (h.next hbl) (fun r hr => hsizes r (List.mem_cons_of_mem _ hr))
      (fun r hr => hle r (List.mem_cons_of_mem _ hr)) hmem'
      (fun r hr => hroom r (List.mem_cons_of_mem _ hr))
      (nextPlace_limit hbl h hlimit (hroom p List.mem_cons_self) ha)
    rw [placed, hrs, lastEnd, ← hrs, htail]

end Places

theorem covers_of_exact {q : PartInfo} {qs : List PartInfo}
    (h : (q :: qs).IsChain fun q q' => q.base + q.size = q'.base) :
    Covers q.base (nonEmpty (q :: qs)) (lastEnd (q :: qs)) := by
  induction qs generalizing q with
  | nil =>
    by_cases hq : q.size = 0 <;> simp [nonEmpty, Covers, lastEnd, hq]
  | cons r qs ih =>
    rw [List.isChain_cons_cons] at h
    have ih := ih h.2
    by_cases hq : q.size = 0
    · have hr : r.base = q.base := by omega
      rw [hr] at ih
      simpa [nonEmpty, hq, lastEnd] using ih
    · have hcons : nonEmpty (q :: r :: qs) = q :: nonEmpty (r :: qs) := by simp [nonEmpty, hq]
      rw [hcons, Covers, h.1]
      exact ⟨rfl, ih⟩

theorem covers_unique {a e e' : Nat} {qs : List PartInfo} (h : Covers a qs e)
    (h' : Covers a qs e') : e = e' := by
  induction qs generalizing a with
  | nil => exact Eq.trans (Eq.symm h) h'
  | cons q qs ih => exact ih h.2 h'.2

-- ---------------------------------------------------------------------------
-- The setups
-- ---------------------------------------------------------------------------

namespace Setup

variable (s : Setup)

theorem exists_largest : ∃ q ∈ s.parts, q.id = (if s.oneUbi then .ubidev else .endMark) := by
  have hmem : (if s.oneUbi then PartId.ubidev else .endMark) ∈ s.parts.map PartInfo.id :=
    s.ids ▸ PartId.mem_all _
  exact List.mem_map.mp hmem

theorem blockLen_small : s.blockLen < 2 ^ 27 := by
  obtain ⟨p, hp, hroom, hlast⟩ := s.room
  obtain ⟨q, hq, hid⟩ := s.exists_largest
  have hlimit := (s.largest q hq hid).1
  have hbase := s.bases q hq
  have hsize := (s.sizes q hq).1
  by_cases hz : q.size = 0
  · omega
  · have := hlast q hq (by omega)
    omega

theorem sorted_eq : ∃ p ps, swpSortPartInfo s.parts = p :: ps ∧ p.base = 0 ∧
    Fits s.blockLen 0 p ps := by
  have hperm := swpSortPartInfo_perm s.parts
  have hsorted := swpSortPartInfo_sorted s.parts
  have hlen : (swpSortPartInfo s.parts).length = 14 := by
    rw [hperm.length_eq, ← List.length_map PartInfo.id, s.ids]
    rfl
  have hmem : PartId.boot ∈ s.parts.map PartInfo.id := s.ids ▸ PartId.mem_all _
  obtain ⟨b, hb, hid⟩ := List.mem_map.mp hmem
  have hb0 := s.boot b hb hid
  have hbs := hperm.mem_iff.mpr hb
  have hbases : ∀ q ∈ swpSortPartInfo s.parts, q.base < 2 ^ 31 :=
    fun q hq => s.bases q (hperm.mem_iff.mp hq)
  cases hps : swpSortPartInfo s.parts with
  | nil => simp [hps] at hlen
  | cons p ps =>
    rw [hps] at hsorted hlen hbs hbases
    have hp0 : p.base = 0 := by
      rcases List.mem_cons.mp hbs with rfl | hbs
      · exact hb0
      · have := (List.pairwise_cons.mp hsorted).1 b hbs
        omega
    have hlen' : ps.length = 13 := by simpa using hlen
    exact ⟨p, ps, rfl, hp0, Nat.dvd_zero _, hp0.le, by rw [hlen', hp0], hsorted, hbases⟩

theorem swpPartInfoInit_eq {p : PartInfo} {ps : List PartInfo}
    (hps : swpSortPartInfo s.parts = p :: ps) (hp : p.base = 0) (h : Fits s.blockLen 0 p ps) :
    swpPartInfoInit s.blockLen s.parts = final s.blockLen 0 (p :: ps) := by
  rw [swpPartInfoInit, hps, swpAdjustPartsAlignment, final]
  congr 1
  cases ps with
  | nil =>
    rw [adjustFrom, placed, ← hp]
  | cons q ps =>
    -- the loop begins at the second entry with no move, as after a first entry that stays at 0
    have hplace : nextPlace s.blockLen 0 p.base q.base = roundUp s.blockLen (q.base + 0) := by
      rw [nextPlace]
      split_ifs <;> simp
    have hnext := h.next s.blockLen_pos
    rw [hplace] at hnext
    rw [placed, hplace, ← adjustFrom_eq s.blockLen_pos s.blockLen_small hnext, ← hp]

/-- Without a single UBI device the entries end at the limit, since `END` is not moved. -/
theorem lastEnd_of_end (h : s.oneUbi = false) {p : PartInfo} {ps : List PartInfo}
    (hps : swpSortPartInfo s.parts = p :: ps) (hp : p.base = 0) (hfits : Fits s.blockLen 0 p ps) :
    lastEnd (placed s.blockLen 0 (p :: ps)) = s.limit := by
  have hmem : ∀ q, q ∈ p :: ps ↔ q ∈ s.parts :=
    fun q => hps ▸ (swpSortPartInfo_perm s.parts).mem_iff
  have hsizes : ∀ q ∈ s.parts, q.size = 0 := by
    intro q hq
    by_contra hz
    have := ((s.sizes q hq).2 hz).1
    simp [h] at this
  obtain ⟨e, he, hid⟩ := s.exists_largest
  obtain ⟨hlimit, hlargest⟩ := s.largest e he hid
  rw [hsizes e he, Nat.add_zero] at hlimit
  obtain ⟨r, -, hroom, hlast⟩ := s.room
  apply lastEnd_placed s.blockLen_pos hfits s.limit_dvd
  · exact fun q hq => hsizes q ((hmem q).mp hq)
  · exact fun q hq => hlimit ▸ hlargest q ((hmem q).mp hq)
  · exact ⟨e, (hmem e).mpr he, hlimit⟩
  · intro q hq hlt
    have := hlast q ((hmem q).mp hq) hlt
    omega
  · intro heq
    omega

theorem blockTiling_of_hasRoom (h : s.HasRoom) :
    BlockTiling s.blockLen s.limit (swpSortPartInfo s.parts)
      (swpPartInfoInit s.blockLen s.parts) := by
  obtain ⟨p, ps, hps, hp, hfits⟩ := s.sorted_eq
  have hlast := lastEnd_final s.blockLen 0 p ps
  obtain ⟨r, qs, hqs, hr⟩ := final_cons s.blockLen 0 p ps
  obtain ⟨hroomy, hubi⟩ := h
  rw [hps] at hroomy hubi
  obtain ⟨hord, hsized⟩ := (final_iff s.blockLen_pos s.blockLen_small hfits).mpr hroomy
  have hexact := final_exact s.blockLen_pos s.blockLen_small hfits hord
  have hend : lastEnd (final s.blockLen 0 (p :: ps)) = s.limit := by
    cases hone : s.oneUbi with
    | true => exact hlast.trans (hubi hone)
    | false => exact hlast.trans (s.lastEnd_of_end hone hps hp hfits)
  have hcovers := covers_of_exact (hqs ▸ hexact)
  rw [hr, ← hqs, hend] at hcovers
  rw [s.swpPartInfoInit_eq hps hp hfits, hps]
  exact ⟨hfits.sorted, final_each s.blockLen_pos hfits, hord, hsized, hexact, hcovers⟩

theorem hasRoom_of_blockTiling (h : BlockTiling s.blockLen s.limit (swpSortPartInfo s.parts)
    (swpPartInfoInit s.blockLen s.parts)) : s.HasRoom := by
  obtain ⟨p, ps, hps, hp, hfits⟩ := s.sorted_eq
  obtain ⟨r, qs, hqs, hr⟩ := final_cons s.blockLen 0 p ps
  rw [s.swpPartInfoInit_eq hps hp hfits, hps] at h
  have htiles := h.tiles
  have hcovers := covers_of_exact (hqs ▸ h.exact)
  rw [hr] at hcovers
  rw [Tiles, hqs] at htiles
  rw [HasRoom, hps, ← lastEnd_final, hqs]
  exact ⟨(final_iff s.blockLen_pos s.blockLen_small hfits).mp ⟨h.ordered, h.sized⟩,
    fun _ => covers_unique hcovers htiles⟩

/-- The steps of `swp_part_info_init` give a tiling by blocks just where each entry has room for
the move of the entries before it. -/
theorem tiled_iff : s.Tiled ↔ s.HasRoom :=
  ⟨fun h => s.hasRoom_of_blockTiling h.2,
    fun h => ⟨swpSortPartInfo_perm s.parts, s.blockTiling_of_hasRoom h⟩⟩

-- The layout of a flash of 128 MB has room for erase blocks of 128K.
example : Roomy 0x20000 0 (swpSortPartInfo
    [⟨.cfgfs, 0x100000, 0⟩, ⟨.env2, 0xE0000, 0⟩, ⟨.opt3, 0x3D80000, 0⟩, ⟨.opt4, 0x4580000, 0⟩,
      ⟨.kernel1, 0xB80000, 0⟩, ⟨.kernel2, 0x2480000, 0⟩, ⟨.rootfs1, 0x1080000, 0⟩,
      ⟨.rootfs2, 0x2980000, 0⟩, ⟨.endMark, 0x7D80000, 0⟩, ⟨.env, 0xC0000, 0⟩,
      ⟨.app, 0x4D80000, 0⟩, ⟨.ubidev, 0, 0⟩, ⟨.cfgSt, 0, 0⟩, ⟨.boot, 0, 0⟩]) := by
  decide +kernel

def largeParts : List PartInfo :=
  [⟨.cfgfs, 0x100000, 0⟩, ⟨.env2, 0xE0000, 0⟩, ⟨.opt3, 0, 0⟩, ⟨.opt4, 0, 0⟩, ⟨.kernel1, 0, 0⟩,
    ⟨.kernel2, 0, 0⟩, ⟨.rootfs1, 0, 0⟩, ⟨.rootfs2, 0, 0⟩, ⟨.endMark, 0x4000000, 0⟩,
    ⟨.env, 0xC0000, 0⟩, ⟨.app, 0, 0⟩, ⟨.ubidev, 0, 0⟩, ⟨.cfgSt, 0, 0⟩, ⟨.boot, 0, 0⟩]

theorem largeParts_ids : largeParts.map PartInfo.id = PartId.all := by decide

theorem largeParts_bases : ∀ p ∈ largeParts, p.base < 2 ^ 31 := by decide

theorem largeParts_sizes :
    ∀ p ∈ largeParts, p.size < 2 ^ 32 ∧ (p.size ≠ 0 → false = true ∧ p.id = .ubidev) := by decide

theorem largeParts_boot : ∀ p ∈ largeParts, p.id = .boot → p.base = 0 := by decide

theorem largeParts_largest :
    ∀ p ∈ largeParts, p.id = (if false = true then PartId.ubidev else .endMark) →
      p.base + p.size = 0x4000000 ∧ ∀ q ∈ largeParts, q.base ≤ p.base := by decide

theorem largeParts_limit_dvd : 0x80000 ∣ 0x4000000 := by decide

theorem largeParts_room : ∃ p ∈ largeParts, p.base + 32 * 0x80000 < 0x4000000 ∧
    ∀ q ∈ largeParts, q.base < 0x4000000 → q.base ≤ p.base := by decide

def largeBlocks : Setup :=
  ⟨false, largeParts, 0x80000, 0x4000000, largeParts_ids, largeParts_bases, largeParts_sizes,
    largeParts_boot, largeParts_largest, Nat.succ_pos _, largeParts_limit_dvd, largeParts_room⟩

/-- The environment is moved to 1M, beyond the base of its copy, which is then moved to 1M too:
the environment is left without a size. -/
theorem largeBlocks_not_tiled : ¬largeBlocks.Tiled := by
  rintro ⟨-, h⟩
  exact absurd h.sized (by decide +kernel)

theorem ids_of_each {bl : Nat} {ps qs : List PartInfo}
    (h : List.Forall₂ (fun p q => q.id = p.id ∧ bl ∣ q.base ∧ p.base ≤ q.base) ps qs) :
    qs.map PartInfo.id = ps.map PartInfo.id := by
  induction h with
  | nil => rfl
  | cons hpq _ ih => rw [List.map_cons, List.map_cons, hpq.1, ih]

theorem ids_swpPartInfoInit (h : s.HasRoom) :
    ((swpPartInfoInit s.blockLen s.parts).map PartInfo.id).Perm PartId.all := by
  rw [ids_of_each (s.blockTiling_of_hasRoom h).each, ← s.ids]
  exact (swpSortPartInfo_perm s.parts).map PartInfo.id

def table (h : s.HasRoom) : Table :=
  ⟨swpPartInfoInit s.blockLen s.parts, s.ids_swpPartInfoInit h, s.limit,
    (s.blockTiling_of_hasRoom h).tiles⟩

theorem mtdparts_swpPartInfoInit (h : s.HasRoom) (b : Build) (img : Image)
    (mtdpartsDefault : Nat) :
    Cmdline.mtdparts (mtdpartsText b (swpPartInfoInit s.blockLen s.parts) img mtdpartsDefault)
      = some ((nonEmpty (swpPartInfoInit s.blockLen s.parts)).map PartInfo.mtd
        ++ virtualMtds b (swpPartInfoInit s.blockLen s.parts) img mtdpartsDefault) := by
  rw [mtdparts_mtdpartsText]
  exact congrArg some (place_items b (s.table h) img mtdpartsDefault)

end Setup

-- ---------------------------------------------------------------------------
-- The layouts of the board
-- ---------------------------------------------------------------------------

/-- The bases of `part_info`; those that are not set are 0. -/
structure Bases where
  env : Nat
  env2 : Nat
  cfgfs : Nat
  cfgSt : Nat
  k0 : Nat
  kSize : Nat
  rSize : Nat
  opt3 : Nat
  opt4 : Nat
  app : Nat
  endBase : Nat

def Bases.r0 (x : Bases) : Nat := x.k0 + x.kSize

def Bases.k1 (x : Bases) : Nat := x.r0 + x.rSize

def Bases.r1 (x : Bases) : Nat := x.k1 + x.kSize

def Bases.parts (x : Bases) : List PartInfo :=
  [⟨.cfgfs, x.cfgfs, 0⟩, ⟨.env2, x.env2, 0⟩, ⟨.opt3, x.opt3, 0⟩, ⟨.opt4, x.opt4, 0⟩,
    ⟨.kernel1, x.k0, 0⟩, ⟨.kernel2, x.k1, 0⟩, ⟨.rootfs1, x.r0, 0⟩, ⟨.rootfs2, x.r1, 0⟩,
    ⟨.endMark, x.endBase, 0⟩, ⟨.env, x.env, 0⟩, ⟨.app, x.app, 0⟩, ⟨.ubidev, 0, 0⟩,
    ⟨.cfgSt, x.cfgSt, 0⟩, ⟨.boot, 0, 0⟩]

def kb (n : Nat) : Nat := n * 1024

/-- What is left of one half of the flash behind the kernel. -/
def halfRest (size k0 kSize : Nat) : Nat := ((size - k0) >>> 1) - kSize

def norBases (size kSize : Nat) : Bases :=
  ⟨kb 256, kb 264, kb 272, 0, kb 512, kSize, halfRest size (kb 512) kSize, 0, 0, 0, size⟩

def onfiBases (cfgfs k0 size : Nat) : Bases :=
  ⟨0xC0000, 0xE0000, cfgfs, 0, k0, kb 8192, halfRest size k0 (kb 8192), 0, 0, 0, size⟩

def nand64 (cfgSt k0 kSize : Nat) : Bases :=
  let size := kb (65536 - 1280)
  let x : Bases := ⟨0xC0000, 0xE0000, 0xE0000 + kb 128, cfgSt, k0, kSize, halfRest size k0 kSize,
    0, 0, 0, size⟩
  { x with opt3 := x.r1 + kb 1024, opt4 := x.r1 + kb 2048 }

def nand128 (cfgSt k0 kSize : Nat) : Bases :=
  let x : Bases := ⟨0xC0000, 0xE0000, 0xE0000 + kb 128, cfgSt, k0, kSize, kb 20480, 0, 0, 0,
    kb (131072 - 2560)⟩
  let opt3 := x.r1 + x.rSize
  { x with opt3 := opt3, opt4 := opt3 + kb 8192, app := opt3 + kb 16384 }

/-- The larger ones have no partitions for frameworks. -/
def nandLarge (cfgfs rSize endBase cfgSt k0 kSize : Nat) : Bases :=
  let x : Bases := ⟨0xC0000, 0xE0000, cfgfs, cfgSt, k0, kSize, rSize, 0, 0, 0, endBase⟩
  { x with app := x.r1 + x.rSize }

def nand256 : Nat → Nat → Nat → Bases :=
  nandLarge (0xE0000 + kb 128) (kb 48640) (kb (262144 - 5120))

def nand512 : Nat → Nat → Nat → Bases :=
  nandLarge (0xE0000 + kb 256) (kb 177152) (kb (524288 - 10240))

/-- What the switch of `swp_part_info_init` sets, for each kind of flash and each size it knows,
SPI NAND without and with `CONFIG_STATIC_CONFIG`. The places of the environment are those of
`rtl9603cvd.h`. -/
def boardBases : List (MtdDevice × Bases) :=
  [(.snof, norBases (kb 8192) (kb 1408)), (.snof, norBases (kb 16384) (kb 3072)),
    (.snof, norBases (kb 32768) (kb 6144)),
    (.snaf, nand64 0 (kb 11264) (kb 7168)),
    (.snaf, nand64 (kb 11264) (kb 11392) (kb 7104)),
    (.snaf, nand128 0 (kb 11776) (kb 5120)),
    (.snaf, nand128 (kb 11776) (kb 11904) (kb 4992)),
    (.snaf, nand256 0 (kb 12288) (kb 8192)),
    (.snaf, nand256 (kb 12288) (kb 12544) (kb 8064)),
    (.snaf, nand512 0 (kb 12288) (kb 8192)),
    (.snaf, nand512 (kb 12288) (kb 12544) (kb 7936)),
    (.onfi, onfiBases (kb 1024) (kb 11264) (kb (65536 - 1280))),
    (.onfi, onfiBases (kb 768) (kb 25600) (kb (131072 - 2560)))]

/-- Every text written for the board fits `str_tmp[256]` with its end mark. -/
theorem length_boardText : ∀ x ∈ boardBases, ∀ multiBoot : Bool, ∀ img ∈ [Image.img0, .img1],
    ∀ mtdpartsDefault ∈ [0, 1],
      (swpFlashLayoutToMtdparts ⟨x.1, multiBoot, true⟩ (fillSizes (swpSortPartInfo x.2.parts)) img
        mtdpartsDefault).length < 256 := by
  decide +kernel

end BismarckPreloader.Layout
