import BismarckPreloader.Layout.Cmdline
import BismarckPreloader.Layout.Table

/-!
# The `mtdparts` text

Model of `swp_to_KMGB`, `swp_flash_layout_to_mtdparts` and `removeTailComma` of
`swp_flash_layout.c` in builds without `CONFIG_RTK_USE_ONE_UBI_DEVICE`: the text that hands the
flash layout and the root partition to the kernel. A text is the list of its characters.
-/

namespace BismarckPreloader.Layout

open Cmdline

inductive MtdDevice
  | snof | snaf | onfi
  deriving DecidableEq, Repr

/-- `SWP_RTK_MTD_DEV_NAME`. -/
def MtdDevice.name : MtdDevice → List Char
  | snof => ['r', 't', 'k', '_', 's', 'p', 'i', '_', 'n', 'o', 'r', '_', 'm', 't', 'd']
  | snaf => ['s', 'p', 'i', 'n', 'a', 'n', 'd']
  | onfi => ['o', 'n', 'f', 'i']

/-- The options of the build that the text depends on: `CONFIG_LUNA_MULTI_BOOT` and
`CONFIG_BOOT_IMG_RO`, which is 1 unless it is configured. -/
structure Build where
  device : MtdDevice
  multiBoot : Bool
  bootImgRo : Bool
  deriving DecidableEq, Repr

inductive Image
  | img0 | img1
  deriving DecidableEq, Repr

/-- `SWP_FL_KERNEL_ID`. -/
def Image.kernelId : Image → PartId
  | img0 => .kernel1
  | img1 => .kernel2

/-- `SWP_FL_ROOTFS_ID`. -/
def Image.rootfsId : Image → PartId
  | img0 => .rootfs1
  | img1 => .rootfs2

def gbBits : Nat := 30
def mbBits : Nat := 20
def kbBits : Nat := 10
def gbMask : Nat := 2 ^ gbBits - 1
def mbMask : Nat := 2 ^ mbBits - 1
def kbMask : Nat := 2 ^ kbBits - 1

def swpToKMGB (val : Nat) : List Char :=
  if val &&& gbMask = 0 then Nat.toDigits 10 (val >>> gbBits) ++ ['G']
  else if val &&& mbMask = 0 then Nat.toDigits 10 (val >>> mbBits) ++ ['M']
  else if val &&& kbMask = 0 then Nat.toDigits 10 (val >>> kbBits) ++ ['K']
  else Nat.toDigits 10 val

/-- `PROTECT_SUFFIX`. -/
def protectSuffix (b : Build) : List Char := if b.multiBoot then ['r', 'o'] else []

def entryText (b : Build) (img : Image) (p : PartInfo) : List Char :=
  swpToKMGB p.size ++ ('(' :: p.id.name ++ ')' ::
    if b.bootImgRo ∧ (p.id = img.rootfsId ∨ p.id = img.kernelId) then protectSuffix b else [])

/-- The variables of the loop over `pi_ptr`. -/
structure Emitted where
  text : List Char
  j : Nat
  rootfsPartition : Nat
  deriving DecidableEq, Repr

/-- One round of the loop. `OTTO_NAND_FLASH` is defined nowhere, so that the number of the root
partition is not decremented. -/
def emit (b : Build) (img : Image) (s : Emitted) (p : PartInfo) : Emitted :=
  if p.size ≠ 0 then
    { text := s.text ++ (entryText b img p ++ [','])
      j := s.j + 1
      rootfsPartition := if p.id = img.rootfsId then s.j else s.rootfsPartition }
  else s

/-- `SWP_VIRTUAL_MTD_START`. -/
def virtualMtdStart : Nat := 12

def filler : List Char := ['4', 'K', '@', '0', 'r', 'o']

/-- `SWP_BOOT_KERNEL`. -/
def bootKernel : List Char := ['l', 'i', 'n', 'u', 'x']

/-- `SWP_BOOT_ROOTFS`. -/
def bootRootfs : List Char := ['r', 'o', 'o', 't', 'f', 's']

def aliasText (p : PartInfo) (w : List Char) : List Char :=
  swpToKMGB p.size ++ '@' :: (swpToKMGB p.base ++ ('(' :: w ++ [')']))

def info (ps : List PartInfo) (i : PartId) : PartInfo :=
  (ps.find? (·.id = i)).getD ⟨i, 0, 0⟩

def header (b : Build) : List Char := mtdpartsKey ++ '=' :: b.device.name ++ [':']

def emitted (b : Build) (ps : List PartInfo) (img : Image) : Emitted :=
  ps.foldl (emit b img) ⟨header b, 0, arraySize⟩

def stripComma (t : List Char) : List Char := if t.getLast? = some ',' then t.dropLast else t

def virtualText (ps : List PartInfo) (img : Image) (j : Nat) : List Char :=
  (List.replicate (virtualMtdStart - j) (filler ++ [','])).flatten
    ++ (aliasText (info ps img.kernelId) bootKernel ++ [','])
    ++ (aliasText (info ps img.rootfsId) bootRootfs ++ [','])

/-- `swp_flash_layout_to_mtdparts`. -/
def swpFlashLayoutToMtdparts (b : Build) (ps : List PartInfo) (img : Image)
    (mtdpartsDefault : Nat) : List Char :=
  let s := emitted b ps img
  if mtdpartsDefault ≠ 0 then s.text
  else
    let text := stripComma (s.text ++ if b.multiBoot then virtualText ps img s.j else [])
    if s.rootfsPartition = arraySize then text
    else text ++ (rootKey ++ Nat.toDigits 10 s.rootfsPartition)

def removeTailComma (t : List Char) : List Char :=
  if t.length - 1 ≠ 0 ∧ t.getLast? = some ',' then t.dropLast else t

/-- What `swp_otto_flash_layout_init` hands to the environment. -/
def mtdpartsText (b : Build) (ps : List PartInfo) (img : Image) (mtdpartsDefault : Nat) :
    List Char :=
  removeTailComma (swpFlashLayoutToMtdparts b ps img mtdpartsDefault)

/-- A partition table: every entry of `part_info` once, the non-empty ones tiling the flash in
the order of `pi_ptr`. Nothing below depends on the width of bases and sizes. -/
structure Table where
  parts : List PartInfo
  ids : (parts.map PartInfo.id).Perm PartId.all
  limit : Nat
  tiles : Tiles parts limit

def PartInfo.mtd (p : PartInfo) : Mtd := ⟨p.base, p.size, some p.id.name⟩

/-- The text describes the layout: the kernel reads the non-empty entries first, and nothing
else unless the aliases are asked for; the aliases are where the boot arguments expect them; and
the root partition is the root file system of the image. -/
structure Describes (b : Build) (t : Table) (img : Image) (mtdpartsDefault : Nat)
    (mtds : List Mtd) : Prop where
  reads : mtdparts (mtdpartsText b t.parts img mtdpartsDefault) = some mtds
  first : (nonEmpty t.parts).map PartInfo.mtd <+: mtds
  whole : mtdpartsDefault ≠ 0 ∨ b.multiBoot = false →
    mtds = (nonEmpty t.parts).map PartInfo.mtd
  linux : mtdpartsDefault = 0 → b.multiBoot = true →
    (nonEmpty t.parts).length ≤ virtualMtdStart →
    mtds[virtualMtdStart]? = some ⟨(info t.parts img.kernelId).base,
      (info t.parts img.kernelId).size, some bootKernel⟩
  rootfs : mtdpartsDefault = 0 → b.multiBoot = true →
    (nonEmpty t.parts).length ≤ virtualMtdStart →
    mtds[virtualMtdStart + 1]? = some ⟨(info t.parts img.rootfsId).base,
      (info t.parts img.rootfsId).size, some bootRootfs⟩
  root : mtdpartsDefault = 0 → (info t.parts img.rootfsId).size ≠ 0 →
    ∃ n, rootNumber (mtdpartsText b t.parts img mtdpartsDefault) = some n ∧
      mtds[n]? = some (info t.parts img.rootfsId).mtd

-- ---------------------------------------------------------------------------
-- What the kernel reads in each piece
-- ---------------------------------------------------------------------------

theorem shift_of_mask {v k : Nat} (h : v &&& (2 ^ k - 1) = 0) : (v >>> k) * 2 ^ k = v := by
  rw [Nat.and_two_pow_sub_one_eq_mod] at h
  rw [Nat.shiftRight_eq_div_pow]
  exact Nat.div_mul_cancel (Nat.dvd_of_mod_eq_zero h)

theorem memparse_unit {v k : Nat} {c : Char} (hv : v &&& (2 ^ k - 1) = 0)
    (hc : multiplier c = some (2 ^ k)) (hd : c.isDigit = false) (t : List Char) :
    memparse (Nat.toDigits 10 (v >>> k) ++ [c] ++ t) = some (v, t) := by
  rw [List.append_assoc, List.singleton_append, memparse_scaled _ hc hd, shift_of_mask hv]

theorem memparse_swpToKMGB (v : Nat) {t : List Char} (h : Ends t) :
    memparse (swpToKMGB v ++ t) = some (v, t) := by
  unfold swpToKMGB
  split_ifs with hg hm hk
  · exact memparse_unit hg (by decide) (by decide) t
  · exact memparse_unit hm (by decide) (by decide) t
  · exact memparse_unit hk (by decide) (by decide) t
  · exact memparse_plain v h

theorem plain_digits {n : Nat} {c : Char} (hc : c ∈ Nat.toDigits 10 n) : c ≠ ',' ∧ c ≠ ' ' := by
  have hd := Nat.isDigit_of_mem_toDigits (by decide) (by decide) hc
  constructor <;> rintro rfl <;> revert hd <;> decide

theorem plain_swpToKMGB {v : Nat} {c : Char} (hc : c ∈ swpToKMGB v) : c ≠ ',' ∧ c ≠ ' ' := by
  unfold swpToKMGB at hc
  split_ifs at hc
  case neg => exact plain_digits hc
  all_goals
    rcases List.mem_append.mp hc with hc | hc
    · exact plain_digits hc
    · rw [List.mem_singleton.mp hc]
      decide

theorem PartId.plain_name (i : PartId) : ∀ c ∈ i.name, c ≠ ')' ∧ c ≠ ',' ∧ c ≠ ' ' := by
  cases i <;> simp [PartId.name]

def entryItem (b : Build) (img : Image) (p : PartInfo) : MtdPart :=
  ⟨p.size, none, some p.id.name,
    decide (b.bootImgRo ∧ (p.id = img.rootfsId ∨ p.id = img.kernelId)) && b.multiBoot⟩

theorem item_entry (b : Build) (img : Image) (p : PartInfo) :
    Item (entryText b img p) (entryItem b img p) := by
  have hname : ')' ∉ p.id.name := fun h => (p.id.plain_name _ h).1 rfl
  constructor
  · rw [part, entryText, memparse_swpToKMGB _ (by simp [Ends]; decide)]
    simp only [Option.bind_some, offset, List.cons_append, List.head?_cons, Option.some.injEq,
      Char.reduceEq, if_false]
    rw [← List.cons_append, name_bracketed hname]
    simp only [Option.bind_some, entryItem, protectSuffix]
    split_ifs <;> simp_all [readOnly]
  · intro c hc
    simp only [entryText, protectSuffix, List.mem_append, List.mem_cons] at hc
    rcases hc with hc | (rfl | hc) | rfl | hc
    · exact plain_swpToKMGB hc
    · decide
    · exact (p.id.plain_name c hc).2
    · decide
    · split_ifs at hc
      · simp only [List.mem_cons, List.not_mem_nil, or_false] at hc
        rcases hc with rfl | rfl <;> decide
      · simp at hc
      · simp at hc

theorem item_filler : Item filler ⟨2 ^ 12, some 0, none, true⟩ :=
  ⟨by decide +kernel, by simp [filler]⟩

theorem item_alias (p : PartInfo) {w : List Char}
    (hw : ∀ c ∈ w, c ≠ ')' ∧ c ≠ ',' ∧ c ≠ ' ') :
    Item (aliasText p w) ⟨p.size, some p.base, some w, false⟩ := by
  have hname : ')' ∉ w := fun h => (hw _ h).1 rfl
  constructor
  · rw [part, aliasText, memparse_swpToKMGB _ (by simp [Ends]; decide)]
    simp only [Option.bind_some, offset, List.head?_cons, if_true, List.tail_cons]
    rw [memparse_swpToKMGB _ (by simp [Ends]; decide)]
    simp only [Option.map_some, Option.bind_some]
    rw [name_bracketed hname]
    simp [readOnly]
  · intro c hc
    simp only [aliasText, List.mem_append, List.mem_cons, List.not_mem_nil, or_false] at hc
    rcases hc with hc | rfl | hc | (rfl | hc) | rfl
    · exact plain_swpToKMGB hc
    · decide
    · exact plain_swpToKMGB hc
    · decide
    · exact (hw c hc).2
    · decide

section Loop

variable (b : Build) (img : Image)

theorem foldl_emit_nonEmpty (ps : List PartInfo) (s : Emitted) :
    ps.foldl (emit b img) s = (nonEmpty ps).foldl (emit b img) s := by
  induction ps generalizing s with
  | nil => rfl
  | cons p ps ih =>
    by_cases hp : p.size = 0
    · simpa [nonEmpty, hp, emit] using ih s
    · simpa [nonEmpty, hp] using ih (emit b img s p)

theorem emit_of_mem {ps : List PartInfo} {p : PartInfo} (hp : p ∈ nonEmpty ps) (s : Emitted) :
    emit b img s p =
      { text := s.text ++ (entryText b img p ++ [','])
        j := s.j + 1
        rootfsPartition := if p.id = img.rootfsId then s.j else s.rootfsPartition } := by
  have hsize : p.size ≠ 0 := by simpa [nonEmpty] using (List.mem_filter.mp hp).2
  rw [emit, if_pos hsize]

theorem foldl_emit {ps es : List PartInfo} (hes : es ⊆ nonEmpty ps) (s : Emitted) :
    (es.foldl (emit b img) s).text = s.text ++ listed (es.map (entryText b img)) ∧
      (es.foldl (emit b img) s).j = s.j + es.length := by
  induction es generalizing s with
  | nil => simp [listed]
  | cons p es ih =>
    have hp := emit_of_mem b img (hes List.mem_cons_self) s
    obtain ⟨htext, hj⟩ := ih (fun q hq => hes (List.mem_cons_of_mem _ hq)) (emit b img s p)
    rw [List.foldl_cons, htext, hj, hp]
    constructor
    · simp [listed]
    · simp only [List.length_cons]
      omega

theorem foldl_emit_other {ps es : List PartInfo} (hes : es ⊆ nonEmpty ps)
    (hid : ∀ p ∈ es, p.id ≠ img.rootfsId) (s : Emitted) :
    (es.foldl (emit b img) s).rootfsPartition = s.rootfsPartition := by
  induction es generalizing s with
  | nil => rfl
  | cons p es ih =>
    rw [List.foldl_cons, ih (fun q hq => hes (List.mem_cons_of_mem _ hq))
      (fun q hq => hid q (List.mem_cons_of_mem _ hq)), emit_of_mem b img (hes List.mem_cons_self),
      if_neg (hid p List.mem_cons_self)]

theorem foldl_emit_rootfs {ps as bs : List PartInfo} {r : PartInfo}
    (hps : nonEmpty ps = as ++ r :: bs) (hr : r.id = img.rootfsId)
    (hbs : ∀ p ∈ bs, p.id ≠ img.rootfsId) (s : Emitted) :
    (ps.foldl (emit b img) s).rootfsPartition = s.j + as.length := by
  have has : as ⊆ nonEmpty ps := by simp [hps]
  have hbsub : bs ⊆ nonEmpty ps := by
    rw [hps]
    exact fun q hq => by simp [hq]
  have hrm : r ∈ nonEmpty ps := by simp [hps]
  -- a later root file system would overwrite the number
  rw [foldl_emit_nonEmpty, hps, List.foldl_append, List.foldl_cons,
    foldl_emit_other b img hbsub hbs, emit_of_mem b img hrm, if_pos hr]
  exact (foldl_emit b img has s).2

end Loop

-- ---------------------------------------------------------------------------
-- The whole text
-- ---------------------------------------------------------------------------

theorem getLast_listed {ts : List (List Char)} (h : ts ≠ []) :
    (listed ts).getLast? = some ',' := by
  obtain ⟨us, t, rfl⟩ := List.eq_nil_or_concat ts |>.resolve_left h
  simp [listed]

theorem stripComma_listed {pre : List Char} (hpre : pre.getLast? ≠ some ',')
    (ts : List (List Char)) : stripComma (pre ++ listed ts) = pre ++ joined ts := by
  by_cases h : ts = []
  · subst h
    simp [stripComma, listed, joined, hpre]
  · have hne : listed ts ≠ [] := by
      intro hnil
      have := getLast_listed h
      simp [hnil] at this
    rw [stripComma, List.getLast?_append, getLast_listed h, Option.some_or, if_pos rfl,
      List.dropLast_append_of_ne_nil hne, joined]

theorem getLast_joined {ts : List (List Char)} {ms : List MtdPart}
    (h : List.Forall₂ Item ts ms) : (joined ts).getLast? ≠ some ',' := by
  induction h with
  | nil => simp [joined, listed]
  | @cons t m ts ms ht hts ih =>
    cases hts with
    | nil =>
      rw [joined_singleton]
      exact fun hl => ht.no_comma (List.mem_of_getLast? hl)
    | @cons u _ us _ hu _ =>
      have hl := List.getLast?_eq_some_getLast (joined_ne_nil hu.ne_nil us)
      rw [joined_cons_cons, ← List.singleton_append, List.getLast?_append, List.getLast?_append,
        hl]
      rw [hl] at ih
      simpa using ih

theorem stripComma_eq {t : List Char} (h : t.getLast? ≠ some ',') : stripComma t = t :=
  if_neg h

theorem removeTailComma_eq {t : List Char} (h : 2 ≤ t.length) :
    removeTailComma t = stripComma t := by
  have hlen : t.length - 1 ≠ 0 := by omega
  simp [removeTailComma, stripComma, hlen]

theorem getLast_digits (t : List Char) (n : Nat) :
    (t ++ Nat.toDigits 10 n).getLast? ≠ some ',' := by
  have hl := List.getLast?_eq_some_getLast (Nat.toDigits_ne_nil (n := n) (b := 10))
  rw [List.getLast?_append, hl, Option.some_or]
  intro h
  exact (plain_digits (List.getLast_mem Nat.toDigits_ne_nil)).1 (Option.some.inj h)

theorem two_le_header (b : Build) (t : List Char) : 2 ≤ (header b ++ t).length := by
  simp only [header, mtdpartsKey, List.length_append, List.length_cons, List.length_nil]
  omega

theorem getLast_header (b : Build) : (header b).getLast? ≠ some ',' := by
  rw [header, List.getLast?_append]
  simp

def virtualTexts (b : Build) (ps : List PartInfo) (img : Image) (mtdpartsDefault : Nat) :
    List (List Char) :=
  if mtdpartsDefault = 0 ∧ b.multiBoot then
    List.replicate (virtualMtdStart - (nonEmpty ps).length) filler
      ++ [aliasText (info ps img.kernelId) bootKernel, aliasText (info ps img.rootfsId) bootRootfs]
  else []

def virtualItems (b : Build) (ps : List PartInfo) (img : Image) (mtdpartsDefault : Nat) :
    List MtdPart :=
  if mtdpartsDefault = 0 ∧ b.multiBoot then
    List.replicate (virtualMtdStart - (nonEmpty ps).length) ⟨2 ^ 12, some 0, none, true⟩
      ++ [⟨(info ps img.kernelId).size, some (info ps img.kernelId).base, some bootKernel, false⟩,
        ⟨(info ps img.rootfsId).size, some (info ps img.rootfsId).base, some bootRootfs, false⟩]
  else []

def texts (b : Build) (ps : List PartInfo) (img : Image) (mtdpartsDefault : Nat) :
    List (List Char) :=
  (nonEmpty ps).map (entryText b img) ++ virtualTexts b ps img mtdpartsDefault

def items (b : Build) (ps : List PartInfo) (img : Image) (mtdpartsDefault : Nat) :
    List MtdPart :=
  (nonEmpty ps).map (entryItem b img) ++ virtualItems b ps img mtdpartsDefault

theorem forall_items (b : Build) (ps : List PartInfo) (img : Image) (mtdpartsDefault : Nat) :
    List.Forall₂ Item (texts b ps img mtdpartsDefault) (items b ps img mtdpartsDefault) := by
  have hentries : List.Forall₂ Item ((nonEmpty ps).map (entryText b img))
      ((nonEmpty ps).map (entryItem b img)) := by
    rw [List.forall₂_map_left_iff, List.forall₂_map_right_iff, List.forall₂_same]
    exact fun p _ => item_entry b img p
  have hfillers : ∀ k, List.Forall₂ Item (List.replicate k filler)
      (List.replicate k ⟨2 ^ 12, some 0, none, true⟩) := by
    intro k
    induction k with
    | zero => exact .nil
    | succ k ih => exact .cons item_filler ih
  have hvirtual : List.Forall₂ Item (virtualTexts b ps img mtdpartsDefault)
      (virtualItems b ps img mtdpartsDefault) := by
    unfold virtualTexts virtualItems
    split_ifs
    · exact List.rel_append (hfillers _) (.cons (item_alias _ (by simp [bootKernel]))
        (.cons (item_alias _ (by simp [bootRootfs])) .nil))
    · exact .nil
  exact List.rel_append hentries hvirtual

theorem emitted_eq (b : Build) (ps : List PartInfo) (img : Image) :
    (emitted b ps img).text = header b ++ listed ((nonEmpty ps).map (entryText b img)) ∧
      (emitted b ps img).j = (nonEmpty ps).length := by
  have h := foldl_emit b img (List.Subset.refl (nonEmpty ps)) ⟨header b, 0, arraySize⟩
  rw [emitted, foldl_emit_nonEmpty]
  exact ⟨h.1, h.2.trans (Nat.zero_add _)⟩

def rootText (b : Build) (ps : List PartInfo) (img : Image) (mtdpartsDefault : Nat) :
    List Char :=
  if mtdpartsDefault = 0 ∧ (emitted b ps img).rootfsPartition ≠ arraySize then
    rootKey ++ Nat.toDigits 10 (emitted b ps img).rootfsPartition
  else []

theorem virtualText_eq (ps : List PartInfo) (img : Image) :
    virtualText ps img (nonEmpty ps).length
      = listed (List.replicate (virtualMtdStart - (nonEmpty ps).length) filler
        ++ [aliasText (info ps img.kernelId) bootKernel,
          aliasText (info ps img.rootfsId) bootRootfs]) := by
  simp [virtualText, listed, List.flatMap_def]

theorem mtdpartsText_eq (b : Build) (ps : List PartInfo) (img : Image) (mtdpartsDefault : Nat) :
    mtdpartsText b ps img mtdpartsDefault
      = header b ++ joined (texts b ps img mtdpartsDefault)
        ++ rootText b ps img mtdpartsDefault := by
  obtain ⟨htext, hj⟩ := emitted_eq b ps img
  have hlisted : ∀ ts us : List (List Char), listed (ts ++ us) = listed ts ++ listed us := by
    intro ts us
    simp [listed]
  rw [mtdpartsText, swpFlashLayoutToMtdparts]
  simp only [htext, hj]
  by_cases hd : mtdpartsDefault = 0
  · subst hd
    have hpieces : header b ++ listed ((nonEmpty ps).map (entryText b img))
        ++ (if b.multiBoot then virtualText ps img (nonEmpty ps).length else [])
        = header b ++ listed (texts b ps img 0) := by
      rw [texts, hlisted, virtualTexts, virtualText_eq]
      split_ifs <;> simp_all [listed]
    rw [if_neg (by simp), hpieces, stripComma_listed (getLast_header b)]
    -- the comma is gone already, so that `removeTailComma` finds none
    by_cases hroot : (emitted b ps img).rootfsPartition = arraySize
    · rw [if_pos hroot, removeTailComma_eq (two_le_header b _), rootText, if_neg (by simp [hroot]),
        List.append_nil]
      apply stripComma_eq
      rw [List.getLast?_append]
      have hl := getLast_joined (forall_items b ps img 0)
      cases hc : (joined (texts b ps img 0)).getLast? with
      | none => simpa using getLast_header b
      | some c => simpa [hc] using hl
    · rw [if_neg hroot, List.append_assoc, removeTailComma_eq (two_le_header b _), rootText,
        if_pos ⟨rfl, hroot⟩, List.append_assoc]
      apply stripComma_eq
      simpa [List.append_assoc] using
        getLast_digits (header b ++ joined (texts b ps img 0) ++ rootKey) _
  · -- the function returns early and leaves the comma to `removeTailComma`
    rw [if_pos hd, removeTailComma_eq (two_le_header b _), stripComma_listed (getLast_header b),
      rootText, if_neg (by simp [hd]), texts, virtualTexts, if_neg (by simp [hd])]
    simp

-- ---------------------------------------------------------------------------
-- The kernel's view of the layout
-- ---------------------------------------------------------------------------

theorem plain_device (d : MtdDevice) : ∀ c ∈ d.name, c ≠ ' ' ∧ c ≠ ':' := by
  cases d <;> simp [MtdDevice.name]

theorem plain_header (b : Build) : ∀ c ∈ header b, c ≠ ' ' := by
  intro c hc
  simp only [header, List.mem_append, List.mem_cons, List.not_mem_nil, or_false] at hc
  rcases hc with (hc | rfl | hc) | rfl
  · exact (plain_key c hc).1
  · decide
  · exact (plain_device b.device c hc).1
  · decide

theorem mtdparts_mtdpartsText (b : Build) (ps : List PartInfo) (img : Image)
    (mtdpartsDefault : Nat) :
    mtdparts (mtdpartsText b ps img mtdpartsDefault)
      = some (place 0 (items b ps img mtdpartsDefault)) := by
  have htail : ∀ c ∈ (rootText b ps img mtdpartsDefault).head?, c = ' ' := by
    unfold rootText
    split_ifs
    · simp [rootKey]
    · simp
  have hline := mtdparts_line (plain_device b.device) (forall_items b ps img mtdpartsDefault) htail
  rw [mtdpartsText_eq, ← hline]
  simp [header]

theorem place_entries (b : Build) (img : Image) {a e : Nat} {ps : List PartInfo}
    (h : Covers a ps e) (ms : List MtdPart) :
    place a (ps.map (entryItem b img) ++ ms) = ps.map PartInfo.mtd ++ place e ms := by
  induction ps generalizing a with
  | nil =>
    obtain rfl : a = e := h
    rfl
  | cons p ps ih =>
    obtain ⟨hbase, hcovers⟩ := h
    rw [List.map_cons, List.cons_append, place, List.map_cons, List.cons_append]
    simp only [entryItem, Option.getD_none, List.cons.injEq]
    exact ⟨by rw [PartInfo.mtd, hbase], ih hcovers⟩

def virtualMtds (b : Build) (ps : List PartInfo) (img : Image) (mtdpartsDefault : Nat) :
    List Mtd :=
  (virtualItems b ps img mtdpartsDefault).map fun m => ⟨m.offset.getD 0, m.size, m.name⟩

theorem place_items (b : Build) (t : Table) (img : Image) (mtdpartsDefault : Nat) :
    place 0 (items b t.parts img mtdpartsDefault)
      = (nonEmpty t.parts).map PartInfo.mtd ++ virtualMtds b t.parts img mtdpartsDefault := by
  have hoffset : ∀ m ∈ virtualItems b t.parts img mtdpartsDefault, m.offset.isSome := by
    intro m hm
    unfold virtualItems at hm
    split_ifs at hm
    · simp only [List.mem_append, List.mem_replicate, List.mem_cons, List.not_mem_nil,
        or_false] at hm
      rcases hm with ⟨-, rfl⟩ | rfl | rfl <;> rfl
    · simp at hm
  rw [items, place_entries b img t.tiles, place_of_offset hoffset, virtualMtds]

theorem virtual_getElem (b : Build) (t : Table) (img : Image) (k : Nat)
    (hmulti : b.multiBoot = true) (hroom : (nonEmpty t.parts).length ≤ virtualMtdStart) :
    ((nonEmpty t.parts).map PartInfo.mtd ++ virtualMtds b t.parts img 0)[virtualMtdStart + k]?
      = [(⟨(info t.parts img.kernelId).base, (info t.parts img.kernelId).size,
            some bootKernel⟩ : Mtd),
          ⟨(info t.parts img.rootfsId).base, (info t.parts img.rootfsId).size,
            some bootRootfs⟩][k]? := by
  rw [virtualMtds, virtualItems, if_pos ⟨rfl, hmulti⟩, List.map_append, ← List.append_assoc,
    List.getElem?_append_right (by simp; omega)]
  congr 1
  simp
  omega

-- ---------------------------------------------------------------------------
-- The root partition
-- ---------------------------------------------------------------------------

theorem info_spec (t : Table) (i : PartId) :
    info t.parts i ∈ t.parts ∧ (info t.parts i).id = i := by
  have hmem : i ∈ t.parts.map PartInfo.id := t.ids.mem_iff.mpr (PartId.mem_all i)
  obtain ⟨p, hp, hid⟩ := List.mem_map.mp hmem
  have hsome : (t.parts.find? (·.id = i)).isSome := by
    rw [List.find?_isSome]
    exact ⟨p, hp, by simpa using hid⟩
  obtain ⟨q, hq⟩ := Option.isSome_iff_exists.mp hsome
  rw [info, hq, Option.getD_some]
  exact ⟨List.mem_of_find?_eq_some hq, by simpa using List.find?_some hq⟩

theorem length_nonEmpty_le (t : Table) : (nonEmpty t.parts).length ≤ arraySize := by
  have hlen : t.parts.length = arraySize := by
    rw [← List.length_map PartInfo.id, t.ids.length_eq]
    rfl
  exact hlen ▸ List.length_filter_le _ _

theorem root_spec (b : Build) (t : Table) (img : Image)
    (hsize : (info t.parts img.rootfsId).size ≠ 0) :
    (emitted b t.parts img).rootfsPartition < arraySize ∧
      (nonEmpty t.parts)[(emitted b t.parts img).rootfsPartition]?
        = some (info t.parts img.rootfsId) := by
  obtain ⟨hmem, hid⟩ := info_spec t img.rootfsId
  have hnon : info t.parts img.rootfsId ∈ nonEmpty t.parts :=
    List.mem_filter.mpr ⟨hmem, by simpa using hsize⟩
  obtain ⟨as, bs, hsplit⟩ := List.append_of_mem hnon
  have hnodup : ((nonEmpty t.parts).map PartInfo.id).Nodup :=
    (t.ids.nodup_iff.mpr PartId.nodup_all).sublist (List.filter_sublist.map _)
  have hbs : ∀ p ∈ bs, p.id ≠ img.rootfsId := by
    intro p hp heq
    rw [hsplit, List.map_append, List.map_cons, List.nodup_append] at hnodup
    have hcons := (List.nodup_cons.mp hnodup.2.1).1
    exact hcons (List.mem_map.mpr ⟨p, hp, heq.trans hid.symm⟩)
  have hpos : (emitted b t.parts img).rootfsPartition = as.length :=
    (foldl_emit_rootfs b img hsplit hid hbs _).trans (Nat.zero_add _)
  -- with 14 entries the position is never the mark for a root file system that was not found
  have hlen := length_nonEmpty_le t
  rw [hsplit, List.length_append, List.length_cons] at hlen
  constructor
  · rw [hpos]
    omega
  · rw [hpos, hsplit]
    simp

/-- The text of `swp_flash_layout_to_mtdparts` describes the layout, in every build, for every
table, for both images and with and without the default flag. -/
theorem mtdpartsText_describes (b : Build) (t : Table) (img : Image) (mtdpartsDefault : Nat) :
    ∃ mtds, Describes b t img mtdpartsDefault mtds := by
  refine ⟨(nonEmpty t.parts).map PartInfo.mtd ++ virtualMtds b t.parts img mtdpartsDefault,
    ?_, List.prefix_append _ _, ?_, ?_, ?_, ?_⟩
  · rw [mtdparts_mtdpartsText, place_items]
  · intro h
    have hno : ¬(mtdpartsDefault = 0 ∧ b.multiBoot = true) := by
      rintro ⟨rfl, hb⟩
      rcases h with h | h
      · exact h rfl
      · simp [hb] at h
    rw [virtualMtds, virtualItems, if_neg hno, List.map_nil, List.append_nil]
  · rintro rfl hmulti hroom
    exact virtual_getElem b t img 0 hmulti hroom
  · rintro rfl hmulti hroom
    exact virtual_getElem b t img 1 hmulti hroom
  · rintro rfl hsize
    obtain ⟨hlt, hget⟩ := root_spec b t img hsize
    refine ⟨(emitted b t.parts img).rootfsPartition, ?_, ?_⟩
    · have hword : ∀ c ∈ header b ++ joined (texts b t.parts img 0), c ≠ ' ' := by
        intro c hc
        rcases List.mem_append.mp hc with hc | hc
        · exact plain_header b c hc
        · exact plain_joined (forall_items b t.parts img 0) c hc
      rw [mtdpartsText_eq, rootText, if_pos ⟨rfl, Nat.ne_of_lt hlt⟩]
      exact rootNumber_line hword _
    · obtain ⟨hlen, -⟩ := List.getElem?_eq_some_iff.mp hget
      rw [List.getElem?_append_left (by simpa using hlen), List.getElem?_map, hget]
      rfl

example : mtdpartsText ⟨.snaf, false, true⟩
    [⟨.boot, 0, 0xC0000⟩, ⟨.env, 0xC0000, 0⟩, ⟨.kernel1, 0xC0000, 0x700000⟩,
      ⟨.rootfs1, 0x7C0000, 1000⟩] .img0 0
      = "mtdparts=spinand:768K(boot),7M(k0),1000(r0) root=31:2".toList := by
  decide +kernel

end BismarckPreloader.Layout
