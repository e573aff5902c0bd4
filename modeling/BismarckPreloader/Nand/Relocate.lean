import BismarckPreloader.Auth.BringUp

/-!
# Where U-Boot runs

`uboot_bring_up` of the SPI NAND preloader. The loader has put the image behind the place it
is inflated to; from there it is moved up to the load address its header names. Pointers have
32 bits. Source, staging area and destination may overlap, and the header is overwritten by
the first copy. The decoder of compressed images is a parameter.

The stack is in the same memory: `change_sp_to_dram` has put it right below the loaded image, in
the range that a load address may reach. Between the last copy and the jump `puts`, `osc_init`
and the cache functions store there, in their frames and in the local `otto_sc`, and so the
payload is in its place exactly if its destination is clear of the stack.
-/

namespace BismarckPreloader.Nand

open Auth (wordAt uimgMagicNum magicUboot2011 uihCompNone uihCompLzma)

-- ---------------------------------------------------------------------------
-- The copies
-- ---------------------------------------------------------------------------

/-- `inline_memcpy`, with `l` bytes left. -/
def inlineMemcpy (m : Mem) (d s : UInt32) : Nat → Mem
  | 0 => m
  | l + 1 => inlineMemcpy (m.set d.toNat (m s.toNat)) (d + 1) (s + 1) l

/-- The loop of `inline_backward_memcpy`, from the ends of both regions. -/
def backwardLoop (m : Mem) (d s : UInt32) : Nat → Mem
  | 0 => m
  | l + 1 => backwardLoop (m.set (d - 1).toNat (m (s - 1).toNat)) (d - 1) (s - 1) l

def inlineBackwardMemcpy (m : Mem) (d s : UInt32) (l : Nat) : Mem :=
  backwardLoop m (d + UInt32.ofNat l) (s + UInt32.ofNat l) l

def pair (d s : UInt32) (i : Nat) : Nat × Nat :=
  ((d + UInt32.ofNat i).toNat, (s + UInt32.ofNat i).toNat)

theorem inlineMemcpy_eq (m : Mem) (d s : UInt32) (l : Nat) :
    inlineMemcpy m d s l = m.moves ((List.range l).map (pair d s)) := by
  induction l generalizing m d s with
  | zero => rfl
  | succ l ih =>
    have hpair : pair (d + 1) (s + 1) = pair d s ∘ Nat.succ := by
      funext i
      simp only [pair, Function.comp_apply, Nat.succ_eq_add_one, UInt32.ofNat_add]
      rw [UInt32.add_assoc, UInt32.add_assoc, UInt32.add_comm 1]
      rfl
    rw [inlineMemcpy, ih, List.range_succ_eq_map, List.map_cons, List.map_map, hpair, Mem.moves]
    simp [pair]

theorem backwardLoop_eq (m : Mem) (d s : UInt32) (l : Nat) :
    backwardLoop m (d + UInt32.ofNat l) (s + UInt32.ofNat l) l =
      m.moves ((List.range l).reverse.map (pair d s)) := by
  induction l generalizing m with
  | zero => rfl
  | succ l ih =>
    have hback : ∀ p : UInt32, p + UInt32.ofNat (l + 1) - 1 = p + UInt32.ofNat l := by
      intro p
      rw [UInt32.ofNat_add, ← UInt32.add_assoc]
      exact UInt32.add_sub_cancel _ _
    rw [backwardLoop, hback, hback, ih, List.range_succ, List.reverse_append,
      List.reverse_singleton, List.singleton_append, List.map_cons, Mem.moves]
    rfl

theorem inlineMemcpy_spec (m : Mem) {d s : UInt32} (hl : l ≤ 2 ^ 32)
    (h : ∀ i j, i < j → j < l → (pair d s i).1 ≠ (pair d s j).2) (hi : i < l) :
    inlineMemcpy m d s l (pair d s i).1 = m (pair d s i).2 := by
  rw [inlineMemcpy_eq]
  refine Mem.moves_spec m ?_ (List.mem_map_of_mem (List.mem_range.mpr hi))
  rw [List.pairwise_map]
  refine List.pairwise_lt_range.imp_of_mem fun hi hj hij => ⟨fun he => ?_, ?_⟩
  · rw [List.mem_range] at hi hj
    have := offset_inj (by omega) (by omega) he
    omega
  · exact h _ _ hij (List.mem_range.mp hj)

theorem inlineBackwardMemcpy_spec (m : Mem) {d s : UInt32} (hl : l ≤ 2 ^ 32)
    (h : ∀ i j, i < j → j < l → (pair d s j).1 ≠ (pair d s i).2) (hi : i < l) :
    inlineBackwardMemcpy m d s l (pair d s i).1 = m (pair d s i).2 := by
  rw [inlineBackwardMemcpy, backwardLoop_eq]
  refine Mem.moves_spec m ?_ (List.mem_map_of_mem (List.mem_reverse.mpr (List.mem_range.mpr hi)))
  rw [List.pairwise_map, List.pairwise_reverse]
  refine List.pairwise_lt_range.imp_of_mem fun hi hj hij => ⟨fun he => ?_, ?_⟩
  · rw [List.mem_range] at hi hj
    have := offset_inj (by omega) (by omega) he
    omega
  · exact h _ _ hij (List.mem_range.mp hj)

-- ---------------------------------------------------------------------------
-- The function
-- ---------------------------------------------------------------------------

structure Inflated where
  mem : Mem
  len : UInt32
  res : Int

/-- A decoder that is correct when its output ends at or below its input. What it does to the
rest of the memory is open. A stream has a header, so the empty one expands to nothing. -/
structure Lzma where
  decompress : Mem → UInt32 → UInt32 → UInt32 → Inflated
  expand : List UInt8 → Option (List UInt8)
  expand_nil : expand [] = none
  correct : ∀ (m : Mem) (src dest len : UInt32) (out : List UInt8),
    expand (m.slice src.toNat len.toNat) = some out → dest.toNat + out.length ≤ src.toNat →
    (decompress m src dest len).res = 0 ∧ (decompress m src dest len).len.toNat = out.length ∧
      (decompress m src dest len).mem.slice dest.toNat out.length = out

inductive BringUpStop where
  | loader (r : Int)
  | decompress (r : Int)
  | unsupported
  deriving DecidableEq, Repr

structure Started where
  mem : Mem
  entry : UInt32

/-- The start of `uboot_bring_up` after the loader: where the image and the staging area are,
what `ecc_uboot_to_dram` has returned, whether the memory calibration is done. Without it
the decoder runs on a stack in DRAM. The stack in use, with the frames of the functions that are
called at the end, is from `stackLow` up to `stackHigh`. -/
structure BringUp where
  ubootDecompAddr : UInt32
  eccDecodedUbootAddr : UInt32
  stackLow : Nat
  stackHigh : Nat
  totalUbootPages : Int
  pageSize : Nat
  mem : Mem
  memCalOk : Bool
  lzmaDecompress : Lzma
  lzmaChspJump : Lzma

namespace BringUp

variable (b : BringUp)

def word (off : Nat) : UInt32 := wordAt b.mem (b.eccDecodedUbootAddr.toNat + off)

def ihMagic : UInt32 := b.word 0
def ihSize : UInt32 := b.word 12
def ihLoad : UInt32 := b.word 16
def ihEp : UInt32 := b.word 20
def ihComp : UInt8 := b.mem (b.eccDecodedUbootAddr.toNat + 31)

def sizeofHeader : Nat := 64

def HasHeader : Prop := b.ihMagic = uimgMagicNum ∨ b.ihMagic = magicUboot2011

instance : Decidable b.HasHeader := inferInstanceAs (Decidable (_ ∨ _))

def loadedSize : Nat := b.totalUbootPages.toNat * b.pageSize

def lzma : Lzma := if b.memCalOk then b.lzmaDecompress else b.lzmaChspJump

def OnStack (a : Nat) : Prop := b.stackLow ≤ a ∧ a < b.stackHigh

instance (a : Nat) : Decidable (b.OnStack a) := inferInstanceAs (Decidable (_ ∧ _))

/-- The calls of `puts`, `osc_init(&otto_sc)` and the cache functions: they store on the stack
only, and leave there what `stack` holds. -/
def report (mem stack : Mem) : Mem := fun a => if b.OnStack a then stack a else mem a

/-- The last copy, the calls behind it and the jump. The variables still needed are in
registers. -/
def launch (stack mem : Mem) (mcpSize loadAddr entryAddr : UInt32) : Started :=
  let mem := if b.ubootDecompAddr ≠ loadAddr then
    inlineBackwardMemcpy mem loadAddr b.ubootDecompAddr mcpSize.toNat else mem
  ⟨b.report mem stack, entryAddr⟩

def ubootBringUp (stack : Mem) : Except BringUpStop Started :=
  if b.totalUbootPages < 0 then .error (.loader b.totalUbootPages)
  else if b.ihMagic ≠ uimgMagicNum ∧ b.ihMagic ≠ magicUboot2011 then
    let mcpSize := UInt32.ofNat b.loadedSize
    let mem := inlineMemcpy b.mem b.ubootDecompAddr b.eccDecodedUbootAddr mcpSize.toNat
    .ok (b.launch stack mem mcpSize b.ubootDecompAddr b.ubootDecompAddr)
  else
    let mcpSrcAddr := b.eccDecodedUbootAddr + UInt32.ofNat sizeofHeader
    if b.ihComp = uihCompLzma then
      let r := b.lzma.decompress b.mem mcpSrcAddr b.ubootDecompAddr b.ihSize
      if r.res ≠ 0 then .error (.decompress r.res)
      else .ok (b.launch stack r.mem r.len b.ihLoad b.ihEp)
    else if b.ihComp = uihCompNone then
      let mem := inlineMemcpy b.mem b.ubootDecompAddr mcpSrcAddr b.ihSize.toNat
      .ok (b.launch stack mem b.ihSize b.ihLoad b.ihEp)
    else .error .unsupported

inductive Carries : UInt32 → List UInt8 → Prop
  | raw (h : ¬b.HasHeader) :
      Carries b.ubootDecompAddr (b.mem.slice b.eccDecodedUbootAddr.toNat b.loadedSize)
  | plain (h : b.HasHeader) (hcomp : b.ihComp = uihCompNone)
      (hin : sizeofHeader + b.ihSize.toNat ≤ b.loadedSize) :
      Carries b.ihLoad (b.mem.slice (b.eccDecodedUbootAddr.toNat + sizeofHeader) b.ihSize.toNat)
  | compressed (h : b.HasHeader) (hcomp : b.ihComp = uihCompLzma)
      (hin : sizeofHeader + b.ihSize.toNat ≤ b.loadedSize)
      (hout : b.lzma.expand (b.mem.slice (b.eccDecodedUbootAddr.toNat + sizeofHeader)
        b.ihSize.toNat) = some out)
      (hlen : out.length ≤ b.eccDecodedUbootAddr.toNat - b.ubootDecompAddr.toNat) :
      Carries b.ihLoad out

end BringUp

/-- An image the loader has placed. A destination that runs past the top of the address space
must not come round to the staging area; with the memory in the upper half, where the
preloader has it, none does. -/
structure PlacedImage where
  bringUp : BringUp
  maxUbootSize : Nat
  loadAddr : UInt32
  payload : List UInt8
  loaded : 0 ≤ bringUp.totalUbootPages
  size_le : bringUp.loadedSize ≤ maxUbootSize
  inside : bringUp.eccDecodedUbootAddr.toNat + bringUp.loadedSize ≤ 2 ^ 32
  below : bringUp.ubootDecompAddr < bringUp.eccDecodedUbootAddr
  carries : bringUp.Carries loadAddr payload
  load_ge : bringUp.ubootDecompAddr ≤ loadAddr
  load_le : loadAddr.toNat + payload.length ≤ 2 ^ 32 + bringUp.ubootDecompAddr.toNat

namespace BringUp

variable {b : BringUp} {m : Mem} {payload : List UInt8}

def Staged (b : BringUp) (m : Mem) (payload : List UInt8) : Prop :=
  ∀ i < payload.length, m (b.ubootDecompAddr + UInt32.ofNat i).toNat = payload.getD i 0

theorem staged_of_slice (h : m.slice b.ubootDecompAddr.toNat payload.length = payload)
    (hend : b.ubootDecompAddr.toNat + payload.length ≤ 2 ^ 32) : b.Staged m payload := by
  intro i hi
  have hbyte := m.slice_getD b.ubootDecompAddr.toNat hi
  rw [h] at hbyte
  rw [toNat_offset (by omega), hbyte]

theorem staged_memcpy (m : Mem) (src : UInt32) (len : Nat)
    (hsrc : b.ubootDecompAddr.toNat < src.toNat) (hend : src.toNat + len ≤ 2 ^ 32) :
    b.Staged (inlineMemcpy m b.ubootDecompAddr src len) (m.slice src.toNat len) := by
  intro i hi
  rw [Mem.length_slice] at hi
  have hcopy := inlineMemcpy_spec m (d := b.ubootDecompAddr) (s := src) (by omega)
    (fun i j hij hj => ?_) hi
  · rw [pair, toNat_offset (p := src) (by omega)] at hcopy
    rw [hcopy, Mem.slice_getD _ _ hi]
  · -- what is written lies below what is still to be read
    have hwritten := toNat_offset (p := b.ubootDecompAddr) (i := i) (by omega)
    have hread := toNat_offset (p := src) (i := j) (by omega)
    simp only [pair]
    omega

theorem report_of_not_onStack (m stack : Mem) {a : Nat} (h : ¬b.OnStack a) :
    b.report m stack a = m a := if_neg h

theorem launch_onStack (stack m : Mem) (mcpSize load entry : UInt32) {a : Nat}
    (h : b.OnStack a) : (b.launch stack m mcpSize load entry).mem a = stack a := if_pos h

theorem launch_mem {loadAddr mcpSize : UInt32} (h : b.Staged m payload)
    (hsize : mcpSize.toNat = payload.length)
    (hstage : b.ubootDecompAddr.toNat + payload.length ≤ 2 ^ 32)
    (hge : b.ubootDecompAddr ≤ loadAddr)
    (hle : loadAddr.toNat + payload.length ≤ 2 ^ 32 + b.ubootDecompAddr.toNat)
    (stack : Mem) (entry : UInt32) (hi : i < payload.length)
    (hclear : ¬b.OnStack (loadAddr + UInt32.ofNat i).toNat) :
    (b.launch stack m mcpSize loadAddr entry).mem (loadAddr + UInt32.ofNat i).toNat =
      payload.getD i 0 := by
  rw [launch]
  dsimp only
  rw [report_of_not_onStack _ _ hclear]
  split
  next =>
    rw [UInt32.le_iff_toNat_le] at hge
    have hcopy := inlineBackwardMemcpy_spec m (d := loadAddr) (s := b.ubootDecompAddr)
      (l := mcpSize.toNat) (by omega) (fun i j hij hj => ?_) (hsize ▸ hi)
    · exact hcopy.trans (h i hi)
    · have hread := toNat_offset (p := b.ubootDecompAddr) (i := i) (by omega)
      have hwritten : (loadAddr + UInt32.ofNat j).toNat = (loadAddr.toNat + j) % 2 ^ 32 := by
        rw [UInt32.toNat_add, UInt32.toNat_ofNat']
        omega
      simp only [pair]
      omega
  next hsame =>
    obtain rfl := not_not.mp hsame
    exact h i hi

theorem mcpSrcAddr_toNat (hin : sizeofHeader + b.ihSize.toNat ≤ b.loadedSize)
    (hinside : b.eccDecodedUbootAddr.toNat + b.loadedSize ≤ 2 ^ 32) (hpos : 0 < b.ihSize.toNat) :
    (b.eccDecodedUbootAddr + UInt32.ofNat sizeofHeader).toNat =
      b.eccDecodedUbootAddr.toNat + sizeofHeader := toNat_offset (by omega)

theorem HasHeader.magic (h : b.HasHeader) :
    ¬(b.ihMagic ≠ uimgMagicNum ∧ b.ihMagic ≠ magicUboot2011) := fun hn => h.elim hn.1 hn.2

/-- With the staging area in the upper half of the address space no destination comes round to
it. -/
theorem Carries.load_le (h : b.Carries load payload)
    (hupper : 2 ^ 31 ≤ b.ubootDecompAddr.toNat)
    (hinside : b.eccDecodedUbootAddr.toNat + b.loadedSize ≤ 2 ^ 32)
    (hbelow : b.ubootDecompAddr < b.eccDecodedUbootAddr) :
    load.toNat + payload.length ≤ 2 ^ 32 + b.ubootDecompAddr.toNat := by
  have hload := load.toNat_lt
  have hecc := b.eccDecodedUbootAddr.toNat_lt
  rw [UInt32.lt_iff_toNat_lt] at hbelow
  cases h with
  | raw h =>
    rw [Mem.length_slice]
    omega
  | plain h hcomp hin =>
    rw [Mem.length_slice]
    omega
  | compressed h hcomp hin hout hlen => omega

structure Prepares (b : BringUp) (load : UInt32) (payload : List UInt8) (m : Mem)
    (mcpSize entry : UInt32) : Prop where
  result : ∀ stack, b.ubootBringUp stack = .ok (b.launch stack m mcpSize load entry)
  size : mcpSize.toNat = payload.length
  staged : b.Staged m payload
  inside : b.ubootDecompAddr.toNat + payload.length ≤ 2 ^ 32

section
variable (hpages : 0 ≤ b.totalUbootPages)
  (hinside : b.eccDecodedUbootAddr.toNat + b.loadedSize ≤ 2 ^ 32)
  (hbelow : b.ubootDecompAddr.toNat < b.eccDecodedUbootAddr.toNat)
include hpages hinside hbelow

theorem prepares_raw (h : ¬b.HasHeader) : ∃ m mcpSize entry, b.Prepares b.ubootDecompAddr
    (b.mem.slice b.eccDecodedUbootAddr.toNat b.loadedSize) m mcpSize entry := by
  have hmagic : b.ihMagic ≠ uimgMagicNum ∧ b.ihMagic ≠ magicUboot2011 := not_or.mp h
  have hsize : (UInt32.ofNat b.loadedSize).toNat = b.loadedSize := by
    rw [UInt32.toNat_ofNat']
    omega
  refine ⟨_, UInt32.ofNat b.loadedSize, b.ubootDecompAddr, ?_, ?_,
    staged_memcpy b.mem _ _ hbelow hinside, ?_⟩
  · intro stack
    simp only [ubootBringUp, if_neg (not_lt.mpr hpages), if_pos hmagic, hsize]
  · rw [hsize, Mem.length_slice]
  · rw [Mem.length_slice]
    omega

theorem prepares_plain (h : b.HasHeader) (hcomp : b.ihComp = uihCompNone)
    (hin : sizeofHeader + b.ihSize.toNat ≤ b.loadedSize) :
    ∃ m mcpSize entry, b.Prepares b.ihLoad
      (b.mem.slice (b.eccDecodedUbootAddr.toNat + sizeofHeader) b.ihSize.toNat) m mcpSize
      entry := by
  have hnot : uihCompNone ≠ uihCompLzma := by decide
  let mcpSrcAddr := b.eccDecodedUbootAddr + UInt32.ofNat sizeofHeader
  refine ⟨inlineMemcpy b.mem b.ubootDecompAddr mcpSrcAddr b.ihSize.toNat, b.ihSize, b.ihEp,
    ?_, ?_, fun i hi => ?_, ?_⟩
  · intro stack
    rw [ubootBringUp, if_neg (not_lt.mpr hpages), if_neg h.magic, hcomp, if_neg hnot, if_pos rfl]
  · rw [Mem.length_slice]
  · have hpos : 0 < b.ihSize.toNat := by
      rw [Mem.length_slice] at hi
      omega
    have hsrc : mcpSrcAddr.toNat = _ := mcpSrcAddr_toNat hin hinside hpos
    have hstaged := staged_memcpy (b := b) b.mem mcpSrcAddr b.ihSize.toNat (by omega) (by omega)
    rw [hsrc] at hstaged
    exact hstaged i hi
  · rw [Mem.length_slice]
    omega

theorem prepares_compressed (h : b.HasHeader) (hcomp : b.ihComp = uihCompLzma)
    (hin : sizeofHeader + b.ihSize.toNat ≤ b.loadedSize)
    (hout : b.lzma.expand (b.mem.slice (b.eccDecodedUbootAddr.toNat + sizeofHeader)
      b.ihSize.toNat) = some out)
    (hlen : out.length ≤ b.eccDecodedUbootAddr.toNat - b.ubootDecompAddr.toNat) :
    ∃ m mcpSize entry, b.Prepares b.ihLoad out m mcpSize entry := by
  have hpos : 0 < b.ihSize.toNat := by
    rw [Nat.pos_iff_ne_zero]
    intro hzero
    rw [hzero, show b.mem.slice _ 0 = [] from rfl, b.lzma.expand_nil] at hout
    cases hout
  have hsrc := mcpSrcAddr_toNat hin hinside hpos
  rw [← hsrc] at hout
  obtain ⟨hres, houtlen, hmem⟩ := b.lzma.correct _ _ b.ubootDecompAddr _ _ hout (by omega)
  refine ⟨_, _, b.ihEp, fun stack => ?_, houtlen, staged_of_slice hmem (by omega), by omega⟩
  rw [ubootBringUp, if_neg (not_lt.mpr hpages), if_neg h.magic, hcomp, if_pos rfl,
    if_neg (not_not.mpr hres)]

theorem Carries.prepares (h : b.Carries load payload) :
    ∃ m mcpSize entry, b.Prepares load payload m mcpSize entry := by
  cases h with
  | raw h => exact prepares_raw hpages hinside hbelow h
  | plain h hcomp hin => exact prepares_plain hpages hinside hbelow h hcomp hin
  | compressed h hcomp hin hout hlen =>
    exact prepares_compressed hpages hinside hbelow h hcomp hin hout hlen

end

end BringUp

namespace PlacedImage

/-- When `uboot_bring_up` calls the entry point, the payload is at the load address, whatever the
functions called before have left on the stack. -/
def Arrives (I : PlacedImage) : Prop :=
  ∀ stack, ∃ started, I.bringUp.ubootBringUp stack = .ok started ∧
    ∀ i < I.payload.length,
      started.mem (I.loadAddr + UInt32.ofNat i).toNat = I.payload.getD i 0

def ClearOfStack (I : PlacedImage) : Prop :=
  ∀ i < I.payload.length, ¬I.bringUp.OnStack (I.loadAddr + UInt32.ofNat i).toNat

theorem prepares (I : PlacedImage) : ∃ m mcpSize entry,
    I.bringUp.Prepares I.loadAddr I.payload m mcpSize entry :=
  I.carries.prepares I.loaded I.inside (UInt32.lt_iff_toNat_lt.mp I.below)

theorem clearOfStack_of_arrives {I : PlacedImage} (h : I.Arrives) : I.ClearOfStack := by
  intro i hi hon
  obtain ⟨m, mcpSize, entry, hprep⟩ := I.prepares
  -- another byte than that of the payload on the stack
  obtain ⟨started, hstarted, hmem⟩ := h fun _ => I.payload.getD i 0 + 1
  cases (hprep.result _).symm.trans hstarted
  have hbyte := (BringUp.launch_onStack _ m mcpSize I.loadAddr entry hon).symm.trans (hmem i hi)
  exact absurd hbyte (by simp)

theorem arrives_of_clearOfStack {I : PlacedImage} (h : I.ClearOfStack) : I.Arrives := by
  intro stack
  obtain ⟨m, mcpSize, entry, hprep⟩ := I.prepares
  exact ⟨_, hprep.result stack, fun i hi =>
    BringUp.launch_mem hprep.staged hprep.size hprep.inside I.load_ge I.load_le stack entry hi
      (h i hi)⟩

end PlacedImage

/-- The memory of a board whose image has a header with type none, 64 bytes of zeroes and the
load address 0x806FFFC0, 64 bytes below the image. -/
def lowHeaderMem : Mem := fun a =>
  if a = 0x80700000 then 0x27 else if a = 0x80700001 then 0x05
  else if a = 0x80700002 then 0x19 else if a = 0x80700003 then 0x56
  else if a = 0x8070000f then 0x40
  else if a = 0x80700010 then 0x80 else if a = 0x80700011 then 0x6f
  else if a = 0x80700012 then 0xff else if a = 0x80700013 then 0xc0
  else 0

def noLzma : Lzma where
  decompress m _ _ _ := ⟨m, 0, 1⟩
  expand _ := none
  expand_nil := rfl
  correct := nofun

def lowHeaderBringUp : BringUp where
  ubootDecompAddr := 0x80000000
  eccDecodedUbootAddr := 0x80700000
  stackLow := 0x806fff00
  stackHigh := 0x80700000 - 32
  totalUbootPages := 1
  pageSize := 2048
  mem := lowHeaderMem
  memCalOk := true
  lzmaDecompress := noLzma
  lzmaChspJump := noLzma

theorem lowHeader_carries : lowHeaderBringUp.Carries 0x806fffc0
    (lowHeaderMem.slice (0x80700000 + 64) 64) :=
  .plain (b := lowHeaderBringUp) (.inr rfl) rfl (by decide)

def lowHeaderImage : PlacedImage where
  bringUp := lowHeaderBringUp
  maxUbootSize := 0x33000
  loadAddr := 0x806fffc0
  payload := lowHeaderMem.slice (0x80700000 + 64) 64
  loaded := by decide
  size_le := by decide
  inside := by decide
  below := by decide
  carries := lowHeader_carries
  load_ge := by decide
  load_le := by
    rw [Mem.length_slice]
    decide

end BismarckPreloader.Nand
