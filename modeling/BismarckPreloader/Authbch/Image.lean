import BismarckPreloader.Authbch.Libfdt
import BismarckPreloader.Nand.Written

/-!
# The signing tool

`do_img_process` of `authbch` takes a tree with a preloader and a U-Boot behind it. It
writes the tree, the preloader and U-Boot to the output, on NAND in pages with their
syndromes and in several copies, signs U-Boot, puts the signature and the public key into
the tree's `sign` property, and writes the tree once more over the first.

`prepare` is all that happens before the secret key is used. A failed assertion or an
access outside a buffer ends the run; what is in the output then stays there. The
signature, the BCH encoder, the address of the tree's buffer and the contents of memory
that nothing was written to are parameters. Allocations succeed.
-/

namespace BismarckPreloader.Authbch

open Nand
open Auth (wordAt fdtSwMagic)
open Fdt (ascii)

inductive Why where
  | invalidFormat
  | uninitialised
  | outOfBounds (address : Nat)
  | assertion
  deriving DecidableEq, Repr

structure Stopped where
  why : Why
  out : List UInt8
  deriving DecidableEq, Repr

def stopAt (out : List UInt8) (x : Except Why α) : Except Stopped α := x.mapError (⟨·, out⟩)

-- ---------------------------------------------------------------------------
-- Pages
-- ---------------------------------------------------------------------------

def pagePerBlock : Nat := 64
def bbiGoodblock : UInt16 := 0xFFFF
def reserve : UInt16 := 0xFFFF

def roundToFlPage (n : Nat) : Nat := (n + 1024 - 1) / 1024
def roundToPage (pageSize n : Nat) : Nat := (n + pageSize - 1) / pageSize

def writePages (encode : Encoder) (pageSize : Nat) (out : List UInt8) (off : Nat)
    (pages : List Written) : List UInt8 :=
  pwritePages (pageSizeWithSpare pageSize) out off (pages.map (Written.bytes encode pageSize))

def flPages (signature : UInt32) (img : List UInt8) : List Written :=
  (pieces 1024 img).zipIdx.map fun (data, cn) =>
    .firstLoad ⟨signature, UInt16.ofNat cn, UInt16.ofNat (roundToFlPage img.length), onOnes data⟩

/-- The pages that `bch_gen_fdt` writes. -/
def fdtPages (img : List UInt8) (copies : Nat) : List Written :=
  (List.range copies).flatMap fun _ => flPages fdtSwMagic img

def getFirstLoadSignature (img : List UInt8) : UInt32 := wordAt (img.getD · 0) 0x20

def getFirstLoadBytes (img : List UInt8) : Nat := (wordAt (img.getD · 0) 0x3C).toNat

/-- Copy `r` of the preloader: first-load pages for the part that is loaded first, ordinary
ones for the rest. -/
def plrCopy (pageSize : Nat) (copies : UInt8) (img : List UInt8) (r : Nat) : List Written :=
  let firstLoad := getFirstLoadBytes img
  let numOfFlPage := roundToFlPage firstLoad
  let spare (chunkNum : UInt32) : Spare :=
    { bbi := bbiGoodblock
      reserved := reserve
      signature := signaturePlr
      chunkNum := chunkNum
      startupNum := UInt32.ofNat numOfFlPage
      totalChunk := UInt32.ofNat (roundToPage pageSize (img.length - firstLoad) + numOfFlPage)
      numCopy := UInt32.ofNat copies.toNat }
  flPages signaturePlrFl (img.take firstLoad) ++
    chunkPages pageSize spare (UInt32.ofNat r <<< 16 ||| UInt32.ofNat numOfFlPage)
      (img.drop firstLoad)

def plrPages (pageSize : Nat) (copies : UInt8) (img : List UInt8) : List Written :=
  (List.range copies.toNat).flatMap (plrCopy pageSize copies img)

def blankCount (pageSize size : Nat) : Nat :=
  let raw := pageSizeWithSpare pageSize
  (pagePerBlock * raw - size % (pagePerBlock * raw) + raw - 1) / raw

/-- `bch_gen_plr`: the output and `encode_img_size`, which an image with another signature
leaves as it was. -/
def bchGenPlr (encode : Encoder) (pageSize : Nat) (copies : UInt8) (out img : List UInt8)
    (off : Nat) : Except Why (List UInt8 × Nat) :=
  if img.length < 0x24 then .error (.outOfBounds 0x20)
  else if getFirstLoadSignature img ≠ signaturePlrFl then .ok (out, img.length)
  else if img.length < 0x40 then .error (.outOfBounds 0x3C)
  else if 0 < copies ∧ img.length < getFirstLoadBytes img then .error (.outOfBounds img.length)
  else
    let pages := plrPages pageSize copies img
    let out := writePages encode pageSize out off pages
    let blanks := List.replicate (blankCount pageSize out.length) Written.blank
    let raw := pageSizeWithSpare pageSize
    .ok (writePages encode pageSize out (off + pages.length * raw) blanks,
      (pages.length + blanks.length) * raw)

def ubtPages (pageSize : Nat) (copies : UInt8) (img : List UInt8) : List Written :=
  let spare (chunkNum : UInt32) : Spare :=
    { bbi := bbiGoodblock
      reserved := 0xFFFF
      signature := signatureUboot
      chunkNum := chunkNum
      startupNum := 0xFFFFFFFF
      totalChunk := UInt32.ofNat (roundToPage pageSize img.length)
      numCopy := UInt32.ofNat copies.toNat }
  (List.range copies.toNat).flatMap fun r =>
    chunkPages pageSize spare (UInt32.ofNat r <<< 16) img

def plrPath : List (List UInt8) := [ascii "images", ascii "preloader"]
def ubtPath : List (List UInt8) := [ascii "images", ascii "uboot"]
def dataSizeProp : List UInt8 := ascii "data-size"
def dataOffsetProp : List UInt8 := ascii "data-offset"
def signProp : List UInt8 := ascii "sign"

/-- `fdt_get_node` and the assertion that follows each call of it. -/
def getNode (fdt : Mem) (path : List (List UInt8)) : Except Why Nat :=
  match fdtPathOffset fdt path with
  | .error _ => .error .assertion
  | .ok node => .ok node

def getProp (fdt : Mem) (node : Nat) (name : List UInt8) : Except Why (Except FdtErr Nat) :=
  (fdtGetProperty fdt node name).mapError (.outOfBounds ·.address)

def getpropPathU32 (fdt : Mem) (path : List (List UInt8)) (name : List UInt8) :
    Except Why UInt32 := do
  let node ← getNode fdt path
  match ← getProp fdt node name with
  | .error _ => .error .assertion
  | .ok offset =>
    if propLen fdt offset = 4 then .ok (wordAt fdt (propData fdt offset)) else .error .assertion

/-- `fdt_setprop_path_val` up to the copy of the value: the tree, and where the value goes
unless libfdt returns an error. -/
def setpropRoom (fdt : Mem) (path : List (List UInt8)) (name : List UInt8) (len : Nat) :
    Except Why (Mem × Except FdtErr Nat) := do
  let node ← getNode fdt path
  (setpropPlaceholder fdt node name len).mapError (.outOfBounds ·.address)

/-- `fdt_setprop_path_val` in a buffer of that size. No caller looks at the result. -/
def setpropPathVal (fdt : Mem) (size : Nat) (path : List (List UInt8)) (name val : List UInt8) :
    Except Why Mem := do
  match ← setpropRoom fdt path name val.length with
  | (fdt, .error _) => .ok fdt
  | (fdt, .ok data) =>
    if data + val.length ≤ size then .ok (fdt.copy data (val.getD · 0) val.length)
    else .error (.outOfBounds data)

-- ---------------------------------------------------------------------------
-- The run
-- ---------------------------------------------------------------------------

/-- `CRYPTO_INFO_T` without the file names and the fields that nothing reads. -/
structure CryptoInfo where
  opt : UInt8
  dt : UInt8
  psize : UInt8
  copies : UInt8
  signPk : Vector UInt8 32
  signSk : Vector UInt8 64

def cryptoNandDevice : UInt8 := 1

structure Target where
  nand : Bool
  pageSize : Nat
  copies : UInt8

def CryptoInfo.target (info : CryptoInfo) : Target where
  nand := info.dt = cryptoNandDevice
  pageSize := if info.psize ≠ 0 then 4096 else 2048
  copies := info.copies

structure Tool where
  input : List UInt8
  sign : List UInt8 → Vector UInt8 64 → Vector UInt8 64
  encode : Encoder
  fdtPtr : UInt32
  junk : Nat → UInt8

def pread (buf file : List UInt8) (off : Nat) : List UInt8 :=
  let bytes := (file.drop off).take buf.length
  bytes ++ buf.drop bytes.length

def treeBytes (fdt : Mem) (size : Nat) : List UInt8 := (List.range size).map fdt

def readTree (input : List UInt8) : Except Why (Mem × Nat) :=
  if input.length < 40 then .error .uninitialised
  else match fdtCheckHeader (input.getD · 0) with
    | .error _ => .error .invalidFormat
    | .ok _ =>
      let fdtSize := totalsize (input.getD · 0)
      if fdtSize < 40 then .error (.outOfBounds fdtSize)
      else .ok (fun k => (pread (ones fdtSize) input 0).getD k 0, fdtSize)

structure Prepared where
  fdt : Mem
  fdtSize : Nat
  out : List UInt8
  plr : List UInt8
  ubt : Option (List UInt8)
  signPtr : UInt32

def Prepared.pimg (p : Prepared) : List UInt8 := p.ubt.getD p.plr

namespace Tool

variable (t : Tool) (g : Target)

def genFdt (out : List UInt8) (fdt : Mem) (fdtSize : Nat) : List UInt8 :=
  writePages t.encode g.pageSize out 0 (fdtPages (treeBytes fdt fdtSize) g.copies.toNat)

def processPlr (fdt : Mem) (fdtSize fdtEncoded : Nat) (out : List UInt8) :
    Except Why (List UInt8 × Mem × List UInt8 × Nat) := do
  let size ← getpropPathU32 fdt plrPath dataSizeProp
  let _ ← getpropPathU32 fdt plrPath dataOffsetProp
  let pimg := pread (ones size.toNat) t.input (tagAlign fdtSize)
  let fdt ← setpropPathVal fdt fdtSize plrPath dataSizeProp (wordBytes size)
  let off := tagAlign fdtEncoded
  if g.nand then
    let (out, encoded) ← bchGenPlr t.encode g.pageSize g.copies out pimg off
    pure (pimg, fdt, out, encoded)
  else pure (pimg, fdt, pwrite out off pimg, size.toNat)

/-- `fdt_get_ubt_sign`: a pointer lands at the start of the header, or NULL. -/
def getUbtSign (fdt : Mem) : Except Why UInt32 := do
  let node ← getNode fdt ubtPath
  match ← getProp fdt node signProp with
  | .error _ => pure 0
  | .ok offset => pure (t.fdtPtr + UInt32.ofNat (propData fdt offset))

def processUbt (plr : List UInt8) (fdt : Mem) (fdtSize plrOff plrEncoded : Nat)
    (out : List UInt8) : Except Why (List UInt8 × Mem × List UInt8) := do
  let size ← getpropPathU32 fdt ubtPath dataSizeProp
  let off ← getpropPathU32 fdt ubtPath dataOffsetProp
  let buf := (List.range size.toNat).map fun k => plr.getD k (t.junk k)
  let pimg := pread buf t.input (tagAlign fdtSize + off.toNat)
  let fdt ← setpropPathVal fdt fdtSize ubtPath dataSizeProp (wordBytes size)
  let fdt ← setpropPathVal fdt fdtSize ubtPath dataOffsetProp (wordBytes (UInt32.ofNat plrEncoded))
  let ubtOff := plrOff + plrEncoded
  if g.nand then pure (pimg, fdt, writePages t.encode g.pageSize out ubtOff
    (ubtPages g.pageSize g.copies pimg))
  else pure (pimg, fdt, pwrite out ubtOff pimg)

/-- `do_img_process` up to the signature. -/
def prepare : Except Stopped Prepared := do
  let (fdt, fdtSize) ← stopAt [] (readTree t.input)
  let out := if g.nand then t.genFdt g [] fdt fdtSize else []
  let fdtEncoded := if g.nand then
    (fdtPages (treeBytes fdt fdtSize) g.copies.toNat).length * pageSizeWithSpare g.pageSize
    else fdtSize
  let (plr, fdt, out, plrEncoded) ← stopAt out (t.processPlr g fdt fdtSize fdtEncoded out)
  let signPtr ← stopAt out (t.getUbtSign fdt)
  let node ← stopAt out (getNode fdt ubtPath)
  if 0 < node then
    let (ubt, fdt, out) ← stopAt out
      (t.processUbt g plr fdt fdtSize (tagAlign fdtEncoded) plrEncoded out)
    pure ⟨fdt, fdtSize, out, plr, some ubt, signPtr⟩
  else pure ⟨fdt, fdtSize, out, plr, none, signPtr⟩

end Tool

def overwrite (l : List UInt8) (off : Nat) (src : List UInt8) : List UInt8 :=
  l.take off ++ src ++ l.drop (off + src.length)

/-- `CRYPTO_HEADER_T`: the signature, the public key, the type, the device and padding. -/
def cryptoHeader (info : CryptoInfo) (signPtr : UInt32) (signature : Vector UInt8 64) :
    List UInt8 :=
  let hdr := overwrite (List.replicate 128 0) 0 (wordBytes signPtr).reverse
  let hdr := overwrite hdr 96 [info.opt]
  -- `memcpy(hdr.sign_pk, info->sign_pk, sizeof(info->sign_sk))`; `sign_sk` follows `sign_pk`
  let hdr := overwrite hdr 64 ((info.signPk.toList ++ info.signSk.toList).take 64)
  overwrite hdr 0 signature.toList

def Tool.finish (t : Tool) (g : Target) (p : Prepared) (hdr : List UInt8) :
    Except Stopped (List UInt8) := do
  let fdt ← stopAt p.out (setpropPathVal p.fdt p.fdtSize ubtPath signProp hdr)
  if g.nand then pure (t.genFdt g p.out fdt p.fdtSize)
  else pure (pwrite p.out 0 (treeBytes fdt p.fdtSize))

/-- `do_img_process`: the output file. -/
def Tool.doImgProcess (t : Tool) (info : CryptoInfo) : Except Stopped (List UInt8) := do
  let p ← t.prepare info.target
  t.finish info.target p (cryptoHeader info p.signPtr (t.sign p.pimg info.signSk))

def outFile : Except Stopped (List UInt8) → List UInt8
  | .ok out => out
  | .error e => e.out

end BismarckPreloader.Authbch
