import BismarckPreloader.Fdt.Tree
import BismarckPreloader.Secure.Rsa

/-!
# From the flash to the next stage

`seb_secure_boot` reads the header at the next-stage address, fills an `image_t` from
it, copies the image to its load address, verifies it, decompresses it and jumps to
its entry. The `image_t` is a local variable that nothing clears, so its initial
content is an argument of the model; so is the code that is not part of the boot
loader's own sources (`seb_is_fdt`) or whose result does not matter here
(`lzma_decompress`).

A run that does not get to the jump ends with a `Stop`: a deliberate endless loop, a
fault, or out of fuel in a tree walk.
-/

namespace BismarckPreloader.Secure

open Fdt

abbrev Space := UInt32 → UInt8

def readBytes (mem : Space) (addr : UInt32) (len : Nat) : List UInt8 :=
  (List.range len).map fun i => mem (addr + UInt32.ofNat i)

def storeBytes (mem : Space) (addr : UInt32) (bytes : List UInt8) : Space :=
  fun a => bytes.getD (a - addr).toNat (mem a)

def flashAddr (src : UInt32) : UInt32 := if src < 0x80000000 then src ||| 0x94000000 else src

def sebFlashToMem (mem : Space) (dst src len : UInt32) : Space :=
  storeBytes mem dst (readBytes mem (flashAddr src) len.toNat)

-- ---------------------------------------------------------------------------
-- The image record
-- ---------------------------------------------------------------------------

inductive ImageFormat where
  | invalid
  | legacy
  | fit
  deriving DecidableEq, Repr

/-- The end of a run in the tree: a fault or the stop of the walk itself, out of fuel,
or a property that is not there and is dereferenced. -/
inductive TreeStop where
  | walk (e : FdtFault)
  | walking
  | null
  deriving DecidableEq, Repr

inductive Stop where
  | tree (e : TreeStop)
  | hashIndex (algo : UInt8)
  | cryptoIndex (algo : UInt8)
  | buffer (e : BufferFault)
  | verification
  | decompression
  deriving DecidableEq, Repr

/-- The walk is still going on, or it is in the endless loop on an unknown token. All the others
are accesses outside the blocks. -/
def TreeStop.Meant : TreeStop → Prop
  | .walking | .walk (.unknownToken _) => True
  | _ => False

/-- The ends that the source means; the others are accesses outside an object, behind which it
goes on with what it finds there. -/
def Stop.Meant : Stop → Prop
  | .tree e => e.Meant
  | .verification | .decompression => True
  | _ => False

/-- `image_t`. -/
structure Image where
  blobAddr : UInt32
  imgAddr : UInt32
  imgSize : UInt32
  loadAddr : UInt32
  entryAddr : UInt32
  sigLen : UInt32
  sigSignature : Vector UInt8 256
  sigCryptoAlgo : UInt8
  sigHashAlgo : UInt8
  encAlgo : UInt8
  compAlgo : UInt8
  deriving DecidableEq

/-- The board at the start of `seb_secure_boot`; `stack` is what the buffer of the
hash context holds before, and `sebIsFdt` says for which headers `seb_is_fdt` returns
zero. -/
structure Boot where
  mem : Space
  nextBlobAddr : UInt32
  stack : Vector UInt8 64
  sebIsFdt : List UInt8 → Bool
  lzmaDecompress : List UInt8 → Option (List UInt8)

namespace Boot

def header (b : Boot) : List UInt8 := readBytes b.mem (flashAddr b.nextBlobAddr) 64

def headerWord (b : Boot) (i : Nat) : UInt32 := (packWords b.header).getD i 0

def ihMagic : UInt32 := 0x27051956

def sebGetFormat (b : Boot) : ImageFormat :=
  if b.headerWord 0 = ihMagic then .legacy
  else if b.sebIsFdt b.header then .fit
  else .invalid

/-- The copies of the struct block, without an incomplete last word, and of the
strings block. -/
def blocks (b : Boot) : Blocks where
  struct := packWords (readBytes b.mem (flashAddr (b.nextBlobAddr + b.headerWord 2))
    (4 * ((b.headerWord 9).toNat / 4)))
  strings := readBytes b.mem (flashAddr (b.nextBlobAddr + b.headerWord 3)) (b.headerWord 8).toNat
  sized := by
    have := (b.headerWord 9).toNat_lt
    rw [length_packWords, readBytes, List.length_map, List.length_range]
    omega

end Boot

-- ---------------------------------------------------------------------------
-- Reading the tree
-- ---------------------------------------------------------------------------

/-- `fdt_get_prop` for one of the paths of the boot code. -/
def getProp (m : Blocks) (p : BootProp) (fuel : Nat) : Except TreeStop (Option Nat) :=
  match fdtGetProp m (pathBytes p.path.comps p.path.prop) fuel with
  | .next _ => .error .walking
  | .ret v => .ok v
  | .halt e => .error (.walk e)

def inBlocks (x : Except FdtFault α) : Except TreeStop α := x.mapError .walk

def propWord (m : Blocks) (p : BootProp) (fuel : Nat) : Except TreeStop UInt32 := do
  match ← getProp m p fuel with
  | none => .error .null
  | some i => inBlocks (m.word i)

def structBytes (m : Blocks) (k n : Nat) : Except FdtFault (Vector UInt8 n) :=
  if k + n ≤ 4 * m.struct.length then
    .ok (Vector.ofFn fun i => wordByte (m.struct.getD ((k + i) / 4) 0) ((k + i) % 4))
  else .error (.structRead m.struct.length)

def sebHashNone : UInt8 := 0
def sebHashSha1 : UInt8 := 1
def sebCryptoNone : UInt8 := 0
def sebCryptoRsa2048 : UInt8 := 1
def uihCompLzma : UInt8 := 3

def comma : UInt8 := 0x2C

/-- The end of `fdt_get_sig_algo`, for a text that names the cipher. -/
def fdtGetSigValue (m : Blocks) (fuel : Nat) (info : Image) : Except TreeStop Image := do
  let info := { info with sigCryptoAlgo := sebCryptoRsa2048, sigLen := 256 }
  match ← getProp m .sigValue fuel with
  | some value =>
    let signature ← inBlocks (structBytes m (4 * value) 256)
    return { info with sigSignature := signature }
  | none => return info

/-- `fdt_get_sig_algo`. The comparison reads both strings alike, so it does not matter
which of them comes first. -/
def fdtGetSigAlgo (m : Blocks) (fuel : Nat) (info : Image) : Except TreeStop Image := do
  match ← getProp m .sigAlgo fuel with
  | some hashAlgo =>
    let hashDiffers ← inBlocks (fdtStrcmp m.structByte (4 * hashAlgo) (ascii "sha1") comma)
    let info := if hashDiffers then info else { info with sigHashAlgo := sebHashSha1 }
    let cryptoAlgo := if hashDiffers then 4 * hashAlgo else 4 * hashAlgo + 5
    let cryptoDiffers ← inBlocks (fdtStrcmp m.structByte cryptoAlgo (ascii "rsa2048") 0)
    if cryptoDiffers then return info else fdtGetSigValue m fuel info
  | none => return { info with sigHashAlgo := sebHashNone, sigCryptoAlgo := sebCryptoNone }

/-- The cases of `seb_init_image_info`. A blob of no known format leaves all the other
fields as they are. -/
def fillImageInfo (b : Boot) (fuel : Nat) (info : Image) : ImageFormat → Except TreeStop Image
  | .legacy => .ok { info with
      imgAddr := b.nextBlobAddr + 64
      imgSize := b.headerWord 3
      loadAddr := b.headerWord 4
      entryAddr := b.headerWord 5
      compAlgo := b.header.getD 31 0
      sigCryptoAlgo := sebCryptoNone
      sigHashAlgo := sebHashNone
      encAlgo := 0 }
  | .fit => do
    let info := { info with imgAddr := b.nextBlobAddr + ((b.headerWord 1 + 3) &&& ~~~0x3) }
    let imgSize ← propWord b.blocks .dataSize fuel
    let loadAddr ← propWord b.blocks .load fuel
    let entryAddr ← propWord b.blocks .entry fuel
    let info ← fdtGetSigAlgo b.blocks fuel { info with imgSize, loadAddr, entryAddr }
    return { info with compAlgo := uihCompLzma, encAlgo := 0 }
  | .invalid => .ok info

def sebInitImageInfo (b : Boot) (fuel : Nat) (info : Image) : Except TreeStop Image :=
  fillImageInfo b fuel { info with blobAddr := b.nextBlobAddr } b.sebGetFormat

def sebLoadImage (mem : Space) (info : Image) : Space :=
  sebFlashToMem mem info.loadAddr info.imgAddr info.imgSize

-- ---------------------------------------------------------------------------
-- Verification
-- ---------------------------------------------------------------------------

/-- What `seb_verify_image` reads of the record and of the memory. -/
inductive Read where
  | hashAlgo (algo : UInt8)
  | cryptoAlgo (algo : UInt8)
  | image (bytes : List UInt8)
  | sigLen (len : UInt32)
  | signature (bytes : List UInt8)
  deriving DecidableEq, Repr

/-- A computation with the reads it makes, up to its end or to a fault. -/
structure Logged (α : Type) where
  reads : List Read
  result : Except Stop α

namespace Logged

def bind (x : Logged α) (f : α → Logged β) : Logged β :=
  match x.result with
  | .ok a => ⟨x.reads ++ (f a).reads, (f a).result⟩
  | .error e => ⟨x.reads, .error e⟩

instance : Monad Logged where
  pure a := ⟨[], .ok a⟩
  bind := bind

def note (r : Read) : Logged Unit := ⟨[r], .ok ()⟩

def lift (x : Except Stop α) : Logged α := ⟨[], x⟩

@[simp] theorem note_bind (r : Read) (f : Unit → Logged α) :
    (note r >>= f) = ⟨r :: (f ()).reads, (f ()).result⟩ := rfl

@[simp] theorem lift_ok_bind (a : α) (f : α → Logged β) : (lift (.ok a) >>= f) = f a := rfl

@[simp] theorem lift_error_bind (e : Stop) (f : α → Logged β) :
    (lift (.error e) >>= f) = ⟨[], .error e⟩ := rfl

end Logged

def entry (table : List α) (algo : UInt8) : Option α :=
  if algo = 0 then none else table[algo.toNat - 1]?

def orStop (x : Option α) (e : Stop) : Except Stop α :=
  match x with
  | some a => .ok a
  | none => .error e

def sebVerifyImage (b : Boot) (info : Image) (mem : Space) : Logged Nat := do
  Logged.note (.hashAlgo info.sigHashAlgo)
  let hashAlgo ← Logged.lift (orStop (entry checksumAlgos info.sigHashAlgo)
    (.hashIndex info.sigHashAlgo))
  Logged.note (.cryptoAlgo info.sigCryptoAlgo)
  -- the image where it was copied from, not the copy
  let image := readBytes mem info.imgAddr info.imgSize.toNat
  Logged.note (.image image)
  let (ret, hashValue) := hashAlgo.calculate b.stack.toList image
  if ret ≠ 0 then return ret
  let cryptoAlgo ← Logged.lift (orStop (entry cryptoAlgos info.sigCryptoAlgo)
    (.cryptoIndex info.sigCryptoAlgo))
  Logged.note (.sigLen info.sigLen)
  Logged.note (.signature (info.sigSignature.toList.take info.sigLen.toNat))
  Logged.lift ((cryptoAlgo.verify info.sigSignature.toList info.sigLen.toNat cryptoAlgo.keyLen
    hashAlgo hashValue).mapError .buffer)

structure Started where
  entryAddr : UInt32
  mem : Space
  decompressed : Option (List UInt8)

def sebDecompressImage (b : Boot) (info : Image) (mem : Space) : Except Stop Started :=
  if info.compAlgo = uihCompLzma then
    let compBuf := readBytes mem info.loadAddr info.imgSize.toNat
    match b.lzmaDecompress compBuf with
    | some out => .ok ⟨info.entryAddr, storeBytes mem info.loadAddr out, some compBuf⟩
    | none => .error .decompression
  else .error .decompression

/-- `seb_secure_boot`, up to its jump. `seb_decrypt_image` does nothing and never
fails. -/
def sebSecureBoot (b : Boot) (info : Image) (fuel : Nat) : Except Stop Started := do
  let info ← (sebInitImageInfo b fuel info).mapError .tree
  let mem := sebLoadImage b.mem info
  let ret ← (sebVerifyImage b info mem).result
  if ret ≠ 0 then .error .verification
  else if info.compAlgo ≠ 0 then sebDecompressImage b info mem
  else return ⟨info.entryAddr, mem, none⟩

end BismarckPreloader.Secure
