import BismarckPreloader.Auth.Probe
import BismarckPreloader.Nand.UbootLoader
import BismarckPreloader.Secure.Image

/-!
# Authenticated bring-up of U-Boot

`uboot_bring_up` loads the image from flash to DRAM, lets `auth_mod_verify_img` check
its signature, copies or inflates it to where it runs and jumps. The signed length is
the `data-size` property of the signature header; the length that is copied comes from
the image itself. `authentic_iff` says when the second stays below the first.

The signature scheme is a parameter: what it is to check a message that arrives in
blocks. The header buffer lies on the stack, and the tree in it is walked by addresses
that may lead out of it, so the memory around is part of the model. The handler of a
compressed image is a parameter as well; only the bytes handed to it matter.
-/

namespace BismarckPreloader.Auth

open Nand Fdt
open Secure (Space TreeStop readBytes)

def blkSize : Nat := 4096
def uimgMagicNum : UInt32 := 0x6C6F6164
def magicUboot2011 : UInt32 := 0x27051956
def uihCompNone : UInt8 := 0
def uihCompLzma : UInt8 := 3
def cryoptSigEnc : UInt8 := 2
def fdtFirstSupportedVersion : Int := 0x02
def fdtLastSupportedVersion : Int := 0x11
def fdtErrBadstate : Int := 7
def fdtErrBadmagic : Int := 9
def fdtErrBadversion : Int := 10

structure SignScheme where
  State : Type
  init : State
  update : State → List UInt8 → State
  finalVerify : State → List UInt8 → List UInt8 → Bool
  accepts : List UInt8 → List UInt8 → List UInt8 → Bool
  streams : ∀ (blocks : List (List UInt8)) (sign key : List UInt8),
    finalVerify (blocks.foldl update init) sign key = accepts blocks.flatten sign key

structure FlashPage where
  read : PageRead
  header : HeaderPage

/-- The board at the start of `uboot_bring_up`. `fdtAddr` is where the header buffer lies
on the stack, `pkey` are the key entries of the eFuse. -/
structure AuthBoot where
  board : Board
  flash : List FlashPage
  pkey : Vector UInt16 16
  dram : Mem
  mem : Space
  fdtAddr : UInt32
  ubootDecompAddr : UInt32
  scheme : SignScheme
  inflates : Mem → Nat → Nat → Bool

inductive Stop where
  | loader (r : Int)
  | loaderFault (e : LoaderFault)
  | probeFault (e : ProbeFault)
  | unaligned
  | tree (e : TreeStop)
  | forged
  | encrypted
  | unknownHeader
  | decompression
  | unsupported
  deriving DecidableEq, Repr

/-- The ends that the source means. Behind an access outside an array it goes on with what it
finds there. -/
def Stop.Meant : Stop → Prop
  | .loaderFault _ | .probeFault _ | .unaligned => False
  | .tree e => e.Meant
  | _ => True

def bytesAt (m : Mem) (addr len : Nat) : List UInt8 := (List.range len).map fun k => m (addr + k)

def wordAt (m : Mem) (addr : Nat) : UInt32 :=
  packWord (m addr) (m (addr + 1)) (m (addr + 2)) (m (addr + 3))

def getPkeyInfo (pkey : Vector UInt16 16) : List UInt8 × Nat :=
  (pkey.toList.flatMap fun e => [UInt8.ofNat (e.toNat / 256), UInt8.ofNat e.toNat],
    (pkey.toList.map UInt16.toNat).sum)

/-- The loop of `auth_signature_verify`, from offset `i` on. -/
def updateFrom (scheme : SignScheme) (dram : Mem) (img size i : Nat) (state : scheme.State) :
    scheme.State :=
  if i < size then
    let len := if blkSize ≤ size - i then blkSize else size - i
    updateFrom scheme dram img size (i + len) (scheme.update state (bytesAt dram (img + i) len))
  else state
termination_by size - i
decreasing_by
  have : 0 < blkSize := Nat.succ_pos 4095
  split <;> omega

def authSignatureVerify (scheme : SignScheme) (dram : Mem) (img size : Nat)
    (sign key : List UInt8) : Bool :=
  scheme.finalVerify (updateFrom scheme dram img size 0 scheme.init) sign key

def fdtCheckHeader (fdt : Mem) : Int :=
  let magic := wordAt fdt 0
  if magic = fdtMagic then
    if (wordAt fdt 20).toBitVec.toInt < fdtFirstSupportedVersion then -fdtErrBadversion
    else if fdtLastSupportedVersion < (wordAt fdt 24).toBitVec.toInt then -fdtErrBadversion
    else 0
  else if magic = fdtSwMagic then
    if wordAt fdt 36 = 0 then -fdtErrBadstate else 0
  else -fdtErrBadmagic

def AuthBoot.space (b : AuthBoot) (fdt : Mem) : Space :=
  fun a => if (a - b.fdtAddr).toNat < fdtBufSize then fdt (a - b.fdtAddr).toNat else b.mem a

def AuthBoot.linkHeader (b : AuthBoot) (fdt : Mem) : Mem :=
  let dtStruct := b.fdtAddr + wordAt fdt 8
  let fdt := fdt.copy 8 (fun k => wordByte dtStruct k) 4
  let dtStrings := b.fdtAddr + wordAt fdt 12
  fdt.copy 12 (fun k => wordByte dtStrings k) 4

def spaceWord (mem : Space) (a : UInt32) : UInt32 :=
  packWord (mem a) (mem (a + 1)) (mem (a + 2)) (mem (a + 3))

theorem length_words_lt (g : Nat → UInt32) :
    ((List.range' 0 (2 ^ 30 - 1)).map g).length < 2 ^ 30 := by
  rw [List.length_map, List.length_range']
  decide

/-- All memory from `dtStruct` and from `dtStrings` on: the walk is not told where the
blocks end. -/
def memoryBlocks (mem : Space) (dtStruct dtStrings : UInt32) : Blocks where
  struct := (List.range' 0 (2 ^ 30 - 1)).map fun i => spaceWord mem (dtStruct + UInt32.ofNat (4 * i))
  strings := (List.range' 0 (2 ^ 32 - 1)).map fun k => mem (dtStrings + UInt32.ofNat k)
  sized := length_words_lt _

def dataSizePath : List UInt8 := pathBytes [ascii "images", ascii "uboot"] (ascii "data-size")
def signPath : List UInt8 := pathBytes [ascii "images", ascii "uboot"] (ascii "sign")

def getPropAddr (mem : Space) (dtStruct dtStrings : UInt32) (path : List UInt8) (fuel : Nat) :
    Except TreeStop (Option UInt32) :=
  match fdtGetProp (memoryBlocks mem dtStruct dtStrings) path fuel with
  | .next _ => .error .walking
  | .ret v => .ok (v.map fun i => dtStruct + UInt32.ofNat (4 * i))
  | .halt e => .error (.walk e)

def orNull (x : Except TreeStop (Option UInt32)) : Except Stop UInt32 :=
  match x with
  | .ok (some a) => .ok a
  | .ok none => .error (.tree .null)
  | .error e => .error (.tree e)

structure Verified where
  size : Nat
  sign : List UInt8
  deriving DecidableEq

namespace AuthBoot

variable (b : AuthBoot)

def key : List UInt8 := (getPkeyInfo b.pkey).1

/-- `auth_mod_verify_img` behind `fdt_probe`. In `CRYPTO_HEADER_T` the signature comes
first, the key that is copied in lies behind it, and then the type. -/
def verifyHeader (dram : Mem) (fdt : Mem) (fuel : Nat) : Except Stop Verified :=
  if fdtCheckHeader fdt = 0 then do
    let fdt := b.linkHeader fdt
    let mem := b.space fdt
    let dtStruct := wordAt fdt 8
    let dtStrings := wordAt fdt 12
    if dtStruct % 4 ≠ 0 then .error .unaligned
    let imgSize ← orNull (getPropAddr mem dtStruct dtStrings dataSizePath fuel)
    let imgSize := (spaceWord mem imgSize).toNat
    let shdr ← orNull (getPropAddr mem dtStruct dtStrings signPath fuel)
    let signu := readBytes mem shdr 64
    if authSignatureVerify b.scheme dram b.board.eccDecodedUbootAddr imgSize signu b.key then
      if mem (shdr + 96) = cryoptSigEnc then .error .encrypted
      else pure ⟨imgSize, signu⟩
    else .error .forged
  else .error .unknownHeader

def stackBuf : Mem := fun k => b.mem (b.fdtAddr + UInt32.ofNat k)

def probe : Except ProbeFault (BitVec 32 × ProbeState) :=
  fdtProbe (b.flash.map FlashPage.header) b.stackBuf

/-- `auth_mod_verify_img`: nothing to verify without a key. The result of `fdt_probe` is
dropped. -/
def authModVerifyImg (dram : Mem) (fuel : Nat) : Except Stop (Option Verified) :=
  if (getPkeyInfo b.pkey).2 = 0 then .ok none
  else match b.probe with
    | .error e => .error (.probeFault e)
    | .ok (_, s) => (b.verifyHeader dram s.fdt fuel).map some

/-- The bytes of the loaded image that are copied, or handed to the decompressor, by
their offset, and the address to jump to. -/
structure Plan where
  offset : Nat
  size : Nat
  entry : UInt32
  deriving DecidableEq

def plan (dram : Mem) (totalUbootPages : Nat) : Except Stop Plan :=
  let uhdr := b.board.eccDecodedUbootAddr
  let ihMagic := wordAt dram uhdr
  if ihMagic ≠ uimgMagicNum ∧ ihMagic ≠ magicUboot2011 then
    .ok ⟨0, totalUbootPages * b.board.pageSize, b.ubootDecompAddr⟩
  else
    let mcpSize := (wordAt dram (uhdr + 12)).toNat
    let entry := wordAt dram (uhdr + 20)
    let ihComp := dram (uhdr + 31)
    if ihComp = uihCompLzma then
      if b.inflates dram (uhdr + 64) mcpSize then .ok ⟨64, mcpSize, entry⟩
      else .error .decompression
    else if ihComp = uihCompNone then .ok ⟨64, mcpSize, entry⟩
    else .error .unsupported

structure Jump where
  dram : Mem
  verified : Option Verified
  plan : Plan

def ubootBringUp (fuel : Nat) : Except Stop Jump :=
  match eccUbootToDram b.board b.dram (b.flash.map FlashPage.read) with
  | .next _ => .error (.loader (-3))
  | .halt e => .error (.loaderFault e)
  | .ret (total, s) =>
    if total < 0 then .error (.loader total)
    else do
      let verified ← b.authModVerifyImg s.dram fuel
      let plan ← b.plan s.dram total.toNat
      pure ⟨s.dram, verified, plan⟩

end AuthBoot

end BismarckPreloader.Auth
