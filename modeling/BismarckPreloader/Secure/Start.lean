import BismarckPreloader.Fdt.Safety
import BismarckPreloader.Secure.Verdict

/-!
# Starting verified images only

`OnlyVerified` is what the boot is for: whatever the stack held, no run dereferences a
property that is not there, reads outside the blocks of the tree or selects an algorithm
outside the tables, and a run that gets to the jump has verified the bytes it decompressed
with the signature stored in the blob. `onlyVerified_iff` says for which blobs this holds.
-/

namespace BismarckPreloader.Secure

open Fdt

def Recovers (signature block : List UInt8) : Prop :=
  block.length = 256 ∧ bytesVal block = bytesVal signature ^ 65537 % builtinKey.n

def Boot.StoresSignature (b : Boot) (signature : Vector UInt8 256) : Prop :=
  ∃ fuel i, getProp b.blocks .sigValue fuel = .ok (some i) ∧
    structBytes b.blocks (4 * i) 256 = .ok signature

/-- A jump with the record `info` behind a verification of what was decompressed. -/
structure VerifiedStart (b : Boot) (info : Image) (started : Started) : Prop where
  target : started.entryAddr = info.entryAddr
  accepted : (sebVerifyImage b info (sebLoadImage b.mem info)).result = .ok 0
  hashEntry : (entry checksumAlgos info.sigHashAlgo).isSome
  cryptoEntry : (entry cryptoAlgos info.sigCryptoAlgo).isSome
  stored : b.StoresSignature info.sigSignature
  hash : ∃ data block, started.decompressed = some data ∧ data.length = info.imgSize.toNat ∧
    Recovers info.sigSignature.toList block ∧ block.drop 236 = Sha1.hash data

structure OnlyVerified (b : Boot) : Prop where
  stops : ∀ info fuel e, sebSecureBoot b info fuel = .error e → e.Meant
  verified : ∀ info fuel started, sebSecureBoot b info fuel = .ok started →
    ∃ info', sebInitImageInfo b fuel info = .ok info' ∧ VerifiedStart b info' started

-- ---------------------------------------------------------------------------
-- What is hashed and what is decompressed
-- ---------------------------------------------------------------------------

namespace Boot

/-- The memory behind `seb_load_image`. -/
def loaded (b : Boot) (r : Readout) : Space :=
  sebFlashToMem b.mem r.loadAddr b.fitImgAddr r.imgSize

def imageBytes (b : Boot) (r : Readout) : List UInt8 :=
  readBytes (b.loaded r) b.fitImgAddr r.imgSize.toNat

def loadedBytes (b : Boot) (r : Readout) : List UInt8 :=
  readBytes (b.loaded r) r.loadAddr r.imgSize.toNat

def Startable (b : Boot) (r : Readout) (signature : Vector UInt8 256) : Prop :=
  rsaVerify signature.toList 256 256 sha1Algo (Sha1.hash (b.imageBytes r)) = .ok 0 ∧
    (b.lzmaDecompress (b.loadedBytes r)).isSome

end Boot

theorem filled_rest (b : Boot) (r : Readout) (info : Image) :
    (b.filled r info).imgAddr = b.fitImgAddr ∧ (b.filled r info).imgSize = r.imgSize ∧
      (b.filled r info).loadAddr = r.loadAddr ∧ (b.filled r info).entryAddr = r.entryAddr ∧
      (b.filled r info).compAlgo = uihCompLzma := by
  rw [Boot.filled]
  cases r.sig with
  | missing => exact ⟨rfl, rfl, rfl, rfl, rfl⟩
  | found sha1 rsa => cases sha1 <;> cases rsa <;> exact ⟨rfl, rfl, rfl, rfl, rfl⟩

theorem filled_load (b : Boot) (r : Readout) (info : Image) :
    sebLoadImage b.mem (b.filled r info) = b.loaded r := by
  obtain ⟨haddr, hsize, hload, -⟩ := filled_rest b r info
  rw [sebLoadImage, haddr, hsize, hload, Boot.loaded]

theorem filled_image (b : Boot) (r : Readout) (info : Image) :
    hashedBytes (b.filled r info) (b.loaded r) = b.imageBytes r := by
  obtain ⟨haddr, hsize, -⟩ := filled_rest b r info
  rw [hashedBytes, haddr, hsize, Boot.imageBytes]

theorem sebSecureBoot_error (h : sebInitImageInfo b fuel info = .error e) :
    sebSecureBoot b info fuel = .error (.tree e) := by
  rw [sebSecureBoot, h]
  rfl

theorem sebSecureBoot_noHash (h : sebInitImageInfo b fuel info = .ok info')
    (hh : info'.sigHashAlgo ≠ 1) :
    sebSecureBoot b info fuel = .error (.hashIndex info'.sigHashAlgo) := by
  rw [sebSecureBoot, h]
  simp only [Except.mapError, ok_bind, sebVerifyImage_noHash b _ hh, error_bind]

theorem sebSecureBoot_noCrypto (h : sebInitImageInfo b fuel info = .ok info')
    (hh : info'.sigHashAlgo = 1) (hc : info'.sigCryptoAlgo ≠ 1) :
    sebSecureBoot b info fuel = .error (.cryptoIndex info'.sigCryptoAlgo) := by
  rw [sebSecureBoot, h]
  simp only [Except.mapError, ok_bind, sebVerifyImage_noCrypto b _ hh hc, error_bind]

theorem sebSecureBoot_signed {b : Boot} (hf : b.sebGetFormat = .fit)
    (hr : b.readout fuel = .ok r) (hs : r.sig = .found true (some value)) (info : Image) :
    sebSecureBoot b info fuel =
      match rsaVerify (value.getD info.sigSignature).toList 256 256 sha1Algo
          (Sha1.hash (b.imageBytes r)) with
      | .error e => .error (.buffer e)
      | .ok ret =>
        if ret ≠ 0 then .error .verification
        else match b.lzmaDecompress (b.loadedBytes r) with
          | some out => .ok ⟨r.entryAddr, storeBytes (b.loaded r) r.loadAddr out,
              some (b.loadedBytes r)⟩
          | none => .error .decompression := by
  obtain ⟨hcrypto, hlen, hsig⟩ := filled_crypto b info hs
  obtain ⟨-, hsize, hload, hentry, hcomp⟩ := filled_rest b r info
  have hdec : sebDecompressImage b (b.filled r info) (b.loaded r) =
      match b.lzmaDecompress (b.loadedBytes r) with
      | some out => .ok ⟨r.entryAddr, storeBytes (b.loaded r) r.loadAddr out,
          some (b.loadedBytes r)⟩
      | none => .error .decompression := by
    rw [sebDecompressImage, if_pos hcomp, hsize, hload, hentry]
    rfl
  have hcomp0 : (b.filled r info).compAlgo ≠ 0 := by rw [hcomp]; decide
  rw [sebSecureBoot, sebInitImageInfo_readout hf hr]
  simp only [Except.mapError, ok_bind, filled_load, if_pos hcomp0, hdec,
    sebVerifyImage_signed b _ (filled_hash b info hs) hcrypto, filled_image, hlen, hsig]
  show (Except.mapError Stop.buffer (rsaVerify _ 256 256 sha1Algo _) >>= _) = _
  cases rsaVerify (value.getD info.sigSignature).toList 256 256 sha1Algo
    (Sha1.hash (b.imageBytes r)) <;> rfl

-- ---------------------------------------------------------------------------
-- The stored signature
-- ---------------------------------------------------------------------------

theorem inBlocks_ok {x : Except FdtFault α} : inBlocks x = .ok a ↔ x = .ok a := by
  cases x <;> simp [inBlocks, Except.mapError]

theorem getProp_ok {m : Blocks} :
    getProp m p fuel = .ok v ↔ fdtGetProp m (pathBytes p.path.comps p.path.prop) fuel = .ret v := by
  rw [getProp]
  split <;> simp_all

theorem getProp_unique {m : Blocks} (h : getProp m p fuel = .ok v)
    (h' : getProp m p fuel' = .ok v') : v = v' := by
  have hv := Loop.Leads.unique ⟨fuel, getProp_ok.mp h⟩ ⟨fuel', getProp_ok.mp h'⟩ rfl rfl
  exact Outcome.ret.inj hv

theorem readout_sig {b : Boot} (h : b.readout fuel = .ok r) : sigText b.blocks fuel = .ok r.sig := by
  simp only [Boot.readout, bind_ok] at h
  obtain ⟨imgSize, -, loadAddr, -, entryAddr, -, sig, hsig, hr⟩ := h
  cases hr
  exact hsig

theorem sigText_value {m : Blocks} (h : sigText m fuel = .ok (.found sha1 (some value))) :
    sigValue m fuel = .ok value := by
  rw [sigText, bind_ok] at h
  obtain ⟨text, -, h⟩ := h
  cases text with
  | none => cases h
  | some text =>
    simp only [bind_ok] at h
    obtain ⟨hashDiffers, -, cryptoDiffers, -, h⟩ := h
    cases cryptoDiffers with
    | true => cases h
    | false =>
      simp only [Bool.false_eq_true, if_false, bind_ok] at h
      obtain ⟨v, hv, h⟩ := h
      cases h
      exact hv

theorem sigValue_some {m : Blocks} (h : sigValue m fuel = .ok (some signature)) :
    ∃ i, getProp m .sigValue fuel = .ok (some i) ∧ structBytes m (4 * i) 256 = .ok signature := by
  rw [sigValue, bind_ok] at h
  obtain ⟨value, hvalue, h⟩ := h
  cases value with
  | none => cases h
  | some i =>
    obtain ⟨v, hv, h⟩ := bind_ok.mp h
    cases h
    exact ⟨i, hvalue, inBlocks_ok.mp hv⟩

theorem sigValue_none {m : Blocks} (h : sigValue m fuel = .ok none) :
    getProp m .sigValue fuel = .ok none := by
  rw [sigValue, bind_ok] at h
  obtain ⟨value, hvalue, h⟩ := h
  cases value with
  | none => exact hvalue
  | some i =>
    obtain ⟨v, -, h⟩ := bind_ok.mp h
    cases h

theorem storesSignature_iff {b : Boot} (hr : b.readout fuel = .ok r)
    (hs : r.sig = .found sha1 (some value)) (signature : Vector UInt8 256) :
    b.StoresSignature signature ↔ value = some signature := by
  have hvalue := sigText_value (hs ▸ readout_sig hr)
  constructor
  · rintro ⟨fuel', i, hi, hsig⟩
    cases value with
    | none => cases getProp_unique (sigValue_none hvalue) hi
    | some v =>
      obtain ⟨j, hj, hv⟩ := sigValue_some hvalue
      cases getProp_unique hj hi
      rw [Except.ok.inj (hv.symm.trans hsig)]
  · rintro rfl
    exact ⟨fuel, sigValue_some hvalue⟩

-- ---------------------------------------------------------------------------
-- Runs up to the jump
-- ---------------------------------------------------------------------------

theorem Recovers.unique (h : Recovers signature block) (h' : Recovers signature block') :
    block = block' :=
  bytesVal_inj (h.1.trans h'.1.symm) (h.2.trans h'.2.symm)

theorem recovers_of_rsaVerify (signature : Vector UInt8 256) (image : List UInt8)
    (h : rsaVerify signature.toList 256 256 sha1Algo (Sha1.hash image) = .ok 0) :
    ∃ block, Recovers signature.toList block ∧ block.drop 236 = Sha1.hash image := by
  obtain ⟨-, block, hlen, hval, hdrop⟩ :=
    rsaVerify_zero signature.length_toList (Sha1.length_hash image) rfl h
  exact ⟨block, ⟨hlen, hval⟩, hdrop⟩

section Signed

variable {b : Boot} {r : Readout} {value : Option (Vector UInt8 256)}
  (hf : b.sebGetFormat = .fit) (hr : b.readout fuel = .ok r)
  (hs : r.sig = .found true (some value)) (info : Image)

include hf hr hs

theorem sebSecureBoot_of_startable (h : b.Startable r (value.getD info.sigSignature)) :
    ∃ mem, sebSecureBoot b info fuel = .ok ⟨r.entryAddr, mem, some (b.loadedBytes r)⟩ := by
  obtain ⟨hverify, hlzma⟩ := h
  obtain ⟨out, hout⟩ := Option.isSome_iff_exists.mp hlzma
  rw [sebSecureBoot_signed hf hr hs, hverify, hout]
  exact ⟨_, rfl⟩

theorem sebSecureBoot_ok {started : Started} (h : sebSecureBoot b info fuel = .ok started) :
    b.Startable r (value.getD info.sigSignature) ∧ started.entryAddr = r.entryAddr ∧
      started.decompressed = some (b.loadedBytes r) := by
  rw [sebSecureBoot_signed hf hr hs] at h
  split at h
  · cases h
  · rename_i ret hverify
    by_cases hret : ret = 0
    · rw [if_neg (not_not.mpr hret)] at h
      split at h
      · rename_i out hout
        cases h
        exact ⟨⟨hret ▸ hverify, by rw [hout]; rfl⟩, rfl, rfl⟩
      · cases h
    · rw [if_pos hret] at h
      cases h

theorem sebSecureBoot_signed_error (h : sebSecureBoot b info fuel = .error e) : e.Meant := by
  obtain ⟨ret, hret⟩ := rsaVerify_total (value.getD info.sigSignature)
    (Sha1.length_hash (b.imageBytes r))
  rw [sebSecureBoot_signed hf hr hs, hret] at h
  dsimp only at h
  split at h
  · cases h
    trivial
  · split at h
    · cases h
    · cases h
      trivial

/-- A jump is verified if the signature does not come from the stack and the copy has
the hash of the image. -/
theorem verifiedStart_iff {started : Started} (h : sebSecureBoot b info fuel = .ok started) :
    VerifiedStart b (b.filled r info) started ↔
      value = some (value.getD info.sigSignature) ∧
        Sha1.hash (b.loadedBytes r) = Sha1.hash (b.imageBytes r) := by
  obtain ⟨⟨hverify, -⟩, hentry, hdata⟩ := sebSecureBoot_ok hf hr hs info h
  obtain ⟨hcrypto, hlen, hsig⟩ := filled_crypto b info hs
  obtain ⟨-, hsize, -, hentry', -⟩ := filled_rest b r info
  have hhash := filled_hash b info hs
  obtain ⟨block, hblock, hdrop⟩ := recovers_of_rsaVerify _ _ hverify
  constructor
  · intro hv
    refine ⟨(storesSignature_iff hr hs _).mp (hsig ▸ hv.stored), ?_⟩
    obtain ⟨data, block', hdata', -, hblock', hdrop'⟩ := hv.hash
    rw [hsig] at hblock'
    cases hdata'.symm.trans hdata
    rw [← hdrop', ← hdrop, hblock'.unique hblock]
  · rintro ⟨hvalue, heq⟩
    refine ⟨hentry.trans hentry'.symm, ?_, ?_, ?_, ?_, _, block, hdata, ?_, ?_, ?_⟩
    · rw [sebVerifyImage_signed b _ hhash hcrypto, filled_load, filled_image, hsig, hlen]
      show Except.mapError Stop.buffer (rsaVerify _ 256 256 sha1Algo _) = _
      rw [hverify]
      rfl
    · rw [hhash]
      rfl
    · rw [hcrypto]
      rfl
    · rw [hsig]
      exact (storesSignature_iff hr hs _).mpr hvalue
    · rw [Boot.loadedBytes, readBytes, List.length_map, List.length_range, hsize]
    · rw [hsig]
      exact hblock
    · rw [hdrop, heq]

end Signed

theorem readBytes_storeBytes (mem : Space) (addr : UInt32) {bytes : List UInt8}
    (hlen : bytes.length = n) (hn : n < 2 ^ 32) :
    readBytes (storeBytes mem addr bytes) addr n = bytes := by
  refine List.ext_getElem (by simp [readBytes, hlen]) fun i _ hi => ?_
  have hoff : (addr + UInt32.ofNat i - addr).toNat = i := by
    rw [UInt32.add_comm, UInt32.add_sub_cancel]
    exact UInt32.toNat_ofNat_of_lt' ((hlen ▸ hi).trans hn)
  simp only [readBytes, List.getElem_map, List.getElem_range, storeBytes, hoff]
  exact List.getD_eq_getElem _ _ hi

theorem readBytes_storeBytes_apart (mem : Space) {bytes : List UInt8}
    (h : ∀ i < n, bytes.length ≤ (src + UInt32.ofNat i - dst).toNat) :
    readBytes (storeBytes mem dst bytes) src n = readBytes mem src n := by
  refine List.map_congr_left fun i hi => ?_
  rw [storeBytes, List.getD_eq_default _ _ (h i (List.mem_range.mp hi))]

def Boot.Apart (b : Boot) (r : Readout) : Prop :=
  0x80000000 ≤ b.fitImgAddr ∧
    ∀ i < r.imgSize.toNat, r.imgSize.toNat ≤ (b.fitImgAddr + UInt32.ofNat i - r.loadAddr).toNat

theorem Boot.Apart.loadedBytes_eq {b : Boot} (h : b.Apart r) : b.loadedBytes r = b.imageBytes r := by
  have hflash : flashAddr b.fitImgAddr = b.fitImgAddr := if_neg (UInt32.not_lt.mpr h.1)
  have hlen : (readBytes b.mem b.fitImgAddr r.imgSize.toNat).length = r.imgSize.toNat := by
    rw [readBytes, List.length_map, List.length_range]
  rw [loadedBytes, imageBytes, loaded, sebFlashToMem, hflash,
    readBytes_storeBytes _ _ hlen r.imgSize.toNat_lt,
    readBytes_storeBytes_apart _ (by rw [hlen]; exact h.2)]

-- ---------------------------------------------------------------------------
-- Trees that are read inside their blocks
-- ---------------------------------------------------------------------------

/-- The words of its value that the boot code may read; the text of both algorithms has 13
bytes. -/
def propWords : BootProp → Nat
  | .dataSize | .load | .entry => 1
  | .sigAlgo => 4
  | .sigValue => 64

structure Boot.Complete (b : Boot) : Prop where
  safe : ∀ p : BootProp, WalkSafe b.blocks p.path
  found : ∀ p fuel v, getProp b.blocks p fuel = .ok v →
    ∃ i, v = some i ∧ i + propWords p ≤ b.blocks.struct.length

theorem getProp_meant {m : Blocks} (h : WalkSafe m p.path) (he : getProp m p fuel = .error e) :
    e.Meant := by
  unfold getProp at he
  split at he
  next =>
    cases he
    trivial
  next => cases he
  next hrun =>
    cases he
    obtain ⟨i, rfl⟩ := h.reads _ _ hrun
    trivial

theorem strcmp_inside {m : Blocks} (h : i + s2.length < 4 * m.struct.length) (ext : UInt8) :
    inBlocks (fdtStrcmp m.structByte i s2 ext) ≠ .error e := by
  obtain ⟨differs, hd⟩ : ∃ differs, fdtStrcmp m.structByte i s2 ext = .ok differs := by
    induction s2 generalizing i with
    | nil => exact ⟨_, fdtStrcmp_nil (structByte_ok (by simp at h; omega))⟩
    | cons c s2 ih =>
      rw [List.length_cons] at h
      rw [fdtStrcmp_cons (structByte_ok (by omega))]
      split
      · exact ih (by omega)
      · exact ⟨_, rfl⟩
  rw [hd]
  nofun

namespace Boot.Complete

variable {b : Boot} (h : b.Complete)

include h

theorem getProp_cases (p : BootProp) (fuel : Nat) :
    (∃ e, getProp b.blocks p fuel = .error e ∧ e.Meant) ∨
      ∃ i, getProp b.blocks p fuel = .ok (some i) ∧ i + propWords p ≤ b.blocks.struct.length := by
  cases hp : getProp b.blocks p fuel with
  | error e => exact .inl ⟨e, rfl, getProp_meant (h.safe p) hp⟩
  | ok v =>
    obtain ⟨i, rfl, hi⟩ := h.found p fuel v hp
    exact .inr ⟨i, rfl, hi⟩

theorem propWord_meant (hp : propWords p = 1) (he : propWord b.blocks p fuel = .error e) :
    e.Meant := by
  obtain ⟨t, ht, hm⟩ | ⟨i, hi, hin⟩ := h.getProp_cases p fuel
  · rw [propWord, ht] at he
    cases he
    exact hm
  · obtain ⟨w, hw⟩ : ∃ w, b.blocks.struct[i]? = some w := ⟨_, List.getElem?_eq_getElem (by omega)⟩
    rw [propWord, hi, ok_bind] at he
    simp only [inBlocks, word_of_some hw] at he
    cases he

theorem sigValue_meant (he : sigValue b.blocks fuel = .error e) : e.Meant := by
  obtain ⟨t, ht, hm⟩ | ⟨i, hi, hin⟩ := h.getProp_cases .sigValue fuel
  · rw [sigValue, ht] at he
    cases he
    exact hm
  · have hbytes : 4 * i + 256 ≤ 4 * b.blocks.struct.length := by
      simp only [propWords] at hin
      omega
    rw [sigValue, hi, ok_bind] at he
    simp only [structBytes, if_pos hbytes] at he
    cases he

theorem sigText_meant (he : sigText b.blocks fuel = .error e) : e.Meant := by
  obtain ⟨t, ht, hm⟩ | ⟨i, hi, hin⟩ := h.getProp_cases .sigAlgo fuel
  · rw [sigText, ht] at he
    cases he
    exact hm
  · have hsha1 : (ascii "sha1").length = 4 := by decide +kernel
    have hrsa : (ascii "rsa2048").length = 7 := by decide +kernel
    simp only [propWords] at hin
    rw [sigText, hi, ok_bind] at he
    obtain hx | ⟨hashDiffers, -, he⟩ := bind_error.mp he
    · exact absurd hx (strcmp_inside (by rw [hsha1]; omega) comma)
    obtain hx | ⟨cryptoDiffers, -, he⟩ := bind_error.mp he
    · exact absurd hx (strcmp_inside (by rw [hrsa]; split <;> omega) 0)
    cases cryptoDiffers with
    | true => cases he
    | false =>
      obtain hx | ⟨v, -, he⟩ := bind_error.mp he
      · exact h.sigValue_meant hx
      · cases he

theorem readout_meant (he : b.readout fuel = .error e) : e.Meant := by
  rw [Boot.readout] at he
  obtain hx | ⟨imgSize, -, he⟩ := bind_error.mp he
  · exact h.propWord_meant rfl hx
  obtain hx | ⟨loadAddr, -, he⟩ := bind_error.mp he
  · exact h.propWord_meant rfl hx
  obtain hx | ⟨entryAddr, -, he⟩ := bind_error.mp he
  · exact h.propWord_meant rfl hx
  obtain hx | ⟨sig, -, he⟩ := bind_error.mp he
  · exact h.sigText_meant hx
  · cases he

end Boot.Complete

-- ---------------------------------------------------------------------------
-- Which blobs are started as intended
-- ---------------------------------------------------------------------------

theorem OnlyVerified.selects (h : OnlyVerified b) (hinit : sebInitImageInfo b fuel info = .ok info') :
    info'.sigHashAlgo = 1 ∧ info'.sigCryptoAlgo = 1 := by
  have hhash : info'.sigHashAlgo = 1 := by
    by_contra hne
    exact h.stops info fuel _ (sebSecureBoot_noHash hinit hne)
  refine ⟨hhash, ?_⟩
  by_contra hne
  exact h.stops info fuel _ (sebSecureBoot_noCrypto hinit hhash hne)

theorem OnlyVerified.fit (h : OnlyVerified b) : b.sebGetFormat = .fit := by
  cases hf : b.sebGetFormat with
  | legacy =>
    obtain ⟨info', hinit, h0⟩ := sebInitImageInfo_legacy hf 0 blankImage
    exact absurd (h0.symm.trans (h.selects hinit).1) (by decide)
  | invalid =>
    have h1 : blankImage.sigHashAlgo = 1 := (h.selects (sebInitImageInfo_invalid hf 0 blankImage)).1
    exact absurd h1 (by decide)
  | fit => rfl

theorem OnlyVerified.names (h : OnlyVerified b) (hr : b.readout fuel = .ok r) :
    ∃ value, r.sig = .found true (some value) := by
  obtain ⟨hhash, hcrypto⟩ := h.selects (sebInitImageInfo_readout h.fit hr blankImage)
  cases hs : r.sig with
  | missing => exact absurd ((filled_missing b _ hs).symm.trans hhash) (by decide)
  | found sha1 rsa =>
    cases sha1 with
    | false => exact absurd ((filled_hash_kept b _ hs).symm.trans hhash) (by decide)
    | true =>
      cases rsa with
      | none => exact absurd ((filled_crypto_kept b _ hs).symm.trans hcrypto) (by decide)
      | some value => exact ⟨value, rfl⟩

theorem sebSecureBoot_stops (hf : b.sebGetFormat = .fit)
    (hreads : ∀ e, b.readout fuel = .error e → e.Meant)
    (hsigned : ∀ r, b.readout fuel = .ok r → ∃ value, r.sig = .found true (some value))
    (h : sebSecureBoot b info fuel = .error e) : e.Meant := by
  cases hr : b.readout fuel with
  | error t =>
    cases (sebSecureBoot_error (sebInitImageInfo_error hf hr info)).symm.trans h
    exact hreads t hr
  | ok r =>
    obtain ⟨value, hs⟩ := hsigned r hr
    exact sebSecureBoot_signed_error hf hr hs info h

/-- What the blob has to say: the three words and both algorithms, in a tree that is read without
leaving its blocks. Where a run can get to the jump, it also stores its signature and its copy has
the hash of the image. -/
structure Boot.Signed (b : Boot) : Prop where
  fit : b.sebGetFormat = .fit
  reads : ∀ fuel e, b.readout fuel = .error e → e.Meant
  names : ∀ fuel r, b.readout fuel = .ok r → ∃ value, r.sig = .found true (some value) ∧
    ∀ signature, b.Startable r signature → value = none ∨ value = some signature →
      value = some signature ∧ Sha1.hash (b.loadedBytes r) = Sha1.hash (b.imageBytes r)

theorem Boot.Signed.onlyVerified (h : b.Signed) : OnlyVerified b := by
  have hnames fuel r (hr : b.readout fuel = .ok r) : ∃ value, r.sig = .found true (some value) :=
    (h.names fuel r hr).imp fun _ hs => hs.1
  refine ⟨fun info fuel e hrun => ?_, fun info fuel started hrun => ?_⟩
  · exact sebSecureBoot_stops h.fit (h.reads fuel) (hnames fuel) hrun
  · cases hr : b.readout fuel with
    | error t => cases (sebSecureBoot_error (sebInitImageInfo_error h.fit hr info)).symm.trans hrun
    | ok r =>
      obtain ⟨value, hs, hvalue⟩ := h.names fuel r hr
      obtain ⟨hstart, -⟩ := sebSecureBoot_ok h.fit hr hs info hrun
      refine ⟨_, sebInitImageInfo_readout h.fit hr info, ?_⟩
      refine (verifiedStart_iff h.fit hr hs info hrun).mpr (hvalue _ hstart ?_)
      cases value with
      | none => exact .inl rfl
      | some v => exact .inr rfl

theorem OnlyVerified.signed (h : OnlyVerified b) : b.Signed := by
  have hf := h.fit
  refine ⟨hf, fun fuel e he => ?_, fun fuel r hr => ?_⟩
  · exact h.stops blankImage fuel _ (sebSecureBoot_error (sebInitImageInfo_error hf he _))
  · obtain ⟨value, hs⟩ := h.names hr
    refine ⟨value, hs, fun signature hstart hvalue => ?_⟩
    -- the run that finds this signature on the stack
    let info : Image := { blankImage with sigSignature := signature }
    have hget : value.getD info.sigSignature = signature := by
      rcases hvalue with rfl | rfl <;> rfl
    obtain ⟨mem, hrun⟩ := sebSecureBoot_of_startable hf hr hs info (hget ▸ hstart)
    obtain ⟨info', hinit, hv⟩ := h.verified info fuel _ hrun
    cases (sebInitImageInfo_readout hf hr info).symm.trans hinit
    rw [← hget]
    exact (verifiedStart_iff hf hr hs info hrun).mp hv

theorem Boot.onlyVerified_of_apart (hf : b.sebGetFormat = .fit) (hcomplete : b.Complete)
    (htree : ∀ fuel r, b.readout fuel = .ok r →
      b.Apart r ∧ ∃ signature, r.sig = .found true (some (some signature))) : OnlyVerified b := by
  refine Boot.Signed.onlyVerified ⟨hf, fun _ _ => hcomplete.readout_meant, fun fuel r hr => ?_⟩
  obtain ⟨hapart, signature, hs⟩ := htree fuel r hr
  refine ⟨_, hs, fun signature' _ hvalue => ⟨?_, by rw [hapart.loadedBytes_eq]⟩⟩
  simpa using hvalue

def legacyBlob : Boot where
  mem a := (wordBytes Boot.ihMagic).getD (a - 0x94010000).toNat 0
  nextBlobAddr := 0x94010000
  stack := Vector.replicate 64 0
  sebIsFdt _ := false
  lzmaDecompress _ := none

end BismarckPreloader.Secure
