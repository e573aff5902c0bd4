import BismarckPreloader.Secure.Image
import BismarckPreloader.Secure.Padding

/-!
# What the verdict rests on

What the blob says is read once, by `Boot.readout`, without the `image_t`; filling the
`image_t` then only assigns what was read (`sebInitImageInfo_fit`), and the fields
that are not assigned keep what the stack held. `verdictFixed_iff` turns on which
fields those are.
-/

namespace BismarckPreloader.Secure

open Fdt

-- ---------------------------------------------------------------------------
-- What the blob says
-- ---------------------------------------------------------------------------

/-- What the tree says about the signature: nothing, or a text that does or does not
name the hash, and does or does not name the cipher, then perhaps with a value. -/
inductive SigText where
  | missing
  | found (sha1 : Bool) (rsa : Option (Option (Vector UInt8 256)))

def SigText.assign : SigText → Image → Image
  | .missing, info => { info with sigHashAlgo := sebHashNone, sigCryptoAlgo := sebCryptoNone }
  | .found sha1 rsa, info =>
    let info := if sha1 then { info with sigHashAlgo := sebHashSha1 } else info
    match rsa with
    | none => info
    | some value => { info with
        sigCryptoAlgo := sebCryptoRsa2048
        sigLen := 256
        sigSignature := value.getD info.sigSignature }

def sigValue (m : Blocks) (fuel : Nat) : Except TreeStop (Option (Vector UInt8 256)) := do
  match ← getProp m .sigValue fuel with
  | some value => return some (← inBlocks (structBytes m (4 * value) 256))
  | none => return none

def sigText (m : Blocks) (fuel : Nat) : Except TreeStop SigText := do
  match ← getProp m .sigAlgo fuel with
  | none => return .missing
  | some text =>
    let hashDiffers ← inBlocks (fdtStrcmp m.structByte (4 * text) (ascii "sha1") comma)
    let cryptoAlgo := if hashDiffers then 4 * text else 4 * text + 5
    let cryptoDiffers ← inBlocks (fdtStrcmp m.structByte cryptoAlgo (ascii "rsa2048") 0)
    if cryptoDiffers then return .found (!hashDiffers) none
    else return .found (!hashDiffers) (some (← sigValue m fuel))

theorem fdtGetSigValue_eq (m : Blocks) (fuel : Nat) (info : Image) :
    fdtGetSigValue m fuel info = (sigValue m fuel).map fun value =>
      { info with
        sigCryptoAlgo := sebCryptoRsa2048
        sigLen := 256
        sigSignature := value.getD info.sigSignature } := by
  unfold fdtGetSigValue sigValue
  cases getProp m .sigValue fuel with
  | error e => rfl
  | ok value =>
    cases value with
    | none => rfl
    | some value =>
      simp only [ok_bind]
      cases inBlocks (structBytes m (4 * value) 256) <;> rfl

theorem fdtGetSigAlgo_eq (m : Blocks) (fuel : Nat) (info : Image) :
    fdtGetSigAlgo m fuel info = (sigText m fuel).map (SigText.assign · info) := by
  unfold fdtGetSigAlgo sigText
  cases getProp m .sigAlgo fuel with
  | error e => rfl
  | ok text =>
    cases text with
    | none => rfl
    | some text =>
      simp only [ok_bind]
      cases inBlocks (fdtStrcmp m.structByte (4 * text) (ascii "sha1") comma) with
      | error e => rfl
      | ok hashDiffers =>
        simp only [ok_bind]
        cases inBlocks (fdtStrcmp m.structByte (if hashDiffers then 4 * text else 4 * text + 5)
            (ascii "rsa2048") 0) with
        | error e => rfl
        | ok cryptoDiffers =>
          simp only [ok_bind, fdtGetSigValue_eq]
          cases cryptoDiffers with
          | true => cases hashDiffers <;> rfl
          | false =>
            simp only [Bool.false_eq_true, if_false]
            cases sigValue m fuel with
            | error e => rfl
            | ok value => cases hashDiffers <;> rfl

structure Readout where
  imgSize : UInt32
  loadAddr : UInt32
  entryAddr : UInt32
  sig : SigText

namespace Boot

def readout (b : Boot) (fuel : Nat) : Except TreeStop Readout := do
  let imgSize ← propWord b.blocks .dataSize fuel
  let loadAddr ← propWord b.blocks .load fuel
  let entryAddr ← propWord b.blocks .entry fuel
  let sig ← sigText b.blocks fuel
  return ⟨imgSize, loadAddr, entryAddr, sig⟩

def fitImgAddr (b : Boot) : UInt32 := b.nextBlobAddr + ((b.headerWord 1 + 3) &&& ~~~0x3)

/-- The `image_t` filled with what was read. -/
def filled (b : Boot) (r : Readout) (info : Image) : Image :=
  let info := r.sig.assign { info with
    blobAddr := b.nextBlobAddr
    imgAddr := b.fitImgAddr
    imgSize := r.imgSize
    loadAddr := r.loadAddr
    entryAddr := r.entryAddr }
  { info with compAlgo := uihCompLzma, encAlgo := 0 }

theorem sebInitImageInfo_fit {b : Boot} (h : b.sebGetFormat = .fit) (fuel : Nat) (info : Image) :
    sebInitImageInfo b fuel info = (b.readout fuel).map (b.filled · info) := by
  rw [sebInitImageInfo, h, fillImageInfo, readout]
  cases propWord b.blocks .dataSize fuel with
  | error e => rfl
  | ok imgSize =>
    simp only [ok_bind]
    cases propWord b.blocks .load fuel with
    | error e => rfl
    | ok loadAddr =>
      simp only [ok_bind]
      cases propWord b.blocks .entry fuel with
      | error e => rfl
      | ok entryAddr =>
        simp only [ok_bind, fdtGetSigAlgo_eq]
        cases sigText b.blocks fuel <;> rfl

end Boot

section Filled

variable (b : Boot) {r : Readout} (info : Image)

theorem filled_missing (h : r.sig = .missing) : (b.filled r info).sigHashAlgo = 0 := by
  rw [Boot.filled, h]
  rfl

theorem filled_hash (h : r.sig = .found true rsa) : (b.filled r info).sigHashAlgo = 1 := by
  rw [Boot.filled, h]
  cases rsa <;> rfl

theorem filled_hash_kept (h : r.sig = .found false rsa) :
    (b.filled r info).sigHashAlgo = info.sigHashAlgo := by
  rw [Boot.filled, h]
  cases rsa <;> rfl

theorem filled_crypto_kept (h : r.sig = .found sha1 none) :
    (b.filled r info).sigCryptoAlgo = info.sigCryptoAlgo := by
  rw [Boot.filled, h]
  cases sha1 <;> rfl

theorem filled_crypto (h : r.sig = .found sha1 (some value)) :
    (b.filled r info).sigCryptoAlgo = 1 ∧ (b.filled r info).sigLen = 256 ∧
      (b.filled r info).sigSignature = value.getD info.sigSignature := by
  rw [Boot.filled, h]
  cases sha1 <;> exact ⟨rfl, rfl, rfl⟩

theorem filled_settled (h : r.sig = .found true (some (some signature))) (info₁ info₂ : Image) :
    b.filled r info₁ = b.filled r info₂ := by
  rw [Boot.filled, h, Boot.filled, h]
  rfl

end Filled

theorem entry_singleton (x : α) (algo : UInt8) :
    entry [x] algo = if algo = 1 then some x else none := by
  unfold entry
  by_cases h0 : algo = 0
  · simp [h0]
  · by_cases h1 : algo = 1
    · simp [h1]
    · have hne0 : algo.toNat ≠ 0 := fun h => h0 (UInt8.toNat_inj.mp h)
      have hne1 : algo.toNat ≠ 1 := fun h => h1 (UInt8.toNat_inj.mp h)
      rw [if_neg h0, if_neg h1]
      exact List.getElem?_eq_none (by simp; omega)

section Verify

variable (b : Boot) {info : Image} (mem : Space)

theorem sebVerifyImage_noHash (h : info.sigHashAlgo ≠ 1) :
    sebVerifyImage b info mem =
      ⟨[.hashAlgo info.sigHashAlgo], .error (.hashIndex info.sigHashAlgo)⟩ := by
  simp only [sebVerifyImage, checksumAlgos, entry_singleton, if_neg h, orStop, Logged.note_bind,
    Logged.lift_error_bind]

def hashedBytes (info : Image) (mem : Space) : List UInt8 :=
  readBytes mem info.imgAddr info.imgSize.toNat

theorem sha1Algo_calculate (image : List UInt8) (h : image.length < 2 ^ 32) :
    sha1Algo.calculate b.stack.toList image = (0, Sha1.hash image) := by
  show (0, sha1Calculate b.stack.toList image) = _
  rw [sha1Calculate_eq b.stack.length_toList h]

theorem hashedBytes_lt (info : Image) (mem : Space) :
    (hashedBytes info mem).length < 2 ^ 32 := by
  rw [hashedBytes, readBytes, List.length_map, List.length_range]
  exact info.imgSize.toNat_lt

theorem sebVerifyImage_noCrypto (hh : info.sigHashAlgo = 1) (hc : info.sigCryptoAlgo ≠ 1) :
    sebVerifyImage b info mem =
      ⟨[.hashAlgo 1, .cryptoAlgo info.sigCryptoAlgo, .image (hashedBytes info mem)],
        .error (.cryptoIndex info.sigCryptoAlgo)⟩ := by
  have hcalc := sha1Algo_calculate b _ (hashedBytes_lt info mem)
  rw [hashedBytes] at hcalc
  simp only [sebVerifyImage, checksumAlgos, cryptoAlgos, entry_singleton, hh, if_pos, if_neg hc,
    orStop, Logged.note_bind, Logged.lift_ok_bind, Logged.lift_error_bind, hcalc, hashedBytes,
    ne_eq, not_true, if_false]

theorem sebVerifyImage_signed (hh : info.sigHashAlgo = 1) (hc : info.sigCryptoAlgo = 1) :
    sebVerifyImage b info mem =
      ⟨[.hashAlgo 1, .cryptoAlgo 1, .image (hashedBytes info mem), .sigLen info.sigLen,
          .signature (info.sigSignature.toList.take info.sigLen.toNat)],
        (rsaVerify info.sigSignature.toList info.sigLen.toNat 256 sha1Algo
          (Sha1.hash (hashedBytes info mem))).mapError .buffer⟩ := by
  have hcalc := sha1Algo_calculate b _ (hashedBytes_lt info mem)
  rw [hashedBytes] at hcalc
  simp only [sebVerifyImage, checksumAlgos, cryptoAlgos, entry_singleton, hh, hc, if_pos,
    orStop, Logged.note_bind, Logged.lift_ok_bind, hcalc, hashedBytes, ne_eq, not_true, if_false]
  rfl

end Verify

-- ---------------------------------------------------------------------------
-- The verdict and the stack
-- ---------------------------------------------------------------------------

/-- The run up to the verdict, with what the verification reads, from an `image_t`
that holds `info` before. -/
def verdict (b : Boot) (info : Image) (fuel : Nat) : Logged Nat := do
  let info ← Logged.lift ((sebInitImageInfo b fuel info).mapError .tree)
  sebVerifyImage b info (sebLoadImage b.mem info)

/-- The verdict, and all that it is found from, does not depend on the stack. Nor does any run
leave an object: the blocks lie in the frame of the `image_t`, and a selector outside its table
calls whatever is there. -/
def VerdictFixed (b : Boot) : Prop :=
  ∀ info₁ info₂ fuel, verdict b info₁ fuel = verdict b info₂ fuel ∧
    ∀ e, (verdict b info₁ fuel).result = .error e → e.Meant

def SigText.Settled (t : SigText) : Prop := ∃ signature, t = .found true (some (some signature))

theorem verdict_error (h : sebInitImageInfo b fuel info = .error e) :
    verdict b info fuel = ⟨[], .error (.tree e)⟩ := by
  rw [verdict, h]
  rfl

theorem verdict_ok (h : sebInitImageInfo b fuel info = .ok info') :
    verdict b info fuel = sebVerifyImage b info' (sebLoadImage b.mem info') := by
  rw [verdict, h]
  rfl

theorem sebInitImageInfo_legacy {b : Boot} (h : b.sebGetFormat = .legacy) (fuel : Nat)
    (info : Image) :
    ∃ info', sebInitImageInfo b fuel info = .ok info' ∧ info'.sigHashAlgo = 0 := by
  rw [sebInitImageInfo, h]
  exact ⟨_, rfl, rfl⟩

theorem sebInitImageInfo_invalid {b : Boot} (h : b.sebGetFormat = .invalid) (fuel : Nat)
    (info : Image) :
    sebInitImageInfo b fuel info = .ok { info with blobAddr := b.nextBlobAddr } := by
  rw [sebInitImageInfo, h]
  rfl

theorem sebInitImageInfo_readout {b : Boot} (h : b.sebGetFormat = .fit)
    (hr : b.readout fuel = .ok r) (info : Image) :
    sebInitImageInfo b fuel info = .ok (b.filled r info) := by
  rw [Boot.sebInitImageInfo_fit h, hr]
  rfl

theorem sebInitImageInfo_error {b : Boot} (h : b.sebGetFormat = .fit)
    (hr : b.readout fuel = .error e) (info : Image) : sebInitImageInfo b fuel info = .error e := by
  rw [Boot.sebInitImageInfo_fit h, hr]
  rfl

def blankImage : Image := ⟨0, 0, 0, 0, 0, 0, Vector.replicate 256 0, 0, 0, 0, 0⟩

theorem verdict_noHash (h : sebInitImageInfo b fuel info = .ok info') (hh : info'.sigHashAlgo ≠ 1) :
    verdict b info fuel =
      ⟨[.hashAlgo info'.sigHashAlgo], .error (.hashIndex info'.sigHashAlgo)⟩ := by
  rw [verdict_ok h, sebVerifyImage_noHash b _ hh]

theorem not_verdictFixed_of_hash {b : Boot} {init : Image → Image}
    (h : ∀ info, sebInitImageInfo b fuel info = .ok (init info))
    (hkept : ∀ info, (init info).sigHashAlgo = info.sigHashAlgo) : ¬ VerdictFixed b := by
  intro hv
  -- neither selects an entry, and each is read
  have h02 := (hv { blankImage with sigHashAlgo := 0 } { blankImage with sigHashAlgo := 2 } fuel).1
  rw [verdict_noHash (h _) (by rw [hkept]; decide), verdict_noHash (h _) (by rw [hkept]; decide),
    hkept, hkept] at h02
  exact absurd (congrArg Logged.reads h02) (by decide)

theorem not_verdictFixed_of_crypto {b : Boot} {init : Image → Image}
    (h : ∀ info, sebInitImageInfo b fuel info = .ok (init info))
    (hhash : ∀ info, (init info).sigHashAlgo = 1)
    (hkept : ∀ info, (init info).sigCryptoAlgo = info.sigCryptoAlgo) : ¬ VerdictFixed b := by
  intro hv
  have h02 :=
    (hv { blankImage with sigCryptoAlgo := 0 } { blankImage with sigCryptoAlgo := 2 } fuel).1
  rw [verdict_ok (h _), verdict_ok (h _),
    sebVerifyImage_noCrypto b _ (hhash _) (by rw [hkept]; decide),
    sebVerifyImage_noCrypto b _ (hhash _) (by rw [hkept]; decide), hkept, hkept] at h02
  have hreads := congrArg (fun v : Logged Nat => v.reads[1]?) h02
  exact absurd hreads (by simp)

theorem not_verdictFixed_of_signature {b : Boot} {init : Image → Image}
    (h : ∀ info, sebInitImageInfo b fuel info = .ok (init info))
    (hhash : ∀ info, (init info).sigHashAlgo = 1) (hcrypto : ∀ info, (init info).sigCryptoAlgo = 1)
    (hlen : ∀ info, (init info).sigLen = 256)
    (hkept : ∀ info, (init info).sigSignature = info.sigSignature) : ¬ VerdictFixed b := by
  intro hv
  have h01 := (hv { blankImage with sigSignature := Vector.replicate 256 0 }
    { blankImage with sigSignature := Vector.replicate 256 1 } fuel).1
  rw [verdict_ok (h _), verdict_ok (h _), sebVerifyImage_signed b _ (hhash _) (hcrypto _),
    sebVerifyImage_signed b _ (hhash _) (hcrypto _), hkept, hkept, hlen, hlen] at h01
  have hreads := congrArg (fun v : Logged Nat => v.reads[4]?) h01
  have hfirst := congrArg List.head? (Read.signature.inj (Option.some.inj hreads))
  exact absurd hfirst (by decide)

theorem not_verdictFixed_of_none (h : sebInitImageInfo b fuel info = .ok info')
    (h0 : info'.sigHashAlgo = 0) : ¬ VerdictFixed b := by
  intro hv
  have hrun := verdict_noHash h (by rw [h0]; decide)
  exact (hv info info fuel).2 _ (congrArg Logged.result hrun)

theorem VerdictFixed.settled (hv : VerdictFixed b) (hf : b.sebGetFormat = .fit)
    (hr : b.readout fuel = .ok r) : r.sig.Settled := by
  have hinit := sebInitImageInfo_readout hf hr
  cases hs : r.sig with
  | missing =>
    exact absurd hv (not_verdictFixed_of_none (hinit blankImage) (filled_missing b _ hs))
  | found sha1 rsa =>
    cases sha1 with
    | false =>
      exact absurd hv (not_verdictFixed_of_hash hinit fun info => filled_hash_kept b info hs)
    | true =>
      have hhash := fun info => filled_hash b info hs
      cases rsa with
      | none =>
        exact absurd hv
          (not_verdictFixed_of_crypto hinit hhash fun info => filled_crypto_kept b info hs)
      | some value =>
        have hcrypto := fun info => filled_crypto b info hs
        cases value with
        | none =>
          exact absurd hv (not_verdictFixed_of_signature hinit hhash
            (fun info => (hcrypto info).1) (fun info => (hcrypto info).2.1)
            fun info => (hcrypto info).2.2)
        | some signature => exact ⟨signature, rfl⟩

theorem verdict_settled (hf : b.sebGetFormat = .fit) (hr : b.readout fuel = .ok r)
    (hs : r.sig = .found true (some (some signature))) (info : Image) :
    ∃ ret, (verdict b info fuel).result = .ok ret := by
  obtain ⟨hcrypto, hlen, hsig⟩ := filled_crypto b info hs
  obtain ⟨ret, hret⟩ := rsaVerify_total signature
    (Sha1.length_hash (hashedBytes (b.filled r info) (sebLoadImage b.mem (b.filled r info))))
  refine ⟨ret, ?_⟩
  rw [verdict_ok (sebInitImageInfo_readout hf hr info),
    sebVerifyImage_signed b _ (filled_hash b info hs) hcrypto, hlen, hsig]
  show Except.mapError Stop.buffer (rsaVerify signature.toList 256 256 sha1Algo _) = _
  rw [hret]
  rfl

def zeroFlash : Boot where
  mem _ := 0
  nextBlobAddr := 0x94010000
  stack := Vector.replicate 64 0
  sebIsFdt _ := false
  lzmaDecompress _ := none

end BismarckPreloader.Secure
