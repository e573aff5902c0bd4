import BismarckPreloader.Auth.Reassembly
import BismarckPreloader.Nand.Delivered

/-!
# The executed bytes and the verified ones

`Authentic` asks that no property is missing when it is used, that nothing is read or written
outside its array, and that a jump to U-Boot only follows when the signature was accepted over
a message that contains every byte taken from the image. The length of the message and the
lengths that are copied come from different places and are never compared, so `authentic_iff`
has to ask for it. `StoredBoot` has the image as it is stored, and the condition is on that.
-/

namespace BismarckPreloader.Auth

open Nand Fdt
open Secure (TreeStop readBytes)

theorem bytesAt_append (m : Mem) (addr n k : Nat) :
    bytesAt m addr n ++ bytesAt m (addr + n) k = bytesAt m addr (n + k) := by
  rw [bytesAt, bytesAt, bytesAt, List.range_add, List.map_append, List.map_map]
  congr 1
  apply List.map_congr_left
  intro j _
  rw [Function.comp_apply, Nat.add_assoc]

theorem updateFrom_blocks (scheme : SignScheme) (dram : Mem) (img size i : Nat)
    (state : scheme.State) :
    ∃ blocks : List (List UInt8),
      updateFrom scheme dram img size i state = blocks.foldl scheme.update state ∧
        blocks.flatten = bytesAt dram (img + i) (size - i) := by
  induction i, state using updateFrom.induct scheme dram img size with
  | case1 i state hlt len ih =>
    obtain ⟨blocks, hfold, hflat⟩ := ih
    refine ⟨bytesAt dram (img + i) len :: blocks, ?_, ?_⟩
    · rw [updateFrom, if_pos hlt]
      exact hfold
    · have hlen : len ≤ size - i := by
        simp only [len]
        split <;> omega
      rw [List.flatten_cons, hflat, ← Nat.add_assoc, bytesAt_append]
      congr 1
      omega
  | case2 i state hge =>
    refine ⟨[], ?_, ?_⟩
    · rw [updateFrom, if_neg hge, List.foldl_nil]
    · rw [Nat.sub_eq_zero_of_le (Nat.not_lt.mp hge)]
      rfl

theorem authSignatureVerify_eq (scheme : SignScheme) (dram : Mem) (img size : Nat)
    (sign key : List UInt8) :
    authSignatureVerify scheme dram img size sign key =
      scheme.accepts (bytesAt dram img size) sign key := by
  obtain ⟨blocks, hfold, hflat⟩ := updateFrom_blocks scheme dram img size 0 scheme.init
  rw [authSignatureVerify, hfold, scheme.streams, hflat]
  rfl

-- ---------------------------------------------------------------------------
-- The property
-- ---------------------------------------------------------------------------

structure KeyedBoot extends AuthBoot where
  keyed : ∃ e ∈ pkey.toList, e ≠ 0

namespace AuthBoot

variable (b : AuthBoot)

def message (dram : Mem) (size : Nat) : List UInt8 := bytesAt dram b.board.eccDecodedUbootAddr size

structure Authentic : Prop where
  stops : ∀ fuel e, b.ubootBringUp fuel = .error e → e.Meant
  executed : ∀ fuel j, b.ubootBringUp fuel = .ok j → ∃ v, j.verified = some v ∧
    b.scheme.accepts (b.message j.dram v.size) v.sign b.key = true ∧
      ∀ k, j.plan.offset ≤ k → k < j.plan.offset + j.plan.size → k < v.size

def ubootReads : List PageRead := b.flash.map FlashPage.read

def Loads : Prop :=
  ∃ total s, eccUbootToDram b.board b.dram b.ubootReads = .ret (total, s) ∧ ¬total < 0

structure HeaderPasses (fdt : Mem) : Prop where
  loads : b.Loads
  probed : ∃ r p, b.probe = .ok (r, p) ∧ p.fdt = fdt
  checked : fdtCheckHeader fdt = 0

def propAddr (fdt : Mem) (path : List UInt8) (fuel : Nat) : Except TreeStop (Option UInt32) :=
  let fdt := b.linkHeader fdt
  getPropAddr (b.space fdt) (wordAt fdt 8) (wordAt fdt 12) path fuel

def linkedSpace (fdt : Mem) : Secure.Space := b.space (b.linkHeader fdt)

end AuthBoot

def Found : Except TreeStop (Option UInt32) → Prop
  | .ok a => a.isSome
  | .error e => e.Meant

structure StoredBoot extends KeyedBoot where
  total : Nat
  numbered : Numbered (toAuthBoot.ubootReads.drop (1 <<< 6)) total

namespace StoredBoot

variable (b : StoredBoot)

def image : Mem := imageDram b.board b.dram (b.ubootReads.drop (1 <<< 6))

def ihMagic : UInt32 := wordAt b.image b.board.eccDecodedUbootAddr
def ihSize : Nat := (wordAt b.image (b.board.eccDecodedUbootAddr + 12)).toNat
def ihComp : UInt8 := b.image (b.board.eccDecodedUbootAddr + 31)

def Raw : Prop := b.ihMagic ≠ uimgMagicNum ∧ b.ihMagic ≠ magicUboot2011

instance : Decidable b.Raw := inferInstanceAs (Decidable (_ ∧ _))

def Supported : Prop :=
  b.Raw ∨ b.ihComp = uihCompNone ∨
    b.ihComp = uihCompLzma ∧ b.inflates b.image (b.board.eccDecodedUbootAddr + 64) b.ihSize = true

def usedEnd : Nat :=
  if b.Raw then b.total * b.board.pageSize else if b.ihSize = 0 then 0 else 64 + b.ihSize

/-- All accesses stay in range, the properties are there, and a stored image that is accepted is
not used beyond its `data-size`. -/
structure Covered : Prop where
  table : ∀ s p, LoaderReaches b.board b.dram b.ubootReads s p → UsesIndex s p →
    p.oob.idxChunk.toNat < b.board.maxUbootSize / b.board.pageSize
  buffer : b.Loads → ∀ s p, ProbeReaches (b.flash.map FlashPage.header) b.stackBuf s p →
    p.Correctable → p.Reasonable → s.Misses p → p.index < 2
  aligned : ∀ fdt, b.HeaderPasses fdt → wordAt (b.linkHeader fdt) 8 % 4 = 0
  dataSize : ∀ fdt fuel, b.HeaderPasses fdt → Found (b.propAddr fdt dataSizePath fuel)
  sign : ∀ fdt fuel a, b.HeaderPasses fdt →
    b.propAddr fdt dataSizePath fuel = .ok (some a) → Found (b.propAddr fdt signPath fuel)
  length : ∀ fdt fuel a shdr, b.HeaderPasses fdt →
    b.propAddr fdt dataSizePath fuel = .ok (some a) →
    b.propAddr fdt signPath fuel = .ok (some shdr) →
    b.scheme.accepts (b.message b.image (spaceWord (b.linkedSpace fdt) a).toNat)
      (readBytes (b.linkedSpace fdt) shdr 64) b.key = true →
    b.linkedSpace fdt (shdr + 96) ≠ cryoptSigEnc → b.Supported →
    b.usedEnd ≤ (spaceWord (b.linkedSpace fdt) a).toNat

end StoredBoot

theorem KeyedBoot.count_ne_zero (b : KeyedBoot) : (getPkeyInfo b.pkey).2 ≠ 0 := by
  obtain ⟨e, he, hne⟩ := b.keyed
  intro hsum
  have hall := List.sum_eq_zero_iff_forall_eq_nat.mp hsum
  have hzero := hall e.toNat (List.mem_map_of_mem he)
  exact hne (UInt16.toNat_inj.mp hzero)

-- ---------------------------------------------------------------------------
-- The header
-- ---------------------------------------------------------------------------

section Header

variable {b : AuthBoot} {dram fdt : Mem}

theorem verifyHeader_eq (hcheck : fdtCheckHeader fdt = 0)
    (haligned : wordAt (b.linkHeader fdt) 8 % 4 = 0) (fuel : Nat) :
    b.verifyHeader dram fdt fuel = (do
      let a ← orNull (b.propAddr fdt dataSizePath fuel)
      let shdr ← orNull (b.propAddr fdt signPath fuel)
      let size := (spaceWord (b.linkedSpace fdt) a).toNat
      let sign := readBytes (b.linkedSpace fdt) shdr 64
      if b.scheme.accepts (b.message dram size) sign b.key then
        if b.linkedSpace fdt (shdr + 96) = cryoptSigEnc then .error .encrypted
        else pure ⟨size, sign⟩
      else .error .forged) := by
  have hnot : ¬wordAt (b.linkHeader fdt) 8 % 4 ≠ 0 := fun hne => hne haligned
  simp only [AuthBoot.verifyHeader, if_pos hcheck, if_neg hnot, authSignatureVerify_eq]
  rfl

theorem verifyHeader_unaligned (hcheck : fdtCheckHeader fdt = 0)
    (haligned : wordAt (b.linkHeader fdt) 8 % 4 ≠ 0) (fuel : Nat) :
    b.verifyHeader dram fdt fuel = .error .unaligned := by
  simp only [AuthBoot.verifyHeader, if_pos hcheck, if_pos haligned]
  rfl

theorem orNull_ok {x : Except TreeStop (Option UInt32)} : orNull x = .ok a ↔ x = .ok (some a) := by
  rcases x with e | _ | v <;> simp [orNull]

theorem orNull_meant {x : Except TreeStop (Option UInt32)} :
    Found x ↔ ∀ e, orNull x = .error e → e.Meant := by
  rcases x with e | _ | v <;> simp [orNull, Found, Stop.Meant, TreeStop.Meant]

variable (hcheck : fdtCheckHeader fdt = 0) (haligned : wordAt (b.linkHeader fdt) 8 % 4 = 0)
  (fuel : Nat)

include hcheck haligned

theorem verifyHeader_meant : (∀ e, b.verifyHeader dram fdt fuel = .error e → e.Meant) ↔
    Found (b.propAddr fdt dataSizePath fuel) ∧
      ∀ a, b.propAddr fdt dataSizePath fuel = .ok (some a) →
        Found (b.propAddr fdt signPath fuel) := by
  rw [verifyHeader_eq hcheck haligned, orNull_meant, orNull_meant]
  simp only [← orNull_ok]
  constructor
  · intro h
    refine ⟨fun e he => h e (by rw [he]; rfl), fun a ha e he => h e ?_⟩
    rw [ha, ok_bind, he]
    rfl
  · rintro ⟨hsize, hsign⟩ e he
    obtain hx | ⟨a, ha, he⟩ := bind_error.mp he
    · exact hsize e hx
    obtain hx | ⟨shdr, -, he⟩ := bind_error.mp he
    · exact hsign a ha e hx
    split at he
    · split at he
      · cases he
        trivial
      · cases he
    · cases he
      trivial

theorem verifyHeader_ok : b.verifyHeader dram fdt fuel = .ok v ↔
    ∃ a shdr, b.propAddr fdt dataSizePath fuel = .ok (some a) ∧
      b.propAddr fdt signPath fuel = .ok (some shdr) ∧
      b.scheme.accepts (b.message dram (spaceWord (b.linkedSpace fdt) a).toNat)
        (readBytes (b.linkedSpace fdt) shdr 64) b.key = true ∧
      b.linkedSpace fdt (shdr + 96) ≠ cryoptSigEnc ∧
      v = ⟨(spaceWord (b.linkedSpace fdt) a).toNat, readBytes (b.linkedSpace fdt) shdr 64⟩ := by
  rw [verifyHeader_eq hcheck haligned]
  simp only [bind_ok, orNull_ok]
  constructor
  · rintro ⟨a, ha, shdr, hshdr, hv⟩
    split at hv
    next hacc =>
      split at hv
      next => cases hv
      next htype =>
        cases hv
        exact ⟨a, shdr, ha, hshdr, hacc, htype, rfl⟩
    next => cases hv
  · rintro ⟨a, shdr, ha, hshdr, hacc, htype, rfl⟩
    refine ⟨a, ha, shdr, hshdr, ?_⟩
    rw [if_pos hacc, if_neg htype]
    rfl

end Header

theorem inside_iff (offset size bound : Nat) :
    (∀ k, offset ≤ k → k < offset + size → k < bound) ↔
      (if size = 0 then 0 else offset + size) ≤ bound := by
  constructor
  · intro h
    split
    · exact Nat.zero_le _
    · have := h (offset + size - 1) (by omega) (by omega)
      omega
  · intro h k hk hlt
    rw [if_neg (by omega)] at h
    omega

namespace StoredBoot

variable (b : StoredBoot)

theorem plan_raw (h : b.Raw) :
    b.plan b.image b.total = .ok ⟨0, b.total * b.board.pageSize, b.ubootDecompAddr⟩ := if_pos h

theorem plan_headed (h : ¬b.Raw) : b.plan b.image b.total =
    let entry := wordAt b.image (b.board.eccDecodedUbootAddr + 20)
    if b.ihComp = uihCompLzma then
      if b.inflates b.image (b.board.eccDecodedUbootAddr + 64) b.ihSize then
        .ok ⟨64, b.ihSize, entry⟩
      else .error .decompression
    else if b.ihComp = uihCompNone then .ok ⟨64, b.ihSize, entry⟩
    else .error .unsupported := if_neg h

theorem plan_of_supported (h : b.Supported) : ∃ plan, b.plan b.image b.total = .ok plan ∧
    (if plan.size = 0 then 0 else plan.offset + plan.size) = b.usedEnd := by
  by_cases hraw : b.Raw
  · refine ⟨_, b.plan_raw hraw, ?_⟩
    rw [usedEnd, if_pos hraw]
    dsimp only
    split <;> omega
  · have hend : (if b.ihSize = 0 then 0 else 64 + b.ihSize) = b.usedEnd := (if_neg hraw).symm
    have hplan := b.plan_headed hraw
    obtain hraw' | hnone | ⟨hlzma, hinf⟩ := h
    · exact absurd hraw' hraw
    · have hne : b.ihComp ≠ uihCompLzma := by
        rw [hnone]
        decide
      rw [if_neg hne, if_pos hnone] at hplan
      exact ⟨_, hplan, hend⟩
    · rw [if_pos hlzma, if_pos hinf] at hplan
      exact ⟨_, hplan, hend⟩

theorem plan_of_not_supported (h : ¬b.Supported) :
    ∃ e, b.plan b.image b.total = .error e ∧ e.Meant := by
  simp only [Supported, not_or, not_and] at h
  obtain ⟨hraw, hnone, hlzma⟩ := h
  rw [b.plan_headed hraw]
  by_cases hc : b.ihComp = uihCompLzma
  · exact ⟨.decompression, by rw [if_pos hc, if_neg (hlzma hc)], trivial⟩
  · exact ⟨.unsupported, by rw [if_neg hc, if_neg hnone], trivial⟩

variable {b} in
theorem meant_of_plan_error (h : b.plan b.image b.total = .error e) : e.Meant := by
  by_cases hsup : b.Supported
  · obtain ⟨plan, hplan, -⟩ := b.plan_of_supported hsup
    cases hplan.symm.trans h
  · obtain ⟨e', hplan, hmeant⟩ := b.plan_of_not_supported hsup
    cases hplan.symm.trans h
    exact hmeant

variable {b} in
theorem supported_of_plan_ok (h : b.plan b.image b.total = .ok plan) : b.Supported ∧
    (if plan.size = 0 then 0 else plan.offset + plan.size) = b.usedEnd := by
  by_cases hsup : b.Supported
  · obtain ⟨plan', hplan, hend⟩ := b.plan_of_supported hsup
    cases hplan.symm.trans h
    exact ⟨hsup, hend⟩
  · obtain ⟨e, hplan, -⟩ := b.plan_of_not_supported hsup
    cases hplan.symm.trans h

-- ---------------------------------------------------------------------------
-- Runs
-- ---------------------------------------------------------------------------

theorem ubootBringUp_halt (h : eccUbootToDram b.board b.dram b.ubootReads = .halt e) (fuel : Nat) :
    b.ubootBringUp fuel = .error (.loaderFault e) := by
  rw [AuthBoot.ubootReads] at h
  rw [AuthBoot.ubootBringUp, h]

theorem ubootBringUp_of_not_loads (hl : ¬b.Loads)
    (hin : ∀ e, eccUbootToDram b.board b.dram b.ubootReads ≠ .halt e) (fuel : Nat) :
    ∃ r, b.ubootBringUp fuel = .error (.loader r) := by
  unfold AuthBoot.ubootBringUp
  split
  next => exact ⟨_, rfl⟩
  next e hload => exact absurd hload (hin e)
  next total s hload =>
    by_cases hpos : total < 0
    · exact ⟨total, if_pos hpos⟩
    · exact absurd ⟨total, s, hload, hpos⟩ hl

theorem ubootBringUp_probed (hl : b.Loads) (hp : b.probe = .ok (r, p)) (fuel : Nat) :
    b.ubootBringUp fuel = (do
      let v ← b.verifyHeader b.image p.fdt fuel
      let plan ← b.plan b.image b.total
      pure ⟨b.image, some v, plan⟩) := by
  obtain ⟨total, s, hload, hpos⟩ := hl
  obtain ⟨htotal, hdram⟩ := eccUbootToDram_delivers b.numbered hload hpos
  have himage : s.dram = b.image := hdram
  rw [AuthBoot.ubootReads] at hload
  simp only [AuthBoot.ubootBringUp, hload, AuthBoot.authModVerifyImg, if_neg b.count_ne_zero,
    himage, htotal, Int.toNat_natCast, hp]
  cases b.verifyHeader b.image p.fdt fuel <;> rfl

theorem ubootBringUp_probe_error (hl : b.Loads) (hp : b.probe = .error e) (fuel : Nat) :
    b.ubootBringUp fuel = .error (.probeFault e) := by
  obtain ⟨total, s, hload, hpos⟩ := hl
  rw [AuthBoot.ubootReads] at hload
  simp only [AuthBoot.ubootBringUp, hload, if_neg hpos, AuthBoot.authModVerifyImg,
    if_neg b.count_ne_zero, hp, error_bind]

theorem probe_ne_error_iff : (∀ e, b.probe ≠ .error e) ↔
    ∀ s p, ProbeReaches (b.flash.map FlashPage.header) b.stackBuf s p →
      p.Correctable → p.Reasonable → s.Misses p → p.index < 2 := by
  have herror : ∀ e, b.probe = .error e ↔
      ∃ s p, ProbeReaches (b.flash.map FlashPage.header) b.stackBuf s p ∧
        probePass s p = .halt e := fun e => fdtProbe_error.trans (Scan.run_eq_iff rfl)
  constructor
  · intro h s p hr hp hreas hmiss
    by_contra hi
    obtain ⟨e, he⟩ := probePass_halt.mpr ⟨hp, hreas, hmiss, hi⟩
    exact h e ((herror e).mpr ⟨s, p, hr, he⟩)
  · intro h e he
    obtain ⟨s, p, hr, he⟩ := (herror e).mp he
    obtain ⟨hp, hreas, hmiss, hi⟩ := probePass_halt.mp ⟨e, he⟩
    exact hi (h s p hr hp hreas hmiss)

variable {b}

theorem ubootBringUp_of_passes (hp : b.HeaderPasses fdt) (fuel : Nat) :
    b.ubootBringUp fuel = (do
      let v ← b.verifyHeader b.image fdt fuel
      let plan ← b.plan b.image b.total
      pure ⟨b.image, some v, plan⟩) := by
  obtain ⟨hl, ⟨r, p, hp, rfl⟩, -⟩ := hp
  exact b.ubootBringUp_probed hl hp fuel

theorem covered_of_authentic (h : b.Authentic) : b.Covered := by
  have hverify : ∀ fdt, b.HeaderPasses fdt → ∀ fuel e,
      b.verifyHeader b.image fdt fuel = .error e → e.Meant := by
    intro fdt hp fuel e he
    refine h.stops fuel e ?_
    rw [ubootBringUp_of_passes hp, he, error_bind]
  have haligned : ∀ fdt, b.HeaderPasses fdt → wordAt (b.linkHeader fdt) 8 % 4 = 0 := by
    intro fdt hp
    by_contra hne
    exact hverify fdt hp 0 _ (verifyHeader_unaligned hp.checked hne 0)
  have hfound := fun fdt fuel hp =>
    (verifyHeader_meant hp.checked (haligned fdt hp) fuel).mp (hverify fdt hp fuel)
  refine ⟨eccUbootToDram_ne_halt_iff.mp fun e he => h.stops 0 _ (b.ubootBringUp_halt he 0),
    fun hl => b.probe_ne_error_iff.mp fun e he => h.stops 0 _ (b.ubootBringUp_probe_error hl he 0),
    haligned, fun fdt fuel hp => (hfound fdt fuel hp).1,
    fun fdt fuel a hp ha => (hfound fdt fuel hp).2 a ha, ?_⟩
  intro fdt fuel a shdr hp ha hshdr hacc htype hsup
  obtain ⟨plan, hplan, hend⟩ := b.plan_of_supported hsup
  let v : Verified :=
    ⟨(spaceWord (b.linkedSpace fdt) a).toNat, readBytes (b.linkedSpace fdt) shdr 64⟩
  have hv : b.verifyHeader b.image fdt fuel = .ok v :=
    (verifyHeader_ok hp.checked (haligned fdt hp) fuel).mpr
      ⟨a, shdr, ha, hshdr, hacc, htype, rfl⟩
  have hjump : b.ubootBringUp fuel = .ok ⟨b.image, some v, plan⟩ := by
    rw [ubootBringUp_of_passes hp, hv, ok_bind, hplan]
    rfl
  obtain ⟨v, hsome, -, hinside⟩ := h.executed fuel _ hjump
  cases hsome
  rw [← hend]
  exact (inside_iff _ _ _).mp hinside

theorem authentic_of_stops (h : ∀ fuel, ∃ e, b.ubootBringUp fuel = .error e ∧ e.Meant) :
    b.Authentic := by
  refine ⟨fun fuel e he => ?_, fun fuel j hj => ?_⟩
  · obtain ⟨e', hrun, hmeant⟩ := h fuel
    cases hrun.symm.trans he
    exact hmeant
  · obtain ⟨e', hrun, -⟩ := h fuel
    cases hrun.symm.trans hj

theorem Covered.authentic_of_passes (h : b.Covered) (hp : b.HeaderPasses fdt) : b.Authentic := by
  have haligned := h.aligned _ hp
  refine ⟨fun fuel e he => ?_, fun fuel j hj => ?_⟩
  · rw [ubootBringUp_of_passes hp] at he
    obtain hx | ⟨v, -, he⟩ := bind_error.mp he
    · exact (verifyHeader_meant hp.checked haligned fuel).mpr ⟨h.dataSize _ fuel hp,
        fun a => h.sign _ fuel a hp⟩ e hx
    obtain hx | ⟨plan, -, he⟩ := bind_error.mp he
    · exact meant_of_plan_error hx
    · cases he
  · rw [ubootBringUp_of_passes hp] at hj
    obtain ⟨v, hv, hj⟩ := bind_ok.mp hj
    obtain ⟨plan, hplan, hj⟩ := bind_ok.mp hj
    cases hj
    obtain ⟨a, shdr, ha, hshdr, hacc, htype, rfl⟩ :=
      (verifyHeader_ok hp.checked haligned fuel).mp hv
    obtain ⟨hsup, hend⟩ := supported_of_plan_ok hplan
    refine ⟨_, rfl, hacc, (inside_iff _ _ _).mpr ?_⟩
    rw [hend]
    exact h.length _ fuel a shdr hp ha hshdr hacc htype hsup

theorem authentic_of_covered (h : b.Covered) : b.Authentic := by
  by_cases hl : b.Loads
  · cases hp : b.probe with
    | error e => exact absurd hp (b.probe_ne_error_iff.mpr (h.buffer hl) e)
    | ok rp =>
      obtain ⟨r, p⟩ := rp
      by_cases hcheck : fdtCheckHeader p.fdt = 0
      · exact h.authentic_of_passes ⟨hl, ⟨r, p, hp, rfl⟩, hcheck⟩
      · refine authentic_of_stops fun fuel => ⟨.unknownHeader, ?_, trivial⟩
        rw [b.ubootBringUp_probed hl hp,
          (verifyHeader_unknown b.toAuthBoot b.image p.fdt fuel).mpr hcheck, error_bind]
  · refine authentic_of_stops fun fuel => ?_
    obtain ⟨r, hr⟩ := b.ubootBringUp_of_not_loads hl (eccUbootToDram_ne_halt_iff.mpr h.table) fuel
    exact ⟨_, hr, trivial⟩

end StoredBoot

-- ---------------------------------------------------------------------------
-- A page that is only partly signed
-- ---------------------------------------------------------------------------

def shortTree : List UInt8 :=
  ([fdtMagic, 259, 40, 244, 0, 17, 16, 0, 15, 204,
    1, 0, 1, 0x696D6167, 0x65730000, 1, 0x75626F6F, 0x74000000,
    3, 4, 0, 1000, 3, 128, 10] ++ List.replicate 32 0 ++ [2, 2, 2, 9]).flatMap wordBytes ++
    ascii "data-size" ++ 0 :: ascii "sign" ++ [0]

def shortHeaderPage : HeaderPage where
  sector0 := ⟨false, false, 0⟩
  sector1 := ⟨false, false, 0⟩
  signature := fdtSwMagic
  pageIndex := 0
  totalNumPage := 1
  data0 := fun k => shortTree.getD k 0
  data1 := fun _ => 0

def blankFlashPage : FlashPage where
  read := ⟨0#32, ⟨0, 0, 0, 0, 0⟩, fun _ => 0⟩
  header := { shortHeaderPage with signature := 0 }

theorem foldl_append_nil (blocks : List (List UInt8)) :
    blocks.foldl (fun state block => state ++ block) [] = blocks.flatten := by
  rw [List.foldl_append_eq_append, List.map_id', List.nil_append]

def zerosScheme : SignScheme where
  State := List UInt8
  init := []
  update := fun state block => state ++ block
  finalVerify := fun state _ _ => state == List.replicate 1000 0
  accepts := fun message _ _ => message == List.replicate 1000 0
  streams := fun blocks _ _ => congrArg (· == List.replicate 1000 0) (foldl_append_nil blocks)

def shortChunk : PageRead := ⟨0#32, ⟨signatureUboot, 0, 0, 1, 2⟩, fun _ => 0⟩

def shortFlash : List FlashPage :=
  { blankFlashPage with header := shortHeaderPage } :: List.replicate 63 blankFlashPage ++
    [{ blankFlashPage with read := shortChunk }]

theorem shortFlash_numbered : Numbered ((shortFlash.map FlashPage.read).drop (1 <<< 6)) 1 := by
  have hpages : (shortFlash.map FlashPage.read).drop (1 <<< 6) = [shortChunk] := rfl
  rw [hpages]
  refine ⟨Nat.one_pos, fun p hp => ?_, fun p hp _ => ?_⟩
  · cases List.mem_singleton.mp (List.mem_of_find?_eq_some hp)
    rfl
  · cases List.mem_singleton.mp hp
    exact Nat.one_pos

def shortBoot : StoredBoot where
  board := board9603cvd
  flash := shortFlash
  pkey := Vector.replicate 16 1
  dram := fun _ => 0
  mem := fun _ => 0
  fdtAddr := 0x9f001000
  ubootDecompAddr := 0x80000000
  scheme := zerosScheme
  inflates := fun _ _ _ => false
  keyed := ⟨1, List.mem_cons_self, by decide⟩
  total := 1
  numbered := shortFlash_numbered

theorem shortBoot_run : (shortBoot.ubootBringUp 40).toOption.map (fun j => (j.verified, j.plan)) =
    some (some ⟨1000, List.replicate 64 0⟩, ⟨0, 2048, 0x80000000⟩) := by
  decide +kernel

end BismarckPreloader.Auth
