import BismarckPreloader.Upgrade.Commands
import BismarckPreloader.Vmimg.Check

/-!
# Flashing the records

`upvmimg` walks along the records, too, but it is not told where they end: it goes on until
it meets a key it does not know or a record that could not be written, and returns 0 in
either case. Each kind of record has a function that writes the image behind the header to
its partitions and returns the size of the image, or -1.

The source files are built with `CONFIG_LUNA_MULTI_BOOT` only, so there is a second
partition of each kind. Which volumes a volume record resizes is a parameter. The variables
that are set and removed are not among those that are read.
-/

namespace BismarckPreloader.Vmimg

open Upgrade

structure Build where
  oneUbi : Bool
  snof : Bool
  envRedund : Bool
  /-- One of the targets whose boot partition is written in raw pages. -/
  rawBoot : Bool
  /-- `swp_spi_nand_page_size()` -/
  nandPageSize : UInt32

structure Machine extends World, Build where
  mem : List Command → UInt32 → UInt8
  mem_runs : ∀ h c, c.loads = false → mem (h ++ [c]) = mem h
  volumeModify : UInt32 → UInt32 → List Command
  volumeModify_plain : ∀ src len, ∀ c ∈ volumeModify src len, c.loads = false ∧ c.sources = []

structure Hdr where
  key : UInt32
  imgSz : UInt32

def asInt (u : UInt32) : Int := if u.toNat < 2 ^ 31 then u.toNat else u.toNat - 2 ^ 32

namespace Machine

variable (m : Machine)

def hdrTrans (h : List Command) (img : UInt32) : Hdr :=
  ⟨wordAt (m.mem h) img, wordAt (m.mem h) (img + 8)⟩

/-- `do_ubi_update` and `do_ubi_clean`, which differ in the last command line. -/
def doUbiCommand (vol : String) (c : Command) : Cmd Int :=
  (m.runCommand (.setVol vol)).andThen fun _ =>
  (m.runCommand .checkVol).andThen fun r =>
    if r = -1 then .done r
    else (m.runCommand c).andThen fun r => if r = -1 then .done r else .done 0

def doUbiUpdate (vol : String) (src len : UInt32) : Cmd Int :=
  m.doUbiCommand vol (.ubiWrite src vol len)

def doUbiClean (vol : String) : Cmd Int := m.doUbiCommand vol (.ubiClean vol)

def doFlashClean (addr size : String) : Cmd Int :=
  (m.envGet addr).andThen fun
  | none => .done (-1)
  | some base => (m.envGet size).andThen fun
    | none => .done (-1)
    | some sz =>
      let partSz := simpleStrtoul sz 16
      if partSz = 0 then .done (-1)
      else (m.runCommand (.erase (simpleStrtoul base 16) partSz)).andThen fun _ => .done 0

def doEnvImage (hdr : Hdr) (src : UInt32) : Cmd Int :=
  if hdr.key ≠ vmimgBootenvKey then .done (-1)
  else
    .check (.fallback (m.doFlashUpdatePart "env" src hdr.imgSz)
      (m.doFlashUpdate "fl_bootenv1" "fl_bootenv1_sz" src hdr.imgSz)) <|
    if m.envRedund then
      .check (.fallback (m.doFlashUpdatePart "env2" src hdr.imgSz)
        (m.doFlashUpdate "fl_bootenv2" "fl_bootenv2_sz" src hdr.imgSz)) (.done (asInt hdr.imgSz))
    else .done (asInt hdr.imgSz)

def doVolumeImage (hdr : Hdr) (src : UInt32) : Cmd Int :=
  if hdr.key ≠ vmimgVolumeKey then .done (-1)
  else fun h => (asInt hdr.imgSz, h ++ m.volumeModify src hdr.imgSz)

/-- `do_dtb_image`, `do_kernel_image` and `do_rootfs_image`: the image goes to two
partitions or, without a look at the result, to two volumes. -/
def doDualImage (key : UInt32) (vols : String × String) (parts : (String × String) × String × String)
    (hdr : Hdr) (src : UInt32) : Cmd Int :=
  if hdr.key ≠ key then .done (-1)
  else if m.oneUbi then
    (m.doUbiUpdate vols.1 src hdr.imgSz).andThen fun _ =>
    (m.doUbiUpdate vols.2 src hdr.imgSz).andThen fun _ => .done (asInt hdr.imgSz)
  else
    .check (m.doFlashUpdate parts.1.1 parts.1.2 src hdr.imgSz) <|
    .check (m.doFlashUpdate parts.2.1 parts.2.2 src hdr.imgSz) (.done (asInt hdr.imgSz))

def doDtbImage : Hdr → UInt32 → Cmd Int :=
  m.doDualImage vmimgDtbKey ("ubi_DTB0", "ubi_DTB1")
    (("fl_fdt1", "fl_fdt1_sz"), "fl_fdt2", "fl_fdt2_sz")

def doKernelImage : Hdr → UInt32 → Cmd Int :=
  m.doDualImage vmimgKernelKey ("ubi_k0", "ubi_k1")
    (("fl_kernel1", "fl_kernel1_sz"), "fl_kernel2", "fl_kernel2_sz")

def doRootfsImage : Hdr → UInt32 → Cmd Int :=
  m.doDualImage vmimgRootfsKey ("ubi_r0", "ubi_r1")
    (("fl_rootfs1", "fl_rootfs1_sz"), "fl_rootfs2", "fl_rootfs2_sz")

def doOsgiImage (hdr : Hdr) (src : UInt32) : Cmd Int :=
  .check (if m.oneUbi then m.doUbiUpdate "ubi_osgi" src hdr.imgSz
    else m.doFlashUpdate "fl_osgi" "fl_osgi_sz" src hdr.imgSz) (.done (asInt hdr.imgSz))

def doApplicationImage (hdr : Hdr) (src : UInt32) : Cmd Int :=
  if m.oneUbi then
    .check (m.doUbiUpdate "ubi_framework1" src hdr.imgSz) <|
    .check (m.doUbiUpdate "ubi_framework2" src hdr.imgSz) <|
    .check (m.doUbiClean "ubi_apps") (.done (asInt hdr.imgSz))
  else
    .check (m.doFlashUpdate "fl_framework1" "fl_framework1_sz" src hdr.imgSz) <|
    .check (m.doFlashUpdate "fl_framework2" "fl_framework2_sz" src hdr.imgSz) <|
    .check (m.doFlashClean "fl_apps" "fl_apps_sz") (.done (asInt hdr.imgSz))

def doProvinceImage (hdr : Hdr) : Cmd Int := .done (asInt hdr.imgSz)

def partSzRaw (partSz : UInt32) : UInt32 :=
  if ¬m.snof ∧ m.rawBoot then
    if m.nandPageSize = 2048 then partSz / 2048 * (2048 + 64)
    else if m.nandPageSize = 4096 then partSz / 4096 * (4096 + 128)
    else partSz
  else partSz

def bootCommand (partSz src imgSz : UInt32) : Command :=
  if ¬m.snof ∧ m.rawBoot then
    if m.nandPageSize = 2048 then .boot 0 partSz src (imgSz / 0x840 * 0x840)
    else if m.nandPageSize = 4096 then .boot 0 partSz src (imgSz / 0x1080 * 0x1080)
    else .empty
  else .boot 0 partSz src imgSz

def doBootImage (hdr : Hdr) (src : UInt32) : Cmd Int :=
  (m.envGet "fl_boot_sz").andThen fun
  | none => .done (-1)
  | some value =>
    let partSz := simpleStrtoul value 16
    if m.partSzRaw partSz < hdr.imgSz then .done (-1)
    else (m.runCommand (m.bootCommand partSz src hdr.imgSz)).andThen fun _ =>
      .done (asInt hdr.imgSz)

def doUbiDeviceImage (hdr : Hdr) (src : UInt32) : Cmd Int :=
  if hdr.key ≠ vmimgUbiDeviceKey then .done (-1)
  else
    (m.runCommand (.setVol "ubi_Config")).andThen fun _ =>
    (m.runCommand .checkVol).andThen fun found =>
    (if found = -1 then .done none
      else
        (m.runCommand (.ubiRead (src + hdr.imgSz) "ubi_Config")).andThen fun r =>
        (m.envGet "ubi_len_read").andThen fun len =>
        (m.runCommand .ubiDetach).andThen fun _ =>
          .done (if r = -1 then none else len)).andThen fun (backup : Option (List UInt8)) =>
    .check (.fallback (m.doFlashUpdatePart "ubi_device" src hdr.imgSz)
      (m.doFlashUpdate "fl_ubi_device" "fl_ubi_device_sz" src hdr.imgSz)) <|
    match backup with
    | none => .done (asInt hdr.imgSz)
    | some len =>
      (m.runCommand (.setVol "ubi_Config")).andThen fun _ =>
      (m.runCommand .checkVol).andThen fun found =>
        if found = -1 then .done (asInt hdr.imgSz)
        else
          (m.runCommand (.ubiWrite (src + hdr.imgSz) "ubi_Config" (simpleStrtoul len 16))).andThen
            fun _ => (m.runCommand .ubiDetach).andThen fun _ => .done (asInt hdr.imgSz)

/-- The `switch` over the keys; `none` is its default. -/
def handler (hdr : Hdr) (src : UInt32) : Option (Cmd Int) :=
  if hdr.key = vmimgBootenvKey then some (m.doEnvImage hdr src)
  else if hdr.key = vmimgVolumeKey then some (m.doVolumeImage hdr src)
  else if hdr.key = vmimgDtbKey then some (m.doDtbImage hdr src)
  else if hdr.key = vmimgBootKey then some (m.doBootImage hdr src)
  else if hdr.key = vmimgKernelKey then some (m.doKernelImage hdr src)
  else if hdr.key = vmimgRootfsKey then some (m.doRootfsImage hdr src)
  else if hdr.key = vmimgConfigKey then some (.done (asInt hdr.imgSz))
  else if hdr.key = vmimgCfgprovKey then some (doProvinceImage hdr)
  else if hdr.key = vmimgApplicationKey then some (m.doApplicationImage hdr src)
  else if hdr.key = vmimgOsgiKey then some (m.doOsgiImage hdr src)
  else if m.oneUbi ∧ hdr.key = vmimgUbiDeviceKey then some (m.doUbiDeviceImage hdr src)
  else none

/-- A header that was handled: where it is, what its function returned, and the commands run
before and up to the end of it. -/
structure Handled where
  place : UInt32
  ret : Int
  before : List Command
  after : List Command

/-- The state of the loop, with the headers it has handled and what came of them. -/
structure FlashState where
  img : UInt32
  history : List Command
  handled : List Handled

/-- A pass, with the function for the key. An unknown key sets the result to -1; the command
returns 0 all the same. -/
def pass (s : FlashState) : Option (Cmd Int) → Outcome FlashState (Int × FlashState) Empty
  | none => .ret (0, s)
  | some act =>
    let r := act s.history
    let s' : FlashState := ⟨s.img, r.2, s.handled ++ [⟨s.img, r.1, s.history, r.2⟩]⟩
    if r.1 < 0 then .ret (0, s')
    else .next { s' with img := s.img + (hdrSize + UInt32.ofNat r.1.toNat) }

def flashStep (s : FlashState) : Outcome FlashState (Int × FlashState) Empty :=
  pass s (m.handler (m.hdrTrans s.history s.img) (s.img + hdrSize))

def flashStart (img : UInt32) : FlashState :=
  ⟨img, if m.snof then [.sfProbe] else [], []⟩

-- ---------------------------------------------------------------------------
-- What is written of a record
-- ---------------------------------------------------------------------------

def FromImage (src len : UInt32) (c : Command) : Prop :=
  c.loads = false ∧ ∀ r ∈ c.sources, r.1 = src ∧ r.2 ≤ len

def SizeOrError (imgSz : UInt32) (r : Int) : Prop := r = -1 ∨ r = asInt imgSz

theorem fromImage_self {src len : UInt32} {c : Command} (hl : c.loads = false)
    (hs : c.sources = [(src, len)]) : FromImage src len c := by
  refine ⟨hl, fun r hr => ?_⟩
  rw [hs, List.mem_singleton] at hr
  rw [hr]
  exact ⟨rfl, UInt32.le_refl len⟩

theorem fromImage_nil {src len : UInt32} {c : Command} (hl : c.loads = false)
    (hs : c.sources = []) : FromImage src len c :=
  ⟨hl, fun _ hr => absurd (hs ▸ hr) List.not_mem_nil⟩

variable {m} {hdr : Hdr} {src len : UInt32}

theorem issues_size (P : Command → Prop) :
    Cmd.Issues P (SizeOrError hdr.imgSz) (.done (asInt hdr.imgSz)) := .done (.inr rfl)

theorem issues_error (P : Command → Prop) :
    Cmd.Issues P (SizeOrError hdr.imgSz) (.done (-1)) := .done (.inl rfl)

theorem issues_update (addr size : String) :
    Cmd.Issues (FromImage src len) (fun _ => True) (m.doFlashUpdate addr size src len) :=
  World.issues_doFlashUpdate fun _ _ => fromImage_self rfl rfl

theorem issues_updatePart (part : String) :
    Cmd.Issues (FromImage src len) (fun _ => True) (m.doFlashUpdatePart part src len) :=
  World.issues_doFlashUpdatePart (fromImage_self rfl rfl)

theorem issues_doUbiCommand (vol : String) {c : Command} (h : FromImage src len c) :
    Cmd.Issues (FromImage src len) (fun _ => True) (m.doUbiCommand vol c) :=
  (World.issues_runCommand (fromImage_nil rfl rfl)).andThen fun _ _ =>
  (World.issues_runCommand (fromImage_nil rfl rfl)).andThen fun _ _ =>
    .ite (fun _ => .done trivial) fun _ =>
      (World.issues_runCommand h).andThen fun _ _ =>
        .ite (fun _ => .done trivial) fun _ => .done trivial

theorem issues_doUbiUpdate (vol : String) :
    Cmd.Issues (FromImage src len) (fun _ => True) (m.doUbiUpdate vol src len) :=
  issues_doUbiCommand vol (fromImage_self rfl rfl)

theorem issues_doUbiClean (vol : String) :
    Cmd.Issues (FromImage src len) (fun _ => True) (m.doUbiClean vol) :=
  issues_doUbiCommand vol (fromImage_nil rfl rfl)

theorem issues_doFlashClean (addr size : String) :
    Cmd.Issues (FromImage src len) (fun _ => True) (m.doFlashClean addr size) := by
  refine World.issues_envGet.andThen fun v _ => ?_
  cases v with
  | none => exact .done trivial
  | some base =>
    refine World.issues_envGet.andThen fun v _ => ?_
    cases v with
    | none => exact .done trivial
    | some sz =>
      exact .ite (fun _ => .done trivial) fun _ =>
        (World.issues_runCommand (fromImage_nil rfl rfl)).andThen fun _ _ => .done trivial

theorem issues_doEnvImage : Cmd.Issues (FromImage src hdr.imgSz) (SizeOrError hdr.imgSz)
    (m.doEnvImage hdr src) :=
  .ite (fun _ => issues_error _) fun _ =>
    .check (.fallback (issues_updatePart _) (issues_update _ _))
      (.ite (fun _ => .check (.fallback (issues_updatePart _) (issues_update _ _))
        (issues_size _) (.inl rfl)) fun _ => issues_size _) (.inl rfl)

theorem issues_doVolumeImage : Cmd.Issues (FromImage src hdr.imgSz) (SizeOrError hdr.imgSz)
    (m.doVolumeImage hdr src) :=
  .ite (fun _ => issues_error _) fun _ _ => ⟨.inr rfl, _, rfl, fun c hc =>
    fromImage_nil (m.volumeModify_plain _ _ c hc).1 (m.volumeModify_plain _ _ c hc).2⟩

theorem issues_doDualImage (key : UInt32) (vols : String × String)
    (parts : (String × String) × String × String) :
    Cmd.Issues (FromImage src hdr.imgSz) (SizeOrError hdr.imgSz)
      (m.doDualImage key vols parts hdr src) :=
  .ite (fun _ => issues_error _) fun _ => .ite
    (fun _ => (issues_doUbiUpdate _).andThen fun _ _ => (issues_doUbiUpdate _).andThen
      fun _ _ => issues_size _)
    fun _ => .check (issues_update _ _) (.check (issues_update _ _) (issues_size _) (.inl rfl))
      (.inl rfl)

theorem issues_doOsgiImage : Cmd.Issues (FromImage src hdr.imgSz) (SizeOrError hdr.imgSz)
    (m.doOsgiImage hdr src) :=
  .check (.ite (fun _ => issues_doUbiUpdate _) fun _ => issues_update _ _) (issues_size _)
    (.inl rfl)

theorem issues_doApplicationImage : Cmd.Issues (FromImage src hdr.imgSz)
    (SizeOrError hdr.imgSz) (m.doApplicationImage hdr src) :=
  .ite
    (fun _ => .check (issues_doUbiUpdate _) (.check (issues_doUbiUpdate _)
      (.check (issues_doUbiClean _) (issues_size _) (.inl rfl)) (.inl rfl)) (.inl rfl))
    fun _ => .check (issues_update _ _) (.check (issues_update _ _)
      (.check (issues_doFlashClean _ _) (issues_size _) (.inl rfl)) (.inl rfl)) (.inl rfl)

theorem div_mul_le (a b : UInt32) : a / b * b ≤ a := by
  rw [UInt32.le_iff_toNat_le, UInt32.toNat_mul, UInt32.toNat_div]
  exact Nat.le_trans (Nat.mod_le _ _) (Nat.div_mul_le_self _ _)

theorem fromImage_bootCommand (partSz : UInt32) :
    FromImage src hdr.imgSz (m.bootCommand partSz src hdr.imgSz) := by
  have hboot : ∀ n ≤ hdr.imgSz, FromImage src hdr.imgSz (.boot 0 partSz src n) := by
    intro n hn
    refine ⟨rfl, fun r hr => ?_⟩
    rw [List.mem_singleton.mp hr]
    exact ⟨rfl, hn⟩
  unfold bootCommand
  split
  · split
    · exact hboot _ (div_mul_le _ _)
    · split
      · exact hboot _ (div_mul_le _ _)
      · exact fromImage_nil rfl rfl
  · exact hboot _ (UInt32.le_refl _)

theorem issues_doBootImage : Cmd.Issues (FromImage src hdr.imgSz) (SizeOrError hdr.imgSz)
    (m.doBootImage hdr src) := by
  refine World.issues_envGet.andThen fun v _ => ?_
  cases v with
  | none => exact issues_error _
  | some value =>
    exact .ite (fun _ => issues_error _) fun _ =>
      (World.issues_runCommand (fromImage_bootCommand _)).andThen fun _ _ => issues_size _

theorem issues_case {c : Prop} [Decidable c] {P : Command → Prop} {Q : Int → Prop}
    {a : Cmd Int} {o : Option (Cmd Int)} (ha : Cmd.Issues P Q a)
    (ho : ¬c → ∃ act, o = some act ∧ Cmd.Issues P Q act) :
    ∃ act, (if c then some a else o) = some act ∧ Cmd.Issues P Q act := by
  by_cases h : c
  · exact ⟨a, if_pos h, ha⟩
  · rw [if_neg h]
    exact ho h

theorem handler_listed (h : hdr.key ∈ vmimgKeyList) (src : UInt32) :
    ∃ act, m.handler hdr src = some act ∧
      Cmd.Issues (FromImage src hdr.imgSz) (SizeOrError hdr.imgSz) act := by
  simp only [vmimgKeyList, List.mem_cons, List.not_mem_nil, or_false] at h
  refine issues_case issues_doEnvImage fun h1 => issues_case issues_doVolumeImage fun h2 =>
    issues_case (issues_doDualImage _ _ _) fun h3 => issues_case issues_doBootImage fun h4 =>
    issues_case (issues_doDualImage _ _ _) fun h5 => issues_case (issues_doDualImage _ _ _)
    fun h6 => issues_case (issues_size _) fun h7 => issues_case (issues_size _) fun h8 =>
    issues_case issues_doApplicationImage fun h9 => issues_case issues_doOsgiImage fun h10 => ?_
  rcases h with h | h | h | h | h | h | h | h | h | h <;> contradiction

theorem issues_any {Q : Int → Prop} {a : Cmd Int} (h : Cmd.Issues P Q a) :
    Cmd.Issues (fun _ => True) (fun _ => True) a := fun hist =>
  ⟨trivial, (h hist).2.choose, (h hist).2.choose_spec.1, fun _ _ => trivial⟩

theorem issues_doUbiDeviceImage :
    Cmd.Issues (fun _ => True) (fun _ => True) (m.doUbiDeviceImage hdr src) := by
  refine .ite (fun _ => .done trivial) fun _ =>
    (World.issues_runCommand trivial).andThen fun _ _ =>
    (World.issues_runCommand trivial).andThen fun found _ =>
    Cmd.Issues.andThen (Q := fun _ => True) (.ite (fun _ => .done trivial) fun _ =>
      (World.issues_runCommand trivial).andThen fun _ _ => World.issues_envGet.andThen fun _ _ =>
        (World.issues_runCommand trivial).andThen fun _ _ => .done trivial) fun backup _ =>
    .check (.fallback (issues_any (P := FromImage src hdr.imgSz) (issues_updatePart _))
      (issues_any (issues_update _ _))) ?_ trivial
  cases backup with
  | none => exact .done trivial
  | some len =>
    exact (World.issues_runCommand trivial).andThen fun _ _ =>
      (World.issues_runCommand trivial).andThen fun _ _ => .ite (fun _ => .done trivial) fun _ =>
        (World.issues_runCommand trivial).andThen fun _ _ =>
          (World.issues_runCommand trivial).andThen fun _ _ => .done trivial

theorem issues_handler {act : Cmd Int} (h : m.handler hdr src = some act) :
    Cmd.Issues (fun _ => True) (fun _ => True) act := by
  by_cases hl : hdr.key ∈ vmimgKeyList
  · obtain ⟨act', ha, hi⟩ := handler_listed hl src
    cases ha.symm.trans h
    exact issues_any hi
  · simp only [vmimgKeyList, List.mem_cons, List.not_mem_nil, or_false, not_or] at hl
    obtain ⟨h1, h2, h3, h4, h5, h6, h7, h8, h9, h10⟩ := hl
    rw [handler, if_neg h9, if_neg h10, if_neg h2, if_neg h1, if_neg h3, if_neg h4, if_neg h5,
      if_neg h6, if_neg h7, if_neg h8] at h
    by_cases hu : m.oneUbi = true ∧ hdr.key = vmimgUbiDeviceKey
    · rw [if_pos hu] at h
      cases h
      exact issues_doUbiDeviceImage
    · rw [if_neg hu] at h
      cases h

end Machine

end BismarckPreloader.Vmimg
