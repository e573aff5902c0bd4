import BismarckPreloader.Imgtar.Scan

/-!
# Updating from an archive

`upimgtar` scans the archive and then writes the kernel and the root file system to two
partitions each and, when there is one, the OSGi image to a third. What is missing is noticed
partition by partition, after the ones before have been written, and whether the table comes
from this archive is not looked at: `allOrNothing_iff` says when the command does what one
expects of it.

The source files are built with `CONFIG_LUNA_MULTI_BOOT` only. `env_location` is never set,
so the update of the environment is left out. None of the commands that are run changes a
variable that is read here, and their results are not looked at.
-/

namespace BismarckPreloader.Imgtar

open Upgrade

/-- The environment, whether the build is that with one UBI device, and the volumes that this
device has once `check_vol` was run, with their sizes. -/
structure Board where
  env : String → Option (List UInt8)
  oneUbi : Bool
  volume : String → Option Nat

structure Target where
  image : Image
  vol : String
  addr : String
  size : String
  deriving DecidableEq

def imageTargets : List Target :=
  [⟨.kernel, "ubi_k0", "fl_kernel1", "fl_kernel1_sz"⟩,
    ⟨.kernel, "ubi_k1", "fl_kernel2", "fl_kernel2_sz"⟩,
    ⟨.rootfs, "ubi_r0", "fl_rootfs1", "fl_rootfs1_sz"⟩,
    ⟨.rootfs, "ubi_r1", "fl_rootfs2", "fl_rootfs2_sz"⟩]

def osgiTarget : Target := ⟨.osgi, "ubi_osgi", "fl_osgi", "fl_osgi_sz"⟩

def Globals.targets (g : Globals) : List Target :=
  imageTargets ++ if (g.part .osgi).location ≠ 0 then [osgiTarget] else []

namespace Board

variable (b : Board) (img : UInt32)

/-- The commands for one target; `none` is `goto done`. `do_ubi_update` looks neither at the
volume nor at the results of its two commands. -/
def flashOne (t : Target) (p : Part) : Option (List Command) :=
  if b.oneUbi then some [.useVol t.vol, .ubiWrite (img + p.location) t.vol p.size]
  else
    match b.env t.addr with
    | none => none
    | some base =>
      match b.env t.size with
      | none => none
      | some sz =>
        if simpleStrtoul sz 16 < p.size then none
        else some [.update (simpleStrtoul base 16) (simpleStrtoul sz 16) (img + p.location) p.size]

def flashAll (g : Globals) : List Target → List (Target × List Command)
  | [] => []
  | t :: ts =>
    match b.flashOne img t (g.part t.image) with
    | none => []
    | some cs => (t, cs) :: flashAll g ts

/-- The rest of `do_upimgtar` behind the scan: what it returns and what it flashes. The
builds for serial flash run `sf probe` in between. -/
def doUpimgtar (g : Globals) : Int × List (Target × List Command) :=
  (0, b.flashAll img g g.targets)

def Ready (t : Target) (p : Part) : Prop :=
  if b.oneUbi then ∃ sz, b.volume t.vol = some sz ∧ p.size.toNat ≤ sz
  else ∃ base sz, b.env t.addr = some base ∧ b.env t.size = some sz ∧
    p.size ≤ simpleStrtoul sz 16

end Board

namespace Archive

variable (x : Archive)

def Header (l : Nat) : Prop :=
  l + 512 ≤ x.size.toNat ∧ x.Named (UInt32.ofNat l + 257) tarMagic

def behind (l : Nat) : Nat := (l + 512 + (x.imgSize (UInt32.ofNat l)).toNat + 511) / 512 * 512

inductive Contains : Nat → Prop where
  | first (header : x.Header 0) : Contains 0
  | next (before : Contains l) (header : x.Header (x.behind l)) : Contains (x.behind l)

def HasImage (i : Image) (p : Part) : Prop :=
  ∃ l, x.Contains l ∧ x.Named (UInt32.ofNat l) i.name ∧ p = x.member (UInt32.ofNat l) ∧
    l + 512 + (x.imgSize (UInt32.ofNat l)).toNat ≤ x.size.toNat

end Archive

inductive Booted : Globals → Prop where
  | start : Booted ⟨fun _ => ⟨0, 0⟩, fun _ => 0⟩
  | call (x : Archive) (before : Booted g) (scan : x.ScanImgTar g g') : Booted g'

structure Call extends Archive, Board where
  img : UInt32
  before : Globals
  booted : Booted before

namespace Call

variable (c : Call)

structure Complete (g : Globals) : Prop where
  kernel : ∃ p, c.HasImage .kernel p
  rootfs : ∃ p, c.HasImage .rootfs p
  ready : ∀ t ∈ g.targets, c.Ready t (g.part t.image)

/-- The command writes only if everything is there, and then what is in this archive; if
something is missing it writes nothing and returns an error. -/
def AllOrNothing : Prop :=
  ∃ g, c.ScanImgTar c.before g ∧
    ((c.doUpimgtar c.img g).2 ≠ [] → c.Complete g) ∧
    (¬c.Complete g → (c.doUpimgtar c.img g).2 = [] ∧ (c.doUpimgtar c.img g).1 ≠ 0) ∧
    ∀ f ∈ (c.doUpimgtar c.img g).2, ∃ p, c.HasImage f.1.image p ∧
      ∀ k ∈ f.2, ∀ r ∈ k.sources, r = (c.img + p.location, p.size)

/-- The scan ends, everything in the table that is written is in this archive, and all
partitions can take it. -/
def Sound : Prop :=
  ∃ g, c.ScanImgTar c.before g ∧ ∀ t ∈ g.targets,
    c.HasImage t.image (g.part t.image) ∧ c.Ready t (g.part t.image)

end Call

-- ---------------------------------------------------------------------------
-- One target, and all of them
-- ---------------------------------------------------------------------------

namespace Board

variable {b : Board} {img : UInt32} {t : Target} {p : Part} {g : Globals}

theorem flashOne_sources (h : b.flashOne img t p = some cs) :
    (∀ k ∈ cs, ∀ r ∈ k.sources, r = (img + p.location, p.size)) ∧
      ∃ k ∈ cs, (img + p.location, p.size) ∈ k.sources := by
  unfold flashOne at h
  split at h
  · cases h
    simp [Command.sources]
  · split at h
    · cases h
    · split at h
      · cases h
      · split at h
        · cases h
        · cases h
          simp [Command.sources]

theorem Ready.flashOne (h : b.Ready t p) (img : UInt32) : ∃ cs, b.flashOne img t p = some cs := by
  by_cases hu : b.oneUbi = true
  · exact ⟨_, if_pos hu⟩
  · rw [Ready, if_neg hu] at h
    obtain ⟨base, sz, hbase, hsz, hle⟩ := h
    rw [Board.flashOne, if_neg hu, hbase, hsz]
    exact ⟨_, if_neg (UInt32.not_lt.mpr hle)⟩

theorem flashAll_cons_some (h : b.flashOne img t (g.part t.image) = some cs) :
    b.flashAll img g (t :: ts) = (t, cs) :: b.flashAll img g ts := by
  rw [flashAll, h]

theorem flashAll_cons_none (h : b.flashOne img t (g.part t.image) = none) :
    b.flashAll img g (t :: ts) = [] := by
  rw [flashAll, h]

theorem flashAll_mem {ts : List Target} {f : Target × List Command}
    (h : f ∈ b.flashAll img g ts) :
    f.1 ∈ ts ∧ b.flashOne img f.1 (g.part f.1.image) = some f.2 := by
  induction ts with
  | nil => cases h
  | cons t ts ih =>
    cases ho : b.flashOne img t (g.part t.image) with
    | none =>
      rw [flashAll_cons_none ho] at h
      cases h
    | some cs =>
      rw [flashAll_cons_some ho] at h
      rcases List.mem_cons.mp h with rfl | h
      · exact ⟨List.mem_cons_self, ho⟩
      · exact ⟨List.mem_cons_of_mem _ (ih h).1, (ih h).2⟩

theorem flashAll_complete {ts : List Target} (h : ∀ t ∈ ts, b.Ready t (g.part t.image))
    (ht : t ∈ ts) : ∃ cs, (t, cs) ∈ b.flashAll img g ts := by
  induction ts with
  | nil => cases ht
  | cons u us ih =>
    obtain ⟨cs, hcs⟩ := (h u List.mem_cons_self).flashOne img
    rw [flashAll_cons_some hcs]
    rcases List.mem_cons.mp ht with rfl | ht
    · exact ⟨cs, List.mem_cons_self⟩
    · obtain ⟨cs', hcs'⟩ := ih (fun t' ht' => h t' (List.mem_cons_of_mem _ ht')) ht
      exact ⟨cs', List.mem_cons_of_mem _ hcs'⟩

end Board

namespace Call

variable {c : Call} {g : Globals}

theorem complete_of_error (h : ¬c.Complete g →
    (c.doUpimgtar c.img g).2 = [] ∧ (c.doUpimgtar c.img g).1 ≠ 0) : c.Complete g := by
  by_contra hno
  exact (h hno).2 rfl

theorem AllOrNothing.sound (h : c.AllOrNothing) : c.Sound := by
  obtain ⟨g, hscan, -, herror, himages⟩ := h
  have hready := (complete_of_error herror).ready
  refine ⟨g, hscan, fun t ht => ⟨?_, hready t ht⟩⟩
  obtain ⟨cs, hcs⟩ : ∃ cs, (t, cs) ∈ c.flashAll c.img g g.targets :=
    Board.flashAll_complete hready ht
  obtain ⟨p, hp, hsrc⟩ := himages _ hcs
  -- the image that was written is the one in the table
  obtain ⟨-, hone⟩ := Board.flashAll_mem hcs
  obtain ⟨-, k, hk, hr⟩ := Board.flashOne_sources hone
  have heq := hsrc k hk _ hr
  rw [Prod.mk.injEq, UInt32.add_right_inj] at heq
  have hpart : g.part t.image = p := by
    cases hg : g.part t.image
    cases p
    simp_all
  rw [hpart]
  exact hp

theorem mem_targets {t : Target} (h : t ∈ imageTargets) : t ∈ g.targets :=
  List.mem_append_left _ h

theorem Sound.allOrNothing (h : c.Sound) : c.AllOrNothing := by
  obtain ⟨g, hscan, hsound⟩ := h
  have hcomplete : c.Complete g := by
    refine ⟨⟨_, (hsound ⟨.kernel, "ubi_k0", "fl_kernel1", "fl_kernel1_sz"⟩ ?_).1⟩,
      ⟨_, (hsound ⟨.rootfs, "ubi_r0", "fl_rootfs1", "fl_rootfs1_sz"⟩ ?_).1⟩,
      fun t ht => (hsound t ht).2⟩
    · exact mem_targets (by decide)
    · exact mem_targets (by decide)
  refine ⟨g, hscan, fun _ => hcomplete, fun hno => absurd hcomplete hno, fun f hf => ?_⟩
  obtain ⟨ht, hone⟩ := Board.flashAll_mem hf
  exact ⟨_, (hsound f.1 ht).1, (Board.flashOne_sources hone).1⟩

/-- The command does all or nothing exactly when nothing is missing: the table is that of
this archive, and all partitions or volumes are there and large enough. -/
theorem allOrNothing_iff (c : Call) : c.AllOrNothing ↔ c.Sound :=
  ⟨AllOrNothing.sound, Sound.allOrNothing⟩

def emptyBuffer : Call where
  mem _ := 0
  size := 0
  env _ := none
  oneUbi := true
  volume _ := some 0x100000
  img := 0x80000000
  before := ⟨fun _ => ⟨0, 0⟩, fun _ => 0⟩
  booted := .start

/-- There is no image, and no error. -/
theorem emptyBuffer_not_allOrNothing : ¬emptyBuffer.AllOrNothing := by
  rintro ⟨g, -, -, herror, -⟩
  obtain ⟨p, l, hl, -⟩ := (complete_of_error herror).kernel
  have hsize : emptyBuffer.size.toNat = 0 := rfl
  cases hl with
  | first header =>
    have := header.1
    omega
  | next _ header =>
    have := header.1
    omega

end Call

end BismarckPreloader.Imgtar
