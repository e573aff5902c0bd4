import Mathlib.Logic.Function.Basic
import Mathlib.Logic.Relation
import BismarckPreloader.Lib.Positions
import BismarckPreloader.Upgrade.Commands

/-!
# Scanning an archive

`scan_img_tar` goes from header to header of a tar file and notes where the images are. A
header says how many bytes follow, as an octal number, and the next header is sought at the
next multiple of 512. All of this is arithmetic of 32 bits, so a size can lead back to where
the scan has been: the scan ends exactly when it comes back to no location.

Memory is a function of the distance to the buffer. The table that the scan fills in is
global and is not cleared.
-/

namespace BismarckPreloader.Imgtar

open Upgrade

def tarMagic : List UInt8 := [0x75, 0x73, 0x74, 0x61, 0x72, 0x20, 0x20, 0x00]

def tarBlockSize : UInt32 := 512

inductive Image where
  | kernel
  | rootfs
  | osgi
  deriving DecidableEq

def Image.name : Image → List UInt8
  | .kernel => [0x75, 0x49, 0x6d, 0x61, 0x67, 0x65]
  | .rootfs => [0x72, 0x6f, 0x6f, 0x74, 0x66, 0x73]
  | .osgi => [0x6f, 0x73, 0x67, 0x69, 0x2e, 0x69, 0x6d, 0x67]

/-- The first six characters of `fwu_ver`. -/
def fwuverName : List UInt8 := [0x66, 0x77, 0x75, 0x5f, 0x76, 0x65]

/-- `kernel_location` and `kernel_size`, and so on. -/
structure Part where
  location : UInt32
  size : UInt32
  deriving DecidableEq

structure Globals where
  part : Image → Part
  fwuVer : Nat → UInt8

inductive Entry where
  | image (i : Image)
  | version
  deriving DecidableEq

structure Archive where
  mem : UInt32 → UInt8
  size : UInt32

namespace Archive

variable (x : Archive)

def strncmp (a : UInt32) : List UInt8 → Bool
  | [] => true
  | t :: ts => x.mem a == t && (x.mem a == 0 || strncmp (a + 1) ts)

def strncpy (src : UInt32) : Nat → Nat → (Nat → UInt8) → Nat → UInt8
  | 0, _, dest => dest
  | count + 1, i, dest =>
    let dest' := Function.update dest i (x.mem (src + UInt32.ofNat i))
    if x.mem (src + UInt32.ofNat i) = 0 then dest' else strncpy src count (i + 1) dest'

def checkImgTar (l : UInt32) : Bool := x.strncmp (l + 257) tarMagic

def imgSize (l : UInt32) : UInt32 :=
  simpleStrtoul ((List.range 133).map fun i => x.mem (l + 124 + UInt32.ofNat i)) 8

def entry (l : UInt32) : Option Entry :=
  if x.strncmp l Image.kernel.name then some (.image .kernel)
  else if x.strncmp l Image.rootfs.name then some (.image .rootfs)
  else if x.strncmp l fwuverName then some .version
  else if x.strncmp l Image.osgi.name then some (.image .osgi)
  else none

def member (l : UInt32) : Part := ⟨l + tarBlockSize, x.imgSize l⟩

def copyLen (l : UInt32) : Nat := min (x.imgSize l - 1).toNat 32

def next (l : UInt32) : UInt32 := (l + tarBlockSize + x.imgSize l + (tarBlockSize - 1)) &&& 0xFFFFFE00

def note (l : UInt32) (g : Globals) : Option Entry → Globals
  | some (.image i) => { g with part := Function.update g.part i (x.member l) }
  | some .version => { g with fwuVer := x.strncpy (l + tarBlockSize) (x.copyLen l) 0 g.fwuVer }
  | none => g

def noted (l : UInt32) : Option Entry → List Part
  | some (.image _) => [x.member l]
  | _ => []

/-- The state of the scan, with the headers it has read and the images it has noted. -/
structure ScanState where
  location : UInt32
  globals : Globals
  read : List UInt32
  images : List Part

def take (s : ScanState) : ScanState where
  location := x.next s.location
  globals := x.note s.location s.globals (x.entry s.location)
  read := s.read ++ [s.location]
  images := s.images ++ x.noted s.location (x.entry s.location)

def scanStep (s : ScanState) : Outcome ScanState ScanState Empty :=
  if s.location + tarBlockSize < x.size then
    if x.checkImgTar s.location then .next (x.take s)
    else .ret { s with read := s.read ++ [s.location] }
  else .ret s

def scanStart (g : Globals) : ScanState := ⟨0, g, [], []⟩

/-- `scan_img_tar` returns, and leaves `g'`. -/
def ScanImgTar (g g' : Globals) : Prop :=
  ∃ s, Loop.Leads x.scanStep (scanStart g) (.ret s) ∧ s.globals = g'

def Named (l : UInt32) (name : List UInt8) : Prop :=
  ∀ i (h : i < name.length), x.mem (l + UInt32.ofNat i) = name[i]

instance (l : UInt32) (name : List UInt8) : Decidable (x.Named l name) :=
  inferInstanceAs (Decidable (∀ i (h : i < name.length), x.mem (l + UInt32.ofNat i) = name[i]))

/-- A well-formed archive from a location on, and the headers in it: member after member,
and at least two empty blocks. -/
inductive Members : UInt32 → List UInt32 → Prop where
  | done (fits : l.toNat + 1024 ≤ x.size.toNat)
      (empty : ∀ i < 1024, x.mem (l + UInt32.ofNat i) = 0) : Members l []
  | member (magic : x.Named (l + 257) tarMagic)
      (fits : l.toNat + 512 + (x.imgSize l).toNat + 1024 ≤ x.size.toNat)
      (rest : Members (x.next l) ls) : Members l (l :: ls)

def state : Outcome ScanState ScanState Empty → ScanState
  | .next s => s
  | .ret s => s

def Reached (g : Globals) (s : ScanState) : Prop :=
  ∃ n, state (Loop.run x.scanStep n (scanStart g)) = s

/-- The scan ends, reads and finds what is in the buffer only, and finds the last member of
each name in a well-formed archive; the version is a string of at most 31 characters. -/
structure ScansWell (g : Globals) : Prop where
  ends : ∃ s, Loop.Leads x.scanStep (scanStart g) (.ret s) ∧
    s.read.length ≤ x.size.toNat / 512 + 1
  headers : ∀ s, x.Reached g s → ∀ l ∈ s.read, l.toNat + 512 ≤ x.size.toNat
  images : ∀ s, x.Reached g s → ∀ p ∈ s.images,
    p.location.toNat + p.size.toNat ≤ x.size.toNat
  last : ∀ ls, x.Members 0 ls → ∀ g', x.ScanImgTar g g' → ∀ i l,
    ls.reverse.find? (fun l => x.Named l i.name) = some l → g'.part i = x.member l
  version : ∀ s, x.Reached g s → ∃ i < 32, s.globals.fwuVer i = 0

structure Step (l l' : UInt32) : Prop where
  below : l + tarBlockSize < x.size
  magic : x.checkImgTar l = true
  next_eq : l' = x.next l

def Passes (l : UInt32) : Prop := Relation.ReflTransGen x.Step 0 l

structure Tame : Prop where
  noReturn : ∀ l, x.Passes l → ¬Relation.TransGen x.Step l l
  noWrap : ∀ l, x.Passes l → l ≠ 0xFFFFFE00
  fits : ∀ l l', x.Passes l → x.Step l l' → ∀ i, x.entry l = some (.image i) →
    (x.member l).location.toNat + (x.imgSize l).toNat ≤ x.size.toNat
  version : ∀ l l', x.Passes l → x.Step l l' → x.entry l = some .version → x.copyLen l = 32 →
    ∃ j < 32, x.mem (l + tarBlockSize + UInt32.ofNat j) = 0

variable {x} {s t : ScanState} {g : Globals} {l l' : UInt32}

theorem scanStep_over (h : ¬s.location + tarBlockSize < x.size) : x.scanStep s = .ret s := by
  rw [scanStep, if_neg h]

theorem scanStep_end (h : s.location + tarBlockSize < x.size)
    (hm : x.checkImgTar s.location = false) :
    x.scanStep s = .ret { s with read := s.read ++ [s.location] } := by
  rw [scanStep, if_pos h, if_neg (by rw [hm]; exact Bool.false_ne_true)]

theorem Step.scanStep (h : x.Step s.location l') : x.scanStep s = .next (x.take s) := by
  rw [Archive.scanStep, if_pos h.below, if_pos h.magic]

theorem scanStep_cases (x : Archive) (s : ScanState) :
    (x.Step s.location (x.take s).location ∧ x.scanStep s = .next (x.take s)) ∨
    (s.location + tarBlockSize < x.size ∧
      x.scanStep s = .ret { s with read := s.read ++ [s.location] }) ∨
    x.scanStep s = .ret s := by
  by_cases h : s.location + tarBlockSize < x.size
  · cases hm : x.checkImgTar s.location with
    | true =>
      have hs : x.Step s.location (x.take s).location := ⟨h, hm, rfl⟩
      exact .inl ⟨hs, hs.scanStep⟩
    | false => exact .inr (.inl ⟨h, scanStep_end h hm⟩)
  · exact .inr (.inr (scanStep_over h))

theorem step_of_next (h : x.scanStep s = .next t) :
    x.Step s.location t.location ∧ t = x.take s := by
  rcases scanStep_cases x s with ⟨hs, ht⟩ | ⟨-, ht⟩ | ht
  · cases ht.symm.trans h
    exact ⟨hs, rfl⟩
  · cases ht.symm.trans h
  · cases ht.symm.trans h

theorem decides (x : Archive) : Loop.Decides x.scanStep ScanState.location := by
  intro s t s' hp hs
  obtain ⟨hstep, rfl⟩ := step_of_next hs
  rw [hp] at hstep
  refine ⟨_, hstep.scanStep, ?_⟩
  rw [take, take, hp]

-- ---------------------------------------------------------------------------
-- Whole runs
-- ---------------------------------------------------------------------------

theorem transGen_of_run (h : Loop.run x.scanStep (m + 1) s = .next t) :
    Relation.TransGen x.Step s.location t.location := by
  induction m generalizing s with
  | zero =>
    obtain ⟨u, hs, hu⟩ := Loop.next_of_run_succ h
    cases hu
    exact .single (step_of_next hs).1
  | succ m ih =>
    obtain ⟨u, hs, hu⟩ := Loop.next_of_run_succ h
    exact .head (step_of_next hs).1 (ih hu)

theorem run_of_reflTransGen (h : Relation.ReflTransGen x.Step s.location l) :
    ∃ n t, Loop.run x.scanStep n s = .next t ∧ t.location = l := by
  induction h with
  | refl => exact ⟨0, s, rfl, rfl⟩
  | tail _ hstep ih =>
    obtain ⟨n, t, hn, rfl⟩ := ih
    refine ⟨n + 1, x.take t, ?_, hstep.next_eq.symm⟩
    rw [Loop.run_add hn, Loop.run_succ_next hstep.scanStep]
    rfl

theorem passes_of_run (h : Loop.run x.scanStep n (scanStart g) = .next s) :
    x.Passes s.location := by
  cases n with
  | zero =>
    cases h
    exact .refl
  | succ n => exact (transGen_of_run h).to_reflTransGen

theorem Passes.run (h : x.Passes l) (g : Globals) :
    ∃ n t, Loop.run x.scanStep n (scanStart g) = .next t ∧ t.location = l :=
  run_of_reflTransGen (s := scanStart g) h

theorem finite_locations : Finite UInt32 := by
  refine Finite.of_injective UInt32.toFin ?_
  intro a b h
  exact UInt32.toFin_inj.mp h

theorem stops_iff_noReturn : Loop.Stops x.scanStep (scanStart g) ↔
    ∀ l, x.Passes l → ¬Relation.TransGen x.Step l l := by
  have := finite_locations
  rw [(decides x).stops_iff]
  constructor
  · intro h l hl hback
    obtain ⟨n, t, hn, rfl⟩ := hl.run g
    obtain ⟨u, hstep, hrest⟩ := Relation.TransGen.head'_iff.mp hback
    have hfirst : (x.take t).location = u := hstep.next_eq.symm
    obtain ⟨m, t', hm, ht'⟩ := run_of_reflTransGen (s := x.take t) (hfirst ▸ hrest)
    refine h n m t t' hn ?_ ht'
    rw [Loop.run_succ_next hstep.scanStep, hm]
  · intro h n m t t' hn hm hp
    have hback := transGen_of_run hm
    rw [hp] at hback
    exact h _ (passes_of_run hn) hback

theorem reached_step (h : Loop.run x.scanStep n (scanStart g) = .next t) :
    x.Reached g (state (x.scanStep t)) := by
  refine ⟨n + 1, ?_⟩
  rw [Loop.run_add h]
  cases hs : x.scanStep t with
  | next u =>
    rw [Loop.run_succ_next hs]
    rfl
  | ret r => rw [Loop.run_succ_exit hs rfl]
  | halt e => exact e.elim

theorem Reached.inv (P : ScanState → Prop) (h₀ : P (scanStart g))
    (htake : ∀ t, x.Passes t.location → x.Step t.location (x.take t).location → P t →
      P (x.take t))
    (hend : ∀ t, x.Passes t.location → t.location + tarBlockSize < x.size → P t →
      P { t with read := t.read ++ [t.location] })
    (h : x.Reached g s) : P s := by
  obtain ⟨n, rfl⟩ := h
  refine (Loop.run_inv (fun o => P (state o) ∧ ∀ t, o = .next t → x.Passes t.location)
    ⟨h₀, ?_⟩ ?_ n).1
  · rintro t ⟨⟩
    exact .refl
  · rintro t ⟨ht, hp⟩
    replace hp := hp t rfl
    rcases scanStep_cases x t with ⟨hs, he⟩ | ⟨hlt, he⟩ | he
    · rw [he]
      refine ⟨htake t hp hs ht, ?_⟩
      rintro u ⟨⟩
      exact hp.tail hs
    · rw [he]
      exact ⟨hend t hp hlt ht, fun u hu => nomatch hu⟩
    · rw [he]
      exact ⟨ht, fun u hu => nomatch hu⟩

structure Traced (x : Archive) (s : ScanState) : Prop where
  read : ∀ l ∈ s.read, x.Passes l ∧ l + tarBlockSize < x.size
  images : ∀ p ∈ s.images, ∃ l l', x.Passes l ∧ x.Step l l' ∧ p = x.member l ∧
    ∃ i, x.entry l = some (.image i)

theorem mem_noted {e : Option Entry} (h : p ∈ x.noted l e) :
    p = x.member l ∧ ∃ i, e = some (.image i) := by
  match e, h with
  | some (.image i), h => exact ⟨List.mem_singleton.mp h, i, rfl⟩
  | some .version, h => cases h
  | none, h => cases h

theorem Traced.readMore (h : x.Traced s) (hp : x.Passes s.location)
    (hlt : s.location + tarBlockSize < x.size) :
    ∀ l ∈ s.read ++ [s.location], x.Passes l ∧ l + tarBlockSize < x.size := by
  intro l hl
  rcases List.mem_append.mp hl with hl | hl
  · exact h.read l hl
  · rw [List.mem_singleton.mp hl]
    exact ⟨hp, hlt⟩

theorem traced (h : x.Reached g s) : x.Traced s := by
  refine Reached.inv x.Traced ⟨?_, ?_⟩ (fun t hp hs ht => ?_) (fun t hp hlt ht => ?_) h
  · intro l hl
    cases hl
  · intro p hp
    cases hp
  · refine ⟨ht.readMore hp hs.below, fun p hm => ?_⟩
    rcases List.mem_append.mp hm with hm | hm
    · exact ht.images p hm
    · exact ⟨_, _, hp, hs, mem_noted hm⟩
  · exact ⟨ht.readMore hp hlt, ht.images⟩

theorem Passes.exists_read (h : x.Passes l) (hlt : l + tarBlockSize < x.size) (g : Globals) :
    ∃ s, x.Reached g s ∧ l ∈ s.read := by
  obtain ⟨n, t, hn, rfl⟩ := h.run g
  refine ⟨_, reached_step hn, ?_⟩
  cases hm : x.checkImgTar t.location with
  | true =>
    rw [(Step.mk hlt hm rfl : x.Step t.location _).scanStep]
    exact List.mem_append_right _ (List.mem_singleton_self _)
  | false =>
    rw [scanStep_end hlt hm]
    exact List.mem_append_right _ (List.mem_singleton_self _)

theorem Passes.exists_take (h : x.Passes l) (hs : x.Step l l') (g : Globals) :
    ∃ s, s.location = l ∧ x.Reached g (x.take s) := by
  obtain ⟨n, t, hn, rfl⟩ := h.run g
  refine ⟨t, rfl, ?_⟩
  have hr := reached_step hn
  rw [hs.scanStep] at hr
  exact hr

theorem read_length_le (x : Archive) (n : Nat) (s : ScanState) :
    (state (Loop.run x.scanStep n s)).read.length ≤ s.read.length + n := by
  induction n generalizing s with
  | zero => exact Nat.le_refl _
  | succ n ih =>
    rcases scanStep_cases x s with ⟨-, he⟩ | ⟨-, he⟩ | he
    · rw [Loop.run_succ_next he]
      refine (ih (x.take s)).trans ?_
      rw [take, List.length_append, List.length_singleton]
      omega
    · rw [Loop.run_succ_exit he rfl]
      simp only [state, List.length_append, List.length_singleton]
      omega
    · rw [Loop.run_succ_exit he rfl]
      exact Nat.le_add_right _ _

theorem next_aligned (x : Archive) (l : UInt32) : (x.next l).toNat % 512 = 0 := by
  have h := Nat.and_two_pow_sub_one_eq_mod (x.next l).toNat 9
  rw [next, UInt32.toNat_and, Nat.and_assoc, show (0xFFFFFE00 : UInt32).toNat &&& (2 ^ 9 - 1) = 0
    from by decide, Nat.and_zero] at h
  rw [next, UInt32.toNat_and]
  exact h.symm

theorem Passes.aligned (h : x.Passes l) : l.toNat % 512 = 0 := by
  rcases Relation.ReflTransGen.cases_tail h with rfl | ⟨k, -, hs⟩
  · rfl
  · rw [hs.next_eq]
    exact next_aligned x k

theorem tarBlockSize_toNat : tarBlockSize.toNat = 512 := rfl

theorem Passes.below (h : x.Passes l) (hne : l ≠ 0xFFFFFE00)
    (hlt : l + tarBlockSize < x.size) : l.toNat + 512 < x.size.toNat := by
  have hal := h.aligned
  have hl := l.toNat_lt
  have hne' : l.toNat ≠ 4294966784 := fun he => hne (UInt32.toNat_inj.mp he)
  rw [UInt32.lt_iff_toNat_lt, UInt32.toNat_add, tarBlockSize_toNat,
    Nat.mod_eq_of_lt (by omega)] at hlt
  exact hlt

end Archive

end BismarckPreloader.Imgtar
