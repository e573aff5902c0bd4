import BismarckPreloader.Imgtar.Scan

/-!
# What the scan leaves

The two things the scan fills in are the table of images and the version. In a well-formed
archive the table has the last member of each name. `scansWell_iff` says for which buffers
the scan does all it is for.
-/

namespace BismarckPreloader.Imgtar

namespace Archive

variable {x : Archive} {s t : ScanState} {g : Globals} {l l' : UInt32}

-- ---------------------------------------------------------------------------
-- The version
-- ---------------------------------------------------------------------------

theorem strncpy_outside (x : Archive) (src : UInt32) {count i k : Nat} (dest : Nat → UInt8)
    (h : k < i ∨ i + count ≤ k) : x.strncpy src count i dest k = dest k := by
  induction count generalizing i dest with
  | zero => rfl
  | succ count ih =>
    have hupd : ∀ v, Function.update dest i v k = dest k := fun v =>
      Function.update_of_ne (by omega) v dest
    rw [strncpy]
    split
    · exact hupd _
    · rw [ih _ (by omega), hupd]

theorem strncpy_zero {src : UInt32} {count i j k : Nat} {dest : Nat → UInt8}
    (hd : dest k = 0) (hi : i ≤ j) (hj : j ≤ k) (hz : x.mem (src + UInt32.ofNat j) = 0) :
    x.strncpy src count i dest k = 0 := by
  induction count generalizing i dest with
  | zero => exact hd
  | succ count ih =>
    rw [strncpy]
    split
    · next h0 =>
      by_cases hk : k = i
      · rw [hk, Function.update_self, h0]
      · rw [Function.update_of_ne hk, hd]
    · next h0 =>
      have hne : i ≠ j := by
        rintro rfl
        exact h0 hz
      refine ih ?_ (by omega)
      rw [Function.update_of_ne (by omega), hd]

theorem strncpy_ne_zero {src : UInt32} {count i k : Nat} {dest : Nat → UInt8}
    (h : ∀ j, j < i + count → x.mem (src + UInt32.ofNat j) ≠ 0) (hi : i ≤ k)
    (hk : k < i + count) : x.strncpy src count i dest k ≠ 0 := by
  induction count generalizing i dest with
  | zero => omega
  | succ count ih =>
    rw [strncpy, if_neg (h i (by omega))]
    by_cases hik : i = k
    · subst hik
      rw [strncpy_outside x src _ (.inl (Nat.lt_succ_self i)), Function.update_self]
      exact h i (by omega)
    · exact ih (fun j hj => h j (by omega)) (by omega) (by omega)

theorem copyLen_le (x : Archive) (l : UInt32) : x.copyLen l ≤ 32 := Nat.min_le_right _ _

theorem note_fwuVer (hg : g.fwuVer 31 = 0)
    (hv : x.entry l = some .version → x.copyLen l = 32 →
      ∃ j < 32, x.mem (l + tarBlockSize + UInt32.ofNat j) = 0) :
    (x.note l g (x.entry l)).fwuVer 31 = 0 := by
  cases he : x.entry l with
  | none => exact hg
  | some e =>
    cases e with
    | image i => exact hg
    | version =>
      by_cases hlen : x.copyLen l = 32
      · obtain ⟨j, hj, hz⟩ := hv he hlen
        exact strncpy_zero hg (Nat.zero_le j) (by omega) hz
      · have := copyLen_le x l
        exact (strncpy_outside x _ _ (.inr (by omega))).trans hg

theorem Tame.fwuVer (h : x.Tame) (hg : g.fwuVer 31 = 0) (hr : x.Reached g s) :
    s.globals.fwuVer 31 = 0 := by
  refine Reached.inv (fun s => s.globals.fwuVer 31 = 0) hg (fun t hp hs ht => ?_)
    (fun t _ _ ht => ht) hr
  exact note_fwuVer ht (h.version _ _ hp hs)

-- ---------------------------------------------------------------------------
-- Well-formed archives
-- ---------------------------------------------------------------------------

theorem strncmp_of_named {name : List UInt8} (h : x.Named l name) : x.strncmp l name = true := by
  induction name generalizing l with
  | nil => rfl
  | cons t ts ih =>
    have h0 : x.mem l = t := by
      have := h 0 (Nat.succ_pos _)
      rwa [show UInt32.ofNat 0 = 0 from rfl, UInt32.add_zero] at this
    have htail : x.Named (l + 1) ts := by
      intro i hi
      have := h (i + 1) (Nat.succ_lt_succ hi)
      rwa [UInt32.ofNat_add, UInt32.add_comm (UInt32.ofNat i), ← UInt32.add_assoc] at this
    rw [strncmp, h0, ih htail, Bool.or_true, Bool.and_true, beq_self_eq_true]

theorem named_of_strncmp {name : List UInt8} (hn : ∀ t ∈ name, t ≠ 0)
    (h : x.strncmp l name = true) : x.Named l name := by
  induction name generalizing l with
  | nil => exact fun i hi => absurd hi (Nat.not_lt_zero i)
  | cons t ts ih =>
    rw [strncmp, Bool.and_eq_true, beq_iff_eq, Bool.or_eq_true, beq_iff_eq] at h
    obtain ⟨h0, h1⟩ := h
    have hne : x.mem l ≠ 0 := h0 ▸ hn t List.mem_cons_self
    have htail := ih (fun t' ht' => hn t' (List.mem_cons_of_mem _ ht'))
      (h1.resolve_left hne)
    intro i hi
    cases i with
    | zero =>
      rw [show UInt32.ofNat 0 = 0 from rfl, UInt32.add_zero]
      exact h0
    | succ i =>
      have := htail i (Nat.lt_of_succ_lt_succ hi)
      rw [UInt32.ofNat_add, UInt32.add_comm (UInt32.ofNat i), ← UInt32.add_assoc]
      exact this

theorem name_ne_zero (i : Image) : ∀ t ∈ i.name, t ≠ 0 := by
  cases i <;> decide +kernel

theorem mem_of_strncmp {c : UInt8} (h : x.strncmp l (c :: cs) = true) : x.mem l = c := by
  rw [strncmp, Bool.and_eq_true, beq_iff_eq] at h
  exact h.1

theorem strncmp_ne {c c' : UInt8} (h : x.mem l = c) (hne : c ≠ c') :
    ¬x.strncmp l (c' :: cs) = true := fun h' => hne (h.symm.trans (mem_of_strncmp h'))

theorem entry_eq_image_iff {i : Image} : x.entry l = some (.image i) ↔ x.Named l i.name := by
  constructor
  · intro h
    refine named_of_strncmp (name_ne_zero i) ?_
    unfold entry at h
    split at h
    · next hk =>
      cases h
      exact hk
    split at h
    · next hr =>
      cases h
      exact hr
    split at h
    · cases h
    split at h
    · next ho =>
      cases h
      exact ho
    · cases h
  · intro h
    have hc := strncmp_of_named h
    cases i with
    | kernel => exact if_pos hc
    | rootfs =>
      have h0 : x.mem l = 0x72 := mem_of_strncmp hc
      have hk : ¬x.strncmp l Image.kernel.name = true := strncmp_ne h0 (by decide)
      rw [entry, if_neg hk, if_pos hc]
    | osgi =>
      have h0 : x.mem l = 0x6f := mem_of_strncmp hc
      have hk : ¬x.strncmp l Image.kernel.name = true := strncmp_ne h0 (by decide)
      have hr : ¬x.strncmp l Image.rootfs.name = true := strncmp_ne h0 (by decide)
      have hv : ¬x.strncmp l fwuverName = true := strncmp_ne h0 (by decide)
      rw [entry, if_neg hk, if_neg hr, if_neg hv, if_pos hc]

theorem note_part_self {i : Image} (h : x.Named l i.name) :
    (x.note l g (x.entry l)).part i = x.member l := by
  rw [entry_eq_image_iff.mpr h]
  exact Function.update_self _ _ _

theorem note_part_of_not {i : Image} (h : ¬x.Named l i.name) :
    (x.note l g (x.entry l)).part i = g.part i := by
  cases he : x.entry l with
  | none => rfl
  | some e =>
    cases e with
    | version => rfl
    | image i' =>
      have hne : i ≠ i' := by
        rintro rfl
        exact h (entry_eq_image_iff.mp he)
      exact Function.update_of_ne hne _ _

def noteAll (x : Archive) (ls : List UInt32) (g : Globals) : Globals :=
  ls.foldl (fun g l => x.note l g (x.entry l)) g

theorem noteAll_part {ls : List UInt32} {i : Image}
    (h : ls.reverse.find? (fun l => x.Named l i.name) = some l) :
    (x.noteAll ls g).part i = x.member l := by
  induction ls using List.reverseRecOn with
  | nil => cases h
  | append_singleton ls k ih =>
    rw [noteAll, List.foldl_append, List.foldl_cons, List.foldl_nil]
    rw [List.reverse_append, List.reverse_singleton, List.singleton_append, List.find?_cons] at h
    by_cases hk : x.Named k i.name
    · rw [decide_eq_true hk] at h
      cases h
      exact note_part_self hk
    · rw [decide_eq_false hk] at h
      rw [note_part_of_not hk]
      exact ih h

theorem Members.leads (h : x.Members l ls) (hl : s.location = l) :
    ∃ s', Loop.Leads x.scanStep s (.ret s') ∧ s'.globals = x.noteAll ls s.globals := by
  induction h generalizing s with
  | @done l fits empty =>
    have hmagic : ¬x.checkImgTar s.location = true := by
      have h0 : x.mem (s.location + 257) = 0 := hl ▸ empty 257 (by omega)
      exact strncmp_ne h0 (by decide)
    by_cases hlt : s.location + tarBlockSize < x.size
    · exact ⟨_, .one (scanStep_end hlt (Bool.eq_false_iff.mpr hmagic)), rfl⟩
    · exact ⟨_, .one (scanStep_over hlt), rfl⟩
  | @member l ls magic fits rest ih =>
    have hsz := x.size.toNat_lt
    have hlt : l + tarBlockSize < x.size := by
      rw [UInt32.lt_iff_toNat_lt, UInt32.toNat_add, tarBlockSize_toNat,
        Nat.mod_eq_of_lt (by omega)]
      omega
    have hstep : x.Step s.location (x.next s.location) :=
      ⟨hl ▸ hlt, hl ▸ strncmp_of_named magic, rfl⟩
    obtain ⟨s', hs', hg⟩ := ih (s := x.take s) (by rw [take, hl])
    refine ⟨s', .head hstep.scanStep hs', ?_⟩
    rw [hg, take, hl]
    rfl

theorem Members.last (h : x.Members 0 ls) (hs : x.ScanImgTar g g') {i : Image}
    (hl : ls.reverse.find? (fun l => x.Named l i.name) = some l) : g'.part i = x.member l := by
  obtain ⟨s, hr, rfl⟩ := hs
  obtain ⟨s', hr', hg⟩ := h.leads (s := scanStart g) rfl
  cases hr.unique hr' rfl rfl
  rw [hg]
  exact noteAll_part hl

-- ---------------------------------------------------------------------------
-- The scan as a whole
-- ---------------------------------------------------------------------------

theorem stops_of_leads (h : Loop.Leads x.scanStep s (.ret t)) : Loop.Stops x.scanStep s := by
  obtain ⟨n, hn⟩ := h
  exact ⟨n, by rw [hn]; rfl⟩

theorem ScansWell.tame (h : x.ScansWell g) : x.Tame := by
  refine ⟨?_, fun l hl => ?_, fun l l' hl hs i hi => ?_, fun l l' hl hs he hlen => ?_⟩
  · obtain ⟨s, hs, -⟩ := h.ends
    exact stops_iff_noReturn.mp (stops_of_leads hs)
  · -- behind the last block of the address space the condition of the loop holds again
    rintro rfl
    rcases Relation.ReflTransGen.cases_tail hl with h0 | ⟨k, -, hk⟩
    · exact absurd h0 (by decide)
    · have hlt : (0xFFFFFE00 : UInt32) + tarBlockSize < x.size :=
        UInt32.lt_of_le_of_lt (UInt32.zero_le) hk.below
      obtain ⟨s, hs, hread⟩ := hl.exists_read hlt g
      have hin := h.headers s hs _ hread
      have hsz := x.size.toNat_lt
      rw [show (0xFFFFFE00 : UInt32).toNat = 4294966784 from rfl] at hin
      omega
  · obtain ⟨s, rfl, hr⟩ := hl.exists_take hs g
    refine h.images _ hr (x.member s.location) (List.mem_append_right _ ?_)
    rw [hi]
    exact List.mem_singleton_self _
  · obtain ⟨s, rfl, hr⟩ := hl.exists_take hs g
    by_contra hno
    obtain ⟨k, hk, h0⟩ := h.version _ hr
    rw [take, he, note, hlen] at h0
    refine strncpy_ne_zero (fun j hj hz => hno ⟨j, ?_, hz⟩) (Nat.zero_le k) ?_ h0
    · omega
    · omega

theorem Tame.ends (h : x.Tame) (g : Globals) :
    ∃ s, Loop.Leads x.scanStep (scanStart g) (.ret s) ∧
      s.read.length ≤ x.size.toNat / 512 + 1 := by
  -- the locations at which it goes on
  let K : Finset UInt32 := (Finset.range (x.size.toNat / 512)).image fun k => UInt32.ofNat (512 * k)
  have hcard : K.card ≤ x.size.toNat / 512 := by
    refine Finset.card_image_le.trans ?_
    rw [Finset.card_range]
  have hK : ∀ n t, Loop.run x.scanStep n (scanStart g) = .next t →
      (x.scanStep t).isNext = true → t.location ∈ K := by
    intro n t hn hgo
    have hp := passes_of_run hn
    have hal := hp.aligned
    rcases scanStep_cases x t with ⟨hs, -⟩ | ⟨-, he⟩ | he
    · have hlt := hp.below (h.noWrap _ hp) hs.below
      refine Finset.mem_image.mpr ⟨t.location.toNat / 512, Finset.mem_range.mpr (by omega), ?_⟩
      rw [show 512 * (t.location.toNat / 512) = t.location.toNat by omega, UInt32.ofNat_toNat]
    · rw [he] at hgo
      cases hgo
    · rw [he] at hgo
      cases hgo
  have hend := (decides x).stops_within (stops_iff_noReturn.mpr h.noReturn) K hK
  have hlen := read_length_le x (K.card + 1) (scanStart g)
  cases hr : Loop.run x.scanStep (K.card + 1) (scanStart g) with
  | next t =>
    rw [hr] at hend
    cases hend
  | ret s =>
    rw [hr] at hlen
    refine ⟨s, ⟨_, hr⟩, hlen.trans ?_⟩
    rw [scanStart, List.length_nil]
    omega
  | halt e => exact e.elim

theorem Tame.scansWell (h : x.Tame) (hg : g.fwuVer 31 = 0) : x.ScansWell g where
  ends := h.ends g
  headers s hs l hl := by
    obtain ⟨hp, hlt⟩ := (traced hs).read l hl
    exact Nat.le_of_lt (hp.below (h.noWrap l hp) hlt)
  images s hs p hp := by
    obtain ⟨l, l', hl, hstep, rfl, i, hi⟩ := (traced hs).images p hp
    exact h.fits l l' hl hstep i hi
  last ls hls g' hs i l hl := hls.last hs hl
  version s hs := ⟨31, by omega, h.fwuVer hg hs⟩

end Archive

/-- A scan: the archive and the table before. The last byte of the version is a terminator
when the program starts. -/
structure Scanned extends Archive where
  globals : Globals
  terminated : globals.fwuVer 31 = 0

/-- All goes well exactly when the sizes in the headers lead back to no location and never
to the last block of the address space, the images end in the buffer, and a version of more
than 31 characters has an end. -/
theorem Scanned.scansWell_iff (x : Scanned) : x.ScansWell x.globals ↔ x.Tame :=
  ⟨Archive.ScansWell.tame, fun h => h.scansWell x.terminated⟩

def circular : Archive where
  mem a :=
    if a = 124 then 0x33 else if 125 ≤ a ∧ a ≤ 131 then 0x37
    else if 132 ≤ a ∧ a ≤ 134 then 0x30
    else if a = 257 then 0x75 else if a = 258 then 0x73 else if a = 259 then 0x74
    else if a = 260 then 0x61 else if a = 261 then 0x72 else if a = 262 then 0x20
    else if a = 263 then 0x20 else 0
  size := 1024

theorem circular_step : circular.Step 0 0 where
  below := by decide
  magic := by decide +kernel
  next_eq := by decide +kernel

theorem blank_terminated : (fun _ => 0 : Nat → UInt8) 31 = 0 := rfl

def scanCircular : Scanned where
  toArchive := circular
  globals := ⟨fun _ => ⟨0, 0⟩, fun _ => 0⟩
  terminated := blank_terminated

theorem scanCircular_not_scansWell : ¬scanCircular.ScansWell scanCircular.globals :=
  fun h => h.tame.noReturn 0 .refl (.single circular_step)

end BismarckPreloader.Imgtar
