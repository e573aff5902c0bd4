import Mathlib.Data.List.Induction
import BismarckPreloader.Multicast.Area

/-!
# A session

The frames of one image come in any order, some of them several times, broken or not at all.
When the receiver takes the image for complete, it should be. `delivers_iff` says when it
is: the flags must be clear when the session begins, which a session that was aborted does
not see to, and the length must have been announced, which the builds for large images do
not wait for.
-/

namespace BismarckPreloader.Multicast

-- ---------------------------------------------------------------------------
-- Absorbing a frame
-- ---------------------------------------------------------------------------

def absorb (b : Build) (p : Frame) (s : State) : State :=
  if Stores b p s then if b.large then count p (added p s) else added p s
  else if Announces b p ∧ Known p s then { begun s with frameStart := true }
  else (processMultcastUpgrade b p s).1

variable {b : Build} {p : Frame} {s : State}

theorem absorb_stores (h : Stores b p s) :
    absorb b p s = if b.large then count p (added p s) else added p s := if_pos h

theorem absorb_known (h : Announces b p) (hk : Known p s) :
    absorb b p s = { begun s with frameStart := true } := by
  rw [absorb, if_neg fun hs => h.not_isData hs.isData, if_pos ⟨h, hk⟩]

theorem absorb_announce (h : Announces b p) (hk : ¬Known p s) :
    absorb b p s = announce p (begun s) := by
  have hp : processMultcastUpgrade b p s = processInfo b p (begun s) := by
    rcases process_cases b p s with ⟨hs, -⟩ | ⟨-, he⟩ | ⟨-, ha, -⟩
    · exact absurd hs.isData h.not_isData
    · exact he
    · exact absurd h ha
  rw [absorb, if_neg fun hs => h.not_isData hs.isData, if_neg fun ha => hk ha.2, hp,
    processInfo_new hk]

theorem absorb_aside (hs : ¬Stores b p s) (ha : ¬Announces b p) : Aside s (absorb b p s) := by
  rw [absorb, if_neg hs, if_neg fun h => ha h.1]
  rcases process_cases b p s with ⟨hs', -⟩ | ⟨ha', -⟩ | ⟨-, -, he, -⟩
  · exact absurd hs' hs
  · exact absurd ha' ha
  · exact he

theorem process_eq_absorb (b : Build) (p : Frame) (s : State) :
    (processMultcastUpgrade b p s).1 = absorb b p s ∨
      (processMultcastUpgrade b p s).1 = finishFirmwareRecieve b (absorb b p s) := by
  rcases process_cases b p s with ⟨hs, he⟩ | ⟨ha, he⟩ | ⟨hs, ha, -⟩
  · rw [he, absorb_stores hs]
    cases hl : b.large with
    | false =>
      rw [processData_small hl]
      exact .inl rfl
    | true =>
      by_cases hc : (count p s).recvValidPktCnt = (count p s).needPktCnt
      · rw [processData_enough hl hc]
        exact .inr rfl
      · rw [processData_counted hl hc]
        exact .inl rfl
  · by_cases hk : Known p s
    · rw [he, absorb_known ha hk, processInfo_known hk]
      exact .inr rfl
    · rw [he, absorb_announce ha hk, processInfo_new hk]
      exact .inl rfl
  · rw [absorb, if_neg hs, if_neg fun h => ha h.1]
    exact .inl rfl

theorem absorb_netState (b : Build) (p : Frame) (s : State) :
    (absorb b p s).netState = s.netState := by
  by_cases hs : Stores b p s
  · rw [absorb_stores hs]
    split <;> rfl
  · by_cases ha : Announces b p
    · by_cases hk : Known p s
      · rw [absorb_known ha hk]
        rfl
      · rw [absorb_announce ha hk]
        rfl
    · rw [absorb_aside hs ha]

theorem process_netState (h : s.netState ≠ .success) :
    ((processMultcastUpgrade b p s).1.netState ≠ .success ∧
      (processMultcastUpgrade b p s).1 = absorb b p s) ∨
    ((processMultcastUpgrade b p s).1.netState = .success ∧ complete (absorb b p s) = true ∧
      (processMultcastUpgrade b p s).1.bootFileSize = (absorb b p s).totalLen ∧
      (processMultcastUpgrade b p s).1.load = (absorb b p s).load) := by
  have hgo : (absorb b p s).netState ≠ .success := by rwa [absorb_netState]
  rcases process_eq_absorb b p s with he | he
  · exact .inl ⟨he ▸ hgo, he⟩
  · cases hc : complete (absorb b p s) with
    | false =>
      rw [finishFirmwareRecieve, if_neg (by rw [hc]; exact Bool.false_ne_true)] at he
      exact .inl ⟨he ▸ hgo, he⟩
    | true =>
      rw [finishFirmwareRecieve, if_pos hc] at he
      rw [he]
      exact .inr ⟨rfl, rfl, rfl, rfl⟩

theorem process_of_success (h : s.netState = .success) :
    (processMultcastUpgrade b p s).1.netState = .success := by
  rcases process_eq_absorb b p s with he | he
  · rw [he, absorb_netState, h]
  · rw [he]
    unfold finishFirmwareRecieve
    split
    · rfl
    · rw [absorb_netState, h]

-- ---------------------------------------------------------------------------
-- Sessions
-- ---------------------------------------------------------------------------

/-- The frames of a session: information about the image, parts of the image, frames that
are broken, and frames that are neither. -/
inductive Belongs (image : Nat → UInt8) (len : UInt32) (p : Frame) : Prop where
  | info (type_eq : p.type = .info) (length : p.imagelen = len)
      (crc : p.imagecrc = crc32 ((List.range len.toNat).map image))
  | data (isData : p.IsData) (first : 1 ≤ p.seqnum.toNat) (last : p.seqnum.toNat ≤ frames len)
      (correct : ∀ j < 1024, 1024 * (p.seqnum.toNat - 1) + j < len.toNat →
        p.data j = image (1024 * (p.seqnum.toNat - 1) + j))
  | broken (crc : ¬p.Intact)
  | other (isData : ¬p.IsData) (type_ne : p.type ≠ .info)

theorem Belongs.of_stores {image : Nat → UInt8} {len : UInt32} (h : Belongs image len p) (hs : Stores b p s) :
    1 ≤ p.seqnum.toNat ∧ ∀ j < 1024, 1024 * (p.seqnum.toNat - 1) + j < len.toNat →
      p.data j = image (1024 * (p.seqnum.toNat - 1) + j) := by
  cases h with
  | info type_eq =>
    rcases hs.isData with h' | h'
    · cases type_eq.symm.trans h'
    · cases type_eq.symm.trans h'
  | data _ first _ correct => exact ⟨first, correct⟩
  | broken crc => exact absurd hs.intact crc
  | other isData => exact absurd hs.isData isData

theorem Belongs.of_announces {image : Nat → UInt8} {len : UInt32} (h : Belongs image len p) (ha : Announces b p) :
    p.imagelen = len := by
  cases h with
  | info _ length => exact length
  | data isData => exact absurd isData ha.not_isData
  | broken crc => exact absurd ha.intact crc
  | other _ type_ne => exact absurd ha.type_eq type_ne

structure Session where
  build : Build
  before : State
  image : Nat → UInt8
  len : UInt32
  nonempty : 1 ≤ len.toNat
  fits : frames len ≤ build.fwsize - 1
  packets : List Frame
  belongs : ∀ p ∈ packets, Belongs image len p

namespace Session

variable (x : Session)

def start : State := multicastStart x.before

def after (ps : List Frame) : State := receive x.build x.start ps

structure EndsWith (ps : List Frame) (p : Frame) : Prop where
  first : ps ++ [p] <+: x.packets
  before : (x.after ps).netState ≠ .success
  ends : (x.after (ps ++ [p])).netState = .success

def StoredIn (ps : List Frame) (k : Nat) : Prop :=
  ∃ before q rest, ps = before ++ q :: rest ∧ Stores x.build q (x.after before) ∧
    q.seqnum.toNat = k

/-- When the reception ends, all frames have been stored, the length is right and the image
is in the load area. -/
def Delivers : Prop :=
  ∀ ps p, x.EndsWith ps p →
    (∀ k, 1 ≤ k → k ≤ frames x.len → x.StoredIn (ps ++ [p]) k) ∧
    (x.after (ps ++ [p])).bootFileSize = x.len ∧
    ∀ i < x.len.toNat, (x.after (ps ++ [p])).load (UInt32.ofNat i) = x.image i

def Fresh : Prop :=
  ∀ ps p, x.EndsWith ps p →
    (∃ q ∈ ps ++ [p], Announces x.build q) ∧
    ∀ k, 1 ≤ k → k ≤ frames x.len → x.before.seqNumFlag k = false

variable {x}

theorem after_append (ps : List Frame) (p : Frame) :
    x.after (ps ++ [p]) = (processMultcastUpgrade x.build p (x.after ps)).1 := by
  rw [after, receive, List.foldl_append]
  rfl

theorem StoredIn.append (h : x.StoredIn ps k) (qs : List Frame) : x.StoredIn (ps ++ qs) k := by
  obtain ⟨before, q, rest, rfl, hs, hk⟩ := h
  exact ⟨before, q, rest ++ qs, by rw [List.append_assoc, List.cons_append], hs, hk⟩

theorem storedIn_last (h : Stores x.build p (x.after ps)) :
    x.StoredIn (ps ++ [p]) p.seqnum.toNat := ⟨ps, p, [], rfl, h, rfl⟩

theorem last_or_before {before rest : List Frame} (he : ps ++ [p] = before ++ q :: rest) :
    (before = ps ∧ q = p) ∨ ∃ rest', ps = before ++ q :: rest' := by
  rcases List.eq_nil_or_concat rest with rfl | ⟨rest, r, rfl⟩
  · obtain ⟨rfl, hq⟩ := List.append_inj' he rfl
    cases hq
    exact .inl ⟨rfl, rfl⟩
  · rw [List.concat_eq_append, ← List.cons_append, ← List.append_assoc] at he
    exact .inr ⟨rest, (List.append_inj' he rfl).1⟩

theorem StoredIn.cases (h : x.StoredIn (ps ++ [p]) k) :
    x.StoredIn ps k ∨ (Stores x.build p (x.after ps) ∧ p.seqnum.toNat = k) := by
  obtain ⟨before, q, rest, he, hs, hk⟩ := h
  rcases last_or_before he with ⟨rfl, rfl⟩ | ⟨rest', rfl⟩
  · exact .inr ⟨hs, hk⟩
  · exact .inl ⟨before, q, rest', rfl, hs, hk⟩

-- ---------------------------------------------------------------------------
-- The invariant of a reception
-- ---------------------------------------------------------------------------

/-- What the globals have to do with the frames so far. -/
structure Follows (x : Session) (ps : List Frame) (t : State) : Prop where
  announced : (∃ q ∈ ps, Announces x.build q) → t.totalLen = x.len
  silent : ¬(∃ q ∈ ps, Announces x.build q) → t.totalLen = 0
  flagged : ∀ k, t.seqNumFlag k = true → x.before.seqNumFlag k = true ∨ x.StoredIn ps k
  kept : ∀ k, x.before.seqNumFlag k = true → t.seqNumFlag k = true
  loaded : ∀ i < x.len.toNat, x.StoredIn ps (i / 1024 + 1) → t.load (UInt32.ofNat i) = x.image i

theorem follows_start (x : Session) : Follows x [] x.start := by
  have hno : ∀ k, ¬x.StoredIn [] k := by
    rintro k ⟨before, q, rest, he, -⟩
    simp at he
  refine ⟨?_, fun _ => rfl, fun k hk => .inl hk, fun k hk => hk, fun i _ h => absurd h (hno _)⟩
  rintro ⟨q, hq, -⟩
  cases hq

theorem sub_offset_eq {seq : UInt32} {i : Nat} (h1 : 1 ≤ seq.toNat) (hle : seq.toNat ≤ 61440)
    (hi : i < 2 ^ 32) : (UInt32.ofNat i - offset seq).toNat =
      (2 ^ 32 - 1024 * (seq.toNat - 1) + i) % 2 ^ 32 := by
  rw [UInt32.toNat_sub, offset_toNat h1 hle, UInt32.toNat_ofNat', Nat.mod_eq_of_lt hi]

theorem sub_offset {seq : UInt32} {i : Nat} (h1 : 1 ≤ seq.toNat) (hle : seq.toNat ≤ 61440)
    (hi : i < 2 ^ 32) :
    (UInt32.ofNat i - offset seq).toNat < 1024 ↔ i / 1024 + 1 = seq.toNat := by
  rw [sub_offset_eq h1 hle hi]
  omega

theorem sub_offset_toNat {seq : UInt32} {i : Nat} (h1 : 1 ≤ seq.toNat) (hle : seq.toNat ≤ 61440)
    (hi : i < 2 ^ 32) (hk : i / 1024 + 1 = seq.toNat) :
    (UInt32.ofNat i - offset seq).toNat = i % 1024 := by
  rw [sub_offset_eq h1 hle hi]
  omega

theorem exists_append_singleton {P : Frame → Prop} :
    (∃ q ∈ ps ++ [p], P q) ↔ (∃ q ∈ ps, P q) ∨ P p := by
  constructor
  · rintro ⟨q, hq, h⟩
    rcases List.mem_append.mp hq with hq | hq
    · exact .inl ⟨q, hq, h⟩
    · rw [List.mem_singleton] at hq
      exact .inr (hq ▸ h)
  · rintro (⟨q, hq, h⟩ | h)
    · exact ⟨q, List.mem_append_left _ hq, h⟩
    · exact ⟨p, List.mem_append_right _ (List.mem_singleton_self p), h⟩

theorem Follows.unstored (h : Follows x ps (x.after ps)) (hs : ¬Stores x.build p (x.after ps))
    {t : State} (hflags : t.seqNumFlag = (x.after ps).seqNumFlag)
    (hload : t.load = (x.after ps).load)
    (hann : (∃ q ∈ ps ++ [p], Announces x.build q) → t.totalLen = x.len)
    (hsil : ¬(∃ q ∈ ps ++ [p], Announces x.build q) → t.totalLen = 0) :
    Follows x (ps ++ [p]) t := by
  refine ⟨hann, hsil, fun k hk => ?_, fun k hk => ?_, fun i hi hst => ?_⟩
  · rw [hflags] at hk
    exact (h.flagged k hk).imp_right fun h' => h'.append [p]
  · rw [hflags]
    exact h.kept k hk
  · rw [hload]
    exact h.loaded i hi (hst.cases.resolve_right fun h' => hs h'.1)

theorem Follows.stored (h : Follows x ps (x.after ps)) (hp : Belongs x.image x.len p)
    (hs : Stores x.build p (x.after ps)) {t : State}
    (hflags : t.seqNumFlag = (added p (x.after ps)).seqNumFlag)
    (hload : t.load = (added p (x.after ps)).load)
    (hlen : t.totalLen = (x.after ps).totalLen) : Follows x (ps ++ [p]) t := by
  have hann : (∃ q ∈ ps ++ [p], Announces x.build q) ↔ ∃ q ∈ ps, Announces x.build q := by
    rw [exists_append_singleton]
    exact or_iff_left fun ha => ha.not_isData hs.isData
  obtain ⟨hfirst, hcorrect⟩ := hp.of_stores hs
  have hle := hs.seqnum_le.trans (fwsize_le x.build)
  refine ⟨fun ha => ?_, fun ha => ?_, fun k hk => ?_, fun k hk => ?_, fun i hi hst => ?_⟩
  · rw [hlen]
    exact h.announced (hann.mp ha)
  · rw [hlen]
    exact h.silent fun ha' => ha (hann.mpr ha')
  · by_cases hk' : k = p.seqnum.toNat
    · exact .inr (hk' ▸ storedIn_last hs)
    · rw [hflags, added_seqNumFlag, Function.update_of_ne hk'] at hk
      exact (h.flagged k hk).imp_right fun h' => h'.append [p]
  · rw [hflags, added_seqNumFlag]
    by_cases hk' : k = p.seqnum.toNat
    · rw [hk', Function.update_self]
    · rw [Function.update_of_ne hk']
      exact h.kept k hk
  · have hlt : i < 2 ^ 32 := hi.trans x.len.toNat_lt
    rw [hload, added_load]
    by_cases hk : i / 1024 + 1 = p.seqnum.toNat
    · have hidx : 1024 * (p.seqnum.toNat - 1) + i % 1024 = i := by omega
      rw [if_pos ((sub_offset hfirst hle hlt).mpr hk), sub_offset_toNat hfirst hle hlt hk,
        hcorrect _ (Nat.mod_lt _ (by omega)) (by rw [hidx]; exact hi), hidx]
    · rw [if_neg fun hin => hk ((sub_offset hfirst hle hlt).mp hin)]
      exact h.loaded i hi (hst.cases.resolve_right fun h' => hk h'.2.symm)

theorem Follows.absorb (h : Follows x ps (x.after ps)) (hp : Belongs x.image x.len p) :
    Follows x (ps ++ [p]) (absorb x.build p (x.after ps)) := by
  by_cases hs : Stores x.build p (x.after ps)
  · rw [absorb_stores hs]
    cases x.build.large with
    | true => exact h.stored hp hs rfl rfl rfl
    | false => exact h.stored hp hs rfl rfl rfl
  · by_cases ha : Announces x.build p
    · have hnow : ∃ q ∈ ps ++ [p], Announces x.build q := exists_append_singleton.mpr (.inr ha)
      by_cases hk : Known p (x.after ps)
      · rw [absorb_known ha hk]
        refine h.unstored hs rfl rfl (fun _ => h.announced ?_) fun hno => absurd hnow hno
        by_contra hno
        exact hk.1.1 (h.silent hno)
      · rw [absorb_announce ha hk]
        refine h.unstored hs rfl rfl (fun _ => ?_) fun hno => absurd hnow hno
        change (if (x.after ps).totalLen ≠ 0 ∧ (x.after ps).totalCrc32 ≠ 0
          then (x.after ps).totalLen else p.imagelen) = x.len
        split
        next hc =>
          refine h.announced ?_
          by_contra hno
          exact hc.1 (h.silent hno)
        next => exact hp.of_announces ha
    · have hiff : (∃ q ∈ ps ++ [p], Announces x.build q) ↔ ∃ q ∈ ps, Announces x.build q := by
        rw [exists_append_singleton]
        exact or_iff_left ha
      have he := absorb_aside hs ha
      have hlen : (Multicast.absorb x.build p (x.after ps)).totalLen = (x.after ps).totalLen := by
        rw [he]
      refine h.unstored hs (by rw [he]) (by rw [he]) (fun hex => ?_) fun hno => ?_
      · rw [hlen]
        exact h.announced (hiff.mp hex)
      · rw [hlen]
        exact h.silent fun hex => hno (hiff.mpr hex)

theorem not_success_of_append (h : (x.after (ps ++ qs)).netState ≠ .success) :
    (x.after ps).netState ≠ .success := by
  induction qs using List.reverseRecOn with
  | nil => rwa [List.append_nil] at h
  | append_singleton qs q ih =>
    refine ih fun hs => h ?_
    rw [← List.append_assoc, after_append]
    exact process_of_success hs

theorem follows (hps : ps <+: x.packets) (hgo : (x.after ps).netState ≠ .success) :
    Follows x ps (x.after ps) := by
  induction ps using List.reverseRecOn with
  | nil => exact follows_start x
  | append_singleton ps p ih =>
    have hgo' := not_success_of_append hgo
    have hps' : ps <+: x.packets := (List.prefix_append ps [p]).trans hps
    have hp : Belongs x.image x.len p :=
      x.belongs p (hps.subset (List.mem_append_right _ (List.mem_singleton_self p)))
    rcases process_netState (b := x.build) (p := p) hgo' with ⟨-, he⟩ | ⟨hend, -⟩
    · rw [after_append, he]
      exact (ih hps' hgo').absorb hp
    · rw [after_append] at hgo
      exact absurd hend hgo

theorem EndsWith.last (h : x.EndsWith ps p) :
    Follows x (ps ++ [p]) (Multicast.absorb x.build p (x.after ps)) ∧
      complete (Multicast.absorb x.build p (x.after ps)) = true ∧
      (x.after (ps ++ [p])).bootFileSize = (Multicast.absorb x.build p (x.after ps)).totalLen ∧
      (x.after (ps ++ [p])).load = (Multicast.absorb x.build p (x.after ps)).load := by
  have hps : ps <+: x.packets := (List.prefix_append ps [p]).trans h.first
  have hp : Belongs x.image x.len p :=
    x.belongs p (h.first.subset (List.mem_append_right _ (List.mem_singleton_self p)))
  have hends := h.ends
  rw [after_append] at hends ⊢
  rcases process_netState (b := x.build) (p := p) h.before with ⟨hgo, -⟩ | ⟨-, hc⟩
  · exact absurd hends hgo
  · exact ⟨(follows hps h.before).absorb hp, hc⟩

theorem EndsWith.not_storedIn (h : x.EndsWith ps p) (hk : x.before.seqNumFlag k = true) :
    ¬x.StoredIn (ps ++ [p]) k := by
  rintro ⟨before, q, rest, he, hs, rfl⟩
  -- the frame is the last one or one before, so the reception goes on when it comes
  have hgo : (x.after before).netState ≠ .success ∧ before <+: x.packets := by
    rcases last_or_before he with ⟨rfl, -⟩ | ⟨rest', rfl⟩
    · exact ⟨h.before, (List.prefix_append _ _).trans h.first⟩
    · refine ⟨not_success_of_append h.before, ?_⟩
      exact ((List.prefix_append _ _).trans (List.prefix_append _ _)).trans h.first
  have hset := (follows hgo.2 hgo.1).kept _ hk
  rw [hs.new] at hset
  cases hset

theorem Delivers.fresh (h : x.Delivers) : x.Fresh := by
  intro ps p hend
  obtain ⟨hstored, hsize, -⟩ := h ps p hend
  obtain ⟨hf, -, hboot, -⟩ := hend.last
  constructor
  · by_contra hno
    have hzero : x.len = 0 := hsize.symm.trans (hboot.trans (hf.silent hno))
    have hlen := x.nonempty
    rw [hzero] at hlen
    exact absurd hlen (by decide)
  · intro k h1 hk
    by_contra hset
    exact hend.not_storedIn (Bool.eq_true_of_not_eq_false hset) (hstored k h1 hk)

theorem Fresh.delivers (h : x.Fresh) : x.Delivers := by
  intro ps p hend
  obtain ⟨hann, hclear⟩ := h ps p hend
  obtain ⟨hf, hcomplete, hboot, hload⟩ := hend.last
  have hlen := hf.announced hann
  have hstored : ∀ k, 1 ≤ k → k ≤ frames x.len → x.StoredIn (ps ++ [p]) k := by
    intro k h1 hk
    have hflag : (Multicast.absorb x.build p (x.after ps)).seqNumFlag k = true := by
      refine List.all_eq_true.mp hcomplete k (List.mem_range'_1.mpr ⟨h1, ?_⟩)
      rw [hlen]
      omega
    refine (hf.flagged k hflag).resolve_left fun hold => ?_
    rw [hclear k h1 hk] at hold
    cases hold
  refine ⟨hstored, hboot.trans hlen, fun i hi => ?_⟩
  rw [hload]
  refine hf.loaded i hi (hstored _ (Nat.le_add_left 1 _) ?_)
  unfold frames
  split <;> omega

/-- The image is there when the reception ends, exactly if the end comes after an
announcement and no flag was left from before. -/
theorem delivers_iff (x : Session) : x.Delivers ↔ x.Fresh := ⟨Delivers.fresh, Fresh.delivers⟩

/-- Without the option for large images only an announcement ends the reception, so clear
flags are enough. -/
theorem delivers_of_clear (x : Session) (hl : x.build.large = false)
    (hclear : ∀ k, 1 ≤ k → k ≤ frames x.len → x.before.seqNumFlag k = false) : x.Delivers := by
  refine Fresh.delivers fun ps p hend => ⟨?_, hclear⟩
  have hgo := hend.before
  have hends := hend.ends
  rw [after_append] at hends
  rcases process_cases x.build p (x.after ps) with ⟨-, he⟩ | ⟨ha, -⟩ | ⟨-, -, he, -⟩
  · rw [he, processData_small hl] at hends
    exact absurd hends hgo
  · exact exists_append_singleton.mpr (.inr ha)
  · rw [he] at hends
    exact absurd hends hgo

def onlyFrame : Frame where
  hl := 0x20000000
  seqnum := 1
  datacrc := crc32 ((List.range 1024).map fun _ => 0)
  imagelen := 1
  imagecrc := 0
  data _ := 0

theorem onlyFrame_stores : Stores ⟨true, true⟩ onlyFrame (multicastStart Traffic.blank) where
  seqnum_le := by decide
  isData := .inl (by decide)
  new := rfl
  intact := rfl

theorem onlyFrame_fits : frames 1 ≤ Build.fwsize ⟨true, true⟩ - 1 := by decide

theorem onlyFrame_belongs : ∀ p ∈ [onlyFrame], Belongs (fun _ => 0) 1 p := by
  intro p hp
  rw [List.mem_singleton.mp hp]
  exact .data (.inl (by decide)) (by decide) (by decide) fun _ _ _ => rfl

def unannounced : Session where
  build := ⟨true, true⟩
  before := Traffic.blank
  image _ := 0
  len := 1
  nonempty := by decide
  fits := onlyFrame_fits
  packets := [onlyFrame]
  belongs := onlyFrame_belongs

theorem unannounced_endsWith : unannounced.EndsWith [] onlyFrame where
  first := List.prefix_rfl
  before := by decide
  ends := by
    have hbuild : unannounced.build = ⟨true, true⟩ := rfl
    have hstart : unannounced.after [] = multicastStart Traffic.blank := rfl
    rw [after_append, hbuild, hstart]
    rcases process_cases ⟨true, true⟩ onlyFrame (multicastStart Traffic.blank) with
      ⟨-, he⟩ | ⟨ha, -⟩ | ⟨hs, -⟩
    · have hdone : complete (count onlyFrame (added onlyFrame (multicastStart Traffic.blank))) =
          true := by decide
      have hend := processData_enough (b := ⟨true, true⟩) (p := onlyFrame)
        (s := multicastStart Traffic.blank) rfl (by decide)
      rw [finishFirmwareRecieve, if_pos hdone] at hend
      rw [he, hend]
    · exact absurd onlyFrame_stores.isData ha.not_isData
    · exact absurd onlyFrame_stores hs

/-- The reception ends with a length of 0. -/
theorem unannounced_not_delivers : ¬unannounced.Delivers := by
  intro h
  obtain ⟨⟨q, hq, ha⟩, -⟩ := h.fresh [] onlyFrame unannounced_endsWith
  rw [List.nil_append, List.mem_singleton] at hq
  subst hq
  exact ha.not_isData onlyFrame_stores.isData

end Session

end BismarckPreloader.Multicast
