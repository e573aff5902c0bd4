import BismarckPreloader.Lib.Sha1

/-!
# The boot loader's SHA-1

`sha1_process` works on a schedule of 16 words that it overwrites as it goes, and the
hash is fed piece by piece: `sha1_update` fills the 64-byte buffer of the context and
hands whole blocks to `sha1_process`, `sha1_finish` feeds the padding and the length.
`sha1Calculate_eq`: for every image the result is the hash of `Lib.Sha1`, whatever the
buffer held before.
-/

namespace BismarckPreloader.Secure

open Sha1 (State)

def shaS (x n : UInt32) : UInt32 := (x <<< n) ||| ((x &&& 0xFFFFFFFF) >>> (32 - n))

def shaF (t : Nat) (x y z : UInt32) : UInt32 :=
  if t < 20 then z ^^^ (x &&& (y ^^^ z))
  else if t < 40 then x ^^^ y ^^^ z
  else if t < 60 then (x &&& y) ||| (z &&& (x ||| y))
  else x ^^^ y ^^^ z

def shaK (t : Nat) : UInt32 :=
  if t < 20 then 0x5A827999
  else if t < 40 then 0x6ED9EBA1
  else if t < 60 then 0x8F1BBCDC
  else 0xCA62C1D6

def shaR (w : Nat → UInt32) (t : Nat) : UInt32 :=
  shaS (w ((t - 3) % 16) ^^^ w ((t - 8) % 16) ^^^ w ((t - 14) % 16) ^^^ w (t % 16)) 1

/-- The macro `P`. It changes the variables in the places of `e` and `b`; the next
call names them one place further on, so the fields here are the places and not the
variables. After 80 calls each variable is in its own place again. -/
def shaP (t : Nat) (x : UInt32) (v : State) : State :=
  ⟨v.e + (shaS v.a 5 + shaF t v.b v.c v.d + shaK t + x), v.a, shaS v.b 30, v.c, v.d⟩

def processRound (v : State × (Nat → UInt32)) (t : Nat) : State × (Nat → UInt32) :=
  if t < 16 then (shaP t (v.2 t) v.1, v.2)
  else
    let x := shaR v.2 t
    (shaP t x v.1, fun i => if i = t % 16 then x else v.2 i)

def sha1Process (state : State) (data : List UInt8) : State :=
  let v := (List.range 80).foldl processRound (state, Sha1.blockWord data)
  ⟨state.a + v.1.a, state.b + v.1.b, state.c + v.1.c, state.d + v.1.d, state.e + v.1.e⟩

structure Sha1Context where
  total0 : UInt32
  total1 : UInt32
  state : State
  buffer : List UInt8

/-- `sha1_starts` leaves the buffer as it is. -/
def sha1Starts (buffer : List UInt8) : Sha1Context :=
  ⟨0, 0, ⟨0x67452301, 0xEFCDAB89, 0x98BADCFE, 0x10325476, 0xC3D2E1F0⟩, buffer⟩

def fillBuffer (buffer : List UInt8) (left : Nat) (input : List UInt8) : List UInt8 :=
  buffer.take left ++ input ++ buffer.drop (left + input.length)

/-- The end of `sha1_update`: whole blocks, then the rest into the buffer. -/
def updateBlocks (ctx : Sha1Context) (left : Nat) (input : List UInt8) : Sha1Context :=
  let fed := absorb sha1Process 64 ctx.state input
  { ctx with
    state := fed.1
    buffer := if 0 < fed.2.length then fillBuffer ctx.buffer left fed.2 else ctx.buffer }

def sha1Update (ctx : Sha1Context) (input : List UInt8) : Sha1Context :=
  if input.length = 0 then ctx
  else
    let ilen := UInt32.ofNat input.length
    let left := (ctx.total0 &&& 0x3F).toNat
    let fill := 64 - left
    let total0 := ctx.total0 + ilen
    let total1 := if total0 < ilen then ctx.total1 + 1 else ctx.total1
    if left ≠ 0 ∧ fill ≤ input.length then
      let buffer := fillBuffer ctx.buffer left (input.take fill)
      updateBlocks ⟨total0, total1, sha1Process ctx.state buffer, buffer⟩ 0 (input.drop fill)
    else updateBlocks ⟨total0, total1, ctx.state, ctx.buffer⟩ left input

def sha1Padding : List UInt8 := 0x80 :: List.replicate 63 0

def sha1Finish (ctx : Sha1Context) : List UInt8 :=
  let high := (ctx.total0 >>> 29) ||| (ctx.total1 <<< 3)
  let low := ctx.total0 <<< 3
  let msglen := wordBytes high ++ wordBytes low
  let last := (ctx.total0 &&& 0x3F).toNat
  let padn := if last < 56 then 56 - last else 120 - last
  let ctx := sha1Update (sha1Update ctx (sha1Padding.take padn)) msglen
  [ctx.state.a, ctx.state.b, ctx.state.c, ctx.state.d, ctx.state.e].flatMap wordBytes

/-- `sha1_calculate` of the bytes of the image. -/
def sha1Calculate (buffer image : List UInt8) : List UInt8 :=
  sha1Finish (sha1Update (sha1Starts buffer) image)

-- ---------------------------------------------------------------------------
-- One block
-- ---------------------------------------------------------------------------

theorem shaS_eq (x n : UInt32) : shaS x n = Sha1.rotl n x := by
  have hmask : x &&& 0xFFFFFFFF = x := UInt32.and_neg_one
  rw [shaS, hmask, Sha1.rotl]

theorem ch_eq (x y z : UInt32) : z ^^^ (x &&& (y ^^^ z)) = Sha1.ch x y z := by
  apply UInt32.toBitVec_inj.mp
  ext i
  simp only [Sha1.ch, UInt32.toBitVec_xor, UInt32.toBitVec_and, UInt32.toBitVec_not,
    BitVec.getElem_xor, BitVec.getElem_and, BitVec.getElem_not]
  cases x.toBitVec[i] <;> cases y.toBitVec[i] <;> cases z.toBitVec[i] <;> rfl

theorem maj_eq (x y z : UInt32) : (x &&& y) ||| (z &&& (x ||| y)) = Sha1.maj x y z := by
  apply UInt32.toBitVec_inj.mp
  ext i
  simp only [Sha1.maj, UInt32.toBitVec_xor, UInt32.toBitVec_and, UInt32.toBitVec_or,
    BitVec.getElem_xor, BitVec.getElem_and, BitVec.getElem_or]
  cases x.toBitVec[i] <;> cases y.toBitVec[i] <;> cases z.toBitVec[i] <;> rfl

theorem shaF_eq (t : Nat) (x y z : UInt32) : shaF t x y z = Sha1.mix t x y z := by
  rw [shaF, ch_eq, maj_eq, Sha1.mix]
  split_ifs <;> rfl

theorem shaK_eq (t : Nat) : shaK t = Sha1.constant t := rfl

theorem shaP_eq (w : Nat → UInt32) (v : State) (t : Nat) :
    shaP t (w t) v = Sha1.round w v t := by
  rw [shaP, Sha1.round, shaS_eq, shaS_eq, shaF_eq, shaK_eq]
  congr 1
  grind

def Window (m : Nat → UInt32) (w : Nat → UInt32) (t : Nat) : Prop :=
  ∀ i, i < max t 16 → max t 16 ≤ i + 16 → w (i % 16) = Sha1.schedule m i

theorem window_zero (m : Nat → UInt32) : Window m m 0 := by
  intro i hi _
  have h16 : i < 16 := by simpa using hi
  rw [Sha1.schedule, if_pos h16, Nat.mod_eq_of_lt h16]

theorem Window.shaR_eq (h : Window m w t) (ht : 16 ≤ t) : shaR w t = Sha1.schedule m t := by
  have hmax : max t 16 = t := max_eq_left ht
  rw [Window, hmax] at h
  rw [Sha1.schedule, if_neg (by omega), shaR, shaS_eq, h (t - 3) (by omega) (by omega),
    h (t - 8) (by omega) (by omega), h (t - 14) (by omega) (by omega),
    ← h (t - 16) (by omega) (by omega), ← Nat.mod_eq_sub_mod ht]

theorem processRound_eq (h : Window m w t) (v : State) :
    (processRound (v, w) t).1 = Sha1.round (Sha1.schedule m) v t ∧
      Window m (processRound (v, w) t).2 (t + 1) := by
  unfold processRound
  split
  next ht =>
    have hword : w t = Sha1.schedule m t := by
      rw [← h t (by omega) (by omega), Nat.mod_eq_of_lt ht]
    refine ⟨by rw [← shaP_eq, ← hword], ?_⟩
    intro i hi hle
    exact h i (by omega) (by omega)
  next ht =>
    have hx := h.shaR_eq (by omega)
    refine ⟨by simp only [hx, shaP_eq], ?_⟩
    intro i hi hle
    simp only [hx]
    split
    next hmod =>
      have : i = t := by omega
      rw [this]
    next hmod =>
      have : i ≠ t := fun hit => hmod (by rw [hit])
      exact h i (by omega) (by omega)

theorem sha1Process_eq (state : State) (data : List UInt8) :
    sha1Process state data = Sha1.compress state data := by
  have hrounds : ∀ n, ((List.range n).foldl processRound (state, Sha1.blockWord data)).1 =
        (List.range n).foldl (Sha1.round (Sha1.schedule (Sha1.blockWord data))) state ∧
      Window (Sha1.blockWord data)
        ((List.range n).foldl processRound (state, Sha1.blockWord data)).2 n := by
    intro n
    induction n with
    | zero => exact ⟨rfl, window_zero _⟩
    | succ n ih =>
      rw [List.range_succ, List.foldl_append, List.foldl_append, ← ih.1]
      exact processRound_eq ih.2 _
  rw [sha1Process, (hrounds 80).1, Sha1.compress, Sha1.State.add]

-- ---------------------------------------------------------------------------
-- The stream
-- ---------------------------------------------------------------------------

/-- The context after the bytes of `m`: the whole blocks are in the state, the rest is
at the front of the buffer. -/
structure Fed (ctx : Sha1Context) (m : List UInt8) : Prop where
  total : ctx.total0.toNat = m.length % 2 ^ 32
  state : ctx.state = (absorb Sha1.compress 64 Sha1.initial m).1
  buffer : ctx.buffer.take (m.length % 64) = (absorb Sha1.compress 64 Sha1.initial m).2
  room : ctx.buffer.length = 64

theorem fed_starts (h : buffer.length = 64) : Fed (sha1Starts buffer) [] := by
  have hnil : absorb Sha1.compress 64 Sha1.initial [] = (Sha1.initial, []) := absorb_short (by decide)
  exact ⟨rfl, by rw [hnil]; rfl, by rw [hnil]; rfl, h⟩

theorem length_fillBuffer (h : left + input.length ≤ buffer.length) :
    (fillBuffer buffer left input).length = buffer.length := by
  simp only [fillBuffer, List.length_append, List.length_take, List.length_drop]
  omega

theorem take_fillBuffer (h : left ≤ buffer.length) :
    (fillBuffer buffer left input).take (left + input.length) = buffer.take left ++ input := by
  rw [fillBuffer, List.take_left']
  simp [Nat.min_eq_left h]

theorem left_eq (h : Fed ctx m) : (ctx.total0 &&& 0x3F).toNat = m.length % 64 := by
  have hmask : (0x3F : UInt32).toNat = 2 ^ 6 - 1 := rfl
  rw [UInt32.toNat_and, hmask, Nat.and_two_pow_sub_one_eq_mod, h.total]
  omega

theorem total_add (h : Fed ctx m) (input : List UInt8) :
    (ctx.total0 + UInt32.ofNat input.length).toNat = (m ++ input).length % 2 ^ 32 := by
  rw [UInt32.toNat_add, UInt32.toNat_ofNat', h.total, List.length_append]
  omega

theorem updateBlocks_fed (htotal : ctx.total0.toNat = m.length % 2 ^ 32)
    (hroom : ctx.buffer.length = 64)
    (hm : absorb Sha1.compress 64 Sha1.initial m =
      absorb Sha1.compress 64 ctx.state (ctx.buffer.take left ++ input))
    (hleft : left = 0 ∨ left + input.length < 64) : Fed (updateBlocks ctx left input) m := by
  have hle : left ≤ ctx.buffer.length := by omega
  have hfed : absorb Sha1.compress 64 Sha1.initial m =
      ((absorb sha1Process 64 ctx.state input).1,
        ctx.buffer.take left ++ (absorb sha1Process 64 ctx.state input).2) := by
    have hprocess : sha1Process = Sha1.compress := funext₂ sha1Process_eq
    rw [hm, hprocess]
    rcases hleft with rfl | hshort
    · rfl
    · have hlen : (ctx.buffer.take left ++ input).length < 64 := by
        simp only [List.length_append, List.length_take]
        omega
      rw [absorb_short hlen, absorb_short (by omega)]
  have hrest := length_absorb (f := Sha1.compress) (n := 64) (by decide) Sha1.initial m
  rw [hfed, List.length_append, List.length_take, Nat.min_eq_left hle] at hrest
  have hlt := Nat.mod_lt m.length (show 0 < 64 by decide)
  refine ⟨htotal, ?_, ?_, ?_⟩
  · rw [hfed, updateBlocks]
  · rw [hfed, ← hrest, updateBlocks]
    split
    next => exact take_fillBuffer hle
    next h0 =>
      rw [List.length_eq_zero_iff.mp (Nat.eq_zero_of_not_pos h0), List.append_nil]
      rfl
  · simp only [updateBlocks]
    split
    next => rw [length_fillBuffer (by omega), hroom]
    next => exact hroom

theorem Fed.update (h : Fed ctx m) (input : List UInt8) : Fed (sha1Update ctx input) (m ++ input) := by
  have hparts := absorb_parts (f := Sha1.compress) (n := 64) Sha1.initial m input
  rw [← h.state, ← h.buffer] at hparts
  have hlt := Nat.mod_lt m.length (show 0 < 64 by decide)
  have hroom := h.room
  unfold sha1Update
  rw [left_eq h]
  split
  next h0 =>
    rw [List.length_eq_zero_iff.mp h0, List.append_nil]
    exact h
  next =>
    dsimp only
    split
    next hfull =>
      -- the buffer is filled up and goes first
      have htake : (input.take (64 - m.length % 64)).length = 64 - m.length % 64 := by
        rw [List.length_take]
        omega
      have hlen : (fillBuffer ctx.buffer (m.length % 64) (input.take (64 - m.length % 64))).length =
          64 := by
        rw [length_fillBuffer (by omega), hroom]
      have hblock : fillBuffer ctx.buffer (m.length % 64) (input.take (64 - m.length % 64)) =
          ctx.buffer.take (m.length % 64) ++ input.take (64 - m.length % 64) := by
        rw [← take_fillBuffer (show m.length % 64 ≤ ctx.buffer.length by omega), htake,
          show m.length % 64 + (64 - m.length % 64) = 64 by omega]
        exact (List.take_of_length_le (by omega)).symm
      refine updateBlocks_fed (total_add h input) hlen ?_ (.inl rfl)
      rw [hparts, List.take_zero, List.nil_append, sha1Process_eq]
      rw [← absorb_block (by decide) hlen, hblock, List.append_assoc, List.take_append_drop]
    next hpart => exact updateBlocks_fed (total_add h input) hroom hparts (by omega)

theorem total1_first (buffer image : List UInt8) :
    (sha1Update (sha1Starts buffer) image).total1 = 0 := by
  have hcarry : ¬ (0 : UInt32) + UInt32.ofNat image.length < UInt32.ofNat image.length := by simp
  unfold sha1Update
  dsimp only [sha1Starts]
  rw [if_neg hcarry]
  split_ifs <;> rfl

theorem msglen_eq {total0 : UInt32} (htotal : total0.toNat = len) :
    wordBytes ((total0 >>> 29) ||| ((0 : UInt32) <<< 3)) ++ wordBytes (total0 <<< 3) =
      wordBytes (UInt32.ofNat (8 * len / 2 ^ 32)) ++ wordBytes (UInt32.ofNat (8 * len)) := by
  have hlen := total0.toNat_lt
  have hhigh : (total0 >>> 29) ||| ((0 : UInt32) <<< 3) = UInt32.ofNat (8 * len / 2 ^ 32) := by
    rw [UInt32.zero_shiftLeft, UInt32.or_zero, ← UInt32.toNat_inj, UInt32.toNat_shiftRight,
      UInt32.toNat_ofNat', htotal]
    simp only [UInt32.reduceToNat, Nat.shiftRight_eq_div_pow, Nat.reduceMod]
    omega
  have hlow : total0 <<< 3 = UInt32.ofNat (8 * len) := by
    rw [← UInt32.toNat_inj, UInt32.toNat_shiftLeft, UInt32.toNat_ofNat', htotal]
    simp only [UInt32.reduceToNat, Nat.shiftLeft_eq, Nat.reduceMod]
    omega
  rw [hhigh, hlow]

theorem padding_eq (len : Nat) :
    sha1Padding.take (if len % 64 < 56 then 56 - len % 64 else 120 - len % 64) =
      0x80 :: List.replicate ((119 - len % 64) % 64) 0 := by
  obtain ⟨n, hn, hle, heq⟩ : ∃ n,
      (if len % 64 < 56 then 56 - len % 64 else 120 - len % 64) = n + 1 ∧ n ≤ 63 ∧
        (119 - len % 64) % 64 = n := by
    split
    next => exact ⟨55 - len % 64, by omega, by omega, by omega⟩
    next => exact ⟨119 - len % 64, by omega, by omega, by omega⟩
  rw [hn, heq, sha1Padding, List.take_succ_cons, List.take_replicate, Nat.min_eq_left hle]

theorem sha1Calculate_eq (hb : buffer.length = 64) (hlen : image.length < 2 ^ 32) :
    sha1Calculate buffer image = Sha1.hash image := by
  have h := (fed_starts hb).update image
  rw [List.nil_append] at h
  have htotal : (sha1Update (sha1Starts buffer) image).total0.toNat = image.length := by
    rw [h.total, Nat.mod_eq_of_lt hlen]
  have hdone := (h.update (sha1Padding.take (if image.length % 64 < 56 then 56 - image.length % 64
    else 120 - image.length % 64))).update (wordBytes (UInt32.ofNat (8 * image.length / 2 ^ 32)) ++
      wordBytes (UInt32.ofNat (8 * image.length)))
  have hstate := hdone.state
  rw [padding_eq, List.append_assoc] at hstate
  rw [sha1Calculate, sha1Finish, left_eq h, total1_first, msglen_eq htotal, padding_eq]
  simp only [hstate, Sha1.hash, Sha1.State.bytes, Sha1.padding]

end BismarckPreloader.Secure
