import BismarckPreloader.Lib.Lfsr
import Mathlib.Data.BitVec

/-!
# The BCH-6 encoder in software

`bch6_ecc_512B_encode` stands in for the ECC engine: it feeds a sector and its
tag, most significant bit first, through a shift register of 78 bytes that hold
one bit each, and packs the register into ten bytes. After every byte the
register goes through six words of 13 bits, which changes nothing.

The bytes of the register are related to the bits of `Lfsr` by `ofBit`; that the
output completes a codeword is then the rule of that library.
-/

namespace BismarckPreloader.Bch6

open Lfsr Polynomial

def genPoly6b : List UInt8 :=
  [1, 0, 1, 1, 1, 1, 1, 0, 1, 0, 0, 0, 1, 1, 0, 1, 1, 0, 0, 1, 1, 1, 0, 1, 0, 0, 1, 1, 1, 0, 1, 1,
   0, 0, 0, 0, 1, 1, 1, 1, 0, 0, 1, 0, 0, 1, 1, 1, 0, 0, 0, 0, 1, 1, 0, 0, 1, 0, 0, 1, 0, 0, 1, 1,
   0, 0, 1, 1, 1, 1, 0, 0, 1, 1, 1, 1, 1, 1, 1]

def toBit (value : BitVec 16) (bth : Nat) : UInt8 := ⟨((value >>> bth) &&& 1#16).setWidth 8⟩

def shiftIn (r : List UInt8) (b : UInt8) : List UInt8 :=
  (List.range 78).map fun i =>
    if i = 0 then 0 ^^^ (genPoly6b.getD 0 0 &&& (b ^^^ r.getD 77 0))
    else r.getD (i - 1) 0 ^^^ (genPoly6b.getD i 0 &&& (b ^^^ r.getD 77 0))

def down (n : Nat) : List Nat := (List.range n).reverse

def synd (r0 : List UInt8) (i : Nat) : BitVec 16 :=
  (down 13).foldl (fun w j => w ||| (r0.getD (j + i * 13) 0).toBitVec.setWidth 16 <<< j) 0#16

def bch6EncodeEccByte (r : List UInt8) (input : UInt8) : List UInt8 :=
  let r0 := (down 8).foldl (fun r j => shiftIn r (toBit (input.toBitVec.setWidth 16) j)) r
  (List.range 6).flatMap fun i => (List.range 13).map fun j => toBit (synd r0 i) j

def eccByte (r : List UInt8) (n lo up : Nat) : UInt8 :=
  (down n).foldl (fun w j => w ||| ⟨(r.getD (j + lo) 0).toBitVec <<< (j + up)⟩) 0

def bch6Ecc512bEncode (_left : List UInt8) (inputBuf oob : Nat → UInt8) :
    List UInt8 × List UInt8 :=
  let r := List.replicate 78 0
  let r := (List.range 512).foldl (fun r i => bch6EncodeEccByte r (inputBuf i)) r
  let r := (List.range 6).foldl (fun r i => bch6EncodeEccByte r (oob i)) r
  ((List.range 9).map (fun i => eccByte r 8 ((8 - i) * 8 + 6) 0) ++ [eccByte r 6 0 2], r)

def ofBit (b : Bool) : UInt8 := if b then 1 else 0

theorem ofBit_xor (a b : Bool) : ofBit a ^^^ ofBit b = ofBit (a ^^ b) := by
  cases a <;> cases b <;> rfl

theorem ofBit_and (a b : Bool) : ofBit a &&& ofBit b = ofBit (a && b) := by
  cases a <;> cases b <;> rfl

theorem ofBit_toBitVec (b : Bool) : (ofBit b).toBitVec = (BitVec.ofBool b).setWidth 8 := by
  cases b <;> rfl

theorem toBit_eq (v : BitVec 16) (k : Nat) : toBit v k = ofBit (v.getLsbD k) := by
  apply UInt8.toBitVec_inj.mp
  rw [ofBit_toBitVec]
  change ((v >>> k) &&& 1#16).setWidth 8 = _
  rw [BitVec.and_one_eq_setWidth_ofBool_getLsbD, BitVec.getLsbD_ushiftRight, Nat.add_zero]
  cases v.getLsbD k <;> rfl

theorem getD_map_ofBit (r : List Bool) (i : Nat) :
    (r.map ofBit).getD i 0 = ofBit (r.getD i false) := by
  simp only [List.getD_eq_getElem?_getD, List.getElem?_map]
  cases r[i]? <;> rfl

def byteBits (b : UInt8) : List Bool := (down 8).map b.toBitVec.getLsbD

def bytesBits (bs : List UInt8) : List Bool := bs.flatMap byteBits

def pack (w : Nat) (f : Nat → Bool) (js : List Nat) : BitVec w :=
  js.foldl (fun v j => v ||| (BitVec.ofBool (f j)).setWidth w <<< j) 0#w

theorem getLsbD_pack_from (f : Nat → Bool) (js : List Nat) (v : BitVec w) (hk : k < w) :
    (js.foldl (fun v j => v ||| (BitVec.ofBool (f j)).setWidth w <<< j) v).getLsbD k =
      (v.getLsbD k || (decide (k ∈ js) && f k)) := by
  induction js generalizing v with
  | nil => simp
  | cons j js ih =>
    rw [List.foldl_cons, ih]
    have hbit : ((BitVec.ofBool (f j)).setWidth w <<< j).getLsbD k = (decide (k = j) && f k) := by
      rw [BitVec.getLsbD_shiftLeft, BitVec.getLsbD_setWidth, BitVec.getLsbD_ofBool]
      rcases Nat.lt_trichotomy k j with h | rfl | h
      · simp [h, Nat.ne_of_lt h]
      · simp [hk, Nat.zero_lt_of_lt hk]
      · have hne : k - j ≠ 0 := by omega
        simp [Nat.ne_of_gt h, hne]
    rw [BitVec.getLsbD_or, hbit]
    by_cases hkj : k = j
    · cases f k <;> simp [hkj]
    · simp [hkj]

theorem getLsbD_pack (f : Nat → Bool) (js : List Nat) (hk : k < w) :
    (pack w f js).getLsbD k = (decide (k ∈ js) && f k) := by
  rw [pack, getLsbD_pack_from f js _ hk]
  simp

-- ---------------------------------------------------------------------------
-- One byte through the register
-- ---------------------------------------------------------------------------

def generator : Generator := ⟨(genPoly6b.dropLast).map (· == 1)⟩

theorem generator_degree : generator.taps.length = 78 := by decide

theorem generator_tap : ∀ i < 78, genPoly6b.getD i 0 = ofBit (generator.taps.getD i false) := by
  decide +kernel

theorem range_map_getD (l : List α) (d : α) (h : l.length = n) :
    (List.range n).map (l.getD · d) = l := by
  subst h
  apply List.ext_getElem (by simp)
  intro i _ hi
  simp [hi]

theorem length_generator_shift (r : List Bool) (hr : r.length = 78) (b : Bool) :
    (generator.shift r b).length = 78 := by
  rw [length_shift (by rw [hr, generator_degree]) (by decide), generator_degree]

theorem shiftIn_map (r : List Bool) (hr : r.length = 78) (b : Bool) :
    shiftIn (r.map ofBit) (ofBit b) = (generator.shift r b).map ofBit := by
  have hlast : r.getLastD false = r.getD 77 false := by
    rw [List.getLastD_eq_getLast?, List.getLast?_eq_getElem?, hr, List.getD_eq_getElem?_getD]
  rw [← range_map_getD (generator.shift r b) false (length_generator_shift r hr b), List.map_map]
  apply List.map_congr_left
  intro i hi
  rw [List.mem_range] at hi
  rw [Function.comp_apply, getD_shift (by rw [hr, generator_degree]) (by rwa [generator_degree]),
    feedback, hlast]
  simp only [getD_map_ofBit, generator_tap i hi, generator_tap 0 (by decide), ofBit_xor, ofBit_and]
  split
  · rename_i h0
    subst h0
    exact ofBit_xor false _
  · rfl

theorem input_bit (input : UInt8) (j : Nat) :
    toBit (input.toBitVec.setWidth 16) j = ofBit (input.toBitVec.getLsbD j) := by
  rw [toBit_eq, BitVec.getLsbD_setWidth]
  rcases Nat.lt_or_ge j 16 with h | h
  · simp [h]
  · rw [BitVec.getLsbD_of_ge _ j (by omega), Bool.and_false]

theorem shiftIn_fold (input : UInt8) (js : List Nat) (r : List Bool) (hr : r.length = 78) :
    js.foldl (fun r j => shiftIn r (toBit (input.toBitVec.setWidth 16) j)) (r.map ofBit) =
      (generator.shiftAll r (js.map input.toBitVec.getLsbD)).map ofBit := by
  induction js generalizing r with
  | nil => rfl
  | cons j js ih =>
    rw [List.foldl_cons, input_bit, shiftIn_map r hr, ih _ (length_generator_shift r hr _)]
    rfl

theorem synd_map (q : List Bool) (i : Nat) :
    synd (q.map ofBit) i = pack 16 (fun j => q.getD (j + i * 13) false) (down 13) := by
  unfold synd pack
  congr 1
  funext w j
  dsimp only
  rw [getD_map_ofBit, ofBit_toBitVec]
  cases q.getD (j + i * 13) false <;> rfl

theorem regroup (q : List Bool) (hq : q.length = 78) :
    ((List.range 6).flatMap fun i => (List.range 13).map fun j => toBit (synd (q.map ofBit) i) j) =
      q.map ofBit := by
  have hbit : ∀ i, ((List.range 13).map fun j => toBit (synd (q.map ofBit) i) j) =
      (List.range 13).map fun j => ofBit (q.getD (j + i * 13) false) := by
    intro i
    apply List.map_congr_left
    intro j hj
    rw [List.mem_range] at hj
    rw [toBit_eq, synd_map, getLsbD_pack _ _ (by omega)]
    simp [down, hj]
  simp only [hbit]
  calc _ = (List.range 78).map fun k => ofBit (q.getD k false) := rfl
    _ = ((List.range 78).map (q.getD · false)).map ofBit := by rw [List.map_map]; rfl
    _ = q.map ofBit := by rw [range_map_getD q false hq]

theorem length_shiftAll_78 (r : List Bool) (hr : r.length = 78) (bs : List Bool) :
    (generator.shiftAll r bs).length = 78 := by
  rw [length_shiftAll (by rw [hr, generator_degree]) (by decide), generator_degree]

theorem encodeByte_map (r : List Bool) (hr : r.length = 78) (input : UInt8) :
    bch6EncodeEccByte (r.map ofBit) input =
      (generator.shiftAll r (byteBits input)).map ofBit := by
  unfold bch6EncodeEccByte
  rw [shiftIn_fold input (down 8) r hr]
  exact regroup _ (length_shiftAll_78 r hr _)

theorem encodeBytes_map (buf : Nat → UInt8) (is : List Nat) (r : List Bool) (hr : r.length = 78) :
    is.foldl (fun r i => bch6EncodeEccByte r (buf i)) (r.map ofBit) =
      (generator.shiftAll r (bytesBits (is.map buf))).map ofBit := by
  induction is generalizing r with
  | nil => rfl
  | cons i is ih =>
    rw [List.foldl_cons, encodeByte_map r hr, ih _ (length_shiftAll_78 r hr _)]
    simp only [bytesBits, List.map_cons, List.flatMap_cons, Generator.shiftAll, List.foldl_append]

-- ---------------------------------------------------------------------------
-- The ten bytes
-- ---------------------------------------------------------------------------

theorem eccByte_map (q : List Bool) (n lo up : Nat) :
    (eccByte (q.map ofBit) n lo up).toBitVec =
      pack 8 (fun k => q.getD (k - up + lo) false) ((down n).map (· + up)) := by
  unfold eccByte pack
  rw [List.foldl_map]
  suffices h : ∀ (js : List Nat) (v : UInt8),
      (js.foldl (fun w j => w ||| ⟨((q.map ofBit).getD (j + lo) 0).toBitVec <<< (j + up)⟩) v
        ).toBitVec =
      js.foldl (fun w j => w ||| (BitVec.ofBool (q.getD (j + up - up + lo) false)).setWidth 8 <<<
        (j + up)) v.toBitVec from h (down n) 0
  intro js
  induction js with
  | nil => exact fun _ => rfl
  | cons j js ih =>
    intro v
    rw [List.foldl_cons, List.foldl_cons, ih, getD_map_ofBit, ofBit_toBitVec, Nat.add_sub_cancel]
    rfl

theorem byteBits_eccByte (q : List Bool) (n lo up : Nat) :
    byteBits (eccByte (q.map ofBit) n lo up) =
      (down 8).map fun k => decide (k ∈ (down n).map (· + up)) && q.getD (k - up + lo) false := by
  apply List.map_congr_left
  intro k hk
  have hk : k < 8 := by simpa [down] using hk
  rw [eccByte_map, getLsbD_pack _ _ hk]

theorem bits_of_register (q : List Bool) (hq : q.length = 78) :
    bytesBits ((List.range 9).map (fun i => eccByte (q.map ofBit) 8 ((8 - i) * 8 + 6) 0) ++
      [eccByte (q.map ofBit) 6 0 2]) = q.reverse ++ [false, false] := by
  rw [bytesBits, List.flatMap_append, List.flatMap_map]
  simp only [List.flatMap_singleton, byteBits_eccByte]
  calc _ = (down 78).map (q.getD · false) ++ [false, false] := by
        simp [down, List.range, List.range.loop]
    _ = q.reverse ++ [false, false] := by
        rw [down, List.map_reverse, range_map_getD q false hq]

noncomputable def genPoly : (ZMod 2)[X] := lowPoly (genPoly6b.map (· == 1))

theorem genPoly_eq : genPoly = generator.poly := by
  have h : genPoly6b.map (· == 1) = generator.taps ++ [true] := by decide +kernel
  rw [genPoly, h, Generator.poly]

theorem bch6_encode_codeword (left : List UInt8) (inputBuf oob : Nat → UInt8) :
    genPoly.natDegree = 78 ∧
    (bch6Ecc512bEncode left inputBuf oob).1.length = 10 ∧
    (bytesBits (bch6Ecc512bEncode left inputBuf oob).1).drop 78 = [false, false] ∧
    genPoly ∣ msbPoly (bytesBits ((List.range 512).map inputBuf) ++
      bytesBits ((List.range 6).map oob) ++
      (bytesBits (bch6Ecc512bEncode left inputBuf oob).1).take 78) := by
  let message := bytesBits ((List.range 512).map inputBuf) ++ bytesBits ((List.range 6).map oob)
  let q := generator.shiftAll (List.replicate 78 false) message
  have hq : q.length = 78 := length_shiftAll_78 _ List.length_replicate _
  have hreg : (bch6Ecc512bEncode left inputBuf oob).2 = q.map ofBit := by
    have h0 : List.replicate 78 (0 : UInt8) = (List.replicate 78 false).map ofBit := rfl
    simp only [bch6Ecc512bEncode, q, message, Generator.shiftAll, List.foldl_append]
    rw [h0, encodeBytes_map _ _ _ List.length_replicate,
      encodeBytes_map _ _ _ (length_shiftAll_78 _ List.length_replicate _)]
    rfl
  have hbits : bytesBits (bch6Ecc512bEncode left inputBuf oob).1 = q.reverse ++ [false, false] := by
    rw [← bits_of_register q hq, ← hreg]
    rfl
  have hlen : q.reverse.length = 78 := by rw [List.length_reverse, hq]
  refine ⟨?_, rfl, ?_, ?_⟩
  · rw [genPoly_eq, natDegree_poly, generator_degree]
  · rw [hbits, List.drop_left' hlen]
  · rw [hbits, List.take_left' hlen, genPoly_eq]
    have h := dvd_codeword (g := generator) (by decide) message
    rwa [generator_degree] at h

end BismarckPreloader.Bch6
