import BismarckPreloader.Secure.Bignum

/-!
# The Montgomery product for any operands

`montgomery_mul` is called with operands that are not reduced. The sums each pass
forms are listed here as numbers, before the machine cuts them to 64 bits.
-/

namespace BismarckPreloader.Secure

/-- A carry, a product of two words and a word, as `acc_a` and `acc_b` add them. -/
def accSum (carry : UInt64) (x y w : UInt32) : Nat := carry.toNat + x.toNat * y.toNat + w.toNat

/-- The sums of the loop of `montgomery_mul_add_step`, two for each word. -/
def mulAddLoopSums (a d0 : UInt32) :
    Accs → List UInt32 → List UInt32 → List UInt32 → List Nat
  | acc, r :: rs, b :: bs, m :: ms =>
    let accA := (acc.a >>> 32) + a.toUInt64 * b.toUInt64 + r.toUInt64
    let accB := (acc.b >>> 32) + d0.toUInt64 * m.toUInt64 + accA.toUInt32.toUInt64
    accSum (acc.a >>> 32) a b r :: accSum (acc.b >>> 32) d0 m accA.toUInt32 ::
      mulAddLoopSums a d0 ⟨accA, accB⟩ rs bs ms
  | _, _, _, _ => []

/-- Every value one call of `montgomery_mul_add_step` gives to an accumulator. -/
def mulAddStepSums (key : RsaPublicKey) (result : List UInt32) (a : UInt32)
    (b : List UInt32) : List Nat :=
  match result, b, key.modulus with
  | r0 :: rs, b0 :: bs, m0 :: ms =>
    let accA := a.toUInt64 * b0.toUInt64 + r0.toUInt64
    let d0 := accA.toUInt32 * key.n0inv
    let accB := d0.toUInt64 * m0.toUInt64 + accA.toUInt32.toUInt64
    let words := mulAddLoop a d0 ⟨accA, accB⟩ rs bs ms
    accSum 0 a b0 r0 :: accSum 0 d0 m0 accA.toUInt32 ::
      mulAddLoopSums a d0 ⟨accA, accB⟩ rs bs ms ++
        [(words.2.a >>> 32).toNat + (words.2.b >>> 32).toNat]
  | _, _, _ => []

/-- The same for the passes of `montgomery_mul` that are left, from `result` on. -/
def montgomeryMulSums (key : RsaPublicKey) (b : List UInt32) : List UInt32 → List UInt32 → List Nat
  | _, [] => []
  | result, ai :: as => mulAddStepSums key result ai b ++
      montgomeryMulSums key b (montgomeryMulAddStep key result ai b) as

/-- Operands of any size below `R`, and a word `n0inv` that fits the modulus. An even
modulus has no such word. -/
structure MontgomeryOperands where
  key : RsaPublicKey
  a : List UInt32
  b : List UInt32
  a_length : a.length = key.len
  b_length : b.length = key.len
  n0inv_spec : 2 ^ 32 ∣ key.n * key.n0inv.toNat + 1

theorem toNat_high_lt (x : UInt64) : (x >>> 32).toNat < 2 ^ 32 := by
  have := x.toNat_lt
  rw [toNat_high]
  omega

theorem accSum_lt (x y w : UInt32) (hc : carry.toNat < 2 ^ 32) : accSum carry x y w < 2 ^ 64 := by
  have hx := x.toNat_lt
  have hy := y.toNat_lt
  have hw := w.toNat_lt
  have hxy : x.toNat * y.toNat ≤ (2 ^ 32 - 1) * (2 ^ 32 - 1) :=
    Nat.mul_le_mul (by omega) (by omega)
  unfold accSum
  omega

theorem mulAddLoopSums_lt (a d0 : UInt32) (acc : Accs) (rs bs ms : List UInt32) :
    ∀ v ∈ mulAddLoopSums a d0 acc rs bs ms, v < 2 ^ 64 := by
  induction rs generalizing acc bs ms with
  | nil => simp [mulAddLoopSums]
  | cons r rs ih =>
    cases bs with
    | nil => simp [mulAddLoopSums]
    | cons b bs =>
      cases ms with
      | nil => simp [mulAddLoopSums]
      | cons m ms =>
        simp only [mulAddLoopSums, List.forall_mem_cons]
        exact ⟨accSum_lt a b r (toNat_high_lt _), accSum_lt d0 m _ (toNat_high_lt _), ih _ bs ms⟩

theorem mulAddStepSums_lt (key : RsaPublicKey) (result : List UInt32) (a : UInt32)
    (b : List UInt32) : ∀ v ∈ mulAddStepSums key result a b, v < 2 ^ 64 := by
  unfold mulAddStepSums
  split
  next r0 rs b0 bs m0 ms _ =>
    simp only [List.forall_mem_append, List.forall_mem_cons]
    refine ⟨⟨accSum_lt _ _ _ (by decide), accSum_lt _ _ _ (by decide),
      mulAddLoopSums_lt _ _ _ _ _ _⟩, ?_, by simp⟩
    exact Nat.lt_trans (Nat.add_lt_add (toNat_high_lt _) (toNat_high_lt _)) (by decide)
  next => simp

theorem montgomeryMulSums_lt (key : RsaPublicKey) (b result as : List UInt32) :
    ∀ v ∈ montgomeryMulSums key b result as, v < 2 ^ 64 := by
  induction as generalizing result with
  | nil => simp [montgomeryMulSums]
  | cons ai as ih =>
    rw [montgomeryMulSums, List.forall_mem_append]
    exact ⟨mulAddStepSums_lt key result ai b, ih _⟩

/-- `montgomery_mul` on operands that need not be reduced: the result is a number of
`len` words, it is the product divided by `R` modulo `n`, and no accumulator is cut. -/
theorem montgomery_product (o : MontgomeryOperands) :
    wordsVal (montgomeryMul o.key o.a o.b) < o.key.R ∧
      wordsVal (montgomeryMul o.key o.a o.b) * o.key.R ≡
        wordsVal o.a * wordsVal o.b [MOD o.key.n] ∧
      ∀ v ∈ montgomeryMulSums o.key o.b (List.replicate o.key.len 0) o.a, v < 2 ^ 64 := by
  obtain ⟨hlen, hval⟩ := montgomeryMul_val o.n0inv_spec o.a_length o.b_length
  refine ⟨?_, hval, montgomeryMulSums_lt o.key o.b _ o.a⟩
  have hlt := wordsVal_lt (montgomeryMul o.key o.a o.b)
  rwa [hlen] at hlt

theorem montgomery_product_unreduced : ∃ o : MontgomeryOperands, o.key.modulus = [7] ∧
    o.a = [0xFFFFFFFF] ∧ o.b = [9] ∧
      wordsVal (montgomeryMul o.key o.a o.b) * o.key.R ≡
        wordsVal o.a * wordsVal o.b [MOD o.key.n] :=
  ⟨⟨⟨1, 0x49249249, [7], [2], 3, rfl, rfl, Nat.one_pos⟩, [0xFFFFFFFF], [9], rfl, rfl,
    by decide +kernel⟩, rfl, rfl, rfl, (montgomery_product _).2.1⟩

end BismarckPreloader.Secure
