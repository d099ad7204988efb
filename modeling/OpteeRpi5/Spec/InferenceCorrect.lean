import OpteeRpi5.Native.QaiTa

/-!
# The plain models and the XOR stream

Facts about `inference.c` that hold for every feature array: the models look at the
features below `QAI_FEATURE_COUNT` only, and the XOR stream touches its block only and
is its own inverse.

## Key results

- `inferModel_congr`: the features a model depends on
- `qaiXorCrypt_apply`: every byte after the XOR stream
- `qaiXorCrypt_qaiXorCrypt`: decryption after encryption
-/

namespace OpteeRpi5.Spec

open OpteeRpi5.Native

/-! ## Models -/

/-- The dispatch on the model id of `cmd_infer_plain` and `cmd_infer_protected`. -/
def inferModel (modelId : UInt32) (x : Nat → Int32) (n : UInt32) : Option QaiOutput :=
  if modelId = qaiModelBaseline then some (qaiInferBaseline x n)
  else if modelId = qaiModelTinyml then some (qaiInferTinyml x n)
  else if modelId = qaiModelQai then some (qaiInferQai x n)
  else none

/-- The switch of the plain command. -/
theorem inferPlainSwitch_eq (modelId : UInt32) (inp : Buf) :
    inferPlainSwitch modelId inp = inferModel modelId (inputFeatures inp) (inp.le32 0) := (rfl)

/-- The switch of the protected command makes the same choice. -/
theorem inferProtectedSwitch_eq (modelId : UInt32) (inp : Buf) :
    inferProtectedSwitch modelId inp = inferModel modelId (inputFeatures inp) (inp.le32 0) :=
  (rfl)

theorem featureLim_le_toNat (n : UInt32) : featureLim n ≤ n.toNat := by
  unfold featureLim
  split <;> omega

/-- No more features are used than there are weights. -/
theorem featureLim_le_count (n : UInt32) : featureLim n ≤ qaiFeatureCount := by
  unfold featureLim
  split <;> omega

/-- A model depends on the features below `featureLim n` only. -/
theorem inferModel_congr (modelId : UInt32) {x x' : Nat → Int32} {n : UInt32}
    (h : ∀ i < featureLim n, x i = x' i) : inferModel modelId x n = inferModel modelId x' n := by
  have hbase : qaiInferBaseline x n = qaiInferBaseline x' n := by
    unfold qaiInferBaseline
    rw [Loop.fold_congr (fun i hi => by funext acc; rw [h i hi])]
  have htiny : qaiInferTinyml x n = qaiInferTinyml x' n := by
    unfold qaiInferTinyml
    rw [Loop.fold_congr (fun i hi => by funext acc; rw [h i hi])]
  have hqai : qaiInferQai x n = qaiInferQai x' n := by
    -- the partner of a feature on the ring is below the limit as well
    have hnext : ∀ i < featureLim n, (i + 1) % featureLim n < featureLim n :=
      fun i hi => Nat.mod_lt _ (by omega)
    unfold qaiInferQai
    simp only []
    rw [Loop.fold_congr (f := fun i acc => acc + (qaiTheta.getD i 0).toInt64 * (x i).toInt64)
        (fun i hi => by funext acc; rw [h i hi]),
      Loop.fold_congr (f := fun i acc => acc + (qaiGamma.getD i 0).toInt64 * (x i).toInt64 *
          (x ((i + 1) % featureLim n)).toInt64)
        (fun i hi => by funext acc; rw [h i hi, h _ (hnext i hi)])]
  simp only [inferModel, hbase, htiny, hqai]

/-! ## The XOR stream -/

/-- Every byte after `qai_xor_crypt(buf + off, len)`. -/
theorem qaiXorCrypt_apply (buf : Buf) (off len i : Nat) :
    qaiXorCrypt buf off len i =
      if off ≤ i ∧ i < off + len then
        buf i ^^^ qaiProtKey.getD ((i - off) % qaiProtKeyLen) 0
      else buf i := by
  -- after `k` iterations exactly the first `k` bytes of the block have been changed
  apply Loop.fold_inv (fun k (b : Buf) => b i = if off ≤ i ∧ i < off + k then
    buf i ^^^ qaiProtKey.getD ((i - off) % qaiProtKeyLen) 0 else buf i)
  · rw [if_neg (by omega)]
  · intro k b hk h
    by_cases hi : i = off + k
    · rw [if_neg (by omega)] at h
      rw [if_pos (by omega), hi, Function.update_self, ← hi, h, hi, Nat.add_sub_cancel_left]
    · rw [Function.update_of_ne hi, h]
      by_cases hin : off ≤ i ∧ i < off + k
      · rw [if_pos hin, if_pos (by omega)]
      · rw [if_neg hin, if_neg (by omega)]

/-- The XOR stream is its own inverse. -/
theorem qaiXorCrypt_qaiXorCrypt (buf : Buf) (off len : Nat) :
    qaiXorCrypt (qaiXorCrypt buf off len) off len = buf := by
  funext i
  rw [qaiXorCrypt_apply, qaiXorCrypt_apply]
  split
  · rw [UInt8.xor_assoc, UInt8.xor_self, UInt8.xor_zero]
  · rfl

end OpteeRpi5.Spec
