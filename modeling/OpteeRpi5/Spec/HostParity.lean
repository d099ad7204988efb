import OpteeRpi5.Native.HostMain
import OpteeRpi5.Spec.Service

/-!
# The host and the TA agree

The client of the normal world has its own copies of the model parameters, of the key
and of the XOR stream. Its reference inference computes what the TA kernels compute,
for every feature array and with all wrap-around, and a message it encrypts is answered
like the plain one.

## Key results

- `reeInfer_eq_ta`: `ree_infer` and the TA kernels give the same output
- `protected_eq_plain`: the protected request is answered like the plain one
-/

namespace OpteeRpi5.Spec

open OpteeRpi5.Native

/-! ## Reference inference -/

/-- The baseline of the host is the TA's: narrowing at the end commutes with the sum. -/
theorem baseline_narrow (x : Nat → Int32) (lim : Nat) :
    (Loop.fold lim (fun i acc => acc + (reeBaselineW.getD i 0).toInt64 * (x i).toInt64)
      (0 : Int64)).toInt32 =
    Loop.fold lim (fun i score => score + qaiBaselineW.getD i 0 * x i) qaiBaselineBias := by
  refine Loop.fold_rel (fun _ (acc : Int64) (score : Int32) => acc.toInt32 = score) rfl ?_
  intro i acc score _ h
  rw [Int64.toInt32_add, Int64.toInt32_mul, Int32.toInt32_toInt64, Int32.toInt32_toInt64, h]
  rfl

/-- `ree_infer` and the TA kernels agree on score, prediction, confidence and model id,
    on all inputs, those on which sums and products wrap included. -/
theorem reeInfer_eq_ta (x : Nat → Int32) (n : UInt32) :
    reeInfer qaiModelBaseline x n = qaiInferBaseline x n ∧
    reeInfer qaiModelTinyml x n = qaiInferTinyml x n ∧
    reeInfer qaiModelQai x n = qaiInferQai x n := by
  refine ⟨?_, ?_, ?_⟩
  · simp only [reeInfer, if_true, baseline_narrow]
    rfl
  · rfl
  · rfl

/-! ## The protected message -/

/-- The models the client can ask for. -/
inductive QaiModel where
  | baseline
  | tinyml
  | qai

/-- The model id. -/
def QaiModel.id : QaiModel → UInt32
  | baseline => qaiModelBaseline
  | tinyml => qaiModelTinyml
  | qai => qaiModelQai

/-- An input with as many features as `struct qai_input` can hold, and at least one. -/
structure HostInput extends QaiInput where
  nonempty : numFeatures ≠ 0
  bounded : numFeatures.toNat ≤ qaiMaxFeatures

/-- Client and TA encrypt with the same key stream. -/
theorem xorCrypt_eq (buf : Buf) (off len : Nat) :
    xorCrypt buf off len = qaiXorCrypt buf off len := by
  have hkey : gProtKey = qaiProtKey := by decide
  rw [xorCrypt, qaiXorCrypt, hkey]

/-- The words of a plain message. -/
theorem le32_toBuf_zero (inp : QaiInput) : inp.toBuf.le32 0 = inp.numFeatures :=
  Buf.le32_ofWords _ 0

/-- The TA reads the features that the client has written. -/
theorem inputFeatures_toBuf (inp : QaiInput) {i : Nat} (hi : i < qaiMaxFeatures) :
    inputFeatures inp.toBuf i = inp.features i := by
  have hoff : offQaiInputFeatures + 4 * i = 4 * (i + 1) := by
    rw [offQaiInputFeatures]
    omega
  rw [inputFeatures, hoff, QaiInput.toBuf, Buf.le32_ofWords, List.getD_cons_succ,
    List.getD_eq_getElem?_getD, List.getElem?_map, List.getElem?_range hi]
  exact Int32.toInt32_toUInt32 (inp.features i)

/-- The message before encryption. -/
private def plainMessage (model : UInt32) (inp : QaiInput) : Buf :=
  ((Buf.putLe32 (fun _ => 0) 0 inp.numFeatures).putLe32 4 model).copy offQaiProtectedCipher
    inp.toBuf offQaiInputFeatures (inp.numFeatures.toNat * 4)

/-- A protected message is the plain one with its features encrypted. -/
private theorem protectedMessage_eq (model : UInt32) (inp : QaiInput) :
    protectedMessage model inp = qaiXorCrypt (plainMessage model inp) offQaiProtectedCipher
      (inp.numFeatures.toNat * 4) := by
  rw [protectedMessage, xorCrypt_eq]
  rfl

/-- Encryption starts after the header. -/
private theorem le32_protectedMessage_header (model : UInt32) (inp : QaiInput) {i : Nat}
    (hi : i + 4 ≤ 8) :
    (protectedMessage model inp).le32 i = (plainMessage model inp).le32 i := by
  rw [protectedMessage_eq]
  apply Buf.le32_congr
  intro k hk
  rw [qaiXorCrypt_apply, if_neg (by rw [offQaiProtectedCipher]; omega)]

/-- The count is not encrypted. -/
private theorem le32_protectedMessage_zero (model : UInt32) (inp : QaiInput) :
    (protectedMessage model inp).le32 0 = inp.numFeatures := by
  rw [le32_protectedMessage_header model inp (by omega), plainMessage,
    Buf.le32_copy_outside _ _ (Or.inl (by decide)),
    Buf.le32_putLe32_outside _ _ (Or.inl (by omega)), Buf.le32_putLe32]

/-- Neither is the model. -/
private theorem le32_protectedMessage_four (model : UInt32) (inp : QaiInput) :
    (protectedMessage model inp).le32 4 = model := by
  rw [le32_protectedMessage_header model inp (by omega), plainMessage,
    Buf.le32_copy_outside _ _ (Or.inl (by decide)), Buf.le32_putLe32]

/-- The TA decrypts the features the host has encrypted. -/
private theorem protectedFeatures_message (model : UInt32) (inp : HostInput) {i : Nat}
    (hi : i < inp.numFeatures.toNat) :
    protectedFeatures (protectedMessage model inp.toQaiInput) inp.numFeatures i =
      inp.features i := by
  have hbound := inp.bounded
  have hlen : (inp.numFeatures * 4).toNat = inp.numFeatures.toNat * 4 :=
    UInt32.toNat_mul_of_le hbound (Nat.le_refl 4) (by decide)
  rw [protectedFeatures, hlen, protectedMessage_eq, qaiXorCrypt_qaiXorCrypt, plainMessage,
    Buf.le32_copy_inside _ _ (by omega)]
  exact inputFeatures_toBuf inp.toQaiInput (lt_of_lt_of_le hi hbound)

/-! ## Answers -/

section Answers

variable {D : Type} [RatCast D] [Add D] [Sub D] [Mul D] [Neg D] [Div D] [LT D] [DecidableLT D]
  [FloatConv D]

omit [RatCast D] [Add D] [Sub D] [Mul D] [Neg D] [Div D] [LT D] [DecidableLT D]
  [FloatConv D] in
/-- Both modes pass the same output memref. -/
private theorem teeInfer_params_one (model : UInt32) (protectedMode : Bool) (inp : QaiInput)
    (out : Memref) : (teeInfer model protectedMode inp out).params 1 = ⟨out, 0, 0⟩ := (rfl)

/-- The plain request is answered with the output of the model. -/
theorem answer_plain (m : QaiModel) (inp : HostInput) (out : Memref)
    (rng elapsed : UInt32) :
    let req := teeInfer m.id false inp.toQaiInput out
    answer D req rng elapsed =
      outputAnswer req.params (inferModel m.id inp.features inp.numFeatures) := by
  intro req
  have hplain : answer D req rng elapsed = plainAnswer expMemrefs m.id req.params := by
    cases m with
    | baseline => exact answer_inferBaseline rng elapsed rfl
    | tinyml => exact answer_inferTinyml rng elapsed rfl
    | qai => exact answer_inferQai rng elapsed rfl
  have hparam : req.params 0 = ⟨⟨inp.toBuf, sizeofQaiInput⟩, 0, 0⟩ := rfl
  have hn : ¬ (inp.numFeatures = 0 ∨ inp.numFeatures.toNat > qaiMaxFeatures) := by
    rw [not_or, Nat.not_lt]
    exact ⟨inp.nonempty, inp.bounded⟩
  -- the model reads features below the count only, and those are in the message
  have hmodel : inferModel m.id (inputFeatures inp.toBuf) inp.numFeatures =
      inferModel m.id inp.features inp.numFeatures := by
    apply inferModel_congr
    intro i hi
    have hlim := featureLim_le_toNat inp.numFeatures
    exact inputFeatures_toBuf inp.toQaiInput (lt_of_lt_of_le hi (hlim.trans inp.bounded))
  rw [hplain, plainAnswer]
  simp only [hparam, le32_toBuf_zero, hmodel, if_neg hn, ne_eq, not_true_eq_false, if_false,
    Nat.lt_irrefl]

/-- The protected request is answered with the output of the model. -/
theorem answer_protected (m : QaiModel) (inp : HostInput) (out : Memref)
    (rng elapsed : UInt32) :
    let req := teeInfer m.id true inp.toQaiInput out
    answer D req rng elapsed =
      outputAnswer req.params (inferModel m.id inp.features inp.numFeatures) := by
  intro req
  have hprotected : answer D req rng elapsed = protectedAnswer expMemrefs req.params :=
    answer_inferProtected rng elapsed rfl
  have hparam : req.params 0 =
      ⟨⟨protectedMessage m.id inp.toQaiInput, sizeofQaiProtectedInput⟩, 0, 0⟩ := rfl
  have hn : ¬ (inp.numFeatures = 0 ∨ inp.numFeatures.toNat > qaiMaxFeatures) := by
    rw [not_or, Nat.not_lt]
    exact ⟨inp.nonempty, inp.bounded⟩
  have hmodel : inferModel m.id (protectedFeatures (protectedMessage m.id inp.toQaiInput)
      inp.numFeatures) inp.numFeatures = inferModel m.id inp.features inp.numFeatures := by
    apply inferModel_congr
    intro i hi
    exact protectedFeatures_message m.id inp (lt_of_lt_of_le hi (featureLim_le_toNat _))
  rw [hprotected, protectedAnswer]
  simp only [hparam, le32_protectedMessage_zero, le32_protectedMessage_four, hmodel, if_neg hn,
    ne_eq, not_true_eq_false, if_false, Nat.lt_irrefl]

/-- The protected path equals the plain path: whatever the states of the instances and
    the output memref, both requests end with the same result code and leave the same
    bytes and size in the output memref. -/
theorem protected_eq_plain (st st' : Statics D) (stk stk' : Stack D) (m : QaiModel)
    (inp : HostInput) (out : Memref) :
    (invoke st stk (teeInfer m.id true inp.toQaiInput out)).1 =
      (invoke st' stk' (teeInfer m.id false inp.toQaiInput out)).1 ∧
    ((invoke st stk (teeInfer m.id true inp.toQaiInput out)).2.params 1).memref =
      ((invoke st' stk' (teeInfer m.id false inp.toQaiInput out)).2.params 1).memref := by
  have h := invoke_serves st stk (teeInfer m.id true inp.toQaiInput out)
  have h' := invoke_serves st' stk' (teeInfer m.id false inp.toQaiInput out)
  rw [answer_protected] at h
  rw [answer_plain] at h'
  have hout : (teeInfer m.id false inp.toQaiInput out).params 1 =
      (teeInfer m.id true inp.toQaiInput out).params 1 := by
    rw [teeInfer_params_one, teeInfer_params_one]
  rw [outputAnswer_congr hout] at h'
  refine ⟨h.result.trans h'.result.symm, ?_⟩
  rw [h.params, h'.params]
  exact congrArg TeeParam.memref (Answer.params_congr _ hout.symm)

end Answers

end OpteeRpi5.Spec
