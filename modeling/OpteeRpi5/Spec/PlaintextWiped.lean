import OpteeRpi5.Spec.Service

/-!
# What the protected command leaves on its stack

`cmd_infer_protected` decrypts the features in `pin`, copies them to `in`, and wipes both
before it writes the output. An unknown model id takes the `default:` label of the
dispatch, which returns before the wipe: the decrypted features are still in both
buffers.

## Key results

- `wiped_iff`: the buffers are wiped if and only if the model id is known
- `unknown_model_leaves_plaintext`: a request that leaves its features behind
-/

namespace OpteeRpi5.Spec

open OpteeRpi5.Native

variable {D : Type}

/-- Both local buffers hold zero bytes only. -/
structure Wiped (t : Ta D) : Prop where
  pin : ∀ i < sizeofQaiProtectedInput, t.pin i = 0
  inp : ∀ i < sizeofQaiInput, t.inp i = 0

/-- The model ids that the dispatch knows. -/
def KnownModel (modelId : UInt32) : Prop :=
  modelId = qaiModelBaseline ∨ modelId = qaiModelTinyml ∨ modelId = qaiModelQai

instance (modelId : UInt32) : Decidable (KnownModel modelId) :=
  inferInstanceAs (Decidable (_ ∨ _))

/-- The switch has a case for each of the three models. -/
theorem inferModel_isSome_iff (modelId : UInt32) (x : Nat → Int32) (n : UInt32) :
    (inferModel modelId x n).isSome ↔ KnownModel modelId := by
  unfold inferModel KnownModel
  split
  · next h => simp [h]
  · split
    · next h => simp [h]
    · split
      · next h => simp [h]
      · next h₁ h₂ h₃ => simp [h₁, h₂, h₃]

/-- Writing the output does not touch the local buffers. -/
private theorem writeOutput_locals (out : QaiOutput) (t : Ta D) :
    ((writeOutput 1 out).run t).2.pin = t.pin ∧ ((writeOutput 1 out).run t).2.inp = t.inp := by
  simp only [writeOutput, StateM.run_bind, run_memrefSize, StateM.run_ite]
  split
  · exact ⟨rfl, rfl⟩
  · exact ⟨rfl, rfl⟩

/-- At the dispatch the first word of `in` is the number of features, which is not zero. -/
private theorem not_wiped_decrypted {t : Ta D} (h : Decrypts t) : ¬ Wiped (decrypted t) := by
  intro hwiped
  have hzero : (decrypted t).inp.le32 0 = 0 := Buf.le32_eq_zero fun k hk => by
    rw [Nat.zero_add]
    exact hwiped.inp k (by simp only [sizeofQaiInput]; omega)
  have hword : (decrypted t).inp.le32 0 = (bytesOf t 0).le32 0 := by
    simp only [decrypted]
    rw [le32_inpPlain_zero, le32_pinPlain_header t _ (by decide)]
  exact h.features (Or.inl (hword.symm.trans hzero))

/-- On every return after the decryption, whatever the sizes of the memrefs and whatever
    the output, both buffers are wiped if and only if the model id is a known one. -/
theorem wiped_iff (t : Ta D) (h : Decrypts t) :
    Wiped ((cmdInferProtected expMemrefs).run t).2 ↔ KnownModel ((bytesOf t 0).le32 4) := by
  rw [run_cmdInferProtected h, ← inferModel_isSome_iff ((bytesOf t 0).le32 4)
    (protectedFeatures (bytesOf t 0) ((bytesOf t 0).le32 0)) ((bytesOf t 0).le32 0)]
  cases inferModel ((bytesOf t 0).le32 4)
      (protectedFeatures (bytesOf t 0) ((bytesOf t 0).le32 0)) ((bytesOf t 0).le32 0) with
  | none =>
    -- the `default:` label: the state at the dispatch is the one at the return
    exact iff_of_false (not_wiped_decrypted h) (by decide)
  | some out =>
    refine iff_of_true ?_ rfl
    simp only [StateM.run_bind, run_modifyInp, run_modifyPin]
    obtain ⟨hpin, hinp⟩ := writeOutput_locals out { decrypted t with
      inp := (decrypted t).inp.fill 0 sizeofQaiInput 0
      pin := (decrypted t).pin.fill 0 sizeofQaiProtectedInput 0 }
    constructor
    · intro i hi
      rw [hpin]
      exact Buf.fill_inside _ _ ⟨Nat.zero_le i, by omega⟩
    · intro i hi
      rw [hinp]
      exact Buf.fill_inside _ _ ⟨Nat.zero_le i, by omega⟩

/-- A call with one encrypted feature, 42, for a model id. -/
def oneFeatureCall (modelId : UInt32) : Ta Unit where
  kern := ⟨fun _ _ => (), fun _ _ => (), 8, 256, 0, []⟩
  params := fun p =>
    match p with
    | 0 => ⟨⟨Buf.ofWords [1, modelId, 0x2d49417b], sizeofQaiProtectedInput⟩, 0, 0⟩
    | 1 => ⟨⟨fun _ => 0, sizeofQaiOutput⟩, 0, 0⟩
    | _ => ⟨⟨fun _ => 0, 0⟩, 0, 0⟩
  pred := fun _ => 0
  pin := fun _ => 0
  inp := fun _ => 0
  t0 := ⟨0, 0⟩
  t1 := ⟨0, 0⟩
  log := []

/-- The call gets as far as the decryption. -/
private theorem decrypts_oneFeatureCall (modelId : UInt32) : Decrypts (oneFeatureCall modelId) := by
  have hword : (bytesOf (oneFeatureCall modelId) 0).le32 0 = 1 :=
    Buf.le32_ofWords [1, modelId, 0x2d49417b] 0
  refine ⟨Nat.le_refl _, ?_⟩
  rw [hword]
  decide

/-- With a known model the plaintext is wiped. -/
theorem wiped_oneFeatureCall :
    Wiped ((cmdInferProtected expMemrefs).run (oneFeatureCall qaiModelBaseline)).2 := by
  refine (wiped_iff _ (decrypts_oneFeatureCall qaiModelBaseline)).mpr (Or.inl ?_)
  exact Buf.le32_ofWords [1, qaiModelBaseline, 0x2d49417b] 1

/-- With model id 7 the call fails, and the feature is in both buffers. -/
theorem unknown_model_leaves_plaintext :
    ((cmdInferProtected expMemrefs).run (oneFeatureCall 7)).1 = .badParameters ∧
    ((cmdInferProtected expMemrefs).run (oneFeatureCall 7)).2.pin.le32 offQaiProtectedCipher =
      42 ∧
    ((cmdInferProtected expMemrefs).run (oneFeatureCall 7)).2.inp.le32 offQaiInputFeatures = 42 ∧
    ¬ Wiped ((cmdInferProtected expMemrefs).run (oneFeatureCall 7)).2 := by
  refine ⟨by decide, by decide, by decide, ?_⟩
  intro hwiped
  have hbyte : ((cmdInferProtected expMemrefs).run (oneFeatureCall 7)).2.pin 8 = 42 := by decide
  rw [hwiped.pin 8 (by decide)] at hbyte
  exact absurd hbyte (by decide)

end OpteeRpi5.Spec
