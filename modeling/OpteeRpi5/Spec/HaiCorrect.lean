import OpteeRpi5.Native.QaiTa
import OpteeRpi5.Spec.KernelBlockCorrect

/-!
# The HAI rows

`qai_hai_infer` classifies every row of the input memref `reps` times over and leaves
the decisions in `pred`.

## Key results

- `haiInfer_reject`: a call that fails a check changes nothing
- `haiInfer_run`: the first `n` entries of `pred` are the decisions on the `n` rows
-/

namespace OpteeRpi5.Spec

open OpteeRpi5.Native

variable {D : Type}

/-- The decision of an HAI model on one row. -/
def haiDecide (model : UInt32) (x : Nat → Int32) : UInt8 :=
  if model = qaiHaiModelTinyml then haiTinymlOne x else haiPairwiseFakeOne x

/-- The decision depends on the features of the row only. -/
theorem haiDecide_congr (model : UInt32) {x y : Nat → Int32}
    (h : ∀ k < qaiHaiFeat, x k = y k) : haiDecide model x = haiDecide model y := by
  have hlinear : ∀ (w : List Int32) (acc : Int64),
      Loop.fold qaiHaiFeat (fun i acc => acc + (w.getD i 0).toInt64 * (x i).toInt64) acc =
        Loop.fold qaiHaiFeat (fun i acc => acc + (w.getD i 0).toInt64 * (y i).toInt64) acc :=
    fun w acc => Loop.fold_congr (fun i hi => by rw [h i hi]) acc
  have hpairs : ∀ acc : Int64,
      Loop.fold qaiHaiFeat (fun i acc => acc + ((haiPairwiseFakeGamma.getD i 0).toInt64 *
        ((x i).toInt64 * (x ((i + 1) % qaiHaiFeat)).toInt64)) / haiS) acc =
      Loop.fold qaiHaiFeat (fun i acc => acc + ((haiPairwiseFakeGamma.getD i 0).toInt64 *
        ((y i).toInt64 * (y ((i + 1) % qaiHaiFeat)).toInt64)) / haiS) acc :=
    fun acc => Loop.fold_congr (fun i hi => by
      rw [h i hi, h _ (Nat.mod_lt _ (by decide))]) acc
  simp only [haiDecide, haiTinymlOne, haiPairwiseFakeOne, hlinear, hpairs]

/-- Row `i` of the features at byte offset `rows`. -/
def haiRow (b : Buf) (rows i : Nat) : Nat → Int32 :=
  fun k => (b.le32 (rows + 4 * (i * qaiHaiFeat) + 4 * k)).toInt32

/-- What a run of the row loops may have done by any point: only `pred` and the log
    have changed, and the accesses are to the first `n` rows. -/
structure HaiFrame (rows n : Nat) (t₀ t : Ta D) : Prop where
  rest : { t with pred := t₀.pred, log := t₀.log } = t₀
  log : ∀ a ∈ t.log, a ∈ t₀.log ∨ ∃ i < n, a = .writePred i ∨
    ∃ j < 4 * qaiHaiFeat, a = .load 0 (rows + 4 * (i * qaiHaiFeat) + j)

theorem HaiFrame.refl (rows n : Nat) (t : Ta D) : HaiFrame rows n t t :=
  ⟨rfl, fun _ ha => Or.inl ha⟩

/-- The row loop does not touch the state of the kernel. -/
theorem HaiFrame.kern {rows n : Nat} {t₀ t : Ta D} (h : HaiFrame rows n t₀ t) :
    t.kern = t₀.kern := by
  rw [← h.rest]

/-- It keeps the memory references. -/
theorem HaiFrame.params {rows n : Nat} {t₀ t : Ta D} (h : HaiFrame rows n t₀ t) :
    t.params = t₀.params := by
  rw [← h.rest]

theorem HaiFrame.clock {rows n : Nat} {t₀ t : Ta D} (h : HaiFrame rows n t₀ t) :
    t.t0 = t₀.t0 ∧ t.t1 = t₀.t1 := by
  rw [← h.rest]
  exact ⟨rfl, rfl⟩

/-- It does not write to the input. -/
theorem HaiFrame.bytesOf_zero {rows n : Nat} {t₀ t : Ta D} (h : HaiFrame rows n t₀ t) :
    bytesOf t 0 = bytesOf t₀ 0 := by
  rw [bytesOf, h.params, bytesOf]

/-- Row offsets do not wrap. -/
private theorem haiRowOff {i : Nat} (hi : i < 32) :
    (UInt32.ofNat i * UInt32.ofNat qaiHaiFeat).toNat = i * qaiHaiFeat := by
  simp only [UInt32.toNat_mul, UInt32.toNat_ofNat', qaiHaiFeat]
  omega

/-- One row: its prediction is stored, and its features are accessed. -/
theorem run_haiInferRow (model : UInt32) (rows : Nat) {i : Nat} (hi : i < 32) (t : Ta D) :
    ((haiInferRow model rows i).run t).2 = { t with
      pred := Function.update t.pred i (haiDecide model (haiRow (bytesOf t 0) rows i))
      log := .writePred i :: ((List.range (4 * qaiHaiFeat)).map (fun j =>
        .load 0 (rows + 4 * (i * qaiHaiFeat) + j)) ++ t.log) } := by
  have hx : (fun k => (Buf.le32 (fun j => (t.params 0).memref.buffer
      (rows + 4 * (i * qaiHaiFeat) + j)) (4 * k)).toInt32) = haiRow (bytesOf t 0) rows i := by
    funext k
    rw [haiRow]
    congr 1
  simp only [haiInferRow, StateM.run_bind, run_loadBytes, StateM.run_ite, run_writePred,
    haiRowOff hi, hx]
  unfold haiDecide
  split
  · rfl
  · rfl

/-- One row. -/
private theorem haiInferRow_frame {model : UInt32} {rows n i : Nat} {t₀ t : Ta D}
    (h : HaiFrame rows n t₀ t) (hn : n ≤ 32) (hi : i < n) :
    HaiFrame rows n t₀ ((haiInferRow model rows i).run t).2 := by
  rw [run_haiInferRow model rows (by omega)]
  refine ⟨h.rest, ?_⟩
  intro a ha
  simp only [List.mem_cons, List.mem_append, List.mem_map, List.mem_range] at ha
  rcases ha with rfl | ⟨j, hj, rfl⟩ | ha
  · exact Or.inr ⟨i, hi, Or.inl rfl⟩
  · exact Or.inr ⟨i, hi, Or.inr ⟨j, hj, rfl⟩⟩
  · exact h.log a ha

/-- The loop over the rows. -/
private theorem haiInferRows_inv (model : UInt32) {rows n : Nat} {t₀ t : Ta D} (hn : n ≤ 32)
    (h : HaiFrame rows n t₀ t) :
    let t' := ((Loop.up n (fun i _ => haiInferRow model rows i) ()).run t).2
    HaiFrame rows n t₀ t' ∧
      ∀ i < n, t'.pred i = haiDecide model (haiRow (bytesOf t₀ 0) rows i) := by
  apply Loop.up_inv (fun k (_ : Unit) s => HaiFrame rows n t₀ s ∧
    ∀ i < k, s.pred i = haiDecide model (haiRow (bytesOf t₀ 0) rows i))
  · exact ⟨h, fun i hi => by omega⟩
  · intro k _ s hk hs
    refine ⟨haiInferRow_frame hs.1 hn hk, ?_⟩
    intro i hi
    rw [run_haiInferRow model rows (by omega), hs.1.bytesOf_zero]
    by_cases hik : i = k
    · subst hik
      exact Function.update_self i _ _
    · exact (Function.update_of_ne hik _ _).trans (hs.2 i (by omega))

/-- The row loops, run at least once. -/
private theorem haiInferReps_inv (model : UInt32) (rows : Nat) {n reps : Nat} (t : Ta D)
    (hn : n ≤ 32) (hreps : 0 < reps) :
    let t' := ((Loop.up reps (fun _ _ =>
      Loop.up n (fun i _ => haiInferRow model rows i) ()) ()).run t).2
    HaiFrame rows n t t' ∧
      ∀ i < n, t'.pred i = haiDecide model (haiRow (bytesOf t 0) rows i) := by
  have h := Loop.up_inv (n := reps) (a := ()) (s := t) (fun k (_ : Unit) s => HaiFrame rows n t s ∧
    (0 < k → ∀ i < n, s.pred i = haiDecide model (haiRow (bytesOf t 0) rows i)))
    ⟨HaiFrame.refl rows n t, fun h => by omega⟩
    (fun k _ s _ hs => by
      obtain ⟨hf, hp⟩ := haiInferRows_inv model hn hs.1
      exact ⟨hf, fun _ => hp⟩)
  exact ⟨h.1, h.2 hreps⟩

/-- The checks of `qai_hai_infer`. -/
structure HaiArgs (model n reps : UInt32) : Prop where
  n_ne : n ≠ 0
  n_le : n.toNat ≤ qaiHaiMaxRows
  reps_ne : reps ≠ 0
  known : model = qaiHaiModelTinyml ∨ model = qaiHaiModelPairwiseFake

instance (model n reps : UInt32) : Decidable (HaiArgs model n reps) :=
  decidable_of_iff (n ≠ 0 ∧ n.toNat ≤ qaiHaiMaxRows ∧ reps ≠ 0 ∧
      (model = qaiHaiModelTinyml ∨ model = qaiHaiModelPairwiseFake))
    ⟨fun h => ⟨h.1, h.2.1, h.2.2.1, h.2.2.2⟩, fun h => ⟨h.n_ne, h.n_le, h.reps_ne, h.known⟩⟩

/-- A call of `qai_hai_infer` that fails a check changes nothing. -/
theorem haiInfer_reject {model : UInt32} (rows : Nat) {n reps : UInt32}
    (h : ¬ HaiArgs model n reps) (t : Ta D) :
    (qaiHaiInfer model rows n reps).run t = (.error .badParameters, t) := by
  unfold qaiHaiInfer
  by_cases hn : n = 0 ∨ n.toNat > qaiHaiMaxRows ∨ reps = 0
  · simp only [if_pos hn, StateM.run_pure]
  by_cases hm : model ≠ qaiHaiModelTinyml ∧ model ≠ qaiHaiModelPairwiseFake
  · simp only [if_neg hn, if_pos hm, StateM.run_pure]
  -- past both checks the arguments would be accepted
  exfalso
  simp only [not_or] at hn
  refine h ⟨hn.1, by omega, hn.2.2, ?_⟩
  by_cases hmodel : model = qaiHaiModelTinyml
  · exact Or.inl hmodel
  · exact Or.inr (by_contra fun h' => hm ⟨hmodel, h'⟩)

/-- `qai_hai_infer` leaves the decisions on the rows in `pred`. -/
theorem haiInfer_run {model : UInt32} (rows : Nat) {n reps : UInt32}
    (h : HaiArgs model n reps) (t : Ta D) :
    ∃ t', (qaiHaiInfer model rows n reps).run t = (.ok (deltaMs t.t0 t.t1), t') ∧
      HaiFrame rows n.toNat t t' ∧
      ∀ i < n.toNat, t'.pred i = haiDecide model (haiRow (bytesOf t 0) rows i) := by
  have hn : ¬ (n = 0 ∨ n.toNat > qaiHaiMaxRows ∨ reps = 0) := by
    simp only [not_or]
    exact ⟨h.n_ne, Nat.not_lt.mpr h.n_le, h.reps_ne⟩
  have hm : ¬ (model ≠ qaiHaiModelTinyml ∧ model ≠ qaiHaiModelPairwiseFake) :=
    fun hm => h.known.elim hm.1 hm.2
  have hreps : 0 < reps.toNat := Nat.pos_of_ne_zero fun h0 =>
    h.reps_ne (UInt32.toNat_inj.mp h0)
  obtain ⟨hf, hp⟩ := haiInferReps_inv model rows t h.n_le hreps
  refine ⟨_, ?_, hf, hp⟩
  simp only [qaiHaiInfer, if_neg hn, if_neg hm, StateM.run_bind, StateM.run_get,
    StateM.run_pure]
  rw [hf.clock.1, hf.clock.2]

end OpteeRpi5.Spec
