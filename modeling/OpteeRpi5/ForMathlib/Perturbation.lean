import Mathlib.Analysis.CStarAlgebra.Classes
import Mathlib.Analysis.InnerProductSpace.PiL2
import OpteeRpi5.ForMathlib.SiteAct
import OpteeRpi5.ForStd.Loop

/-!
# Perturbed isometries

The states of a program are seen as vectors through a map `v`. An operation `F` is a
perturbation of an operation `G` by the factor `k` when `G` keeps norms and `F` stays as
close to `G` as a map that stretches by `k` and misses by `k - 1`. The factors of
operations that run one after the other multiply, so the error of a loop is the product
of the factors of its iterations, minus one.

A matrix that acts on one site of the index is a perturbation of a unitary one when the
difference of the two is small in norm.

Candidates for upstreaming to Mathlib.
-/

open Matrix

/-- `G` keeps norms, and `F` is close to it. -/
structure Perturbed {S : Type} {E : Type*} [SeminormedAddCommGroup E] (v : S → E) (F G : S → S)
    (k : ℝ) : Prop where
  one_le : 1 ≤ k
  norm_eq : ∀ s, ‖v (G s)‖ = ‖v s‖
  near : ∀ s t, ‖v (F s) - v (G t)‖ ≤ k * ‖v s - v t‖ + (k - 1) * ‖v t‖

namespace Perturbed

variable {S : Type} {E : Type*} [SeminormedAddCommGroup E] {v : S → E} {F G F' G' : S → S}
  {k k' : ℝ}

theorem refl (v : S → E) : Perturbed v (fun s => s) (fun s => s) 1 where
  one_le := le_refl 1
  norm_eq _ := rfl
  near s t := by simp

/-- An operation that keeps distances is a perturbation of itself. -/
theorem of_isometry (hnorm : ∀ s, ‖v (F s)‖ = ‖v s‖)
    (hdist : ∀ s t, ‖v (F s) - v (F t)‖ = ‖v s - v t‖) : Perturbed v F F 1 where
  one_le := le_refl 1
  norm_eq := hnorm
  near s t := by simp [hdist]

/-- A larger factor is a weaker bound. -/
theorem mono (h : Perturbed v F G k) (hk : k ≤ k') : Perturbed v F G k' where
  one_le := h.one_le.trans hk
  norm_eq := h.norm_eq
  near s t := (h.near s t).trans (by gcongr)

/-- The factors multiply. -/
theorem comp (h : Perturbed v F G k) (h' : Perturbed v F' G' k') :
    Perturbed v (fun s => F' (F s)) (fun s => G' (G s)) (k * k') where
  one_le := one_le_mul_of_one_le_of_one_le h.one_le h'.one_le
  norm_eq s := (h'.norm_eq (G s)).trans (h.norm_eq s)
  near s t := by
    have hk' : 0 ≤ k' := zero_le_one.trans h'.one_le
    calc ‖v (F' (F s)) - v (G' (G t))‖
        ≤ k' * ‖v (F s) - v (G t)‖ + (k' - 1) * ‖v (G t)‖ := h'.near _ _
      _ ≤ k' * (k * ‖v s - v t‖ + (k - 1) * ‖v t‖) + (k' - 1) * ‖v t‖ := by
        rw [h.norm_eq]
        gcongr
        exact h.near s t
      _ = k * k' * ‖v s - v t‖ + (k * k' - 1) * ‖v t‖ := by ring

/-- A loop that counts up. -/
theorem fold {n : Nat} {F G : Nat → S → S} {k : Nat → ℝ}
    (h : ∀ q < n, Perturbed v (F q) (G q) (k q)) :
    Perturbed v (Loop.fold n F) (Loop.fold n G) (∏ q ∈ Finset.range n, k q) := by
  induction n with
  | zero =>
    rw [Finset.prod_range_zero]
    exact refl v
  | succ n ih =>
    rw [Finset.prod_range_succ]
    exact (ih fun q hq => h q (by omega)).comp (h n (by omega))

/-- A loop that counts down. -/
theorem foldDown {n : Nat} {F G : Nat → S → S} {k : Nat → ℝ}
    (h : ∀ q < n, Perturbed v (F q) (G q) (k q)) :
    Perturbed v (Loop.foldDown n F) (Loop.foldDown n G) (∏ q ∈ Finset.range n, k q) := by
  induction n with
  | zero =>
    rw [Finset.prod_range_zero]
    exact refl v
  | succ n ih =>
    rw [Finset.prod_range_succ, mul_comm]
    exact (h n (by omega)).comp (ih fun q hq => h q (by omega))

/-- A repetition. -/
theorem iterate (h : Perturbed v F G k) (n : Nat) :
    Perturbed v (Loop.fold n fun _ => F) (Loop.fold n fun _ => G) (k ^ n) := by
  have hloop := fold (n := n) (fun _ _ => h)
  rwa [Finset.prod_const, Finset.card_range] at hloop

end Perturbed

/-! ## Matrices on one site -/

namespace Site

variable {ι κ : Type*} [Fintype κ] (s : Site ι κ)

theorem act_sub_left {R : Type*} [CommRing R] (g h : Matrix κ κ R) (f : ι → R) :
    s.act (g - h) f = s.act g f - s.act h f := by
  ext x
  simp [act_apply, sub_mul]

theorem act_sub_right {R : Type*} [CommRing R] (g : Matrix κ κ R) (f h : ι → R) :
    s.act g (f - h) = s.act g f - s.act g h := by
  ext x
  simp [act_apply, mul_sub]

variable [Fintype ι] [DecidableEq κ]

/-- A matrix that is unitary up to a factor scales norms by its root. -/
theorem norm_act {g : Matrix κ κ ℂ} {c : ℝ} (hc : 0 ≤ c) (hg : gᴴ * g = ((c ^ 2 : ℝ) : ℂ) • 1)
    (f : ι → ℂ) : ‖WithLp.toLp 2 (s.act g f)‖ = c * ‖WithLp.toLp 2 f‖ := by
  have hnorm (h : ι → ℂ) : ((‖WithLp.toLp 2 h‖ ^ 2 : ℝ) : ℂ) = star h ⬝ᵥ h := by
    rw [EuclideanSpace.norm_sq_eq]
    simp [dotProduct, Complex.ofReal_sum, ← Complex.normSq_eq_conj_mul_self,
      Complex.normSq_eq_norm_sq]
  have hsq : ‖WithLp.toLp 2 (s.act g f)‖ ^ 2 = (c * ‖WithLp.toLp 2 f‖) ^ 2 := by
    apply Complex.ofReal_injective
    rw [hnorm, s.act_adjoint, ← s.act_mul, hg, s.act_smul_one, dotProduct_smul, ← hnorm,
      smul_eq_mul, ← Complex.ofReal_mul, mul_pow]
  exact (sq_eq_sq₀ (norm_nonneg _) (by positivity)).mp hsq

/-- A matrix close to a unitary one acts as a perturbation of it. -/
theorem perturbed {S : Type} {v : S → ι → ℂ} {F G : S → S} {g h : Matrix κ κ ℂ} {d : ℝ}
    (hF : ∀ t, v (F t) = s.act g (v t)) (hG : ∀ t, v (G t) = s.act h (v t)) (hd : 0 ≤ d)
    (hunit : hᴴ * h = 1) (hdiff : (g - h)ᴴ * (g - h) = ((d ^ 2 : ℝ) : ℂ) • 1) :
    Perturbed (fun t => WithLp.toLp 2 (v t)) F G (1 + d) := by
  have hkeep (f : ι → ℂ) : ‖WithLp.toLp 2 (s.act h f)‖ = ‖WithLp.toLp 2 f‖ := by
    rw [s.norm_act zero_le_one (by simpa using hunit), one_mul]
  constructor
  · linarith
  · intro t
    rw [hG]
    exact hkeep (v t)
  · intro t u
    -- the step of `G` on the difference, and what `F` does otherwise
    have hsplit : WithLp.toLp 2 (v (F t)) - WithLp.toLp 2 (v (G u)) =
        WithLp.toLp 2 (s.act h (v t - v u)) + WithLp.toLp 2 (s.act (g - h) (v t)) := by
      rw [hF, hG, act_sub_right, act_sub_left]
      ext x
      simp
    have hle : ‖WithLp.toLp 2 (v t)‖ ≤
        ‖WithLp.toLp 2 (v t) - WithLp.toLp 2 (v u)‖ + ‖WithLp.toLp 2 (v u)‖ := by
      simpa using norm_add_le (WithLp.toLp 2 (v t) - WithLp.toLp 2 (v u)) (WithLp.toLp 2 (v u))
    calc ‖WithLp.toLp 2 (v (F t)) - WithLp.toLp 2 (v (G u))‖
        ≤ ‖WithLp.toLp 2 (s.act h (v t - v u))‖ + ‖WithLp.toLp 2 (s.act (g - h) (v t))‖ := by
          rw [hsplit]
          exact norm_add_le _ _
      _ = ‖WithLp.toLp 2 (v t) - WithLp.toLp 2 (v u)‖ + d * ‖WithLp.toLp 2 (v t)‖ := by
          rw [hkeep, s.norm_act hd hdiff, WithLp.toLp_sub]
      _ ≤ (1 + d) * ‖WithLp.toLp 2 (v t) - WithLp.toLp 2 (v u)‖ +
            (1 + d - 1) * ‖WithLp.toLp 2 (v u)‖ := by nlinarith

end Site
