import OpteeRpi5.ForStd.Bits
import OpteeRpi5.ForStd.StateM
import OpteeRpi5.Native.FidelityKernel

/-!
# What the in-place gates compute

`apply_1q` and `cnot_pair` rewrite the statevector in place, the former in two passes
with a scratch array. This file states what they leave in the amplitudes below
`kern_dim`, for any type of doubles and with no law assumed of its operators.

## Key results

- `apply1q_amp`: `apply_1q` is the gate on pairs of amplitudes that differ in one bit
- `cnotPair_amp`: `cnot_pair` permutes the amplitudes
- `resetPsi_amp`: `reset_psi` prepares the first basis vector
- `apply1q_safe`, `cnotPair_safe`, `resetPsi_safe`: their accesses are in bounds
-/

namespace OpteeRpi5.Spec

open OpteeRpi5.Native

variable {D : Type}

/-- Amplitude `x` of the statevector. -/
def amp (s : Kern D) (x : Nat) : D × D := (s.stat .psiRe x, s.stat .psiIm x)

/-- Entry `x` of the scratch arrays. -/
def scratch (s : Kern D) (x : Nat) : D × D := (s.stat .tmpRe x, s.stat .tmpIm x)

/-- `s'` differs from `s` in the static arrays and in the log only. -/
structure SameFrame (s s' : Kern D) : Prop where
  loc : s'.loc = s.loc
  kernNq : s'.kernNq = s.kernNq
  kernDim : s'.kernDim = s.kernDim
  rngState : s'.rngState = s.rngState

theorem SameFrame.refl (s : Kern D) : SameFrame s s := ⟨rfl, rfl, rfl, rfl⟩

theorem SameFrame.trans {s s' s'' : Kern D} (h : SameFrame s s') (h' : SameFrame s' s'') :
    SameFrame s s'' :=
  ⟨h'.loc.trans h.loc, h'.kernNq.trans h.kernNq, h'.kernDim.trans h.kernDim,
    h'.rngState.trans h.rngState⟩

/-- All accesses logged so far are in bounds. -/
def Safe (pt : UInt32) (size : Fin 4 → Nat) (s : Kern D) : Prop :=
  ∀ a ∈ s.log, a.InBounds pt size

/-- The width is one the static arrays are made for. -/
def WidthOk (n : Nat) (s : Kern D) : Prop :=
  s.kernNq = n ∧ s.kernDim = 2 ^ n ∧ n ≤ qaiNqMax

/-- Code that keeps the frame keeps the width. -/
theorem WidthOk.of_frame {n : Nat} {s s' : Kern D} (hw : WidthOk n s) (h : SameFrame s s') :
    WidthOk n s' :=
  ⟨h.kernNq.trans hw.1, h.kernDim.trans hw.2.1, hw.2.2⟩

/-- An index below `2 ^ n` is one into `psi`. -/
theorem lt_dimMax {n x : Nat} (hn : n ≤ qaiNqMax) (hx : x < 2 ^ n) : x < qaiDimMax := by
  have h : 2 ^ n ≤ 2 ^ qaiNqMax := Nat.pow_le_pow_right (by omega) hn
  rw [qaiDimMax, Nat.one_shiftLeft]
  omega

/-- An index below `2 ^ (n - 1)` is one into `tmp`. -/
theorem lt_half_dimMax {n x : Nat} (hn : n ≤ qaiNqMax) (hn0 : 0 < n) (hx : x < 2 ^ (n - 1)) :
    x < qaiDimMax / 2 := by
  have h : 2 ^ (n - 1) ≤ 2 ^ (qaiNqMax - 1) := Nat.pow_le_pow_right (by omega) (by omega)
  have hd : qaiDimMax / 2 = 2 ^ (qaiNqMax - 1) := by decide
  omega

/-! ## `apply_1q` -/

/-- The counter `n0` of `apply_1q` before iteration `k`. -/
def clearBelow (q k : Nat) : Nat := Nat.count (fun i => i.testBit q = false) k

/-- The counter steps at an index with the bit clear. -/
theorem clearBelow_succ_of_clear {q k : Nat} (h : k.testBit q = false) :
    clearBelow q (k + 1) = clearBelow q k + 1 := by
  simp only [clearBelow, Nat.count_succ, h, if_true]

/-- It stays at an index with the bit set. -/
theorem clearBelow_succ_of_set {q k : Nat} (h : k.testBit q = true) :
    clearBelow q (k + 1) = clearBelow q k := by
  simp only [clearBelow, Nat.count_succ, h, Bool.true_eq_false, if_false, Nat.add_zero]

/-- No two indices use the same entry of the scratch arrays. -/
theorem clearBelow_inj {q i k : Nat} (hi : i.testBit q = false) (hk : k.testBit q = false)
    (h : clearBelow q i = clearBelow q k) : i = k :=
  Nat.count_injective hi hk h

/-- The first loop at an index with the bit set does nothing. -/
theorem run_apply1qStash_set {q i : Nat} (h : i.testBit q = true) (n0 : Nat) (s : Kern D) :
    (apply1qStash (1 <<< q) i n0).run s = (n0, s) := by
  have hb : i &&& 1 <<< q ≠ 0 := (Nat.and_shiftLeft_ne_zero i q).mpr h
  simp only [apply1qStash, if_pos hb, StateM.run_pure]

/-- What one iteration of the first loop does at an index with the bit clear. -/
structure StashStep (q i n0 : Nat) (s s' : Kern D) : Prop where
  frame : SameFrame s s'
  amp : amp s' = Function.update (amp s) i (amp s (Nat.flipBit q i))
  scratch : scratch s' = Function.update (scratch s) n0 (Spec.amp s i)
  log : s'.log = [.writeStat .psiIm i, .readStat .psiIm (Nat.flipBit q i),
    .writeStat .psiRe i, .readStat .psiRe (Nat.flipBit q i), .writeStat .tmpIm n0,
    .readStat .psiIm i, .writeStat .tmpRe n0, .readStat .psiRe i] ++ s.log

/-- The first loop at an index with the bit clear. -/
theorem run_apply1qStash_clear {q i : Nat} (h : i.testBit q = false) (n0 : Nat)
    (s : Kern D) :
    ((apply1qStash (1 <<< q) i n0).run s).1 = n0 + 1 ∧
    StashStep q i n0 s ((apply1qStash (1 <<< q) i n0).run s).2 := by
  have hb : ¬ (i &&& 1 <<< q ≠ 0) := by rw [Nat.and_shiftLeft_ne_zero, h]; decide
  simp only [apply1qStash, if_neg hb, Nat.or_shiftLeft_eq_flipBit h, StateM.run_bind,
    StateM.run_pure, run_readStat, run_writeStat]
  refine ⟨trivial, ⟨rfl, rfl, rfl, rfl⟩, ?_, ?_, rfl⟩
  · funext x
    by_cases hx : x = i <;> simp [amp, hx]
  · funext x
    by_cases hx : x = n0 <;> simp [scratch, amp, hx]

/-- Before iteration `k` of the first loop: the clear amplitudes below `k` are in the
    scratch array in order, and their partners have taken their places. -/
structure StashInv (q : Nat) (s₀ : Kern D) (k n0 : Nat) (s : Kern D) : Prop where
  count : n0 = clearBelow q k
  frame : SameFrame s₀ s
  amp : ∀ x, amp s x =
    if x < k ∧ x.testBit q = false then Spec.amp s₀ (Nat.flipBit q x) else Spec.amp s₀ x
  scratch : ∀ i < k, i.testBit q = false → scratch s (clearBelow q i) = Spec.amp s₀ i

/-- One iteration of the first loop. -/
private theorem stashInv_step (q : Nat) (s₀ : Kern D) (k n0 : Nat) (s : Kern D)
    (h : StashInv q s₀ k n0 s) :
    StashInv q s₀ (k + 1) ((apply1qStash (1 <<< q) k n0).run s).1
      ((apply1qStash (1 <<< q) k n0).run s).2 := by
  cases hk : k.testBit q with
  | true =>
    rw [run_apply1qStash_set hk]
    refine ⟨?_, h.frame, ?_, ?_⟩
    · rw [clearBelow_succ_of_set hk]; exact h.count
    · intro x
      rw [h.amp x]
      by_cases hx : x.testBit q = false
      · have hne : x ≠ k := Nat.ne_of_testBit hx hk
        simp only [hx, and_true, show x < k + 1 ↔ x < k by omega]
      · rw [if_neg (fun h => hx h.2), if_neg (fun h => hx h.2)]
    · intro i hi hic
      have hne : i ≠ k := Nat.ne_of_testBit hic hk
      exact h.scratch i (by omega) hic
  | false =>
    obtain ⟨hn, hs⟩ := run_apply1qStash_clear hk n0 s
    -- the partner has the bit set, so the loop has not touched it
    have hpart : amp s (Nat.flipBit q k) = amp s₀ (Nat.flipBit q k) := by
      rw [h.amp, if_neg]
      simp [hk]
    have hself : amp s k = amp s₀ k := by
      rw [h.amp, if_neg]
      omega
    refine ⟨?_, h.frame.trans hs.frame, ?_, ?_⟩
    · rw [hn, clearBelow_succ_of_clear hk, h.count]
    · intro x
      rw [hs.amp]
      by_cases hx : x = k
      · subst hx
        rw [Function.update_self, hpart, if_pos ⟨by omega, hk⟩]
      · rw [Function.update_of_ne hx, h.amp x]
        simp only [show x < k + 1 ↔ x < k by omega]
    · intro i hi hic
      rw [hs.scratch, h.count]
      by_cases hik : i = k
      · subst hik
        rw [Function.update_self, hself]
      · have hne : clearBelow q i ≠ clearBelow q k := fun he => hik (clearBelow_inj hic hk he)
        rw [Function.update_of_ne hne]
        exact h.scratch i (by omega) hic

/-- The first loop of `apply_1q`. -/
theorem stashInv_loop (q dim : Nat) (s₀ : Kern D) :
    StashInv q s₀ dim ((Loop.up dim (apply1qStash (1 <<< q)) 0).run s₀).1
      ((Loop.up dim (apply1qStash (1 <<< q)) 0).run s₀).2 := by
  apply Loop.up_inv (StashInv q s₀)
  · exact ⟨by simp [clearBelow], SameFrame.refl s₀, fun x => by simp, fun i hi => by omega⟩
  · intro i n0 s _ h
    exact stashInv_step q s₀ i n0 s h

section Mix

variable [Add D] [Sub D] [Mul D]

/-- What the gate makes of the amplitude with the bit clear. -/
def Gate.low (g : Gate D) (a b : D × D) : D × D :=
  (g.g00r * a.1 - g.g00i * a.2 + g.g01r * b.1 - g.g01i * b.2,
   g.g00r * a.2 + g.g00i * a.1 + g.g01r * b.2 + g.g01i * b.1)

/-- What the gate makes of the amplitude with the bit set. -/
def Gate.high (g : Gate D) (a b : D × D) : D × D :=
  (g.g10r * a.1 - g.g10i * a.2 + g.g11r * b.1 - g.g11i * b.2,
   g.g10r * a.2 + g.g10i * a.1 + g.g11r * b.2 + g.g11i * b.1)

/-- The gate on qubit `q` as an operation on amplitudes. -/
def Gate.act (g : Gate D) (q : Nat) (f : Nat → D × D) (x : Nat) : D × D :=
  if x.testBit q then Gate.high g (f (Nat.flipBit q x)) (f x)
  else Gate.low g (f x) (f (Nat.flipBit q x))

/-- The second loop at an index with the bit set does nothing. -/
theorem run_apply1qMix_set {q i : Nat} (h : i.testBit q = true) (g : Gate D) (n0 : Nat)
    (s : Kern D) : (apply1qMix (1 <<< q) g i n0).run s = (n0, s) := by
  have hb : i &&& 1 <<< q ≠ 0 := (Nat.and_shiftLeft_ne_zero i q).mpr h
  simp only [apply1qMix, if_pos hb, StateM.run_pure]

/-- What one iteration of the second loop does at an index with the bit clear. -/
structure MixStep (q : Nat) (g : Gate D) (i n0 : Nat) (s s' : Kern D) : Prop where
  frame : SameFrame s s'
  amp : amp s' = Function.update
    (Function.update (amp s) i (Gate.low g (scratch s n0) (amp s i)))
    (Nat.flipBit q i) (Gate.high g (scratch s n0) (amp s i))
  scratch : scratch s' = scratch s
  log : s'.log = [.writeStat .psiIm (Nat.flipBit q i), .writeStat .psiRe (Nat.flipBit q i),
    .writeStat .psiIm i, .writeStat .psiRe i, .readStat .psiIm i, .readStat .psiRe i,
    .readStat .tmpIm n0, .readStat .tmpRe n0] ++ s.log

/-- The second loop at an index with the bit clear. -/
theorem run_apply1qMix_clear {q i : Nat} (h : i.testBit q = false) (g : Gate D) (n0 : Nat)
    (s : Kern D) :
    ((apply1qMix (1 <<< q) g i n0).run s).1 = n0 + 1 ∧
    MixStep q g i n0 s ((apply1qMix (1 <<< q) g i n0).run s).2 := by
  have hb : ¬ (i &&& 1 <<< q ≠ 0) := by rw [Nat.and_shiftLeft_ne_zero, h]; decide
  have hne : i ≠ Nat.flipBit q i := (Nat.flipBit_ne q i).symm
  simp only [apply1qMix, if_neg hb, Nat.or_shiftLeft_eq_flipBit h, StateM.run_bind,
    StateM.run_pure, run_readStat, run_writeStat]
  refine ⟨trivial, ⟨rfl, rfl, rfl, rfl⟩, ?_, ?_, rfl⟩
  · funext x
    by_cases hj : x = Nat.flipBit q i
    · simp [amp, scratch, Gate.high, hj]
    · by_cases hx : x = i
      · subst hx
        simp [amp, scratch, Gate.low, hne]
      · simp [amp, hx, hj]
  · funext x
    simp [scratch]

/-- Before iteration `k` of the second loop, which starts from `s₁`: the pairs whose
    lower index is below `k` carry the result. -/
structure MixInv (q : Nat) (g : Gate D) (s₀ s₁ : Kern D) (k n0 : Nat) (s : Kern D) :
    Prop where
  count : n0 = clearBelow q k
  frame : SameFrame s₁ s
  scratch : scratch s = Spec.scratch s₁
  done : ∀ i < k, i.testBit q = false →
    amp s i = Gate.low g (amp s₀ i) (amp s₀ (Nat.flipBit q i)) ∧
    amp s (Nat.flipBit q i) = Gate.high g (amp s₀ i) (amp s₀ (Nat.flipBit q i))
  rest : ∀ x, (x.testBit q = false → k ≤ x) → (x.testBit q = true → k ≤ Nat.flipBit q x) →
    amp s x = amp s₁ x

/-- One iteration of the second loop. -/
private theorem mixInv_step (q : Nat) (g : Gate D) (dim : Nat) (s₀ s₁ : Kern D) (n₁ : Nat)
    (h₁ : StashInv q s₀ dim n₁ s₁) (k n0 : Nat) (s : Kern D) (hkd : k < dim)
    (h : MixInv q g s₀ s₁ k n0 s) :
    MixInv q g s₀ s₁ (k + 1) ((apply1qMix (1 <<< q) g k n0).run s).1
      ((apply1qMix (1 <<< q) g k n0).run s).2 := by
  cases hk : k.testBit q with
  | true =>
    rw [run_apply1qMix_set hk]
    refine ⟨?_, h.frame, h.scratch, ?_, ?_⟩
    · rw [clearBelow_succ_of_set hk]; exact h.count
    · intro i hi hic
      have hne : i ≠ k := Nat.ne_of_testBit hic hk
      exact h.done i (by omega) hic
    · intro x hxc hxs
      refine h.rest x (fun hx => ?_) (fun hx => ?_)
      · have := hxc hx; omega
      · have := hxs hx; omega
  | false =>
    obtain ⟨hn, hs⟩ := run_apply1qMix_clear hk g n0 s
    have hkf : (Nat.flipBit q k).testBit q = true := by simp [hk]
    -- the operands of this iteration are the original amplitudes of the pair
    have ha : scratch s n0 = amp s₀ k := by
      rw [h.scratch, h.count]
      exact h₁.scratch k hkd hk
    have hb : amp s k = amp s₀ (Nat.flipBit q k) := by
      rw [h.rest k (fun _ => le_refl k) (fun hx => absurd rfl (Nat.ne_of_testBit hk hx)),
        h₁.amp k, if_pos ⟨hkd, hk⟩]
    have hamp := hs.amp
    rw [ha, hb] at hamp
    refine ⟨?_, h.frame.trans hs.frame, hs.scratch.trans h.scratch, ?_, ?_⟩
    · rw [hn, clearBelow_succ_of_clear hk, h.count]
    · intro i hi hic
      rw [hamp]
      by_cases hik : i = k
      · subst hik
        exact Nat.update_pair_self q i (amp s) _ _
      · -- an earlier pair shares no index with this one
        have hif : i ≠ Nat.flipBit q k := Nat.ne_of_testBit hic hkf
        rw [Nat.update_pair_of_ne q k (amp s) _ _ hik hif,
          Nat.update_pair_flipBit_of_ne q k (amp s) _ _ hik hif]
        exact h.done i (by omega) hic
    · intro x hxc hxs
      have h1 : x ≠ k := by
        rintro rfl
        have := hxc hk; omega
      have h2 : x ≠ Nat.flipBit q k := by
        rintro rfl
        have := hxs hkf
        rw [Nat.flipBit_flipBit] at this; omega
      rw [hamp, Nat.update_pair_of_ne q k (amp s) _ _ h1 h2]
      refine h.rest x (fun hx => ?_) (fun hx => ?_)
      · have := hxc hx; omega
      · have := hxs hx; omega

/-- The second loop of `apply_1q`, run after the first. -/
theorem mixInv_loop (q : Nat) (g : Gate D) (dim : Nat) (s₀ s₁ : Kern D) (n₁ : Nat)
    (h₁ : StashInv q s₀ dim n₁ s₁) :
    MixInv q g s₀ s₁ dim ((Loop.up dim (apply1qMix (1 <<< q) g) 0).run s₁).1
      ((Loop.up dim (apply1qMix (1 <<< q) g) 0).run s₁).2 := by
  apply Loop.up_inv (MixInv q g s₀ s₁)
  · exact ⟨by simp [clearBelow], SameFrame.refl s₁, rfl, fun i hi => by omega,
      fun x _ _ => rfl⟩
  · intro k n0 s hk h
    exact mixInv_step q g dim s₀ s₁ n₁ h₁ k n0 s hk h

/-- `apply_1q` runs its two loops one after the other. -/
theorem run_apply1q (q : Nat) (g : Gate D) (s : Kern D) :
    ((apply1q q g).run s).2 = ((Loop.up s.kernDim (apply1qMix (1 <<< q) g) 0).run
      ((Loop.up s.kernDim (apply1qStash (1 <<< q)) 0).run s).2).2 := rfl

/-- `apply_1q` changes the amplitudes and the scratch arrays only. -/
theorem apply1q_frame (q : Nat) (g : Gate D) (s : Kern D) :
    SameFrame s ((apply1q q g).run s).2 := by
  have h₁ := stashInv_loop q s.kernDim s
  have h₂ := mixInv_loop q g s.kernDim s _ _ h₁
  rw [run_apply1q]
  exact h₁.frame.trans h₂.frame

/-- `apply_1q` on a register of `n` qubits is the gate on qubit `q`, and leaves the
    amplitudes from `2 ^ n` on alone. -/
theorem apply1q_amp {n q : Nat} (hq : q < n) (g : Gate D) (s : Kern D)
    (hdim : s.kernDim = 2 ^ n) (x : Nat) :
    amp ((apply1q q g).run s).2 x = if x < 2 ^ n then Gate.act g q (amp s) x else amp s x := by
  have h₁ := stashInv_loop q s.kernDim s
  have h₂ := mixInv_loop q g s.kernDim s _ _ h₁
  rw [run_apply1q]
  by_cases hx : x < 2 ^ n
  · rw [if_pos hx]
    cases hb : x.testBit q with
    | false =>
      rw [(h₂.done x (by omega) hb).1]
      simp only [Gate.act, hb, Bool.false_eq_true, if_false]
    | true =>
      -- the pair is visited at its lower index
      have hlow : Nat.flipBit q x < s.kernDim := by rw [hdim]; exact Nat.flipBit_lt hq hx
      have h := (h₂.done (Nat.flipBit q x) hlow (by simp [hb])).2
      rw [Nat.flipBit_flipBit] at h
      rw [h]
      simp only [Gate.act, hb, if_true]
  · rw [if_neg hx]
    have hge : 2 ^ n ≤ Nat.flipBit q x := by
      have := (Nat.flipBit_lt_iff (x := x) hq).not.mpr hx
      omega
    rw [h₂.rest x (fun _ => by omega) (fun _ => by omega), h₁.amp x, if_neg (by omega)]

end Mix

/-- An invariant of a loop that counts the clear indices, by the value of the counter. -/
theorem countedLoop_inv {q dim : Nat} (P : Nat → Kern D → Prop) (body : Nat → Nat → KernM D Nat)
    (hset : ∀ i n0 s, i.testBit q = true → (body i n0).run s = (n0, s))
    (hclear : ∀ i s, i < dim → i.testBit q = false → P (clearBelow q i) s →
      ((body i (clearBelow q i)).run s).1 = clearBelow q i + 1 ∧
      P (clearBelow q i + 1) ((body i (clearBelow q i)).run s).2)
    (s : Kern D) (hs : P 0 s) : P (clearBelow q dim) ((Loop.up dim body 0).run s).2 := by
  have h : ((Loop.up dim body 0).run s).1 = clearBelow q dim ∧
      P (clearBelow q dim) ((Loop.up dim body 0).run s).2 := by
    -- the counter is the number of indices so far with the bit clear
    apply Loop.up_inv (fun k n0 s => n0 = clearBelow q k ∧ P (clearBelow q k) s)
    · have hzero : clearBelow q 0 = 0 := by simp [clearBelow]
      rw [hzero]
      exact ⟨rfl, hs⟩
    · intro i n0 s hi hinv
      obtain ⟨rfl, hinv⟩ := hinv
      cases hb : i.testBit q with
      | true =>
        rw [hset i _ s hb, clearBelow_succ_of_set hb]
        exact ⟨rfl, hinv⟩
      | false =>
        rw [clearBelow_succ_of_clear hb]
        exact hclear i s hi hb hinv
  exact h.2

/-- New accesses in bounds keep the log in bounds. -/
theorem Safe.of_log {pt : UInt32} {size : Fin 4 → Nat} {s s' : Kern D} {new : List Access}
    (hs : Safe pt size s) (hlog : s'.log = new ++ s.log)
    (hnew : ∀ a ∈ new, a.InBounds pt size) : Safe pt size s' := by
  intro a ha
  rw [hlog, List.mem_append] at ha
  cases ha with
  | inl h => exact hnew a h
  | inr h => exact hs a h

/-- `apply_1q` indexes `psi` and `tmp` inside their arrays. -/
theorem apply1q_safe [Add D] [Sub D] [Mul D] {n q : Nat} {pt : UInt32} {size : Fin 4 → Nat}
    (hq : q < n) (g : Gate D) (s : Kern D) (hw : WidthOk n s) (hs : Safe pt size s) :
    Safe pt size ((apply1q q g).run s).2 := by
  obtain ⟨-, hdim, hn⟩ := hw
  rw [run_apply1q, hdim]
  have hpsi : ∀ i, i < 2 ^ n → i < qaiDimMax ∧ Nat.flipBit q i < qaiDimMax := fun i hi =>
    ⟨lt_dimMax hn hi, lt_dimMax hn (Nat.flipBit_lt hq hi)⟩
  -- half of the indices have the bit clear, so the counter stays below `2 ^ (n - 1)`
  have htmp : ∀ i, i < 2 ^ n → i.testBit q = false → clearBelow q i < qaiDimMax / 2 :=
    fun i hi hb => lt_half_dimMax hn (by omega) (Nat.count_testBit_false_lt hq hi hb)
  apply countedLoop_inv (q := q) (fun _ => Safe pt size)
  · exact fun i n0 s hb => run_apply1qMix_set hb g n0 s
  · intro i s hi hb hsafe
    obtain ⟨h1, h2⟩ := run_apply1qMix_clear hb g (clearBelow q i) s
    refine ⟨h1, hsafe.of_log h2.log ?_⟩
    simp [Access.InBounds, Stat.cap, hpsi i hi, htmp i hi hb]
  apply countedLoop_inv (q := q) (fun _ => Safe pt size)
  · exact fun i n0 s hb => run_apply1qStash_set hb n0 s
  · intro i s hi hb hsafe
    obtain ⟨h1, h2⟩ := run_apply1qStash_clear hb (clearBelow q i) s
    refine ⟨h1, hsafe.of_log h2.log ?_⟩
    simp [Access.InBounds, Stat.cap, hpsi i hi, htmp i hi hb]
  exact hs

/-! ## `cnot_pair` -/

/-- Where `cnot_pair` takes amplitude `x` from. -/
def cnotIndex (c t x : Nat) : Nat := if x.testBit c then Nat.flipBit t x else x

/-- Flipping the target twice changes nothing. -/
theorem cnotIndex_cnotIndex {c t : Nat} (h : c ≠ t) (x : Nat) :
    cnotIndex c t (cnotIndex c t x) = x := by
  cases hb : x.testBit c with
  | false => simp only [cnotIndex, hb, Bool.false_eq_true, if_false]
  | true =>
    have hf : (Nat.flipBit t x).testBit c = true := by
      rw [Nat.testBit_flipBit_of_ne (Ne.symm h), hb]
    simp only [cnotIndex, hb, if_true, hf, Nat.flipBit_flipBit]

/-- The flipped index is in the register. -/
theorem cnotIndex_lt {c t n x : Nat} (ht : t < n) (hx : x < 2 ^ n) :
    cnotIndex c t x < 2 ^ n := by
  simp only [cnotIndex]
  split
  · exact Nat.flipBit_lt ht hx
  · exact hx

/-- Index `i` is the lower end of a pair that `cnot_pair` swaps. -/
def CnotLow (c t i : Nat) : Prop := i.testBit c = true ∧ i.testBit t = false

instance (c t i : Nat) : Decidable (CnotLow c t i) :=
  inferInstanceAs (Decidable (_ ∧ _))

/-- The loop of `cnot_pair` passes over an index that is no lower end. -/
theorem run_cnotPairStep_skip {c t i : Nat} (h : ¬ CnotLow c t i) (s : Kern D) :
    (cnotPairStep (1 <<< c) (1 <<< t) i).run s = ((), s) := by
  have hb : i &&& 1 <<< c = 0 ∨ i &&& 1 <<< t ≠ 0 := by
    rw [Nat.and_shiftLeft_eq_zero, Nat.and_shiftLeft_ne_zero]
    simp only [CnotLow, not_and, Bool.not_eq_false] at h
    cases hc : i.testBit c with
    | false => exact Or.inl rfl
    | true => exact Or.inr (h hc)
  simp only [cnotPairStep, if_pos hb, StateM.run_pure]

/-- What the loop of `cnot_pair` does at the lower end of a pair. -/
structure CnotStep (t i : Nat) (s s' : Kern D) : Prop where
  frame : SameFrame s s'
  amp : amp s' = Function.update (Function.update (amp s) i (amp s (Nat.flipBit t i)))
    (Nat.flipBit t i) (amp s i)
  log : s'.log = [.writeStat .psiIm (Nat.flipBit t i), .writeStat .psiRe (Nat.flipBit t i),
    .writeStat .psiIm i, .readStat .psiIm (Nat.flipBit t i), .writeStat .psiRe i,
    .readStat .psiRe (Nat.flipBit t i), .readStat .psiIm i, .readStat .psiRe i] ++ s.log

/-- The loop of `cnot_pair` exchanges a pair at its lower end. -/
theorem run_cnotPairStep_low {c t i : Nat} (h : CnotLow c t i) (s : Kern D) :
    CnotStep t i s ((cnotPairStep (1 <<< c) (1 <<< t) i).run s).2 := by
  have hb : ¬ (i &&& 1 <<< c = 0 ∨ i &&& 1 <<< t ≠ 0) := by
    rw [Nat.and_shiftLeft_eq_zero, Nat.and_shiftLeft_ne_zero, h.1, h.2]
    decide
  have hne : i ≠ Nat.flipBit t i := (Nat.flipBit_ne t i).symm
  simp only [cnotPairStep, if_neg hb, Nat.or_shiftLeft_eq_flipBit h.2, StateM.run_bind,
    run_readStat, run_writeStat]
  refine ⟨⟨rfl, rfl, rfl, rfl⟩, ?_, rfl⟩
  funext x
  by_cases hj : x = Nat.flipBit t i
  · simp [amp, hj]
  · by_cases hx : x = i
    · subst hx
      simp [amp, hne]
    · simp [amp, hx, hj]

/-- Before iteration `k` of `cnot_pair`: the pairs whose lower end is below `k` are
    swapped. -/
structure CnotInv (c t : Nat) (s₀ : Kern D) (k : Nat) (s : Kern D) : Prop where
  frame : SameFrame s₀ s
  done : ∀ i < k, CnotLow c t i →
    amp s i = amp s₀ (Nat.flipBit t i) ∧ amp s (Nat.flipBit t i) = amp s₀ i
  rest : ∀ x, (CnotLow c t x → k ≤ x) →
    (CnotLow c t (Nat.flipBit t x) → k ≤ Nat.flipBit t x) → amp s x = amp s₀ x

/-- The two ends of a pair differ in the target bit. -/
private theorem CnotLow.not_flipBit {c t k : Nat} (h : CnotLow c t k) :
    ¬ CnotLow c t (Nat.flipBit t k) := by
  intro hl
  have hset : (Nat.flipBit t k).testBit t = true := by simp [h.2]
  exact Nat.ne_of_testBit hl.2 hset rfl

/-- An index that is not the lower end of a pair is passed over. -/
private theorem CnotInv.skip {c t k : Nat} {s₀ s : Kern D} (h : CnotInv c t s₀ k s)
    (hk : ¬ CnotLow c t k) : CnotInv c t s₀ (k + 1) s := by
  refine ⟨h.frame, ?_, ?_⟩
  · intro i hi hil
    have hne : i ≠ k := by
      rintro rfl
      exact hk hil
    exact h.done i (by omega) hil
  · intro x hx hxf
    refine h.rest x (fun hl => ?_) (fun hl => ?_)
    · have := hx hl
      omega
    · have := hxf hl
      omega

/-- At the lower end of a pair the amplitudes of the pair, untouched so far, are swapped. -/
private theorem CnotInv.swap {c t k : Nat} {s₀ s s' : Kern D} (h : CnotInv c t s₀ k s)
    (hk : CnotLow c t k) (hframe : SameFrame s s')
    (hswap : amp s' = Function.update (Function.update (amp s) k (amp s (Nat.flipBit t k)))
      (Nat.flipBit t k) (amp s k)) :
    CnotInv c t s₀ (k + 1) s' := by
  have hself : amp s k = amp s₀ k :=
    h.rest k (fun _ => le_refl k) (fun hl => absurd hl hk.not_flipBit)
  have hpart : amp s (Nat.flipBit t k) = amp s₀ (Nat.flipBit t k) := by
    refine h.rest _ (fun hl => absurd hl hk.not_flipBit) (fun _ => ?_)
    rw [Nat.flipBit_flipBit]
  rw [hself, hpart] at hswap
  refine ⟨h.frame.trans hframe, ?_, ?_⟩
  · intro i hi hil
    rw [hswap]
    by_cases hik : i = k
    · subst hik
      exact Nat.update_pair_self t i (amp s) _ _
    · -- neither end of an earlier pair is an end of this one
      have hif : i ≠ Nat.flipBit t k := by
        intro heq
        exact hk.not_flipBit (heq ▸ hil)
      rw [Nat.update_pair_of_ne t k (amp s) _ _ hik hif,
        Nat.update_pair_flipBit_of_ne t k (amp s) _ _ hik hif]
      exact h.done i (by omega) hil
  · intro x hx hxf
    have h1 : x ≠ k := by
      rintro rfl
      have := hx hk
      omega
    have h2 : x ≠ Nat.flipBit t k := by
      rintro rfl
      rw [Nat.flipBit_flipBit] at hxf
      have := hxf hk
      omega
    rw [hswap, Nat.update_pair_of_ne t k (amp s) _ _ h1 h2]
    refine h.rest x (fun hl => ?_) (fun hl => ?_)
    · have := hx hl
      omega
    · have := hxf hl
      omega

/-- One iteration of `cnot_pair`. -/
private theorem cnotInv_step (c t : Nat) (s₀ : Kern D) (k : Nat) (s : Kern D)
    (h : CnotInv c t s₀ k s) :
    CnotInv c t s₀ (k + 1) ((cnotPairStep (1 <<< c) (1 <<< t) k).run s).2 := by
  by_cases hk : CnotLow c t k
  · -- the pair is swapped once, from its lower end
    have hs := run_cnotPairStep_low hk s
    exact h.swap hk hs.frame hs.amp
  · rw [run_cnotPairStep_skip hk]
    exact h.skip hk

/-- The loop runs over all indices of the register. -/
theorem run_cnotPair (c t : Nat) (s : Kern D) :
    ((cnotPair c t).run s).2 =
      ((Loop.up s.kernDim (fun i _ => cnotPairStep (1 <<< c) (1 <<< t) i) ()).run s).2 := rfl

/-- The invariant after the whole loop. -/
theorem cnotInv_loop (c t : Nat) (s₀ : Kern D) :
    CnotInv c t s₀ s₀.kernDim ((cnotPair c t).run s₀).2 := by
  rw [run_cnotPair]
  apply Loop.up_inv (fun k (_ : Unit) s => CnotInv c t s₀ k s)
  · exact ⟨SameFrame.refl s₀, fun i hi => by omega, fun x _ _ => rfl⟩
  · intro k _ s _ h
    exact cnotInv_step c t s₀ k s h

/-- `cnot_pair` changes the amplitudes only. -/
theorem cnotPair_frame (c t : Nat) (s : Kern D) : SameFrame s ((cnotPair c t).run s).2 :=
  (cnotInv_loop c t s).frame

/-- `cnot_pair` on a register of `n` qubits permutes the amplitudes below `2 ^ n`. -/
theorem cnotPair_amp {n c t : Nat} (ht : t < n) (hct : c ≠ t) (s : Kern D)
    (hdim : s.kernDim = 2 ^ n) (x : Nat) :
    amp ((cnotPair c t).run s).2 x =
      if x < 2 ^ n then amp s (cnotIndex c t x) else amp s x := by
  have h := cnotInv_loop c t s
  rw [hdim] at h
  by_cases hx : x < 2 ^ n
  · rw [if_pos hx, cnotIndex]
    cases hc : x.testBit c with
    | false =>
      have hcf : (Nat.flipBit t x).testBit c = false := by
        rw [Nat.testBit_flipBit_of_ne (Ne.symm hct), hc]
      rw [if_neg (by decide)]
      refine h.rest x (fun hl => ?_) (fun hl => ?_)
      · exact absurd rfl (Nat.ne_of_testBit hc hl.1)
      · exact absurd rfl (Nat.ne_of_testBit hcf hl.1)
    | true =>
      rw [if_pos rfl]
      cases hb : x.testBit t with
      | false => exact (h.done x hx ⟨hc, hb⟩).1
      | true =>
        -- `x` is the upper end of its pair
        have hlow : CnotLow c t (Nat.flipBit t x) := by
          refine ⟨?_, by simp [hb]⟩
          rw [Nat.testBit_flipBit_of_ne (Ne.symm hct), hc]
        have hd := (h.done _ (Nat.flipBit_lt ht hx) hlow).2
        rwa [Nat.flipBit_flipBit] at hd
  · rw [if_neg hx]
    have hge := (Nat.flipBit_lt_iff (x := x) ht).not.mpr hx
    exact h.rest x (fun _ => by omega) (fun _ => by omega)

/-- `cnot_pair` indexes `psi` inside its array. -/
theorem cnotPair_safe {n c t : Nat} {pt : UInt32} {size : Fin 4 → Nat} (ht : t < n)
    (s : Kern D) (hw : WidthOk n s) (hs : Safe pt size s) :
    Safe pt size ((cnotPair c t).run s).2 := by
  obtain ⟨-, hdim, hn⟩ := hw
  rw [run_cnotPair, hdim]
  apply Loop.up_inv (fun _ (_ : Unit) s => Safe pt size s)
  · exact hs
  · intro i _ s hi hsafe
    by_cases hl : CnotLow c t i
    · refine hsafe.of_log (run_cnotPairStep_low hl s).log ?_
      have h1 := lt_dimMax hn hi
      have h2 := lt_dimMax hn (Nat.flipBit_lt ht hi)
      simp [Access.InBounds, Stat.cap, h1, h2]
    · rw [run_cnotPairStep_skip hl]
      exact hsafe

/-! ## `reset_psi` -/

/-- The first basis vector. -/
def basisZero [RatCast D] (x : Nat) : D × D :=
  if x = 0 then (lit 1, lit 0) else (lit 0, lit 0)

/-- The loop of `reset_psi`. -/
private theorem resetPsi_loop [RatCast D] (s : Kern D) (dim : Nat) :
    let s' := ((Loop.up dim (fun i (_ : Unit) => do
      writeStat .psiRe i (lit 0 : D)
      writeStat .psiIm i (lit 0)) ()).run s).2
    SameFrame s s' ∧
    (∀ x, amp s' x = if x < dim then (lit 0, lit 0) else amp s x) ∧
    ∀ a ∈ s'.log, a ∈ s.log ∨ ∃ i < dim, a = .writeStat .psiRe i ∨ a = .writeStat .psiIm i := by
  -- the first `k` amplitudes are zero, and no other array has been written
  apply Loop.up_inv (fun k (_ : Unit) s' => SameFrame s s' ∧
    (∀ x, amp s' x = if x < k then (lit 0, lit 0) else amp s x) ∧
    ∀ a ∈ s'.log, a ∈ s.log ∨ ∃ i < dim, a = .writeStat .psiRe i ∨ a = .writeStat .psiIm i)
  · exact ⟨SameFrame.refl s, fun x => by simp, fun a ha => Or.inl ha⟩
  · rintro k _ t hk ⟨hf, ha, hl⟩
    simp only [StateM.run_bind, run_writeStat]
    refine ⟨hf.trans ⟨rfl, rfl, rfl, rfl⟩, ?_, ?_⟩
    · intro x
      by_cases hx : x = k
      · simp [amp, hx]
      · have h := ha x
        simp only [amp] at h ⊢
        simp only [show x < k + 1 ↔ x < k by omega, ← h]
        simp [hx]
    · intro a hmem
      simp only [List.mem_cons] at hmem
      rcases hmem with rfl | rfl | hmem
      · exact Or.inr ⟨k, hk, Or.inr rfl⟩
      · exact Or.inr ⟨k, hk, Or.inl rfl⟩
      · exact hl a hmem

/-- `reset_psi` changes the amplitudes only. -/
theorem resetPsi_frame [RatCast D] (s : Kern D) : SameFrame s (resetPsi.run s).2 :=
  (resetPsi_loop s s.kernDim).1.trans ⟨rfl, rfl, rfl, rfl⟩

/-- `reset_psi` prepares the first basis vector below `kern_dim`. -/
theorem resetPsi_amp [RatCast D] (s : Kern D) {x : Nat} (hx : x < s.kernDim) :
    amp (resetPsi.run s).2 x = basisZero x := by
  have h := (resetPsi_loop s s.kernDim).2.1 x
  rw [if_pos hx] at h
  simp only [resetPsi, StateM.run_bind, StateM.run_get, run_writeStat]
  simp only [amp] at h ⊢
  by_cases h0 : x = 0
  · subst h0
    have h2 := congrArg Prod.snd h
    simp only at h2
    simp [basisZero, h2]
  · simp [basisZero, h0, h]

/-- `reset_psi` indexes `psi` inside its array. -/
theorem resetPsi_safe [RatCast D] {n : Nat} {pt : UInt32} {size : Fin 4 → Nat}
    (s : Kern D) (hw : WidthOk n s) (hs : Safe pt size s) :
    Safe pt size (resetPsi.run s).2 := by
  obtain ⟨-, hdim, hn⟩ := hw
  have hl := (resetPsi_loop s s.kernDim).2.2
  simp only [resetPsi, StateM.run_bind, StateM.run_get, run_writeStat]
  intro a ha
  rw [List.mem_cons] at ha
  rcases ha with rfl | ha
  · exact lt_dimMax hn (Nat.two_pow_pos n)
  · rcases hl a ha with h | ⟨i, hi, rfl | rfl⟩
    · exact hs a h
    · exact lt_dimMax hn (hdim ▸ hi)
    · exact lt_dimMax hn (hdim ▸ hi)

end OpteeRpi5.Spec
