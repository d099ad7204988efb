import OpteeRpi5.Spec.GatesCorrect

/-!
# The circuit as an operation on amplitudes

`layer_fwd`, `layer_inv` and `fidelity_exp_reps` are loops over in-place gates on
static arrays. Seen from the amplitudes below `kern_dim` they are compositions of the
operations of `GatesCorrect`, and depend on nothing else that the static arrays, the
scratch arrays or the stack may hold.

## Key results

- `Refines`: circuit code implements an operation on amplitudes
- `fidelityCircuit_amp`: the statevector at the end is `circuitAct`
- `fidelityExpReps_run`: the kernel value is `fidelityValue`, whatever the state before
- `fidelityExpReps_safe`: all accesses are in bounds
-/

namespace OpteeRpi5.Spec

open OpteeRpi5.Native

variable {D : Type}

/-! ## Refinement -/

/-- Circuit code `m`, run on `n` qubits with feature vectors `loc`, implements the
    operation `F` on amplitudes. `F` sees the first `2 ^ n` amplitudes only. -/
structure Refines (n : Nat) (loc : Loc → Nat → D) (m : KernM D Unit)
    (F : (Nat → D × D) → Nat → D × D) : Prop where
  frame : ∀ s, WidthOk n s → s.loc = loc → SameFrame s (m.run s).2
  amp : ∀ s, WidthOk n s → s.loc = loc → ∀ x < 2 ^ n, amp (m.run s).2 x = F (Spec.amp s) x
  sees : ∀ f f', (∀ x < 2 ^ n, f x = f' x) → ∀ x < 2 ^ n, F f x = F f' x

/-- Circuit code `m` stays in bounds on `n` qubits. -/
def SafeOp (n : Nat) (m : KernM D Unit) : Prop :=
  ∀ pt size s, WidthOk n s → Safe pt size s →
    WidthOk n (m.run s).2 ∧ Safe pt size (m.run s).2

/-- Code in sequence refines the composition. -/
theorem Refines.seq {n : Nat} {loc : Loc → Nat → D} {m m' : KernM D Unit}
    {F F' : (Nat → D × D) → Nat → D × D} (h : Refines n loc m F) (h' : Refines n loc m' F') :
    Refines n loc (do m; m') (fun f => F' (F f)) where
  frame s hw hl := by
    have hf := h.frame s hw hl
    exact hf.trans (h'.frame _ (hw.of_frame hf) (hf.loc.trans hl))
  amp s hw hl x hx := by
    have hf := h.frame s hw hl
    rw [StateM.run_bind, h'.amp _ (hw.of_frame hf) (hf.loc.trans hl) x hx]
    exact h'.sees _ _ (h.amp s hw hl) x hx
  sees f f' hf := h'.sees _ _ (h.sees f f' hf)

/-- Code that runs like `m` on `n` qubits refines what `m` refines. -/
theorem Refines.of_run {n : Nat} {loc : Loc → Nat → D} {m m' : KernM D Unit}
    {F : (Nat → D × D) → Nat → D × D} (h : Refines n loc m F)
    (heq : ∀ s, WidthOk n s → (m'.run s).2 = (m.run s).2) : Refines n loc m' F where
  frame s hw hl := by rw [heq s hw]; exact h.frame s hw hl
  amp s hw hl := by rw [heq s hw]; exact h.amp s hw hl
  sees := h.sees

/-- A loop that counts up refines the composition of what its iterations refine. -/
theorem Refines.up {n : Nat} {loc : Loc → Nat → D} {k : Nat} {body : Nat → KernM D Unit}
    {F : Nat → (Nat → D × D) → Nat → D × D} (h : ∀ q < k, Refines n loc (body q) (F q)) :
    Refines n loc (Loop.up k (fun q _ => body q) ()) (Loop.fold k F) := by
  induction k with
  | zero => exact ⟨fun s _ _ => SameFrame.refl s, fun _ _ _ _ _ => rfl, fun _ _ hf => hf⟩
  | succ k ih => exact (ih (fun q hq => h q (by omega))).seq (h k (by omega))

/-- A loop that counts down refines the composition in the opposite order. -/
theorem Refines.down {n : Nat} {loc : Loc → Nat → D} {k : Nat} {body : Nat → KernM D Unit}
    {F : Nat → (Nat → D × D) → Nat → D × D} (h : ∀ q < k, Refines n loc (body q) (F q)) :
    Refines n loc (Loop.down k (fun q _ => body q) ()) (Loop.foldDown k F) := by
  induction k with
  | zero => exact ⟨fun s _ _ => SameFrame.refl s, fun _ _ _ _ _ => rfl, fun _ _ hf => hf⟩
  | succ k ih => exact (h k (by omega)).seq (ih (fun q hq => h q (by omega)))

/-- Code in sequence stays in bounds. -/
theorem SafeOp.seq {n : Nat} {m m' : KernM D Unit} (h : SafeOp n m) (h' : SafeOp n m') :
    SafeOp n (do m; m') := by
  intro pt size s hw hs
  obtain ⟨hw₁, hs₁⟩ := h pt size s hw hs
  exact h' pt size _ hw₁ hs₁

/-- Code that runs like safe code is safe. -/
theorem SafeOp.of_run {n : Nat} {m m' : KernM D Unit} (h : SafeOp n m)
    (heq : ∀ s, WidthOk n s → (m'.run s).2 = (m.run s).2) : SafeOp n m' := by
  intro pt size s hw hs
  rw [heq s hw]
  exact h pt size s hw hs

/-- A loop that counts up stays in bounds if its iterations do. -/
theorem SafeOp.up {n k : Nat} {body : Nat → KernM D Unit} (h : ∀ q < k, SafeOp n (body q)) :
    SafeOp n (Loop.up k (fun q _ => body q) ()) := by
  induction k with
  | zero => exact fun _ _ _ hw hs => ⟨hw, hs⟩
  | succ k ih => exact (ih (fun q hq => h q (by omega))).seq (h k (by omega))

theorem SafeOp.down {n k : Nat} {body : Nat → KernM D Unit} (h : ∀ q < k, SafeOp n (body q)) :
    SafeOp n (Loop.down k (fun q _ => body q) ()) := by
  induction k with
  | zero => exact fun _ _ _ hw hs => ⟨hw, hs⟩
  | succ k ih => exact (h k (by omega)).seq (ih (fun q hq => h q (by omega)))

/-! ## Gates -/

section Gates

variable [Add D] [Sub D] [Mul D]

/-- `apply_1q` is the action of its gate. -/
theorem apply1q_refines {n q : Nat} (hq : q < n) (loc : Loc → Nat → D) (g : Gate D) :
    Refines n loc (apply1q q g) (Gate.act g q) where
  frame s _ _ := apply1q_frame q g s
  amp s hw _ x hx := by rw [apply1q_amp hq g s hw.2.1 x, if_pos hx]
  sees f f' hf x hx := by
    simp only [Gate.act, hf x hx, hf _ (Nat.flipBit_lt hq hx)]

theorem apply1q_safeOp {n q : Nat} (hq : q < n) (g : Gate D) : SafeOp n (apply1q q g) :=
  fun _ _ s hw hs => ⟨hw.of_frame (apply1q_frame q g s), apply1q_safe hq g s hw hs⟩

end Gates

/-- `cnot_pair` permutes the amplitudes. -/
theorem cnotPair_refines {n c t : Nat} (ht : t < n) (hct : c ≠ t) (loc : Loc → Nat → D) :
    Refines n loc (cnotPair c t) (fun f x => f (cnotIndex c t x)) where
  frame s _ _ := cnotPair_frame c t s
  amp s hw _ x hx := by rw [cnotPair_amp ht hct s hw.2.1 x, if_pos hx]
  sees f f' hf x hx := hf _ (cnotIndex_lt ht hx)

theorem cnotPair_safeOp {n c t : Nat} (ht : t < n) : SafeOp n (cnotPair c t : KernM D Unit) :=
  fun _ _ s hw hs => ⟨hw.of_frame (cnotPair_frame c t s), cnotPair_safe ht s hw hs⟩

/-- The ring of `cnot_ring`, forwards. -/
def ringFwdAct (n : Nat) : (Nat → D × D) → Nat → D × D :=
  Loop.fold n (fun q f x => f (cnotIndex q ((q + 1) % n) x))

/-- The ring of `cnot_ring`, backwards. -/
def ringInvAct (n : Nat) : (Nat → D × D) → Nat → D × D :=
  Loop.foldDown n (fun q f x => f (cnotIndex q ((q + 1) % n) x))

/-- Neighbours on a ring of at least two qubits are different. -/
theorem ring_next_ne {n q : Nat} (hn : 2 ≤ n) (hq : q < n) : q ≠ (q + 1) % n := by
  rcases Nat.lt_or_ge (q + 1) n with h | h
  · rw [Nat.mod_eq_of_lt h]; omega
  · have he : q + 1 = n := by omega
    rw [he, Nat.mod_self]; omega

/-- The ring of the forward layer counts up. -/
theorem run_cnotRing_fwd (s : Kern D) : (cnotRing false).run s =
    (Loop.up s.kernNq (fun q _ => cnotPair q ((q + 1) % s.kernNq)) ()).run s := by
  simp only [cnotRing, StateM.run_bind, StateM.run_get, Bool.not_false, if_true]

/-- That of the inverse layer counts down. -/
theorem run_cnotRing_inv (s : Kern D) : (cnotRing true).run s =
    (Loop.down s.kernNq (fun q _ => cnotPair q ((q + 1) % s.kernNq)) ()).run s := by
  simp only [cnotRing, StateM.run_bind, StateM.run_get, Bool.not_true, Bool.false_eq_true,
    if_false]

/-- The forward ring is the product of its gates. -/
theorem cnotRing_fwd_refines {n : Nat} (hn : 2 ≤ n) (loc : Loc → Nat → D) :
    Refines n loc (cnotRing false) (ringFwdAct n) := by
  have h : Refines n loc (Loop.up n (fun q _ => cnotPair q ((q + 1) % n)) ())
      (ringFwdAct n) :=
    Refines.up (fun q hq =>
      cnotPair_refines (Nat.mod_lt _ (by omega)) (ring_next_ne hn hq) loc)
  refine h.of_run (fun s hw => ?_)
  rw [run_cnotRing_fwd, hw.1]

/-- The inverse ring is the product in the opposite order. -/
theorem cnotRing_inv_refines {n : Nat} (hn : 2 ≤ n) (loc : Loc → Nat → D) :
    Refines n loc (cnotRing true) (ringInvAct n) := by
  have h : Refines n loc (Loop.down n (fun q _ => cnotPair q ((q + 1) % n)) ())
      (ringInvAct n) :=
    Refines.down (fun q hq =>
      cnotPair_refines (Nat.mod_lt _ (by omega)) (ring_next_ne hn hq) loc)
  refine h.of_run (fun s hw => ?_)
  rw [run_cnotRing_inv, hw.1]

theorem cnotRing_fwd_safeOp {n : Nat} (hn : 0 < n) :
    SafeOp n (cnotRing false : KernM D Unit) := by
  have h : SafeOp n (Loop.up n (fun q _ => (cnotPair q ((q + 1) % n) : KernM D Unit)) ()) :=
    SafeOp.up (fun q _ => cnotPair_safeOp (Nat.mod_lt _ hn))
  refine h.of_run (fun s hw => ?_)
  rw [run_cnotRing_fwd, hw.1]

theorem cnotRing_inv_safeOp {n : Nat} (hn : 0 < n) :
    SafeOp n (cnotRing true : KernM D Unit) := by
  have h : SafeOp n (Loop.down n (fun q _ => (cnotPair q ((q + 1) % n) : KernM D Unit)) ()) :=
    SafeOp.down (fun q _ => cnotPair_safeOp (Nat.mod_lt _ hn))
  refine h.of_run (fun s hw => ?_)
  rw [run_cnotRing_inv, hw.1]

/-! ## Layers -/

/-- Reading a feature changes the log only, so code that depends on it refines what it
    refines for the value of the feature. -/
private theorem readLoc_refines {n : Nat} {loc : Loc → Nat → D} {a : Loc} {i : Nat}
    {m : D → KernM D Unit} {F : (Nat → D × D) → Nat → D × D}
    (h : Refines n loc (m (loc a i)) F) : Refines n loc (do m (← readLoc a i)) F where
  frame s hw hl := by
    subst hl
    have hf := h.frame { s with log := .readLoc a i :: s.log } hw rfl
    exact ⟨hf.loc, hf.kernNq, hf.kernDim, hf.rngState⟩
  amp s hw hl x hx := by
    subst hl
    exact h.amp { s with log := .readLoc a i :: s.log } hw rfl x hx
  sees := h.sees

/-- Reading a feature inside its vector is safe. -/
private theorem readLoc_safeOp {n : Nat} {a : Loc} {i : Nat} (hi : i < a.cap)
    {m : D → KernM D Unit} (h : ∀ v, SafeOp n (m v)) :
    SafeOp n (do m (← readLoc a i)) := by
  intro pt size s hw hs
  refine h _ pt size { s with log := .readLoc a i :: s.log } hw ?_
  intro b hb
  rw [List.mem_cons] at hb
  rcases hb with rfl | hb
  · exact hi
  · exact hs b hb

/-- `reset_psi` prepares the first basis state. -/
theorem resetPsi_refines [RatCast D] (n : Nat) (loc : Loc → Nat → D) :
    Refines n loc resetPsi (fun _ => basisZero) where
  frame s _ _ := resetPsi_frame s
  amp s hw _ x hx := resetPsi_amp s (by rw [hw.2.1]; exact hx)
  sees _ _ _ _ _ := rfl

section Layers

variable [RatCast D] [Add D] [Sub D] [Mul D] [Neg D]

/-- The rotations of `layer_fwd` on qubit `q`. -/
def rotFwdAct (trig : Trig D) (x : Nat → D) (q : Nat) (f : Nat → D × D) : Nat → D × D :=
  Gate.act (rzGate trig (x (2 * q + 1))) q (Gate.act (ryGate trig (x (2 * q))) q f)

/-- The rotations of `layer_inv` on qubit `q`. -/
def rotInvAct (trig : Trig D) (y : Nat → D) (q : Nat) (f : Nat → D × D) : Nat → D × D :=
  Gate.act (ryGate trig (-y (2 * q))) q (Gate.act (rzGate trig (-y (2 * q + 1))) q f)

/-- `layer_fwd` as an operation on amplitudes. -/
def layerFwdAct (n : Nat) (trig : Trig D) (x : Nat → D) (f : Nat → D × D) : Nat → D × D :=
  Loop.fold n (rotFwdAct trig x) (ringFwdAct n (Loop.fold n (rotFwdAct trig x) f))

/-- `layer_inv` as an operation on amplitudes. -/
def layerInvAct (n : Nat) (trig : Trig D) (y : Nat → D) (f : Nat → D × D) : Nat → D × D :=
  Loop.foldDown n (rotInvAct trig y) (ringInvAct n (Loop.foldDown n (rotInvAct trig y) f))

/-- The rotations of a qubit, by its two features. -/
theorem rotFwd_refines {n q : Nat} (hq : q < n) (loc : Loc → Nat → D) (trig : Trig D)
    (x : Loc) : Refines n loc (rotFwd trig x q) (rotFwdAct trig (loc x) q) := by
  have h1 : Refines n loc (do applyRy trig q (← readLoc x (2 * q))) _ :=
    readLoc_refines (apply1q_refines hq loc (ryGate trig (loc x (2 * q))))
  have h2 : Refines n loc (do applyRz trig q (← readLoc x (2 * q + 1))) _ :=
    readLoc_refines (apply1q_refines hq loc (rzGate trig (loc x (2 * q + 1))))
  exact h1.seq h2

/-- The inverse rotations, in the opposite order. -/
theorem rotInv_refines {n q : Nat} (hq : q < n) (loc : Loc → Nat → D) (trig : Trig D)
    (y : Loc) : Refines n loc (rotInv trig y q) (rotInvAct trig (loc y) q) := by
  have h1 : Refines n loc (do applyRz trig q (-(← readLoc y (2 * q + 1)))) _ :=
    readLoc_refines (m := fun v => applyRz trig q (-v))
      (apply1q_refines hq loc (rzGate trig (-loc y (2 * q + 1))))
  have h2 : Refines n loc (do applyRy trig q (-(← readLoc y (2 * q)))) _ :=
    readLoc_refines (m := fun v => applyRy trig q (-v))
      (apply1q_refines hq loc (ryGate trig (-loc y (2 * q))))
  exact h1.seq h2

/-- A vector with two features for each qubit is long enough. -/
theorem rotFwd_safeOp {n q : Nat} (hq : q < n) (trig : Trig D) (x : Loc)
    (hx : 2 * n ≤ x.cap) : SafeOp n (rotFwd trig x q) := by
  have h1 : SafeOp n (do applyRy trig q (← readLoc x (2 * q))) :=
    readLoc_safeOp (by omega) (fun v => apply1q_safeOp hq (ryGate trig v))
  have h2 : SafeOp n (do applyRz trig q (← readLoc x (2 * q + 1))) :=
    readLoc_safeOp (by omega) (fun v => apply1q_safeOp hq (rzGate trig v))
  exact h1.seq h2

theorem rotInv_safeOp {n q : Nat} (hq : q < n) (trig : Trig D) (y : Loc)
    (hy : 2 * n ≤ y.cap) : SafeOp n (rotInv trig y q) := by
  have h1 : SafeOp n (do applyRz trig q (-(← readLoc y (2 * q + 1)))) :=
    readLoc_safeOp (m := fun v => applyRz trig q (-v)) (by omega)
      (fun v => apply1q_safeOp hq (rzGate trig (-v)))
  have h2 : SafeOp n (do applyRy trig q (-(← readLoc y (2 * q)))) :=
    readLoc_safeOp (m := fun v => applyRy trig q (-v)) (by omega)
      (fun v => apply1q_safeOp hq (ryGate trig (-v)))
  exact h1.seq h2

/-- A forward layer is rotations, the ring, and the rotations again. -/
theorem run_layerFwd (trig : Trig D) (x : Loc) (s : Kern D) : (layerFwd trig x).run s =
    (do Loop.up s.kernNq (fun q _ => rotFwd trig x q) ()
        cnotRing false
        Loop.up s.kernNq (fun q _ => rotFwd trig x q) () : KernM D Unit).run s := rfl

/-- An inverse layer runs the loops backwards. -/
theorem run_layerInv (trig : Trig D) (y : Loc) (s : Kern D) : (layerInv trig y).run s =
    (do Loop.down s.kernNq (fun q _ => rotInv trig y q) ()
        cnotRing true
        Loop.down s.kernNq (fun q _ => rotInv trig y q) () : KernM D Unit).run s := rfl

/-- `layer_fwd` is the action of the layer. -/
theorem layerFwd_refines {n : Nat} (hn : 2 ≤ n) (loc : Loc → Nat → D) (trig : Trig D)
    (x : Loc) : Refines n loc (layerFwd trig x) (layerFwdAct n trig (loc x)) := by
  have hrot := Refines.up (k := n) (fun q hq => rotFwd_refines hq loc trig x)
  have h := hrot.seq ((cnotRing_fwd_refines hn loc).seq hrot)
  refine h.of_run (fun s hw => ?_)
  rw [run_layerFwd, hw.1]

/-- `layer_inv` is the action of the inverse layer. -/
theorem layerInv_refines {n : Nat} (hn : 2 ≤ n) (loc : Loc → Nat → D) (trig : Trig D)
    (y : Loc) : Refines n loc (layerInv trig y) (layerInvAct n trig (loc y)) := by
  have hrot := Refines.down (k := n) (fun q hq => rotInv_refines hq loc trig y)
  have h := hrot.seq ((cnotRing_inv_refines hn loc).seq hrot)
  refine h.of_run (fun s hw => ?_)
  rw [run_layerInv, hw.1]

theorem layerFwd_safeOp {n : Nat} (hn : 0 < n) (trig : Trig D) (x : Loc)
    (hx : 2 * n ≤ x.cap) : SafeOp n (layerFwd trig x) := by
  have hrot := SafeOp.up (k := n) (fun q hq => rotFwd_safeOp hq trig x hx)
  refine (hrot.seq ((cnotRing_fwd_safeOp hn).seq hrot)).of_run (fun s hw => ?_)
  rw [run_layerFwd, hw.1]

theorem layerInv_safeOp {n : Nat} (hn : 0 < n) (trig : Trig D) (y : Loc)
    (hy : 2 * n ≤ y.cap) : SafeOp n (layerInv trig y) := by
  have hrot := SafeOp.down (k := n) (fun q hq => rotInv_safeOp hq trig y hy)
  refine (hrot.seq ((cnotRing_inv_safeOp hn).seq hrot)).of_run (fun s hw => ?_)
  rw [run_layerInv, hw.1]

/-! ## The fidelity -/

/-- The statevector of `fidelity_exp_reps`. -/
def circuitAct (n : Nat) (trig : Trig D) (x y : Nat → D) (reps : Nat) : Nat → D × D :=
  Loop.fold reps (fun _ => layerInvAct n trig y)
    (Loop.fold reps (fun _ => layerFwdAct n trig x) basisZero)

/-- The circuit of the kernel, from the first basis state. -/
theorem fidelityCircuit_refines {n : Nat} (hn : 2 ≤ n) (loc : Loc → Nat → D)
    (trig : Trig D) (x y : Loc) (reps : UInt32) :
    Refines n loc (fidelityCircuit trig x y reps)
      (fun _ => circuitAct n trig (loc x) (loc y) reps.toNat) :=
  (resetPsi_refines n loc).seq
    ((Refines.up (fun _ _ => layerFwd_refines hn loc trig x)).seq
      (Refines.up (fun _ _ => layerInv_refines hn loc trig y)))

/-- The statevector at the end of the circuit, whatever the state before. -/
theorem fidelityCircuit_amp {n : Nat} (hn : 2 ≤ n) (trig : Trig D) (x y : Loc)
    (reps : UInt32) (s : Kern D) (hw : WidthOk n s) {i : Nat} (hi : i < 2 ^ n) :
    amp ((fidelityCircuit trig x y reps).run s).2 i =
      circuitAct n trig (s.loc x) (s.loc y) reps.toNat i :=
  (fidelityCircuit_refines hn s.loc trig x y reps).amp s hw rfl i hi

/-- The circuit stays inside the arrays for vectors of the right length. -/
theorem fidelityCircuit_safeOp {n : Nat} (hn : 0 < n) (trig : Trig D) (x y : Loc)
    (reps : UInt32) (hx : 2 * n ≤ x.cap) (hy : 2 * n ≤ y.cap) :
    SafeOp n (fidelityCircuit trig x y reps) := by
  have hreset : SafeOp n (resetPsi : KernM D Unit) := fun _ _ s hw hs =>
    ⟨hw.of_frame (resetPsi_frame s), resetPsi_safe s hw hs⟩
  exact hreset.seq ((SafeOp.up (fun _ _ => layerFwd_safeOp hn trig x hx)).seq
    (SafeOp.up (fun _ _ => layerInv_safeOp hn trig y hy)))

variable [Div D] [LT D] [DecidableLT D]

/-- The kernel value of two feature vectors. -/
def fidelityValue (n : Nat) (trig : Trig D) (x y : Nat → D) (reps : Nat) : D :=
  let a := circuitAct n trig x y reps 0
  kExpUnit (clampUnit (a.1 * a.1 + a.2 * a.2))

/-- `fidelity_exp_reps` returns the kernel value of its two vectors, whatever the
    static arrays hold, and changes nothing but the static arrays. -/
theorem fidelityExpReps_run {n : Nat} (hn : 2 ≤ n) (trig : Trig D) (x y : Loc)
    (reps : UInt32) (s : Kern D) (hw : WidthOk n s) :
    ((fidelityExpReps trig x y reps).run s).1 =
      fidelityValue n trig (s.loc x) (s.loc y) reps.toNat ∧
    SameFrame s ((fidelityExpReps trig x y reps).run s).2 := by
  have ha := fidelityCircuit_amp hn trig x y reps s hw (Nat.two_pow_pos n)
  have hf := (fidelityCircuit_refines hn s.loc trig x y reps).frame s hw rfl
  have h1 := congrArg Prod.fst ha
  have h2 := congrArg Prod.snd ha
  simp only [amp] at h1 h2
  simp only [fidelityExpReps, StateM.run_bind, StateM.run_pure, run_readStat, h1, h2]
  exact ⟨rfl, hf.trans ⟨rfl, rfl, rfl, rfl⟩⟩

/-- `fidelity_exp_reps` stays in bounds. -/
theorem fidelityExpReps_safe {n : Nat} (hn : 0 < n) (trig : Trig D) (x y : Loc)
    (reps : UInt32) (hx : 2 * n ≤ x.cap) (hy : 2 * n ≤ y.cap) {pt : UInt32}
    {size : Fin 4 → Nat} (s : Kern D) (hw : WidthOk n s) (hs : Safe pt size s) :
    Safe pt size ((fidelityExpReps trig x y reps).run s).2 := by
  obtain ⟨hw', hs'⟩ := fidelityCircuit_safeOp hn trig x y reps hx hy pt size s hw hs
  simp only [fidelityExpReps, StateM.run_bind, StateM.run_pure, run_readStat]
  have h0 : 0 < qaiDimMax := by decide
  intro a ha
  simp only [List.mem_cons] at ha
  rcases ha with rfl | rfl | rfl | rfl | ha
  · exact h0
  · exact h0
  · exact h0
  · exact h0
  · exact hs' a ha

end Layers

end OpteeRpi5.Spec
