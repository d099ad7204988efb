import Mathlib.Order.Interval.Finset.Nat
import Mathlib.Data.Set.Card
import OpteeRpi5.Spec.Service

/-!
# Memory safety of an invocation

Whatever the command id, the parameter types, the memref sizes and the bytes of the
input, a call of `TA_InvokeCommandEntryPoint` stays inside its memrefs and arrays. The
size checks of the handlers multiply counts of the request modulo `2 ^ 32`; a count
that makes them wrap is rejected by the callee before it is used.

## Key results

- `invoke_inBounds`: accesses, failures and output sizes of every invocation
-/

namespace OpteeRpi5.Spec

open OpteeRpi5.Native

variable {D : Type}

/-- The offsets of memref `p` at which a call has stored. -/
def written (t : Ta D) (p : Fin 4) : Set Nat :=
  {off | .store p off ∈ t.trace}

/-- An access inside a buffer is inside a longer one. -/
theorem inBounds_mono {pt : UInt32} {size size' : Fin 4 → Nat}
    (hsize : ∀ p, size p ≤ size' p) {a : Access} (h : a.InBounds pt size) :
    a.InBounds pt size' := by
  cases a with
  | readStat | writeStat | readLoc | writeLoc | readPred | writePred => exact h
  | load p off | store p off => exact ⟨h.1, lt_of_lt_of_le h.2 (hsize p)⟩

/-- All accesses of a safe call are in bounds, those of the circuit included. -/
theorem TaSafe.trace {pt : UInt32} {size : Fin 4 → Nat} {t : Ta D} (h : TaSafe pt size t) :
    ∀ a ∈ t.trace, a.InBounds pt size := by
  intro a ha
  rw [Ta.trace, List.mem_append] at ha
  cases ha with
  | inl hk => exact inBounds_mono (fun _ => Nat.zero_le _) (h.1 a hk)
  | inr hl => exact h.2 a hl

/-- The circuit stores nothing in a memref. -/
theorem TaSafe.mem_written {pt : UInt32} {size : Fin 4 → Nat} {t : Ta D}
    (h : TaSafe pt size t) (p : Fin 4) (off : Nat) :
    off ∈ written t p ↔ .store p off ∈ t.log := by
  change .store p off ∈ t.trace ↔ _
  rw [Ta.trace, List.mem_append]
  constructor
  · rintro (hk | hl)
    · exact absurd (h.1 _ hk).2 (Nat.not_lt_zero off)
    · exact hl
  · exact Or.inr

/-- A call that is refused has stored nothing. -/
private theorem Serves.refused {pt rng : UInt32} {t₀ : Ta D} {ans : Answer}
    {r : TeeResult × Ta D} (h : Serves pt t₀ ans rng r) (hres : r.1 ≠ .success) :
    r.2.params = t₀.params ∧ ∀ p, written r.2 p = ∅ := by
  have hstores := h.stores
  have hparams := h.params
  rw [h.result] at hres
  cases ans with
  | badParameters | shortBuffer =>
    refine ⟨hparams, fun p => Set.eq_empty_of_forall_notMem fun off hoff => ?_⟩
    exact (hstores p off).mp ((h.safe.mem_written p off).mp hoff)
  | reply p bytes size => exact absurd rfl hres

/-- A call that succeeds has stored its reply. -/
private theorem Serves.replied {pt rng : UInt32} {t₀ : Ta D} {ans : Answer}
    {r : TeeResult × Ta D} (h : Serves pt t₀ ans rng r) (hres : r.1 = .success) :
    ∃ p, teeParamTypeGet pt p = teeParamTypeMemrefOutput ∧
      written r.2 p = Set.Iio (r.2.params p).memref.size ∧
      (r.2.params p).memref.size ≤ (t₀.params p).memref.size ∧
      (∀ off ∉ written r.2 p,
        (r.2.params p).memref.buffer off = (t₀.params p).memref.buffer off) ∧
      ∀ p' ≠ p, r.2.params p' = t₀.params p' ∧ written r.2 p' = ∅ := by
  have hmem := h.safe.mem_written
  have hstores := h.stores
  have hparams := h.params
  have hfits := h.fits
  rw [h.result] at hres
  -- only a reply has the result code of success
  cases ans with
  | badParameters => exact nomatch hres
  | shortBuffer => exact nomatch hres
  | reply p bytes size =>
    have hp : r.2.params p = { t₀.params p with
        memref := ⟨(t₀.params p).memref.buffer.copy 0 bytes 0 size, size⟩ } := by
      rw [hparams, Answer.params, Function.update_self]
    have hwritten : written r.2 p = Set.Iio size := by
      ext off
      rw [hmem, hstores, Set.mem_Iio]
      exact and_iff_right rfl
    refine ⟨p, hfits.1, by rw [hp]; exact hwritten, by rw [hp]; exact hfits.2, ?_, ?_⟩
    · intro off hoff
      rw [hwritten, Set.mem_Iio] at hoff
      rw [hp]
      exact Buf.copy_outside _ _ (by omega)
    · intro p' hne
      refine ⟨by rw [hparams, Answer.params, Function.update_of_ne hne], ?_⟩
      refine Set.eq_empty_of_forall_notMem fun off hoff => ?_
      exact hne ((hstores p' off).mp ((hmem p' off).mp hoff)).1

variable [RatCast D] [Add D] [Sub D] [Mul D] [Neg D] [Div D] [LT D] [DecidableLT D]
  [FloatConv D]

/-- Memory safety of one call of `TA_InvokeCommandEntryPoint`, for every state of the
    instance, stack and request:
    * every access is inside its array, or inside a memref of its direction and below
      the size the memref had on entry;
    * a call that does not return `TEE_SUCCESS` leaves every memref and size alone;
    * a call that returns `TEE_SUCCESS` has written the bytes of one output memref from
      offset zero up to its new size, which is at most the size on entry, and nothing
      else. -/
theorem invoke_inBounds (st : Statics D) (stk : Stack D) (req : Request) :
    let res := (invoke st stk req).1
    let t := (invoke st stk req).2
    (∀ a ∈ t.trace, a.InBounds req.paramTypes (fun p => (req.params p).memref.size)) ∧
    (res ≠ .success → t.params = req.params ∧ ∀ p, written t p = ∅) ∧
    (res = .success → ∃ p,
      teeParamTypeGet req.paramTypes p = teeParamTypeMemrefOutput ∧
      written t p = Set.Iio (t.params p).memref.size ∧
      (written t p).ncard = (t.params p).memref.size ∧
      (t.params p).memref.size ≤ (req.params p).memref.size ∧
      (∀ off ∉ written t p,
        (t.params p).memref.buffer off = (req.params p).memref.buffer off) ∧
      ∀ p' ≠ p, t.params p' = req.params p' ∧ written t p' = ∅) := by
  intro res t
  have h := invoke_serves st stk req
  refine ⟨h.safe.trace, h.refused, ?_⟩
  intro hres
  obtain ⟨p, hout, hwritten, hrest⟩ := h.replied hres
  refine ⟨p, hout, hwritten, ?_, hrest⟩
  rw [hwritten, Set.ncard_eq_toFinset_card', Set.toFinset_Iio, Nat.card_Iio]

end OpteeRpi5.Spec
