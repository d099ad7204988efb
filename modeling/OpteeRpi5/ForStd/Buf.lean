import Mathlib.Algebra.Group.Nat.Defs

/-!
# Byte buffers

A buffer is the memory from a pointer on: a total function from byte offsets to
bytes. Which offsets a program may touch is the business of the program logic, not
of the buffer.

`Buf.le32` reads a little-endian 32-bit word, `Buf.ofWords` lays words out in
memory, `Buf.copy`, `Buf.fill` and `Buf.putLe32` are `memmove`, `memset` and a word
store.

Candidates for upstreaming to Lean's standard library.
-/

/-- The memory from a pointer on. -/
abbrev Buf := Nat → UInt8

namespace Buf

/-- Byte `k` of a little-endian word. -/
def byteOf (w : UInt32) (k : Nat) : UInt8 :=
  UInt8.ofNat (w.toNat / 256 ^ k)

/-- The little-endian word at `off`. -/
def le32 (b : Buf) (off : Nat) : UInt32 :=
  UInt32.ofNat ((b off).toNat + (b (off + 1)).toNat * 256 +
    (b (off + 2)).toNat * 65536 + (b (off + 3)).toNat * 16777216)

/-- Consecutive little-endian words; zero bytes follow. -/
def ofWords (ws : List UInt32) : Buf :=
  fun i => byteOf (ws.getD (i / 4) 0) (i % 4)

/-- `memmove(dst + doff, src + soff, n)`. -/
def copy (dst : Buf) (doff : Nat) (src : Buf) (soff n : Nat) : Buf :=
  fun i => if doff ≤ i ∧ i < doff + n then src (soff + (i - doff)) else dst i

/-- `memset(dst + off, v, n)`. -/
def fill (dst : Buf) (off n : Nat) (v : UInt8) : Buf :=
  fun i => if off ≤ i ∧ i < off + n then v else dst i

/-- Store of a little-endian word. -/
def putLe32 (b : Buf) (off : Nat) (w : UInt32) : Buf :=
  copy b off (ofWords [w]) 0 4

/-- The first `m` bytes of `x`, then `y`. -/
def append (x : Buf) (m : Nat) (y : Buf) : Buf :=
  fun i => if i < m then x i else y (i - m)

/-- The `n` bytes at `off`. -/
def bytes (b : Buf) (off n : Nat) : List UInt8 :=
  (List.range n).map fun i => b (off + i)

/-! ## Words and bytes -/

/-- The word of the four bytes of `w` is `w`. -/
theorem ofNat_byteOf (w : UInt32) :
    UInt32.ofNat ((byteOf w 0).toNat + (byteOf w 1).toNat * 256 +
      (byteOf w 2).toNat * 65536 + (byteOf w 3).toNat * 16777216) = w := by
  have hw : w.toNat < 2 ^ 32 := w.toNat_lt
  apply UInt32.toNat_inj.mp
  simp only [byteOf, UInt32.toNat_ofNat', UInt8.toNat_ofNat']
  omega

/-- A word read from four bytes that spell `w` is `w`. -/
theorem le32_eq_of_bytes {b : Buf} {off : Nat} {w : UInt32}
    (h : ∀ k < 4, b (off + k) = byteOf w k) : le32 b off = w := by
  have h0 := h 0 (by omega)
  have h1 := h 1 (by omega)
  have h2 := h 2 (by omega)
  have h3 := h 3 (by omega)
  simp only [Nat.add_zero] at h0
  simp only [le32, h0, h1, h2, h3]
  exact ofNat_byteOf w

theorem ofWords_apply (ws : List UInt32) (k j : Nat) (hj : j < 4) :
    ofWords ws (4 * k + j) = byteOf (ws.getD k 0) j := by
  have hdiv : (4 * k + j) / 4 = k := by omega
  have hmod : (4 * k + j) % 4 = j := by omega
  simp only [ofWords, hdiv, hmod]

/-- The bytes after the first word are those of the other words. -/
theorem ofWords_cons_add (w : UInt32) (ws : List UInt32) (i : Nat) :
    ofWords (w :: ws) (i + 4) = ofWords ws i := by
  have hdiv : (i + 4) / 4 = i / 4 + 1 := by omega
  have hmod : (i + 4) % 4 = i % 4 := by omega
  simp only [ofWords, hdiv, hmod, List.getD_cons_succ]

/-- The bytes of the first word do not depend on the other words. -/
theorem ofWords_cons_of_lt (w : UInt32) (ws ws' : List UInt32) {i : Nat} (hi : i < 4) :
    ofWords (w :: ws) i = ofWords (w :: ws') i := by
  have hdiv : i / 4 = 0 := by omega
  simp only [ofWords, hdiv, List.getD_cons_zero]

/-- Word `k` of `ofWords ws`. -/
@[simp] theorem le32_ofWords (ws : List UInt32) (k : Nat) :
    le32 (ofWords ws) (4 * k) = ws.getD k 0 :=
  le32_eq_of_bytes (fun j hj => ofWords_apply ws k j hj)

/-- A word of zero bytes. -/
theorem le32_eq_zero {b : Buf} {off : Nat} (h : ∀ k < 4, b (off + k) = 0) : le32 b off = 0 :=
  le32_eq_of_bytes fun k hk => by
    rw [h k hk, byteOf, UInt32.toNat_zero, Nat.zero_div]
    rfl

/-- A word is determined by its bytes. -/
theorem byteOf_le32 (b : Buf) (off k : Nat) (hk : k < 4) :
    byteOf (le32 b off) k = b (off + k) := by
  have h0 := (b off).toNat_lt
  have h1 := (b (off + 1)).toNat_lt
  have h2 := (b (off + 2)).toNat_lt
  have h3 := (b (off + 3)).toNat_lt
  apply UInt8.toNat_inj.mp
  simp only [byteOf, le32, UInt8.toNat_ofNat', UInt32.toNat_ofNat']
  obtain rfl | rfl | rfl | rfl : k = 0 ∨ k = 1 ∨ k = 2 ∨ k = 3 := by omega
  · change _ = (b off).toNat
    omega
  · omega
  · omega
  · omega

/-- A word read depends on its four bytes only. -/
theorem le32_congr {b b' : Buf} {off off' : Nat}
    (h : ∀ k < 4, b (off + k) = b' (off' + k)) : le32 b off = le32 b' off' :=
  le32_eq_of_bytes fun k hk => (h k hk).trans (byteOf_le32 b' off' k hk).symm

theorem length_bytes (b : Buf) (off n : Nat) : (bytes b off n).length = n := by
  rw [bytes, List.length_map, List.length_range]

/-- The bytes at an offset depend on the range only. -/
theorem bytes_congr {b b' : Buf} {off off' n : Nat}
    (h : ∀ i < n, b (off + i) = b' (off' + i)) : bytes b off n = bytes b' off' n :=
  List.map_congr_left fun i hi => h i (List.mem_range.mp hi)

/-! ## Block moves -/

theorem copy_inside (dst src : Buf) {doff soff n i : Nat} (h : i < n) :
    copy dst doff src soff n (doff + i) = src (soff + i) := by
  simp only [copy]
  rw [if_pos (by omega), Nat.add_sub_cancel_left]

theorem copy_outside (dst src : Buf) {doff soff n i : Nat} (h : i < doff ∨ doff + n ≤ i) :
    copy dst doff src soff n i = dst i := by
  simp only [copy]
  rw [if_neg (by omega)]

@[simp] theorem copy_zero (dst src : Buf) (doff soff : Nat) :
    copy dst doff src soff 0 = dst := by
  funext i
  exact copy_outside dst src (by omega)

theorem fill_inside (dst : Buf) {off n i : Nat} (v : UInt8) (h : off ≤ i ∧ i < off + n) :
    fill dst off n v i = v :=
  if_pos h

/-- Two adjacent moves are one move of the joined blocks. -/
theorem copy_copy_append (dst x y : Buf) (m n : Nat) :
    copy (copy dst 0 x 0 m) m y 0 n = copy dst 0 (append x m y) 0 (m + n) := by
  funext i
  simp only [copy, append]
  by_cases hm : i < m
  · rw [if_neg (by omega), if_pos (by omega), if_pos (by omega), if_pos (by omega)]
  · by_cases hn : i < m + n
    · rw [if_pos (by omega), if_pos (by omega), if_neg (by omega)]
      congr 1
      omega
    · rw [if_neg (by omega), if_neg (by omega), if_neg (by omega)]

/-- A word inside a moved block is the word at the source. -/
theorem le32_copy_inside (dst src : Buf) {doff soff n i : Nat} (h : i + 4 ≤ n) :
    le32 (copy dst doff src soff n) (doff + i) = le32 src (soff + i) := by
  apply le32_congr
  intro k hk
  rw [Nat.add_assoc, copy_inside dst src (by omega), Nat.add_assoc]

/-- A word outside a moved block is unchanged. -/
theorem le32_copy_outside (dst src : Buf) {doff soff n i : Nat}
    (h : i + 4 ≤ doff ∨ doff + n ≤ i) :
    le32 (copy dst doff src soff n) i = le32 dst i := by
  apply le32_congr
  intro k hk
  exact copy_outside dst src (by omega)

@[simp] theorem le32_putLe32 (b : Buf) (off : Nat) (w : UInt32) :
    le32 (putLe32 b off w) off = w := by
  have h : le32 (copy b off (ofWords [w]) 0 4) (off + 0) = le32 (ofWords [w]) (4 * 0) :=
    le32_copy_inside b (ofWords [w]) (by omega)
  rw [le32_ofWords] at h
  exact h

theorem le32_putLe32_outside (b : Buf) {off i : Nat} (w : UInt32)
    (h : i + 4 ≤ off ∨ off + 4 ≤ i) :
    le32 (putLe32 b off w) i = le32 b i :=
  le32_copy_outside b (ofWords [w]) h

/-- A header of three words. -/
theorem le32_header (b : Buf) (u v w : UInt32) :
    let hdr := ((b.putLe32 0 u).putLe32 4 v).putLe32 8 w
    le32 hdr 0 = u ∧ le32 hdr 4 = v ∧ le32 hdr 8 = w := by
  refine ⟨?_, ?_, le32_putLe32 _ 8 w⟩
  · rw [le32_putLe32_outside _ _ (Or.inl (by omega)),
      le32_putLe32_outside _ _ (Or.inl (by omega)), le32_putLe32]
  · rw [le32_putLe32_outside _ _ (Or.inl (by omega)), le32_putLe32]

end Buf
