import OpteeRpi5.Native.BootImage

/-!
# The boot image, from the build to the entry of OP-TEE

What the build writes is accepted by the deployment, and whatever the deployment accepts
is at the load address when BL31 enters OP-TEE. The second part does not rely on the
first: the checks of the deployment alone fix the bytes of the embed region that the
image of OP-TEE takes up, and the copy moves the whole region.

## Key results

- `memcpy_eq_copy`: the byte loop is a block move if the regions do not overlap
- `buildArmstub_layout`: what the build writes
- `deployCheck_iff`: what the deployment accepts
- `imageLoaded_of_deployCheck`: the image after the copy of BL31
- `bootImage_correct`: both together
-/

namespace OpteeRpi5.Spec

open OpteeRpi5.Native

/-! ## The copy -/

/-- A loop that goes up and stores behind the bytes it still has to read is a block move.
    The regions must not overlap: the loop reads memory that it has changed. -/
theorem memcpy_eq_copy (m : Buf) {dst src len : Nat}
    (hapart : src + len ≤ dst ∨ dst + len ≤ src) :
    memcpy m dst src len = m.copy dst m src len := by
  refine Loop.fold_inv (fun i m' => m' = m.copy dst m src i) (Buf.copy_zero m m dst src).symm ?_
  rintro i m' hi rfl
  funext a
  -- the byte that iteration `i` reads is not one that was stored before
  have hread : m.copy dst m src i (src + i) = m (src + i) :=
    Buf.copy_outside m m (by omega)
  by_cases ha : a = dst + i
  · rw [if_pos ha, hread, ha, Buf.copy_inside m m (Nat.lt_succ_self i)]
  · rw [if_neg ha]
    by_cases hin : dst ≤ a ∧ a < dst + i
    · obtain ⟨j, rfl⟩ := Nat.exists_eq_add_of_le hin.1
      rw [Buf.copy_inside m m (by omega), Buf.copy_inside m m (by omega)]
    · rw [Buf.copy_outside m m (by omega), Buf.copy_outside m m (by omega)]

/-! ## The build -/

/-- The layout of an armstub that the build accepts. -/
theorem buildArmstub_layout {bl31Bin teeRaw : List UInt8} (hbl31 : bl31Bin.length ≤ bl31PadSize)
    (htee : teeRaw.length ≤ opteeEmbedSize) :
    buildArmstub bl31Bin teeRaw =
      .ok (bl31Bin ++ ddZero (bl31PadSize - bl31Bin.length) ++ teeRaw ++
        ddZero (opteeEmbedSize - teeRaw.length)) := by
  have hsize : (bl31Bin ++ ddZero (bl31PadSize - bl31Bin.length) ++ teeRaw ++
      ddZero (opteeEmbedSize - teeRaw.length)).length = bl31PadSize + opteeEmbedSize := by
    simp only [ddZero, List.length_append, List.length_replicate]
    omega
  unfold buildArmstub
  simp only [hsize]
  rw [if_neg (by omega), if_neg (by omega), if_neg (by omega)]

/-- The build accepts nothing else. -/
theorem length_le_of_buildArmstub {bl31Bin teeRaw armstub : List UInt8}
    (h : buildArmstub bl31Bin teeRaw = .ok armstub) :
    bl31Bin.length ≤ bl31PadSize ∧ teeRaw.length ≤ opteeEmbedSize := by
  simp only [buildArmstub] at h
  split at h
  · cases h
  · next hbl31 =>
    split at h
    · cases h
    · next htee => exact ⟨by omega, by omega⟩

/-! ## The deployment -/

/-- The region check compares with the bytes of the embed region. A slice that ran past
    the end would be shorter than the image. -/
theorem deployCheck_iff (artifactDir : String) (armstub tee : List UInt8) :
    deployCheck artifactDir armstub tee = .ok () ↔
      armstub.length = expectedArmstubSize ∧ tee <+: armstub.drop deployOff := by
  have hslice := PySlice.slice_natCast armstub deployOff tee.length
  have hprefix : tee <+: armstub.drop deployOff ↔
      (armstub.drop deployOff).take tee.length = tee := by
    rw [List.prefix_iff_eq_take, eq_comm]
  simp only [deployCheck]
  rw [hslice, hprefix]
  -- the two checks, in the order of the script
  constructor
  · intro h
    split at h
    · cases h
    · next hsize =>
      split at h
      · cases h
      · next hregion => exact ⟨Decidable.not_not.mp hsize, Decidable.not_not.mp hregion⟩
  · rintro ⟨hsize, hregion⟩
    rw [if_neg (Decidable.not_not.mpr hsize), if_neg (Decidable.not_not.mpr hregion)]

/-- The build and the deployment agree on the layout. -/
theorem deployCheck_buildArmstub {bl31Bin teeRaw armstub : List UInt8}
    (h : buildArmstub bl31Bin teeRaw = .ok armstub) (artifactDir : String) :
    armstub.length = 0x100000 ∧ bl31Bin <+: armstub ∧
      deployCheck artifactDir armstub teeRaw = .ok () := by
  obtain ⟨hbl31, htee⟩ := length_le_of_buildArmstub h
  rw [buildArmstub_layout hbl31 htee] at h
  obtain rfl := Except.ok.inj h
  have hpad : (bl31Bin ++ ddZero (bl31PadSize - bl31Bin.length)).length = deployOff := by
    rw [ddZero, List.length_append, List.length_replicate, deployOff]
    exact Nat.add_sub_cancel' hbl31
  have hembed : (teeRaw ++ ddZero (opteeEmbedSize - teeRaw.length)).length = 0x80000 := by
    rw [ddZero, List.length_append, List.length_replicate]
    exact Nat.add_sub_cancel' htee
  rw [deployCheck_iff, List.append_assoc _ teeRaw]
  refine ⟨?_, ?_, ?_, ?_⟩
  · rw [List.length_append, hpad, hembed]
    rfl
  · rw [List.append_assoc]
    exact List.prefix_append _ _
  · rw [List.length_append, hpad, hembed]
    rfl
  · -- the padding ends where the region check starts
    rw [← hpad, List.drop_left]
    exact List.prefix_append _ _

/-! ## The entry of OP-TEE -/

/-- The image is at the load address of OP-TEE, within its memory, nothing else has
    changed, and OP-TEE is entered at the first byte. -/
structure ImageLoaded (image : List UInt8) (m : Buf) (r : Buf × EntryPoint) : Prop where
  bytes : r.1.bytes rpi5OpteeLoadBase image.length = image
  window : image.length ≤ rpi5OpteeLoadSize
  frame : ∀ a, a < rpi5OpteeLoadBase ∨ rpi5OpteeLoadBase + image.length ≤ a → r.1 a = m a
  pc : r.2.pc = rpi5OpteeLoadBase
  entry : image.head? = some (r.1 r.2.pc)

/-- The embed region as it stands in memory. -/
theorem bytes_embed {m₀ m : Buf} {armstub : List UInt8}
    (hlen : armstub.length = expectedArmstubSize)
    (hm : ∀ a, rpi5OpteeEmbedBase ≤ a → m a = loadArmstub m₀ armstub a) :
    m.bytes rpi5OpteeEmbedBase rpi5OpteeEmbedSize = armstub.drop rpi5OpteeEmbedBase := by
  apply List.ext_getElem
  · rw [Buf.length_bytes, List.length_drop, hlen]
    rfl
  · intro i hi hi'
    rw [List.length_drop] at hi'
    rw [List.getElem_drop]
    simp only [Buf.bytes, List.getElem_map, List.getElem_range]
    rw [hm _ (by omega), loadArmstub, List.getD_eq_getElem?_getD,
      List.getElem?_eq_getElem (by omega), Option.getD_some]

/-- The copy of BL31 moves the embed region to the load address. -/
theorem imageLoaded_setup (stubMagic dtbPtr32 : UInt32) (m : Buf) :
    ImageLoaded (m.bytes rpi5OpteeEmbedBase rpi5OpteeEmbedSize) m
      (bl31EarlyPlatformSetup2 stubMagic dtbPtr32 m) := by
  have hmem : (bl31EarlyPlatformSetup2 stubMagic dtbPtr32 m).1 =
      m.copy rpi5OpteeLoadBase m rpi5OpteeEmbedBase rpi5OpteeEmbedSize := by
    -- the embed region ends below the load address
    have hapart : rpi5OpteeEmbedBase + rpi5OpteeEmbedSize ≤ rpi5OpteeLoadBase := by decide
    simp only [bl31EarlyPlatformSetup2]
    exact memcpy_eq_copy m (.inl hapart)
  have hlen := Buf.length_bytes m rpi5OpteeEmbedBase rpi5OpteeEmbedSize
  refine ⟨?_, ?_, ?_, rfl, ?_⟩
  · rw [hlen, hmem]
    exact Buf.bytes_congr fun i hi => Buf.copy_inside m m hi
  · rw [hlen]
    decide
  · intro a ha
    rw [hlen] at ha
    rw [hmem]
    exact Buf.copy_outside m m ha
  · have hpc : (bl31EarlyPlatformSetup2 stubMagic dtbPtr32 m).2.pc = rpi5OpteeLoadBase + 0 := by
      rw [bl31EarlyPlatformSetup2, Nat.add_zero]
    have hpos : 0 < rpi5OpteeEmbedSize := by decide
    rw [hmem, hpc, Buf.copy_inside m m hpos, Buf.bytes, List.head?_map, List.head?_range,
      if_neg (Nat.ne_of_gt hpos), Option.map_some]

/-- What the deployment has accepted is entered by BL31, wherever the armstub comes from. -/
theorem imageLoaded_of_deployCheck {artifactDir : String} {armstub tee : List UInt8}
    (h : deployCheck artifactDir armstub tee = .ok ()) {m₀ m : Buf}
    (hm : ∀ a, rpi5OpteeEmbedBase ≤ a → m a = loadArmstub m₀ armstub a)
    (stubMagic dtbPtr32 : UInt32) :
    ImageLoaded (tee ++ armstub.drop (rpi5OpteeEmbedBase + tee.length)) m
      (bl31EarlyPlatformSetup2 stubMagic dtbPtr32 m) := by
  obtain ⟨hlen, rest, hrest⟩ := (deployCheck_iff artifactDir armstub tee).mp h
  have himage : m.bytes rpi5OpteeEmbedBase rpi5OpteeEmbedSize =
      tee ++ armstub.drop (rpi5OpteeEmbedBase + tee.length) := by
    have hdrop : armstub.drop rpi5OpteeEmbedBase = tee ++ rest := hrest.symm
    rw [bytes_embed hlen hm, ← List.drop_drop, hdrop, List.drop_left]
  exact himage ▸ imageLoaded_setup stubMagic dtbPtr32 m

/-- Every pair of images that fit is built into an armstub that the deployment accepts;
    and with every armstub that the deployment accepts, OP-TEE is entered with its image
    at the load address, if nothing but the part of BL31 has changed in memory before. -/
theorem bootImage_correct :
    (∀ bl31Bin teeRaw : List UInt8,
      bl31Bin.length ≤ 0x80000 → teeRaw.length ≤ 0x80000 →
      ∃ armstub, buildArmstub bl31Bin teeRaw = .ok armstub) ∧
    (∀ bl31Bin teeRaw armstub : List UInt8, buildArmstub bl31Bin teeRaw = .ok armstub →
      ∀ artifactDir, armstub.length = 0x100000 ∧ bl31Bin <+: armstub ∧
        deployCheck artifactDir armstub teeRaw = .ok ()) ∧
    (∀ (artifactDir : String) (armstub tee : List UInt8),
      deployCheck artifactDir armstub tee = .ok () →
      ∀ m₀ m : Buf, (∀ a, 0x80000 ≤ a → m a = loadArmstub m₀ armstub a) →
      ∀ stubMagic dtbPtr32,
        ImageLoaded (tee ++ armstub.drop (0x80000 + tee.length)) m
          (bl31EarlyPlatformSetup2 stubMagic dtbPtr32 m)) := by
  -- building, checking what has been built, and loading what has been checked
  refine ⟨?_, ?_, ?_⟩
  · intro bl31Bin teeRaw hbl31 htee
    exact ⟨_, buildArmstub_layout hbl31 htee⟩
  · intro bl31Bin teeRaw armstub h artifactDir
    exact deployCheck_buildArmstub h artifactDir
  · intro artifactDir armstub tee h m₀ m hm stubMagic dtbPtr32
    exact imageLoaded_of_deployCheck h hm stubMagic dtbPtr32

end OpteeRpi5.Spec
