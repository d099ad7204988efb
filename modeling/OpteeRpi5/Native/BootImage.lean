import OpteeRpi5.ForStd.Buf
import OpteeRpi5.ForStd.Loop
import OpteeRpi5.ForStd.PySlice

/-!
# The boot image

The armstub is built by `build-rpi5-optee.sh`, checked by `deploy-rpi5-optee.sh`, loaded
at physical address 0, and taken apart by BL31, which copies the embedded OP-TEE image to
its load address. Each of the scripts and `platform_def.h` have the layout in constants
of their own. Console, timers, caches and the entry point of the next stage in the normal
world are left out of `bl31_early_platform_setup2`.
-/

namespace OpteeRpi5.Native

/-! ## build-rpi5-optee.sh -/

/-- `BL31_PAD_SIZE`. -/
def bl31PadSize : Nat := 0x80000

/-- `OPTEE_EMBED_SIZE`. -/
def opteeEmbedSize : Nat := 0x80000

/-- `dd if=/dev/zero bs=1 count=n`. -/
def ddZero (count : Nat) : List UInt8 :=
  List.replicate count 0

/-- The embedded armstub, or the error that the script exits with. -/
def buildArmstub (bl31Bin teeRaw : List UInt8) : Except String (List UInt8) :=
  let bl31Size := bl31Bin.length
  let teeSize := teeRaw.length
  if bl31Size > bl31PadSize then
    .error s!"ERROR: bl31.bin ({bl31Size}) exceeds BL31 pad region ({bl31PadSize})"
  else if teeSize > opteeEmbedSize then
    .error s!"ERROR: tee-raw.bin ({teeSize}) exceeds OP-TEE embed region ({opteeEmbedSize})"
  else
    let armstub := bl31Bin ++ ddZero (bl31PadSize - bl31Size) ++ teeRaw ++
      ddZero (opteeEmbedSize - teeSize)
    let armstubSize := armstub.length
    let expectedSize := bl31PadSize + opteeEmbedSize
    if armstubSize ≠ expectedSize then
      .error s!"ERROR: armstub size {armstubSize} != expected {expectedSize}"
    else
      .ok armstub

/-! ## deploy-rpi5-optee.sh -/

/-- `EXPECTED_ARMSTUB_SIZE`. -/
def expectedArmstubSize : Nat := 0x100000

/-- `off` in the Python part of the script. -/
def deployOff : Nat := 0x80000

/-- The checks of the armstub before it is copied to the board. -/
def deployCheck (artifactDir : String) (armstub tee : List UInt8) : Except String Unit :=
  let armstubSize := armstub.length
  if armstubSize ≠ expectedArmstubSize then
    .error (s!"ERROR: {artifactDir}/armstub8-2712-optee.bin is {armstubSize} bytes;\n" ++
      s!"       expected {expectedArmstubSize} (BL31 padded to 512KiB + OP-TEE padded to 512KiB).\n" ++
      "       Re-run ./build-rpi5-optee.sh before deploying.")
  else if PySlice.slice armstub deployOff ((deployOff + tee.length : Nat) : Int) ≠ tee then
    .error "ERROR: armstub OP-TEE region does not match tee-raw.bin; rebuild artifacts"
  else
    .ok ()

/-! ## BL31 -/

/-- `RPI5_OPTEE_EMBED_BASE`. -/
def rpi5OpteeEmbedBase : Nat := 0x80000

/-- `RPI5_OPTEE_EMBED_SIZE`. -/
def rpi5OpteeEmbedSize : Nat := 0x80000

/-- `RPI5_OPTEE_LOAD_BASE`. -/
def rpi5OpteeLoadBase : Nat := 0x1D000000

/-- `RPI5_OPTEE_LOAD_SIZE`. -/
def rpi5OpteeLoadSize : Nat := 0x02000000

/-- `MODE_RW_64`. -/
def modeRw64 : Nat := 0

/-- Physical memory after the firmware has loaded the armstub at address 0. -/
def loadArmstub (m : Buf) (armstub : List UInt8) : Buf :=
  fun a => armstub.getD a (m a)

/-- `memcpy` of the C library of the firmware: byte by byte, in memory that the stores
    change as it goes. -/
def memcpy (m : Buf) (dst src len : Nat) : Buf :=
  Loop.fold len (fun i m a => if a = dst + i then m (src + i) else m a) m

/-- The part of `bl32_image_ep_info` that is set here. -/
structure EntryPoint where
  pc : Nat
  arg0 : Nat
  arg1 : Nat
  arg2 : Nat
  arg3 : Nat

/-- `rpi4_get_dtb_address`. -/
def rpi4GetDtbAddress (stubMagic dtbPtr32 : UInt32) : Nat :=
  if stubMagic = 0 then dtbPtr32.toNat else 0

/-- `bl31_early_platform_setup2` under `RPI5_EMBEDDED_OPTEE`. -/
def bl31EarlyPlatformSetup2 (stubMagic dtbPtr32 : UInt32) (m : Buf) : Buf × EntryPoint :=
  (memcpy m rpi5OpteeLoadBase rpi5OpteeEmbedBase rpi5OpteeEmbedSize,
    { pc := rpi5OpteeLoadBase
      arg0 := modeRw64
      arg1 := 0
      arg2 := 0
      arg3 := rpi4GetDtbAddress stubMagic dtbPtr32 })

end OpteeRpi5.Native
