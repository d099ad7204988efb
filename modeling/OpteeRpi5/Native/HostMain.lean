import OpteeRpi5.Native.QaiTa

/-!
# The normal-world client

`host/main.c`: the XOR stream of the host, the reference inference `ree_infer` and the
requests that `tee_infer` sends. The host keeps its own copies of the key and of the
model parameters. Printing, timing and session handling are left out.
-/

namespace OpteeRpi5.Native

/-- `g_prot_key`. -/
def gProtKey : List UInt8 :=
  [0x51, 0x41, 0x49, 0x2d, 0x4f, 0x50, 0x54, 0x45,
   0x45, 0x2d, 0x50, 0x49, 0x35, 0x2d, 0x4b, 0x31]

def reeBaselineW : List Int32 := [1, 1, 1, 1]
def reeTinymlW : List Int32 := [441, 775, -300, 232]
def reeTinymlBias : Int32 := 12
def reeTheta : List Int32 := [99, 146, -64, 47]
def reeGamma : List Int32 := [5, -2, 2, 0]
def reeQaiBias : Int32 := -1

/-- `xor_crypt(buf + off, len)`. -/
def xorCrypt (buf : Buf) (off len : Nat) : Buf :=
  Loop.fold len
    (fun i b => Function.update b (off + i) (b (off + i) ^^^ gProtKey.getD (i % qaiProtKeyLen) 0))
    buf

/-- `ree_infer`: every model accumulates in an `int64_t` and narrows at the end. -/
def reeInfer (model : UInt32) (x : Nat → Int32) (n : UInt32) : QaiOutput :=
  let lim := featureLim n
  let score : Int32 :=
    if model = qaiModelBaseline then
      (Loop.fold lim (fun i acc => acc + (reeBaselineW.getD i 0).toInt64 * (x i).toInt64)
        (0 : Int64)).toInt32
    else if model = qaiModelTinyml then
      let acc := Loop.fold lim
        (fun i acc => acc + (reeTinymlW.getD i 0).toInt64 * (x i).toInt64) reeTinymlBias.toInt64
      (acc / qaiFpScale).toInt32
    else
      let acc := Loop.fold lim
        (fun i acc => acc + (reeTheta.getD i 0).toInt64 * (x i).toInt64) reeQaiBias.toInt64
      let acc := Loop.fold lim
        (fun i acc =>
          let j := (i + 1) % lim
          acc + (reeGamma.getD i 0).toInt64 * (x i).toInt64 * (x j).toInt64) acc
      (acc / qaiFpScale).toInt32
  { score := score
    prediction := if score > 0 then 1 else 0
    confidence := if score < 0 then -score else score
    modelId := model }

/-- `cmd_for_model`. -/
def cmdForModel (model : UInt32) : UInt32 :=
  if model = qaiModelTinyml then taQaiCmdInferTinyml
  else if model = qaiModelQai then taQaiCmdInferQai
  else taQaiCmdInferBaseline

/-! ## `tee_infer` -/

/-- `struct qai_input` of the host. -/
structure QaiInput where
  numFeatures : UInt32
  features : Nat → Int32

/-- The bytes of `struct qai_input`. -/
def QaiInput.toBuf (inp : QaiInput) : Buf :=
  Buf.ofWords (inp.numFeatures ::
    (List.range qaiMaxFeatures).map (fun i => (inp.features i).toUInt32))

/-- The message `pin` of the protected mode: zeroed, header, features, XOR stream. -/
def protectedMessage (model : UInt32) (inp : QaiInput) : Buf :=
  let pin : Buf := fun _ => 0
  let pin := pin.putLe32 0 inp.numFeatures
  let pin := pin.putLe32 4 model
  let pin := pin.copy offQaiProtectedCipher inp.toBuf offQaiInputFeatures
    (inp.numFeatures.toNat * 4)
  xorCrypt pin offQaiProtectedCipher (inp.numFeatures.toNat * 4)

/-- The request of `tee_infer`, with `out` as the output memref. -/
def teeInfer (model : UInt32) (protectedMode : Bool) (inp : QaiInput) (out : Memref) :
    Request where
  cmdId := if protectedMode then taQaiCmdInferProtected else cmdForModel model
  paramTypes := expMemrefs
  params := fun p =>
    match p with
    | 0 => if protectedMode then ⟨⟨protectedMessage model inp, sizeofQaiProtectedInput⟩, 0, 0⟩
      else ⟨⟨inp.toBuf, sizeofQaiInput⟩, 0, 0⟩
    | 1 => ⟨out, 0, 0⟩
    | _ => ⟨⟨fun _ => 0, 0⟩, 0, 0⟩

end OpteeRpi5.Native
