import OpteeRpi5.Native.QaiAbi

/-!
# Model parameters resident in the TA

`ta/model_params.h` (the four-feature demo models and the XOR key) and
`ta/model_hai.h` (the sixteen-feature HAI models), with the tables as they stand in
the headers.
-/

namespace OpteeRpi5.Native

/-! ## `model_params.h` -/

def qaiBaselineW : List Int32 := [1, 1, 1, 1]
def qaiBaselineBias : Int32 := 0
def qaiBaselineThreshold : Int32 := 0

def qaiTinymlW : List Int32 := [441, 775, -300, 232]
def qaiTinymlBias : Int32 := 12
def qaiTinymlThreshold : Int32 := 0

def qaiTheta : List Int32 := [99, 146, -64, 47]
def qaiGamma : List Int32 := [5, -2, 2, 0]
def qaiQaiBias : Int32 := -1
def qaiQaiThreshold : Int32 := 0

def qaiProtKey : List UInt8 :=
  [0x51, 0x41, 0x49, 0x2d, 0x4f, 0x50, 0x54, 0x45,
   0x45, 0x2d, 0x50, 0x49, 0x35, 0x2d, 0x4b, 0x31]

/-! ## `model_hai.h` -/

def haiTinymlW : List Int32 :=
  [1859, 1667, -536, 488, -1264, 160, -579, -284, 144, -259, 298, 183, -170, 222, -124, 156]
def haiTinymlBias : Int32 := 2334

def haiPairwiseFakeTheta : List Int32 :=
  [2141, 1403, -813, 739, -1562, -137, -477, 153, 166, -104, 885, 1244, -134, 30, -151, -529]
def haiPairwiseFakeGamma : List Int32 :=
  [-532, 67, 168, 51, 17, 315, -459, 24, -92, -6, 1038, 155, -9, 1, 27, -604]
def haiPairwiseFakeBias : Int32 := 3262

end OpteeRpi5.Native
