import OpteeRpi5.ForStd.StateM
import OpteeRpi5.ForStd.Loop
import OpteeRpi5.ForStd.Buf
import OpteeRpi5.ForStd.Bits
import OpteeRpi5.ForStd.UInt32
import OpteeRpi5.ForStd.SInt
import OpteeRpi5.ForStd.Run
import OpteeRpi5.ForStd.FileScript
import OpteeRpi5.ForStd.SpinLock
import OpteeRpi5.ForStd.RingPos
import OpteeRpi5.ForStd.LineEdit
import OpteeRpi5.ForStd.LineText
import OpteeRpi5.ForStd.LcCtype
import OpteeRpi5.ForStd.Fields
import OpteeRpi5.ForStd.PySlice
import OpteeRpi5.ForMathlib.Numerals
import OpteeRpi5.ForMathlib.Lcg
import OpteeRpi5.ForMathlib.Binary32
import OpteeRpi5.ForMathlib.SiteAct
import OpteeRpi5.ForMathlib.Mirror
import OpteeRpi5.ForMathlib.OverlapKernel
import OpteeRpi5.ForMathlib.Perturbation
import OpteeRpi5.ForMathlib.RoundedDot
import OpteeRpi5.ForMathlib.LogisticLoss
import OpteeRpi5.ForMathlib.TrigTaylor
import OpteeRpi5.Native.QaiAbi
import OpteeRpi5.Native.ModelParams
import OpteeRpi5.Native.Inference
import OpteeRpi5.Native.TaMachine
import OpteeRpi5.Native.FidelityKernel
import OpteeRpi5.Native.QaiTa
import OpteeRpi5.Native.HostMain
import OpteeRpi5.Native.HostProgram
import OpteeRpi5.Native.HaiTrain
import OpteeRpi5.Native.Trainers
import OpteeRpi5.Native.TrainLoop
import OpteeRpi5.Native.HaiKernel
import OpteeRpi5.Native.HaiInferClient
import OpteeRpi5.Native.HaiScore
import OpteeRpi5.Native.SwLog
import OpteeRpi5.Native.SwLogRegion
import OpteeRpi5.Native.SwLogBoot
import OpteeRpi5.Native.SwLogTool
import OpteeRpi5.Native.TraceExt
import OpteeRpi5.Native.BootConfig
import OpteeRpi5.Native.BootImage
import OpteeRpi5.Native.BootPartition
import OpteeRpi5.Native.WifiProfiles
import OpteeRpi5.Native.HaiSplit
import OpteeRpi5.Native.HaiPrepare
import OpteeRpi5.Native.HaiWindow
import OpteeRpi5.Spec.GatesCorrect
import OpteeRpi5.Spec.SingleQubitGate
import OpteeRpi5.Spec.TrigAccuracy
import OpteeRpi5.Spec.CircuitCorrect
import OpteeRpi5.Spec.KernelBlockCorrect
import OpteeRpi5.Spec.BenchCorrect
import OpteeRpi5.Spec.HaiCorrect
import OpteeRpi5.Spec.InferenceCorrect
import OpteeRpi5.Spec.InferenceExact
import OpteeRpi5.Spec.DecisionRule
import OpteeRpi5.Spec.Service
import OpteeRpi5.Spec.InvokeSafe
import OpteeRpi5.Spec.NoResidue
import OpteeRpi5.Spec.BenchHistory
import OpteeRpi5.Spec.PlaintextWiped
import OpteeRpi5.Spec.HostParity
import OpteeRpi5.Spec.HostProtocol
import OpteeRpi5.Spec.TrainerParity
import OpteeRpi5.Spec.TrainDescent
import OpteeRpi5.Spec.TrainBounds
import OpteeRpi5.Spec.HaiMargin
import OpteeRpi5.Spec.KernelClientCorrect
import OpteeRpi5.Spec.HaiClientCorrect
import OpteeRpi5.Spec.CircuitMirror
import OpteeRpi5.Spec.KernelSymmetric
import OpteeRpi5.Spec.KernelPosSemidef
import OpteeRpi5.Spec.KernelAccuracy
import OpteeRpi5.Spec.BenchAccuracy
import OpteeRpi5.Spec.HostService
import OpteeRpi5.Spec.SwLogCorrect
import OpteeRpi5.Spec.SwLogOrder
import OpteeRpi5.Spec.SwLogAttach
import OpteeRpi5.Spec.SwLogRegionSafe
import OpteeRpi5.Spec.SwLogToolSafe
import OpteeRpi5.Spec.SwLogTail
import OpteeRpi5.Spec.TraceSerial
import OpteeRpi5.Spec.SwLogReserved
import OpteeRpi5.Spec.BootConfigEdit
import OpteeRpi5.Spec.BootConfigCheck
import OpteeRpi5.Spec.SetConfigCorrect
import OpteeRpi5.Spec.BootArchive
import OpteeRpi5.Spec.BootRetry
import OpteeRpi5.Spec.BootImageCorrect
import OpteeRpi5.Spec.WifiProfilesFound
import OpteeRpi5.Spec.MovingAverageCorrect
import OpteeRpi5.Spec.HaiPrepareRun
import OpteeRpi5.Spec.HaiSplitDisjoint
import OpteeRpi5.Spec.HaiLevels
import OpteeRpi5.Spec.HaiAngles
import OpteeRpi5.Spec.BootArchive
import OpteeRpi5.Spec.BootRetry
