import Jyd.Hdl.Machine
import Jyd.Hdl.Signal
import Jyd.Hdl.BitField
import Jyd.Hdl.LeadsTo
import Jyd.Hdl.SpecQueue
import Jyd.Hdl.LinkedList
import Jyd.Hdl.ByteMemory
import Jyd.Hdl.Axi4
import Jyd.Hdl.Queue
import Jyd.Hdl.CacheLines
import Jyd.Hdl.FunctionalUnit
import Jyd.Hdl.RestoringDivision
import Jyd.Isa.MExtension
import Jyd.Hdl.CarryLess
import Jyd.Hdl.Groups
import Jyd.Hdl.XorLinear
import Jyd.Isa.Arithmetic
import Jyd.Core.CommonDef
import Jyd.Core.BitManip
import Jyd.Core.BitManipulation
import Jyd.Core.Addressing
import Jyd.Core.Alu
import Jyd.Core.RegFile
import Jyd.Core.NumericTokenDfa
import Jyd.Core.Exu.NumericDfa
import Jyd.Core.Exu.ListReverse
import Jyd.Core.Exu.MatrixSum
import Jyd.Core.Exu.CsrTransaction
import Jyd.Core.DCache
import Jyd.Core.Lsu
import Jyd.Core.Exu
import Jyd.Core.Idu
import Jyd.Core.Ifu
import Jyd.Core.IfuStream
import Jyd.Core.BranchPredictor
import Jyd.Hdl.RingStack
import Jyd.Core.ReturnStack
import Jyd.Core.Top
import Jyd.Core.Decoded
import Jyd.Core.ExuOccupancy
import Jyd.Core.ExuControlFlow
import Jyd.Core.ExuRequests
import Jyd.Core.Prediction
import Jyd.Core.Flight
import Jyd.Core.Redirect
import Jyd.Core.FetchProgress
import Jyd.Core.DCacheLines
import Jyd.Core.Issue
import Jyd.Core.Operands
import Jyd.Core.OperandUse
import Jyd.Core.AluOccupancy
import Jyd.Soc.JydDevices
import Jyd.Soc.JydSoC
import Jyd.Soc.ControlFlow
import Jyd.Soc.FetchLiveness
import Jyd.Soc.DataBus
import Jyd.Soc.DualSimpleBusToAXI4
import Jyd.Soc.CPUTop
import Jyd.Soc.Responses
import Jyd.Soc.Coherence
import Jyd.Soc.PowerUp
import Jyd.Soc.AddressMap
import Jyd.Soc.MaskedRdWrMem
import Jyd.Soc.PeripheralBridge
import Jyd.Soc.BtbContract
import Jyd.Soc.AxiMemUnit
import Jyd.Soc.UartUnit
import Jyd.Soc.CacheContract
import Jyd.Soc.SequentialRegs
import Jyd.Soc.RamAccess
import Jyd.Nemu.Inst
import Jyd.Nemu.Crc
import Jyd.Nemu.Xlistrev
import Jyd.Soc.ListOp
import Jyd.Soc.ListLoop
import Jyd.Soc.ListReversal
import Jyd.Soc.XlistrevContract
import Jyd.Core.TokenScan
import Jyd.Core.Exu.DfaExecution
import Jyd.Coremark.CoreState
import Jyd.Coremark.XaccelWrappers
import Jyd.Soc.XdfaContract
import Jyd.Core.CsrExecution
import Jyd.Stdio.File
import Jyd.Cachesim.ItracePack
import Jyd.Cachesim.PackRoundTrip
import Jyd.Hdl.Transducer
import Jyd.Nemu.Profile
import Jyd.Nemu.ProfileDCache
import Jyd.Hdl.Tally
import Jyd.Nemu.ProfileDecode
import Jyd.Nemu.ProfileRecord
import Jyd.Branchsim.RtlModel
import Jyd.Branchsim.ProfileAgreement
import Jyd.Core.Division
import Jyd.Core.Multiplication
import Jyd.Core.CoreRun
import Jyd.Core.ArithmeticDecode
import Jyd.Core.Execution
import Jyd.Core.BranchResolution
import Jyd.Core.Residence
import Jyd.Nemu.Xmsum
import Jyd.Core.Exu.MatrixTraversal
import Jyd.Core.MatrixExecution
import Jyd.Coremark.Crc
import Jyd.Hdl.GrayCode
import Jyd.Soc.TickCounter
import Jyd.Hdl.AxiLite
import Jyd.Soc.UartSubsystem
import Jyd.Soc.UartDelivery
import Jyd.Soc.UartProgress
import Jyd.Soc.Uptime
import Jyd.Nemu.AssocDCache
import Jyd.Sdb.Ftrace
import Jyd.Text.Numeral
import Jyd.Coremark.EePrintf
import Jyd.Klib.Stdio
import Jyd.Klib.Printf
import Jyd.Klib.Stdlib
import Jyd.Coe.InitStrings
import Jyd.Coe.Placement
import Jyd.Hdl.CacheHistory
import Jyd.Soc.ProfileCache
import Jyd.Text.OperatorChain
import Jyd.Sdb.Expr
import Jyd.Sdb.ExprRanges
import Jyd.Sdb.ExprPieces
import Jyd.Sdb.ExprTokens
import Jyd.Sdb.ExprReading
import Jyd.Sdb.ExprRender
import Jyd.Sdb.ExprStuck
import Jyd.Graph.Worklist
import Jyd.Objdump.DirectCfg
import Jyd.Objdump.Classify
import Jyd.Core.ProfileClassification
import Jyd.Report.Stages
import Jyd.Audit.Python
import Jyd.Audit.Sidecar
import Jyd.Audit.FinalPromotion
import Jyd.Audit.Exceptions
import Jyd.Soc.CompletedSteps
