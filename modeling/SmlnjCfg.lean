import SmlnjCfg.Lib.Memory
import SmlnjCfg.Lib.Codec
import SmlnjCfg.Lib.Format
import SmlnjCfg.Lib.Truncation
import SmlnjCfg.Lib.CallConv
import SmlnjCfg.Lib.Layout
import SmlnjCfg.Lib.Arena
import SmlnjCfg.Lib.Simulation
import SmlnjCfg.Lib.TwoRuns
import SmlnjCfg.Asdl.Stream
import SmlnjCfg.Asdl.Integer
import SmlnjCfg.Asdl.Value
import SmlnjCfg.Asdl.Convert
import SmlnjCfg.Asdl.Equal
import SmlnjCfg.Asdl.FilePickle
import SmlnjCfg.LambdaVar
import SmlnjCfg.Asdl.Truncation
import SmlnjCfg.Asdl.Optional
import SmlnjCfg.Cfg.Syntax
import SmlnjCfg.Cfg.Pickle
import SmlnjCfg.Cfg.Unpickle
import SmlnjCfg.Asdl.Depth
import SmlnjCfg.Cfg.Format
import SmlnjCfg.Cfg.Enums
import SmlnjCfg.Cfg.Image
import SmlnjCfg.Cfg.RoundTrip
import SmlnjCfg.Cfg.Truncation
import SmlnjCfg.Target.Info
import SmlnjCfg.Target.JWA
import SmlnjCfg.IR.Syntax
import SmlnjCfg.IR.Exec
import SmlnjCfg.IR.Steps
import SmlnjCfg.IR.Module
import SmlnjCfg.Codegen.Context
import SmlnjCfg.Codegen.Builder
import SmlnjCfg.Codegen.Prim
import SmlnjCfg.Codegen.Stm
import SmlnjCfg.Codegen.Cluster
import SmlnjCfg.Codegen.Run
import SmlnjCfg.Codegen.Layout
import SmlnjCfg.Codegen.Exec
import SmlnjCfg.Codegen.Branch
import SmlnjCfg.Codegen.RawRecord
import SmlnjCfg.Codegen.RawAlloc
import SmlnjCfg.Codegen.Visit
import SmlnjCfg.Lib.Bits
import SmlnjCfg.Lib.Rounding
import SmlnjCfg.Codegen.FloatToInt
import SmlnjCfg.Codegen.Types
import SmlnjCfg.Codegen.PureArith
import SmlnjCfg.Codegen.Overflow
import SmlnjCfg.Codegen.Step
import SmlnjCfg.Codegen.Head
import SmlnjCfg.Codegen.Grow
import SmlnjCfg.Codegen.Ready
import SmlnjCfg.Codegen.ClusterRun
import SmlnjCfg.Codegen.FragEntry
import SmlnjCfg.Codegen.Computed
import SmlnjCfg.Codegen.Regs
import SmlnjCfg.Codegen.Trap
import SmlnjCfg.Codegen.RegVals
import SmlnjCfg.Codegen.Scope
import SmlnjCfg.Cfg.Machine
import SmlnjCfg.Cfg.Program
import SmlnjCfg.Cfg.Heap
import SmlnjCfg.Codegen.Fresh
import SmlnjCfg.Codegen.Tracks
import SmlnjCfg.Codegen.Eval
import SmlnjCfg.Codegen.Effects
import SmlnjCfg.Codegen.Entry
import SmlnjCfg.Codegen.Raise
import SmlnjCfg.Codegen.Args
import SmlnjCfg.Codegen.Collect
import SmlnjCfg.Codegen.Jump
import SmlnjCfg.Codegen.Choice
import SmlnjCfg.Codegen.Leave
import SmlnjCfg.Codegen.Simulate
import SmlnjCfg.Codegen.Heap
import SmlnjCfg.Codegen.Reads
import SmlnjCfg.Codegen.Blocks
import SmlnjCfg.Codegen.Unit
import SmlnjCfg.Codegen.Caches
import SmlnjCfg.Codegen.Session
import SmlnjCfg.Codegen.Constant
import SmlnjCfg.Codegen.Undeclared
import SmlnjCfg.ObjectFile.MemManager
import SmlnjCfg.ObjectFile.Allocate
