import MerlinV.Verify.Worklist
import MerlinV.Cfg.Layout
import MerlinV.Cfg.Edges
import MerlinV.Cfg.Shift
import MerlinV.Cfg.Dominators
import MerlinV.Verify.Fixpoint
import MerlinV.Verify.Accept
import MerlinV.Verify.LoopGate
import MerlinV.Machine.Rv64
import MerlinV.Soundness.Transfer
import MerlinV.Verify.Points
import MerlinV.Machine.Shadow
import MerlinV.Soundness.Cover
import MerlinV.Soundness.Helpers
import MerlinV.Soundness.Flow
import MerlinV.Soundness.Memory
import MerlinV.Domain.Order
import MerlinV.Verify.Monotone
import MerlinV.Verify.OrderIndependence
import MerlinV.Verify.PostFixpoint
import MerlinV.Lib.SlotTable
import MerlinV.Txn.Store
import MerlinV.Txn.Algebra
import MerlinV.Txn.Refinement
import MerlinV.Txn.Atomicity
import MerlinV.Isa.Fields
import MerlinV.Isa.KernelDecode
import MerlinV.Isa.Encode
import MerlinV.Kernel.Cfg
import MerlinV.Kernel.Transfer
import MerlinV.Kernel.Verifier
import MerlinV.X86.Machine
import MerlinV.X86.Sequence
import MerlinV.Jit.Emit
import MerlinV.Jit.Translate
import MerlinV.Jit.Frame
import MerlinV.Jit.Discipline
import MerlinV.Jit.Simulation
import MerlinV.Jit.Preserve
import MerlinV.Kernel.Jit
import MerlinV.Ns.Compose
import MerlinV.Ns.Scope
import MerlinV.Txn.Invariant
import MerlinV.Attest.Quote
import MerlinV.Attest.Replay
import MerlinV.Attest.Counter
import MerlinV.Sign.Binding
import MerlinV.Sign.Embed
import MerlinV.Sign.Frame
import MerlinV.Kernel.Lifetime
import MerlinV.Kernel.Holders
import MerlinV.Cfg.Bounds
import MerlinV.Kernel.Bounds
import MerlinV.Elf.Layout
import MerlinV.Kernel.Loader
import MerlinV.Kernel.LoadedText
import MerlinV.Zephyr.Decode
import MerlinV.Zephyr.Verifier
import MerlinV.Zephyr.Runtime
import MerlinV.Zephyr.LoaderReads
import MerlinV.Zephyr.Handles
import MerlinV.Zephyr.Slots
import MerlinV.Fabric.AxiCtrl
import MerlinV.Fabric.Upload
import MerlinV.Zephyr.Termination
import MerlinV.Zephyr.Soundness
import MerlinV.Ns.Quota
import MerlinV.Sign.Verdict
import MerlinV.Telemetry.Shim
import MerlinV.Objtool.Digest
import MerlinV.Objtool.Validate
import MerlinV.Objtool.Reads
import MerlinV.Objtool.Relocs
import MerlinV.Soundness.Join
import MerlinV.Soundness.Callback
import MerlinV.Cfg.DominatorRuns
import MerlinV.Fabric.BusAdapter
import MerlinV.Domain.Operators
import MerlinV.Zephyr.ZeroRegister
import MerlinV.Attest.Nonce
import MerlinV.Domain.Record
import MerlinV.Cfg.Partition
import MerlinV.Lib.Runs
import MerlinV.Txn.Script
import MerlinV.Fabric.StubCore
import MerlinV.Fabric.System
import MerlinV.Lib.Numerals
import MerlinV.Ns.Cli
import MerlinV.Txn.Command
import MerlinV.Txn.Database
import MerlinV.Attest.Agreement
import MerlinV.Domain.Precision
import MerlinV.Kernel.System
import MerlinV.Lib.Climbing
import MerlinV.Objtool.Signed
import MerlinV.Verify.Policy
import MerlinV.Verify.Termination
import MerlinV.Zephyr.Dispatch
import MerlinV.Lib.Quiescence
import MerlinV.Kernel.Drain
import MerlinV.Jit.Gating
import MerlinV.Verify.Offset
import MerlinV.Verify.Command
import MerlinV.Elf.Shows
import MerlinV.Sign.Loading
