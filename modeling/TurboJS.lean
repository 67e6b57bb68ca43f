import TurboJS.OSR.Conditional
import TurboJS.Objects.Coherent
import TurboJS.Objects.CacheSound
import TurboJS.OSR.ArrayAgree
import TurboJS.IR.AccessSafe
import TurboJS.Frontend.StackDepth
import TurboJS.Frontend.LoweringSound
import TurboJS.Runtime.EntryHandles
import TurboJS.Runtime.IndexExact
import TurboJS.Runtime.RelaySound
import TurboJS.Region.AllOrNothing
import TurboJS.Baseline.Deopt
import TurboJS.GC.EdgesEnumerated
import TurboJS.Moves.ResolveCycle
import TurboJS.Moves.EdgeMoves
import TurboJS.OSR.MaskedCount
import TurboJS.Promises.SettleOnce
import TurboJS.Generators.AsyncGeneratorSound
import TurboJS.Memory.Client
import TurboJS.OSR.ImulXorshift
import TurboJS.OSR.FibSum
import TurboJS.OSR.LeafCall
import TurboJS.Leaf.RouterAgree
import TurboJS.Leaf.StringHash
import TurboJS.OSR.CountedLoopExact
import TurboJS.Leaf.AstVisitor
import TurboJS.OSR.Float64Overlap
import TurboJS.Optimizing.MeaningKept
import TurboJS.Shapes.Table
import TurboJS.Runtime.Profile
import TurboJS.Runtime.Accounts
import TurboJS.Runtime.NativeTiers
import TurboJS.Optimizing.Ranges
import TurboJS.AOT.Corruption
import TurboJS.Runtime.CallFeedback
import TurboJS.IR.Specialize
import TurboJS.Runtime.RootsBalanced
import TurboJS.Interpreter.Arithmetic
import TurboJS.Interpreter.IntegerConversion
import TurboJS.Bytecode.LineTable
import TurboJS.Interpreter.AddRelease
import TurboJS.BigInt.Compare
import TurboJS.Serialization.Checksum
import TurboJS.Optimizing.RegisterMap
