import Vibr.Claripy.Frontend.Replacement
import Vibr.Memory.RoundTrip
import Vibr.Memory.HistoryRuns
import Vibr.Memory.SymbolicBitmapRuns
import Vibr.Memory.MultiValuesExtract
import Vibr.Memory.ListPage
import Vibr.Memory.ConcreteView
import Vibr.Claripy.Frontend.SatCache
import Vibr.Claripy.Frontend.Components
import Vibr.Claripy.Simplifications.Shift
import Vibr.Claripy.Simplifications.Reverse
import Vibr.Claripy.Frontend.ModelCacheExtrema
import Vibr.Native.Automaton.Minimal
import Vibr.Native.SegmentList
import Vibr.Heap.Brk
import Vibr.Heap.PTMallocRuns
import Vibr.Decompiler.RegionGraph
import Vibr.Utils.QuasiTopological
import Vibr.Utils.DominanceFrontier
import Vibr.Utils.SubgraphBetween
import Vibr.Analyses.SLivenessExact
import Vibr.Vex.X86Simple
import Vibr.Claripy.Backend.Concrete
import Vibr.Claripy.Backend.Z3Solver
import Vibr.Claripy.Vsa.Arithmetic
import Vibr.Claripy.Vsa.BitwiseAnd
import Vibr.Claripy.Vsa.Extract
import Vibr.Claripy.Vsa.Widen
import Vibr.Claripy.Vsa.WarrenXor
import Vibr.Cfg.SpillingAdjDictRuns
import Vibr.Cfg.SpillingCFGRuns
import Vibr.Ailment.StructuralHash
import Vibr.Claripy.IteCases
import Vibr.Claripy.Algorithm.IteRelocation
import Vibr.Utils.TaggedIntervalMap
import Vibr.Cle.Backends.SRec
import Vibr.Cle.Backends.IHex
import Vibr.Cle.Backends.MachOBinding
import Vibr.Cle.View
import Vibr.Memory.KeyedRegionRuns
import Vibr.KeyDefinitions.Uses
import Vibr.Cle.Regions
import Vibr.Cle.Relocation.ArmExact
import Vibr.Peephole.TidyStackAddr
import Vibr.Peephole.MaskedShift
