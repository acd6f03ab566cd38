import Vibr.Lib.Dict
import Vibr.Lib.DiGraph

/-!
# Spilling control-flow graphs

`SpillingCFG` keeps a graph over block keys, the nodes by their keys, and three indexes that
its operations maintain by hand: the out-degrees, the destinations of calls, and the keys at
each address.

The graph is a `networkx` graph whose adjacency dictionaries spill their entries to a store.
An edge has its data twice, at its source and at its destination; they are the same object
until one of them has been through the store, which keeps three attributes and gives a
value to those that were missing. Operations return `none` where the source raises.
-/

namespace Angr

structure BlockID where
  addr : Nat
  callsiteTuples : Option (List (Option Nat))
  jumpType : String
  deriving DecidableEq

structure SootAddressDescriptor where
  className : String
  name : String
  params : List String
  blockIdx : Nat
  stmtIdx : Nat
  deriving DecidableEq

namespace SpillingCFG

inductive Addr
  | int (addr : Nat)
  | soot (addr : SootAddressDescriptor)
  deriving DecidableEq

/-- The keys of blocks: address and size; context, size and number of times through a loop;
or an address of Soot. -/
inductive K
  | cfgNode (addr : Nat) (size : Int)
  | cfgeNode (blockId : BlockID) (size : Int) (loopingTimes : Nat)
  | soot (addr : SootAddressDescriptor)
  deriving DecidableEq

/-- A node of the graph. The block ID of a `CFGNode` is its address, and that of a
`CFGENode` has its address. -/
inductive CFGNode
  | cfgNode (addr : Nat) (size : Option Nat)
  | cfgeNode (blockId : BlockID) (size : Option Nat) (loopingTimes : Option Nat)
  | soot (addr : SootAddressDescriptor)
  deriving DecidableEq

def CFGNode.addr : CFGNode → Addr
  | .cfgNode addr _ => .int addr
  | .cfgeNode blockId _ _ => .int blockId.addr
  | .soot addr => .soot addr

/-- The size in a key. -/
def keySize : Option Nat → Int
  | some size => size
  | none => -1

def getBlockKey : CFGNode → K
  | .soot addr => .soot addr
  | .cfgNode addr size => .cfgNode addr (keySize size)
  | .cfgeNode blockId size loopingTimes => .cfgeNode blockId (keySize size) (loopingTimes.getD 0)

def blockKeyToAddr : K → Addr
  | .soot addr => .soot addr
  | .cfgNode addr _ => .int addr
  | .cfgeNode blockId _ _ => .int blockId.addr

theorem blockKeyToAddr_getBlockKey (node : CFGNode) : blockKeyToAddr (getBlockKey node) = node.addr := by
  cases node <;> rfl

/-! ## Edge data -/

/-- The values of attributes. -/
inductive Attr
  | none
  | str (s : String)
  | int (n : Int)
  deriving DecidableEq

abbrev EdgeData := DiGraph.EdgeData Attr

/-- `edata.get("jumpkind", "")`, where that is a string. -/
def jumpkind (edata : EdgeData) : Option String :=
  match edata "jumpkind" with
  | .none => some ""
  | some (.str s) => some s
  | some _ => .none

def isCallKind (jk : String) : Bool := jk = "Ijk_Call" ∨ "Ijk_Sys".toList.isPrefixOf jk.toList

/-- The test of an edge for a call; there is no prefix of a value that is not a string. -/
def isCall (edata : EdgeData) : Option Bool := (jumpkind edata).map isCallKind

/-- The keys of `_CFG_JUMPKINDS`. -/
def cfgJumpkinds : List String :=
  ["Ijk_8jzf8", "Ijk_Boring", "Ijk_Call", "Ijk_ClientReq", "Ijk_EmFail", "Ijk_EmWarn", "Ijk_Exception",
    "Ijk_FakeRet", "Ijk_FlushDCache", "Ijk_InvalICache", "Ijk_MapFail", "Ijk_NoDecode", "Ijk_NoRedir",
    "Ijk_Privileged", "Ijk_Ret", "Ijk_SigBUS", "Ijk_SigFPE", "Ijk_SigFPE_IntDiv", "Ijk_SigFPE_IntOvf",
    "Ijk_SigILL", "Ijk_SigSEGV", "Ijk_SigTRAP", "Ijk_Syscall", "Ijk_Sys_int", "Ijk_Sys_int128",
    "Ijk_Sys_int129", "Ijk_Sys_int130", "Ijk_Sys_int145", "Ijk_Sys_int210", "Ijk_Sys_int32",
    "Ijk_Sys_syscall", "Ijk_Sys_sysenter", "Ijk_Yield"]

/-- What `_serialize_edge_data` and `_deserialize_edge_data` make of the data of an edge. -/
def throughStore (edata : EdgeData) : EdgeData
  | "jumpkind" =>
    match edata "jumpkind" with
    | some (.str jk) => if jk ∈ cfgJumpkinds then some (.str jk) else some .none
    | _ => some .none
  | "ins_addr" => some ((edata "ins_addr").getD .none)
  | "stmt_idx" => some ((edata "stmt_idx").getD .none)
  | _ => none

/-! ## The graph -/

/-- `adj` has the data at the sources of edges, and `predData` those at their destinations. -/
structure SpillingDiGraph where
  adj : DiGraph K Attr
  predData : K → K → EdgeData

namespace SpillingDiGraph

def empty : SpillingDiGraph :=
  ⟨⟨∅, fun _ _ => none, fun h => by cases h⟩, fun _ _ => DiGraph.EdgeData.empty⟩

def addNode (self : SpillingDiGraph) (key : K) : SpillingDiGraph := { self with adj := self.adj.addNode key }

def addEdge (self : SpillingDiGraph) (src dst : K) (attr : EdgeData) : SpillingDiGraph :=
  let adj := self.adj.addEdge src dst attr
  { adj := adj
    predData := fun u v => if u = src ∧ v = dst then adj.data src dst else self.predData u v }

def removeEdge (self : SpillingDiGraph) (src dst : K) : Option SpillingDiGraph :=
  if self.adj.hasEdge src dst then some { self with adj := self.adj.removeEdge src dst } else none

def removeNode (self : SpillingDiGraph) (key : K) : SpillingDiGraph := { self with adj := self.adj.removeNode key }

/-- A copy is made of the nodes and of the data at the sources. -/
def copy (self : SpillingDiGraph) : SpillingDiGraph := ⟨self.adj, self.adj.data⟩

/-- `in_edges(key, data=True)`, without the destination. -/
def inEdges (self : SpillingDiGraph) (E : Enumeration K) (key : K) : List (K × EdgeData) :=
  (E.list (self.adj.pred key)).map fun src => (src, self.predData src key)

/-- The entries of the keys `out` and `into` go through the store. -/
def spill (self : SpillingDiGraph) (out into : Finset K) : SpillingDiGraph where
  adj :=
    { nodes := self.adj.nodes
      edge := fun u v => (self.adj.edge u v).map fun edata => if u ∈ out then throughStore edata else edata
      closed := fun h => self.adj.closed (by simpa using h) }
  predData := fun u v => if v ∈ into then throughStore (self.predData u v) else self.predData u v

end SpillingDiGraph

end SpillingCFG

open SpillingCFG

structure SpillingCFG where
  graph : SpillingDiGraph := .empty
  nodes : Dict K CFGNode := []
  keysByAddr : Dict Addr (Finset K) := []
  callDstKeys : Finset K := ∅
  outDegreeCache : Dict K Int := []

namespace SpillingCFG

/-! ## Nodes and edges -/

/-- `_keys_by_addr[addr].add(key)`. -/
def addKey (keysByAddr : Dict Addr (Finset K)) (addr : Addr) (key : K) : Dict Addr (Finset K) :=
  keysByAddr.set addr (insert key ((keysByAddr.get? addr).getD ∅))

/-- `_keys_by_addr[addr].discard(key)`, and the address is removed with its last key. -/
def discardKey (keysByAddr : Dict Addr (Finset K)) (addr : Addr) (key : K) : Dict Addr (Finset K) :=
  let rest := ((keysByAddr.get? addr).getD ∅).erase key
  if rest = ∅ then keysByAddr.restrict (· ≠ addr) else keysByAddr.set addr rest

def addNode (self : SpillingCFG) (node : CFGNode) : SpillingCFG :=
  let blockKey := getBlockKey node
  { self with
    nodes := self.nodes.set blockKey node
    graph := self.graph.addNode blockKey
    keysByAddr := addKey self.keysByAddr node.addr blockKey }

def addEdgeByKey (self : SpillingCFG) (src dst : K) (attr : EdgeData) : Option SpillingCFG :=
  let graph := if src ∈ self.graph.adj.nodes then self.graph else self.graph.addNode src
  let graph := if dst ∈ graph.adj.nodes then graph else graph.addNode dst
  let outDegreeCache :=
    if graph.adj.hasEdge src dst then self.outDegreeCache
    else self.outDegreeCache.set src ((self.outDegreeCache.get? src).getD 0 + 1)
  (isCall attr).map fun call =>
    { self with
      graph := graph.addEdge src dst attr
      outDegreeCache := outDegreeCache
      callDstKeys := if call then insert dst self.callDstKeys else self.callDstKeys }

def addEdge (self : SpillingCFG) (src dst : CFGNode) (attr : EdgeData) : Option SpillingCFG :=
  { self with nodes := (self.nodes.set (getBlockKey src) src).set (getBlockKey dst) dst }.addEdgeByKey
    (getBlockKey src) (getBlockKey dst) attr

/-- The loop over incoming edges that looks for a call from another block than `skip`. -/
def hasOtherCall (skip : K) : List (K × EdgeData) → Option Bool
  | [] => some false
  | (pred, edata) :: inEdges =>
    if pred = skip then hasOtherCall skip inEdges
    else
      match isCall edata with
      | none => none
      | some true => some true
      | some false => hasOtherCall skip inEdges

/-- `key` loses the call from `src`. -/
def dropCall (E : Enumeration K) (graph : SpillingDiGraph) (src key : K) (callDstKeys : Finset K) :
    Option (Finset K) :=
  (hasOtherCall src (graph.inEdges E key)).map fun other =>
    if other then callDstKeys else callDstKeys.erase key

/-- One less out-degree for `key`. -/
def decrement (cache : Dict K Int) (key : K) : Dict K Int :=
  match cache.get? key with
  | none => cache
  | some degree => cache.set key (degree - 1)

/-- The destinations of calls when the edge from `src` to `dst` is about to be removed. -/
def callsWithout (self : SpillingCFG) (E : Enumeration K) (src dst : K) : Option (Finset K) :=
  if dst ∈ self.callDstKeys then
    match self.graph.adj.edge src dst with
    | none => some self.callDstKeys
    | some edata =>
      match isCall edata with
      | none => none
      | some true => dropCall E self.graph src dst self.callDstKeys
      | some false => some self.callDstKeys
  else some self.callDstKeys

def removeEdgeByKey (self : SpillingCFG) (E : Enumeration K) (src dst : K) : Option SpillingCFG :=
  (self.callsWithout E src dst).bind fun callDstKeys =>
    (self.graph.removeEdge src dst).map fun graph =>
      { self with graph := graph, callDstKeys := callDstKeys, outDegreeCache := decrement self.outDegreeCache src }

def removeEdge (self : SpillingCFG) (E : Enumeration K) (src dst : CFGNode) : Option SpillingCFG :=
  self.removeEdgeByKey E (getBlockKey src) (getBlockKey dst)

/-- The loop of `remove_node` over the outgoing edges. -/
def dropCalls (E : Enumeration K) (graph : SpillingDiGraph) (blockKey : K) :
    List K → Finset K → Option (Finset K)
  | [], callDstKeys => some callDstKeys
  | succ :: rest, callDstKeys =>
    match isCall (graph.adj.data blockKey succ) with
    | none => none
    | some call =>
      if call ∧ succ ∈ callDstKeys then
        (dropCall E graph blockKey succ callDstKeys).bind (dropCalls E graph blockKey rest)
      else dropCalls E graph blockKey rest callDstKeys

def removeNode (self : SpillingCFG) (E : Enumeration K) (node : CFGNode) : Option SpillingCFG :=
  let blockKey := getBlockKey node
  let self :=
    { self with
      nodes := self.nodes.restrict (· ≠ blockKey)
      keysByAddr := discardKey self.keysByAddr node.addr blockKey }
  let removed :=
    if blockKey ∈ self.graph.adj.nodes then
      (dropCalls E self.graph blockKey (E.list (self.graph.adj.succ blockKey)) (self.callDstKeys.erase blockKey)).map
        fun callDstKeys =>
          { self with
            callDstKeys := callDstKeys
            outDegreeCache := (E.list (self.graph.adj.pred blockKey)).foldl decrement self.outDegreeCache
            graph := self.graph.removeNode blockKey }
    else some self
  removed.map fun self => { self with outDegreeCache := self.outDegreeCache.restrict (· ≠ blockKey) }

def outDegreeByKey (self : SpillingCFG) (key : K) : Int := (self.outDegreeCache.get? key).getD 0

/-! ## Whole graphs -/

def copy (self : SpillingCFG) : SpillingCFG := { self with graph := self.graph.copy }

/-- A `networkx` graph of nodes: its nodes and its edges, in the order in which they are listed. -/
structure NxGraph where
  nodes : List CFGNode
  edges : List (CFGNode × CFGNode × EdgeData)
  closed : ∀ e ∈ edges, e.1 ∈ nodes ∧ e.2.1 ∈ nodes

def addEdges : List (CFGNode × CFGNode × EdgeData) → SpillingCFG → Option SpillingCFG
  | [], self => some self
  | (src, dst, edata) :: edges, self => (self.addEdge src dst edata).bind (addEdges edges)

/-- `from_networkx`, which leaves `_keys_by_addr` as it is. -/
def fromNetworkx (self : SpillingCFG) (nx : NxGraph) : Option SpillingCFG :=
  addEdges nx.edges (nx.nodes.foldl addNode { keysByAddr := self.keysByAddr })

/-- The loop of `__setstate__` over the edges. -/
def callDsts : List (K × EdgeData) → Option (Finset K)
  | [] => some ∅
  | (dst, edata) :: edges =>
    match isCall edata, callDsts edges with
    | some call, some keys => some (if call then insert dst keys else keys)
    | _, _ => none

/-- The edges of the graph with their data. -/
def edgeList (E : Enumeration K) (graph : SpillingDiGraph) : List (K × EdgeData) :=
  (E.list graph.adj.nodes).flatMap fun src =>
    (E.list (graph.adj.succ src)).map fun dst => (dst, graph.adj.data src dst)

/-- The graph that comes out of a pickle: `__setstate__` rebuilds the indexes. -/
def pickle (self : SpillingCFG) (E : Enumeration K) : Option SpillingCFG :=
  (callDsts (edgeList E self.graph)).map fun callDstKeys =>
    { graph := self.graph
      nodes := self.nodes
      keysByAddr := self.nodes.foldl (fun keys p => addKey keys p.2.addr p.1) []
      outDegreeCache := (E.list self.graph.adj.nodes).map fun key => (key, (self.graph.adj.succ key).card)
      callDstKeys := callDstKeys }

def spill (self : SpillingCFG) (out into : Finset K) : SpillingCFG :=
  { self with graph := self.graph.spill out into }

end SpillingCFG

end Angr
