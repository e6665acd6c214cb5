import Gargoyle.Data.LinkedNodes
import Gargoyle.Bandwidth.Defs

/-!
# The recent addresses and searches

`nft_webmon` keeps two lists, of the domains that were visited last and of the last
searches. A list is a queue of nodes with the latest first, and a map from printed
keys to the nodes. The clock is read with every record. The functions return `none`
when a null pointer or a freed node is written to or read.
-/

namespace Gargoyle

namespace Webmon

open Bandwidth (Kernel In6Addr sdbmStringHash)

inductive Family
  | ipv4 | ipv6
  deriving DecidableEq

/-- What a node holds, with the seconds of its time. The address is the union
`ipany`, whose first word is the IPv4 address; the other words of such an address
are not set. -/
structure Entry where
  family : Family
  srcIp : In6Addr
  value : List Char
  time : ℤ

variable [Kernel]

def printKey (family : Family) (srcIp : In6Addr) (value : List Char) : String :=
  match family with
  | .ipv4 => Kernel.pI4 (srcIp 0) ++ "@" ++ String.ofList value
  | .ipv6 => Kernel.pI6c srcIp ++ "@" ++ String.ofList value

def Entry.key (e : Entry) : String := printKey e.family e.srcIp e.value

structure RecentList where
  heap : Heap (LinkedNode Entry)
  queue : ListEnds
  index : Bandwidth.StringMap ℕ

namespace RecentList

def empty : RecentList := ⟨.empty, ⟨none, none, 0⟩, .empty⟩

/-- `update_queue_node_time`, at the time `t`. -/
def updateQueueNodeTime (l : RecentList) (updateNode : ℕ) (t : ℤ) : Option RecentList :=
  (l.heap.node updateNode).bind fun node =>
    (l.heap.setValue updateNode { node.value with time := t }).bind fun heap =>
      match node.previous with
      | none => some { l with heap := heap }
      | some p =>
        let n := node.next
        (heap.setNext p n).bind fun heap =>
          (heap.linkPrevious n (some p)).bind fun heap =>
            let last := if n.isNone then some p else l.queue.last
            (heap.setPrevious updateNode none).bind fun heap =>
              (heap.setNext updateNode l.queue.first).bind fun heap =>
                l.queue.first.bind fun first =>
                  (heap.setPrevious first (some updateNode)).map fun heap =>
                    { l with heap := heap, queue := ⟨some updateNode, last, l.queue.length⟩ }

/-- The end of `add_queue_node` that drops the oldest node. Its key is printed as
one of the family of the new node. -/
def dropLast (l : RecentList) (family : Family) : Option RecentList :=
  l.queue.last.bind fun oldNode =>
    (l.heap.node oldNode).bind fun old =>
      old.previous.bind fun last =>
        (l.heap.setNext last none).map fun heap =>
          { heap := heap.free oldNode
            queue := ⟨l.queue.first, some last, l.queue.length - 1⟩
            index := l.index.remove (printKey family old.value.srcIp old.value.value) }

/-- `add_queue_node`, at the time `t`. -/
def addQueueNode (l : RecentList) (family : Family) (srcIp : In6Addr) (value : List Char)
    (queueIndexKey : String) (maxQueueLength : ℕ) (t : ℤ) : Option RecentList :=
  let allocated := l.heap.alloc ⟨l.queue.first, none, ⟨family, srcIp, value, t⟩⟩
  let newNode := allocated.2
  (allocated.1.linkPrevious l.queue.first (some newNode)).bind fun heap =>
    let added : RecentList :=
      { heap := heap
        queue := ⟨some newNode, l.queue.last.or (some newNode), l.queue.length + 1⟩
        index := l.index.set queueIndexKey newNode }
    if added.queue.length > maxQueueLength then added.dropLast family else some added

def record (l : RecentList) (maxQueueLength : ℕ) (family : Family) (srcIp : In6Addr)
    (value : List Char) (t : ℤ) : Option RecentList :=
  let key := printKey family srcIp value
  match l.index.get key with
  | some node => l.updateQueueNodeTime node t
  | none => l.addQueueNode family srcIp value key maxQueueLength t

end RecentList

/-! ## Searches that are still typed -/

def commonPrefix : List Char → List Char → ℕ
  | c :: cs, d :: ds => if c = d then commonPrefix cs ds + 1 else 0
  | _, _ => 0

/-- `within_edit_distance`. The loop from the end stops at the last character
before the common beginning. -/
def withinEditDistance (s₁ s₂ : List Char) (maxEdit : ℤ) : Bool :=
  let start := commonPrefix s₁ s₂
  let rest₁ := (s₁.drop (start + 1)).reverse
  let rest₂ := (s₂.drop (start + 1)).reverse
  let fin := commonPrefix rest₁ rest₂
  (s₁.length - start - fin : ℕ) ≤ maxEdit && (s₂.length - start - fin : ℕ) ≤ maxEdit

/-- Whether `webmon_mt4` takes the latest search for one that was still typed. The
addresses are compared as IPv4 ones. -/
def stillTyped (recent : Entry) (srcIp : In6Addr) (search : List Char) (t : ℤ) : Bool :=
  recent.srcIp 0 = srcIp 0 && (recent.time + 1 ≥ t ||
    (recent.time + 5 ≥ t && withinEditDistance search recent.value 2))

/-- The part of `webmon_mt4` and `webmon_mt6` that discards the latest search. The
second compares the places of the two addresses in memory, which differ. -/
def RecentList.discard (l : RecentList) (family : Family) (srcIp : In6Addr)
    (search : List Char) (t : ℤ) : Option RecentList :=
  match family, l.queue.first with
  | .ipv6, _ => some l
  | .ipv4, none => some l
  | .ipv4, some recentNode =>
    (l.heap.node recentNode).bind fun recent =>
      if stillTyped recent.value srcIp search t then
        (l.heap.linkPrevious recent.next none).map fun heap =>
          { heap := heap.free recentNode
            queue := ⟨recent.next, if recent.next.isNone then none else l.queue.last,
              l.queue.length - 1⟩
            index := l.index.remove (printKey .ipv4 recent.value.srcIp recent.value.value) }
      else some l

/-! ## Runs -/

structure State where
  domains : RecentList
  searches : RecentList

inductive Event
  | domain (family : Family) (srcIp : In6Addr) (value : List Char) (t : ℤ)
  | discard (family : Family) (srcIp : In6Addr) (search : List Char) (t : ℤ)
  | search (family : Family) (srcIp : In6Addr) (value : List Char) (t : ℤ)

def State.step (maxDomains maxSearches : ℕ) (s : State) : Event → Option State
  | .domain family srcIp value t =>
    (s.domains.record maxDomains family srcIp value t).map fun l => { s with domains := l }
  | .discard family srcIp search t =>
    (s.searches.discard family srcIp search t).map fun l => { s with searches := l }
  | .search family srcIp value t =>
    (s.searches.record maxSearches family srcIp value t).map fun l => { s with searches := l }

def State.run (maxDomains maxSearches : ℕ) : State → List Event → Option State
  | s, [] => some s
  | s, e :: es => (s.step maxDomains maxSearches e).bind fun s => s.run maxDomains maxSearches es

def State.initial : State := ⟨.empty, .empty⟩

end Webmon

end Gargoyle
