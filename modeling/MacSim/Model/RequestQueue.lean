import MacSim.Model.Memory

/-!
# The queues of a cache level

A `queue_c` is a list of pointers to requests with a capacity.  Every new request is put at the end
of the list, which is then sorted again with a comparison that reads the two priority knobs and two
fields of the requests.  `QueueC` is one queue of any capacity with the requests its entries
point to; `Mem.queueC` is the queue of a level in the memory system.
-/

set_option autoImplicit false

namespace MacSim.Model

/-- `queue_c`; `this` is the queue itself, which `push` writes into the request. -/
structure QueueC where
  this : QueueId
  size : ℕ
  entry : List ReqId
  req : ReqId → MemReq

namespace QueueC

/-- `queue_c::queue_c`.
SRCLINE: memory.cc:219-222 -/
def new (this : QueueId) (size : ℕ) (req : ReqId → MemReq) : QueueC :=
  { this := this, size := size, entry := [], req := req }

/-- `queue_c::search` for the bytes of an address.
SRCLINE: memory.cc:228-239 -/
def search (q : QueueC) (addr : Addr) (size : ℕ) : Option ReqId :=
  q.entry.find? fun r => (q.req r).covers addr size

/-- `queue_c::search` for a request.
SRCLINE: memory.cc:242-248 -/
def searchReq (q : QueueC) (r : ReqId) : Bool := q.entry.any fun x => x == r

/-- `queue_c::pop`.
SRCLINE: memory.cc:251-253 -/
def pop (q : QueueC) (r : ReqId) : QueueC := { q with entry := q.entry.filter (· ≠ r) }

/-- `queue_c::full`.
SRCLINE: memory.cc:267-270 -/
def full (q : QueueC) : Bool := decide (q.entry.length = q.size)

/-- `list::sort` with the comparison of the queue.
SRCLINE: memory.cc:203-217 -/
def sort (k : MemKnobs) (q : QueueC) : QueueC :=
  { q with
    entry := q.entry.insertionSort fun a b => Mem.sortFunc k (q.req b) (q.req a) = false }

/-- `queue_c::push`.
SRCLINE: memory.cc:256-264 -/
def push (k : MemKnobs) (q : QueueC) (r : ReqId) : QueueC × Bool :=
  if q.full then (q, false)
  else
    let q :=
      { q with
        req := Function.update q.req r { q.req r with queue := some q.this }
        entry := q.entry ++ [r] }
    (q.sort k, true)

end QueueC

/-- A queue of the memory system. -/
def Mem.queueC (s : Mem) (q : QueueId) : QueueC :=
  { this := q, size := q.kind.size, entry := s.entries q, req := s.req }

end MacSim.Model
