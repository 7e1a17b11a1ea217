import MacSim.Model.RamulatorDdr3

/-!
# The controller of a DDR3 channel

`Controller<DDR3>` with its scheduler, its row policy, its table of open rows and its refresh
timer.  Requests wait in a queue for their kind; a request that had a row opened for it waits in a
queue of its own.  Every cycle the controller completes at most one read and issues at most one
command.

The functions fail where an assertion of the source does.  The statistics are left out, but for the
trace of the issued commands.
-/

set_option autoImplicit false

namespace MacSim.Model.Ramulator.Ddr3

/-- Why the simulation would stop: an assertion of the channel, the controller or the row table
fails, or the queue is full that a refresh is put into. -/
inductive Fault
  | assertion
  | refreshRefused
  deriving DecidableEq, Repr

/-- The assertions of the channel as assertions of the controller. -/
def asserted {α : Type} : Option α → Except Fault α
  | none => .error .assertion
  | some a => .ok a

/-! ## Requests -/

/-- The kinds of requests that have a command.
SRCLINE: ramulator/src/Request.h:23-32 -/
inductive RequestType
  | read | write | refresh | powerDown | selfRefresh
  deriving DecidableEq, Repr

/-- SRCLINE: ramulator/src/DDR3.h:112-116 -/
def translate : RequestType → Command
  | .read => .rd
  | .write => .wr
  | .refresh => .ref
  | .powerDown => .pde
  | .selfRefresh => .sre

/-- SRCLINE: ramulator/src/Request.h:12-50 -/
structure Request where
  isFirstCommand : Bool
  addr : ℤ
  addrVec : ℕ → ℤ
  reqid : ℕ
  type : RequestType
  arrive : ℤ
  depart : ℤ

/-! ## The table of open rows -/

/-- SRCLINE: ramulator/src/Scheduler.h:276-280 -/
structure RowEntry where
  row : ℤ
  hits : ℕ
  timestamp : ℤ

/-- The open rows by their bank, in the order of the map. -/
abbrev RowTable := List (List ℤ × RowEntry)

namespace RowTable

/-- The coordinates down to the bank. -/
def rowgroup (addr : ℕ → ℤ) : List ℤ :=
  (List.range rowLevel).map addr

/-- `map::insert`: a key that is there keeps its entry. -/
def insert (key : List ℤ) (entry : RowEntry) : RowTable → RowTable
  | [] => [(key, entry)]
  | (k, e) :: rest =>
    if key = k then (k, e) :: rest
    else if key < k then (key, entry) :: (k, e) :: rest
    else (k, e) :: insert key entry rest

def find (table : RowTable) (key : List ℤ) : Option RowEntry :=
  (List.find? (fun kv => kv.1 = key) table).map Prod.snd

/-- The part of `update` for an access: the entry of the bank is there, for the row, and counts the
hit.
SRCLINE: ramulator/src/Scheduler.h:298-305 -/
def access (addr : ℕ → ℤ) (clk : ℤ) (table : RowTable) : Option RowTable :=
  match table.find (rowgroup addr) with
  | none => none
  | some entry =>
    if entry.row ≠ addr rowLevel then none
    else some (table.map fun kv =>
      if kv.1 = rowgroup addr then
        (kv.1, { kv.2 with hits := kv.2.hits + 1, timestamp := clk })
      else kv)

/-- The part of `update` for a command that closes rows: those go that agree with the address down
to the scope, and there is one.
SRCLINE: ramulator/src/Scheduler.h:307-326 -/
def close (cmd : Command) (addr : ℕ → ℤ) (table : RowTable) : Option RowTable :=
  let depth := if isAccessing cmd then rowLevel - 1 else scope cmd
  let closed (kv : List ℤ × RowEntry) : Bool :=
    kv.1.take (depth + 1) = (List.range (depth + 1)).map addr
  if table.any closed then some (table.filter fun kv => !closed kv) else none

/-- SRCLINE: ramulator/src/Scheduler.h:286-327 -/
def update (cmd : Command) (addr : ℕ → ℤ) (clk : ℤ) (table : RowTable) : Option RowTable := do
  let table :=
    if isOpening cmd then
      table.insert (rowgroup addr) { row := addr rowLevel, hits := 0, timestamp := clk }
    else table
  let table ← if isAccessing cmd then table.access addr clk else some table
  if isClosing cmd then table.close cmd addr else some table

/-- SRCLINE: ramulator/src/Scheduler.h:329-345 -/
def getHits (table : RowTable) (addr : ℕ → ℤ) (toOpenedRow : Bool) : ℕ :=
  match table.find (rowgroup addr) with
  | none => 0
  | some entry => if !toOpenedRow && entry.row ≠ addr rowLevel then 0 else entry.hits

end RowTable

/-! ## The controller -/

/-- SRCLINE: ramulator/src/Scheduler.h:72-76 -/
inductive SchedulerType
  | fcfs | frfcfs | frfcfsCap | frfcfsPriorHit
  deriving DecidableEq, Repr

/-- SRCLINE: ramulator/src/Scheduler.h:217-221 -/
inductive RowPolicyType
  | closed | closedAP | opened | timeout
  deriving DecidableEq, Repr

/-- What a controller is built with. -/
structure ControllerKnobs where
  speed : SpeedEntry
  ranks : ℕ
  banks : ℕ
  id : ℤ
  scheduler : SchedulerType := .frfcfsCap
  cap : ℕ := 16
  rowpolicy : RowPolicyType := .opened
  timeout : ℤ := 50
  queueMax : ℕ := 32

namespace ControllerKnobs

def dram (k : ControllerKnobs) : DramSpec Command State :=
  spec k.speed k.ranks k.banks

/-- SRCLINE: ramulator/src/DDR3.cpp:34 -/
def readLatency (k : ControllerKnobs) : ℤ :=
  k.speed.nCL + k.speed.nBL

end ControllerKnobs

/-- The controller with what it has issued and what it has called back, oldest first.
SRCLINE: ramulator/src/Controller.h:74-113 -/
structure Controller where
  clk : ℤ
  channel : Channel Command State
  rowtable : RowTable
  refreshClk : ℤ
  refreshed : ℤ
  readq : List Request
  writeq : List Request
  actq : List Request
  otherq : List Request
  pending : List Request
  writeMode : Bool
  cmdTrace : List (Issued Command)
  served : List (ℤ × Request)

namespace Controller

/-- SRCLINE: ramulator/src/Controller.h:116-122 -/
def new (k : ControllerKnobs) : Controller where
  clk := 0
  channel := .new k.dram k.id
  rowtable := []
  refreshClk := 0
  refreshed := 0
  readq := []
  writeq := []
  actq := []
  otherq := []
  pending := []
  writeMode := false
  cmdTrace := []
  served := []

/-- The queues that requests are served from. -/
inductive QueueName
  | readq | writeq | actq | otherq
  deriving DecidableEq, Repr

def queue (c : Controller) : QueueName → List Request
  | .readq => c.readq
  | .writeq => c.writeq
  | .actq => c.actq
  | .otherq => c.otherq

def setQueue (c : Controller) (name : QueueName) (q : List Request) : Controller :=
  match name with
  | .readq => { c with readq := q }
  | .writeq => { c with writeq := q }
  | .actq => { c with actq := q }
  | .otherq => { c with otherq := q }

/-- SRCLINE: ramulator/src/Controller.h:304-311 -/
def getQueue : RequestType → QueueName
  | .read => .readq
  | .write => .writeq
  | _ => .otherq

/-- A request is taken unless its queue is full.  A read of an address that a waiting write has is
answered from there.
SRCLINE: ramulator/src/Controller.h:313-330 -/
def enqueue (k : ControllerKnobs) (req : Request) (c : Controller) : Controller × Bool :=
  let name := getQueue req.type
  if (c.queue name).length = k.queueMax then (c, false)
  else
    let req := { req with arrive := c.clk }
    if req.type = .read ∧ ∃ wreq ∈ c.writeq, req.addr = wreq.addr then
      ({ c with pending := c.pending ++ [{ req with depart := c.clk + 1 }] }, true)
    else (c.setQueue name (c.queue name ++ [req]), true)

/-! ## Questions to the channel -/

/-- SRCLINE: ramulator/src/Controller.h:558-562 -/
def getFirstCmd (k : ControllerKnobs) (c : Controller) (req : Request) : Except Fault Command :=
  asserted (c.channel.root.decode k.dram (translate req.type) req.addrVec)

/-- SRCLINE: ramulator/src/Controller.h:495-498 -/
def isReadyCmd (k : ControllerKnobs) (c : Controller) (cmd : Command) (addr : ℕ → ℤ) :
    Except Fault Bool :=
  asserted (c.channel.root.check k.dram.toTimingTable cmd addr c.clk)

/-- SRCLINE: ramulator/src/Controller.h:489-493 -/
def isReady (k : ControllerKnobs) (c : Controller) (req : Request) : Except Fault Bool := do
  let cmd ← c.getFirstCmd k req
  c.isReadyCmd k cmd req.addrVec

/-- SRCLINE: ramulator/src/Controller.h:500-505 -/
def isRowHit (k : ControllerKnobs) (c : Controller) (req : Request) : Except Fault Bool :=
  asserted (c.channel.root.checkRowHit k.dram (translate req.type) req.addrVec)

/-- SRCLINE: ramulator/src/Controller.h:512-517 -/
def isRowOpen (k : ControllerKnobs) (c : Controller) (req : Request) : Except Fault Bool :=
  asserted (c.channel.root.checkRowOpen k.dram (translate req.type) req.addrVec)

/-! ## The scheduler -/

/-- SRCLINE: ramulator/src/Scheduler.h:107-109 -/
def isReadyHit (k : ControllerKnobs) (c : Controller) (req : Request) : Except Fault Bool := do
  let ready ← c.isReady k req
  if ready then c.isRowHit k req else .ok false

/-- What a request has to be for its scheduling policy to come before older ones.
SRCLINE: ramulator/src/Scheduler.h:159-206 -/
def favoured (k : ControllerKnobs) (c : Controller) (policy : SchedulerType) (req : Request) :
    Except Fault Bool :=
  match policy with
  | .fcfs => .ok false
  | .frfcfs => c.isReady k req
  | .frfcfsCap => do
    let ready ← c.isReady k req
    .ok (ready && decide (c.rowtable.getHits req.addrVec false ≤ k.cap))
  | .frfcfsPriorHit => c.isReadyHit k req

/-- Does the first request stay before the second?
SRCLINE: ramulator/src/Scheduler.h:159-206 -/
def comparesFirst (k : ControllerKnobs) (c : Controller) (policy : SchedulerType)
    (req1 req2 : Request) : Except Fault Bool := do
  let ready1 ← c.favoured k policy req1
  let ready2 ← c.favoured k policy req2
  if ready1 ^^ ready2 then .ok ready1 else .ok (decide (req1.arrive ≤ req2.arrive))

/-- The best of a request at place `best` and of those that follow from place `i` on.
SRCLINE: ramulator/src/Scheduler.h:88-93 -/
def headFrom (k : ControllerKnobs) (c : Controller) (policy : SchedulerType) :
    (head : Request) → (best i : ℕ) → List Request → Except Fault (Request × ℕ)
  | head, best, _, [] => .ok (head, best)
  | head, best, i, req :: rest => do
    let stays ← c.comparesFirst k policy head req
    if stays then c.headFrom k policy head best (i + 1) rest
    else c.headFrom k policy req i (i + 1) rest

/-- The coordinates down to the bank, of the requests of a queue that hit an open row.
SRCLINE: ramulator/src/Scheduler.h:112-124 -/
def hitReqs (k : ControllerKnobs) (c : Controller) : List Request → Except Fault (List (List ℤ))
  | [] => .ok []
  | req :: rest => do
    let hit ← c.isRowHit k req
    let hits ← c.hitReqs k rest
    .ok (if hit then (List.range (bankLevel + 1)).map req.addrVec :: hits else hits)

/-- A request that would close a row that another request hits.
SRCLINE: ramulator/src/Scheduler.h:129-144 -/
def violatesHit (k : ControllerKnobs) (c : Controller) (hits : List (List ℤ)) (req : Request) :
    Except Fault Bool := do
  let hit ← c.isRowHit k req
  if hit then .ok false
  else
    let opened ← c.isRowOpen k req
    .ok (opened && decide ((List.range (bankLevel + 1)).map req.addrVec ∈ hits))

/-- The oldest ready request, or the oldest, of those that close no row that is hit.
SRCLINE: ramulator/src/Scheduler.h:125-153 -/
def headSparing (k : ControllerKnobs) (c : Controller) (hits : List (List ℤ)) :
    (head : Option (Request × ℕ)) → (i : ℕ) → List Request →
      Except Fault (Option (Request × ℕ))
  | head, _, [] => .ok head
  | head, i, req :: rest => do
    let violates ← c.violatesHit k hits req
    if violates then c.headSparing k hits head (i + 1) rest
    else
      match head with
      | none => c.headSparing k hits (some (req, i)) (i + 1) rest
      | some (best, at_) => do
        let stays ← c.comparesFirst k .frfcfs best req
        c.headSparing k hits (if stays then some (best, at_) else some (req, i)) (i + 1) rest

/-- The request of a queue to serve, with its place.
SRCLINE: ramulator/src/Scheduler.h:80-155 -/
def getHead (k : ControllerKnobs) (c : Controller) (q : List Request) :
    Except Fault (Option (Request × ℕ)) :=
  match q with
  | [] => .ok none
  | req :: rest => do
    let head ← c.headFrom k k.scheduler req 0 1 rest
    if k.scheduler ≠ .frfcfsPriorHit then .ok (some head)
    else
      let hit ← c.isReadyHit k head.1
      if hit then .ok (some head)
      else
        let hits ← c.hitReqs k (req :: rest)
        c.headSparing k hits none 0 (req :: rest)

/-! ## The row policy -/

/-- The coordinates of a bank as an address.  The source has a vector of three coordinates, down to
the bank, and reads the row behind its end; a precharge depends on no row, so only the value read
there does not matter, and it is 0 here. -/
def bankAddr (key : List ℤ) : ℕ → ℤ :=
  fun level => key.getD level 0

/-- The first open row, in the order of the table, that may be closed.
SRCLINE: ramulator/src/Scheduler.h:231-265 -/
def firstVictim (k : ControllerKnobs) (c : Controller) (due : RowEntry → Bool) :
    RowTable → Except Fault (Option (List ℤ))
  | [] => .ok none
  | (key, entry) :: rest =>
    if due entry then do
      let ready ← c.isReadyCmd k .pre (bankAddr key)
      if ready then .ok (some key) else c.firstVictim k due rest
    else c.firstVictim k due rest

/-- SRCLINE: ramulator/src/Scheduler.h:225-265 -/
def getVictim (k : ControllerKnobs) (c : Controller) : Except Fault (Option (List ℤ)) :=
  match k.rowpolicy with
  | .closed | .closedAP => c.firstVictim k (fun _ => true) c.rowtable
  | .opened => .ok none
  | .timeout => c.firstVictim k (fun e => !decide (c.clk - e.timestamp < k.timeout)) c.rowtable

/-! ## Issuing a command -/

/-- How many requests of a queue hit the open row that the address names.
SRCLINE: ramulator/src/Controller.h:577-597 -/
def rowHits (k : ControllerKnobs) (c : Controller) (addr : ℕ → ℤ) :
    List Request → Except Fault ℕ
  | [] => .ok 0
  | req :: rest => do
    let hit ← c.isRowHit k req
    let n ← c.rowHits k addr rest
    .ok (if hit ∧ (List.range (rowLevel + 1)).map addr =
        (List.range (rowLevel + 1)).map req.addrVec then n + 1 else n)

/-- The requests that hit the open row: those of the queue that is served, or, when there are none,
those that a row was opened for.
SRCLINE: ramulator/src/Controller.h:569-597 -/
def numRowHits (k : ControllerKnobs) (c : Controller) (addr : ℕ → ℤ) : Except Fault ℕ := do
  let hits ← c.rowHits k addr (if c.writeMode then c.writeq else c.readq)
  if hits = 0 then c.rowHits k addr c.actq else .ok hits

/-- The last access to a row also closes it, under the policy that asks for it.
SRCLINE: ramulator/src/Controller.h:565-612 -/
def cmdIssueAutoprecharge (k : ControllerKnobs) (c : Controller) (cmd : Command)
    (addr : ℕ → ℤ) : Except Fault Command :=
  if isAccessing cmd = true ∧ k.rowpolicy = .closedAP then do
    let hits ← c.numRowHits k addr
    if hits = 0 then .error .assertion
    else if hits = 1 then
      match cmd with
      | .rd => .ok .rda
      | .wr => .ok .wra
      | _ => .error .assertion
    else .ok cmd
  else .ok cmd

/-- SRCLINE: ramulator/src/Controller.h:614-648 -/
def issueCmd (k : ControllerKnobs) (c : Controller) (cmd : Command) (addr : ℕ → ℤ) :
    Except Fault Controller := do
  let cmd ← c.cmdIssueAutoprecharge k cmd addr
  let ready ← c.isReadyCmd k cmd addr
  if !ready then .error .assertion
  else
    let channel ← asserted (c.channel.update k.dram cmd addr c.clk)
    let rowtable ← asserted (c.rowtable.update cmd addr c.clk)
    .ok { c with
      channel := channel
      rowtable := rowtable
      cmdTrace := c.cmdTrace ++ [{ cmd := cmd, addr := addr, clk := c.clk }] }

/-! ## A cycle -/

/-- One request more or less under way. -/
def updateServing (c : Controller) (addr : ℕ → ℤ) (delta : ℤ) : Except Fault Controller := do
  let root ← asserted (c.channel.root.updateServingRequests bankLevel addr delta c.clk)
  .ok { c with channel := { c.channel with root := root } }

/-- The read is no longer under way, if it was: one that was answered from the write queue never
was.
SRCLINE: ramulator/src/Controller.h:343-347 -/
def retireRead (c : Controller) (req : Request) : Except Fault Controller :=
  if 1 < req.depart - req.arrive then c.updateServing req.addrVec (-1) else .ok c

/-- SRCLINE: ramulator/src/Controller.h:339-351 -/
def serveCompleted (c : Controller) : Except Fault Controller :=
  match c.pending with
  | [] => .ok c
  | req :: rest =>
    if req.depart ≤ c.clk then do
      let c ← c.retireRead req
      .ok { c with served := c.served ++ [(c.clk, req)], pending := rest }
    else .ok c

/-- A refresh of a rank.
SRCLINE: ramulator/src/Refresh.h:98-108 -/
def refreshRequest (k : ControllerKnobs) (rank : ℕ) : Request where
  isFirstCommand := true
  addr := 0
  addrVec level := if level = 0 then k.id else if level = 1 then rank else -1
  reqid := 0
  type := .refresh
  arrive := -1
  depart := -1

/-- SRCLINE: ramulator/src/Refresh.h:111-115 -/
def injectRefresh (k : ControllerKnobs) : List ℕ → Controller → Except Fault Controller
  | [], c => .ok c
  | rank :: ranks, c =>
    match c.enqueue k (refreshRequest k rank) with
    | (_, false) => .error .refreshRefused
    | (c, true) => injectRefresh k ranks c

/-- SRCLINE: ramulator/src/Refresh.h:71-83 -/
def tickRef (k : ControllerKnobs) (c : Controller) : Except Fault Controller :=
  let c := { c with refreshClk := c.refreshClk + 1 }
  if k.speed.nREFI ≤ c.refreshClk - c.refreshed then do
    let c ← injectRefresh k (List.range k.ranks) c
    .ok { c with refreshed := c.refreshClk }
  else .ok c

/-- Should writes be served?  The older of the two heads decides.
SRCLINE: ramulator/src/Controller.h:367-382 -/
def scheduleWrites (k : ControllerKnobs) (c : Controller) : Except Fault Controller :=
  if c.readq.length = 0 ∧ c.writeq.length = 0 then .ok { c with writeMode := false }
  else if c.readq.length = 0 then .ok { c with writeMode := true }
  else if c.writeq.length = 0 then .ok { c with writeMode := false }
  else do
    let wreq ← c.getHead k c.writeq
    let rreq ← c.getHead k c.readq
    match wreq, rreq with
    | some wreq, some rreq =>
      .ok { c with writeMode := !decide (rreq.1.arrive ≤ wreq.1.arrive) }
    | _, _ => .error .assertion

/-- A request that is to be served now: its queue, its place there, and the command it needs. -/
structure Choice where
  name : QueueName
  req : Request
  place : ℕ
  cmd : Command

/-- The head of a queue, if the command it needs is ready.
SRCLINE: ramulator/src/Controller.h:389-398 -/
def chooseFrom (k : ControllerKnobs) (c : Controller) (name : QueueName) :
    Except Fault (Option Choice) := do
  let head ← c.getHead k (c.queue name)
  match head with
  | none => .ok none
  | some (req, place) => do
    let cmd ← c.getFirstCmd k req
    let ready ← c.isReadyCmd k cmd req.addrVec
    .ok (if ready then some { name := name, req := req, place := place, cmd := cmd } else none)

/-- SRCLINE: ramulator/src/Controller.h:386-412 -/
def choose (k : ControllerKnobs) (c : Controller) : Except Fault (Option Choice) := do
  let choice ← c.chooseFrom k .actq
  match choice with
  | some choice => .ok (some choice)
  | none =>
    c.chooseFrom k
      (if c.otherq.length ≠ 0 then .otherq else if c.writeMode then .writeq else .readq)

/-- SRCLINE: ramulator/src/Controller.h:414-422 -/
def speculate (k : ControllerKnobs) (c : Controller) : Except Fault Controller := do
  let victim ← c.getVictim k
  match victim with
  | none => .ok c
  | some key => c.issueCmd k .pre (bankAddr key)

/-- The statistics ask whether the row is hit, and if it is not whether one is open.
SRCLINE: ramulator/src/Controller.h:432-454 -/
def askRow (k : ControllerKnobs) (c : Controller) (req : Request) : Except Fault Controller := do
  let hit ← c.isRowHit k req
  if hit then .ok c
  else
    let _ ← c.isRowOpen k req
    .ok c

/-- The first command of a request; a read or write is under way from then on.
SRCLINE: ramulator/src/Controller.h:425-455 -/
def startRequest (k : ControllerKnobs) (c : Controller) (choice : Choice) :
    Except Fault Controller :=
  if choice.req.isFirstCommand then do
    let c := c.setQueue choice.name
      ((c.queue choice.name).set choice.place { choice.req with isFirstCommand := false })
    if choice.req.type = .read ∨ choice.req.type = .write then do
      let c ← c.updateServing choice.req.addrVec 1
      c.askRow k choice.req
    else .ok c
  else .ok c

/-- The request had its own command: a read waits for its data, a write is done.
SRCLINE: ramulator/src/Controller.h:474-483 -/
def completeRequest (k : ControllerKnobs) (c : Controller) (req : Request) :
    Except Fault Controller :=
  match req.type with
  | .read =>
    .ok { c with pending := c.pending ++ [{ req with depart := c.clk + k.readLatency }] }
  | .write => do
    let c ← c.updateServing req.addrVec (-1)
    .ok { c with served := c.served ++ [(c.clk, req)] }
  | _ => .ok c

/-- What becomes of a request whose command was issued: a row was opened for it, it waits for its
next command, or it is done.
SRCLINE: ramulator/src/Controller.h:462-486 -/
def finishRequest (k : ControllerKnobs) (c : Controller) (choice : Choice) :
    Except Fault Controller :=
  let req := { choice.req with isFirstCommand := false }
  if choice.cmd ≠ translate req.type then
    if isOpening choice.cmd then
      let c := { c with actq := c.actq ++ [req] }
      .ok (c.setQueue choice.name ((c.queue choice.name).eraseIdx choice.place))
    else .ok c
  else do
    let c ← c.completeRequest k req
    .ok (c.setQueue choice.name ((c.queue choice.name).eraseIdx choice.place))

/-- SRCLINE: ramulator/src/Controller.h:384-487 -/
def serve (k : ControllerKnobs) (c : Controller) : Except Fault Controller := do
  let choice ← c.choose k
  match choice with
  | none => c.speculate k
  | some choice => do
    let c ← c.startRequest k choice
    let c ← c.issueCmd k choice.cmd choice.req.addrVec
    c.finishRequest k choice

/-- SRCLINE: ramulator/src/Controller.h:332-487 -/
def tick (k : ControllerKnobs) (c : Controller) : Except Fault Controller := do
  let c ← { c with clk := c.clk + 1 }.serveCompleted
  let c ← c.tickRef k
  let c ← c.scheduleWrites k
  c.serve k

end Controller

end MacSim.Model.Ramulator.Ddr3
