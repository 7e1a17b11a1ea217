import MacSim.Model.MemSystem
import Mathlib.Data.List.Perm.Basic
import Mathlib.Data.List.Count
import Mathlib.Tactic
import MacSim.Computation.Partial

/-!
# The books of the memory system

Which lists a request is in, and which of its fields decide where it goes next, is all that
the ownership analyses need.  `Books` is this part of the state; the many updates that only
touch caches, ports, clocks, uops or the other fields of a request leave it alone, and every
primitive that moves a request changes it in one or two places.
-/

set_option autoImplicit false

namespace MacSim.Analysis

open MacSim.Model MacSim.Computation

/-- The lists a request can be in. -/
inductive Loc where
  | free (core : ℕ)
  | pool
  | merged (p : ReqId)
  | queue (q : QueueId)
  | retry (d : DcuId)
  | net
  | rx (d : DcuId)
  | dram
  deriving DecidableEq, Repr

/-- The list of a place. -/
def held (s : Mem) : Loc → List ReqId
  | .free c => s.mshrFreeList c
  | .pool => s.memReqPool
  | .merged p => (s.req p).merge
  | .queue q => s.entries q
  | .retry d => (s.dcu d).retryQueue
  | .net => s.net.map (·.2)
  | .rx d => s.rx d
  | .dram => s.dram

/-- The fields of a request that decide where it goes next. -/
structure Card where
  done : Bool
  queue : Option QueueId
  type : MemReqType
  acc : Bool
  coreId : ℕ
  deriving DecidableEq

def card (req : MemReq) : Card := ⟨req.done, req.queue, req.type, req.acc, req.coreId⟩

/-- What the ownership analyses see of a state. -/
structure Books where
  held : Loc → List ReqId
  card : ReqId → Card
  mshr : ℕ → List ReqId
  nextPool : ℕ
  nextWb : ℕ

def books (s : Mem) : Books :=
  { held := held s
    card := fun r => card (s.req r)
    mshr := s.mshr
    nextPool := s.nextPool
    nextWb := s.nextWb }

variable (cfg : MemConfig) (s : Mem)

/-! ## Updates that leave the books alone -/

/-- A cache level whose queues are kept. -/
theorem books_modDcu (d : DcuId) (f : Dcu → Dcu)
    (hqueue : (f (s.dcu d)).queue = (s.dcu d).queue)
    (hretry : (f (s.dcu d)).retryQueue = (s.dcu d).retryQueue) :
    books (s.modDcu d f) = books s := by
  unfold books
  congr 1
  funext k
  cases k with
  | queue q =>
      by_cases hq : q.dcu = d
      · subst hq
        simp [held, Mem.entries, Mem.modDcu, hqueue]
      · simp [held, Mem.entries, Mem.modDcu, hq]
  | retry e =>
      by_cases he : e = d
      · subst he
        simpa [held, Mem.modDcu] using hretry
      · simp [held, Mem.modDcu, he]
  | _ => rfl

/-! ## Primitives that move a request -/

/-- The books after the entries of a queue were replaced. -/
theorem books_setEntries (q : QueueId) (l : List ReqId) :
    books (s.setEntries q l) =
      { books s with held := Function.update (held s) (.queue q) l } := by
  unfold books
  congr 1
  funext k
  cases k with
  | queue p =>
      by_cases hp : p = q
      · subst hp
        simp [held, Mem.setEntries, Mem.modDcu, Mem.entries]
      · rw [Function.update_of_ne (by simpa using hp)]
        by_cases hd : p.dcu = q.dcu
        · have hk : p.kind ≠ q.kind := by
            intro hk
            exact hp (by cases p; cases q; simp_all)
          simp [held, Mem.setEntries, Mem.modDcu, Mem.entries, hd, hk]
        · simp [held, Mem.setEntries, Mem.modDcu, Mem.entries, hd]
  | retry d =>
      by_cases hd : d = q.dcu
      · subst hd
        simp [held, Mem.setEntries, Mem.modDcu]
      · simp [held, Mem.setEntries, Mem.modDcu, hd]
  | _ => rfl

/-- The books after the retry queue of a level was replaced. -/
theorem books_setRetry (d : DcuId) (l : List ReqId) :
    books (s.modDcu d fun c => { c with retryQueue := l }) =
      { books s with held := Function.update (held s) (.retry d) l } := by
  unfold books
  congr 1
  funext k
  cases k with
  | queue p =>
      by_cases hd : p.dcu = d
      · subst hd
        simp [held, Mem.modDcu, Mem.entries]
      · simp [held, Mem.modDcu, Mem.entries, hd]
  | retry e =>
      by_cases he : e = d
      · subst he
        simp [held, Mem.modDcu]
      · simp [held, Mem.modDcu, he]
  | _ => rfl

/-- The books after a request was rewritten. -/
theorem books_modReq_eq (r : ReqId) (f : MemReq → MemReq) :
    books (s.modReq r f) =
      { books s with
        held := Function.update (held s) (.merged r) (f (s.req r)).merge
        card := Function.update (books s).card r (card (f (s.req r))) } := by
  unfold books
  congr 1
  · funext k
    cases k with
    | merged p =>
        by_cases hp : p = r
        · subst hp
          simp [held, Mem.modReq]
        · simp [held, Mem.modReq, hp]
    | _ => rfl
  · funext x
    by_cases hx : x = r
    · subst hx
      simp [Mem.modReq]
    · simp [Mem.modReq, hx]

/-- The books after a request was rewritten that keeps its merge list. -/
theorem books_modReq_card (r : ReqId) (f : MemReq → MemReq)
    (hmerge : (f (s.req r)).merge = (s.req r).merge) :
    books (s.modReq r f) =
      { books s with card := Function.update (books s).card r (card (f (s.req r))) } := by
  have hself : Function.update (held s) (.merged r) (s.req r).merge = held s :=
    Function.update_eq_self (.merged r) (held s)
  rw [books_modReq_eq, hmerge, hself]
  rfl

/-- Taking a request out of a queue takes it out of the books of that queue. -/
theorem books_pop (q : QueueId) (r : ReqId) :
    books (s.pop q r) =
      { books s with
        held := Function.update (held s) (.queue q) ((held s (.queue q)).filter (· ≠ r)) } :=
  books_setEntries s q _

/-- The books after a request entered a queue. -/
theorem books_push {q : QueueId} {r : ReqId} (h : (s.push cfg q r).2 = true) :
    ∃ l, l.Perm (r :: held s (.queue q)) ∧
      books (s.push cfg q r).1 =
        { books s with
          held := Function.update (held s) (.queue q) l
          card := Function.update (books s).card r
            { (books s).card r with queue := some q } } := by
  unfold Mem.push at h ⊢
  split at h
  · cases h
  · rename_i hfull
    rw [if_neg hfull]
    refine ⟨(s.modReq r fun req => { req with queue := some q }).sorted cfg (s.entries q ++ [r]),
      ?_, ?_⟩
    · apply (List.perm_insertionSort _ _).trans
      exact List.perm_append_singleton r (s.entries q)
    · have hbooks := books_modReq_card s r (fun req => { req with queue := some q }) rfl
      have hheld := congrArg Books.held hbooks
      change books (Mem.setEntries _ q _) = _
      rw [books_setEntries, hbooks]
      simp only [books] at hheld ⊢
      rw [hheld]
      rfl

/-- A refused request leaves the memory system as it is. -/
theorem push_refused {q : QueueId} {r : ReqId} (h : (s.push cfg q r).2 = false) :
    (s.push cfg q r).1 = s := by
  unfold Mem.push at h ⊢
  split
  · rfl
  · rename_i hfull
    rw [if_neg hfull] at h
    cases h

end MacSim.Analysis
